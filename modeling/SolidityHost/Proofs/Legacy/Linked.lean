import SolidityHost.Legacy.Document
import SolidityHost.Proofs.Bytecode.Positions
import SolidityHost.Proofs.Dict
import SolidityHost.Proofs.Legacy.Outcome

/-!
# Linked output

Code of an old compiler is linked before it is scanned for what is left to link. So in the stable
form no library that was supplied is left in the code, and none is reported as missing: neither
under what a label shows of its name nor under the digits that stand for it.
-/

set_option autoImplicit false

namespace SolidityHost

theorem bind_eq_ok_iff {ε α β : Type} {x : Except ε α} {f : α → Except ε β} {b : β} :
    x >>= f = .ok b ↔ ∃ a, x = .ok a ∧ f a = .ok b := by
  cases x <;> simp [bind, Except.bind]

/-- What is left to link is reported, and the libraries are neither in the code nor reported. -/
structure BytecodeOutput.Linked (libraries : Entries String) (b : BytecodeOutput) : Prop where
  scanned : b.linkReferences = b.object.map Bytecode.references
  replaced : ∀ object, b.object = some object → ∀ e ∈ libraries,
    ¬ (Placeholder.label e.1).text <:+: object.toList ∧
      ¬ (Placeholder.hashed e.1).text <:+: object.toList
  unreported : ∀ refs, b.linkReferences = some refs → ∀ e ∈ libraries,
    String.ofList (Bytecode.untrailed (e.1.toList.take 36)) ∉ refs.keys ∧
      String.ofList ('$' :: (Placeholder.hashDigits e.1 ++ ['$'])) ∉ refs.keys

namespace Bytecode

theorem key_notMem_references {p : Placeholder} {code : String} (h : Absent p code.toList) :
    p.key ∉ (references code).keys := by
  intro hkey
  obtain ⟨places, hplaces⟩ := Entries.exists_get?_of_mem_keys hkey
  have hgather : (gather (scan 0 code.toList)).get? p.key = some places := hplaces
  rw [get?_gather] at hgather
  split at hgather
  · contradiction
  · next hfound =>
    obtain ⟨r, hr⟩ := List.exists_mem_of_ne_nil _ hfound
    obtain ⟨q, i, hq, hi, -⟩ := exists_window_of_mem_scan (mem_foundUnder.1 hr)
    exact h i (Placeholder.key_inj.1 hq ▸ hi)

theorem linked_of_link {code linked : String} {libraries : LibraryMap}
    (h : link code libraries = .ok linked) :
    ({ BytecodeOutput.empty with
      object := some linked, linkReferences := some (references linked) } :
        BytecodeOutput).Linked libraries.entries := by
  have habsent {e : String × String} (he : e ∈ libraries.entries) {p : Placeholder}
      (hp : Stands p e.1) : Absent p linked.toList :=
    absent_of_linkEntries (linkEntries_of_link h) e he p hp
  refine ⟨rfl, ?_, ?_⟩
  · rintro _ ⟨rfl⟩ e he
    exact ⟨absent_iff.1 (habsent he (.inl rfl)), absent_iff.1 (habsent he (.inr rfl))⟩
  · rintro _ ⟨rfl⟩ e he
    rw [← Placeholder.key_label, ← Placeholder.key_hashed]
    exact ⟨key_notMem_references (habsent he (.inl rfl)),
      key_notMem_references (habsent he (.inr rfl))⟩

end Bytecode

theorem BytecodeOutput.Linked.empty (libraries : Entries String) :
    BytecodeOutput.empty.Linked libraries := ⟨rfl, nofun, nofun⟩

def ContractOutput.Linked (libraries : Entries String) (c : ContractOutput) : Prop :=
  c.evm.bytecode.Linked libraries ∧ c.evm.deployedBytecode.Linked libraries

namespace Legacy

variable {libraries : LibraryMap}

theorem linked_bytecode {code : Option Json} {b : BytecodeOutput}
    (h : bytecode code libraries = .ok b) : b.Linked libraries.entries := by
  unfold bytecode at h
  split at h
  · obtain ⟨linked, hlink, hb⟩ := bind_eq_ok_iff.1 h
    obtain rfl := Except.ok.inj hb
    exact Bytecode.linked_of_link hlink
  · obtain rfl := Except.ok.inj h
    exact .empty _

theorem linked_contract {c : Json} {out : ContractOutput} (h : contract c libraries = .ok out) :
    out.Linked libraries.entries := by
  obtain ⟨abi, -, h⟩ := bind_eq_ok_iff.1 h
  obtain ⟨creation, hcreation, h⟩ := bind_eq_ok_iff.1 h
  obtain ⟨deployed, hdeployed, h⟩ := bind_eq_ok_iff.1 h
  obtain rfl := Except.ok.inj h
  have hc := linked_bytecode hcreation
  have hd := linked_bytecode hdeployed
  -- operation lists and source maps come from elsewhere, and say nothing about libraries
  exact ⟨⟨hc.scanned, hc.replaced, hc.unreported⟩, ⟨hd.scanned, hd.replaced, hd.unreported⟩⟩

theorem all_contractsOf {P : ContractOutput → Prop} {done out : Dict (Dict ContractOutput)}
    {contracts : Entries Json}
    (hP : ∀ e ∈ contracts, ∀ c, contract e.2 libraries = .ok c → P c)
    (hdone : done.All (·.All P)) (h : contractsOf libraries done contracts = .ok (some out)) :
    out.All (·.All P) := by
  induction contracts generalizing done with
  | nil =>
    obtain rfl := Option.some.inj (Except.ok.inj h)
    exact hdone
  | cons e rest ih =>
    obtain ⟨key, c⟩ := e
    obtain ⟨hc, hrest⟩ := List.forall_mem_cons.1 hP
    rw [contractsOf] at h
    split at h
    · cases Except.ok.inj h
    · obtain ⟨out, hout, h⟩ := bind_eq_ok_iff.1 h
      exact ih hrest (hdone.insert ((hdone.getD (.empty _)).insert (hc out hout))) h

theorem exists_contracts_of_normalize {document : Json} {out : Output}
    (h : normalize document libraries = .ok (some out)) :
    ∃ contracts, contractsOf libraries .empty (contractsIn document) = .ok (some contracts) ∧
      out = ⟨(messages document).map diagnostic, sourcesOf document, contracts⟩ := by
  unfold normalize at h
  split at h
  · obtain ⟨contracts, hcontracts, h⟩ := bind_eq_ok_iff.1 h
    obtain ⟨contracts, rfl, rfl⟩ := Option.map_eq_some_iff.1 (Except.ok.inj h)
    exact ⟨contracts, hcontracts, rfl⟩
  · contradiction

theorem linked_normalize {document : Json} {output : Output}
    (h : normalize document libraries = .ok (some output)) :
    output.contracts.All (·.All (·.Linked libraries.entries)) := by
  obtain ⟨contracts, hcontracts, rfl⟩ := exists_contracts_of_normalize h
  exact all_contractsOf (fun _ _ _ => linked_contract) (.empty _) hcontracts

end Legacy

end SolidityHost
