import SolidityHost.Proofs.Legacy.Linked
import SolidityHost.Proofs.Output.Survival

/-!
# Output of old compilers that is written and read again

The stable form of a document can be written and read again, unless a source has null for its syntax
tree: there null is kept as a tree, and nothing is read for it. Everywhere else null is left out, or
stands for itself. Positions and counts fit a word because texts and lists do.
-/

set_option autoImplicit false

namespace SolidityHost

/-- Texts have fewer bytes and lists fewer elements than half the addresses of a memory. -/
inductive Json.InMemory : Json → Prop
  | null : InMemory .null
  | bool (b : Bool) : InMemory (.bool b)
  | number (n : Json.Number) : InMemory (.number n)
  | string {s : String} (h : Utf8.width s < 0x8000000000000000) : InMemory (.string s)
  | array {items : List Json} (h : items.length < 0x8000000000000000)
      (hall : ∀ j ∈ items, InMemory j) : InMemory (.array items)
  | object {fields : Entries Json} (h : ∀ e ∈ fields, InMemory e.2) : InMemory (.object fields)

theorem Json.InMemory.field? {j k : Json} (h : j.InMemory) {key : String}
    (hk : j.field? key = some k) : k.InMemory := by
  cases h with
  | object h => exact h _ (Entries.mem_of_get? hk)
  | _ => exact nomatch hk

theorem Json.InMemory.single {j : Json} (h : j.InMemory) (key : String) :
    (Json.object [(key, j)]).InMemory :=
  .object (List.forall_mem_singleton.2 h)

theorem Json.InMemory.width {s : String} (h : (Json.string s).InMemory) :
    Utf8.width s < 0x8000000000000000 := by
  cases h with
  | string h => exact h

theorem Json.InMemory.length {items : List Json} (h : (Json.array items).InMemory) :
    items.length < 0x8000000000000000 := by
  cases h with
  | array h _ => exact h

namespace Bytecode

theorem all_gather {P : LinkReference → Prop} {found : List (String × LinkReference)}
    (h : ∀ p ∈ found, P p.2) : (gather found).All fun rs => ∀ r ∈ rs, P r := by
  induction found using List.reverseRecOn with
  | nil => exact .empty _
  | append_singleton found p ih =>
    obtain ⟨hfound, hp⟩ := List.forall_mem_append.1 h
    have hold : ∀ r ∈ ((gather found).get? p.1).getD [], P r := (ih hfound).getD nofun
    rw [gather_concat]
    exact (ih hfound).insert (List.forall_mem_append.2 ⟨hold, fun r hr =>
      List.mem_singleton.1 hr ▸ hp p List.mem_cons_self⟩)

theorem sound_references {code : String} (h : code.toList.length < 0x8000000000000000) :
    LinkReferences.Sound (references code) := by
  refine all_gather fun ⟨key, r⟩ hp => ?_
  obtain ⟨_, i, -, -, hr⟩ := exists_window_of_mem_scan hp
  have hbytes := (byteCount_bounds (code.toList.take i)).2
  have htake := List.length_take_le' i code.toList
  rw [hr]
  exact ⟨by dsimp only; omega, (by decide : addressLength < 0x10000000000000000)⟩

theorem length_link {code linked : String} {libraries : LibraryMap}
    (h : link code libraries = .ok linked) : linked.toList.length = code.toList.length := by
  obtain ⟨_, hwritten⟩ := exists_written_of_linkEntries (linkEntries_of_link h)
  exact hwritten.length_eq

end Bytecode

namespace Legacy

variable {libraries : LibraryMap} {c document : Json}

theorem sound_bytecode {code : Option Json} {b : BytecodeOutput}
    (hcode : ∀ j ∈ code, j.InMemory) (h : bytecode code libraries = .ok b) : b.Sound := by
  unfold bytecode at h
  split at h
  · next code =>
    obtain ⟨linked, hlink, hb⟩ := bind_eq_ok_iff.1 h
    obtain rfl := Except.ok.inj hb
    have hwidth := (hcode _ rfl).width
    have hlength : linked.toList.length < 0x8000000000000000 := by
      have hcount := (Bytecode.byteCount_bounds code.toList).1
      rw [Bytecode.byteCount_eq_width, String.ofList_toList] at hcount
      rw [Bytecode.length_link hlink]
      omega
    refine ⟨nofun, nofun, fun refs hrefs => ?_, nofun⟩
    obtain rfl := Option.some.inj hrefs
    exact Bytecode.sound_references hlength
  · obtain rfl := Except.ok.inj h
    exact BytecodeOutput.sound_empty

theorem inOrder_interface {abi : Json} (hc : c.InOrder) (h : interface c = .ok abi) :
    abi.InOrder := by
  unfold interface at h
  split at h
  · split at h
    · next hparse =>
      obtain rfl := Except.ok.inj h
      exact Json.inOrder_parse? hparse
    · contradiction
  · next _ hj =>
    obtain rfl := Except.ok.inj h
    exact hc.field? hj
  · obtain rfl := Except.ok.inj h
    exact .null

theorem raw_present? (hc : c.InOrder) (key : String) : Json.Raw (present? c key) := by
  intro j hj
  obtain ⟨hfield, hnull⟩ := Option.filter_eq_some_iff.1 hj
  refine ⟨hc.field? hfield, ?_⟩
  rintro rfl
  exact absurd hnull (by decide)

theorem gasFields_eq (fields : List (String × Json)) :
    gasFields fields = fields.map fun e => (e.1, gas e.2) := by
  induction fields with
  | nil => rfl
  | cons e rest ih => rw [gasFields, ih, List.map_cons]

theorem mem_gasItems {items : List Json} {i : Nat} {e : String × Json} (h : e ∈ gasItems i items) :
    ∃ j ∈ items, e.2 = gas j := by
  induction items generalizing i with
  | nil => contradiction
  | cons j rest ih =>
    rcases List.mem_cons.1 h with rfl | h
    · exact ⟨j, List.mem_cons_self, rfl⟩
    · obtain ⟨k, hk, he⟩ := ih h
      exact ⟨k, List.mem_cons_of_mem _ hk, he⟩

theorem inOrder_gas {j : Json} (h : j.InOrder) : (gas j).InOrder := by
  induction h with
  | null | bool | number | string => exact .string _
  | @array items h ih =>
    rw [gas]
    refine .object (Entries.ordered_ofList _) fun e he => ?_
    obtain ⟨j, hj, he⟩ := mem_gasItems (Entries.mem_ofList he)
    exact he ▸ ih j hj
  | @object fields ho h ih =>
    rw [gas, gasFields_eq]
    refine .object (ho.map gas) fun e he => ?_
    obtain ⟨d, hd, rfl⟩ := List.mem_map.1 he
    exact ih d hd

theorem gas_ne_null (j : Json) : gas j ≠ .null := by
  cases j <;> simp [gas]

theorem raw_estimate? {estimates : Json} (h : estimates.InOrder) (key : String) :
    Json.Raw ((estimate? estimates key).map gas) := by
  intro j hj
  obtain ⟨k, hk, rfl⟩ := Option.map_eq_some_iff.1 hj
  exact ⟨inOrder_gas (h.field? (Option.filter_eq_some_iff.1 hk).1), gas_ne_null k⟩

theorem inOrder_creationCost {creation : Json} (h : creation.InOrder) (position : Nat) :
    (creationCost creation position).InOrder := by
  refine inOrder_gas ?_
  cases hj : creation.item? position with
  | none => exact .null
  | some j =>
    obtain ⟨items, hitems, hj⟩ := Option.bind_eq_some_iff.1 hj
    cases creation with
    | array _ =>
      obtain rfl := Option.some.inj hitems
      exact h.items j (List.mem_of_getElem? hj)
    | _ => exact nomatch hitems

theorem sound_gasEstimates {estimates : Json} (h : estimates.InOrder) :
    (gasEstimates estimates).Sound where
  creation := by
    intro costs hcosts
    obtain ⟨creation, hcreation, rfl⟩ := Option.map_eq_some_iff.1 hcosts
    have horder := h.field? (Option.filter_eq_some_iff.1 hcreation).1
    exact ⟨inOrder_creationCost horder 1, inOrder_creationCost horder 0⟩
  external := raw_estimate? h _
  internal := raw_estimate? h _

theorem sound_contract {out : ContractOutput} (hc : c.InOrder) (hm : c.InMemory)
    (h : contract c libraries = .ok out) : out.Sound := by
  obtain ⟨abi, habi, h⟩ := bind_eq_ok_iff.1 h
  obtain ⟨creation, hcreation, h⟩ := bind_eq_ok_iff.1 h
  obtain ⟨deployed, hdeployed, h⟩ := bind_eq_ok_iff.1 h
  obtain rfl := Except.ok.inj h
  have hcreation := sound_bytecode (fun j => hm.field?) hcreation
  have hdeployed := sound_bytecode (fun j => hm.field?) hdeployed
  have hgas : (((c.field? "gasEstimates").map gasEstimates).getD .empty).Sound := by
    cases hg : c.field? "gasEstimates" with
    | none => exact GasEstimates.sound_empty
    | some estimates => exact sound_gasEstimates (hc.field? hg)
  exact {
    abi := inOrder_interface hc habi
    metadata := raw_present? hc _
    userdoc := nofun
    devdoc := nofun
    ir := nofun
    evm := {
      legacyAssembly := raw_present? hc _
      bytecode := ⟨raw_present? hc _, raw_present? hc _, hcreation.linkReferences,
        hcreation.generatedSources⟩
      deployedBytecode := ⟨hdeployed.opcodes, raw_present? hc _, hdeployed.linkReferences,
        hdeployed.generatedSources⟩
      methodIdentifiers := raw_present? hc _
      gasEstimates := hgas }
    ewasm := nofun }

def sourcesIn (document : Json) : Entries Json :=
  ((document.field? "sources").bind Json.object?).getD []

def HasNullTree (document : Json) : Prop :=
  ∃ e ∈ sourcesIn document, e.2.field? "AST" = some .null

theorem sourceId?_lt (hm : document.InMemory) {name : String} {id : Nat}
    (h : sourceId? document name = some id) : id < 0x8000000000000000 := by
  unfold sourceId? at h
  dsimp only at h
  obtain ⟨e, he, rfl⟩ := Option.map_eq_some_iff.1 h
  have hmem := (List.mem_filter.1 (List.mem_of_getLast? he)).1
  have hlt := (List.mem_zipIdx hmem).2.1
  cases hlist : document.field? "sourceList" with
  | none => simp [hlist] at hlt
  | some list =>
    cases list with
    | array items =>
      have hlength := (hm.field? hlist).length
      simp only [hlist, Option.bind_some, Json.array?, Option.getD_some] at hlt
      omega
    | _ => simp [hlist, Json.array?] at hlt

theorem entries_sourcesOf (hd : document.InOrder) : (sourcesOf document).entries =
    (sourcesIn document).map fun e =>
      (e.1, ⟨sourceId? document e.1, none, e.2.field? "AST"⟩) := by
  rw [sourcesOf, Dict.entries_ofList]
  refine Entries.ofList_of_ordered (Entries.ordered_iff.2 ?_)
  rw [List.map_map]
  exact Entries.ordered_iff.1 (hd.ordered_field? "sources")

theorem storable_sourcesOf (hd : document.InOrder) (hm : document.InMemory) :
    (sourcesOf document).All SourceOutput.Storable := by
  intro e he
  rw [entries_sourcesOf hd] at he
  obtain ⟨source, hsource, rfl⟩ := List.mem_map.1 he
  refine ⟨fun id hid => ?_, nofun, fun tree htree => (hd.of_mem_field? hsource).field? htree⟩
  have hlt := sourceId?_lt hm hid
  omega

theorem storable_normalize {out : Output} (hd : document.InOrder) (hm : document.InMemory)
    (h : normalize document libraries = .ok (some out)) : out.Storable := by
  obtain ⟨contracts, hcontracts, rfl⟩ := exists_contracts_of_normalize h
  have hcontract : ∀ e ∈ contractsIn document, ∀ c, contract e.2 libraries = .ok c → c.Sound := by
    intro e he c hc
    refine sound_contract (hd.of_mem_field? he) ?_ hc
    obtain ⟨fields, hfields, he⟩ := Json.mem_object? he
    cases hm.field? hfields with
    | object hall => exact hall e he
  refine ⟨fun d hdiagnostic => ?_, storable_sourcesOf hd hm,
    all_contractsOf hcontract (.empty _) hcontracts⟩
  obtain ⟨message, -, rfl⟩ := List.mem_map.1 hdiagnostic
  exact nofun

theorem withoutNullTrees_normalize {out : Output} (hd : document.InOrder)
    (h : normalize document libraries = .ok (some out)) :
    out.withoutNullTrees = out ↔ ¬ HasNullTree document := by
  obtain ⟨contracts, -, rfl⟩ := exists_contracts_of_normalize h
  rw [Output.withoutNullTrees_eq_self_iff, Dict.All, entries_sourcesOf hd, List.forall_mem_map,
    HasNullTree, not_exists]
  exact forall_congr' fun e => not_and.symm

/-- The stable form of a document is read again without its trees that are null, from its text as
well if that can be read at all. So it comes back exactly if no source has null for its tree. -/
theorem normalize_survives {out : Output} (hd : document.InOrder) (hm : document.InMemory)
    (h : normalize document libraries = .ok (some out)) :
    Output.decode out.encode = some out.withoutNullTrees ∧
      (out.encode.Readable Json.maxNesting →
        ∃ w, Json.parse? out.toText = some w ∧ Output.decode w = some out.withoutNullTrees) ∧
      (out.withoutNullTrees = out ↔ ¬ HasNullTree document) := by
  have hstorable := storable_normalize hd hm h
  refine ⟨Output.reread Json.arrangement_id hstorable, fun hr => ?_,
    withoutNullTrees_normalize hd h⟩
  exact ⟨_, Json.parse?_toText hr, Output.reread Json.arrangement_sorted hstorable⟩

def flat : Json :=
  .object [
    ("contracts", .object [
      ("a:C", .object [("functionHashes", .object [("f()", .string "26121ff0")])])]),
    ("sourceList", .array [.string "a"]),
    ("sources", .object [("a", .object [("AST", .object [("name", .string "SourceUnit")])])])]

theorem normalize_survives_flat :
    flat.InOrder ∧ flat.InMemory ∧ ¬ HasNullTree flat ∧
      ∃ out, normalize flat .empty = .ok (some out) ∧ out.encode.Readable Json.maxNesting ∧
        Output.decode out.encode = some out ∧
        ∃ w, Json.parse? out.toText = some w ∧ Output.decode w = some out := by
  have hd : flat.InOrder := by
    refine .object (Entries.ordered_iff.2 (by decide)) (List.forall_mem_cons.2
      ⟨?contracts, List.forall_mem_cons.2 ⟨?sourceList, List.forall_mem_singleton.2 ?sources⟩⟩)
    case contracts => exact (((Json.InOrder.string _).single _).single _).single _
    case sourceList => exact .array (List.forall_mem_singleton.2 (.string _))
    case sources => exact (((Json.InOrder.string _).single _).single _).single _
  have hm : flat.InMemory := by
    have hshort {s : String} (h : Utf8.width s < 20) : (Json.string s).InMemory :=
      .string (by omega)
    refine .object (List.forall_mem_cons.2 ⟨?contracts, List.forall_mem_cons.2
      ⟨?sourceList, List.forall_mem_singleton.2 ?sources⟩⟩)
    case contracts => exact (((hshort (by decide)).single _).single _).single _
    case sourceList => exact .array (by decide) (List.forall_mem_singleton.2 (hshort (by decide)))
    case sources => exact (((hshort (by decide)).single _).single _).single _
  have hnull : ¬ HasNullTree flat := by
    rintro ⟨source, hsource, htree⟩
    obtain rfl := List.mem_singleton.1 hsource
    cases htree
  obtain ⟨out, hout, hr⟩ : ∃ out, normalize flat .empty = .ok (some out) ∧
      out.encode.Readable 127 := by
    have hevm : (EvmOutput.mk none none .empty .empty
        (some (.object [("f()", .string "26121ff0")])) .empty).encode.Readable 123 := by
      have hempty : (Json.object []).Readable 122 := .object (List.forall_mem_nil _)
      exact .object (List.forall_mem_cons.2 ⟨hempty, List.forall_mem_cons.2 ⟨hempty,
        List.forall_mem_cons.2 ⟨Json.Readable.single (.string _ _) _,
          List.forall_mem_singleton.2 hempty⟩⟩⟩)
    have hsource : (SourceOutput.mk (some 0) none
        (some (.object [("name", .string "SourceUnit")]))).encode.Readable 125 :=
      .object (List.forall_mem_cons.2 ⟨.number _ (Json.readsBack_integer 0 (by decide)),
        List.forall_mem_singleton.2 (Json.Readable.single (.string _ _) _)⟩)
    refine ⟨_, rfl, .object (List.forall_mem_cons.2 ⟨hsource.single _, ?_⟩)⟩
    exact List.forall_mem_singleton.2 (Json.Readable.single (Json.Readable.single (.object
      (List.forall_mem_cons.2 ⟨.null _, List.forall_mem_singleton.2 hevm⟩)) _) _)
  obtain ⟨hread, htext, hiff⟩ := normalize_survives hd hm hout
  rw [hiff.2 hnull] at hread htext
  exact ⟨hd, hm, hnull, out, hout, hr, hread, htext hr⟩

def unparsed : Json := .object [("sources", .object [("a", .object [("AST", .null)])])]

theorem exists_forgotten_tree :
    ∃ out w p, normalize unparsed .empty = .ok (some out) ∧
      out.toText = "\x7b\"sources\":\x7b\"a\":\x7b\"legacyAST\":null\x7d\x7d\x7d" ∧
      Json.parse? out.toText = some w ∧ Output.decode w = some p ∧
      p.toText = "\x7b\"sources\":\x7b\"a\":\x7b\x7d\x7d\x7d" := by
  have hread : ((Json.parse?
        "\x7b\"sources\":\x7b\"a\":\x7b\"legacyAST\":null\x7d\x7d\x7d").bind
      Output.decode).map Output.toText =
      some "\x7b\"sources\":\x7b\"a\":\x7b\x7d\x7d\x7d" := by
    decide +kernel
  obtain ⟨p, hp, htext⟩ := Option.map_eq_some_iff.1 hread
  obtain ⟨w, hw, hp⟩ := Option.bind_eq_some_iff.1 hp
  exact ⟨_, w, p, rfl, rfl, hw, hp, htext⟩

end Legacy

end SolidityHost
