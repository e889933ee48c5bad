import Mathlib.Data.List.Permutation
import SolidityHost.Compiler.Standard
import SolidityHost.Proofs.Legacy.Linked
import SolidityHost.Proofs.Legacy.Outcome
import SolidityHost.Proofs.Simulated.Discipline

/-!
# Libraries of a compilation

Libraries that come with an input are linked by the host, whatever the module makes of the rest of
it. So of whatever text the module gives, the document that is made of it has no contract that still
needs one of them.
-/

set_option autoImplicit false

namespace SolidityHost

variable {input : String} {request mapping : Json} {libraries : LibraryMap}

theorem LegacyInput.libraries_of_parse {i : LegacyInput} (h : parse input = .ok i)
    (hinput : Json.parse? input = some request)
    (hmapping : (request.field? "settings").bind (·.field? "libraries") = some mapping)
    (hlibraries : LibraryMap.ofJson mapping = .ok libraries) : i.libraries = some libraries := by
  have hof : librariesOf (request.field? "settings") = .ok (some libraries) := by
    rw [librariesOf, hmapping]
    dsimp only
    rw [hlibraries]
  rw [parse, hinput] at h
  dsimp only [ofJson] at h
  split at h
  · obtain ⟨sources, -, h⟩ := bind_eq_ok_iff.1 h
    rw [hof] at h
    obtain rfl := Except.ok.inj h
    rfl
  · contradiction

namespace Compiler

open Program

variable {C σ S : Type} {c : Compiler} {handlers : Handlers σ}
  {meaning : Meaning (HostFunction C σ) σ S} {s t : S × σ}

theorem compile_eq (hstandard : c.descriptor.standard? = none) :
    c.compile input handlers =
      (c.compileLegacy input handlers : HostProgram C σ (Except FatalFault Output)) >>=
        fun result => pure (document result).toText := by
  simp [compile, hstandard]

theorem run_compileLegacy {i : LegacyInput} {call : HostProgram C σ String} {text : String}
    (hinput : LegacyInput.parse input = .ok i) (hcall : c.legacyCall i handlers = .ok call)
    (h : call.run meaning s = (.ok text, t)) :
    (c.compileLegacy input handlers).run meaning s =
      (.ok (normalizeText text (i.libraries.getD .empty)), t) := by
  unfold compileLegacy
  rw [hinput]
  dsimp only
  rw [hcall]
  dsimp only
  rw [bind_eq, run_bind, h]
  rfl

theorem run_compile {result : Except FatalFault Output} (hstandard : c.descriptor.standard? = none)
    (h : (c.compileLegacy input handlers).run meaning s = (.ok result, t)) :
    (c.compile input handlers).run meaning s = (.ok (document result).toText, t) := by
  rw [compile_eq hstandard, bind_eq, run_bind, h]
  rfl

theorem linked_normalizeText {text : String} {output : Output}
    (h : normalizeText text libraries = .ok output) :
    output.contracts.All (·.All (·.Linked libraries.entries)) := by
  unfold normalizeText at h
  split at h
  · contradiction
  · split at h
    · next hnormalize =>
      obtain rfl := Except.ok.inj h
      exact Legacy.linked_normalize hnormalize
    · contradiction
    · contradiction

theorem linked_compileLegacy {output : Output} (hinput : Json.parse? input = some request)
    (hmapping : (request.field? "settings").bind (·.field? "libraries") = some mapping)
    (hlibraries : LibraryMap.ofJson mapping = .ok libraries)
    (h : (c.compileLegacy input handlers).run meaning s = (.ok (.ok output), t)) :
    output.contracts.All (·.All (·.Linked libraries.entries)) := by
  unfold compileLegacy at h
  split at h
  · have hfault := (run_pure_eq_ok h).1
    contradiction
  · next i hi =>
    split at h
    · have hfault := (run_pure_eq_ok h).1
      contradiction
    · obtain ⟨text, u, -, hrun⟩ := run_bind_eq_ok h
      have hnormalize := (run_pure_eq_ok hrun).1
      rw [LegacyInput.libraries_of_parse hi hinput hmapping hlibraries] at hnormalize
      exact linked_normalizeText hnormalize

/-- A compiler without standard JSON gives a document in which no supplied library is left: neither
in the code of a contract nor among what is to be linked there. -/
theorem linked_compile (hstandard : c.descriptor.standard? = none)
    (hinput : Json.parse? input = some request)
    (hmapping : (request.field? "settings").bind (·.field? "libraries") = some mapping)
    (hlibraries : LibraryMap.ofJson mapping = .ok libraries) {text : String}
    (h : (c.compile input handlers).run meaning s = (.ok text, t)) :
    ∃ result, (c.compileLegacy input handlers).run meaning s = (.ok result, t) ∧
      text = (document result).toText ∧
      ∀ output, result = .ok output → ∀ file ∈ output.contracts.entries,
        ∀ contract ∈ file.2.entries,
          contract.2.evm.bytecode.Linked libraries.entries ∧
            contract.2.evm.deployedBytecode.Linked libraries.entries := by
  rw [compile_eq hstandard] at h
  obtain ⟨result, u, hrun, hend⟩ := run_bind_eq_ok h
  obtain ⟨rfl, rfl⟩ := run_pure_eq_ok hend
  refine ⟨result, hrun, rfl, ?_⟩
  rintro output rfl
  exact linked_compileLegacy hinput hmapping hlibraries hrun

def supply : Json := .object [("libraries", .object [("L", .string "0x1F")])]

def supplied : Json :=
  .object [("language", .string "Solidity"), ("settings", supply),
    ("sources", .object [("a", .object [("content", .string "")])])]

def supplies : LibraryMap := .ofList [("L", "0x1F")]

def unlinked : Json :=
  .object [("contracts", .object [("a:A",
    .object [("bytecode", .string "60__L_____________________________________")])])]

def supplier : Simulated Empty Unit :=
  .ofEntries [("version", .text "0.1.1"), ("compileJSON", .text unlinked.toText)]

theorem parse?_supplied : Json.parse? supplied.toText = some supplied := by cbv

theorem parse?_unlinked : Json.parse? unlinked.toText = some unlinked := by cbv

theorem exists_normalizeText_unlinked :
    ∃ output, normalizeText unlinked.toText supplies = .ok output := by
  have hsound : ∀ e ∈ Legacy.contractsIn unlinked, ¬ Legacy.Offends supplies e.1 e.2 := by
    refine List.forall_mem_singleton.2 (not_or.2 ⟨?_, not_or.2 ⟨?_, ?_⟩⟩)
    · rw [← Legacy.splitKey?_eq_none_iff]
      decide
    · rintro ⟨text, htext, -⟩
      contradiction
    · rintro ⟨-, name, address, hmem, haddress⟩
      have hwellFormed : ∀ e ∈ supplies.entries, Address.WellFormed e.2 := by decide
      exact haddress (hwellFormed _ hmem)
  obtain ⟨f, hf⟩ := Legacy.exists_normalize_eq _ supplies
  obtain ⟨contracts, hcontracts⟩ := (Legacy.exists_contractsOf_iff .empty _).2 hsound
  refine ⟨f contracts, ?_⟩
  unfold normalizeText
  rw [parse?_unlinked]
  dsimp only
  rw [unlinked, hf, ← unlinked, hcontracts]
  rfl

theorem linked_compile_supplied :
    Json.parse? supplied.toText = some supplied ∧
      (supplied.field? "settings").bind (·.field? "libraries") =
        some (.object [("L", .string "0x1F")]) ∧
      LibraryMap.ofJson (.object [("L", .string "0x1F")]) = .ok supplies ∧
      ∃ c s, Simulated.run Simulated.noCode load (supplier, ()) = (.ok c, s) ∧
        c.descriptor.standard? = none ∧
        ∃ (output : Output) (t : Simulated Empty Unit × Unit),
          Simulated.run Simulated.noCode (c.compile supplied.toText .none) s =
            (.ok output.toText, t) ∧
          ∀ file ∈ output.contracts.entries, ∀ contract ∈ file.2.entries,
            contract.2.evm.bytecode.Linked supplies.entries ∧
              contract.2.evm.deployedBytecode.Linked supplies.entries := by
  have hsettings : (supplied.field? "settings").bind (·.field? "libraries") =
      some (.object [("L", .string "0x1F")]) := rfl
  have hlibraries : LibraryMap.ofJson (.object [("L", .string "0x1F")]) = .ok supplies := rfl
  obtain ⟨c, s, hload, hstandard, hpreferred, hcall⟩ :
      ∃ c s, Simulated.run Simulated.noCode load (supplier, ()) = (.ok c, s) ∧
        c.descriptor.standard? = none ∧ c.descriptor.preferred? = some .single ∧
          (Simulated.run Simulated.noCode (c.compileSingle "" false) s).1 = .ok unlinked.toText :=
    Simulated.exists_loaded (by decide +kernel)
  obtain ⟨output, houtput⟩ := exists_normalizeText_unlinked
  have hinput : LegacyInput.parse supplied.toText = .ok ⟨[("a", "")], false, some supplies⟩ := by
    rw [LegacyInput.parse, parse?_supplied]
    rfl
  have hlegacy : (c.compileLegacy supplied.toText .none).run _ s = (.ok (.ok output), _) :=
    houtput ▸ run_compileLegacy hinput (by rw [legacyCall, hpreferred]) (Prod.ext hcall rfl)
  have hcompile := run_compile hstandard hlegacy
  obtain ⟨result, hresult, htext, hlinked⟩ :=
    linked_compile hstandard parse?_supplied hsettings hlibraries hcompile
  have hok : result = .ok output := Except.ok.inj (Prod.mk.inj (hresult.symm.trans hlegacy)).1
  exact ⟨parse?_supplied, hsettings, hlibraries, c, s, hload, hstandard, output, _, hcompile,
    hlinked output hok⟩

end Compiler

end SolidityHost
