import SolidityHost.Proofs.Compiler.Input
import SolidityHost.Proofs.Compiler.Linked

/-!
# Faults of the data and failures of the module

A compiler without standard JSON reports what is wrong with an input, or with what the module makes
of it, in the document that it gives. An input that is rejected does not reach the module. For one
that is accepted a single entry point is run; if that run fails, so does the compilation, in the
same way, and nothing else fails it.
-/

set_option autoImplicit false

namespace SolidityHost

structure Output.ReportsOnly (o : Output) (message : String) : Prop where
  diagnostics : ∃ d, o.diagnostics = [d] ∧ d.kind = "JSONError" ∧ d.severity = .error ∧
    d.message = message
  sources : o.sources.entries = []
  contracts : o.contracts.entries = []

theorem Output.reportsOnly_fatal (message : String) : (fatal message).ReportsOnly message :=
  ⟨⟨_, rfl, rfl, rfl, rfl⟩, rfl, rfl⟩

theorem Descriptor.preferred?_eq_none_iff {d : Descriptor} :
    d.preferred? = none ↔ d.entries = [] := by
  rw [preferred?, List.head?_eq_none_iff]

theorem Descriptor.mem_of_preferred? {d : Descriptor} {e : CompileEntry}
    (h : d.preferred? = some e) : e ∈ d.entries := List.mem_of_mem_head? h

namespace Compiler

open Program

variable {C σ S : Type} {c : Compiler} {input text : String} {handlers : Handlers σ}
  {meaning : Meaning (HostFunction C σ) σ S} {s t : S × σ} {fault : FatalFault} {i : LegacyInput}
  {request : Json} {call : HostProgram C σ String} {libraries : LibraryMap}

/-- Why an input is rejected. A module for single sources takes no other number of them. -/
inductive Rejects (c : Compiler) (input : String) : FatalFault → Prop
  | malformed (h : Json.parse? input = none) : Rejects c input .malformedInput
  | faulty {document : Json} {fault : FatalFault} (hd : Json.parse? input = some document)
      (h : LegacyInput.Faulty document fault) : Rejects c input fault
  | several {document : Json} (hd : Json.parse? input = some document)
      (hi : ∀ fault, ¬ LegacyInput.Faulty document fault)
      (hp : c.descriptor.preferred? = some .single)
      (h : (LegacyInput.filesOf document).length ≠ 1) : Rejects c input .tooManySources
  | noEntry {document : Json} (hd : Json.parse? input = some document)
      (hi : ∀ fault, ¬ LegacyInput.Faulty document fault) (h : c.descriptor.entries = []) :
      Rejects c input .noEntry

inductive Runs (c : Compiler) (i : LegacyInput) (handlers : Handlers σ) :
    HostProgram C σ String → Prop
  | multiCallback (h : c.descriptor.preferred? = some .multiCallback) :
      Runs c i handlers (EntryRun.run c.primitives (CompileEntry.symbol .multiCallback)
        i.sourcesText [.bool i.optimize] (some ⟨.importOnly, handlers⟩))
  | multi (h : c.descriptor.preferred? = some .multi) :
      Runs c i handlers (EntryRun.run c.primitives (CompileEntry.symbol .multi)
        i.sourcesText [.bool i.optimize] none)
  | single (h : c.descriptor.preferred? = some .single) {file content : String}
      (hi : i.sources = [(file, content)]) :
      Runs c i handlers (EntryRun.run c.primitives (CompileEntry.symbol .single)
        content [.bool i.optimize] none)

inductive Normalizes (text : String) (libraries : LibraryMap) : Output → Prop
  | translated {document : Json} {out : Output} (hd : Json.parse? text = some document)
      (h : Legacy.normalize document libraries = .ok (some out)) : Normalizes text libraries out
  | malformed {out : Output} (hd : Json.parse? text = none)
      (h : out.ReportsOnly FatalFault.malformedOutput.message) : Normalizes text libraries out
  | unsplittable {document : Json} {out : Output} (hd : Json.parse? text = some document)
      (hn : Legacy.normalize document libraries = .ok none)
      (h : out.ReportsOnly FatalFault.unsplittableContract.message) :
      Normalizes text libraries out
  | refused {document : Json} {error : NormalizationError} {out : Output}
      (hd : Json.parse? text = some document)
      (hn : Legacy.normalize document libraries = .error error)
      (h : out.ReportsOnly (FatalFault.badOutput error).message) : Normalizes text libraries out

theorem normalizes_normalizeText (text : String) (libraries : LibraryMap) :
    Normalizes text libraries (document (normalizeText text libraries)) := by
  unfold normalizeText
  split
  · next hd => exact .malformed hd (Output.reportsOnly_fatal _)
  · next hd =>
    split
    · next hn => exact .translated hd hn
    · next hn => exact .unsplittable hd hn (Output.reportsOnly_fatal _)
    · next hn => exact .refused hd hn (Output.reportsOnly_fatal _)

theorem require_of_preferred? {e : CompileEntry} (h : c.descriptor.preferred? = some e)
    (p : HostProgram C σ String) : c.require e p = p :=
  if_pos (Descriptor.mem_of_preferred? h)

theorem runs_of_legacyCall (h : c.legacyCall i handlers = .ok call) : c.Runs i handlers call := by
  unfold legacyCall at h
  split at h
  · next hp =>
    obtain rfl := Except.ok.inj h
    rw [compileCallback, require_of_preferred? hp]
    exact .multiCallback hp
  · next hp =>
    obtain rfl := Except.ok.inj h
    rw [compileMulti, require_of_preferred? hp]
    exact .multi hp
  · next hp =>
    split at h
    · next hi =>
      obtain rfl := Except.ok.inj h
      rw [compileSingle, require_of_preferred? hp]
      exact .single hp hi
    · contradiction
  · contradiction

/-- Only a module that has no entry point, or takes single sources, refuses an accepted input. -/
theorem legacyCall_eq_error (hstandard : c.descriptor.standard? = none)
    (h : (c.legacyCall i handlers : Except _ (HostProgram C σ String)) = .error fault) :
    (c.descriptor.preferred? = some .single ∧ i.sources.length ≠ 1 ∧ fault = .tooManySources) ∨
      (c.descriptor.entries = [] ∧ fault = .noEntry) := by
  unfold legacyCall at h
  split at h
  · contradiction
  · contradiction
  · next hp =>
    split at h
    · contradiction
    · next hi =>
      refine .inl ⟨hp, fun hlength => ?_, (Except.error.inj h).symm⟩
      obtain ⟨e, he⟩ := List.length_eq_one_iff.1 hlength
      exact hi e.1 e.2 he
  · next hcallback hmulti hsingle =>
    refine .inr ⟨Descriptor.preferred?_eq_none_iff.1 ?_, (Except.error.inj h).symm⟩
    rw [Descriptor.standard?] at hstandard
    cases hp : c.descriptor.preferred? with
    | none => rfl
    | some e =>
      rw [hp] at hstandard
      cases e <;> contradiction

theorem legacyCall_of_several (hp : c.descriptor.preferred? = some .single)
    (hi : i.sources.length ≠ 1) :
    (c.legacyCall i handlers : Except _ (HostProgram C σ String)) = .error .tooManySources := by
  unfold legacyCall
  rw [hp]
  dsimp only
  split
  · next hone => exact absurd (congrArg List.length hone) hi
  · rfl

theorem legacyCall_of_noEntry (h : c.descriptor.entries = []) :
    (c.legacyCall i handlers : Except _ (HostProgram C σ String)) = .error .noEntry := by
  rw [legacyCall, Descriptor.preferred?_eq_none_iff.2 h]

theorem parse_eq (hd : Json.parse? input = some request) :
    LegacyInput.parse input = LegacyInput.ofJson request := by
  rw [LegacyInput.parse, hd]

theorem exists_ofJson_eq_ok (h : ∀ fault, ¬ LegacyInput.Faulty request fault) :
    ∃ i, LegacyInput.ofJson request = .ok i ∧ LegacyInput.Reads request i := by
  cases hof : LegacyInput.ofJson request with
  | error fault => exact absurd (LegacyInput.faulty_of_ofJson hof) (h fault)
  | ok i => exact ⟨i, rfl, LegacyInput.reads_of_ofJson hof⟩

theorem compileLegacy_of_legacyCall (hi : LegacyInput.parse input = .ok i)
    (h : (c.legacyCall i handlers : Except _ (HostProgram C σ String)) = .error fault) :
    (c.compileLegacy input handlers : HostProgram C σ _) = pure (.error fault) := by
  unfold compileLegacy
  rw [hi]
  dsimp only
  rw [h]

theorem compileLegacy_of_rejects (h : c.Rejects input fault) (handlers : Handlers σ) :
    (c.compileLegacy input handlers : HostProgram C σ _) = pure (.error fault) := by
  cases h with
  | malformed hd => rw [compileLegacy, LegacyInput.parse, hd]
  | faulty hd hfaulty => rw [compileLegacy, parse_eq hd, hfaulty.ofJson_eq]
  | several hd hi hp hfiles =>
    obtain ⟨i, hof, hreads⟩ := exists_ofJson_eq_ok hi
    rw [hreads.sources.length_eq] at hfiles
    exact compileLegacy_of_legacyCall ((parse_eq hd).trans hof) (legacyCall_of_several hp hfiles)
  | noEntry hd hi hnone =>
    obtain ⟨i, hof, -⟩ := exists_ofJson_eq_ok hi
    exact compileLegacy_of_legacyCall ((parse_eq hd).trans hof) (legacyCall_of_noEntry hnone)

/-- Any other input comes down to one run of an entry point. -/
theorem exists_runs (hstandard : c.descriptor.standard? = none)
    (h : ∀ fault, ¬ c.Rejects input fault) (handlers : Handlers σ) :
    ∃ request i call, Json.parse? input = some request ∧ LegacyInput.Reads request i ∧
      c.Runs i handlers call ∧ (c.compileLegacy input handlers : HostProgram C σ _) =
        call >>= fun text => pure (normalizeText text (i.libraries.getD .empty)) := by
  cases hd : Json.parse? input with
  | none => exact absurd (.malformed hd) (h _)
  | some request =>
    have hfaulty : ∀ fault, ¬ LegacyInput.Faulty request fault :=
      fun fault hf => h fault (.faulty hd hf)
    obtain ⟨i, hof, hreads⟩ := exists_ofJson_eq_ok hfaulty
    cases hcall : (c.legacyCall i handlers : Except _ (HostProgram C σ String)) with
    | error fault =>
      rcases legacyCall_eq_error hstandard hcall with ⟨hp, hsources, -⟩ | ⟨hnone, -⟩
      · rw [← hreads.sources.length_eq] at hsources
        exact absurd (.several hd hfaulty hp hsources) (h _)
      · exact absurd (.noEntry hd hfaulty hnone) (h _)
    | ok call =>
      refine ⟨request, i, call, rfl, hreads, runs_of_legacyCall hcall, ?_⟩
      unfold compileLegacy
      rw [parse_eq hd, hof]
      dsimp only
      rw [hcall]

/-- A fault of the input is reported without a step of the module; else a failure of the run of the
entry point is the failure of the compilation, and of a run that ends the text is brought into the
stable form or reported as unusable. -/
theorem compile_reports (hstandard : c.descriptor.standard? = none) (input : String)
    (handlers : Handlers σ) (meaning : Meaning (HostFunction C σ) σ S) (s : S × σ) :
    (∀ fault, c.Rejects input fault → ∃ out : Output, out.ReportsOnly fault.message ∧
      (c.compile input handlers).run meaning s = (.ok out.toText, s) ∧
      (c.compile input handlers).trace meaning s = []) ∧
    ((∀ fault, ¬ c.Rejects input fault) →
      ∃ request i call, Json.parse? input = some request ∧ LegacyInput.Reads request i ∧
        c.Runs i handlers call ∧
        (c.compile input handlers).trace meaning s = call.trace meaning s ∧
        (∀ failure t, call.run meaning s = (.error failure, t) →
          (c.compile input handlers).run meaning s = (.error failure, t)) ∧
        (∀ text t, call.run meaning s = (.ok text, t) →
          ∃ out, Normalizes text (i.libraries.getD .empty) out ∧
            (c.compile input handlers).run meaning s = (.ok out.toText, t))) := by
  rw [compile_eq hstandard]
  refine ⟨fun fault hr => ?_, fun hno => ?_⟩
  · rw [compileLegacy_of_rejects hr]
    exact ⟨.fatal fault.message, Output.reportsOnly_fatal _, rfl, rfl⟩
  · obtain ⟨request, i, call, hd, hreads, hruns, heq⟩ := exists_runs hstandard hno handlers
    rw [heq]
    refine ⟨request, i, call, hd, hreads, hruns, ?_, fun failure t hrun => ?_,
      fun text t hrun => ?_⟩
    · rw [trace_bind_pure, trace_bind_pure]
    · simp only [bind_eq, run_bind, hrun]
    · refine ⟨_, normalizes_normalizeText text _, ?_⟩
      simp only [bind_eq, run_bind, hrun]
      rfl

def crowded : Json :=
  .object [("language", .string "Solidity"),
    ("sources", .object [("a", .object [("content", .string "")]),
      ("b", .object [("content", .string "")])])]

theorem parse?_crowded : Json.parse? crowded.toText = some crowded := by cbv

theorem compile_reports_crowded :
    ∃ c s, Simulated.run Simulated.noCode load (supplier, ()) = (.ok c, s) ∧
      c.descriptor.standard? = none ∧ c.Rejects crowded.toText .tooManySources ∧
      ∃ out : Output, out.ReportsOnly FatalFault.tooManySources.message ∧
        Simulated.run Simulated.noCode (c.compile crowded.toText .none) s =
          (.ok out.toText, s) := by
  obtain ⟨c, s, hload, hstandard, hpreferred⟩ :
      ∃ c s, Simulated.run Simulated.noCode load (supplier, ()) = (.ok c, s) ∧
        c.descriptor.standard? = none ∧ c.descriptor.preferred? = some .single :=
    Simulated.exists_loaded (by decide +kernel)
  have haccepted : ∀ fault, ¬ LegacyInput.Faulty crowded fault :=
    fun fault hf => nomatch hf.ofJson_eq.symm.trans
      (rfl : LegacyInput.ofJson crowded = .ok ⟨[("a", ""), ("b", "")], false, none⟩)
  have hrejects : c.Rejects crowded.toText .tooManySources :=
    .several parse?_crowded haccepted hpreferred (by decide)
  obtain ⟨out, hout, hrun, -⟩ :=
    (compile_reports hstandard crowded.toText .none _ s).1 _ hrejects
  exact ⟨c, s, hload, hstandard, hrejects, out, hout, hrun⟩

end Compiler

end SolidityHost
