import SolidityHost.Proofs.Compiler.Rejection
import SolidityHost.Proofs.Json.Printable
import SolidityHost.Proofs.Json.Reading
import SolidityHost.Proofs.Simulated.Passage

/-!
# Inputs and outputs at the entry point

An entry point for sources is given the files of the input as JSON, with the optimizer switch
behind it; one for standard JSON is given the input itself, and the output is what stands behind
the pointer that it returns, as it is read then.
-/

set_option autoImplicit false

namespace SolidityHost

namespace LegacyInput

variable {files : Entries Json} {sources : Entries String} {i : LegacyInput} {document : Json}

def sourcesJson (i : LegacyInput) : Entries Json := i.sources.map fun e => (e.1, .string e.2)

theorem SameFiles.keys_eq (h : SameFiles files sources) :
    sources.map (·.1) = files.map (·.1) := by
  induction h with
  | nil => rfl
  | cons hef _ ih => rw [List.map_cons, List.map_cons, ih, hef.1]

def SameContents (files sent : Entries Json) : Prop :=
  List.Forall₂ (fun e f => e.1 = f.1 ∧ ∃ content, HasContent e.2 content ∧ f.2 = .string content)
    files sent

theorem SameFiles.sameContents (h : SameFiles files i.sources) :
    SameContents files i.sourcesJson := by
  rw [SameContents, sourcesJson, List.forall₂_map_right_iff]
  exact h.imp fun e f hef => ⟨hef.1, f.2, hef.2, rfl⟩

theorem parse?_sourcesText (h : Reads document i) (hd : document.InOrder) :
    Json.parse? i.sourcesText = some (.object [("sources", .object i.sourcesJson)]) := by
  have hordered : i.sourcesJson.Ordered := by
    have hfiles : ((filesOf document).map (·.1)).Pairwise (· < ·) :=
      Entries.ordered_iff.1 (hd.ordered_field? "sources")
    rw [← h.sources.keys_eq] at hfiles
    rw [Entries.ordered_iff, sourcesJson, List.map_map]
    exact hfiles
  have hstring : ∀ e ∈ i.sourcesJson, ∃ s, e.2 = .string s := by
    intro e he
    obtain ⟨f, -, rfl⟩ := List.mem_map.1 he
    exact ⟨_, rfl⟩
  have hinOrder : (Json.object [("sources", .object i.sourcesJson)]).InOrder := by
    refine Json.InOrder.single (.object hordered fun e he => ?_) _
    obtain ⟨s, hs⟩ := hstring e he
    exact hs ▸ .string s
  have hreadable : (Json.object [("sources", .object i.sourcesJson)]).Readable 127 := by
    refine Json.Readable.single (.object fun e he => ?_) _
    obtain ⟨s, hs⟩ := hstring e he
    exact hs ▸ .string _ s
  exact (Json.parse?_toText hreadable).trans (congrArg some (Json.sorted_of_inOrder hinOrder))

/-- Zero characters are escaped, so the document arrives as a whole. -/
theorem zero_notMem_sourcesText (i : LegacyInput) : '\x00' ∉ i.sourcesText.toList :=
  Json.zero_notMem_toText _

end LegacyInput

open Program

variable {C σ : Type} {code : C → List Value → HostProgram C σ Value}
  {runner : Runner (HostFunction C σ) σ (Simulated C σ)}

namespace Simulated

def Given (m : Simulated C σ) (args : List Value) (text : String) (rest : List Value) : Prop :=
  ∃ buffer, args = .pointer buffer :: rest ∧ m.readText buffer = .ok text

def Gives (m : Simulated C σ) (v : Value) (text : String) : Prop :=
  ∃ p, v.address = .ok p ∧ m.readText p = .ok text

theorem run_readTextAt_eq_ok_iff {u : Simulated C σ × σ} {v : Value} {text : String} :
    ((Callback.readTextAt v : HostProgram C σ String).run (perform code runner) u).1 = .ok text ↔
      u.1.Gives v text := by
  have hread : ∀ p, ((Program.perform (.readText p) : HostProgram C σ String).run
      (perform code runner) u).1 = u.1.readText p := fun _ => rfl
  unfold Callback.readTextAt Gives
  rw [bind_eq, run_bind]
  cases v.address <;> simp [Program.ofOutcome, Program.run, hread]

/-- Whenever the program calls the entry point, it passes the text and the values behind it; and it
calls it if there is room for the text and a slot for the callbacks. -/
structure Passes (code : C → List Value → HostProgram C σ Value)
    (runner : Runner (HostFunction C σ) σ (Simulated C σ)) (p : HostProgram C σ String)
    (s : Simulated C σ × σ) (e : CompileEntry) (text : String) (extra : List Value) : Prop where
  given : ∀ args t, (.call e.symbol args, t) ∈ p.trace (perform code runner) s →
    ∃ rest, t.1.Given args text (extra ++ rest)
  called : s.1.heap.Room (Utf8.width text + 1) →
    (e.takesCallbacks → s.1.table.length < Table.capacity) →
      ∃ args t, (.call e.symbol args, t) ∈ p.trace (perform code runner) s

theorem passes_run {c : Primitives} {e : CompileEntry} {input : String} {extra : List Value}
    {service : Option (CallbackService σ)} (hreset : c.reset ≠ some e.symbol)
    (hservice : service.isSome = e.takesCallbacks) (hinput : '\x00' ∉ input.toList)
    (s : Simulated C σ × σ) :
    Passes code runner (EntryRun.run c e.symbol input extra service) s e input extra where
  given args t hmem := by
    obtain ⟨buffer, heap, hrun, ⟨rest, rfl⟩, hheap⟩ := of_call_mem_run hreset hmem
    have hread := readText_of_allocateText hrun
    rw [readText_congr (n := t.1) hheap.symm, Utf8.beforeZero_eq_self_iff.2 hinput] at hread
    exact ⟨rest, buffer, rfl, hread⟩
  called hroom hslot := by
    obtain ⟨buffer, heap, hrun, -⟩ := run_allocateText_of_room code runner hroom
    obtain ⟨args, t, hmem⟩ := call_mem_body code runner c e.symbol (.pointer buffer :: extra)
      (s := ({ s.1 with heap }, s.2)) fun hsome => hslot (hservice ▸ hsome)
    refine ⟨args, t, ?_⟩
    rw [EntryRun.run_eq]
    refine mem_trace_bind_of_run hrun (mem_trace_bind ?_)
    rwa [trace_attempt]

end Simulated

namespace Compiler

open Simulated

variable {c : Compiler} {input : String} {handlers : Handlers σ} {s s₀ s₁ : Simulated C σ × σ}
  {e : CompileEntry} {document : Json}

theorem ne_reset_of_load
    (hload : (load : HostProgram C σ Compiler).run (perform code runner) s₀ = (.ok c, s₁))
    (e : CompileEntry) : c.primitives.reset ≠ some e.symbol := by
  rw [knowsReset_of_load hload]
  split
  · exact fun heq => e.symbol_ne_reset (Option.some.inj heq).symm
  · exact nofun

theorem not_rejects (hp : c.descriptor.preferred? = some e) (he : e ≠ .single)
    (hd : Json.parse? input = some document)
    (haccepted : ∀ fault, ¬ LegacyInput.Faulty document fault) (fault : FatalFault) :
    ¬ c.Rejects input fault := by
  intro hr
  cases hr with
  | malformed h => exact nomatch h.symm.trans hd
  | faulty hd' h =>
    obtain rfl := Option.some.inj (hd'.symm.trans hd)
    exact haccepted _ h
  | several _ _ hp' _ => exact he (Option.some.inj (hp.symm.trans hp'))
  | noEntry _ _ h => exact nomatch hp.symm.trans (Descriptor.preferred?_eq_none_iff.2 h)

/-- An old compiler for several sources is given their document. -/
theorem passes_sources (hreset : c.primitives.reset ≠ some e.symbol)
    (he : e = .multiCallback ∨ e = .multi) (hp : c.descriptor.preferred? = some e)
    (hd : Json.parse? input = some document)
    (haccepted : ∀ fault, ¬ LegacyInput.Faulty document fault) (handlers : Handlers σ)
    (s : Simulated C σ × σ) :
    ∃ i, LegacyInput.Reads document i ∧
      Passes code runner (c.compile input handlers) s e i.sourcesText [.bool i.optimize] := by
  have hsingle : e ≠ .single := by rcases he with rfl | rfl <;> decide
  have hstandard : c.descriptor.standard? = none := by
    rw [Descriptor.standard?, hp]
    rcases he with rfl | rfl <;> rfl
  obtain ⟨document', i, call, hd', hreads, hruns, hcall⟩ :=
    exists_runs (C := C) hstandard (not_rejects hp hsingle hd haccepted) handlers
  obtain rfl := Option.some.inj (hd'.symm.trans hd)
  have htrace : (c.compile input handlers).trace (perform code runner) s =
      call.trace (perform code runner) s := by
    rw [compile_eq hstandard, hcall, trace_bind_pure, trace_bind_pure]
  have hpass : Passes code runner call s e i.sourcesText [.bool i.optimize] := by
    have hzero := i.zero_notMem_sourcesText
    cases hruns with
    | multiCallback h =>
      obtain rfl := Option.some.inj (h.symm.trans hp)
      exact passes_run hreset rfl hzero s
    | multi h =>
      obtain rfl := Option.some.inj (h.symm.trans hp)
      exact passes_run hreset rfl hzero s
    | single h => exact absurd (Option.some.inj (hp.symm.trans h)) hsingle
  exact ⟨i, hreads, htrace ▸ hpass.given, htrace ▸ hpass.called⟩

theorem compile_of_standard? (he : c.descriptor.standard? = some e) :
    (c.compile input handlers : HostProgram C σ String) =
      EntryRun.run c.primitives e.symbol input []
        (some ⟨c.descriptor.entryProtocol e, handlers⟩) := by
  rw [compile, he, compileStandard, he]
  rfl

theorem takesCallbacks_of_standard? (he : c.descriptor.standard? = some e) : e.takesCallbacks :=
  CompileEntry.takesCallbacks_of_isStandardJson (Option.filter_eq_some_iff.1 he).2

/-- An entry point for several sources is given the files of an accepted input, and no more of it;
one for standard JSON is given any input as it is. Of the latter the text that can be read when it
returns is the result, unless something cannot be cleaned up, and there is no other result. -/
theorem compile_forwards
    (hload : (load : HostProgram C σ Compiler).run (perform code runner) s₀ = (.ok c, s₁))
    (input : String) (handlers : Handlers σ) (s : Simulated C σ × σ) :
    (∀ e document, e = .multiCallback ∨ e = .multi → c.descriptor.preferred? = some e →
      Json.parse? input = some document → (∀ fault, ¬ LegacyInput.Faulty document fault) →
      ∃ text sent enabled, Json.parse? text = some (.object [("sources", .object sent)]) ∧
        LegacyInput.SameContents (LegacyInput.filesOf document) sent ∧
        (enabled = true ↔ LegacyInput.Optimizes document) ∧
        Passes code runner (c.compile input handlers) s e text [.bool enabled]) ∧
    ∀ e, c.descriptor.standard? = some e →
      ('\x00' ∉ input.toList → Passes code runner (c.compile input handlers) s e input []) ∧
      (∀ text t, (c.compile input handlers).run (perform code runner) s = (.ok text, t) →
        ∃ args u v w,
          (.call e.symbol args, u) ∈ (c.compile input handlers).trace (perform code runner) s ∧
          perform code runner (.call e.symbol args) u = (.ok v, w) ∧ w.1.Gives v text) ∧
      ∀ args u v w text,
        (.call e.symbol args, u) ∈ (c.compile input handlers).trace (perform code runner) s →
        perform code runner (.call e.symbol args) u = (.ok v, w) → w.1.Gives v text →
        (c.compile input handlers).EndsUnless (Op.CleansUp c.primitives) (perform code runner) s
          (.ok text) := by
  refine ⟨fun e document he hp hd haccepted => ?_, fun e he => ?_⟩
  · obtain ⟨i, hreads, hpass⟩ :=
      passes_sources (ne_reset_of_load hload e) he hp hd haccepted handlers s
    exact ⟨_, _, _, LegacyInput.parse?_sourcesText hreads (Json.inOrder_parse? hd),
      hreads.sources.sameContents, hreads.optimize, hpass⟩
  · have hreset := ne_reset_of_load hload e
    rw [compile_of_standard? he]
    have htakes := takesCallbacks_of_standard? he
    refine ⟨fun hinput => passes_run hreset (by rw [htakes]; rfl) hinput s,
      fun text t hrun => ?_, fun args u v w text hmem hcall hgives => ?_⟩
    · obtain ⟨args, u, v, w, hmem, hcall, hread⟩ := EntryRun.returns_run hrun
      exact ⟨args, u, v, w, hmem, hcall, run_readTextAt_eq_ok_iff.1 hread⟩
    · have hend := EntryRun.endsUnless_run hreset hmem
      have htext : ((EntryRun.callText e.symbol args : HostProgram C σ String).run
          (perform code runner) u).1 = .ok text := by
        rw [EntryRun.callText, bind_eq, run_bind, run_call]
        rw [show call code runner e.symbol args u = (.ok v, w) from hcall]
        exact run_readTextAt_eq_ok_iff.2 hgives
      rwa [htext] at hend

def conversing : Simulated Empty Unit :=
  .ofEntries [("version", .text "0.4.11"), ("compileStandard", .text "answer")]

theorem compile_forwards_conversing :
    ∃ c s, Simulated.run noCode load (conversing, ()) = (.ok c, s) ∧
      c.descriptor.standard? = some .standard ∧
      ∃ args t, (.call "compileStandard" args, t) ∈
          (c.compile "no JSON" .none).trace (Meaning.nested (perform noCode) maxDepth) s ∧
        ∃ rest, t.1.Given args "no JSON" rest := by
  obtain ⟨c, s, hload, hstandard, hroom, hslot⟩ :
      ∃ c s, Simulated.run noCode load (conversing, ()) = (.ok c, s) ∧
        c.descriptor.standard? = some .standard ∧
          s.1.heap.Room (Utf8.width "no JSON" + 1) ∧ s.1.table.length < Table.capacity :=
    exists_loaded (by decide +kernel)
  obtain ⟨runner, hmeaning, -⟩ := nested_eq_perform noCode maxDepth
  have hload' := hload
  rw [Simulated.run, hmeaning] at hload'
  obtain ⟨hpass, -⟩ := (compile_forwards hload' "no JSON" .none s).2 .standard hstandard
  obtain ⟨args, t, hmem⟩ := (hpass (by decide)).called hroom fun _ => hslot
  exact ⟨c, s, hload, hstandard, args, t, hmeaning ▸ hmem, (hpass (by decide)).given args t hmem⟩

end Compiler

end SolidityHost
