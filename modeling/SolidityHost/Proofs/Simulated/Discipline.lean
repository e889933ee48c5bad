import SolidityHost.Proofs.Simulated.History

/-!
# Slots and resets over histories

Whatever a caller asks of a compiler on a simulated module, one request after the other, the module
is at rest after each: the slot of an entry run is spent, and if the module has a built-in reset it
is called once, when the slot is released.
-/

set_option autoImplicit false

namespace SolidityHost.Simulated

open Program

variable {C σ α : Type} {code : C → List Value → HostProgram C σ Value}
  {runner : Runner (HostFunction C σ) σ (Simulated C σ)} {m : Simulated C σ} {c : Compiler}

variable {w : σ} {input : String} {extra : List Value} {service : Option (CallbackService σ)}

structure Visit.Through (c : Compiler) (runner : Runner (HostFunction C σ) σ (Simulated C σ))
    (code : C → List Value → HostProgram C σ Value) (v : Visit C σ) (t : Simulated C σ × σ) :
    Prop where
  after_eq : v.after =
    ((c.primitives.resetAll : HostProgram C σ Unit).run (perform code runner) t).2.1
  mem_trace : ∀ x ∈ (c.primitives.resetAll : HostProgram C σ Unit).trace (perform code runner) t,
    x ∈ v.trace

theorem Visit.Through.framed {v : Visit C σ} {t : Simulated C σ × σ} {count : Nat}
    (hv : v.Through c runner code t) (hr : Frames code runner) (h : Ready code c m)
    (ht : (m.withSpentSlots count).Framed (fun _ => False) t.1) :
    (m.withSpentSlots count).Framed (fun _ => False) v.after := by
  rw [hv.after_eq]
  have hspent := h.of_entries_eq (h.atRest.withSpentSlots count) rfl
  exact ht.run hr hspent.avoids_none (EntryRun.resetAll_confined fun _ _ => not_false)

theorem Visit.Through.cleanedAt {v : Visit C σ} {t : Simulated C σ × σ} {count : Nat}
    (hv : v.Through c runner code t) (h : Ready code c v.before)
    (ht : (v.before.withSpentSlots count).Framed (fun _ => False) t.1)
    (hreset : v.before.IsReset Export.solidityReset.symbol)
    (hresets : t.1.resets = v.before.resets) : v.CleanedAt t := by
  have hrest := (h.atRest.withSpentSlots count).framed ht
  have hc : c.primitives.reset = some Export.solidityReset.symbol := by
    rw [h.knowsReset, show v.before.entries.lookup _ = _ from hreset]
    rfl
  have ht' : t.1.IsReset Export.solidityReset.symbol := by
    rw [IsReset, ht.entries_eq]
    exact hreset
  have hafter := hv.after_eq
  rw [state_resetAll hc ht' hrest.running_eq] at hafter
  exact {
    mem_trace := hv.mem_trace _ (call_mem_resetAll hc t)
    empty := hrest.empty
    released_eq := by rw [hafter]
    resets_before := hresets
    resets_after := by rw [hafter, ← hresets]
    size_eq := by rw [hafter]; exact Heap.size_reset _ }

theorem disciplined_of_noRoom (h : Ready code c m) (e : CompileEntry) {failure : Failure}
    (hb : (Program.allocateText input : HostProgram C σ Word).run (perform code runner) (m, w) =
      (.error failure, (m, w))) :
    (visit (perform code runner) (EntryRun.run c.primitives e.symbol input extra service)
      (m, w)).Disciplined c := by
  apply Visit.Disciplined.of_idle h.atRest
  · rw [after_visit, EntryRun.run, bind_eq, run_bind, hb]
    rfl
  · rintro e' ⟨args, t, ht⟩
    rw [trace_visit, EntryRun.run, bind_eq, trace_bind, hb, List.append_nil] at ht
    exact (EntryRun.allocateText_callsOnly (fun _ => False) input).trace _ _ ht

theorem through_run (c : Compiler) (e : CompileEntry) (input : String) (extra : List Value)
    (service : Option (CallbackService σ)) {buffer : Word} {s : Simulated C σ × σ}
    (hb : (Program.allocateText input : HostProgram C σ Word).run (perform code runner) (m, w) =
      (.ok buffer, s)) :
    (visit (perform code runner) (EntryRun.run c.primitives e.symbol input extra service)
      (m, w)).Through c runner code
        ((EntryRun.body c.primitives e.symbol (.pointer buffer :: extra) service).run
          (perform code runner) s).2 where
  after_eq := by rw [after_visit, EntryRun.state_run (fun _ _ => rfl) _ _ _ _ _ hb]
  mem_trace := by
    intro x hx
    rw [trace_visit, EntryRun.trace_run (fun _ _ => rfl) _ _ _ _ _ hb]
    exact List.mem_append_right _ (List.mem_append_right _ (List.mem_cons_of_mem _ hx))

theorem eq_of_invoked_run (h : Ready code c m) {e e' : CompileEntry}
    (hi : (visit (perform code runner) (EntryRun.run c.primitives e.symbol input extra service)
      (m, w)).Invoked e') : e' = e := by
  obtain ⟨args, t, ht⟩ := hi
  have hcalls : (EntryRun.run c.primitives e.symbol input extra service :
      HostProgram C σ String).Confined
        (Op.CallsOnly fun x => x = e.symbol ∨ c.primitives.reset = some x) :=
    EntryRun.run_callsOnly (.inl rfl) (fun _ hx => .inr hx) input extra service
  rcases hcalls.trace (m, w) _ ht with heq | hreset
  · exact CompileEntry.symbol_inj.1 heq
  · exact absurd hreset (h.ne_reset e')

section

variable (extra) (h : Ready code c m) (e : CompileEntry) (service : CallbackService σ)
  (hfull : Table.capacity ≤ m.table.length) {buffer : Word} {heap : Heap}
  (hb : (Program.allocateText input : HostProgram C σ Word).run (perform code runner) (m, w) =
    (.ok buffer, ({ m with heap }, w)))

include hfull hb

/-- A run that needs a slot when there are none left still resets the module. -/
theorem through_of_full (c : Compiler) :
    (visit (perform code runner) (EntryRun.run c.primitives e.symbol input extra (some service))
      (m, w)).Through c runner code ({ m with heap }, w) := by
  have hv := through_run c e input extra (some service) hb
  rwa [EntryRun.body, (withSlot_of_full hfull _ _).1] at hv

include h

theorem not_invoked_of_full (e' : CompileEntry) :
    ¬ (visit (perform code runner) (EntryRun.run c.primitives e.symbol input extra (some service))
      (m, w)).Invoked e' := by
  rintro ⟨args, t, hmem⟩
  rw [trace_visit, EntryRun.trace_run (fun _ _ => rfl) _ _ _ _ _ hb, EntryRun.body,
    (withSlot_of_full hfull _ _).2] at hmem
  rcases List.mem_append.1 hmem with hmem | hmem
  · exact (EntryRun.allocateText_callsOnly (fun _ => False) input).trace _ _ hmem
  · replace hmem := (List.mem_cons.1 hmem).resolve_left (by simp)
    replace hmem := (List.mem_cons.1 hmem).resolve_left (by simp)
    have hreset : (c.primitives.resetAll : HostProgram C σ Unit).Confined
        (Op.CallsOnly fun x => c.primitives.reset = some x) :=
      EntryRun.resetAll_confined fun _ hx => hx
    exact h.ne_reset e' (hreset.trace _ _ hmem)

theorem disciplined_of_full (hr : Frames code runner) :
    (visit (perform code runner) (EntryRun.run c.primitives e.symbol input extra (some service))
      (m, w)).Disciplined c := by
  have hv := through_of_full extra e service hfull hb c
  have hi := not_invoked_of_full extra h e service hfull hb
  have ht : (m.withSpentSlots 0).Framed (fun _ => False) { m with heap } := by
    rw [withSpentSlots_zero]
    exact (Framed.refl m).withHeap heap
  have hf := hv.framed hr h ht
  exact {
    atRest := (h.atRest.withSpentSlots 0).framed hf
    entries_eq := hf.entries_eq
    counted := fun e' _ hi' => absurd hi' (hi e')
    uncounted := fun _ => ⟨hf.registered_eq, hf.released_eq⟩
    cleaned := fun _ e' hi' => absurd hi' (hi e')
    untouched := fun _ => .inr ⟨hfull, fun hreset => ⟨_, hv.cleanedAt h ht hreset rfl⟩⟩ }

end

theorem disciplined_of_room (h : Ready code c m) (hr : Frames code runner) (e : CompileEntry)
    (hs : service.isSome = e.takesCallbacks)
    (hroom : service.isSome → m.table.length < Table.capacity) {buffer : Word} {heap : Heap}
    (hb : (Program.allocateText input : HostProgram C σ Word).run (perform code runner) (m, w) =
      (.ok buffer, ({ m with heap }, w))) :
    (visit (perform code runner) (EntryRun.run c.primitives e.symbol input extra service)
      (m, w)).Disciplined c := by
  have hv := through_run c e input extra service hb
  have hbody : ∀ forbidden : String → Prop, m.Avoids forbidden code → ¬ forbidden e.symbol →
      (service.isSome → c.primitives.AllocatorAvoids forbidden) →
      (m.withSpentSlots (slotCount service)).Framed forbidden
        ((EntryRun.body c.primitives e.symbol (.pointer buffer :: extra) service).run
          (perform code runner) ({ m with heap }, w)).2.1 := fun forbidden ha ho hc =>
    Framed.body hr ha ho _ hc hroom ((Framed.refl m).withHeap heap)
  have ht := hbody (fun _ => False) h.avoids_none not_false fun _ _ _ => not_false
  have hf := hv.framed hr h ht
  have hi : (visit (perform code runner) (EntryRun.run c.primitives e.symbol input extra service)
      (m, w)).Invoked e := by
    obtain ⟨args, t, hmem⟩ := call_mem_body code runner c.primitives e.symbol
      (.pointer buffer :: extra) (s := ({ m with heap }, w)) hroom
    refine ⟨args, t, ?_⟩
    rw [trace_visit, EntryRun.trace_run (fun _ _ => rfl) _ _ _ _ _ hb]
    exact List.mem_append_right _ (List.mem_append_left _ hmem)
  exact {
    atRest := (h.atRest.withSpentSlots _).framed hf
    entries_eq := hf.entries_eq
    counted := by
      intro e' htakes hi'
      obtain rfl := eq_of_invoked_run h hi'
      obtain ⟨service, rfl⟩ := Option.isSome_iff_exists.1 (hs.trans htakes)
      exact ⟨hf.registered_eq, hf.released_eq⟩
    uncounted := by
      intro hnone
      have htakes : ¬ e.takesCallbacks := fun htakes => hnone e htakes hi
      rw [← hs, Bool.not_eq_true, Option.isSome_eq_false_iff, Option.isNone_iff_eq_none] at htakes
      subst htakes
      exact ⟨hf.registered_eq, hf.released_eq⟩
    cleaned := by
      intro hreset e' hi' he' hc
      obtain rfl := eq_of_invoked_run h hi'
      -- this time the frame also keeps the count of resets
      have hquiet := hbody m.IsReset h.avoids he' fun hsome => hc (hs ▸ hsome)
      exact ⟨_, hv.cleanedAt h ht hreset (hquiet.resets_eq fun _ hx => hx)⟩
    untouched := fun hnone => absurd hi (hnone e) }

theorem disciplined_run (h : Ready code c m) (hr : Frames code runner) (e : CompileEntry)
    (hs : service.isSome = e.takesCallbacks) :
    (visit (perform code runner) (EntryRun.run c.primitives e.symbol input extra service)
      (m, w)).Disciplined c := by
  rcases run_allocateText code runner (m, w) input with
    ⟨-, hb⟩ | ⟨buffer, heap, hb⟩
  · exact disciplined_of_noRoom h e hb
  · by_cases hroom : service.isSome → m.table.length < Table.capacity
    · exact disciplined_of_room h hr e hs hroom hb
    · obtain ⟨hsome, hfull⟩ := Classical.not_imp.1 hroom
      obtain ⟨service, rfl⟩ := Option.isSome_iff_exists.1 hsome
      exact disciplined_of_full extra h e service (Nat.not_lt.1 hfull) hb hr

theorem disciplined_of_serves (h : Ready code c m) (hr : Frames code runner)
    {p : HostProgram C σ α} (hp : c.Serves p) :
    (visit (perform code runner) p (m, w)).Disciplined c := by
  induction hp with
  | finish outcome => exact .of_idle h.atRest rfl fun e ⟨_, _, ht⟩ => nomatch ht
  | run e input extra service hs => exact disciplined_run h hr e hs
  | andThen hp f ih =>
    rw [visit_andThen]
    exact ih

theorem ready_of_load (hm : m.AtRest) (ha : m.Avoids m.IsReset code) (hr : Frames code runner)
    {s : Simulated C σ × σ}
    (hload : (Compiler.load : HostProgram C σ Compiler).run (perform code runner) (m, w) =
      (.ok c, s)) : Ready code c s.1 := by
  have h₀ : Ready code c m := ⟨hm, ha, knowsReset_of_load hload⟩
  have hf := (Framed.refl m).run (s := (m, w)) hr h₀.avoids_none
    (load_confined.mono fun _ => Op.Asks.avoids)
  rw [hload] at hf
  exact h₀.of_entries_eq (hm.framed hf) hf.entries_eq

def echo (_ : Unit) (args : List Value) : HostProgram Unit Unit Value := pure (args.headD .void)

def echoing : Simulated Unit Unit :=
  ofEntries [("version", .text "0.1.1"), ("compileJSONCallback", .scripted ()),
    ("solidity_reset", .reset)]

/-- Every request leaves a module at rest, with its slot spent and its memory given up. -/
theorem history_disciplined (hm : m.AtRest) (ha : m.Avoids m.IsReset code) (depth : Nat)
    {s : Simulated C σ × σ}
    (hload : (Compiler.load : HostProgram C σ Compiler).run (Meaning.nested (perform code) depth)
      (m, w) = (.ok c, s))
    (requests : List (Request σ)) : ∀ v ∈ history code depth c requests s, v.Disciplined c := by
  obtain ⟨runner, hmeaning, hr⟩ := nested_eq_perform code depth
  rw [hmeaning] at hload
  have h := ready_of_load hm ha hr hload
  clear hload
  induction requests generalizing s with
  | nil => simp [history]
  | cons r rest ih =>
    have hd := disciplined_of_serves (w := s.2) h hr (Compiler.serves_program c r)
    rw [history, hmeaning]
    have hnext := h.of_entries_eq hd.atRest hd.entries_eq
    exact List.forall_mem_cons.2 ⟨hd, ih hnext⟩

theorem history_disciplined_echoing :
    echoing.AtRest ∧ echoing.Avoids echoing.IsReset echo ∧
      ∃ c s, Simulated.run echo Compiler.load (echoing, ()) = (.ok c, s) ∧
        ∀ v ∈ history echo maxDepth c [.callback "a" true .none, .single "b" false] s,
          v.Disciplined c := by
  have hm : echoing.AtRest := atRest_ofEntries _
  have ha : echoing.Avoids echoing.IsReset echo := hm.avoids fun _ _ _ _ => .pure _
  obtain ⟨c, s, hload, -⟩ :
      ∃ c s, Simulated.run echo Compiler.load (echoing, ()) = (.ok c, s) ∧ True :=
    exists_loaded (by decide +kernel)
  exact ⟨hm, ha, c, s, hload, history_disciplined hm ha maxDepth hload _⟩

def noCode (k : Empty) (_ : List Value) : HostProgram Empty Unit Value := k.elim

def resetting : Simulated Empty Unit :=
  ofEntries [("version", .text "0.1.1"), ("compileJSON", .reset), ("solidity_reset", .reset)]

def answering : Simulated Empty Unit :=
  ofEntries [("version", .text "0.1.1"), ("compileJSONCallback", .text "{}"),
    ("solidity_reset", .reset)]

theorem answering_atRest (count : Nat) : (answering.withSpentSlots count).AtRest :=
  (atRest_ofEntries _).withSpentSlots count

theorem answering_avoids (count : Nat) (forbidden : String → Prop) :
    (answering.withSpentSlots count).Avoids forbidden noCode :=
  (answering_atRest count).avoids fun _ k => k.elim

/-- Without a free slot no entry point is invoked, and yet the module is reset. -/
theorem exists_reset_of_full {count : Nat} (hcount : Table.capacity ≤ count) :
    ∃ c s, Simulated.run noCode Compiler.load (answering.withSpentSlots count, ()) = (.ok c, s) ∧
      ∃ v ∈ history noCode maxDepth c [.callback "" false .none] s,
        (∀ e, ¬ v.Invoked e) ∧ v.after.resets = v.before.resets + 1 := by
  obtain ⟨c, s, hload, hc, hroom, hreset⟩ :
      ∃ c s, Simulated.run noCode Compiler.load (answering, ()) = (.ok c, s) ∧
        CompileEntry.multiCallback ∈ c.descriptor.entries ∧
          (s.1.heap.allocate? (Utf8.width "" + 1)).isSome ∧
            s.1.IsReset Export.solidityReset.symbol :=
    exists_loaded (by decide +kernel)
  obtain ⟨runner, hmeaning, hr⟩ := nested_eq_perform noCode maxDepth
  have hload' : (Compiler.load : HostProgram Empty Unit Compiler).run (perform noCode runner)
      (answering.withSpentSlots count, ()) = (.ok c, (s.1.withSpentSlots count, s.2)) := by
    rw [Simulated.run, hmeaning] at hload
    rw [load_withSpentSlots hr (fun _ k => k.elim)
      (withSpentSlots_zero answering ▸ answering_avoids 0 _), hload]
  have h := ready_of_load (answering_atRest count) (answering_avoids count _) hr hload'
  have hfull : Table.capacity ≤ (s.1.withSpentSlots count).table.length := by
    simp only [withSpentSlots, List.length_append, List.length_replicate]
    omega
  refine ⟨c, _, by rw [Simulated.run, hmeaning, hload'], _, List.mem_cons_self .., ?_⟩
  rw [Request.program, Compiler.compileCallback, Compiler.require, if_pos hc, hmeaning]
  rcases run_allocateText noCode runner (s.1.withSpentSlots count, s.2) "" with
    ⟨hnone, -⟩ | ⟨buffer, heap, hb⟩
  · rw [show s.1.heap.allocate? (Utf8.width "" + 1) = none from hnone] at hroom
    simp at hroom
  · have hi := not_invoked_of_full [.bool false] h .multiCallback ⟨.importOnly, .none⟩ hfull hb
    have hv := through_of_full [.bool false] .multiCallback ⟨.importOnly, .none⟩ hfull hb c
    have ht : ((s.1.withSpentSlots count).withSpentSlots 0).Framed (fun _ => False)
        { s.1.withSpentSlots count with heap } := by
      rw [withSpentSlots_zero]
      exact (Framed.refl _).withHeap heap
    exact ⟨hi, (hv.cleanedAt h ht hreset rfl).resets_after⟩

/-- A run may reset its module twice, and a module without free slots is reset although no entry
point is invoked. -/
theorem exists_undisciplined :
    (∃ c s, Simulated.run noCode Compiler.load (resetting, ()) = (.ok c, s) ∧
      ∃ v ∈ history noCode maxDepth c [.single "contract A {}" false] s,
        v.before.IsReset "solidity_reset" ∧ v.Invoked .single ∧
          v.after.resets = v.before.resets + 2) ∧
    (answering.withSpentSlots Table.capacity).AtRest ∧
    ∃ c s, Simulated.run noCode Compiler.load (answering.withSpentSlots Table.capacity, ()) =
        (.ok c, s) ∧
      ∃ v ∈ history noCode maxDepth c [.callback "" false .none] s,
        (∀ e, ¬ v.Invoked e) ∧ v.after.resets = v.before.resets + 1 :=
  ⟨exists_loaded (by decide +kernel), answering_atRest _, exists_reset_of_full (Nat.le_refl _)⟩

end SolidityHost.Simulated
