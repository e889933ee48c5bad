import SolidityHost.Proofs.Callback.EntryRun

/-!
# Outcomes of entry runs

The text of an entry run is what the pointer that its entry point returned shows at that moment.
What follows releases the slot, frees the input and resets the module; that may fail, but it cannot
change the text.
-/

set_option autoImplicit false

namespace SolidityHost

variable {F σ S α β : Type}

def Op.CleansUp (c : Primitives) : Op F → Prop
  | .release _ => True
  | .free _ => True
  | .call symbol _ => c.reset = some symbol
  | _ => False

namespace Program

/-- The program ends in this way, unless one of some operations fails; then it fails likewise. -/
def EndsUnless (allowed : Op F → Prop) (meaning : Meaning F σ S) (p : Program F σ α) (s : S × σ)
    (r : Outcome α) : Prop :=
  (p.run meaning s).1 = r ∨
    ∃ failure o t, (p.run meaning s).1 = .error failure ∧ (o, t) ∈ p.trace meaning s ∧
      allowed o ∧ (meaning o t).1 = .error failure

namespace EndsUnless

variable {allowed : Op F → Prop} {meaning : Meaning F σ S} {s t : S × σ} {r : Outcome α}

theorem bind {p : Program F σ β} {f : β → Program F σ α} {b : β}
    (hp : p.run meaning s = (.ok b, t)) (hf : (f b).EndsUnless allowed meaning t r) :
    (p >>= f).EndsUnless allowed meaning s r := by
  have hrun : (p >>= f).run meaning s = (f b).run meaning t := by rw [bind_eq, run_bind, hp]
  rw [EndsUnless, hrun]
  refine hf.imp_right ?_
  rintro ⟨failure, o, u, hr, hmem, ho, hfails⟩
  exact ⟨failure, o, u, hr, mem_trace_bind_of_run hp hmem, ho, hfails⟩

/-- What follows an attempt, and passes its outcome on unless one of the operations fails. -/
theorem attempt_bind {p : Program F σ α} {f : Outcome α → Program F σ α}
    (hp : p.EndsUnless allowed meaning s r)
    (hf : ∀ r t, (f r).EndsUnless allowed meaning t r) :
    (p.attempt >>= f).EndsUnless allowed meaning s r := by
  have hattempt := run_attempt meaning p s
  have hrun : (p.attempt >>= f).run meaning s =
      (f (p.run meaning s).1).run meaning (p.run meaning s).2 := by
    rw [bind_eq, run_bind, hattempt]
  rw [EndsUnless, hrun]
  rcases hf (p.run meaning s).1 (p.run meaning s).2 with
    hsame | ⟨failure, o, t, hr, hmem, ho, hfails⟩
  · rw [hsame]
    refine hp.imp_right ?_
    rintro ⟨failure, o, t, hr, hmem, ho, hfails⟩
    rw [← trace_attempt] at hmem
    exact ⟨failure, o, t, hr, mem_trace_bind hmem, ho, hfails⟩
  · exact .inr ⟨failure, o, t, hr, mem_trace_bind_of_run hattempt hmem, ho, hfails⟩

/-- What follows an attempt of a part that should give `b`, and says so if it does not. -/
theorem attemptError_bind {p : Program F σ β} {f : Except HostError β → Program F σ α} {b : β}
    (hp : p.EndsUnless allowed meaning s (.ok b))
    (hok : ∀ t, (f (.ok b)).EndsUnless allowed meaning t r)
    (hfail : ∀ e t, (f (.error e)).EndsUnless allowed meaning t r ∨
      (f (.error e)).EndsUnless allowed meaning t (.error (.error e))) :
    (p.attemptError >>= f).EndsUnless allowed meaning s r := by
  have htrace : ∀ x ∈ p.trace meaning s, x ∈ (p.attemptError >>= f).trace meaning s := by
    rw [← trace_attemptError]
    exact fun x => mem_trace_bind
  have hattempt := run_attemptError meaning p s
  rcases hp with hp | ⟨failure, o, u, hp, hmem, ho, hfails⟩
  · rw [← Prod.eta (p.run meaning s), hp] at hattempt
    exact .bind hattempt (hok _)
  · rw [← Prod.eta (p.run meaning s), hp] at hattempt
    cases failure with
    | error e =>
      rcases hfail e (p.run meaning s).2 with hr | hr
      · exact .bind hattempt hr
      · refine (EndsUnless.bind hattempt hr).elim (fun hend => .inr ?_) .inr
        exact ⟨_, o, u, hend, htrace _ hmem, ho, hfails⟩
    | abort a =>
      refine .inr ⟨_, o, u, ?_, htrace _ hmem, ho, hfails⟩
      rw [bind_eq, run_bind, hattempt]

theorem perform {o : Op F} {a : o.Answer} (ho : allowed o)
    (ha : ∀ b, (meaning o s).1 = .ok b → b = a) :
    (Program.perform o : Program F σ o.Answer).EndsUnless allowed meaning s (.ok a) := by
  have hrun : (Program.perform o : Program F σ o.Answer).run meaning s = meaning o s := rfl
  rw [EndsUnless, hrun]
  cases hr : (meaning o s).1 with
  | ok b => exact .inl (congrArg _ (ha b hr))
  | error failure => exact .inr ⟨failure, o, s, rfl, List.mem_cons_self, ho, hr⟩

theorem perform_pure {o : Op F} (ho : allowed o) (a : α) :
    (Program.perform o >>= fun _ => pure a : Program F σ α).EndsUnless allowed meaning s
      (.ok a) := by
  have hrun : (Program.perform o : Program F σ o.Answer).run meaning s = meaning o s := rfl
  cases hr : meaning o s with
  | mk r t =>
    cases r with
    | ok b => exact .bind (hrun.trans hr) (.inl rfl)
    | error failure =>
      refine .inr ⟨failure, o, s, ?_, List.mem_cons_self, ho, congrArg Prod.fst hr⟩
      rw [bind_eq, run_bind, hrun, hr]

end EndsUnless

end Program

namespace EntryRun

open Program

variable {C : Type} {meaning : Meaning (HostFunction C σ) σ S} {c : Primitives}
  {symbol input text : String} {args args' extra : List Value}
  {service : Option (CallbackService σ)} {s t u : S × σ} {v : Value}

theorem endsUnless_resetAll (c : Primitives) (s : S × σ) :
    (c.resetAll : HostProgram C σ Unit).EndsUnless (Op.CleansUp c) meaning s (.ok ()) := by
  unfold Primitives.resetAll
  split
  · next symbol hreset => exact .perform_pure hreset ()
  · exact .inl rfl

theorem endsUnless_cleanUp (c : Primitives) (buffer : Word) (r : Outcome String) (s : S × σ) :
    (cleanUp c buffer r : HostProgram C σ String).EndsUnless (Op.CleansUp c) meaning s r := by
  have hfree : (perform (.free buffer) : HostProgram C σ Unit).EndsUnless (Op.CleansUp c)
      meaning s (.ok ()) := .perform trivial fun _ _ => rfl
  -- after a failure of the body nothing else counts, else the first failure does
  cases r with
  | error failure =>
    exact hfree.attemptError_bind
      (fun t => (endsUnless_resetAll c t).attemptError_bind (fun _ => .inl rfl)
        fun _ _ => .inl (.inl rfl))
      fun e t => .inl ((endsUnless_resetAll c t).attemptError_bind (fun _ => .inl rfl)
        fun _ _ => .inl (.inl rfl))
  | ok text =>
    exact hfree.attemptError_bind
      (fun t => (endsUnless_resetAll c t).attemptError_bind (fun _ => .inl rfl)
        fun _ _ => .inr (.inl rfl))
      fun e t => .inr ((endsUnless_resetAll c t).attemptError_bind (fun _ => .inl rfl)
        fun _ _ => .inl (.inl rfl))

theorem endsUnless_withSlot {f : HostFunction C σ} {b : Nat → HostProgram C σ α} {slot : Nat}
    (hf : (perform (.register f) : HostProgram C σ Nat).run meaning s = (.ok slot, t)) :
    (withSlot f b).EndsUnless (Op.CleansUp c) meaning s ((b slot).run meaning t).1 := by
  refine .bind hf (.attempt_bind (.inl rfl) fun r u => ?_)
  cases r with
  | ok a => exact .perform_pure trivial a
  | error failure => exact .bind (run_attempt ..) (.inl rfl)

theorem of_call_mem_callText
    (h : (.call symbol args', t) ∈
      (callText symbol args : HostProgram C σ String).trace meaning s) : args' = args ∧ t = s := by
  have hread (v : Value) : (Callback.readTextAt v : HostProgram C σ String).Confined
      (Op.CallsOnly fun _ => False) := .bind (.ofOutcome _) fun _ => .perform trivial
  have hcall := List.mem_singleton.1 (Confined.mem_trace_of_bind hread h not_false)
  obtain ⟨ho, rfl⟩ := Prod.mk.inj hcall
  exact ⟨(Op.call.inj ho).2, rfl⟩

theorem of_call_mem_registered {f : HostFunction C σ} {b : Nat → HostProgram C σ α}
    (h : (.call symbol args, t) ∈ (withSlot f b).trace meaning s) :
    ∃ slot u, (perform (.register f) : HostProgram C σ Nat).run meaning s = (.ok slot, u) ∧
      (.call symbol args, t) ∈ (b slot).trace meaning u := by
  have hnot : (.call symbol args, t) ∉
      (perform (.register f) : HostProgram C σ Nat).trace meaning s :=
    fun hmem => nomatch (Prod.mk.inj (List.mem_singleton.1 hmem)).1
  rw [withSlot, bind_eq, trace_bind] at h
  replace h := (List.mem_append.1 h).resolve_left hnot
  split at h
  · next slot u hf =>
    -- what follows the body releases the slot, so it makes no call
    have hcall : ¬ Op.CallsOnly (fun _ => False) (.call symbol args : Op (HostFunction C σ)) :=
      not_false
    refine ⟨slot, u, hf, ?_⟩
    rw [← trace_attempt]
    refine Confined.mem_trace_of_bind (fun r => ?_) h hcall
    cases r with
    | ok a => exact .bind (.perform trivial) fun _ => .pure a
    | error failure => exact .bind (.attempt (.perform trivial)) fun _ => .ofOutcome _
  · contradiction

/-- The call of the entry point finds the input in the heap. -/
theorem of_call_mem (hreset : c.reset ≠ some symbol)
    (h : (.call symbol args, t) ∈ (run c symbol input extra service).trace meaning s) :
    ∃ buffer u, (allocateText input : HostProgram C σ Word).run meaning s = (.ok buffer, u) ∧
      (.call symbol args, t) ∈
        (body c symbol (.pointer buffer :: extra) service).trace meaning u := by
  have hnot : (.call symbol args, t) ∉
      (allocateText input : HostProgram C σ Word).trace meaning s :=
    (allocateText_callsOnly (fun _ => False) input).trace s _
  rw [run_eq, bind_eq, trace_bind] at h
  replace h := (List.mem_append.1 h).resolve_left hnot
  split at h
  · next buffer u hb =>
    refine ⟨buffer, u, hb, ?_⟩
    rw [← trace_attempt]
    exact Confined.mem_trace_of_bind (cleanUp_callsOnly (fun _ hx => hx) buffer) h hreset
  · contradiction

theorem endsUnless_body
    (hmem : (.call symbol args', t) ∈ (body c symbol args service).trace meaning s) :
    (body c symbol args service).EndsUnless (Op.CleansUp c) meaning s
      ((callText symbol args').run meaning t).1 := by
  cases service with
  | none =>
    obtain ⟨rfl, rfl⟩ := of_call_mem_callText hmem
    exact .inl rfl
  | some service =>
    obtain ⟨slot, u, hf, hbody⟩ := of_call_mem_registered hmem
    obtain ⟨rfl, rfl⟩ := of_call_mem_callText hbody
    exact endsUnless_withSlot hf

/-- A run ends as the call of its entry point did, unless something cannot be cleaned up. -/
theorem endsUnless_run (hreset : c.reset ≠ some symbol)
    (hmem : (.call symbol args, t) ∈ (run c symbol input extra service).trace meaning s) :
    (run c symbol input extra service).EndsUnless (Op.CleansUp c) meaning s
      ((callText symbol args).run meaning t).1 := by
  obtain ⟨buffer, u, hb, hbody⟩ := of_call_mem hreset hmem
  rw [run_eq]
  exact .bind hb (.attempt_bind (endsUnless_body hbody) fun r t => endsUnless_cleanUp c buffer r t)

def Returns (meaning : Meaning (HostFunction C σ) σ S) (p : HostProgram C σ α) (symbol : String)
    (s : S × σ) (text : String) : Prop :=
  ∃ args t v u, (.call symbol args, t) ∈ p.trace meaning s ∧
    meaning (.call symbol args) t = (.ok v, u) ∧
    ((Callback.readTextAt v : HostProgram C σ String).run meaning u).1 = .ok text

theorem returns_callText (h : (callText symbol args).run meaning s = (.ok text, t)) :
    Returns meaning (callText symbol args : HostProgram C σ String) symbol s text := by
  obtain ⟨v, u, hcall, hread⟩ := run_bind_eq_ok h
  exact ⟨args, s, v, u, List.mem_cons_self, hcall, congrArg Prod.fst hread⟩

theorem Returns.mono {p : HostProgram C σ α} {q : HostProgram C σ β}
    (h : Returns meaning p symbol s text)
    (hmem : ∀ x ∈ p.trace meaning s, x ∈ q.trace meaning t) :
    Returns meaning q symbol t text := by
  obtain ⟨args, u, v, w, hcall, hreturn, hread⟩ := h
  exact ⟨args, u, v, w, hmem _ hcall, hreturn, hread⟩

theorem eq_of_cleanUp {buffer : Word} {r : Outcome String}
    (h : (cleanUp c buffer r : HostProgram C σ String).run meaning s = (.ok text, t)) :
    r = .ok text := by
  rcases endsUnless_cleanUp c buffer r s with hr | ⟨failure, -, -, hr, -⟩
  · exact hr.symm.trans (congrArg Prod.fst h)
  · exact nomatch hr.symm.trans (congrArg Prod.fst h)

theorem returns_body (h : (body c symbol args service).run meaning s = (.ok text, t)) :
    Returns meaning (body c symbol args service) symbol s text := by
  cases service with
  | none => exact returns_callText h
  | some service =>
    obtain ⟨slot, u, hf, hbody⟩ := run_bind_eq_ok h
    obtain ⟨r, w, hattempt, hend⟩ := run_bind_eq_ok hbody
    have hcall := run_eq_of_attempt hattempt
    cases r with
    | ok a =>
      obtain ⟨-, x, -, hpure⟩ := run_bind_eq_ok hend
      obtain ⟨rfl, -⟩ := run_pure_eq_ok hpure
      refine (returns_callText hcall).mono fun x hx => mem_trace_bind_of_run hf (mem_trace_bind ?_)
      rwa [trace_attempt]
    | error failure =>
      obtain ⟨-, x, -, hfail⟩ := run_bind_eq_ok hend
      exact nomatch (Prod.mk.inj hfail).1

/-- A text that a run gives is what its call gave. -/
theorem returns_run (h : (run c symbol input extra service).run meaning s = (.ok text, t)) :
    Returns meaning (run c symbol input extra service) symbol s text := by
  rw [run_eq] at h
  obtain ⟨buffer, u, hb, h⟩ := run_bind_eq_ok h
  obtain ⟨r, w, hattempt, hend⟩ := run_bind_eq_ok h
  obtain rfl := eq_of_cleanUp hend
  have hbody := returns_body (run_eq_of_attempt hattempt)
  refine hbody.mono fun x hx => mem_trace_bind_of_run hb (mem_trace_bind ?_)
  rwa [trace_attempt]

end EntryRun

end SolidityHost
