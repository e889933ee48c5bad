import SolidityHost.Callback.EntryRun

/-!
# Traces of programs

The trace of a program lists the operations that it performs, in order, each with the state that it
meets. A program is confined to some operations if it can come to no other, whatever answers it
gets; what all of them keep, the program keeps.
-/

set_option autoImplicit false

namespace SolidityHost

variable {F σ S α β : Type}

namespace Program

theorem bind_eq (p : Program F σ α) (f : α → Program F σ β) : p >>= f = p.bind f := rfl

theorem run_bind_eq_ok {meaning : Meaning F σ S} {p : Program F σ α} {f : α → Program F σ β}
    {s t : S × σ} {b : β} (h : (p >>= f).run meaning s = (.ok b, t)) :
    ∃ a u, p.run meaning s = (.ok a, u) ∧ (f a).run meaning u = (.ok b, t) := by
  rw [bind_eq, run_bind] at h
  split at h
  · next a u hp => exact ⟨a, u, hp, h⟩
  · exact nomatch (Prod.mk.inj h).1

theorem run_pure_eq_ok {meaning : Meaning F σ S} {a b : α} {s t : S × σ}
    (h : (pure a : Program F σ α).run meaning s = (.ok b, t)) : a = b ∧ s = t := by
  obtain ⟨hab, hst⟩ := Prod.mk.inj h
  exact ⟨Except.ok.inj hab, hst⟩

/-- What holds behind a program, and what follows the program keeps, holds behind both. -/
theorem run_bind_keeps {meaning : Meaning F σ S} {P : S → Prop} {p : Program F σ α}
    {f : α → Program F σ β} {s : S × σ} (hp : P (p.run meaning s).2.1)
    (hf : ∀ a u, P u.1 → P ((f a).run meaning u).2.1) : P ((p >>= f).run meaning s).2.1 := by
  rw [bind_eq, run_bind]
  revert hp
  rcases p.run meaning s with ⟨_ | a, u⟩
  · exact id
  · exact hf a u

def trace (meaning : Meaning F σ S) : Program F σ α → S × σ → List (Op F × (S × σ))
  | .finish _, _ => []
  | .host change next, (m, w) => trace meaning (next w) (m, change w)
  | .op o next, s => (o, s) :: trace meaning (next (meaning o s).1) (meaning o s).2

theorem trace_bind (meaning : Meaning F σ S) (p : Program F σ α) (f : α → Program F σ β)
    (s : S × σ) :
    (p.bind f).trace meaning s = p.trace meaning s ++
      match p.run meaning s with
      | (.ok a, s) => (f a).trace meaning s
      | (.error _, _) => [] := by
  induction p generalizing s with
  | finish r => cases r <;> rfl
  | host change next ih => exact ih s.2 (s.1, change s.2)
  | op o next ih => exact congrArg (List.cons (o, s)) (ih _ _)

theorem mem_trace_bind {meaning : Meaning F σ S} {p : Program F σ α} {f : α → Program F σ β}
    {s : S × σ} {x : Op F × (S × σ)} (hx : x ∈ p.trace meaning s) :
    x ∈ (p >>= f).trace meaning s := by
  rw [bind_eq, trace_bind]
  exact List.mem_append_left _ hx

theorem mem_trace_bind_of_run {meaning : Meaning F σ S} {p : Program F σ α}
    {f : α → Program F σ β} {s t : S × σ} {a : α} {x : Op F × (S × σ)}
    (hp : p.run meaning s = (.ok a, t)) (hx : x ∈ (f a).trace meaning t) :
    x ∈ (p >>= f).trace meaning s := by
  rw [bind_eq, trace_bind, hp]
  exact List.mem_append_right _ hx

theorem trace_bind_pure (meaning : Meaning F σ S) (p : Program F σ α) (f : α → β) (s : S × σ) :
    (p >>= fun a => pure (f a)).trace meaning s = p.trace meaning s := by
  rw [bind_eq, trace_bind]
  rcases p.run meaning s with ⟨_ | a, t⟩ <;> exact List.append_nil _

theorem trace_attempt (meaning : Meaning F σ S) (p : Program F σ α) (s : S × σ) :
    p.attempt.trace meaning s = p.trace meaning s := by
  induction p generalizing s with
  | finish r => rfl
  | host change next ih => exact ih s.2 (s.1, change s.2)
  | op o next ih => exact congrArg (List.cons (o, s)) (ih _ _)

theorem run_eq_of_attempt {meaning : Meaning F σ S} {p : Program F σ α} {r : Outcome α}
    {s t : S × σ} (h : p.attempt.run meaning s = (.ok r, t)) : p.run meaning s = (r, t) := by
  rw [run_attempt] at h
  obtain ⟨hr, ht⟩ := Prod.mk.inj h
  exact Prod.ext (Except.ok.inj hr) ht

theorem run_attemptError (meaning : Meaning F σ S) (p : Program F σ α) (s : S × σ) :
    p.attemptError.run meaning s =
      match p.run meaning s with
      | (.ok a, s) => (.ok (.ok a), s)
      | (.error (.error e), s) => (.ok (.error e), s)
      | (.error (.abort a), s) => (.error (.abort a), s) := by
  rw [attemptError, run_bind, run_attempt]
  rcases p.run meaning s with ⟨(e | a) | a, s⟩ <;> rfl

theorem trace_attemptError (meaning : Meaning F σ S) (p : Program F σ α) (s : S × σ) :
    p.attemptError.trace meaning s = p.trace meaning s := by
  rw [attemptError, trace_bind, trace_attempt, run_attempt]
  rcases p.run meaning s with ⟨(e | a) | a, s⟩ <;> exact List.append_nil _

def Confined (allowed : Op F → Prop) : Program F σ α → Prop
  | .finish _ => True
  | .host _ next => ∀ s, (next s).Confined allowed
  | .op o next => allowed o ∧ ∀ r, (next r).Confined allowed

namespace Confined

variable {allowed : Op F → Prop}

theorem bind {p : Program F σ α} {f : α → Program F σ β} (hp : p.Confined allowed)
    (hf : ∀ a, (f a).Confined allowed) : (p >>= f).Confined allowed := by
  induction p with
  | finish r =>
    cases r with
    | ok a => exact hf a
    | error e => trivial
  | host change next ih => exact fun s => ih s (hp s)
  | op o next ih => exact ⟨hp.1, fun r => ih r (hp.2 r)⟩

theorem perform {o : Op F} (ho : allowed o) :
    (Program.perform o : Program F σ o.Answer).Confined allowed := ⟨ho, fun _ => trivial⟩

theorem ofOutcome (r : Outcome α) : (Program.ofOutcome r : Program F σ α).Confined allowed :=
  trivial

theorem raise (e : HostError) : (Program.raise e : Program F σ α).Confined allowed := trivial

theorem pure (a : α) : (Pure.pure a : Program F σ α).Confined allowed := trivial

theorem mono {p : Program F σ α} {wider : Op F → Prop} (hp : p.Confined allowed)
    (h : ∀ o, allowed o → wider o) : p.Confined wider := by
  induction p with
  | finish r => trivial
  | host change next ih => exact fun s => ih s (hp s)
  | op o next ih => exact ⟨h o hp.1, fun r => ih r (hp.2 r)⟩

theorem attempt {p : Program F σ α} (hp : p.Confined allowed) : p.attempt.Confined allowed := by
  induction p with
  | finish r => trivial
  | host change next ih => exact fun s => ih s (hp s)
  | op o next ih => exact ⟨hp.1, fun r => ih r (hp.2 r)⟩

theorem attemptError {p : Program F σ α} (hp : p.Confined allowed) :
    p.attemptError.Confined allowed := by
  apply hp.attempt.bind
  rintro (⟨e | a⟩ | a) <;> trivial

theorem run {meaning : Meaning F σ S} {P : S → Prop} {p : Program F σ α} (hp : p.Confined allowed)
    (step : ∀ o s, allowed o → P s.1 → P (meaning o s).2.1) {s : S × σ} (h : P s.1) :
    P (p.run meaning s).2.1 := by
  induction p generalizing s with
  | finish r => exact h
  | host change next ih => exact ih s.2 (hp s.2) (s := (s.1, change s.2)) h
  | op o next ih => exact ih _ (hp.2 _) (step o s hp.1 h)

/-- If all allowed operations commute with a change of the module, the program does. -/
theorem run_map {meaning : Meaning F σ S} {P : S → Prop} {g : S → S} {p : Program F σ α}
    (hp : p.Confined allowed) (keep : ∀ o s, allowed o → P s.1 → P (meaning o s).2.1)
    (step : ∀ o s, allowed o → P s.1 → meaning o (g s.1, s.2) =
      ((meaning o s).1, (g (meaning o s).2.1, (meaning o s).2.2))) {s : S × σ} (h : P s.1) :
    p.run meaning (g s.1, s.2) =
      ((p.run meaning s).1, (g (p.run meaning s).2.1, (p.run meaning s).2.2)) := by
  induction p generalizing s with
  | finish r => rfl
  | host change next ih => exact ih s.2 (hp s.2) (s := (s.1, change s.2)) h
  | op o next ih =>
    show (next (meaning o (g s.1, s.2)).1).run meaning (meaning o (g s.1, s.2)).2 = _
    rw [step o s hp.1 h]
    exact ih _ (hp.2 _) (keep o s hp.1 h)

theorem trace {meaning : Meaning F σ S} {p : Program F σ α} (hp : p.Confined allowed) (s : S × σ) :
    ∀ e ∈ p.trace meaning s, allowed e.1 := by
  induction p generalizing s with
  | finish r => simp [Program.trace]
  | host change next ih => exact ih s.2 (hp s.2) (s.1, change s.2)
  | op o next ih => exact List.forall_mem_cons.2 ⟨hp.1, ih _ (hp.2 _) _⟩

/-- An operation that what follows cannot come to is one of the first program. -/
theorem mem_trace_of_bind {meaning : Meaning F σ S} {p : Program F σ α} {f : α → Program F σ β}
    (hf : ∀ a, (f a).Confined allowed) {o : Op F} {s t : S × σ}
    (h : (o, t) ∈ (p >>= f).trace meaning s) (ho : ¬ allowed o) : (o, t) ∈ p.trace meaning s := by
  rw [bind_eq, trace_bind, List.mem_append] at h
  refine h.resolve_right fun hrest => ?_
  split at hrest
  · next a u _ => exact ho ((hf a).trace u _ hrest)
  · exact List.not_mem_nil hrest

end Confined

end Program

def Op.Avoids (forbidden : String → Prop) : Op F → Prop
  | .register _ => False
  | .release _ => False
  | .call symbol _ => ¬ forbidden symbol
  | _ => True

def Op.calls (symbol : String) : Op F → Bool
  | .call s _ => s = symbol
  | _ => false

theorem Op.calls_iff {o : Op F} {symbol : String} :
    o.calls symbol ↔ ∃ args, o = .call symbol args := by
  cases o <;> simp [Op.calls]

def Op.Asks : Op F → Prop
  | .exports _ => True
  | .call _ _ => True
  | .readText _ => True
  | _ => False

theorem Op.Asks.avoids {o : Op F} (h : o.Asks) : o.Avoids fun _ => False := by
  cases o <;> first | trivial | exact not_false

def Op.CallsOnly (names : String → Prop) : Op F → Prop
  | .call symbol _ => names symbol
  | _ => True

def Primitives.AllocatorAvoids (forbidden : String → Prop) (c : Primitives) : Prop :=
  ∀ symbol, c.allocator = .entry symbol → ¬ forbidden symbol

variable {C : Type} {forbidden : String → Prop} {c : Primitives}

open Program

theorem Primitives.allocate_confined (hc : c.AllocatorAvoids forbidden) (size : Nat) :
    (c.allocate size : Program F σ Word).Confined (Op.Avoids forbidden) := by
  have hcheck : ∀ p : Word, (if p = 0 then raise (.internal (.allocatorFailed size)) else pure p :
      Program F σ Word).Confined (Op.Avoids forbidden) := by
    intro p
    split
    · exact .raise _
    · exact .pure _
  unfold Primitives.allocate
  cases ha : c.allocator with
  | entry symbol =>
    apply Confined.bind (.perform (hc symbol ha))
    intro v
    exact .bind (.ofOutcome _) hcheck
  | heap => exact .bind (.perform trivial) hcheck

theorem Primitives.copyText_confined (hc : c.AllocatorAvoids forbidden) (s : String) (out : Word) :
    (c.copyText s out : Program F σ Unit).Confined (Op.Avoids forbidden) := by
  apply Confined.bind (c.allocate_confined hc _)
  intro p
  apply Confined.bind (.perform trivial)
  intro _
  exact .bind (.perform trivial) fun _ => .perform trivial

namespace Callback

theorem readTextAt_confined (v : Value) :
    (readTextAt v : HostProgram C σ String).Confined (Op.Avoids forbidden) :=
  .bind (.ofOutcome _) fun _ => .perform trivial

theorem ask_confined (handlers : Handlers σ) (kind : CallbackKind) (data : String) :
    (ask handlers kind data : HostProgram C σ Reply).Confined (Op.Avoids forbidden) := by
  intro s
  dsimp only
  split <;> trivial

theorem deliver_confined (hc : c.AllocatorAvoids forbidden) (reply : Reply)
    (contents error : Value) :
    (deliver c reply contents error : HostProgram C σ Value).Confined (Op.Avoids forbidden) := by
  apply Confined.bind (.ofOutcome _)
  intro p
  apply Confined.bind (.ofOutcome _)
  intro q
  cases reply with
  | contents text => exact .bind (c.copyText_confined hc text p) fun _ => .pure _
  | error text => exact .bind (c.copyText_confined hc text q) fun _ => .pure _

theorem serveImport_confined (hc : c.AllocatorAvoids forbidden) (handlers : Handlers σ)
    (path contents error : Value) :
    (serveImport c handlers path contents error : HostProgram C σ Value).Confined
      (Op.Avoids forbidden) := by
  apply Confined.bind (readTextAt_confined path)
  intro text
  exact .bind (ask_confined handlers .source text) fun reply => deliver_confined hc reply _ _

theorem serveKinded_confined (hc : c.AllocatorAvoids forbidden) (handlers : Handlers σ)
    (context kind data contents error : Value) :
    (serveKinded c handlers context kind data contents error : HostProgram C σ Value).Confined
      (Op.Avoids forbidden) := by
  rw [serveKinded]
  split
  · apply Confined.bind (readTextAt_confined kind)
    intro name
    cases CallbackKind.ofName name with
    | error e => exact .raise e
    | ok k =>
      apply Confined.bind (readTextAt_confined data)
      intro text
      exact .bind (ask_confined handlers k text) fun reply => deliver_confined hc reply _ _
  · exact .raise _

end Callback

/-- A function that serves callbacks does nothing to the table and calls at most the allocator. -/
theorem HostFunction.callbacks_confined (hc : c.AllocatorAvoids forbidden) (protocol : Protocol)
    (handlers : Handlers σ) (code : C → List Value → HostProgram C σ Value) (args : List Value) :
    ((HostFunction.callbacks protocol c handlers : HostFunction C σ).program code args).Confined
      (Op.Avoids forbidden) := by
  unfold HostFunction.program
  split
  · split
    · next heq _ => contradiction
    · next heq _ =>
      obtain ⟨-, rfl, rfl⟩ := HostFunction.callbacks.inj heq
      exact Callback.serveImport_confined hc _ _ _ _
    · next heq _ =>
      obtain ⟨-, rfl, rfl⟩ := HostFunction.callbacks.inj heq
      exact Callback.serveKinded_confined hc _ _ _ _ _ _
    · exact .ofOutcome _
  · exact .ofOutcome _

end SolidityHost
