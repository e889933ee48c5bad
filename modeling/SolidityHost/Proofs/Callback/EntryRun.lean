import SolidityHost.Proofs.Host.Trace

/-!
# Phases of an entry run

Once the input is in the heap, the call of the entry point, the release of the input and the reset
follow each other whatever comes of each. Of the entry points of a module a run calls only that one
and the reset.
-/

set_option autoImplicit false

namespace SolidityHost.EntryRun

open Program

section

variable {C σ α : Type} {names : String → Prop}

theorem allocateText_confined {allowed : Op (HostFunction C σ) → Prop}
    (ha : ∀ size, allowed (.allocate size)) (hw : ∀ p bytes, allowed (.writeBytes p bytes))
    (s : String) : (allocateText s : HostProgram C σ Word).Confined allowed := by
  apply Confined.bind (.perform (ha _))
  intro p
  apply Confined.bind (.perform (hw _ _))
  intro _
  exact .bind (.perform (hw _ _)) fun _ => .pure p

theorem allocateText_callsOnly (names : String → Prop) (s : String) :
    (allocateText s : HostProgram C σ Word).Confined (Op.CallsOnly names) :=
  allocateText_confined (fun _ => trivial) (fun _ _ => trivial) s

theorem callText_confined {allowed : Op (HostFunction C σ) → Prop} {symbol : String}
    {args : List Value} (hc : allowed (.call symbol args)) (hr : ∀ p, allowed (.readText p)) :
    (callText symbol args : HostProgram C σ String).Confined allowed := by
  apply Confined.bind (.perform hc)
  intro v
  exact .bind (.ofOutcome _) fun p => .perform (hr p)

theorem withSlot_callsOnly (f : HostFunction C σ) {body : Nat → HostProgram C σ α}
    (hb : ∀ slot, (body slot).Confined (Op.CallsOnly names)) :
    (withSlot f body).Confined (Op.CallsOnly names) := by
  apply Confined.bind (.perform trivial)
  intro slot
  apply Confined.bind (hb slot).attempt
  intro outcome
  cases outcome with
  | ok a => exact .bind (.perform trivial) fun _ => .pure a
  | error failure => exact .bind (Confined.attempt (.perform trivial)) fun _ => .ofOutcome _

theorem body_callsOnly (c : Primitives) {symbol : String} (hs : names symbol) (args : List Value)
    (service : Option (CallbackService σ)) :
    (body c symbol args service : HostProgram C σ String).Confined (Op.CallsOnly names) := by
  cases service with
  | none => exact callText_confined hs fun _ => trivial
  | some s => exact withSlot_callsOnly _ fun slot => callText_confined hs fun _ => trivial

theorem resetAll_confined {allowed : Op (HostFunction C σ) → Prop} {c : Primitives}
    (hr : ∀ symbol, c.reset = some symbol → allowed (.call symbol [])) :
    (c.resetAll : HostProgram C σ Unit).Confined allowed := by
  unfold Primitives.resetAll
  split
  · next symbol h => exact .bind (.perform (hr symbol h)) fun _ => .pure ()
  · exact .pure ()

def cleanUp (c : Primitives) (buffer : Word) (outcome : Outcome String) :
    HostProgram C σ String := do
  let freed ← Program.attemptError (Program.perform (.free buffer))
  let reset ← Program.attemptError c.resetAll
  match outcome, freed, reset with
  | .error failure, _, _ => Program.fail failure
  | .ok _, .error e, _ => Program.raise e
  | .ok _, .ok _, .error e => Program.raise e
  | .ok text, .ok _, .ok _ => pure text

theorem run_eq (c : Primitives) (symbol input : String) (extra : List Value)
    (service : Option (CallbackService σ)) :
    (run c symbol input extra service : HostProgram C σ String) =
      allocateText input >>= fun buffer =>
        (body c symbol (.pointer buffer :: extra) service).attempt >>= cleanUp c buffer := rfl

theorem cleanUp_confined {allowed : Op (HostFunction C σ) → Prop} {c : Primitives}
    (hf : ∀ p, allowed (.free p)) (hr : ∀ symbol, c.reset = some symbol → allowed (.call symbol []))
    (buffer : Word) (outcome : Outcome String) :
    (cleanUp c buffer outcome : HostProgram C σ String).Confined allowed := by
  apply Confined.bind (Confined.perform (hf buffer)).attemptError
  intro freed
  apply Confined.bind (resetAll_confined hr).attemptError
  intro reset
  rcases outcome with _ | _ <;> rcases freed with _ | _ <;> rcases reset with _ | _ <;> trivial

theorem cleanUp_callsOnly {c : Primitives} (hr : ∀ symbol, c.reset = some symbol → names symbol)
    (buffer : Word) (outcome : Outcome String) :
    (cleanUp c buffer outcome : HostProgram C σ String).Confined (Op.CallsOnly names) :=
  cleanUp_confined (fun _ => trivial) hr buffer outcome

theorem run_callsOnly {c : Primitives} {symbol : String} (hs : names symbol)
    (hr : ∀ symbol, c.reset = some symbol → names symbol) (input : String) (extra : List Value)
    (service : Option (CallbackService σ)) :
    (run c symbol input extra service : HostProgram C σ String).Confined (Op.CallsOnly names) := by
  rw [run_eq]
  apply Confined.bind (allocateText_callsOnly names input)
  intro buffer
  exact .bind (body_callsOnly c hs _ service).attempt (cleanUp_callsOnly hr buffer)

end

variable {C σ S : Type} {meaning : Meaning (HostFunction C σ) σ S}

theorem state_run (hfree : ∀ p s, meaning (.free p) s = (.ok (), s)) (c : Primitives)
    (symbol input : String) (extra : List Value) (service : Option (CallbackService σ))
    {s s' : S × σ} {buffer : Word}
    (hb : (allocateText input : HostProgram C σ Word).run meaning s = (.ok buffer, s')) :
    ((EntryRun.run c symbol input extra service).run meaning s).2 =
      ((c.resetAll : HostProgram C σ Unit).run meaning
        ((body c symbol (.pointer buffer :: extra) service).run meaning s').2).2 := by
  have hf : ∀ s, (perform (.free buffer) : HostProgram C σ Unit).run meaning s = (.ok (), s) :=
    hfree buffer
  unfold EntryRun.run
  simp only [bind_eq, run_bind, hb, run_attempt, run_attemptError, hf]
  rcases (body c symbol (.pointer buffer :: extra) service).run meaning s' with ⟨a | a, s⟩ <;>
    rcases (c.resetAll : HostProgram C σ Unit).run meaning s with ⟨(e | a) | a, s⟩ <;> rfl

theorem trace_run (hfree : ∀ p s, meaning (.free p) s = (.ok (), s)) (c : Primitives)
    (symbol input : String) (extra : List Value) (service : Option (CallbackService σ))
    {s s' : S × σ} {buffer : Word}
    (hb : (allocateText input : HostProgram C σ Word).run meaning s = (.ok buffer, s')) :
    (EntryRun.run c symbol input extra service).trace meaning s =
      (allocateText input : HostProgram C σ Word).trace meaning s ++
        ((body c symbol (.pointer buffer :: extra) service).trace meaning s' ++
          (.free buffer, ((body c symbol (.pointer buffer :: extra) service).run meaning s').2) ::
            (c.resetAll : HostProgram C σ Unit).trace meaning
              ((body c symbol (.pointer buffer :: extra) service).run meaning s').2) := by
  have hf : ∀ s, (perform (.free buffer) : HostProgram C σ Unit).run meaning s = (.ok (), s) :=
    hfree buffer
  have ht : ∀ s, (perform (.free buffer) : HostProgram C σ Unit).trace meaning s =
      [(.free buffer, s)] := fun _ => rfl
  unfold EntryRun.run
  simp only [bind_eq, trace_bind, hb, run_attempt, trace_attempt, run_attemptError,
    trace_attemptError, hf, ht, List.singleton_append]
  congr 3
  rcases (body c symbol (.pointer buffer :: extra) service).run meaning s' with ⟨a | a, s⟩ <;>
    rcases (c.resetAll : HostProgram C σ Unit).run meaning s with ⟨(e | a) | a, s⟩ <;>
      exact List.append_nil _

end SolidityHost.EntryRun
