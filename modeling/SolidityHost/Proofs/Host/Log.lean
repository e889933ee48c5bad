import SolidityHost.Proofs.Host.Trace

/-!
# Logs of nested programs

An operation may run programs, whose operations may run programs again. An observer notes one
operation, given the logs of the programs that it runs; the log of everything below an operation
follows. What is shown of one operation and its log then holds of a whole run.
-/

set_option autoImplicit false

namespace SolidityHost

variable {F σ S E α : Type}

abbrev Observer (F σ S E : Type) := Op F → S × σ → List E

abbrev Logger (F σ S E : Type) := Program F σ Value → S × σ → List E

def Program.log (meaning : Meaning F σ S) (observer : Observer F σ S E) (p : Program F σ α)
    (s : S × σ) : List E :=
  (p.trace meaning s).flatMap fun e => observer e.1 e.2

/-- The observer of operations when at most `depth` programs run inside each other. `observe` notes
an operation, given the meaning and the logs of the programs that it runs. -/
def Observer.nested (perform : Runner F σ S → Meaning F σ S)
    (observe : Runner F σ S → Logger F σ S E → Observer F σ S E) : Nat → Observer F σ S E
  | 0 => observe (fun _ s => (.error (.abort .stackExhausted), s)) fun _ _ => []
  | depth + 1 =>
    observe (fun p s => p.run (Meaning.nested perform depth) s)
      fun p s => p.log (Meaning.nested perform depth) (nested perform observe depth) s

/-- A relation between a module, a log, and the module behind it that holds of logs one after the
other if it holds of each. -/
structure Sequential (R : S → List E → S → Prop) : Prop where
  nil : ∀ m, R m [] m
  append : ∀ {m n k l l'}, R m l n → R n l' k → R m (l ++ l') k

namespace Sequential

variable {R : S → List E → S → Prop} (hR : Sequential R)

include hR

theorem program {meaning : Meaning F σ S} {observer : Observer F σ S E}
    (step : ∀ o s, R s.1 (observer o s) (meaning o s).2.1) (p : Program F σ α) (s : S × σ) :
    R s.1 (p.log meaning observer s) (p.run meaning s).2.1 := by
  induction p generalizing s with
  | finish r => exact hR.nil s.1
  | host change next ih => exact ih s.2 (s.1, change s.2)
  | op o next ih => exact hR.append (step o s) (ih _ _)

variable {perform : Runner F σ S → Meaning F σ S}
  {observe : Runner F σ S → Logger F σ S E → Observer F σ S E}
  (step : ∀ (runner : Runner F σ S) (logger : Logger F σ S E),
    (∀ p s, R s.1 (logger p s) (runner p s).2.1) →
      ∀ o s, R s.1 (observe runner logger o s) (perform runner o s).2.1)

include step

/-- At every depth an operation runs its programs by some runner. What an operation keeps when the
programs that it runs keep it, those programs keep. -/
theorem exists_runner (depth : Nat) :
    ∃ (runner : Runner F σ S) (logger : Logger F σ S E),
      Meaning.nested perform depth = perform runner ∧
        Observer.nested perform observe depth = observe runner logger ∧
          ∀ p s, R s.1 (logger p s) (runner p s).2.1 := by
  induction depth with
  | zero => exact ⟨_, _, rfl, rfl, fun _ s => hR.nil s.1⟩
  | succ depth ih =>
    obtain ⟨runner, logger, hmeaning, hlog, hrun⟩ := ih
    refine ⟨_, _, rfl, rfl, fun p s => ?_⟩
    rw [hmeaning, hlog]
    exact hR.program (step runner logger hrun) p s

theorem nested (depth : Nat) (o : Op F) (s : S × σ) :
    R s.1 (Observer.nested perform observe depth o s)
      (Meaning.nested perform depth o s).2.1 := by
  obtain ⟨runner, logger, hmeaning, hlog, hrun⟩ := exists_runner hR step depth
  rw [hmeaning, hlog]
  exact step runner logger hrun o s

end Sequential

end SolidityHost
