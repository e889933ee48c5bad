import SolidityHost.Host.Value

/-!
# Programs over a module

What a host does with a module is a program: a tree of operations on the module and of changes to
the state of the host itself. An operation gives an outcome, and the program goes on from any
outcome, so that clean-up after a failure is written like everything else. The meaning of the
operations is left open here: `Program.run` takes it as an argument.
-/

set_option autoImplicit false

namespace SolidityHost

inductive Op (F : Type) where
  | exports (symbol : String)
  | call (symbol : String) (args : List Value)
  | invoke (slot : Nat) (args : List Value)
  | register (function : F)
  | release (slot : Nat)
  | allocate (size : Nat)
  | free (address : Word)
  | readText (address : Word)
  | writeBytes (address : Word) (bytes : List UInt8)
  | readWord (address : Word)
  | writeWord (address value : Word)

@[reducible] def Op.Answer {F : Type} : Op F → Type
  | .exports _ => Bool
  | .call _ _ => Value
  | .invoke _ _ => Value
  | .register _ => Nat
  | .release _ => Unit
  | .allocate _ => Word
  | .free _ => Unit
  | .readText _ => String
  | .writeBytes _ _ => Unit
  | .readWord _ => Word
  | .writeWord _ _ => Unit

/-- A program on a module and a host state `σ` with a result `α`. -/
inductive Program (F σ α : Type) where
  | finish (outcome : Outcome α)
  -- changes the state of the host, and goes on with what it was before
  | host (change : σ → σ) (next : σ → Program F σ α)
  | op (o : Op F) (next : Outcome o.Answer → Program F σ α)

namespace Program

variable {F σ α β : Type}

def fail (f : Failure) : Program F σ α := .finish (.error f)

def raise (e : HostError) : Program F σ α := .finish (.error (.error e))

def bind (p : Program F σ α) (f : α → Program F σ β) : Program F σ β :=
  match p with
  | .finish (.ok a) => f a
  | .finish (.error e) => .finish (.error e)
  | .host change next => .host change fun s => (next s).bind f
  | .op o next => .op o fun r => (next r).bind f

def attempt (p : Program F σ α) : Program F σ (Outcome α) :=
  match p with
  | .finish r => .finish (.ok r)
  | .host change next => .host change fun s => (next s).attempt
  | .op o next => .op o fun r => (next r).attempt

def attemptError (p : Program F σ α) : Program F σ (Except HostError α) :=
  p.attempt.bind fun
    | .ok a => .finish (.ok (.ok a))
    | .error (.error e) => .finish (.ok (.error e))
    | .error (.abort a) => .finish (.error (.abort a))

instance : Monad (Program F σ) where
  pure a := .finish (.ok a)
  bind := bind

def perform (o : Op F) : Program F σ o.Answer := .op o .finish

def ofOutcome (r : Outcome α) : Program F σ α := .finish r

def modifyHost (change : σ → σ) : Program F σ Unit := .host change fun _ => .finish (.ok ())

end Program

abbrev Meaning (F σ S : Type) := (o : Op F) → S × σ → Outcome o.Answer × (S × σ)

abbrev Runner (F σ S : Type) := Program F σ Value → S × σ → Outcome Value × (S × σ)

namespace Program

variable {F σ S α β : Type}

def run (meaning : Meaning F σ S) : Program F σ α → S × σ → Outcome α × (S × σ)
  | .finish r, s => (r, s)
  | .host change next, (m, w) => run meaning (next w) (m, change w)
  | .op o next, s =>
    let (r, s) := meaning o s
    run meaning (next r) s

theorem run_bind (meaning : Meaning F σ S) (p : Program F σ α) (f : α → Program F σ β)
    (s : S × σ) :
    (p.bind f).run meaning s =
      match p.run meaning s with
      | (.ok a, s) => (f a).run meaning s
      | (.error e, s) => (.error e, s) := by
  induction p generalizing s with
  | finish r => cases r <;> rfl
  | host change next ih => exact ih s.2 (s.1, change s.2)
  | op o next ih => exact ih _ _

theorem run_attempt (meaning : Meaning F σ S) (p : Program F σ α) (s : S × σ) :
    p.attempt.run meaning s = (.ok (p.run meaning s).1, (p.run meaning s).2) := by
  induction p generalizing s with
  | finish r => rfl
  | host change next ih => exact ih s.2 (s.1, change s.2)
  | op o next ih => exact ih _ _

end Program

/-- The meaning of operations that run programs themselves, when at most `depth` programs run
inside each other. `perform` gives the meaning of an operation from that of programs. -/
def Meaning.nested {F σ S : Type} (perform : Runner F σ S → Meaning F σ S) :
    (depth : Nat) → Meaning F σ S
  | 0 => perform fun _ s => (.error (.abort .stackExhausted), s)
  | depth + 1 => perform fun p s => p.run (nested perform depth) s

end SolidityHost
