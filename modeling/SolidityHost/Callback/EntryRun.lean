import SolidityHost.Callback.HostFunction

/-!
# Runs of an entry point

A run puts the input into the heap, calls the entry point, and copies the text that it gives out of
the module. While it runs, a slot of the function table may serve callbacks. However it ends, the
slot is released, the input is freed and the module is reset.
-/

set_option autoImplicit false

namespace SolidityHost

structure CallbackService (σ : Type) where
  protocol : Protocol
  handlers : Handlers σ

namespace EntryRun

variable {C σ α : Type}

/-- Registers a function, goes on with its slot, and releases the slot however that ends. A failure
to release counts only after success. -/
def withSlot (f : HostFunction C σ) (body : Nat → HostProgram C σ α) : HostProgram C σ α := do
  let slot ← Program.perform (.register f)
  let outcome ← (body slot).attempt
  match outcome with
  | .ok a => do
    Program.perform (.release slot)
    pure a
  | .error failure => do
    let _ ← Program.attempt (Program.perform (.release slot))
    Program.fail failure

def callText (symbol : String) (args : List Value) : HostProgram C σ String := do
  let v ← Program.perform (.call symbol args)
  Callback.readTextAt v

def callbackArguments (protocol : Protocol) (slot : Nat) : List Value :=
  -- kinded callbacks get a context, and it is null
  match protocol with
  | .importOnly => [.slot slot]
  | .kinded => [.slot slot, .null]

def body (c : Primitives) (symbol : String) (args : List Value)
    (service : Option (CallbackService σ)) : HostProgram C σ String :=
  match service with
  | none => callText symbol args
  | some s =>
    withSlot (.callbacks s.protocol c s.handlers) fun slot =>
      callText symbol (args ++ callbackArguments s.protocol slot)

def run (c : Primitives) (symbol input : String) (extra : List Value)
    (service : Option (CallbackService σ)) : HostProgram C σ String := do
  let buffer ← Program.allocateText input
  let outcome ← (body c symbol (.pointer buffer :: extra) service).attempt
  let freed ← Program.attemptError (Program.perform (.free buffer))
  let reset ← Program.attemptError c.resetAll
  match outcome, freed, reset with
  | .error failure, _, _ => Program.fail failure
  | .ok _, .error e, _ => Program.raise e
  | .ok _, .ok _, .error e => Program.raise e
  | .ok text, .ok _, .ok _ => pure text

end EntryRun

end SolidityHost
