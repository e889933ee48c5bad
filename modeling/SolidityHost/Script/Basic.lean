import SolidityHost.Host.Value

/-!
# Scripts

Host code as data, so that a run can be written down, repeated and compared. Scripts are no part of
the host, and no result is about them. A script is a list of steps on a module; each step reads the
arguments of the function that it belongs to, variables that hold values, and variables that hold
texts. What a function or a handler does may depend on its turn, the number of times that it ran
before.
-/

set_option autoImplicit false

namespace SolidityHost.Script

inductive Origin where
  | value (v : Value)
  | argument (position : Nat)
  | named (name : String)

structure Expr where
  origin : Origin
  offset : Option Word

inductive Phrase where
  | literal (s : String)
  | named (name : String)
  | concat (parts : List Phrase)
  | quoted (part : Phrase)
  | repeated (part : Phrase) (times : Nat)
  deriving Inhabited

inductive Responder where
  | contents (text : Phrase)
  | error (text : Phrase)
  | abort (text : Phrase)
  | onData (data : String) (same other : Responder)
  | untilTurn (turn : Nat) (before after : Responder)
  deriving Inhabited

structure Responders where
  importer : Option Responder
  solver : Option Responder

inductive PrimitiveStep where
  | register (protocol : Protocol) (responders : Responders) (store : Option String)
  | version
  | license
  | allocate (size : Nat) (store : Option String)
  | reset
  | copyText (text : Phrase) (out : Expr)
  | readText (address : Expr)
  | run (symbol : String) (input : Phrase) (extra : List Expr)
      (service : Option (Protocol × Responders))

mutual

inductive Step where
  | exports (symbol : String)
  -- calls an entry point. A result that is `shown` is given as it is, even if it is an address
  | call (symbol : String) (args : List Expr) (shown : Bool) (store : Option String)
  | invoke (slot : Expr) (args : List Expr) (store : Option String)
  | register (protocol : Protocol) (body : Body) (store : Option String)
  | release (slot : Expr)
  | allocate (size : Nat) (store : Option String)
  | free (address : Expr)
  | allocateText (text : Phrase) (store : Option String)
  | readText (address : Expr) (store : Option String)
  | writeBytes (address : Expr) (bytes : Option (List UInt8))
  | readWord (address : Expr) (store : Option String)
  | writeWord (address value : Expr)
  | callBack (slot : Expr) (kind : Option (Expr × Phrase)) (data : Phrase) (store : Option String)
  | log (text : Phrase)
  | logArguments
  | finish (value : Expr)
  | finishText (text : Phrase)
  | fail (e : HostError)
  | abort (text : Phrase)
  | probe
  | primitive (s : PrimitiveStep)
  -- registers a function that serves callbacks, runs steps, and releases the function. A failure to
  -- release is `reported` or ignored
  | withSlot (protocol : Protocol) (responders : Responders) (steps : List Step) (reported : Bool)
  | unknown

inductive Body where
  | steps (steps : List Step)
  | untilTurn (turn : Nat) (before after : Body)

end

instance : Inhabited Step := ⟨.unknown⟩

instance : Inhabited Body := ⟨.steps []⟩

namespace Body

def stepsAt (turn : Nat) : Body → List Step
  | .steps s => s
  | .untilTurn t before after => if turn < t then before.stepsAt turn else after.stepsAt turn

def inTurns (first : Nat) : List Body → Body
  | [] => .steps []
  | [b] => b
  | b :: next :: rest => .untilTurn (first + 1) b (inTurns (first + 1) (next :: rest))

end Body

def Responder.inTurns (first : Nat) : List Responder → Responder
  | [] => .contents (.literal "")
  | [r] => r
  | r :: next :: rest => .untilTurn (first + 1) r (inTurns (first + 1) (next :: rest))

def Responder.ofCases (cases : List (String × Responder)) (other : Responder) : Responder :=
  cases.foldr (fun c r => .onData c.1 c.2 r) other

end SolidityHost.Script
