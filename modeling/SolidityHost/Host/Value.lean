import SolidityHost.Host.Error
import SolidityHost.Host.Word

/-!
# Values

What is passed to entry points and comes back from them. Each value stands for one word, except a
function reference, which only a module can turn into one.
-/

set_option autoImplicit false

namespace SolidityHost

inductive Value where
  | pointer (address : Word)
  | bool (b : Bool)
  | slot (index : Nat)
  | void
  deriving DecidableEq, Repr

namespace Value

def null : Value := .pointer 0

def isNull (v : Value) : Bool := v = null

def word : Value → Outcome Word
  | .pointer p => .ok p
  | .bool false => .ok 0
  | .bool true => .ok 1
  | .void => .ok 0
  | .slot _ => refuse .unmaterialized

def address : Value → Outcome Word
  | .pointer p => .ok p
  | _ => refuse .notPointer

def index : Value → Outcome Nat
  | .slot i => .ok i
  | _ => refuse .notSlot

end Value

end SolidityHost
