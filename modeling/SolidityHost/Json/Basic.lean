import SolidityHost.Binary64
import SolidityHost.Dict

/-!
# JSON values

Numbers are integers of one machine word, signed or unsigned, or doubles. The fields of an object
are a list in the order in which they are written; an object that was read lists its fields in key
order.
-/

set_option autoImplicit false

namespace SolidityHost

namespace Json

def FitsWord (n : Int) : Prop := -0x8000000000000000 ≤ n ∧ n < 0x10000000000000000

instance (n : Int) : Decidable (FitsWord n) := inferInstanceAs (Decidable (_ ∧ _))

inductive Number where
  | integer (n : Int) (fits : FitsWord n)
  | double (x : Binary64)
  deriving DecidableEq

def Number.ofInt (n : Int) : Number :=
  if h : FitsWord n then .integer n h
  else .double ((Binary64.ofRatio? (n < 0) n.natAbs 1).getD default)

def Number.isZero : Number → Bool
  | .integer n _ => n = 0
  | .double x => x.isZero

end Json

open Json (Number)

inductive Json where
  | null
  | bool (b : Bool)
  | number (n : Number)
  | string (s : String)
  | array (items : List Json)
  | object (fields : List (String × Json))
  deriving Inhabited

namespace Json

def ofNat (n : Nat) : Json := .number (Number.ofInt n)

def ofFields (fields : List (String × Json)) : Json := .object (Entries.ofList fields)

def isNull : Json → Bool
  | .null => true
  | _ => false

def bool? : Json → Option Bool
  | .bool b => some b
  | _ => none

def string? : Json → Option String
  | .string s => some s
  | _ => none

theorem string?_eq_some_iff {j : Json} {s : String} : j.string? = some s ↔ j = .string s := by
  cases j <;> simp [string?]

def array? : Json → Option (List Json)
  | .array items => some items
  | _ => none

def object? : Json → Option (Entries Json)
  | .object fields => some fields
  | _ => none

def natural? : Json → Option Nat
  | .number (.integer n _) => if 0 ≤ n then some n.toNat else none
  | _ => none

def signed? : Json → Option Int
  | .number (.integer n _) => if n < 0x8000000000000000 then some n else none
  | _ => none

def field? (j : Json) (key : String) : Option Json := j.object?.bind fun fields => fields.get? key

def item? (j : Json) (i : Nat) : Option Json := j.array?.bind fun items => items[i]?

def strings (j : Json) : List String := (j.array?.getD []).filterMap string?

def isTruthy : Json → Bool
  -- null, false, zero and the empty string say nothing
  | .null => false
  | .bool b => b
  | .string s => !s.isEmpty
  | .number n => !n.isZero
  | .array _ => true
  | .object _ => true

end Json

end SolidityHost
