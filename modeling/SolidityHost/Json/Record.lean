import SolidityHost.Json.Basic

/-!
# Records in JSON

A record is written as an object, whose unknown fields are ignored, or as an array of its fields in
order, which may leave out fields at the end but holds no more than there are.
-/

set_option autoImplicit false

namespace SolidityHost.Json

inductive Record where
  | named (fields : Entries Json)
  | positional (items : List Json)

def record? (arity : Nat) : Json → Option Record
  | .object fields => some (.named fields)
  | .array items => if items.length ≤ arity then some (.positional items) else none
  | _ => none

def Record.field? (r : Record) (position : Nat) (name : String) : Option Json :=
  match r with
  | .named fields => fields.get? name
  | .positional items => items[position]?

variable {α : Type}

def required (decode : Json → Option α) (j : Option Json) : Option α := j.bind decode

def defaulted (value : α) (decode : Json → Option α) : Option Json → Option α
  | none => some value
  | some j => decode j

def optional (decode : Json → Option α) : Option Json → Option (Option α)
  | none => some none
  | some .null => some none
  | some j => (decode j).map some

def arrayOf (decode : Json → Option α) (j : Json) : Option (List α) :=
  j.array?.bind fun items => items.mapM decode

def dictOf (decode : Json → Option α) (j : Json) : Option (Dict α) :=
  j.object?.bind fun fields =>
    (fields.mapM fun e => (decode e.2).map fun v => (e.1, v)).map Dict.ofList

def nameOf (names : List (String × α)) : Json → Option α
  -- written as a string, or as an object with null under the name
  | .string s => names.lookup s
  | .object [(s, .null)] => names.lookup s
  | _ => none

end SolidityHost.Json
