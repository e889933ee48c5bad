import SolidityHost.Json.Printer
import SolidityHost.Output.Basic

/-!
# Gas estimates of old compilers

Old compilers write estimates as numbers, null for one without a bound, and positional lists where
names belong. Here every leaf becomes a string, null becomes `infinite`, and a list becomes an
object whose keys are its indices.
-/

set_option autoImplicit false

namespace SolidityHost.Legacy

mutual

def gas : Json → Json
  | .null => .string "infinite"
  | .bool b => .string (String.ofList (Json.renderBool b))
  | .number n => .string (String.ofList n.render)
  | .string s => .string s
  | .array items => .object (Entries.ofList (gasItems 0 items))
  | .object fields => .object (gasFields fields)

def gasItems (i : Nat) : List Json → List (String × Json)
  -- the first of the elements has index `i`
  | [] => []
  | j :: rest => (String.ofList (Nat.toDigits 10 i), gas j) :: gasItems (i + 1) rest

def gasFields : List (String × Json) → List (String × Json)
  | [] => []
  | (key, j) :: rest => (key, gas j) :: gasFields rest

end

def estimate? (estimates : Json) (key : String) : Option Json :=
  (estimates.field? key).filter Json.isTruthy

def creationCost (creation : Json) (position : Nat) : Json :=
  -- execution first, code deposit second
  gas ((creation.item? position).getD .null)

def gasEstimates (estimates : Json) : GasEstimates where
  creation := (estimate? estimates "creation").map fun creation =>
    { codeDeposit := creationCost creation 1, execution := creationCost creation 0 }
  external := (estimate? estimates "external").map gas
  internal := (estimate? estimates "internal").map gas

end SolidityHost.Legacy
