import SolidityHost.Json.Basic
import SolidityHost.Version.Reported

/-!
# Interfaces of old compilers

What old compilers left out of an interface is filled in: constructors were payable before 0.4.5,
all but constant functions were payable before 0.4.0, mutability was not stated before 0.4.16, and
the default constructor (before 0.1.2) and fallback (before 0.4.0) were not listed.
-/

set_option autoImplicit false

namespace SolidityHost.Abi

def flag (item : Entries Json) (key : String) : Bool :=
  ((item.get? key).bind Json.bool?).getD false

def kind (item : Entries Json) : String :=
  -- an item that names no kind is a function
  ((item.get? "type").bind Json.string?).getD "function"

def setPayable (item : Entries Json) : Entries Json := item.insert "payable" (.bool true)

def mutability (item : Entries Json) : String :=
  if flag item "payable" then "payable"
  else if flag item "constant" then "view"
  else "nonpayable"

def withFlags (v : Version) (item : Entries Json) : Entries Json :=
  let item := if kind item = "constructor" ∧ v.olderThan ⟨0, 4, 5⟩ then setPayable item else item
  if kind item ≠ "event" ∧ flag item "constant" = false ∧ v.olderThan ⟨0, 4, 0⟩ then
    setPayable item
  else item

def withMutability (v : Version) (item : Entries Json) : Entries Json :=
  if kind item ≠ "event" ∧ v.olderThan ⟨0, 4, 16⟩ then
    item.insert "stateMutability" (.string (mutability item))
  else item

def upgradeItem (v : Version) : Json → Json
  | .object item => .object (withMutability v (withFlags v item))
  | j => j

def lists (abi : List Json) (k : String) : Bool :=
  abi.any fun
    | .object item => kind item = k
    | _ => false

def defaultConstructor : Json :=
  .ofFields [("type", .string "constructor"), ("payable", .bool true),
    ("stateMutability", .string "payable"), ("inputs", .array [])]

def defaultFallback : Json :=
  .ofFields [("type", .string "fallback"), ("payable", .bool true),
    ("stateMutability", .string "payable")]

def implied (v : Version) (abi : List Json) : List Json :=
  (if !lists abi "constructor" && v.olderThan ⟨0, 1, 2⟩ then [defaultConstructor] else []) ++
    (if !lists abi "fallback" && v.olderThan ⟨0, 4, 0⟩ then [defaultFallback] else [])

/-- An interface as a compiler of this version meant it. -/
def upgrade (v : Version) (abi : List Json) : List Json :=
  abi.map (upgradeItem v) ++ implied v abi

def upgradeReported (raw : String) (abi : List Json) : Except NormalizationError (List Json) :=
  (ReportedVersion.mk raw).parse.map fun v => upgrade v abi

end SolidityHost.Abi
