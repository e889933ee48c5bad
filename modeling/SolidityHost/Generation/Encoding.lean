import SolidityHost.Generation.Descriptor
import SolidityHost.Json.Record

/-!
# Generations in JSON

How a callback protocol and the features of a module are written.
-/

set_option autoImplicit false

namespace SolidityHost

open Json

def Protocol.name : Protocol → String
  | .importOnly => "Import"
  | .kinded => "ImportWithKind"

def Protocol.encode (p : Protocol) : Json := .string p.name

def Protocol.decode : Json → Option Protocol :=
  nameOf ([.importOnly, .kinded].map fun p => (Protocol.name p, p))

def Features.encode (f : Features) : Json :=
  .object [("legacySingleInput", .bool f.legacySingleInput),
    ("multipleInputs", .bool f.multipleInputs), ("importCallback", .bool f.importCallback),
    ("nativeStandardJson", .bool f.nativeStandardJson)]

def Features.decode (j : Json) : Option Features := do
  let r ← j.record? 4
  let legacySingleInput ← required bool? (r.field? 0 "legacySingleInput")
  let multipleInputs ← required bool? (r.field? 1 "multipleInputs")
  let importCallback ← required bool? (r.field? 2 "importCallback")
  let nativeStandardJson ← required bool? (r.field? 3 "nativeStandardJson")
  pure { legacySingleInput, multipleInputs, importCallback, nativeStandardJson }

end SolidityHost
