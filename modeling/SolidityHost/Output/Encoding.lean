import SolidityHost.Json.Printer
import SolidityHost.Output.Basic

/-!
# Output as JSON

Fields are written in a fixed order, absent options are left out, and dictionaries are written in
key order. Diagnostics, sources and contracts are left out when there are none.
-/

set_option autoImplicit false

namespace SolidityHost

def optionalField (key : String) (value : Option Json) : List (String × Json) :=
  (value.map fun j => (key, j)).toList

def Dict.encode {α : Type} (f : α → Json) (d : Dict α) : Json :=
  .object (d.entries.map fun e => (e.1, f e.2))

def Severity.encode : Severity → Json
  | .error => .string "error"
  | .warning => .string "warning"

def SourceLocation.encode (l : SourceLocation) : Json :=
  .object [("file", .string l.file), ("start", .number (Json.Number.ofInt l.start)),
    ("end", .number (Json.Number.ofInt l.stop))]

def Diagnostic.encode (d : Diagnostic) : Json :=
  .object ([("type", .string d.kind), ("component", .string d.component),
    ("severity", d.severity.encode), ("message", .string d.message),
    ("formattedMessage", .string d.formatted)] ++
    optionalField "sourceLocation" (d.location.map SourceLocation.encode))

def SourceOutput.encode (s : SourceOutput) : Json :=
  .object (optionalField "id" (s.id.map Json.ofNat) ++ optionalField "ast" s.ast ++
    optionalField "legacyAST" s.legacyAst)

def LinkReference.encode (r : LinkReference) : Json :=
  .object [("start", .ofNat r.start), ("length", .ofNat r.length)]

def encodeReferences (refs : LinkReferences) : Json :=
  refs.encode fun rs => .array (rs.map LinkReference.encode)

def BytecodeOutput.encode (b : BytecodeOutput) : Json :=
  .object (optionalField "object" (b.object.map .string) ++ optionalField "opcodes" b.opcodes ++
    optionalField "sourceMap" b.sourceMap ++
    optionalField "linkReferences" (b.linkReferences.map encodeReferences) ++
    optionalField "generatedSources" b.generatedSources)

def CreationCosts.encode (c : CreationCosts) : Json :=
  .object [("codeDepositCost", c.codeDeposit), ("executionCost", c.execution)]

def GasEstimates.encode (g : GasEstimates) : Json :=
  .object (optionalField "creation" (g.creation.map CreationCosts.encode) ++
    optionalField "external" g.external ++ optionalField "internal" g.internal)

def EvmOutput.encode (e : EvmOutput) : Json :=
  .object (optionalField "assembly" (e.assembly.map .string) ++
    optionalField "legacyAssembly" e.legacyAssembly ++
    [("bytecode", e.bytecode.encode), ("deployedBytecode", e.deployedBytecode.encode)] ++
    optionalField "methodIdentifiers" e.methodIdentifiers ++
    [("gasEstimates", e.gasEstimates.encode)])

def ContractOutput.encode (c : ContractOutput) : Json :=
  .object (("abi", c.abi) :: optionalField "metadata" c.metadata ++
    optionalField "userdoc" c.userdoc ++ optionalField "devdoc" c.devdoc ++
    optionalField "ir" c.ir ++ ("evm", c.evm.encode) :: optionalField "ewasm" c.ewasm)

namespace Output

def encode (o : Output) : Json :=
  .object
    ((if o.diagnostics.isEmpty then []
      else [("errors", .array (o.diagnostics.map Diagnostic.encode))]) ++
    (if o.sources.isEmpty then [] else [("sources", o.sources.encode SourceOutput.encode)]) ++
    (if o.contracts.isEmpty then []
      else [("contracts", o.contracts.encode fun file => file.encode ContractOutput.encode)]))

def toText (o : Output) : String := o.encode.toText

end Output

end SolidityHost
