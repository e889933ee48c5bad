import SolidityHost.Json.Record
import SolidityHost.Output.Basic

/-!
# Output from JSON

Reads what the encoding writes, and other spellings of it: unknown fields are ignored, a field with
a default may be missing, null stands for an absent option, and a record may be an array. Integers
must fit one word.
-/

set_option autoImplicit false

namespace SolidityHost

open Json

def Severity.decode : Json → Option Severity :=
  nameOf [("error", .error), ("warning", .warning)]

def SourceLocation.decode (j : Json) : Option SourceLocation := do
  let r ← j.record? 3
  let file ← required string? (r.field? 0 "file")
  let start ← required signed? (r.field? 1 "start")
  let stop ← required signed? (r.field? 2 "end")
  pure { file, start, stop }

def Diagnostic.decode (j : Json) : Option Diagnostic := do
  let r ← j.record? 6
  let kind ← required string? (r.field? 0 "type")
  let component ← required string? (r.field? 1 "component")
  let severity ← required Severity.decode (r.field? 2 "severity")
  let message ← required string? (r.field? 3 "message")
  let formatted ← required string? (r.field? 4 "formattedMessage")
  let location ← optional SourceLocation.decode (r.field? 5 "sourceLocation")
  pure { kind, component, severity, message, formatted, location }

def SourceOutput.decode (j : Json) : Option SourceOutput := do
  let r ← j.record? 3
  let id ← optional natural? (r.field? 0 "id")
  let ast ← optional some (r.field? 1 "ast")
  let legacyAst ← optional some (r.field? 2 "legacyAST")
  pure { id, ast, legacyAst }

def LinkReference.decode (j : Json) : Option LinkReference := do
  let r ← j.record? 2
  let start ← required natural? (r.field? 0 "start")
  let length ← required natural? (r.field? 1 "length")
  pure { start, length }

def decodeReferences : Json → Option LinkReferences := dictOf (arrayOf LinkReference.decode)

def BytecodeOutput.decode (j : Json) : Option BytecodeOutput := do
  let r ← j.record? 5
  let object ← optional string? (r.field? 0 "object")
  let opcodes ← optional some (r.field? 1 "opcodes")
  let sourceMap ← optional some (r.field? 2 "sourceMap")
  let linkReferences ← optional decodeReferences (r.field? 3 "linkReferences")
  let generatedSources ← optional some (r.field? 4 "generatedSources")
  pure { object, opcodes, sourceMap, linkReferences, generatedSources }

def CreationCosts.decode (j : Json) : Option CreationCosts := do
  let r ← j.record? 2
  let codeDeposit ← required some (r.field? 0 "codeDepositCost")
  let execution ← required some (r.field? 1 "executionCost")
  pure { codeDeposit, execution }

def GasEstimates.decode (j : Json) : Option GasEstimates := do
  let r ← j.record? 3
  let creation ← optional CreationCosts.decode (r.field? 0 "creation")
  let external ← optional some (r.field? 1 "external")
  let internal ← optional some (r.field? 2 "internal")
  pure { creation, external, internal }

def EvmOutput.decode (j : Json) : Option EvmOutput := do
  let r ← j.record? 6
  let assembly ← optional string? (r.field? 0 "assembly")
  let legacyAssembly ← optional some (r.field? 1 "legacyAssembly")
  let bytecode ← defaulted .empty BytecodeOutput.decode (r.field? 2 "bytecode")
  let deployedBytecode ← defaulted .empty BytecodeOutput.decode (r.field? 3 "deployedBytecode")
  let methodIdentifiers ← optional some (r.field? 4 "methodIdentifiers")
  let gasEstimates ← defaulted .empty GasEstimates.decode (r.field? 5 "gasEstimates")
  pure { assembly, legacyAssembly, bytecode, deployedBytecode, methodIdentifiers, gasEstimates }

def ContractOutput.decode (j : Json) : Option ContractOutput := do
  let r ← j.record? 7
  let abi ← defaulted .null some (r.field? 0 "abi")
  let metadata ← optional some (r.field? 1 "metadata")
  let userdoc ← optional some (r.field? 2 "userdoc")
  let devdoc ← optional some (r.field? 3 "devdoc")
  let ir ← optional some (r.field? 4 "ir")
  let evm ← defaulted .empty EvmOutput.decode (r.field? 5 "evm")
  let ewasm ← optional some (r.field? 6 "ewasm")
  pure { abi, metadata, userdoc, devdoc, ir, evm, ewasm }

def Output.decode (j : Json) : Option Output := do
  let r ← j.record? 3
  let diagnostics ← defaulted [] (arrayOf Diagnostic.decode) (r.field? 0 "errors")
  let sources ← defaulted Dict.empty (dictOf SourceOutput.decode) (r.field? 1 "sources")
  let contracts ←
    defaulted Dict.empty (dictOf (dictOf ContractOutput.decode)) (r.field? 2 "contracts")
  pure { diagnostics, sources, contracts }

end SolidityHost
