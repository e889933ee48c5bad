import SolidityHost.Bytecode.Reference
import SolidityHost.Json.Basic

/-!
# Compilation output

The stable form into which the output of every compiler is brought. Parts whose structure differs
between compilers (interfaces, metadata, assembly, syntax trees) are kept as JSON values.
-/

set_option autoImplicit false

namespace SolidityHost

inductive Severity where
  | error
  | warning
  deriving DecidableEq, Repr

structure SourceLocation where
  file : String
  start : Int
  stop : Int
  deriving DecidableEq, Repr

structure Diagnostic where
  kind : String
  component : String
  severity : Severity
  message : String
  formatted : String
  location : Option SourceLocation
  deriving DecidableEq, Repr

def generalComponent : String := "general"

def Diagnostic.fatal (message : String) : Diagnostic where
  kind := "JSONError"
  component := generalComponent
  severity := .error
  message := message
  formatted := "Error: " ++ message
  location := none

structure SourceOutput where
  id : Option Nat
  ast : Option Json
  legacyAst : Option Json

structure BytecodeOutput where
  object : Option String
  opcodes : Option Json
  sourceMap : Option Json
  linkReferences : Option LinkReferences
  generatedSources : Option Json

def BytecodeOutput.empty : BytecodeOutput := ⟨none, none, none, none, none⟩

structure CreationCosts where
  codeDeposit : Json
  execution : Json

structure GasEstimates where
  creation : Option CreationCosts
  external : Option Json
  internal : Option Json

def GasEstimates.empty : GasEstimates := ⟨none, none, none⟩

structure EvmOutput where
  assembly : Option String
  legacyAssembly : Option Json
  bytecode : BytecodeOutput
  deployedBytecode : BytecodeOutput
  methodIdentifiers : Option Json
  gasEstimates : GasEstimates

def EvmOutput.empty : EvmOutput := ⟨none, none, .empty, .empty, none, .empty⟩

structure ContractOutput where
  abi : Json
  metadata : Option Json
  userdoc : Option Json
  devdoc : Option Json
  ir : Option Json
  evm : EvmOutput
  ewasm : Option Json

structure Output where
  diagnostics : List Diagnostic
  sources : Dict SourceOutput
  contracts : Dict (Dict ContractOutput)

namespace Output

def empty : Output := ⟨[], Dict.empty, Dict.empty⟩

def fatal (message : String) : Output := { empty with diagnostics := [.fatal message] }

end Output

end SolidityHost
