import SolidityHost.Bytecode.Link
import SolidityHost.Bytecode.Reference
import SolidityHost.Json.Reader
import SolidityHost.Legacy.Diagnostic
import SolidityHost.Legacy.Gas

/-!
# Documents of old compilers

An old compiler writes a flat document: messages, contracts under `file:name`, a list of source
names and syntax trees. Here it is linked and brought into the stable form. A contract key that
cannot be split gives up the whole document; a malformed interface or library address is an error.
Contracts are taken in key order, and the first fault decides.
-/

set_option autoImplicit false

namespace SolidityHost.Legacy

def splitKey? (key : String) : Option (String × String) :=
  -- at most one colon, and a name; a bare name has no file
  let s := key.toList
  let (file, name) :=
    match s.dropWhile (· ≠ ':') with
    | ':' :: name => (s.takeWhile (· ≠ ':'), name)
    | _ => ([], s)
  if name.isEmpty ∨ ':' ∈ name then none else some (String.ofList file, String.ofList name)

def bytecode (code : Option Json) (libraries : LibraryMap) :
    Except NormalizationError BytecodeOutput :=
  match code with
  | some (.string code) => do
    let linked ← Bytecode.link code libraries
    pure { BytecodeOutput.empty with
      object := some linked, linkReferences := some (Bytecode.references linked) }
  | _ => pure .empty

def interface (contract : Json) : Except NormalizationError Json :=
  match contract.field? "interface" with
  | some (.string text) =>
    match Json.parse? text with
    | some j => .ok j
    | none => .error .malformedJson
  | some j => .ok j
  | none => .ok .null

def present? (contract : Json) (key : String) : Option Json :=
  (contract.field? key).filter fun j => !j.isNull

def contract (c : Json) (libraries : LibraryMap) : Except NormalizationError ContractOutput := do
  let abi ← interface c
  let creation ← bytecode (c.field? "bytecode") libraries
  let deployed ← bytecode (c.field? "runtimeBytecode") libraries
  pure {
    abi
    metadata := present? c "metadata"
    userdoc := none
    devdoc := none
    ir := none
    evm := {
      assembly := none
      legacyAssembly := present? c "assembly"
      bytecode :=
        { creation with opcodes := present? c "opcodes", sourceMap := present? c "srcmap" }
      deployedBytecode := { deployed with sourceMap := present? c "srcmapRuntime" }
      methodIdentifiers := present? c "functionHashes"
      gasEstimates := ((c.field? "gasEstimates").map gasEstimates).getD .empty }
    ewasm := none }

def contractsOf (libraries : LibraryMap) (done : Dict (Dict ContractOutput)) :
    Entries Json → Except NormalizationError (Option (Dict (Dict ContractOutput)))
  -- nothing if a key cannot be split
  | [] => .ok (some done)
  | (key, c) :: rest =>
    match splitKey? key with
    | none => .ok none
    | some (file, name) => do
      let c ← contract c libraries
      contractsOf libraries (done.alter file fun names => (names.getD Dict.empty).insert name c)
        rest

def messages (document : Json) : List String :=
  -- the single `error` if there is one, else the list
  match document.field? "error" with
  | some (.string error) =>
    if error.isEmpty then ((document.field? "errors").map Json.strings).getD [] else [error]
  | _ => ((document.field? "errors").map Json.strings).getD []

def sourceId? (document : Json) (name : String) : Option Nat :=
  -- the last occurrence counts, and elements that are no names are counted along
  let list := ((document.field? "sourceList").bind Json.array?).getD []
  (list.zipIdx.filter fun e => e.1.string? = some name).getLast?.map (·.2)

def sourcesOf (document : Json) : Dict SourceOutput :=
  Dict.ofList ((((document.field? "sources").bind Json.object?).getD []).map fun e =>
    (e.1, { id := sourceId? document e.1, ast := none, legacyAst := e.2.field? "AST" }))

def normalize (document : Json) (libraries : LibraryMap) :
    Except NormalizationError (Option Output) :=
  match document with
  | .object _ => do
    let contracts ←
      contractsOf libraries Dict.empty (((document.field? "contracts").bind Json.object?).getD [])
    pure (contracts.map fun contracts =>
      { diagnostics := (messages document).map diagnostic
        sources := sourcesOf document
        contracts })
  | _ => .error .notAnObject

end SolidityHost.Legacy
