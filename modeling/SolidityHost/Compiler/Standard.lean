import SolidityHost.Compiler
import SolidityHost.Compiler.Input
import SolidityHost.Legacy.Document
import SolidityHost.Output.Encoding

/-!
# Standard JSON compilation

A module with an entry point for standard JSON gets the input as it is and gives the output. For
older modules the input is cut down to what they understand, and their output is brought into the
stable form. What is wrong with the input or with that output is reported in the document that is
returned, as a single fatal diagnostic; only a failure of the module itself fails the compilation.
-/

set_option autoImplicit false

namespace SolidityHost.Compiler

variable {C σ : Type}

def normalizeText (text : String) (libraries : LibraryMap) : Except FatalFault Output :=
  match Json.parse? text with
  | none => .error .malformedOutput
  | some document =>
    match Legacy.normalize document libraries with
    | .ok (some output) => .ok output
    | .ok none => .error .unsplittableContract
    | .error e => .error (.badOutput e)

def legacyCall (c : Compiler) (input : LegacyInput) (handlers : Handlers σ) :
    Except FatalFault (HostProgram C σ String) :=
  match c.descriptor.preferred? with
  | some .multiCallback => .ok (c.compileCallback input.sourcesText input.optimize handlers)
  | some .multi => .ok (c.compileMulti input.sourcesText input.optimize)
  | some .single =>
    match input.sources with
    | [(_, content)] => .ok (c.compileSingle content input.optimize)
    | _ => .error .tooManySources
  | _ => .error .noEntry

def compileLegacy (c : Compiler) (input : String) (handlers : Handlers σ) :
    HostProgram C σ (Except FatalFault Output) :=
  match LegacyInput.parse input with
  | .error fault => pure (.error fault)
  | .ok i =>
    match c.legacyCall i handlers with
    | .error fault => pure (.error fault)
    | .ok call => do
      let text ← call
      pure (normalizeText text (i.libraries.getD .empty))

def document : Except FatalFault Output → Output
  | .ok output => output
  | .error fault => .fatal fault.message

def compile (c : Compiler) (input : String) (handlers : Handlers σ) : HostProgram C σ String :=
  if c.descriptor.standard?.isSome then c.compileStandard input handlers
  else do
    let result ← c.compileLegacy input handlers
    pure (document result).toText

end SolidityHost.Compiler
