import SolidityHost.Json.Printer
import SolidityHost.Json.Reader
import SolidityHost.Library.Map

/-!
# Standard JSON input for old compilers

Old compilers understand sources, the optimizer switch and nothing else; libraries are linked
afterwards. An input that does not come down to that is a fatal fault, which is reported in the
output.
-/

set_option autoImplicit false

namespace SolidityHost

inductive FatalFault where
  | malformedInput
  | wrongLanguage
  | noSources
  | sourceWithoutContent
  | badLibraries (error : NormalizationError)
  | tooManySources
  | noEntry
  | malformedOutput
  | unsplittableContract
  | badOutput (error : NormalizationError)
  deriving DecidableEq, Repr

def FatalFault.message : FatalFault → String
  | .malformedInput => "Invalid JSON supplied: " ++ NormalizationError.readerMessage
  | .wrongLanguage => "Only \"Solidity\" is supported as a language."
  | .noSources => "No input sources specified."
  | .sourceWithoutContent => "Failed to process sources."
  | .badLibraries error => error.message
  | .tooManySources =>
    "Multiple sources provided, but compiler only supports single input."
  | .noEntry => "Compiler does not support any known interface."
  | .malformedOutput => "Compiler returned invalid JSON: " ++ NormalizationError.readerMessage
  | .unsplittableContract => "Failed to process output."
  | .badOutput error => error.message

structure LegacyInput where
  sources : Entries String
  optimize : Bool
  libraries : Option LibraryMap

namespace LegacyInput

def contents : Entries Json → Except FatalFault (Entries String)
  | [] => .ok []
  | (file, source) :: rest =>
    match (source.field? "content").bind Json.string? with
    | some content => (contents rest).map ((file, content) :: ·)
    | none => .error .sourceWithoutContent

def sourcesOf (input : Json) : Except FatalFault (Entries String) :=
  match (input.field? "sources").bind Json.object? with
  | none => .error .noSources
  | some [] => .error .noSources
  | some (first :: rest) => contents (first :: rest)

def optimizeOf (settings : Option Json) : Bool :=
  ((((settings.bind (·.field? "optimizer")).bind (·.field? "enabled")).bind Json.bool?).getD false)

def librariesOf (settings : Option Json) : Except FatalFault (Option LibraryMap) :=
  match settings.bind (·.field? "libraries") with
  | none => .ok none
  | some libraries =>
    match LibraryMap.ofJson libraries with
    | .ok m => .ok (some m)
    | .error e => .error (.badLibraries e)

def ofJson (input : Json) : Except FatalFault LegacyInput :=
  if (input.field? "language").bind Json.string? = some "Solidity" then do
    let sources ← sourcesOf input
    let settings := input.field? "settings"
    let libraries ← librariesOf settings
    pure { sources, optimize := optimizeOf settings, libraries }
  else .error .wrongLanguage

def parse (input : String) : Except FatalFault LegacyInput :=
  match Json.parse? input with
  | some j => ofJson j
  | none => .error .malformedInput

def sourcesText (i : LegacyInput) : String :=
  (Json.object [("sources", .object (i.sources.map fun e => (e.1, .string e.2)))]).toText

end LegacyInput

end SolidityHost
