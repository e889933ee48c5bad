/-!
# Why output cannot be normalized
-/

set_option autoImplicit false

namespace SolidityHost

inductive NormalizationError where
  | invalidLibraryAddress (name : String)
  -- this entry of a library mapping has no text where an address belongs
  | invalidLibraryMapping (name : String)
  | malformedJson
  | notAnObject
  | invalidVersion (version : String)
  deriving DecidableEq, Repr

namespace NormalizationError

/-- Stands for what the JSON reader says of a text that it does not accept. Its own words, which
name the mistake and its line and column, are not modelled. -/
def readerMessage : String := "malformed text"

def message : NormalizationError → String
  | .invalidLibraryAddress name => "Invalid address specified for " ++ name
  | .invalidLibraryMapping name => "Invalid library mapping for " ++ name
  | .malformedJson => "Parse json error: " ++ readerMessage
  | .notAnObject => "Top-level json must be an object"
  | .invalidVersion version => "Invalid version `" ++ version ++ "`"

end NormalizationError

end SolidityHost
