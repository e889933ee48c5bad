import SolidityHost.Output.Basic
import SolidityHost.Text.Class
import SolidityHost.Text.Search

/-!
# Messages of old compilers

An old compiler reports bare messages. One whose first line reads `file:line:column: kind: text`
says its kind. The split is made as far right as it can be: the file part is the longest one that
works, and the kind reaches to the last colon of the line. Other messages are warnings if they say
so anywhere, and errors otherwise.
-/

set_option autoImplicit false

namespace SolidityHost.Legacy

def afterNumber? : List Char → Option (List Char)
  | ':' :: s =>
    if (s.takeWhile Text.isDecimalDigit).isEmpty then none
    else some (s.dropWhile Text.isDecimalDigit)
  | _ => none

def kindAt? (s : List Char) : Option (List Char) := do
  let s ← afterNumber? s
  let s ← afterNumber? s
  match s with
  | ':' :: s => do
    let (kind, _) ← Text.splitLast? ':' s
    pure kind
  | _ => none

def kindIn? : List Char → Option (List Char)
  | [] => none
  | c :: rest =>
    match kindIn? rest with
    | some kind => some kind
    | none => kindAt? (c :: rest)

def kindOf (message : String) : String :=
  match kindIn? (message.toList.takeWhile (· ≠ '\n')) with
  | some kind => String.ofList (Text.trim kind)
  | none => if Text.occurs "Warning".toList message.toList then "Warning" else "Error"

def diagnostic (message : String) : Diagnostic where
  kind := kindOf message
  component := generalComponent
  severity := if kindOf message = "Warning" then .warning else .error
  message := message
  formatted := message
  location := none

end SolidityHost.Legacy
