import SolidityHost.Json.Token

/-!
# Values of JSON text

A machine reads one token at a time. Its stack holds the containers that are still open, each with
what it has collected so far; its place says what may come next. A key that occurs twice keeps its
last value, and no more than 127 containers may be nested.
-/

set_option autoImplicit false

namespace SolidityHost.Json

inductive Frame where
  -- the elements before the value, last one first
  | array (items : List Json)
  -- the fields before the value, and the key of the value
  | object (fields : Entries Json) (key : String)

inductive Place where
  | value
  | firstItem
  | firstKey
  | nextKey (fields : Entries Json)
  | colon (fields : Entries Json) (key : String)
  -- a value is complete: the text ends, or the innermost container goes on or ends
  | behind (j : Json)

def maxNesting : Nat := 127

def read : List Frame → Place → List Token → Option Json
  | [], .behind j, [] => some j
  | _, _, [] => none
  | stack, .behind j, t :: rest =>
    match stack, t with
    | .array items :: stack, .comma => read (.array (j :: items) :: stack) .value rest
    | .array items :: stack, .closeArray => read stack (.behind (.array (j :: items).reverse)) rest
    | .object fields key :: stack, .comma => read stack (.nextKey (fields.insert key j)) rest
    | .object fields key :: stack, .closeObject =>
      read stack (.behind (.object (fields.insert key j))) rest
    | _, _ => none
  | stack, .colon fields key, t :: rest =>
    match t with
    | .colon => read (.object fields key :: stack) .value rest
    | _ => none
  | stack, .nextKey fields, t :: rest =>
    match t with
    | .scalar (.string key) => read stack (.colon fields key) rest
    | _ => none
  | stack, .firstKey, t :: rest =>
    match t with
    | .scalar (.string key) => read stack (.colon [] key) rest
    | .closeObject => read stack (.behind (.object [])) rest
    | _ => none
  | stack, .firstItem, t :: rest =>
    match t with
    | .closeArray => read stack (.behind (.array [])) rest
    | .scalar j => read (.array [] :: stack) (.behind j) rest
    | .openArray =>
      if stack.length + 1 < maxNesting then read (.array [] :: stack) .firstItem rest else none
    | .openObject =>
      if stack.length + 1 < maxNesting then read (.array [] :: stack) .firstKey rest else none
    | _ => none
  | stack, .value, t :: rest =>
    match t with
    | .scalar j => read stack (.behind j) rest
    | .openArray => if stack.length < maxNesting then read stack .firstItem rest else none
    | .openObject => if stack.length < maxNesting then read stack .firstKey rest else none
    | _ => none

def parseChars? (s : List Char) : Option Json := (tokens? s).bind (read [] .value)

def parse? (s : String) : Option Json := parseChars? s.toList

end SolidityHost.Json
