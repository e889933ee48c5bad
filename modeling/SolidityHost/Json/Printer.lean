import SolidityHost.Json.Basic
import SolidityHost.Text.Class

/-!
# JSON text of values

Compact text: no blanks, fields in the order of the value. Of the characters of a string only the
quote, the backslash and the control characters below U+0020 are escaped.
-/

set_option autoImplicit false

namespace SolidityHost.Json

def escapeChar (c : Char) : List Char :=
  if c = '"' then ['\\', '"']
  else if c = '\\' then ['\\', '\\']
  else if c = '\x08' then ['\\', 'b']
  else if c = '\t' then ['\\', 't']
  else if c = '\n' then ['\\', 'n']
  else if c = '\x0c' then ['\\', 'f']
  else if c = '\r' then ['\\', 'r']
  else if c.toNat < 0x20 then
    ['\\', 'u', '0', '0', Text.hexDigit (c.toNat / 16), Text.hexDigit (c.toNat % 16)]
  else [c]

def quote (s : List Char) : List Char := '"' :: s.flatMap escapeChar ++ ['"']

def renderInt (n : Int) : List Char :=
  if n < 0 then '-' :: Nat.toDigits 10 n.natAbs else Nat.toDigits 10 n.natAbs

def Number.render : Number → List Char
  | .integer n _ => renderInt n
  | .double x => x.render

def renderBool (b : Bool) : List Char := if b then "true".toList else "false".toList

mutual

def render : Json → List Char
  | .null => "null".toList
  | .bool b => renderBool b
  | .number n => n.render
  | .string s => quote s.toList
  | .array items => '[' :: renderItems items
  | .object fields => '\x7b' :: renderFields fields

def renderItems : List Json → List Char
  | [] => [']']
  | [j] => render j ++ [']']
  | j :: rest => render j ++ ',' :: renderItems rest

def renderFields : List (String × Json) → List Char
  | [] => ['\x7d']
  | [(k, j)] => quote k.toList ++ ':' :: render j ++ ['\x7d']
  | (k, j) :: rest => quote k.toList ++ ':' :: render j ++ ',' :: renderFields rest

end

def toText (j : Json) : String := String.ofList j.render

def literal (s : String) : String := String.ofList (quote s.toList)

example : (Json.object [("b", .array [.null, .bool true]), ("a", .string "x\"\n")]).toText =
    "\x7b\"b\":[null,true],\"a\":\"x\\\"\\n\"\x7d" := rfl

end SolidityHost.Json
