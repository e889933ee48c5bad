import SolidityHost.Json.Printer
import SolidityHost.Text.Utf8

/-!
# Assembly listings

An assembly tree is an object with instructions under `.code` and subtrees under `.data`. Its
listing has one line for each instruction, annotated with the piece of source it stems from, and
the listing of each subtree under its key, four blanks further in. Anything that is no object is a
line of its own.
-/

set_option autoImplicit false

namespace SolidityHost.Assembly

def escapeChar (c : Char) : List Char :=
  if c = '\n' then ['\\', 'n']
  else if c = '\r' then ['\\', 'r']
  else if c = '\t' then ['\\', 't']
  else [c]

def snippetLength : Nat := 30

def abbreviate (s : List Char) : List Char :=
  if snippetLength < s.length then s.take snippetLength ++ ['.', '.', '.'] else s

def slice (source : List UInt8) (start stop : Nat) : List UInt8 :=
  let start := min start source.length
  let stop := max (min stop source.length) start
  (source.drop start).take (stop - start)

def excerpt (source : List UInt8) (start stop : Nat) : List Char :=
  abbreviate ((Utf8.decodeLenient (slice source start stop)).flatMap escapeChar)

/-- The source of an instruction, if there is a source and the instruction says where. -/
def snippet (source : Option (List UInt8)) (item : Json) : List Char :=
  match source, (item.field? "begin").bind Json.natural?,
    (item.field? "end").bind Json.natural? with
  | some source, some start, some stop => excerpt source start stop
  | _, _, _ => []

def display : Json → List Char
  | .null => []
  | .string s => s.toList
  | j => j.render

def displayField (item : Json) (key : String) : List Char :=
  ((item.field? key).map display).getD []

def indent (depth : Nat) : List Char := List.replicate (4 * depth) ' '

def instruction (source : Option (List UInt8)) (depth : Nat) (item : Json) : List Char :=
  -- tags stand two blanks further out than the others
  let name := displayField item "name"
  (if name = "tag".toList then [] else [' ', ' ']) ++ indent depth ++ name ++ ' ' ::
    displayField item "value" ++ '\t' :: '\t' :: '\t' :: snippet source item

def instructions (fields : Entries Json) : List Json :=
  ((fields.get? ".code").bind Json.array?).getD []

def index? (key : String) : Option Nat :=
  let digits : List Char :=
    match key.toList with
    | '+' :: rest => rest
    | s => s
  let n : Nat := digits.foldl (fun n c => n * 10 + (c.toNat - 0x30)) 0
  if digits.isEmpty || !digits.all Char.isDigit || decide (0x10000000000000000 ≤ n) then none
  else some n

def rank (key : String) : Nat := (index? key).getD 0xFFFFFFFFFFFFFFFF

def precedes (a b : String) : Bool :=
  rank a < rank b || (rank a = rank b && decide (a ≤ b))

def block (depth : Nat) (entry : String × List (List Char)) : List (List Char) :=
  (' ' :: ' ' :: indent depth ++ entry.1.toList ++ [':']) :: entry.2

def sections (depth : Nat) (entries : List (String × List (List Char))) : List (List Char) :=
  (entries.mergeSort fun a b => precedes a.1 b.1).flatMap (block depth)

mutual

def lines (source : Option (List UInt8)) (depth : Nat) : Json → List (List Char)
  | .object fields =>
    (indent depth ++ ".code".toList) ::
      ((instructions fields).map (instruction source depth) ++
        (indent depth ++ ".data".toList) :: sections depth (subtrees source depth fields))
  | .null => [indent depth ++ display .null]
  | .bool b => [indent depth ++ display (.bool b)]
  | .number n => [indent depth ++ display (.number n)]
  | .string s => [indent depth ++ display (.string s)]
  | .array items => [indent depth ++ display (.array items)]

def subtrees (source : Option (List UInt8)) (depth : Nat) :
    List (String × Json) → List (String × List (List Char))
  | [] => []
  | (key, .object entries) :: rest =>
    if key = ".data" then entryLines source depth entries else subtrees source depth rest
  | (key, _) :: rest => if key = ".data" then [] else subtrees source depth rest

def entryLines (source : Option (List UInt8)) (depth : Nat) :
    List (String × Json) → List (String × List (List Char))
  | [] => []
  | (key, j) :: rest => (key, lines source (depth + 1) j) :: entryLines source depth rest

end

def listing (tree : Json) (source : Option String) : String :=
  String.ofList ((lines (source.map Utf8.encode) 0 tree).flatMap fun l => l ++ ['\n'])

end SolidityHost.Assembly
