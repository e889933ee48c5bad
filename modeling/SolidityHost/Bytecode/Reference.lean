import SolidityHost.Library.Placeholder
import SolidityHost.Dict

/-!
# Link references

What is left to link is found by scanning for forty characters on one line that have two
underscores at either end. The scan goes from left to right and takes the first window it meets;
the next window starts behind it. Positions count bytes of the decoded binary, two characters of
one byte each.
-/

set_option autoImplicit false

namespace SolidityHost

structure LinkReference where
  start : Nat
  length : Nat
  deriving DecidableEq, Repr

abbrev LinkReferences := Dict (List LinkReference)

namespace Bytecode

def addressLength : Nat := 20

def bodyAt? (s : List Char) : Option (List Char) :=
  let body := (s.drop 2).take 36
  if s.take 2 = ['_', '_'] ∧ body.length = 36 ∧ (s.drop 38).take 2 = ['_', '_'] ∧ '\n' ∉ body then
    some body
  else none

def shownName (body : List Char) : String :=
  String.ofList (body.reverse.dropWhile (· = '_')).reverse

def byteCount (s : List Char) : Nat := s.foldr (fun c n => c.utf8Size + n) 0

def scan (offset : Nat) : List Char → List (String × LinkReference)
  | [] => []
  | c :: rest =>
    match bodyAt? (c :: rest) with
    | some body =>
      (shownName body, ⟨offset / 2, addressLength⟩) ::
        scan (offset + byteCount ((c :: rest).take 40)) (rest.drop 39)
    | none => scan (offset + c.utf8Size) rest
termination_by s => s.length
decreasing_by
  · simp only [List.length_drop, List.length_cons]; omega
  · simp

def gather (found : List (String × LinkReference)) : LinkReferences :=
  found.foldl (fun refs p => refs.alter p.1 fun old => old.getD [] ++ [p.2]) Dict.empty

def references (code : String) : LinkReferences := gather (scan 0 code.toList)

end Bytecode

end SolidityHost
