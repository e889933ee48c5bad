import SolidityHost.NormalizationError
import SolidityHost.Text.Search
import SolidityHost.Version.Semantic

/-!
# Reported versions

Compilers have reported their versions in several forms. Three rules bring the early ones into
semantic form, the first that applies decides, and any other text stands for itself:

1. `X.Y.Z-hhhhhhhh` before `/` or `*` and one line becomes `X.Y.Z+commit.hhhhhhhh`;
2. a text that holds `0.1.3-0` becomes `0.1.3`;
3. a text that holds `0.3.5-0` becomes `0.3.5`.
-/

set_option autoImplicit false

namespace SolidityHost

namespace Version

def isCommitDigit (c : Char) : Bool := c.isDigit || ('a' ≤ c && c ≤ 'f')

def digitRun? (s : List Char) : Option (List Char × List Char) :=
  let ds := s.takeWhile Char.isDigit
  if ds.isEmpty then none else some (ds, s.dropWhile Char.isDigit)

def numbers? (s : List Char) : Option (List Char × List Char) := do
  let (major, s) ← digitRun? s
  let s ← point? s
  let (minor, s) ← digitRun? s
  let s ← point? s
  let (patch, s) ← digitRun? s
  pure (major ++ '.' :: minor ++ '.' :: patch, s)

def commitForm? (s : List Char) : Option (List Char) := do
  -- numbers, a commit of eight digits, a mark and the rest of one line
  let (numbers, s) ← numbers? s
  match s with
  | '-' :: s =>
    let commit := s.take 8
    match s.drop 8 with
    | mark :: tail =>
      if commit.all isCommitDigit ∧ (mark = '/' ∨ mark = '*') ∧ '\n' ∉ tail then
        pure (numbers ++ "+commit.".toList ++ commit)
      else none
    | [] => none
  | _ => none

def normalizeChars (s : List Char) : List Char :=
  match commitForm? s with
  | some t => t
  | none =>
    if Text.occurs "0.1.3-0".toList s then "0.1.3".toList
    else if Text.occurs "0.3.5-0".toList s then "0.3.5".toList
    else s

def normalize (s : String) : String := String.ofList (normalizeChars s.toList)

end Version

structure ReportedVersion where
  raw : String
  deriving DecidableEq, Repr

namespace ReportedVersion

def semver (v : ReportedVersion) : String := Version.normalize v.raw

def parse? (v : ReportedVersion) : Option Version := Version.parse? v.semver

def parse (v : ReportedVersion) : Except NormalizationError Version :=
  match v.parse? with
  | some version => .ok version
  | none => .error (.invalidVersion v.semver)

def newerThan (v : ReportedVersion) (r : Release) : Bool :=
  -- a version that cannot be parsed is newer than nothing
  v.parse?.any fun version => version.newerThan r

def olderThan (v : ReportedVersion) (r : Release) : Bool :=
  -- a version that cannot be parsed is older than nothing
  v.parse?.any fun version => version.olderThan r

end ReportedVersion

end SolidityHost
