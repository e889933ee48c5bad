/-!
# Semantic versions

`major.minor.patch`, an optional prerelease behind `-` and optional build metadata behind `+`.
Numbers have no leading zeros and fit 64 bits. Build metadata is checked and dropped, since it takes
no part in the order.
-/

set_option autoImplicit false

namespace SolidityHost

structure Release where
  major : Nat
  minor : Nat
  patch : Nat
  deriving DecidableEq, Repr

structure Version where
  release : Release
  -- the identifiers of a prerelease; a release has none
  prerelease : List (List Char)
  deriving DecidableEq, Repr

namespace Release

def lt (a b : Release) : Bool :=
  a.major < b.major || (a.major = b.major &&
    (a.minor < b.minor || (a.minor = b.minor && a.patch < b.patch)))

def text (r : Release) : List Char :=
  Nat.toDigits 10 r.major ++ '.' :: Nat.toDigits 10 r.minor ++ '.' :: Nat.toDigits 10 r.patch

end Release

namespace Version

def number? (s : List Char) : Option (Nat × List Char) :=
  let ds := s.takeWhile Char.isDigit
  let n := ds.foldl (fun n c => n * 10 + (c.toNat - 0x30)) 0
  if ds.isEmpty ∨ (ds.head? = some '0' ∧ 1 < ds.length) ∨ 0x10000000000000000 ≤ n then none
  else some (n, s.dropWhile Char.isDigit)

def point? : List Char → Option (List Char)
  | '.' :: rest => some rest
  | _ => none

def release? (s : List Char) : Option (Release × List Char) := do
  let (major, s) ← number? s
  let s ← point? s
  let (minor, s) ← number? s
  let s ← point? s
  let (patch, s) ← number? s
  pure (⟨major, minor, patch⟩, s)

def isIdentifierChar (c : Char) : Bool := c.isAlphanum || c = '-'

def segments : List Char → List (List Char)
  | [] => [[]]
  | c :: rest =>
    if c = '.' then [] :: segments rest
    else
      match segments rest with
      | [] => [[c]]
      | first :: more => (c :: first) :: more

def identifiers? (s : List Char) : Option (List (List Char) × List Char) :=
  let inside := fun c => isIdentifierChar c || c = '.'
  let ids := segments (s.takeWhile inside)
  if ids.any List.isEmpty then none else some (ids, s.dropWhile inside)

def hasLeadingZero (id : List Char) : Bool :=
  id.all Char.isDigit && id.head? = some '0' && 1 < id.length

def prerelease? : List Char → Option (List (List Char) × List Char)
  | '-' :: rest => do
    let (ids, rest) ← identifiers? rest
    if ids.any hasLeadingZero then none else pure (ids, rest)
  | s => some ([], s)

def endsWithBuild : List Char → Bool
  | [] => true
  | '+' :: rest =>
    match identifiers? rest with
    | some (_, rest) => rest.isEmpty
    | none => false
  | _ => false

def parseChars? (s : List Char) : Option Version := do
  let (release, s) ← release? s
  let (ids, s) ← prerelease? s
  if endsWithBuild s then pure ⟨release, ids⟩ else none

def parse? (s : String) : Option Version := parseChars? s.toList

def isPrerelease (v : Version) : Bool := !v.prerelease.isEmpty

/-- Later than a release: of a later release, prereleases of which count. -/
def newerThan (v : Version) (r : Release) : Bool := r.lt v.release

def olderThan (v : Version) (r : Release) : Bool :=
  v.release.lt r || (v.release = r && v.isPrerelease)

def prereleaseText (v : Version) : List Char := List.intercalate ['.'] v.prerelease

def text (v : Version) : List Char :=
  v.release.text ++ (if v.isPrerelease then '-' :: v.prereleaseText else [])

end Version

end SolidityHost
