import SolidityHost.Json.Basic
import SolidityHost.NormalizationError

/-!
# Library maps

A library is named in one of three ways: bare, as `file:name`, or by its name under its file. All
three are flattened into one map from identifiers to addresses, in which a qualified library is
found under its bare name too. Addresses are kept as written; linking checks them.
-/

set_option autoImplicit false

namespace SolidityHost

structure LibraryMap where
  addresses : Dict String

namespace LibraryMap

def empty : LibraryMap := ⟨Dict.empty⟩

instance : Inhabited LibraryMap := ⟨empty⟩

def insert (m : LibraryMap) (name address : String) : LibraryMap :=
  ⟨m.addresses.insert name address⟩

def get? (m : LibraryMap) (name : String) : Option String := m.addresses.get? name

def entries (m : LibraryMap) : Entries String := m.addresses.entries

def size (m : LibraryMap) : Nat := m.addresses.size

def isEmpty (m : LibraryMap) : Bool := m.addresses.isEmpty

def insertAll (m : LibraryMap) (pairs : List (String × String)) : LibraryMap :=
  pairs.foldl (fun m p => m.insert p.1 p.2) m

def ofList (pairs : List (String × String)) : LibraryMap := empty.insertAll pairs

def qualify (file name : String) : String := file ++ ":" ++ name

def bareName? (key : String) : Option String :=
  -- neither part may be empty, and the name stays on one line
  let file := key.toList.takeWhile (· ≠ ':')
  match key.toList.dropWhile (· ≠ ':') with
  | ':' :: name =>
    if file.isEmpty ∨ name.isEmpty ∨ '\n' ∈ name then none else some (String.ofList name)
  | _ => none

def addFile (file : String) (m : LibraryMap) :
    Entries Json → Except NormalizationError LibraryMap
  | [] => .ok m
  | (name, j) :: rest =>
    match j with
    | .string address =>
      addFile file ((m.insert name address).insert (qualify file name) address) rest
    | _ => .error (.invalidLibraryMapping (qualify file name))

def addFlat (key address : String) (m : LibraryMap) : LibraryMap :=
  -- under its key, and under the bare name of a qualified key
  match bareName? key with
  | some name => (m.insert name address).insert key address
  | none => m.insert key address

def addEntries (m : LibraryMap) : Entries Json → Except NormalizationError LibraryMap
  | [] => .ok m
  | (key, j) :: rest =>
    match j with
    | .string address => addEntries (addFlat key address m) rest
    | .object libraries => do addEntries (← addFile key m libraries) rest
    | _ => .error (.invalidLibraryMapping key)

/-- Flattens a JSON mapping. Of two entries with one identifier the one met later counts. -/
def ofJson : Json → Except NormalizationError LibraryMap
  | .object fields => addEntries empty fields
  | _ => .error .notAnObject

end LibraryMap

end SolidityHost
