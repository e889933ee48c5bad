import SolidityHost.Library.Address
import SolidityHost.Library.Map
import SolidityHost.Library.Placeholder

/-!
# Linking

Linking writes the address of each library over its placeholders. Libraries are taken in the order
of their names, the label of each before its hashed placeholder. A placeholder is replaced at its
first occurrence until it does not occur; each replacement takes at least four underscores away and
brings none.
-/

set_option autoImplicit false

namespace SolidityHost.Bytecode

def replaceFirst? (p : Placeholder) (a : Address) : List Char → Option (List Char)
  | [] => none
  | c :: rest =>
    if p.text.isPrefixOf (c :: rest) then some (a.digits ++ (c :: rest).drop 40)
    else (replaceFirst? p a rest).map (c :: ·)

theorem count_replaceFirst?_lt {p : Placeholder} {a : Address} {code linked : List Char}
    (h : replaceFirst? p a code = some linked) : linked.count '_' < code.count '_' := by
  induction code generalizing linked with
  | nil => simp [replaceFirst?] at h
  | cons c rest ih =>
    rw [replaceFirst?] at h
    split at h
    · next hp =>
      obtain ⟨tail, ht⟩ := List.isPrefixOf_iff_prefix.1 hp
      have hd : (c :: rest).drop 40 = tail := by
        rw [← ht, List.drop_append_of_le_length (by simp), List.drop_of_length_le (by simp)]
        rfl
      have ha : a.digits.count '_' = 0 := List.count_eq_zero.2 a.underscore_notMem
      have hp := p.four_le_count_text
      rw [hd] at h
      cases h
      rw [List.count_append, ha, ← ht, List.count_append]
      omega
    · obtain ⟨l, hl, rfl⟩ := Option.map_eq_some_iff.1 h
      have := ih hl
      simp only [List.count_cons]
      omega

def replaceAll (p : Placeholder) (a : Address) (code : List Char) : List Char :=
  match h : replaceFirst? p a code with
  | none => code
  | some linked =>
    have : linked.count '_' < code.count '_' := count_replaceFirst?_lt h
    replaceAll p a linked
termination_by code.count '_'

def linkLibrary (name : String) (a : Address) (code : List Char) : List Char :=
  replaceAll (.hashed name) a (replaceAll (.label name) a code)

def linkEntries (code : List Char) : Entries String → Except NormalizationError (List Char)
  | [] => .ok code
  | (name, address) :: rest =>
    match Address.parse? address with
    | some a => linkEntries (linkLibrary name a code) rest
    | none => .error (.invalidLibraryAddress name)

def link (code : String) (libraries : LibraryMap) : Except NormalizationError String :=
  (linkEntries code.toList libraries.entries).map String.ofList

end SolidityHost.Bytecode
