import SolidityHost.Text.Class

/-!
# Library addresses

An address is written as `0x` and at most forty hexadecimal digits, and is filled up on the left
with zeros to forty digits.
-/

set_option autoImplicit false

namespace SolidityHost

structure Address where
  digits : List Char
  length_digits : digits.length = 40
  isHexDigit_of_mem : ∀ c ∈ digits, Text.isHexDigit c = true

namespace Address

def ofDigits? (digits : List Char) : Option Address :=
  if h : digits.length ≤ 40 ∧ digits.all Text.isHexDigit then
    some {
      digits := List.replicate (40 - digits.length) '0' ++ digits
      length_digits := by
        simp only [List.length_append, List.length_replicate]
        omega
      isHexDigit_of_mem := by
        intro c hc
        rcases List.mem_append.1 hc with hc | hc
        · rw [List.eq_of_mem_replicate hc]
          decide
        · exact List.all_eq_true.1 h.2 c hc }
  else none

def parse? (s : String) : Option Address :=
  match s.toList with
  | '0' :: 'x' :: digits => ofDigits? digits
  | _ => none

def WellFormed (s : String) : Prop :=
  ∃ digits, s.toList = '0' :: 'x' :: digits ∧ digits.length ≤ 40 ∧
    ∀ c ∈ digits, Text.isHexDigit c = true

def padded (s : String) : List Char :=
  List.replicate (40 - (s.toList.drop 2).length) '0' ++ s.toList.drop 2

theorem ofDigits?_eq_some_iff {digits : List Char} {a : Address} :
    ofDigits? digits = some a ↔
      (digits.length ≤ 40 ∧ ∀ c ∈ digits, Text.isHexDigit c = true) ∧
        a.digits = List.replicate (40 - digits.length) '0' ++ digits := by
  rw [ofDigits?]
  obtain ⟨padding, _, _⟩ := a
  split
  case isTrue h =>
    rw [List.all_eq_true] at h
    rw [Option.some.injEq, mk.injEq, and_iff_right h]
    exact eq_comm
  case isFalse h =>
    rw [List.all_eq_true] at h
    simp only [reduceCtorEq, false_iff, not_and]
    exact fun h' => absurd h' h

theorem parse?_eq_some_iff {s : String} {a : Address} :
    parse? s = some a ↔ WellFormed s ∧ a.digits = padded s := by
  rw [parse?]
  split
  case h_1 digits hs =>
    rw [ofDigits?_eq_some_iff]
    simp [WellFormed, padded, hs]
  case h_2 hs =>
    simp only [reduceCtorEq, false_iff, not_and]
    rintro ⟨digits, hd, -⟩
    exact absurd hd (hs digits)

theorem wellFormed_iff_isSome {s : String} : WellFormed s ↔ (parse? s).isSome = true := by
  constructor
  · rintro ⟨digits, hs, hd⟩
    have hsome : (ofDigits? digits).isSome = true := by
      rw [ofDigits?, dif_pos ⟨hd.1, List.all_eq_true.2 hd.2⟩]
      rfl
    rwa [parse?, hs]
  · intro h
    obtain ⟨a, ha⟩ := Option.isSome_iff_exists.1 h
    exact (parse?_eq_some_iff.1 ha).1

instance (s : String) : Decidable (WellFormed s) := decidable_of_iff' _ wellFormed_iff_isSome

theorem underscore_notMem (a : Address) : '_' ∉ a.digits := fun h =>
  absurd (a.isHexDigit_of_mem _ h) (by decide)

end Address

end SolidityHost
