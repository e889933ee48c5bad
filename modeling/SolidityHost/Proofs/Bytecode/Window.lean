import Mathlib.Data.List.Basic
import Mathlib.Tactic.ByContra
import SolidityHost.Bytecode.Link

/-!
# Windows of a bytecode text

A placeholder fills forty characters, and so does the address that is written over it. A window
that begins and ends with an underscore has no position in common with a written address, so no
write makes such a window and none that was made before is touched again.
-/

set_option autoImplicit false

namespace SolidityHost.Bytecode

def window (s : List Char) (i : Nat) : List Char := (s.drop i).take 40

def Apart (i j : Nat) : Prop := i + 40 ≤ j ∨ j + 40 ≤ i

def overwrite (s : List Char) (i : Nat) (a : Address) : List Char :=
  s.take i ++ a.digits ++ s.drop (i + 40)

theorem Apart.symm {i j : Nat} (h : Apart i j) : Apart j i := Or.symm h

theorem getElem?_window (s : List Char) (i k : Nat) :
    (window s i)[k]? = if k < 40 then s[i + k]? else none := by
  simp [window, List.getElem?_take, List.getElem?_drop]

theorem window_congr {s t : List Char} {i : Nat}
    (h : ∀ k, i ≤ k → k < i + 40 → s[k]? = t[k]?) : window s i = window t i := by
  apply List.ext_getElem?
  intro k
  rw [getElem?_window, getElem?_window]
  split
  · exact h _ (by omega) (by omega)
  · rfl

theorem getElem?_text_first (p : Placeholder) : p.text[0]? = some '_' := rfl

theorem getElem?_text_last (p : Placeholder) : p.text[39]? = some '_' := by
  have hb := p.length_body
  simp [Placeholder.text, hb]

theorem getElem?_first_of_window {s : List Char} {i : Nat} {p : Placeholder}
    (h : window s i = p.text) : s[i]? = some '_' := by
  have hw := getElem?_window s i 0
  rw [h, getElem?_text_first] at hw
  simpa using hw.symm

theorem getElem?_last_of_window {s : List Char} {i : Nat} {p : Placeholder}
    (h : window s i = p.text) : s[i + 39]? = some '_' := by
  have hw := getElem?_window s i 39
  rw [h, getElem?_text_last] at hw
  simpa using hw.symm

theorem add_le_length_of_window {s : List Char} {i : Nat} {p : Placeholder}
    (h : window s i = p.text) : i + 40 ≤ s.length := by
  obtain ⟨hlt, -⟩ := List.getElem?_eq_some_iff.1 (getElem?_last_of_window h)
  omega

theorem window_zero_eq_text_iff {s : List Char} {p : Placeholder} :
    window s 0 = p.text ↔ p.text.isPrefixOf s = true := by
  rw [List.isPrefixOf_iff_prefix, List.prefix_iff_eq_take, p.length_text]
  exact eq_comm

theorem text_infix_iff {s : List Char} {p : Placeholder} :
    p.text <:+: s ↔ ∃ i, window s i = p.text := by
  constructor
  · rintro ⟨before, behind, rfl⟩
    refine ⟨before.length, ?_⟩
    rw [window, List.append_assoc, List.drop_left]
    exact List.take_left' p.length_text
  · rintro ⟨i, h⟩
    rw [← h]
    exact (List.take_prefix _ _).isInfix.trans (List.drop_suffix _ _).isInfix

theorem length_overwrite {s : List Char} {i : Nat} (a : Address) (h : i + 40 ≤ s.length) :
    (overwrite s i a).length = s.length := by
  have ha := a.length_digits
  simp only [overwrite, List.length_append, List.length_take, List.length_drop]
  omega

theorem getElem?_overwrite {s : List Char} {i : Nat} (a : Address) (h : i + 40 ≤ s.length)
    (k : Nat) :
    (overwrite s i a)[k]? = if i ≤ k ∧ k < i + 40 then a.digits[k - i]? else s[k]? := by
  have ha := a.length_digits
  have ht : (s.take i).length = i := by simp; omega
  rw [overwrite, List.append_assoc]
  rcases Nat.lt_or_ge k i with hk | hk
  · rw [List.getElem?_append_left (by omega), List.getElem?_take_of_lt hk, if_neg (by omega)]
  · rw [List.getElem?_append_right (by omega), ht]
    rcases Nat.lt_or_ge k (i + 40) with hk' | hk'
    · rw [List.getElem?_append_left (by omega), if_pos ⟨hk, hk'⟩]
    · rw [List.getElem?_append_right (by omega), List.getElem?_drop, if_neg (by omega)]
      congr 1
      omega

theorem window_overwrite_self {s : List Char} {i : Nat} (a : Address) (h : i + 40 ≤ s.length) :
    window (overwrite s i a) i = a.digits := by
  apply List.ext_getElem?
  intro k
  rw [getElem?_window, getElem?_overwrite a h]
  split
  · next hk => rw [if_pos (by omega), Nat.add_sub_cancel_left]
  · next hk => rw [List.getElem?_eq_none (by have := a.length_digits; omega)]

theorem window_overwrite_of_apart {s : List Char} {i j : Nat} (a : Address)
    (h : i + 40 ≤ s.length) (hj : Apart i j) : window (overwrite s i a) j = window s j := by
  apply window_congr
  intro k hk hk'
  rw [getElem?_overwrite a h, if_neg]
  rcases hj with hj | hj <;> omega

/-- No placeholder reaches into digits: the first or the last of its underscores would be one. -/
theorem apart_of_window {s : List Char} {i j : Nat} {a : Address} {p : Placeholder}
    (hi : window s i = a.digits) (hj : window s j = p.text) : Apart i j := by
  have digit_of_mem : ∀ k, i ≤ k → k < i + 40 → s[k]? ≠ some '_' := by
    intro k hk hk' hs
    have hw := getElem?_window s i (k - i)
    rw [hi, if_pos (by omega), Nat.add_sub_cancel' hk, hs] at hw
    exact a.underscore_notMem (List.mem_of_getElem? hw)
  by_contra hn
  simp only [Apart, not_or, Nat.not_le] at hn
  rcases Nat.lt_or_ge j i with hlt | hge
  · exact digit_of_mem (j + 39) (by omega) (by omega) (getElem?_last_of_window hj)
  · exact digit_of_mem j hge (by omega) (getElem?_first_of_window hj)

theorem window_of_window_overwrite {s : List Char} {i j : Nat} {a : Address} {p : Placeholder}
    (h : i + 40 ≤ s.length) (hj : window (overwrite s i a) j = p.text) : window s j = p.text := by
  have hapart := apart_of_window (window_overwrite_self a h) hj
  rw [← hj, window_overwrite_of_apart a h hapart]

def Absent (p : Placeholder) (s : List Char) : Prop := ∀ i, window s i ≠ p.text

theorem absent_iff {p : Placeholder} {s : List Char} : Absent p s ↔ ¬ p.text <:+: s := by
  simp [Absent, text_infix_iff]

theorem Absent.overwrite {p : Placeholder} {s : List Char} (hp : Absent p s) {i : Nat}
    (a : Address) (h : i + 40 ≤ s.length) : Absent p (overwrite s i a) :=
  fun j hj => hp j (window_of_window_overwrite h hj)

theorem replaceFirst?_eq_none_iff {p : Placeholder} {a : Address} {s : List Char} :
    replaceFirst? p a s = none ↔ Absent p s := by
  induction s with
  | nil =>
    have hne : window [] 0 ≠ p.text := fun h => by simp [window, Placeholder.text] at h
    simpa [replaceFirst?, Absent, window] using hne
  | cons c rest ih =>
    rw [replaceFirst?]
    split
    case isTrue hp => simpa [Absent] using ⟨0, window_zero_eq_text_iff.2 hp⟩
    case isFalse hp =>
      rw [Option.map_eq_none_iff, ih]
      constructor
      · rintro h (_ | i)
        · exact fun hw => hp (window_zero_eq_text_iff.1 hw)
        · exact h i
      · exact fun h i => h (i + 1)

theorem exists_of_replaceFirst? {p : Placeholder} {a : Address} {s linked : List Char}
    (h : replaceFirst? p a s = some linked) :
    ∃ i, window s i = p.text ∧ (∀ j < i, window s j ≠ p.text) ∧ linked = overwrite s i a := by
  induction s generalizing linked with
  | nil => simp [replaceFirst?] at h
  | cons c rest ih =>
    rw [replaceFirst?] at h
    split at h
    case isTrue hp =>
      refine ⟨0, window_zero_eq_text_iff.2 hp, fun j hj => absurd hj (Nat.not_lt_zero j), ?_⟩
      simpa [overwrite] using h.symm
    case isFalse hp =>
      obtain ⟨l, hl, rfl⟩ := Option.map_eq_some_iff.1 h
      obtain ⟨i, hi, hfirst, rfl⟩ := ih hl
      refine ⟨i + 1, hi, ?_, by simp [overwrite]⟩
      rintro (_ | j) hj
      · exact fun hw => hp (window_zero_eq_text_iff.1 hw)
      · exact hfirst j (by omega)

end SolidityHost.Bytecode
