import Mathlib.Data.List.TakeWhile

/-!
# Runs of digits

A text is read in one way as a run of decimal digits and a rest that no digit begins. A run without
a zero in front of other digits is the numeral of its value.
-/

set_option autoImplicit false

namespace SolidityHost.Text

def IsRun (ds : List Char) : Prop := ds ≠ [] ∧ ∀ c ∈ ds, c.isDigit = true

theorem isRun_iff {ds : List Char} : IsRun ds ↔ (!ds.isEmpty && ds.all Char.isDigit) = true := by
  simp [IsRun]

instance (ds : List Char) : Decidable (IsRun ds) := decidable_of_iff _ isRun_iff.symm

def NoDigit (s : List Char) : Prop := ∀ c ∈ s.head?, c.isDigit = false

variable {c : Char} {ds es s rest : List Char}

theorem noDigit_cons (h : c.isDigit = false) (s : List Char) : NoDigit (c :: s) := by
  intro d hd
  rwa [← Option.some.inj hd]

theorem noDigit_dropWhile (s : List Char) : NoDigit (s.dropWhile Char.isDigit) := by
  intro c hc
  have hhead := List.head?_dropWhile_not Char.isDigit s
  rw [hc] at hhead
  simpa using hhead

theorem takeWhile_run (h : IsRun ds) (hrest : NoDigit rest) :
    (ds ++ rest).takeWhile Char.isDigit = ds := by
  rw [List.takeWhile_append_of_pos h.2]
  cases rest with
  | nil => simp
  | cons c rest => simp [hrest c rfl]

theorem dropWhile_run (h : IsRun ds) (hrest : NoDigit rest) :
    (ds ++ rest).dropWhile Char.isDigit = rest := by
  rw [List.dropWhile_append_of_pos h.2]
  cases rest with
  | nil => simp
  | cons c rest => simp [hrest c rfl]

theorem isRun_takeWhile (h : s.takeWhile Char.isDigit ≠ []) : IsRun (s.takeWhile Char.isDigit) :=
  ⟨h, List.all_eq_true.1 List.all_takeWhile⟩

/-- A text has one run in front of it. -/
theorem run_unique (hd : IsRun ds) (he : IsRun es) (hs : NoDigit s) (hrest : NoDigit rest)
    (h : ds ++ s = es ++ rest) : ds = es ∧ s = rest := by
  constructor
  · rw [← takeWhile_run hd hs, h, takeWhile_run he hrest]
  · rw [← dropWhile_run hd hs, h, dropWhile_run he hrest]

theorem foldl_eq_ofDigitChars (ds : List Char) :
    ds.foldl (fun n c => n * 10 + (c.toNat - 0x30)) 0 = Nat.ofDigitChars 10 ds 0 := by
  rw [Nat.ofDigitChars_eq_foldl]
  simp only [Nat.mul_comm 10]
  rfl

theorem isRun_toDigits (n : Nat) : IsRun (Nat.toDigits 10 n) :=
  ⟨Nat.toDigits_ne_nil, fun _ => Nat.isDigit_of_mem_toDigits (by decide) (by decide)⟩

theorem head?_toDigits_ne {n : Nat} (hn : n ≠ 0) : (Nat.toDigits 10 n).head? ≠ some '0' := by
  induction n using Nat.strongRecOn with
  | ind n ih =>
    by_cases hlt : n < 10
    · have hdigit : ∀ d < 10, d ≠ 0 → [d.digitChar].head? ≠ some '0' := by decide
      rw [Nat.toDigits_of_lt_base hlt]
      exact hdigit n hlt hn
    · obtain ⟨d, ds, hd⟩ := List.exists_cons_of_ne_nil (Nat.toDigits_ne_nil (n := n / 10) (b := 10))
      have hfront := ih (n / 10) (by omega) (by omega)
      rw [Nat.toDigits_of_base_le (by decide) (Nat.le_of_not_lt hlt), hd]
      rwa [hd] at hfront

def NoLeadingZero (ds : List Char) : Prop := ds.head? = some '0' → ds.length = 1

theorem noLeadingZero_toDigits (n : Nat) : NoLeadingZero (Nat.toDigits 10 n) := by
  intro hzero
  obtain rfl : n = 0 := Decidable.byContradiction fun hn => head?_toDigits_ne hn hzero
  rfl

theorem digitChar_sub (h : c.isDigit = true) :
    c.toNat - 48 < 10 ∧ (c.toNat - 48).digitChar = c := by
  have hrange : 48 ≤ c.toNat ∧ c.toNat ≤ 57 := Char.isDigit_iff_toNat.1 h
  have hlt : c.toNat - 48 < 10 := by omega
  refine ⟨hlt, Char.toNat_inj.1 ?_⟩
  rw [Nat.toNat_digitChar_of_lt_ten hlt]
  omega

theorem toDigits_append {n : Nat} (hn : 0 < n) (h : ∀ c ∈ ds, c.isDigit = true) :
    Nat.toDigits 10 n ++ ds = Nat.toDigits 10 (Nat.ofDigitChars 10 ds n) := by
  induction ds generalizing n with
  | nil => rw [List.append_nil, Nat.ofDigitChars_nil]
  | cons c ds ih =>
    obtain ⟨hc, hds⟩ := List.forall_mem_cons.1 h
    obtain ⟨hlt, hchar⟩ := digitChar_sub hc
    have hdigit : [c] = Nat.toDigits 10 (c.toNat - 48) := by
      rw [Nat.toDigits_of_lt_base hlt, hchar]
    rw [List.append_cons, hdigit, Nat.toDigits_append_toDigits (by decide) hn hlt, ih (by omega) hds,
      Nat.ofDigitChars_cons]
    rfl

/-- A run without a leading zero is the numeral of its value. -/
theorem toDigits_ofDigitChars (h : IsRun ds) (hzero : NoLeadingZero ds) :
    Nat.toDigits 10 (Nat.ofDigitChars 10 ds 0) = ds := by
  cases ds with
  | nil => exact absurd rfl h.1
  | cons c ds =>
    obtain ⟨hc, hds⟩ := List.forall_mem_cons.1 h.2
    by_cases hfront : c = '0'
    · subst hfront
      obtain rfl : ds = [] := by simpa [NoLeadingZero] using hzero
      rfl
    · obtain ⟨hlt, hchar⟩ := digitChar_sub hc
      have hpos : 0 < c.toNat - 48 := by
        refine Nat.pos_of_ne_zero fun heq => hfront ?_
        rw [← hchar, heq]
        rfl
      calc Nat.toDigits 10 (Nat.ofDigitChars 10 (c :: ds) 0)
          = Nat.toDigits 10 (Nat.ofDigitChars 10 ds (c.toNat - 48)) := by
            rw [Nat.ofDigitChars_cons, Nat.mul_zero, Nat.zero_add]
            rfl
        _ = Nat.toDigits 10 (c.toNat - 48) ++ ds := (toDigits_append hpos hds).symm
        _ = c :: ds := by rw [Nat.toDigits_of_lt_base hlt, hchar, List.singleton_append]

end SolidityHost.Text
