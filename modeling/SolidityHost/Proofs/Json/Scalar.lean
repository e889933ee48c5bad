import Mathlib.Data.List.TakeWhile
import SolidityHost.Json.Printer
import SolidityHost.Json.Token
import SolidityHost.Proofs.Text.Digits

/-!
# Numbers and strings that read back

An integer is read back from its numeral, and a string from its literal, whatever stands behind
them. A double is read back from some numerals only: its shortest one says which double it is, but
the significand that is read is rounded and scaled, and may come out as a neighbour.
-/

set_option autoImplicit false

namespace SolidityHost.Json

def Ends (rest : List Char) : Prop := ∀ c ∈ rest.head?, c = ',' ∨ c = ']' ∨ c = '\x7d'

section

variable {s rest : List Char} (h : Ends rest)

include h

theorem digits_of_ends : digits rest = ([], rest) := by
  cases rest with
  | nil => rfl
  | cons c rest => obtain rfl | rfl | rfl := h c rfl <;> rfl

theorem digits_append (s : List Char) :
    digits (s ++ rest) = ((digits s).1, (digits s).2 ++ rest) := by
  induction s with
  | nil => exact digits_of_ends h
  | cons c s ih =>
    obtain ⟨hfirst, hsecond⟩ := Prod.mk.inj ih
    by_cases hc : c.isDigit
    · simp only [digits, List.cons_append, List.takeWhile_cons_of_pos hc,
        List.dropWhile_cons_of_pos hc, List.map_cons, hfirst, hsecond]
    · simp only [digits, List.cons_append, List.takeWhile_cons_of_neg hc,
        List.dropWhile_cons_of_neg hc, List.map_nil]

theorem minus_append (s : List Char) : minus (s ++ rest) = ((minus s).1, (minus s).2 ++ rest) := by
  cases s with
  | nil =>
    cases rest with
    | nil => rfl
    | cons c rest => obtain rfl | rfl | rfl := h c rfl <;> rfl
  | cons c s => by_cases hc : c = '-' <;> simp [minus, hc]

theorem exponentSign_append (s : List Char) :
    exponentSign (s ++ rest) = ((exponentSign s).1, (exponentSign s).2 ++ rest) := by
  cases s with
  | nil =>
    cases rest with
    | nil => rfl
    | cons c rest => obtain rfl | rfl | rfl := h c rfl <;> rfl
  | cons c s =>
    by_cases hc : c = '+'
    · simp [exponentSign, hc]
    · have hm := minus_append h (c :: s)
      simpa [exponentSign, hc] using hm

theorem fraction?_append (s : List Char) :
    fraction? (s ++ rest) = (fraction? s).map fun r => (r.1, r.2 ++ rest) := by
  cases s with
  | nil =>
    cases rest with
    | nil => rfl
    | cons c rest => obtain rfl | rfl | rfl := h c rfl <;> rfl
  | cons c s =>
    by_cases hc : c = '.'
    · simp only [fraction?, hc, List.cons_append, digits_append h]
      split <;> rfl
    · simp [fraction?, hc]

theorem exponent?_append (s : List Char) :
    exponent? (s ++ rest) = (exponent? s).map fun r => (r.1, r.2 ++ rest) := by
  cases s with
  | nil =>
    cases rest with
    | nil => rfl
    | cons c rest => obtain rfl | rfl | rfl := h c rfl <;> rfl
  | cons c s =>
    by_cases hc : c = 'e' ∨ c = 'E'
    · simp only [exponent?, hc, List.cons_append, if_true, exponentSign_append h, digits_append h]
      split <;> rfl
    · simp [exponent?, hc]

theorem numeral?_append (s : List Char) :
    numeral? (s ++ rest) = (numeral? s).map fun r => (r.1, r.2 ++ rest) := by
  simp only [numeral?, minus_append h, digits_append h, fraction?_append h]
  split
  · rfl
  · cases fraction? (digits (minus s).2).2 with
    | none => rfl
    | some f =>
      simp only [Option.map_some, Option.bind_some, exponent?_append h, Option.map_map]
      rfl

end

def Number.ReadsBack (n : Number) : Prop :=
  ∃ m, numeral? n.render = some (m, []) ∧ m.number? = some n

theorem digits_toDigits (n : Nat) :
    digits (Nat.toDigits 10 n) = ((Nat.toDigits 10 n).map fun c => c.toNat - 0x30, []) := by
  have hall := (Text.isRun_toDigits n).2
  rw [digits, List.takeWhile_eq_self_iff.2 hall, List.dropWhile_eq_nil_iff.2 hall]

theorem value_toDigits (n : Nat) :
    Numeral.value ((Nat.toDigits 10 n).map fun c => c.toNat - 0x30) = n := by
  rw [Numeral.value, List.foldl_map, Text.foldl_eq_ofDigitChars, Nat.ofDigitChars_ten_toDigits]

theorem head?_toDigits_of_lt {n : Nat} (h : 1 < (Nat.toDigits 10 n).length) :
    ((Nat.toDigits 10 n).map fun c => c.toNat - 0x30).head? ≠ some 0 := by
  rw [List.head?_map, Ne, Option.map_eq_some_iff]
  rintro ⟨c, hc, hvalue⟩
  have hdigit := (Text.isRun_toDigits n).2 c (List.mem_of_head? hc)
  have hlow : 0x30 ≤ c.toNat := (Char.isDigit_iff_toNat.1 hdigit).1
  have hzero : c = '0' := by
    apply Char.toNat_inj.1
    show c.toNat = 0x30
    omega
  exact Nat.ne_of_gt h (Text.noLeadingZero_toDigits n (hzero ▸ hc))

theorem numeral?_of_minus {s : List Char} {negative : Bool} {n : Nat}
    (h : minus s = (negative, Nat.toDigits 10 n)) :
    numeral? s =
      some (⟨negative, (Nat.toDigits 10 n).map fun c => c.toNat - 0x30, [], none⟩, []) := by
  have hwhole : ¬ (((Nat.toDigits 10 n).map fun c => c.toNat - 0x30).isEmpty ∨
      (((Nat.toDigits 10 n).map fun c => c.toNat - 0x30).head? = some 0 ∧
        1 < ((Nat.toDigits 10 n).map fun c => c.toNat - 0x30).length)) := by
    rintro (hempty | ⟨hzero, hlength⟩)
    · rw [List.isEmpty_iff, List.map_eq_nil_iff] at hempty
      exact Nat.toDigits_ne_nil hempty
    · rw [List.length_map] at hlength
      exact head?_toDigits_of_lt hlength hzero
  unfold numeral?
  dsimp only
  rw [h]
  dsimp only
  rw [digits_toDigits, if_neg hwhole]
  rfl

theorem minus_renderInt (n : Int) :
    minus (renderInt n) = (decide (n < 0), Nat.toDigits 10 n.natAbs) := by
  unfold renderInt
  split
  case isTrue hn => simp [minus, hn]
  case isFalse hn =>
    have hminus : '-' ∉ Nat.toDigits 10 n.natAbs := fun hmem =>
      absurd ((Text.isRun_toDigits _).2 _ hmem) (by decide)
    rw [decide_eq_false hn]
    unfold minus
    split
    · next rest heq => exact absurd (heq ▸ List.mem_cons_self) hminus
    · rfl

theorem readsBack_integer (n : Int) (fits : FitsWord n) : (Number.integer n fits).ReadsBack := by
  refine ⟨_, numeral?_of_minus (minus_renderInt n), ?_⟩
  have hinteger : Numeral.integer? ⟨decide (n < 0),
      (Nat.toDigits 10 n.natAbs).map fun c => c.toNat - 0x30, [], none⟩ = some n := by
    unfold Numeral.integer?
    dsimp only
    rw [value_toDigits, if_pos ⟨rfl, rfl⟩]
    by_cases hn : n < 0
    · rw [if_pos (decide_eq_true hn), if_neg (by omega)]
      exact congrArg some (by omega)
    · rw [if_neg (by simpa using hn)]
      exact congrArg some (by omega)
  unfold Numeral.number?
  rw [hinteger]
  dsimp only
  rw [dif_pos fits]

theorem hexValue?_hexDigit : ∀ n < 16, Text.hexValue? (Text.hexDigit n) = some n := by decide

theorem stringUnits?_escape {e c : Char} (he : e ≠ 'u') (hc : simpleEscape? e = some c)
    (rest : List Char) :
    stringUnits? ('\\' :: e :: rest) =
      (stringUnits? rest).map fun r => (.char c :: r.1, r.2) := by
  rw [stringUnits?.eq_def]
  dsimp only
  rw [if_neg (by decide), if_neg (by decide), if_pos rfl, if_neg he, hc]
  cases stringUnits? rest <;> rfl

theorem stringUnits?_code {n : Nat} (hn : n < 0x100) (rest : List Char) :
    stringUnits? ('\\' :: 'u' :: '0' :: '0' :: Text.hexDigit (n / 16) :: Text.hexDigit (n % 16) ::
        rest) =
      (stringUnits? rest).map fun r => (.code n :: r.1, r.2) := by
  have hunit : unit? '0' '0' (Text.hexDigit (n / 16)) (Text.hexDigit (n % 16)) = some n := by
    have hzero : Text.hexValue? '0' = some 0 := by decide
    rw [unit?, hzero, hexValue?_hexDigit _ (by omega), hexValue?_hexDigit _ (by omega)]
    exact congrArg some (by omega)
  rw [stringUnits?.eq_def]
  dsimp only
  rw [if_neg (by decide), if_neg (by decide), if_pos rfl, if_pos rfl, hunit]
  cases stringUnits? rest <;> rfl

theorem stringUnits?_char {c : Char} (hq : c ≠ '"') (hb : c ≠ '\\') (hc : ¬ c.toNat < 0x20)
    (rest : List Char) :
    stringUnits? (c :: rest) = (stringUnits? rest).map fun r => (.char c :: r.1, r.2) := by
  rw [stringUnits?.eq_def]
  dsimp only
  rw [if_neg hq, if_neg hc, if_neg hb]
  cases stringUnits? rest <;> rfl

/-- The unit of a character of a literal is read, and the character comes back from it. -/
theorem exists_literalUnit (c : Char) :
    ∃ u, (∀ rest, stringUnits? (escapeChar c ++ rest) =
        (stringUnits? rest).map fun r => (u :: r.1, r.2)) ∧
      ∀ units, pairUnits? (u :: units) = (pairUnits? units).map (c :: ·) := by
  have plain (units : List StringUnit) :
      pairUnits? (.char c :: units) = (pairUnits? units).map (c :: ·) := by
    cases h : pairUnits? units <;> simp [pairUnits?, h]
  unfold escapeChar
  split
  next h => exact ⟨_, stringUnits?_escape (by decide) (by rw [h]; rfl), plain⟩
  split
  next h => exact ⟨_, stringUnits?_escape (by decide) (by rw [h]; rfl), plain⟩
  split
  next h => exact ⟨_, stringUnits?_escape (by decide) (by rw [h]; rfl), plain⟩
  split
  next h => exact ⟨_, stringUnits?_escape (by decide) (by rw [h]; rfl), plain⟩
  split
  next h => exact ⟨_, stringUnits?_escape (by decide) (by rw [h]; rfl), plain⟩
  split
  next h => exact ⟨_, stringUnits?_escape (by decide) (by rw [h]; rfl), plain⟩
  split
  next h => exact ⟨_, stringUnits?_escape (by decide) (by rw [h]; rfl), plain⟩
  split
  next h =>
    refine ⟨_, stringUnits?_code (by omega), fun units => ?_⟩
    have hlow : isLowSurrogate c.toNat = false := by
      simp only [isLowSurrogate, Bool.and_eq_false_iff, decide_eq_false_iff_not]
      omega
    have hhigh : isHighSurrogate c.toNat = false := by
      simp only [isHighSurrogate, Bool.and_eq_false_iff, decide_eq_false_iff_not]
      omega
    rw [pairUnits?.eq_def]
    cases hu : pairUnits? units <;> simp [hlow, hhigh, hu, Char.ofNat_toNat]
  next hq hb _ _ _ _ _ hc => exact ⟨_, stringUnits?_char hq hb hc, plain⟩

theorem exists_units (s rest : List Char) :
    ∃ units, stringUnits? (s.flatMap escapeChar ++ '"' :: rest) = some (units, rest) ∧
      pairUnits? units = some s := by
  induction s with
  | nil => exact ⟨[], by rw [List.flatMap_nil, List.nil_append, stringUnits?.eq_def]; rfl, rfl⟩
  | cons c s ih =>
    obtain ⟨units, hread, hpair⟩ := ih
    obtain ⟨u, hfirst, hchar⟩ := exists_literalUnit c
    refine ⟨u :: units, ?_, by rw [hchar, hpair]; rfl⟩
    rw [List.flatMap_cons, List.append_assoc, hfirst, hread]
    rfl

theorem scalar?_quote (s : String) (rest : List Char) :
    scalar? (quote s.toList ++ rest) = some (.string s, rest) := by
  obtain ⟨units, hread, hpair⟩ := exists_units s.toList rest
  have hquote : quote s.toList ++ rest = '"' :: (s.toList.flatMap escapeChar ++ '"' :: rest) := by
    simp [quote]
  rw [hquote, scalar?, hread, Option.bind_some, hpair, Option.map_some, String.ofList_toList]

theorem Number.ReadsBack.starts {n : Number} (h : n.ReadsBack) :
    ∃ c s, n.render = c :: s ∧ (c = '-' ∨ c.isDigit) := by
  obtain ⟨m, hm, -⟩ := h
  cases hs : n.render with
  | nil =>
    rw [hs] at hm
    contradiction
  | cons c s =>
    refine ⟨c, s, rfl, Decidable.or_iff_not_imp_left.2 fun hminus => ?_⟩
    by_contra hdigit
    rw [hs, numeral?] at hm
    simp [minus, digits, hminus, hdigit] at hm

theorem constant?_of_starts {c : Char} (h : c = '-' ∨ c.isDigit) (s : List Char) :
    constant? (c :: s) = none := by
  have hn : c ≠ 'n' ∧ c ≠ 't' ∧ c ≠ 'f' := by
    refine ⟨?_, ?_, ?_⟩ <;> rintro rfl <;> exact absurd h (by decide)
  simp [constant?, hn]

theorem scalar?_render {n : Number} (h : n.ReadsBack) {rest : List Char} (hrest : Ends rest) :
    scalar? (n.render ++ rest) = some (.number n, rest) := by
  obtain ⟨c, s, hs, hc⟩ := h.starts
  obtain ⟨m, hm, hn⟩ := h
  have hquote : c ≠ '"' := by
    rintro rfl
    exact absurd hc (by decide)
  have hnumeral := numeral?_append hrest n.render
  rw [hm] at hnumeral
  unfold scalar?
  split
  · next heq =>
    rw [hs] at heq
    exact absurd (List.cons.inj heq).1 hquote
  · rw [hnumeral, hs, List.cons_append, constant?_of_starts hc]
    simp [hn]

end SolidityHost.Json
