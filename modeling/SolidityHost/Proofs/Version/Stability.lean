import Mathlib.Tactic.ByContra
import SolidityHost.Proofs.Version.Normalization

/-!
# Normalized versions are left alone

Every rule asks for a hyphen and leaves none behind, so no rule applies to what a rule has made, and
normalizing a second time changes nothing. What a rule makes is a semantic version, unless numbers
were taken over that semantic versions do not have.
-/

set_option autoImplicit false

namespace SolidityHost.Version

open Text (IsRun NoDigit NoLeadingZero)

variable {s t rest major minor patch commit : List Char}

/-- Three runs of digits stand in front of the text, and behind them a commit as the first rule asks
for it. -/
def HasCommit (s major minor patch commit : List Char) : Prop :=
  ∃ rest, Begins s major minor patch rest ∧ CommitTail rest commit

inductive Ruled (s : List Char) : Prop where
  | commit {major minor patch commit : List Char} (h : HasCommit s major minor patch commit)
  | firstBuild (h : "0.1.3-0".toList <:+: s)
  | secondBuild (h : "0.3.5-0".toList <:+: s)

theorem HasCommit.hyphen_mem (h : HasCommit s major minor patch commit) : '-' ∈ s := by
  obtain ⟨rest, hbegins, mark, tail, rfl, -⟩ := h
  rw [hbegins.text]
  simp

theorem Ruled.hyphen_mem (h : Ruled s) : '-' ∈ s := by
  cases h with
  | commit h => exact h.hyphen_mem
  | firstBuild h => exact h.subset (by decide)
  | secondBuild h => exact h.subset (by decide)

def withCommit (major minor patch commit : List Char) : List Char :=
  major ++ '.' :: (minor ++ '.' :: (patch ++ ("+commit.".toList ++ commit)))

theorem digitRun?_eq_some_iff {ds : List Char} :
    digitRun? s = some (ds, rest) ↔ IsRun ds ∧ s = ds ++ rest ∧ NoDigit rest := by
  constructor
  · intro h
    unfold digitRun? at h
    dsimp only at h
    split at h
    · contradiction
    next hne =>
      obtain ⟨rfl, rfl⟩ := Prod.mk.inj (Option.some.inj h)
      refine ⟨Text.isRun_takeWhile fun hnil => hne (List.isEmpty_iff.2 hnil), ?_,
        Text.noDigit_dropWhile s⟩
      rw [List.takeWhile_append_dropWhile]
  · rintro ⟨hds, rfl, hrest⟩
    exact digitRun?_append hds hrest

theorem exists_begins_of_numbers? {numbers : List Char} (h : numbers? s = some (numbers, rest)) :
    ∃ major minor patch, Begins s major minor patch rest := by
  simp only [numbers?, Option.bind_eq_bind, Option.bind_eq_some_iff, Prod.exists,
    digitRun?_eq_some_iff, point?_eq_some_iff] at h
  obtain ⟨major, _, ⟨hmajor, rfl, -⟩, _, rfl, minor, _, ⟨hminor, rfl, -⟩, _, rfl, patch, _,
    ⟨hpatch, rfl, hrest⟩, heq⟩ := h
  obtain ⟨-, rfl⟩ := Prod.mk.inj (Option.some.inj heq)
  exact ⟨major, minor, patch, rfl, hmajor, hminor, hpatch, hrest⟩

theorem commitForm?_eq_some_iff : commitForm? s = some t ↔
    ∃ major minor patch commit, HasCommit s major minor patch commit ∧
      t = withCommit major minor patch commit := by
  constructor
  · intro h
    obtain ⟨⟨numbers, rest⟩, hnumbers, -⟩ := Option.bind_eq_some_iff.1 h
    obtain ⟨major, minor, patch, hbegins⟩ := exists_begins_of_numbers? hnumbers
    obtain ⟨commit, htail, rfl⟩ := hbegins.commitForm?_eq_some_iff.1 h
    exact ⟨major, minor, patch, commit, ⟨rest, hbegins, htail⟩, rfl⟩
  · rintro ⟨major, minor, patch, commit, ⟨rest, hbegins, htail⟩, rfl⟩
    exact hbegins.commitForm?_eq_some_iff.2 ⟨commit, htail, rfl⟩

theorem normalizeChars_of_not_ruled (h : ¬ Ruled s) : normalizeChars s = s := by
  have hcommit : commitForm? s = none := by
    rw [Option.eq_none_iff_forall_ne_some]
    intro t ht
    obtain ⟨major, minor, patch, commit, hs, -⟩ := commitForm?_eq_some_iff.1 ht
    exact h (.commit hs)
  have hfirst : ¬ "0.1.3-0".toList <:+: s := fun hs => h (.firstBuild hs)
  have hsecond : ¬ "0.3.5-0".toList <:+: s := fun hs => h (.secondBuild hs)
  simp only [normalizeChars, hcommit, Text.occurs_iff, hfirst, hsecond, if_false]

/-- The numbers and the commit, or else one of the two early releases. -/
theorem Ruled.cases_normalizeChars (h : Ruled s) :
    (∃ major minor patch commit, HasCommit s major minor patch commit ∧
      normalizeChars s = withCommit major minor patch commit) ∨
    (∀ major minor patch commit, ¬ HasCommit s major minor patch commit) ∧
      (normalizeChars s = "0.1.3".toList ∨ normalizeChars s = "0.3.5".toList) := by
  cases hform : commitForm? s with
  | some t =>
    obtain ⟨major, minor, patch, commit, hs, rfl⟩ := commitForm?_eq_some_iff.1 hform
    exact .inl ⟨major, minor, patch, commit, hs, by rw [normalizeChars, hform]⟩
  | none =>
    have hno : ∀ major minor patch commit, ¬ HasCommit s major minor patch commit := by
      intro major minor patch commit hs
      rw [commitForm?_eq_some_iff.2 ⟨major, minor, patch, commit, hs, rfl⟩] at hform
      contradiction
    refine .inr ⟨hno, ?_⟩
    by_cases hfirst : "0.1.3-0".toList <:+: s
    · left
      simp only [normalizeChars, hform, Text.occurs_iff, hfirst, if_true]
    · have hsecond : "0.3.5-0".toList <:+: s := by
        cases h with
        | commit h => exact absurd h (hno _ _ _ _)
        | firstBuild h => exact absurd h hfirst
        | secondBuild h => exact h
      right
      simp only [normalizeChars, hform, Text.occurs_iff, hfirst, hsecond, if_true, if_false]

theorem hyphen_notMem_withCommit (h : HasCommit s major minor patch commit) :
    '-' ∉ withCommit major minor patch commit := by
  obtain ⟨rest, hbegins, mark, tail, -, -, hcommit, -⟩ := h
  have hrun {ds : List Char} (hds : IsRun ds) : '-' ∉ ds := fun hmem =>
    absurd (hds.2 _ hmem) (by decide)
  have hdigits : '-' ∉ commit := fun hmem => absurd (hcommit _ hmem) (by decide)
  simp [withCommit, hrun hbegins.major_run, hrun hbegins.minor_run, hrun hbegins.patch_run, hdigits]

theorem Ruled.hyphen_notMem (h : Ruled s) : '-' ∉ normalizeChars s := by
  rcases h.cases_normalizeChars with ⟨_, _, _, _, hs, heq⟩ | ⟨-, heq | heq⟩
  · rw [heq]
    exact hyphen_notMem_withCommit hs
  · rw [heq]
    decide
  · rw [heq]
    decide

theorem not_ruled_normalizeChars (s : List Char) : ¬ Ruled (normalizeChars s) := by
  by_cases h : Ruled s
  · exact fun hruled => h.hyphen_notMem hruled.hyphen_mem
  · rwa [normalizeChars_of_not_ruled h]

theorem ruled_iff : Ruled s ↔ normalizeChars s ≠ s := by
  constructor
  · intro h heq
    have hhyphen := h.hyphen_notMem
    rw [heq] at hhyphen
    exact hhyphen h.hyphen_mem
  · intro h
    by_contra hno
    exact h (normalizeChars_of_not_ruled hno)

def Admissible (ds : List Char) : Prop :=
  -- as a semantic version has them: no zero in front, and no more than 64 bits hold
  NoLeadingZero ds ∧ Nat.ofDigitChars 10 ds 0 < 0x10000000000000000

theorem admissible_toDigits {n : Nat} (h : n < 0x10000000000000000) :
    Admissible (Nat.toDigits 10 n) := by
  refine ⟨Text.noLeadingZero_toDigits n, ?_⟩
  rwa [Nat.ofDigitChars_ten_toDigits]

theorem HasCommit.begins (h : HasCommit s major minor patch commit) :
    Begins (withCommit major minor patch commit) major minor patch
      ("+commit.".toList ++ commit) := by
  obtain ⟨rest, hbegins, -⟩ := h
  exact hbegins.withCommit commit

theorem isIdentifier_commit (h : HasCommit s major minor patch commit) : IsIdentifier commit := by
  obtain ⟨rest, -, mark, tail, -, hlength, hcommit, -⟩ := h
  constructor
  · rintro rfl
    contradiction
  · intro c hc
    show (((c.isUpper || c.isLower) || c.isDigit) || decide (c = '-')) = true
    have hdigit := hcommit c hc
    simp only [isCommitDigit, Bool.or_eq_true, Bool.and_eq_true, decide_eq_true_eq] at hdigit
    rcases hdigit with hdigit | ⟨hlow, hhigh⟩
    · rw [hdigit, Bool.or_true, Bool.true_or]
    · have hle : c ≤ 'z' := Char.le_trans hhigh (by decide)
      have hlower : c.isLower = true :=
        Bool.and_eq_true_iff.2 ⟨decide_eq_true hlow, decide_eq_true hle⟩
      rw [hlower, Bool.or_true, Bool.true_or, Bool.true_or]

/-- A commit behind the numbers is build metadata, so all depends on the numbers. -/
theorem HasCommit.parse_iff (h : HasCommit s major minor patch commit) :
    (∃ v, parseChars? (withCommit major minor patch commit) = some v) ↔
      Admissible major ∧ Admissible minor ∧ Admissible patch := by
  have hbegins := h.begins
  constructor
  · rintro ⟨v, hv⟩
    obtain ⟨hwell, build, hbuild, heq⟩ := parseChars?_eq_some_iff.1 hv
    rw [heq, text_eq, List.append_assoc] at hbegins
    have hnumerals := begins_text v.release (noDigit_suffix_append v.prerelease hbuild.noDigit)
    obtain ⟨rfl, rfl, rfl, -⟩ := hbegins.unique hnumerals
    exact ⟨admissible_toDigits hwell.fits.major, admissible_toDigits hwell.fits.minor,
      admissible_toDigits hwell.fits.patch⟩
  · rintro ⟨⟨hmajor, hmajorFits⟩, ⟨hminor, hminorFits⟩, hpatch, hpatchFits⟩
    have hids : ∀ id ∈ ["commit".toList, commit], IsIdentifier id := by
      rw [List.forall_mem_cons, List.forall_mem_singleton]
      exact ⟨⟨by decide, List.all_eq_true.1 (by decide)⟩, isIdentifier_commit h⟩
    have hbuild : IsBuild ('+' :: List.intercalate ['.'] ["commit".toList, commit]) :=
      .present (List.cons_ne_nil _ _) hids
    refine ⟨⟨spelled major minor patch, []⟩, parseChars?_eq_some_iff.2
      ⟨⟨⟨hmajorFits, hminorFits, hpatchFits⟩, nofun, nofun⟩, _, hbuild, ?_⟩⟩
    have hrelease : (spelled major minor patch).text = major ++ '.' :: minor ++ '.' :: patch := by
      rw [Release.text, spelled, Text.toDigits_ofDigitChars hbegins.major_run hmajor,
        Text.toDigits_ofDigitChars hbegins.minor_run hminor,
        Text.toDigits_ofDigitChars hbegins.patch_run hpatch]
    rw [text_eq, hrelease]
    simp [withCommit, suffix]

theorem Ruled.parse_iff (h : Ruled s) :
    (∃ v, parseChars? (normalizeChars s) = some v) ↔
      ∀ major minor patch commit, HasCommit s major minor patch commit →
        Admissible major ∧ Admissible minor ∧ Admissible patch := by
  rcases h.cases_normalizeChars with ⟨major, minor, patch, commit, hs, heq⟩ | ⟨hno, hearly⟩
  · rw [heq, hs.parse_iff]
    constructor
    · rintro hall major' minor' patch' commit' ⟨_, hbegins', -⟩
      obtain ⟨_, hbegins, -⟩ := hs
      obtain ⟨rfl, rfl, rfl, -⟩ := hbegins'.unique hbegins
      exact hall
    · exact fun hall => hall major minor patch commit hs
  · have hparse : ∃ v, parseChars? (normalizeChars s) = some v := by
      rcases hearly with heq | heq
      · exact ⟨⟨⟨0, 1, 3⟩, []⟩, by rw [heq]; decide⟩
      · exact ⟨⟨⟨0, 3, 5⟩, []⟩, by rw [heq]; decide⟩
    exact iff_of_true hparse fun major minor patch commit hs =>
      absurd hs (hno major minor patch commit)

/-- A rule applies exactly to the texts that normalizing changes, and to none that it gives: a
second time it changes nothing. What a rule made is a semantic version exactly if the numbers in
front of a commit, where there is one, are numbers of semantic versions. -/
theorem normalize_normalize (s : String) :
    normalize (normalize s) = normalize s ∧
    (Ruled s.toList ↔ normalize s ≠ s) ∧ ¬ Ruled (normalize s).toList ∧
    (Ruled s.toList → ((∃ v, parse? (normalize s) = some v) ↔
      ∀ major minor patch commit, HasCommit s.toList major minor patch commit →
        Admissible major ∧ Admissible minor ∧ Admissible patch)) := by
  have htext : (normalize s).toList = normalizeChars s.toList := String.toList_ofList
  have hruled := not_ruled_normalizeChars s.toList
  refine ⟨?again, ?changes, ?none, ?parse⟩
  case again =>
    rw [normalize, htext, normalizeChars_of_not_ruled hruled]
    rfl
  case changes =>
    rw [ruled_iff, ← htext, ne_eq, ne_eq, String.toList_inj]
  case none =>
    rwa [htext]
  case parse =>
    intro h
    rw [parse?, htext]
    exact h.parse_iff

example : normalize "0.3.6-3fc68da5/Release-Emscripten/clang" = "0.3.6+commit.3fc68da5" := by
  decide

end SolidityHost.Version
