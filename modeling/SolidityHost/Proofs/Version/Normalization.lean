import SolidityHost.Proofs.Version.Grammar
import SolidityHost.Version.Reported

/-!
# The release of a reported version

The rule for commits keeps the release that a text begins with, and so does no rule at all. The two
rules for early builds do not look at where a text begins: a later release that names one of the two
builds further on, as a linked library or within a longer number, is taken for that build.
-/

set_option autoImplicit false

namespace SolidityHost.Version

open Text (IsRun NoDigit noDigit_cons)

variable {s t rest major minor patch commit : List Char}

def CommitTail (rest commit : List Char) : Prop :=
  ∃ mark tail, rest = '-' :: (commit ++ mark :: tail) ∧ commit.length = 8 ∧
    (∀ c ∈ commit, isCommitDigit c = true) ∧ (mark = '/' ∨ mark = '*') ∧ '\n' ∉ tail

theorem digitRun?_append (h : IsRun s) (hrest : NoDigit rest) :
    digitRun? (s ++ rest) = some (s, rest) := by
  have hne : s.isEmpty = false := by simpa using h.1
  simp [digitRun?, Text.takeWhile_run h hrest, Text.dropWhile_run h hrest, hne]

theorem Begins.numbers?_eq (h : Begins s major minor patch rest) :
    numbers? s = some (major ++ '.' :: minor ++ '.' :: patch, rest) := by
  have hmajor := digitRun?_append h.major_run (noDigit_point (minor ++ '.' :: (patch ++ rest)))
  have hminor := digitRun?_append h.minor_run (noDigit_point (patch ++ rest))
  have hpatch := digitRun?_append h.patch_run h.rest_noDigit
  rw [h.text]
  simp [numbers?, hmajor, hminor, hpatch, point?]

theorem eq_take_append_of_drop {n : Nat} {c : Char} {tail : List Char}
    (h : s.drop n = c :: tail) : s = s.take n ++ c :: tail ∧ (s.take n).length = n := by
  have hlength := congrArg List.length h
  rw [List.length_drop, List.length_cons] at hlength
  refine ⟨?_, List.length_take_of_le (by omega)⟩
  rw [← h, List.take_append_drop]

theorem Begins.commitForm?_eq_some_iff (h : Begins s major minor patch rest) :
    commitForm? s = some t ↔ ∃ commit, CommitTail rest commit ∧
      t = major ++ '.' :: (minor ++ '.' :: (patch ++ ("+commit.".toList ++ commit))) := by
  simp only [commitForm?, h.numbers?_eq, Option.bind_eq_bind, Option.bind_some]
  constructor
  · intro hform
    split at hform
    next back =>
      split at hform
      next mark tail hdrop =>
        split at hform
        next hrule =>
          obtain ⟨hcommit, hmark, htail⟩ := hrule
          obtain ⟨hback, hlength⟩ := eq_take_append_of_drop hdrop
          have htext := Option.some.inj hform
          refine ⟨back.take 8, ⟨mark, tail, congrArg ('-' :: ·) hback, hlength,
            List.all_eq_true.1 hcommit, hmark, htail⟩, ?_⟩
          simpa using htext.symm
        · contradiction
      · contradiction
    · contradiction
  · rintro ⟨commit, ⟨mark, tail, rfl, hlength, hcommit, hmark, htail⟩, rfl⟩
    -- the commit is what is taken, since it has eight digits
    simp only [← hlength, List.take_left, List.drop_left]
    rw [if_pos ⟨List.all_eq_true.2 hcommit, hmark, htail⟩]
    simp

theorem Begins.commitForm?_eq_none (h : Begins s major minor patch rest)
    (hno : ¬ ∃ commit, CommitTail rest commit) : commitForm? s = none := by
  rw [Option.eq_none_iff_forall_ne_some]
  intro t ht
  obtain ⟨commit, htail, -⟩ := h.commitForm?_eq_some_iff.1 ht
  exact hno ⟨commit, htail⟩

theorem Begins.withCommit (h : Begins s major minor patch rest) (commit : List Char) :
    Begins (major ++ '.' :: (minor ++ '.' :: (patch ++ ("+commit.".toList ++ commit))))
      major minor patch ("+commit.".toList ++ commit) :=
  ⟨rfl, h.major_run, h.minor_run, h.patch_run, noDigit_cons (by decide) _⟩

/-- With a commit behind them, or without the name of an early build anywhere, the numbers stay. -/
theorem Begins.normalizeChars (h : Begins s major minor patch rest)
    (hkept : (∃ commit, CommitTail rest commit) ∨
      ¬ "0.1.3-0".toList <:+: s ∧ ¬ "0.3.5-0".toList <:+: s) :
    ∃ back, Begins (normalizeChars s) major minor patch back := by
  cases hform : commitForm? s with
  | some t =>
    obtain ⟨commit, -, rfl⟩ := h.commitForm?_eq_some_iff.1 hform
    refine ⟨"+commit.".toList ++ commit, ?_⟩
    simp only [Version.normalizeChars, hform]
    exact h.withCommit commit
  | none =>
    rcases hkept with ⟨commit, htail⟩ | ⟨hfirst, hsecond⟩
    · rw [h.commitForm?_eq_some_iff.2 ⟨commit, htail, rfl⟩] at hform
      contradiction
    · refine ⟨rest, ?_⟩
      simp only [Version.normalizeChars, hform, Text.occurs_iff, hfirst, hsecond, if_false]
      exact h

theorem parse?_eq (w : ReportedVersion) :
    w.parse? = parseChars? (normalizeChars w.raw.toList) := by
  rw [ReportedVersion.parse?, ReportedVersion.semver, normalize, parse?, String.toList_ofList]

/-- Which release a text that begins with one is taken for. -/
theorem release_of_begins {w : ReportedVersion} {v : Version}
    (h : Begins w.raw.toList major minor patch rest) (hv : w.parse? = some v) :
    ((∃ commit, CommitTail rest commit) ∨
        ¬ "0.1.3-0".toList <:+: w.raw.toList ∧ ¬ "0.3.5-0".toList <:+: w.raw.toList →
      v.release = spelled major minor patch) ∧
    (¬ (∃ commit, CommitTail rest commit) → "0.1.3-0".toList <:+: w.raw.toList →
      v = ⟨⟨0, 1, 3⟩, []⟩) ∧
    (¬ (∃ commit, CommitTail rest commit) → ¬ "0.1.3-0".toList <:+: w.raw.toList →
      "0.3.5-0".toList <:+: w.raw.toList → v = ⟨⟨0, 3, 5⟩, []⟩) := by
  rw [parse?_eq] at hv
  refine ⟨fun hkept => ?kept, fun hno hfirst => ?first, fun hno hfirst hsecond => ?second⟩
  case kept =>
    obtain ⟨back, hback⟩ := h.normalizeChars hkept
    exact hback.release_eq hv
  case first =>
    have hrule : normalizeChars w.raw.toList = "0.1.3".toList := by
      simp only [normalizeChars, h.commitForm?_eq_none hno, Text.occurs_iff, hfirst, if_true]
    have hread : parseChars? "0.1.3".toList = some ⟨⟨0, 1, 3⟩, []⟩ := by decide
    rw [hrule, hread] at hv
    exact (Option.some.inj hv).symm
  case second =>
    have hrule : normalizeChars w.raw.toList = "0.3.5".toList := by
      simp only [normalizeChars, h.commitForm?_eq_none hno, Text.occurs_iff, hfirst, hsecond,
        if_true, if_false]
    have hread : parseChars? "0.3.5".toList = some ⟨⟨0, 3, 5⟩, []⟩ := by decide
    rw [hrule, hread] at hv
    exact (Option.some.inj hv).symm

/-- A build with a commit that was linked to an early one keeps its own release. -/
theorem release_of_begins_linked :
    Begins "0.4.2-1b2a1d7f*libethereum-0.1.3-0".toList ['0'] ['4'] ['2']
        "-1b2a1d7f*libethereum-0.1.3-0".toList ∧
      CommitTail "-1b2a1d7f*libethereum-0.1.3-0".toList "1b2a1d7f".toList ∧
      ∃ v, ReportedVersion.parse? ⟨"0.4.2-1b2a1d7f*libethereum-0.1.3-0"⟩ = some v ∧
        v.release = ⟨0, 4, 2⟩ := by
  have hbegins : Begins "0.4.2-1b2a1d7f*libethereum-0.1.3-0".toList ['0'] ['4'] ['2']
      "-1b2a1d7f*libethereum-0.1.3-0".toList :=
    ⟨rfl, by decide, by decide, by decide, noDigit_cons (by decide) _⟩
  have htail : CommitTail "-1b2a1d7f*libethereum-0.1.3-0".toList "1b2a1d7f".toList :=
    ⟨'*', "libethereum-0.1.3-0".toList, rfl, rfl, List.all_eq_true.1 (by decide), by decide,
      by decide⟩
  have hparse : ReportedVersion.parse? ⟨"0.4.2-1b2a1d7f*libethereum-0.1.3-0"⟩ =
      some ⟨⟨0, 4, 2⟩, []⟩ := by decide
  exact ⟨hbegins, htail, _, hparse, (release_of_begins hbegins hparse).1 (.inl ⟨_, htail⟩)⟩

/-- A later release in which the name of an early build stands is taken for that build. -/
theorem exists_renamed_release :
    ∃ (w : ReportedVersion) (major minor patch rest : List Char) (v : Version),
      Begins w.raw.toList major minor patch rest ∧ w.parse? = some v ∧
        v.release ≠ spelled major minor patch := by
  have hparse : ReportedVersion.parse? ⟨"10.1.3-0"⟩ = some ⟨⟨0, 1, 3⟩, []⟩ := by decide
  refine ⟨⟨"10.1.3-0"⟩, ['1', '0'], ['1'], ['3'], ['-', '0'], _, ?_, hparse, by decide⟩
  exact ⟨rfl, by decide, by decide, by decide, noDigit_cons (by decide) _⟩

end SolidityHost.Version
