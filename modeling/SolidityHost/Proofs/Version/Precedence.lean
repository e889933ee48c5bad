import Mathlib.Data.Prod.Lex
import SolidityHost.Generation.Descriptor
import SolidityHost.Proofs.Version.Normalization

/-!
# The order of versions

Releases are ordered by their numbers, a prerelease stands between the releases before and its own,
and prereleases of one release are ordered by their identifiers. Being newer or older than a release
is this order, so a version that can be read is one of the two unless it is the release itself. What
stands behind a plus sign does not count.
-/

set_option autoImplicit false

namespace SolidityHost

namespace Release

def key (r : Release) : ℕ ×ₗ ℕ ×ₗ ℕ := toLex (r.major, toLex (r.minor, r.patch))

theorem key_injective : Function.Injective key := by
  rintro ⟨⟩ ⟨⟩ h
  simpa [key] using h

theorem lt_iff {a b : Release} : a.lt b = true ↔ a.key < b.key := by
  simp [lt, key, Prod.Lex.toLex_lt_toLex]

theorem eq_or_key_lt_or_gt (a b : Release) : a = b ∨ a.key < b.key ∨ b.key < a.key :=
  (lt_trichotomy a.key b.key).elim (.inr ∘ .inl) fun h =>
    h.elim (fun heq => .inl (key_injective heq)) (.inr ∘ .inr)

end Release

namespace Version

def ofRelease (r : Release) : Version := ⟨r, []⟩

def IdentifierPrecedes (a b : List Char) : Prop :=
  -- numbers are ordered by their values and come before words; words are ordered by their
  -- characters
  if a.all Char.isDigit then
    b.all Char.isDigit = true → Nat.ofDigitChars 10 a 0 < Nat.ofDigitChars 10 b 0
  else b.all Char.isDigit = false ∧ a < b

/-- The order of versions: by release, then a prerelease before its release, then by the first
identifier that differs, where one more identifier comes behind. -/
def Precedes (v w : Version) : Prop :=
  v.release.key < w.release.key ∨
    v.release = w.release ∧ v.prerelease ≠ [] ∧
      (w.prerelease = [] ∨ v.prerelease.Lex IdentifierPrecedes w.prerelease)

variable {v : Version} {t : Release} {s : List Char}

theorem newerThan_iff_lt : v.newerThan t = true ↔ t.key < v.release.key := Release.lt_iff

theorem olderThan_iff_lt : v.olderThan t = true ↔
    v.release.key < t.key ∨ v.release = t ∧ v.prerelease ≠ [] := by
  simp [olderThan, isPrerelease, Release.lt_iff]

theorem newerThan_iff : v.newerThan t = true ↔ Precedes (ofRelease t) v := by
  simp [newerThan_iff_lt, Precedes, ofRelease]

theorem olderThan_iff : v.olderThan t = true ↔ Precedes v (ofRelease t) := by
  simp [olderThan_iff_lt, Precedes, ofRelease]

theorem olderThan_of_lt {t' : Release} (h : v.olderThan t = true) (hlt : t.lt t' = true) :
    v.olderThan t' = true := by
  rw [Release.lt_iff] at hlt
  rw [olderThan_iff_lt] at h ⊢
  rcases h with h | ⟨rfl, -⟩
  · exact .inl (lt_trans h hlt)
  · exact .inl hlt

theorem not_newerThan_and_olderThan : ¬ (v.newerThan t = true ∧ v.olderThan t = true) := by
  rw [newerThan_iff_lt, olderThan_iff_lt]
  rintro ⟨hnewer, holder | ⟨rfl, -⟩⟩
  · exact lt_asymm hnewer holder
  · exact lt_irrefl _ hnewer

theorem newerThan_or_olderThan_iff :
    v.newerThan t = true ∨ v.olderThan t = true ↔ v ≠ ofRelease t := by
  rw [newerThan_iff_lt, olderThan_iff_lt]
  constructor
  · rintro (h | h | ⟨-, hne⟩) rfl
    · exact lt_irrefl _ h
    · exact lt_irrefl _ h
    · exact hne rfl
  · intro hne
    rcases Release.eq_or_key_lt_or_gt v.release t with rfl | h | h
    · refine .inr (.inr ⟨rfl, fun hnil => hne ?_⟩)
      rw [ofRelease, ← hnil]
    · exact .inr (.inl h)
    · exact .inl h

theorem text_eq_iff : v.text = t.text ↔ v = ofRelease t := by
  constructor
  · intro h
    have hrelease : Begins (t.text ++ []) _ _ _ [] := begins_text t nofun
    have hsuffix : Text.NoDigit (suffix v.prerelease ++ []) := noDigit_suffix_append _ nofun
    rw [List.append_nil, ← h, text_eq] at hrelease
    rw [List.append_nil] at hsuffix
    obtain ⟨hr, hnil⟩ := hrelease.spelled_eq hsuffix
    rw [spelled_toDigits] at hr
    have hids : v.prerelease = [] := by simpa [suffix] using hnil.symm
    rw [hr, ofRelease, ← hids]
  · rintro rfl
    simp [text_eq, ofRelease, suffix]

end Version

namespace ReportedVersion

open Version (Precedes ofRelease withoutBuild)

variable {w : ReportedVersion} {v : Version} {t : Release}

theorem parse_of_parse? (h : w.parse? = some v) : w.parse = .ok v := by
  unfold parse
  cases hread : w.parse? with
  | none => exact absurd (hread.symm.trans h) nofun
  | some u => rw [Option.some.inj (hread.symm.trans h)]

theorem newerThan_of_parse? (h : w.parse? = some v) (t : Release) :
    w.newerThan t = v.newerThan t := by
  rw [newerThan, h, Option.any_some]

theorem olderThan_of_parse? (h : w.parse? = some v) (t : Release) :
    w.olderThan t = v.olderThan t := by
  rw [olderThan, h, Option.any_some]

theorem newerThan_of_parse?_eq_none (h : w.parse? = none) (t : Release) :
    w.newerThan t = false := by
  rw [newerThan, h, Option.any_none]

theorem olderThan_of_parse?_eq_none (h : w.parse? = none) (t : Release) :
    w.olderThan t = false := by
  rw [olderThan, h, Option.any_none]

theorem withoutBuild_semver (h : w.parse? = some v) : withoutBuild w.semver.toList = v.text :=
  Version.withoutBuild_of_parseChars? h

/-- Exactly one holds unless the text is that of the release, build metadata aside. -/
theorem xor_newerThan_olderThan (h : w.parse? = some v) (t : Release) :
    Xor (w.newerThan t = true) (w.olderThan t = true) ↔ withoutBuild w.semver.toList ≠ t.text := by
  rw [withoutBuild_semver h, newerThan_of_parse? h, olderThan_of_parse? h, Ne, Version.text_eq_iff,
    ← Ne, ← Version.newerThan_or_olderThan_iff]
  have hnot := v.not_newerThan_and_olderThan (t := t)
  exact ⟨Or.imp And.left And.left, fun hor => hor.imp (fun hn => ⟨hn, fun ho => hnot ⟨hn, ho⟩⟩)
    fun ho => ⟨ho, fun hn => hnot ⟨hn, ho⟩⟩⟩

/-- Callbacks are kinded exactly for the versions that can be read and are of a release after
0.5.99. -/
theorem ofVersion_eq_kinded_iff : Protocol.ofVersion w = .kinded ↔
    ∃ v, w.parse? = some v ∧ Release.key ⟨0, 5, 99⟩ < v.release.key := by
  have hnewer : Protocol.ofVersion w = .kinded ↔ w.newerThan ⟨0, 5, 99⟩ = true := by
    rw [Protocol.ofVersion]
    split <;> simp_all
  rw [hnewer, newerThan, Option.any_eq_true]
  exact exists_congr fun v => and_congr_right fun _ => Version.newerThan_iff_lt

/-- How a reported version compares with a release, and what protocol it uses. -/
theorem compares (w : ReportedVersion) (t : Release) :
    ¬ (w.newerThan t = true ∧ w.olderThan t = true) ∧
    (w.parse? = none → w.newerThan t = false ∧ w.olderThan t = false) ∧
    (∀ v, w.parse? = some v →
      (w.newerThan t = true ↔ Precedes (ofRelease t) v) ∧
      (w.olderThan t = true ↔ Precedes v (ofRelease t)) ∧
      (Xor (w.newerThan t = true) (w.olderThan t = true) ↔
        withoutBuild w.semver.toList ≠ t.text) ∧
      (v.release = t → v.isPrerelease = true → w.olderThan t = true) ∧
      (t.key < v.release.key → w.newerThan t = true)) ∧
    (Protocol.ofVersion w = .kinded ↔
      ∃ v, w.parse? = some v ∧ Release.key ⟨0, 5, 99⟩ < v.release.key) := by
  refine ⟨?exclusive, fun h => ?unreadable, fun v h => ⟨?newer, ?older, ?one, ?own, ?later⟩,
    ofVersion_eq_kinded_iff⟩
  case exclusive =>
    cases h : w.parse? with
    | none => simp [newerThan_of_parse?_eq_none h]
    | some v =>
      rw [newerThan_of_parse? h, olderThan_of_parse? h]
      exact Version.not_newerThan_and_olderThan
  case unreadable => exact ⟨newerThan_of_parse?_eq_none h t, olderThan_of_parse?_eq_none h t⟩
  case newer => rw [newerThan_of_parse? h, Version.newerThan_iff]
  case older => rw [olderThan_of_parse? h, Version.olderThan_iff]
  case one => exact xor_newerThan_olderThan h t
  case own =>
    intro hrelease hids
    rw [olderThan_of_parse? h, Version.olderThan_iff_lt]
    exact .inr ⟨hrelease, by simpa [Version.isPrerelease] using hids⟩
  case later =>
    intro hlt
    rw [newerThan_of_parse? h, Version.newerThan_iff_lt]
    exact hlt

def nightly : ReportedVersion := ⟨"0.6.0-nightly.2019.12.12+commit.deadbeef"⟩

/-- It is older than its release, and uses the protocol of its release. -/
theorem compares_nightly :
    ∃ v, nightly.parse? = some v ∧ v.release = ⟨0, 6, 0⟩ ∧ v.isPrerelease = true ∧
      Release.key ⟨0, 5, 99⟩ < v.release.key ∧ nightly.olderThan ⟨0, 6, 0⟩ = true ∧
      Xor (nightly.newerThan ⟨0, 6, 0⟩ = true) (nightly.olderThan ⟨0, 6, 0⟩ = true) ∧
      Protocol.ofVersion nightly = .kinded := by
  have hparse : nightly.parse? = some ⟨⟨0, 6, 0⟩, ["nightly".toList, "2019".toList, "12".toList,
      "12".toList]⟩ := by decide
  have hlater : Release.key ⟨0, 5, 99⟩ < Release.key ⟨0, 6, 0⟩ := Release.lt_iff.1 (by decide)
  obtain ⟨-, -, hreads, hprotocol⟩ := compares nightly ⟨0, 6, 0⟩
  obtain ⟨-, -, hone, hown, -⟩ := hreads _ hparse
  exact ⟨_, hparse, rfl, rfl, hlater, hown rfl rfl, hone.2 (by decide),
    hprotocol.2 ⟨_, hparse, hlater⟩⟩

end ReportedVersion

end SolidityHost
