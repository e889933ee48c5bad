import SolidityHost.Proofs.Text.Digits
import SolidityHost.Version.Semantic

/-!
# The grammar of semantic versions

Reading accepts exactly what writing produces, with build metadata or nothing behind it. So a version
is written in one way, and its text is what stands in front of the plus sign.
-/

set_option autoImplicit false

namespace SolidityHost

open Text (IsRun NoDigit NoLeadingZero noDigit_cons)

structure Release.FitsWords (r : Release) : Prop where
  major : r.major < 0x10000000000000000
  minor : r.minor < 0x10000000000000000
  patch : r.patch < 0x10000000000000000

namespace Version

def IsIdentifier (id : List Char) : Prop := id ≠ [] ∧ ∀ c ∈ id, isIdentifierChar c = true

inductive IsBuild : List Char → Prop
  | absent : IsBuild []
  | present {ids : List (List Char)} (hne : ids ≠ []) (h : ∀ id ∈ ids, IsIdentifier id) :
    IsBuild ('+' :: List.intercalate ['.'] ids)

structure WellFormed (v : Version) : Prop where
  fits : v.release.FitsWords
  identifier : ∀ id ∈ v.prerelease, IsIdentifier id
  noLeadingZero : ∀ id ∈ v.prerelease, hasLeadingZero id = false

variable {v : Version} {r : Release} {s rest build : List Char} {ids : List (List Char)} {n : Nat}

theorem number?_toDigits (hn : n < 0x10000000000000000) (hrest : NoDigit rest) :
    number? (Nat.toDigits 10 n ++ rest) = some (n, rest) := by
  have hrun := Text.isRun_toDigits n
  have hzero := Text.noLeadingZero_toDigits n
  unfold number?
  rw [Text.takeWhile_run hrun hrest, Text.dropWhile_run hrun hrest]
  dsimp only
  rw [Text.foldl_eq_ofDigitChars, Nat.ofDigitChars_ten_toDigits]
  refine if_neg ?_
  rintro (hempty | ⟨hfront, hlong⟩ | hlarge)
  · exact hrun.1 (List.isEmpty_iff.1 hempty)
  · exact absurd (hzero hfront) (Nat.ne_of_gt hlong)
  · omega

theorem number?_eq_some_iff : number? s = some (n, rest) ↔
    n < 0x10000000000000000 ∧ s = Nat.toDigits 10 n ++ rest ∧ NoDigit rest := by
  constructor
  · intro h
    unfold number? at h
    dsimp only at h
    split at h
    · contradiction
    next hnot =>
      obtain ⟨rfl, rfl⟩ := Prod.mk.inj (Option.some.inj h)
      obtain ⟨hne, hlong, hlarge⟩ : _ ∧ _ ∧ _ := by simpa only [not_or] using hnot
      have hrun : IsRun (s.takeWhile Char.isDigit) :=
        Text.isRun_takeWhile fun hnil => hne (List.isEmpty_iff.2 hnil)
      have hzero : NoLeadingZero (s.takeWhile Char.isDigit) := by
        intro hfront
        have hpos := List.length_pos_iff.2 hrun.1
        have hle : ¬ 1 < (s.takeWhile Char.isDigit).length := fun hlt => hlong ⟨hfront, hlt⟩
        omega
      refine ⟨Nat.lt_of_not_le hlarge, ?_, Text.noDigit_dropWhile s⟩
      rw [Text.foldl_eq_ofDigitChars, Text.toDigits_ofDigitChars hrun hzero,
        List.takeWhile_append_dropWhile]
  · rintro ⟨hn, rfl, hrest⟩
    exact number?_toDigits hn hrest

theorem point?_eq_some_iff : point? s = some rest ↔ s = '.' :: rest := by
  unfold point?
  split <;> simp_all

/-- Three runs of digits with points between them stand in front of the text, and no digit behind
them. -/
structure Begins (s major minor patch rest : List Char) : Prop where
  text : s = major ++ '.' :: (minor ++ '.' :: (patch ++ rest))
  major_run : IsRun major
  minor_run : IsRun minor
  patch_run : IsRun patch
  rest_noDigit : NoDigit rest

def spelled (major minor patch : List Char) : Release :=
  ⟨Nat.ofDigitChars 10 major 0, Nat.ofDigitChars 10 minor 0, Nat.ofDigitChars 10 patch 0⟩

theorem noDigit_point (s : List Char) : NoDigit ('.' :: s) := noDigit_cons (by decide) s

theorem Begins.unique {a b c a' b' c' rest' : List Char} (h : Begins s a b c rest)
    (h' : Begins s a' b' c' rest') : a = a' ∧ b = b' ∧ c = c' ∧ rest = rest' := by
  have heq := h.text.symm.trans h'.text
  obtain ⟨ha, heq⟩ := Text.run_unique h.major_run h'.major_run (noDigit_point _) (noDigit_point _) heq
  obtain ⟨hb, heq⟩ := Text.run_unique h.minor_run h'.minor_run (noDigit_point _) (noDigit_point _)
    (List.cons.inj heq).2
  obtain ⟨hc, heq⟩ := Text.run_unique h.patch_run h'.patch_run h.rest_noDigit h'.rest_noDigit (List.cons.inj heq).2
  exact ⟨ha, hb, hc, heq⟩

theorem text_append (r : Release) (rest : List Char) :
    r.text ++ rest = Nat.toDigits 10 r.major ++ '.' ::
      (Nat.toDigits 10 r.minor ++ '.' :: (Nat.toDigits 10 r.patch ++ rest)) := by
  simp [Release.text]

theorem begins_text (r : Release) (h : NoDigit rest) :
    Begins (r.text ++ rest) (Nat.toDigits 10 r.major) (Nat.toDigits 10 r.minor)
      (Nat.toDigits 10 r.patch) rest :=
  ⟨text_append r rest, Text.isRun_toDigits _, Text.isRun_toDigits _, Text.isRun_toDigits _, h⟩

theorem spelled_toDigits (r : Release) : spelled (Nat.toDigits 10 r.major)
    (Nat.toDigits 10 r.minor) (Nat.toDigits 10 r.patch) = r := by
  simp [spelled, Nat.ofDigitChars_ten_toDigits]

theorem Begins.spelled_eq {major minor patch rest' : List Char}
    (h : Begins (r.text ++ rest) major minor patch rest') (hrest : NoDigit rest) :
    spelled major minor patch = r ∧ rest' = rest := by
  obtain ⟨rfl, rfl, rfl, rfl⟩ := h.unique (begins_text r hrest)
  exact ⟨spelled_toDigits r, rfl⟩

theorem release?_eq_some_iff :
    release? s = some (r, rest) ↔ r.FitsWords ∧ s = r.text ++ rest ∧ NoDigit rest := by
  constructor
  · intro h
    simp only [release?, Option.bind_eq_bind, Option.bind_eq_some_iff, Prod.exists,
      number?_eq_some_iff, point?_eq_some_iff] at h
    obtain ⟨major, _, ⟨hmajor, rfl, -⟩, _, rfl, minor, _, ⟨hminor, rfl, -⟩, _, rfl, patch, _,
      ⟨hpatch, rfl, hrest⟩, heq⟩ := h
    obtain ⟨rfl, rfl⟩ := Prod.mk.inj (Option.some.inj heq)
    exact ⟨⟨hmajor, hminor, hpatch⟩, (text_append ⟨major, minor, patch⟩ _).symm, hrest⟩
  · rintro ⟨hfits, rfl, hrest⟩
    rw [text_append]
    simp [release?, number?_toDigits, point?, hfits.major, hfits.minor, hfits.patch, hrest,
      noDigit_point]

def continues (c : Char) : Bool := isIdentifierChar c || c = '.'

def Stops (s : List Char) : Prop := ∀ c ∈ s.head?, continues c = false

theorem identifiers?_eq (s : List Char) : identifiers? s =
    if (segments (s.takeWhile continues)).any List.isEmpty then none
    else some (segments (s.takeWhile continues), s.dropWhile continues) := rfl

theorem segments_eq_splitOn (s : List Char) : segments s = s.splitOn '.' := by
  induction s with
  | nil => rfl
  | cons c s ih =>
    rw [List.splitOn_eq_splitOnP, List.splitOnP_cons_eq_if_modifyHead, ← List.splitOn_eq_splitOnP,
      ← ih, segments]
    by_cases hc : c = '.'
    · simp [hc]
    · rw [if_neg hc, if_neg (by simpa using hc)]
      cases hs : segments s with
      | nil => exact absurd (ih ▸ hs) (List.splitOnP_ne_nil _ _)
      | cons first more => rfl

theorem mem_of_mem_segments {id : List Char} {c : Char} (hid : id ∈ segments s) (hc : c ∈ id) :
    c ∈ s ∧ c ≠ '.' := by
  induction s generalizing id with
  | nil => simp_all [segments]
  | cons d s ih =>
    rw [segments] at hid
    split at hid
    · rcases List.mem_cons.1 hid with rfl | hid
      · contradiction
      · exact (ih hid hc).imp_left (List.mem_cons_of_mem d)
    next hd =>
      cases hs : segments s with
      | nil =>
        rw [hs] at hid
        simp_all
      | cons first more =>
        rw [hs] at hid ih
        rcases List.mem_cons.1 hid with rfl | hid
        · rcases List.mem_cons.1 hc with rfl | hc
          · exact ⟨List.mem_cons_self, hd⟩
          · exact (ih List.mem_cons_self hc).imp_left (List.mem_cons_of_mem d)
        · exact (ih (List.mem_cons_of_mem _ hid) hc).imp_left (List.mem_cons_of_mem d)

theorem mem_intercalate {c : Char} (h : c ∈ List.intercalate ['.'] ids) :
    c = '.' ∨ ∃ id ∈ ids, c ∈ id := by
  induction ids with
  | nil => simp [List.intercalate] at h
  | cons id ids ih =>
    cases ids with
    | nil => exact .inr ⟨id, List.mem_cons_self, by simpa using h⟩
    | cons next ids =>
      rw [List.intercalate_cons_cons, List.append_assoc, List.mem_append] at h
      rcases h with h | h
      · exact .inr ⟨id, List.mem_cons_self, h⟩
      · rcases List.mem_cons.1 h with rfl | h
        · exact .inl rfl
        · exact (ih h).imp_right fun ⟨id', hmem, hc⟩ => ⟨id', List.mem_cons_of_mem _ hmem, hc⟩

theorem IsIdentifier.point_notMem {id : List Char} (h : IsIdentifier id) : '.' ∉ id :=
  fun hmem => absurd (h.2 _ hmem) (by decide)

theorem continues_of_mem_intercalate (h : ∀ id ∈ ids, IsIdentifier id) {c : Char}
    (hc : c ∈ List.intercalate ['.'] ids) : continues c = true := by
  rcases mem_intercalate hc with rfl | ⟨id, hid, hc⟩
  · rfl
  · simp [continues, (h id hid).2 c hc]

theorem identifiers?_intercalate (hne : ids ≠ []) (h : ∀ id ∈ ids, IsIdentifier id)
    (hrest : Stops rest) :
    identifiers? (List.intercalate ['.'] ids ++ rest) = some (ids, rest) := by
  have hfront : ∀ c ∈ List.intercalate ['.'] ids, continues c = true :=
    fun _ => continues_of_mem_intercalate h
  have hback : rest.takeWhile continues = [] ∧ rest.dropWhile continues = rest := by
    cases rest with
    | nil => exact ⟨rfl, rfl⟩
    | cons c rest => simp [hrest c rfl]
  have hsplit : segments (List.intercalate ['.'] ids) = ids := by
    rw [segments_eq_splitOn]
    exact List.splitOn_intercalate _ (fun id hid => (h id hid).point_notMem) hne
  have hempty : ids.any List.isEmpty = false := by
    rw [List.any_eq_false]
    exact fun id hid hnil => (h id hid).1 (List.isEmpty_iff.1 hnil)
  rw [identifiers?_eq, List.takeWhile_append_of_pos hfront, List.dropWhile_append_of_pos hfront,
    hback.1, hback.2, List.append_nil, hsplit, hempty]
  rfl

theorem identifiers?_eq_some_iff : identifiers? s = some (ids, rest) ↔
    (ids ≠ [] ∧ ∀ id ∈ ids, IsIdentifier id) ∧ s = List.intercalate ['.'] ids ++ rest ∧
      Stops rest := by
  constructor
  · intro h
    rw [identifiers?_eq] at h
    split at h
    · contradiction
    next hfull =>
      obtain ⟨rfl, rfl⟩ := Prod.mk.inj (Option.some.inj h)
      refine ⟨⟨?someone, fun id hid => ⟨?nonempty, fun c hc => ?char⟩⟩, ?text, ?stops⟩
      case someone =>
        rw [segments_eq_splitOn]
        exact List.splitOnP_ne_nil _ _
      case nonempty =>
        rintro rfl
        exact hfull (List.any_eq_true.2 ⟨[], hid, rfl⟩)
      case char =>
        obtain ⟨hmem, hne⟩ := mem_of_mem_segments hid hc
        have hcontinues := List.all_eq_true.1 List.all_takeWhile c hmem
        simpa [continues, hne] using hcontinues
      case text => rw [segments_eq_splitOn, List.intercalate_splitOn, List.takeWhile_append_dropWhile]
      case stops =>
        intro c hc
        have hhead := List.head?_dropWhile_not continues s
        rw [hc] at hhead
        simpa using hhead
  · rintro ⟨⟨hne, hids⟩, rfl, hrest⟩
    exact identifiers?_intercalate hne hids hrest

theorem stops_plus (s : List Char) : Stops ('+' :: s) := by
  intro c hc
  obtain rfl := Option.some.inj hc
  decide

theorem IsBuild.stops (h : IsBuild build) : Stops build := by
  cases h with
  | absent => nofun
  | present => exact stops_plus _

theorem IsBuild.noDigit (h : IsBuild build) : NoDigit build := by
  cases h with
  | absent => nofun
  | present => exact noDigit_cons (by decide) _

theorem endsWithBuild_iff : endsWithBuild s = true ↔ IsBuild s := by
  constructor
  · intro h
    unfold endsWithBuild at h
    split at h
    · exact .absent
    · split at h
      next ids rest hids =>
        obtain ⟨⟨hne, hall⟩, rfl, -⟩ := identifiers?_eq_some_iff.1 hids
        rw [List.isEmpty_iff.1 h, List.append_nil]
        exact .present hne hall
      · contradiction
    · contradiction
  · intro h
    cases h with
    | absent => rfl
    | @present ids hne hall =>
      have hids : identifiers? (List.intercalate ['.'] ids ++ []) = some (ids, []) :=
        identifiers?_intercalate hne hall nofun
      rw [List.append_nil] at hids
      rw [endsWithBuild, hids]
      rfl

def suffix (ids : List (List Char)) : List Char :=
  if ids = [] then [] else '-' :: List.intercalate ['.'] ids

theorem text_eq (v : Version) : v.text = v.release.text ++ suffix v.prerelease := by
  unfold text suffix isPrerelease prereleaseText
  cases v.prerelease <;> rfl

theorem noDigit_suffix_append (ids : List (List Char)) (h : NoDigit rest) :
    NoDigit (suffix ids ++ rest) := by
  unfold suffix
  split
  · exact h
  · exact noDigit_cons (by decide) _

/-- A prerelease is read up to where no identifier goes on. -/
theorem prerelease?_eq_some_iff (hrest : Stops rest) : prerelease? s = some (ids, rest) ↔
    (∀ id ∈ ids, IsIdentifier id ∧ hasLeadingZero id = false) ∧ s = suffix ids ++ rest := by
  constructor
  · intro h
    unfold prerelease? at h
    split at h
    · simp only [Option.bind_eq_bind, Option.bind_eq_some_iff, Prod.exists] at h
      obtain ⟨ids', rest', hids, h⟩ := h
      obtain ⟨⟨hne, hall⟩, rfl, -⟩ := identifiers?_eq_some_iff.1 hids
      split at h
      · contradiction
      next hzero =>
        obtain ⟨rfl, rfl⟩ := Prod.mk.inj (Option.some.inj h)
        rw [Bool.not_eq_true, List.any_eq_false] at hzero
        refine ⟨fun id hid => ⟨hall id hid, by simpa using hzero id hid⟩, ?_⟩
        rw [suffix, if_neg hne, List.cons_append]
    · obtain ⟨rfl, rfl⟩ := Prod.mk.inj (Option.some.inj h)
      exact ⟨nofun, rfl⟩
  · rintro ⟨hall, rfl⟩
    unfold suffix
    split
    case isTrue hnil =>
      subst hnil
      cases rest with
      | nil => rfl
      | cons c rest =>
        have hc : c ≠ '-' := by
          rintro rfl
          exact absurd (hrest _ rfl) (by decide)
        simp [prerelease?, hc]
    case isFalse hne =>
      have hids := identifiers?_intercalate hne (fun id hid => (hall id hid).1) hrest
      rw [List.cons_append, prerelease?, hids]
      simpa using fun id hid => (hall id hid).2

/-- What is read is a version as it is written, with build metadata or nothing behind it. -/
theorem parseChars?_eq_some_iff :
    parseChars? s = some v ↔ v.WellFormed ∧ ∃ build, IsBuild build ∧ s = v.text ++ build := by
  constructor
  · intro h
    simp only [parseChars?, Option.bind_eq_bind, Option.bind_eq_some_iff, Prod.exists,
      release?_eq_some_iff] at h
    obtain ⟨r, _, ⟨hfits, rfl, -⟩, ids, build, hids, h⟩ := h
    split at h
    next hbuild =>
      obtain rfl := Option.some.inj h
      have hbuild := endsWithBuild_iff.1 hbuild
      obtain ⟨hall, rfl⟩ := (prerelease?_eq_some_iff hbuild.stops).1 hids
      refine ⟨⟨hfits, fun id hid => (hall id hid).1, fun id hid => (hall id hid).2⟩, build, hbuild, ?_⟩
      rw [text_eq, List.append_assoc]
    · contradiction
  · rintro ⟨hv, build, hbuild, rfl⟩
    have hrelease : release? (v.text ++ build) =
        some (v.release, suffix v.prerelease ++ build) := by
      rw [release?_eq_some_iff, text_eq, List.append_assoc]
      exact ⟨hv.fits, rfl, noDigit_suffix_append _ hbuild.noDigit⟩
    have hids : prerelease? (suffix v.prerelease ++ build) = some (v.prerelease, build) :=
      (prerelease?_eq_some_iff hbuild.stops).2
        ⟨fun id hid => ⟨hv.identifier id hid, hv.noLeadingZero id hid⟩, rfl⟩
    simp [parseChars?, hrelease, hids, endsWithBuild_iff.2 hbuild]

theorem plus_notMem_text (h : v.WellFormed) : '+' ∉ v.text := by
  have hdigits (n : Nat) : '+' ∉ Nat.toDigits 10 n := fun hmem =>
    absurd ((Text.isRun_toDigits n).2 _ hmem) (by decide)
  have hids : '+' ∉ List.intercalate ['.'] v.prerelease := fun hmem =>
    absurd (continues_of_mem_intercalate h.identifier hmem) (by decide)
  rw [text_eq, suffix]
  split <;> simp [Release.text, hdigits, hids]

def withoutBuild (s : List Char) : List Char := s.takeWhile (· ≠ '+')

theorem withoutBuild_of_parseChars? (h : parseChars? s = some v) : withoutBuild s = v.text := by
  obtain ⟨hv, build, hbuild, rfl⟩ := parseChars?_eq_some_iff.1 h
  have hall : ∀ c ∈ v.text, decide (c ≠ '+') = true :=
    fun c hc => decide_eq_true (ne_of_mem_of_not_mem hc (plus_notMem_text hv))
  rw [withoutBuild, List.takeWhile_append_of_pos hall]
  cases hbuild <;> simp

theorem Begins.release_eq {major minor patch : List Char} (h : Begins s major minor patch rest)
    (hs : parseChars? s = some v) : v.release = spelled major minor patch := by
  obtain ⟨-, build, hbuild, rfl⟩ := parseChars?_eq_some_iff.1 hs
  rw [text_eq, List.append_assoc] at h
  exact (h.spelled_eq (noDigit_suffix_append _ hbuild.noDigit)).1.symm

end Version

end SolidityHost
