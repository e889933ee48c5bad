/-!
# Search in text
-/

set_option autoImplicit false

namespace SolidityHost.Text

def occurs (pattern : List Char) : List Char → Bool
  | [] => pattern.isEmpty
  | c :: rest => pattern.isPrefixOf (c :: rest) || occurs pattern rest

def splitLast? (c : Char) : List Char → Option (List Char × List Char)
  | [] => none
  | d :: rest =>
    match splitLast? c rest with
    | some (before, behind) => some (d :: before, behind)
    | none => if d = c then some ([], rest) else none

theorem occurs_iff {pattern s : List Char} : occurs pattern s = true ↔ pattern <:+: s := by
  induction s with
  | nil => simp [occurs]
  | cons c rest ih =>
    rw [occurs, Bool.or_eq_true, ih, List.isPrefixOf_iff_prefix, List.infix_cons_iff]

theorem takeWhile_ne_of_notMem {c : Char} {before : List Char} (h : c ∉ before)
    (behind : List Char) : (before ++ c :: behind).takeWhile (· ≠ c) = before := by
  have hall : ∀ a ∈ before, decide (a ≠ c) := fun a ha => decide_eq_true fun hac => h (hac ▸ ha)
  rw [List.takeWhile_append_of_pos hall]
  simp

theorem dropWhile_ne_of_notMem {c : Char} {before : List Char} (h : c ∉ before)
    (behind : List Char) : (before ++ c :: behind).dropWhile (· ≠ c) = c :: behind := by
  have hall : ∀ a ∈ before, decide (a ≠ c) := fun a ha => decide_eq_true fun hac => h (hac ▸ ha)
  rw [List.dropWhile_append_of_pos hall]
  simp

theorem dropWhile_ne_eq_nil {c : Char} {s : List Char} (h : c ∉ s) :
    s.dropWhile (· ≠ c) = [] := by
  have hall : ∀ a ∈ s, decide (a ≠ c) := fun a ha => decide_eq_true fun hac => h (hac ▸ ha)
  rw [← List.append_nil s, List.dropWhile_append_of_pos hall, List.dropWhile_nil]

theorem splitLast?_eq_none_iff {c : Char} {s : List Char} : splitLast? c s = none ↔ c ∉ s := by
  induction s with
  | nil => simp [splitLast?]
  | cons d rest ih =>
    rw [splitLast?, List.mem_cons, not_or, ← ih]
    cases splitLast? c rest with
    | none => by_cases h : c = d <;> simp [h, Ne.symm]
    | some parts => simp

theorem splitLast?_of_notMem {c : Char} {before behind : List Char} (h : c ∉ behind) :
    splitLast? c (before ++ c :: behind) = some (before, behind) := by
  induction before with
  | nil => simp [splitLast?, splitLast?_eq_none_iff.2 h]
  | cons d rest ih => simp [splitLast?, ih]

theorem splitLast?_eq_some_iff {c : Char} {s before behind : List Char} :
    splitLast? c s = some (before, behind) ↔ s = before ++ c :: behind ∧ c ∉ behind := by
  constructor
  · intro h
    induction s generalizing before with
    | nil => simp [splitLast?] at h
    | cons d rest ih =>
      rw [splitLast?] at h
      cases hs : splitLast? c rest with
      | none =>
        by_cases hd : d = c
        · obtain ⟨rfl, rfl⟩ : [] = before ∧ rest = behind := by simpa [hs, hd] using h
          exact ⟨by rw [hd, List.nil_append], splitLast?_eq_none_iff.1 hs⟩
        · simp [hs, hd] at h
      | some parts =>
        obtain ⟨rfl, rfl⟩ : d :: parts.1 = before ∧ parts.2 = behind := by simpa [hs] using h
        obtain ⟨hrest, hbehind⟩ := ih hs
        exact ⟨by rw [hrest, List.cons_append], hbehind⟩
  · rintro ⟨rfl, h⟩
    exact splitLast?_of_notMem h

end SolidityHost.Text
