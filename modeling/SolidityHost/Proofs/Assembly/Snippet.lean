import Mathlib.Data.List.Basic
import SolidityHost.Assembly
import SolidityHost.Proofs.Text.Lenient

/-!
# Pieces of source in a listing

An instruction is annotated with the source between the two positions that it names, whatever they
are. Both are moved into the source first, so there always are such bytes. They are decoded, then
escaped, which may lengthen them, and cut only then. So a piece of source stays on one line and
within its length, and where it is not cut nothing is missing.
-/

set_option autoImplicit false

namespace SolidityHost.Assembly

variable {c : Char} {s : List Char} {item : Json} {start stop : Nat}

/-- The bytes from one position to before another, if the positions are in order and within the
bytes. -/
def range? (bytes : List UInt8) (start stop : Nat) : Option (List UInt8) :=
  if start ≤ stop ∧ stop ≤ bytes.length then some ((bytes.take stop).drop start) else none

def clampedStart (length start : Nat) : Nat := min start length

def clampedStop (length start stop : Nat) : Nat := max (min stop length) (clampedStart length start)

theorem clampedStart_le_clampedStop (length start stop : Nat) :
    clampedStart length start ≤ clampedStop length start stop :=
  Nat.le_max_right _ _

theorem clampedStop_le (length start stop : Nat) : clampedStop length start stop ≤ length :=
  Nat.max_le.2 ⟨Nat.min_le_right _ _, Nat.min_le_right _ _⟩

/-- Positions that are moved into the source are never out of range. -/
theorem range?_clamped (source : List UInt8) (start stop : Nat) :
    range? source (clampedStart source.length start) (clampedStop source.length start stop) =
      some (slice source start stop) := by
  have horder := clampedStart_le_clampedStop source.length start stop
  have hbound := clampedStop_le source.length start stop
  rw [range?, if_pos ⟨horder, hbound⟩, List.drop_take]
  rfl

def replaceChar (c : Char) (escape s : List Char) : List Char :=
  s.flatMap fun d => if d = c then escape else [d]

def escaped (s : List Char) : List Char :=
  replaceChar '\t' ['\\', 't'] (replaceChar '\r' ['\\', 'r'] (replaceChar '\n' ['\\', 'n'] s))

/-- No escape holds a character that is replaced after it, so a single pass does for all three. -/
theorem flatMap_escapeChar (s : List Char) : s.flatMap escapeChar = escaped s := by
  rw [escaped, replaceChar, replaceChar, replaceChar, List.flatMap_assoc, List.flatMap_assoc]
  apply List.flatMap_congr
  intro c _
  rw [escapeChar]
  split_ifs <;> simp [*]

def marks : List Char := ['\n', '\r', '\t']

theorem notMem_escapeChar (hc : c ∈ marks) (d : Char) : c ∉ escapeChar d := by
  have hmark : c = '\n' ∨ c = '\r' ∨ c = '\t' := by simpa [marks] using hc
  unfold escapeChar
  split_ifs
  case neg => rcases hmark with rfl | rfl | rfl <;> simp [*, Ne.symm]
  all_goals rcases hmark with rfl | rfl | rfl <;> decide

theorem notMem_escaped (hc : c ∈ marks) : c ∉ escaped s := by
  rw [← flatMap_escapeChar, List.mem_flatMap]
  rintro ⟨d, -, hd⟩
  exact notMem_escapeChar hc d hd

theorem abbreviate_of_le (h : s.length ≤ 30) : abbreviate s = s := if_neg (Nat.not_lt.2 h)

theorem abbreviate_of_lt (h : 30 < s.length) : abbreviate s = s.take 30 ++ "...".toList := if_pos h

theorem length_abbreviate_le (s : List Char) : (abbreviate s).length ≤ 33 := by
  rcases Nat.lt_or_ge 30 s.length with h | h
  · rw [abbreviate_of_lt h, List.length_append, List.length_take_of_le (Nat.le_of_lt h)]
    decide
  · rw [abbreviate_of_le h]
    omega

theorem excerpt_eq (source : List UInt8) (start stop : Nat) : excerpt source start stop =
    abbreviate (escaped (Utf8.decodeLenient (slice source start stop))) := by
  rw [excerpt, flatMap_escapeChar]

theorem notMem_excerpt (hc : c ∈ marks) (source : List UInt8) (start stop : Nat) :
    c ∉ excerpt source start stop := by
  rw [excerpt_eq]
  generalize Utf8.decodeLenient (slice source start stop) = s
  rcases Nat.lt_or_ge 30 (escaped s).length with h | h
  · have hdots : c ∉ List.replicate 3 '.' := by
      intro hmem
      rw [List.eq_of_mem_replicate hmem] at hc
      exact absurd hc (by decide)
    rw [abbreviate_of_lt h, List.mem_append, not_or]
    exact ⟨fun hmem => notMem_escaped hc (List.mem_of_mem_take hmem), hdots⟩
  · rw [abbreviate_of_le h]
    exact notMem_escaped hc

def Located (item : Json) (start stop : Nat) : Prop :=
  (item.field? "begin").bind Json.natural? = some start ∧
    (item.field? "end").bind Json.natural? = some stop

theorem snippet_of_located (h : Located item start stop) (source : List UInt8) :
    snippet (some source) item = excerpt source start stop := by
  simp only [snippet, h.1, h.2]

theorem snippet_cases (source : Option (List UInt8)) (item : Json) :
    snippet source item = [] ∨
      ∃ bytes start stop, source = some bytes ∧ Located item start stop := by
  unfold snippet
  split
  case h_1 bytes start stop hstart hstop => exact .inr ⟨bytes, start, stop, rfl, hstart, hstop⟩
  case h_2 => exact .inl rfl

theorem notMem_snippet (hc : c ∈ marks) (source : Option (List UInt8)) (item : Json) :
    c ∉ snippet source item := by
  rcases snippet_cases source item with h | ⟨bytes, start, stop, rfl, h⟩
  · rw [h]
    exact List.not_mem_nil
  · rw [snippet_of_located h]
    exact notMem_excerpt hc bytes start stop

theorem length_snippet_le (source : Option (List UInt8)) (item : Json) :
    (snippet source item).length ≤ 33 := by
  rcases snippet_cases source item with h | ⟨bytes, start, stop, rfl, h⟩
  · rw [h]
    decide
  · rw [snippet_of_located h, excerpt_eq]
    exact length_abbreviate_le _

/-- A snippet stays on its line and within its length. It is empty if the instruction names no two
positions; otherwise the bytes between them, once they are moved into the source, are there, and
the snippet is their escaped text, up to thirty characters in full. -/
theorem snippet_escaped (source : String) (item : Json) :
    (∀ c ∈ marks, c ∉ snippet (some (Utf8.encode source)) item) ∧
    (snippet (some (Utf8.encode source)) item).length ≤ 33 ∧
    ((∀ start stop, ¬ Located item start stop) → snippet (some (Utf8.encode source)) item = []) ∧
    ∀ start stop, Located item start stop → ∃ bytes text,
      range? (Utf8.encode source) (clampedStart (Utf8.width source) start)
        (clampedStop (Utf8.width source) start stop) = some bytes ∧
      (∀ s, Utf8.Lenient bytes s ↔ s = text) ∧
      ((escaped text).length ≤ 30 →
        snippet (some (Utf8.encode source)) item = escaped text) ∧
      (30 < (escaped text).length →
        snippet (some (Utf8.encode source)) item = (escaped text).take 30 ++ "...".toList) := by
  refine ⟨fun c hc => notMem_snippet hc _ item, length_snippet_le _ item, fun hnone => ?nowhere,
    fun start stop h => ?located⟩
  case nowhere =>
    refine (snippet_cases _ item).resolve_right ?_
    rintro ⟨-, start, stop, -, h⟩
    exact hnone start stop h
  case located =>
    refine ⟨slice (Utf8.encode source) start stop, _, range?_clamped _ start stop,
      fun s => Utf8.lenient_iff, fun hshort => ?_, fun hlong => ?_⟩
    · rw [snippet_of_located h, excerpt_eq, abbreviate_of_le hshort]
    · rw [snippet_of_located h, excerpt_eq, abbreviate_of_lt hlong]

/-- Positions inside a character and behind the end. -/
example : snippet (some (Utf8.encode "é\n"))
    (.object [("begin", .ofNat 1), ("end", .ofNat 0xFFFFFFFFFFFFFFFF)]) =
      [Utf8.replacement, '\\', 'n'] := by decide

end SolidityHost.Assembly
