import Mathlib.Algebra.Ring.Nat
import SolidityHost.Proofs.Dict
import SolidityHost.Proofs.Json.Printable

/-!
# Layout of assembly trees

What a listing of a tree looks like, read off the tree: which lines it has, how far in each of them
stands, and in which order the subtrees come. The note of an instruction is left open.
-/

set_option autoImplicit false

namespace SolidityHost.Assembly

def code (fields : List (String × Json)) : List Json :=
  match fields.lookup ".code" with
  | some (.array items) => items
  | _ => []

def data (fields : List (String × Json)) : List (String × Json) :=
  match fields.lookup ".data" with
  | some (.object entries) => entries
  | _ => []

theorem sizeOf_lt_of_mem_data {fields : List (String × Json)} {e : String × Json}
    (h : e ∈ data fields) : sizeOf e.2 < sizeOf (Json.object fields) := by
  obtain ⟨entries, hentries, he⟩ : ∃ entries,
      fields.lookup ".data" = some (.object entries) ∧ e ∈ entries := by
    unfold data at h
    split at h
    next entries hentries => exact ⟨entries, hentries, h⟩
    next => contradiction
  have hfield := List.sizeOf_lt_of_mem (Entries.mem_of_get? hentries)
  have hentry := List.sizeOf_lt_of_mem he
  obtain ⟨key, tree⟩ := e
  simp only [Prod.mk.sizeOf_spec, Json.object.sizeOf_spec] at *
  omega

/-- How many lines a tree asks for: one if it is no object; otherwise two headings, one for each
instruction, and for each subtree its key and its own lines. -/
def lineCount : Json → Nat
  | .object fields =>
    2 + (code fields).length + ((data fields).attach.map fun e => 1 + lineCount e.1.2).sum
  | _ => 1
termination_by j => sizeOf j
decreasing_by exact sizeOf_lt_of_mem_data e.2

theorem lineCount_object (fields : List (String × Json)) : lineCount (.object fields) =
    2 + (code fields).length + ((data fields).map fun e => 1 + lineCount e.2).sum := by
  rw [lineCount, List.attach_map_val (l := data fields) (f := fun e => 1 + lineCount e.2)]

theorem lineCount_of_object?_eq_none {j : Json} (h : j.object? = none) : lineCount j = 1 := by
  cases j with
  | object => contradiction
  | null | bool | number | string | array => simp [lineCount]

/-- A tree is no object, or its subtrees are smaller ones. -/
@[elab_as_elim]
theorem tree_induction {motive : Json → Prop} (leaf : ∀ j, j.object? = none → motive j)
    (node : ∀ fields, (∀ e ∈ data fields, motive e.2) → motive (.object fields)) (j : Json) :
    motive j := by
  induction j using lineCount.induct with
  | case1 fields ih => exact node fields fun e he => ih ⟨e, he⟩
  | case2 j hj =>
    apply leaf
    cases j with
    | object fields => exact absurd rfl (hj fields)
    | null | bool | number | string | array => rfl

def Spells (key : String) (n : Nat) : Prop :=
  n < 2 ^ 64 ∧ ∃ digits, Text.IsRun digits ∧ Nat.ofDigitChars 10 digits 0 = n ∧
    (key.toList = digits ∨ key.toList = '+' :: digits)

/-- The first key may stand before the second: numbers do not decrease, and no key that is a number
stands behind one that is none, unless it is the greatest number. -/
def Before (a b : String) : Prop :=
  (∀ m n, Spells a m → Spells b n → m ≤ n) ∧
    ∀ n, Spells b n → n ≠ 2 ^ 64 - 1 → ∃ m, Spells a m

def words : Json → List Char
  | .null => []
  | .string s => s.toList
  | j => j.render

def wordsAt : Json → String → List Char
  | .object fields, key => ((fields.lookup key).map words).getD []
  | _, _ => []

def codeLine (note : Json → List Char) (depth : Nat) (item : Json) : List Char :=
  -- tags stand where the headings stand, other instructions two blanks further in
  List.replicate (4 * depth + if wordsAt item "name" = "tag".toList then 0 else 2) ' ' ++
    wordsAt item "name" ++ [' '] ++ wordsAt item "value" ++ ['\t', '\t', '\t'] ++ note item

def keyLine (depth : Nat) (key : String) : List Char :=
  List.replicate (4 * depth + 2) ' ' ++ key.toList ++ [':']

def heading (depth : Nat) (title : String) : List Char :=
  List.replicate (4 * depth) ' ' ++ title.toList

structure Part where
  key : String
  tree : Json
  lines : List (List Char)

/-- These are the lines of the tree at the depth: each subtree once, in order, under its key. -/
inductive Layout (note : Json → List Char) : Nat → Json → List (List Char) → Prop where
  | leaf {depth : Nat} {j : Json} (h : j.object? = none) :
    Layout note depth j [List.replicate (4 * depth) ' ' ++ words j]
  | node {depth : Nat} {fields : List (String × Json)} {ls : List (List Char)} (parts : List Part)
    (lines_eq : ls = heading depth ".code" :: ((code fields).map (codeLine note depth) ++
      heading depth ".data" :: parts.flatMap fun p => keyLine depth p.key :: p.lines))
    (once : (parts.map fun p => (p.key, p.tree)).Perm (data fields))
    (inOrder : parts.Pairwise fun p q => Before p.key q.key)
    (further : ∀ p ∈ parts, Layout note (depth + 1) p.tree p.lines)
    (indented : ∀ l ∈ ls, List.replicate (4 * depth) ' ' <+: l) :
    Layout note depth (.object fields) ls

inductive Unbroken : Json → Prop where
  | leaf {j : Json} (h : j.object? = none) (text : ∀ s, j = .string s → '\n' ∉ s.toList) : Unbroken j
  | node {fields : List (String × Json)}
    (items : ∀ item, .object item ∈ code fields → ∀ key ∈ ["name", "value"], ∀ s,
      item.lookup key = some (.string s) → '\n' ∉ s.toList)
    (keys : ∀ e ∈ data fields, '\n' ∉ e.1.toList)
    (further : ∀ e ∈ data fields, Unbroken e.2) : Unbroken (.object fields)

variable {note : Json → List Char} {depth : Nat} {key : String} {item j : Json}

theorem replicate_prefix_of_le {m n : Nat} (h : m ≤ n) (rest : List Char) :
    List.replicate m ' ' <+: List.replicate n ' ' ++ rest := by
  rw [← Nat.add_sub_cancel' h, ← List.replicate_append_replicate, List.append_assoc]
  exact List.prefix_append _ _

theorem replicate_prefix_heading (depth : Nat) (title : String) :
    List.replicate (4 * depth) ' ' <+: heading depth title :=
  List.prefix_append _ _

theorem replicate_prefix_keyLine (depth : Nat) (key : String) :
    List.replicate (4 * depth) ' ' <+: keyLine depth key := by
  rw [keyLine, List.append_assoc]
  exact replicate_prefix_of_le (Nat.le_add_right _ _) _

theorem replicate_prefix_codeLine (note : Json → List Char) (depth : Nat) (item : Json) :
    List.replicate (4 * depth) ' ' <+: codeLine note depth item := by
  simp only [codeLine, List.append_assoc]
  exact replicate_prefix_of_le (Nat.le_add_right _ _) _

theorem newline_notMem_words (h : ∀ s, j = .string s → '\n' ∉ s.toList) : '\n' ∉ words j := by
  cases j with
  | string s => exact h s rfl
  | null => exact List.not_mem_nil
  | bool | number | array | object => exact (Json.printable_render _).notMem (by decide)

theorem newline_notMem_wordsAt
    (h : ∀ fields s, item = .object fields → fields.lookup key = some (.string s) →
      '\n' ∉ s.toList) : '\n' ∉ wordsAt item key := by
  cases item with
  | null | bool | number | string | array => exact List.not_mem_nil
  | object fields =>
    rw [wordsAt]
    cases hfield : fields.lookup key with
    | none => exact List.not_mem_nil
    | some j => exact newline_notMem_words fun s hs => h fields s rfl (hs ▸ hfield)

theorem newline_notMem_heading (depth : Nat) {title : String} (h : '\n' ∉ title.toList) :
    '\n' ∉ heading depth title := by
  simp [heading, h]

theorem newline_notMem_keyLine (depth : Nat) (h : '\n' ∉ key.toList) :
    '\n' ∉ keyLine depth key := by
  simp [keyLine, h]

theorem newline_notMem_codeLine (depth : Nat) (hname : '\n' ∉ wordsAt item "name")
    (hvalue : '\n' ∉ wordsAt item "value") (hnote : '\n' ∉ note item) :
    '\n' ∉ codeLine note depth item := by
  simp [codeLine, hname, hvalue, hnote]

end SolidityHost.Assembly
