import SolidityHost.Proofs.Assembly.Layout
import SolidityHost.Proofs.Assembly.Snippet

/-!
# Lines of an assembly listing

A tree is listed line by line: its instructions between two headings, then each subtree under its
key, further in. Subtrees whose keys are numbers come first, in the order of their numbers. Source
text and JSON are escaped, so a listing has a line break too many only if a name, a value, a key or
a leaf brings one.
-/

set_option autoImplicit false

namespace SolidityHost.Assembly

theorem instructions_eq_code (fields : Entries Json) : instructions fields = code fields := by
  unfold instructions code Entries.get?
  rcases fields.lookup ".code" with _ | j
  · rfl
  · cases j <;> rfl

theorem display_eq_words (j : Json) : display j = words j := by
  cases j <;> rfl

theorem displayField_eq_wordsAt (item : Json) (key : String) :
    displayField item key = wordsAt item key := by
  cases item with
  | null | bool | number | string | array => rfl
  | object fields =>
    show ((fields.lookup key).map display).getD [] = ((fields.lookup key).map words).getD []
    rw [funext display_eq_words]

theorem blanks_indent (depth : Nat) :
    ' ' :: ' ' :: indent depth = List.replicate (4 * depth + 2) ' ' := rfl

theorem instruction_eq_codeLine (source : Option (List UInt8)) (depth : Nat) (item : Json) :
    instruction source depth item = codeLine (snippet source) depth item := by
  unfold instruction codeLine
  simp only [displayField_eq_wordsAt]
  split
  · simp [indent]
  · simp [← blanks_indent]

theorem entryLines_eq (source : Option (List UInt8)) (depth : Nat) (entries : Entries Json) :
    entryLines source depth entries =
      entries.map fun e => (e.1, lines source (depth + 1) e.2) := by
  induction entries with
  | nil => rfl
  | cons e rest ih => rw [entryLines, ih, List.map_cons]

theorem subtrees_eq (source : Option (List UInt8)) (depth : Nat) (fields : Entries Json) :
    subtrees source depth fields =
      (data fields).map fun e => (e.1, lines source (depth + 1) e.2) := by
  induction fields with
  | nil => rfl
  | cons e rest ih =>
    obtain ⟨key, j⟩ := e
    have hget : ((key, j) :: rest).lookup ".data" = _ := Entries.get?_cons (key, j) rest ".data"
    by_cases hkey : key = ".data"
    · rw [if_pos hkey.symm] at hget
      rw [data, hget]
      cases j with
      | object entries => rw [subtrees, if_pos hkey, entryLines_eq]
      | null | bool | number | string | array =>
        rw [subtrees, if_pos hkey]
        · rfl
        · simp
    · have hdata : data ((key, j) :: rest) = data rest := by
        rw [data, hget, if_neg (Ne.symm hkey)]
        rfl
      rw [hdata]
      cases j with
      | object entries => rw [subtrees, if_neg hkey, ih]
      | null | bool | number | string | array =>
        rw [subtrees, if_neg hkey, ih]
        simp

def unsigned (key : String) : List Char :=
  match key.toList with
  | '+' :: rest => rest
  | s => s

theorem unsigned_eq_iff {key : String} {digits : List Char} (h : Text.IsRun digits) :
    unsigned key = digits ↔ key.toList = digits ∨ key.toList = '+' :: digits := by
  have hplus : ∀ rest, digits ≠ '+' :: rest := by
    rintro rest rfl
    exact absurd (h.2 '+' List.mem_cons_self) (by decide)
  unfold unsigned
  split
  next rest hkey =>
    rw [hkey, List.cons_inj_right]
    exact ⟨.inr, fun hor => hor.resolve_left fun heq => hplus rest heq.symm⟩
  next hkey => exact ⟨.inl, fun hor => hor.resolve_right (hkey digits)⟩

theorem index?_eq_some_iff_unsigned {key : String} {n : Nat} : index? key = some n ↔
    Text.IsRun (unsigned key) ∧ Nat.ofDigitChars 10 (unsigned key) 0 = n ∧
      n < 0x10000000000000000 := by
  have hindex : index? key = if (unsigned key).isEmpty || !(unsigned key).all Char.isDigit ||
      decide (0x10000000000000000 ≤ (unsigned key).foldl (fun n c => n * 10 + (c.toNat - 0x30)) 0)
        then none else some ((unsigned key).foldl (fun n c => n * 10 + (c.toNat - 0x30)) 0) := rfl
  simp only [Text.foldl_eq_ofDigitChars] at hindex
  rw [hindex, Text.isRun_iff]
  cases (unsigned key).isEmpty <;> cases (unsigned key).all Char.isDigit <;> simp
  omega

theorem index?_eq_some_iff {key : String} {n : Nat} : index? key = some n ↔ Spells key n := by
  rw [index?_eq_some_iff_unsigned]
  constructor
  · rintro ⟨hrun, hvalue, hlt⟩
    exact ⟨hlt, unsigned key, hrun, hvalue, (unsigned_eq_iff hrun).1 rfl⟩
  · rintro ⟨hlt, digits, hrun, hvalue, hkey⟩
    rw [← unsigned_eq_iff hrun] at hkey
    exact ⟨hkey ▸ hrun, hkey ▸ hvalue, hlt⟩

theorem rank_of_spells {key : String} {n : Nat} (h : Spells key n) : rank key = n := by
  rw [rank, index?_eq_some_iff.2 h, Option.getD_some]

theorem rank_of_not_spells {key : String} (h : ¬ ∃ n, Spells key n) : rank key = 2 ^ 64 - 1 := by
  have hnone : index? key = none :=
    Option.eq_none_iff_forall_ne_some.2 fun n hn => h ⟨n, index?_eq_some_iff.1 hn⟩
  rw [rank, hnone]
  rfl

theorem precedes_iff {a b : String} :
    precedes a b = true ↔ rank a < rank b ∨ rank a = rank b ∧ a ≤ b := by
  simp [precedes]

theorem precedes_trans (a b c : String) (hab : precedes a b = true) (hbc : precedes b c = true) :
    precedes a c = true := by
  rw [precedes_iff] at *
  rcases hab with hab | ⟨hab, hle⟩
  · exact .inl (hbc.elim (Nat.lt_trans hab) fun h => h.1 ▸ hab)
  · rcases hbc with hbc | ⟨hbc, hle'⟩
    · exact .inl (hab ▸ hbc)
    · exact .inr ⟨hab.trans hbc, String.le_trans hle hle'⟩

theorem precedes_total (a b : String) : (precedes a b || precedes b a) = true := by
  rw [Bool.or_eq_true, precedes_iff, precedes_iff]
  rcases Nat.lt_trichotomy (rank a) (rank b) with h | h | h
  · exact .inl (.inl h)
  · exact (String.le_total a b).imp (fun hle => .inr ⟨h, hle⟩) fun hle => .inr ⟨h.symm, hle⟩
  · exact .inr (.inl h)

theorem before_of_precedes {a b : String} (h : precedes a b = true) : Before a b := by
  have hrank : rank a ≤ rank b := (precedes_iff.1 h).elim Nat.le_of_lt fun h => Nat.le_of_eq h.1
  constructor
  · intro m n hm hn
    rwa [rank_of_spells hm, rank_of_spells hn] at hrank
  · intro n hn hne
    have hlt := hn.1
    by_contra hnone
    rw [rank_of_not_spells hnone, rank_of_spells hn] at hrank
    omega

def ordered (fields : Entries Json) : Entries Json :=
  (data fields).mergeSort fun a b => precedes a.1 b.1

theorem ordered_perm (fields : Entries Json) : (ordered fields).Perm (data fields) :=
  List.mergeSort_perm ..

theorem pairwise_ordered (fields : Entries Json) :
    (ordered fields).Pairwise fun a b => Before a.1 b.1 := by
  have hsorted := List.pairwise_mergeSort
    (fun a b c : String × Json => precedes_trans a.1 b.1 c.1)
    (fun a b : String × Json => precedes_total a.1 b.1) (data fields)
  exact hsorted.imp before_of_precedes

theorem lines_object (source : Option (List UInt8)) (depth : Nat) (fields : Entries Json) :
    lines source depth (.object fields) =
      heading depth ".code" :: ((code fields).map (codeLine (snippet source) depth) ++
        heading depth ".data" :: (ordered fields).flatMap fun e =>
          keyLine depth e.1 :: lines source (depth + 1) e.2) := by
  have hsort : ((data fields).map fun e => (e.1, lines source (depth + 1) e.2)).mergeSort
      (fun a b => precedes a.1 b.1) =
        (ordered fields).map fun e => (e.1, lines source (depth + 1) e.2) :=
    (List.map_mergeSort (f := fun e : String × Json => (e.1, lines source (depth + 1) e.2))
      fun _ _ _ _ => rfl).symm
  rw [lines, sections, subtrees_eq, hsort, List.flatMap_map, instructions_eq_code,
    funext (instruction_eq_codeLine source depth)]
  rfl

theorem lines_of_object?_eq_none (source : Option (List UInt8)) (depth : Nat) {j : Json}
    (h : j.object? = none) :
    lines source depth j = [List.replicate (4 * depth) ' ' ++ words j] := by
  cases j with
  | object => contradiction
  | null | bool | number | string | array => rw [lines, display_eq_words, indent]

/-- What holds of each kind of line holds of all lines. -/
theorem forall_mem_lines_object {P : List Char → Prop} {source : Option (List UInt8)} {depth : Nat}
    {fields : Entries Json} (headings : ∀ title ∈ [".code", ".data"], P (heading depth title))
    (items : ∀ item ∈ code fields, P (codeLine (snippet source) depth item))
    (keys : ∀ e ∈ data fields, P (keyLine depth e.1))
    (further : ∀ e ∈ data fields, ∀ l ∈ lines source (depth + 1) e.2, P l) :
    ∀ l ∈ lines source depth (.object fields), P l := by
  intro l hl
  rw [lines_object, List.mem_cons, List.mem_append, List.mem_map, List.mem_cons,
    List.mem_flatMap] at hl
  rcases hl with rfl | ⟨item, hitem, rfl⟩ | rfl | ⟨e, he, hl⟩
  · exact headings ".code" (by simp)
  · exact items item hitem
  · exact headings ".data" (by simp)
  · have hmem := (ordered_perm fields).mem_iff.1 he
    rcases List.mem_cons.1 hl with rfl | hl
    · exact keys e hmem
    · exact further e hmem l hl

theorem replicate_prefix_lines (source : Option (List UInt8)) (depth : Nat) (tree : Json) :
    ∀ l ∈ lines source depth tree, List.replicate (4 * depth) ' ' <+: l := by
  induction tree using tree_induction generalizing depth with
  | node fields ih =>
    refine forall_mem_lines_object ?_ ?_ ?_ ?_
    · exact fun title _ => replicate_prefix_heading depth title
    · exact fun item _ => replicate_prefix_codeLine _ depth item
    · exact fun e _ => replicate_prefix_keyLine depth e.1
    · intro e he l hl
      obtain ⟨rest, rfl⟩ := ih e he (depth + 1) l hl
      exact replicate_prefix_of_le (by omega) rest
  | leaf j hj =>
    rw [lines_of_object?_eq_none source depth hj]
    intro l hl
    rw [List.mem_singleton.1 hl]
    exact List.prefix_append _ _

theorem layout_lines (source : Option (List UInt8)) (depth : Nat) (tree : Json) :
    Layout (snippet source) depth tree (lines source depth tree) := by
  induction tree using tree_induction generalizing depth with
  | node fields ih =>
    let part (e : String × Json) : Part := ⟨e.1, e.2, lines source (depth + 1) e.2⟩
    have hid : (ordered fields).map (fun e => (e.1, e.2)) = ordered fields := List.map_id _
    refine .node ((ordered fields).map part) ?_ ?_ ?_ ?_ (replicate_prefix_lines source depth _)
    · rw [lines_object, List.flatMap_map]
    · rw [List.map_map]
      exact hid.symm ▸ ordered_perm fields
    · exact List.pairwise_map.2 (pairwise_ordered fields)
    · intro p hp
      obtain ⟨e, he, rfl⟩ := List.mem_map.1 hp
      exact ih e ((ordered_perm fields).mem_iff.1 he) (depth + 1)
  | leaf j hj =>
    rw [lines_of_object?_eq_none source depth hj]
    exact .leaf hj

/-- Every layout of a tree has as many lines as the tree asks for. -/
theorem Layout.length_eq {note : Json → List Char} {depth : Nat} {tree : Json}
    {ls : List (List Char)} (h : Layout note depth tree ls) : ls.length = lineCount tree := by
  induction h with
  | leaf hnone => rw [lineCount_of_object?_eq_none hnone, List.length_singleton]
  | @node depth fields ls parts hls honce _ _ _ ih =>
    have hblock : ∀ p ∈ parts,
        (keyLine depth p.key :: p.lines).length = 1 + lineCount p.tree := by
      intro p hp
      rw [List.length_cons, ih p hp, Nat.add_comm]
    have hsum := (honce.map fun e => 1 + lineCount e.2).sum_nat
    rw [List.map_map] at hsum
    rw [hls, lineCount_object, List.length_cons, List.length_append, List.length_map,
      List.length_cons, List.length_flatMap, List.map_congr_left hblock, ← hsum]
    simp only [Function.comp_def]
    omega

theorem newline_notMem_lines (source : Option (List UInt8)) {tree : Json} (h : Unbroken tree)
    (depth : Nat) : ∀ l ∈ lines source depth tree, '\n' ∉ l := by
  induction h generalizing depth with
  | leaf hnone htext =>
    rw [lines_of_object?_eq_none source depth hnone]
    simpa using newline_notMem_words htext
  | @node fields hitems hkeys _ ih =>
    refine forall_mem_lines_object ?_ ?_ ?_ ?_
    · intro title htitle
      refine newline_notMem_heading depth ?_
      rcases List.mem_pair.1 htitle with rfl | rfl <;> simp
    · intro item hitem
      have hfield : ∀ key ∈ ["name", "value"], '\n' ∉ wordsAt item key := fun key hkey =>
        newline_notMem_wordsAt fun fields s hobject => hitems fields (hobject ▸ hitem) key hkey s
      exact newline_notMem_codeLine depth (hfield "name" (by simp)) (hfield "value" (by simp))
        (notMem_snippet (by decide) source item)
    · exact fun e he => newline_notMem_keyLine depth (hkeys e he)
    · exact fun e he => ih e he (depth + 1)

theorem splitOn_flatMap_newline {ls : List (List Char)} (h : ∀ l ∈ ls, '\n' ∉ l) :
    (ls.flatMap fun l => l ++ ['\n']).splitOn '\n' = ls ++ [[]] := by
  induction ls with
  | nil => rfl
  | cons l ls ih =>
    obtain ⟨hl, hls⟩ := List.forall_mem_cons.1 h
    rw [List.flatMap_cons, List.append_assoc, List.singleton_append,
      List.splitOn_append_cons_self_of_not_mem hl, ih hls, List.cons_append]

theorem getLast?_flatMap_newline {ls : List (List Char)} (h : ls ≠ []) :
    (ls.flatMap fun l => l ++ ['\n']).getLast? = some '\n' := by
  rw [← List.dropLast_concat_getLast h, List.flatMap_append, List.flatMap_singleton,
    ← List.append_assoc, List.getLast?_concat]

/-- A listing is made of the lines that the tree asks for, each ending in a line break. -/
theorem listing_layout {tree : Json} (h : Unbroken tree) (source : Option String) :
    ∃ ls, Layout (snippet (source.map Utf8.encode)) 0 tree ls ∧ ls.length = lineCount tree ∧
      (listing tree source).toList.splitOn '\n' = ls ++ [[]] ∧
      (listing tree source).toList.getLast? = some '\n' := by
  have hbreaks := newline_notMem_lines (source.map Utf8.encode) h 0
  have hlayout := layout_lines (source.map Utf8.encode) 0 tree
  have hne : lines (source.map Utf8.encode) 0 tree ≠ [] := by
    cases tree <;> simp [lines]
  refine ⟨_, hlayout, hlayout.length_eq, ?_, ?_⟩
  · rw [listing, String.toList_ofList, splitOn_flatMap_newline hbreaks]
  · rw [listing, String.toList_ofList, getLast?_flatMap_newline hne]

def nested : Json :=
  .object [
    (".code", .array [
      .object [("begin", .ofNat 0), ("end", .ofNat 3), ("name", .string "PUSH"),
        ("value", .string "80")],
      .object [("name", .string "tag"), ("value", .array [.string "1\n"])]]),
    (".data", .object [
      ("+2", .object [(".code", .array [.object [("name", .string "STOP")]])]),
      ("10", .string "c0ffee"),
      ("9", .null),
      ("aux", .string "")])]

def nestedLines : List String :=
  [".code", "  PUSH 80\t\t\ta\\nb", "tag [\"1\\n\"]\t\t\t", ".data", "  +2:", "    .code",
    "      STOP \t\t\t", "    .data", "  9:", "    ", "  10:", "    c0ffee", "  aux:", "    "]

theorem unbroken_nested : Unbroken nested := by
  have stop : Unbroken (.object [(".code", .array [.object [("name", .string "STOP")]])]) := by
    refine .node ?_ nofun nofun
    simp [code, List.lookup_cons]
  refine .node ?_ ?_ ?_
  · simp [code, List.lookup_cons]
  · simp [data, List.lookup_cons]
  · show ∀ e ∈ [("+2", _), ("10", _), ("9", _), ("aux", _)], Unbroken e.2
    simp only [List.forall_mem_cons]
    exact ⟨stop, .leaf rfl (by simp), .leaf rfl nofun, .leaf rfl (by simp), nofun⟩

theorem mergeSort_nested {α : Type} (two ten nine aux : α) :
    List.mergeSort [("+2", two), ("10", ten), ("9", nine), ("aux", aux)]
        (fun a b => precedes a.1 b.1) = [("+2", two), ("9", nine), ("10", ten), ("aux", aux)] := by
  have htwoTen : precedes "+2" "10" = true := by decide
  have hnineAux : precedes "9" "aux" = true := by decide
  have htwoNine : precedes "+2" "9" = true := by decide
  have htenNine : precedes "10" "9" = false := by decide
  have htenAux : precedes "10" "aux" = true := by decide
  simp [List.mergeSort, List.MergeSort.Internal.splitInTwo, htwoTen, hnineAux, htwoNine, htenNine,
    htenAux]

theorem lines_nested :
    lines (some (Utf8.encode "a\nb")) 0 nested = nestedLines.map String.toList := by
  rw [nested, lines, subtrees, if_neg (by decide), subtrees, if_pos rfl]
  · simp only [entryLines, sections, mergeSort_nested]
    decide +kernel
  · nofun

theorem listing_layout_nested : Unbroken nested ∧ lineCount nested = 14 ∧
    Layout (snippet (some (Utf8.encode "a\nb"))) 0 nested (nestedLines.map String.toList) ∧
    (listing nested (some "a\nb")).toList.splitOn '\n' = nestedLines.map String.toList ++ [[]] := by
  obtain ⟨ls, hlayout, hcount, hsplit, -⟩ := listing_layout unbroken_nested (some "a\nb")
  have hls : ls = nestedLines.map String.toList := by
    have hlisting : (listing nested (some "a\nb")).toList =
        (nestedLines.map String.toList).flatMap fun l => l ++ ['\n'] := by
      rw [← lines_nested, listing, String.toList_ofList, Option.map_some]
    rw [hlisting, splitOn_flatMap_newline (by decide)] at hsplit
    exact (List.append_cancel_right hsplit).symm
  subst hls
  exact ⟨unbroken_nested, hcount.symm, hlayout, hsplit⟩

end SolidityHost.Assembly
