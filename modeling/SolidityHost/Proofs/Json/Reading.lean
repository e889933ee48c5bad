import SolidityHost.Json.Reader
import SolidityHost.Proofs.Dict
import SolidityHost.Proofs.Json.Order
import SolidityHost.Proofs.Json.Scalar

/-!
# Text of values that reads back

The text of a value is read back as the value with all fields in key order, if it nests no more
containers than the reader takes and all its doubles read back. So a value that was read before,
whose fields are in order, comes back as it was.
-/

set_option autoImplicit false

namespace SolidityHost.Json

mutual

def sorted : Json → Json
  | .array items => .array (sortedItems items)
  | .object fields => .object (Entries.ofList (sortedFields fields))
  | j => j

def sortedItems : List Json → List Json
  | [] => []
  | j :: rest => sorted j :: sortedItems rest

def sortedFields : List (String × Json) → List (String × Json)
  | [] => []
  | (key, j) :: rest => (key, sorted j) :: sortedFields rest

end

theorem sortedItems_eq (items : List Json) : sortedItems items = items.map sorted := by
  induction items with
  | nil => rfl
  | cons j rest ih => rw [sortedItems, ih, List.map_cons]

theorem sortedFields_eq (fields : List (String × Json)) :
    sortedFields fields = fields.map fun e => (e.1, sorted e.2) := by
  induction fields with
  | nil => rfl
  | cons e rest ih => rw [sortedFields, ih, List.map_cons]

theorem sorted_array (items : List Json) :
    sorted (.array items) = .array (items.map sorted) := by
  rw [sorted, sortedItems_eq]

theorem sorted_object (fields : List (String × Json)) :
    sorted (.object fields) = .object (Entries.ofList (fields.map fun e => (e.1, sorted e.2))) := by
  rw [sorted, sortedFields_eq]

/-- The value nests at most so many containers, and every number in it reads back. -/
inductive Readable : Nat → Json → Prop
  | null (n : Nat) : Readable n .null
  | bool (n : Nat) (b : Bool) : Readable n (.bool b)
  | number (n : Nat) {x : Number} (h : x.ReadsBack) : Readable n (.number x)
  | string (n : Nat) (s : String) : Readable n (.string s)
  | array {n : Nat} {items : List Json} (h : ∀ j ∈ items, Readable n j) :
      Readable (n + 1) (.array items)
  | object {n : Nat} {fields : Entries Json} (h : ∀ e ∈ fields, Readable n e.2) :
      Readable (n + 1) (.object fields)

theorem Readable.single {n : Nat} {j : Json} (h : Readable n j) (key : String) :
    Readable (n + 1) (.object [(key, j)]) :=
  .object (List.forall_mem_singleton.2 h)

theorem tokens?_punctuation {c : Char} {t : Token} (h : punctuation? c = some t)
    (rest : List Char) : tokens? (c :: rest) = (tokens? rest).map (t :: ·) := by
  have hgap : ¬ isGap c := by
    intro hc
    simp only [isGap, Bool.or_eq_true, decide_eq_true_eq] at hc
    obtain ((rfl | rfl) | rfl) | rfl := hc <;> exact nomatch h
  rw [tokens?, if_neg hgap, h]

theorem tokens?_scalar {s rest : List Char} {j : Json} (h : scalar? s = some (j, rest))
    (hs : ∃ c r, s = c :: r ∧ ¬ isGap c ∧ punctuation? c = none) :
    tokens? s = (tokens? rest).map (.scalar j :: ·) := by
  obtain ⟨c, r, rfl, hgap, hpunctuation⟩ := hs
  rw [tokens?, if_neg hgap, hpunctuation]
  dsimp only
  split
  · next heq => cases h.symm.trans heq
  · next r' heq =>
    obtain rfl := Option.some.inj (h.symm.trans heq)
    rfl

theorem tokens?_quote (s : String) (rest : List Char) :
    tokens? (quote s.toList ++ rest) = (tokens? rest).map (.scalar (.string s) :: ·) := by
  refine tokens?_scalar (scalar?_quote s rest) ⟨'"', s.toList.flatMap escapeChar ++ '"' :: rest, ?_⟩
  refine ⟨by simp [quote], by decide, rfl⟩

structure Spells (n : Nat) (j : Json) (ts : List Token) : Prop where
  starts : ∃ t rest, ts = t :: rest ∧ ¬ t matches .closeArray
  tokens?_eq : ∀ rest, Ends rest → tokens? (j.render ++ rest) = (tokens? rest).map (ts ++ ·)
  read_eq : ∀ stack more, stack.length + n ≤ maxNesting →
    read stack .value (ts ++ more) = read stack (.behind j.sorted) more

theorem spells_scalar (n : Nat) {j : Json} (hs : j.sorted = j)
    (ht : ∀ rest, Ends rest → tokens? (j.render ++ rest) = (tokens? rest).map (.scalar j :: ·)) :
    Spells n j [.scalar j] where
  starts := ⟨_, _, rfl, nofun⟩
  tokens?_eq := ht
  read_eq stack more _ := by
    rw [hs, List.singleton_append]
    simp only [read]

theorem ends_comma (rest : List Char) : Ends (',' :: rest) := by
  rintro _ ⟨rfl⟩
  exact .inl rfl

theorem ends_closeArray (rest : List Char) : Ends (']' :: rest) := by
  rintro _ ⟨rfl⟩
  exact .inr (.inl rfl)

theorem ends_closeObject (rest : List Char) : Ends ('\x7d' :: rest) := by
  rintro _ ⟨rfl⟩
  exact .inr (.inr rfl)

theorem read_firstItem (stack : List Frame) {t : Token} (ht : ¬ t matches .closeArray)
    (rest : List Token) :
    read stack .firstItem (t :: rest) = read (.array [] :: stack) .value (t :: rest) := by
  cases t with
  | closeArray => exact absurd rfl ht
  | _ => simp only [read, List.length_cons]

theorem exists_items {n : Nat} {items : List Json} (hne : items ≠ [])
    (h : ∀ j ∈ items, ∃ ts, Spells n j ts) :
    ∃ ts, (∃ t rest, ts = t :: rest ∧ ¬ t matches .closeArray) ∧
      (∀ rest, tokens? (renderItems items ++ rest) = (tokens? rest).map (ts ++ ·)) ∧
      ∀ stack before more, stack.length + 1 + n ≤ maxNesting →
        read (.array before :: stack) .value (ts ++ more) =
          read stack (.behind (.array (before.reverse ++ items.map sorted))) more := by
  induction items with
  | nil => contradiction
  | cons j items ih =>
    obtain ⟨hj, hitems⟩ := List.forall_mem_cons.1 h
    obtain ⟨ts, hts⟩ := hj
    obtain ⟨t, after, rfl, ht⟩ := hts.starts
    cases items with
    | nil =>
      refine ⟨t :: after ++ [.closeArray], ⟨t, _, rfl, ht⟩, fun rest => ?_,
        fun stack before more hn => ?_⟩
      · rw [renderItems, List.append_assoc, List.singleton_append,
          hts.tokens?_eq _ (ends_closeArray rest), tokens?_punctuation rfl]
        cases tokens? rest <;> simp
      · rw [List.append_assoc, hts.read_eq (_ :: stack) _ hn]
        simp [read]
    | cons k items =>
      obtain ⟨us, -, hus, hread⟩ := ih (List.cons_ne_nil _ _) hitems
      refine ⟨t :: after ++ .comma :: us, ⟨t, _, rfl, ht⟩, fun rest => ?_,
        fun stack before more hn => ?_⟩
      · rw [renderItems, List.append_assoc, List.cons_append, hts.tokens?_eq _ (ends_comma _),
          tokens?_punctuation rfl, hus]
        · cases tokens? rest <;> simp
        · exact List.cons_ne_nil _ _
      · rw [List.append_assoc, hts.read_eq (_ :: stack) _ hn, List.cons_append]
        simp only [read]
        rw [hread _ _ _ hn]
        simp

theorem exists_fields {n : Nat} {fields : Entries Json} (hne : fields ≠ [])
    (h : ∀ e ∈ fields, ∃ ts, Spells n e.2 ts) :
    ∃ key ts, (∀ rest, tokens? (renderFields fields ++ rest) =
        (tokens? rest).map (.scalar (.string key) :: .colon :: ts ++ ·)) ∧
      ∀ stack before more, stack.length + 1 + n ≤ maxNesting →
        read (.object before key :: stack) .value (ts ++ more) =
          read stack (.behind (.object ((fields.map fun e => (e.1, sorted e.2)).foldl
            (fun es p => Entries.insert p.1 p.2 es) before))) more := by
  induction fields with
  | nil => contradiction
  | cons e fields ih =>
    obtain ⟨key, j⟩ := e
    obtain ⟨⟨ts, hts⟩, hfields⟩ := List.forall_mem_cons.1 h
    have hfront (s : List Char) : tokens? (quote key.toList ++ ':' :: s) =
        (tokens? s).map (.scalar (.string key) :: .colon :: ·) := by
      rw [tokens?_quote, tokens?_punctuation rfl, Option.map_map]
      rfl
    cases fields with
    | nil =>
      refine ⟨key, ts ++ [.closeObject], fun rest => ?_, fun stack before more hn => ?_⟩
      · have htext : renderFields [(key, j)] ++ rest =
            quote key.toList ++ ':' :: (j.render ++ '\x7d' :: rest) := by simp [renderFields]
        rw [htext, hfront, hts.tokens?_eq _ (ends_closeObject rest), tokens?_punctuation rfl]
        cases tokens? rest <;> simp
      · rw [List.append_assoc, hts.read_eq (_ :: stack) _ hn]
        simp [read]
    | cons f fields =>
      obtain ⟨next, us, hus, hread⟩ := ih (List.cons_ne_nil _ _) hfields
      refine ⟨key, ts ++ .comma :: .scalar (.string next) :: .colon :: us, fun rest => ?_,
        fun stack before more hn => ?_⟩
      · have htext : renderFields ((key, j) :: f :: fields) ++ rest =
            quote key.toList ++ ':' ::
              (j.render ++ ',' :: (renderFields (f :: fields) ++ rest)) := by
          simp [renderFields]
        rw [htext, hfront, hts.tokens?_eq _ (ends_comma _), tokens?_punctuation rfl, hus]
        cases tokens? rest <;> simp
      · rw [List.append_assoc, hts.read_eq (_ :: stack) _ hn]
        simp only [List.cons_append, read]
        rw [hread _ _ _ hn]
        rfl

theorem Number.ReadsBack.readable_start {x : Number} (h : x.ReadsBack) (rest : List Char) :
    ∃ c s, x.render ++ rest = c :: s ∧ ¬ isGap c ∧ punctuation? c = none := by
  obtain ⟨c, s, hs, hc⟩ := h.starts
  have hother : [' ', '\t', '\n', '\r', '[', ']', '\x7b', '\x7d', ':', ','].all
      fun d => d != '-' && !d.isDigit := rfl
  have hne : ∀ d ∈ [' ', '\t', '\n', '\r', '[', ']', '\x7b', '\x7d', ':', ','], c ≠ d := by
    rintro d hd rfl
    have hd := List.all_eq_true.1 hother c hd
    rcases hc with rfl | hc
    · contradiction
    · simp [hc] at hd
  exact ⟨c, s ++ rest, by rw [hs]; rfl, by simp [isGap, hne], by simp [punctuation?, hne]⟩

theorem Readable.exists_spells {n : Nat} {j : Json} (h : Readable n j) : ∃ ts, Spells n j ts := by
  induction h with
  | null n =>
    exact ⟨_, spells_scalar n rfl fun rest _ => tokens?_scalar rfl ⟨_, _, rfl, by decide, rfl⟩⟩
  | bool n b =>
    refine ⟨_, spells_scalar n rfl fun rest _ => ?_⟩
    cases b <;> exact tokens?_scalar rfl ⟨_, _, rfl, by decide, rfl⟩
  | number n hx =>
    exact ⟨_, spells_scalar n rfl fun rest hrest =>
      tokens?_scalar (scalar?_render hx hrest) (hx.readable_start rest)⟩
  | string n s => exact ⟨_, spells_scalar n rfl fun rest _ => tokens?_quote s rest⟩
  | @array n items h ih =>
    by_cases hitems : items = []
    · subst hitems
      refine ⟨[.openArray, .closeArray], ⟨_, _, rfl, Bool.false_ne_true⟩, fun rest _ => ?_,
        fun stack more hn => ?_⟩
      · show tokens? ('[' :: ']' :: rest) = _
        rw [tokens?_punctuation rfl, tokens?_punctuation rfl, Option.map_map]
        rfl
      · simp only [List.cons_append, List.nil_append, read,
          if_pos (by omega : stack.length < maxNesting)]
        rfl
    · obtain ⟨ts, ⟨t, after, rfl, ht⟩, htokens, hread⟩ := exists_items hitems ih
      refine ⟨.openArray :: t :: after, ⟨_, _, rfl, Bool.false_ne_true⟩, fun rest _ => ?_,
        fun stack more hn => ?_⟩
      · show tokens? ('[' :: (renderItems items ++ rest)) = _
        rw [tokens?_punctuation rfl, htokens, Option.map_map]
        rfl
      · have hfirst := read_firstItem stack ht (after ++ more)
        have hrest := hread stack [] more (by omega)
        rw [sorted_array]
        simp only [List.cons_append, read, if_pos (by omega : stack.length < maxNesting)]
        rw [hfirst]
        exact hrest
  | @object n fields h ih =>
    by_cases hfields : fields = []
    · subst hfields
      refine ⟨[.openObject, .closeObject], ⟨_, _, rfl, Bool.false_ne_true⟩, fun rest _ => ?_,
        fun stack more hn => ?_⟩
      · show tokens? ('\x7b' :: '\x7d' :: rest) = _
        rw [tokens?_punctuation rfl, tokens?_punctuation rfl, Option.map_map]
        rfl
      · simp only [List.cons_append, List.nil_append, read,
          if_pos (by omega : stack.length < maxNesting)]
        rfl
    · obtain ⟨key, ts, htokens, hread⟩ := exists_fields hfields ih
      refine ⟨.openObject :: .scalar (.string key) :: .colon :: ts, ⟨_, _, rfl, Bool.false_ne_true⟩,
        fun rest _ => ?_, fun stack more hn => ?_⟩
      · show tokens? ('\x7b' :: (renderFields fields ++ rest)) = _
        rw [tokens?_punctuation rfl, htokens, Option.map_map]
        rfl
      · have hrest := hread stack [] more (by omega)
        rw [sorted_object]
        simp only [List.cons_append, read, if_pos (by omega : stack.length < maxNesting)]
        exact hrest

/-- The text of a value is read as the value with its fields in key order. -/
theorem parse?_toText {j : Json} (h : Readable maxNesting j) : parse? j.toText = some j.sorted := by
  obtain ⟨ts, hts⟩ := h.exists_spells
  have htokens := hts.tokens?_eq [] nofun
  have hread := hts.read_eq [] [] (Nat.le_of_eq (Nat.zero_add _))
  rw [List.append_nil] at htokens hread
  rw [parse?, toText, String.toList_ofList, parseChars?, htokens, tokens?, Option.map_some,
    List.append_nil, Option.bind_some, hread]
  simp only [read]

theorem sorted_of_inOrder {j : Json} (h : j.InOrder) : j.sorted = j := by
  induction h with
  | array h ih =>
    rw [sorted_array]
    exact congrArg _ ((List.map_congr_left ih).trans (List.map_id _))
  | @object fields ho h ih =>
    have hfields : (fields.map fun e => (e.1, e.2.sorted)) = fields := by
      refine (List.map_congr_left fun e he => ?_).trans (List.map_id _)
      rw [ih e he]
      rfl
    rw [sorted_object, hfields, Entries.ofList_of_ordered ho]
  | _ => rfl

end SolidityHost.Json
