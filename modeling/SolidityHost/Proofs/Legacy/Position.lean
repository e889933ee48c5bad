import SolidityHost.Legacy.Diagnostic

/-!
# Positions in messages

An old compiler puts a position and a kind in front of the text of a message. A line is read as a
position, a kind and a rest in the one way whose file part is longest and whose rest has no colon.
So the kind of a message is the one in front of its text if the first line of the text has no colon;
a colon there becomes a part of the kind, and a position there takes the place of the first one.
-/

set_option autoImplicit false

namespace SolidityHost.Legacy

def IsNumber (s : List Char) : Prop := s ≠ [] ∧ ∀ c ∈ s, Text.isDecimalDigit c = true

/-- The line reads `file:line:column:kind:`, and there is no colon behind that. -/
def Reads (s file kind : List Char) : Prop :=
  ∃ line column rest,
    s = file ++ ':' :: (line ++ ':' :: (column ++ ':' :: (kind ++ ':' :: rest))) ∧
      IsNumber line ∧ IsNumber column ∧ ':' ∉ rest

/-- No other reading of the line has a longer file part. -/
def ReadsLast (s file kind : List Char) : Prop :=
  Reads s file kind ∧ ∀ file' kind', Reads s file' kind' → file'.length ≤ file.length

def firstLine (s : List Char) : List Char := s.takeWhile (· ≠ '\n')

variable {s rest kind number : List Char}

theorem IsNumber.ne (h : IsNumber number) {c : Char} (hc : Text.isDecimalDigit c = false) :
    c ∉ number := by
  intro hmem
  rw [h.2 c hmem] at hc
  contradiction

theorem IsNumber.colon_notMem (h : IsNumber number) : ':' ∉ number := h.ne (by decide)

theorem afterNumber?_of_number (h : IsNumber number)
    (hrest : ∀ c ∈ rest.head?, Text.isDecimalDigit c = false) :
    afterNumber? (':' :: (number ++ rest)) = some rest := by
  have htake : (number ++ rest).takeWhile Text.isDecimalDigit = number := by
    rw [List.takeWhile_append_of_pos h.2]
    cases rest with
    | nil => simp
    | cons c rest => simp [hrest c rfl]
  have hdrop : (number ++ rest).dropWhile Text.isDecimalDigit = rest := by
    rw [List.dropWhile_append_of_pos h.2]
    cases rest with
    | nil => simp
    | cons c rest => simp [hrest c rfl]
  have hne : number.isEmpty = false := by simpa using h.1
  simp [afterNumber?, htake, hdrop, hne]

theorem afterNumber?_of_colon (h : IsNumber number) (s : List Char) :
    afterNumber? (':' :: (number ++ ':' :: s)) = some (':' :: s) := by
  apply afterNumber?_of_number h
  intro c hc
  obtain rfl := Option.some.inj hc
  decide

theorem exists_number_of_afterNumber? (h : afterNumber? s = some rest) :
    ∃ number, IsNumber number ∧ s = ':' :: (number ++ rest) := by
  unfold afterNumber? at h
  split at h
  · next s =>
    split at h
    · contradiction
    · next hne =>
      obtain rfl := Option.some.inj h
      refine ⟨s.takeWhile Text.isDecimalDigit, ⟨by simpa using hne, ?_⟩, ?_⟩
      · exact List.all_eq_true.1 List.all_takeWhile
      · rw [List.takeWhile_append_dropWhile]
  · contradiction

theorem afterNumber?_of_ne {c : Char} (h : c ≠ ':') : afterNumber? (c :: s) = none := by
  unfold afterNumber?
  split
  · next heq => exact absurd (List.cons.inj heq).1 h
  · rfl

theorem afterNumber?_of_blank {c : Char} (h : Text.isDecimalDigit c = false) :
    afterNumber? (':' :: c :: s) = none := by
  simp [afterNumber?, h]

theorem kindAt?_eq_some_iff : kindAt? s = some kind ↔ Reads s [] kind := by
  constructor
  · intro h
    simp only [kindAt?, Option.bind_eq_bind, Option.bind_eq_some_iff] at h
    obtain ⟨s₁, h₁, s₂, h₂, h₃⟩ := h
    obtain ⟨line, hline, rfl⟩ := exists_number_of_afterNumber? h₁
    obtain ⟨column, hcolumn, rfl⟩ := exists_number_of_afterNumber? h₂
    split at h₃
    · next s₃ =>
      obtain ⟨⟨front, back⟩, hsplit, hkind⟩ := Option.bind_eq_some_iff.1 h₃
      obtain rfl := Option.some.inj hkind
      obtain ⟨rfl, hback⟩ := Text.splitLast?_eq_some_iff.1 hsplit
      exact ⟨line, column, back, rfl, hline, hcolumn, hback⟩
    · contradiction
  · rintro ⟨line, column, rest, rfl, hline, hcolumn, hrest⟩
    have h₁ := afterNumber?_of_colon hline (column ++ ':' :: (kind ++ ':' :: rest))
    have h₂ := afterNumber?_of_colon hcolumn (kind ++ ':' :: rest)
    simp [kindAt?, h₁, h₂, Text.splitLast?_of_notMem hrest]

theorem reads_cons_iff {c d : Char} {file : List Char} :
    Reads (c :: s) (d :: file) kind ↔ c = d ∧ Reads s file kind := by
  simp [Reads, and_assoc]

theorem not_reads_nil (file : List Char) : ¬ Reads [] file kind := by
  rintro ⟨line, column, rest, h, -⟩
  simp at h

theorem kindIn?_cons (c : Char) (s : List Char) :
    kindIn? (c :: s) = (kindIn? s).or (kindAt? (c :: s)) := by
  rw [kindIn?]
  cases kindIn? s <;> rfl

theorem kindIn?_eq_none_iff : kindIn? s = none ↔ ∀ file kind, ¬ Reads s file kind := by
  induction s with
  | nil => simp [kindIn?, not_reads_nil]
  | cons c s ih =>
    rw [kindIn?_cons, Option.or_eq_none_iff, ih, Option.eq_none_iff_forall_ne_some]
    constructor
    · rintro ⟨hrest, hhead⟩ file kind h
      cases file with
      | nil => exact hhead kind (kindAt?_eq_some_iff.2 h)
      | cons d file => exact hrest file kind (reads_cons_iff.1 h).2
    · intro h
      constructor
      · exact fun file kind hr => h (c :: file) kind (reads_cons_iff.2 ⟨rfl, hr⟩)
      · exact fun kind hk => h [] kind (kindAt?_eq_some_iff.1 hk)

/-- The kind that is found is that of the reading with the longest file part. -/
theorem kindIn?_eq_some_iff : kindIn? s = some kind ↔ ∃ file, ReadsLast s file kind := by
  induction s generalizing kind with
  | nil => simp [kindIn?, ReadsLast, not_reads_nil]
  | cons c s ih =>
    rw [kindIn?_cons]
    cases hs : kindIn? s with
    | some found =>
      rw [Option.some_or, ← hs, @ih kind]
      constructor
      · rintro ⟨file, hr, hlast⟩
        refine ⟨c :: file, reads_cons_iff.2 ⟨rfl, hr⟩, fun file' kind' h => ?_⟩
        cases file' with
        | nil => exact Nat.zero_le _
        | cons d file' => exact Nat.succ_le_succ (hlast file' kind' (reads_cons_iff.1 h).2)
      · rintro ⟨file, hr, hlast⟩
        -- a reading of the rest makes the file part of the last one longer than nothing
        obtain ⟨file₀, h₀, -⟩ := ih.1 hs
        have hlen := hlast (c :: file₀) found (reads_cons_iff.2 ⟨rfl, h₀⟩)
        cases file with
        | nil => simp at hlen
        | cons d file =>
          refine ⟨file, (reads_cons_iff.1 hr).2, fun file' kind' h => ?_⟩
          exact Nat.le_of_succ_le_succ (hlast (d :: file') kind'
            (reads_cons_iff.2 ⟨(reads_cons_iff.1 hr).1, h⟩))
    | none =>
      have hnone := kindIn?_eq_none_iff.1 hs
      rw [Option.none_or, kindAt?_eq_some_iff]
      constructor
      · intro h
        refine ⟨[], h, fun file' kind' h' => ?_⟩
        cases file' with
        | nil => exact Nat.le_refl _
        | cons d file' => exact absurd (reads_cons_iff.1 h').2 (hnone file' kind')
      · rintro ⟨file, h, -⟩
        cases file with
        | nil => exact h
        | cons d file => exact absurd (reads_cons_iff.1 h).2 (hnone file kind)

theorem kindIn?_append_of_noColon {front : List Char} (h : ':' ∉ front) :
    kindIn? (front ++ s) = kindIn? s := by
  induction front with
  | nil => rfl
  | cons c front ih =>
    obtain ⟨hc, hfront⟩ : ':' ≠ c ∧ ':' ∉ front := by simpa using h
    have hnone : kindAt? (c :: (front ++ s)) = none := by
      simp [kindAt?, afterNumber?_of_ne (Ne.symm hc)]
    rw [List.cons_append, kindIn?_cons, hnone, Option.or_none, ih hfront]

theorem kindIn?_append_of_some (front : List Char) (h : kindIn? s = some kind) :
    kindIn? (front ++ s) = some kind := by
  induction front with
  | nil => exact h
  | cons c front ih => rw [List.cons_append, kindIn?_cons, ih, Option.some_or]

theorem kindIn?_colon_blank (s : List Char) : kindIn? (':' :: ' ' :: s) = kindIn? s := by
  have hcolon : kindAt? (':' :: ' ' :: s) = none := by
    simp [kindAt?, afterNumber?_of_blank (by decide : Text.isDecimalDigit ' ' = false)]
  have hblank : ':' ∉ [' '] := by decide
  rw [kindIn?_cons, hcolon, Option.or_none]
  exact kindIn?_append_of_noColon hblank

/-- A position in front of a label. A position in the text behind it takes its place. -/
theorem kindIn?_position {line column label behind back : List Char} (hline : IsNumber line)
    (hcolumn : IsNumber column) (hkind : ':' ∉ kind)
    (hlabel : kind ++ ':' :: ' ' :: behind = label ++ ':' :: back) (hback : ':' ∉ back) :
    kindIn? (':' :: (line ++ ':' :: (column ++ ':' :: ' ' :: (kind ++ ':' :: ' ' :: behind)))) =
      (kindIn? behind).or (some (' ' :: label)) := by
  have hblank : Text.isDecimalDigit ' ' = false := by decide
  have htext : kindIn? (':' :: ' ' :: (kind ++ ':' :: ' ' :: behind)) = kindIn? behind := by
    rw [kindIn?_colon_blank, kindIn?_append_of_noColon hkind, kindIn?_colon_blank]
  -- the column is one number, but no second one follows
  have hcol := afterNumber?_of_colon hcolumn (' ' :: (kind ++ ':' :: ' ' :: behind))
  have hsecond : kindAt? (':' :: (column ++ ':' :: ' ' :: (kind ++ ':' :: ' ' :: behind))) =
      none := by
    simp [kindAt?, hcol, afterNumber?_of_blank hblank]
  have hfirst : kindAt? (':' :: (line ++ ':' :: (column ++ ':' :: ' ' ::
      (kind ++ ':' :: ' ' :: behind)))) = some (' ' :: label) := by
    refine kindAt?_eq_some_iff.2 ⟨line, column, back, ?_, hline, hcolumn, hback⟩
    rw [hlabel]
    rfl
  rw [kindIn?_cons, kindIn?_append_of_noColon hline.colon_notMem, kindIn?_cons, hsecond,
    Option.or_none, kindIn?_append_of_noColon hcolumn.colon_notMem, htext, hfirst]

/-- What stands in front of the text of a message: where it points to, and its kind. Of a kind that
is made of letters it counts that it has no colon and no blank. -/
structure Heading where
  file : String
  line : String
  column : String
  kind : String
  newline_notMem : '\n' ∉ file.toList
  line_number : IsNumber line.toList
  column_number : IsNumber column.toList
  kind_word : ∀ c ∈ kind.toList, c ≠ ':' ∧ Text.isBlank c = false

namespace Heading

def message (h : Heading) (text : String) : String :=
  h.file ++ ":" ++ h.line ++ ":" ++ h.column ++ ": " ++ h.kind ++ ": " ++ text

variable (h : Heading) (text : String)

theorem colon_notMem : ':' ∉ h.kind.toList := fun hc => (h.kind_word _ hc).1 rfl

def spelled : List Char :=
  h.file.toList ++ ':' :: (h.line.toList ++ ':' :: (h.column.toList ++ ':' :: ' ' ::
    (h.kind.toList ++ [':', ' '])))

theorem toList_message : (h.message text).toList = h.spelled ++ text.toList := by
  simp [message, spelled]

theorem newline_notMem_spelled : '\n' ∉ h.spelled := by
  have hdigit : Text.isDecimalDigit '\n' = false := by decide
  have hkind : '\n' ∉ h.kind.toList := fun hc => absurd (h.kind_word _ hc).2 (by decide)
  simp [spelled, h.newline_notMem, h.line_number.ne hdigit, h.column_number.ne hdigit, hkind]

theorem firstLine_message :
    firstLine (h.message text).toList = h.spelled ++ firstLine text.toList := by
  rw [toList_message, firstLine, List.takeWhile_append_of_pos]
  · rfl
  · intro c hc
    simpa using ne_of_mem_of_not_mem hc h.newline_notMem_spelled

/-- How a line with a heading is read: by a position in the text if there is one, and by the heading
up to the last colon of the line if not. -/
theorem kindIn?_message {label back : List Char}
    (hlabel : h.kind.toList ++ ':' :: ' ' :: firstLine text.toList = label ++ ':' :: back)
    (hback : ':' ∉ back) :
    kindIn? (firstLine (h.message text).toList) =
      (kindIn? (firstLine text.toList)).or (some (' ' :: label)) := by
  have hpos := kindIn?_position h.line_number h.column_number h.colon_notMem hlabel hback
  rw [firstLine_message, spelled]
  simp only [List.append_assoc, List.cons_append, List.nil_append]
  cases ht : kindIn? (firstLine text.toList) with
  | none =>
    rw [ht] at hpos
    exact kindIn?_append_of_some _ hpos
  | some found =>
    rw [ht] at hpos
    exact kindIn?_append_of_some _ hpos

theorem kindOf_message {label back : List Char}
    (hlabel : h.kind.toList ++ ':' :: ' ' :: firstLine text.toList = label ++ ':' :: back)
    (hback : ':' ∉ back) (hnone : kindIn? (firstLine text.toList) = none) :
    kindOf (h.message text) = String.ofList (Text.trim label) := by
  have hk := h.kindIn?_message text hlabel hback
  rw [hnone, Option.none_or, firstLine] at hk
  rw [kindOf, hk]
  exact congrArg String.ofList (Text.trim_cons_of_isBlank (by decide) label)

theorem kindOf_message_of_noColon (hcolon : ':' ∉ firstLine text.toList) :
    kindOf (h.message text) = h.kind := by
  have hnone : kindIn? (firstLine text.toList) = none := by
    rw [← List.append_nil (firstLine text.toList), kindIn?_append_of_noColon hcolon]
    rfl
  rw [h.kindOf_message text rfl (by simpa using hcolon) hnone,
    Text.trim_of_forall fun c hc => (h.kind_word c hc).2, String.ofList_toList]

theorem kindOf_message_of_readsLast {file kind : List Char}
    (hr : ReadsLast (firstLine text.toList) file kind) :
    kindOf (h.message text) = String.ofList (Text.trim kind) := by
  have hsome := kindIn?_eq_some_iff.2 ⟨file, hr⟩
  obtain ⟨⟨line, column, rest, hs, -, -, hrest⟩, -⟩ := hr
  have hlabel : h.kind.toList ++ ':' :: ' ' :: firstLine text.toList =
      (h.kind.toList ++ ':' :: ' ' :: (file ++ ':' :: (line ++ ':' :: (column ++ ':' :: kind)))) ++
        ':' :: rest := by
    simp [hs]
  have hk := h.kindIn?_message text hlabel hrest
  rw [hsome, Option.some_or, firstLine] at hk
  rw [kindOf, hk]

/-- A colon without a position in the first line of the text makes the kind longer. -/
theorem kindOf_message_of_colon {front back : List Char}
    (hs : firstLine text.toList = front ++ ':' :: back) (hback : ':' ∉ back)
    (hn : ∀ file kind, ¬ Reads (firstLine text.toList) file kind) :
    kindOf (h.message text) =
      String.ofList (Text.trim (h.kind.toList ++ ':' :: ' ' :: front)) := by
  have hlabel : h.kind.toList ++ ':' :: ' ' :: firstLine text.toList =
      (h.kind.toList ++ ':' :: ' ' :: front) ++ ':' :: back := by
    simp [hs]
  exact h.kindOf_message text hlabel hback (kindIn?_eq_none_iff.2 hn)

theorem ofList_trim_ne_kind (front : List Char) :
    String.ofList (Text.trim (h.kind.toList ++ ':' :: ' ' :: front)) ≠ h.kind := by
  intro heq
  have hmem : ':' ∈ Text.trim (h.kind.toList ++ ':' :: ' ' :: front) :=
    Text.mem_trim (by simp) (by decide)
  rw [← String.toList_ofList (l := Text.trim _), heq] at hmem
  exact h.colon_notMem hmem

theorem kindOf_message_eq_iff :
    kindOf (h.message text) = h.kind ↔
      ':' ∉ firstLine text.toList ∨ ∃ file kind, ReadsLast (firstLine text.toList) file kind ∧
        String.ofList (Text.trim kind) = h.kind := by
  constructor
  · intro heq
    by_cases hcolon : ':' ∈ firstLine text.toList
    · cases hk : kindIn? (firstLine text.toList) with
      | some kind =>
        obtain ⟨file, hr⟩ := kindIn?_eq_some_iff.1 hk
        exact .inr ⟨file, kind, hr, (h.kindOf_message_of_readsLast text hr).symm.trans heq⟩
      | none =>
        obtain ⟨⟨front, back⟩, hsplit⟩ : ∃ parts, Text.splitLast? ':' (firstLine text.toList) =
            some parts := by
          rw [← Option.isSome_iff_exists, ← Option.ne_none_iff_isSome]
          exact fun hnone => Text.splitLast?_eq_none_iff.1 hnone hcolon
        obtain ⟨hs, hback⟩ := Text.splitLast?_eq_some_iff.1 hsplit
        have hlong := h.kindOf_message_of_colon text hs hback (kindIn?_eq_none_iff.1 hk)
        exact absurd (hlong.symm.trans heq) (h.ofList_trim_ne_kind front)
    · exact .inl hcolon
  · rintro (hcolon | ⟨file, kind, hr, heq⟩)
    · exact h.kindOf_message_of_noColon text hcolon
    · exact (h.kindOf_message_of_readsLast text hr).trans heq

end Heading

theorem severity_diagnostic_iff (message : String) :
    (diagnostic message).severity = .warning ↔ kindOf message = "Warning" := by
  rw [diagnostic]
  by_cases h : kindOf message = "Warning" <;> simp [h]

/-- The kind of a message with a heading is that of the heading if the first line of its text has no
colon. With a colon it is longer, and with a position it is what that position says; so it is the
kind of the heading only if the position repeats it. A warning is a message of that kind. -/
theorem diagnostic_of_heading (h : Heading) (text : String) :
    ((diagnostic (h.message text)).severity = .warning ↔
      (diagnostic (h.message text)).kind = "Warning") ∧
    (':' ∉ firstLine text.toList → (diagnostic (h.message text)).kind = h.kind) ∧
    (∀ file kind, ReadsLast (firstLine text.toList) file kind →
      (diagnostic (h.message text)).kind = String.ofList (Text.trim kind)) ∧
    (∀ front back, firstLine text.toList = front ++ ':' :: back → ':' ∉ back →
      (∀ file kind, ¬ Reads (firstLine text.toList) file kind) →
        (diagnostic (h.message text)).kind =
            String.ofList (Text.trim (h.kind.toList ++ ':' :: ' ' :: front)) ∧
          (diagnostic (h.message text)).kind ≠ h.kind) ∧
    ((diagnostic (h.message text)).kind = h.kind ↔
      ':' ∉ firstLine text.toList ∨ ∃ file kind, ReadsLast (firstLine text.toList) file kind ∧
        String.ofList (Text.trim kind) = h.kind) := by
  rw [severity_diagnostic_iff, show (diagnostic (h.message text)).kind = kindOf (h.message text)
    from rfl]
  refine ⟨Iff.rfl, h.kindOf_message_of_noColon text,
    fun file kind => h.kindOf_message_of_readsLast text, ?_, h.kindOf_message_eq_iff text⟩
  intro front back hs hback hn
  rw [h.kindOf_message_of_colon text hs hback hn]
  exact ⟨rfl, h.ofList_trim_ne_kind front⟩

def unusedVariable : Heading where
  file := "a.sol"
  line := "3"
  column := "1"
  kind := "Warning"
  newline_notMem := by decide
  line_number := ⟨by decide, List.all_eq_true.1 (by decide)⟩
  column_number := ⟨by decide, List.all_eq_true.1 (by decide)⟩
  kind_word := by
    have hword : "Warning".toList.all (fun c => c ≠ ':' ∧ Text.isBlank c = false) := by decide
    simpa using List.all_eq_true.1 hword

theorem exists_misread_warning :
    ∃ (h : Heading) (text : String), h.kind = "Warning" ∧
      (diagnostic (h.message text)).kind = "Warning: Unused local variable" ∧
        (diagnostic (h.message text)).severity = .error := by
  refine ⟨unusedVariable, "Unused local variable: x", rfl, ?_, ?_⟩
  · decide +kernel
  · decide +kernel

end SolidityHost.Legacy
