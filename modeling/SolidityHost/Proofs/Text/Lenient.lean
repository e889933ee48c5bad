import Mathlib.Data.List.Induction
import SolidityHost.Proofs.Text.Utf8

/-!
# Lenient decoding

Lenient decoding takes bytes apart into encodings of characters and faults, and there is one way to
do that. A fault is a byte that begins no character, or bytes that begin one and are broken off, as
many of them as there are. Each fault gives one replacement character.
-/

set_option autoImplicit false

namespace SolidityHost.Utf8

variable {bytes front rest : List UInt8} {state next : State} {b : UInt8} {c : Char} {s : List Char}

def Starts (front : List UInt8) : Prop := ∃ c, front <+: String.utf8EncodeChar c

/-- Bytes that are read as one fault, if `rest` stands behind them. -/
inductive Broken (rest : List UInt8) : List UInt8 → Prop where
  | stray {b : UInt8} (h : ¬ Starts [b]) : Broken rest [b]
  | cut {front : List UInt8} (nonempty : front ≠ []) (starts : Starts front)
    (unfinished : ∀ c, String.utf8EncodeChar c ≠ front)
    (stops : ∀ b ∈ rest.head?, ¬ Starts (front ++ [b])) : Broken rest front

/-- The bytes, taken apart from the front, give this text. -/
inductive Lenient : List UInt8 → List Char → Prop where
  | nil : Lenient [] []
  | char {rest : List UInt8} {s : List Char} (c : Char) (further : Lenient rest s) :
    Lenient (String.utf8EncodeChar c ++ rest) (c :: s)
  | fault {front rest : List UInt8} {s : List Char} (broken : Broken rest front)
    (further : Lenient rest s) : Lenient (front ++ rest) (replacement :: s)

theorem Starts.of_append (h : Starts (front ++ rest)) : Starts front := by
  obtain ⟨c, hc⟩ := h
  exact ⟨c, (List.prefix_append front rest).trans hc⟩

inductive Reaches : List UInt8 → State → Prop where
  | boundary : Reaches [] .boundary
  | more {front : List UInt8} {state next : State} {b : UInt8} (h : Reaches front state)
    (hs : step state b = .more next) : Reaches (front ++ [b]) next

theorem Reaches.reads (h : Reaches front state) : state.Reads front := by
  induction h with
  | boundary => exact reads_boundary
  | @more front state next b _ hs ih =>
    have hstep := ih.step b
    rwa [hs] at hstep

theorem Reaches.encodeChar_eq (h : Reaches front state) (hs : step state b = .char c) :
    String.utf8EncodeChar c = front ++ [b] := by
  have hstep := h.reads.step b
  rwa [hs] at hstep

theorem Reaches.decodeFrom_eq (h : Reaches front state) (rest : List UInt8) :
    decodeFrom .boundary 0 (front ++ rest) = decodeFrom state front.length rest := by
  induction h generalizing rest with
  | boundary => rfl
  | @more front state next b _ hs ih =>
    rw [List.append_assoc, List.singleton_append, ih, decodeFrom_of_more hs, List.length_append]
    rfl

theorem decodeFrom_encodeChar_nil (c : Char) :
    decodeFrom .boundary 0 (String.utf8EncodeChar c) = .ok [c] := by
  have hdecode := decodeFrom_encodeChar c 0 []
  rwa [List.append_nil] at hdecode

theorem Reaches.not_starts (h : Reaches front state) (hs : step state b = .refuse) :
    ¬ Starts (front ++ [b]) := by
  rintro ⟨c, behind, hc⟩
  have hdecode := decodeFrom_encodeChar_nil c
  rw [← hc, List.append_assoc, List.singleton_append, h.decodeFrom_eq,
    decodeFrom_of_refuse hs] at hdecode
  contradiction

/-- No encoding is complete before the decoder says so. -/
theorem Reaches.unfinished (h : Reaches front state) (c : Char) :
    String.utf8EncodeChar c ≠ front := by
  intro hc
  have hdecode := h.decodeFrom_eq []
  rw [List.append_nil, ← hc, decodeFrom_encodeChar_nil] at hdecode
  cases state <;> exact nomatch hdecode

def State.Open : State → Prop
  | .boundary => True
  | .inside _ low high _ _ => low ≤ high

theorem open_of_step (h : step state b = .more next) : next.Open := by
  cases state with
  | boundary =>
    rw [step, lead] at h
    split_ifs at h <;> cases h <;> simp [State.Open]
  | inside owed low high code seen =>
    rw [step] at h
    split_ifs at h
    cases h
    simp [State.Open]

theorem starts_of_awaits {owed code : Nat} {low high : UInt8} (hle : low ≤ high)
    (h : Awaits owed low high code front) : Starts front := by
  -- the least byte that may come next leads on to a character
  induction owed generalizing low high code front with
  | zero => exact h.elim
  | succ owed ih =>
    cases owed with
    | zero => exact ⟨_, [low], (h low (UInt8.le_refl low) hle).symm⟩
    | succ owed => exact (ih (by decide) (h low (UInt8.le_refl low) hle)).of_append

theorem Reaches.isOpen (h : Reaches front state) : state.Open := by
  cases h with
  | boundary => trivial
  | more _ hs => exact open_of_step hs

theorem Reaches.starts (h : Reaches front state) : Starts front := by
  have hreads := h.reads
  have hopen := h.isOpen
  cases state with
  | boundary =>
    obtain rfl : front = [] := hreads
    exact ⟨' ', List.nil_prefix⟩
  | inside => exact starts_of_awaits hopen hreads

/-- An encoding begins with no other one. -/
theorem eq_of_encodeChar_append {d : Char} {tail : List UInt8}
    (h : String.utf8EncodeChar c = String.utf8EncodeChar d ++ tail) : d = c ∧ tail = [] := by
  have hdecode := decodeFrom_encodeChar_nil c
  rw [h, decodeFrom_encodeChar] at hdecode
  cases htail : decodeFrom .boundary (0 + (String.utf8EncodeChar d).length) tail with
  | error fault =>
    rw [htail] at hdecode
    exact nomatch hdecode
  | ok t =>
    rw [htail] at hdecode
    obtain ⟨rfl, rfl⟩ := List.cons.inj (Except.ok.inj hdecode)
    exact ⟨rfl, eq_of_decodeFrom reads_boundary htail⟩

theorem exists_reaches {tail : List UInt8} (hne : tail ≠ [])
    (hc : String.utf8EncodeChar c = front ++ tail) : ∃ state, Reaches front state := by
  induction front using List.reverseRecOn generalizing tail with
  | nil => exact ⟨_, .boundary⟩
  | append_singleton front b ih =>
    rw [List.append_assoc] at hc
    obtain ⟨state, h⟩ := ih (List.append_ne_nil_of_left_ne_nil (List.cons_ne_nil b []) tail) hc
    cases hs : step state b with
    | char d =>
      rw [← List.append_assoc, ← h.encodeChar_eq hs] at hc
      exact absurd (eq_of_encodeChar_append hc).2 hne
    | more next => exact ⟨next, h.more hs⟩
    | refuse =>
      refine absurd ⟨c, tail, ?_⟩ (h.not_starts hs)
      rw [hc, List.append_assoc]

theorem Reaches.broken {owed code seen : Nat} {low high : UInt8}
    (h : Reaches front (.inside owed low high code seen))
    (hstop : ∀ b ∈ rest.head?, step (.inside owed low high code seen) b = .refuse) :
    Broken rest front := by
  refine .cut ?_ h.starts h.unfinished fun b hb => h.not_starts (hstop b hb)
  cases h with
  | more => simp

theorem decodeLenientFrom_of_char (h : step state b = .char c) (rest : List UInt8) :
    decodeLenientFrom state (b :: rest) = c :: decodeLenientFrom .boundary rest := by
  cases state <;> simp only [decodeLenientFrom, h]

theorem decodeLenientFrom_of_more (h : step state b = .more next) (rest : List UInt8) :
    decodeLenientFrom state (b :: rest) = decodeLenientFrom next rest := by
  cases state <;> simp only [decodeLenientFrom, h]

theorem decodeLenientFrom_of_stray (h : step .boundary b = .refuse) (rest : List UInt8) :
    decodeLenientFrom .boundary (b :: rest) = replacement :: decodeLenientFrom .boundary rest := by
  simp only [decodeLenientFrom, h]

/-- A byte that breaks a character off is read as the first one of what follows. -/
theorem decodeLenientFrom_of_cut {owed code seen : Nat} {low high : UInt8}
    (h : step (.inside owed low high code seen) b = .refuse) (rest : List UInt8) :
    decodeLenientFrom (.inside owed low high code seen) (b :: rest) =
      replacement :: decodeLenientFrom .boundary (b :: rest) := by
  have hstep : step .boundary b = lead b := rfl
  cases hlead : lead b <;> simp only [decodeLenientFrom, h, hstep, hlead]

theorem Reaches.lenient_char (h : Reaches front state) (hs : step state b = .char c)
    (hrest : Lenient rest s) : Lenient (front ++ b :: rest) (c :: s) := by
  rw [List.append_cons, ← h.encodeChar_eq hs]
  exact hrest.char c

/-- What is decoded in a state, behind the bytes that have led to it. -/
theorem Reaches.lenient (h : Reaches front state) (bytes : List UInt8) :
    Lenient (front ++ bytes) (decodeLenientFrom state bytes) := by
  induction bytes generalizing front state with
  | nil =>
    cases state with
    | boundary =>
      obtain rfl : front = [] := h.reads
      exact .nil
    | inside => exact .fault (h.broken nofun) .nil
  | cons b rest ih =>
    have hboundary : Lenient (b :: rest) (decodeLenientFrom .boundary (b :: rest)) := by
      cases hs : step .boundary b with
      | char c =>
        rw [decodeLenientFrom_of_char hs]
        exact Reaches.boundary.lenient_char hs (ih .boundary)
      | more next =>
        rw [decodeLenientFrom_of_more hs]
        exact ih (Reaches.boundary.more hs)
      | refuse =>
        rw [decodeLenientFrom_of_stray hs]
        exact .fault (.stray (Reaches.boundary.not_starts hs)) (ih .boundary)
    cases state with
    | boundary =>
      obtain rfl : front = [] := h.reads
      exact hboundary
    | inside owed low high code seen =>
      cases hs : step (.inside owed low high code seen) b with
      | char c =>
        rw [decodeLenientFrom_of_char hs]
        exact h.lenient_char hs (ih .boundary)
      | more next =>
        rw [decodeLenientFrom_of_more hs, List.append_cons]
        exact ih (h.more hs)
      | refuse =>
        rw [decodeLenientFrom_of_cut hs]
        refine .fault (h.broken ?_) hboundary
        simpa using hs

theorem Reaches.decodeLenientFrom_eq (h : Reaches front state) (rest : List UInt8) :
    decodeLenientFrom .boundary (front ++ rest) = decodeLenientFrom state rest := by
  induction h generalizing rest with
  | boundary => rfl
  | more h hs ih =>
    rw [List.append_assoc, List.singleton_append, ih, decodeLenientFrom_of_more hs]

theorem decodeLenientFrom_encodeChar (c : Char) (rest : List UInt8) :
    decodeLenientFrom .boundary (String.utf8EncodeChar c ++ rest) =
      c :: decodeLenientFrom .boundary rest := by
  obtain ⟨front, b, hc⟩ : ∃ front b, String.utf8EncodeChar c = front ++ [b] :=
    ⟨_, _, (List.dropLast_concat_getLast (Reaches.boundary.unfinished c)).symm⟩
  obtain ⟨state, h⟩ := exists_reaches (List.cons_ne_nil b []) hc
  rw [hc, List.append_assoc, List.singleton_append, h.decodeLenientFrom_eq]
  cases hs : step state b with
  | char d =>
    have hd := h.encodeChar_eq hs
    rw [← hc, ← List.append_nil (String.utf8EncodeChar c)] at hd
    rw [decodeLenientFrom_of_char hs, (eq_of_encodeChar_append hd).1]
  | more next => exact absurd hc ((h.more hs).unfinished c)
  | refuse => exact absurd ⟨c, hc ▸ List.prefix_rfl⟩ (h.not_starts hs)

theorem Broken.decodeLenientFrom_eq (h : Broken rest front) :
    decodeLenientFrom .boundary (front ++ rest) =
      replacement :: decodeLenientFrom .boundary rest := by
  cases h with
  | @stray b hb =>
    cases hs : step .boundary b with
    | char c => exact absurd ⟨c, (Reaches.boundary.encodeChar_eq hs) ▸ List.prefix_rfl⟩ hb
    | more next => exact absurd (Reaches.boundary.more hs).starts hb
    | refuse => exact decodeLenientFrom_of_stray hs rest
  | cut hne hstarts hunfinished hstops =>
    obtain ⟨c, tail, hc⟩ := hstarts
    have htail : tail ≠ [] := by
      rintro rfl
      exact hunfinished c (by rw [← hc, List.append_nil])
    obtain ⟨state, h⟩ := exists_reaches htail hc.symm
    rw [h.decodeLenientFrom_eq]
    cases state with
    | boundary => exact absurd h.reads hne
    | inside owed low high code seen =>
      cases rest with
      | nil => rfl
      | cons b rest =>
        have hb := hstops b rfl
        cases hs : step (.inside owed low high code seen) b with
        | char d => exact absurd ⟨d, (h.encodeChar_eq hs) ▸ List.prefix_rfl⟩ hb
        | more next => exact absurd (h.more hs).starts hb
        | refuse => exact decodeLenientFrom_of_cut hs rest

/-- Lenient decoding gives the text of the characters and faults that the bytes are made of. -/
theorem lenient_iff : Lenient bytes s ↔ s = decodeLenient bytes := by
  constructor
  · intro h
    rw [decodeLenient]
    induction h with
    | nil => rfl
    | char c _ ih => rw [decodeLenientFrom_encodeChar, ih]
    | fault hbroken _ ih => rw [hbroken.decodeLenientFrom_eq, ih]
  · rintro rfl
    exact Reaches.boundary.lenient bytes

end SolidityHost.Utf8
