import SolidityHost.Proofs.Bytecode.Keys

/-!
# Reading placeholders back

Unlinked bytecode is a row of segments: chunks of code and placeholders. Where chunks have no
underscore, and labels no line break, the scan for references comes to the start of every segment.
So it takes the placeholders of the row one by one, however they adjoin and whatever stands in
their names, and takes nothing else.
-/

set_option autoImplicit false

namespace SolidityHost.Bytecode

inductive Segment where
  | chunk (text : List Char)
  | label (name : String)
  | hashed (name : String)

namespace Segment

def placeholder? : Segment → Option Placeholder
  | chunk _ => none
  | label name => some (.label name)
  | hashed name => some (.hashed name)

def text : Segment → List Char
  | chunk text => text
  | label name => (Placeholder.label name).text
  | hashed name => (Placeholder.hashed name).text

def Legible : Segment → Prop
  | chunk text => '_' ∉ text
  | label name => '\n' ∉ name.toList.take 36
  | hashed _ => True

instance : DecidablePred Legible
  | chunk text => inferInstanceAs (Decidable ('_' ∉ text))
  | label name => inferInstanceAs (Decidable ('\n' ∉ name.toList.take 36))
  | hashed _ => inferInstanceAs (Decidable True)

def key? : Segment → Option String
  | chunk _ => none
  | label name => some (String.ofList (untrailed (name.toList.take 36)))
  | hashed name => some (String.ofList ('$' :: (Placeholder.hashDigits name ++ ['$'])))

theorem key?_eq (s : Segment) : s.key? = s.placeholder?.map Placeholder.key := by
  cases s with
  | chunk text => rfl
  | label name => rw [key?, placeholder?, Option.map_some, Placeholder.key_label]
  | hashed name => rw [key?, placeholder?, Option.map_some, Placeholder.key_hashed]

theorem text_of_placeholder? {s : Segment} {p : Placeholder} (h : s.placeholder? = some p) :
    s.text = p.text := by
  cases s <;> cases h <;> rfl

theorem Legible.newline_notMem {s : Segment} (hs : s.Legible) {p : Placeholder}
    (h : s.placeholder? = some p) : '\n' ∉ p.body := by
  cases s with
  | chunk text => contradiction
  | label name =>
    cases h
    exact Placeholder.newline_notMem_label hs
  | hashed name =>
    cases h
    exact Placeholder.newline_notMem_hashed name

end Segment

def assemble (segments : List Segment) : List Char := segments.flatMap Segment.text

@[simp] theorem assemble_nil : assemble [] = [] := rfl

@[simp] theorem assemble_cons (s : Segment) (segments : List Segment) :
    assemble (s :: segments) = s.text ++ assemble segments := rfl

/-- Key and place of each placeholder of a row that stands behind a text. Places count pairs of the
bytes in front. -/
def placed : List Char → List Segment → List (String × LinkReference)
  | _, [] => []
  | before, s :: rest =>
    (s.key?.map fun key => (key, ⟨Utf8.width (String.ofList before) / 2, 20⟩)).toList ++
      placed (before ++ s.text) rest

@[simp] theorem byteCount_append (s t : List Char) :
    byteCount (s ++ t) = byteCount s + byteCount t := by
  induction s with
  | nil => simp [byteCount]
  | cons c s ih =>
    simp only [byteCount, List.cons_append, List.foldr_cons] at ih ⊢
    omega

theorem byteCount_eq_width (s : List Char) : byteCount s = Utf8.width (String.ofList s) := by
  simp only [Utf8.width, Utf8.encode, String.toList_ofList]
  induction s with
  | nil => rfl
  | cons c s ih =>
    rw [List.flatMap_cons, List.length_append, String.length_utf8EncodeChar, ← ih]
    rfl

theorem scan_of_bodyAt? {offset : Nat} {s body : List Char} (h : bodyAt? s = some body) :
    scan offset s = (shownName body, ⟨offset / 2, addressLength⟩) ::
      scan (offset + byteCount (s.take 40)) (s.drop 40) := by
  cases s with
  | nil => simp [bodyAt?] at h
  | cons c rest => rw [scan, h, List.drop_succ_cons]

theorem scan_placeholder {p : Placeholder} (h : '\n' ∉ p.body) (offset : Nat) (s : List Char) :
    scan offset (p.text ++ s) =
      (p.key, ⟨offset / 2, addressLength⟩) :: scan (offset + byteCount p.text) s := by
  have hwindow : window (p.text ++ s) 0 = p.text := List.take_left' p.length_text
  have hbody : bodyAt? (p.text ++ s) = some p.body := bodyAt?_eq_some_iff.2 ⟨p, rfl, h, hwindow⟩
  rw [scan_of_bodyAt? hbody, List.take_left' p.length_text, List.drop_left' p.length_text]
  rfl

theorem scan_chunk {text : List Char} (h : '_' ∉ text) (offset : Nat) (s : List Char) :
    scan offset (text ++ s) = scan (offset + byteCount text) s := by
  induction text generalizing offset with
  | nil => rfl
  | cons c text ih =>
    obtain ⟨hc, htext⟩ := List.ne_and_not_mem_of_not_mem_cons h
    have hbody : bodyAt? (c :: (text ++ s)) = none := by simp [bodyAt?, Ne.symm hc]
    rw [List.cons_append, scan, hbody, ih htext, Nat.add_assoc]
    rfl

theorem scan_segment {s : Segment} (hs : s.Legible) (offset : Nat) (rest : List Char) :
    scan offset (s.text ++ rest) =
      (s.key?.map fun key => (key, ⟨offset / 2, addressLength⟩)).toList ++
        scan (offset + byteCount s.text) rest := by
  rw [s.key?_eq]
  cases hp : s.placeholder? with
  | none =>
    cases s with
    | chunk text => exact scan_chunk hs offset rest
    | _ => contradiction
  | some p =>
    rw [Segment.text_of_placeholder? hp]
    exact scan_placeholder (hs.newline_notMem hp) offset rest

/-- The scan that starts behind a text finds the placeholders of the row behind it. -/
theorem scan_assemble {segments : List Segment} (h : ∀ s ∈ segments, s.Legible)
    (before : List Char) :
    scan (byteCount before) (assemble segments) = placed before segments := by
  -- what the scan has passed over grows with what stands in front of the rest of the row
  induction segments generalizing before with
  | nil => rw [assemble_nil, scan, placed]
  | cons s rest ih =>
    obtain ⟨hs, hrest⟩ := List.forall_mem_cons.1 h
    rw [assemble_cons, scan_segment hs, ← byteCount_append, ih hrest, placed, byteCount_eq_width]
    rfl

theorem references_assemble {segments : List Segment} (h : ∀ s ∈ segments, s.Legible) :
    references (String.ofList (assemble segments)) = gather (placed [] segments) := by
  rw [references, String.toList_ofList, ← scan_assemble h]
  rfl

/-- What is reported under a key are the placeholders of the row that show it, in their order. -/
theorem get?_references_row {segments : List Segment} (h : ∀ s ∈ segments, s.Legible)
    (key : String) :
    (references (String.ofList (assemble segments))).get? key =
      if foundUnder key (placed [] segments) = [] then none
      else some (foundUnder key (placed [] segments)) := by
  rw [references_assemble h, get?_gather]

def crowded : List Segment := [.chunk ['6', '0'], .label "a__b", .label "__", .label "a__b"]

theorem get?_references_crowded :
    (∀ s ∈ crowded, s.Legible) ∧
      (references (String.ofList (assemble crowded))).get? "a__b" = some [⟨1, 20⟩, ⟨41, 20⟩] := by
  have h : ∀ s ∈ crowded, s.Legible := by decide
  exact ⟨h, get?_references_row h "a__b"⟩

end SolidityHost.Bytecode
