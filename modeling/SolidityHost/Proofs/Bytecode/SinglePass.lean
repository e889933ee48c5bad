import SolidityHost.Proofs.Bytecode.Linking

/-!
# Replacement in a single pass

Replacing a placeholder starts over at the front of the text after each write. It still ends with
what a single pass from left to right gives: an address holds no underscore, so no occurrence begins
in an address that was written or reaches into it, not even if the placeholder overlaps itself. How
often it starts over is settled by the underscores, since each write takes those of one placeholder
away and brings none.
-/

set_option autoImplicit false

namespace SolidityHost.Bytecode

variable {p : Placeholder} {a : Address} {s t : List Char} {i n : Nat}

/-- Writes `a` over each occurrence of `p` that is met from left to right, and goes on behind it.
Of the last occurrence, `skip` characters are still to be passed over. -/
def singlePass (p : Placeholder) (a : Address) : (skip : Nat) → List Char → List Char
  | _, [] => []
  | skip + 1, _ :: rest => singlePass p a skip rest
  | 0, c :: rest =>
    if p.text.isPrefixOf (c :: rest) then a.digits ++ singlePass p a 39 rest
    else c :: singlePass p a 0 rest

theorem singlePass_skip (p : Placeholder) (a : Address) (n : Nat) (s : List Char) :
    singlePass p a n s = singlePass p a 0 (s.drop n) := by
  induction s generalizing n with
  | nil => cases n <;> rfl
  | cons c rest ih =>
    cases n with
    | zero => rfl
    | succ n => exact ih n

theorem singlePass_of_window (a : Address) (h : window s 0 = p.text) :
    singlePass p a 0 s = a.digits ++ singlePass p a 0 (s.drop 40) := by
  cases s with
  | nil => simp [window, Placeholder.text] at h
  | cons c rest =>
    rw [singlePass, if_pos (window_zero_eq_text_iff.1 h), singlePass_skip p a 39 rest]
    rfl

theorem singlePass_append (a : Address) {front : List Char} (back : List Char)
    (h : ∀ j < front.length, window (front ++ back) j ≠ p.text) :
    singlePass p a 0 (front ++ back) = front ++ singlePass p a 0 back := by
  induction front with
  | nil => rfl
  | cons c front ih =>
    have hfront : ¬ p.text.isPrefixOf (c :: (front ++ back)) = true := fun hp =>
      h 0 (Nat.succ_pos _) (window_zero_eq_text_iff.2 hp)
    have hrest : ∀ j < front.length, window (front ++ back) j ≠ p.text := fun j hj =>
      h (j + 1) (Nat.succ_lt_succ hj)
    rw [List.cons_append, singlePass, if_neg hfront, ih hrest, List.cons_append]

theorem singlePass_of_absent (a : Address) (h : Absent p s) : singlePass p a 0 s = s := by
  have hkept : singlePass p a 0 (s ++ []) = s ++ singlePass p a 0 [] := by
    apply singlePass_append
    rw [List.append_nil]
    exact fun j _ => h j
  rwa [List.append_nil, singlePass, List.append_nil] at hkept

/-- Writing the first occurrence beforehand makes no difference to the pass. -/
theorem singlePass_overwrite (a : Address) (hi : window s i = p.text)
    (hfirst : ∀ j < i, window s j ≠ p.text) :
    singlePass p a 0 (overwrite s i a) = singlePass p a 0 s := by
  have hlen := add_le_length_of_window hi
  have htake : (s.take i).length = i := List.length_take_of_le (by omega)
  have hdigits := a.length_digits
  have hbehind : ∀ j < (s.take i ++ a.digits).length,
      window (s.take i ++ a.digits ++ s.drop (i + 40)) j ≠ p.text := by
    intro j hj hw
    -- what stands in the written text stood there before, and apart from the written window
    have hapart := apart_of_window (window_overwrite_self a hlen) hw
    have hbefore := hfirst j
    rw [List.length_append, htake, hdigits] at hj
    rcases hapart with hij | hji
    · omega
    · exact hbefore (by omega) (window_of_window_overwrite hlen hw)
  have hfront : ∀ j < (s.take i).length, window (s.take i ++ s.drop i) j ≠ p.text := by
    rw [htake, List.take_append_drop]
    exact hfirst
  calc singlePass p a 0 (overwrite s i a)
      = s.take i ++ a.digits ++ singlePass p a 0 (s.drop (i + 40)) :=
        singlePass_append a (s.drop (i + 40)) hbehind
    _ = s.take i ++ singlePass p a 0 (s.drop i) := by
        rw [singlePass_of_window a (s := s.drop i) hi, List.drop_drop, List.append_assoc]
    _ = singlePass p a 0 (s.take i ++ s.drop i) := (singlePass_append a (s.drop i) hfront).symm
    _ = singlePass p a 0 s := by rw [List.take_append_drop]

theorem replaceAll_eq_singlePass (p : Placeholder) (a : Address) (s : List Char) :
    replaceAll p a s = singlePass p a 0 s := by
  induction s using replaceAll.induct p a with
  | case1 s hs =>
    rw [replaceAll_of_none hs, singlePass_of_absent a (replaceFirst?_eq_none_iff.1 hs)]
  | case2 s linked hs _ ih =>
    obtain ⟨i, hi, hfirst, rfl⟩ := exists_of_replaceFirst? hs
    rw [replaceAll_of_some hs, ih, singlePass_overwrite a hi hfirst]

/-- While the placeholder stands in the text, its first occurrence is written over: `n` turns lead
from one text to the other, in which it stands no more. -/
inductive Turns (p : Placeholder) (a : Address) : Nat → List Char → List Char → Prop where
  | done {s : List Char} (h : ¬ p.text <:+: s) : Turns p a 0 s s
  | again {n i : Nat} {s t : List Char} (here : window s i = p.text)
    (first : ∀ j < i, window s j ≠ p.text) (further : Turns p a n (overwrite s i a) t) :
    Turns p a (n + 1) s t

/-- There is one first occurrence, so turns can be taken in one way only. -/
theorem Turns.unique {m : Nat} {u : List Char} (h : Turns p a n s t) (h' : Turns p a m s u) :
    m = n ∧ u = t := by
  induction h generalizing m u with
  | done hs =>
    cases h' with
    | done => exact ⟨rfl, rfl⟩
    | again here => exact absurd (text_infix_iff.2 ⟨_, here⟩) hs
  | @again n i s t here first _ ih =>
    cases h' with
    | done hs => exact absurd (text_infix_iff.2 ⟨_, here⟩) hs
    | @again m j _ _ here' first' further' =>
      obtain rfl : j = i := by
        rcases Nat.lt_trichotomy j i with hlt | heq | hgt
        · exact absurd here' (first j hlt)
        · exact heq
        · exact absurd here (first' i hgt)
      obtain ⟨rfl, rfl⟩ := ih further'
      exact ⟨rfl, rfl⟩

theorem count_overwrite (a : Address) (h : window s i = p.text) :
    (overwrite s i a).count '_' + p.text.count '_' = s.count '_' := by
  have hdigits : a.digits.count '_' = 0 := List.count_eq_zero.2 a.underscore_notMem
  have hsplit : s = s.take i ++ (window s i ++ s.drop (i + 40)) := by
    rw [window, ← List.drop_drop, List.take_append_drop, List.take_append_drop]
  have hcount := congrArg (List.count '_') hsplit
  rw [h, List.count_append, List.count_append] at hcount
  rw [overwrite, List.count_append, List.count_append, hdigits]
  omega

theorem Turns.count_eq (h : Turns p a n s t) :
    t.count '_' + n * p.text.count '_' = s.count '_' := by
  induction h with
  | done => rw [Nat.zero_mul, Nat.add_zero]
  | again here _ _ ih => rw [Nat.succ_mul, ← Nat.add_assoc, ih, count_overwrite a here]

theorem exists_turns (p : Placeholder) (a : Address) (s : List Char) :
    ∃ n, Turns p a n s (replaceAll p a s) := by
  induction s using replaceAll.induct p a with
  | case1 s hs =>
    rw [replaceAll_of_none hs]
    exact ⟨0, .done (absent_iff.1 (replaceFirst?_eq_none_iff.1 hs))⟩
  | case2 s linked hs _ ih =>
    obtain ⟨i, hi, hfirst, rfl⟩ := exists_of_replaceFirst? hs
    obtain ⟨n, hturns⟩ := ih
    rw [replaceAll_of_some hs]
    exact ⟨n + 1, .again hi hfirst hturns⟩

/-- Replacing a placeholder, as those of any name are, comes to an end after as many turns as its
underscores tell, in one way only, and then a single pass has been made. -/
theorem replaceAll_turns (p : Placeholder) (a : Address) (code : List Char) :
    replaceAll p a code = singlePass p a 0 code ∧
      ∃ n, (∀ m t, Turns p a m code t ↔ m = n ∧ t = replaceAll p a code) ∧
        (replaceAll p a code).count '_' + n * p.text.count '_' = code.count '_' := by
  obtain ⟨n, hturns⟩ := exists_turns p a code
  refine ⟨replaceAll_eq_singlePass p a code, n, fun m t => ⟨hturns.unique, ?_⟩, hturns.count_eq⟩
  rintro ⟨rfl, rfl⟩
  exact hturns

/-- The label of the empty name overlaps itself at every position. -/
example : (Address.parse? "0x").map (fun a => singlePass (.label "") a 0 (List.replicate 85 '_')) =
    some (List.replicate 80 '0' ++ List.replicate 5 '_') := by decide

end SolidityHost.Bytecode
