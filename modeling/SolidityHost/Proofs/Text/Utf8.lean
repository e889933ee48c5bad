import Mathlib.Data.List.TakeWhile
import SolidityHost.Proofs.Text.Utf8Order

/-!
# Decoding of UTF-8

Decoding undoes encoding: the first byte of a character tells which bytes may follow, and each
further one brings six bits. A zero byte stands for the zero character and for nothing else, so a
text that is read up to a zero byte is cut at its first zero character.
-/

set_option autoImplicit false

namespace SolidityHost.Utf8

theorem step_boundary {n : Nat} (hn : n < 256) :
    step .boundary (UInt8.ofNat n) =
      if n < 0x80 then .char (Char.ofNat n)
      else if n < 0xC2 then .refuse
      else if n < 0xE0 then .more (.inside 1 0x80 0xBF (n - 0xC0) 1)
      else if n = 0xE0 then .more (.inside 2 0xA0 0xBF 0 1)
      else if n = 0xED then .more (.inside 2 0x80 0x9F 0xD 1)
      else if n < 0xF0 then .more (.inside 2 0x80 0xBF (n - 0xE0) 1)
      else if n = 0xF0 then .more (.inside 3 0x90 0xBF 0 1)
      else if n < 0xF4 then .more (.inside 3 0x80 0xBF (n - 0xF0) 1)
      else if n = 0xF4 then .more (.inside 3 0x80 0x8F 4 1)
      else .refuse := by
  simp [step, lead, UInt8.lt_iff_toNat_lt, ← UInt8.toNat_inj, Nat.mod_eq_of_lt hn]

theorem step_inside {owed n code seen : Nat} {low high : UInt8} (hl : low.toNat ≤ n)
    (hh : n ≤ high.toNat) :
    step (.inside owed low high code seen) (UInt8.ofNat n) =
      if owed ≤ 1 then .char (Char.ofNat (code * 64 + (n - 0x80)))
      else .more (.inside (owed - 1) 0x80 0xBF (code * 64 + (n - 0x80)) (seen + 1)) := by
  have hn : n < 256 := Nat.lt_of_le_of_lt hh high.toNat_lt
  have hbyte : (UInt8.ofNat n).toNat = n := UInt8.toNat_ofNat_of_lt' hn
  have hrange : low ≤ UInt8.ofNat n ∧ UInt8.ofNat n ≤ high := by
    rw [UInt8.le_iff_toNat_le, UInt8.le_iff_toNat_le, hbyte]
    exact ⟨hl, hh⟩
  rw [step, if_pos hrange, hbyte]

section

variable {n : Nat}

theorem step_one (hn : n ≤ 0x7F) : step .boundary (UInt8.ofNat n) = .char (Char.ofNat n) := by
  rw [step_boundary (by omega), if_pos (by omega)]

theorem step_two (hl : 0x7F < n) (hh : n ≤ 0x7FF) :
    step .boundary (UInt8.ofNat (n / 64 % 32 + 0xC0)) = .more (.inside 1 0x80 0xBF (n / 64) 1) := by
  have hcode : n / 64 % 32 + 0xC0 - 0xC0 = n / 64 := by omega
  rw [step_boundary (by omega), if_neg (by omega), if_neg (by omega), if_pos (by omega), hcode]

theorem step_three (hl : 0x7FF < n) (hh : n ≤ 0xFFFF) (hv : n < 0xD800 ∨ 0xDFFF < n) :
    ∃ low high : UInt8, step .boundary (UInt8.ofNat (n / 4096 % 16 + 0xE0)) =
      .more (.inside 2 low high (n / 4096) 1) ∧
        low.toNat ≤ n / 64 % 64 + 0x80 ∧ n / 64 % 64 + 0x80 ≤ high.toNat := by
  have hcode : n / 4096 % 16 + 0xE0 - 0xE0 = n / 4096 := by omega
  have hdiv := Nat.div_div_eq_div_mul n 64 64
  rw [step_boundary (by omega), if_neg (by omega), if_neg (by omega), if_neg (by omega), hcode]
  split_ifs with h0 hD hF
  · exact ⟨0xA0, 0xBF, by rw [show n / 4096 = 0 by omega], by simp; omega, by simp; omega⟩
  · exact ⟨0x80, 0x9F, by rw [show n / 4096 = 0xD by omega], by simp, by simp; omega⟩
  · exact ⟨0x80, 0xBF, rfl, by simp, by simp; omega⟩
  all_goals omega

theorem step_four (hl : 0xFFFF < n) (hh : n < 0x110000) :
    ∃ low high : UInt8, step .boundary (UInt8.ofNat (n / 262144 % 8 + 0xF0)) =
      .more (.inside 3 low high (n / 262144) 1) ∧
        low.toNat ≤ n / 4096 % 64 + 0x80 ∧ n / 4096 % 64 + 0x80 ≤ high.toNat := by
  have hcode : n / 262144 % 8 + 0xF0 - 0xF0 = n / 262144 := by omega
  have hdiv := Nat.div_div_eq_div_mul n 4096 64
  rw [step_boundary (by omega), if_neg (by omega), if_neg (by omega), if_neg (by omega),
    if_neg (by omega), if_neg (by omega), if_neg (by omega), hcode]
  split_ifs with h0 hlt h4
  · exact ⟨0x90, 0xBF, by rw [show n / 262144 = 0 by omega], by simp; omega, by simp; omega⟩
  · exact ⟨0x80, 0xBF, rfl, by simp, by simp; omega⟩
  · exact ⟨0x80, 0x8F, by rw [show n / 262144 = 4 by omega], by simp, by simp; omega⟩
  all_goals omega

end

theorem decodeFrom_of_char {state : State} {b : UInt8} {c : Char} (h : step state b = .char c)
    (index : Nat) (rest : List UInt8) :
    decodeFrom state index (b :: rest) =
      (decodeFrom .boundary (index + 1) rest).map (c :: ·) := by
  cases state <;> rw [decodeFrom, h]

theorem decodeFrom_of_more {state next : State} {b : UInt8} (h : step state b = .more next)
    (index : Nat) (rest : List UInt8) :
    decodeFrom state index (b :: rest) = decodeFrom next (index + 1) rest := by
  cases state <;> rw [decodeFrom, h]

theorem decodeFrom_of_refuse {state : State} {b : UInt8} (h : step state b = .refuse)
    (index : Nat) (rest : List UInt8) :
    decodeFrom state index (b :: rest) =
      .error (.invalid (max state.seen 1) (index - state.seen)) := by
  cases state <;> rw [decodeFrom, h]

theorem step_more {owed m code seen : Nat} {low high : UInt8} (ho : 1 < owed)
    (hl : low.toNat ≤ m + 0x80) (hh : m + 0x80 ≤ high.toNat) :
    step (.inside owed low high code seen) (UInt8.ofNat (m + 0x80)) =
      .more (.inside (owed - 1) 0x80 0xBF (code * 64 + m) (seen + 1)) := by
  rw [step_inside hl hh, if_neg (by omega), Nat.add_sub_cancel]

theorem step_last {m code seen : Nat} {low high : UInt8} (hl : low.toNat ≤ m + 0x80)
    (hh : m + 0x80 ≤ high.toNat) :
    step (.inside 1 low high code seen) (UInt8.ofNat (m + 0x80)) =
      .char (Char.ofNat (code * 64 + m)) := by
  rw [step_inside hl hh, if_pos (Nat.le_refl 1), Nat.add_sub_cancel]

/-- The bytes of a character decode to it, whatever follows. -/
theorem decodeFrom_encodeChar (c : Char) (index : Nat) (rest : List UInt8) :
    decodeFrom .boundary index (String.utf8EncodeChar c ++ rest) =
      (decodeFrom .boundary (index + (String.utf8EncodeChar c).length) rest).map (c :: ·) := by
  have hv : c.val.toNat < 0xD800 ∨ 0xDFFF < c.val.toNat ∧ c.val.toNat < 0x110000 := c.valid
  have hc : Char.ofNat c.val.toNat = c := Char.ofNat_toNat c
  have tail (m : Nat) : (0x80 : UInt8).toNat ≤ m % 64 + 0x80 ∧
      m % 64 + 0x80 ≤ (0xBF : UInt8).toNat := by simp; omega
  rw [String.utf8EncodeChar]
  generalize c.val.toNat = n at hv hc
  have h2 := Nat.div_div_eq_div_mul n 64 64
  have h3 := Nat.div_div_eq_div_mul n 4096 64
  split_ifs with h7 h11 h16 <;> simp only [List.cons_append, List.nil_append]
  · rw [decodeFrom_of_char (step_one h7), hc]
    rfl
  · have hn : n / 64 * 64 + n % 64 = n := by omega
    rw [decodeFrom_of_more (step_two (by omega) h11),
      decodeFrom_of_char (step_last (tail n).1 (tail n).2), hn, hc]
    rfl
  · have hn : (n / 4096 * 64 + n / 64 % 64) * 64 + n % 64 = n := by omega
    obtain ⟨low, high, hlead, hlow, hhigh⟩ := step_three (by omega) h16 (by omega)
    rw [decodeFrom_of_more hlead, decodeFrom_of_more (step_more (by omega) hlow hhigh),
      decodeFrom_of_char (step_last (tail n).1 (tail n).2), hn, hc]
    rfl
  · have hn : ((n / 262144 * 64 + n / 4096 % 64) * 64 + n / 64 % 64) * 64 + n % 64 = n := by omega
    obtain ⟨low, high, hlead, hlow, hhigh⟩ := step_four (n := n) (by omega) (by omega)
    rw [decodeFrom_of_more hlead, decodeFrom_of_more (step_more (by omega) hlow hhigh),
      decodeFrom_of_more (step_more (by omega) (tail _).1 (tail _).2),
      decodeFrom_of_char (step_last (tail n).1 (tail n).2), hn, hc]
    rfl

theorem decodeFrom_flatMap_encodeChar (s : List Char) (index : Nat) :
    decodeFrom .boundary index (s.flatMap String.utf8EncodeChar) = .ok s := by
  induction s generalizing index with
  | nil => rfl
  | cons c s ih =>
    rw [List.flatMap_cons, decodeFrom_encodeChar, ih]
    rfl

theorem decode_encode (s : String) : decode (encode s) = .ok s := by
  rw [decode, encode, decodeFrom_flatMap_encodeChar, Except.map, String.ofList_toList]

theorem zero_mem_encodeChar_iff (c : Char) : 0 ∈ String.utf8EncodeChar c ↔ c = '\x00' := by
  have hc : c = '\x00' ↔ c.val.toNat = 0 := by
    rw [← Char.val_inj, ← UInt32.toNat_inj]
    rfl
  have hzero (m : Nat) (hm : m < 256) : 0 = UInt8.ofNat m ↔ 0 = m := byte_eq_iff (m := 0) (by omega) hm
  rw [hc, String.utf8EncodeChar]
  generalize c.val.toNat = n
  split_ifs <;> simp (disch := omega) only [List.mem_cons, List.not_mem_nil, or_false, hzero] <;>
    omega

def beforeZero (s : String) : String := String.ofList (s.toList.takeWhile (· ≠ '\x00'))

theorem beforeZero_eq_self_iff {s : String} : beforeZero s = s ↔ '\x00' ∉ s.toList := by
  rw [beforeZero, ← String.toList_inj, String.toList_ofList, List.takeWhile_eq_self_iff]
  constructor
  · intro h hmem
    simpa using h _ hmem
  · intro h c hc
    simpa using fun heq : c = '\x00' => h (heq ▸ hc)

theorem takeWhile_flatMap_encodeChar (s : List Char) (rest : List UInt8) :
    (s.flatMap String.utf8EncodeChar ++ 0 :: rest).takeWhile (· ≠ 0) =
      (s.takeWhile (· ≠ '\x00')).flatMap String.utf8EncodeChar := by
  induction s with
  | nil => simp
  | cons c s ih =>
    rw [List.flatMap_cons, List.append_assoc]
    by_cases hc : c = '\x00'
    · subst hc
      simp [String.utf8EncodeChar]
    · have hbytes : ∀ b ∈ String.utf8EncodeChar c, decide (b ≠ 0) = true := by
        intro b hb
        have hzero := mt (zero_mem_encodeChar_iff c).1 hc
        simpa using fun heq : b = 0 => hzero (heq ▸ hb)
      rw [List.takeWhile_append_of_pos hbytes, ih, List.takeWhile_cons_of_pos (by simpa using hc),
        List.flatMap_cons]

theorem takeWhile_encode (s : String) (rest : List UInt8) :
    (encode s ++ 0 :: rest).takeWhile (· ≠ 0) = encode (beforeZero s) := by
  rw [encode, takeWhile_flatMap_encodeChar, encode, beforeZero, String.toList_ofList]

/-- Every byte that may come next ends the encoding of its character, of which `front` has been
read, or is followed by bytes that do. -/
def Awaits : (owed : Nat) → (low high : UInt8) → (code : Nat) → (front : List UInt8) → Prop
  | 0, _, _, _, _ => False
  | 1, low, high, code, front => ∀ b, low ≤ b → b ≤ high →
    String.utf8EncodeChar (Char.ofNat (code * 64 + (b.toNat - 0x80))) = front ++ [b]
  | owed + 2, low, high, code, front => ∀ b, low ≤ b → b ≤ high →
    Awaits (owed + 1) 0x80 0xBF (code * 64 + (b.toNat - 0x80)) (front ++ [b])

def State.Reads : State → List UInt8 → Prop
  | .boundary, front => front = []
  | .inside owed low high code _, front => Awaits owed low high code front

theorem reads_boundary : State.boundary.Reads [] := rfl

theorem toNat_ofNat_of_valid {n : Nat} (hn : n < 0xD800 ∨ 0xDFFF < n ∧ n < 0x110000) :
    (Char.ofNat n).val.toNat = n := by
  rw [Char.ofNat, dif_pos hn]
  rfl

theorem ofNat_eq_of_toNat {n : Nat} {b : UInt8} (h : n = b.toNat) : UInt8.ofNat n = b := by
  rw [h, UInt8.ofNat_toNat]

theorem encodeChar_ofByte {a : UInt8} (ha : a.toNat < 0x80) :
    String.utf8EncodeChar (Char.ofNat a.toNat) = [a] := by
  have hval := toNat_ofNat_of_valid (n := a.toNat) (by omega)
  rw [String.utf8EncodeChar, hval, if_pos (by omega), ofNat_eq_of_toNat rfl]

section

variable {a low high : UInt8} {code : Nat}

theorem awaits_two (ha : a.toNat = code + 0xC0) (hl : 2 ≤ code) (hh : code < 32) :
    Awaits 1 0x80 0xBF code [a] := by
  intro b hbl hbh
  have hb : 0x80 ≤ b.toNat ∧ b.toNat ≤ 0xBF := ⟨hbl, hbh⟩
  obtain ⟨n, hn⟩ : ∃ n, n = code * 64 + (b.toNat - 0x80) := ⟨_, rfl⟩
  rw [← hn, String.utf8EncodeChar, toNat_ofNat_of_valid (by omega), if_neg (by omega),
    if_pos (by omega), ofNat_eq_of_toNat (b := a) (by omega), ofNat_eq_of_toNat (b := b) (by omega)]
  rfl

/-- The second byte keeps short codes and surrogates out. -/
theorem awaits_three (ha : a.toNat = code + 0xE0) (hh : code < 16) (hlow : 0x80 ≤ low.toNat)
    (hhigh : high.toNat ≤ 0xBF) (hshort : code = 0 → 0xA0 ≤ low.toNat)
    (hsurrogate : code = 0xD → high.toNat ≤ 0x9F) : Awaits 2 low high code [a] := by
  intro b hbl hbh c hcl hch
  have hb : low.toNat ≤ b.toNat ∧ b.toNat ≤ high.toNat := ⟨hbl, hbh⟩
  have hc : 0x80 ≤ c.toNat ∧ c.toNat ≤ 0xBF := ⟨hcl, hch⟩
  obtain ⟨n, hn⟩ : ∃ n, n = (code * 64 + (b.toNat - 0x80)) * 64 + (c.toNat - 0x80) := ⟨_, rfl⟩
  rw [← hn, String.utf8EncodeChar, toNat_ofNat_of_valid (by omega), if_neg (by omega),
    if_neg (by omega), if_pos (by omega), ofNat_eq_of_toNat (b := a) (by omega),
    ofNat_eq_of_toNat (b := b) (by omega), ofNat_eq_of_toNat (b := c) (by omega)]
  rfl

/-- The second byte keeps short codes and those behind the last character out. -/
theorem awaits_four (ha : a.toNat = code + 0xF0) (hh : code ≤ 4) (hlow : 0x80 ≤ low.toNat)
    (hhigh : high.toNat ≤ 0xBF) (hshort : code = 0 → 0x90 ≤ low.toNat)
    (hlast : code = 4 → high.toNat ≤ 0x8F) : Awaits 3 low high code [a] := by
  intro b hbl hbh c hcl hch d hdl hdh
  have hb : low.toNat ≤ b.toNat ∧ b.toNat ≤ high.toNat := ⟨hbl, hbh⟩
  have hc : 0x80 ≤ c.toNat ∧ c.toNat ≤ 0xBF := ⟨hcl, hch⟩
  have hd : 0x80 ≤ d.toNat ∧ d.toNat ≤ 0xBF := ⟨hdl, hdh⟩
  obtain ⟨n, hn⟩ : ∃ n, n = ((code * 64 + (b.toNat - 0x80)) * 64 + (c.toNat - 0x80)) * 64 +
      (d.toNat - 0x80) := ⟨_, rfl⟩
  rw [← hn, String.utf8EncodeChar, toNat_ofNat_of_valid (by omega), if_neg (by omega),
    if_neg (by omega), if_neg (by omega), ofNat_eq_of_toNat (b := a) (by omega),
    ofNat_eq_of_toNat (b := b) (by omega), ofNat_eq_of_toNat (b := c) (by omega),
    ofNat_eq_of_toNat (b := d) (by omega)]
  rfl

end

def Step.Reads : Step → List UInt8 → Prop
  | .char c, bytes => String.utf8EncodeChar c = bytes
  | .more state, bytes => state.Reads bytes
  | .refuse, _ => True

theorem reads_lead (a : UInt8) : (lead a).Reads [a] := by
  have ha : a.toNat < 256 := a.toNat_lt
  have hstep := step_boundary ha
  rw [ofNat_eq_of_toNat rfl] at hstep
  rw [show lead a = step .boundary a from rfl, hstep]
  split_ifs
  · exact encodeChar_ofByte (by omega)
  · trivial
  · exact awaits_two (by omega) (by omega) (by omega)
  · exact awaits_three (by omega) (by omega) (by decide) (by decide) (by decide) (by decide)
  · exact awaits_three (by omega) (by omega) (by decide) (by decide) (by decide) (by decide)
  · exact awaits_three (by omega) (by omega) (by decide) (by decide) (by omega) (by omega)
  · exact awaits_four (by omega) (by omega) (by decide) (by decide) (by decide) (by decide)
  · exact awaits_four (by omega) (by omega) (by decide) (by decide) (by omega) (by omega)
  · exact awaits_four (by omega) (by omega) (by decide) (by decide) (by decide) (by decide)
  · trivial

theorem State.Reads.step {state : State} {front : List UInt8} (h : state.Reads front) (b : UInt8) :
    (step state b).Reads (front ++ [b]) := by
  cases state with
  | boundary =>
    obtain rfl : front = [] := h
    exact reads_lead b
  | inside owed low high code seen =>
    rw [Utf8.step]
    split
    · next hb =>
      match owed, h with
      | 1, h => exact h b hb.1 hb.2
      | owed + 2, h => exact h b hb.1 hb.2
    · trivial

/-- What is decoded in a state, behind the bytes of the character that is being read. -/
theorem eq_of_decodeFrom {bytes front : List UInt8} {state : State} (h : state.Reads front)
    {index : Nat} {s : List Char} (hd : decodeFrom state index bytes = .ok s) :
    front ++ bytes = s.flatMap String.utf8EncodeChar := by
  induction bytes generalizing front state index s with
  | nil =>
    cases state with
    | boundary =>
      obtain rfl : front = [] := h
      obtain rfl := Except.ok.inj hd
      rfl
    | inside => exact nomatch hd
  | cons b bytes ih =>
    have hstep := h.step b
    cases hs : step state b with
    | char c =>
      rw [hs] at hstep
      rw [decodeFrom_of_char hs] at hd
      obtain ⟨t, ht, rfl⟩ : ∃ t, decodeFrom .boundary (index + 1) bytes = .ok t ∧ c :: t = s := by
        cases ht : decodeFrom .boundary (index + 1) bytes with
        | ok t => exact ⟨t, rfl, Except.ok.inj (ht ▸ hd)⟩
        | error fault => simp [ht, Except.map] at hd
      have hrest := ih reads_boundary ht
      rw [List.flatMap_cons, ← hrest, hstep]
      simp
    | more next =>
      rw [hs] at hstep
      rw [decodeFrom_of_more hs] at hd
      rw [← ih hstep hd, List.append_assoc, List.singleton_append]
    | refuse =>
      exact nomatch (decodeFrom_of_refuse hs index bytes).symm.trans hd

/-- Bytes are decoded to the text that they are the encoding of, and to nothing else. -/
theorem decode_eq_ok_iff {bytes : List UInt8} {s : String} :
    decode bytes = .ok s ↔ bytes = encode s := by
  constructor
  · intro h
    cases hd : decodeFrom .boundary 0 bytes with
    | error fault => simp [decode, hd, Except.map] at h
    | ok t =>
      obtain rfl : String.ofList t = s := by simpa [decode, hd, Except.map] using h
      rw [encode, String.toList_ofList]
      exact eq_of_decodeFrom reads_boundary hd
  · rintro rfl
    exact decode_encode s

end SolidityHost.Utf8
