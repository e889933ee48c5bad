import Mathlib.Tactic.SplitIfs
import SolidityHost.Text.Utf8

/-!
# The order of UTF-8

Texts compare character by character as their encodings compare byte by byte. So the order in which
dictionaries list their keys is the order of bytes.
-/

set_option autoImplicit false

namespace SolidityHost.Utf8

theorem byte_lt_iff {m n : Nat} (hm : m < 256) (hn : n < 256) :
    UInt8.ofNat m < UInt8.ofNat n ↔ m < n := by
  rw [UInt8.lt_iff_toNat_lt, UInt8.toNat_ofNat_of_lt' hm, UInt8.toNat_ofNat_of_lt' hn]

theorem byte_eq_iff {m n : Nat} (hm : m < 256) (hn : n < 256) :
    UInt8.ofNat m = UInt8.ofNat n ↔ m = n := by
  rw [← UInt8.toNat_inj, UInt8.toNat_ofNat_of_lt' hm, UInt8.toNat_ofNat_of_lt' hn]

theorem sextet_lt {m n : Nat} (h : m < n) :
    m / 64 < n / 64 ∨ m / 64 = n / 64 ∧ m % 64 < n % 64 := by
  omega

/-- A smaller code point has smaller digits, the leading one of three bits before three of six. -/
theorem digits_lt {m n : Nat} (h : m < n) (hn : n < 0x110000) :
    m / 262144 % 8 < n / 262144 % 8 ∨ m / 262144 % 8 = n / 262144 % 8 ∧
      (m / 4096 % 64 < n / 4096 % 64 ∨ m / 4096 % 64 = n / 4096 % 64 ∧
        (m / 64 % 64 < n / 64 % 64 ∨ m / 64 % 64 = n / 64 % 64 ∧ m % 64 < n % 64)) := by
  have hm12 := Nat.div_div_eq_div_mul m 64 64
  have hn12 := Nat.div_div_eq_div_mul n 64 64
  have hm18 := Nat.div_div_eq_div_mul m 4096 64
  have hn18 := Nat.div_div_eq_div_mul n 4096 64
  rcases sextet_lt h with h6 | ⟨h6, h0⟩
  · rcases sextet_lt h6 with h12 | ⟨h12, h6⟩
    · rw [hm12, hn12] at h12
      rcases sextet_lt h12 with h18 | ⟨h18, h12⟩ <;> omega
    · omega
  · omega

/-- A smaller character has a smaller encoding, and what follows does not matter: no encoding
begins another one. -/
theorem encodeChar_append_lt {a b : Char} (h : a < b) (x y : List UInt8) :
    String.utf8EncodeChar a ++ x < String.utf8EncodeChar b ++ y := by
  have hlt : a.val.toNat < b.val.toNat := h
  have hb : b.val.toNat < 0x110000 := by
    have hv := b.valid
    simp only [UInt32.isValidChar, Nat.isValidChar] at hv
    omega
  have hdigits := digits_lt hlt hb
  simp only [String.utf8EncodeChar]
  generalize a.val.toNat = m at hlt hdigits
  generalize b.val.toNat = n at hlt hb hdigits
  split_ifs <;>
    simp (disch := omega) only [List.cons_append, List.nil_append, List.cons_lt_cons_iff,
      byte_lt_iff, byte_eq_iff] <;>
    omega

theorem encodeChar_ne_nil (c : Char) : String.utf8EncodeChar c ≠ [] := by
  rw [String.utf8EncodeChar]
  split_ifs <;> simp

theorem flatMap_encodeChar_lt {s t : List Char} (h : s < t) :
    s.flatMap String.utf8EncodeChar < t.flatMap String.utf8EncodeChar := by
  induction t generalizing s with
  | nil => exact absurd h (List.not_lt_nil s)
  | cons b t ih =>
    cases s with
    | nil =>
      rw [List.flatMap_nil, List.flatMap_cons]
      obtain ⟨c, rest, hc⟩ := List.exists_cons_of_ne_nil (encodeChar_ne_nil b)
      rw [hc]
      exact List.nil_lt_cons _ _
    | cons a s =>
      rw [List.flatMap_cons, List.flatMap_cons]
      rcases List.cons_lt_cons_iff.1 h with hab | ⟨rfl, hst⟩
      · exact encodeChar_append_lt hab _ _
      · exact List.append_left_lt (ih hst)

theorem encode_lt {s t : String} (h : s < t) : encode s < encode t := flatMap_encodeChar_lt h

end SolidityHost.Utf8
