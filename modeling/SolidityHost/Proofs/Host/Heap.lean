import SolidityHost.Host.Heap

/-!
# Blocks and writes

A block that was handed out can be written: an allocation that succeeds leaves room for what it was
asked for, and a write changes no size.
-/

set_option autoImplicit false

namespace SolidityHost.Heap

theorem base_le_next (h : Heap) : base ≤ h.next := by
  have hb : 8 ≤ h.size := h.base_le
  show 8 ≤ (h.size + 7) / 8 * 8
  omega

theorem size_of_allocate? {h h' : Heap} {size : Nat} {p : Word}
    (ha : h.allocate? size = some (p, h')) :
    p.toNat = h.next ∧ h'.size = h.next + max size 1 ∧ h.next + max size 1 < limit := by
  unfold allocate? at ha
  split at ha
  · next fits =>
    obtain ⟨rfl, rfl⟩ := by simpa using ha
    have hn : h.next < 0x10000000000000000 := by unfold limit at fits; omega
    have hle : h.size ≤ h.next + max size 1 := by unfold next; omega
    refine ⟨UInt64.toNat_ofNat_of_lt' hn, ?_, fits⟩
    show (h.bytes ++ List.replicate _ _).length = _
    rw [List.length_append, List.length_replicate]
    exact Nat.add_sub_cancel' hle
  · contradiction

theorem size_overwrite (h : Heap) {p : Nat} {bytes : List UInt8}
    (fits : p + bytes.length ≤ h.size) :
    (h.overwrite p bytes fits).size = h.size := by
  have hlen : h.bytes.length = h.size := rfl
  show (h.bytes.take p ++ bytes ++ h.bytes.drop (p + bytes.length)).length = _
  simp only [List.length_append, List.length_take, List.length_drop]
  omega

theorem size_reset (h : Heap) : h.reset.size = base :=
  (List.length_take ..).trans (Nat.min_eq_left h.base_le)

theorem exists_write? (h : Heap) (p : Word) (bytes : List UInt8) (holds : h.Holds p bytes.length) :
    ∃ h', h.write? p bytes = some h' ∧ h'.size = h.size :=
  ⟨_, dif_pos holds, h.size_overwrite holds.2⟩

/-- An address within a block does not wrap around. -/
theorem toNat_add_ofNat {p : Word} {n : Nat} (hn : p.toNat + n < 0x10000000000000000) :
    (p + UInt64.ofNat n).toNat = p.toNat + n := by
  have hlow : (UInt64.ofNat n).toNat = n := UInt64.toNat_ofNat_of_lt' (Nat.lt_of_add_left_lt hn)
  rw [UInt64.toNat_add, hlow]
  exact Nat.mod_eq_of_lt hn

theorem exists_write?_text {h h' : Heap} {p : Word} {bytes : List UInt8}
    (ha : h.allocate? (bytes.length + 1) = some (p, h')) :
    ∃ h₁ h₂, h'.write? p bytes = some h₁ ∧
      h₁.write? (p + UInt64.ofNat bytes.length) [0] = some h₂ := by
  obtain ⟨hp, hsize, hlimit⟩ := size_of_allocate? ha
  have hbase := h.base_le_next
  have hmax : max (bytes.length + 1) 1 = bytes.length + 1 := by omega
  rw [hmax] at hsize hlimit
  obtain ⟨h₁, hw, hs⟩ := exists_write? h' p bytes ⟨by omega, by omega⟩
  have hn : (p + UInt64.ofNat bytes.length).toNat = p.toNat + bytes.length :=
    toNat_add_ofNat (by unfold limit at hlimit; omega)
  have holds : h₁.Holds (p + UInt64.ofNat bytes.length) 1 := ⟨by omega, by omega⟩
  obtain ⟨h₂, hw', -⟩ := exists_write? h₁ _ [0] holds
  exact ⟨h₁, h₂, hw, hw'⟩

end SolidityHost.Heap
