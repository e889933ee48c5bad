import SolidityHost.Proofs.Host.Heap
import SolidityHost.Text.Utf8

/-!
# Bytes of a heap

A write puts its bytes where it points and leaves all others as they were; an allocation leaves all
of them. So a text that was put into a fresh block stands there with its zero byte, next to
everything that was in the heap before.
-/

set_option autoImplicit false

namespace SolidityHost.Heap

variable {h h' : Heap} {p : Word} {bytes : List UInt8}

theorem getElem?_overwrite (h : Heap) {p : Nat} {bytes : List UInt8}
    (fits : p + bytes.length ≤ h.size) (i : Nat) :
    (h.overwrite p bytes fits).bytes[i]? =
      if p ≤ i ∧ i < p + bytes.length then bytes[i - p]? else h.bytes[i]? := by
  have hlen : (h.bytes.take p).length = p :=
    (List.length_take ..).trans (Nat.min_eq_left (Nat.le_of_add_right_le fits))
  have hmid : (h.bytes.take p ++ bytes).length = p + bytes.length := by
    rw [List.length_append, hlen]
  show (h.bytes.take p ++ bytes ++ h.bytes.drop (p + bytes.length))[i]? = _
  by_cases hi : i < p + bytes.length
  · rw [List.getElem?_append_left (by omega)]
    by_cases hp : p ≤ i
    · rw [List.getElem?_append_right (by omega), hlen, if_pos ⟨hp, hi⟩]
    · rw [List.getElem?_append_left (by omega), List.getElem?_take_of_lt (Nat.lt_of_not_le hp),
        if_neg fun hin => hp hin.1]
  · have hge : p + bytes.length ≤ i := Nat.le_of_not_lt hi
    rw [List.getElem?_append_right (by omega), hmid, List.getElem?_drop,
      Nat.add_sub_cancel' hge, if_neg fun hin => hi hin.2]

section

variable (hw : h.write? p bytes = some h')

include hw

theorem holds_of_write? : h.Holds p bytes.length := by
  unfold write? at hw
  split at hw
  · assumption
  · contradiction

theorem eq_overwrite_of_write? : h' = h.overwrite p.toNat bytes (holds_of_write? hw).2 := by
  have hh := holds_of_write? hw
  rw [write?, dif_pos hh] at hw
  exact (Option.some.inj hw).symm

theorem size_of_write? : h'.size = h.size := by
  rw [eq_overwrite_of_write? hw, size_overwrite]

theorem getElem?_of_write? (i : Nat) :
    h'.bytes[i]? =
      if p.toNat ≤ i ∧ i < p.toNat + bytes.length then bytes[i - p.toNat]? else h.bytes[i]? := by
  rw [eq_overwrite_of_write? hw, getElem?_overwrite]

end

theorem write?_eq_none (hn : ¬ h.Holds p bytes.length) : h.write? p bytes = none := dif_neg hn

def Stores (h : Heap) (i : Nat) (bytes : List UInt8) : Prop :=
  ∀ k < bytes.length, h.bytes[i + k]? = bytes[k]?

def Extends (h h' : Heap) : Prop := ∀ i < h.size, h'.bytes[i]? = h.bytes[i]?

theorem Extends.refl (h : Heap) : h.Extends h := fun _ _ => rfl

theorem Stores.prefix {i : Nat} (hs : h.Stores i bytes) : bytes <+: h.bytes.drop i := by
  rw [List.prefix_iff_getElem?]
  intro k hk
  rw [List.getElem?_drop, hs k hk, List.getElem?_eq_getElem hk]

theorem Stores.le_size {i : Nat} (hs : h.Stores i bytes) (hne : bytes ≠ []) :
    i + bytes.length ≤ h.size := by
  have hpos := List.length_pos_iff.2 hne
  have hlast : h.bytes[i + (bytes.length - 1)]? = some bytes[bytes.length - 1] :=
    (hs _ (by omega)).trans (List.getElem?_eq_getElem (by omega))
  obtain ⟨hlt, -⟩ := List.getElem?_eq_some_iff.1 hlast
  have hsize : h.bytes.length = h.size := rfl
  omega

theorem Stores.congr {i : Nat} (hs : h.Stores i bytes)
    (he : ∀ k, i ≤ k → k < i + bytes.length → h'.bytes[k]? = h.bytes[k]?) : h'.Stores i bytes := by
  intro k hk
  rw [he (i + k) (Nat.le_add_right i k) (Nat.add_lt_add_left hk i), hs k hk]

theorem stores_append_iff {i : Nat} {front back : List UInt8} :
    h.Stores i (front ++ back) ↔ h.Stores i front ∧ h.Stores (i + front.length) back := by
  constructor
  · refine fun hs => ⟨fun k hk => ?_, fun k hk => ?_⟩
    · rw [hs k (by rw [List.length_append]; omega), List.getElem?_append_left hk]
    · rw [Nat.add_assoc, hs _ (by rw [List.length_append]; omega),
        List.getElem?_append_right (Nat.le_add_right _ k), Nat.add_sub_cancel_left]
  · rintro ⟨hfront, hback⟩ k hk
    rw [List.length_append] at hk
    by_cases hlt : k < front.length
    · rw [hfront k hlt, List.getElem?_append_left hlt]
    · have hb := hback (k - front.length) (by omega)
      rwa [Nat.add_assoc, Nat.add_sub_cancel' (Nat.le_of_not_lt hlt),
        ← List.getElem?_append_right (Nat.le_of_not_lt hlt)] at hb

theorem stores_of_write? (hw : h.write? p bytes = some h') : h'.Stores p.toNat bytes := by
  intro k hk
  rw [getElem?_of_write? hw, if_pos (by omega), Nat.add_sub_cancel_left]

theorem read?_of_stores (hs : h.Stores p.toNat bytes) (hh : h.Holds p bytes.length) :
    h.read? p bytes.length = some bytes := by
  rw [read?, if_pos hh, tailFrom, ← List.prefix_iff_eq_take.1 hs.prefix]

theorem stores_of_read? {count : Nat} (hr : h.read? p count = some bytes) :
    h.Stores p.toNat bytes := by
  unfold read? at hr
  split at hr
  · obtain rfl := Option.some.inj hr
    intro k hk
    rw [List.length_take] at hk
    rw [List.getElem?_take_of_lt (by omega), tailFrom, List.getElem?_drop]
  · contradiction

theorem Holds.mono {count : Nat} (hh : h.Holds p count) (hle : h.size ≤ h'.size) :
    h'.Holds p count := ⟨hh.1, Nat.le_trans hh.2 hle⟩

theorem read?_congr {count : Nat} (hh : h.Holds p count) (hle : h.size ≤ h'.size)
    (he : ∀ k, p.toNat ≤ k → k < p.toNat + count → h'.bytes[k]? = h.bytes[k]?) :
    h'.read? p count = h.read? p count := by
  have hb : (h'.tailFrom p).take count = (h.tailFrom p).take count := by
    apply List.ext_getElem?
    intro k
    rw [tailFrom, tailFrom, List.getElem?_take, List.getElem?_take, List.getElem?_drop,
      List.getElem?_drop]
    split
    · exact he _ (by omega) (by omega)
    · rfl
  rw [read?, read?, if_pos hh, if_pos (hh.mono hle), hb]

theorem readWord?_of_write? {w : Word} (hw : h.write? p w.toBytes = some h') :
    h'.readWord? p = some w := by
  have hlen : w.toBytes.length = Word.size := Word.length_toBytes w
  have hh := holds_of_write? hw
  rw [readWord?, ← hlen, read?_of_stores (stores_of_write? hw) ⟨hh.1, size_of_write? hw ▸ hh.2⟩,
    Option.map_some, Word.ofBytes_toBytes]

def Room (h : Heap) (size : Nat) : Prop := h.next + max size 1 < limit

instance (h : Heap) (size : Nat) : Decidable (h.Room size) := inferInstanceAs (Decidable (_ < _))

theorem size_le_next (h : Heap) : h.size ≤ h.next := by
  unfold next
  omega

theorem exists_allocate? {size : Nat} (hr : h.Room size) :
    ∃ p h', h.allocate? size = some (p, h') := ⟨_, _, dif_pos hr⟩

theorem allocate?_eq_none {size : Nat} (hr : ¬ h.Room size) : h.allocate? size = none :=
  dif_neg hr

theorem extends_of_allocate? {size : Nat} (ha : h.allocate? size = some (p, h')) :
    h.Extends h' := by
  intro i hi
  unfold allocate? at ha
  split at ha
  · obtain ⟨-, rfl⟩ := by simpa using ha
    exact List.getElem?_append_left hi
  · contradiction

theorem Extends.write? {h₀ : Heap} (he : h.Extends h') (hw : h'.write? p bytes = some h₀)
    (hp : h.size ≤ p.toNat) : h.Extends h₀ := by
  intro i hi
  rw [getElem?_of_write? hw, if_neg (by omega), he i hi]

structure Placed (h : Heap) (text : String) (p : Word) (h' : Heap) : Prop where
  address_eq : p.toNat = h.next
  size_eq : h'.size = h.next + (Utf8.width text + 1)
  stores : h'.Stores p.toNat (Utf8.encode text ++ [0])
  keeps : h.Extends h'

theorem placed_of_write? {text : String} {h₀ h₁ h₂ : Heap}
    (ha : h.allocate? (Utf8.width text + 1) = some (p, h₀))
    (hw : h₀.write? p (Utf8.encode text) = some h₁)
    (hz : h₁.write? (p + UInt64.ofNat (Utf8.width text)) [0] = some h₂) :
    h.Placed text p h₂ := by
  obtain ⟨hp, hsize, hlimit⟩ := size_of_allocate? ha
  have hnext := h.size_le_next
  have hmax : max (Utf8.width text + 1) 1 = Utf8.width text + 1 := by omega
  rw [hmax] at hsize hlimit
  have hback : (p + UInt64.ofNat (Utf8.width text)).toNat = p.toNat + Utf8.width text :=
    toNat_add_ofNat (by unfold limit at hlimit; omega)
  refine ⟨hp, ?_, stores_append_iff.2 ⟨?_, ?_⟩, ?_⟩
  · rw [size_of_write? hz, size_of_write? hw, hsize]
  · apply (stores_of_write? hw).congr
    intro k _ hk
    have hlt : k < p.toNat + Utf8.width text := hk
    rw [getElem?_of_write? hz, if_neg (by omega)]
  · have hs := stores_of_write? hz
    rwa [hback] at hs
  · exact ((extends_of_allocate? ha).write? hw (by omega)).write? hz (by omega)

theorem exists_placed {text : String} (hr : h.Room (Utf8.width text + 1)) :
    ∃ p h₀ h₁ h₂, h.allocate? (Utf8.width text + 1) = some (p, h₀) ∧
      h₀.write? p (Utf8.encode text) = some h₁ ∧
      h₁.write? (p + UInt64.ofNat (Utf8.width text)) [0] = some h₂ ∧ h.Placed text p h₂ := by
  obtain ⟨p, h₀, ha⟩ := exists_allocate? hr
  obtain ⟨h₁, h₂, hw, hz⟩ := exists_write?_text ha
  exact ⟨p, h₀, h₁, h₂, ha, hw, hz, placed_of_write? ha hw hz⟩

namespace Placed

variable {text : String} (hp : h.Placed text p h')

include hp

theorem base_le : base ≤ p.toNat := by
  rw [hp.address_eq]
  exact h.base_le_next

theorem size_le : h.size ≤ p.toNat := by
  rw [hp.address_eq]
  exact h.size_le_next

theorem room : h.Room (Utf8.width text + 1) := by
  have hlt : h'.size < limit := h'.lt_limit
  have hsize := hp.size_eq
  unfold Room
  omega

end Placed

/-- A text stands in a fresh block with a zero byte behind it, and the address of the block stands
at `out`. Every other byte is what it was. -/
structure Delivered (h : Heap) (text : String) (out block : Word) (h' : Heap) : Prop where
  fresh : h.size ≤ block.toNat
  readWord?_eq : h'.readWord? out = some block
  read?_eq : h'.read? block (Utf8.width text + 1) = some (Utf8.encode text ++ [0])
  keeps : ∀ i < h.size, ¬ (out.toNat ≤ i ∧ i < out.toNat + Word.size) → h'.bytes[i]? = h.bytes[i]?

section

variable {text : String} {out block : Word} {h₁ : Heap}

theorem Placed.delivered (hp : h.Placed text block h₁) (hout : out.toNat + Word.size ≤ h.next)
    (hw : h₁.write? out block.toBytes = some h') : h.Delivered text out block h' where
  fresh := hp.size_le
  readWord?_eq := readWord?_of_write? hw
  read?_eq := by
    have hlen : (Utf8.encode text ++ [0]).length = Utf8.width text + 1 := List.length_append ..
    have hh : h'.Holds block (Utf8.width text + 1) := by
      refine ⟨hp.base_le, Nat.le_of_eq ?_⟩
      rw [size_of_write? hw, hp.size_eq, hp.address_eq]
    rw [← hlen] at hh ⊢
    refine read?_of_stores (hp.stores.congr fun k hk _ => ?_) hh
    have hword : block.toBytes.length = Word.size := Word.length_toBytes block
    rw [← hp.address_eq] at hout
    rw [getElem?_of_write? hw, if_neg (by omega)]
  keeps := by
    intro i hi hn
    have hword : block.toBytes.length = Word.size := Word.length_toBytes block
    rw [getElem?_of_write? hw, hword, if_neg hn]
    exact hp.keeps i hi

theorem Delivered.size_le (hd : h.Delivered text out block h') : h.size ≤ h'.size := by
  have hread := hd.read?_eq
  unfold read? at hread
  split at hread
  · next hh => exact Nat.le_trans hd.fresh (Nat.le_of_add_right_le hh.2)
  · contradiction

theorem Delivered.readWord?_other (hd : h.Delivered text out block h') {other : Word}
    (hh : h.Holds other Word.size)
    (hapart : other.toNat + Word.size ≤ out.toNat ∨ out.toNat + Word.size ≤ other.toNat) :
    h'.readWord? other = h.readWord? other := by
  refine congrArg (Option.map Word.ofBytes) (read?_congr hh hd.size_le fun k hk hlt => ?_)
  exact hd.keeps k (Nat.lt_of_lt_of_le hlt hh.2) (by omega)

end

end SolidityHost.Heap
