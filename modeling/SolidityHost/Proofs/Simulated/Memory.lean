import SolidityHost.Proofs.Simulated.Text

/-!
# The heap of a simulated module as a store of bytes

An address is any machine word. An access is refused unless its whole range lies between the first
eight bytes of the heap and its end; the end is taken without wrapping around. A write that is not
refused changes the bytes of its range and nothing else, so a word reads as it was written and every
word apart from it as before. A text is what the bytes up to the next zero byte encode.
-/

set_option autoImplicit false

namespace SolidityHost

namespace Word

theorem lowBytes_ofLowBytes (bytes : List UInt8) :
    lowBytes bytes.length (ofLowBytes bytes) = bytes := by
  induction bytes with
  | nil => rfl
  | cons b bytes ih =>
    have hb : b.toNat < 256 := b.toNat_lt
    have hbyte : UInt8.ofNat (b.toNat + 256 * ofLowBytes bytes) = b := by
      rw [← UInt8.toNat_inj, UInt8.toNat_ofNat']
      omega
    have hrest : (b.toNat + 256 * ofLowBytes bytes) / 256 = ofLowBytes bytes := by omega
    rw [List.length_cons, lowBytes, ofLowBytes, hbyte, hrest, ih]

theorem ofLowBytes_lt (bytes : List UInt8) : ofLowBytes bytes < Nat.pow 256 bytes.length := by
  induction bytes with
  | nil => exact Nat.one_pos
  | cons b bytes ih =>
    have hb : b.toNat < 256 := b.toNat_lt
    have hpow : Nat.pow 256 (bytes.length + 1) = Nat.pow 256 bytes.length * 256 := rfl
    rw [ofLowBytes, List.length_cons, hpow]
    omega

theorem toBytes_ofBytes {bytes : List UInt8} (hlen : bytes.length = size) :
    toBytes (ofBytes bytes) = bytes := by
  have hlt := ofLowBytes_lt bytes
  rw [hlen] at hlt
  have hnat : (ofBytes bytes).toNat = ofLowBytes bytes := UInt64.toNat_ofNat_of_lt' hlt
  rw [toBytes, hnat, ← hlen, lowBytes_ofLowBytes]

end Word

namespace Heap

variable {h h' : Heap} {p : Word}

def FirstZero (h : Heap) (i stop : Nat) : Prop :=
  i ≤ stop ∧ h.bytes[stop]? = some 0 ∧ ∀ k, i ≤ k → k < stop → h.bytes[k]? ≠ some 0

theorem firstZero_add_iff {i k : Nat} :
    h.FirstZero i (i + k) ↔ k < (h.bytes.drop i).length ∧
      (h.bytes.drop i).findIdx (fun b => !decide (b ≠ 0)) = k := by
  constructor
  · rintro ⟨-, hzero, hfirst⟩
    rw [← List.getElem?_drop] at hzero
    obtain ⟨hlt, hk⟩ := List.getElem?_eq_some_iff.1 hzero
    refine ⟨hlt, (List.findIdx_eq hlt).2 ⟨by simp [hk], fun j hj => ?_⟩⟩
    have hne := hfirst (i + j) (Nat.le_add_right i j) (Nat.add_lt_add_left hj i)
    rw [← List.getElem?_drop, List.getElem?_eq_getElem (hj.trans hlt)] at hne
    simpa using fun hb => hne (congrArg some hb)
  · rintro ⟨hlt, hidx⟩
    obtain ⟨hk, hfirst⟩ := (List.findIdx_eq hlt).1 hidx
    refine ⟨Nat.le_add_right i k, ?_, fun j hi hj hzero => ?_⟩
    · rw [← List.getElem?_drop, List.getElem?_eq_getElem hlt]
      simpa using hk
    · obtain ⟨d, rfl⟩ := Nat.exists_eq_add_of_le hi
      have hd : d < k := Nat.lt_of_add_lt_add_left hj
      rw [← List.getElem?_drop, List.getElem?_eq_getElem (hd.trans hlt)] at hzero
      exact absurd (Option.some.inj hzero) (by simpa using hfirst d hd)

theorem takeWhile_tailFrom_iff {bytes : List UInt8} :
    (0 ∈ h.tailFrom p ∧ (h.tailFrom p).takeWhile (· ≠ 0) = bytes) ↔
      ∃ stop, h.FirstZero p.toNat stop ∧
        (h.bytes.drop p.toNat).take (stop - p.toNat) = bytes := by
  have hmem : 0 ∈ h.tailFrom p ↔ (h.bytes.drop p.toNat).findIdx (fun b => !decide (b ≠ 0)) <
      (h.bytes.drop p.toNat).length := by
    rw [List.findIdx_lt_length, tailFrom]
    simp
  rw [List.takeWhile_eq_take_findIdx_not, hmem, tailFrom]
  constructor
  · rintro ⟨hlt, rfl⟩
    refine ⟨_, firstZero_add_iff.2 ⟨hlt, rfl⟩, ?_⟩
    rw [Nat.add_sub_cancel_left]
  · rintro ⟨stop, hz, rfl⟩
    obtain ⟨k, rfl⟩ := Nat.exists_eq_add_of_le hz.1
    obtain ⟨hlt, hidx⟩ := firstZero_add_iff.1 hz
    rw [hidx, Nat.add_sub_cancel_left]
    exact ⟨hlt, rfl⟩

theorem readWord?_eq_some_iff {w : Word} :
    h.readWord? p = some w ↔ h.Holds p Word.size ∧ h.Stores p.toNat w.toBytes := by
  have hlen : w.toBytes.length = Word.size := Word.length_toBytes w
  constructor
  · intro hr
    obtain ⟨bytes, hread, rfl⟩ := Option.map_eq_some_iff.1 hr
    have hh : h.Holds p Word.size := by
      by_contra hn
      rw [read?, if_neg hn] at hread
      contradiction
    have hsize : bytes.length = Word.size := by
      have hle := hh.2
      have htotal : h.bytes.length = h.size := rfl
      rw [read?, if_pos hh] at hread
      rw [← Option.some.inj hread, tailFrom, List.length_take, List.length_drop]
      omega
    rw [Word.toBytes_ofBytes hsize]
    exact ⟨hh, stores_of_read? hread⟩
  · rintro ⟨hh, hs⟩
    rw [← hlen] at hh
    rw [readWord?, ← hlen, read?_of_stores hs hh, Option.map_some, Word.ofBytes_toBytes]

/-- A word apart from the bytes that are written is what it was, also where there is none. -/
theorem readWord?_of_write?_apart {q : Word} {bytes : List UInt8} (hw : h.write? p bytes = some h')
    (hq : q.toNat + Word.size ≤ p.toNat ∨ p.toNat + bytes.length ≤ q.toNat) :
    h'.readWord? q = h.readWord? q := by
  have hsize := size_of_write? hw
  by_cases hh : h.Holds q Word.size
  · refine congrArg (Option.map Word.ofBytes) (read?_congr hh (Nat.le_of_eq hsize.symm) ?_)
    intro k hk hlt
    rw [getElem?_of_write? hw, if_neg (by omega)]
  · have hh' : ¬ h'.Holds q Word.size := fun hin => hh (hin.mono (Nat.le_of_eq hsize))
    rw [readWord?, readWord?, read?, read?, if_neg hh, if_neg hh']

end Heap

def Op.range? {F : Type} : Op F → Option (Word × Nat)
  -- where the bytes begin, and how many are asked for without looking at them
  | .readText p => some (p, 0)
  | .writeBytes p bytes => some (p, bytes.length)
  | .readWord p => some (p, Word.size)
  | .writeWord p _ => some (p, Word.size)
  | _ => none

namespace Simulated

variable {C σ : Type} {m : Simulated C σ} {p : Word}

theorem readText_eq_ok_iff {text : String} :
    m.readText p = .ok text ↔ m.heap.Holds p 0 ∧ ∃ stop, m.heap.FirstZero p.toNat stop ∧
      (m.heap.bytes.drop p.toNat).take (stop - p.toNat) = Utf8.encode text := by
  rw [← Heap.takeWhile_tailFrom_iff, ← Utf8.decode_eq_ok_iff]
  by_cases hh : m.heap.Holds p 0
  · by_cases hz : 0 ∈ m.heap.tailFrom p
    · rw [readText, if_pos hh]
      dsimp only
      rw [if_pos hz]
      cases hd : Utf8.decode ((m.heap.tailFrom p).takeWhile (· ≠ 0)) with
      | ok s => simp [hh, hz]
      | error fault => simp [hh, hz, internal]
    · simp [readText, hh, hz, refuse]
  · simp [readText, hh, refuse]

theorem readWord_eq_ok_iff {w : Word} :
    m.readWord p = .ok w ↔ m.heap.Holds p Word.size ∧ m.heap.Stores p.toNat w.toBytes := by
  rw [← Heap.readWord?_eq_some_iff, readWord]
  cases m.heap.readWord? p <;> simp [refuse]

theorem writeBytes_eq_ok_iff {bytes : List UInt8} :
    (m.writeBytes p bytes).1 = .ok () ↔ m.heap.Holds p bytes.length := by
  constructor
  · intro hok
    by_contra hn
    rw [writeBytes_of_none (Heap.write?_eq_none hn)] at hok
    contradiction
  · intro hh
    obtain ⟨heap, hw, -⟩ := m.heap.exists_write? p bytes hh
    rw [writeBytes_of_some hw]

/-- What every access at an address does. The state may be any one, so these hold before and after
everything else that is done with the module. -/
structure BoundedAt (code : C → List Value → HostProgram C σ Value)
    (runner : Runner (HostFunction C σ) σ (Simulated C σ)) (s : Simulated C σ × σ) (p : Word) :
    Prop where
  base_le_size : 8 ≤ s.1.heap.size
  -- the end of a range within the heap is an address as well
  end_eq (n : Nat) : p.toNat + n ≤ s.1.heap.size → (p + UInt64.ofNat n).toNat = p.toNat + n
  writes_iff (bytes : List UInt8) : (perform code runner (.writeBytes p bytes) s).1 = .ok () ↔
    8 ≤ p.toNat ∧ p.toNat + bytes.length ≤ s.1.heap.size
  writes (bytes : List UInt8) : (perform code runner (.writeBytes p bytes) s).1 = .ok () →
    ∃ heap, perform code runner (.writeBytes p bytes) s = (.ok (), ({ s.1 with heap }, s.2)) ∧
      heap.size = s.1.heap.size ∧
      ∀ i, heap.bytes[i]? = if p.toNat ≤ i ∧ i < p.toNat + bytes.length then bytes[i - p.toNat]?
        else s.1.heap.bytes[i]?
  writeFails (bytes : List UInt8) : (perform code runner (.writeBytes p bytes) s).1 ≠ .ok () →
    (perform code runner (.writeBytes p bytes) s).2 = s
  writesWord (w : Word) : perform code runner (.writeWord p w) s =
    perform code runner (.writeBytes p w.toBytes) s
  readsWord_iff (w : Word) : (perform code runner (.readWord p) s).1 = .ok w ↔
    8 ≤ p.toNat ∧ p.toNat + 8 ≤ s.1.heap.size ∧
      ∀ k < 8, s.1.heap.bytes[p.toNat + k]? = w.toBytes[k]?
  readsWritten (w : Word) : (perform code runner (.writeWord p w) s).1 = .ok () →
    (perform code runner (.readWord p) (perform code runner (.writeWord p w) s).2).1 = .ok w
  readsOther (w q : Word) : q.toNat + 8 ≤ p.toNat ∨ p.toNat + 8 ≤ q.toNat →
    (perform code runner (.readWord q) (perform code runner (.writeWord p w) s).2).1 =
      (perform code runner (.readWord q) s).1
  readsText_iff (text : String) : (perform code runner (.readText p) s).1 = .ok text ↔
    8 ≤ p.toNat ∧ p.toNat ≤ s.1.heap.size ∧ ∃ stop, s.1.heap.FirstZero p.toNat stop ∧
      (s.1.heap.bytes.drop p.toNat).take (stop - p.toNat) = Utf8.encode text
  readKeeps : (perform code runner (.readText p) s).2 = s ∧
    (perform code runner (.readWord p) s).2 = s
  -- an access goes ahead only where all that it asks for is in the heap
  refuses_iff (o : Op (HostFunction C σ)) (n : Nat) : o.range? = some (p, n) →
    (perform code runner o s = (refuse .outOfBounds, s) ↔
      ¬ (8 ≤ p.toNat ∧ p.toNat + n ≤ s.1.heap.size))

section

variable {code : C → List Value → HostProgram C σ Value}
  {runner : Runner (HostFunction C σ) σ (Simulated C σ)} {s : Simulated C σ × σ}

theorem perform_writeWord (w : Word) :
    perform code runner (.writeWord p w) s = perform code runner (.writeBytes p w.toBytes) s := rfl

theorem perform_readWord (q : Word) : perform code runner (.readWord q) s = (s.1.readWord q, s) :=
  rfl

variable (code runner) in
theorem perform_writeBytes_of_holds {bytes : List UInt8} (hh : s.1.heap.Holds p bytes.length) :
    ∃ heap, s.1.heap.write? p bytes = some heap ∧
      perform code runner (.writeBytes p bytes) s = (.ok (), ({ s.1 with heap }, s.2)) := by
  obtain ⟨heap, hw, -⟩ := s.1.heap.exists_write? p bytes hh
  exact ⟨heap, hw, by rw [perform, writeBytes_of_some hw]⟩

theorem perform_writeBytes_of_not_holds {bytes : List UInt8}
    (hn : ¬ s.1.heap.Holds p bytes.length) :
    perform code runner (.writeBytes p bytes) s = (refuse .outOfBounds, s) := by
  rw [perform, writeBytes_of_none (Heap.write?_eq_none hn)]

theorem perform_writeBytes_eq_ok_iff {bytes : List UInt8} :
    (perform code runner (.writeBytes p bytes) s).1 = .ok () ↔ s.1.heap.Holds p bytes.length :=
  writeBytes_eq_ok_iff

/-- What is refused is what lies outside, whichever access it is. -/
theorem perform_eq_outOfBounds_iff {o : Op (HostFunction C σ)} {n : Nat}
    (ho : o.range? = some (p, n)) :
    perform code runner o s = (refuse .outOfBounds, s) ↔ ¬ s.1.heap.Holds p n := by
  have write (bytes : List UInt8) : perform code runner (.writeBytes p bytes) s =
      (refuse .outOfBounds, s) ↔ ¬ s.1.heap.Holds p bytes.length := by
    refine ⟨fun hr hh => ?_, perform_writeBytes_of_not_holds⟩
    have hok : (perform code runner (.writeBytes p bytes) s).1 = .ok () :=
      perform_writeBytes_eq_ok_iff.2 hh
    rw [hr] at hok
    contradiction
  cases o with
  | readText q =>
    obtain ⟨rfl, rfl⟩ := Prod.mk.inj (Option.some.inj ho)
    refine ⟨fun hr hh => ?_, fun hn => Prod.ext (if_neg hn) rfl⟩
    have hr : s.1.readText q = refuse .outOfBounds := congrArg Prod.fst hr
    rw [readText, if_pos hh] at hr
    dsimp only at hr
    split at hr
    · split at hr <;> simp [refuse, internal] at hr
    · simp [refuse] at hr
  | readWord q =>
    obtain ⟨rfl, rfl⟩ := Prod.mk.inj (Option.some.inj ho)
    refine ⟨fun hr hh => ?_, fun hn => Prod.ext ?_ rfl⟩
    · have hr : s.1.readWord q = refuse .outOfBounds := congrArg Prod.fst hr
      rw [readWord, Heap.readWord?, Heap.read?, if_pos hh] at hr
      contradiction
    · show s.1.readWord q = _
      rw [readWord, Heap.readWord?, Heap.read?, if_neg hn]
      rfl
  | writeBytes q bytes =>
    obtain ⟨rfl, rfl⟩ := Prod.mk.inj (Option.some.inj ho)
    exact write bytes
  | writeWord q w =>
    obtain ⟨rfl, rfl⟩ := Prod.mk.inj (Option.some.inj ho)
    exact write w.toBytes
  | exports | call | invoke | register | release | allocate | free => simp [Op.range?] at ho

end

/-- The heap is a store of bytes with bounds, whatever the module is and whatever was done with it:
at every address each access is refused or stays within the heap, and does there what it says. -/
theorem boundedAt (code : C → List Value → HostProgram C σ Value)
    (runner : Runner (HostFunction C σ) σ (Simulated C σ)) (s : Simulated C σ × σ) (p : Word) :
    BoundedAt code runner s p where
  base_le_size := s.1.heap.base_le
  end_eq n hn := by
    have hlimit : s.1.heap.size < 0x8000000000000000 := s.1.heap.lt_limit
    exact Heap.toNat_add_ofNat (by omega)
  writes_iff _ := perform_writeBytes_eq_ok_iff
  writes bytes hok := by
    obtain ⟨heap, hw, hperform⟩ :=
      perform_writeBytes_of_holds code runner (perform_writeBytes_eq_ok_iff.1 hok)
    exact ⟨heap, hperform, Heap.size_of_write? hw, Heap.getElem?_of_write? hw⟩
  writeFails bytes hne := by
    rw [perform_writeBytes_of_not_holds (mt perform_writeBytes_eq_ok_iff.2 hne)]
  writesWord := perform_writeWord
  readsWord_iff w := by
    have hlen : w.toBytes.length = 8 := Word.length_toBytes w
    refine readWord_eq_ok_iff.trans ?_
    rw [Heap.Stores, hlen]
    exact and_assoc
  readsWritten w hok := by
    rw [perform_writeWord] at hok ⊢
    obtain ⟨heap, hw, hperform⟩ :=
      perform_writeBytes_of_holds code runner (perform_writeBytes_eq_ok_iff.1 hok)
    rw [hperform, perform_readWord, readWord, Heap.readWord?_of_write? hw]
  readsOther w q hq := by
    rw [perform_writeWord]
    by_cases hh : s.1.heap.Holds p w.toBytes.length
    · obtain ⟨heap, hw, hperform⟩ := perform_writeBytes_of_holds code runner hh
      rw [← Word.length_toBytes w] at hq
      rw [hperform, perform_readWord, perform_readWord, readWord, readWord,
        Heap.readWord?_of_write?_apart hw hq]
    · rw [perform_writeBytes_of_not_holds hh]
  readsText_iff _ := readText_eq_ok_iff.trans and_assoc
  readKeeps := ⟨rfl, rfl⟩
  refuses_iff _ _ := perform_eq_outOfBounds_iff

end Simulated

end SolidityHost
