import SolidityHost.Proofs.Simulated.EntryRun
import SolidityHost.Proofs.Text.Utf8

/-!
# Texts in a simulated module

A text that is put into the module goes into a fresh block with a zero byte behind it, so it reads
as what stands before its first zero character. Where the allocator is built in or the heap itself,
copying a text to an address does the same and then stores the address of the block there.
-/

set_option autoImplicit false

namespace SolidityHost

open Program

variable {C σ α : Type} {code : C → List Value → HostProgram C σ Value}
  {runner : Runner (HostFunction C σ) σ (Simulated C σ)}

def Primitives.AllocatesIn (c : Primitives) (m : Simulated C σ) : Prop :=
  ∀ symbol, c.allocator = .entry symbol →
    m.entries.lookup symbol = some .allocator ∧ symbol ∉ m.running

namespace Simulated

variable {m : Simulated C σ} {text : String} {p : Word}

theorem readText_of_stores (hb : Heap.base ≤ p.toNat)
    (hs : m.heap.Stores p.toNat (Utf8.encode text ++ [0])) :
    m.readText p = .ok (Utf8.beforeZero text) := by
  have hholds : m.heap.Holds p 0 := by
    have hle := hs.le_size (by simp)
    exact ⟨hb, by omega⟩
  obtain ⟨rest, hrest⟩ := hs.prefix
  rw [List.append_assoc, List.singleton_append] at hrest
  have htail : m.heap.tailFrom p = Utf8.encode text ++ 0 :: rest := hrest.symm
  have hzero : (0 : UInt8) ∈ Utf8.encode text ++ 0 :: rest := by simp
  simp only [readText, if_pos hholds, htail, if_pos hzero, Utf8.takeWhile_encode,
    Utf8.decode_encode]

theorem readText_of_placed {h heap : Heap} (hp : h.Placed text p heap) :
    ({ m with heap } : Simulated C σ).readText p = .ok (Utf8.beforeZero text) :=
  readText_of_stores hp.base_le hp.stores

theorem call_allocator {symbol : String} {s : Simulated C σ × σ} {v : Value} {size : Word}
    (he : s.1.entries.lookup symbol = some .allocator) (hrun : symbol ∉ s.1.running)
    (hv : v.word = .ok size) :
    call code runner symbol [v] s =
      ((s.1.allocate size.toNat).1.map .pointer, ((s.1.allocate size.toNat).2, s.2)) := by
  rw [call, he]
  dsimp only
  rw [if_neg hrun, enter, hv]
  simp only [Simulated.allocate]
  cases s.1.heap.allocate? size.toNat <;> simp

theorem allocate_of_some {size : Nat} {heap : Heap} (ha : m.heap.allocate? size = some (p, heap)) :
    m.allocate size = (.ok p, { m with heap }) := by
  rw [Simulated.allocate, ha]

theorem allocate_of_none {size : Nat} (ha : m.heap.allocate? size = none) :
    m.allocate size = (.error (.abort .addressSpaceExhausted), m) := by
  rw [Simulated.allocate, ha]

theorem writeBytes_of_some {bytes : List UInt8} {heap : Heap}
    (hw : m.heap.write? p bytes = some heap) : m.writeBytes p bytes = (.ok (), { m with heap }) := by
  rw [Simulated.writeBytes, hw]

theorem writeBytes_of_none {bytes : List UInt8} (hw : m.heap.write? p bytes = none) :
    m.writeBytes p bytes = (refuse .outOfBounds, m) := by
  rw [Simulated.writeBytes, hw]

theorem ne_null_of_allocate? {h heap : Heap} {size : Nat}
    (ha : h.allocate? size = some (p, heap)) : p ≠ 0 := by
  rintro rfl
  obtain ⟨hp, -, -⟩ := Heap.size_of_allocate? ha
  have hbase : 8 ≤ h.next := h.base_le_next
  have hzero : (0 : Word).toNat = 0 := rfl
  omega

end Simulated

namespace Primitives

open Simulated

variable {c : Primitives} {s : Simulated C σ × σ} (hc : c.AllocatesIn s.1)

include hc

/-- A built-in entry point is told the size as one word. -/
theorem run_allocate (code : C → List Value → HostProgram C σ Value)
    (runner : Runner (HostFunction C σ) σ (Simulated C σ)) (size : Nat) :
    ∃ n, (size < 0x10000000000000000 → n = size) ∧
      (c.allocate size : HostProgram C σ Word).run (perform code runner) s =
        ((s.1.allocate n).1, ((s.1.allocate n).2, s.2)) := by
  have check {n : Nat} {p : Word} {heap : Heap} (ha : s.1.heap.allocate? n = some (p, heap))
      (t : Simulated C σ × σ) :
      (if p = 0 then raise (.internal (.allocatorFailed size)) else pure p :
        HostProgram C σ Word).run (perform code runner) t = (.ok p, t) := by
    rw [if_neg (ne_null_of_allocate? ha)]
    rfl
  unfold Primitives.allocate
  cases hallocator : c.allocator with
  | entry symbol =>
    obtain ⟨he, hrun⟩ := hc symbol hallocator
    refine ⟨(UInt64.ofNat size).toNat, fun hlt => UInt64.toNat_ofNat_of_lt' hlt, ?_⟩
    dsimp only
    rw [bind_eq, run_bind, run_call, call_allocator he hrun rfl]
    cases ha : s.1.heap.allocate? (UInt64.ofNat size).toNat with
    | none =>
      rw [allocate_of_none ha]
      rfl
    | some block =>
      rw [allocate_of_some ha]
      exact check ha _
  | heap =>
    refine ⟨size, fun _ => rfl, ?_⟩
    dsimp only
    rw [bind_eq, run_bind, Simulated.run_allocate]
    cases ha : s.1.heap.allocate? size with
    | none => rw [allocate_of_none ha]
    | some block =>
      rw [allocate_of_some ha]
      exact check ha _

theorem run_copyText_of_room (code : C → List Value → HostProgram C σ Value)
    (runner : Runner (HostFunction C σ) σ (Simulated C σ)) {text : String}
    (hr : s.1.heap.Room (Utf8.width text + 1)) (out : Word) :
    ∃ p heap, s.1.heap.Placed text p heap ∧
      (c.copyText text out : HostProgram C σ Unit).run (perform code runner) s =
        ((({ s.1 with heap } : Simulated C σ).writeBytes out p.toBytes).1,
          ((({ s.1 with heap } : Simulated C σ).writeBytes out p.toBytes).2, s.2)) := by
  obtain ⟨p, h₀, h₁, h₂, ha, hw, hz, hplaced⟩ := Heap.exists_placed hr
  obtain ⟨n, hn, hallocate⟩ := run_allocate hc code runner (Utf8.width text + 1)
  have hlt : Utf8.width text + 1 < 0x10000000000000000 := by
    unfold Heap.Room Heap.limit at hr
    omega
  refine ⟨p, h₂, hplaced, ?_⟩
  rw [copyText, bind_eq, run_bind, hallocate, hn hlt, allocate_of_some ha]
  dsimp only
  rw [bind_eq, run_bind, run_writeBytes, writeBytes_of_some hw]
  dsimp only
  rw [bind_eq, run_bind, run_writeBytes, writeBytes_of_some hz]
  rfl

theorem run_copyText_of_noRoom (code : C → List Value → HostProgram C σ Value)
    (runner : Runner (HostFunction C σ) σ (Simulated C σ)) {text : String}
    (hr : ¬ s.1.heap.Room (Utf8.width text + 1)) (out : Word) :
    ∃ failure heap, s.1.heap.Extends heap ∧
      (c.copyText text out : HostProgram C σ Unit).run (perform code runner) s =
        (.error failure, ({ s.1 with heap }, s.2)) := by
  obtain ⟨n, hn, hallocate⟩ := run_allocate hc code runner (Utf8.width text + 1)
  rw [copyText, bind_eq, run_bind, hallocate]
  cases ha : s.1.heap.allocate? n with
  | none => exact ⟨_, s.1.heap, .refl _, by rw [allocate_of_none ha]⟩
  | some block =>
    obtain ⟨p, h₀⟩ := block
    have hkeep := Heap.extends_of_allocate? ha
    rw [allocate_of_some ha]
    dsimp only
    rw [bind_eq, run_bind, run_writeBytes]
    -- a block of another size than the one that was asked for cannot take the text
    have hlarge : ¬ Utf8.width text + 1 < 0x10000000000000000 := by
      intro hlt
      rw [hn hlt, Heap.allocate?_eq_none hr] at ha
      contradiction
    have hnone : h₀.write? p (Utf8.encode text) = none := by
      apply Heap.write?_eq_none
      rintro ⟨-, hle⟩
      have hlimit : h₀.size < 0x8000000000000000 := h₀.lt_limit
      have hwidth : (Utf8.encode text).length = Utf8.width text := rfl
      omega
    rw [writeBytes_of_none hnone]
    exact ⟨_, h₀, hkeep, rfl⟩

end Primitives

end SolidityHost
