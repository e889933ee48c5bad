import SolidityHost.Host.Word

/-!
# Heaps

A heap is a row of bytes that only grows, except for a reset. Its first eight bytes are never handed
out, so that zero stays the null pointer. A block starts at the next multiple of eight and takes at
least one byte. Accesses are checked against the row.
-/

set_option autoImplicit false

namespace SolidityHost

def Heap.base : Nat := 8

def Heap.limit : Nat := 0x8000000000000000

structure Heap where
  bytes : List UInt8
  base_le : Heap.base ≤ bytes.length
  lt_limit : bytes.length < Heap.limit

namespace Heap

def size (h : Heap) : Nat := h.bytes.length

def initial : Heap := ⟨List.replicate base 0, by decide, by decide⟩

instance : Inhabited Heap := ⟨initial⟩

def next (h : Heap) : Nat := (h.size + 7) / 8 * 8

def allocate? (h : Heap) (size : Nat) : Option (Word × Heap) :=
  if fits : h.next + max size 1 < limit then
    some (UInt64.ofNat h.next, {
      bytes := h.bytes ++ List.replicate (h.next + max size 1 - h.size) 0
      base_le := by
        have := h.base_le
        simp only [List.length_append, List.length_replicate]
        omega
      lt_limit := by
        have : h.size ≤ h.next + max size 1 := by unfold next; omega
        have : h.bytes.length = h.size := rfl
        simp only [List.length_append, List.length_replicate]
        omega })
  else none

def Holds (h : Heap) (p : Word) (count : Nat) : Prop :=
  base ≤ p.toNat ∧ p.toNat + count ≤ h.size

instance (h : Heap) (p : Word) (count : Nat) : Decidable (h.Holds p count) :=
  inferInstanceAs (Decidable (_ ∧ _))

def tailFrom (h : Heap) (p : Word) : List UInt8 := h.bytes.drop p.toNat

def read? (h : Heap) (p : Word) (count : Nat) : Option (List UInt8) :=
  if h.Holds p count then some ((h.tailFrom p).take count) else none

def overwrite (h : Heap) (p : Nat) (bytes : List UInt8) (fits : p + bytes.length ≤ h.size) :
    Heap where
  bytes := h.bytes.take p ++ bytes ++ h.bytes.drop (p + bytes.length)
  base_le := by
    have := h.base_le
    have : h.bytes.length = h.size := rfl
    simp only [List.length_append, List.length_take, List.length_drop]
    omega
  lt_limit := by
    have := h.lt_limit
    have : h.bytes.length = h.size := rfl
    simp only [List.length_append, List.length_take, List.length_drop]
    omega

def write? (h : Heap) (p : Word) (bytes : List UInt8) : Option Heap :=
  if holds : h.Holds p bytes.length then some (h.overwrite p.toNat bytes holds.2) else none

def readWord? (h : Heap) (p : Word) : Option Word := (h.read? p Word.size).map Word.ofBytes

def reset (h : Heap) : Heap where
  bytes := h.bytes.take base
  base_le := by
    have := h.base_le
    simp only [List.length_take]
    omega
  lt_limit := by
    have := h.lt_limit
    simp only [List.length_take]
    omega

end Heap

end SolidityHost
