import SolidityHost.Host.Word

/-!
# Memory of native code

A row of blocks, the newest first. A block starts at a multiple of sixteen behind the blocks before
it and has room for a few bytes more than were asked for. It reads as zeros until it is written, and
only the bytes up to the last written one are kept, so that a large block is as cheap as a small
one. A block that would reach beyond the last address cannot be had.

An access counts if it lies in one block. Any other write is lost, and any other read gives zeros.
-/

set_option autoImplicit false

namespace SolidityHost

namespace Native

structure Block where
  start : Nat
  size : Nat
  -- the bytes up to the last one that was written
  written : List UInt8
  written_le : written.length ≤ size

namespace Block

def room (size : Nat) : Nat := max 24 ((size + 23) / 16 * 16 - 8)

def fresh (start size : Nat) : Block := ⟨start, room size, [], Nat.zero_le _⟩

def stop (b : Block) : Nat := b.start + b.size

def Holds (b : Block) (address count : Nat) : Prop :=
  b.start ≤ address ∧ address + count ≤ b.stop

instance (b : Block) (address count : Nat) : Decidable (b.Holds address count) :=
  inferInstanceAs (Decidable (_ ∧ _))

def tailFrom (b : Block) (address : Nat) : List UInt8 := b.written.drop (address - b.start)

def read (b : Block) (address count : Nat) : List UInt8 :=
  ((b.tailFrom address).take count).rightpad count 0

def write (b : Block) (address : Nat) (bytes : List UInt8)
    (holds : b.Holds address bytes.length) : Block where
  start := b.start
  size := b.size
  written :=
    (b.written.take (address - b.start)).rightpad (address - b.start) 0 ++ bytes ++
      b.tailFrom (address + bytes.length)
  written_le := by
    have := b.written_le
    obtain ⟨_, _⟩ := holds
    simp only [stop, tailFrom, List.length_append, List.length_rightpad, List.length_take,
      List.length_drop] at *
    omega

end Block

structure Memory where
  blocks : List Block

namespace Memory

def base : Nat := 16

def limit : Nat := 0x800000000000

def next (m : Memory) : Nat :=
  match m.blocks with
  | [] => base
  | b :: _ => b.stop + 8

def add (m : Memory) (size : Nat) : Memory := ⟨Block.fresh m.next size :: m.blocks⟩

def ofSize (size : Nat) : Memory := add ⟨[]⟩ size

def allocate? (m : Memory) (size : Nat) : Option (Word × Memory) :=
  if m.next + Block.room size ≤ limit then some (UInt64.ofNat m.next, m.add size) else none

def block? (m : Memory) (p : Word) (count : Nat) : Option Block :=
  m.blocks.find? fun b => b.Holds p.toNat count

def readBytes (m : Memory) (p : Word) : List UInt8 :=
  match m.block? p 1 with
  | some b => (b.tailFrom p.toNat).takeWhile (· ≠ 0)
  | none => []

def readWord (m : Memory) (p : Word) : Word :=
  match m.block? p Word.size with
  | some b => Word.ofBytes (b.read p.toNat Word.size)
  | none => 0

def writeFirst (address : Nat) (bytes : List UInt8) : List Block → List Block
  | [] => []
  | b :: rest =>
    if holds : b.Holds address bytes.length then b.write address bytes holds :: rest
    else b :: writeFirst address bytes rest

def write (m : Memory) (p : Word) (bytes : List UInt8) : Memory :=
  ⟨writeFirst p.toNat bytes m.blocks⟩

end Memory

end Native

end SolidityHost
