import SolidityHost.Host.Word

/-!
# Function tables

A slot is empty, holds a function, or its function is running. A function that runs cannot be
called, released or replaced through its slot; when it ends it goes back there.
-/

set_option autoImplicit false

namespace SolidityHost

inductive TableSlot (F : Type) where
  | empty
  | idle (function : F)
  | running (function : F)

def TableSlot.idle? {F : Type} : TableSlot F → Option F
  | .idle f => some f
  | _ => none

abbrev Table (F : Type) := List (TableSlot F)

namespace Table

variable {F : Type}

def capacity : Nat := 0x100000000

def idle? (t : Table F) (i : Nat) : Option F := (t[i]?).bind TableSlot.idle?

def add (t : Table F) (f : F) : Table F := t ++ [.idle f]

def clear (t : Table F) (i : Nat) : Table F := t.set i .empty

def checkOut (t : Table F) (i : Nat) (f : F) : Table F := t.set i (.running f)

def restore (t : Table F) (i : Nat) (f : F) : Table F :=
  -- empty slots go in front if the table ends earlier
  (t ++ List.replicate (i + 1 - t.length) TableSlot.empty).set i (.idle f)

def shrink (t : Table F) : Table F :=
  (t.reverse.dropWhile fun s => s.idle?.isNone).reverse

def latest? (t : Table F) (p : F → Bool) : Option Nat :=
  (t.zipIdx.filter fun e => e.1.idle?.any p).getLast?.map (·.2)

end Table

end SolidityHost
