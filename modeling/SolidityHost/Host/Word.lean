/-!
# Words and protocols

Every entry point takes and gives machine words. A word is written to memory as eight bytes, the
least significant one first.
-/

set_option autoImplicit false

namespace SolidityHost

abbrev Word := UInt64

namespace Word

def lowBytes : Nat → Nat → List UInt8
  | 0, _ => []
  | width + 1, n => UInt8.ofNat n :: lowBytes width (n / 256)

def ofLowBytes : List UInt8 → Nat
  | [] => 0
  | b :: rest => b.toNat + 256 * ofLowBytes rest

def size : Nat := 8

def toBytes (w : Word) : List UInt8 := lowBytes size w.toNat

def ofBytes (bytes : List UInt8) : Word := UInt64.ofNat (ofLowBytes bytes)

@[simp] theorem length_lowBytes (width n : Nat) : (lowBytes width n).length = width := by
  induction width generalizing n with
  | zero => rfl
  | succ width ih => simp [lowBytes, ih]

@[simp] theorem length_toBytes (w : Word) : (toBytes w).length = 8 := length_lowBytes 8 _

theorem ofLowBytes_lowBytes (width n : Nat) :
    ofLowBytes (lowBytes width n) = n % Nat.pow 256 width := by
  induction width generalizing n with
  | zero => simp [lowBytes, ofLowBytes, Nat.mod_one]
  | succ width ih =>
    have h : Nat.pow 256 (width + 1) = 256 * Nat.pow 256 width := Nat.mul_comm _ _
    rw [lowBytes, ofLowBytes, ih, h, Nat.mod_mul]
    simp

theorem ofBytes_toBytes (w : Word) : ofBytes (toBytes w) = w := by
  have h : w.toNat % Nat.pow 256 size = w.toNat := Nat.mod_eq_of_lt w.toNat_lt
  rw [ofBytes, toBytes, ofLowBytes_lowBytes, h]
  exact UInt64.ofNat_toNat

end Word

/-- How a compiler calls back: with a path, or with a context, a kind and data. Either call ends in
two addresses, for the contents and for an error. -/
inductive Protocol where
  | importOnly
  | kinded
  deriving DecidableEq, Repr

def Protocol.arity : Protocol → Nat
  | .importOnly => 3
  | .kinded => 5

end SolidityHost
