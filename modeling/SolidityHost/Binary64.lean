/-!
# Finite binary64 numbers

A finite double is a sign and a mantissa times a power of two in its one canonical form. All
arithmetic is exact on natural numbers and rounded once, to nearest with ties to even.
The decimal form has the fewest digits that read back as the same number.
-/

set_option autoImplicit false

namespace SolidityHost

/-- The one form of a magnitude: a full mantissa of 53 bits, or the least exponent. -/
def Binary64.Canonical (mantissa : Nat) (exponent : Int) : Prop :=
  mantissa < 0x20000000000000 ∧ -1074 ≤ exponent ∧ exponent ≤ 971 ∧
    (0x10000000000000 ≤ mantissa ∨ exponent = -1074)

instance (m : Nat) (e : Int) : Decidable (Binary64.Canonical m e) :=
  inferInstanceAs (Decidable (_ ∧ _ ∧ _ ∧ _))

structure Binary64 where
  negative : Bool
  mantissa : Nat
  exponent : Int
  canonical : Binary64.Canonical mantissa exponent
  deriving DecidableEq

namespace Binary64

def zero (negative : Bool) : Binary64 := ⟨negative, 0, -1074, by decide⟩

instance : Inhabited Binary64 := ⟨zero false⟩

def isZero (x : Binary64) : Bool := x.mantissa = 0

def negate (x : Binary64) : Binary64 := { x with negative := !x.negative }

def ofParts? (negative : Bool) (mantissa : Nat) (exponent : Int) : Option Binary64 :=
  if h : Canonical mantissa exponent then some ⟨negative, mantissa, exponent, h⟩ else none

def roundDiv (n d : Nat) : Nat :=
  let q := n / d
  let r := n % d
  if d < 2 * r ∨ (2 * r = d ∧ q % 2 = 1) then q + 1 else q

def scaleUp (n : Nat) (e : Int) : Nat := n * Nat.pow 2 e.toNat

def ofRatio? (negative : Bool) (num den : Nat) : Option Binary64 :=
  if num = 0 then some (zero negative)
  else
    -- the least exponent at which the rounded mantissa has at most 53 bits is one of three
    let least : Int := max ((num.log2 : Int) - den.log2 - 53) (-1074)
    [least, least + 1, least + 2].findSome? fun e =>
      ofParts? negative (roundDiv (scaleUp num (-e)) (scaleUp den e)) e

def ratio (x : Binary64) : Nat × Nat := (scaleUp x.mantissa x.exponent, scaleUp 1 (-x.exponent))

def mul? (x y : Binary64) : Option Binary64 :=
  ofRatio? (x.negative != y.negative) (x.ratio.1 * y.ratio.1) (x.ratio.2 * y.ratio.2)

def div? (x y : Binary64) : Option Binary64 :=
  ofRatio? (x.negative != y.negative) (x.ratio.1 * y.ratio.2) (x.ratio.2 * y.ratio.1)

def powerOfTen? (k : Nat) : Option Binary64 := ofRatio? false (Nat.pow 10 k) 1

def digitCount (n : Nat) : Nat := (Nat.toDigits 10 n).length

def magnitude (num den : Nat) : Int :=
  if den ≤ num then (digitCount (num / den) : Int) - 1
  else -(digitCount ((den - 1) / num) : Int)

structure Decimal where
  digits : Nat
  exponent : Int
  deriving DecidableEq, Repr

namespace Decimal

def ratio (d : Decimal) : Nat × Nat :=
  (d.digits * Nat.pow 10 d.exponent.toNat, Nat.pow 10 (-d.exponent).toNat)

def nearest? (negative : Bool) (d : Decimal) : Option Binary64 :=
  ofRatio? negative d.ratio.1 d.ratio.2

def strip (digits : Nat) (exponent : Int) : Decimal :=
  if 10 ≤ digits ∧ digits % 10 = 0 then strip (digits / 10) (exponent + 1)
  else ⟨digits, exponent⟩
termination_by digits
decreasing_by omega

end Decimal

def readsBackAt? (x : Binary64) (e : Int) : Option Decimal :=
  -- of the two multiples of `10 ^ e` around `x`, the nearer one that reads back as `x`
  let num := x.ratio.1 * Nat.pow 10 (-e).toNat
  let den := x.ratio.2 * Nat.pow 10 e.toNat
  let below := num / den
  let near := roundDiv num den
  let far := if near = below then below + 1 else below
  [near, far].findSome? fun c =>
    let d : Decimal := ⟨c, e⟩
    if d.nearest? x.negative = some x then some d else none

/-- The decimal number with the fewest digits that reads back as `x`; among those the nearest.
Seventeen digits always suffice. -/
def shortest (x : Binary64) : Decimal :=
  let p := magnitude x.ratio.1 x.ratio.2
  let found := (List.range 17).findSome? fun (n : Nat) => readsBackAt? x (p - (n : Int))
  match found with
  | some d => Decimal.strip d.digits d.exponent
  | none => ⟨0, 0⟩

def renderDecimal (d : Decimal) : List Char :=
  -- plain for `10^-5 ≤ |x| < 10^16`, with a signed exponent elsewhere
  let ds := Nat.toDigits 10 d.digits
  let point : Int := ds.length + d.exponent
  if 0 < point ∧ point ≤ 16 then
    let whole := ds.take point.toNat ++ List.replicate (point.toNat - ds.length) '0'
    let fraction := ds.drop point.toNat
    whole ++ '.' :: (if fraction.isEmpty then ['0'] else fraction)
  else if -5 < point ∧ point ≤ 0 then
    '0' :: '.' :: List.replicate (-point).toNat '0' ++ ds
  else
    let fraction := ds.drop 1
    let power := point - 1
    ds.take 1 ++ (if fraction.isEmpty then [] else '.' :: fraction) ++
      'e' :: (if power < 0 then '-' else '+') :: Nat.toDigits 10 power.natAbs

def render (x : Binary64) : List Char :=
  let magnitude := if x.isZero then ['0', '.', '0'] else renderDecimal x.shortest
  if x.negative then '-' :: magnitude else magnitude

end Binary64

end SolidityHost
