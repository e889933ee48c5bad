import SolidityHost.Json.Basic

/-!
# Numerals

A numeral is a sign, whole digits, fraction digits and an exponent. Its significand is kept in one
64-bit word: the digits are taken from the left as long as the word holds them. Whole digits that
no longer fit raise the exponent, fraction digits that no longer fit are dropped. The double is the
rounded significand times or divided by a rounded power of ten, so it is not always the nearest.
-/

set_option autoImplicit false

namespace SolidityHost.Json

structure Numeral where
  negative : Bool
  whole : List Nat
  fraction : List Nat
  -- whether the exponent is negative, and its digits
  exponent : Option (Bool × List Nat)
  deriving DecidableEq, Repr

namespace Numeral

def append? (significand digit : Nat) : Option Nat :=
  if significand * 10 + digit < 0x10000000000000000 then some (significand * 10 + digit) else none

def takeWhole (significand : Nat) : List Nat → Nat × Nat
  | [] => (significand, 0)
  | d :: rest =>
    match append? significand d with
    | some s => takeWhole s rest
    | none => (significand, rest.length + 1)

def takeFraction (significand taken : Nat) : List Nat → Nat × Nat
  | [] => (significand, taken)
  | d :: rest =>
    match append? significand d with
    | some s => takeFraction s (taken + 1) rest
    | none => (significand, taken)

def value (digits : List Nat) : Nat := digits.foldl (fun n d => n * 10 + d) 0

def shrink (x : Binary64) (n : Nat) : Option Binary64 :=
  -- in steps of at most `10 ^ 308`, the greatest power of ten that is a double
  if n ≤ 308 then do x.div? (← Binary64.powerOfTen? n)
  else if x.isZero then some x
  else do
    let y ← x.div? (← Binary64.powerOfTen? 308)
    shrink y (n - 308)
termination_by n
decreasing_by omega

def scale? (significand : Nat) (exponent : Int) : Option Binary64 := do
  let x ← Binary64.ofRatio? false significand 1
  if exponent < 0 then shrink x exponent.natAbs
  else if exponent ≤ 308 then x.mul? (← Binary64.powerOfTen? exponent.natAbs)
  else if x.isZero then some x
  else none

def exponentLimit : Nat := 0x7FFFFFFF

def double? (n : Numeral) : Option Binary64 :=
  let (significand, dropped) := takeWhole 0 n.whole
  let (significand, taken) := takeFraction significand 0 n.fraction
  let shift : Int := (dropped : Int) - taken
  match n.exponent with
  | none => scale? significand shift
  | some (down, digits) =>
    if exponentLimit < value digits then
      if significand = 0 ∨ down then some (Binary64.zero false) else none
    else scale? significand (if down then shift - value digits else shift + value digits)

def integer? (n : Numeral) : Option Int :=
  -- minus zero is not an integer
  if n.fraction.isEmpty ∧ n.exponent.isNone then
    let m := value n.whole
    if n.negative then (if m = 0 then none else some (-m)) else some m
  else none

def number? (n : Numeral) : Option Number :=
  let double := n.double?.map fun x => .double (if n.negative then x.negate else x)
  match n.integer? with
  | some m => if h : FitsWord m then some (.integer m h) else double
  | none => double

end Numeral

end SolidityHost.Json
