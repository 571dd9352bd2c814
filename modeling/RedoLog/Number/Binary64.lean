import RedoLog.Number.Power

/-!
# Binary floating-point numbers of 64 bits

A number is kept as its bits, so that equality tells the two zeros apart and finds every NaN equal
to itself. A finite number is a whole count of the least positive one, `2 ^ -1074`; with that count
rounding a ratio to the nearest number, a tie going to the even significand, is arithmetic on
natural numbers.
-/

set_option autoImplicit false

namespace RedoLog

structure Binary64 where
  bits : UInt64
  deriving DecidableEq, Repr

namespace Binary64

def isNegative (x : Binary64) : Bool :=
  twoTo 63 ≤ x.bits.toNat

def field (x : Binary64) : Nat :=
  x.bits.toNat / twoTo 52 % twoTo 11

def fraction (x : Binary64) : Nat :=
  x.bits.toNat % twoTo 52

def isFinite (x : Binary64) : Bool :=
  x.field ≠ 2047

def isNaN (x : Binary64) : Bool :=
  x.field = 2047 && x.fraction ≠ 0

def isZero (x : Binary64) : Bool :=
  x.field = 0 && x.fraction = 0

def significand (x : Binary64) : Nat :=
  if x.field = 0 then x.fraction else x.fraction + twoTo 52

def spacing (x : Binary64) : Nat :=
  twoTo (max x.field 1 - 1)

def units (x : Binary64) : Nat :=
  x.significand * x.spacing

def unitsPerOne : Nat :=
  twoTo 1074

def infinityBits : Nat :=
  2047 * twoTo 52

def ofMagnitude (negative : Bool) (magnitude : Nat) : Binary64 :=
  ⟨UInt64.ofNat (if negative then twoTo 63 + magnitude else magnitude)⟩

def infinity (negative : Bool) : Binary64 :=
  ofMagnitude negative infinityBits

def nan (negative : Bool) : Binary64 :=
  ofMagnitude negative (infinityBits + twoTo 51)

def zero (negative : Bool) : Binary64 :=
  ofMagnitude negative 0

end Binary64

/-- The whole number nearest to a ratio; of two equally near the even one. -/
def roundRatio (num den : Nat) : Nat :=
  let floor := num / den
  let rest := num % den
  if 2 * rest < den then floor
  else if den < 2 * rest then floor + 1
  else if floor % 2 = 0 then floor
  else floor + 1

namespace Binary64

/-- Bits of the magnitude nearest to a ratio of units. A significand has 53 binary digits, so the
low digits beyond them are rounded off; a carry moves into the exponent by itself. -/
def nearestUnits (num den : Nat) : Nat :=
  let dropped := Nat.log2 (num / den) - 52
  min infinityBits (dropped * twoTo 52 + roundRatio num (den * twoTo dropped))

def ofRatio (negative : Bool) (num den : Nat) : Binary64 :=
  ofMagnitude negative (nearestUnits (num * unitsPerOne) den)

/-- The number nearest to `coefficient * 10 ^ exponent`. A value of at least `10 ^ 310` is beyond
the greatest finite number and a positive one below `10 ^ -330` is nearest to zero. -/
def ofDecimal (negative : Bool) (coefficient : Nat) (exponent : Int) : Binary64 :=
  let size : Int := (Nat.toDigits 10 coefficient).length + exponent
  if coefficient = 0 ∨ size < -330 then zero negative
  else if 310 < size then infinity negative
  else ofRatio negative (coefficient * tenTo exponent.toNat) (tenTo (-exponent).toNat)

def mulMagnitude (x y : Binary64) : Binary64 :=
  ofRatio false (x.units * y.units) (unitsPerOne * unitsPerOne)

def divMagnitude (x y : Binary64) : Binary64 :=
  ofRatio false x.units y.units

end Binary64

end RedoLog
