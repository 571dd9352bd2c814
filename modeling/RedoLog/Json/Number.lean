import RedoLog.Json.Reader

/-!
# Numbers of JSON texts

A numeral without point and power of ten is a whole number, minus zero aside. Any numeral can be
taken as a binary number in these steps: its digits are gathered into a significand of 64 bits,
digits that no longer fit being dropped; the significand is rounded to a binary number; and this is
multiplied or divided by a rounded power of ten. Each step rounds, so the result is the nearest
number only as long as few digits and small powers are involved.
-/

set_option autoImplicit false

namespace RedoLog

namespace Numeral

def integer? (n : Numeral) : Option Int :=
  if n.fraction = [] ∧ n.exponent = none ∧ ¬(n.negative ∧ n.whole = 0) then
    some (signed n.negative n.whole)
  else none

/-- Adds digits to a significand while it stays below `2 ^ 64`, and returns those left over. -/
def gather : Nat → List Char → Nat × List Char
  | significand, [] => (significand, [])
  | significand, d :: ds =>
    let next := 10 * significand + (d.toNat - 48)
    if next < UInt64.size then gather next ds else (significand, d :: ds)

def parts (n : Numeral) : Nat × Int :=
  let (significand, wholeLeft) := gather 0 (digits n.whole)
  let (significand, fractionLeft) := gather significand n.fraction
  let taken := n.fraction.length - fractionLeft.length
  (significand, n.exponent.getD 0 + wholeLeft.length - taken)

end Numeral

namespace Binary64

def maxPower : Nat :=
  308

def powerOfTen (n : Nat) : Binary64 :=
  ofRatio false (tenTo n) 1

def divPower (x : Binary64) (n : Nat) : Binary64 :=
  if n ≤ maxPower then divMagnitude x (powerOfTen n)
  else if x.isZero then x
  else divPower (divMagnitude x (powerOfTen maxPower)) (n - maxPower)
termination_by n
decreasing_by simp only [maxPower] at *; omega

def mulPower? (x : Binary64) (n : Nat) : Option Binary64 :=
  if x.isZero then some x
  else if n ≤ maxPower then
    let product := mulMagnitude x (powerOfTen n)
    if product.isFinite then some product else none
  else none

def withSign (negative : Bool) (x : Binary64) : Binary64 :=
  ofMagnitude negative (x.bits.toNat % twoTo 63)

end Binary64

def Numeral.real? (n : Numeral) : Option Binary64 :=
  let (significand, power) := n.parts
  let start := Binary64.ofRatio false significand 1
  let magnitude :=
    if 0 ≤ power then start.mulPower? power.toNat else some (start.divPower (-power).toNat)
  magnitude.map (Binary64.withSign n.negative)

namespace Json

mutual

def isSound : Json → Bool
  | .number n => n.real?.isSome
  | .string s => s.isSome
  | .array items => isSoundAll items
  | .object members => isSoundMembers members
  | _ => true

def isSoundAll : List Json → Bool
  | [] => true
  | item :: items => isSound item && isSoundAll items

def isSoundMembers : List (Option String × Json) → Bool
  | [] => true
  | (name, value) :: members => name.isSome && isSound value && isSoundMembers members

end

end Json

end RedoLog
