import RedoLog.Number.Binary64

/-!
# Shortest decimals

The decimal that stands for a finite number is the shortest one that reads back to it: of all
decimals that are nearer to this number than to any other, one with the fewest digits, and of
those the nearest. For a given count of digits only the two neighbours of the number on that grid
have to be tried. Where both are equally near, the output format decides.
-/

set_option autoImplicit false

namespace RedoLog

structure Decimal where
  coefficient : Nat
  exponent : Int
  deriving DecidableEq, Repr

namespace Decimal

inductive Tie where
  | up
  | even
  deriving DecidableEq, Repr

/-- The decimals that read back to a number, on a scale of four to the unit. Both ends belong to
the interval when the significand is even. -/
structure Interval where
  low : Nat
  middle : Nat
  high : Nat
  closed : Bool

/-- Half the way to either neighbour. Below a power of two the neighbour is nearer, unless the
numbers there are spaced by one unit. -/
def interval (x : Binary64) : Interval :=
  let step := x.spacing
  let below := if x.fraction = 0 ∧ 1 < x.field then step else 2 * step
  { low := 4 * x.units - below
    middle := 4 * x.units
    high := 4 * x.units + 2 * step
    closed := x.significand % 2 = 0 }

def gridStep (exponent : Int) : Nat × Nat :=
  (tenTo exponent.toNat * 4 * Binary64.unitsPerOne, tenTo (-exponent).toNat)

def Interval.holds (i : Interval) (exponent : Int) (coefficient : Nat) : Bool :=
  let step := gridStep exponent
  let value := coefficient * step.1
  if i.closed then i.low * step.2 ≤ value && value ≤ i.high * step.2
  else i.low * step.2 < value && value < i.high * step.2

def roundsUp (tie : Tie) (i : Interval) (exponent : Int) (lower : Nat) : Bool :=
  let step := gridStep exponent
  let value := 2 * (i.middle * step.2)
  let half := (2 * lower + 1) * step.1
  if value = half then
    match tie with
    | .up => true
    | .even => lower % 2 = 1
  else half < value

def onGrid? (tie : Tie) (i : Interval) (exponent : Int) : Option Decimal :=
  let step := gridStep exponent
  let lower := i.middle * step.2 / step.1
  match i.holds exponent lower, i.holds exponent (lower + 1) with
  | true, true => some ⟨if roundsUp tie i exponent lower then lower + 1 else lower, exponent⟩
  | true, false => some ⟨lower, exponent⟩
  | false, true => some ⟨lower + 1, exponent⟩
  | false, false => none

def firstHit (tie : Tie) (i : Interval) : Nat → Int → Decimal
  | 0, exponent => ⟨0, exponent⟩
  | grids + 1, exponent =>
    match onGrid? tie i exponent with
    | some d => d
    | none => firstHit tie i grids (exponent - 1)

/-- Exponent of the first digit of a positive number: its magnitude is multiplied by `10 ^ 324`,
which makes even the least one greater than one, and the digits are counted. -/
def leadingExponent (x : Binary64) : Int :=
  (Nat.toDigits 10 (x.units * tenTo 324 / Binary64.unitsPerOne)).length - 325

def stripZeros : Nat → Decimal → Decimal
  | 0, d => d
  | fuel + 1, d =>
    if d.coefficient ≠ 0 ∧ d.coefficient % 10 = 0 then
      stripZeros fuel ⟨d.coefficient / 10, d.exponent + 1⟩
    else d

/-- The shortest decimal of a finite number other than zero. Seventeen digits always suffice. -/
def shortest (tie : Tie) (x : Binary64) : Decimal :=
  stripZeros 17 (firstHit tie (interval x) 17 (leadingExponent x))

end Decimal

end RedoLog
