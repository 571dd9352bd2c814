import RedoLog.Number.Shortest

/-!
# Decimal numerals

A numeral is the written form of a number: a sign, a whole part, digits behind the point and a
power of ten. Two formats write the shortest decimal of a binary number as a numeral. Messages
write every digit and never a power of ten. JSON keeps a point in every such number and turns to
a power of ten outside a middle range.
-/

set_option autoImplicit false

namespace RedoLog

/-- The digits behind the point are kept as characters, so that zeros among them count. -/
structure Numeral where
  negative : Bool
  whole : Nat
  fraction : List Char
  exponent : Option Int
  deriving DecidableEq, Repr

namespace Numeral

def ofInt (n : Int) : Numeral :=
  ⟨n < 0, n.natAbs, [], none⟩

def digits (n : Nat) : List Char :=
  Nat.toDigits 10 n

def writeExponent (exponent : Int) : List Char :=
  'e' :: (if exponent < 0 then '-' else '+') :: digits exponent.natAbs

def write (n : Numeral) : List Char :=
  (if n.negative then ['-'] else []) ++ digits n.whole
    ++ (if n.fraction = [] then [] else '.' :: n.fraction)
    ++ (match n.exponent with
      | none => []
      | some exponent => writeExponent exponent)

def positional (negative : Bool) (d : Decimal) : Numeral :=
  if 0 ≤ d.exponent then ⟨negative, d.coefficient * tenTo d.exponent.toNat, [], none⟩
  else
    let places := (-d.exponent).toNat
    let behind := digits (d.coefficient % tenTo places)
    ⟨negative, d.coefficient / tenTo places,
      List.replicate (places - behind.length) '0' ++ behind, none⟩

def scientific (negative : Bool) (d : Decimal) : Numeral :=
  let places := (digits d.coefficient).length - 1
  ⟨negative, d.coefficient / tenTo places, (digits d.coefficient).drop 1,
    some (d.exponent + places)⟩

def withPoint (n : Numeral) : Numeral :=
  if n.fraction = [] then { n with fraction := ['0'] } else n

end Numeral

namespace Binary64

/-- The numeral of a finite number in messages; ties between digits go up. -/
def plainNumeral (x : Binary64) : Numeral :=
  if x.isZero then ⟨x.isNegative, 0, [], none⟩
  else Numeral.positional x.isNegative (Decimal.shortest .up x)

def display (x : Binary64) : String :=
  if x.isNaN then "NaN"
  else if x.isFinite then String.ofList x.plainNumeral.write
  else if x.isNegative then "-inf"
  else "inf"

def isPositional (exponent : Int) : Bool :=
  -5 ≤ exponent && exponent ≤ 15

/-- The numeral of a finite number in JSON; ties between digits go to the even one. -/
def jsonNumeral (x : Binary64) : Numeral :=
  if x.isZero then ⟨x.isNegative, 0, ['0'], none⟩
  else
    let d := Decimal.shortest .even x
    if isPositional (d.exponent + (Numeral.digits d.coefficient).length - 1) then
      (Numeral.positional x.isNegative d).withPoint
    else Numeral.scientific x.isNegative d

end Binary64

end RedoLog
