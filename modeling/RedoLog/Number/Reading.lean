import RedoLog.Number.Binary64
import RedoLog.Text.Digits
import RedoLog.Text.Letters

/-!
# Reading numbers of statements

A signed run of digits is a whole number when it fits 64 bits. A decimal is digits with at most
one point among or around them, at least one digit in all, and an optional power of ten; it is
read as the nearest binary number. The words for infinity and for an undefined number are read too.
-/

set_option autoImplicit false

namespace RedoLog

def splitSign : List Char → Bool × List Char
  | '-' :: cs => (true, cs)
  | '+' :: cs => (false, cs)
  | cs => (false, cs)

def digitsValue (ds : List Char) : Nat :=
  Nat.ofDigitChars 10 ds 0

def signed (negative : Bool) (n : Nat) : Int :=
  if negative then -(n : Int) else n

def int64? (n : Int) : Option Int64 :=
  if h : Int64.minValue.toInt ≤ n ∧ n ≤ Int64.maxValue.toInt then some (Int64.ofIntLE n h.1 h.2)
  else none

def readInt64? (s : String) : Option Int64 :=
  let (negative, cs) := splitSign s.toList
  if cs ≠ [] ∧ cs.all Char.isDigit then int64? (signed negative (digitsValue cs)) else none

def readPower? (cs : List Char) : Option Int :=
  match cs with
  | [] => some 0
  | c :: cs =>
    let (negative, ds) := splitSign cs
    if (c = 'e' ∨ c = 'E') ∧ ds ≠ [] ∧ ds.all Char.isDigit then
      some (signed negative (digitsValue ds))
    else none

def splitFraction (cs : List Char) : List Char × List Char :=
  match cs with
  | '.' :: cs => Text.splitDigits cs
  | cs => ([], cs)

def readDecimal? (cs : List Char) : Option (Nat × Int) :=
  let (whole, rest) := Text.splitDigits cs
  let (fraction, rest) := splitFraction rest
  if whole = [] ∧ fraction = [] then none
  else (readPower? rest).map fun power => (digitsValue (whole ++ fraction), power - fraction.length)

def isInfinityWord (cs : List Char) : Bool :=
  Text.upper cs == "INF".toList || Text.upper cs == "INFINITY".toList

def isNaNWord (cs : List Char) : Bool :=
  Text.upper cs == "NAN".toList

def readBinary64? (s : String) : Option Binary64 :=
  let (negative, cs) := splitSign s.toList
  match readDecimal? cs with
  | some (coefficient, exponent) => some (Binary64.ofDecimal negative coefficient exponent)
  | none =>
    if isInfinityWord cs then some (Binary64.infinity negative)
    else if isNaNWord cs then some (Binary64.nan negative)
    else none

end RedoLog
