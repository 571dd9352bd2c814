import RedoLog.Number.Numeral

/-!
# Values

A column value is null, a whole number of 64 bits, a binary floating-point number, a text, or the
call of a function on further values. Numbers of the two kinds are never equal, and floating-point
numbers are equal when their bits are.
-/

set_option autoImplicit false

namespace RedoLog

inductive Value where
  | null
  | integer (n : Int64)
  | real (x : Binary64)
  | text (s : String)
  | call (function : String) (parameters : List Value)
  deriving Repr, Inhabited

namespace Value

mutual

def beq : Value → Value → Bool
  | .null, .null => true
  | .integer a, .integer b => a == b
  | .real a, .real b => a == b
  | .text a, .text b => a == b
  | .call f ps, .call g qs => f == g && beqAll ps qs
  | _, _ => false

def beqAll : List Value → List Value → Bool
  | [], [] => true
  | a :: as, b :: bs => beq a b && beqAll as bs
  | _, _ => false

end

mutual

theorem beq_iff : ∀ a b : Value, beq a b = true ↔ a = b
  | .null, b => by cases b <;> simp [beq]
  | .integer _, b => by cases b <;> simp [beq]
  | .real _, b => by cases b <;> simp [beq]
  | .text _, b => by cases b <;> simp [beq]
  | .call _ ps, b => by
    cases b with
    | call _ qs => simp [beq, beq_all_iff ps qs]
    | _ => simp [beq]

theorem beq_all_iff : ∀ as bs : List Value, beqAll as bs = true ↔ as = bs
  | [], bs => by cases bs <;> simp [beqAll]
  | a :: as, bs => by
    cases bs with
    | nil => simp [beqAll]
    | cons b bs => simp [beqAll, beq_iff a b, beq_all_iff as bs]

end

instance : DecidableEq Value := fun a b =>
  decidable_of_iff _ (beq_iff a b)

def isNull : Value → Bool
  | .null => true
  | _ => false

def asText? : Value → Option String
  | .text s => some s
  | _ => none

mutual

def display : Value → String
  | .null => "null"
  | .integer n => toString n.toInt
  | .real x => x.display
  | .text s => s
  | .call f ps => f ++ "(" ++ String.intercalate ", " (displayAll ps) ++ ")"

def displayAll : List Value → List String
  | [] => []
  | p :: ps => display p :: displayAll ps

end

end Value

end RedoLog
