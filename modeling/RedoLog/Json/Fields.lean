import RedoLog.Json.Number

/-!
# Records in JSON

A record is written as an object, in which each of its fields may stand once and other members are
skipped, or as an array of its fields in order, in which fields at the end may be left out.
-/

set_option autoImplicit false

namespace RedoLog.Json

def memberValues (name : String) (members : List (Option String × Json)) : List Json :=
  members.filterMap fun entry => if entry.1 = some name then some entry.2 else none

/-- The value of the member of a name, which must not stand twice. -/
def uniqueMember? (members : List (Option String × Json)) (name : String) : Option (Option Json) :=
  match memberValues name members with
  | [] => some none
  | [value] => some (some value)
  | _ => none

def fields? (names : List String) : Json → Option (List (Option Json))
  | .object members =>
    if members.all fun entry => entry.1.isSome then names.mapM (uniqueMember? members) else none
  | .array items =>
    if items.length ≤ names.length then
      some (items.map some ++ List.replicate (names.length - items.length) none)
    else none
  | _ => none

def text? : Json → Option String
  | .string s => s
  | _ => none

def bool? : Json → Option Bool
  | .bool b => some b
  | _ => none

def items? : Json → Option (List Json)
  | .array items => some items
  | _ => none

def members? : Json → Option (List (String × Json))
  | .object members => members.mapM fun entry => entry.1.map fun name => (name, entry.2)
  | _ => none

def integer? : Json → Option Int
  | .number n => n.integer?
  | _ => none

def natBelow? (bound : Nat) (j : Json) : Option Nat :=
  j.integer?.bind fun n => if 0 ≤ n ∧ n < bound then some n.toNat else none

def orDefault {α : Type} (default : α) (read? : Json → Option α) : Option Json → Option α
  | none => some default
  | some j => read? j

end RedoLog.Json
