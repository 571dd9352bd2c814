import RedoLog.Number.Numeral

/-!
# JSON

A JSON value keeps its numbers as numerals and the members of an object in order, repeated names
included. A string literal can hold one half of a surrogate pair alone; it is then no text, and
such a literal stands as `none`.
-/

set_option autoImplicit false

namespace RedoLog

inductive Json where
  | null
  | bool (b : Bool)
  | number (n : Numeral)
  | string (s : Option String)
  | array (items : List Json)
  | object (members : List (Option String × Json))
  deriving Repr, Inhabited

namespace Json

def text (s : String) : Json :=
  .string (some s)

def member (name : String) (value : Json) : Option String × Json :=
  (some name, value)

mutual

def nesting : Json → Nat
  | .array items => nestingAll items + 1
  | .object members => nestingMembers members + 1
  | _ => 0

def nestingAll : List Json → Nat
  | [] => 0
  | item :: items => max (nesting item) (nestingAll items)

def nestingMembers : List (Option String × Json) → Nat
  | [] => 0
  | (_, value) :: members => max (nesting value) (nestingMembers members)

end

end Json

end RedoLog
