import RedoLog.Value
import RedoLog.Json.Fields
import RedoLog.Json.Writer

/-!
# Values in JSON

Null, numbers and texts are written as such. A call is an object with the name of the function
and, unless there are none, its parameters. A number that is not finite has no JSON form and is
written as null. When reading, a whole number that fits 64 bits is an integer and any other number
is a binary one.
-/

set_option autoImplicit false

namespace RedoLog.Value

mutual

def toJson : Value → Json
  | .null => .null
  | .integer n => .number (Numeral.ofInt n.toInt)
  | .real x => if x.isFinite then .number x.jsonNumeral else .null
  | .text s => Json.text s
  | .call f [] => .object [Json.member "function" (Json.text f)]
  | .call f (p :: ps) =>
    .object
      [Json.member "function" (Json.text f),
        Json.member "parameters" (.array (toJson p :: toJsonAll ps))]

def toJsonAll : List Value → List Json
  | [] => []
  | p :: ps => toJson p :: toJsonAll ps

end

mutual

def ofJson? : Json → Option Value
  | .null => some .null
  | .bool _ => none
  | .number n =>
    match n.integer?.bind int64? with
    | some i => some (.integer i)
    | none => n.real?.map .real
  | .string s => s.map .text
  | .array [.string (some f)] => some (.call f [])
  | .array [.string (some f), .array ps] => (ofJsonAll? ps).map (.call f)
  | .array _ => none
  | .object members =>
    match Json.memberValues "function" members, parameterLists? members with
    | [.string (some f)], some [] => some (.call f [])
    | [.string (some f)], some [ps] => some (.call f ps)
    | _, _ => none

def ofJsonAll? : List Json → Option (List Value)
  | [] => some []
  | j :: js => do
    let v ← ofJson? j
    let vs ← ofJsonAll? js
    return v :: vs

def parameterLists? : List (Option String × Json) → Option (List (List Value))
  | [] => some []
  | (name, .array ps) :: members =>
    if name = some "parameters" then do
      let ps ← ofJsonAll? ps
      let lists ← parameterLists? members
      return ps :: lists
    else parameterLists? members
  | (name, _) :: members => if name = some "parameters" then none else parameterLists? members

end

def maxNesting : Nat :=
  127

/-- A value at a place with `outer` arrays and objects around it. -/
def readJson? (outer : Nat) (j : Json) : Option Value :=
  if j.isSound ∧ j.nesting + outer ≤ maxNesting then ofJson? j else none

def render (v : Value) : String :=
  v.toJson.render

def read? (s : String) : Option Value :=
  (Json.read? s).bind (readJson? 0)

end RedoLog.Value
