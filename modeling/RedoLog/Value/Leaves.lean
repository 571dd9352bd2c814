import RedoLog.Value

/-!
# The leaves of a value

A call holds further values, and every other value is a leaf. The leaves are read from left to
right, and a change of the texts reaches the parameters of calls at any depth.
-/

set_option autoImplicit false

namespace RedoLog.Value

mutual

def leaves : Value → List Value
  | .null => []
  | .integer n => [.integer n]
  | .real x => [.real x]
  | .text s => [.text s]
  | .call _ ps => leavesAll ps

def leavesAll : List Value → List Value
  | [] => []
  | p :: ps => leaves p ++ leavesAll ps

end

mutual

def mapTexts (f : String → String) : Value → Value
  | .null => .null
  | .integer n => .integer n
  | .real x => .real x
  | .text s => .text (f s)
  | .call g ps => .call g (mapTextsAll f ps)

def mapTextsAll (f : String → String) : List Value → List Value
  | [] => []
  | p :: ps => mapTexts f p :: mapTextsAll f ps

end

theorem leaves_all_append (ps qs : List Value) :
    leavesAll (ps ++ qs) = leavesAll ps ++ leavesAll qs := by
  induction ps with
  | nil => rfl
  | cons p ps ih => simp [leavesAll, ih]

theorem map_texts_all_eq_map (f : String → String) (ps : List Value) :
    mapTextsAll f ps = ps.map (mapTexts f) := by
  induction ps with
  | nil => rfl
  | cons p ps ih => simp [mapTextsAll, ih]

theorem is_null_map_texts (f : String → String) (v : Value) : (mapTexts f v).isNull = v.isNull := by
  cases v <;> rfl

end RedoLog.Value
