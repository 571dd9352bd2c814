import RedoLog.Replay.Insert
import RedoLog.Statement.Nodes

/-!
# What statements say

The value of an expression and the columns of a statement, by recursion on the syntax. Parentheses
add nothing to the value that they enclose. A statement whose calls are all supported writes these
columns.
-/

set_option autoImplicit false

namespace RedoLog

structure Call where
  name : Token
  closing : Token

namespace Call

def isSupported (c : Call) : Bool :=
  supportedFunctions.any fun supported => Text.sameLetters supported c.name.text

def text (source : List Char) (c : Call) : String :=
  (Node.span (.function c.name.text) c.name c.closing []).text source

end Call

namespace Expression

mutual

def calls : Expression → List Call
  | .group _ inner _ => calls inner
  | .call name _ arguments closing => ⟨name, closing⟩ :: argumentCalls arguments
  | _ => []

def argumentCalls : Chain Expression → List Call
  | .last e => calls e
  | .next e _ rest => calls e ++ argumentCalls rest

end

mutual

def meaning (trim : Bool) : Expression → Value
  | .group _ inner _ => meaning trim inner
  | .number sign literal =>
    numberValue (numberText sign literal) (literal.text.toList.all Char.isDigit)
  | .text _ literal => .text (textContent trim literal.text)
  | .null _ => .null
  | .constant word => .text word.text
  | .call name _ arguments _ =>
    .call (String.ofList (Text.upper name.text.toList)) (argumentMeanings trim arguments)

def argumentMeanings (trim : Bool) : Chain Expression → List Value
  | .last e => [meaning trim e]
  | .next e _ rest => meaning trim e :: argumentMeanings trim rest

end

theorem argument_calls_eq_flat_map (es : Chain Expression) :
    argumentCalls es = es.toList.flatMap calls := by
  induction es with
  | last e => simp [argumentCalls, Chain.toList]
  | next e s rest ih => simp [argumentCalls, Chain.toList, ih]

theorem argument_meanings_eq_map (trim : Bool) (es : Chain Expression) :
    argumentMeanings trim es = es.toList.map (meaning trim) := by
  induction es with
  | last e => rfl
  | next e s rest ih => simp [argumentMeanings, Chain.toList, ih]

end Expression

namespace RowInsert

def columnNames (s : RowInsert) : List String :=
  match s.columns with
  | none => []
  | some c => c.names.toList.map fun t => unquoteName t.text

def entries (options : Options) (s : RowInsert) : List (String × Value) :=
  (s.columnNames.map (options.columnPrefix ++ ·)).zip
    (s.row.toList.map (Expression.meaning options.trimText))

def meaning (options : Options) (s : RowInsert) : Columns :=
  OrderedMap.ofEntries ((s.entries options).filter fun entry => !entry.2.isNull)

end RowInsert

namespace Assignment

def entry (options : Options) (a : Assignment) : String × Value :=
  (options.columnPrefix ++ unquoteName a.column.text, a.value.meaning options.trimText)

end Assignment

def Update.meaning (options : Options) (s : Update) : Columns :=
  OrderedMap.ofEntries (s.assignments.toList.map (Assignment.entry options))

end RedoLog
