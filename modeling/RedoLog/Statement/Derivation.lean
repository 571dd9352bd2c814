import RedoLog.Statement.Parser

/-!
# Derivations of statements

A statement derives a list of tokens if it holds these tokens in this order, each of them is of a
kind that may stand in its place, and no more levels stand inside each other than are allowed. Two
rules of the grammar look at the token behind: a word is a constant, and a name starts a column,
only where no opening parenthesis comes next.
-/

set_option autoImplicit false

namespace RedoLog

def NotOpened (next : Option Token) : Prop :=
  ∀ t ∈ next, t.kind ≠ .openParen

namespace Expression

mutual

/-- No constant word has an opening parenthesis behind it. The token behind the value is given. -/
def Alone : Expression → Option Token → Prop
  | .group _ inner closing, _ => Alone inner (some closing)
  | .constant _, next => NotOpened next
  | .call _ _ arguments closing, _ => ArgumentsAlone arguments (some closing)
  | _, _ => True

def ArgumentsAlone : Chain Expression → Option Token → Prop
  | .last e, next => Alone e next
  | .next e comma rest, next => Alone e (some comma) ∧ ArgumentsAlone rest next

end

end Expression

def Operand.Alone : Operand → Option Token → Prop
  | .column path, next => NotOpened (path.separators.head?.or next)
  | .value e, next => e.Alone next

def Test.Alone : Test → Option Token → Prop
  | .compare _ right, next => right.Alone next
  | _, _ => True

namespace Condition

mutual

def Alone : Condition → Option Token → Prop
  | .not _ inner, next => Alone inner next
  | .group _ inner closing test, next =>
    AlternativesAlone inner (some closing) ∧ test.Alone next
  | .operand left test, next => left.Alone (test.tokens.head?.or next) ∧ test.Alone next

def ConjunctionAlone : Chain Condition → Option Token → Prop
  | .last c, next => Alone c next
  | .next c word rest, next => Alone c (some word) ∧ ConjunctionAlone rest next

def AlternativesAlone : Chain (Chain Condition) → Option Token → Prop
  | .last c, next => ConjunctionAlone c next
  | .next c word rest, next => ConjunctionAlone c (some word) ∧ AlternativesAlone rest next

end

end Condition

namespace Insert

def Alone : Insert → Prop
  | .row s => Expression.ArgumentsAlone s.row (some s.closing)
  | .several _ _ _ => True

structure Derives (s : Insert) (ts : List Token) : Prop where
  tokens : s.tokens = ts
  wellFormed : s.WellFormed
  alone : s.Alone
  levels : s.nesting ≤ maxLevels

end Insert

namespace Update

def AssignmentsAlone : Chain Assignment → Option Token → Prop
  | .last a, next => a.value.Alone next
  | .next a comma rest, next => a.value.Alone (some comma) ∧ AssignmentsAlone rest next

def Alone (s : Update) : Prop :=
  AssignmentsAlone s.assignments ((s.filter.map Filter.word).or s.terminator) ∧
    ∀ f ∈ s.filter, Condition.AlternativesAlone f.condition s.terminator

structure Derives (s : Update) (ts : List Token) : Prop where
  tokens : s.tokens = ts
  wellFormed : s.WellFormed
  alone : s.Alone
  levels : s.nesting ≤ maxLevels

end Update

end RedoLog
