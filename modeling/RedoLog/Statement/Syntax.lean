import RedoLog.Token

/-!
# Statements

The syntax of the two statements that carry column values. A syntax tree holds every token of its
statement, so its tokens can be read off it again; which kinds of tokens may stand where is said by
`WellFormed`. The nesting of a tree is the number of levels that stand inside each other: value
expressions, conditions at the top or in parentheses, and operands of a negation.
-/

set_option autoImplicit false

namespace RedoLog

inductive Chain (α : Type) where
  | last (item : α)
  | next (item : α) (separator : Token) (rest : Chain α)

namespace Chain

variable {α : Type}

def toList : Chain α → List α
  | .last a => [a]
  | .next a _ rest => a :: toList rest

def separators : Chain α → List Token
  | .last _ => []
  | .next _ s rest => s :: separators rest

def tokens (itemTokens : α → List Token) : Chain α → List Token
  | .last a => itemTokens a
  | .next a s rest => itemTokens a ++ s :: tokens itemTokens rest

def head : Chain α → α
  | .last a => a
  | .next a _ _ => a

def final : Chain α → α
  | .last a => a
  | .next _ _ rest => final rest

end Chain

inductive Expression where
  | group (opening : Token) (inner : Expression) (closing : Token)
  | number (sign : Option Token) (literal : Token)
  | text (type : Option Token) (literal : Token)
  | null (word : Token)
  | constant (word : Token)
  | call (name opening : Token) (arguments : Chain Expression) (closing : Token)

namespace Expression

mutual

def tokens : Expression → List Token
  | .group opening inner closing => opening :: (tokens inner ++ [closing])
  | .number sign literal => sign.toList ++ [literal]
  | .text type literal => type.toList ++ [literal]
  | .null word => [word]
  | .constant word => [word]
  | .call name opening arguments closing =>
    name :: opening :: (argumentTokens arguments ++ [closing])

def argumentTokens : Chain Expression → List Token
  | .last e => tokens e
  | .next e comma rest => tokens e ++ comma :: argumentTokens rest

end

mutual

def nesting : Expression → Nat
  | .group _ inner _ => nesting inner + 1
  | .call _ _ arguments _ => argumentNesting arguments + 1
  | _ => 1

def argumentNesting : Chain Expression → Nat
  | .last e => nesting e
  | .next e _ rest => max (nesting e) (argumentNesting rest)

end

mutual

def WellFormed : Expression → Prop
  | .group opening inner closing =>
    opening.kind = .openParen ∧ WellFormed inner ∧ closing.kind = .closeParen
  | .number sign literal =>
    (∀ t ∈ sign, t.kind = .plus ∨ t.kind = .minus) ∧ literal.kind = .number
  | .text type literal =>
    (∀ t ∈ type, t.kind = .dateWord ∨ t.kind = .timestampWord) ∧ literal.kind = .text
  | .null word => word.kind = .nullWord
  | .constant word => word.isConstantWord = true
  | .call name opening arguments closing =>
    name.kind = .name ∧ opening.kind = .openParen ∧ ArgumentsWellFormed arguments ∧
      closing.kind = .closeParen

def ArgumentsWellFormed : Chain Expression → Prop
  | .last e => WellFormed e
  | .next e comma rest => WellFormed e ∧ comma.kind = .comma ∧ ArgumentsWellFormed rest

end

def isGroup : Expression → Bool
  | .group _ _ _ => true
  | _ => false

def first : Expression → Token
  | .group opening _ _ => opening
  | .number sign literal => sign.getD literal
  | .text type literal => type.getD literal
  | .null word => word
  | .constant word => word
  | .call name _ _ _ => name

def last : Expression → Token
  | .group _ _ closing => closing
  | .number _ literal => literal
  | .text _ literal => literal
  | .null word => word
  | .constant word => word
  | .call _ _ _ closing => closing

end Expression

inductive Operand where
  | column (path : Chain Token)
  | value (e : Expression)

namespace Operand

def tokens : Operand → List Token
  | .column path => path.tokens fun t => [t]
  | .value e => e.tokens

def nesting : Operand → Nat
  | .column _ => 0
  | .value e => e.nesting

def PathWellFormed (path : Chain Token) : Prop :=
  (∀ t ∈ path.toList, t.kind.isName = true) ∧ ∀ t ∈ path.separators, t.kind = .dot

def WellFormed : Operand → Prop
  | .column path => PathWellFormed path ∧ path.head.isConstantWord = false
  | .value e => e.WellFormed

def isGroup : Operand → Bool
  | .column _ => false
  | .value e => e.isGroup

def first : Operand → Token
  | .column path => path.head
  | .value e => e.first

def last : Operand → Token
  | .column path => path.final
  | .value e => e.last

end Operand

inductive Test where
  | holds
  | compare (operator : Token) (right : Operand)
  | isNull (word : Token) (negation : Option Token) (null : Token)

namespace Test

def tokens : Test → List Token
  | .holds => []
  | .compare operator right => operator :: right.tokens
  | .isNull word negation null => word :: (negation.toList ++ [null])

def nesting : Test → Nat
  | .compare _ right => right.nesting
  | _ => 0

def WellFormed : Test → Prop
  | .holds => True
  | .compare operator right => operator.kind.isComparison = true ∧ right.WellFormed
  | .isNull word negation null =>
    word.kind = .isWord ∧ (∀ t ∈ negation, t.kind = .notWord) ∧ null.kind = .nullWord

end Test

/-- A condition without connectives outside parentheses. Inside parentheses stands a chain of
chains: alternatives between `OR`, each of conditions between `AND`. -/
inductive Condition where
  | not (word : Token) (inner : Condition)
  | group (opening : Token) (inner : Chain (Chain Condition)) (closing : Token) (test : Test)
  | operand (left : Operand) (test : Test)

abbrev Alternatives : Type :=
  Chain (Chain Condition)

namespace Condition

mutual

def tokens : Condition → List Token
  | .not word inner => word :: tokens inner
  | .group opening inner closing test =>
    opening :: (alternativeTokens inner ++ closing :: test.tokens)
  | .operand left test => left.tokens ++ test.tokens

def conjunctionTokens : Chain Condition → List Token
  | .last c => tokens c
  | .next c word rest => tokens c ++ word :: conjunctionTokens rest

def alternativeTokens : Chain (Chain Condition) → List Token
  | .last c => conjunctionTokens c
  | .next c word rest => conjunctionTokens c ++ word :: alternativeTokens rest

end

mutual

/-- Levels inside a condition, the condition itself not counted. -/
def nesting : Condition → Nat
  | .not _ inner => nesting inner + 1
  | .group _ inner _ test => max (alternativeNesting inner + 1) test.nesting
  | .operand left test => max left.nesting test.nesting

def conjunctionNesting : Chain Condition → Nat
  | .last c => nesting c
  | .next c _ rest => max (nesting c) (conjunctionNesting rest)

def alternativeNesting : Chain (Chain Condition) → Nat
  | .last c => conjunctionNesting c
  | .next c _ rest => max (conjunctionNesting c) (alternativeNesting rest)

end

mutual

def WellFormed : Condition → Prop
  | .not word inner => word.kind = .notWord ∧ WellFormed inner
  | .group opening inner closing test =>
    opening.kind = .openParen ∧ AlternativesWellFormed inner ∧ closing.kind = .closeParen ∧
      test.WellFormed
  | .operand left test => left.WellFormed ∧ left.isGroup = false ∧ test.WellFormed

def ConjunctionWellFormed : Chain Condition → Prop
  | .last c => WellFormed c
  | .next c word rest => WellFormed c ∧ word.kind = .andWord ∧ ConjunctionWellFormed rest

def AlternativesWellFormed : Chain (Chain Condition) → Prop
  | .last c => ConjunctionWellFormed c
  | .next c word rest =>
    ConjunctionWellFormed c ∧ word.kind = .orWord ∧ AlternativesWellFormed rest

end

end Condition

structure ColumnList where
  opening : Token
  names : Chain Token
  closing : Token

namespace ColumnList

def tokens (c : ColumnList) : List Token :=
  c.opening :: (c.names.tokens (fun t => [t]) ++ [c.closing])

def WellFormed (c : ColumnList) : Prop :=
  c.opening.kind = .openParen ∧ (∀ t ∈ c.names.toList, t.kind.isName = true) ∧
    (∀ t ∈ c.names.separators, t.kind = .comma) ∧ c.closing.kind = .closeParen

end ColumnList

structure RowInsert where
  insert : Token
  into : Token
  table : Chain Token
  columns : Option ColumnList
  values : Token
  opening : Token
  row : Chain Expression
  closing : Token
  terminator : Option Token

namespace RowInsert

def tokens (s : RowInsert) : List Token :=
  s.insert :: s.into :: (s.table.tokens (fun t => [t])
    ++ (match s.columns with
      | none => []
      | some c => c.tokens)
    ++ s.values :: s.opening :: (Expression.argumentTokens s.row
      ++ s.closing :: s.terminator.toList))

def nesting (s : RowInsert) : Nat :=
  Expression.argumentNesting s.row

def WellFormed (s : RowInsert) : Prop :=
  s.insert.kind = .insertWord ∧ s.into.kind = .intoWord ∧ Operand.PathWellFormed s.table ∧
    (∀ c ∈ s.columns, c.WellFormed) ∧ s.values.kind = .valuesWord ∧
    s.opening.kind = .openParen ∧ Expression.ArgumentsWellFormed s.row ∧
    s.closing.kind = .closeParen ∧ ∀ t ∈ s.terminator, t.kind = .semicolon

end RowInsert

/-- An `INSERT`. One that starts with `ALL` or `FIRST` fills several tables; what it holds behind
that word is not looked into. -/
inductive Insert where
  | row (s : RowInsert)
  | several (insert word : Token) (rest : List Token)

namespace Insert

def tokens : Insert → List Token
  | .row s => s.tokens
  | .several insert word rest => insert :: word :: rest

def nesting : Insert → Nat
  | .row s => s.nesting
  | .several _ _ _ => 0

def WellFormed : Insert → Prop
  | .row s => s.WellFormed
  | .several insert word _ =>
    insert.kind = .insertWord ∧ (word.kind = .allWord ∨ word.kind = .firstWord)

end Insert

structure Assignment where
  column : Token
  equals : Token
  value : Expression

namespace Assignment

def tokens (a : Assignment) : List Token :=
  a.column :: a.equals :: a.value.tokens

def WellFormed (a : Assignment) : Prop :=
  a.column.kind.isName = true ∧ a.equals.kind = .equals ∧ a.value.WellFormed

end Assignment

structure Filter where
  word : Token
  condition : Alternatives

namespace Filter

def tokens (f : Filter) : List Token :=
  f.word :: Condition.alternativeTokens f.condition

def nesting (f : Filter) : Nat :=
  Condition.alternativeNesting f.condition + 1

def WellFormed (f : Filter) : Prop :=
  f.word.kind = .whereWord ∧ Condition.AlternativesWellFormed f.condition

end Filter

structure Update where
  update : Token
  table : Chain Token
  correlation : Option Token
  setWord : Token
  assignments : Chain Assignment
  filter : Option Filter
  terminator : Option Token

namespace Update

def tokens (s : Update) : List Token :=
  s.update :: (s.table.tokens (fun t => [t]) ++ s.correlation.toList
    ++ s.setWord :: (s.assignments.tokens Assignment.tokens
      ++ (match s.filter with
        | none => []
        | some f => f.tokens)
      ++ s.terminator.toList))

def nesting (s : Update) : Nat :=
  max (s.assignments.toList.foldr (fun a n => max a.value.nesting n) 0)
    (match s.filter with
      | none => 0
      | some f => f.nesting)

def WellFormed (s : Update) : Prop :=
  s.update.kind = .updateWord ∧ Operand.PathWellFormed s.table ∧
    (∀ t ∈ s.correlation, t.kind.isName = true) ∧ s.setWord.kind = .setWord ∧
    (∀ a ∈ s.assignments.toList, a.WellFormed) ∧
    (∀ t ∈ s.assignments.separators, t.kind = .comma) ∧
    (∀ f ∈ s.filter, f.WellFormed) ∧ ∀ t ∈ s.terminator, t.kind = .semicolon

end Update

end RedoLog
