import RedoLog.Statement.Syntax
import RedoLog.Tree

/-!
# Nodes of statements

Each piece of syntax covers the bytes from its first to its last token. A chain of conditions
without a connective is the node of its one condition.
-/

set_option autoImplicit false

namespace RedoLog

namespace Node

def span (production : Production) (first last : Token) (children : List Node) : Node :=
  ⟨production, first.index, first.start, last.stop, children⟩

def leaf (production : Production) (t : Token) : Node :=
  span production t t []

end Node

namespace Expression

def numberText (sign : Option Token) (literal : Token) : String :=
  match sign with
  | none => literal.text
  | some s => if s.kind = .minus then "-" ++ literal.text else literal.text

def numberNode (sign : Option Token) (literal : Token) : Node :=
  Node.span
    (.constant (.number (numberText sign literal) (literal.text.toList.all Char.isDigit)))
    (sign.getD literal) literal []

def textNode (type : Option Token) (literal : Token) : Node :=
  Node.span (.constant .quoted) (type.getD literal) literal [Node.leaf .quotedString literal]

mutual

def node : Expression → Node
  | .group opening inner closing => Node.span .unaryExpression opening closing [node inner]
  | .number sign literal =>
    Node.span .unaryExpression (sign.getD literal) literal [numberNode sign literal]
  | .text type literal =>
    Node.span .unaryExpression (type.getD literal) literal [textNode type literal]
  | .null word => Node.span .unaryExpression word word [Node.leaf (.constant .null) word]
  | .constant word => Node.span .unaryExpression word word [Node.leaf (.constant .word) word]
  | .call name _ arguments closing =>
    Node.span .unaryExpression name closing
      [Node.span (.function name.text) name closing (argumentNodes arguments)]

def argumentNodes : Chain Expression → List Node
  | .last e => [node e]
  | .next e _ rest => node e :: argumentNodes rest

end

end Expression

def Operand.node : Operand → Node
  | .column path =>
    Node.span .unaryExpression path.head path.final
      [Node.span .columnReference path.head path.final []]
  | .value e => e.node

namespace Condition

def first : Condition → Token
  | .not word _ => word
  | .group opening _ _ _ => opening
  | .operand left _ => left.first

def testLast (left : Token) : Test → Token
  | .holds => left
  | .compare _ right => right.last
  | .isNull _ _ null => null

def last : Condition → Token
  | .not _ inner => last inner
  | .group _ _ closing test => testLast closing test
  | .operand left test => testLast left.last test

def testNode (first : Token) (left : Node) : Test → Node
  | .holds => left
  | .compare _ right => Node.span .condition first right.last [left, right.node]
  | .isNull _ _ null => Node.span .condition first null [left]

def conjunctionFirst (c : Chain Condition) : Token :=
  c.head.first

def conjunctionLast (c : Chain Condition) : Token :=
  c.final.last

def alternativesFirst (c : Alternatives) : Token :=
  conjunctionFirst c.head

def alternativesLast (c : Alternatives) : Token :=
  conjunctionLast c.final

def connected (first last : Token) : List Node → Node
  | [n] => n
  | ns => Node.span .condition first last ns

mutual

def node : Condition → Node
  | .not word inner => Node.span .condition word (last inner) [node inner]
  | .group opening inner closing test =>
    testNode opening
      (Node.span .condition opening closing
        [connected (alternativesFirst inner) (alternativesLast inner) (alternativeNodes inner)])
      test
  | .operand left test => testNode left.first left.node test

def conjunctionNodes : Chain Condition → List Node
  | .last c => [node c]
  | .next c _ rest => node c :: conjunctionNodes rest

def alternativeNodes : Chain (Chain Condition) → List Node
  | .last c => [connected (conjunctionFirst c) (conjunctionLast c) (conjunctionNodes c)]
  | .next c _ rest =>
    connected (conjunctionFirst c) (conjunctionLast c) (conjunctionNodes c)
      :: alternativeNodes rest

end

def alternativesNode (c : Alternatives) : Node :=
  connected (alternativesFirst c) (alternativesLast c) (alternativeNodes c)

end Condition

def tableNode (table : Chain Token) : Node :=
  Node.span .tableName table.head table.final []

namespace RowInsert

def intoNode (s : RowInsert) : Node :=
  match s.columns with
  | none => Node.span .insertIntoClause s.into s.table.final [tableNode s.table]
  | some c =>
    Node.span .insertIntoClause s.into c.closing
      (tableNode s.table :: c.names.toList.map (Node.leaf .columnName))

def valuesNode (s : RowInsert) : Node :=
  Node.span .valuesClause s.values s.closing (Expression.argumentNodes s.row)

def node (s : RowInsert) : Node :=
  Node.span .insertStatement s.insert s.closing [s.intoNode, s.valuesNode]

end RowInsert

def Insert.node : Insert → Node
  | .row s => s.node
  | .several insert word rest =>
    let last := rest.getLast?.getD word
    Node.span .insertStatement insert last [Node.span .multiTableInsert word last []]

def Assignment.node (a : Assignment) : Node :=
  Node.span .setItem a.column a.value.last [Node.leaf .columnName a.column, a.value.node]

def Filter.node (f : Filter) : Node :=
  Node.span .whereClause f.word (Condition.alternativesLast f.condition)
    [Condition.alternativesNode f.condition]

namespace Update

def setNode (s : Update) : Node :=
  Node.span .updateSetClause s.setWord s.assignments.final.value.last
    (s.assignments.toList.map Assignment.node)

def last (s : Update) : Token :=
  match s.filter with
  | none => s.assignments.final.value.last
  | some f => Condition.alternativesLast f.condition

def node (s : Update) : Node :=
  Node.span .updateStatement s.update s.last
    (tableNode s.table :: s.setNode :: s.filter.toList.map Filter.node)

end Update

end RedoLog
