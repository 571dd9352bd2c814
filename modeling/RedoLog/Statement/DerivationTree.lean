import Mathlib.Data.List.Forall2
import RedoLog.Statement.Syntax
import RedoLog.Tree

/-!
# Trees of derivations

Which tree belongs to a derivation, told by its tokens and rule by rule, and not by a function that
builds one. A node stands over the tokens of its piece of syntax: it has the index and the start of
the first one and the end of the last one. Connected conditions are one node only where a connective
occurs, and the semicolon behind a statement belongs to no node.
-/

set_option autoImplicit false

namespace RedoLog

structure Node.Over (production : Production) (ts : List Token) (children : List Node) (n : Node) :
    Prop where
  production : n.production = production
  first : ∃ t, ts.head? = some t ∧ n.tokenIndex = t.index ∧ n.start = t.start
  last : ∃ t, ts.getLast? = some t ∧ n.stop = t.stop
  children : n.children = children

structure NumberShown (sign : Option Token) (literal : Token) (text : String) (integer : Bool) :
    Prop where
  negative : (∃ s ∈ sign, s.kind = .minus) → text = "-" ++ literal.text
  positive : (∀ s ∈ sign, s.kind ≠ .minus) → text = literal.text
  integer : integer = true ↔ ∀ c ∈ literal.text.toList, c.isDigit = true

namespace Expression

mutual

inductive Shown : Expression → Node → Prop where
  | around {e : Expression} {content n : Node} (hcontent : ContentShown e content)
      (hn : Node.Over .unaryExpression e.tokens [content] n) : Shown e n

inductive ContentShown : Expression → Node → Prop where
  | group {opening closing : Token} {inner : Expression} {n : Node} (hinner : Shown inner n) :
      ContentShown (.group opening inner closing) n
  | number {sign : Option Token} {literal : Token} {text : String} {integer : Bool} {n : Node}
      (htext : NumberShown sign literal text integer)
      (hn : Node.Over (.constant (.number text integer)) (sign.toList ++ [literal]) [] n) :
      ContentShown (.number sign literal) n
  | text {type : Option Token} {literal : Token} {quoted n : Node}
      (hquoted : Node.Over .quotedString [literal] [] quoted)
      (hn : Node.Over (.constant .quoted) (type.toList ++ [literal]) [quoted] n) :
      ContentShown (.text type literal) n
  | null {word : Token} {n : Node} (hn : Node.Over (.constant .null) [word] [] n) :
      ContentShown (.null word) n
  | constant {word : Token} {n : Node} (hn : Node.Over (.constant .word) [word] [] n) :
      ContentShown (.constant word) n
  | call {name opening closing : Token} {arguments : Chain Expression} {ns : List Node} {n : Node}
      (harguments : ArgumentsShown arguments ns)
      (hn : Node.Over (.function name.text)
        (name :: opening :: (argumentTokens arguments ++ [closing])) ns n) :
      ContentShown (.call name opening arguments closing) n

inductive ArgumentsShown : Chain Expression → List Node → Prop where
  | last {e : Expression} {n : Node} (he : Shown e n) : ArgumentsShown (.last e) [n]
  | next {e : Expression} {comma : Token} {rest : Chain Expression} {n : Node} {ns : List Node}
      (he : Shown e n) (hrest : ArgumentsShown rest ns) :
      ArgumentsShown (.next e comma rest) (n :: ns)

end

end Expression

inductive Operand.Shown : Operand → Node → Prop where
  | column {path : Chain Token} {reference n : Node}
      (hreference : Node.Over .columnReference (path.tokens fun t => [t]) [] reference)
      (hn : Node.Over .unaryExpression (path.tokens fun t => [t]) [reference] n) :
      Shown (.column path) n
  | value {e : Expression} {n : Node} (he : e.Shown n) : Shown (.value e) n

/-- A condition whose left side stands over the given tokens and is the given node. -/
inductive Test.Shown (ts : List Token) (left : Node) : Test → Node → Prop where
  | holds : Shown ts left .holds left
  | compare {operator : Token} {right : Operand} {m n : Node} (hright : right.Shown m)
      (hn : Node.Over .condition (ts ++ operator :: right.tokens) [left, m] n) :
      Shown ts left (.compare operator right) n
  | isNull {word null : Token} {negation : Option Token} {n : Node}
      (hn : Node.Over .condition (ts ++ word :: (negation.toList ++ [null])) [left] n) :
      Shown ts left (.isNull word negation null) n

/-- One operand stands for itself, and more of them, between connectives, are the children of a
condition. -/
inductive Joined (ts : List Token) : List Node → Node → Prop where
  | alone (n : Node) : Joined ts [n] n
  | several {ns : List Node} {n : Node} (hns : 2 ≤ ns.length) (hn : Node.Over .condition ts ns n) :
      Joined ts ns n

namespace Condition

mutual

inductive Shown : Condition → Node → Prop where
  | not {word : Token} {inner : Condition} {m n : Node} (hinner : Shown inner m)
      (hn : Node.Over .condition (word :: inner.tokens) [m] n) : Shown (.not word inner) n
  | group {opening closing : Token} {inner : Alternatives} {test : Test} {ns : List Node}
      {m left n : Node} (hinner : AlternativesShown inner ns)
      (hm : Joined (alternativeTokens inner) ns m)
      (hleft : Node.Over .condition (opening :: (alternativeTokens inner ++ [closing])) [m] left)
      (hn : test.Shown (opening :: (alternativeTokens inner ++ [closing])) left n) :
      Shown (.group opening inner closing test) n
  | operand {o : Operand} {test : Test} {left n : Node} (hleft : o.Shown left)
      (hn : test.Shown o.tokens left n) : Shown (.operand o test) n

inductive ConjunctionShown : Chain Condition → List Node → Prop where
  | last {c : Condition} {n : Node} (hc : Shown c n) : ConjunctionShown (.last c) [n]
  | next {c : Condition} {word : Token} {rest : Chain Condition} {n : Node} {ns : List Node}
      (hc : Shown c n) (hrest : ConjunctionShown rest ns) :
      ConjunctionShown (.next c word rest) (n :: ns)

inductive AlternativesShown : Alternatives → List Node → Prop where
  | last {c : Chain Condition} {ns : List Node} {n : Node} (hc : ConjunctionShown c ns)
      (hn : Joined (conjunctionTokens c) ns n) : AlternativesShown (.last c) [n]
  | next {c : Chain Condition} {word : Token} {rest : Alternatives} {ns ms : List Node} {n : Node}
      (hc : ConjunctionShown c ns) (hn : Joined (conjunctionTokens c) ns n)
      (hrest : AlternativesShown rest ms) : AlternativesShown (.next c word rest) (n :: ms)

end

end Condition

def NamesShown (names : Chain Token) (ns : List Node) : Prop :=
  List.Forall₂ (fun name n => Node.Over .columnName [name] [] n) names.toList ns

namespace RowInsert

inductive IntoShown (s : RowInsert) : Node → Prop where
  | table {table n : Node} (hcolumns : s.columns = none)
      (htable : Node.Over .tableName (s.table.tokens fun t => [t]) [] table)
      (hn : Node.Over .insertIntoClause (s.into :: s.table.tokens fun t => [t]) [table] n) :
      IntoShown s n
  | columns {c : ColumnList} {table n : Node} {ns : List Node} (hcolumns : s.columns = some c)
      (htable : Node.Over .tableName (s.table.tokens fun t => [t]) [] table)
      (hnames : NamesShown c.names ns)
      (hn : Node.Over .insertIntoClause (s.into :: (s.table.tokens (fun t => [t]) ++ c.tokens))
        (table :: ns) n) :
      IntoShown s n

inductive Shown (s : RowInsert) : Node → Prop where
  | clauses {into values n : Node} {ns : List Node} {ts : List Token} (hinto : s.IntoShown into)
      (hrow : Expression.ArgumentsShown s.row ns)
      (hvalues : Node.Over .valuesClause
        (s.values :: s.opening :: (Expression.argumentTokens s.row ++ [s.closing])) ns values)
      (hts : ts ++ s.terminator.toList = s.tokens)
      (hn : Node.Over .insertStatement ts [into, values] n) : Shown s n

end RowInsert

inductive Insert.Shown : Insert → Node → Prop where
  | row {s : RowInsert} {n : Node} (hs : s.Shown n) : Shown (.row s) n
  | several {insert word : Token} {rest : List Token} {content n : Node}
      (hcontent : Node.Over .multiTableInsert (word :: rest) [] content)
      (hn : Node.Over .insertStatement (insert :: word :: rest) [content] n) :
      Shown (.several insert word rest) n

inductive Assignment.Shown (a : Assignment) : Node → Prop where
  | item {column value n : Node} (hcolumn : Node.Over .columnName [a.column] [] column)
      (hvalue : a.value.Shown value) (hn : Node.Over .setItem a.tokens [column, value] n) :
      Shown a n

inductive Filter.Shown (f : Filter) : Node → Prop where
  | condition {ns : List Node} {m n : Node}
      (hcondition : Condition.AlternativesShown f.condition ns)
      (hm : Joined (Condition.alternativeTokens f.condition) ns m)
      (hn : Node.Over .whereClause f.tokens [m] n) : Shown f n

namespace Update

inductive Shown (s : Update) : Node → Prop where
  | clauses {table set n : Node} {items filters : List Node} {ts : List Token}
      (htable : Node.Over .tableName (s.table.tokens fun t => [t]) [] table)
      (hitems : List.Forall₂ Assignment.Shown s.assignments.toList items)
      (hset : Node.Over .updateSetClause
        (s.setWord :: s.assignments.tokens Assignment.tokens) items set)
      (hfilters : List.Forall₂ Filter.Shown s.filter.toList filters)
      (hts : ts ++ s.terminator.toList = s.tokens)
      (hn : Node.Over .updateStatement ts (table :: set :: filters) n) : Shown s n

end Update

end RedoLog
