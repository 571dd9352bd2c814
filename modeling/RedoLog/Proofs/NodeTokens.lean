import RedoLog.Proofs.ReparsedConditions
import RedoLog.Proofs.ValueNodes

/-!
# Nodes over tokens

The nodes of a statement stand over its tokens. Each is from one token to another, and its children
stand over the tokens between the two, these included. A unary expression or a function starts with
a token that no other node of its sort starts with.
-/

set_option autoImplicit false

namespace RedoLog

def Ends (ts : List Token) (first last : Token) : Prop :=
  ts.head? = some first ∧ ts.getLast? = some last

namespace Ends

variable {ts us : List Token} {first last first' last' : Token}

theorem single (t : Token) : Ends [t] t t :=
  ⟨rfl, rfl⟩

theorem append (h : Ends ts first last) (h' : Ends us first' last') :
    Ends (ts ++ us) first last' := by
  simp [Ends, h.1, h'.2]

theorem cons (t : Token) (h : Ends us first last) : Ends (t :: us) t last :=
  (single t).append h

theorem behind (h : Ends us first last) (t : Token) (ts : List Token) :
    Ends (t :: (ts ++ us)) t last :=
  ⟨rfl, by rw [← List.cons_append, List.getLast?_append, h.2]; rfl⟩

theorem parens (opening closing : Token) (ts : List Token) :
    Ends (opening :: (ts ++ [closing])) opening closing :=
  (single closing).behind opening ts

end Ends

def Production.isTagged : Production → Bool
  | .unaryExpression => true
  | .function _ => true
  | _ => false

namespace Node

inductive Covers : List Node → List Token → Prop where
  | nil : Covers [] []
  | skip (t : Token) {ns : List Node} {ts : List Token} (h : Covers ns ts) : Covers ns (t :: ts)
  | append {ns ms : List Node} {ts us : List Token} (h : Covers ns ts) (h' : Covers ms us) :
      Covers (ns ++ ms) (ts ++ us)
  | around {production : Production} {first last : Token} {ns : List Node} {ts : List Token}
      (hplain : production.isTagged = false) (hends : Ends ts first last) (h : Covers ns ts) :
      Covers [span production first last ns] ts
  | value {first last : Token} {ns : List Node} {ts : List Token} (hends : Ends ts first last)
      (hplain : ∀ n ∈ preorderAll ns, n.production.isTagged = false) (h : Covers ns ts) :
      Covers [span .unaryExpression first last ns] ts
  | group (opening closing : Token) {ns : List Node} {ts : List Token} (h : Covers ns ts) :
      Covers [span .unaryExpression opening closing ns] (opening :: (ts ++ [closing]))
  | call (name closing : Token) (text : String) {ns : List Node} {ts : List Token}
      (h : Covers ns ts) :
      Covers [span .unaryExpression name closing [span (.function text) name closing ns]]
        (name :: (ts ++ [closing]))

namespace Covers

variable {ns ms : List Node} {ts us : List Token}

theorem none (ts : List Token) : Covers [] ts := by
  induction ts with
  | nil => exact .nil
  | cons t ts ih => exact .skip t ih

theorem behind (front : List Token) (h : Covers ns ts) : Covers ns (front ++ ts) :=
  (none front).append h

theorem before (h : Covers ns ts) (rest : List Token) : Covers ns (ts ++ rest) := by
  simpa using h.append (none rest)

theorem leaf {production : Production} (hplain : production.isTagged = false) (t : Token) :
    Covers [Node.leaf production t] [t] :=
  .around hplain (.single t) (none [t])

theorem cons {n : Node} (h : Covers [n] ts) (h' : Covers ns us) : Covers (n :: ns) (ts ++ us) :=
  h.append h'

end Covers

end Node

theorem Chain.ends {α : Type} {itemTokens : α → List Token} {first last : α → Token}
    (h : ∀ a, Ends (itemTokens a) (first a) (last a)) (c : Chain α) :
    Ends (c.tokens itemTokens) (first c.head) (last c.final) := by
  induction c with
  | last a => exact h a
  | next a s rest ih => exact (h a).append (ih.cons s)

theorem Chain.ends_tokens (c : Chain Token) : Ends (c.tokens fun t => [t]) c.head c.final :=
  c.ends Ends.single

namespace Expression

theorem ends (e : Expression) : Ends e.tokens e.first e.last := by
  cases e with
  | group opening inner closing => exact .parens opening closing _
  | number sign literal => cases sign <;> exact ⟨rfl, rfl⟩
  | text type literal => cases type <;> exact ⟨rfl, rfl⟩
  | null word => exact .single word
  | constant word => exact .single word
  | call name opening arguments closing => exact .parens name closing (opening :: _)

mutual

theorem covers : ∀ e : Expression, Node.Covers [e.node] e.tokens
  | .group opening inner closing => .group opening closing (covers inner)
  | .number sign literal => by
    have hends := (Expression.number sign literal).ends
    have hnumber : Node.Covers [numberNode sign literal] (sign.toList ++ [literal]) :=
      .around rfl hends (.none _)
    exact .value hends (by simp [numberNode, Node.span, Node.preorderAll, Node.preorder,
      Production.isTagged]) hnumber
  | .text type literal => by
    have hends := (Expression.text type literal).ends
    have htext : Node.Covers [textNode type literal] (type.toList ++ [literal]) :=
      .around rfl hends ((Node.Covers.leaf rfl literal).behind type.toList)
    exact .value hends (by simp [textNode, Node.leaf, Node.span, Node.preorderAll, Node.preorder,
      Production.isTagged]) htext
  | .null word => .value (.single word) (by simp [Node.leaf, Node.span, Node.preorderAll,
      Node.preorder, Production.isTagged]) (.leaf rfl word)
  | .constant word => .value (.single word) (by simp [Node.leaf, Node.span, Node.preorderAll,
      Node.preorder, Production.isTagged]) (.leaf rfl word)
  | .call name opening arguments closing =>
    .call name closing name.text (.skip opening (arguments_cover arguments))

theorem arguments_cover : ∀ es : Chain Expression,
    Node.Covers (argumentNodes es) (argumentTokens es)
  | .last e => covers e
  | .next e comma rest => (covers e).cons (.skip comma (arguments_cover rest))

end

end Expression

namespace Operand

theorem ends (o : Operand) : Ends o.tokens o.first o.last := by
  cases o with
  | column path => exact path.ends_tokens
  | value e => exact e.ends

theorem covers (o : Operand) : Node.Covers [o.node] o.tokens := by
  cases o with
  | column path =>
    have hends := path.ends_tokens
    have hplain : ∀ n ∈ Node.preorderAll [Node.span .columnReference path.head path.final []],
        n.production.isTagged = false := by
      simp [Node.span, Node.preorderAll, Node.preorder, Production.isTagged]
    exact .value hends hplain (.around rfl hends (.none _))
  | value e => exact e.covers

end Operand

namespace Condition

theorem test_ends {ts : List Token} {first last : Token} (h : Ends ts first last) (test : Test) :
    Ends (ts ++ test.tokens) first (testLast last test) := by
  cases test with
  | holds => simpa [Test.tokens, testLast] using h
  | compare operator right => exact h.append (right.ends.cons operator)
  | isNull word negation null =>
    exact h.append (.parens word null negation.toList)

theorem test_covers {ts : List Token} {first last : Token} {left : Node}
    (hends : Ends ts first last) (h : Node.Covers [left] ts) (test : Test) :
    Node.Covers [testNode first left test] (ts ++ test.tokens) := by
  have htest := test_ends hends test
  cases test with
  | holds => simpa [Test.tokens, testNode] using h
  | compare operator right => exact .around rfl htest (h.cons (.skip operator right.covers))
  | isNull word negation null => exact .around rfl htest (h.before _)

theorem connected_covers {ts : List Token} {first last : Token} {ns : List Node}
    (hends : Ends ts first last) (h : Node.Covers ns ts) :
    Node.Covers [connected first last ns] ts := by
  unfold connected
  split
  · exact h
  · exact .around rfl hends h

mutual

theorem ends : ∀ c : Condition, Ends c.tokens c.first c.last
  | .not word inner => (ends inner).cons word
  | .group opening inner closing test => by
    have htest := test_ends (.parens opening closing (alternativeTokens inner)) test
    simpa [tokens, first, last] using htest
  | .operand left test => test_ends left.ends test

theorem conjunction_ends : ∀ cs : Chain Condition,
    Ends (conjunctionTokens cs) (conjunctionFirst cs) (conjunctionLast cs)
  | .last c => ends c
  | .next c word rest => (ends c).append ((conjunction_ends rest).cons word)

end

theorem alternative_ends : ∀ cs : Alternatives,
    Ends (alternativeTokens cs) (alternativesFirst cs) (alternativesLast cs)
  | .last c => conjunction_ends c
  | .next c word rest => (conjunction_ends c).append ((alternative_ends rest).cons word)

mutual

theorem covers : ∀ c : Condition, Node.Covers [c.node] c.tokens
  | .not word inner => .around rfl ((ends inner).cons word) (.skip word (covers inner))
  | .group opening inner closing test => by
    have hends := Ends.parens opening closing (alternativeTokens inner)
    have hinner := connected_covers (alternative_ends inner) (alternatives_cover inner)
    have hgroup : Node.Covers [Node.span .condition opening closing [connected
        (alternativesFirst inner) (alternativesLast inner) (alternativeNodes inner)]]
          (opening :: (alternativeTokens inner ++ [closing])) :=
      .around rfl hends (.skip opening (hinner.before [closing]))
    have htest := test_covers hends hgroup test
    simpa [tokens, node] using htest
  | .operand left test => test_covers left.ends left.covers test

theorem conjunction_covers : ∀ cs : Chain Condition,
    Node.Covers (conjunctionNodes cs) (conjunctionTokens cs)
  | .last c => covers c
  | .next c word rest => (covers c).cons (.skip word (conjunction_covers rest))

theorem alternatives_cover : ∀ cs : Alternatives,
    Node.Covers (alternativeNodes cs) (alternativeTokens cs)
  | .last c => connected_covers (conjunction_ends c) (conjunction_covers c)
  | .next c word rest =>
    (connected_covers (conjunction_ends c) (conjunction_covers c)).cons
      (.skip word (alternatives_cover rest))

end

end Condition

theorem table_covers (table : Chain Token) :
    Node.Covers [tableNode table] (table.tokens fun t => [t]) :=
  .around rfl table.ends_tokens (.none _)

theorem names_cover (names : Chain Token) :
    Node.Covers (names.toList.map (Node.leaf .columnName)) (names.tokens fun t => [t]) := by
  induction names with
  | last t => exact .leaf rfl t
  | next t comma rest ih => exact (Node.Covers.leaf rfl t).cons (.skip comma ih)

theorem Assignment.ends (a : Assignment) : Ends a.tokens a.column a.value.last :=
  (a.value.ends.cons a.equals).cons a.column

theorem Assignment.covers (a : Assignment) : Node.Covers [a.node] a.tokens :=
  .around rfl a.ends ((Node.Covers.leaf rfl a.column).cons (.skip a.equals a.value.covers))

theorem assignments_cover (c : Chain Assignment) :
    Node.Covers (c.toList.map Assignment.node) (c.tokens Assignment.tokens) := by
  induction c with
  | last a => exact a.covers
  | next a comma rest ih => exact a.covers.cons (.skip comma ih)

theorem Filter.ends (f : Filter) :
    Ends f.tokens f.word (Condition.alternativesLast f.condition) :=
  (Condition.alternative_ends f.condition).cons f.word

theorem Filter.covers (f : Filter) : Node.Covers [f.node] f.tokens :=
  .around rfl f.ends (.skip f.word
    (Condition.connected_covers (Condition.alternative_ends _) (Condition.alternatives_cover _)))

namespace RowInsert

theorem into_covers (s : RowInsert) :
    Node.Covers [s.intoNode]
      (s.into :: (s.table.tokens (fun t => [t]) ++ s.columns.elim [] ColumnList.tokens)) := by
  have htable := table_covers s.table
  unfold intoNode
  cases s.columns with
  | none =>
    rw [Option.elim_none, List.append_nil]
    exact .around rfl (s.table.ends_tokens.cons s.into) (.skip s.into htable)
  | some c =>
    have hends : Ends c.tokens c.opening c.closing := .parens _ _ _
    have hnames := ((names_cover c.names).before [c.closing]).behind [c.opening]
    exact .around rfl ((s.table.ends_tokens.append hends).cons s.into)
      (.skip s.into (htable.cons hnames))

theorem values_cover (s : RowInsert) :
    Node.Covers [s.valuesNode]
      (s.values :: s.opening :: (Expression.argumentTokens s.row ++ [s.closing])) :=
  .around rfl (.parens s.values s.closing (s.opening :: _))
    (.skip s.values (.skip s.opening ((Expression.arguments_cover s.row).before [s.closing])))

theorem covers (s : RowInsert) : Node.Covers [s.node] s.tokens := by
  have hends := Ends.parens s.values s.closing (s.opening :: Expression.argumentTokens s.row)
  have hnode : Node.Covers [s.node] _ :=
    .around rfl (hends.behind s.insert _) (.skip s.insert (s.into_covers.cons s.values_cover))
  have hall := hnode.before s.terminator.toList
  cases hcolumns : s.columns <;> simpa [tokens, hcolumns] using hall

end RowInsert

theorem Insert.covers (s : Insert) : Node.Covers [s.node] s.tokens := by
  cases s with
  | row s => exact s.covers
  | several insert word rest =>
    have hends : Ends (word :: rest) word (rest.getLast?.getD word) := by
      simp [Ends, List.getLast?_cons]
    exact .around rfl (hends.cons insert) (.skip insert (.around rfl hends (.none _)))

namespace Update

theorem set_covers (s : Update) :
    Node.Covers [s.setNode] (s.setWord :: s.assignments.tokens Assignment.tokens) :=
  .around rfl ((s.assignments.ends Assignment.ends).cons s.setWord)
    (.skip s.setWord (assignments_cover s.assignments))

theorem clauses_cover (s : Update) :
    Node.Covers (s.setNode :: s.filter.toList.map Filter.node)
      ((s.setWord :: s.assignments.tokens Assignment.tokens) ++ s.filter.elim [] Filter.tokens) ∧
    Ends ((s.setWord :: s.assignments.tokens Assignment.tokens) ++ s.filter.elim [] Filter.tokens)
      s.setWord s.last := by
  have hset := (s.assignments.ends Assignment.ends).cons s.setWord
  unfold last
  cases s.filter with
  | none =>
    rw [Option.elim_none, List.append_nil]
    exact ⟨s.set_covers, hset⟩
  | some f => exact ⟨s.set_covers.cons f.covers, hset.append f.ends⟩

theorem covers (s : Update) : Node.Covers [s.node] s.tokens := by
  obtain ⟨hclauses, hends⟩ := s.clauses_cover
  have hfront := (table_covers s.table).before s.correlation.toList
  have hnode : Node.Covers [s.node] _ :=
    .around rfl (hends.behind s.update _) (.skip s.update (hfront.cons hclauses))
  have hall := hnode.before s.terminator.toList
  cases hfilter : s.filter <;> simpa [tokens, hfilter] using hall

end Update

end RedoLog
