import RedoLog.Proofs.ExpressionReplay

/-!
# Nodes of conditions

A condition is made of comparisons, columns and values, and what passes from the nodes inside to
the node around them holds of all of it. In particular no node in it belongs to an assignment or
names a column that is written.
-/

set_option autoImplicit false

namespace RedoLog

def Production.isOfCondition : Production → Bool
  | .whereClause => true
  | .condition => true
  | .columnReference => true
  | p => p.isOfValue

namespace Node

/-- A property of nodes that passes from the nodes inside to the node around them. The tokens of
values may be known to have a property too. -/
structure Ascends (Q : Token → Prop) (P : Node → Prop) : Prop where
  value : ∀ (e : Expression) (child : Node), (∀ t ∈ e.tokens, Q t) →
    e.node.children = [child] → P child → P e.node
  column : ∀ path : Chain Token, P (Operand.column path).node
  around : ∀ {production : Production} (first last : Token) {children : List Node},
    production.isOfCondition = true → production ≠ .unaryExpression →
    (∀ n ∈ children, P n) → P (span production first last children)

namespace Ascends

variable {Q : Token → Prop} {P : Node → Prop}

theorem leaf (h : Ascends Q P) {production : Production} (t : Token)
    (hproduction : production.isOfCondition = true) (hunary : production ≠ .unaryExpression) :
    P (Node.leaf production t) :=
  h.around t t hproduction hunary (by simp)

mutual

theorem expression (h : Ascends Q P) : ∀ e : Expression, (∀ t ∈ e.tokens, Q t) → P e.node
  | .group opening inner closing, htokens =>
    h.value _ _ htokens rfl
      (h.expression inner fun t ht => htokens t (by simp [Expression.tokens, ht]))
  | .number sign literal, htokens =>
    h.value _ _ htokens rfl (h.around _ _ rfl (by simp) (by simp))
  | .text type literal, htokens => by
    have hstring : P (Node.leaf .quotedString literal) := h.leaf literal rfl (by simp)
    exact h.value _ _ htokens rfl (h.around _ _ rfl (by simp) (by simpa using hstring))
  | .null word, htokens => h.value _ _ htokens rfl (h.leaf word rfl (by simp))
  | .constant word, htokens => h.value _ _ htokens rfl (h.leaf word rfl (by simp))
  | .call name opening arguments closing, htokens =>
    h.value _ _ htokens rfl (h.around _ _ rfl (by simp)
      (h.arguments arguments fun t ht => htokens t (by simp [Expression.tokens, ht])))

theorem arguments (h : Ascends Q P) : ∀ es : Chain Expression,
    (∀ t ∈ Expression.argumentTokens es, Q t) → ∀ n ∈ Expression.argumentNodes es, P n
  | .last e, htokens => by
    have he := h.expression e htokens
    simpa [Expression.argumentNodes] using he
  | .next e _ rest, htokens => by
    have he := h.expression e fun t ht => htokens t (by simp [Expression.argumentTokens, ht])
    have hrest := h.arguments rest
      fun t ht => htokens t (by simp [Expression.argumentTokens, ht])
    simpa [Expression.argumentNodes] using ⟨he, hrest⟩

end

theorem operand (h : Ascends Q P) (o : Operand) (htokens : ∀ t ∈ o.tokens, Q t) : P o.node := by
  cases o with
  | column path => exact h.column path
  | value e => exact h.expression e htokens

theorem test_node (h : Ascends Q P) (first : Token) (left : Node) (test : Test)
    (htokens : ∀ t ∈ test.tokens, Q t) (hleft : P left) :
    P (Condition.testNode first left test) := by
  cases test with
  | holds => exact hleft
  | compare operator right =>
    have hright := h.operand right fun t ht => htokens t (by simp [Test.tokens, ht])
    exact h.around _ _ rfl (by simp) (by simpa using ⟨hleft, hright⟩)
  | isNull word negation null => exact h.around _ _ rfl (by simp) (by simpa using hleft)

theorem connected (h : Ascends Q P) (first last : Token) (ns : List Node)
    (hns : ∀ n ∈ ns, P n) : P (Condition.connected first last ns) := by
  unfold Condition.connected
  split
  · exact hns _ (by simp)
  · exact h.around _ _ rfl (by simp) hns

mutual

theorem condition (h : Ascends Q P) : ∀ c : Condition, (∀ t ∈ c.tokens, Q t) → P c.node
  | .not word inner, htokens => by
    have hinner := h.condition inner fun t ht => htokens t (by simp [Condition.tokens, ht])
    exact h.around _ _ rfl (by simp) (by simpa using hinner)
  | .group opening inner closing test, htokens => by
    have hinner := h.connected (Condition.alternativesFirst inner)
      (Condition.alternativesLast inner) (Condition.alternativeNodes inner)
      (h.alternatives inner fun t ht => htokens t (by simp [Condition.tokens, ht]))
    apply h.test_node opening _ test fun t ht => htokens t (by simp [Condition.tokens, ht])
    exact h.around _ _ rfl (by simp) (by simpa using hinner)
  | .operand left test, htokens => by
    have hleft := h.operand left fun t ht => htokens t (by simp [Condition.tokens, ht])
    exact h.test_node left.first left.node test
      (fun t ht => htokens t (by simp [Condition.tokens, ht])) hleft

theorem conjunction (h : Ascends Q P) : ∀ cs : Chain Condition,
    (∀ t ∈ Condition.conjunctionTokens cs, Q t) → ∀ n ∈ Condition.conjunctionNodes cs, P n
  | .last c, htokens => by
    have hc := h.condition c htokens
    simpa [Condition.conjunctionNodes] using hc
  | .next c _ rest, htokens => by
    have hc := h.condition c fun t ht => htokens t (by simp [Condition.conjunctionTokens, ht])
    have hrest := h.conjunction rest
      fun t ht => htokens t (by simp [Condition.conjunctionTokens, ht])
    simpa [Condition.conjunctionNodes] using ⟨hc, hrest⟩

theorem alternatives (h : Ascends Q P) : ∀ cs : Alternatives,
    (∀ t ∈ Condition.alternativeTokens cs, Q t) → ∀ n ∈ Condition.alternativeNodes cs, P n
  | .last c, htokens => by
    have hc := h.connected (Condition.conjunctionFirst c) (Condition.conjunctionLast c)
      (Condition.conjunctionNodes c) (h.conjunction c htokens)
    simpa [Condition.alternativeNodes] using hc
  | .next c _ rest, htokens => by
    have hc := h.connected (Condition.conjunctionFirst c) (Condition.conjunctionLast c)
      (Condition.conjunctionNodes c)
      (h.conjunction c fun t ht => htokens t (by simp [Condition.alternativeTokens, ht]))
    have hrest := h.alternatives rest
      fun t ht => htokens t (by simp [Condition.alternativeTokens, ht])
    simpa [Condition.alternativeNodes] using ⟨hc, hrest⟩

end

theorem filter (h : Ascends Q P) (f : Filter) (htokens : ∀ t ∈ f.tokens, Q t) : P f.node := by
  have hcondition : P (Condition.alternativesNode f.condition) :=
    h.connected _ _ _
      (h.alternatives f.condition fun t ht => htokens t (by simp [Filter.tokens, ht]))
  exact h.around _ _ rfl (by simp) (by simpa using hcondition)

end Ascends

variable (source : List Char)

def OfCondition (n : Node) : Prop :=
  ∀ e ∈ n.events source, e.production.isOfCondition = true

theorem of_condition_of_children {n : Node} (hproduction : n.production.isOfCondition = true)
    (hchildren : ∀ child ∈ n.children, child.OfCondition source) : n.OfCondition source := by
  have hall : ∀ ns : List Node, (∀ child ∈ ns, child.OfCondition source) →
      ∀ e ∈ eventsAll source ns, e.production.isOfCondition = true := by
    intro ns hns
    induction ns with
    | nil => simp [eventsAll]
    | cons n ns ih =>
      rw [List.forall_mem_cons] at hns
      intro e he
      rcases List.mem_append.mp he with he | he
      · exact hns.1 e he
      · exact ih hns.2 e he
  intro e he
  rw [events_eq, List.mem_cons, List.mem_append, List.mem_singleton] at he
  rcases he with rfl | he | rfl
  · exact hproduction
  · exact hall n.children hchildren e he
  · exact hproduction

theorem of_condition_ascends : Ascends (fun _ => True) (OfCondition source) where
  value e child _ hchildren hchild := by
    have hproduction : e.node.production.isOfCondition = true := by cases e <;> rfl
    exact of_condition_of_children source hproduction (by simpa [hchildren] using hchild)
  column path := by
    have hcolumn : (span .columnReference path.head path.final []).OfCondition source :=
      of_condition_of_children source rfl (by simp [span])
    exact of_condition_of_children source rfl (by simpa [Operand.node, span] using hcolumn)
  around _ _ _ hproduction _ hchildren := of_condition_of_children source hproduction hchildren

end Node

theorem Filter.node_of_condition (source : List Char) (f : Filter) : f.node.OfCondition source :=
  (Node.of_condition_ascends source).filter f (by simp)

end RedoLog
