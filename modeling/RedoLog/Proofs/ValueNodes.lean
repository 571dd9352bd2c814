import RedoLog.Proofs.Chains
import RedoLog.Proofs.ConditionNodes
import RedoLog.Proofs.ReadSource
import RedoLog.Proofs.Subtrees

/-!
# Values in the trees of statements

A value has a meaning that is read off its own tree, and calls that are met in the tree from the
outside to the inside. Every value that stands in the tree of a statement is that of an expression,
and means what the expression does.
-/

set_option autoImplicit false

namespace RedoLog

namespace Node

def IsValue (n : Node) : Prop :=
  n.production = .unaryExpression ∧ ∀ child ∈ n.children, child.production ≠ .columnReference

mutual

def meaning (trim : Bool) (source : List Char) : Node → Value
  | ⟨.quotedString, tokenIndex, start, stop, children⟩ =>
    .text (textContent trim (text source ⟨.quotedString, tokenIndex, start, stop, children⟩))
  | ⟨.constant .null, _, _, _, _⟩ => .null
  | ⟨.constant (.number text integer), _, _, _, _⟩ => numberValue text integer
  | ⟨.constant .word, tokenIndex, start, stop, children⟩ =>
    .text (text source ⟨.constant .word, tokenIndex, start, stop, children⟩)
  | ⟨.function name, _, _, _, children⟩ =>
    .call (String.ofList (Text.upper name.toList)) (meaningAll trim source children)
  | ⟨_, _, _, _, children⟩ => (meaningAll trim source children).headD .null

def meaningAll (trim : Bool) (source : List Char) : List Node → List Value
  | [] => []
  | n :: ns => meaning trim source n :: meaningAll trim source ns

end

mutual

def preorder : Node → List Node
  | ⟨production, tokenIndex, start, stop, children⟩ =>
    ⟨production, tokenIndex, start, stop, children⟩ :: preorderAll children

def preorderAll : List Node → List Node
  | [] => []
  | n :: ns => preorder n ++ preorderAll ns

end

def isUnsupportedCall (n : Node) : Bool :=
  match n.production with
  | .function name => !supportedFunctions.any fun supported => Text.sameLetters supported name
  | _ => false

end Node

namespace Expression

mutual

theorem meaning_node (trim : Bool) (source : List Char) :
    ∀ e : Expression, (∀ t ∈ e.tokens, t.StandsIn source) →
      e.node.meaning trim source = e.meaning trim
  | .group opening inner closing, hsource => by
    have hinner := meaning_node trim source inner fun t ht => hsource t (by simp [tokens, ht])
    simpa [node, Node.span, Node.meaning, Node.meaningAll, meaning] using hinner
  | .number sign literal, hsource => rfl
  | .text type literal, hsource => by
    have htext := Node.text_leaf .quotedString (hsource literal (by simp [tokens]))
    exact congrArg (fun s => Value.text (textContent trim s)) htext
  | .null word, hsource => rfl
  | .constant word, hsource => by
    have htext := Node.text_leaf (.constant .word) (hsource word (by simp [tokens]))
    exact congrArg Value.text htext
  | .call name opening arguments closing, hsource => by
    have harguments := meaning_all_argument_nodes trim source arguments
      fun t ht => hsource t (by simp [tokens, ht])
    simp [node, Node.span, Node.meaning, Node.meaningAll, meaning, harguments]

theorem meaning_all_argument_nodes (trim : Bool) (source : List Char) :
    ∀ es : Chain Expression, (∀ t ∈ argumentTokens es, t.StandsIn source) →
      Node.meaningAll trim source (argumentNodes es) = argumentMeanings trim es
  | .last e, hsource => by
    have he := meaning_node trim source e hsource
    simp [argumentNodes, Node.meaningAll, argumentMeanings, he]
  | .next e comma rest, hsource => by
    have he := meaning_node trim source e fun t ht => hsource t (by simp [argumentTokens, ht])
    have hrest := meaning_all_argument_nodes trim source rest
      fun t ht => hsource t (by simp [argumentTokens, ht])
    simp [argumentNodes, Node.meaningAll, argumentMeanings, he, hrest]

end

mutual

theorem find_preorder_node (source : List Char) : ∀ e : Expression,
    (e.node.preorder.find? Node.isUnsupportedCall).map (Node.text source) =
      (e.calls.find? fun c => !c.isSupported).map (Call.text source)
  | .group opening inner closing => by
    have hinner := find_preorder_node source inner
    simpa [node, Node.span, Node.preorder, Node.preorderAll, Node.isUnsupportedCall, calls]
      using hinner
  | .number sign literal => rfl
  | .text type literal => rfl
  | .null word => rfl
  | .constant word => rfl
  | .call name opening arguments closing => by
    have harguments := find_preorder_argument_nodes source arguments
    have hpreorder : (node (.call name opening arguments closing)).preorder =
        node (.call name opening arguments closing) ::
          Node.span (.function name.text) name closing (argumentNodes arguments) ::
            Node.preorderAll (argumentNodes arguments) := by
      simp [node, Node.span, Node.preorder, Node.preorderAll]
    have hcall : (Node.span (.function name.text) name closing
        (argumentNodes arguments)).isUnsupportedCall = !(Call.mk name closing).isSupported := rfl
    have htext : (Node.span (.function name.text) name closing (argumentNodes arguments)).text
        source = (Call.mk name closing).text source := rfl
    rw [hpreorder, List.find?_cons_of_neg (by simp [node, Node.span, Node.isUnsupportedCall]),
      List.find?_cons, hcall, calls, List.find?_cons]
    cases (Call.mk name closing).isSupported
    · exact congrArg some htext
    · exact harguments

theorem find_preorder_argument_nodes (source : List Char) : ∀ es : Chain Expression,
    ((Node.preorderAll (argumentNodes es)).find? Node.isUnsupportedCall).map (Node.text source) =
      ((argumentCalls es).find? fun c => !c.isSupported).map (Call.text source)
  | .last e => by
    have he := find_preorder_node source e
    simpa [argumentNodes, Node.preorderAll, argumentCalls] using he
  | .next e comma rest => by
    have he := find_preorder_node source e
    have hrest := find_preorder_argument_nodes source rest
    rw [argumentNodes, Node.preorderAll, argumentCalls, List.find?_append, List.find?_append,
      Option.map_or, Option.map_or, he, hrest]

end

end Expression

theorem check_calls_node (source : List Char) (e : Expression) :
    checkCalls source e.calls =
      match e.node.preorder.find? Node.isUnsupportedCall with
      | none => .ok ()
      | some call => .error (.unsupportedFunction (call.text source)) := by
  have hfind := e.find_preorder_node source
  unfold checkCalls
  cases hnode : e.node.preorder.find? Node.isUnsupportedCall with
  | none =>
    rw [hnode, Option.map_none] at hfind
    rw [Option.map_eq_none_iff.mp hfind.symm]
  | some call =>
    rw [hnode, Option.map_some] at hfind
    obtain ⟨c, hc, htext⟩ := Option.map_eq_some_iff.mp hfind.symm
    rw [hc]
    exact congrArg (fun text => Except.error (ReplayError.unsupportedFunction text)) htext

namespace Node

variable (source : List Char)

/-- Every value in a node is the tree of an expression whose tokens stand in the source. -/
def ReadsValues (n : Node) : Prop :=
  ∀ m before behind, StandsIn source m n before behind → m.IsValue →
    ∃ e : Expression, m = e.node ∧ ∀ t ∈ e.tokens, t.StandsIn source

theorem reads_values_of_children {n : Node}
    (hself : n.IsValue → ∃ e : Expression, n = e.node ∧ ∀ t ∈ e.tokens, t.StandsIn source)
    (hchildren : ∀ child ∈ n.children, child.ReadsValues source) : n.ReadsValues source := by
  intro m before behind hstands hvalue
  cases hstands with
  | root => exact hself hvalue
  | child _ child left right before behind hsplit hstands =>
    exact hchildren child (by simp [hsplit]) m before behind hstands hvalue

theorem reads_values_span {production : Production} (first last : Token) {children : List Node}
    (hproduction : production ≠ .unaryExpression)
    (hchildren : ∀ child ∈ children, child.ReadsValues source) :
    (span production first last children).ReadsValues source :=
  reads_values_of_children source (fun hvalue => absurd hvalue.1 hproduction) hchildren

theorem reads_values_ascends : Ascends (fun t => t.StandsIn source) (ReadsValues source) where
  value e child htokens hchildren hchild :=
    reads_values_of_children source (fun _ => ⟨e, rfl, htokens⟩) (by simpa [hchildren] using hchild)
  column path := by
    have hcolumn : (span .columnReference path.head path.final []).ReadsValues source :=
      reads_values_span source _ _ (by simp) (by simp)
    -- The node of a column is a unary expression as well, but no value.
    refine reads_values_of_children source (fun hvalue => ?_)
      (by simpa [Operand.node, span] using hcolumn)
    exact absurd rfl (hvalue.2 (span .columnReference path.head path.final [])
      (List.mem_singleton_self _))
  around first last _ _ hproduction hchildren :=
    reads_values_span source first last hproduction hchildren

end Node

section Statements

variable {source : List Char}

theorem RowInsert.reads_values_node (s : RowInsert) (hsource : ∀ t ∈ s.tokens, t.StandsIn source) :
    s.node.ReadsValues source := by
  have htable : (tableNode s.table).ReadsValues source :=
    Node.reads_values_span source _ _ (by simp) (by simp)
  have hname : ∀ t, (Node.leaf .columnName t).ReadsValues source :=
    fun t => Node.reads_values_span source t t (by simp) (by simp)
  have hinto : s.intoNode.ReadsValues source := by
    unfold intoNode
    split
    · exact Node.reads_values_span source _ _ (by simp) (by simpa using htable)
    · apply Node.reads_values_span source _ _ (by simp)
      rw [List.forall_mem_cons, List.forall_mem_map]
      exact ⟨htable, fun t _ => hname t⟩
  have hvalues : s.valuesNode.ReadsValues source := by
    apply Node.reads_values_span source _ _ (by simp)
    exact (Node.reads_values_ascends source).arguments s.row
      fun t ht => hsource t (by simp [tokens, ht])
  exact Node.reads_values_span source _ _ (by simp) (by simpa using ⟨hinto, hvalues⟩)

theorem Insert.reads_values_node (s : Insert) (hsource : ∀ t ∈ s.tokens, t.StandsIn source) :
    s.node.ReadsValues source := by
  cases s with
  | row s => exact s.reads_values_node hsource
  | several insert word rest =>
    have hseveral : (Node.span .multiTableInsert word (rest.getLast?.getD word) []).ReadsValues
        source := Node.reads_values_span source _ _ (by simp) (by simp)
    exact Node.reads_values_span source _ _ (by simp) (by simpa using hseveral)

theorem Assignment.reads_values_node (a : Assignment)
    (hsource : ∀ t ∈ a.tokens, t.StandsIn source) :
    a.node.ReadsValues source := by
  have hcolumn : (Node.leaf .columnName a.column).ReadsValues source :=
    Node.reads_values_span source _ _ (by simp) (by simp)
  have hvalue : a.value.node.ReadsValues source :=
    (Node.reads_values_ascends source).expression a.value
      fun t ht => hsource t (by simp [tokens, ht])
  exact Node.reads_values_span source _ _ (by simp) (by simpa using ⟨hcolumn, hvalue⟩)

theorem Update.reads_values_node (s : Update) (hsource : ∀ t ∈ s.tokens, t.StandsIn source) :
    s.node.ReadsValues source := by
  have htable : (tableNode s.table).ReadsValues source :=
    Node.reads_values_span source _ _ (by simp) (by simp)
  have hset : s.setNode.ReadsValues source := by
    apply Node.reads_values_span source _ _ (by simp)
    rw [List.forall_mem_map]
    intro a ha
    exact a.reads_values_node fun t ht => hsource t (mem_tokens_of_assignment ha ht)
  have hfilter : ∀ f ∈ s.filter, f.node.ReadsValues source := by
    intro f hf
    apply (Node.reads_values_ascends source).filter
    intro t ht
    exact hsource t (by simp [tokens, Option.mem_def.mp hf, ht])
  apply Node.reads_values_span source _ _ (by simp)
  simpa using ⟨htable, hset, hfilter⟩

/-- The values in the tree of a statement are those of expressions in its source. -/
theorem reads_values_of_parse {source : String} {tree : ParseTree}
    (h : parseInsert source = .ok tree ∨ parseUpdate source = .ok tree) :
    tree.root.ReadsValues tree.source := by
  rcases h with h | h
  · obtain ⟨s, hs, rfl⟩ := ok_of_map h
    exact s.reads_values_node (Insert.stands_in_of_read hs)
  · obtain ⟨s, hs, rfl⟩ := ok_of_map h
    exact s.reads_values_node (Update.stands_in_of_read hs)

end Statements

end RedoLog
