import RedoLog.Proofs.NodeTokens
import RedoLog.Statement.DerivationTree

/-!
# Derivations have one tree

A piece of syntax is shown as one node only, the one that is built for it.
-/

set_option autoImplicit false

namespace RedoLog

theorem Node.over_iff {production : Production} {ts : List Token} {first last : Token}
    {ns : List Node} {n : Node} (hends : Ends ts first last) :
    Over production ts ns n ↔ n = span production first last ns := by
  constructor
  · rintro ⟨hproduction, ⟨t, ht, hindex, hstart⟩, ⟨u, hu, hstop⟩, hchildren⟩
    obtain rfl : first = t := Option.some.inj (hends.1.symm.trans ht)
    obtain rfl : last = u := Option.some.inj (hends.2.symm.trans hu)
    cases n
    simp only at hproduction hindex hstart hstop hchildren
    rw [hproduction, hindex, hstart, hstop, hchildren]
    rfl
  · rintro rfl
    exact ⟨rfl, ⟨first, hends.1, rfl, rfl⟩, ⟨last, hends.2, rfl⟩, rfl⟩

theorem Node.over_single_iff {production : Production} {t : Token} {n : Node} :
    Over production [t] [] n ↔ n = leaf production t :=
  over_iff (.single t)

theorem forall₂_iff_eq_map {α β : Type} {R : α → β → Prop} {f : α → β}
    (h : ∀ a b, R a b ↔ b = f a) (as : List α) (bs : List β) :
    List.Forall₂ R as bs ↔ bs = as.map f := by
  induction as generalizing bs with
  | nil => exact List.forall₂_nil_left_iff
  | cons a as ih => simp [List.forall₂_cons_left_iff, h, ih]

namespace Expression

theorem number_shown_iff {sign : Option Token} {literal : Token} {text : String} {integer : Bool} :
    NumberShown sign literal text integer ↔
      text = numberText sign literal ∧ integer = literal.text.toList.all Char.isDigit := by
  have hinteger : (integer = true ↔ ∀ c ∈ literal.text.toList, c.isDigit = true) ↔
      integer = literal.text.toList.all Char.isDigit := by
    rw [← List.all_eq_true, Bool.coe_iff_coe]
  constructor
  · rintro ⟨hnegative, hpositive, hdigits⟩
    refine ⟨?_, hinteger.mp hdigits⟩
    cases sign with
    | none => exact hpositive (by simp)
    | some s =>
      by_cases hs : s.kind = .minus
      · simpa [numberText, hs] using hnegative ⟨s, rfl, hs⟩
      · simpa [numberText, hs] using hpositive (by simpa using hs)
  · rintro ⟨rfl, hdigits⟩
    refine ⟨?_, ?_, hinteger.mpr hdigits⟩
    · rintro ⟨s, hs, hminus⟩
      cases hs
      simp [numberText, hminus]
    · intro hplain
      cases sign with
      | none => rfl
      | some s => simp [numberText, hplain s rfl]

theorem shown_iff_of_content {e : Expression} {content : Node}
    (hnode : e.node = Node.span .unaryExpression e.first e.last [content])
    (hcontent : ∀ m, ContentShown e m ↔ m = content) (n : Node) : Shown e n ↔ n = e.node := by
  rw [hnode]
  constructor
  · rintro ⟨hm, hn⟩
    rw [(hcontent _).mp hm] at hn
    exact (Node.over_iff e.ends).mp hn
  · intro hn
    exact .around ((hcontent content).mpr rfl) ((Node.over_iff e.ends).mpr hn)

mutual

/-- By recursion on the value, which has one node as soon as what stands in it has one. -/
theorem exists_content : ∀ e : Expression, ∃ content,
    e.node = Node.span .unaryExpression e.first e.last [content] ∧
      ∀ m, ContentShown e m ↔ m = content
  | .group opening inner closing => by
    obtain ⟨content, hnode, hcontent⟩ := exists_content inner
    have hinner := shown_iff_of_content hnode hcontent
    refine ⟨inner.node, rfl, fun m => ⟨fun h => ?_, fun hm => .group ((hinner m).mpr hm)⟩⟩
    cases h with
    | group hm => exact (hinner m).mp hm
  | .number sign literal => by
    have hends := (Expression.number sign literal).ends
    refine ⟨numberNode sign literal, rfl, fun m => ⟨fun h => ?_, fun hm => ?_⟩⟩
    · cases h with
      | number htext hn =>
        obtain ⟨rfl, rfl⟩ := number_shown_iff.mp htext
        exact (Node.over_iff hends).mp hn
    · exact .number (number_shown_iff.mpr ⟨rfl, rfl⟩) ((Node.over_iff hends).mpr hm)
  | .text type literal => by
    have hends := (Expression.text type literal).ends
    refine ⟨textNode type literal, rfl, fun m => ⟨fun h => ?_, fun hm => ?_⟩⟩
    · cases h with
      | text hquoted hn =>
        rw [Node.over_single_iff.mp hquoted] at hn
        exact (Node.over_iff hends).mp hn
    · exact .text (Node.over_single_iff.mpr rfl) ((Node.over_iff hends).mpr hm)
  | .null word => by
    refine ⟨Node.leaf (.constant .null) word, rfl, fun m => ⟨fun h => ?_, fun hm => ?_⟩⟩
    · cases h with
      | null hn => exact Node.over_single_iff.mp hn
    · exact .null (Node.over_single_iff.mpr hm)
  | .constant word => by
    refine ⟨Node.leaf (.constant .word) word, rfl, fun m => ⟨fun h => ?_, fun hm => ?_⟩⟩
    · cases h with
      | constant hn => exact Node.over_single_iff.mp hn
    · exact .constant (Node.over_single_iff.mpr hm)
  | .call name opening arguments closing => by
    have hends := (Expression.call name opening arguments closing).ends
    refine ⟨Node.span (.function name.text) name closing (argumentNodes arguments), rfl,
      fun m => ⟨fun h => ?_, fun hm => ?_⟩⟩
    · cases h with
      | call harguments hn =>
        rw [(arguments_shown_iff arguments _).mp harguments] at hn
        exact (Node.over_iff hends).mp hn
    · exact .call ((arguments_shown_iff arguments _).mpr rfl) ((Node.over_iff hends).mpr hm)

theorem arguments_shown_iff : ∀ (es : Chain Expression) (ns : List Node),
    ArgumentsShown es ns ↔ ns = argumentNodes es
  | .last e, ns => by
    obtain ⟨content, hnode, hcontent⟩ := exists_content e
    have he := shown_iff_of_content hnode hcontent
    constructor
    · intro h
      cases h with
      | last hn => rw [(he _).mp hn, argumentNodes]
    · rintro rfl
      exact .last ((he e.node).mpr rfl)
  | .next e comma rest, ns => by
    obtain ⟨content, hnode, hcontent⟩ := exists_content e
    have he := shown_iff_of_content hnode hcontent
    constructor
    · intro h
      cases h with
      | next hn hrest =>
        rw [(he _).mp hn, (arguments_shown_iff rest _).mp hrest, argumentNodes]
    · rintro rfl
      exact .next ((he e.node).mpr rfl) ((arguments_shown_iff rest _).mpr rfl)

end

theorem shown_iff (e : Expression) (n : Node) : e.Shown n ↔ n = e.node := by
  obtain ⟨content, hnode, hcontent⟩ := exists_content e
  exact shown_iff_of_content hnode hcontent n

end Expression

theorem Operand.shown_iff (o : Operand) (n : Node) : o.Shown n ↔ n = o.node := by
  cases o with
  | column path =>
    have hends := path.ends_tokens
    constructor
    · intro h
      cases h with
      | column hreference hn =>
        rw [(Node.over_iff hends).mp hreference] at hn
        exact (Node.over_iff hends).mp hn
    · intro hn
      exact .column ((Node.over_iff hends).mpr rfl) ((Node.over_iff hends).mpr hn)
  | value e =>
    constructor
    · intro h
      cases h with
      | value he => exact (e.shown_iff n).mp he
    · intro hn
      exact .value ((e.shown_iff n).mpr hn)

theorem Test.shown_iff {ts : List Token} {first last : Token} (hends : Ends ts first last)
    (left : Node) (test : Test) (n : Node) :
    test.Shown ts left n ↔ n = Condition.testNode first left test := by
  have htest := Condition.test_ends hends test
  cases test with
  | holds =>
    constructor
    · intro h
      cases h with
      | holds => rfl
    · rintro rfl
      exact .holds
  | compare operator right =>
    constructor
    · intro h
      cases h with
      | compare hright hn =>
        rw [(right.shown_iff _).mp hright] at hn
        exact (Node.over_iff htest).mp hn
    · intro hn
      exact .compare ((right.shown_iff _).mpr rfl) ((Node.over_iff htest).mpr hn)
  | isNull word negation null =>
    constructor
    · intro h
      cases h with
      | isNull hn => exact (Node.over_iff htest).mp hn
    · intro hn
      exact .isNull ((Node.over_iff htest).mpr hn)

theorem joined_iff {ts : List Token} {first last : Token} (hends : Ends ts first last)
    {ns : List Node} (hns : ns ≠ []) (n : Node) :
    Joined ts ns n ↔ n = Condition.connected first last ns := by
  match ns with
  | [m] =>
    constructor
    · intro h
      cases h with
      | alone => rfl
      | several hlength => simp at hlength
    · rintro rfl
      exact .alone _
  | m :: m' :: ms =>
    constructor
    · intro h
      cases h with
      | several _ hn => exact (Node.over_iff hends).mp hn
    · intro hn
      exact .several (by simp) ((Node.over_iff hends).mpr hn)

namespace Condition

theorem conjunction_nodes_ne_nil (c : Chain Condition) : conjunctionNodes c ≠ [] := by
  cases c <;> simp [conjunctionNodes]

theorem alternative_nodes_ne_nil (c : Alternatives) : alternativeNodes c ≠ [] := by
  cases c <;> simp [alternativeNodes]

mutual

theorem shown_iff : ∀ (c : Condition) (n : Node), c.Shown n ↔ n = c.node
  | .not word inner, n => by
    have hends : Ends (word :: inner.tokens) word inner.last := (ends inner).cons word
    constructor
    · intro h
      cases h with
      | not hinner hn =>
        rw [(shown_iff inner _).mp hinner] at hn
        exact (Node.over_iff hends).mp hn
    · intro hn
      exact .not ((shown_iff inner _).mpr rfl) ((Node.over_iff hends).mpr hn)
  | .group opening inner closing test, n => by
    have hinside := alternative_ends inner
    have hends : Ends (opening :: (alternativeTokens inner ++ [closing])) opening closing :=
      .parens opening closing _
    have hjoined := joined_iff hinside (alternative_nodes_ne_nil inner)
    constructor
    · intro h
      cases h with
      | group hinner hm hleft hn =>
        rw [(alternatives_shown_iff inner _).mp hinner] at hm
        rw [(hjoined _).mp hm] at hleft
        rw [(Node.over_iff hends).mp hleft] at hn
        exact (test.shown_iff hends _ n).mp hn
    · intro hn
      exact .group ((alternatives_shown_iff inner _).mpr rfl) ((hjoined _).mpr rfl)
        ((Node.over_iff hends).mpr rfl) ((test.shown_iff hends _ n).mpr hn)
  | .operand left test, n => by
    constructor
    · intro h
      cases h with
      | operand hleft hn =>
        rw [(left.shown_iff _).mp hleft] at hn
        exact (test.shown_iff left.ends _ n).mp hn
    · intro hn
      exact .operand ((left.shown_iff _).mpr rfl) ((test.shown_iff left.ends _ n).mpr hn)

theorem conjunction_shown_iff : ∀ (cs : Chain Condition) (ns : List Node),
    ConjunctionShown cs ns ↔ ns = conjunctionNodes cs
  | .last c, ns => by
    constructor
    · intro h
      cases h with
      | last hc => rw [(shown_iff c _).mp hc, conjunctionNodes]
    · rintro rfl
      exact .last ((shown_iff c _).mpr rfl)
  | .next c word rest, ns => by
    constructor
    · intro h
      cases h with
      | next hc hrest =>
        rw [(shown_iff c _).mp hc, (conjunction_shown_iff rest _).mp hrest, conjunctionNodes]
    · rintro rfl
      exact .next ((shown_iff c _).mpr rfl) ((conjunction_shown_iff rest _).mpr rfl)

theorem alternatives_shown_iff : ∀ (cs : Alternatives) (ns : List Node),
    AlternativesShown cs ns ↔ ns = alternativeNodes cs
  | .last c, ns => by
    have hjoined := joined_iff (conjunction_ends c) (conjunction_nodes_ne_nil c)
    constructor
    · intro h
      cases h with
      | last hc hn =>
        rw [(conjunction_shown_iff c _).mp hc] at hn
        rw [(hjoined _).mp hn, alternativeNodes]
    · rintro rfl
      exact .last ((conjunction_shown_iff c _).mpr rfl) ((hjoined _).mpr rfl)
  | .next c word rest, ns => by
    have hjoined := joined_iff (conjunction_ends c) (conjunction_nodes_ne_nil c)
    constructor
    · intro h
      cases h with
      | next hc hn hrest =>
        rw [(conjunction_shown_iff c _).mp hc] at hn
        rw [(hjoined _).mp hn, (alternatives_shown_iff rest _).mp hrest, alternativeNodes]
    · rintro rfl
      exact .next ((conjunction_shown_iff c _).mpr rfl) ((hjoined _).mpr rfl)
        ((alternatives_shown_iff rest _).mpr rfl)

end

end Condition

theorem names_shown_iff (names : Chain Token) (ns : List Node) :
    NamesShown names ns ↔ ns = names.toList.map (Node.leaf .columnName) := by
  have hname : ∀ (name : Token) (n : Node),
      Node.Over .columnName [name] [] n ↔ n = Node.leaf .columnName name :=
    fun _ _ => Node.over_single_iff
  exact forall₂_iff_eq_map hname names.toList ns

namespace RowInsert

theorem into_shown_iff (s : RowInsert) (n : Node) : s.IntoShown n ↔ n = s.intoNode := by
  have htable := s.table.ends_tokens
  unfold intoNode
  constructor
  · rintro (⟨hcolumns, ht, hn⟩ | ⟨hcolumns, ht, hnames, hn⟩)
    · rw [(Node.over_iff htable).mp ht] at hn
      rw [hcolumns]
      exact (Node.over_iff (htable.cons s.into)).mp hn
    · rename_i c table ns
      have hends : Ends c.tokens c.opening c.closing := .parens _ _ _
      rw [(Node.over_iff htable).mp ht, (names_shown_iff _ _).mp hnames] at hn
      rw [hcolumns]
      exact (Node.over_iff ((htable.append hends).cons s.into)).mp hn
  · cases hcolumns : s.columns with
    | none =>
      intro hn
      exact .table hcolumns ((Node.over_iff htable).mpr rfl)
        ((Node.over_iff (htable.cons s.into)).mpr hn)
    | some c =>
      have hends : Ends c.tokens c.opening c.closing := .parens _ _ _
      intro hn
      exact .columns hcolumns ((Node.over_iff htable).mpr rfl) ((names_shown_iff _ _).mpr rfl)
        ((Node.over_iff ((htable.append hends).cons s.into)).mpr hn)

theorem exists_front (s : RowInsert) :
    ∃ ts, ts ++ s.terminator.toList = s.tokens ∧ Ends ts s.insert s.closing := by
  have hends := Ends.parens s.values s.closing (s.opening :: Expression.argumentTokens s.row)
  refine ⟨_, ?_, hends.behind s.insert (s.into :: (s.table.tokens (fun t => [t])
    ++ s.columns.elim [] ColumnList.tokens))⟩
  cases hcolumns : s.columns <;> simp [tokens, hcolumns]

theorem shown_iff (s : RowInsert) (n : Node) : s.Shown n ↔ n = s.node := by
  obtain ⟨front, hfront, hends⟩ := s.exists_front
  have hvalues := Ends.parens s.values s.closing (s.opening :: Expression.argumentTokens s.row)
  constructor
  · rintro ⟨hinto, hrow, hv, hts, hn⟩
    rw [List.append_cancel_right (hts.trans hfront.symm), (s.into_shown_iff _).mp hinto] at hn
    rw [(Expression.arguments_shown_iff _ _).mp hrow] at hv
    rw [(Node.over_iff hvalues).mp hv] at hn
    exact (Node.over_iff hends).mp hn
  · intro hn
    exact .clauses ((s.into_shown_iff _).mpr rfl) ((Expression.arguments_shown_iff _ _).mpr rfl)
      ((Node.over_iff hvalues).mpr rfl) hfront ((Node.over_iff hends).mpr hn)

end RowInsert

theorem Insert.shown_iff (s : Insert) (n : Node) : s.Shown n ↔ n = s.node := by
  cases s with
  | row s =>
    constructor
    · intro h
      cases h with
      | row hs => exact (s.shown_iff n).mp hs
    · intro hn
      exact .row ((s.shown_iff n).mpr hn)
  | several insert word rest =>
    have hcontent : Ends (word :: rest) word (rest.getLast?.getD word) := by
      simp [Ends, List.getLast?_cons]
    have hends := hcontent.cons insert
    constructor
    · intro h
      cases h with
      | several hm hn =>
        rw [(Node.over_iff hcontent).mp hm] at hn
        exact (Node.over_iff hends).mp hn
    · intro hn
      exact .several ((Node.over_iff hcontent).mpr rfl) ((Node.over_iff hends).mpr hn)

theorem Assignment.shown_iff (a : Assignment) (n : Node) : a.Shown n ↔ n = a.node := by
  constructor
  · rintro ⟨hcolumn, hvalue, hn⟩
    rw [Node.over_single_iff.mp hcolumn, (a.value.shown_iff _).mp hvalue] at hn
    exact (Node.over_iff a.ends).mp hn
  · intro hn
    exact .item (Node.over_single_iff.mpr rfl) ((a.value.shown_iff _).mpr rfl)
      ((Node.over_iff a.ends).mpr hn)

theorem Filter.shown_iff (f : Filter) (n : Node) : f.Shown n ↔ n = f.node := by
  have hjoined := joined_iff (Condition.alternative_ends f.condition)
    (Condition.alternative_nodes_ne_nil f.condition)
  constructor
  · rintro ⟨hcondition, hm, hn⟩
    rw [(Condition.alternatives_shown_iff _ _).mp hcondition] at hm
    rw [(hjoined _).mp hm] at hn
    exact (Node.over_iff f.ends).mp hn
  · intro hn
    exact .condition ((Condition.alternatives_shown_iff _ _).mpr rfl) ((hjoined _).mpr rfl)
      ((Node.over_iff f.ends).mpr hn)

namespace Update

theorem exists_front (s : Update) :
    ∃ ts, ts ++ s.terminator.toList = s.tokens ∧ Ends ts s.update s.last := by
  refine ⟨_, ?_, s.clauses_cover.2.behind s.update
    (s.table.tokens (fun t => [t]) ++ s.correlation.toList)⟩
  cases hfilter : s.filter <;> simp [tokens, hfilter]

theorem shown_iff (s : Update) (n : Node) : s.Shown n ↔ n = s.node := by
  obtain ⟨front, hfront, hends⟩ := s.exists_front
  have htable := s.table.ends_tokens
  have hset := (s.assignments.ends Assignment.ends).cons s.setWord
  have hitems := forall₂_iff_eq_map Assignment.shown_iff s.assignments.toList
  have hfilters := forall₂_iff_eq_map Filter.shown_iff s.filter.toList
  constructor
  · rintro ⟨ht, hi, hs, hf, hts, hn⟩
    rw [(hitems _).mp hi] at hs
    rw [List.append_cancel_right (hts.trans hfront.symm), (Node.over_iff htable).mp ht,
      (Node.over_iff hset).mp hs, (hfilters _).mp hf] at hn
    exact (Node.over_iff hends).mp hn
  · intro hn
    exact .clauses ((Node.over_iff htable).mpr rfl) ((hitems _).mpr rfl)
      ((Node.over_iff hset).mpr rfl) ((hfilters _).mpr rfl) hfront ((Node.over_iff hends).mpr hn)

end Update

end RedoLog
