import RedoLog.Proofs.SetClause

/-!
# Statements with other labels

What holds of values holds of conditions and of whole statements: with tokens of the same kinds,
and the same texts where a text counts, a statement is as well formed and as deep as before, names
the same columns and gives them the same values.
-/

set_option autoImplicit false

namespace RedoLog

variable {f : Token → Token}

theorem Chain.head_relabel {α β : Type} (g : α → β) (c : Chain α) :
    (c.relabel f g).head = g c.head := by
  cases c <;> rfl

theorem Chain.tokens_relabel_path (path : Chain Token) :
    (path.relabel f f).tokens (fun t => [t]) = (path.tokens fun t => [t]).map f :=
  Chain.tokens_relabel f f (fun _ => rfl) path

theorem Expression.is_group_relabel (e : Expression) : (e.relabel f).isGroup = e.isGroup := by
  cases e <;> rfl

theorem Expression.to_list_relabel_arguments (es : Chain Expression) :
    (relabelArguments f es).toList = es.toList.map (relabel f) := by
  induction es with
  | last e => rfl
  | next e comma rest ih => simp [relabelArguments, Chain.toList, ih]

namespace Operand

theorem path_well_formed_relabel (hf : KeepsLexemes f) (path : Chain Token) :
    PathWellFormed (path.relabel f f) ↔ PathWellFormed path := by
  simp [PathWellFormed, Chain.to_list_relabel, Chain.separators_relabel, hf.kind]

def relabel (f : Token → Token) : Operand → Operand
  | .column path => .column (path.relabel f f)
  | .value e => .value (e.relabel f)

theorem tokens_relabel (o : Operand) : (o.relabel f).tokens = o.tokens.map f := by
  cases o with
  | column path => exact path.tokens_relabel_path
  | value e => exact e.tokens_relabel

theorem nesting_relabel (o : Operand) : (o.relabel f).nesting = o.nesting := by
  cases o with
  | column path => rfl
  | value e => exact e.nesting_relabel

theorem is_group_relabel (o : Operand) : (o.relabel f).isGroup = o.isGroup := by
  cases o with
  | column path => rfl
  | value e => exact e.is_group_relabel

theorem well_formed_relabel (hf : KeepsLexemes f) (o : Operand) :
    (o.relabel f).WellFormed ↔ o.WellFormed := by
  cases o with
  | column path =>
    simp [relabel, WellFormed, path_well_formed_relabel hf, Chain.head_relabel,
      hf.is_constant_word_eq]
  | value e => exact e.well_formed_relabel hf

end Operand

namespace Test

def relabel (f : Token → Token) : Test → Test
  | .holds => .holds
  | .compare operator right => .compare (f operator) (right.relabel f)
  | .isNull word negation null => .isNull (f word) (negation.map f) (f null)

theorem tokens_relabel (t : Test) : (t.relabel f).tokens = t.tokens.map f := by
  cases t with
  | holds => rfl
  | compare operator right => simp [relabel, tokens, Operand.tokens_relabel]
  | isNull word negation null => cases negation <;> rfl

theorem nesting_relabel (t : Test) : (t.relabel f).nesting = t.nesting := by
  cases t with
  | compare operator right => exact right.nesting_relabel
  | _ => rfl

theorem well_formed_relabel (hf : KeepsLexemes f) (t : Test) :
    (t.relabel f).WellFormed ↔ t.WellFormed := by
  cases t with
  | holds => rfl
  | compare operator right =>
    simp [relabel, WellFormed, hf.kind, Operand.well_formed_relabel hf]
  | isNull word negation null => cases negation <;> simp [relabel, WellFormed, hf.kind]

end Test

namespace Condition

mutual

def relabel (f : Token → Token) : Condition → Condition
  | .not word inner => .not (f word) (relabel f inner)
  | .group opening inner closing test =>
    .group (f opening) (relabelAlternatives f inner) (f closing) (test.relabel f)
  | .operand left test => .operand (left.relabel f) (test.relabel f)

def relabelConjunction (f : Token → Token) : Chain Condition → Chain Condition
  | .last c => .last (relabel f c)
  | .next c word rest => .next (relabel f c) (f word) (relabelConjunction f rest)

def relabelAlternatives (f : Token → Token) : Chain (Chain Condition) → Chain (Chain Condition)
  | .last c => .last (relabelConjunction f c)
  | .next c word rest => .next (relabelConjunction f c) (f word) (relabelAlternatives f rest)

end

mutual

theorem tokens_relabel : ∀ c : Condition, (c.relabel f).tokens = c.tokens.map f
  | .not _ inner => by simp [relabel, tokens, tokens_relabel inner]
  | .group _ inner _ test => by
    simp [relabel, tokens, alternative_tokens_relabel inner, test.tokens_relabel]
  | .operand left test => by
    simp [relabel, tokens, left.tokens_relabel, test.tokens_relabel]

theorem conjunction_tokens_relabel : ∀ cs : Chain Condition,
    conjunctionTokens (relabelConjunction f cs) = (conjunctionTokens cs).map f
  | .last c => by simp [relabelConjunction, conjunctionTokens, tokens_relabel c]
  | .next c _ rest => by
    simp [relabelConjunction, conjunctionTokens, tokens_relabel c, conjunction_tokens_relabel rest]

theorem alternative_tokens_relabel : ∀ cs : Chain (Chain Condition),
    alternativeTokens (relabelAlternatives f cs) = (alternativeTokens cs).map f
  | .last c => by simp [relabelAlternatives, alternativeTokens, conjunction_tokens_relabel c]
  | .next c _ rest => by
    simp [relabelAlternatives, alternativeTokens, conjunction_tokens_relabel c,
      alternative_tokens_relabel rest]

end

mutual

theorem nesting_relabel : ∀ c : Condition, (c.relabel f).nesting = c.nesting
  | .not _ inner => by simp [relabel, nesting, nesting_relabel inner]
  | .group _ inner _ test => by
    simp [relabel, nesting, alternative_nesting_relabel inner, test.nesting_relabel]
  | .operand left test => by
    simp [relabel, nesting, left.nesting_relabel, test.nesting_relabel]

theorem conjunction_nesting_relabel : ∀ cs : Chain Condition,
    conjunctionNesting (relabelConjunction f cs) = conjunctionNesting cs
  | .last c => by simp [relabelConjunction, conjunctionNesting, nesting_relabel c]
  | .next c _ rest => by
    simp [relabelConjunction, conjunctionNesting, nesting_relabel c,
      conjunction_nesting_relabel rest]

theorem alternative_nesting_relabel : ∀ cs : Chain (Chain Condition),
    alternativeNesting (relabelAlternatives f cs) = alternativeNesting cs
  | .last c => by simp [relabelAlternatives, alternativeNesting, conjunction_nesting_relabel c]
  | .next c _ rest => by
    simp [relabelAlternatives, alternativeNesting, conjunction_nesting_relabel c,
      alternative_nesting_relabel rest]

end

mutual

theorem well_formed_relabel (hf : KeepsLexemes f) :
    ∀ c : Condition, (c.relabel f).WellFormed ↔ c.WellFormed
  | .not _ inner => by simp [relabel, WellFormed, hf.kind, well_formed_relabel hf inner]
  | .group _ inner _ test => by
    simp [relabel, WellFormed, hf.kind, alternatives_well_formed_relabel hf inner,
      test.well_formed_relabel hf]
  | .operand left test => by
    simp [relabel, WellFormed, left.well_formed_relabel hf, left.is_group_relabel,
      test.well_formed_relabel hf]

theorem conjunction_well_formed_relabel (hf : KeepsLexemes f) : ∀ cs : Chain Condition,
    ConjunctionWellFormed (relabelConjunction f cs) ↔ ConjunctionWellFormed cs
  | .last c => by simp [relabelConjunction, ConjunctionWellFormed, well_formed_relabel hf c]
  | .next c _ rest => by
    simp [relabelConjunction, ConjunctionWellFormed, hf.kind, well_formed_relabel hf c,
      conjunction_well_formed_relabel hf rest]

theorem alternatives_well_formed_relabel (hf : KeepsLexemes f) : ∀ cs : Chain (Chain Condition),
    AlternativesWellFormed (relabelAlternatives f cs) ↔ AlternativesWellFormed cs
  | .last c => by
    simp [relabelAlternatives, AlternativesWellFormed, conjunction_well_formed_relabel hf c]
  | .next c _ rest => by
    simp [relabelAlternatives, AlternativesWellFormed, hf.kind,
      conjunction_well_formed_relabel hf c, alternatives_well_formed_relabel hf rest]

end

end Condition

namespace Filter

def relabel (f : Token → Token) (c : Filter) : Filter :=
  ⟨f c.word, Condition.relabelAlternatives f c.condition⟩

theorem tokens_relabel (c : Filter) : (c.relabel f).tokens = c.tokens.map f := by
  simp [relabel, tokens, Condition.alternative_tokens_relabel]

theorem nesting_relabel (c : Filter) : (c.relabel f).nesting = c.nesting := by
  simp [relabel, nesting, Condition.alternative_nesting_relabel]

theorem well_formed_relabel (hf : KeepsLexemes f) (c : Filter) :
    (c.relabel f).WellFormed ↔ c.WellFormed := by
  simp [relabel, WellFormed, hf.kind, Condition.alternatives_well_formed_relabel hf]

end Filter

theorem Assignment.well_formed_relabel (hf : KeepsLexemes f) (a : Assignment) :
    (a.relabel f).WellFormed ↔ a.WellFormed := by
  simp [relabel, WellFormed, hf.kind, Expression.well_formed_relabel hf]

namespace Update

def relabel (f : Token → Token) (s : Update) : Update :=
  ⟨f s.update, s.table.relabel f f, s.correlation.map f, f s.setWord,
    s.assignments.relabel f (Assignment.relabel f), s.filter.map (Filter.relabel f),
    s.terminator.map f⟩

theorem tokens_relabel (s : Update) : (s.relabel f).tokens = s.tokens.map f := by
  have hassignments : (s.assignments.relabel f (Assignment.relabel f)).tokens Assignment.tokens =
      (s.assignments.tokens Assignment.tokens).map f :=
    Chain.tokens_relabel f _ (Assignment.tokens_relabel f) s.assignments
  cases hc : s.correlation <;> cases hfilter : s.filter <;> cases hterminator : s.terminator <;>
    simp [relabel, tokens, Chain.tokens_relabel_path, hassignments, Filter.tokens_relabel, hc,
      hfilter, hterminator]

theorem nesting_relabel (s : Update) : (s.relabel f).nesting = s.nesting := by
  have hvalues : (s.relabel f).assignments.toList.foldr (fun a n => max a.value.nesting n) 0 =
      s.assignments.toList.foldr (fun a n => max a.value.nesting n) 0 := by
    simp [relabel, Chain.to_list_relabel, List.foldr_map, Assignment.relabel,
      Expression.nesting_relabel]
  rw [nesting, nesting, hvalues]
  cases hfilter : s.filter <;> simp [relabel, hfilter, Filter.nesting_relabel]

theorem well_formed_relabel (hf : KeepsLexemes f) (s : Update) :
    (s.relabel f).WellFormed ↔ s.WellFormed := by
  cases hc : s.correlation <;> cases hfilter : s.filter <;> cases hterminator : s.terminator <;>
    simp [relabel, WellFormed, hf.kind, Operand.path_well_formed_relabel hf, Chain.to_list_relabel,
      Chain.separators_relabel, Assignment.well_formed_relabel hf, Filter.well_formed_relabel hf,
      hc, hfilter, hterminator]

theorem meaning_relabel (hf : KeepsLexemes f) (options : Options) {s : Update}
    (hs : s.WellFormed) : (s.relabel f).meaning options = s.meaning options :=
  meaning_relabel_front hf options hs

theorem set_calls_relabel (s : Update) :
    (s.relabel f).setCalls = s.setCalls.map (Call.relabel f) := by
  simp [setCalls, relabel, Chain.to_list_relabel, List.flatMap_map, List.map_flatMap,
    Assignment.relabel, Expression.calls_relabel]

end Update

namespace ColumnList

def relabel (f : Token → Token) (c : ColumnList) : ColumnList :=
  ⟨f c.opening, c.names.relabel f f, f c.closing⟩

theorem tokens_relabel (c : ColumnList) : (c.relabel f).tokens = c.tokens.map f := by
  simp [relabel, tokens, Chain.tokens_relabel_path]

theorem well_formed_relabel (hf : KeepsLexemes f) (c : ColumnList) :
    (c.relabel f).WellFormed ↔ c.WellFormed := by
  simp [relabel, WellFormed, hf.kind, Chain.to_list_relabel, Chain.separators_relabel]

end ColumnList

namespace RowInsert

def relabel (f : Token → Token) (s : RowInsert) : RowInsert :=
  ⟨f s.insert, f s.into, s.table.relabel f f, s.columns.map (ColumnList.relabel f), f s.values,
    f s.opening, Expression.relabelArguments f s.row, f s.closing, s.terminator.map f⟩

theorem tokens_relabel (s : RowInsert) : (s.relabel f).tokens = s.tokens.map f := by
  cases hcolumns : s.columns <;> cases hterminator : s.terminator <;>
    simp [relabel, tokens, Chain.tokens_relabel_path, ColumnList.tokens_relabel,
      Expression.argument_tokens_relabel, hcolumns, hterminator]

theorem well_formed_relabel (hf : KeepsLexemes f) (s : RowInsert) :
    (s.relabel f).WellFormed ↔ s.WellFormed := by
  cases hcolumns : s.columns <;> cases hterminator : s.terminator <;>
    simp [relabel, WellFormed, hf.kind, Operand.path_well_formed_relabel hf,
      ColumnList.well_formed_relabel hf, Expression.arguments_well_formed_relabel hf, hcolumns,
      hterminator]

theorem column_names_relabel (hf : KeepsLexemes f) {s : RowInsert} (hs : s.WellFormed) :
    (s.relabel f).columnNames = s.columnNames := by
  cases hcolumns : s.columns with
  | none => simp [columnNames, relabel, hcolumns]
  | some c =>
    have hnames : ∀ t ∈ c.names.toList, (f t).text = t.text := fun t ht =>
      hf.text t (TokenKind.carries_text_of_is_name ((hs.2.2.2.1 c hcolumns).2.1 t ht))
    simp only [columnNames, relabel, hcolumns, Option.map_some, ColumnList.relabel,
      Chain.to_list_relabel, List.map_map]
    exact List.map_congr_left fun t ht => congrArg unquoteName (hnames t ht)

end RowInsert

namespace Insert

def relabel (f : Token → Token) : Insert → Insert
  | .row s => .row (s.relabel f)
  | .several insert word rest => .several (f insert) (f word) (rest.map f)

theorem tokens_relabel (s : Insert) : (s.relabel f).tokens = s.tokens.map f := by
  cases s with
  | row s => exact s.tokens_relabel
  | several insert word rest => rfl

theorem nesting_relabel (s : Insert) : (s.relabel f).nesting = s.nesting := by
  cases s with
  | row s => exact Expression.argument_nesting_relabel s.row
  | several insert word rest => rfl

theorem well_formed_relabel (hf : KeepsLexemes f) (s : Insert) :
    (s.relabel f).WellFormed ↔ s.WellFormed := by
  cases s with
  | row s => exact s.well_formed_relabel hf
  | several insert word rest => simp [relabel, WellFormed, hf.kind]

end Insert

end RedoLog
