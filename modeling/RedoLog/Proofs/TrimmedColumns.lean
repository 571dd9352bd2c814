import RedoLog.Proofs.Layout
import RedoLog.Proofs.NumberLiterals
import RedoLog.Value.Leaves

/-!
# Trimming

Blanks are taken off the texts of literals while values are rebuilt, and neither a number nor a
constant word has blanks to lose. So with trimming every value is what it is without, with all its
texts trimmed. Null stays null and other values stay what they are, so the same columns are put in
the same order, and what fails fails for the same reason.
-/

set_option autoImplicit false

namespace RedoLog

namespace Agree

variable {ε α β : Type} {same : ε → ε → Prop}

theorem map_bind {f : α → α} {g : β → β} {x y : Except ε α} {h h' : α → Except ε β}
    (hxy : Agree same (x.map f) y) (hstep : ∀ a, Agree same ((h a).map g) (h' (f a))) :
    Agree same ((x >>= h).map g) (y >>= h') := by
  cases x with
  | ok a =>
    cases hxy
    exact hstep a
  | error e =>
    cases hxy with
    | error hsame => exact .error hsame

theorem map_cases {f : α → β} {x : Except ε α} {y : Except ε β} (h : Agree same (x.map f) y) :
    (∃ a, x = .ok a ∧ y = .ok (f a)) ∨ ∃ e e', x = .error e ∧ y = .error e' ∧ same e e' := by
  cases x with
  | ok a =>
    cases h
    exact Or.inl ⟨a, rfl, rfl⟩
  | error e =>
    cases h with
    | error hsame => exact Or.inr ⟨e, _, rfl, rfl, hsame⟩

end Agree

theorem Token.trim_constant_word {t : Token} (h : t.isConstantWord = true) :
    Text.trim t.text = t.text := by
  have hletters : ∀ word ∈ constantWords,
      ((Text.upper word.toList).any Text.isBlank) = false := by decide
  simp only [isConstantWord, Bool.and_eq_true, List.any_eq_true] at h
  obtain ⟨-, word, hword, hsame⟩ := h
  have hupper : Text.upper word.toList = Text.upper t.text.toList := eq_of_beq hsame
  apply Text.trim_eq_self
  intro c hc
  refine Bool.eq_false_iff.mpr fun hblank => ?_
  have hmem : c ∈ Text.upper word.toList := by
    rw [hupper, ← Text.to_upper_of_is_blank hblank]
    exact List.mem_map_of_mem hc
  exact List.any_eq_false.mp (hletters word hword) c hmem hblank

def Value.trimmed (v : Value) : Value :=
  v.mapTexts Text.trim

namespace Expression

theorem meaning_number_trimmed (sign : Option Token) {literal : Token}
    (h : LiteralText .number literal.text.toList) :
    meaning true (.number sign literal) = (meaning false (.number sign literal)).trimmed := by
  have hsame : meaning true (.number sign literal) = meaning false (.number sign literal) := rfl
  rw [hsame]
  by_cases hwhole : IsWhole sign literal
  · obtain ⟨n, -, hn⟩ := meaning_number_of_is_whole sign h false hwhole
    rw [hn]
    rfl
  · obtain ⟨x, -, hx⟩ := meaning_number_of_not_is_whole sign h false hwhole
    rw [hx]
    rfl

def IsLexed (ts : List Token) : Prop :=
  ∀ t ∈ ts, t.kind.isLiteral = true → LiteralText t.kind t.text.toList

mutual

theorem meaning_trimmed : ∀ e : Expression, e.WellFormed → IsLexed e.tokens →
    e.meaning true = (e.meaning false).trimmed
  | .group _ inner _, he, hlexed =>
    meaning_trimmed inner he.2.1 fun t ht => hlexed t (by simp [tokens, ht])
  | .number sign literal, he, hlexed => by
    have hliteral := hlexed literal (by simp [tokens]) (by rw [he.2]; rfl)
    rw [he.2] at hliteral
    exact meaning_number_trimmed sign hliteral
  | .text _ _, _, _ => rfl
  | .null _, _, _ => rfl
  | .constant word, he, _ => by
    simp only [meaning, Value.trimmed, Value.mapTexts, Token.trim_constant_word he]
  | .call name _ arguments _, he, hlexed => by
    have harguments := argument_meanings_trimmed arguments he.2.2.1
      fun t ht => hlexed t (by simp [tokens, ht])
    rw [meaning, meaning, harguments, Value.trimmed, Value.mapTexts, Value.map_texts_all_eq_map]
    rfl

theorem argument_meanings_trimmed : ∀ es : Chain Expression, ArgumentsWellFormed es →
    IsLexed (argumentTokens es) →
      argumentMeanings true es = (argumentMeanings false es).map Value.trimmed
  | .last e, he, hlexed => by
    simp [argumentMeanings, meaning_trimmed e he hlexed]
  | .next e comma rest, he, hlexed => by
    have hfirst := meaning_trimmed e he.1 fun t ht => hlexed t (by simp [argumentTokens, ht])
    have hrest := argument_meanings_trimmed rest he.2.2
      fun t ht => hlexed t (by simp [argumentTokens, ht])
    simp [argumentMeanings, hfirst, hrest]

end

end Expression

theorem is_lexed_of_lex {source : List Char} {ts : List Token} (h : Lexer.lex source = .ok ts) :
    Expression.IsLexed ts :=
  fun _ ht hkind => Lexer.literal_text_of_lex h ht hkind

def Columns.trimmed (columns : Columns) : Columns :=
  columns.mapValues Value.trimmed

namespace InsertReplay

variable (columnPrefix : String) (source : List Char)

def trimmed (r : InsertReplay) : InsertReplay :=
  { r with columns := Columns.trimmed r.columns }

theorem take_value_trimmed (r : InsertReplay) (value : Value) :
    Agree ReplayError.SameVariant
      ((takeValue ⟨columnPrefix, false⟩ r value).map trimmed)
      (takeValue ⟨columnPrefix, true⟩ r.trimmed value.trimmed) := by
  obtain ⟨stage, names, slots, columns⟩ := r
  cases names with
  | nil => exact .error rfl
  | cons name names =>
    have hnull : value.trimmed.isNull = value.isNull := Value.is_null_map_texts Text.trim value
    simp only [takeValue, trimmed, hnull]
    split
    · exact .ok _
    · simp only [putColumn, Columns.trimmed, ← OrderedMap.map_values_insert]
      exact .ok _

theorem take_expression_trimmed (r : InsertReplay) {e : Expression} (he : e.WellFormed)
    (hlexed : Expression.IsLexed e.tokens) :
    Agree ReplayError.SameVariant
      ((takeExpression ⟨columnPrefix, false⟩ source r e).map trimmed)
      (takeExpression ⟨columnPrefix, true⟩ source r.trimmed e) := by
  rw [takeExpression, takeExpression, e.meaning_trimmed he hlexed]
  have hcalls : Agree ReplayError.SameVariant ((checkCalls source e.calls).map id)
      (checkCalls source e.calls) := by
    rw [Except.map_id]
    exact Agree.refl .refl _
  exact hcalls.map_bind fun _ => take_value_trimmed columnPrefix r _

theorem take_expressions_trimmed (es : List Expression)
    (hes : ∀ e ∈ es, e.WellFormed ∧ Expression.IsLexed e.tokens) (r : InsertReplay) :
    Agree ReplayError.SameVariant
      ((es.foldlM (takeExpression ⟨columnPrefix, false⟩ source) r).map trimmed)
      (es.foldlM (takeExpression ⟨columnPrefix, true⟩ source) r.trimmed) := by
  induction es generalizing r with
  | nil => exact .ok _
  | cons e es ih =>
    rw [List.forall_mem_cons] at hes
    rw [List.foldlM_cons, List.foldlM_cons]
    exact (take_expression_trimmed columnPrefix source r hes.1.1 hes.1.2).map_bind (ih hes.2)

theorem finish_trimmed (r : InsertReplay) :
    Agree ReplayError.SameVariant (r.finish.map trimmed) r.trimmed.finish := by
  obtain ⟨stage, names, slots, columns⟩ := r
  cases names with
  | cons name names => exact .error rfl
  | nil =>
    cases slots with
    | cons slot slots => exact .error rfl
    | nil => exact .ok _

end InsertReplay

theorem replay_insert_trimmed (columnPrefix : String) {source : List Char} {s : Insert}
    (hlex : Lexer.lex source = .ok s.tokens) (hs : s.WellFormed)
    (hsource : ∀ t ∈ s.tokens, t.StandsIn source) :
    Agree ReplayError.SameVariant
      ((replayInsert ⟨columnPrefix, false⟩ (s.node.events source)).map InsertReplay.trimmed)
      (replayInsert ⟨columnPrefix, true⟩ (s.node.events source)) := by
  cases s with
  | several insert word rest =>
    obtain ⟨text, htext⟩ :=
      InsertReplay.run_several ⟨columnPrefix, false⟩ source insert word rest
    obtain ⟨text', htext'⟩ :=
      InsertReplay.run_several ⟨columnPrefix, true⟩ source insert word rest
    rw [htext, htext']
    exact .error rfl
  | row s =>
    have hrow := ((Expression.arguments_well_formed_iff s.row).mp hs.2.2.2.2.2.2.1).1
    have hvalues : ∀ e ∈ s.row.toList, e.WellFormed ∧ Expression.IsLexed e.tokens := fun e he =>
      ⟨hrow e he, fun t ht => is_lexed_of_lex hlex t (RowInsert.mem_tokens_of_value he ht)⟩
    have htake := InsertReplay.take_expressions_trimmed columnPrefix source s.row.toList hvalues
      ⟨.parsingValues, s.columnNames, [], OrderedMap.empty⟩
    show Agree _ ((replayInsert _ (s.node.events source)).map _)
      (replayInsert _ (s.node.events source))
    rw [InsertReplay.run_row_insert _ source s hsource,
      InsertReplay.run_row_insert _ source s hsource]
    exact htake.map_bind fun r => InsertReplay.finish_trimmed { r with stage := .parsedValues }

theorem reconstruct_insert_trimmed (columnPrefix source : String) :
    Agree Failure.SameVariant
      ((reconstructInsert ⟨columnPrefix, false⟩ source).map Columns.trimmed)
      (reconstructInsert ⟨columnPrefix, true⟩ source) := by
  cases hread : Insert.read source with
  | error problems =>
    simp only [reconstructInsert, parseInsert, hread]
    exact .error trivial
  | ok s =>
    obtain ⟨hlex, hs, -⟩ := Insert.read_eq_ok hread
    have hreplay := replay_insert_trimmed columnPrefix hlex hs (Insert.stands_in_of_read hread)
    simp only [reconstructInsert, parse_insert_eq_ok hread, insertColumns, ParseTree.events_eq]
    rcases hreplay.map_cases with ⟨r, hr, hr'⟩ | ⟨e, e', he, he', hsame⟩
    · rw [hr, hr']
      exact .ok _
    · rw [he, he']
      exact .error hsame

theorem Update.meaning_trimmed (columnPrefix : String) {s : Update} (hs : s.WellFormed)
    (hlexed : Expression.IsLexed s.tokens) :
    s.meaning ⟨columnPrefix, true⟩ = (s.meaning ⟨columnPrefix, false⟩).trimmed := by
  rw [meaning, meaning, Columns.trimmed, OrderedMap.map_values_of_entries, List.map_map]
  congr 1
  apply List.map_congr_left
  intro a ha
  have hvalue : Expression.IsLexed a.value.tokens := fun t ht =>
    hlexed t (mem_tokens_of_assignment ha (by simp [Assignment.tokens, ht]))
  have hmeaning := a.value.meaning_trimmed (hs.assignment ha).2.2 hvalue
  simp only [Assignment.entry, Function.comp_apply, hmeaning]

theorem reconstruct_update_trimmed (columnPrefix source : String) :
    Agree Failure.SameVariant
      ((reconstructUpdate ⟨columnPrefix, false⟩ source).map Columns.trimmed)
      (reconstructUpdate ⟨columnPrefix, true⟩ source) := by
  cases hread : Update.read source with
  | error problems =>
    simp only [reconstructUpdate, parseUpdate, hread]
    exact .error trivial
  | ok s =>
    obtain ⟨hlex, hs, -⟩ := Update.read_eq_ok hread
    rw [reconstruct_update_eq _ source s hread, reconstruct_update_eq _ source s hread,
      Update.meaning_trimmed columnPrefix hs (is_lexed_of_lex hlex)]
    cases checkCalls source.toList s.setCalls with
    | ok _ => exact .ok _
    | error e => exact .error (.refl e)

/-- With trimming, a source is rebuilt to the columns that it is rebuilt to without, in the same
order, with blanks taken off both ends of every text and nothing else changed. Or both fail, with
errors of one variant. -/
theorem reconstruct_trimmed (kind : StatementKind) (columnPrefix source : String) :
    (∀ s : String, Text.IsTrimmed s (Text.trim s)) ∧
      ((∃ columns trimmed,
          reconstruct kind ⟨columnPrefix, false⟩ source = .ok columns ∧
            reconstruct kind ⟨columnPrefix, true⟩ source = .ok trimmed ∧
            trimmed.entries =
              columns.entries.map fun entry => (entry.1, entry.2.mapTexts Text.trim)) ∨
        ∃ e e', reconstruct kind ⟨columnPrefix, false⟩ source = .error e ∧
          reconstruct kind ⟨columnPrefix, true⟩ source = .error e' ∧ e.SameVariant e') := by
  refine ⟨Text.is_trimmed_trim, ?_⟩
  have hagree : Agree Failure.SameVariant
      ((reconstruct kind ⟨columnPrefix, false⟩ source).map Columns.trimmed)
      (reconstruct kind ⟨columnPrefix, true⟩ source) := by
    cases kind with
    | insert => exact reconstruct_insert_trimmed columnPrefix source
    | update => exact reconstruct_update_trimmed columnPrefix source
  rcases hagree.map_cases with ⟨columns, hplain, htrimmed⟩ | herrors
  · exact Or.inl ⟨columns, columns.trimmed, hplain, htrimmed, rfl⟩
  · exact Or.inr herrors

/-- A text of blanks is kept as an empty one. -/
example : (reconstruct .insert ⟨"", true⟩ "insert into t (a, b) values (' \t', null)").toOption.map
    (·.entries) = some [("a", .text "")] := by decide +kernel

end RedoLog
