import RedoLog.Proofs.Completions

/-!
# Statements that fail can be completed

One fact for each piece of syntax: where its parser fails, what was read of it can be completed. A
value is completed by a null and a column by a name. A value that could stand no deeper is never
asked for, as the levels are a failure of their own, so what is completed keeps within them.
-/

set_option autoImplicit false

namespace RedoLog.Parser

theorem completes_value (n : Nat) : Completes Expression.tokens (Within (n + 1)) [] := by
  have hnull := (prompt_word (k := .nullWord) (by decide) []).default
  exact hnull.within [] fun t ht => ⟨.null t, rfl, ht, Nat.le_add_left 1 n⟩

theorem viable_value_with {n : Nat} {inner : Parse Expression}
    (hreads : Reads Expression.tokens (Within n) inner)
    (hinner : ∀ ts, Viable Expression.tokens (Within n) ts (inner ts)) (ts : List Token) :
    Viable Expression.tokens (Within (n + 1)) ts (valueWith inner ts) := by
  have hfail : ∀ ts, Viable Expression.tokens (Within (n + 1)) ts
      (fail .value ts : Except ParseFault (Expression × List Token)) :=
    viable_fail .value (completes_value n)
  cases ts with
  | nil => exact hfail []
  | cons t ts =>
    simp only [valueWith]
    split
    case h_1 hkind =>
      have hclose := prompt_symbol (k := .closeParen) (by decide)
      refine (Viable.bind hreads (hinner ts) (hclose []).default fun e rest _ =>
        (hclose rest).viable.finish fun _ => ⟨_, rfl⟩).within [t] ?_
      rintro ⟨e, closing⟩ ⟨he, hclosing⟩
      refine ⟨.group t e closing, rfl, ⟨hkind, he.1, hclosing⟩, ?_⟩
      simpa [Expression.nesting] using he.2
    case h_2 | h_3 | h_6 | h_7 =>
      split
      · split
        · exact .of_ok _
        · exact hfail _
      · exact hfail _
    case h_4 | h_5 | h_8 => exact .of_ok _
    case h_9 hkind =>
      split
      · rename_i opening rest hoptional
        obtain ⟨rfl, hopening⟩ := optional_eq hoptional
        refine (Viable.bind (reads_chain .comma hreads) (viable_chain hreads .comma hinner rest)
          (prompt_close_list []).default fun _ rest _ =>
            (prompt_close_list rest).viable.finish fun _ => ⟨_, rfl⟩).within [t, opening] ?_
        rintro ⟨arguments, closing⟩ ⟨harguments, hclosing⟩
        refine ⟨.call t opening arguments closing, ?_, ?_⟩
        · simp [Expression.tokens, Expression.argument_tokens_eq, pairTokens]
        · exact (within_call n t opening closing arguments).mpr
            ⟨hkind, by simpa using hopening, harguments, hclosing⟩
      · split
        · exact .of_ok _
        · exact hfail _
    case h_10 => exact hfail _

theorem viable_expression (levels : Nat) (ts : List Token) :
    Viable Expression.tokens (Within levels) ts (expression levels ts) := by
  induction levels generalizing ts with
  | zero => exact viable_too_deep ts
  | succ levels ih => exact viable_value_with (reads_expression levels) ih ts

theorem completes_operand (levels : Nat) :
    Completes Operand.tokens
      (fun o => (o.WellFormed ∧ o.nesting ≤ levels) ∧ o.isGroup = false) [] := by
  refine completes_name.within [] fun t ht => ⟨.column (.last t), rfl, ?_⟩
  exact ⟨⟨⟨(Chain.made_last .dot _ t).mpr ht.1, ht.2⟩, Nat.zero_le _⟩, rfl⟩

theorem viable_operand (levels : Nat) (ts : List Token) :
    Viable Operand.tokens (fun o => o.WellFormed ∧ o.nesting ≤ levels) ts (operand levels ts) := by
  rw [operand]
  split
  · rename_i hstarts
    intro f hf hdeep
    obtain ⟨front, hts, hfront⟩ :=
      ((prompt_path ts).viable.finish fun _ => ⟨_, rfl⟩) f hf hdeep
    refine ⟨front, hts, ?_⟩
    cases front with
    | nil => exact (completes_operand levels).within [] fun o ho => ⟨o, rfl, ho.1⟩
    | cons t front =>
      refine hfront.starts_with.within [] fun names hnames =>
        ⟨.column names, rfl, ?_, Nat.zero_le _⟩
      obtain ⟨hpath, more, hmore⟩ := hnames
      have hhead : names.head = t := by cases names <;> exact (List.cons.inj hmore).1.symm
      simp only [hts, List.cons_append, startsColumn, Bool.and_eq_true, Bool.not_eq_true']
        at hstarts
      exact ⟨hpath, hhead ▸ hstarts.2⟩
  · refine ((viable_expression levels ts).finish fun _ => ⟨_, rfl⟩).within [] fun e he => ?_
    exact ⟨.value e, rfl, he⟩

theorem prompt_test (levels : Nat) (ts : List Token) :
    Prompt Test.tokens (fun t => t.WellFormed ∧ t.nesting ≤ levels) ts (test levels ts) := by
  refine ⟨Completes.of_good (a := Test.holds) ⟨trivial, Nat.zero_le _⟩, ?_⟩
  cases ts with
  | nil => exact .of_ok _
  | cons t ts =>
    rw [test]
    split_ifs with hcompare his
    · refine ((viable_operand levels ts).finish fun _ => ⟨_, rfl⟩).within [t]
        fun right hright => ?_
      exact ⟨.compare t right, rfl, ⟨hcompare, hright.1⟩, hright.2⟩
    · cases hoptional : optional (fun t => t.kind = .notWord) ts with
      | mk negation rest =>
        obtain ⟨rfl, hnot⟩ := optional_eq hoptional
        have hnull := prompt_word (k := .nullWord) (by decide) rest
        refine (hnull.viable.finish fun _ => ⟨_, rfl⟩).within (t :: negation.toList)
          fun null hkind => ?_
        exact ⟨.isNull t negation null, by simp [Test.tokens],
          ⟨his, by simpa using hnot, hkind⟩, Nat.zero_le _⟩
    · exact .of_ok _

theorem viable_comparison {levels : Nat} {ts : List Token}
    (hfirst : ∀ t ∈ ts.head?, t.kind ≠ .openParen) :
    Viable Condition.tokens (fun c => c.WellFormed ∧ c.nesting ≤ levels) ts (do
      let (left, r) ← operand levels ts
      let (asked, r') ← test levels r
      return (Condition.operand left asked, r')) := by
  intro f hf hdeep
  obtain ⟨front, hts, hfront⟩ := (Viable.bind (reads_operand levels) (viable_operand levels ts)
    (prompt_test levels []).default fun _ rest _ =>
      (prompt_test levels rest).viable.finish fun _ => ⟨_, rfl⟩) f hf hdeep
  refine ⟨front, hts, ?_⟩
  cases front with
  | nil =>
    refine (completes_operand levels).within [] fun left hleft => ⟨.operand left .holds, ?_, ?_⟩
    · simp [Condition.tokens, Test.tokens]
    · exact ⟨⟨hleft.1.1, hleft.2, trivial⟩, Nat.max_le.mpr ⟨hleft.1.2, Nat.zero_le _⟩⟩
  | cons t front =>
    refine hfront.starts_with.within [] fun x hx => ⟨.operand x.1 x.2, rfl, ?_⟩
    obtain ⟨⟨⟨hleft, hnesting⟩, hasked, hnesting'⟩, more, hmore⟩ := hx
    have hgroup : x.1.isGroup = false := by
      apply is_group_of_head hleft
      rw [show x.1.tokens ++ x.2.tokens = t :: (front ++ more) from hmore.symm]
      exact fun u hu => hfirst u (by rw [hts]; exact hu)
    exact ⟨⟨hleft, hgroup, hasked⟩, Nat.max_le.mpr ⟨hnesting, hnesting'⟩⟩

section Conditions

variable {n : Nat} {negated : Parse Condition} {inner : Parse Alternatives}

theorem viable_condition_with
    (hnegated : ∀ ts, Viable Condition.tokens (fun c => c.WellFormed ∧ c.nesting + 1 ≤ n) ts
      (negated ts))
    (hreads : Reads Condition.alternativeTokens
      (fun c => Condition.AlternativesWellFormed c ∧ Condition.alternativeNesting c + 1 ≤ n)
      inner)
    (hinner : ∀ ts, Viable Condition.alternativeTokens
      (fun c => Condition.AlternativesWellFormed c ∧ Condition.alternativeNesting c + 1 ≤ n) ts
      (inner ts)) (ts : List Token) :
    Viable Condition.tokens (fun c => c.WellFormed ∧ c.nesting ≤ n) ts
      (conditionWith n negated inner ts) := by
  cases ts with
  | nil => exact viable_comparison (by simp)
  | cons t ts =>
    rw [conditionWith]
    split_ifs with hnot hopen
    · refine ((hnegated ts).finish fun _ => ⟨_, rfl⟩).within [t] fun c hc => ?_
      exact ⟨.not t c, rfl, ⟨hnot, hc.1⟩, hc.2⟩
    · have hclose := prompt_symbol (k := .closeParen) (by decide)
      refine (Viable.bind hreads (hinner ts)
        ((hclose []).default.pair (prompt_test n []).default) fun _ rest _ =>
          Viable.bind (reads_kind .closeParen) (hclose rest).viable (prompt_test n []).default
            fun _ rest _ => (prompt_test n rest).viable.finish fun _ => ⟨_, rfl⟩).within [t] ?_
      rintro ⟨c, closing, asked⟩ ⟨hc, hclosing, hasked⟩
      exact ⟨.group t c closing asked, rfl, ⟨hopen, hc.1, hclosing, hasked.1⟩,
        Nat.max_le.mpr ⟨hc.2, hasked.2⟩⟩
    · exact viable_comparison (by simpa using hopen)

theorem viable_alternatives_of (hreads : Reads Condition.tokens
      (fun c => c.WellFormed ∧ c.nesting ≤ n) negated)
    (hviable : ∀ ts, Viable Condition.tokens (fun c => c.WellFormed ∧ c.nesting ≤ n) ts
      (negated ts)) (ts : List Token) :
    Viable Condition.alternativeTokens
      (fun c => Condition.AlternativesWellFormed c ∧ Condition.alternativeNesting c ≤ n) ts
      (alternativesOf negated ts) := by
  have hchain := viable_chain (reads_chain .andWord hreads) .orWord
    (viable_chain hreads .andWord hviable) ts
  exact hchain.within [] fun c hc =>
    ⟨c, Condition.alternative_tokens_eq c, alternatives_of_made hc⟩

end Conditions

theorem viable_condition (levels : Nat) (ts : List Token) :
    Viable Condition.tokens (fun c => c.WellFormed ∧ c.nesting ≤ levels) ts
      (condition levels ts) := by
  induction levels generalizing ts with
  | zero => exact viable_condition_with viable_too_deep (reads_too_deep _ _) viable_too_deep ts
  | succ levels ih =>
    apply viable_condition_with
    · intro ts
      simpa using ih ts
    · intro ts c rest h
      simpa using reads_alternatives_of (reads_condition levels) ts c rest h
    · intro ts
      simpa using viable_alternatives_of (reads_condition levels) ih ts

theorem prompt_alternatives {levels : Nat} (h : 0 < levels) (ts : List Token) :
    Prompt Condition.alternativeTokens
      (fun c => Condition.AlternativesWellFormed c ∧ Condition.alternativeNesting c + 1 ≤ levels)
      ts (alternatives levels ts) := by
  cases levels with
  | zero => cases h
  | succ levels =>
    simp only [Nat.add_le_add_iff_right]
    refine ⟨(completes_operand levels).within [] fun left hleft => ?_,
      viable_alternatives_of (reads_condition levels) (viable_condition levels) ts⟩
    refine ⟨.last (.last (.operand left .holds)), ?_, ⟨hleft.1.1, hleft.2, trivial⟩, ?_⟩
    · simp [Condition.alternativeTokens, Condition.conjunctionTokens, Condition.tokens, Test.tokens]
    · exact Nat.max_le.mpr ⟨hleft.1.2, Nat.zero_le _⟩

theorem prompt_terminator (ts : List Token) :
    Prompt Option.toList (fun o => ∀ t ∈ o, t.kind = .semicolon) ts (terminator ts) := by
  refine ⟨Completes.of_good (a := none) (by simp), fun f hf _ => ?_⟩
  simp only [terminator] at hf
  split at hf
  · cases hf
  · rename_i semicolon t rest hoptional
    obtain ⟨hts, hsemicolon⟩ := optional_eq hoptional
    cases hf
    exact ⟨semicolon.toList, hts, Completes.of_good (by simpa using hsemicolon)⟩

theorem prompt_value (ts : List Token) :
    Prompt Expression.tokens (Within maxLevels) ts (expression maxLevels ts) :=
  ⟨completes_value 127, viable_expression maxLevels ts⟩

theorem prompt_column_list (ts : List Token) :
    Prompt ColumnList.tokens ColumnList.WellFormed ts (columnList ts) := by
  refine Prompt.map
    (Prompt.bind (reads_kind .openParen) (prompt_symbol (by decide) ts) fun _ r₁ _ =>
      Prompt.bind (reads_chain .comma reads_name) (prompt_chain reads_name .comma prompt_name r₁)
        fun _ r₂ _ => (prompt_close_list r₂).finish fun _ => ⟨_, rfl⟩) ?_
  rintro ⟨opening, names, closing⟩ ⟨hopening, hnames, hclosing⟩
  exact ⟨⟨opening, names, closing⟩, by simp [ColumnList.tokens, pairTokens],
    hopening, hnames.1, hnames.2, hclosing⟩

theorem prompt_optional_column_list (ts : List Token) :
    Prompt (fun o : Option ColumnList => o.elim [] ColumnList.tokens)
      (fun o => ∀ c ∈ o, c.WellFormed) ts (optionalColumnList ts) := by
  refine ⟨Completes.of_good (a := none) (by simp), ?_⟩
  rw [optionalColumnList]
  split
  · refine ((prompt_column_list ts).viable.finish fun _ => ⟨_, rfl⟩).within [] fun c hc => ?_
    exact ⟨some c, rfl, by simpa using hc⟩
  · exact .of_ok _

theorem prompt_row_insert {word : Token} (hword : word.kind = .insertWord) (ts : List Token) :
    Prompt (fun s : RowInsert => s.tokens.tail)
      (fun s => s.WellFormed ∧ s.nesting ≤ maxLevels) ts (rowInsert word ts) := by
  refine Prompt.map
    (Prompt.bind (reads_kind .intoWord) (prompt_word (by decide) ts) fun _ r₁ _ =>
      Prompt.bind reads_path (prompt_path r₁) fun _ r₂ _ =>
      Prompt.bind reads_optional_column_list (prompt_optional_column_list r₂) fun _ r₃ _ =>
      Prompt.bind (reads_kind .valuesWord) (prompt_word (by decide) r₃) fun _ r₄ _ =>
      Prompt.bind (reads_kind .openParen) (prompt_symbol (by decide) r₄) fun _ r₅ _ =>
      Prompt.bind (reads_chain .comma (reads_expression maxLevels))
        (prompt_chain (reads_expression maxLevels) .comma prompt_value r₅) fun _ r₆ _ =>
      Prompt.bind reads_close_list (prompt_close_list r₆) fun _ r₇ _ =>
        (prompt_terminator r₇).finish fun _ => ⟨_, rfl⟩) ?_
  rintro ⟨into, table, columns, values, opening, row, closing, semicolon⟩
    ⟨k₁, k₂, k₃, k₄, k₅, k₆, k₇, k₈⟩
  refine ⟨⟨word, into, table, columns, values, opening, row, closing, semicolon⟩, ?_, ?_, ?_⟩
  · cases columns <;> simp [RowInsert.tokens, Expression.argument_tokens_eq, pairTokens]
  · refine ⟨hword, k₁, k₂, k₃, k₄, k₅, ?_, k₇, k₈⟩
    exact (Expression.arguments_well_formed_iff row).mpr (k₆.imp fun e he => he.1)
  · exact (Expression.argument_nesting_le row maxLevels).mpr fun e he => (k₆.1 e he).2

theorem viable_insert (ts : List Token) :
    Viable Insert.tokens (fun s => s.WellFormed ∧ s.nesting ≤ maxLevels) ts (insert ts) := by
  refine (Prompt.map
    (Prompt.bind (reads_kind .insertWord) (prompt_word (by decide) ts) fun word rest hword => by
      have hrow := prompt_row_insert hword
      refine ⟨(hrow []).default, ?_⟩
      dsimp only
      split
      · exact .of_ok _
      · rename_i hoptional
        obtain ⟨rfl, -⟩ := optional_eq hoptional
        exact (hrow rest).viable) ?_).viable
  rintro ⟨word, s⟩ ⟨hword, hgood, hnesting⟩
  exact ⟨.row { s with insert := word }, rfl, ⟨hword, hgood.2⟩, hnesting⟩

theorem prompt_assignment (ts : List Token) :
    Prompt Assignment.tokens (fun a => a.WellFormed ∧ a.value.nesting ≤ maxLevels) ts
      (assignment ts) := by
  refine Prompt.map
    (Prompt.bind reads_name (prompt_name ts) fun _ r₁ _ =>
      Prompt.bind (reads_kind .equals) (prompt_symbol (by decide) r₁) fun _ r₂ _ =>
        (prompt_value r₂).finish fun _ => ⟨_, rfl⟩) ?_
  rintro ⟨column, equals, value⟩ ⟨hcolumn, hequals, hvalue, hnesting⟩
  exact ⟨⟨column, equals, value⟩, rfl, ⟨hcolumn, hequals, hvalue⟩, hnesting⟩

theorem prompt_optional_filter (ts : List Token) :
    Prompt (fun o : Option Filter => o.elim [] Filter.tokens)
      (fun o => ∀ f ∈ o, f.WellFormed ∧ f.nesting ≤ maxLevels) ts (optionalFilter ts) := by
  refine ⟨Completes.of_good (a := none) (by simp), ?_⟩
  simp only [optionalFilter]
  split
  · rename_i word rest hoptional
    obtain ⟨rfl, hword⟩ := optional_eq hoptional
    have hlevels : 0 < maxLevels := by decide
    have hcondition := prompt_alternatives hlevels rest
    refine (hcondition.viable.finish fun _ => ⟨_, rfl⟩).within [word] fun c hc => ?_
    refine ⟨some ⟨word, c⟩, rfl, ?_⟩
    simp only [Option.mem_some_iff, forall_eq']
    exact ⟨⟨by simpa using hword, hc.1⟩, hc.2⟩
  · exact .of_ok _

/-- The steps of the front, with the name behind the table as a step that never fails. -/
theorem update_front_eq (ts : List Token) :
    updateFront ts = (do
      let (update, ts) ← kind .updateWord ts
      let (table, ts) ← path ts
      let (correlation, ts) ← Except.ok (optional (fun t => t.kind.isName) ts)
      let (setWord, ts) ← kind .setWord ts
      let (assignments, ts) ← chain .comma assignment ts
      return (⟨update, table, correlation, setWord, assignments, none, none⟩, ts)) :=
  rfl

theorem prompt_update_front (ts : List Token) :
    Prompt Update.tokens FrontWellFormed ts (updateFront ts) := by
  rw [update_front_eq]
  refine Prompt.map
    (Prompt.bind (reads_kind .updateWord) (prompt_word (by decide) ts) fun _ r₁ _ =>
      Prompt.bind reads_path (prompt_path r₁) fun _ r₂ _ =>
      Prompt.bind (reads_optional _) (prompt_optional _ r₂) fun _ r₃ _ =>
      Prompt.bind (reads_kind .setWord) (prompt_word (by decide) r₃) fun _ r₄ _ =>
        (prompt_chain reads_assignment .comma prompt_assignment r₄).finish fun _ => ⟨_, rfl⟩) ?_
  rintro ⟨update, table, correlation, setWord, assignments⟩ ⟨k₁, k₂, k₃, k₄, k₅⟩
  refine ⟨⟨update, table, correlation, setWord, assignments, none, none⟩,
    by simp [Update.tokens, pairTokens], ?_, ?_, rfl, rfl⟩
  · exact ⟨k₁, k₂, k₃, k₄, fun a ha => (k₅.1 a ha).1, k₅.2, by simp, by simp⟩
  · exact nesting_le_of_parts (fun a ha => (k₅.1 a ha).2) (by simp)

theorem viable_update (ts : List Token) :
    Viable Update.tokens (fun s => s.WellFormed ∧ s.nesting ≤ maxLevels) ts (update ts) := by
  rw [update_eq_front]
  refine (Prompt.map
    (Prompt.bind reads_update_front (prompt_update_front ts) fun _ r₁ _ =>
      Prompt.bind reads_optional_filter (prompt_optional_filter r₁) fun _ r₂ _ =>
        (prompt_terminator r₂).finish fun _ => ⟨_, rfl⟩) ?_).viable
  rintro ⟨front, filter, semicolon⟩ ⟨hfront, hfilter, hsemicolon⟩
  exact ⟨{ front with filter := filter, terminator := semicolon },
    update_of_front hfront hfilter hsemicolon⟩

end RedoLog.Parser
