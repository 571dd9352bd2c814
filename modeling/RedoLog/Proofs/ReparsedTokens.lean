import RedoLog.Proofs.ParsedTokens

/-!
# Parsing what has been built

From the tokens of well-formed syntax a parser builds that syntax again, whatever stands behind
them, as long as it cannot be taken for a part of it. So syntax is determined by its tokens.
-/

set_option autoImplicit false

namespace RedoLog

theorem Chain.length_separators_le {α : Type} (itemTokens : α → List Token) (c : Chain α) :
    c.separators.length ≤ (c.tokensBefore itemTokens).length := by
  induction c with
  | last a => simp [separators]
  | next a s rest ih =>
    simp only [separators, tokensBefore, List.length_cons, List.length_append]
    omega

def Update.header (s : Update) : List Token :=
  s.update :: (s.table.tokens (fun t => [t]) ++ (s.correlation.toList ++ [s.setWord]))

namespace Parser

variable {α : Type}

/-- Good syntax is built again from its tokens if the kind of the token behind them allows it. -/
def Rereads (follow : Option TokenKind → Prop) (tokens : α → List Token) (good : α → Prop)
    (p : Parse α) : Prop :=
  ∀ a, good a → ∀ rest, follow (kindOf? rest) → p (tokens a ++ rest) = .ok (a, rest)

theorem rereads_satisfy (what : Expectation) (test : Token → Bool) :
    Rereads (fun _ => True) (fun t => [t]) (fun t => test t = true) (satisfy what test) := by
  intro t htest rest _
  simp [satisfy, htest]

theorem satisfy_cons {what : Expectation} {test : Token → Bool} {t : Token} (h : test t = true)
    (rest : List Token) : satisfy what test (t :: rest) = .ok (t, rest) := by
  simp [satisfy, h]

theorem kind_cons {k : TokenKind} {t : Token} (h : t.kind = k) (rest : List Token) :
    kind k (t :: rest) = .ok (t, rest) :=
  satisfy_cons (decide_eq_true h) rest

theorem name_cons {t : Token} (h : t.kind.isName = true) (rest : List Token) :
    name (t :: rest) = .ok (t, rest) :=
  satisfy_cons h rest

theorem close_list_cons {t : Token} (h : t.kind = .closeParen) (rest : List Token) :
    closeList (t :: rest) = .ok (t, rest) :=
  satisfy_cons (decide_eq_true h) rest

theorem optional_cons {test : Token → Bool} {t : Token} (h : test t = true) (rest : List Token) :
    optional test (t :: rest) = (some t, rest) := by
  simp [optional, h]

theorem optional_kind_cons {k : TokenKind} {t : Token} (h : t.kind = k) (rest : List Token) :
    optional (fun t => t.kind = k) (t :: rest) = (some t, rest) :=
  optional_cons (by simpa using h) rest

theorem optional_none {test : Token → Bool} {rest : List Token}
    (h : ∀ t ∈ rest.head?, test t = false) : optional test rest = (none, rest) := by
  cases rest with
  | nil => rfl
  | cons t rest => simp [optional, h t rfl]

theorem optional_kind_none {k : TokenKind} {rest : List Token} (h : kindOf? rest ≠ some k) :
    optional (fun t => t.kind = k) rest = (none, rest) := by
  apply optional_none
  intro t ht
  have hkind : t.kind ≠ k := by
    intro hk
    exact h (by simp [kindOf?, Option.mem_def.mp ht, hk])
  simpa using hkind

theorem chain_up_to_before {follow : Option TokenKind → Prop} {separator : TokenKind}
    {item : Parse α} {tokens : α → List Token} {good : α → Prop}
    (hitem : Rereads follow tokens good item) (hseparator : follow (some separator))
    (c : Chain α) (hc : c.Made separator good) (fuel : Nat) (ts : List Token) :
    chainUpTo separator item (c.separators.length + fuel) (c.tokensBefore tokens ++ ts) =
      (chainUpTo separator item fuel ts >>= fun read =>
        .ok (c.replaceFinal read.1, read.2)) := by
  induction c with
  | last a =>
    rw [Chain.separators, List.length_nil, Nat.zero_add]
    exact (bind_pure (chainUpTo separator item fuel ts)).symm
  | next a s more ih =>
    obtain ⟨hgood, hs, hmore⟩ := (Chain.made_next separator good a s more).mp hc
    have hbehind : follow (kindOf? (s :: (more.tokensBefore tokens ++ ts))) := by
      simpa [kindOf?, hs] using hseparator
    have ha := hitem a hgood _ hbehind
    rw [Chain.separators, List.length_cons, Nat.succ_add, chainUpTo, Chain.tokensBefore,
      List.append_assoc, List.cons_append, ha, ok_bind]
    simp only [optional_kind_cons hs]
    rw [ih hmore, bind_assoc]
    rfl

theorem chain_before {follow : Option TokenKind → Prop} {separator : TokenKind} {item : Parse α}
    {tokens : α → List Token} {good : α → Prop} (hitem : Rereads follow tokens good item)
    (hseparator : follow (some separator)) (c : Chain α) (hc : c.Made separator good)
    (ts : List Token) :
    ∃ fuel, chain separator item (c.tokensBefore tokens ++ ts) =
      (chainUpTo separator item fuel ts >>= fun read =>
        .ok (c.replaceFinal read.1, read.2)) := by
  have hlength := c.length_separators_le tokens
  obtain ⟨fuel, hfuel⟩ : ∃ fuel, (c.tokensBefore tokens ++ ts).length =
      c.separators.length + fuel := by
    apply Nat.exists_eq_add_of_le
    rw [List.length_append]
    omega
  exact ⟨fuel, by rw [chain, hfuel, chain_up_to_before hitem hseparator c hc]⟩

theorem chain_up_to_last {separator : TokenKind} {item : Parse α} {ts : List Token} {a : α}
    {rest : List Token} (ha : item ts = .ok (a, rest)) (hrest : kindOf? rest ≠ some separator)
    (fuel : Nat) : chainUpTo separator item fuel ts = .ok (.last a, rest) := by
  cases fuel with
  | zero =>
    rw [chainUpTo, ha]
    rfl
  | succ fuel =>
    rw [chainUpTo, ha, ok_bind]
    simp only [optional_kind_none hrest]
    rfl

theorem rereads_chain {follow : Option TokenKind → Prop} {separator : TokenKind} {item : Parse α}
    {tokens : α → List Token} {good : α → Prop} (hitem : Rereads follow tokens good item)
    (hseparator : follow (some separator)) :
    Rereads (fun k => follow k ∧ k ≠ some separator) (Chain.tokens tokens)
      (Chain.Made separator good) (chain separator item) := by
  intro c hc rest hrest
  have hfinal := hitem c.final (hc.1 c.final c.final_mem_to_list) rest hrest.1
  obtain ⟨fuel, hchain⟩ := chain_before hitem hseparator c hc (tokens c.final ++ rest)
  rw [Chain.tokens_eq_before, List.append_assoc, hchain, chain_up_to_last hfinal hrest.2, ok_bind,
    Chain.replace_final_last]

theorem rereads_path :
    Rereads (· ≠ some .dot) (Chain.tokens fun t => [t]) Operand.PathWellFormed path := by
  intro c hc rest hrest
  have hname : Rereads (fun _ => True) (fun t => [t]) (fun t => t.kind.isName = true) name :=
    rereads_satisfy .name fun t => t.kind.isName
  exact rereads_chain hname trivial c hc rest ⟨trivial, hrest⟩

/-- Only a constant word could be taken for something else, by a parenthesis behind it. -/
theorem expression_tokens (levels : Nat) (e : Expression) (he : Within levels e)
    (rest : List Token) (hrest : (∃ word, e = .constant word) → kindOf? rest ≠ some .openParen) :
    expression levels (e.tokens ++ rest) = .ok (e, rest) := by
  induction levels generalizing e rest with
  | zero => cases e <;> simp [Within, Expression.nesting] at he
  | succ n ih =>
    cases e with
    | group opening inner closing =>
      obtain ⟨⟨hopening, hinner, hclosing⟩, hnesting⟩ := he
      have hwithin : Within n inner := ⟨hinner, by simpa [Expression.nesting] using hnesting⟩
      have hbuilt := ih inner hwithin (closing :: rest) (by simp [kindOf?, hclosing])
      simp only [expression, Expression.tokens, valueWith, hopening, List.cons_append,
        List.append_assoc, List.nil_append, hbuilt, ok_bind, kind_cons hclosing]
      rfl
    | number sign literal =>
      obtain ⟨⟨hsign, hliteral⟩, -⟩ := he
      cases sign with
      | none => simp [expression, Expression.tokens, valueWith, hliteral]
      | some sign =>
        rcases hsign sign rfl with hkind | hkind <;>
          simp [expression, Expression.tokens, valueWith, hkind, hliteral]
    | text type literal =>
      obtain ⟨⟨htype, hliteral⟩, -⟩ := he
      cases type with
      | none => simp [expression, Expression.tokens, valueWith, hliteral]
      | some type =>
        rcases htype type rfl with hkind | hkind <;>
          simp [expression, Expression.tokens, valueWith, hkind, hliteral]
    | null word =>
      have hkind : word.kind = .nullWord := he.1
      simp [expression, Expression.tokens, valueWith, hkind]
    | constant word =>
      have hword : word.isConstantWord = true := he.1
      have hkind : word.kind = .name := Token.kind_of_is_constant_word hword
      simp [expression, Expression.tokens, valueWith, hkind, optional_kind_none (hrest ⟨word, rfl⟩),
        hword]
    | call name opening arguments closing =>
      obtain ⟨hname, hopening, hmade, hclosing⟩ :=
        (within_call n name opening closing arguments).mp he
      have hinner : Rereads (· ≠ some .openParen) Expression.tokens (Within n) (expression n) :=
        fun e he rest hrest => ih e he rest fun _ => hrest
      have hbuilt := rereads_chain hinner (by simp) arguments hmade (closing :: rest)
        (by simp [kindOf?, hclosing])
      have hoptional := optional_kind_cons hopening
        (arguments.tokens Expression.tokens ++ closing :: rest)
      simp only [expression, Expression.tokens, Expression.argument_tokens_eq, valueWith, hname,
        List.cons_append, List.append_assoc, List.nil_append, hoptional, hbuilt, ok_bind,
        close_list_cons hclosing]
      rfl

theorem rereads_expression (levels : Nat) :
    Rereads (· ≠ some .openParen) Expression.tokens (Within levels) (expression levels) :=
  fun e he rest hrest => expression_tokens levels e he rest fun _ => hrest

theorem call_of_expression {levels : Nat} {word : Token} {ts : List Token} {e : Expression}
    {rest : List Token} (h : expression levels (word :: ts) = .ok (e, rest))
    (hname : word.kind = .name)
    (halone : word.isConstantWord = true → kindOf? ts = some .openParen) :
    ∃ opening arguments closing, e = .call word opening arguments closing := by
  cases levels with
  | zero => simp [expression, tooDeep] at h
  | succ n =>
    simp only [expression, valueWith, hname] at h
    split at h
    · rename_i opening r hoptional
      obtain ⟨⟨arguments, r'⟩, -, h⟩ := bind_eq_ok h
      obtain ⟨⟨closing, r''⟩, -, h⟩ := bind_eq_ok h
      cases h
      exact ⟨opening, arguments, closing, rfl⟩
    · rename_i r hoptional
      split at h
      · rename_i hconstant
        cases ts with
        | nil => cases halone hconstant
        | cons t ts =>
          have ht : t.kind = .openParen := by simpa [kindOf?] using halone hconstant
          rw [optional_kind_cons ht] at hoptional
          cases hoptional
      · simp [fail] at h

theorem assignment_cons {column equals : Token} (hcolumn : column.kind.isName = true)
    (hequals : equals.kind = .equals) (ts : List Token) :
    assignment (column :: equals :: ts) = (expression maxLevels ts >>= fun read =>
      .ok (⟨column, equals, read.1⟩, read.2)) := by
  simp only [assignment, name_cons hcolumn, kind_cons hequals, ok_bind]
  rfl

theorem rereads_assignment :
    Rereads (· ≠ some .openParen) Assignment.tokens
      (fun a => a.WellFormed ∧ a.value.nesting ≤ maxLevels) assignment := by
  intro a ha rest hrest
  obtain ⟨⟨hcolumn, hequals, hvalue⟩, hnesting⟩ := ha
  have hbuilt := rereads_expression maxLevels a.value ⟨hvalue, hnesting⟩ rest hrest
  rw [Assignment.tokens, List.cons_append, List.cons_append, assignment_cons hcolumn hequals,
    hbuilt]
  rfl

theorem nesting_le_of_mem {s : Update} {n : Nat} (h : s.nesting ≤ n) :
    ∀ a ∈ s.assignments.toList, a.value.nesting ≤ n := by
  have hvalues := (Nat.max_le.mp h).1
  generalize s.assignments.toList = as at hvalues ⊢
  induction as with
  | nil => simp
  | cons a as ih =>
    obtain ⟨hfirst, hmore⟩ := Nat.max_le.mp hvalues
    exact List.forall_mem_cons.mpr ⟨hfirst, ih hmore⟩

theorem table_tokens {table : Chain Token} {correlation : Option Token} {setWord : Token}
    (htable : Operand.PathWellFormed table) (hcorrelation : ∀ t ∈ correlation, t.kind.isName = true)
    (hset : setWord.kind = .setWord) (rest : List Token) :
    path (table.tokens (fun t => [t]) ++ (correlation.toList ++ setWord :: rest)) =
        .ok (table, correlation.toList ++ setWord :: rest) ∧
      optional (fun t => t.kind.isName) (correlation.toList ++ setWord :: rest) =
        (correlation, setWord :: rest) := by
  cases correlation with
  | none =>
    constructor
    · exact rereads_path table htable _ (by simp [kindOf?, hset])
    · exact optional_none (by simp [hset, TokenKind.isName])
  | some t =>
    have ht : t.kind.isName = true := hcorrelation t rfl
    have hdot : t.kind ≠ .dot := by
      intro hkind
      simp [hkind, TokenKind.isName] at ht
    constructor
    · exact rereads_path table htable _ (by simp [kindOf?, hdot])
    · exact optional_cons ht _

theorem FrontWellFormed.made {s : Update} (hs : FrontWellFormed s) :
    s.assignments.Made .comma fun a => a.WellFormed ∧ a.value.nesting ≤ maxLevels := by
  obtain ⟨⟨-, -, -, -, hassignments, hcommas, -, -⟩, hnesting, -, -⟩ := hs
  exact ⟨fun a ha => ⟨hassignments a ha, nesting_le_of_mem hnesting a ha⟩, hcommas⟩

/-- What stands before the assignments is read without looking at them. -/
theorem update_front_header {s : Update} (hs : FrontWellFormed s) (ts : List Token) :
    updateFront (s.header ++ ts) = (chain .comma assignment ts >>= fun read =>
      .ok ({ s with assignments := read.1 }, read.2)) := by
  obtain ⟨⟨hupdate, htable, hcorrelation, hset, -, -, -, -⟩, -, hfilter, hterminator⟩ := hs
  obtain ⟨hpath, hoptional⟩ := table_tokens htable hcorrelation hset ts
  have htokens : s.header ++ ts = s.update :: (s.table.tokens (fun t => [t]) ++
      (s.correlation.toList ++ s.setWord :: ts)) := by
    simp [Update.header]
  rw [htokens, updateFront, kind_cons hupdate]
  simp only [ok_bind, hpath, hoptional, kind_cons hset]
  obtain ⟨_, _, _, _, _, filter, terminator⟩ := s
  cases hfilter
  cases hterminator
  rfl

theorem rereads_update_front :
    Rereads (fun k => k ≠ some .openParen ∧ k ≠ some .comma) Update.tokens FrontWellFormed
      updateFront := by
  intro s hs rest hrest
  have hchain := rereads_chain rereads_assignment (by simp) s.assignments hs.made rest hrest
  have htokens : s.tokens ++ rest =
      s.header ++ (s.assignments.tokens Assignment.tokens ++ rest) := by
    simp [Update.tokens, Update.header, hs.2.2.1, hs.2.2.2]
  rw [htokens, update_front_header hs, hchain]
  rfl

/-- The part of an `UPDATE` before its filter is determined by its tokens. -/
theorem eq_of_front_tokens {s s' : Update} (hs : FrontWellFormed s) (hs' : FrontWellFormed s')
    (h : s.tokens = s'.tokens) : s = s' := by
  have hbuilt := rereads_update_front s hs [] (by simp [kindOf?])
  have hbuilt' := rereads_update_front s' hs' [] (by simp [kindOf?])
  rw [h, hbuilt'] at hbuilt
  cases hbuilt
  rfl

theorem terminator_tokens {semicolon : Option Token} (h : ∀ t ∈ semicolon, t.kind = .semicolon) :
    terminator semicolon.toList = .ok semicolon := by
  cases semicolon with
  | none => rfl
  | some t => simp [terminator, optional, h t rfl]

theorem column_list_tokens {c : ColumnList} (hc : c.WellFormed) (rest : List Token) :
    columnList (c.tokens ++ rest) = .ok (c, rest) := by
  obtain ⟨hopening, hnames, hcommas, hclosing⟩ := hc
  have hname : Rereads (fun _ => True) (fun t => [t]) (fun t => t.kind.isName = true) name :=
    rereads_satisfy .name fun t => t.kind.isName
  have hbuilt := rereads_chain hname trivial c.names ⟨hnames, hcommas⟩ (c.closing :: rest)
    (by simp [kindOf?, hclosing])
  simp only [columnList, ColumnList.tokens, List.cons_append, List.append_assoc, List.nil_append,
    kind_cons hopening, hbuilt, ok_bind, close_list_cons hclosing]
  rfl

theorem rereads_optional_column_list :
    Rereads (· ≠ some .openParen) (fun o => o.elim [] ColumnList.tokens)
      (fun o => ∀ c ∈ o, c.WellFormed) optionalColumnList := by
  intro o ho rest hrest
  cases o with
  | none =>
    show optionalColumnList rest = _
    rw [optionalColumnList, if_neg hrest]
  | some c =>
    have hopening : kindOf? (c.tokens ++ rest) = some .openParen := by
      simpa [kindOf?, ColumnList.tokens] using (ho c rfl).1
    show optionalColumnList (c.tokens ++ rest) = _
    rw [optionalColumnList, if_pos hopening, column_list_tokens (ho c rfl)]
    rfl

theorem insert_tokens {s : RowInsert} (hs : s.WellFormed) (hnesting : s.nesting ≤ maxLevels) :
    insert s.tokens = .ok (.row s) := by
  obtain ⟨hinsert, hinto, htable, hcolumns, hvalues, hopening, hrow, hclosing, hterminator⟩ := hs
  have hmade : s.row.Made .comma (Within maxLevels) := by
    obtain ⟨hgood, hcommas⟩ := (Expression.arguments_well_formed_iff s.row).mp hrow
    have hlevels := (Expression.argument_nesting_le s.row maxLevels).mp hnesting
    exact ⟨fun e he => ⟨hgood e he, hlevels e he⟩, hcommas⟩
  have hbuilt := rereads_chain (rereads_expression maxLevels) (by simp) s.row hmade
    (s.closing :: s.terminator.toList) (by simp [kindOf?, hclosing])
  obtain ⟨behind, hbehind⟩ : ∃ ts, ts = s.values :: s.opening ::
      (s.row.tokens Expression.tokens ++ s.closing :: s.terminator.toList) := ⟨_, rfl⟩
  have hnext : kindOf? behind = some .valuesWord := by simp [kindOf?, hbehind, hvalues]
  have hnames := rereads_optional_column_list s.columns hcolumns behind (by simp [hnext])
  have hpath := rereads_path s.table htable (s.columns.elim [] ColumnList.tokens ++ behind) (by
    cases hc : s.columns with
    | none => simp [hnext]
    | some c => simp [kindOf?, ColumnList.tokens, (hcolumns c hc).1])
  have htokens : s.tokens = s.insert :: s.into :: (s.table.tokens (fun t => [t]) ++
      (s.columns.elim [] ColumnList.tokens ++ behind)) := by
    rw [RowInsert.tokens, Expression.argument_tokens_eq, List.append_assoc, hbehind]
    cases s.columns <;> rfl
  have hword : ∀ ts, optional (fun t => t.kind = .allWord || t.kind = .firstWord)
      (s.into :: ts) = (none, s.into :: ts) := fun ts => optional_none (by simp [hinto])
  rw [htokens, insert, kind_cons hinsert, ok_bind]
  simp only [hword, rowInsert, kind_cons hinto, hpath, hnames, ok_bind]
  rw [hbehind]
  simp only [kind_cons hvalues, kind_cons hopening, hbuilt, close_list_cons hclosing,
    terminator_tokens hterminator, ok_bind]
  rfl

end Parser

namespace Update

def front (s : Update) : Update :=
  { s with filter := none, terminator := none }

def leading (s : Update) : List Token :=
  s.front.tokens

theorem tokens_eq_leading (s : Update) :
    s.tokens = s.leading ++ (s.filter.elim [] Filter.tokens ++ s.terminator.toList) := by
  cases hfilter : s.filter <;> simp [leading, front, tokens, hfilter]

theorem front_well_formed {s : Update} (hs : s.WellFormed) (hnesting : s.nesting ≤ maxLevels) :
    Parser.FrontWellFormed s.front := by
  obtain ⟨h₁, h₂, h₃, h₄, h₅, h₆, -, -⟩ := hs
  refine ⟨⟨h₁, h₂, h₃, h₄, h₅, h₆, by simp [front], by simp [front]⟩, ?_, rfl, rfl⟩
  exact Parser.nesting_le_of_parts (Parser.nesting_le_of_mem (s := s) hnesting)
    (by simp [front])

end Update

end RedoLog
