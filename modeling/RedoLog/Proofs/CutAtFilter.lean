import RedoLog.Proofs.CutAtToken
import RedoLog.Proofs.Truncation

/-!
# The cut at the WHERE clause

The word `WHERE` stands nowhere in an `UPDATE` but in front of its condition. Where the letters are
found there first, the cut takes the condition away and leaves everything else as it was: the
assignments and the texts of their calls, so also the function that is named in an error.
-/

set_option autoImplicit false

namespace RedoLog

theorem TokenKind.ne_where_word_of_is_name {k : TokenKind} (h : k.isName = true) :
    k ≠ .whereWord := by
  rintro rfl
  cases h

namespace Expression

mutual

theorem kind_ne_where_word :
    ∀ e : Expression, e.WellFormed → ∀ t ∈ e.tokens, t.kind ≠ .whereWord
  | .group opening inner closing, h => by
    have hinner := kind_ne_where_word inner h.2.1
    simpa [tokens, or_imp, forall_and, h.1, h.2.2] using hinner
  | .number sign literal, h => by
    cases sign with
    | none => simp [tokens, h.2]
    | some sign => rcases h.1 sign rfl with hsign | hsign <;> simp [tokens, h.2, hsign]
  | .text type literal, h => by
    cases type with
    | none => simp [tokens, h.2]
    | some type => rcases h.1 type rfl with htype | htype <;> simp [tokens, h.2, htype]
  | .null word, h => by
    have hword : word.kind = .nullWord := h
    simp [tokens, hword]
  | .constant word, h => by simp [tokens, Token.kind_of_is_constant_word h]
  | .call name opening arguments closing, h => by
    have harguments := argument_kind_ne_where_word arguments h.2.2.1
    simpa [tokens, or_imp, forall_and, h.1, h.2.1, h.2.2.2] using harguments

theorem argument_kind_ne_where_word : ∀ es : Chain Expression, ArgumentsWellFormed es →
    ∀ t ∈ argumentTokens es, t.kind ≠ .whereWord
  | .last e, h => kind_ne_where_word e h
  | .next e comma rest, h => by
    have he := kind_ne_where_word e h.1
    have hrest := argument_kind_ne_where_word rest h.2.2
    simpa [argumentTokens, or_imp, forall_and, h.2.1] using ⟨he, hrest⟩

end

mutual

theorem call_mem_tokens {c : Call} :
    ∀ e : Expression, c ∈ e.calls → c.name ∈ e.tokens ∧ c.closing ∈ e.tokens
  | .group opening inner closing, h => by
    have hinner := call_mem_tokens inner h
    simp [tokens, hinner]
  | .number _ _, h => by cases h
  | .text _ _, h => by cases h
  | .null _, h => by cases h
  | .constant _, h => by cases h
  | .call name opening arguments closing, h => by
    rw [calls, List.mem_cons] at h
    rcases h with rfl | h
    · simp [tokens]
    · have harguments := call_mem_argument_tokens arguments h
      simp [tokens, harguments]

theorem call_mem_argument_tokens {c : Call} : ∀ es : Chain Expression, c ∈ argumentCalls es →
    c.name ∈ argumentTokens es ∧ c.closing ∈ argumentTokens es
  | .last e, h => call_mem_tokens e h
  | .next e comma rest, h => by
    rw [argumentCalls, List.mem_append] at h
    rcases h with h | h
    · have he := call_mem_tokens e h
      simp [argumentTokens, he]
    · have hrest := call_mem_argument_tokens rest h
      simp [argumentTokens, hrest]

end

end Expression

theorem Operand.path_kind_ne_where_word {path : Chain Token} (h : PathWellFormed path) :
    ∀ t ∈ path.tokens (fun t => [t]), t.kind ≠ .whereWord := by
  apply (Chain.forall_mem_tokens fun t => t.kind ≠ .whereWord).mpr
  constructor
  · intro t ht
    simpa using TokenKind.ne_where_word_of_is_name (h.1 t ht)
  · intro s hs
    simp [h.2 s hs]

theorem Operand.kind_ne_where_word {o : Operand} (h : o.WellFormed) :
    ∀ t ∈ o.tokens, t.kind ≠ .whereWord := by
  cases o with
  | column path => exact path_kind_ne_where_word h.1
  | value e => exact e.kind_ne_where_word h

theorem Test.kind_ne_where_word {test : Test} (h : test.WellFormed) :
    ∀ t ∈ test.tokens, t.kind ≠ .whereWord := by
  cases test with
  | holds => simp [tokens]
  | compare operator right =>
    obtain ⟨hoperator, hright⟩ := h
    have hkind : operator.kind ≠ .whereWord := by
      intro hkind
      simp [hkind, TokenKind.isComparison] at hoperator
    simpa [tokens, hkind] using right.kind_ne_where_word hright
  | isNull word negation null =>
    obtain ⟨hword, hnegation, hnull⟩ := h
    cases negation with
    | none => simp [tokens, hword, hnull]
    | some t => simp [tokens, hword, hnegation t rfl, hnull]

namespace Condition

mutual

theorem kind_ne_where_word :
    ∀ c : Condition, c.WellFormed → ∀ t ∈ c.tokens, t.kind ≠ .whereWord
  | .not word inner, h => by
    have hinner := kind_ne_where_word inner h.2
    simpa [tokens, h.1] using hinner
  | .group opening inner closing test, h => by
    have hinner := alternative_kind_ne_where_word inner h.2.1
    have htest := Test.kind_ne_where_word h.2.2.2
    simpa [tokens, or_imp, forall_and, h.1, h.2.2.1] using ⟨hinner, htest⟩
  | .operand left test, h => by
    have hleft := Operand.kind_ne_where_word h.1
    have htest := Test.kind_ne_where_word h.2.2
    simpa [tokens, or_imp, forall_and] using ⟨hleft, htest⟩

theorem conjunction_kind_ne_where_word : ∀ cs : Chain Condition, ConjunctionWellFormed cs →
    ∀ t ∈ conjunctionTokens cs, t.kind ≠ .whereWord
  | .last c, h => kind_ne_where_word c h
  | .next c word rest, h => by
    have hc := kind_ne_where_word c h.1
    have hrest := conjunction_kind_ne_where_word rest h.2.2
    simpa [conjunctionTokens, or_imp, forall_and, h.2.1] using ⟨hc, hrest⟩

theorem alternative_kind_ne_where_word : ∀ cs : Alternatives, AlternativesWellFormed cs →
    ∀ t ∈ alternativeTokens cs, t.kind ≠ .whereWord
  | .last c, h => conjunction_kind_ne_where_word c h
  | .next c word rest, h => by
    have hc := conjunction_kind_ne_where_word c h.1
    have hrest := alternative_kind_ne_where_word rest h.2.2
    simpa [alternativeTokens, or_imp, forall_and, h.2.1] using ⟨hc, hrest⟩

end

end Condition

namespace Update

theorem leading_kind_ne_where_word {s : Update} (hs : s.WellFormed) :
    ∀ t ∈ s.leading, t.kind ≠ .whereWord := by
  obtain ⟨hupdate, htable, hcorrelation, hset, hassignments, hcommas, -, -⟩ := hs
  have hnames := Operand.path_kind_ne_where_word htable
  have hcorrelation' : ∀ t ∈ s.correlation, t.kind ≠ .whereWord :=
    fun t ht => TokenKind.ne_where_word_of_is_name (hcorrelation t ht)
  have hclause : ∀ t ∈ s.assignments.tokens Assignment.tokens, t.kind ≠ .whereWord := by
    apply (Chain.forall_mem_tokens fun t => t.kind ≠ .whereWord).mpr
    refine ⟨fun a ha => ?_, fun t ht => by simp [hcommas t ht]⟩
    obtain ⟨hcolumn, hequals, hvalue⟩ := hassignments a ha
    have hcolumn' := TokenKind.ne_where_word_of_is_name hcolumn
    simpa [Assignment.tokens, hequals, hcolumn'] using a.value.kind_ne_where_word hvalue
  simpa [leading, front, tokens, or_imp, forall_and, hupdate, hset] using
    ⟨hnames, hcorrelation', hclause⟩

theorem trailing_kind_ne_where_word {s : Update} (hs : s.WellFormed) :
    ∀ t ∈ s.trailing.tail, t.kind ≠ .whereWord := by
  obtain ⟨-, -, -, -, -, -, hfilter, hterminator⟩ := hs
  have hsemicolon : ∀ t ∈ s.terminator, t.kind ≠ .whereWord :=
    fun t ht => by simp [hterminator t ht]
  cases hf : s.filter with
  | none => cases hend : s.terminator <;> simp [trailing, hf, hend]
  | some f =>
    have hcondition := Condition.alternative_kind_ne_where_word f.condition (hfilter f hf).2
    simpa [trailing, hf, Filter.tokens, or_imp, forall_and] using ⟨hcondition, hsemicolon⟩

/-- The only `WHERE` among the tokens of an `UPDATE` stands right behind its `SET` clause. -/
theorem front_eq_leading {s : Update} (hs : s.WellFormed) {front behind : List Token} {t : Token}
    (htokens : s.tokens = front ++ t :: behind) (hkind : t.kind = .whereWord) :
    front = s.leading := by
  have htrailing : s.leading ++ s.trailing = front ++ t :: behind :=
    s.tokens_eq_leading.symm.trans htokens
  rcases List.append_eq_append_iff.mp htrailing with ⟨more, hfront, hmore⟩ | ⟨more, hmore, hfirst⟩
  · cases more with
    | nil => rw [hfront, List.append_nil]
    | cons u more =>
      have hmem : t ∈ s.trailing.tail := by simp [hmore]
      exact absurd hkind (trailing_kind_ne_where_word hs t hmem)
  · cases more with
    | nil => rw [hmore, List.append_nil]
    | cons u more =>
      have hmem : t ∈ s.leading := by simp [hmore, (List.cons.inj hfirst).1]
      exact absurd hkind (leading_kind_ne_where_word hs t hmem)

theorem parse_leading {s : Update} (hs : s.WellFormed) (hnesting : s.nesting ≤ maxLevels)
    {semicolon : Token} (hsemicolon : semicolon.kind = .semicolon) :
    Parser.update (s.leading ++ [semicolon]) =
      .ok { s with filter := none, terminator := some semicolon } := by
  obtain ⟨h₁, h₂, h₃, h₄, h₅, h₆, -, -⟩ := hs
  let cut : Update := { s with filter := none, terminator := some semicolon }
  have hcut : cut.WellFormed := ⟨h₁, h₂, h₃, h₄, h₅, h₆, by simp [cut], by simpa [cut]⟩
  have hlevels : cut.nesting ≤ maxLevels :=
    Parser.nesting_le_of_parts (Parser.nesting_le_of_mem (s := s) hnesting) (by simp [cut])
  have htokens : cut.tokens = s.leading ++ [semicolon] := cut.tokens_eq_leading
  rw [← htokens]
  exact Parser.update_tokens hcut hlevels

theorem call_mem_leading {s : Update} {c : Call} (hc : c ∈ s.setCalls) :
    c.name ∈ s.leading ∧ c.closing ∈ s.leading := by
  obtain ⟨a, ha, hcall⟩ := List.mem_flatMap.mp hc
  obtain ⟨hname, hclosing⟩ := a.value.call_mem_tokens hcall
  have hmem : ∀ t ∈ a.value.tokens, t ∈ s.leading := by
    intro t ht
    have hclause : t ∈ s.assignments.tokens Assignment.tokens :=
      Chain.mem_tokens_of_mem ha (by simp [Assignment.tokens, ht])
    simp [leading, front, tokens, hclause]
  exact ⟨hmem _ hname, hmem _ hclosing⟩

end Update

theorem check_calls_congr {source source' : List Char} {calls : List Call}
    (h : ∀ c ∈ calls, c.text source = c.text source') :
    checkCalls source calls = checkCalls source' calls := by
  unfold checkCalls
  cases hfind : calls.find? fun c => !c.isSupported with
  | none => rfl
  | some c => simp [h c (List.mem_of_find?_eq_some hfind)]

theorem Call.text_append {before : List Char} {c : Call}
    (h : c.closing.stop ≤ Text.byteLength before) (behind : List Char) :
    c.text (before ++ behind) = c.text before := by
  simp [text, Node.text, Node.span, Text.slice_append h behind]

/-- An `UPDATE` that is cut at its `WHERE` is the same statement without a filter. -/
theorem Update.read_cut {source : String} {s : Update} (hs : Update.read source = .ok s)
    {before : List Char} (hbefore : beforeWhere? source.toList = some before) {t : Token}
    (ht : t ∈ s.tokens) (hkind : t.kind = .whereWord) (hstart : t.start = Text.byteLength before) :
    (∀ u ∈ s.leading, u.stop ≤ Text.byteLength before) ∧
      ∃ semicolon, Update.read (truncateFromWhere source) =
        .ok { s with filter := none, terminator := some semicolon } := by
  obtain ⟨hlex, hgood, hnesting⟩ := Update.read_eq_ok hs
  obtain ⟨hcut, -⟩ := truncate_from_where_of_some hbefore
  obtain ⟨tail, hsource, hletters⟩ := before_where_eq_some hbefore
  obtain ⟨x, xs, rfl, hx⟩ := starts_with_where_cons hletters
  rw [hsource] at hlex
  obtain ⟨front, behind, semicolon, htokens, hfront, hsemicolon, hlex'⟩ :=
    Lexer.lex_cut hx hlex ht hstart
  obtain rfl := front_eq_leading hgood htokens hkind
  refine ⟨hfront, semicolon, ?_⟩
  simp only [Update.read, readWith, hcut, hlex', parse_leading hgood hnesting hsemicolon]

/-- Where the letters are first found at the `WHERE` of an `UPDATE`, the cut text is rebuilt as the
whole text is. -/
theorem reconstruct_update_cut_at_filter (options : Options) (source : String) (tree : ParseTree)
    (hparse : parseUpdate source = .ok tree) (ts : List Token) (hts : tokenize source = .ok ts)
    (t : Token) (ht : t ∈ ts) (hkind : t.kind = .whereWord) (before : List Char)
    (hbefore : beforeWhere? source.toList = some before)
    (hstart : t.start = Text.byteLength before) :
    reconstructUpdate options (truncateFromWhere source) = reconstructUpdate options source := by
  obtain ⟨s, hs⟩ := Update.read_of_parse_update hparse
  obtain ⟨hlex, -, -⟩ := Update.read_eq_ok hs
  have hmem : t ∈ s.tokens := by
    obtain ⟨tokens, hlex', rfl⟩ := lex_of_tokenize hts
    obtain rfl := Except.ok.inj (hlex.symm.trans hlex')
    rcases List.mem_append.mp ht with ht | ht
    · exact ht
    · rw [List.mem_singleton.mp ht] at hkind
      cases hkind
  obtain ⟨hstop, semicolon, hs'⟩ := Update.read_cut hs hbefore hmem hkind hstart
  obtain ⟨hcut, -⟩ := truncate_from_where_of_some hbefore
  obtain ⟨tail, hsource, -⟩ := before_where_eq_some hbefore
  have hcalls : checkCalls (truncateFromWhere source).toList
      (Update.setCalls { s with filter := none, terminator := some semicolon }) =
        checkCalls source.toList s.setCalls := by
    apply check_calls_congr
    intro c hc
    have hclosing := hstop c.closing (Update.call_mem_leading (s := s) hc).2
    rw [hcut, hsource, Call.text_append hclosing, Call.text_append hclosing]
  rw [reconstruct_update_eq options _ _ hs', reconstruct_update_eq options source s hs, hcalls]
  rfl

def updateWithCall : String :=
  "update T set \"ä\" = to_date('x'), b = upper('é')WHERE c = 'where'"

theorem reconstruct_update_update_with_call :
    reconstructUpdate defaultOptions (truncateFromWhere updateWithCall) =
        reconstructUpdate defaultOptions updateWithCall ∧
      reconstructUpdate defaultOptions updateWithCall =
        .error (.replay (.unsupportedFunction "upper('é')")) := by
  have hroot : (parseUpdate updateWithCall).toOption.map (fun tree => tree.root.tokenIndex) =
      some 0 := by decide +kernel
  have hwords : (tokenize updateWithCall).toOption.map
      (fun ts => ts.filter fun t => t.kind = .whereWord) =
        some [⟨.whereWord, 16, 49, "WHERE"⟩] := by decide +kernel
  have hbefore : (beforeWhere? updateWithCall.toList).map Text.byteLength = some 49 := by
    decide +kernel
  have hfailure : failure? (reconstructUpdate defaultOptions updateWithCall) =
      some (.replay (.unsupportedFunction "upper('é')")) := by decide +kernel
  obtain ⟨tree, htree, -⟩ := ok_of_to_option_map hroot
  obtain ⟨ts, hts, hfilter⟩ := ok_of_to_option_map hwords
  obtain ⟨before, hfound, hoffset⟩ := Option.map_eq_some_iff.mp hbefore
  have hmem : (⟨.whereWord, 16, 49, "WHERE"⟩ : Token) ∈ ts :=
    (List.mem_filter.mp (by rw [hfilter]; exact List.mem_singleton_self _)).1
  exact ⟨reconstruct_update_cut_at_filter defaultOptions updateWithCall tree htree ts hts _ hmem rfl
    before hfound hoffset.symm, error_of_failure hfailure⟩

end RedoLog
