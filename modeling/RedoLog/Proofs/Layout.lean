import RedoLog.Proofs.CutTokens
import RedoLog.Proofs.Derivations
import RedoLog.Proofs.InsertReplay
import RedoLog.Proofs.RelabelledStatements

/-!
# Layout does not matter

Two sources may differ in what stands between their tokens, in the letter case of keywords and in
the spelling of operators. Then one of them is read as the other with other labels on its tokens,
and both are rebuilt to the same columns or fail for the same reason. The reasons may quote the
sources, which differ, so they agree in their variant.
-/

set_option autoImplicit false

namespace RedoLog

inductive Agree {ε α : Type} (same : ε → ε → Prop) : Except ε α → Except ε α → Prop where
  | ok (a : α) : Agree same (.ok a) (.ok a)
  | error {e e' : ε} (h : same e e') : Agree same (.error e) (.error e')

theorem Agree.bind {ε α β : Type} {same : ε → ε → Prop} {x x' : Except ε α}
    {g g' : α → Except ε β} (h : Agree same x x') (hg : ∀ a, Agree same (g a) (g' a)) :
    Agree same (x >>= g) (x' >>= g') := by
  cases h with
  | ok a => exact hg a
  | error h => exact .error h

theorem Agree.refl {ε α : Type} {same : ε → ε → Prop} (hsame : ∀ e, same e e) (x : Except ε α) :
    Agree same x x := by
  cases x with
  | ok a => exact .ok a
  | error e => exact .error (hsame e)

theorem Agree.cases {ε α : Type} {same : ε → ε → Prop} {x y : Except ε α} (h : Agree same x y) :
    (∃ a, x = .ok a ∧ y = .ok a) ∨ ∃ e e', x = .error e ∧ y = .error e' ∧ same e e' := by
  cases h with
  | ok a => exact Or.inl ⟨a, rfl, rfl⟩
  | error h => exact Or.inr ⟨_, _, rfl, rfl, h⟩

def ReplayError.SameVariant (e e' : ReplayError) : Prop :=
  e.ctorIdx = e'.ctorIdx

theorem ReplayError.SameVariant.refl (e : ReplayError) : e.SameVariant e :=
  rfl

def Failure.SameVariant : Failure → Failure → Prop
  | .malformed _, .malformed _ => True
  | .replay e, .replay e' => e.SameVariant e'
  | .missingFields _, .missingFields _ => True
  | .unsupportedOperation _, .unsupportedOperation _ => True
  | _, _ => False

namespace Token

def content (t : Token) : TokenKind × Option String :=
  (t.kind, if t.kind.carriesText then some t.text else none)

def matched (us : List Token) (t : Token) : Token :=
  match us[t.index]? with
  | some u => if u.content = t.content then u else t
  | none => t

theorem content_matched (us : List Token) (t : Token) : (t.matched us).content = t.content := by
  unfold matched
  split
  · split
    · assumption
    · rfl
  · rfl

theorem keeps_lexemes_matched (us : List Token) : KeepsLexemes (matched us) := by
  have hkind : ∀ t, (matched us t).kind = t.kind := fun t =>
    congrArg Prod.fst (content_matched us t)
  refine ⟨hkind, fun t ht => ?_⟩
  have htext := congrArg Prod.snd (content_matched us t)
  simpa [content, hkind, ht] using htext

theorem matched_of_get_elem {us : List Token} {t u : Token} (hu : us[t.index]? = some u)
    (h : u.content = t.content) : t.matched us = u := by
  simp [matched, hu, h]

end Token

namespace Lexer

theorem index_of_place (offset index : Nat) (ps : List Piece) (i : Nat) (t : Token)
    (h : (place offset index ps)[i]? = some t) : t.index = index + i := by
  induction ps generalizing offset index i with
  | nil => simp [place] at h
  | cons piece ps ih =>
    cases hitem : piece.item with
    | fault fault =>
      simp only [place, hitem] at h
      exact ih _ _ _ h
    | token kind =>
      simp only [place, hitem] at h
      cases i with
      | zero =>
        cases h
        rfl
      | succ i =>
        rw [ih _ _ _ h]
        omega

theorem index_of_lex {source : List Char} {ts : List Token} (h : lex source = .ok ts) {i : Nat}
    {t : Token} (ht : ts[i]? = some t) : t.index = i := by
  obtain ⟨-, rfl⟩ := lex_eq_place h
  simpa using index_of_place 0 0 _ i t ht

theorem map_matched_of_index {ts us : List Token}
    (hindex : ∀ (i : Nat) (t : Token), ts[i]? = some t → t.index = i)
    (hsame : ts.map Token.content = us.map Token.content) : ts.map (Token.matched us) = us := by
  have hlength : ts.length = us.length := by simpa using congrArg List.length hsame
  apply List.ext_getElem (by simpa using hlength)
  intro i hi hi'
  have ht : i < ts.length := by simpa using hi
  have hplace := hindex i ts[i] (List.getElem?_eq_getElem ht)
  have hcontent : us[i].content = ts[i].content := by
    have hat := List.getElem_of_eq hsame (by simpa using ht)
    simpa using hat.symm
  rw [List.getElem_map]
  apply Token.matched_of_get_elem _ hcontent
  rw [hplace, List.getElem?_eq_getElem hi']

theorem map_matched {source : List Char} {ts us : List Token} (h : lex source = .ok ts)
    (hsame : ts.map Token.content = us.map Token.content) : ts.map (Token.matched us) = us :=
  map_matched_of_index (fun _ _ => index_of_lex h) hsame

end Lexer

structure SameContents (source source' : String) (ts ts' : List Token) : Prop where
  left : tokenize source = .ok ts
  right : tokenize source' = .ok ts'
  contents : ts.map Token.content = ts'.map Token.content

theorem SameContents.symm {source source' : String} {ts ts' : List Token}
    (h : SameContents source source' ts ts') : SameContents source' source ts' ts :=
  ⟨h.right, h.left, h.contents.symm⟩

section Reading

variable {α : Type} {parser : List Token → Except ParseFault α} {derives : α → List Token → Prop}
  {relabel : (Token → Token) → α → α} {source source' : String} {ts ts' : List Token}

/-- A parser finds the derivations of a grammar that does not look at labels. -/
structure Labelless (parser : List Token → Except ParseFault α)
    (relabel : (Token → Token) → α → α) (derives : α → List Token → Prop) : Prop where
  parses : ∀ ts s, parser ts = .ok s ↔ derives s ts
  relabels : ∀ f, KeepsLexemes f → ∀ s ts, derives s ts → derives (relabel f s) (ts.map f)

/-- What is read from a source is read, with other labels, from every source of the same
contents. -/
theorem SameContents.read (h : SameContents source source' ts ts')
    (hparser : Labelless parser relabel derives) {s : α}
    (hread : readWith parser source = .ok s) :
    ∃ f, KeepsLexemes f ∧ readWith parser source' = .ok (relabel f s) := by
  obtain ⟨us, hlex, rfl⟩ := lex_of_tokenize h.left
  obtain ⟨us', hlex', rfl⟩ := lex_of_tokenize h.right
  have hcontents := h.contents
  rw [List.map_append, List.map_append] at hcontents
  obtain ⟨hsame, -⟩ := List.append_inj' hcontents rfl
  have hkeeps := Token.keeps_lexemes_matched us'
  refine ⟨Token.matched us', hkeeps, ?_⟩
  have hderives := (hparser.parses us s).mp ((read_with_eq_ok_iff h.left s).mp hread)
  have hother := hparser.relabels _ hkeeps s us hderives
  rw [Lexer.map_matched hlex hsame] at hother
  exact (read_with_eq_ok_iff h.right _).mpr ((hparser.parses us' _).mpr hother)

theorem SameContents.read_cases (h : SameContents source source' ts ts')
    (hparser : Labelless parser relabel derives) :
    (∃ problems problems', readWith parser source = .error problems ∧
        readWith parser source' = .error problems') ∨
      ∃ s f, KeepsLexemes f ∧ readWith parser source = .ok s ∧
        readWith parser source' = .ok (relabel f s) := by
  cases hread : readWith parser source with
  | ok s =>
    obtain ⟨f, hf, hread'⟩ := h.read hparser hread
    exact Or.inr ⟨s, f, hf, rfl, hread'⟩
  | error problems =>
    cases hread' : readWith parser source' with
    | error problems' => exact Or.inl ⟨problems, problems', rfl, rfl⟩
    | ok s' =>
      obtain ⟨f, -, hback⟩ := h.symm.read hparser hread'
      rw [hread] at hback
      cases hback

end Reading

theorem Insert.labelless : Labelless Parser.insert relabel Derives where
  parses := parse_eq_ok_iff
  relabels f hf s ts h := by
    have hgood := (s.well_formed_relabel hf).mpr h.wellFormed
    refine ⟨?_, hgood, alone_of_well_formed hgood, ?_⟩
    · rw [tokens_relabel, h.tokens]
    · rw [nesting_relabel]
      exact h.levels

theorem Update.labelless : Labelless Parser.update relabel Derives where
  parses := parse_eq_ok_iff
  relabels f hf s ts h := by
    have hgood := (s.well_formed_relabel hf).mpr h.wellFormed
    refine ⟨?_, hgood, alone_of_well_formed hgood, ?_⟩
    · rw [tokens_relabel, h.tokens]
    · rw [nesting_relabel]
      exact h.levels

section Replaying

variable {f : Token → Token} (hf : KeepsLexemes f) (source source' : List Char)

include hf

theorem check_calls_relabel (cs : List Call) (hcs : ∀ c ∈ cs, c.name.kind = .name) :
    Agree ReplayError.SameVariant (checkCalls source cs)
      (checkCalls source' (cs.map (Call.relabel f))) := by
  induction cs with
  | nil => exact .ok ()
  | cons c cs ih =>
    rw [List.forall_mem_cons] at hcs
    rw [List.map_cons, check_calls_cons, check_calls_cons, Call.is_supported_relabel hf hcs.1]
    split
    · exact ih hcs.2
    · exact .error rfl

variable (options : Options)

theorem InsertReplay.take_expression_relabel {e : Expression} (he : e.WellFormed)
    (r : InsertReplay) :
    Agree ReplayError.SameVariant (takeExpression options source r e)
      (takeExpression options source' r (e.relabel f)) := by
  have hcalls := check_calls_relabel hf source source' e.calls (e.name_of_mem_calls he)
  rw [takeExpression, takeExpression, e.calls_relabel, e.meaning_relabel hf _ he]
  exact hcalls.bind fun _ => Agree.refl .refl _

theorem InsertReplay.take_expressions_relabel (es : List Expression)
    (hes : ∀ e ∈ es, e.WellFormed) (r : InsertReplay) :
    Agree ReplayError.SameVariant (es.foldlM (takeExpression options source) r)
      ((es.map (Expression.relabel f)).foldlM (takeExpression options source') r) := by
  induction es generalizing r with
  | nil => exact .ok r
  | cons e es ih =>
    rw [List.forall_mem_cons] at hes
    rw [List.map_cons, List.foldlM_cons, List.foldlM_cons]
    exact (take_expression_relabel hf source source' options hes.1 r).bind (ih hes.2)

/-- The names, the values and the calls of a row are the same, so it is rebuilt alike. -/
theorem replay_insert_relabel {s : Insert} (hs : s.WellFormed)
    (hsource : ∀ t ∈ s.tokens, t.StandsIn source)
    (hsource' : ∀ t ∈ (s.relabel f).tokens, t.StandsIn source') :
    Agree ReplayError.SameVariant (replayInsert options (s.node.events source))
      (replayInsert options ((s.relabel f).node.events source')) := by
  cases s with
  | row s =>
    have hrow : ∀ e ∈ s.row.toList, e.WellFormed :=
      ((Expression.arguments_well_formed_iff s.row).mp hs.2.2.2.2.2.2.1).1
    have hnames := RowInsert.column_names_relabel hf hs
    have hvalues := Expression.to_list_relabel_arguments (f := f) s.row
    have htake := InsertReplay.take_expressions_relabel hf source source' options s.row.toList hrow
      ⟨.parsingValues, s.columnNames, [], OrderedMap.empty⟩
    rw [← hvalues, ← hnames] at htake
    show Agree _ (replayInsert options (s.node.events source))
      (replayInsert options ((s.relabel f).node.events source'))
    rw [InsertReplay.run_row_insert options source s hsource,
      InsertReplay.run_row_insert options source' (s.relabel f) hsource', ← hnames]
    exact htake.bind fun _ => Agree.refl .refl _
  | several insert word rest =>
    obtain ⟨text, htext⟩ := InsertReplay.run_several options source insert word rest
    obtain ⟨text', htext'⟩ :=
      InsertReplay.run_several options source' (f insert) (f word) (rest.map f)
    rw [Insert.relabel, htext, htext']
    exact .error rfl

end Replaying

section Reconstructing

variable (options : Options) {source source' : String} {ts ts' : List Token}

theorem reconstruct_insert_same_contents (h : SameContents source source' ts ts') :
    Agree Failure.SameVariant (reconstructInsert options source)
      (reconstructInsert options source') := by
  rcases h.read_cases Insert.labelless with
    ⟨problems, problems', hread, hread'⟩ | ⟨s, f, hf, hread, hread'⟩
  · simp only [reconstructInsert, parseInsert, Insert.read, hread, hread']
    exact .error trivial
  · have hreplay := replay_insert_relabel hf source.toList source'.toList options
      (Insert.read_eq_ok hread).2.1 (Insert.stands_in_of_read hread)
      (Insert.stands_in_of_read hread')
    simp only [reconstructInsert, parse_insert_eq_ok hread, parse_insert_eq_ok hread',
      insertColumns, ParseTree.events_eq]
    rcases hreplay.cases with ⟨r, hr, hr'⟩ | ⟨e, e', he, he', hsame⟩
    · rw [hr, hr']
      exact .ok r.columns
    · rw [he, he']
      exact .error hsame

theorem reconstruct_update_same_contents (h : SameContents source source' ts ts') :
    Agree Failure.SameVariant (reconstructUpdate options source)
      (reconstructUpdate options source') := by
  rcases h.read_cases Update.labelless with
    ⟨problems, problems', hread, hread'⟩ | ⟨s, f, hf, hread, hread'⟩
  · simp only [reconstructUpdate, parseUpdate, Update.read, hread, hread']
    exact .error trivial
  · have hs := (Update.read_eq_ok hread).2.1
    have hnames : ∀ c ∈ s.setCalls, c.name.kind = .name := by
      intro c hc
      obtain ⟨a, ha, hca⟩ := List.mem_flatMap.mp hc
      exact a.value.name_of_mem_calls (hs.assignment ha).2.2 c hca
    have hcalls := check_calls_relabel hf source.toList source'.toList s.setCalls hnames
    rw [← Update.set_calls_relabel] at hcalls
    rw [reconstruct_update_eq options source s hread,
      reconstruct_update_eq options source' (s.relabel f) hread',
      Update.meaning_relabel hf options hs]
    rcases hcalls.cases with ⟨_, hok, hok'⟩ | ⟨e, e', he, he', hsame⟩
    · rw [hok, hok']
      exact .ok _
    · rw [he, he']
      exact .error hsame

end Reconstructing

/-- Sources whose tokens are of the same kinds, with the same texts where names, texts and numbers
stand, are rebuilt to the same columns in the same order, or both fail, with errors of one
variant. -/
theorem reconstruct_same_contents (kind : StatementKind) (options : Options)
    (source source' : String) (ts ts' : List Token) (h : tokenize source = .ok ts)
    (h' : tokenize source' = .ok ts') (hcontents : ts.map Token.content = ts'.map Token.content) :
    (∃ columns, reconstruct kind options source = .ok columns ∧
        reconstruct kind options source' = .ok columns) ∨
      ∃ e e', reconstruct kind options source = .error e ∧
        reconstruct kind options source' = .error e' ∧ e.SameVariant e' := by
  have hagree : Agree Failure.SameVariant (reconstruct kind options source)
      (reconstruct kind options source') := by
    cases kind with
    | insert => exact reconstruct_insert_same_contents options ⟨h, h', hcontents⟩
    | update => exact reconstruct_update_same_contents options ⟨h, h', hcontents⟩
  exact hagree.cases

def spacedUpdate : String :=
  "update T set a = - /* below\nzero */ 1 ,b = to_date( 'x' )\n-- where\nwhere c != Null ;"

def tightUpdate : String :=
  "UPDATE T SET a=-1,b=to_date('x')WHERE c<>NULL;"

theorem reconstruct_spaced_update :
    ∃ columns, reconstruct .update defaultOptions spacedUpdate = .ok columns ∧
      reconstruct .update defaultOptions tightUpdate = .ok columns ∧
      columns.entries = [("th2_a", .integer (-1)), ("th2_b", .call "TO_DATE" [.text "x"])] := by
  have hlength : (tokenize tightUpdate).toOption.map List.length = some 20 := by decide +kernel
  have hcontents : (tokenize spacedUpdate).toOption.map (fun ts => ts.map Token.content) =
      (tokenize tightUpdate).toOption.map (fun ts => ts.map Token.content) := by
    decide +kernel
  have hentries : (reconstruct .update defaultOptions tightUpdate).toOption.map (·.entries) =
      some [("th2_a", .integer (-1)), ("th2_b", .call "TO_DATE" [.text "x"])] := by
    decide +kernel
  obtain ⟨ts', hts', -⟩ := ok_of_to_option_map hlength
  rw [hts'] at hcontents
  obtain ⟨ts, hts, hsame⟩ := ok_of_to_option_map hcontents
  obtain ⟨columns, hcolumns, hvalues⟩ := ok_of_to_option_map hentries
  rcases reconstruct_same_contents .update defaultOptions spacedUpdate tightUpdate ts ts' hts hts'
    hsame with ⟨columns', hspaced, htight⟩ | ⟨e, e', -, htight, -⟩
  · obtain rfl := Except.ok.inj (hcolumns.symm.trans htight)
    exact ⟨columns, hspaced, hcolumns, hvalues⟩
  · rw [hcolumns] at htight
    cases htight

end RedoLog
