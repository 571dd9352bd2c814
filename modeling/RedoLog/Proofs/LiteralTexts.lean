import RedoLog.Proofs.LongerClauses
import RedoLog.Proofs.TokenTexts

/-!
# Texts of literals

The text of a token says which literal or quoted name it is. A text between quotes is one token that
holds what was quoted, and every such token is one text between quotes, so quoting and unquoting are
inverse to each other, with quotes at any place and in any number.
-/

set_option autoImplicit false

namespace RedoLog

inductive LiteralText : TokenKind → List Char → Prop where
  | number {cs : List Char} (hstarts : Lexer.startsNumber cs = true)
      (hsplit : Lexer.splitNumber cs = (cs, [])) : LiteralText .number cs
  | text (content : List Char) : LiteralText .text (Text.quoted '\'' content)
  | quotedName (content : List Char) : LiteralText .quotedName (Text.quoted '"' content)

def TokenKind.isLiteral : TokenKind → Bool
  | .number => true
  | .text => true
  | .quotedName => true
  | _ => false

namespace Lexer

theorem split_quoted_eq_some {quote : Char} {cs text rest : List Char}
    (h : splitQuoted? quote cs = some (text, rest)) :
    ∃ content, text = Text.doubleQuotes quote content ++ [quote] := by
  fun_induction splitQuoted? quote cs generalizing text with
  | case1 => cases h
  | case2 =>
    obtain ⟨rfl, -⟩ := Prod.mk.inj (Option.some.inj h)
    exact ⟨[], rfl⟩
  | case3 => cases h
  | case4 cs ih =>
    obtain ⟨⟨text', rest'⟩, hsplit, hcons⟩ := Option.map_eq_some_iff.mp h
    obtain ⟨rfl, rfl⟩ := Prod.mk.inj hcons
    obtain ⟨content, rfl⟩ := ih hsplit
    exact ⟨quote :: content, by simp [Text.doubleQuotes]⟩
  | case5 =>
    obtain ⟨rfl, -⟩ := Prod.mk.inj (Option.some.inj h)
    exact ⟨[], rfl⟩
  | case6 c d cs hc ih =>
    obtain ⟨⟨text', rest'⟩, hsplit, hcons⟩ := Option.map_eq_some_iff.mp h
    obtain ⟨rfl, rfl⟩ := Prod.mk.inj hcons
    obtain ⟨content, rfl⟩ := ih hsplit
    exact ⟨c :: content, by simp [Text.doubleQuotes, hc]⟩

theorem scan_quoted_eq_token {quote : Char} {kind kind' : TokenKind} {fault : LexFault}
    {cs text rest : List Char}
    (h : scanQuoted quote kind fault cs = ⟨.token kind', text, rest⟩) :
    kind' = kind ∧ ∃ content, text = Text.quoted quote content := by
  unfold scanQuoted at h
  split at h
  · rename_i found hsplit
    obtain ⟨content, hcontent⟩ := split_quoted_eq_some hsplit
    simp only [Scan.mk.injEq, Item.token.injEq] at h
    exact ⟨h.1.symm, content, by rw [← h.2.1, hcontent, Text.quoted]⟩
  · cases h

theorem not_is_literal_of_word (cs : List Char) : (TokenKind.ofWord cs).isLiteral = false := by
  have hall : ∀ kind ∈ .name :: TokenKind.words.map Prod.snd,
      TokenKind.isLiteral kind = false := by decide
  exact hall _ (TokenKind.of_word_mem cs)

theorem not_is_literal_symbol {cs : List Char} {kind : TokenKind} {size : Nat}
    (h : symbol? cs = some (kind, size)) : kind.isLiteral = false := by
  unfold symbol? at h
  split at h <;> cases h <;> rfl

theorem literal_text_of_scan {c : Char} {text : List Char} {kind : TokenKind}
    (h : scan c text = ⟨.token kind, c :: text, []⟩) (hkind : kind.isLiteral = true) :
    LiteralText kind (c :: text) := by
  by_cases hnumber : startsNumber (c :: text) = true
  · rw [scan_number hnumber] at h
    simp only [Scan.mk.injEq, Item.token.injEq] at h
    obtain ⟨rfl, htext, hrest⟩ := h
    exact .number hnumber (Prod.ext htext hrest)
  by_cases htext : c = '\''
  · subst htext
    rw [scan_text] at h
    obtain ⟨rfl, content, hcontent⟩ := scan_quoted_eq_token h
    rw [hcontent]
    exact .text content
  by_cases hname : c = '"'
  · subst hname
    rw [scan_quoted_name] at h
    obtain ⟨rfl, content, hcontent⟩ := scan_quoted_eq_token h
    rw [hcontent]
    exact .quotedName content
  -- Neither a word nor a symbol is a literal.
  by_cases hword : startsWord c = true
  · rw [scan_word hword] at h
    simp only [Scan.mk.injEq, Item.token.injEq] at h
    rw [← h.1, not_is_literal_of_word] at hkind
    cases hkind
  · simp only [scan, hnumber, htext, hname, hword, Bool.false_eq_true, if_false] at h
    split at h
    · rename_i hsymbol
      simp only [Scan.mk.injEq, Item.token.injEq] at h
      rw [← h.1, not_is_literal_symbol hsymbol] at hkind
      cases hkind
    · cases h

theorem literal_text_of_lex {source : List Char} {ts : List Token} (h : lex source = .ok ts)
    {t : Token} (ht : t ∈ ts) (hkind : t.kind.isLiteral = true) :
    LiteralText t.kind t.text.toList := by
  obtain ⟨c, text, rest, htext, -, hscan⟩ := scan_of_lex h ht
  have halone := scan_fades (.ended rest) hscan
  rw [List.append_nil] at halone
  rw [htext, String.toList_ofList]
  exact literal_text_of_scan halone hkind

/-- A source that is scanned as one token is cut into this token alone. -/
theorem tokenize_one {c : Char} {text : List Char} {kind : TokenKind}
    (hgap : splitGap .between (c :: text) = ([], c :: text))
    (hscan : scan c text = ⟨.token kind, c :: text, []⟩) :
    tokenize (String.ofList (c :: text)) =
      .ok [⟨kind, 0, 0, String.ofList (c :: text)⟩, endToken (c :: text) 1] := by
  have hempty : allPieces [] = [] := rfl
  have hpieces : allPieces (c :: text) = [⟨[], .token kind, c :: text⟩] := by
    rw [all_pieces_of_token hgap, hscan, hempty]
  have hlex : lex (c :: text) = .ok [⟨kind, 0, 0, String.ofList (c :: text)⟩] := by
    rw [lex_of_tokens (by simp [hpieces]), hpieces]
    rfl
  rw [tokenize, String.toList_ofList, hlex]
  rfl

end Lexer

theorem tokenize_write_name (name : String) :
    tokenize (String.ofList (writeName name)) =
      .ok [⟨.quotedName, 0, 0, String.ofList (writeName name)⟩,
        Lexer.endToken (writeName name) 1] := by
  have hend : ([] : List Char).head? ≠ some '"' := by simp
  have hscan := Lexer.scan_quoted_quoted '"' .quotedName .openName name.toList hend
  rw [← Lexer.scan_quoted_name] at hscan
  exact Lexer.tokenize_one (Lexer.split_gap_cons (by decide) (by decide) _) hscan

theorem tokenize_quoted_text (content : List Char) :
    tokenize (String.ofList (Text.quoted '\'' content)) =
      .ok [⟨.text, 0, 0, String.ofList (Text.quoted '\'' content)⟩,
        Lexer.endToken (Text.quoted '\'' content) 1] := by
  have hend : ([] : List Char).head? ≠ some '\'' := by simp
  have hscan := Lexer.scan_quoted_quoted '\'' .text .openText content hend
  rw [← Lexer.scan_text] at hscan
  exact Lexer.tokenize_one (Lexer.split_gap_cons (by decide) (by decide) _) hscan

theorem unquote_text_quoted (content : List Char) :
    unquoteText (String.ofList (Text.quoted '\'' content)) = String.ofList content := by
  rw [unquoteText, String.toList_ofList, Text.strip_quotes_quoted, Text.fold_quotes_double_quotes]

/-- A text between quotes is the one token of a source, which holds this text. A token of any source
that is a quoted text is what it holds between quotes. -/
theorem quoted_texts_biject :
    (∀ s : String,
      tokenize (String.ofList (Text.quoted '\'' s.toList)) =
          .ok [⟨.text, 0, 0, String.ofList (Text.quoted '\'' s.toList)⟩,
            Lexer.endToken (Text.quoted '\'' s.toList) 1] ∧
        unquoteText (String.ofList (Text.quoted '\'' s.toList)) = s) ∧
      ∀ (source : String) (ts : List Token), tokenize source = .ok ts →
        ∀ t ∈ ts, t.kind = .text →
          String.ofList (Text.quoted '\'' (unquoteText t.text).toList) = t.text := by
  constructor
  · intro s
    exact ⟨tokenize_quoted_text s.toList, by rw [unquote_text_quoted, String.ofList_toList]⟩
  · intro source ts h t ht hkind
    obtain ⟨tokens, hlex, rfl⟩ := lex_of_tokenize h
    rcases List.mem_append.mp ht with ht | ht
    · have hliteral := Lexer.literal_text_of_lex hlex ht (by rw [hkind]; rfl)
      rw [hkind] at hliteral
      generalize htext : t.text.toList = cs at hliteral
      cases hliteral with
      | text content =>
        have hwhole : t.text = String.ofList (Text.quoted '\'' content) := by
          rw [← htext, String.ofList_toList]
        rw [hwhole, unquote_text_quoted, String.toList_ofList]
    · obtain rfl := List.mem_singleton.mp ht
      cases hkind

def quotedSource : String :=
  "''''-- '\n'''ü''''''''x'''"

theorem quoted_texts_quoted_source :
    ∃ ts, tokenize quotedSource = .ok ts ∧
      ts.map (fun t => unquoteText t.text) = ["'", "'ü''''x'", ""] ∧
      ∃ t ∈ ts, t.kind = .text ∧ t.text = "'''ü''''''''x'''" ∧
        String.ofList (Text.quoted '\'' (unquoteText t.text).toList) = t.text := by
  have hcontents : (tokenize quotedSource).toOption.map id =
      some [⟨.text, 0, 0, "''''"⟩, ⟨.text, 1, 9, "'''ü''''''''x'''"⟩, ⟨.endOfText, 2, 26, ""⟩] := by
    decide +kernel
  obtain ⟨ts, hts, rfl⟩ := ok_of_to_option_map hcontents
  refine ⟨_, hts, by decide +kernel, ⟨.text, 1, 9, "'''ü''''''''x'''"⟩, by simp, rfl, rfl, ?_⟩
  exact quoted_texts_biject.2 quotedSource _ hts _ (by simp) rfl

end RedoLog
