import RedoLog.Proofs.Layout
import RedoLog.Proofs.ViablePrefixes

/-!
# Problems are reported in time

The tokens in front of a problem can be completed to a statement: behind them no token was read that
makes every continuation fail. Tokens written apart from each other are cut into tokens of the same
kinds and texts again, so a completion is found by writing it.
-/

set_option autoImplicit false

namespace RedoLog

def spaced (ts : List Token) : String :=
  String.intercalate " " (ts.map Token.text)

theorem spaced_congr {ts us : List Token} (h : ts.map Token.lexeme = us.map Token.lexeme) :
    spaced ts = spaced us := by
  have htexts := congrArg (List.map Prod.snd) h
  rw [List.map_map, List.map_map] at htexts
  exact congrArg (String.intercalate " ") htexts

namespace Lexer

theorem scans_spaced {ls : List (TokenKind × String)} (h : ∀ l ∈ ls, StandsAlone l) :
    Scans (String.intercalate " " (ls.map Prod.snd)).toList ls [] := by
  induction ls with
  | nil => exact .done []
  | cons l ls ih =>
    rw [List.forall_mem_cons] at h
    cases ls with
    | nil =>
      have hlast := h.1 [] (by simp)
      rwa [List.append_nil] at hlast
    | cons m ls =>
      rw [List.map_cons, List.map_cons, String.intercalate_cons_cons]
      have hmore := (ih h.2).blank (by simp)
      simpa using (h.1 _ (by simp)).append hmore

theorem lex_spaced {ts : List Token} (h : ∀ t ∈ ts, StandsAlone t.lexeme) :
    ∃ us, lex (spaced ts).toList = .ok us ∧ us.map Token.lexeme = ts.map Token.lexeme := by
  have hscans := scans_spaced (List.forall_mem_map.mpr h)
  rw [List.map_map] at hscans
  exact hscans.lex

/-- Tokens from the front of one source and from the end of another one, as many in front of each,
know their places. -/
theorem index_of_lexed_parts {source source' : List Char} {front rest front' w : List Token}
    (hlex : lex source = .ok (front ++ rest)) (hlex' : lex source' = .ok (front' ++ w))
    (hlength : front'.length = front.length) (i : Nat) (t : Token)
    (ht : (front ++ w)[i]? = some t) : t.index = i := by
  rcases Nat.lt_or_ge i front.length with hi | hi
  · apply index_of_lex hlex
    rw [List.getElem?_append_left hi] at ht ⊢
    exact ht
  · apply index_of_lex hlex'
    rw [List.getElem?_append_right hi] at ht
    rw [List.getElem?_append_right (hlength ▸ hi), hlength]
    exact ht

end Lexer

theorem Token.content_of_lexeme {ts us : List Token}
    (h : ts.map Token.lexeme = us.map Token.lexeme) :
    ts.map Token.content = us.map Token.content := by
  have hcontent : Token.content =
      (fun l => (l.1, if l.1.carriesText then some l.2 else none)) ∘ Token.lexeme := rfl
  rw [hcontent, ← List.map_map, h, List.map_map]

section Parsing

variable {α : Type} {parser : List Token → Except ParseFault α} {derives : α → List Token → Prop}
  {relabel : (Token → Token) → α → α} {tokens : α → List Token} {good : α → Prop}

/-- What can be completed is accepted with the completion written behind it. -/
theorem accepted_of_completes (hparser : Labelless parser relabel derives)
    (hgood : ∀ s, good s → derives s (tokens s)) {source : List Char} {front rest : List Token}
    (hlex : Lexer.lex source = .ok (front ++ rest))
    (hcompletes : Parser.Completes tokens good front) :
    ∃ w us s, Lexer.lex (spaced (front ++ w)).toList = .ok us ∧
      us.map Token.lexeme = (front ++ w).map Token.lexeme ∧ parser us = .ok s := by
  obtain ⟨ls, hls, hmade⟩ := hcompletes
  -- Any labels will do until the text is cut, which then gives the labels of the completion.
  obtain ⟨v, hv⟩ := Token.exists_of_lexemes ls
  have halone : ∀ t ∈ front ++ v, Lexer.StandsAlone t.lexeme := by
    rw [List.forall_mem_append]
    exact ⟨fun t ht => Lexer.stands_alone_of_lex hlex t (List.mem_append_left _ ht),
      fun t ht => hls _ (hv ▸ List.mem_map_of_mem ht)⟩
  obtain ⟨us, hus, hlexemes⟩ := Lexer.lex_spaced halone
  rw [List.map_append] at hlexemes
  obtain ⟨us', w, rfl, hfront, hw⟩ := List.map_eq_append_iff.mp hlexemes
  have hlength : us'.length = front.length := by simpa using congrArg List.length hfront
  have hsame : (front ++ w).map Token.lexeme = (us' ++ w).map Token.lexeme := by
    rw [List.map_append, List.map_append, hfront]
  have htexts : spaced (front ++ w) = spaced (front ++ v) :=
    spaced_congr (by rw [List.map_append, List.map_append, hw])
  obtain ⟨s, htokens, hs⟩ := hmade w (hw.trans hv)
  have hderives := hparser.relabels _ (Token.keeps_lexemes_matched (us' ++ w)) s _ (hgood s hs)
  rw [htokens, Lexer.map_matched_of_index (Lexer.index_of_lexed_parts hlex hus hlength)
    (Token.content_of_lexeme hsame)] at hderives
  exact ⟨w, us' ++ w, _, htexts ▸ hus, hsame.symm, (hparser.parses _ _).mpr hderives⟩

theorem start_of_fault (source : List Char) (front : List Token) (f : ParseFault) :
    ∃ t, (front ++ f.unread ++
        [Lexer.endToken source (front ++ f.unread).length])[front.length]? = some t ∧
      t.start = f.offset source := by
  rw [List.append_assoc, List.getElem?_append_right (Nat.le_refl _), Nat.sub_self]
  unfold ParseFault.offset
  cases f.unread with
  | nil => exact ⟨_, rfl, rfl⟩
  | cons t ts => exact ⟨t, rfl, rfl⟩

theorem message_of_too_deep {f : ParseFault} (h : f.complaint = .tooDeep) :
    f.message = "maximum nesting depth of 128 exceeded" := by
  rw [ParseFault.message, h]
  show "maximum nesting depth of " ++ toString maxLevels ++ " exceeded" = _
  decide +kernel

theorem read_with_prompt (hparser : Labelless parser relabel derives)
    (hgood : ∀ s, good s → derives s (tokens s))
    (hviable : ∀ ts, Parser.Viable tokens good ts (parser ts)) {source : String} {ts : List Token}
    {problems : List Problem} (h : tokenize source = .ok ts)
    (hread : readWith parser source = .error problems)
    (hdepth : problems.map Problem.message ≠ ["maximum nesting depth of 128 exceeded"]) :
    ∃ k t message, ts[k]? = some t ∧
      problems = [Problem.locate source.toList t.start message] ∧
      ∃ w us s, tokenize (spaced (ts.take k ++ w)) = .ok us ∧
        us.map Token.lexeme = (ts.take k ++ w).map Token.lexeme ++ [(.endOfText, "")] ∧
        readWith parser (spaced (ts.take k ++ w)) = .ok s := by
  obtain ⟨all, hlex, rfl⟩ := lex_of_tokenize h
  simp only [readWith, hlex] at hread
  cases hparse : parser all with
  | ok s => simp [hparse] at hread
  | error f =>
    rw [hparse] at hread
    obtain rfl := Except.error.inj hread
    have hdeep : f.complaint ≠ .tooDeep := fun hdeep =>
      hdepth (congrArg (fun message => [message]) (message_of_too_deep hdeep))
    obtain ⟨front, rfl, hfront⟩ := hviable all f hparse hdeep
    obtain ⟨t, ht, hstart⟩ := start_of_fault source.toList front f
    obtain ⟨w, us, s, hus, hlexemes, hs⟩ := accepted_of_completes hparser hgood hlex hfront
    have htake : (front ++ f.unread ++
        [Lexer.endToken source.toList (front ++ f.unread).length]).take front.length = front := by
      rw [List.append_assoc, List.take_left]
    refine ⟨front.length, t, f.message, ht, by rw [hstart]; rfl, ?_⟩
    rw [htake]
    have htokenize : tokenize (spaced (front ++ w)) =
        .ok (us ++ [Lexer.endToken (spaced (front ++ w)).toList us.length]) := by
      rw [tokenize, hus]
      rfl
    exact ⟨w, _, s, htokenize, by rw [List.map_append, hlexemes]; rfl,
      (read_with_eq_ok_iff htokenize s).mpr hs⟩

end Parsing

theorem Insert.derives_of_good {s : Insert} (hs : s.WellFormed ∧ s.nesting ≤ maxLevels) :
    s.Derives s.tokens :=
  ⟨rfl, hs.1, alone_of_well_formed hs.1, hs.2⟩

theorem Update.derives_of_good {s : Update} (hs : s.WellFormed ∧ s.nesting ≤ maxLevels) :
    s.Derives s.tokens :=
  ⟨rfl, hs.1, alone_of_well_formed hs.1, hs.2⟩

/-- A statement that fails for something else than its levels has one problem, at the start of a
token. The tokens in front of it can be completed: written with blanks between them, they and some
more tokens are accepted by the same parser. -/
theorem parse_prompt (parse : String → Except (List Problem) ParseTree)
    (hentry : parse = parseInsert ∨ parse = parseUpdate) (source : String) (ts : List Token)
    (problems : List Problem) (htokens : tokenize source = .ok ts)
    (hfails : parse source = .error problems)
    (hdepth : problems.map Problem.message ≠ ["maximum nesting depth of 128 exceeded"]) :
    ∃ k t message, ts[k]? = some t ∧
      problems = [Problem.locate source.toList t.start message] ∧
      ∃ w us tree, tokenize (spaced (ts.take k ++ w)) = .ok us ∧
        us.map Token.lexeme = (ts.take k ++ w).map Token.lexeme ++ [(.endOfText, "")] ∧
        parse (spaced (ts.take k ++ w)) = .ok tree := by
  rcases hentry with rfl | rfl
  · obtain ⟨k, t, message, ht, hproblems, w, us, s, hus, hlexemes, hs⟩ :=
      read_with_prompt Insert.labelless (fun _ => Insert.derives_of_good) Parser.viable_insert
        htokens (error_of_map hfails) hdepth
    exact ⟨k, t, message, ht, hproblems, w, us, _, hus, hlexemes, parse_insert_eq_ok hs⟩
  · obtain ⟨k, t, message, ht, hproblems, w, us, s, hus, hlexemes, hs⟩ :=
      read_with_prompt Update.labelless (fun _ => Update.derives_of_good) Parser.viable_update
        htokens (error_of_map hfails) hdepth
    exact ⟨k, t, message, ht, hproblems, w, us, _, hus, hlexemes, parse_update_eq_ok hs⟩

def signBeforeName : String :=
  "update t set a=f(1,g(-x))"

theorem parse_update_sign_before_name :
    ∃ ts problems, tokenize signBeforeName = .ok ts ∧
      parseUpdate signBeforeName = .error problems ∧
      problems = [⟨1, 21, "mismatched input '-' expecting value expression"⟩] ∧
      ∃ k t message, ts[k]? = some t ∧
        problems = [Problem.locate signBeforeName.toList t.start message] ∧
        ∃ w tree, parseUpdate (spaced (ts.take k ++ w)) = .ok tree := by
  have hlength : (tokenize signBeforeName).toOption.map List.length = some 16 := by
    decide +kernel
  have hfailure : failure? (parseUpdate signBeforeName) =
      some [⟨1, 21, "mismatched input '-' expecting value expression"⟩] := by
    decide +kernel
  obtain ⟨ts, hts, -⟩ := ok_of_to_option_map hlength
  have herror := error_of_failure hfailure
  obtain ⟨k, t, message, ht, hproblems, w, -, tree, -, -, htree⟩ :=
    parse_prompt parseUpdate (Or.inr rfl) signBeforeName ts _ hts herror (by decide)
  exact ⟨ts, _, hts, herror, rfl, k, t, message, ht, hproblems, w, tree, htree⟩

end RedoLog
