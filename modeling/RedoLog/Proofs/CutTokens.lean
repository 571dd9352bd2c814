import RedoLog.Proofs.CutPieces
import RedoLog.Proofs.WhereSearch

/-!
# Tokens of a cut text

The tokens of a text that is cut at WHERE, beside those of the whole text, when both consist of
tokens. They are the same up to the cut, places included. In a comment nothing is put behind them,
not even the semicolon. A cut in a word leaves the part of the word before it as a token.
-/

set_option autoImplicit false

namespace RedoLog.Lexer

theorem faults_eq_nil (offset : Nat) (ps : List Piece) :
    faults offset ps = [] ↔ ∀ p ∈ ps, ∃ kind, p.item = .token kind := by
  induction ps generalizing offset with
  | nil => simp [faults]
  | cons p ps ih =>
    cases hitem : p.item with
    | token kind => simp [faults, hitem, ih]
    | fault fault => simp [faults, hitem]

theorem place_append (offset index : Nat) (ps qs : List Piece)
    (hps : ∀ p ∈ ps, ∃ kind, p.item = .token kind) :
    place offset index (ps ++ qs) = place offset index ps ++
      place (offset + Text.byteLength (spelled ps)) (index + ps.length) qs := by
  induction ps generalizing offset index with
  | nil => simp [place, spelled, Text.byteLength]
  | cons p ps ih =>
    rw [List.forall_mem_cons] at hps
    obtain ⟨⟨kind, hitem⟩, hrest⟩ := hps
    simp only [List.cons_append, place, hitem, ih _ _ hrest, spelled, Text.byte_length_append,
      List.length_cons]
    congr 3 <;> omega

theorem bounds_of_mem_place (offset index : Nat) (ps : List Piece) :
    ∀ t ∈ place offset index ps,
      offset ≤ t.start ∧ t.stop ≤ offset + Text.byteLength (spelled ps) := by
  induction ps generalizing offset index with
  | nil => simp [place]
  | cons p ps ih =>
    intro t ht
    simp only [spelled, Text.byte_length_append]
    cases hitem : p.item with
    | fault fault =>
      simp only [place, hitem] at ht
      have hbounds := ih _ _ t ht
      omega
    | token kind =>
      simp only [place, hitem, List.mem_cons] at ht
      rcases ht with rfl | ht
      · simp only [Token.stop, String.toList_ofList]
        omega
      · have hbounds := ih _ _ t ht
        omega

theorem start_of_mem_place (offset index : Nat) (ps : List Piece) :
    ∀ t ∈ place offset index ps, ∃ p ∈ ps.head?, offset + Text.byteLength p.gap ≤ t.start := by
  cases ps with
  | nil => simp [place]
  | cons p ps =>
    intro t ht
    refine ⟨p, rfl, ?_⟩
    cases hitem : p.item with
    | fault fault =>
      simp only [place, hitem] at ht
      have hbounds := bounds_of_mem_place _ _ ps t ht
      omega
    | token kind =>
      simp only [place, hitem, List.mem_cons] at ht
      rcases ht with rfl | ht
      · exact Nat.le_refl _
      · have hbounds := bounds_of_mem_place _ _ ps t ht
        omega

theorem lex_eq_place {source : List Char} {ts : List Token} (h : lex source = .ok ts) :
    (∀ p ∈ allPieces source, ∃ kind, p.item = .token kind) ∧ ts = place 0 0 (allPieces source) := by
  obtain ⟨hfaults, hts⟩ := lex_eq_ok h
  exact ⟨(faults_eq_nil 0 _).mp hfaults, hts⟩

theorem lex_of_tokens {source : List Char}
    (h : ∀ p ∈ allPieces source, ∃ kind, p.item = .token kind) :
    lex source = .ok (place 0 0 (allPieces source)) := by
  have hfaults : faults 0 (pieces source.length source).1 = [] := (faults_eq_nil 0 _).mpr h
  simp only [lex, hfaults]
  rfl

theorem stop_le_of_lex {source : List Char} {ts : List Token} (h : lex source = .ok ts) :
    ∀ t ∈ ts, t.stop ≤ Text.byteLength source := by
  obtain ⟨-, rfl⟩ := lex_eq_place h
  intro t ht
  have hbounds := bounds_of_mem_place 0 0 (allPieces source) t ht
  have hlength := congrArg Text.byteLength (spelled_pieces source.length source (Nat.le_refl _))
  rw [Text.byte_length_append] at hlength
  rw [allPieces] at hbounds
  omega

/-- The tokens of a text that is cut at an offset and ended by a semicolon, beside those of the
whole text, in which the given text comes behind the cut. -/
inductive CutTokens (offset : Nat) (tail : List Char) : List Token → List Token → Prop where
  | comment (front behind : List Token) (hfront : ∀ t ∈ front, t.stop ≤ offset)
      (hbehind : ∀ t ∈ behind, offset < t.start) : CutTokens offset tail front (front ++ behind)
  | between (front : List Token) (semicolon word : Token) (behind : List Token)
      (hfront : ∀ t ∈ front, t.stop ≤ offset) (hsemicolon : semicolon.kind = .semicolon)
      (hword : ∃ cs, word.kind = TokenKind.ofWord cs) :
      CutTokens offset tail (front ++ [semicolon]) (front ++ word :: behind)
  | word (front : List Token) (part semicolon word : Token) (behind : List Token)
      (hfront : ∀ t ∈ front, t.stop ≤ offset) (hsemicolon : semicolon.kind = .semicolon)
      (hpart : ∃ cs, part.kind = TokenKind.ofWord cs)
      (hword : word.kind = TokenKind.ofWord word.text.toList)
      (htext : ∃ c cs, word.text.toList = c :: (cs ++ tail.takeWhile continuesWord)) :
      CutTokens offset tail (front ++ [part, semicolon]) (front ++ word :: behind)

theorem cut_tokens {before : List Char} {x : Char} {xs : List Char} (hx : x = 'W' ∨ x = 'w')
    {cut whole : List Token} (hcut : lex (before ++ [';']) = .ok cut)
    (hwhole : lex (before ++ x :: xs) = .ok whole) :
    CutTokens (Text.byteLength before) (x :: xs) cut whole := by
  obtain ⟨htokens, rfl⟩ := lex_eq_place hcut
  obtain ⟨-, rfl⟩ := lex_eq_place hwhole
  have hpieces := cut_pieces before x xs hx
  generalize allPieces (before ++ [';']) = cut at hpieces htokens
  generalize allPieces (before ++ x :: xs) = whole at hpieces
  cases hpieces with
  | faulty piece fault hpiece hfault =>
    obtain ⟨kind, hkind⟩ := htokens piece hpiece
    rw [hfault] at hkind
    cases hkind
  | comment front behind hfront hbehind =>
    rw [place_append 0 0 cut behind htokens]
    apply CutTokens.comment
    · intro t ht
      have hbounds := bounds_of_mem_place 0 0 cut t ht
      omega
    · intro t ht
      obtain ⟨p, hp, hstart⟩ := start_of_mem_place _ _ behind t ht
      have hgap := hbehind p hp
      rw [Text.byte_length_append] at hgap
      omega
  | between front gap word behind hbefore =>
    have hfront : ∀ p ∈ front, ∃ kind, p.item = .token kind :=
      fun p hp => htokens p (List.mem_append_left _ hp)
    rw [place_append 0 0 front _ hfront, place_append 0 0 front _ hfront]
    apply CutTokens.between
    · intro t ht
      have hbounds := bounds_of_mem_place 0 0 front t ht
      rw [hbefore, Text.byte_length_append]
      omega
    · rfl
    · exact ⟨word, rfl⟩
  | word front gap c cs behind hopen hbefore =>
    have hfront : ∀ p ∈ front, ∃ kind, p.item = .token kind :=
      fun p hp => htokens p (List.mem_append_left _ hp)
    rw [place_append 0 0 front _ hfront, place_append 0 0 front _ hfront]
    apply CutTokens.word
    · intro t ht
      have hbounds := bounds_of_mem_place 0 0 front t ht
      rw [hbefore, Text.byte_length_append]
      omega
    · rfl
    · exact ⟨c :: cs, rfl⟩
    · simp
    · exact ⟨c, cs, by simp⟩

end RedoLog.Lexer
