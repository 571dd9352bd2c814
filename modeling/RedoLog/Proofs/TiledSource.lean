import RedoLog.Proofs.Layout
import RedoLog.Proofs.LongerClauses
import RedoLog.Proofs.TokenTexts

/-!
# Tokens and gaps are the whole source

From the start of a source to its end, gaps and tokens take turns. No two tokens overlap, and what
stands between them is blank or a comment. Only the end token is empty.
-/

set_option autoImplicit false

namespace RedoLog

def Tiles (source : List Char) : Nat → List Token → Prop
  | offset, [] => offset = Text.byteLength source
  | offset, t :: ts =>
    (∃ gap, Text.slice? offset t.start source = some gap ∧
        if ts = [] then Lexer.IsLastGap gap else Lexer.IsGap gap) ∧
      t.StandsIn source ∧ Tiles source t.stop ts

theorem Text.le_of_slice {start stop : Nat} {cs ds : List Char}
    (h : slice? start stop cs = some ds) : start ≤ stop := by
  unfold slice? at h
  split at h
  · assumption
  · cases h

theorem Tiles.start_ge {source : List Char} {offset : Nat} {ts : List Token}
    (h : Tiles source offset ts) : ∀ t ∈ ts, offset ≤ t.start := by
  induction ts generalizing offset with
  | nil => simp
  | cons t ts ih =>
    obtain ⟨⟨gap, hgap, -⟩, -, hmore⟩ := h
    have hfirst := Text.le_of_slice hgap
    have hstop : t.start ≤ t.stop := Nat.le_add_right _ _
    intro u hu
    rcases List.mem_cons.mp hu with rfl | hu
    · exact hfirst
    · have hrest := ih hmore u hu
      omega

theorem Tiles.ordered {source : List Char} {offset : Nat} {ts : List Token}
    (h : Tiles source offset ts) : ts.Pairwise fun t u => t.stop ≤ u.start := by
  induction ts generalizing offset with
  | nil => exact .nil
  | cons t ts ih => exact .cons h.2.2.start_ge (ih h.2.2)

namespace Lexer

theorem gaps_of_pieces (fuel : Nat) (cs : List Char) (h : cs.length ≤ fuel) :
    (∀ p ∈ (pieces fuel cs).1, IsGap p.gap) ∧ IsLastGap (pieces fuel cs).2 := by
  induction fuel generalizing cs with
  | zero =>
    obtain rfl : cs = [] := List.length_eq_zero_iff.mp (Nat.le_zero.mp h)
    exact ⟨by simp [pieces, splitGap], .stop (Or.inl rfl)⟩
  | succ fuel ih =>
    cases hsplit : splitGap .between cs with
    | mk gap rest =>
      cases rest with
      | nil =>
        rw [pieces_of_gap _ hsplit]
        exact ⟨by simp, is_last_gap_of_split_gap hsplit⟩
      | cons c rest =>
        have hlength := rest_length_lt hsplit
        obtain ⟨hgaps, hlast⟩ := ih (scan c rest).rest (by omega)
        rw [pieces_of_token _ hsplit]
        exact ⟨List.forall_mem_cons.mpr ⟨is_gap_of_split_gap hsplit, hgaps⟩, hlast⟩

theorem tiles_end (before last : List Char) (count : Nat) (hlast : IsLastGap last) :
    Tiles (before ++ last) (Text.byteLength before) [endToken (before ++ last) count] := by
  have hgap := Text.slice_byte_length before last []
  have hend := Text.slice_byte_length (before ++ last) [] []
  rw [List.append_nil, ← Text.byte_length_append] at hgap
  rw [List.append_nil, List.append_nil] at hend
  exact ⟨⟨last, hgap, hlast⟩, hend, rfl⟩

theorem tiles_place (before last : List Char) (index count : Nat) (ps : List Piece)
    (hps : ∀ p ∈ ps, ∃ kind, p.item = .token kind) (hgaps : ∀ p ∈ ps, IsGap p.gap)
    (hlast : IsLastGap last) {source : List Char}
    (hsource : before ++ (spelled ps ++ last) = source) :
    Tiles source (Text.byteLength before)
      (place (Text.byteLength before) index ps ++ [endToken source count]) := by
  induction ps generalizing before index with
  | nil =>
    subst hsource
    exact tiles_end before last count hlast
  | cons p ps ih =>
    rw [List.forall_mem_cons] at hps hgaps
    obtain ⟨⟨kind, hitem⟩, hps⟩ := hps
    have hmore := ih (before ++ (p.gap ++ p.text)) (index + 1) hps hgaps.2
      (by simpa [spelled] using hsource)
    have hgap := Text.slice_byte_length before p.gap (p.text ++ (spelled ps ++ last))
    have htext := Text.slice_byte_length (before ++ p.gap) p.text (spelled ps ++ last)
    have hshape : before ++ p.gap ++ (p.text ++ (spelled ps ++ last)) = source := by
      simpa [spelled] using hsource
    rw [← List.append_assoc, hshape] at hgap
    rw [hshape] at htext
    simp only [Text.byte_length_append, ← Nat.add_assoc] at hmore htext
    simp only [place, hitem, List.cons_append]
    refine ⟨⟨p.gap, hgap, ?_⟩, ?_, ?_⟩
    · rw [if_neg (by simp)]
      exact hgaps.1
    · simpa [Token.StandsIn, Token.stop] using htext
    · simpa [Token.stop] using hmore

theorem kind_of_scan {c : Char} {cs text rest : List Char} {kind : TokenKind}
    (h : scan c cs = ⟨.token kind, text, rest⟩) : kind ≠ .endOfText := by
  rintro rfl
  unfold scan at h
  split_ifs at h
  · simp at h
  · unfold scanQuoted at h
    split at h <;> simp at h
  · unfold scanQuoted at h
    split at h <;> simp at h
  · have hmem := TokenKind.of_word_mem (c :: cs.takeWhile continuesWord)
    simp only [Scan.mk.injEq, Item.token.injEq] at h
    rw [h.1] at hmem
    exact absurd hmem (by decide)
  · unfold symbol? at h
    split at h
    · rename_i kind size hsymbol
      split at hsymbol <;> cases hsymbol <;> cases h
    · cases h

theorem StandsAlone.tokenize {t : Token} (h : StandsAlone t.lexeme) :
    ∃ alone, RedoLog.tokenize t.text = .ok alone ∧
      alone.map Token.kind = [t.kind, .endOfText] := by
  have hscans := h [] (by simp)
  rw [List.append_nil] at hscans
  obtain ⟨us, hlex, hlexemes⟩ := hscans.lex
  have hkinds := congrArg (List.map Prod.fst) hlexemes
  rw [List.map_map] at hkinds
  refine ⟨us ++ [endToken t.text.toList us.length], ?_, ?_⟩
  · rw [RedoLog.tokenize, show lex t.text.toList = _ from hlex]
    rfl
  · rw [List.map_append, show us.map Token.kind = [t.kind] from hkinds]
    rfl

end Lexer

theorem index_of_tokenize {source : String} {ts : List Token} (h : tokenize source = .ok ts)
    {i : Nat} {t : Token} (ht : ts[i]? = some t) : t.index = i := by
  obtain ⟨tokens, hlex, rfl⟩ := lex_of_tokenize h
  rcases Nat.lt_or_ge i tokens.length with hi | hi
  · rw [List.getElem?_append_left hi] at ht
    exact Lexer.index_of_lex hlex ht
  · rw [List.getElem?_append_right hi] at ht
    cases hsub : i - tokens.length with
    | succ n => simp [hsub] at ht
    | zero =>
      rw [hsub] at ht
      cases ht
      exact Nat.le_antisymm hi (Nat.sub_eq_zero_iff_le.mp hsub)

theorem tiles_of_tokenize {source : String} {ts : List Token} (h : tokenize source = .ok ts) :
    Tiles source.toList 0 ts := by
  obtain ⟨tokens, hlex, rfl⟩ := lex_of_tokenize h
  obtain ⟨hpieces, htokens⟩ := Lexer.lex_eq_place hlex
  obtain ⟨hgaps, hlast⟩ := Lexer.gaps_of_pieces source.toList.length source.toList (Nat.le_refl _)
  have hspelled := Lexer.spelled_pieces source.toList.length source.toList (Nat.le_refl _)
  have htiles := Lexer.tiles_place [] _ 0 tokens.length _ hpieces hgaps hlast hspelled
  rwa [Text.byteLength, ← htokens] at htiles

/-- Where a source is cut into tokens, they and the gaps between them are all of it, in order and
apart from each other. Each but the end token has a text, and its text alone is cut into a token of
its kind. -/
theorem tokenize_tiles (source : String) (ts : List Token) (h : tokenize source = .ok ts) :
    ∃ tokens,
      ts = tokens ++ [⟨.endOfText, tokens.length, Text.byteLength source.toList, ""⟩] ∧
      Tiles source.toList 0 ts ∧
      (ts.Pairwise fun t u => t.stop ≤ u.start) ∧
      (∀ t ∈ ts, t.stop ≤ Text.byteLength source.toList) ∧
      (∀ (i : Nat) (t : Token), ts[i]? = some t → t.index = i) ∧
      ∀ t ∈ tokens, t.kind ≠ .endOfText ∧ t.text ≠ "" ∧
        ∃ alone, tokenize t.text = .ok alone ∧ alone.map Token.kind = [t.kind, .endOfText] := by
  have htiles := tiles_of_tokenize h
  obtain ⟨tokens, hlex, rfl⟩ := lex_of_tokenize h
  refine ⟨tokens, rfl, htiles, htiles.ordered, ?_, fun i t => index_of_tokenize h, ?_⟩
  · intro t ht
    rcases List.mem_append.mp ht with ht | ht
    · exact Lexer.stop_le_of_lex hlex t ht
    · obtain rfl := List.mem_singleton.mp ht
      exact Nat.le_refl _
  · intro t ht
    obtain ⟨c, text, rest, htext, -, hscan⟩ := Lexer.scan_of_lex hlex ht
    exact ⟨Lexer.kind_of_scan hscan, by simp [htext],
      (Lexer.stands_alone_of_lex hlex t ht).tokenize⟩

def commentedSource : String :=
  "/* ü */a='é''s'-- one\n<=1.5e3 /* two"

theorem tokenize_commented_source :
    ∃ ts, tokenize commentedSource = .ok ts ∧ Tiles commentedSource.toList 0 ts ∧
      ts.map (fun t => (t.kind, t.start, t.stop)) =
        [(.name, 8, 9), (.equals, 9, 10), (.text, 10, 17), (.lessEquals, 24, 26),
          (.number, 26, 31), (.endOfText, 38, 38)] := by
  have hspans : (tokenize commentedSource).toOption.map
      (fun ts => ts.map fun t => (t.kind, t.start, t.stop)) =
        some [(.name, 8, 9), (.equals, 9, 10), (.text, 10, 17), (.lessEquals, 24, 26),
          (.number, 26, 31), (.endOfText, 38, 38)] := by
    decide +kernel
  obtain ⟨ts, hts, hvalues⟩ := ok_of_to_option_map hspans
  obtain ⟨-, -, htiles, -⟩ := tokenize_tiles commentedSource ts hts
  exact ⟨ts, hts, htiles, hvalues⟩

end RedoLog
