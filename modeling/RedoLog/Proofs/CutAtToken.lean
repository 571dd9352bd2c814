import RedoLog.Proofs.CutTokens

/-!
# A text that is cut where a token starts

Where a word starts at the cut, no comment, no quoted text and no other word is open there. So all
that stands before it is scanned as in the whole text, and the semicolon takes its place.
-/

set_option autoImplicit false

namespace RedoLog.Lexer

theorem split_quoted_behind {quote : Char} {cs text rest : List Char}
    (h : splitQuoted? quote cs = some (text, rest)) :
    rest.head? ≠ some quote ∧ ∀ behind : List Char, behind.head? ≠ some quote →
      splitQuoted? quote (text ++ behind) = some (text, behind) := by
  fun_induction splitQuoted? quote cs generalizing text rest with
  | case1 => cases h
  | case2 =>
    cases h
    refine ⟨by simp, ?_⟩
    intro behind hbehind
    cases behind with
    | nil => simp [splitQuoted?]
    | cons d ds =>
      have hd : d ≠ quote := by simpa using hbehind
      simp [splitQuoted?, hd]
  | case3 => cases h
  | case4 cs ih =>
    obtain ⟨⟨text', rest'⟩, hsplit, hcons⟩ := Option.map_eq_some_iff.mp h
    cases hcons
    obtain ⟨hrest, hbehind⟩ := ih hsplit
    refine ⟨hrest, fun behind hhead => ?_⟩
    simp [splitQuoted?, hbehind behind hhead]
  | case5 d cs hd =>
    cases h
    refine ⟨by simpa using hd, ?_⟩
    intro behind hbehind
    cases behind with
    | nil => simp [splitQuoted?]
    | cons e es =>
      have he : e ≠ quote := by simpa using hbehind
      simp [splitQuoted?, he]
  | case6 c d cs hc ih =>
    obtain ⟨⟨text', rest'⟩, hsplit, hcons⟩ := Option.map_eq_some_iff.mp h
    cases hcons
    obtain ⟨hrest, hbehind⟩ := ih hsplit
    refine ⟨hrest, fun behind hhead => ?_⟩
    obtain ⟨e, es, htext⟩ : ∃ e es, text' = e :: es := by
      cases text' with
      | nil =>
        have hnone := hbehind [] (by simp)
        simp [splitQuoted?] at hnone
      | cons e es => exact ⟨e, es, rfl⟩
    have hmore := hbehind behind hhead
    rw [htext, List.cons_append] at hmore
    simp [htext, splitQuoted?, hc, hmore]

theorem split_gap_cut {x : Char} (hx : Breaks x) (gap before xs : List Char)
    (h : splitGap .between (gap ++ (before ++ x :: xs)) = (gap, before ++ x :: xs)) :
    splitGap .between (gap ++ (before ++ [';'])) = (gap, before ++ [';']) := by
  have hsemicolon : Breaks ';' := Or.inl rfl
  rw [← List.append_assoc] at h ⊢
  rcases gap_stops_or_reaches .between (gap ++ before) with ⟨-, hstops⟩ | ⟨q, -, hreaches⟩
  · obtain ⟨hgap, hbehind⟩ := Prod.mk.inj ((hstops x xs hx).symm.trans h)
    have hrest := List.append_cancel_right hbehind
    rw [hstops ';' [] hsemicolon, hgap, hrest]
  · obtain ⟨hgap, hbehind⟩ := Prod.mk.inj ((hreaches x xs hx).symm.trans h)
    rw [List.append_assoc] at hgap
    obtain ⟨rfl, hempty⟩ := List.append_eq_nil_iff.mp (List.self_eq_append_right.mp hgap.symm)
    obtain rfl : q = .between :=
      Decidable.byContradiction fun hq => (split_gap_in_comment hq hx xs).1 hempty
    rw [hreaches ';' [] hsemicolon, split_gap_breaks hsemicolon, List.append_nil, List.append_nil]
    rfl

theorem scan_quoted_ends {quote : Char} (hquote : quote ≠ ';') {kind : TokenKind} {fault : LexFault}
    {x : Char} {cs xs rest : List Char}
    (h : (scanQuoted quote kind fault (cs ++ x :: xs)).rest = rest ++ x :: xs) :
    scanQuoted quote kind fault (cs ++ [';']) =
      ⟨(scanQuoted quote kind fault (cs ++ x :: xs)).item,
        (scanQuoted quote kind fault (cs ++ x :: xs)).text, rest ++ [';']⟩ := by
  unfold scanQuoted at h ⊢
  cases hsplit : splitQuoted? quote (cs ++ x :: xs) with
  | none => simp [hsplit] at h
  | some found =>
    obtain ⟨text, behind⟩ := found
    obtain rfl : behind = rest ++ x :: xs := by simpa [hsplit] using h
    obtain ⟨hhead, hbehind⟩ := split_quoted_behind hsplit
    have hcs : cs = text ++ rest := by
      have happend := split_quoted_append quote _ text _ hsplit
      rw [← List.append_assoc] at happend
      exact (List.append_cancel_right happend).symm
    have hhead' : (rest ++ [';']).head? ≠ some quote := by
      cases rest with
      | nil => simpa using hquote.symm
      | cons c cs => simpa using hhead
    simp [hcs, hbehind _ hhead']

theorem scan_ends {c x : Char} {cs xs rest : List Char} (hx : x = 'W' ∨ x = 'w')
    (h : (scan c (cs ++ x :: xs)).rest = rest ++ x :: xs) :
    scan c (cs ++ [';']) =
      ⟨(scan c (cs ++ x :: xs)).item, (scan c (cs ++ x :: xs)).text, rest ++ [';']⟩ := by
  by_cases htext : c = '\''
  · subst htext
    simp only [scan_text] at h ⊢
    exact scan_quoted_ends (by decide) h
  by_cases hname : c = '"'
  · subst hname
    simp only [scan_quoted_name] at h ⊢
    exact scan_quoted_ends (by decide) h
  have hword : ¬OpenWord c cs := by
    -- An open word takes the letter at the cut.
    intro hopen
    have hcontinues : continuesWord x = true := by rcases hx with rfl | rfl <;> decide
    have hlength := congrArg List.length h
    have hdropped := (xs.dropWhile_suffix continuesWord).length_le
    rw [scan_open_word hopen] at hlength
    simp only [List.dropWhile_cons, hcontinues, if_true, List.length_append,
      List.length_cons] at hlength
    omega
  have hwhole := scan_cut_unquoted htext hname (Or.inr hx) xs cs (Or.inr hword)
  have hcut := scan_cut_unquoted htext hname (x := ';') (Or.inl rfl) [] cs (Or.inl rfl)
  rw [hwhole] at h ⊢
  rw [hcut, List.append_cancel_right h]

theorem all_pieces_eq_cons {cs : List Char} {p : Piece} {ps : List Piece}
    (h : allPieces cs = p :: ps) :
    ∃ c text rest, p.text = c :: text ∧ splitGap .between cs = (p.gap, c :: (text ++ rest)) ∧
      scan c (text ++ rest) = ⟨p.item, p.text, rest⟩ ∧ allPieces rest = ps := by
  cases hsplit : splitGap .between cs with
  | mk gap behind =>
    cases behind with
    | nil => simp [all_pieces_of_gap hsplit] at h
    | cons c behind =>
      rw [all_pieces_of_token hsplit] at h
      obtain ⟨rfl, hmore⟩ := List.cons.inj h
      have happend := scan_append c behind
      cases htext : (scan c behind).text with
      | nil => exact absurd htext (scan_text_ne_nil c behind)
      | cons d text =>
        rw [htext, List.cons_append] at happend
        obtain ⟨rfl, hbehind⟩ := List.cons.inj happend
        refine ⟨d, text, (scan d behind).rest, by simp, ?_, ?_, hmore⟩
        · rw [hbehind]
        · rw [hbehind, ← htext]

/-- The pieces before a cut at which a piece holds its token are those of the whole text. -/
theorem all_pieces_cut {x : Char} (hx : x = 'W' ∨ x = 'w') {xs : List Char} {front : List Piece}
    {p : Piece} {behind : List Piece} {before : List Char}
    (h : allPieces (before ++ x :: xs) = front ++ p :: behind)
    (hbefore : spelled front ++ p.gap = before) :
    allPieces (before ++ [';']) = front ++ [⟨p.gap, .token .semicolon, [';']⟩] := by
  induction front generalizing before with
  | nil =>
    obtain ⟨c, text, rest, -, hsplit, -, -⟩ := all_pieces_eq_cons h
    obtain rfl : p.gap = before := hbefore
    have happend := split_gap_append .between (p.gap ++ x :: xs)
    rw [hsplit] at happend
    have hrest : c :: (text ++ rest) = x :: xs := List.append_cancel_left happend
    rw [hrest] at hsplit
    have hcut : splitGap .between (p.gap ++ [';']) = (p.gap, [';']) :=
      split_gap_cut (Or.inr hx) p.gap [] xs hsplit
    rw [all_pieces_of_token hcut]
    rfl
  | cons f front ih =>
    obtain ⟨c, text, rest, htext, hsplit, hscan, hmore⟩ := all_pieces_eq_cons h
    obtain ⟨inner, hinner⟩ : ∃ inner, spelled front ++ p.gap = inner := ⟨_, rfl⟩
    have hbefore' : before = f.gap ++ c :: (text ++ inner) := by
      rw [← hbefore, ← hinner]
      simp [spelled, htext]
    have happend := split_gap_append .between (before ++ x :: xs)
    obtain rfl : rest = inner ++ x :: xs := by
      rw [hsplit, hbefore'] at happend
      simpa using happend
    rw [← List.append_assoc] at hsplit hscan
    have hcut : splitGap .between (before ++ [';']) = (f.gap, c :: (text ++ inner ++ [';'])) := by
      simpa [hbefore'] using split_gap_cut (Or.inr hx) f.gap (c :: (text ++ inner)) xs
        (by simpa [hbefore'] using hsplit)
    have hrest : (scan c (text ++ inner ++ x :: xs)).rest = inner ++ x :: xs := by rw [hscan]
    have hends := scan_ends hx hrest
    rw [hscan] at hends
    rw [all_pieces_of_token hcut, hends, ih hmore hinner, List.cons_append]

theorem piece_of_mem_place {offset index : Nat} {ps : List Piece}
    (hps : ∀ p ∈ ps, ∃ kind, p.item = .token kind) {t : Token} (ht : t ∈ place offset index ps) :
    ∃ front p behind, ps = front ++ p :: behind ∧
      t.start = offset + Text.byteLength (spelled front ++ p.gap) ∧
      place offset index ps = place offset index front ++
        t :: place t.stop (index + front.length + 1) behind := by
  induction ps generalizing offset index with
  | nil => cases ht
  | cons p ps ih =>
    rw [List.forall_mem_cons] at hps
    obtain ⟨⟨kind, hitem⟩, hrest⟩ := hps
    simp only [place, hitem, List.mem_cons] at ht
    rcases ht with rfl | ht
    · exact ⟨[], p, ps, rfl, by simp [spelled], by simp [place, hitem, Token.stop]⟩
    · obtain ⟨front, q, behind, rfl, hstart, hplace⟩ := ih hrest ht
      refine ⟨p :: front, q, behind, rfl, ?_, ?_⟩
      · rw [hstart]
        simp only [spelled, Text.byte_length_append]
        omega
      · simp only [List.cons_append, place, hitem, hplace, List.length_cons]
        congr 4
        omega

/-- Where a token starts at the cut, the tokens before it are kept, and a semicolon takes its
place. -/
theorem lex_cut {before xs : List Char} {x : Char} (hx : x = 'W' ∨ x = 'w') {ts : List Token}
    (hlex : lex (before ++ x :: xs) = .ok ts) {t : Token} (ht : t ∈ ts)
    (hstart : t.start = Text.byteLength before) :
    ∃ front behind semicolon, ts = front ++ t :: behind ∧
      (∀ u ∈ front, u.stop ≤ Text.byteLength before) ∧ semicolon.kind = .semicolon ∧
      lex (before ++ [';']) = .ok (front ++ [semicolon]) := by
  obtain ⟨htokens, rfl⟩ := lex_eq_place hlex
  obtain ⟨front, p, behind, hpieces, hoffset, hplace⟩ := piece_of_mem_place htokens ht
  have hspelled := spelled_pieces (before ++ x :: xs).length (before ++ x :: xs) (Nat.le_refl _)
  have hbefore : spelled front ++ p.gap = before := by
    rw [← allPieces, hpieces, spelled_append] at hspelled
    have happend : (spelled front ++ p.gap) ++ (p.text ++ (spelled behind ++
        (pieces (before ++ x :: xs).length (before ++ x :: xs)).2)) = before ++ x :: xs := by
      simpa [spelled] using hspelled
    exact Text.eq_of_byte_length_eq happend (by omega)
  have hcut := all_pieces_cut hx hpieces hbefore
  have hfront : ∀ q ∈ front, ∃ kind, q.item = .token kind :=
    fun q hq => htokens q (by rw [hpieces]; exact List.mem_append_left _ hq)
  refine ⟨place 0 0 front, place t.stop (0 + front.length + 1) behind,
    ⟨.semicolon, front.length, Text.byteLength before, ";"⟩, hplace, ?_, rfl, ?_⟩
  · intro u hu
    have hbounds := bounds_of_mem_place 0 0 front u hu
    rw [← hbefore, Text.byte_length_append]
    omega
  · have htokens' : ∀ q ∈ allPieces (before ++ [';']), ∃ kind, q.item = .token kind := by
      rw [hcut]
      simpa [or_imp, forall_and] using hfront
    rw [lex_of_tokens htokens', hcut, place_append 0 0 front _ hfront, ← hbefore]
    simp [place, Text.byte_length_append]

end RedoLog.Lexer
