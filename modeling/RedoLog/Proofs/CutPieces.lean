import RedoLog.Proofs.CutText

/-!
# Pieces of a cut text

A text is cut at a letter W, and a semicolon is put there. Up to the cut, both texts have the same
pieces. What comes then depends on where the cut stands: in a comment, between pieces, in a word, or
in a quoted text, which is then open.
-/

set_option autoImplicit false

namespace RedoLog.Lexer

theorem pieces_of_gap (fuel : Nat) {cs gap : List Char} (h : splitGap .between cs = (gap, [])) :
    pieces fuel cs = ([], gap) := by
  rw [pieces, h]

theorem pieces_of_token (fuel : Nat) {cs gap rest : List Char} {c : Char}
    (h : splitGap .between cs = (gap, c :: rest)) :
    pieces (fuel + 1) cs =
      (⟨gap, (scan c rest).item, (scan c rest).text⟩ :: (pieces fuel (scan c rest).rest).1,
        (pieces fuel (scan c rest).rest).2) := by
  rw [pieces, h]

theorem rest_length_lt {cs gap rest : List Char} {c : Char}
    (h : splitGap .between cs = (gap, c :: rest)) : (scan c rest).rest.length < cs.length := by
  have hlength := congrArg List.length (split_gap_append .between cs)
  have hrest := scan_rest_length c rest
  simp only [h, List.length_append, List.length_cons] at hlength
  omega

theorem pieces_fuel (fuel fuel' : Nat) (cs : List Char) (h : cs.length ≤ fuel)
    (h' : cs.length ≤ fuel') : pieces fuel cs = pieces fuel' cs := by
  induction fuel generalizing fuel' cs with
  | zero =>
    have hcs : cs = [] := List.length_eq_zero_iff.mp (Nat.le_zero.mp h)
    subst hcs
    cases fuel' <;> rfl
  | succ fuel ih =>
    cases hsplit : splitGap .between cs with
    | mk gap rest =>
      cases rest with
      | nil => rw [pieces_of_gap _ hsplit, pieces_of_gap _ hsplit]
      | cons c rest =>
        have hrest := rest_length_lt hsplit
        cases fuel' with
        | zero => omega
        | succ fuel' =>
          rw [pieces_of_token _ hsplit, pieces_of_token _ hsplit,
            ih fuel' (scan c rest).rest (by omega) (by omega)]

def allPieces (cs : List Char) : List Piece :=
  (pieces cs.length cs).1

theorem all_pieces_of_gap {cs gap : List Char} (h : splitGap .between cs = (gap, [])) :
    allPieces cs = [] := by
  rw [allPieces, pieces_of_gap _ h]

theorem all_pieces_of_token {cs gap rest : List Char} {c : Char}
    (h : splitGap .between cs = (gap, c :: rest)) :
    allPieces cs =
      ⟨gap, (scan c rest).item, (scan c rest).text⟩ :: allPieces (scan c rest).rest := by
  have hrest := rest_length_lt h
  obtain ⟨n, hn⟩ : ∃ n, cs.length = n + 1 := ⟨cs.length - 1, by omega⟩
  rw [allPieces, hn, pieces_of_token _ h,
    pieces_fuel n (scan c rest).rest.length (scan c rest).rest (by omega) (by omega)]
  rfl

/-- The pieces of a text that is cut and ended by a semicolon, beside those of the whole text. -/
inductive CutPieces (tail : List Char) : List Char → List Piece → List Piece → Prop where
  | faulty {before : List Char} {cut whole : List Piece} (piece : Piece) (fault : LexFault)
      (hpiece : piece ∈ cut) (hfault : piece.item = .fault fault) : CutPieces tail before cut whole
  | comment {before : List Char} (front behind : List Piece)
      (hfront : Text.byteLength (spelled front) ≤ Text.byteLength before)
      (hbehind : ∀ p ∈ behind.head?,
        Text.byteLength before < Text.byteLength (spelled front ++ p.gap)) :
      CutPieces tail before front (front ++ behind)
  | between {before : List Char} (front : List Piece) (gap word : List Char) (behind : List Piece)
      (hbefore : before = spelled front ++ gap) :
      CutPieces tail before (front ++ [⟨gap, .token .semicolon, [';']⟩])
        (front ++ ⟨gap, .token (TokenKind.ofWord word), word⟩ :: behind)
  | word {before : List Char} (front : List Piece) (gap : List Char) (c : Char) (cs : List Char)
      (behind : List Piece) (hopen : OpenWord c cs)
      (hbefore : before = spelled front ++ (gap ++ c :: cs)) :
      CutPieces tail before
        (front ++ [⟨gap, .token (TokenKind.ofWord (c :: cs)), c :: cs⟩,
          ⟨[], .token .semicolon, [';']⟩])
        (front ++ ⟨gap, .token (TokenKind.ofWord (c :: (cs ++ tail.takeWhile continuesWord))),
          c :: (cs ++ tail.takeWhile continuesWord)⟩ :: behind)

theorem CutPieces.cons {tail before : List Char} {cut whole : List Piece} (p : Piece)
    (h : CutPieces tail before cut whole) :
    CutPieces tail (p.gap ++ (p.text ++ before)) (p :: cut) (p :: whole) := by
  cases h with
  | faulty piece fault hpiece hfault =>
    exact .faulty piece fault (List.mem_cons_of_mem p hpiece) hfault
  | comment front behind hfront hbehind =>
    refine .comment (p :: cut) behind ?_ ?_
    · simp only [spelled, Text.byte_length_append]
      omega
    · intro q hq
      have hgap := hbehind q hq
      simp only [spelled, Text.byte_length_append] at hgap ⊢
      omega
  | between front gap word behind hbefore =>
    exact .between (p :: front) gap word behind (by simp [spelled, hbefore])
  | word front gap c cs behind hopen hbefore =>
    exact .word (p :: front) gap c cs behind hopen (by simp [spelled, hbefore])

theorem all_pieces_semicolon : allPieces [';'] = [⟨[], .token .semicolon, [';']⟩] := by
  decide

theorem cut_pieces (before : List Char) (x : Char) (xs : List Char) (hx : x = 'W' ∨ x = 'w') :
    CutPieces (x :: xs) before (allPieces (before ++ [';'])) (allPieces (before ++ x :: xs)) := by
  have hsemicolon : Breaks ';' := Or.inl rfl
  have hbreaks : Breaks x := Or.inr hx
  generalize hn : before.length = n
  induction n using Nat.strongRecOn generalizing before with
  | ind n ih =>
    rcases gap_stops_or_reaches .between before with ⟨hrest, hstops⟩ | ⟨q, hgap, hreaches⟩
    · cases hsplit : splitGap .between before with
      | mk gap rest =>
        cases rest with
        | nil => exact absurd (by rw [hsplit]) hrest
        | cons c cs =>
          have hbefore : gap ++ c :: cs = before := by
            simpa [hsplit] using split_gap_append .between before
          have hcut := hstops ';' [] hsemicolon
          have hwhole := hstops x xs hbreaks
          simp only [hsplit, List.cons_append] at hcut hwhole
          rcases scan_cut c cs with ⟨fault, hfault⟩ | hscan
          · rw [all_pieces_of_token hcut]
            exact .faulty _ fault (List.mem_cons_self ..) hfault
          by_cases hopen : OpenWord c cs
          · have hended : [';'].takeWhile continuesWord = [] ∧
                [';'].dropWhile continuesWord = [';'] := by decide
            rw [all_pieces_of_token hcut, all_pieces_of_token hwhole, scan_open_word hopen [';'],
              scan_open_word hopen (x :: xs), hended.1, hended.2, all_pieces_semicolon,
              List.append_nil]
            exact .word [] gap c cs _ hopen hbefore.symm
          · rw [all_pieces_of_token hcut, all_pieces_of_token hwhole,
              hscan ';' [] hsemicolon (Or.inl rfl), hscan x xs hbreaks (Or.inr hopen)]
            have hlength := rest_length_lt hsplit
            have hmore := ih (scan c cs).rest.length (by omega) (scan c cs).rest rfl
            have htext : gap ++ ((scan c cs).text ++ (scan c cs).rest) = before := by
              rw [scan_append, hbefore]
            rw [← htext]
            exact hmore.cons ⟨gap, (scan c cs).item, (scan c cs).text⟩
    · have hcut := hreaches ';' [] hsemicolon
      have hwhole := hreaches x xs hbreaks
      by_cases hq : q = .between
      · subst hq
        rw [split_gap_breaks hsemicolon, List.append_nil] at hcut
        rw [split_gap_breaks hbreaks, List.append_nil] at hwhole
        have hword : startsWord x = true := by rcases hx with rfl | rfl <;> decide
        rw [all_pieces_of_token hcut, all_pieces_of_token hwhole, scan_word hword]
        exact .between [] before _ _ rfl
      · have hcomment := split_gap_in_comment hq hbreaks xs
        rw [hcomment.2] at hcut
        rw [all_pieces_of_gap hcut]
        refine .comment [] (allPieces (before ++ x :: xs)) (Nat.zero_le _) ?_
        intro p hp
        cases hbehind : (splitGap q (x :: xs)).2 with
        | nil =>
          rw [hbehind] at hwhole
          simp [all_pieces_of_gap hwhole] at hp
        | cons c cs =>
          rw [hbehind] at hwhole
          rw [all_pieces_of_token hwhole, List.head?_cons, Option.mem_some_iff] at hp
          subst hp
          have hpositive := Text.byte_length_pos hcomment.1
          simp only [spelled, List.nil_append, Text.byte_length_append]
          omega

end RedoLog.Lexer
