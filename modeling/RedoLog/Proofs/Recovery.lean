import RedoLog.Proofs.Positions
import RedoLog.Proofs.TokenTexts

/-!
# Scanning goes on behind a fault

A character that starts no token is passed over like a blank. With a blank in the place of each of
them, a text is cut into the same tokens as before, and what is left of its faults is a quoted text
or name that nothing closes.
-/

set_option autoImplicit false

namespace RedoLog.Lexer

theorem scan_quoted_fault {quote : Char} {kind : TokenKind} {fault fault' : LexFault}
    {cs text rest : List Char}
    (h : scanQuoted quote kind fault cs = ⟨.fault fault', text, rest⟩) :
    fault' = fault ∧ text = quote :: cs ∧ rest = [] := by
  unfold scanQuoted at h
  split at h
  · simp at h
  · simp only [Scan.mk.injEq, Item.fault.injEq] at h
    exact ⟨h.1.symm, h.2.1.symm, h.2.2.symm⟩

theorem scan_fault {c : Char} {cs text rest : List Char} {fault : LexFault}
    (h : scan c cs = ⟨.fault fault, text, rest⟩) :
    (fault = .unknown c ∧ text = [c] ∧ rest = cs) ∨
      ((fault = .openText ∨ fault = .openName) ∧ text = c :: cs ∧ rest = []) := by
  unfold scan at h
  split_ifs at h
  · simp at h
  · obtain ⟨hfault, hrest⟩ := scan_quoted_fault h
    exact Or.inr ⟨Or.inl hfault, hrest⟩
  · obtain ⟨hfault, hrest⟩ := scan_quoted_fault h
    exact Or.inr ⟨Or.inr hfault, hrest⟩
  · simp at h
  · split at h
    · simp at h
    · simp only [Scan.mk.injEq, Item.fault.injEq] at h
      exact Or.inl ⟨h.1.symm, h.2.1.symm, h.2.2.symm⟩

/-- The pieces of a text and the gap behind them, with what is known of each piece. -/
inductive Cuts : List Char → List Piece → List Char → Prop where
  | last {cs : List Char} (hgap : splitGap .between cs = (cs, [])) : Cuts cs [] cs
  | token {gap text rest last : List Char} {c : Char} {kind : TokenKind} {ps : List Piece}
      (hgap : IsGap gap)
      (hstart : splitGap .between (c :: text ++ rest) = ([], c :: text ++ rest))
      (hscan : scan c (text ++ rest) = ⟨.token kind, c :: text, rest⟩)
      (hmore : Cuts rest ps last) :
      Cuts (gap ++ (c :: text ++ rest)) (⟨gap, .token kind, c :: text⟩ :: ps) last
  | unknown {gap rest last : List Char} {c : Char} {ps : List Piece} (hgap : IsGap gap)
      (hc : c ≠ '\n') (hmore : Cuts rest ps last) :
      Cuts (gap ++ ([c] ++ rest)) (⟨gap, .fault (.unknown c), [c]⟩ :: ps) last
  | unclosed {gap text : List Char} {c : Char} {fault : LexFault} (hgap : IsGap gap)
      (hstart : splitGap .between (c :: text) = ([], c :: text))
      (hscan : scan c text = ⟨.fault fault, c :: text, []⟩)
      (hfault : fault = .openText ∨ fault = .openName) :
      Cuts (gap ++ (c :: text)) [⟨gap, .fault fault, c :: text⟩] []

theorem cuts_pieces (fuel : Nat) (cs : List Char) (h : cs.length ≤ fuel) :
    Cuts cs (pieces fuel cs).1 (pieces fuel cs).2 := by
  induction fuel generalizing cs with
  | zero =>
    obtain rfl : cs = [] := List.length_eq_zero_iff.mp (Nat.le_zero.mp h)
    exact .last rfl
  | succ fuel ih =>
    have happend := split_gap_append .between cs
    cases hsplit : splitGap .between cs with
    | mk gap behind =>
      rw [hsplit] at happend
      cases behind with
      | nil =>
        obtain rfl : gap = cs := by simpa using happend
        rw [pieces_of_gap _ hsplit]
        exact .last hsplit
      | cons c behind =>
        have hlength := rest_length_lt hsplit
        have hgap := is_gap_of_split_gap hsplit
        have hstart := split_gap_behind hsplit
        rw [pieces_of_token _ hsplit]
        subst happend
        have hmore := ih (scan c behind).rest (by omega)
        have hscan_append := scan_append c behind
        cases hscan : scan c behind with
        | mk item text rest =>
          rw [hscan] at hmore hscan_append
          cases item with
          | token kind =>
            have hne := scan_text_ne_nil c behind
            rw [hscan] at hne
            obtain ⟨d, text, rfl⟩ := List.exists_cons_of_ne_nil hne
            obtain ⟨rfl, rfl⟩ := List.cons.inj hscan_append
            exact .token hgap hstart hscan hmore
          | fault fault =>
            rcases scan_fault hscan with ⟨rfl, rfl, rfl⟩ | ⟨hfault, rfl, rfl⟩
            · refine .unknown hgap ?_ hmore
              rintro rfl
              simp [splitGap, isSpace] at hstart
            · rw [pieces_of_gap fuel (rfl : splitGap .between [] = ([], []))]
              exact .unclosed hgap hstart hscan hfault

def blanked : List Piece → List Char → List Char
  | [], last => last
  | p :: ps, last =>
    match p.item with
    | .fault (.unknown _) => p.gap ++ ([' '] ++ blanked ps last)
    | _ => p.gap ++ (p.text ++ blanked ps last)

/-- The pieces that are left then, when what was passed over before belongs to the first gap. -/
def mended : List Char → List Piece → List Piece
  | _, [] => []
  | passed, p :: ps =>
    match p.item with
    | .fault (.unknown _) => mended (passed ++ (p.gap ++ [' '])) ps
    | item => ⟨passed ++ p.gap, item, p.text⟩ :: mended [] ps

theorem Fades.refl (cs : List Char) : Fades cs cs := by
  simpa using (Fades.ended []).append cs

theorem Cuts.fades {cs : List Char} {ps : List Piece} {last : List Char} (h : Cuts cs ps last) :
    Fades cs (blanked ps last) := by
  induction h with
  | last => exact .refl _
  | token _ _ _ _ ih => exact (ih.append _).append _
  | unknown => exact (Fades.blank _ _).append _
  | unclosed _ _ _ hfault =>
    rcases hfault with rfl | rfl <;> simpa [blanked] using Fades.refl _

theorem all_pieces_of_scan {gap text rest : List Char} {c : Char} {item : Item} (hgap : IsGap gap)
    (hstart : splitGap .between (c :: text ++ rest) = ([], c :: text ++ rest))
    (hscan : scan c (text ++ rest) = ⟨item, c :: text, rest⟩) :
    allPieces (gap ++ (c :: text ++ rest)) = ⟨gap, item, c :: text⟩ :: allPieces rest := by
  have hsplit : splitGap .between (gap ++ (c :: text ++ rest)) = (gap, c :: (text ++ rest)) := by
    rw [hgap.split_gap_append, hstart, List.append_nil]
    rfl
  rw [all_pieces_of_token hsplit, hscan]

theorem Cuts.all_pieces_blanked {cs : List Char} {ps : List Piece} {last : List Char}
    (h : Cuts cs ps last) {passed : List Char} (hpassed : IsGap passed) :
    allPieces (passed ++ blanked ps last) = mended passed ps := by
  induction h generalizing passed with
  | last hgap =>
    apply all_pieces_of_gap
    rw [blanked, hpassed.split_gap_append, hgap]
  | @token gap text rest last c kind ps hgap hstart hscan hmore ih =>
    have hfades := hmore.fades
    have hstart' := split_gap_fades (hfades.append text) hstart
    rw [blanked, mended, ← List.append_assoc,
      all_pieces_of_scan (hpassed.append hgap) hstart' (scan_fades hfades hscan), ← ih is_gap_nil]
    rfl
  | @unknown gap rest last c ps hgap hc hmore ih =>
    have hblank : IsGap [' '] := .blank rfl is_gap_nil
    have hmended := ih (hpassed.append (hgap.append hblank))
    simp only [List.append_assoc] at hmended
    exact hmended
  | @unclosed gap text c fault hgap hstart hscan hfault =>
    have hpieces : allPieces (passed ++ (gap ++ (c :: text))) =
        [⟨passed ++ gap, .fault fault, c :: text⟩] := by
      have hempty : allPieces [] = [] := rfl
      have hstart' : splitGap .between (c :: text ++ []) = ([], c :: text ++ []) := by
        rwa [List.append_nil]
      have hscan' : scan c (text ++ []) = ⟨.fault fault, c :: text, []⟩ := by
        rwa [List.append_nil]
      have halone := all_pieces_of_scan (hpassed.append hgap) hstart' hscan'
      simpa [hempty] using halone
    rcases hfault with rfl | rfl <;> simpa [blanked, mended] using hpieces

end RedoLog.Lexer
