import RedoLog.Proofs.CutAtToken
import RedoLog.Proofs.Gaps
import RedoLog.Proofs.WrittenTokens

/-!
# The text of a token

A token is scanned from its own text. What comes behind it only has to end it, and whatever ended it
where it was found still does when it is cut off or blanked out from some character on.
-/

set_option autoImplicit false

namespace RedoLog.Lexer

/-- The second text is the first one up to a character, and ends there or has a blank there. -/
inductive Fades : List Char → List Char → Prop where
  | ended (cs : List Char) : Fades cs []
  | blank (cs ds : List Char) : Fades cs (' ' :: ds)
  | same (c : Char) {cs ds : List Char} (h : Fades cs ds) : Fades (c :: cs) (c :: ds)

namespace Fades

theorem append (front : List Char) {cs ds : List Char} (h : Fades cs ds) :
    Fades (front ++ cs) (front ++ ds) := by
  induction front with
  | nil => exact h
  | cons c front ih => exact .same c ih

theorem head {p : Char → Prop} (hblank : ¬p ' ') {cs ds : List Char} (h : Fades cs ds)
    (hcs : ∀ c ∈ cs.head?, ¬p c) : ∀ c ∈ ds.head?, ¬p c := by
  cases h with
  | ended => simp
  | blank => simpa using hblank
  | same c _ => simpa using hcs

theorem head_any {p : Char → Bool} (hblank : ¬p ' ' = true) {cs ds : List Char} (h : Fades cs ds)
    (hcs : cs.head?.any p = false) : ds.head?.any p = false := by
  cases h with
  | ended => rfl
  | blank => simpa using hblank
  | same c _ => simpa using hcs

end Fades

theorem split_gap_eq_nil_iff (c : Char) (cs : List Char) :
    splitGap .between (c :: cs) = ([], c :: cs) ↔
      isSpace c = false ∧ (c = '-' → ∀ d ∈ cs.head?, ¬d = '-') ∧
        (c = '/' → ∀ d ∈ cs.head?, ¬d = '*') := by
  by_cases hline : c = '-' ∧ cs.head? = some '-'
  · obtain ⟨rfl, hhead⟩ := hline
    obtain ⟨ds, rfl⟩ := List.head?_eq_some_iff.mp hhead
    simp [splitGap]
  by_cases hblock : c = '/' ∧ cs.head? = some '*'
  · obtain ⟨rfl, hhead⟩ := hblock
    obtain ⟨ds, rfl⟩ := List.head?_eq_some_iff.mp hhead
    simp [splitGap]
  rw [splitGap.eq_3 c cs (fun ds hc hcs => hline ⟨hc, by simp [hcs]⟩)
    (fun ds hc hcs => hblock ⟨hc, by simp [hcs]⟩)]
  by_cases hspace : isSpace c = true
  · simp [hspace]
  · simp only [hspace, Bool.false_eq_true, if_false, true_and, true_iff]
    exact ⟨fun hc d hd hdash => hline ⟨hc, hdash ▸ hd⟩, fun hc d hd hstar => hblock ⟨hc, hstar ▸ hd⟩⟩

theorem split_gap_fades {c : Char} {cs ds : List Char} (hfades : Fades cs ds)
    (h : splitGap .between (c :: cs) = ([], c :: cs)) :
    splitGap .between (c :: ds) = ([], c :: ds) := by
  rw [split_gap_eq_nil_iff] at h ⊢
  exact ⟨h.1, fun hc => hfades.head (by decide) (h.2.1 hc),
    fun hc => hfades.head (by decide) (h.2.2 hc)⟩

theorem take_while_eq_iff (p : Char → Bool) (front rest : List Char) :
    (front ++ rest).takeWhile p = front ↔
      (∀ c ∈ front, p c = true) ∧ ∀ c ∈ rest.head?, ¬p c = true := by
  induction front with
  | nil => cases rest <;> simp [List.takeWhile_cons]
  | cons c front ih =>
    by_cases hc : p c = true
    · simp [hc, ih]
    · simp [hc]

theorem take_while_fades {p : Char → Bool} (hblank : ¬p ' ' = true) {front rest rest' : List Char}
    (hfades : Fades rest rest') (h : (front ++ rest).takeWhile p = front) :
    (front ++ rest').takeWhile p = front ∧ (front ++ rest').dropWhile p = rest' := by
  rw [take_while_eq_iff] at h
  have htake := (take_while_eq_iff p front rest').mpr ⟨h.1, hfades.head hblank h.2⟩
  have happend := List.takeWhile_append_dropWhile (p := p) (l := front ++ rest')
  rw [htake] at happend
  exact ⟨htake, List.append_cancel_left happend⟩

theorem split_digits_fades {front rest rest' : List Char} (hfades : Fades rest rest')
    (h : Text.splitDigits (front ++ rest) = (front, rest)) :
    Text.splitDigits (front ++ rest') = (front, rest') := by
  obtain ⟨htake, -⟩ := Prod.mk.inj h
  obtain ⟨htake', hdrop'⟩ := take_while_fades (by decide) hfades htake
  rw [Text.splitDigits, htake', hdrop']

theorem split_fraction_of_head {cs : List Char} (h : ∀ c ∈ cs.head?, ¬c = '.') :
    splitFraction cs = ([], cs) := by
  cases cs with
  | nil => rfl
  | cons c cs =>
    have hc : c ≠ '.' := h c rfl
    simp [splitFraction, hc]

theorem split_fraction_fades {front rest rest' : List Char} (hfades : Fades rest rest')
    (h : splitFraction (front ++ rest) = (front, rest)) :
    splitFraction (front ++ rest') = (front, rest') := by
  cases front with
  | nil =>
    refine split_fraction_of_head (hfades.head (by decide) fun c hc hpoint => ?_)
    obtain ⟨cs, rfl⟩ := List.head?_eq_some_iff.mp hc
    simp [splitFraction, hpoint] at h
  | cons c front =>
    by_cases hc : c = '.'
    · subst hc
      obtain ⟨hfront, hrest⟩ : (Text.splitDigits (front ++ rest)).1 = front ∧
          (Text.splitDigits (front ++ rest)).2 = rest := by simpa [splitFraction] using h
      simp [splitFraction, split_digits_fades hfades (Prod.ext hfront hrest)]
    · simp [splitFraction, hc] at h

def startsExponent : List Char → Bool
  | e :: s :: cs =>
    (e = 'e' || e = 'E') &&
      (s.isDigit || (s = '+' || s = '-') && cs.head?.any Char.isDigit)
  | _ => false

theorem split_exponent_eq (cs : List Char) :
    splitExponent cs =
      if startsExponent cs then
        (cs.take 2 ++ (Text.splitDigits (cs.drop 2)).1, (Text.splitDigits (cs.drop 2)).2)
      else ([], cs) := by
  match cs with
  | [] => rfl
  | [e] => rfl
  | [e, s] =>
    by_cases he : e = 'e' ∨ e = 'E' <;> by_cases hs : s.isDigit = true <;>
      simp [splitExponent, startsExponent, he, hs, Text.splitDigits]
  | e :: s :: d :: cs =>
    by_cases he : e = 'e' ∨ e = 'E' <;> by_cases hs : s.isDigit = true <;>
      by_cases hsign : s = '+' ∨ s = '-' <;> by_cases hd : d.isDigit = true <;>
        simp [splitExponent, startsExponent, he, hs, hsign, hd, Text.splitDigits]

theorem starts_exponent_fades {cs ds : List Char} (hfades : Fades cs ds)
    (h : startsExponent cs = false) : startsExponent ds = false := by
  cases hfades with
  | ended => rfl
  | blank cs ds => cases ds <;> simp [startsExponent]
  | same e hmore =>
    cases hmore with
    | ended => rfl
    | blank => simp [startsExponent]
    | same s hrest =>
      simp only [startsExponent, Bool.and_eq_false_iff, Bool.or_eq_false_iff] at h ⊢
      exact h.imp_right (And.imp_right (Or.imp_right (hrest.head_any (by decide))))

theorem split_exponent_fades {front rest rest' : List Char} (hfades : Fades rest rest')
    (h : splitExponent (front ++ rest) = (front, rest)) :
    splitExponent (front ++ rest') = (front, rest') := by
  rw [split_exponent_eq] at h ⊢
  split at h
  · rename_i hstarts
    obtain ⟨e, s, cs, hcs⟩ : ∃ e s cs, front ++ rest = e :: s :: cs := by
      unfold startsExponent at hstarts
      split at hstarts
      · exact ⟨_, _, _, ‹_›⟩
      · cases hstarts
    rw [hcs] at h hstarts
    obtain ⟨rfl, rfl⟩ := Prod.mk.inj h
    have hdigits : Text.splitDigits ((Text.splitDigits cs).1 ++ rest') =
        ((Text.splitDigits cs).1, rest') :=
      split_digits_fades hfades
        (by rw [List.drop_succ_cons, List.drop_succ_cons, List.drop_zero, Text.split_digits_append])
    have hstarts' : startsExponent (e :: s :: ((Text.splitDigits cs).1 ++ rest')) = true := by
      simp only [startsExponent, Bool.and_eq_true, Bool.or_eq_true] at hstarts ⊢
      refine hstarts.imp_right (Or.imp_right (And.imp_right fun hhead => ?_))
      cases cs with
      | nil => simp at hhead
      | cons d cs =>
        have hd : d.isDigit = true := by simpa using hhead
        simp [Text.splitDigits, hd]
    simp [hstarts', hdigits]
  · rename_i hstarts
    obtain ⟨rfl, -⟩ := Prod.mk.inj h
    have hstarts' := starts_exponent_fades hfades (Bool.eq_false_iff.mpr hstarts)
    rw [List.nil_append, hstarts']
    rfl

theorem split_number_fades {front rest rest' : List Char} (hfades : Fades rest rest')
    (h : splitNumber (front ++ rest) = (front, rest)) :
    splitNumber (front ++ rest') = (front, rest') := by
  obtain ⟨⟨whole, r⟩, hwhole⟩ : ∃ x, Text.splitDigits (front ++ rest) = x := ⟨_, rfl⟩
  obtain ⟨⟨fraction, r'⟩, hfraction⟩ : ∃ x, splitFraction r = x := ⟨_, rfl⟩
  obtain ⟨⟨exponent, r''⟩, hexponent⟩ : ∃ x, splitExponent r' = x := ⟨_, rfl⟩
  have hdigits := Text.split_digits_append (front ++ rest)
  have hpoint := split_fraction_append r
  have hpower := split_exponent_append r'
  simp only [splitNumber, hwhole, hfraction, hexponent, Prod.mk.injEq] at h hdigits hpoint hpower
  obtain ⟨rfl, rfl⟩ := h
  subst hpower hpoint
  rw [← hdigits] at hwhole
  have hwhole' := split_digits_fades ((hfades.append exponent).append fraction) hwhole
  have hfraction' := split_fraction_fades (hfades.append exponent) hfraction
  have hexponent' := split_exponent_fades hfades hexponent
  simp only [List.append_assoc] at hwhole' ⊢
  simp [splitNumber, hwhole', hfraction', hexponent']

theorem symbol_one {c : Char} {cs : List Char} {kind : TokenKind}
    (h : symbol? (c :: cs) = some (kind, 1)) :
    symbol? [c] = some (kind, 1) ∧ ∀ ds, symbol? (c :: ' ' :: ds) = some (kind, 1) := by
  unfold symbol? at h
  split at h <;> cases h
  all_goals
    rename_i hcs
    cases hcs
    exact ⟨rfl, fun _ => rfl⟩

theorem symbol_fades {c : Char} {text rest rest' : List Char} {kind : TokenKind}
    (hfades : Fades rest rest')
    (h : symbol? (c :: (text ++ rest)) = some (kind, text.length + 1)) :
    symbol? (c :: (text ++ rest')) = some (kind, text.length + 1) := by
  cases text with
  | cons d text =>
    rw [List.cons_append, symbol_pair] at h ⊢
    exact h
  | nil =>
    simp only [List.nil_append, List.length_nil, Nat.zero_add] at h ⊢
    cases hfades with
    | ended => exact (symbol_one h).1
    | blank cs ds => exact (symbol_one h).2 ds
    | same d _ =>
      rw [symbol_pair] at h ⊢
      exact h

theorem scan_quoted_fades {quote : Char} (hquote : quote ≠ ' ') {kind kind' : TokenKind}
    {fault : LexFault} {text rest rest' : List Char} (hfades : Fades rest rest')
    (h : scanQuoted quote kind fault (text ++ rest) = ⟨.token kind', quote :: text, rest⟩) :
    scanQuoted quote kind fault (text ++ rest') = ⟨.token kind', quote :: text, rest'⟩ := by
  unfold scanQuoted at h ⊢
  cases hsplit : splitQuoted? quote (text ++ rest) with
  | none => simp [hsplit] at h
  | some found =>
    rw [hsplit] at h
    simp only [Scan.mk.injEq, Item.token.injEq, List.cons.injEq, true_and] at h
    obtain ⟨rfl, htext, hrest⟩ := h
    obtain rfl : found = (text, rest) := Prod.ext htext hrest
    obtain ⟨hhead, hbehind⟩ := split_quoted_behind hsplit
    have hhead' := hfades.head (p := (· = quote)) (Ne.symm hquote)
      (fun c hc hquote => hhead (hquote ▸ hc))
    rw [hbehind rest' fun hc => hhead' quote hc rfl]

theorem starts_number_eq (c : Char) (cs : List Char) :
    startsNumber (c :: cs) = (c.isDigit || c = '.' && cs.head?.any Char.isDigit) := by
  by_cases hc : c = '.'
  · subst hc
    cases cs <;> simp [startsNumber]
  · simp [startsNumber, hc]

/-- A number that starts with a point has a digit of its own. -/
theorem split_number_point_ne {d : Char} (hd : d.isDigit = true) (ds : List Char) :
    (splitNumber ('.' :: d :: ds)).1 ≠ ['.'] := by
  simp [splitNumber, splitFraction, Text.splitDigits, hd]

theorem scan_number {c : Char} {cs : List Char} (h : startsNumber (c :: cs) = true) :
    scan c cs = ⟨.token .number, (splitNumber (c :: cs)).1, (splitNumber (c :: cs)).2⟩ := by
  simp [scan, h]

theorem scan_number_fades {c : Char} {text rest rest' : List Char} {kind : TokenKind}
    (hfades : Fades rest rest') (hstarts : startsNumber (c :: (text ++ rest)) = true)
    (h : scan c (text ++ rest) = ⟨.token kind, c :: text, rest⟩) :
    scan c (text ++ rest') = ⟨.token kind, c :: text, rest'⟩ := by
  rw [scan_number hstarts] at h
  simp only [Scan.mk.injEq, Item.token.injEq] at h
  obtain ⟨rfl, htext, hrest⟩ := h
  have hsplit : splitNumber (c :: text ++ rest') = (c :: text, rest') :=
    split_number_fades hfades (Prod.ext htext hrest)
  rw [List.cons_append] at hsplit
  have hstarts' : startsNumber (c :: (text ++ rest')) = true := by
    rw [starts_number_eq] at hstarts ⊢
    cases text with
    | cons d text => exact hstarts
    | nil =>
      simp only [Bool.or_eq_true, Bool.and_eq_true, decide_eq_true_eq] at hstarts ⊢
      refine hstarts.imp_right fun ⟨hpoint, hdigit⟩ => ?_
      cases rest with
      | nil => simp at hdigit
      | cons d rest =>
        subst hpoint
        exact absurd htext (split_number_point_ne (by simpa using hdigit) rest)
  rw [scan_number hstarts', hsplit]

theorem starts_number_fades {c : Char} {cs ds : List Char} (hfades : Fades cs ds)
    (h : ¬startsNumber (c :: cs) = true) : ¬startsNumber (c :: ds) = true := by
  simp only [starts_number_eq, Bool.not_eq_true, Bool.or_eq_false_iff, Bool.and_eq_false_iff] at h ⊢
  exact h.imp_right (Or.imp_right (hfades.head_any (by decide)))

theorem scan_fades {c : Char} {text rest rest' : List Char} {kind : TokenKind}
    (hfades : Fades rest rest') (h : scan c (text ++ rest) = ⟨.token kind, c :: text, rest⟩) :
    scan c (text ++ rest') = ⟨.token kind, c :: text, rest'⟩ := by
  by_cases hnumber : startsNumber (c :: (text ++ rest)) = true
  · exact scan_number_fades hfades hnumber h
  have hnumber' := starts_number_fades (hfades.append text) hnumber
  by_cases htext : c = '\''
  · subst htext
    rw [scan_text] at h ⊢
    exact scan_quoted_fades (by decide) hfades h
  by_cases hname : c = '"'
  · subst hname
    rw [scan_quoted_name] at h ⊢
    exact scan_quoted_fades (by decide) hfades h
  by_cases hword : startsWord c = true
  · rw [scan_word hword] at h ⊢
    simp only [Scan.mk.injEq, Item.token.injEq, List.cons.injEq, true_and] at h
    obtain ⟨hkind, htake, hdrop⟩ := h
    obtain ⟨htake', hdrop'⟩ := take_while_fades (by decide) hfades htake
    rw [htake', hdrop', ← hkind, htake]
  · simp only [scan, hnumber, hnumber', htext, hname, hword] at h ⊢
    cases hsymbol : symbol? (c :: (text ++ rest)) with
    | none => simp [hsymbol] at h
    | some found =>
      obtain ⟨kind', size⟩ := found
      rw [hsymbol] at h
      simp only [Bool.false_eq_true, if_false, Scan.mk.injEq, Item.token.injEq] at h
      obtain ⟨rfl, htake, -⟩ := h
      have hsize : size = text.length + 1 := by
        have hlength := congrArg List.length htake
        have hle := (symbol_size _ _ _ hsymbol).2
        simp only [List.length_take, List.length_cons] at hlength hle
        omega
      rw [hsize] at hsymbol
      simp [symbol_fades hfades hsymbol]

/-- A token is scanned from its text wherever nothing or a blank follows. -/
def StandsAlone (l : TokenKind × String) : Prop :=
  ∀ rest : List Char, (∀ c ∈ rest.head?, c = ' ') → Scans (l.2.toList ++ rest) [l] rest

/-- What a scanned token takes is scanned alone. -/
theorem stands_alone_of_scan {c : Char} {text rest : List Char} {kind : TokenKind}
    (hgap : splitGap .between (c :: (text ++ rest)) = ([], c :: (text ++ rest)))
    (hscan : scan c (text ++ rest) = ⟨.token kind, c :: text, rest⟩) :
    StandsAlone (kind, String.ofList (c :: text)) := by
  intro rest' hrest'
  have hfades : Fades rest rest' := by
    cases rest' with
    | nil => exact .ended rest
    | cons d ds =>
      obtain rfl : d = ' ' := hrest' d rfl
      exact .blank rest ds
  have hgap' := split_gap_fades (hfades.append text) hgap
  rw [String.toList_ofList, List.cons_append]
  exact .step hgap' (scan_fades hfades hscan) (.done rest')

theorem scan_of_mem_all_pieces {cs : List Char} {p : Piece} (hp : p ∈ allPieces cs) :
    ∃ c text rest, p.text = c :: text ∧
      splitGap .between (c :: (text ++ rest)) = ([], c :: (text ++ rest)) ∧
      scan c (text ++ rest) = ⟨p.item, p.text, rest⟩ := by
  generalize hps : allPieces cs = ps at hp
  induction ps generalizing cs with
  | nil => cases hp
  | cons q ps ih =>
    obtain ⟨c, text, rest, htext, hgap, hscan, hmore⟩ := all_pieces_eq_cons hps
    rcases List.mem_cons.mp hp with rfl | hp
    · exact ⟨c, text, rest, htext, split_gap_behind hgap, hscan⟩
    · exact ih hmore hp

theorem piece_of_place {offset index : Nat} {ps : List Piece} {t : Token}
    (ht : t ∈ place offset index ps) :
    ∃ p ∈ ps, p.item = .token t.kind ∧ t.text = String.ofList p.text := by
  induction ps generalizing offset index with
  | nil => cases ht
  | cons p ps ih =>
    cases hitem : p.item with
    | fault fault =>
      simp only [place, hitem] at ht
      obtain ⟨q, hq, hfound⟩ := ih ht
      exact ⟨q, List.mem_cons_of_mem p hq, hfound⟩
    | token kind =>
      simp only [place, hitem, List.mem_cons] at ht
      rcases ht with rfl | ht
      · exact ⟨p, List.mem_cons_self .., hitem, rfl⟩
      · obtain ⟨q, hq, hfound⟩ := ih ht
        exact ⟨q, List.mem_cons_of_mem p hq, hfound⟩

theorem scan_of_lex {source : List Char} {ts : List Token} (h : lex source = .ok ts) {t : Token}
    (ht : t ∈ ts) :
    ∃ c text rest, t.text = String.ofList (c :: text) ∧
      splitGap .between (c :: (text ++ rest)) = ([], c :: (text ++ rest)) ∧
      scan c (text ++ rest) = ⟨.token t.kind, c :: text, rest⟩ := by
  obtain ⟨-, rfl⟩ := lex_eq_place h
  obtain ⟨p, hp, hkind, htext⟩ := piece_of_place ht
  obtain ⟨c, text, rest, hp, hgap, hscan⟩ := scan_of_mem_all_pieces hp
  rw [hkind, hp] at hscan
  exact ⟨c, text, rest, by rw [htext, hp], hgap, hscan⟩

theorem stands_alone_of_lex {source : List Char} {ts : List Token} (h : lex source = .ok ts) :
    ∀ t ∈ ts, StandsAlone t.lexeme := by
  intro t ht
  obtain ⟨c, text, rest, htext, hgap, hscan⟩ := scan_of_lex h ht
  rw [Token.lexeme, htext]
  exact stands_alone_of_scan hgap hscan

end RedoLog.Lexer
