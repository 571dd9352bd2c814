import RedoLog.Proofs.CutTokens
import RedoLog.Proofs.DecimalDigits
import RedoLog.Proofs.SetClause
import RedoLog.Statement.Writer

/-!
# Tokens of written text

What is written is cut into the tokens that it was written with. A quoted text is one token whatever
characters it holds. A word or a number ends where a blank, a comma, a semicolon or a parenthesis
follows. So the tokens of a list are those of its items with a comma between each two.
-/

set_option autoImplicit false

namespace RedoLog

namespace Lexer

/-- From the front of a text, tokens with these kinds and texts are cut off, and a rest is left. -/
inductive Scans : List Char → List (TokenKind × String) → List Char → Prop where
  | done (rest : List Char) : Scans rest [] rest
  | step {cs gap behind text middle rest : List Char} {c : Char} {kind : TokenKind}
      {ls : List (TokenKind × String)} (hgap : splitGap .between cs = (gap, c :: behind))
      (hscan : scan c behind = ⟨.token kind, text, middle⟩) (hmore : Scans middle ls rest) :
      Scans cs ((kind, String.ofList text) :: ls) rest

theorem Scans.append {cs middle rest : List Char} {ls ms : List (TokenKind × String)}
    (hfirst : Scans cs ls middle) (hmore : Scans middle ms rest) : Scans cs (ls ++ ms) rest := by
  induction hfirst with
  | done => exact hmore
  | step hgap hscan _ ih => exact .step hgap hscan (ih hmore)

theorem Scans.blank {cs rest : List Char} {ls : List (TokenKind × String)} (h : Scans cs ls rest)
    (hne : ls ≠ []) : Scans (' ' :: cs) ls rest := by
  cases h with
  | done => exact absurd rfl hne
  | @step _ gap _ _ _ _ _ _ _ hgap hscan hmore =>
    have hblank : splitGap .between (' ' :: cs) = (' ' :: gap, (splitGap .between cs).2) := by
      simp [splitGap, isSpace, hgap]
    rw [hgap] at hblank
    exact .step hblank hscan hmore

theorem Scans.pieces {cs rest : List Char} {ls : List (TokenKind × String)} (h : Scans cs ls rest) :
    ∃ ps, allPieces cs = ps ++ allPieces rest ∧
      ps.map (fun p => (p.item, String.ofList p.text)) =
        ls.map fun l => (Item.token l.1, l.2) := by
  induction h with
  | done => exact ⟨[], rfl, rfl⟩
  | @step cs gap behind text middle rest c kind ls hgap hscan hmore ih =>
    obtain ⟨ps, hpieces, hlexemes⟩ := ih
    refine ⟨⟨gap, .token kind, text⟩ :: ps, ?_, by rw [List.map_cons, hlexemes]; rfl⟩
    rw [all_pieces_of_token hgap, hscan, hpieces]
    rfl

theorem lexeme_place {ps : List Piece} {ls : List (TokenKind × String)}
    (h : ps.map (fun p => (p.item, String.ofList p.text)) = ls.map fun l => (Item.token l.1, l.2))
    (offset index : Nat) : (place offset index ps).map Token.lexeme = ls := by
  induction ps generalizing ls offset index with
  | nil => simpa [place] using h
  | cons p ps ih =>
    cases ls with
    | nil => cases h
    | cons l ls =>
      obtain ⟨hp, hps⟩ := List.cons.inj h
      obtain ⟨hitem, htext⟩ := Prod.mk.inj hp
      simp only [place, hitem, List.map_cons, ih hps, Token.lexeme, htext]

theorem Scans.lex {cs : List Char} {ls : List (TokenKind × String)} (h : Scans cs ls []) :
    ∃ ts, lex cs = .ok ts ∧ ts.map Token.lexeme = ls := by
  obtain ⟨ps, hpieces, hlexemes⟩ := h.pieces
  have hempty : allPieces [] = [] := rfl
  rw [hempty, List.append_nil] at hpieces
  refine ⟨place 0 0 ps, ?_, lexeme_place hlexemes 0 0⟩
  rw [← hpieces]
  apply lex_of_tokens
  intro p hp
  have hmem : (p.item, String.ofList p.text) ∈ ls.map fun l => (Item.token l.1, l.2) := by
    rw [← hlexemes, ← hpieces]
    exact List.mem_map_of_mem hp
  obtain ⟨l, -, hl⟩ := List.mem_map.mp hmem
  exact ⟨l.1, (Prod.mk.inj hl).1.symm⟩

def Delimits (rest : List Char) : Prop :=
  ∀ c ∈ rest.head?, c ∈ [' ', ',', ';', '(', ')']

theorem delimits_cons {c : Char} (h : c ∈ [' ', ',', ';', '(', ')']) (rest : List Char) :
    Delimits (c :: rest) := by
  simpa [Delimits] using h

/-- No word, number or quoted text goes on with what delimits. -/
theorem Delimits.ends {rest : List Char} (h : Delimits rest) :
    ∀ c ∈ rest.head?, c.isDigit = false ∧ continuesWord c = false ∧ c ≠ '\'' ∧ c ≠ '"' ∧ c ≠ '.' ∧
      c ≠ 'e' ∧ c ≠ 'E' := by
  intro c hc
  have hall : ∀ d ∈ [' ', ',', ';', '(', ')'], d.isDigit = false ∧ continuesWord d = false ∧
      d ≠ '\'' ∧ d ≠ '"' ∧ d ≠ '.' ∧ d ≠ 'e' ∧ d ≠ 'E' := by
    simp [continuesWord]
  exact hall c (h c hc)

theorem split_gap_cons {c : Char} (hspace : isSpace c = false) (hcomment : c ≠ '-' ∧ c ≠ '/')
    (cs : List Char) : splitGap .between (c :: cs) = ([], c :: cs) := by
  rw [splitGap.eq_3 c cs (fun _ h => absurd h hcomment.1) (fun _ h => absurd h hcomment.2), hspace]
  rfl

theorem split_gap_of_class {p : Char → Bool}
    (hp : [' ', '\t', '\n', '\x0c', '\r', '-', '/'].any p = false) {c : Char}
    (hc : p c = true) (cs : List Char) : splitGap .between (c :: cs) = ([], c :: cs) := by
  have hother : c ∉ [' ', '\t', '\n', '\x0c', '\r', '-', '/'] := by
    intro hmem
    rw [List.any_eq_false] at hp
    exact hp c hmem hc
  simp only [List.mem_cons, List.not_mem_nil, or_false, not_or] at hother
  obtain ⟨hspace, htab, hfeed, hpage, hreturn, hcomment⟩ := hother
  exact split_gap_cons (by simp [isSpace, hspace, htab, hfeed, hpage, hreturn]) hcomment cs

def separatingSymbols : List (Char × TokenKind) :=
  [('(', .openParen), (')', .closeParen), (',', .comma), (';', .semicolon), ('=', .equals)]

theorem scans_separator (c : Char) (kind : TokenKind) (h : (c, kind) ∈ separatingSymbols)
    (rest : List Char) : Scans (c :: rest) [(kind, String.ofList [c])] rest := by
  have hscan : splitGap .between (c :: rest) = ([], c :: rest) ∧
      scan c rest = ⟨.token kind, [c], rest⟩ := by
    simp only [separatingSymbols, List.mem_cons, Prod.mk.injEq, List.not_mem_nil, or_false] at h
    rcases h with ⟨rfl, rfl⟩ | ⟨rfl, rfl⟩ | ⟨rfl, rfl⟩ | ⟨rfl, rfl⟩ | ⟨rfl, rfl⟩ <;>
      refine ⟨split_gap_cons (by decide) (by decide) rest, ?_⟩ <;>
      simp [scan, startsNumber, startsWord, symbol?]
  exact .step hscan.1 hscan.2 (.done rest)

theorem scans_word {c : Char} {cs : List Char} (hopen : OpenWord c cs) {rest : List Char}
    (hrest : Delimits rest) :
    Scans (c :: cs ++ rest) [(TokenKind.ofWord (c :: cs), String.ofList (c :: cs))] rest := by
  have hscan := scan_open_word hopen rest
  have hend : rest.takeWhile continuesWord = [] ∧ rest.dropWhile continuesWord = rest := by
    cases rest with
    | nil => exact ⟨rfl, rfl⟩
    | cons d ds => simp [(hrest.ends d rfl).2.1]
  rw [hend.1, hend.2, List.append_nil] at hscan
  exact .step (split_gap_of_class (by decide) hopen.1 _) hscan (.done rest)

/-- A text between quotes ends with the first quote that is not doubled. -/
theorem split_quoted_double_quotes (quote : Char) (cs : List Char) {rest : List Char}
    (hrest : rest.head? ≠ some quote) :
    splitQuoted? quote (Text.doubleQuotes quote cs ++ quote :: rest) =
      some (Text.doubleQuotes quote cs ++ [quote], rest) := by
  induction cs with
  | nil =>
    cases rest with
    | nil => simp [Text.doubleQuotes, splitQuoted?]
    | cons d ds =>
      have hd : d ≠ quote := by simpa using hrest
      simp [Text.doubleQuotes, splitQuoted?, hd]
  | cons c cs ih =>
    by_cases hc : c = quote
    · simp [Text.doubleQuotes, hc, splitQuoted?, ih]
    · obtain ⟨d, ds, hds⟩ : ∃ d ds, Text.doubleQuotes quote cs ++ quote :: rest = d :: ds := by
        cases Text.doubleQuotes quote cs with
        | nil => exact ⟨quote, rest, rfl⟩
        | cons d ds => exact ⟨d, ds ++ quote :: rest, rfl⟩
      simp only [Text.doubleQuotes, hc, if_false, List.cons_append]
      rw [hds, splitQuoted?, if_neg hc, ← hds, ih]
      rfl

theorem scan_quoted_quoted (quote : Char) (kind : TokenKind) (fault : LexFault) (cs : List Char)
    {rest : List Char} (hrest : rest.head? ≠ some quote) :
    scanQuoted quote kind fault (Text.doubleQuotes quote cs ++ quote :: rest) =
      ⟨.token kind, Text.quoted quote cs, rest⟩ := by
  rw [scanQuoted, split_quoted_double_quotes quote cs hrest]
  rfl

theorem scans_text (cs : List Char) {rest : List Char} (hrest : Delimits rest) :
    Scans (Text.quoted '\'' cs ++ rest) [(.text, String.ofList (Text.quoted '\'' cs))] rest := by
  have hquote : rest.head? ≠ some '\'' := fun h => (hrest.ends '\'' h).2.2.1 rfl
  have hscan := scan_quoted_quoted '\'' .text .openText cs hquote
  have hshape : Text.quoted '\'' cs ++ rest =
      '\'' :: (Text.doubleQuotes '\'' cs ++ '\'' :: rest) := by simp [Text.quoted]
  rw [← scan_text] at hscan
  rw [hshape]
  exact .step (split_gap_cons (by decide) (by decide) _) hscan (.done rest)

theorem scans_name (name : String) {rest : List Char} (hrest : rest.head? ≠ some '"') :
    Scans (writeName name ++ rest) [(.quotedName, String.ofList (writeName name))] rest := by
  have hscan := scan_quoted_quoted '"' .quotedName .openName name.toList hrest
  have hshape : writeName name ++ rest =
      '"' :: (Text.doubleQuotes '"' name.toList ++ '"' :: rest) := by
    simp [writeName, Text.quoted]
  rw [← scan_quoted_name] at hscan
  rw [hshape]
  exact .step (split_gap_cons (by decide) (by decide) _) hscan (.done rest)

theorem Delimits.split_number {ds rest : List Char} (hds : ∀ c ∈ ds, c.isDigit = true)
    (hrest : Delimits rest) : splitNumber (ds ++ rest) = (ds, rest) := by
  have hdigits : ∀ c ∈ rest.head?, c.isDigit = false := fun c hc => (hrest.ends c hc).1
  have hfraction : splitFraction rest = ([], rest) := by
    cases rest with
    | nil => rfl
    | cons c cs =>
      have hpoint := (hrest.ends c rfl).2.2.2.2.1
      simp [splitFraction, hpoint]
  have hexponent : splitExponent rest = ([], rest) := by
    cases rest with
    | nil => rfl
    | cons c cs =>
      have hpower := (hrest.ends c rfl).2.2.2.2.2
      rcases cs with _ | ⟨d, _ | ⟨e, cs⟩⟩
      · rfl
      · simp [splitExponent, hpower]
      · simp [splitExponent, hpower]
  simp [Lexer.splitNumber, split_digits_digits hds hdigits, hfraction, hexponent]

theorem scans_digits {ds : List Char} (hne : ds ≠ []) (hds : ∀ c ∈ ds, c.isDigit = true)
    {rest : List Char} (hrest : Delimits rest) :
    Scans (ds ++ rest) [(.number, String.ofList ds)] rest := by
  obtain ⟨c, cs, rfl⟩ := List.exists_cons_of_ne_nil hne
  have hc : c.isDigit = true := hds c (List.mem_cons_self ..)
  have hpoint : c ≠ '.' := by
    rintro rfl
    revert hc
    decide
  have hscan : scan c (cs ++ rest) = ⟨.token .number, c :: cs, rest⟩ := by
    have hsplit := Delimits.split_number hds hrest
    rw [List.cons_append] at hsplit
    simp [scan, startsNumber, hpoint, hc, hsplit]
  exact .step (split_gap_of_class (by decide) hc _) hscan (.done rest)

theorem scans_minus {c : Char} (hc : c.isDigit = true) {cs rest : List Char}
    {ls : List (TokenKind × String)} (h : Scans (c :: cs) ls rest) :
    Scans ('-' :: c :: cs) ((.minus, "-") :: ls) rest := by
  have hgap : splitGap .between ('-' :: c :: cs) = ([], '-' :: c :: cs) := by
    have hdash : ∀ ds, ('-' : Char) = '-' → c :: cs = '-' :: ds → False := by
      intro ds _ hcs
      obtain ⟨rfl, -⟩ := List.cons.inj hcs
      revert hc
      decide
    have hslash : ∀ ds, ('-' : Char) = '/' → c :: cs = '*' :: ds → False :=
      fun ds hslash => absurd hslash (by decide)
    rw [splitGap.eq_3 '-' (c :: cs) hdash hslash]
    rfl
  have hscan : scan '-' (c :: cs) = ⟨.token .minus, ['-'], c :: cs⟩ := by
    simp [scan, startsNumber, startsWord, symbol?]
  exact .step hgap hscan h

end Lexer

end RedoLog
