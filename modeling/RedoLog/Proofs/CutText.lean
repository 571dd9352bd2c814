import Mathlib.Tactic.SplitIfs
import RedoLog.Proofs.Scanning

/-!
# Scanning up to a cut

What stands before a semicolon or the letter W is scanned in the same way whatever follows that
character, with three exceptions: a comment that is open there, a quoted text that is open there,
and a word that goes on.
-/

set_option autoImplicit false

namespace RedoLog.Lexer

/-- The characters at which a text is cut, or that are put in the place of what is cut off. -/
def Breaks (x : Char) : Prop :=
  x = ';' ∨ x = 'W' ∨ x = 'w'

theorem split_gap_breaks {x : Char} (hx : Breaks x) (xs : List Char) :
    splitGap .between (x :: xs) = ([], x :: xs) := by
  rcases hx with rfl | rfl | rfl <;> simp [splitGap, isSpace]

def GapStops (p : Place) (cs : List Char) : Prop :=
  (splitGap p cs).2 ≠ [] ∧ ∀ x xs, Breaks x →
    splitGap p (cs ++ x :: xs) = ((splitGap p cs).1, (splitGap p cs).2 ++ x :: xs)

def GapReaches (p : Place) (cs : List Char) (q : Place) : Prop :=
  splitGap p cs = (cs, []) ∧ ∀ x xs, Breaks x →
    splitGap p (cs ++ x :: xs) = (cs ++ (splitGap q (x :: xs)).1, (splitGap q (x :: xs)).2)

theorem gap_step {p p' : Place} (passed : List Char) {cs : List Char}
    (hstep : ∀ ds, (ds = cs ∨ ∃ x xs, Breaks x ∧ ds = cs ++ x :: xs) →
      splitGap p (passed ++ ds) = (passed ++ (splitGap p' ds).1, (splitGap p' ds).2))
    (h : GapStops p' cs ∨ ∃ q, GapReaches p' cs q) :
    GapStops p (passed ++ cs) ∨ ∃ q, GapReaches p (passed ++ cs) q := by
  have hshort := hstep cs (Or.inl rfl)
  have hlong : ∀ x xs, Breaks x → splitGap p (passed ++ cs ++ x :: xs) =
      (passed ++ (splitGap p' (cs ++ x :: xs)).1, (splitGap p' (cs ++ x :: xs)).2) := by
    intro x xs hx
    rw [List.append_assoc]
    exact hstep (cs ++ x :: xs) (Or.inr ⟨x, xs, hx, rfl⟩)
  rcases h with ⟨hrest, hstops⟩ | ⟨q, hall, hreaches⟩
  · left
    refine ⟨by rw [hshort]; exact hrest, ?_⟩
    intro x xs hx
    rw [hlong x xs hx, hstops x xs hx, hshort]
  · right
    refine ⟨q, by rw [hshort, hall], ?_⟩
    intro x xs hx
    rw [hlong x xs hx, hreaches x xs hx, List.append_assoc]

theorem eq_cons_of_append {x d : Char} {cs xs ds : List Char} (h : cs ++ x :: xs = d :: ds)
    (hd : x ≠ d) : ∃ cs', cs = d :: cs' := by
  cases cs with
  | nil => exact absurd (List.cons.inj h).1 hd
  | cons c cs' => exact ⟨cs', by rw [(List.cons.inj h).1]⟩

theorem gap_stops_or_reaches (p : Place) (cs : List Char) :
    GapStops p cs ∨ ∃ q, GapReaches p cs q := by
  fun_induction splitGap p cs with
  | case1 cs gap rest hsplit ih => exact gap_step ['-', '-'] (fun ds _ => rfl) ih
  | case2 cs gap rest hsplit ih => exact gap_step ['/', '*'] (fun ds _ => rfl) ih
  | case3 c cs hline hblock hspace gap rest hsplit ih =>
    apply gap_step [c] _ ih
    intro ds _
    have hc : c ≠ '-' ∧ c ≠ '/' := by
      constructor <;> rintro rfl <;> simp [isSpace] at hspace
    rw [List.singleton_append, splitGap.eq_3 c ds (fun _ h => absurd h hc.1)
      (fun _ h => absurd h hc.2), if_pos hspace]
    rfl
  | case4 c cs hline hblock hspace =>
    left
    have hstops : splitGap .between (c :: cs) = ([], c :: cs) := by
      rw [splitGap.eq_3 c cs hline hblock, if_neg hspace]
    refine ⟨by simp [hstops], ?_⟩
    intro x xs hx
    have hline' : ∀ ds, c = '-' → cs ++ x :: xs = '-' :: ds → False := by
      intro ds hc hcs
      obtain ⟨cs', hcs'⟩ := eq_cons_of_append hcs (by rcases hx with rfl | rfl | rfl <;> decide)
      exact hline cs' hc hcs'
    have hblock' : ∀ ds, c = '/' → cs ++ x :: xs = '*' :: ds → False := by
      intro ds hc hcs
      obtain ⟨cs', hcs'⟩ := eq_cons_of_append hcs (by rcases hx with rfl | rfl | rfl <;> decide)
      exact hblock cs' hc hcs'
    rw [hstops, List.cons_append, splitGap.eq_3 c _ hline' hblock', if_neg hspace]
  | case5 c cs gap rest hsplit ih => exact gap_step [c] (fun ds _ => rfl) ih
  | case6 cs gap rest hsplit ih => exact gap_step ['*', '/'] (fun ds _ => rfl) ih
  | case7 c cs hend gap rest hsplit ih =>
    apply gap_step [c] _ ih
    intro ds hds
    have hend' : ∀ es, c = '*' → ds = '/' :: es → False := by
      intro es hc hes
      rcases hds with rfl | ⟨x, xs, hx, rfl⟩
      · exact hend es hc hes
      · obtain ⟨cs', hcs'⟩ := eq_cons_of_append hes (by rcases hx with rfl | rfl | rfl <;> decide)
        exact hend cs' hc hcs'
    rw [List.singleton_append, splitGap.eq_6 c ds hend']
    rfl
  | case8 p =>
    right
    refine ⟨p, by rw [splitGap.eq_7], ?_⟩
    intro x xs _
    rfl

theorem split_gap_in_comment {q : Place} (hq : q ≠ .between) {x : Char} (hx : Breaks x)
    (xs : List Char) :
    (splitGap q (x :: xs)).1 ≠ [] ∧ splitGap q [';'] = ([';'], []) := by
  cases q with
  | between => exact absurd rfl hq
  | line => exact ⟨by simp [splitGap], by simp [splitGap]⟩
  | block =>
    have hend : ∀ es, x = '*' → xs = '/' :: es → False := by
      rintro es rfl -
      simp [Breaks] at hx
    exact ⟨by simp [splitGap.eq_6 x xs hend], by simp [splitGap]⟩

theorem split_digits_cut {x : Char} (hx : x.isDigit = false) (xs cs : List Char) :
    Text.splitDigits (cs ++ x :: xs) =
      ((Text.splitDigits cs).1, (Text.splitDigits cs).2 ++ x :: xs) := by
  induction cs with
  | nil => simp [Text.splitDigits, hx]
  | cons c cs ih =>
    simp only [Text.splitDigits, List.cons_append, Prod.mk.injEq] at ih ⊢
    by_cases hc : c.isDigit
    · simp [hc, ih.1, ih.2]
    · simp [hc]

theorem Breaks.not_is_digit {x : Char} (hx : Breaks x) : x.isDigit = false := by
  rcases hx with rfl | rfl | rfl <;> decide

theorem split_fraction_cut {x : Char} (hx : Breaks x) (xs cs : List Char) :
    splitFraction (cs ++ x :: xs) = ((splitFraction cs).1, (splitFraction cs).2 ++ x :: xs) := by
  match cs with
  | [] => rcases hx with rfl | rfl | rfl <;> simp [splitFraction]
  | c :: cs =>
    by_cases hc : c = '.'
    · subst hc
      simp [splitFraction, split_digits_cut hx.not_is_digit xs cs]
    · simp [splitFraction, hc]

theorem split_exponent_cut {x : Char} (hx : Breaks x) (xs cs : List Char) :
    splitExponent (cs ++ x :: xs) = ((splitExponent cs).1, (splitExponent cs).2 ++ x :: xs) := by
  have hdigit := hx.not_is_digit
  have hsign : x ≠ '+' ∧ x ≠ '-' ∧ x ≠ 'e' ∧ x ≠ 'E' := by
    rcases hx with rfl | rfl | rfl <;> decide
  match cs with
  | [] =>
    match xs with
    | [] => simp [splitExponent]
    | [y] => simp [splitExponent, hsign]
    | y :: z :: xs => simp [splitExponent, hsign]
  | [a] =>
    match xs with
    | [] => simp [splitExponent, hdigit]
    | y :: xs => simp [splitExponent, hsign, hdigit]
  | [a, b] =>
    simp only [splitExponent, List.cons_append, List.nil_append, hdigit]
    split_ifs <;> simp_all [Text.splitDigits]
  | a :: b :: c :: cs =>
    have hdigits := split_digits_cut hdigit xs cs
    have hdigits' := split_digits_cut hdigit xs (c :: cs)
    simp only [splitExponent, List.cons_append] at hdigits' ⊢
    split_ifs <;> simp [hdigits, hdigits']

theorem split_number_cut {x : Char} (hx : Breaks x) (xs cs : List Char) :
    splitNumber (cs ++ x :: xs) = ((splitNumber cs).1, (splitNumber cs).2 ++ x :: xs) := by
  simp only [splitNumber, split_digits_cut hx.not_is_digit, split_fraction_cut hx,
    split_exponent_cut hx]

theorem starts_number_cut {x : Char} (hx : Breaks x) (xs : List Char) (c : Char) (cs : List Char) :
    startsNumber (c :: (cs ++ x :: xs)) = startsNumber (c :: cs) := by
  have hdigit := hx.not_is_digit
  by_cases hc : c = '.'
  · subst hc
    cases cs with
    | nil => simp [startsNumber, hdigit]
    | cons d ds => simp [startsNumber]
  · simp [startsNumber, hc]

theorem symbol_pair (c d : Char) (ds : List Char) : symbol? (c :: d :: ds) = symbol? [c, d] := by
  by_cases hless : c = '<'
  · subst hless
    by_cases hunequal : d = '>'
    · simp [symbol?, hunequal]
    · by_cases hequal : d = '='
      · simp [symbol?, hequal]
      · simp [symbol?, hunequal, hequal]
  by_cases hgreater : c = '>'
  · subst hgreater
    by_cases hequal : d = '=' <;> simp [symbol?, hequal]
  · unfold symbol?
    split <;> simp_all

theorem symbol_cut {x : Char} (hx : Breaks x) (xs : List Char) (c : Char) (cs : List Char) :
    symbol? (c :: (cs ++ x :: xs)) = symbol? (c :: cs) := by
  cases cs with
  | nil =>
    have hnext : x ≠ '>' ∧ x ≠ '=' ∧ x ≠ '|' := by
      rcases hx with rfl | rfl | rfl <;> decide
    unfold symbol?
    split <;> simp_all
  | cons d ds => rw [List.cons_append, symbol_pair c d (ds ++ x :: xs), symbol_pair c d ds]

theorem split_quoted_cut (quote : Char) (cs : List Char) :
    (∃ text rest, splitQuoted? quote cs = some (text, rest) ∧ ∀ x xs, x ≠ quote →
      splitQuoted? quote (cs ++ x :: xs) = some (text, rest ++ x :: xs)) ∨
    (splitQuoted? quote cs = none ∧ ∀ x, x ≠ quote → splitQuoted? quote (cs ++ [x]) = none) := by
  fun_induction splitQuoted? quote cs with
  | case1 =>
    right
    exact ⟨rfl, fun x hx => by simp [splitQuoted?, hx]⟩
  | case2 =>
    left
    exact ⟨[quote], [], rfl, fun x xs hx => by simp [splitQuoted?, hx]⟩
  | case3 c hc =>
    right
    exact ⟨rfl, fun x hx => by simp [splitQuoted?, hc, hx]⟩
  | case4 cs ih =>
    rcases ih with ⟨text, rest, hsome, hcut⟩ | ⟨hnone, hcut⟩
    · left
      refine ⟨quote :: quote :: text, rest, by simp [hsome], fun x xs hx => ?_⟩
      simp [splitQuoted?, hcut x xs hx]
    · right
      refine ⟨by simp [hnone], fun x hx => ?_⟩
      simp [splitQuoted?, hcut x hx]
  | case5 d cs hd =>
    left
    exact ⟨[quote], d :: cs, rfl, fun x xs hx => by simp [splitQuoted?, hd]⟩
  | case6 c d cs hc ih =>
    rcases ih with ⟨text, rest, hsome, hcut⟩ | ⟨hnone, hcut⟩
    · left
      refine ⟨c :: text, rest, by simp [hsome], fun x xs hx => ?_⟩
      have hmore := hcut x xs hx
      rw [List.cons_append] at hmore
      simp [splitQuoted?, hc, hmore]
    · right
      refine ⟨by simp [hnone], fun x hx => ?_⟩
      have hmore := hcut x hx
      rw [List.cons_append] at hmore
      simp [splitQuoted?, hc, hmore]

theorem take_while_cut {p : Char → Bool} {x : Char} (xs cs : List Char)
    (h : p x = false ∨ ∃ d ∈ cs, p d = false) :
    (cs ++ x :: xs).takeWhile p = cs.takeWhile p ∧
      (cs ++ x :: xs).dropWhile p = cs.dropWhile p ++ x :: xs := by
  induction cs with
  | nil =>
    have hx : p x = false := by simpa using h
    simp [hx]
  | cons c cs ih =>
    by_cases hc : p c = true
    · have hmore := ih (by simpa [hc] using h)
      simp [hc, hmore]
    · simp [hc]

def OpenWord (c : Char) (cs : List Char) : Prop :=
  startsWord c = true ∧ ∀ d ∈ cs, continuesWord d = true

theorem is_digit_of_starts_word {c : Char} (hc : startsWord c = true) : c.isDigit = false := by
  apply Bool.eq_false_iff.mpr
  intro hdigit
  have hvalue : 48 ≤ c.toNat ∧ c.toNat ≤ 57 := Char.isDigit_iff_toNat.mp hdigit
  have hletter : (decide (c.val ≥ 'A'.val ∧ c.val ≤ 'Z'.val) ||
      (c.val ≥ 'a'.val && c.val ≤ 'z'.val) || c = '_') = true := hc
  simp [UInt32.le_iff_toNat_le] at hletter
  rcases hletter with (hletter | hletter) | rfl
  · omega
  · omega
  · revert hvalue
    decide

theorem scan_word {c : Char} (hc : startsWord c = true) (cs : List Char) :
    scan c cs = ⟨.token (TokenKind.ofWord (c :: cs.takeWhile continuesWord)),
      c :: cs.takeWhile continuesWord, cs.dropWhile continuesWord⟩ := by
  have hmarks : c ≠ '.' ∧ c ≠ '\'' ∧ c ≠ '"' := by
    refine ⟨?_, ?_, ?_⟩ <;> rintro rfl <;> revert hc <;> decide
  have hnumber : startsNumber (c :: cs) = false := by
    simp [startsNumber, hmarks.1, is_digit_of_starts_word hc]
  simp [scan, hnumber, hmarks.2, hc]

theorem scan_open_word {c : Char} {cs : List Char} (h : OpenWord c cs) (ds : List Char) :
    scan c (cs ++ ds) = ⟨.token (TokenKind.ofWord (c :: (cs ++ ds.takeWhile continuesWord))),
      c :: (cs ++ ds.takeWhile continuesWord), ds.dropWhile continuesWord⟩ := by
  rw [scan_word h.1, List.takeWhile_append_of_pos h.2, List.dropWhile_append_of_pos h.2]

theorem scan_quoted_cut {quote : Char} (hquote : ∀ x, Breaks x → x ≠ quote) (kind : TokenKind)
    (fault : LexFault) (cs : List Char) :
    (scanQuoted quote kind fault (cs ++ [';'])).item = .fault fault ∨
      ∀ x xs, Breaks x → scanQuoted quote kind fault (cs ++ x :: xs) =
        ⟨(scanQuoted quote kind fault cs).item, (scanQuoted quote kind fault cs).text,
          (scanQuoted quote kind fault cs).rest ++ x :: xs⟩ := by
  rcases split_quoted_cut quote cs with ⟨text, rest, hsome, hcut⟩ | ⟨hnone, hcut⟩
  · right
    intro x xs hx
    simp [scanQuoted, hsome, hcut x xs (hquote x hx)]
  · left
    simp [scanQuoted, hcut ';' (hquote ';' (Or.inl rfl))]

/-- What is not quoted is scanned as if nothing came behind the cut, unless a word is open there. -/
theorem scan_cut_unquoted {c : Char} (htext : c ≠ '\'') (hname : c ≠ '"') {x : Char} (hx : Breaks x)
    (xs cs : List Char) (hopen : x = ';' ∨ ¬OpenWord c cs) :
    scan c (cs ++ x :: xs) =
      ⟨(scan c cs).item, (scan c cs).text, (scan c cs).rest ++ x :: xs⟩ := by
  by_cases hnumber : startsNumber (c :: cs) = true
  · have hsplit := split_number_cut hx xs (c :: cs)
    rw [List.cons_append] at hsplit
    simp [scan, starts_number_cut hx, hnumber, hsplit]
  by_cases hword : startsWord c = true
  · have hends : continuesWord x = false ∨ ∃ d ∈ cs, continuesWord d = false := by
      rcases hopen with rfl | hopen
      · exact Or.inl (by decide)
      · right
        have hsome : ¬∀ d ∈ cs, continuesWord d = true := fun hall => hopen ⟨hword, hall⟩
        simpa using hsome
    obtain ⟨htake, hdrop⟩ := take_while_cut xs cs hends
    rw [scan_word hword, scan_word hword, htake, hdrop]
  · simp only [scan, starts_number_cut hx, hnumber, htext, hname, hword, symbol_cut hx xs c cs]
    cases hsymbol : symbol? (c :: cs) with
    | none => rfl
    | some found =>
      have hsize := (symbol_size (c :: cs) found.1 found.2 hsymbol).2
      have htake : (c :: (cs ++ x :: xs)).take found.2 = (c :: cs).take found.2 :=
        List.take_append_of_le_length hsize
      have hdrop : (c :: (cs ++ x :: xs)).drop found.2 = (c :: cs).drop found.2 ++ x :: xs :=
        List.drop_append_of_le_length hsize
      simp [htake, hdrop]

theorem scan_text (cs : List Char) : scan '\'' cs = scanQuoted '\'' .text .openText cs := by
  simp [scan, startsNumber]

theorem scan_quoted_name (cs : List Char) :
    scan '"' cs = scanQuoted '"' .quotedName .openName cs := by
  simp [scan, startsNumber]

/-- What stands first is scanned as if nothing came behind the cut, unless a quoted text or a word
is open there. -/
theorem scan_cut (c : Char) (cs : List Char) :
    (∃ fault, (scan c (cs ++ [';'])).item = .fault fault) ∨
      ∀ x xs, Breaks x → x = ';' ∨ ¬OpenWord c cs →
        scan c (cs ++ x :: xs) =
          ⟨(scan c cs).item, (scan c cs).text, (scan c cs).rest ++ x :: xs⟩ := by
  by_cases htext : c = '\''
  · subst htext
    have hquote : ∀ x, Breaks x → x ≠ '\'' := by rintro x (rfl | rfl | rfl) <;> decide
    simp only [scan_text]
    rcases scan_quoted_cut hquote .text .openText cs with hfault | hcut
    · exact Or.inl ⟨_, hfault⟩
    · exact Or.inr fun x xs hx _ => hcut x xs hx
  by_cases hname : c = '"'
  · subst hname
    have hquote : ∀ x, Breaks x → x ≠ '"' := by rintro x (rfl | rfl | rfl) <;> decide
    simp only [scan_quoted_name]
    rcases scan_quoted_cut hquote .quotedName .openName cs with hfault | hcut
    · exact Or.inl ⟨_, hfault⟩
    · exact Or.inr fun x xs hx _ => hcut x xs hx
  · exact Or.inr fun x xs hx hopen => scan_cut_unquoted htext hname hx xs cs hopen

end RedoLog.Lexer
