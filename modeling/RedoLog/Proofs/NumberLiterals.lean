import RedoLog.Proofs.DecimalDigits
import RedoLog.Proofs.StatedColumns

/-!
# Numbers of a statement

What is scanned as a number can be read as one: digits with or without a point, and a power of ten
that has digits of its own. So a number in the value of a column never stays text. With its sign it
is a whole number if it is written in digits alone and fits 64 bits, and a binary number otherwise.
-/

set_option autoImplicit false

namespace RedoLog

theorem int64_eq_some_iff (z : Int) (n : Int64) : int64? z = some n ↔ n.toInt = z := by
  constructor
  · intro h
    rw [int64?] at h
    split at h
    · rw [← Option.some.inj h, Int64.toInt_ofIntLE]
    · cases h
  · rintro rfl
    exact int64_to_int n

theorem int64_eq_none_iff (z : Int) :
    int64? z = none ↔ ¬(-9223372036854775808 ≤ z ∧ z ≤ 9223372036854775807) := by
  have hmin : Int64.minValue.toInt = -9223372036854775808 := by decide
  have hmax : Int64.maxValue.toInt = 9223372036854775807 := by decide
  rw [← hmin, ← hmax, int64?]
  split
  · rename_i hbounds
    exact iff_of_false (Option.some_ne_none _) (not_not_intro hbounds)
  · rename_i hbounds
    exact iff_of_true rfl hbounds

theorem split_sign_of_starts_number {cs : List Char} (h : Lexer.startsNumber cs = true) :
    splitSign cs = (false, cs) := by
  cases cs with
  | nil => cases h
  | cons c cs =>
    have hminus : c ≠ '-' := by rintro rfl; cases cs <;> cases h
    have hplus : c ≠ '+' := by rintro rfl; cases cs <;> cases h
    simp [splitSign, hminus, hplus]

theorem split_fraction_snd (cs : List Char) :
    (splitFraction cs).2 = (Lexer.splitFraction cs).2 := by
  cases cs with
  | nil => rfl
  | cons c cs =>
    by_cases hc : c = '.'
    · subst hc
      rfl
    · simp [splitFraction, Lexer.splitFraction, hc]

theorem read_power_of_split_exponent {cs : List Char} (h : Lexer.splitExponent cs = (cs, [])) :
    ∃ power, readPower? cs = some power := by
  rw [Lexer.split_exponent_eq] at h
  split at h
  · rename_i hstarts
    unfold Lexer.startsExponent at hstarts
    split at hstarts
    · rename_i e s ds
      obtain ⟨hfront, -⟩ := Prod.mk.inj h
      have htaken : (Text.splitDigits ds).1 = ds := by simpa using hfront
      have hds : ∀ c ∈ ds, c.isDigit = true :=
        fun c hc => Text.is_digit_of_mem_split_digits (htaken.symm ▸ hc)
      simp only [Bool.and_eq_true, Bool.or_eq_true, decide_eq_true_eq] at hstarts
      obtain ⟨he, hs | ⟨hsign, hhead⟩⟩ := hstarts
      · have hall : ∀ c ∈ s :: ds, c.isDigit = true := List.forall_mem_cons.mpr ⟨hs, hds⟩
        simp [readPower?, split_sign_digits hall, he, List.all_eq_true.mpr hall]
      · have hne : ds ≠ [] := by rintro rfl; simp at hhead
        have hall : ds.all Char.isDigit = true := List.all_eq_true.mpr hds
        rcases hsign with rfl | rfl <;> simp [readPower?, splitSign, he, hne, hall]
    · cases hstarts
  · obtain ⟨rfl, -⟩ := Prod.mk.inj h
    exact ⟨0, rfl⟩

theorem digits_of_starts_number {cs : List Char} (h : Lexer.startsNumber cs = true) :
    ¬((Text.splitDigits cs).1 = [] ∧ (splitFraction (Text.splitDigits cs).2).1 = []) := by
  cases cs with
  | nil => cases h
  | cons c cs =>
    rw [Lexer.starts_number_eq, Bool.or_eq_true, Bool.and_eq_true] at h
    rcases h with hc | ⟨hpoint, hhead⟩
    · simp [Text.splitDigits, hc]
    · obtain rfl := of_decide_eq_true hpoint
      cases cs with
      | nil => simp at hhead
      | cons d cs =>
        have hd : d.isDigit = true := by simpa using hhead
        simp [Text.splitDigits, splitFraction, hd]

theorem read_decimal_of_split_number {cs : List Char} (hstarts : Lexer.startsNumber cs = true)
    (hsplit : Lexer.splitNumber cs = (cs, [])) :
    ∃ coefficient exponent, readDecimal? cs = some (coefficient, exponent) := by
  have hpower : ∃ power, readPower? (splitFraction (Text.splitDigits cs).2).2 = some power := by
    apply read_power_of_split_exponent
    rw [split_fraction_snd]
    have hbehind := congrArg Prod.snd hsplit
    have happend := Lexer.split_exponent_append (Lexer.splitFraction (Text.splitDigits cs).2).2
    simp only [Lexer.splitNumber] at hbehind
    rw [hbehind, List.append_nil] at happend
    exact Prod.ext happend hbehind
  obtain ⟨power, hpower⟩ := hpower
  simp only [readDecimal?, if_neg (digits_of_starts_number hstarts), hpower]
  exact ⟨_, _, rfl⟩

namespace Expression

def isNegative (sign : Option Token) : Bool :=
  sign.any fun t => t.kind = .minus

def wholeValue (sign : Option Token) (literal : Token) : Int :=
  signed (isNegative sign) (digitsValue literal.text.toList)

structure IsWhole (sign : Option Token) (literal : Token) : Prop where
  digits : ∀ c ∈ literal.text.toList, c.isDigit = true
  lower : -9223372036854775808 ≤ wholeValue sign literal
  upper : wholeValue sign literal ≤ 9223372036854775807

theorem is_whole_iff (sign : Option Token) (literal : Token) :
    IsWhole sign literal ↔
      literal.text.toList.all Char.isDigit = true ∧
        -9223372036854775808 ≤ wholeValue sign literal ∧
          wholeValue sign literal ≤ 9223372036854775807 := by
  rw [List.all_eq_true]
  exact ⟨fun h => ⟨h.digits, h.lower, h.upper⟩, fun h => ⟨h.1, h.2.1, h.2.2⟩⟩

theorem split_sign_number_text (sign : Option Token) {literal : Token}
    (h : Lexer.startsNumber literal.text.toList = true) :
    splitSign (numberText sign literal).toList = (isNegative sign, literal.text.toList) := by
  cases sign with
  | none => exact split_sign_of_starts_number h
  | some s =>
    by_cases hs : s.kind = .minus
    · simp [numberText, isNegative, hs, splitSign]
    · simp [numberText, isNegative, hs, split_sign_of_starts_number h]

section Literal

variable (sign : Option Token) {literal : Token}

theorem read_int64_number_text (h : LiteralText .number literal.text.toList)
    (hdigits : literal.text.toList.all Char.isDigit = true) :
    readInt64? (numberText sign literal) = int64? (wholeValue sign literal) := by
  obtain ⟨hstarts, -⟩ := h
  have hne : literal.text.toList ≠ [] := by intro hnil; rw [hnil] at hstarts; cases hstarts
  simp only [readInt64?, split_sign_number_text sign hstarts]
  rw [if_pos ⟨hne, hdigits⟩, wholeValue]

theorem read_binary64_number_text (h : LiteralText .number literal.text.toList) :
    ∃ x, readBinary64? (numberText sign literal) = some x := by
  obtain ⟨hstarts, hsplit⟩ := h
  obtain ⟨coefficient, exponent, hdecimal⟩ := read_decimal_of_split_number hstarts hsplit
  simp only [readBinary64?, split_sign_number_text sign hstarts, hdecimal]
  exact ⟨_, rfl⟩

theorem meaning_number_of_is_whole (h : LiteralText .number literal.text.toList) (trim : Bool)
    (hwhole : IsWhole sign literal) :
    ∃ n : Int64, n.toInt = wholeValue sign literal ∧
      meaning trim (.number sign literal) = .integer n := by
  obtain ⟨hdigits, hbounds⟩ := (is_whole_iff sign literal).mp hwhole
  obtain ⟨n, hn⟩ := Option.ne_none_iff_exists'.mp
    (mt (int64_eq_none_iff (wholeValue sign literal)).mp (not_not_intro hbounds))
  refine ⟨n, (int64_eq_some_iff _ n).mp hn, ?_⟩
  rw [meaning, numberValue, if_pos hdigits, read_int64_number_text sign h hdigits, hn]

theorem meaning_number_of_not_is_whole (h : LiteralText .number literal.text.toList) (trim : Bool)
    (hwhole : ¬IsWhole sign literal) :
    ∃ x, readBinary64? (numberText sign literal) = some x ∧
      meaning trim (.number sign literal) = .real x := by
  obtain ⟨x, hx⟩ := read_binary64_number_text sign h
  refine ⟨x, hx, ?_⟩
  have hnone : (if literal.text.toList.all Char.isDigit then
      readInt64? (numberText sign literal) else none) = none := by
    split
    · rename_i hdigits
      rw [read_int64_number_text sign h hdigits, int64_eq_none_iff]
      exact fun hbounds => hwhole ((is_whole_iff sign literal).mpr ⟨hdigits, hbounds⟩)
    · rfl
  rw [meaning, numberValue, hnone, hx]

end Literal

end Expression

/-! ### Places in a value -/

/-- What stands in a value behind the given steps, each of which leads to the parameter of a call at
that place. -/
def Value.at? : List Nat → Value → Option Value
  | [], v => some v
  | i :: path, .call _ ps => ps[i]?.bind (Value.at? path)
  | _ :: _, _ => none

namespace Expression

def ungrouped : Expression → Expression
  | .group _ inner _ => ungrouped inner
  | e => e

def at? : List Nat → Expression → Option Expression
  | [], e => some e.ungrouped
  | i :: path, e =>
    match e.ungrouped with
    | .call _ _ arguments _ => arguments.toList[i]?.bind (at? path)
    | _ => none

theorem meaning_ungrouped (trim : Bool) (e : Expression) :
    e.ungrouped.meaning trim = e.meaning trim := by
  fun_induction ungrouped e with
  | case1 _ _ _ ih => rw [ih, meaning]
  | case2 => rfl

theorem well_formed_ungrouped {e : Expression} (he : e.WellFormed) : e.ungrouped.WellFormed := by
  fun_induction ungrouped e with
  | case1 _ _ _ ih => exact ih he.2.1
  | case2 => exact he

theorem tokens_ungrouped (e : Expression) : e.ungrouped.tokens ⊆ e.tokens := by
  fun_induction ungrouped e with
  | case1 _ _ _ ih =>
    intro t ht
    have hinner := ih ht
    simp [tokens, hinner]
  | case2 => exact List.Subset.refl _

/-- The value behind some steps is what the expression behind them means. -/
theorem at_meaning (trim : Bool) {path : List Nat} {e f : Expression}
    (h : e.at? path = some f) : (e.meaning trim).at? path = some (f.meaning trim) := by
  induction path generalizing e with
  | nil =>
    rw [← Option.some.inj h, meaning_ungrouped, Value.at?]
  | cons i path ih =>
    rw [at?] at h
    split at h
    · rename_i name opening arguments closing hcall
      obtain ⟨argument, hargument, hrest⟩ := Option.bind_eq_some_iff.mp h
      rw [← meaning_ungrouped, hcall, meaning, Value.at?, argument_meanings_eq_map,
        List.getElem?_map, hargument]
      exact ih hrest
    · cases h

theorem at_well_formed {path : List Nat} {e f : Expression} (h : e.at? path = some f)
    (he : e.WellFormed) : f.WellFormed ∧ f.tokens ⊆ e.tokens := by
  induction path generalizing e with
  | nil =>
    obtain rfl := Option.some.inj h
    exact ⟨well_formed_ungrouped he, tokens_ungrouped e⟩
  | cons i path ih =>
    rw [at?] at h
    split at h
    · rename_i name opening arguments closing hcall
      obtain ⟨argument, hargument, hrest⟩ := Option.bind_eq_some_iff.mp h
      have hmem := List.mem_of_getElem? hargument
      have hwhole := well_formed_ungrouped he
      have htokens := tokens_ungrouped e
      rw [hcall] at hwhole htokens
      have hargumentWhole := ((arguments_well_formed_iff arguments).mp hwhole.2.2.1).1 _ hmem
      obtain ⟨hf, hinside⟩ := ih hrest hargumentWhole
      refine ⟨hf, fun t ht => htokens ?_⟩
      have hargumentToken := mem_argument_tokens hmem (hinside ht)
      simp [tokens, hargumentToken]
    · cases h

end Expression

theorem States.literal_text {kind : StatementKind} {source : String} {cs : List StatedColumn}
    (h : States kind source cs) {c : StatedColumn} (hc : c ∈ cs) {t : Token}
    (ht : t ∈ c.value.tokens) (hkind : t.kind.isLiteral = true) :
    LiteralText t.kind t.text.toList := by
  obtain ⟨ts, hlex, hstands⟩ := h.stands_among
  exact Lexer.literal_text_of_lex hlex ((hstands c hc).value t ht) hkind

/-- A number in the value of a column is the whole number that it stands for exactly if it is
written in digits alone and fits 64 bits. Otherwise it is the binary number that its text is read
as. -/
theorem reconstruct_types_numbers {kind : StatementKind} {options : Options} {source : String}
    {columns : Columns} (h : reconstruct kind options source = .ok columns) :
    ∃ cs, States kind source cs ∧ columns = statedColumns kind options cs ∧
      ∀ c ∈ cs, ∀ (path : List Nat) (sign : Option Token) (literal : Token),
        c.value.at? path = some (.number sign literal) →
          ∃ v, (c.entry options).2.at? path = some v ∧
            ((∃ n : Int64, n.toInt = Expression.wholeValue sign literal ∧ v = .integer n) ↔
              Expression.IsWhole sign literal) ∧
            (¬Expression.IsWhole sign literal →
              ∃ x, readBinary64? (Expression.numberText sign literal) = some x ∧ v = .real x) := by
  obtain ⟨cs, hstates, rfl⟩ := reconstruct_stated h
  refine ⟨cs, hstates, rfl, fun c hc path sign literal hplace => ?_⟩
  obtain ⟨ts, hlex, hstands⟩ := hstates.stands_among
  obtain ⟨hliteral, hinside⟩ := Expression.at_well_formed hplace (hstands c hc).wellFormed
  have hmem : literal ∈ c.value.tokens := hinside (by simp [Expression.tokens])
  have htext := hstates.literal_text hc hmem (by rw [hliteral.2]; rfl)
  rw [hliteral.2] at htext
  have hwhole := Expression.meaning_number_of_is_whole sign htext options.trimText
  have hother := Expression.meaning_number_of_not_is_whole sign htext options.trimText
  refine ⟨_, Expression.at_meaning options.trimText hplace, ⟨?_, hwhole⟩, hother⟩
  rintro ⟨n, -, hn⟩
  refine Classical.byContradiction fun hnot => ?_
  obtain ⟨x, -, hx⟩ := hother hnot
  rw [hx] at hn
  cases hn

def numberColumns : String :=
  "update t set a = - /* - */ 9223372036854775808, b = 9223372036854775808, " ++
    "c = to_date((007), +.5e3, 1.)"

theorem reconstruct_number_columns :
    ∃ columns cs, reconstruct .update defaultOptions numberColumns = .ok columns ∧
      columns.entries =
        [("th2_a", .integer Int64.minValue),
          ("th2_b", .real (Binary64.ofDecimal false 9223372036854775808 0)),
          ("th2_c", .call "TO_DATE" [.integer 7, .real (Binary64.ofDecimal false 5 2),
            .real (Binary64.ofDecimal false 1 0)])] ∧
      States .update numberColumns cs ∧
      ∀ c ∈ cs, ∀ (path : List Nat) (sign : Option Token) (literal : Token),
        c.value.at? path = some (.number sign literal) → ¬Expression.IsWhole sign literal →
          ∃ x, (c.entry defaultOptions).2.at? path = some (.real x) := by
  have hentries : (reconstruct .update defaultOptions numberColumns).toOption.map (·.entries) =
      some [("th2_a", .integer Int64.minValue),
        ("th2_b", .real (Binary64.ofDecimal false 9223372036854775808 0)),
        ("th2_c", .call "TO_DATE" [.integer 7, .real (Binary64.ofDecimal false 5 2),
          .real (Binary64.ofDecimal false 1 0)])] := by decide +kernel
  obtain ⟨columns, hcolumns, hvalues⟩ := ok_of_to_option_map hentries
  obtain ⟨cs, hstates, -, htyped⟩ := reconstruct_types_numbers hcolumns
  refine ⟨columns, cs, hcolumns, hvalues, hstates, fun c hc path sign literal hplace hwhole => ?_⟩
  obtain ⟨v, hv, -, hreal⟩ := htyped c hc path sign literal hplace
  obtain ⟨x, -, rfl⟩ := hreal hwhole
  exact ⟨x, hv⟩

end RedoLog
