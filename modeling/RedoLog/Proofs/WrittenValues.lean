import RedoLog.Proofs.CallDepth
import RedoLog.Proofs.WrittenSyntax

/-!
# Values that are written and read

A value without binary numbers that is written as an expression is what this expression means.
-/

set_option autoImplicit false

namespace RedoLog

open Lexer

namespace Value

/-- Values that a statement can state: null, whole numbers, texts, and calls of the functions that
are rebuilt on one or more such values. -/
inductive Writable : Value → Prop where
  | null : Writable .null
  | integer (n : Int64) : Writable (.integer n)
  | text (s : String) : Writable (.text s)
  | call (f : String) (ps : List Value) (hf : f ∈ supportedFunctions) (hne : ps ≠ [])
      (hps : ∀ p ∈ ps, Writable p) : Writable (.call f ps)

theorem write_sql_all_eq (ps : List Value) : writeSqlAll ps = writeList (ps.map writeSql) := by
  induction ps with
  | nil => rfl
  | cons p ps ih =>
    cases ps with
    | nil => simp [writeSqlAll, writeList]
    | cons q qs =>
      rw [writeSqlAll, ih]
      · exact (write_list_cons p.writeSql (by simp)).symm
      · simp

end Value

structure Expression.Spells (v : Value) (e : Expression) : Prop where
  wellFormed : e.WellFormed
  nesting : e.nesting ≤ v.callDepth + 1
  supported : ∀ c ∈ e.calls, c.isSupported = true
  meaning : e.meaning false = v

namespace Value

theorem writes_null : Writes Expression.tokens (Expression.Spells .null) (writeSql .null) := by
  have hword : Writes (fun t => [t]) (fun t => t.kind = .nullWord) ['N', 'U', 'L', 'L'] :=
    writes_keyword (by decide) (by decide)
  apply hword.map Expression.null (fun _ => rfl)
  exact fun t ht => ⟨ht, by simp [Expression.nesting], by simp [Expression.calls], rfl⟩

theorem writes_text (s : String) :
    Writes Expression.tokens (Expression.Spells (.text s)) (writeSql (.text s)) := by
  apply (writes_token fun _ => scans_text s.toList).map (Expression.text none) (fun _ => rfl)
  rintro t ⟨hkind, htext⟩
  have hcontent : textContent false t.text = s := by
    simp [textContent, unquoteText, htext, Text.strip_quotes_quoted, Text.fold_quotes_double_quotes]
  exact ⟨⟨by simp, hkind⟩, by simp [Expression.nesting], by simp [Expression.calls],
    by rw [Expression.meaning, hcontent]⟩

theorem writes_digits {ds : List Char} (hne : ds ≠ []) (hds : ∀ c ∈ ds, c.isDigit = true) :
    Writes (fun t => [t]) (fun t => t.kind = .number ∧ t.text = String.ofList ds) ds :=
  writes_token fun _ => scans_digits hne hds

theorem writes_negative {ds : List Char} (hne : ds ≠ []) (hds : ∀ c ∈ ds, c.isDigit = true) :
    Writes (fun p : Token × Token => [p.1, p.2])
      (fun p => p.1.kind = .minus ∧ p.2.kind = .number ∧ p.2.text = String.ofList ds)
      ('-' :: ds) := by
  obtain ⟨ls, -, hscans, hbuilt⟩ := writes_digits hne hds
  obtain ⟨c, cs, rfl⟩ := List.exists_cons_of_ne_nil hne
  have hc : c.isDigit = true := hds c (List.mem_cons_self ..)
  refine ⟨(.minus, "-") :: ls, by simp, fun rest hrest => scans_minus hc (hscans rest hrest),
    fun ts hts => ?_⟩
  obtain ⟨sign, us, rfl, hkind, -, hus⟩ := cons_of_map_lexeme hts
  obtain ⟨t, rfl, ht⟩ := hbuilt us hus
  exact ⟨(sign, t), rfl, hkind, ht⟩

theorem writes_integer (n : Int64) :
    Writes Expression.tokens (Expression.Spells (.integer n)) (writeSql (.integer n)) := by
  have hne := digits_ne_nil n.toInt.natAbs
  have hdigits : ∀ c ∈ Numeral.digits n.toInt.natAbs, c.isDigit = true :=
    fun c hc => is_digit_of_mem_digits hc
  have hread := read_int64_write n
  rw [write_of_int] at hread
  -- Whether a number is an integer is seen from its digits, without the sign.
  have hvalue : ∀ text, readInt64? text = some n →
      numberValue text ((String.ofList (Numeral.digits n.toInt.natAbs)).toList.all
        Char.isDigit) = .integer n := by
    intro text htext
    rw [numberValue, String.toList_ofList, if_pos (List.all_eq_true.mpr hdigits), htext]
  rw [writeSql, write_of_int]
  by_cases hneg : n.toInt < 0
  · rw [if_pos hneg, List.singleton_append] at hread ⊢
    apply (writes_negative hne hdigits).map (fun p => Expression.number (some p.1) p.2)
      (fun _ => rfl)
    rintro ⟨sign, t⟩ ⟨hsign, hkind, htext⟩
    dsimp only at hsign hkind htext
    have hsigned : Expression.numberText (some sign) t =
        String.ofList ('-' :: Numeral.digits n.toInt.natAbs) := by
      rw [← List.singleton_append, String.ofList_append]
      simp [Expression.numberText, hsign, htext]
    exact ⟨⟨by simp [hsign], hkind⟩, by simp [Expression.nesting], by simp [Expression.calls],
      by rw [Expression.meaning, hsigned, htext, hvalue _ hread]⟩
  · rw [if_neg hneg, List.nil_append] at hread ⊢
    apply (writes_digits hne hdigits).map (Expression.number none) (fun _ => rfl)
    rintro t ⟨hkind, htext⟩
    exact ⟨⟨by simp, hkind⟩, by simp [Expression.nesting], by simp [Expression.calls],
      by rw [Expression.meaning, Expression.numberText, htext, hvalue _ hread]⟩

theorem word_of_supported {f : String} (hf : f ∈ supportedFunctions) :
    (∃ c cs, f.toList = c :: cs ∧ OpenWord c cs) ∧ TokenKind.ofWord f.toList = .name ∧
      String.ofList (Text.upper f.toList) = f := by
  simp only [supportedFunctions, List.mem_cons, List.not_mem_nil, or_false] at hf
  rcases hf with rfl | rfl
  · have hopen : OpenWord 'T' "O_DATE".toList := ⟨by decide, List.all_eq_true.mp (by decide)⟩
    exact ⟨⟨_, _, by decide, hopen⟩, by decide, by decide⟩
  · have hopen : OpenWord 'T' "O_TIMESTAMP".toList := ⟨by decide, List.all_eq_true.mp (by decide)⟩
    exact ⟨⟨_, _, by decide, hopen⟩, by decide, by decide⟩

theorem writes_call {f : String} (hf : f ∈ supportedFunctions) {ps : List Value} (hne : ps ≠ [])
    (hps : ∀ p ∈ ps, Writes Expression.tokens (Expression.Spells p) p.writeSql) :
    Writes Expression.tokens (Expression.Spells (.call f ps)) (writeSql (.call f ps)) := by
  obtain ⟨⟨c, cs, hcs, hopen⟩, hname, hcapitals⟩ := word_of_supported hf
  have hword := writes_word hopen
  rw [← hcs, String.ofList_toList, hname] at hword
  have hparameters := (Writes.list ps hne hps).parentheses
  rw [writeSql, write_sql_all_eq]
  apply (hword.append hparameters fun _ => delimits_cons (by decide) _).map
    (fun p => Expression.call p.1 p.2.1 p.2.2.1 p.2.2.2)
  · rintro ⟨word, opening, arguments, closing⟩
    simp [Expression.tokens, Expression.argument_tokens_eq]
  rintro ⟨word, opening, arguments, closing⟩
    ⟨⟨hword, htext⟩, hopening, ⟨hcommas, hall⟩, hclosing⟩
  have hspelled := forall₂_mem_right hall
  refine ⟨⟨hword, hopening, ?_, hclosing⟩, ?_, ?_, ?_⟩
  · apply (Expression.arguments_well_formed_iff arguments).mpr
    refine ⟨fun e he => ?_, hcommas⟩
    obtain ⟨p, -, hp⟩ := hspelled e he
    exact hp.wellFormed
  · apply Nat.succ_le_succ
    apply (Expression.argument_nesting_le arguments _).mpr
    intro e he
    obtain ⟨p, hmem, hp⟩ := hspelled e he
    have hdepth := (call_depth_all_le ps _).mp (Nat.le_refl _) p hmem
    exact Nat.le_trans hp.nesting (Nat.succ_le_succ hdepth)
  · have hsupported : (Call.mk word closing).isSupported = true :=
      List.any_eq_true.mpr ⟨f, hf, by rw [htext, Text.same_letters_self]⟩
    rw [Expression.calls, Expression.argument_calls_eq_flat_map, List.forall_mem_cons,
      List.forall_mem_flatMap]
    refine ⟨hsupported, fun e he => ?_⟩
    obtain ⟨p, -, hp⟩ := hspelled e he
    exact hp.supported
  · rw [Expression.meaning, Expression.argument_meanings_eq_map, htext, hcapitals,
      map_eq_of_forall₂ (hall.imp fun p e h => h.meaning), List.map_id']

/-- A written value is an expression that means this value. -/
theorem Writable.writes {v : Value} (hv : v.Writable) :
    Writes Expression.tokens (Expression.Spells v) v.writeSql := by
  induction hv with
  | null => exact writes_null
  | integer n => exact writes_integer n
  | text s => exact writes_text s
  | call f ps hf hne _ ih => exact writes_call hf hne ih

end Value

end RedoLog
