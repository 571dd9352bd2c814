import RedoLog.Json.Reader
import RedoLog.Json.Writer
import RedoLog.Proofs.DecimalDigits

/-!
# Literals of JSON texts

A numeral and a string literal that are written are read back, whatever follows them: a numeral as
long as nothing follows that could go on with it, a string in any case. An escaped control is read
as a code unit that stands for itself.
-/

set_option autoImplicit false

namespace RedoLog

theorem head_digits_ne_zero {n : Nat} (h : 0 < n) : (Numeral.digits n).head? ≠ some '0' := by
  induction n using Nat.strongRecOn with
  | ind n ih =>
    by_cases hsmall : n < 10
    · rw [Numeral.digits, Nat.toDigits_of_lt_base hsmall]
      have hall : ∀ d < 10, 0 < d → [Nat.digitChar d].head? ≠ some '0' := by decide
      exact hall n hsmall h
    · have hlead : (Numeral.digits (n / 10)).head? ≠ some '0' := ih (n / 10) (by omega) (by omega)
      obtain ⟨c, cs, hcs⟩ := List.exists_cons_of_ne_nil (digits_ne_nil (n / 10))
      rw [hcs] at hlead
      rw [Numeral.digits, Nat.toDigits_of_base_le (by decide) (by omega)]
      change (Numeral.digits (n / 10) ++ [(n % 10).digitChar]).head? ≠ some '0'
      rw [hcs]
      exact hlead

theorem digits_ne_leading_zero (n : Nat) (c : Char) (cs : List Char) :
    Numeral.digits n ≠ '0' :: c :: cs := by
  intro h
  rcases Nat.eq_zero_or_pos n with rfl | hpos
  · cases h
  · exact head_digits_ne_zero hpos (by rw [h]; rfl)

namespace Json

def EndsNumeral (rest : List Char) : Prop :=
  ∀ c ∈ rest.head?, c.isDigit = false ∧ c ≠ '.' ∧ c ≠ 'e' ∧ c ≠ 'E'

theorem ends_numeral_cons {c : Char} (h : c ∈ [',', ']', '\x7d']) (rest : List Char) :
    EndsNumeral (c :: rest) := by
  have hall : ∀ d ∈ [',', ']', '\x7d'], d.isDigit = false ∧ d ≠ '.' ∧ d ≠ 'e' ∧ d ≠ 'E' := by
    simp
  intro d hd
  rw [List.head?_cons, Option.mem_some] at hd
  exact hd ▸ hall c h

theorem read_whole_digits (n : Nat) {rest : List Char}
    (hrest : ∀ c ∈ rest.head?, c.isDigit = false) :
    readWhole? (Numeral.digits n ++ rest) = some (n, rest) := by
  have hdigits : ∀ c ∈ Numeral.digits n, c.isDigit = true := fun c hc => is_digit_of_mem_digits hc
  have hvalue := digits_value_digits n
  rw [readWhole?, split_digits_digits hdigits hrest]
  split
  · rename_i hnil
    exact absurd (Prod.mk.inj hnil).1 (digits_ne_nil n)
  · rename_i hzero
    exact absurd (Prod.mk.inj hzero).1 (digits_ne_leading_zero n _ _)
  · rename_i hds
    obtain ⟨rfl, rfl⟩ := Prod.mk.inj hds
    rw [hvalue]

theorem read_fraction_write {fraction : List Char} (hdigits : ∀ c ∈ fraction, c.isDigit = true)
    {rest : List Char} (hrest : ∀ c ∈ rest.head?, c.isDigit = false ∧ c ≠ '.') :
    readFraction? ((if fraction = [] then [] else '.' :: fraction) ++ rest) =
      some (fraction, rest) := by
  by_cases hnil : fraction = []
  · rw [if_pos hnil, List.nil_append, hnil]
    cases rest with
    | nil => rfl
    | cons c cs =>
      have hpoint : c ≠ '.' := (hrest c rfl).2
      simp [readFraction?, hpoint]
  · obtain ⟨d, ds, rfl⟩ := List.exists_cons_of_ne_nil hnil
    have hsplit := split_digits_digits hdigits fun c hc => (hrest c hc).1
    rw [if_neg hnil, List.cons_append, readFraction?, hsplit]

theorem read_exponent_write (exponent : Option Int) {rest : List Char} (hrest : EndsNumeral rest) :
    readExponent? (exponent.elim [] Numeral.writeExponent ++ rest) = some (exponent, rest) := by
  cases exponent with
  | none =>
    cases rest with
    | nil => rfl
    | cons c cs =>
      obtain ⟨-, -, hlower, hupper⟩ := hrest c rfl
      simp [readExponent?, hlower, hupper]
  | some e =>
    have hdigits : ∀ c ∈ Numeral.digits e.natAbs, c.isDigit = true :=
      fun c hc => is_digit_of_mem_digits hc
    have hsplit := split_digits_digits hdigits fun c hc => (hrest c hc).1
    have hvalue : signed (decide (e < 0)) (digitsValue (Numeral.digits e.natAbs)) = e := by
      rw [digits_value_digits, signed_nat_abs]
    obtain ⟨d, ds, hds⟩ := List.exists_cons_of_ne_nil (digits_ne_nil e.natAbs)
    have hsign : splitSign ((if e < 0 then '-' else '+') :: (Numeral.digits e.natAbs ++ rest)) =
        (decide (e < 0), Numeral.digits e.natAbs ++ rest) := by
      by_cases h : e < 0 <;> simp [splitSign, h]
    simp only [Option.elim_some, Numeral.writeExponent, List.cons_append, readExponent?, true_or,
      if_true, hsign, hsplit]
    rw [hds] at hvalue ⊢
    simp only [hvalue]

theorem write_eq (n : Numeral) :
    n.write = (if n.negative then ['-'] else []) ++ (Numeral.digits n.whole ++
      ((if n.fraction = [] then [] else '.' :: n.fraction) ++
        n.exponent.elim [] Numeral.writeExponent)) := by
  rw [Numeral.write, List.append_assoc, List.append_assoc]
  cases n.exponent <;> rfl

theorem read_minus_digits (negative : Bool) (n : Nat) (rest : List Char) :
    readMinus ((if negative then ['-'] else []) ++ (Numeral.digits n ++ rest)) =
      (negative, Numeral.digits n ++ rest) := by
  cases negative with
  | true => rfl
  | false =>
    obtain ⟨c, cs, hcs⟩ := List.exists_cons_of_ne_nil (digits_ne_nil n)
    have hc : c.isDigit = true := is_digit_of_mem_digits (n := n) (by rw [hcs]; simp)
    have hminus : c ≠ '-' := by
      rintro rfl
      revert hc
      decide
    simp [readMinus, hcs, hminus]

theorem read_numeral_write {n : Numeral} (hdigits : ∀ c ∈ n.fraction, c.isDigit = true)
    {rest : List Char} (hrest : EndsNumeral rest) :
    readNumeral? (n.write ++ rest) = some (n, rest) := by
  have hexponent : ∀ c ∈ (n.exponent.elim [] Numeral.writeExponent ++ rest).head?,
      c.isDigit = false ∧ c ≠ '.' := by
    intro c hc
    cases he : n.exponent with
    | none =>
      rw [he] at hc
      exact ⟨(hrest c hc).1, (hrest c hc).2.1⟩
    | some e =>
      rw [he] at hc
      obtain rfl : 'e' = c := by simpa [Numeral.writeExponent] using hc
      decide
  have hfraction : ∀ c ∈ ((if n.fraction = [] then [] else '.' :: n.fraction) ++
      (n.exponent.elim [] Numeral.writeExponent ++ rest)).head?, c.isDigit = false := by
    intro c hc
    by_cases hnil : n.fraction = []
    · rw [if_pos hnil, List.nil_append] at hc
      exact (hexponent c hc).1
    · rw [if_neg hnil] at hc
      obtain rfl : '.' = c := by simpa using hc
      decide
  rw [write_eq, List.append_assoc, List.append_assoc, List.append_assoc, readNumeral?,
    read_minus_digits]
  simp only [read_whole_digits n.whole hfraction, read_fraction_write hdigits hexponent,
    read_exponent_write n.exponent hrest, Option.bind_eq_bind, Option.bind_some]
  rfl

theorem escape_cases (c : Char) :
    (∃ e, escape c = ['\\', e] ∧ e ≠ 'u' ∧ unescape? e = some c) ∨
      (c.toNat < 0x20 ∧
        escape c = ['\\', 'u', '0', '0', hexDigit (c.toNat / 16), hexDigit (c.toNat % 16)]) ∨
      (escape c = [c] ∧ c ≠ '"' ∧ c ≠ '\\' ∧ ¬c.toNat < 0x20) := by
  unfold escape
  split
  case h_8 hquote hbackslash _ _ _ _ _ =>
    by_cases hcontrol : c.toNat < 0x20
    · rw [if_pos hcontrol]
      exact Or.inr (Or.inl ⟨hcontrol, rfl⟩)
    · rw [if_neg hcontrol]
      exact Or.inr (Or.inr ⟨rfl, hquote, hbackslash, hcontrol⟩)
  all_goals exact Or.inl ⟨_, rfl, by decide, rfl⟩

theorem hex_value4_hex_digit :
    ∀ n < 0x20, hexValue4? '0' '0' (hexDigit (n / 16)) (hexDigit (n % 16)) = some n := by
  decide

theorem join_pieces_control {n : Nat} (h : n < 0x20) (pieces : List Piece) :
    joinPieces? (.unit n :: pieces) = (joinPieces? pieces).map (Char.ofNat n :: ·) := by
  have hhalf : isHighHalf n = false ∧ isLowHalf n = false := by
    simp only [isHighHalf, isLowHalf, Bool.and_eq_false_iff, decide_eq_false_iff_not]
    omega
  cases pieces with
  | nil => simp [joinPieces?, hhalf]
  | cons piece pieces => cases piece <;> simp [joinPieces?, hhalf]

theorem read_pieces_escape (cs rest : List Char) :
    ∃ pieces, readPieces? (cs.flatMap escape ++ '"' :: rest) = some (pieces, rest) ∧
      joinPieces? pieces = some cs := by
  induction cs with
  | nil => exact ⟨[], rfl, rfl⟩
  | cons c cs ih =>
    obtain ⟨pieces, hread, hjoin⟩ := ih
    rw [List.flatMap_cons, List.append_assoc]
    rcases escape_cases c with ⟨e, hescape, hletter, hunescape⟩ | ⟨hcontrol, hescape⟩ |
      ⟨hescape, hquote, hbackslash, hcontrol⟩
    · refine ⟨.char c :: pieces, ?_, by simp [joinPieces?, hjoin]⟩
      rw [hescape]
      simp [readPieces?, hletter, hunescape, hread]
    · refine ⟨.unit c.toNat :: pieces, ?_, ?_⟩
      · rw [hescape]
        simp [readPieces?, hex_value4_hex_digit c.toNat hcontrol, hread]
      · rw [join_pieces_control hcontrol, hjoin, Option.map_some, Char.ofNat_toNat]
    · refine ⟨.char c :: pieces, ?_, by simp [joinPieces?, hjoin]⟩
      rw [hescape]
      simp [readPieces?, hbackslash, hcontrol, hread]

theorem read_string_write (s : String) (rest : List Char) :
    readString? (s.toList.flatMap escape ++ '"' :: rest) = some (some s, rest) := by
  obtain ⟨pieces, hread, hjoin⟩ := read_pieces_escape s.toList rest
  simp [readString?, hread, hjoin]

end Json

end RedoLog
