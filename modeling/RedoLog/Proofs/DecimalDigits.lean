import RedoLog.Number.Numeral
import RedoLog.Number.Reading

/-!
# Digits of whole numbers

The digits of a number are read back as that number, and so is a signed number of 64 bits, the
least one included.
-/

set_option autoImplicit false

namespace RedoLog

theorem digits_value_digits (n : Nat) : digitsValue (Numeral.digits n) = n :=
  Nat.ofDigitChars_ten_toDigits

theorem digits_value_append (ds es : List Char) :
    digitsValue (ds ++ es) = tenTo es.length * digitsValue ds + digitsValue es := by
  rw [digitsValue, Nat.ofDigitChars_append, Nat.ofDigitChars_eq_ofDigitChars_zero]
  rfl

theorem digit_le {c : Char} (h : c.isDigit = true) : c.toNat - 48 ≤ 9 := by
  have hrange : 48 ≤ c.toNat ∧ c.toNat ≤ 57 := Char.isDigit_iff_toNat.mp h
  omega

theorem digits_value_lt {ds : List Char} (h : ∀ c ∈ ds, c.isDigit = true) :
    digitsValue ds < tenTo ds.length := by
  induction ds with
  | nil => decide
  | cons d ds ih =>
    have hrest := ih fun c hc => h c (List.mem_cons_of_mem _ hc)
    have hone : digitsValue [d] ≤ 9 := by
      rw [digitsValue, Nat.ofDigitChars_cons, Nat.ofDigitChars_nil]
      exact Nat.le_trans (Nat.le_of_eq (Nat.zero_add _)) (digit_le (h d (List.mem_cons_self ..)))
    calc digitsValue (d :: ds) = tenTo ds.length * digitsValue [d] + digitsValue ds :=
          digits_value_append [d] ds
      _ < tenTo ds.length * 9 + tenTo ds.length :=
          Nat.add_lt_add_of_le_of_lt (Nat.mul_le_mul_left _ hone) hrest
      _ = tenTo (ds.length + 1) := rfl

theorem digits_ne_nil (n : Nat) : Numeral.digits n ≠ [] :=
  Nat.toDigits_ne_nil

theorem is_digit_of_mem_digits {n : Nat} {c : Char} (h : c ∈ Numeral.digits n) :
    c.isDigit = true :=
  Nat.isDigit_of_mem_toDigits (by decide) (by decide) h

theorem split_digits_digits {ds rest : List Char} (hds : ∀ c ∈ ds, c.isDigit = true)
    (hrest : ∀ c ∈ rest.head?, c.isDigit = false) : Text.splitDigits (ds ++ rest) = (ds, rest) := by
  have hnone : rest.takeWhile Char.isDigit = [] ∧ rest.dropWhile Char.isDigit = rest := by
    cases rest with
    | nil => exact ⟨rfl, rfl⟩
    | cons c cs =>
      have hc : c.isDigit = false := hrest c rfl
      simp [hc]
  rw [Text.splitDigits, List.takeWhile_append_of_pos hds, List.dropWhile_append_of_pos hds,
    hnone.1, hnone.2, List.append_nil]

theorem signed_nat_abs (n : Int) : signed (n < 0) n.natAbs = n := by
  unfold signed
  by_cases h : n < 0
  · simp only [h, decide_true, if_true]
    omega
  · simp only [h, decide_false, Bool.false_eq_true, if_false]
    omega

theorem int64_to_int (n : Int64) : int64? n.toInt = some n := by
  have hbounds : Int64.minValue.toInt ≤ n.toInt ∧ n.toInt ≤ Int64.maxValue.toInt :=
    ⟨n.minValue_le_toInt, n.toInt_le⟩
  rw [int64?, dif_pos hbounds, Int64.ofIntLE_toInt]

theorem write_of_int (n : Int) :
    (Numeral.ofInt n).write = (if n < 0 then ['-'] else []) ++ Numeral.digits n.natAbs := by
  simp [Numeral.ofInt, Numeral.write]

theorem split_sign_digits {ds : List Char} (hds : ∀ c ∈ ds, c.isDigit = true) :
    splitSign ds = (false, ds) := by
  cases ds with
  | nil => rfl
  | cons c cs =>
    have hc := hds c (by simp)
    have hsigns : c ≠ '-' ∧ c ≠ '+' := by
      constructor <;> rintro rfl <;> revert hc <;> decide
    simp [splitSign, hsigns]

theorem read_int64_write (n : Int64) :
    readInt64? (String.ofList (Numeral.ofInt n.toInt).write) = some n := by
  have hdigits : ∀ c ∈ Numeral.digits n.toInt.natAbs, c.isDigit = true :=
    fun c hc => is_digit_of_mem_digits hc
  have hsplit : splitSign (Numeral.ofInt n.toInt).write =
      (decide (n.toInt < 0), Numeral.digits n.toInt.natAbs) := by
    rw [write_of_int]
    by_cases h : n.toInt < 0
    · simp [h, splitSign]
    · simp [h, split_sign_digits hdigits]
  have hgood : Numeral.digits n.toInt.natAbs ≠ [] ∧
      (Numeral.digits n.toInt.natAbs).all Char.isDigit = true :=
    ⟨digits_ne_nil _, List.all_eq_true.mpr hdigits⟩
  simp only [readInt64?, String.toList_ofList, hsplit]
  rw [if_pos hgood, digits_value_digits, signed_nat_abs, int64_to_int]

end RedoLog
