import RedoLog.Json.Number
import RedoLog.Proofs.DecimalDigits
import RedoLog.Proofs.NearestNumber

/-!
# Numbers in JSON texts

The numeral of a whole number of 64 bits is read as this number, and the numeral of a binary number
is never taken for a whole one. Both have digits wherever a numeral may have some, and no whole
number of 64 bits is too great for a binary number.
-/

set_option autoImplicit false

namespace RedoLog

theorem integer_of_int (n : Int) : (Numeral.ofInt n).integer? = some n := by
  have hzero : ¬(decide (n < 0) = true ∧ n.natAbs = 0) := by
    rw [decide_eq_true_eq]
    omega
  rw [Numeral.integer?, if_pos ⟨rfl, rfl, hzero⟩]
  exact congrArg some (signed_nat_abs n)

namespace Numeral

theorem le_of_digit_chars (ds : List Char) (significand : Nat) :
    significand ≤ Nat.ofDigitChars 10 ds significand := by
  rw [Nat.ofDigitChars_eq_ofDigitChars_zero]
  exact Nat.le_trans (Nat.le_mul_of_pos_left _ (Nat.pow_pos (by decide))) (Nat.le_add_right _ _)

theorem gather_of_lt {ds : List Char} {significand : Nat}
    (h : Nat.ofDigitChars 10 ds significand < UInt64.size) :
    gather significand ds = (Nat.ofDigitChars 10 ds significand, []) := by
  induction ds generalizing significand with
  | nil => rfl
  | cons d ds ih =>
    rw [Nat.ofDigitChars_cons] at h ⊢
    have hnext : 10 * significand + (d.toNat - 48) < UInt64.size :=
      Nat.lt_of_le_of_lt (le_of_digit_chars ds _) h
    simp only [gather, if_pos hnext]
    exact ih h

/-- All digits of a numeral count if the number that they make without the point fits. -/
theorem parts_of_lt {n : Numeral} (h : digitsValue (digits n.whole ++ n.fraction) < UInt64.size) :
    n.parts = (digitsValue (digits n.whole ++ n.fraction),
      n.exponent.getD 0 - n.fraction.length) := by
  rw [digitsValue, Nat.ofDigitChars_append] at h ⊢
  have hwhole := gather_of_lt (Nat.lt_of_le_of_lt (le_of_digit_chars n.fraction _) h)
  simp [parts, hwhole, gather_of_lt h]

theorem real_of_int {n : Int} (h : n.natAbs < UInt64.size) : (ofInt n).real?.isSome = true := by
  have hparts : (ofInt n).parts = (n.natAbs, 0) := by
    have hvalue : digitsValue (digits (ofInt n).whole ++ (ofInt n).fraction) = n.natAbs := by
      simp [ofInt, digits_value_digits]
    rw [parts_of_lt (by rw [hvalue]; exact h), hvalue]
    rfl
  have hunits := Binary64.units_of_ratio_lt (Binary64.units_whole_lt h)
  have hone : (Binary64.powerOfTen 0).units = Binary64.unitsPerOne := by decide +kernel
  have hproduct : ((Binary64.ofRatio false n.natAbs 1).mulMagnitude
      (Binary64.powerOfTen 0)).isFinite = true := by
    apply Binary64.is_finite_of_ratio (k := 1086) _ (by decide)
    rw [hone, Nat.mul_assoc, Nat.mul_div_cancel _
      (Nat.mul_pos Binary64.units_per_one_pos Binary64.units_per_one_pos)]
    exact hunits
  have hmagnitude : ((Binary64.ofRatio false n.natAbs 1).mulPower? 0).isSome = true := by
    rw [Binary64.mulPower?]
    split
    · rfl
    · simp [hproduct]
  simpa [real?, hparts] using hmagnitude

theorem is_digit_positional (negative : Bool) (d : Decimal) :
    ∀ c ∈ (positional negative d).fraction, c.isDigit = true := by
  intro c hc
  unfold positional at hc
  split at hc
  · cases hc
  · rcases List.mem_append.mp hc with hzero | hdigit
    · rw [List.eq_of_mem_replicate hzero]
      decide
    · exact is_digit_of_mem_digits hdigit

end Numeral

theorem json_numeral_shape (x : Binary64) :
    (∀ c ∈ x.jsonNumeral.fraction, c.isDigit = true) ∧ x.jsonNumeral.integer? = none := by
  unfold Binary64.jsonNumeral
  split
  · exact ⟨by simp, by simp [Numeral.integer?]⟩
  · dsimp only
    split
    · have hdigits := Numeral.is_digit_positional x.isNegative (Decimal.shortest .even x)
      unfold Numeral.withPoint
      split
      · exact ⟨by simp, by simp [Numeral.integer?]⟩
      · rename_i hne
        exact ⟨hdigits, by simp [Numeral.integer?, hne]⟩
    · refine ⟨fun c hc => ?_, by simp [Numeral.integer?, Numeral.scientific]⟩
      exact is_digit_of_mem_digits (List.mem_of_mem_drop hc)

end RedoLog
