import RedoLog.Number.Binary64

/-!
# The nearest binary number

The bits of a magnitude are its significand, counted from the least one with as many binary digits,
on top of the count of the digits that were rounded off. So rounding a ratio is bounded by the size
of the ratio.
-/

set_option autoImplicit false

namespace RedoLog

theorem two_to_pos (n : Nat) : 0 < twoTo n :=
  Nat.two_pow_pos n

theorem two_to_add (m n : Nat) : twoTo (m + n) = twoTo m * twoTo n :=
  Nat.pow_add 2 m n

theorem two_to_le {m n : Nat} (h : m ≤ n) : twoTo m ≤ twoTo n :=
  Nat.pow_le_pow_right (by decide) h

theorem two_to_lt {m n : Nat} : twoTo m < twoTo n ↔ m < n :=
  Nat.pow_lt_pow_iff_right (by decide)

theorem round_ratio_le (num den : Nat) : roundRatio num den ≤ num / den + 1 := by
  simp only [roundRatio]
  split
  · omega
  · split
    · omega
    · split <;> omega

namespace Binary64

theorem units_per_one_eq : unitsPerOne = twoTo 1074 := by
  rw [unitsPerOne]

theorem units_per_one_pos : 0 < unitsPerOne := by
  rw [units_per_one_eq]
  exact two_to_pos 1074

def droppedDigits (n : Nat) : Nat :=
  Nat.log2 n - 52

theorem lt_two_to_of_dropped (n : Nat) : n < twoTo (droppedDigits n + 53) := by
  have hlog : n < twoTo (Nat.log2 n + 1) := Nat.lt_log2_self
  have hle : Nat.log2 n + 1 ≤ droppedDigits n + 53 := by
    unfold droppedDigits
    omega
  exact Nat.lt_of_lt_of_le hlog (two_to_le hle)

theorem dropped_digits_le {n k : Nat} (h : n < twoTo (k + 53)) : droppedDigits n ≤ k := by
  rcases Nat.eq_zero_or_pos n with rfl | hpos
  · simp [droppedDigits]
  · have hlog : Nat.log2 n < k + 53 := (Nat.log2_lt (Nat.ne_of_gt hpos)).mpr h
    unfold droppedDigits
    omega

theorem nearest_units_le {num den k : Nat} (h : num / den < twoTo (k + 53)) :
    nearestUnits num den ≤ (k + 2) * twoTo 52 := by
  have hdropped := dropped_digits_le h
  have hsignificand : num / (den * twoTo (droppedDigits (num / den))) < twoTo 53 := by
    rw [← Nat.div_div_eq_div_mul]
    apply (Nat.div_lt_iff_lt_mul (two_to_pos _)).mpr
    rw [← two_to_add, Nat.add_comm]
    exact lt_two_to_of_dropped (num / den)
  have hround := round_ratio_le num (den * twoTo (droppedDigits (num / den)))
  have htwo : twoTo 53 = 2 * twoTo 52 := rfl
  calc nearestUnits num den
      ≤ droppedDigits (num / den) * twoTo 52 +
          roundRatio num (den * twoTo (droppedDigits (num / den))) := Nat.min_le_right _ _
    _ ≤ k * twoTo 52 + 2 * twoTo 52 := Nat.add_le_add (Nat.mul_le_mul_right _ hdropped) (by omega)
    _ = (k + 2) * twoTo 52 := (Nat.add_mul k 2 _).symm

theorem bits_of_magnitude {m : Nat} (h : m ≤ infinityBits) :
    (ofMagnitude false m).bits.toNat = m := by
  have hbound : infinityBits < 2 ^ 64 := by decide
  simp only [ofMagnitude, Bool.false_eq_true, if_false, UInt64.toNat_ofNat']
  exact Nat.mod_eq_of_lt (Nat.lt_of_le_of_lt h hbound)

theorem field_of_magnitude {m : Nat} (h : m ≤ infinityBits) :
    (ofMagnitude false m).field = m / twoTo 52 := by
  have hbound : infinityBits / twoTo 52 < twoTo 11 := by decide
  rw [field, bits_of_magnitude h]
  exact Nat.mod_eq_of_lt (Nat.lt_of_le_of_lt (Nat.div_le_div_right h) hbound)

theorem is_finite_of_magnitude {m : Nat} (h : m < infinityBits) :
    (ofMagnitude false m).isFinite = true := by
  have hfield : m / twoTo 52 < 2047 := (Nat.div_lt_iff_lt_mul (two_to_pos 52)).mpr h
  rw [isFinite, field_of_magnitude (Nat.le_of_lt h)]
  simpa using Nat.ne_of_lt hfield

theorem significand_lt (x : Binary64) : x.significand < twoTo 53 := by
  have hfraction : x.fraction < twoTo 52 := Nat.mod_lt _ (two_to_pos 52)
  have htwo : twoTo 53 = twoTo 52 + twoTo 52 := rfl
  unfold significand
  split <;> omega

theorem units_of_magnitude_lt {m k : Nat} (h : m ≤ infinityBits) (hk : m ≤ (k + 1) * twoTo 52) :
    (ofMagnitude false m).units < twoTo (k + 53) := by
  have hfield : (ofMagnitude false m).field ≤ k + 1 := by
    rw [field_of_magnitude h]
    exact Nat.div_le_of_le_mul (by rwa [Nat.mul_comm] at hk)
  have hspacing : (ofMagnitude false m).spacing ≤ twoTo k := two_to_le (by omega)
  calc (ofMagnitude false m).units
      ≤ (ofMagnitude false m).significand * twoTo k := Nat.mul_le_mul_left _ hspacing
    _ < twoTo 53 * twoTo k := Nat.mul_lt_mul_of_pos_right (significand_lt _) (two_to_pos k)
    _ = twoTo (k + 53) := by rw [← two_to_add, Nat.add_comm]

theorem nearest_units_le_infinity (num den : Nat) : nearestUnits num den ≤ infinityBits :=
  Nat.min_le_left _ _

theorem is_finite_of_ratio {num den k : Nat} (h : num * unitsPerOne / den < twoTo (k + 53))
    (hk : k + 2 < 2047) : (ofRatio false num den).isFinite = true := by
  apply is_finite_of_magnitude
  apply Nat.lt_of_le_of_lt (nearest_units_le h)
  exact Nat.mul_lt_mul_of_pos_right hk (two_to_pos 52)

theorem units_of_ratio_lt {num den k : Nat} (h : num * unitsPerOne / den < twoTo (k + 53)) :
    (ofRatio false num den).units < twoTo (k + 1 + 53) :=
  units_of_magnitude_lt (nearest_units_le_infinity _ _) (nearest_units_le h)

theorem units_whole_lt {n : Nat} (h : n < UInt64.size) :
    n * unitsPerOne / 1 < twoTo (1085 + 53) := by
  have hsize : UInt64.size = twoTo 64 := rfl
  have hbound : twoTo (1085 + 53) = UInt64.size * unitsPerOne := by
    rw [hsize, units_per_one_eq, ← two_to_add]
  rw [Nat.div_one, hbound]
  exact Nat.mul_lt_mul_of_pos_right h units_per_one_pos

end Binary64

end RedoLog
