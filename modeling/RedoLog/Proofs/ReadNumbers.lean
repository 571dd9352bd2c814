import RedoLog.Proofs.JsonNumbers

/-!
# Numbers that are read are finite

A numeral is read in steps, and no step leaves the finite numbers unless it fails: the significand
fits 64 bits, a product is checked, and the powers of ten by which numbers are divided are at least
one.
-/

set_option autoImplicit false

namespace RedoLog

theorem le_round_ratio (num den : Nat) : num / den ≤ roundRatio num den := by
  simp only [roundRatio]
  split
  · exact Nat.le_refl _
  · split
    · exact Nat.le_succ _
    · split
      · exact Nat.le_refl _
      · exact Nat.le_succ _

namespace Binary64

theorem dropped_of_two_to_le {n k : Nat} (h : twoTo (k + 52) ≤ n) :
    k ≤ droppedDigits n ∧ twoTo (droppedDigits n + 52) ≤ n := by
  have hpos : n ≠ 0 := Nat.ne_of_gt (Nat.lt_of_lt_of_le (two_to_pos _) h)
  have hlog : k + 52 ≤ Nat.log2 n := (Nat.le_log2 hpos).mpr h
  have hdigits : droppedDigits n + 52 = Nat.log2 n := by
    unfold droppedDigits
    omega
  refine ⟨by omega, ?_⟩
  rw [hdigits]
  exact Nat.log2_self_le hpos

theorem le_nearest_units {num den k : Nat} (h : twoTo (k + 52) ≤ num / den) (hk : k < 2047) :
    (k + 1) * twoTo 52 ≤ nearestUnits num den := by
  obtain ⟨hdropped, hleading⟩ := dropped_of_two_to_le h
  have hsignificand : twoTo 52 ≤ num / (den * twoTo (droppedDigits (num / den))) := by
    rw [← Nat.div_div_eq_div_mul, Nat.le_div_iff_mul_le (two_to_pos _), ← two_to_add, Nat.add_comm]
    exact hleading
  have hround := Nat.le_trans hsignificand (le_round_ratio num _)
  apply Nat.le_min.mpr
  constructor
  · exact Nat.mul_le_mul_right _ hk
  · calc (k + 1) * twoTo 52
        = k * twoTo 52 + twoTo 52 := Nat.succ_mul _ _
      _ ≤ droppedDigits (num / den) * twoTo 52 +
            roundRatio num (den * twoTo (droppedDigits (num / den))) :=
          Nat.add_le_add (Nat.mul_le_mul_right _ hdropped) hround

theorem le_units_of_magnitude {m k : Nat} (h : m ≤ infinityBits) (hk : (k + 1) * twoTo 52 ≤ m) :
    twoTo (k + 52) ≤ (ofMagnitude false m).units := by
  have hfield : k + 1 ≤ (ofMagnitude false m).field := by
    rw [field_of_magnitude h]
    exact (Nat.le_div_iff_mul_le (two_to_pos 52)).mpr hk
  have hsignificand : twoTo 52 ≤ (ofMagnitude false m).significand := by
    rw [significand, if_neg (by omega)]
    exact Nat.le_add_left _ _
  have hspacing : twoTo k ≤ (ofMagnitude false m).spacing := two_to_le (by omega)
  rw [Nat.add_comm, two_to_add]
  exact Nat.mul_le_mul hsignificand hspacing

theorem le_units_of_ratio {num den k : Nat} (h : twoTo (k + 52) ≤ num * unitsPerOne / den)
    (hk : k < 2047) : twoTo (k + 52) ≤ (ofRatio false num den).units :=
  le_units_of_magnitude (nearest_units_le_infinity _ _) (le_nearest_units h hk)

theorem two_to_le_ten_to {k n : Nat} (h : k ≤ n) : twoTo k ≤ tenTo n :=
  Nat.le_trans (two_to_le h) (Nat.pow_le_pow_left (by decide) n)

/-- A power of ten stays above the powers of two beneath it when it is rounded. -/
theorem le_units_power_of_ten {k n : Nat} (h : k ≤ n) (hk : 1022 + k < 2047) :
    twoTo k * unitsPerOne ≤ (powerOfTen n).units := by
  have hsum : twoTo k * unitsPerOne = twoTo (1022 + k + 52) := by
    rw [units_per_one_eq, ← two_to_add]
    congr 1
    omega
  rw [hsum]
  apply le_units_of_ratio _ hk
  rw [Nat.div_one, ← hsum]
  exact Nat.mul_le_mul_right _ (two_to_le_ten_to h)

theorem quotient_le {a b k : Nat} (hb : twoTo k * unitsPerOne ≤ b) :
    a * unitsPerOne / b ≤ a / twoTo k := by
  have hpos := Nat.mul_pos (two_to_pos k) units_per_one_pos
  calc a * unitsPerOne / b
      ≤ a * unitsPerOne / (twoTo k * unitsPerOne) := Nat.div_le_div_left hb hpos
    _ = a / twoTo k := Nat.mul_div_mul_right _ _ units_per_one_pos

theorem is_finite_div_power {k : Nat} (hk : k + 3 < 2047) (x : Binary64) (n : Nat)
    (hx : x.units < twoTo (k + 1 + 53)) (hfinite : x.isFinite = true) :
    (divPower x n).isFinite = true := by
  induction x, n using divPower.induct with
  | case1 x n hn =>
    have hquotient := quotient_le (a := x.units) (le_units_power_of_ten (Nat.zero_le n) (by omega))
    rw [two_to_zero, Nat.div_one] at hquotient
    rw [divPower, if_pos hn]
    exact is_finite_of_ratio (Nat.lt_of_le_of_lt hquotient hx) hk
  | case2 x n hn hzero =>
    rw [divPower, if_neg hn, if_pos hzero]
    exact hfinite
  | case3 x n hn hzero ih =>
    -- Each step more than halves the number, which makes room for the rounding.
    have hpower : twoTo 1 * unitsPerOne ≤ (powerOfTen maxPower).units :=
      le_units_power_of_ten (by decide) (by decide)
    have hquotient := quotient_le (a := x.units) hpower
    have hhalf : x.units * unitsPerOne / (powerOfTen maxPower).units < twoTo (k + 53) := by
      apply Nat.lt_of_le_of_lt hquotient
      rw [Nat.div_lt_iff_lt_mul (two_to_pos 1), ← two_to_add, Nat.add_right_comm]
      exact hx
    have hfiniteQuotient : (divMagnitude x (powerOfTen maxPower)).isFinite = true :=
      is_finite_of_ratio hhalf (by omega)
    rw [divPower, if_neg hn, if_neg hzero]
    exact ih (units_of_ratio_lt hhalf) hfiniteQuotient

theorem is_finite_mul_power {x y : Binary64} {n : Nat} (hfinite : x.isFinite = true)
    (h : x.mulPower? n = some y) : y.isFinite = true := by
  rw [mulPower?] at h
  by_cases hzero : x.isZero = true
  · rw [if_pos hzero] at h
    rwa [← Option.some.inj h]
  · rw [if_neg hzero] at h
    obtain ⟨-, hproduct⟩ := Option.ite_none_right_eq_some.mp h
    obtain ⟨hchecked, hy⟩ := Option.ite_none_right_eq_some.mp hproduct
    rwa [← Option.some.inj hy]

theorem is_finite_with_sign (negative : Bool) (x : Binary64) :
    (withSign negative x).isFinite = x.isFinite := by
  have htwo : twoTo 52 = 4503599627370496 ∧ twoTo 11 = 2048 ∧ twoTo 63 = 9223372036854775808 :=
    ⟨rfl, rfl, rfl⟩
  have hfield : (withSign negative x).field = x.field := by
    cases negative <;>
      simp only [field, withSign, ofMagnitude, htwo, UInt64.toNat_ofNat', if_true, if_false,
        Bool.false_eq_true] <;>
      omega
  rw [isFinite, isFinite, hfield]

end Binary64

namespace Numeral

theorem gather_lt {ds : List Char} {significand : Nat} (h : significand < UInt64.size) :
    (gather significand ds).1 < UInt64.size := by
  induction ds generalizing significand with
  | nil => exact h
  | cons d ds ih =>
    simp only [gather]
    split
    · exact ih (by assumption)
    · exact h

theorem parts_lt (n : Numeral) : n.parts.1 < UInt64.size :=
  gather_lt (gather_lt (by decide))

theorem is_finite_of_real {n : Numeral} {x : Binary64} (h : n.real? = some x) :
    x.isFinite = true := by
  have hbound := Binary64.units_whole_lt n.parts_lt
  have hstart : (Binary64.ofRatio false n.parts.1 1).isFinite = true :=
    Binary64.is_finite_of_ratio hbound (by decide)
  obtain ⟨y, hy, rfl⟩ := Option.map_eq_some_iff.mp h
  rw [Binary64.is_finite_with_sign]
  split at hy
  · exact Binary64.is_finite_mul_power hstart hy
  · cases hy
    exact Binary64.is_finite_div_power (k := 1085) (by decide) _ _
      (Binary64.units_of_ratio_lt hbound) hstart

end Numeral

end RedoLog
