import RedoLog.Proofs.RoundingInterval

/-!
# The shortest decimal reads back

The grid with seventeen digits is finer than the interval of a number is wide, so that one of the
two neighbours of the number lies in the interval. So the search ends with a decimal that is rounded
to the number, and zeros that are taken off its end do not change it.
-/

set_option autoImplicit false

namespace RedoLog

theorem ten_to_pos (n : Nat) : 0 < tenTo n :=
  Nat.pow_pos (by decide)

theorem ten_to_add (m n : Nat) : tenTo (m + n) = tenTo m * tenTo n :=
  Nat.pow_add 10 m n

theorem ten_to_shift (exponent : Int) (n : Nat) :
    tenTo (exponent + n).toNat * tenTo (-exponent).toNat =
      tenTo n * (tenTo exponent.toNat * tenTo (-(exponent + n)).toNat) := by
  simp only [← ten_to_add]
  congr 1
  omega

namespace Decimal

def num (d : Decimal) : Nat :=
  d.coefficient * tenTo d.exponent.toNat

def den (d : Decimal) : Nat :=
  tenTo (-d.exponent).toNat

theorem den_pos (d : Decimal) : 0 < d.den :=
  ten_to_pos _

namespace Interval

variable {i : Interval}

theorem holds_iff (exponent : Int) (coefficient : Nat) :
    i.holds exponent coefficient = true ↔
      i.Holds (num ⟨coefficient, exponent⟩) (den ⟨coefficient, exponent⟩) := by
  have hvalue : coefficient * (gridStep exponent).1 =
      num ⟨coefficient, exponent⟩ * (4 * Binary64.unitsPerOne) := by
    simp only [gridStep, num, Nat.mul_assoc]
  have hden : (gridStep exponent).2 = den ⟨coefficient, exponent⟩ := rfl
  simp only [holds, hvalue, hden, Holds]
  cases i.closed with
  | true => simp
  | false =>
    simp
    omega

theorem Holds.congr {n d n' d' : Nat} (h : i.Holds n d) (heq : n * d' = n' * d) (hd : 0 < d)
    (hd' : 0 < d') : i.Holds n' d' := by
  have hvalue : ∀ v, n' * v * d = n * v * d' := by
    intro v
    rw [Nat.mul_right_comm, ← heq, Nat.mul_right_comm]
  have hle : ∀ a v, a * d ≤ n * v ↔ a * d' ≤ n' * v := fun a v =>
    calc a * d ≤ n * v ↔ a * d * d' ≤ n * v * d' := (Nat.mul_le_mul_right_iff hd').symm
      _ ↔ a * d' * d ≤ n' * v * d := by rw [hvalue, Nat.mul_right_comm]
      _ ↔ a * d' ≤ n' * v := Nat.mul_le_mul_right_iff hd
  have hge : ∀ a v, n * v ≤ a * d ↔ n' * v ≤ a * d' := fun a v =>
    calc n * v ≤ a * d ↔ n * v * d' ≤ a * d * d' := (Nat.mul_le_mul_right_iff hd').symm
      _ ↔ n' * v * d ≤ a * d' * d := by rw [hvalue, Nat.mul_right_comm a]
      _ ↔ n' * v ≤ a * d' := Nat.mul_le_mul_right_iff hd
  simp only [Holds, ← hle, ← hge, ← Nat.not_le] at h ⊢
  exact h

end Interval

theorem holds_strip_zeros {i : Interval} (fuel : Nat) (d : Decimal) (h : i.Holds d.num d.den) :
    i.Holds (stripZeros fuel d).num (stripZeros fuel d).den := by
  induction fuel generalizing d with
  | zero => exact h
  | succ fuel ih =>
    rw [stripZeros]
    split
    · rename_i hzero
      apply ih
      apply h.congr _ d.den_pos (den_pos _)
      have hten : d.coefficient = d.coefficient / 10 * 10 :=
        (Nat.div_mul_cancel (Nat.dvd_of_mod_eq_zero hzero.2)).symm
      have hshift := ten_to_shift d.exponent 1
      simp only [num, den]
      calc d.coefficient * tenTo d.exponent.toNat * tenTo (-(d.exponent + 1)).toNat
          = d.coefficient / 10 *
              (10 * (tenTo d.exponent.toNat * tenTo (-(d.exponent + 1)).toNat)) := by
            rw [← Nat.mul_assoc, ← hten, Nat.mul_assoc]
        _ = d.coefficient / 10 * (tenTo (d.exponent + 1).toNat * tenTo (-d.exponent).toNat) :=
            congrArg _ hshift.symm
        _ = _ := (Nat.mul_assoc _ _ _).symm
    · exact h

theorem holds_of_on_grid {tie : Tie} {i : Interval} {exponent : Int} {d : Decimal}
    (h : onGrid? tie i exponent = some d) : i.Holds d.num d.den := by
  have hholds : i.holds d.exponent d.coefficient = true := by
    rw [onGrid?] at h
    split at h
    · rename_i hlower hupper
      obtain rfl := Option.some.inj h
      dsimp only
      split
      · exact hupper
      · exact hlower
    · rename_i hlower hupper
      obtain rfl := Option.some.inj h
      exact hlower
    · rename_i hlower hupper
      obtain rfl := Option.some.inj h
      exact hupper
    · cases h
  exact (Interval.holds_iff d.exponent d.coefficient).mp hholds

/-- A neighbour of the middle lies in an interval that is wider than a step. -/
theorem on_grid_is_some (tie : Tie) {i : Interval} {exponent : Int} (hlow : i.low ≤ i.middle)
    (hhigh : i.middle < i.high)
    (hstep : (gridStep exponent).1 + i.low * (gridStep exponent).2 <
      i.high * (gridStep exponent).2) :
    (onGrid? tie i exponent).isSome = true := by
  have hpos : 0 < (gridStep exponent).1 ∧ 0 < (gridStep exponent).2 :=
    ⟨Nat.mul_pos (Nat.mul_pos (ten_to_pos _) (by decide)) Binary64.units_per_one_pos, ten_to_pos _⟩
  rw [onGrid?]
  generalize hlower : i.middle * (gridStep exponent).2 / (gridStep exponent).1 = lower
  have hneighbour : i.holds exponent lower = true ∨ i.holds exponent (lower + 1) = true := by
    simp only [Interval.holds]
    generalize gridStep exponent = step at *
    have hbelow : lower * step.1 ≤ i.middle * step.2 := by
      rw [← hlower]
      exact Nat.div_mul_le_self _ _
    have habove : i.middle * step.2 < (lower + 1) * step.1 := by
      rw [← hlower, Nat.mul_comm _ step.1]
      exact Nat.lt_mul_div_succ _ hpos.1
    have hmiddle : i.low * step.2 ≤ i.middle * step.2 ∧ i.middle * step.2 < i.high * step.2 :=
      ⟨Nat.mul_le_mul_right _ hlow, Nat.mul_lt_mul_of_pos_right hhigh hpos.2⟩
    rw [Nat.succ_mul] at habove ⊢
    cases i.closed <;> simp <;> omega
  split
  · rfl
  · rfl
  · rfl
  · simp_all

theorem holds_first_hit (tie : Tie) (i : Interval) (grids : Nat) (exponent : Int)
    (h : (onGrid? tie i (exponent - grids)).isSome = true) :
    i.Holds (firstHit tie i (grids + 1) exponent).num
      (firstHit tie i (grids + 1) exponent).den := by
  induction grids generalizing exponent with
  | zero =>
    obtain ⟨d, hd⟩ := Option.isSome_iff_exists.mp h
    have hzero : exponent - (0 : Nat) = exponent := by omega
    rw [hzero] at hd
    rw [firstHit, hd]
    exact holds_of_on_grid hd
  | succ grids ih =>
    rw [firstHit]
    split
    · rename_i d hd
      exact holds_of_on_grid hd
    · apply ih
      have hnext : exponent - 1 - grids = exponent - (grids + 1 : Nat) := by omega
      rwa [hnext]

theorem leading_exponent_le {x : Binary64} (hx : x.units ≠ 0) :
    ∃ k : Nat, leadingExponent x = k - 324 ∧
      tenTo k * Binary64.unitsPerOne ≤ x.units * tenTo 324 := by
  generalize hn : x.units * tenTo 324 / Binary64.unitsPerOne = n
  have hbelow : n * Binary64.unitsPerOne ≤ x.units * tenTo 324 := by
    rw [← hn]
    exact Nat.div_mul_le_self _ _
  have hleast : Binary64.unitsPerOne ≤ tenTo 324 := by decide +kernel
  have hpos : 0 < n := by
    rw [← hn]
    exact Nat.div_pos (Nat.le_trans hleast (Nat.le_mul_of_pos_left _ (Nat.pos_of_ne_zero hx)))
      Binary64.units_per_one_pos
  have hlength : 0 < (Nat.toDigits 10 n).length := Nat.length_toDigits_pos
  have hpower : tenTo ((Nat.toDigits 10 n).length - 1) ≤ n := by
    apply Nat.le_of_not_lt
    intro hlt
    have hnonzero : 0 < (Nat.toDigits 10 n).length - 1 := by
      apply Nat.pos_of_ne_zero
      intro hzero
      rw [hzero, ten_to_zero] at hlt
      omega
    have hle := (Nat.length_toDigits_le_iff (by decide) hnonzero).mpr hlt
    omega
  refine ⟨(Nat.toDigits 10 n).length - 1, ?_, ?_⟩
  · rw [leadingExponent, hn]
    omega
  · exact Nat.le_trans (Nat.mul_le_mul_right _ hpower) hbelow

/-- The grid with seventeen digits is finer than the number by sixteen powers of ten. -/
theorem grid_step_le {x : Binary64} (hx : x.units ≠ 0) :
    tenTo 16 * (gridStep (leadingExponent x - 16)).1 ≤
      4 * x.units * (gridStep (leadingExponent x - 16)).2 := by
  obtain ⟨k, hexponent, hpower⟩ := leading_exponent_le hx
  have hgrid : leadingExponent x - 16 = k - 340 := by omega
  rw [hgrid]
  have hshift : tenTo k * tenTo (-((k : Int) - 340)).toNat =
      tenTo 340 * tenTo ((k : Int) - 340).toNat := by
    have h := ten_to_shift (k - 340) 340
    have hcast : (k : Int) - 340 + (340 : Nat) = k := by omega
    rw [hcast, Int.toNat_natCast, Int.toNat_neg_natCast, ten_to_zero, Nat.mul_one] at h
    exact h
  have hsplit : tenTo 340 = tenTo 324 * tenTo 16 := ten_to_add 324 16
  rw [hsplit] at hshift
  simp only [gridStep]
  apply Nat.le_of_mul_le_mul_left _ (ten_to_pos 324)
  generalize tenTo 324 = far at *
  generalize tenTo 16 = near at *
  generalize Binary64.unitsPerOne = one at *
  generalize tenTo ((k : Int) - 340).toNat = up at *
  generalize tenTo (-((k : Int) - 340)).toNat = down at *
  calc far * (near * (up * 4 * one)) = 4 * one * (far * near * up) := by ac_rfl
    _ = 4 * down * (tenTo k * one) := by
      rw [← hshift]
      ac_rfl
    _ ≤ 4 * down * (x.units * far) := Nat.mul_le_mul_left _ hpower
    _ = far * (4 * x.units * down) := by ac_rfl

theorem on_grid_interval (tie : Tie) {x : Binary64} (hx : x.units ≠ 0) :
    (onGrid? tie (interval x) (leadingExponent x - 16)).isSome = true := by
  have hstep := grid_step_le hx
  have hsignificand := Binary64.significand_lt x
  have htwo : twoTo 52 = 4503599627370496 ∧ twoTo 53 = 9007199254740992 ∧
    tenTo 16 = 10000000000000000 := ⟨rfl, rfl, rfl⟩
  apply on_grid_is_some
  · exact Nat.sub_le _ _
  · exact Nat.lt_add_of_pos_right (Nat.mul_pos (by decide) (two_to_pos _))
  · have hden : 0 < (gridStep (leadingExponent x - 16)).2 := ten_to_pos _
    generalize gridStep (leadingExponent x - 16) = step at *
    have hgap : 0 < x.spacing * step.2 := Nat.mul_pos (two_to_pos _) hden
    have hunits : x.units * step.2 = x.significand * (x.spacing * step.2) := Nat.mul_assoc _ _ _
    have hone : 1 * (x.spacing * step.2) ≤ x.units * step.2 := by
      rw [hunits]
      exact Nat.mul_le_mul_right _ (Binary64.significand_pos hx)
    have hwide : x.units * step.2 ≤ twoTo 53 * (x.spacing * step.2) := by
      rw [hunits]
      exact Nat.mul_le_mul_right _ (Nat.le_of_lt hsignificand)
    rw [htwo.2.2] at hstep
    rw [htwo.2.1] at hwide
    simp only [interval, Binary64.near_below_iff, Nat.mul_assoc] at hstep ⊢
    split
    · rename_i hnear
      rw [hnear.1, htwo.1] at hunits
      simp only [Nat.sub_mul, Nat.add_mul, Nat.mul_assoc]
      omega
    · simp only [Nat.sub_mul, Nat.add_mul, Nat.mul_assoc]
      omega

/-- The shortest decimal lies in the interval of its number. -/
theorem holds_shortest (tie : Tie) {x : Binary64} (hx : x.units ≠ 0) :
    (interval x).Holds (shortest tie x).num (shortest tie x).den :=
  holds_strip_zeros 17 _ (holds_first_hit tie _ 16 _ (on_grid_interval tie hx))

end Decimal

end RedoLog
