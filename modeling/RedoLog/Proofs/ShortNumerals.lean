import RedoLog.Proofs.JsonNumbers
import RedoLog.Proofs.ShortestDecimal

/-!
# Numbers with short numerals

Whole numbers below `2 ^ 53` and powers of ten up to the twenty-second are binary numbers. So the
steps in which JSON reads a numeral with few digits and a small power of ten round only once, and
the numeral of a number is in the interval that is rounded to this number.
-/

set_option autoImplicit false

namespace RedoLog

namespace Numeral

def decimal (n : Numeral) : Decimal :=
  ⟨digitsValue (digits n.whole ++ n.fraction), n.exponent.getD 0 - n.fraction.length⟩

theorem le_gather (ds : List Char) (significand : Nat) :
    significand ≤ (gather significand ds).1 := by
  induction ds generalizing significand with
  | nil => exact Nat.le_refl _
  | cons d ds ih =>
    simp only [gather]
    split
    · exact Nat.le_trans (by omega) (ih _)
    · exact Nat.le_refl _

/-- Digits are left only behind a significand that has no room for another one. -/
theorem gather_of_le {ds : List Char} (hds : ∀ c ∈ ds, c.isDigit = true) {significand : Nat}
    (h : UInt64.size ≤ Nat.ofDigitChars 10 ds significand) :
    UInt64.size ≤ 10 * (gather significand ds).1 + 9 := by
  induction ds generalizing significand with
  | nil =>
    have hsignificand : UInt64.size ≤ significand := h
    simp only [gather]
    omega
  | cons d ds ih =>
    have hd := digit_le (hds d (List.mem_cons_self ..))
    rw [Nat.ofDigitChars_cons] at h
    simp only [gather]
    split
    · exact ih (fun c hc => hds c (List.mem_cons_of_mem _ hc)) h
    · dsimp only
      omega

theorem parts_of_small {n : Numeral} (hds : ∀ c ∈ n.fraction, c.isDigit = true)
    (h : n.parts.1 < twoTo 53) : n.parts = (n.decimal.coefficient, n.decimal.exponent) := by
  apply parts_of_lt
  apply Nat.lt_of_not_le
  intro hlarge
  have hroom : UInt64.size ≤ 10 * n.parts.1 + 9 := by
    rw [digitsValue, Nat.ofDigitChars_append] at hlarge
    by_cases hwhole : Nat.ofDigitChars 10 (digits n.whole) 0 < UInt64.size
    · simp only [parts, gather_of_lt hwhole]
      exact gather_of_le hds hlarge
    · have hleft := gather_of_le (fun _ => is_digit_of_mem_digits) (Nat.le_of_not_lt hwhole)
      have hmore := le_gather n.fraction (gather 0 (digits n.whole)).1
      exact Nat.le_trans hleft (Nat.add_le_add_right (Nat.mul_le_mul_left 10 hmore) 9)
  have hsize : UInt64.size = 18446744073709551616 ∧ twoTo 53 = 9007199254740992 := ⟨rfl, rfl⟩
  omega

theorem decimal_scientific (negative : Bool) (d : Decimal) :
    (scientific negative d).decimal = d := by
  obtain ⟨c, cs, hcs⟩ := List.exists_cons_of_ne_nil (digits_ne_nil d.coefficient)
  have hvalue : d.coefficient = tenTo cs.length * digitsValue [c] + digitsValue cs := by
    rw [← digits_value_append, List.singleton_append, ← hcs, digits_value_digits]
  have hrest : digitsValue cs < tenTo cs.length :=
    digits_value_lt fun b hb =>
      is_digit_of_mem_digits (by rw [hcs]; exact List.mem_cons_of_mem c hb)
  have hwhole : d.coefficient / tenTo cs.length = digitsValue [c] := by
    rw [hvalue, Nat.mul_add_div (ten_to_pos _), Nat.div_eq_of_lt hrest, Nat.add_zero]
  have hcoefficient : digitsValue (digits (digitsValue [c]) ++ cs) = d.coefficient := by
    rw [digits_value_append, digits_value_digits, ← hvalue]
  simp [scientific, decimal, hcs, hwhole, hcoefficient]

/-- A whole number stands with a zero behind its point. -/
theorem decimal_positional_whole (negative : Bool) {d : Decimal} (h : 0 ≤ d.exponent) :
    (positional negative d).withPoint.decimal = ⟨10 * d.num, -1⟩ := by
  have hzero : digitsValue ['0'] = 0 := by decide
  have hten : tenTo 1 = 10 := rfl
  simp [positional, h, withPoint, decimal, digits_value_append, digits_value_digits, hzero, hten,
    Decimal.num]

/-- Zeros fill the places behind the point that the digits leave. -/
theorem decimal_positional_broken (negative : Bool) {d : Decimal} (h : d.exponent < 0) :
    (positional negative d).withPoint.decimal = d := by
  have hexponent : -((-d.exponent).toNat : Int) = d.exponent := by omega
  have hplaces : 0 < (-d.exponent).toNat := by omega
  simp only [positional, if_neg (Int.not_le.mpr h)]
  generalize (-d.exponent).toNat = places at *
  generalize hbehind : digits (d.coefficient % tenTo places) = behind
  have hbehindValue : digitsValue behind = d.coefficient % tenTo places := by
    rw [← hbehind, digits_value_digits]
  have hfit : behind.length ≤ places := by
    rw [← hbehind]
    exact (Nat.length_toDigits_le_iff (by decide) hplaces).mpr (Nat.mod_lt _ (ten_to_pos places))
  have hne : List.replicate (places - behind.length) '0' ++ behind ≠ [] := by
    rw [← hbehind]
    exact List.append_ne_nil_of_right_ne_nil _ (digits_ne_nil _)
  have hlength : (List.replicate (places - behind.length) '0' ++ behind).length = places := by
    rw [List.length_append, List.length_replicate, Nat.sub_add_cancel hfit]
  have hfraction : digitsValue (List.replicate (places - behind.length) '0' ++ behind) =
      d.coefficient % tenTo places := by
    rw [digits_value_append, hbehindValue, digitsValue, Nat.ofDigitChars_replicate_zero,
      Nat.mul_zero, Nat.mul_zero, Nat.zero_add]
  have hcoefficient : tenTo places * (d.coefficient / tenTo places) +
      d.coefficient % tenTo places = d.coefficient := Nat.div_add_mod _ _
  simp only [withPoint, if_neg hne, decimal, digits_value_append (digits _), digits_value_digits,
    hfraction, hlength, hcoefficient, Option.getD_none, Int.zero_sub, hexponent]

theorem decimal_positional (negative : Bool) (d : Decimal) :
    (positional negative d).withPoint.decimal.num * d.den =
      d.num * (positional negative d).withPoint.decimal.den := by
  rcases Int.lt_or_le d.exponent 0 with hbroken | hwhole
  · rw [decimal_positional_broken negative hbroken]
  · have hden : d.den = 1 := by
      rw [Decimal.den, Int.toNat_of_nonpos (by omega), ten_to_zero]
    have hone : tenTo (-1 : Int).toNat = 1 ∧ tenTo (-(-1) : Int).toNat = 10 := ⟨rfl, rfl⟩
    rw [decimal_positional_whole negative hwhole, hden]
    simp only [Decimal.num, Decimal.den, hone]
    omega

end Numeral

namespace Binary64

open Decimal

theorem is_zero_iff (x : Binary64) : x.isZero = true ↔ x.units = 0 := by
  have htwo := two_to_pos (max x.field 1 - 1)
  have hlead := two_to_pos 52
  simp only [isZero, units, spacing, significand, Bool.and_eq_true, decide_eq_true_eq,
    Nat.mul_eq_zero, Nat.ne_of_gt htwo, or_false]
  split <;> omega

theorem negative_json_numeral (x : Binary64) : x.jsonNumeral.negative = x.isNegative := by
  unfold jsonNumeral
  split
  · rfl
  · dsimp only
    split
    · unfold Numeral.withPoint Numeral.positional
      split <;> split <;> rfl
    · rfl

theorem holds_json_numeral {x : Binary64} (hx : x.units ≠ 0) :
    (interval x).Holds x.jsonNumeral.decimal.num x.jsonNumeral.decimal.den := by
  have hzero : ¬x.isZero = true := fun h => hx (x.is_zero_iff.mp h)
  apply (holds_shortest .even hx).congr _ (den_pos _) (den_pos _)
  rw [jsonNumeral, if_neg hzero]
  dsimp only
  split
  · exact (Numeral.decimal_positional _ _).symm
  · rw [Numeral.decimal_scientific]

theorem exact_lt_infinity {r level : Nat} (hr : r < twoTo 53) (hlevel : level < 2046) :
    level * twoTo 52 + r < infinityBits := by
  have hbound : (level + 1) * twoTo 52 ≤ 2046 * twoTo 52 := Nat.mul_le_mul_right _ hlevel
  have htwo : twoTo 53 = 2 * twoTo 52 ∧ infinityBits = 2047 * twoTo 52 := ⟨rfl, rfl⟩
  rw [Nat.succ_mul] at hbound
  omega

/-- A count of units that is a significand on its level is not rounded. -/
theorem nearest_units_exact {r level : Nat} (hlow : twoTo 52 ≤ r) (hhigh : r < twoTo 53)
    (hlevel : level < 2046) : nearestUnits (r * twoTo level) 1 = level * twoTo 52 + r := by
  have hpos := two_to_pos level
  apply nearest_units_eq
  · apply dropped_digits_eq Nat.one_pos <;> rw [Nat.one_mul]
    · exact fun _ => Nat.mul_le_mul_right _ hlow
    · exact Nat.mul_lt_mul_of_pos_right hhigh hpos
  · rw [Nat.one_mul]
    apply round_ratio_eq _ _ hpos (fun _ => _) <;> omega
  · exact Nat.le_of_lt (exact_lt_infinity hhigh hlevel)

theorem units_exact {r level : Nat} (hlow : twoTo 52 ≤ r) (hhigh : r < twoTo 53)
    (hlevel : level < 2046) :
    (ofMagnitude false (level * twoTo 52 + r)).units = r * twoTo level := by
  have hbound := Nat.le_of_lt (exact_lt_infinity hhigh hlevel)
  obtain ⟨f, rfl⟩ := Nat.exists_eq_add_of_le hlow
  have hf : f < twoTo 52 := by
    have htwo : twoTo 53 = 2 * twoTo 52 := rfl
    omega
  have hsum : level * twoTo 52 + (twoTo 52 + f) = (level + 1) * twoTo 52 + f := by
    rw [Nat.succ_mul, Nat.add_assoc]
  rw [hsum] at hbound ⊢
  have hfield : (ofMagnitude false ((level + 1) * twoTo 52 + f)).field = level + 1 := by
    rw [field_of_magnitude hbound, Nat.mul_comm, Nat.mul_add_div (two_to_pos 52),
      Nat.div_eq_of_lt hf, Nat.add_zero]
  have hfraction : (ofMagnitude false ((level + 1) * twoTo 52 + f)).fraction = f := by
    rw [fraction, bits_of_magnitude hbound, Nat.mul_comm, Nat.mul_add_mod, Nat.mod_eq_of_lt hf]
  rw [units, significand, spacing, hfield, hfraction, if_neg (Nat.succ_ne_zero level),
    Nat.add_comm f, Nat.max_eq_left (Nat.le_add_left 1 level), Nat.add_sub_cancel]

theorem units_of_ratio_whole {n : Nat} (hpos : 0 < n) (h : n < twoTo 53) :
    (ofRatio false n 1).units = n * unitsPerOne := by
  have hlog : Nat.log2 n < 53 := (Nat.log2_lt (Nat.ne_of_gt hpos)).mpr h
  have hself : twoTo (Nat.log2 n) ≤ n ∧ n < twoTo (Nat.log2 n + 1) :=
    ⟨Nat.log2_self_le (Nat.ne_of_gt hpos), Nat.lt_log2_self⟩
  generalize Nat.log2 n = l at *
  have hscale : n * unitsPerOne = n * twoTo (52 - l) * twoTo (1022 + l) := by
    have hsum : 52 - l + (1022 + l) = 1074 := by omega
    rw [Nat.mul_assoc, ← two_to_add, units_per_one_eq, hsum]
  have hlow : twoTo 52 ≤ n * twoTo (52 - l) :=
    calc twoTo 52 = twoTo l * twoTo (52 - l) := by rw [← two_to_add, Nat.add_sub_cancel' (by omega)]
      _ ≤ n * twoTo (52 - l) := Nat.mul_le_mul_right _ hself.1
  have hhigh : n * twoTo (52 - l) < twoTo 53 :=
    calc n * twoTo (52 - l) < twoTo (l + 1) * twoTo (52 - l) :=
          Nat.mul_lt_mul_of_pos_right hself.2 (two_to_pos _)
      _ = twoTo 53 := (two_to_add _ _).symm.trans (congrArg twoTo (by omega))
  have hlevel : 1022 + l < 2046 := by omega
  rw [ofRatio, hscale, nearest_units_exact hlow hhigh hlevel, units_exact hlow hhigh hlevel]

theorem units_power_of_ten {n : Nat} (h : n ≤ 22) :
    (powerOfTen n).units = tenTo n * unitsPerOne := by
  have hall : ∀ n < 23, (powerOfTen n).units = tenTo n * unitsPerOne := by decide +kernel
  exact hall n (Nat.lt_succ_of_le h)

theorem of_magnitude_magnitude (x : Binary64) : ofMagnitude x.isNegative x.magnitude = x := by
  have hsize : x.bits.toNat < 18446744073709551616 := x.bits.toNat_lt
  have htwo : twoTo 63 = 9223372036854775808 := rfl
  have hbits : (if x.isNegative then twoTo 63 + x.magnitude else x.magnitude) = x.bits.toNat := by
    simp only [isNegative, magnitude, htwo, decide_eq_true_eq]
    split <;> omega
  rw [ofMagnitude, hbits, UInt64.ofNat_toNat]

theorem with_sign_magnitude {x : Binary64} (hfinite : x.isFinite = true) :
    withSign x.isNegative (ofMagnitude false x.magnitude) = x := by
  have hmagnitude : x.magnitude % twoTo 63 = x.magnitude := Nat.mod_mod _ _
  rw [withSign, bits_of_magnitude (Nat.le_of_lt (magnitude_lt hfinite)), hmagnitude,
    of_magnitude_magnitude]

theorem of_ratio_of_holds {x : Binary64} (hfinite : x.isFinite = true) {num den : Nat}
    (hden : 0 < den) (h : (interval x).Holds num den) :
    ofRatio false num den = ofMagnitude false x.magnitude :=
  congrArg (ofMagnitude false) (nearest_units_of_holds hfinite hden h)

section Exact

variable {x a b : Binary64} {m n : Nat} (hfinite : x.isFinite = true)
  (ha : a.units = m * unitsPerOne) (hb : b.units = n * unitsPerOne)
include hfinite ha hb

theorem mul_magnitude_of_holds (h : (interval x).Holds (m * n) 1) :
    mulMagnitude a b = ofMagnitude false x.magnitude := by
  have hone := Nat.mul_pos units_per_one_pos units_per_one_pos
  apply of_ratio_of_holds hfinite hone
  apply h.congr _ Nat.one_pos hone
  rw [ha, hb, Nat.mul_one, Nat.mul_mul_mul_comm]

theorem div_magnitude_of_holds (hn : 0 < n) (h : (interval x).Holds m n) :
    divMagnitude a b = ofMagnitude false x.magnitude := by
  have hden : 0 < b.units := by
    rw [hb]
    exact Nat.mul_pos hn units_per_one_pos
  apply of_ratio_of_holds hfinite hden
  apply h.congr _ hn hden
  rw [ha, hb, Nat.mul_right_comm, Nat.mul_assoc]

end Exact

theorem num_pos_of_holds {x : Binary64} (hx : x.units ≠ 0) {num den : Nat} (hden : 0 < den)
    (h : (interval x).Holds num den) : 0 < num := by
  apply Nat.pos_of_ne_zero
  rintro rfl
  have hspacing : 0 < x.spacing := two_to_pos _
  have hunits : x.spacing ≤ x.units := Nat.le_mul_of_pos_left _ (significand_pos hx)
  have hlow : 0 < (interval x).low := by
    simp only [interval]
    split <;> omega
  have hproduct := Nat.mul_pos hlow hden
  have hle := h.1.1
  omega

end Binary64

/-- A numeral with a small significand and power is read as the number in whose interval it is. -/
theorem Numeral.real_of_holds {n : Numeral} {x : Binary64} (hfinite : x.isFinite = true)
    (hx : x.units ≠ 0) (hsign : n.negative = x.isNegative) {d : Decimal}
    (hparts : n.parts = (d.coefficient, d.exponent)) (hcoefficient : d.coefficient < twoTo 53)
    (hexponent : d.exponent.natAbs ≤ 22) (h : (Decimal.interval x).Holds d.num d.den) :
    n.real? = some x := by
  have hpos : 0 < d.coefficient :=
    Nat.pos_of_mul_pos_right (Binary64.num_pos_of_holds hx d.den_pos h)
  have hstart := Binary64.units_of_ratio_whole hpos hcoefficient
  have hnonzero : ¬(Binary64.ofRatio false d.coefficient 1).isZero = true := by
    intro hzero
    rw [Binary64.is_zero_iff, hstart] at hzero
    exact Nat.ne_of_gt (Nat.mul_pos hpos Binary64.units_per_one_pos) hzero
  have hrounded : (Binary64.ofMagnitude false x.magnitude).isFinite = true :=
    Binary64.is_finite_of_magnitude (Binary64.magnitude_lt hfinite)
  rw [real?, hparts, hsign]
  dsimp only
  split
  · rename_i hup
    have hpower := Binary64.units_power_of_ten (n := d.exponent.toNat) (by omega)
    have hmax : d.exponent.toNat ≤ Binary64.maxPower := by
      unfold Binary64.maxPower
      omega
    have hden : d.den = 1 := by
      rw [Decimal.den, Int.toNat_of_nonpos (by omega), ten_to_zero]
    rw [hden] at h
    rw [Binary64.mulPower?, if_neg hnonzero, if_pos hmax,
      Binary64.mul_magnitude_of_holds hfinite hstart hpower h]
    simp [hrounded, Binary64.with_sign_magnitude hfinite]
  · rename_i hdown
    have hpower := Binary64.units_power_of_ten (n := (-d.exponent).toNat) (by omega)
    have hmax : (-d.exponent).toNat ≤ Binary64.maxPower := by
      unfold Binary64.maxPower
      omega
    have hnum : d.num = d.coefficient := by
      rw [Decimal.num, Int.toNat_of_nonpos (by omega), ten_to_zero, Nat.mul_one]
    rw [hnum] at h
    rw [Binary64.divPower, if_pos hmax,
      Binary64.div_magnitude_of_holds hfinite hstart hpower (ten_to_pos _) h]
    simp [Binary64.with_sign_magnitude hfinite]

namespace Binary64

/-- The digits of the numeral make a number below `2 ^ 53` without the point, and its power of ten
is then at most the twenty-second. -/
def HasShortNumeral (x : Binary64) : Prop :=
  x.jsonNumeral.parts.1 < twoTo 53 ∧ x.jsonNumeral.parts.2.natAbs ≤ 22

instance (x : Binary64) : Decidable x.HasShortNumeral :=
  inferInstanceAs (Decidable (_ ∧ _))

theorem magnitude_eq_zero {x : Binary64} (hx : x.units = 0) : x.magnitude = 0 := by
  have hsignificand : x.significand = 0 :=
    (Nat.mul_eq_zero.mp hx).resolve_right (Nat.ne_of_gt (two_to_pos _))
  have hlevel : x.level = 0 := by
    apply Decidable.byContradiction
    intro hlevel
    have hle := le_significand hlevel
    rw [hsignificand] at hle
    exact absurd hle (by decide)
  rw [magnitude_eq, hsignificand, hlevel, Nat.zero_mul]

theorem real_zero {x : Binary64} (hfinite : x.isFinite = true) (hx : x.units = 0) :
    x.jsonNumeral.real? = some x := by
  have hread : ∀ negative, (Numeral.mk negative 0 ['0'] none).real? =
      some (withSign negative (ofMagnitude false 0)) := by decide +kernel
  rw [jsonNumeral, if_pos (x.is_zero_iff.mpr hx), hread, ← magnitude_eq_zero hx,
    with_sign_magnitude hfinite]

theorem HasShortNumeral.real_eq_some {x : Binary64} (h : x.HasShortNumeral)
    (hfinite : x.isFinite = true) : x.jsonNumeral.real? = some x := by
  by_cases hx : x.units = 0
  · exact real_zero hfinite hx
  · obtain ⟨hcoefficient, hexponent⟩ := h
    have hparts := Numeral.parts_of_small (json_numeral_shape x).1 hcoefficient
    rw [hparts] at hcoefficient hexponent
    exact Numeral.real_of_holds hfinite hx x.negative_json_numeral hparts hcoefficient hexponent
      (holds_json_numeral hx)

end Binary64

end RedoLog
