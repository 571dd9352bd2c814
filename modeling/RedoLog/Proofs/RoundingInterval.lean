import RedoLog.Number.Shortest
import RedoLog.Proofs.NearestNumber

/-!
# What is rounded to a number

A finite number is a significand on a level of spacing. Every ratio between the middles to its two
neighbours is rounded to it, and so are these middles if its significand is even. Below a power of
two the neighbour stands on the level beneath, so that the middle is nearer.
-/

set_option autoImplicit false

namespace RedoLog

theorem round_ratio_eq {num den r : Nat} (hlow : 2 * (r * den) ≤ 2 * num + den)
    (hhigh : 2 * num ≤ 2 * (r * den) + den) (hden : 0 < den)
    (hodd : r % 2 = 1 → 2 * (r * den) < 2 * num + den ∧ 2 * num < 2 * (r * den) + den) :
    roundRatio num den = r := by
  by_cases habove : r * den ≤ num
  · have hfloor : num / den = r := by
      apply Nat.div_eq_of_lt_le habove
      rw [Nat.succ_mul]
      omega
    have hrest : num % den = num - r * den := by
      rw [Nat.mod_eq_sub_div_mul, hfloor]
    simp only [roundRatio, hfloor, hrest]
    split
    · rfl
    · split
      · omega
      · split
        · rfl
        · omega
  · have hr : r ≠ 0 := by
      rintro rfl
      exact habove (by rw [Nat.zero_mul]; exact Nat.zero_le num)
    obtain ⟨r, rfl⟩ := Nat.exists_eq_add_one_of_ne_zero hr
    have hsucc : (r + 1) * den = r * den + den := Nat.succ_mul r den
    have hfloor : num / den = r := Nat.div_eq_of_lt_le (by omega) (by omega)
    have hrest : num % den = num - r * den := by
      rw [Nat.mod_eq_sub_div_mul, hfloor]
    simp only [roundRatio, hfloor, hrest]
    split
    · omega
    · split
      · rfl
      · split
        · omega
        · rfl

namespace Binary64

def level (x : Binary64) : Nat :=
  max x.field 1 - 1

def magnitude (x : Binary64) : Nat :=
  x.bits.toNat % twoTo 63

theorem units_eq (x : Binary64) : x.units = x.significand * twoTo x.level :=
  rfl

theorem magnitude_eq (x : Binary64) : x.magnitude = x.level * twoTo 52 + x.significand := by
  have htwo : twoTo 52 = 4503599627370496 ∧ twoTo 11 = 2048 ∧ twoTo 63 = 9223372036854775808 :=
    ⟨rfl, rfl, rfl⟩
  simp only [magnitude, level, significand, field, fraction, htwo]
  split <;> omega

theorem magnitude_lt {x : Binary64} (hx : x.isFinite = true) : x.magnitude < infinityBits := by
  have htwo : twoTo 52 = 4503599627370496 ∧ twoTo 11 = 2048 ∧ twoTo 63 = 9223372036854775808 :=
    ⟨rfl, rfl, rfl⟩
  simp only [isFinite, field, htwo, ne_eq, decide_not, Bool.not_eq_eq_eq_not, Bool.not_true,
    decide_eq_false_iff_not] at hx
  simp only [magnitude, infinityBits, htwo]
  omega

theorem le_significand {x : Binary64} (hx : x.level ≠ 0) : twoTo 52 ≤ x.significand := by
  have hfield : x.field ≠ 0 := by
    intro h
    simp [level, h] at hx
  rw [significand, if_neg hfield]
  exact Nat.le_add_left _ _

theorem significand_pos {x : Binary64} (hx : x.units ≠ 0) : 0 < x.significand :=
  Nat.pos_of_ne_zero fun h => hx (by rw [units, h, Nat.zero_mul])

end Binary64

namespace Decimal

def Interval.Holds (i : Interval) (num den : Nat) : Prop :=
  (i.low * den ≤ num * (4 * Binary64.unitsPerOne) ∧
    num * (4 * Binary64.unitsPerOne) ≤ i.high * den) ∧
  (i.closed = false → i.low * den < num * (4 * Binary64.unitsPerOne) ∧
    num * (4 * Binary64.unitsPerOne) < i.high * den)

end Decimal

namespace Binary64

open Decimal

/-- The neighbour below is nearer if it stands on the level beneath. -/
theorem near_below_iff (x : Binary64) :
    x.fraction = 0 ∧ 1 < x.field ↔ x.significand = twoTo 52 ∧ x.level ≠ 0 := by
  have hfraction : x.fraction < twoTo 52 := Nat.mod_lt _ (two_to_pos 52)
  simp only [significand, level]
  split <;> omega

/-- What an interval says, with the least distance of numbers of this size as the gap. -/
theorem bounds_of_holds {x : Binary64} {num den units gap : Nat} (h : (interval x).Holds num den)
    (hvalue : num * unitsPerOne = units) (hgap : den * twoTo x.level = gap) :
    (2 * (x.significand * gap) ≤ 2 * units + gap ∧ 2 * units ≤ 2 * (x.significand * gap) + gap) ∧
    (x.significand % 2 = 1 → 2 * (x.significand * gap) < 2 * units + gap ∧
      2 * units < 2 * (x.significand * gap) + gap) ∧
    (x.significand = twoTo 52 → x.level ≠ 0 → 4 * (x.significand * gap) ≤ 4 * units + gap) := by
  have hunits : x.units * den = x.significand * gap := by
    rw [units_eq, Nat.mul_assoc, Nat.mul_comm (twoTo _), hgap]
  have hspacing : x.spacing * den = gap := (Nat.mul_comm _ _).trans hgap
  have hscale : num * (4 * unitsPerOne) = 4 * units := by
    rw [Nat.mul_left_comm, hvalue]
  simp only [Interval.Holds, interval, near_below_iff, hscale, decide_eq_false_iff_not] at h
  by_cases hnear : x.significand = twoTo 52 ∧ x.level ≠ 0
  · simp only [if_pos hnear, Nat.sub_mul, Nat.add_mul, Nat.mul_assoc, hunits, hspacing] at h
    omega
  · simp only [if_neg hnear, Nat.sub_mul, Nat.add_mul, Nat.mul_assoc, hunits, hspacing] at h
    omega

theorem dropped_digits_eq {num den level : Nat} (hden : 0 < den)
    (hlow : level ≠ 0 → twoTo 52 * (den * twoTo level) ≤ num)
    (hhigh : num < twoTo 53 * (den * twoTo level)) : droppedDigits (num / den) = level := by
  have hscale : ∀ k, twoTo (k + level) * den = twoTo k * (den * twoTo level) := by
    intro k
    rw [two_to_add, Nat.mul_assoc, Nat.mul_comm den]
  apply Nat.le_antisymm
  · apply dropped_digits_le
    rw [Nat.add_comm]
    exact (Nat.div_lt_iff_lt_mul hden).mpr (by rwa [hscale])
  · by_cases hlevel : level = 0
    · omega
    · have hquotient : twoTo (52 + level) ≤ num / den :=
        (Nat.le_div_iff_mul_le hden).mpr (by rw [hscale]; exact hlow hlevel)
      have hlt := two_to_lt.mp (Nat.lt_of_le_of_lt hquotient (lt_two_to_of_dropped (num / den)))
      omega

theorem nearest_units_eq {num den level r : Nat} (hdropped : droppedDigits (num / den) = level)
    (hround : roundRatio num (den * twoTo level) = r)
    (hm : level * twoTo 52 + r ≤ infinityBits) : nearestUnits num den = level * twoTo 52 + r := by
  have hlog : Nat.log2 (num / den) - 52 = level := hdropped
  simp only [nearestUnits, hlog, hround]
  exact Nat.min_eq_right hm

section Rounded

variable {x : Binary64} (hfinite : x.isFinite = true) {num den : Nat} (hden : 0 < den)
  (h : (interval x).Holds num den)
include hfinite hden h

/-- Beneath a power of two a significand has a digit more, of which the last is rounded. -/
theorem nearest_units_beneath (hlevel : x.level ≠ 0) (hleast : x.significand = twoTo 52)
    (hunder : num * unitsPerOne < x.significand * (den * twoTo x.level)) :
    nearestUnits (num * unitsPerOne) den = x.magnitude := by
  have hbound := Nat.le_of_lt (magnitude_lt hfinite)
  have hnear := (bounds_of_holds h rfl rfl).2.2 hleast hlevel
  obtain ⟨level, hsucc⟩ := Nat.exists_eq_succ_of_ne_zero hlevel
  rw [magnitude_eq, hleast, hsucc, Nat.succ_mul] at hbound ⊢
  have hgap : den * twoTo x.level = 2 * (den * twoTo level) := by
    rw [hsucc, two_to_succ, Nat.mul_comm 2, Nat.mul_assoc]
  rw [hleast, hgap, Nat.mul_left_comm (twoTo 52)] at hunder hnear
  have htwo : twoTo 53 = 2 * twoTo 52 := rfl
  have hpos : 0 < den * twoTo level := Nat.mul_pos hden (two_to_pos level)
  have hle : den * twoTo level ≤ twoTo 52 * (den * twoTo level) :=
    Nat.le_mul_of_pos_left _ (two_to_pos 52)
  have hround : roundRatio (num * unitsPerOne) (den * twoTo level) = twoTo 53 := by
    apply round_ratio_eq _ _ hpos (fun hodd => absurd hodd (by decide)) <;>
      rw [htwo, Nat.mul_assoc] <;> omega
  have hdropped : droppedDigits (num * unitsPerOne / den) = level := by
    apply dropped_digits_eq hden
    · omega
    · rw [htwo, Nat.mul_assoc]
      omega
  rw [nearest_units_eq hdropped hround (by omega)]
  omega

theorem nearest_units_on_level
    (habove : x.level ≠ 0 → twoTo 52 * (den * twoTo x.level) ≤ num * unitsPerOne) :
    nearestUnits (num * unitsPerOne) den = x.magnitude := by
  have hpos : 0 < den * twoTo x.level := Nat.mul_pos hden (two_to_pos x.level)
  obtain ⟨⟨hlow, hhigh⟩, hodd, -⟩ := bounds_of_holds h rfl rfl
  have hunder : num * unitsPerOne < twoTo 53 * (den * twoTo x.level) := by
    have hnext : (x.significand + 1) * (den * twoTo x.level) ≤ twoTo 53 * (den * twoTo x.level) :=
      Nat.mul_le_mul_right _ (significand_lt x)
    rw [Nat.succ_mul] at hnext
    omega
  have hbound := Nat.le_of_lt (magnitude_lt hfinite)
  rw [magnitude_eq] at hbound ⊢
  exact nearest_units_eq (dropped_digits_eq hden habove hunder)
    (round_ratio_eq hlow hhigh hpos hodd) hbound

/-- What lies in the interval of a number is rounded to it. -/
theorem nearest_units_of_holds : nearestUnits (num * unitsPerOne) den = x.magnitude := by
  by_cases hlevel : x.level = 0
  · exact nearest_units_on_level hfinite hden h fun hne => absurd hlevel hne
  rcases Nat.eq_or_lt_of_le (le_significand hlevel) with hleast | hmore
  · rcases Nat.lt_or_ge (num * unitsPerOne) (x.significand * (den * twoTo x.level)) with hlt | hge
    · exact nearest_units_beneath hfinite hden h hlevel hleast.symm hlt
    · exact nearest_units_on_level hfinite hden h fun _ => by rwa [hleast]
  · have hlow := (bounds_of_holds h rfl rfl).1.1
    have hnext : (twoTo 52 + 1) * (den * twoTo x.level) ≤ x.significand * (den * twoTo x.level) :=
      Nat.mul_le_mul_right _ hmore
    rw [Nat.succ_mul] at hnext
    exact nearest_units_on_level hfinite hden h fun _ => by omega

end Rounded

end Binary64

end RedoLog
