/-!
# Letter case

Keywords and function names are compared without regard to the case of the letters `A` to `Z`.
Every other character, accented letters included, stands for itself.
-/

set_option autoImplicit false

namespace RedoLog.Text

def upper (cs : List Char) : List Char :=
  cs.map Char.toUpper

def upperByte (b : UInt8) : UInt8 :=
  if 97 ≤ b ∧ b ≤ 122 then b - 32 else b

def sameLetters (s t : String) : Bool :=
  upper s.toList == upper t.toList

theorem upper_append (cs ds : List Char) : upper (cs ++ ds) = upper cs ++ upper ds := by
  simp [upper]

theorem same_letters_self (s : String) : sameLetters s s = true := by
  simp [sameLetters]

theorem to_nat_to_upper (c : Char) :
    c.toUpper.toNat = if 97 ≤ c.toNat ∧ c.toNat ≤ 122 then c.toNat - 32 else c.toNat := by
  by_cases h : 97 ≤ c.toNat ∧ c.toNat ≤ 122
  · have hletter : c.val ≥ 'a'.val ∧ c.val ≤ 'z'.val := h
    have hupper : c.toUpper = ⟨c.val + ('A'.val - 'a'.val), _⟩ := dif_pos hletter
    have hvalue : c.val.toNat = c.toNat := rfl
    have hshift : ('A'.val - 'a'.val).toNat = 4294967264 := by decide
    rw [if_pos h, hupper]
    show (c.val + ('A'.val - 'a'.val)).toNat = c.toNat - 32
    rw [UInt32.toNat_add, hshift, hvalue]
    omega
  · have hother : ¬(c.val ≥ 'a'.val ∧ c.val ≤ 'z'.val) := h
    rw [if_neg h]
    exact congrArg Char.toNat (dif_neg hother)

theorem to_nat_upper_byte (b : UInt8) :
    (upperByte b).toNat =
      if 97 ≤ b.toNat ∧ b.toNat ≤ 122 then b.toNat - 32 else b.toNat := by
  by_cases h : 97 ≤ b.toNat ∧ b.toNat ≤ 122
  · have hletter : 97 ≤ b ∧ b ≤ 122 := by
      simpa [UInt8.le_iff_toNat_le] using h
    have hshift : 32 ≤ b := by
      rw [UInt8.le_iff_toNat_le]
      exact Nat.le_trans (by decide) h.1
    rw [upperByte, if_pos hletter, if_pos h, UInt8.toNat_sub_of_le b 32 hshift]
    rfl
  · have hother : ¬(97 ≤ b ∧ b ≤ 122) := by
      simpa [UInt8.le_iff_toNat_le] using h
    rw [upperByte, if_neg hother, if_neg h]

theorem to_nat_of_is_upper {c : Char} (h : c.isUpper = true) : 65 ≤ c.toNat ∧ c.toNat ≤ 90 := by
  have hletter : c.val ≥ 'A'.val ∧ c.val ≤ 'Z'.val := of_decide_eq_true h
  exact hletter

theorem to_nat_to_lower {c : Char} (h : c.isUpper = true) : c.toLower.toNat = c.toNat + 32 := by
  have hbounds := to_nat_of_is_upper h
  have hletter : c.val ≥ 'A'.val ∧ c.val ≤ 'Z'.val := hbounds
  have hlower : c.toLower = ⟨c.val + ('a'.val - 'A'.val), _⟩ := dif_pos hletter
  have hvalue : c.val.toNat = c.toNat := rfl
  have hshift : ('a'.val - 'A'.val).toNat = 32 := by decide
  rw [hlower]
  show (c.val + ('a'.val - 'A'.val)).toNat = c.toNat + 32
  rw [UInt32.toNat_add, hshift, hvalue]
  omega

theorem to_upper_eq_iff {c letter : Char} (h : letter.isUpper = true) :
    c.toUpper = letter ↔ c = letter ∨ c = letter.toLower := by
  have hbounds := to_nat_of_is_upper h
  rw [← Char.toNat_inj, ← Char.toNat_inj, ← Char.toNat_inj, to_nat_to_upper, to_nat_to_lower h]
  split <;> omega

end RedoLog.Text
