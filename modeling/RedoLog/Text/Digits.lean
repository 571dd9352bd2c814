/-!
# Runs of digits
-/

set_option autoImplicit false

namespace RedoLog.Text

def splitDigits (cs : List Char) : List Char × List Char :=
  (cs.takeWhile Char.isDigit, cs.dropWhile Char.isDigit)

theorem split_digits_append (cs : List Char) :
    (splitDigits cs).1 ++ (splitDigits cs).2 = cs := by
  simp [splitDigits]

theorem is_digit_of_mem_split_digits {c : Char} {cs : List Char} (h : c ∈ (splitDigits cs).1) :
    c.isDigit = true := by
  simp only [splitDigits] at h
  induction cs with
  | nil => simp at h
  | cons d cs ih =>
    by_cases hd : d.isDigit
    · simp only [List.takeWhile_cons, hd, if_true, List.mem_cons] at h
      rcases h with rfl | h
      · exact hd
      · exact ih h
    · simp [hd] at h

end RedoLog.Text
