/-!
# Blank characters

The characters with the Unicode property `White_Space`, and the removal of blanks from both ends
of a text. The set is wider than the blanks that separate words of a statement.
-/

set_option autoImplicit false

namespace RedoLog.Text

/-- The code points with the property `White_Space`, as closed ranges. -/
def blankRanges : List (Nat × Nat) :=
  [(0x9, 0xD), (0x20, 0x20), (0x85, 0x85), (0xA0, 0xA0), (0x1680, 0x1680), (0x2000, 0x200A),
    (0x2028, 0x2029), (0x202F, 0x202F), (0x205F, 0x205F), (0x3000, 0x3000)]

def isBlank (c : Char) : Bool :=
  blankRanges.any fun range => range.1 ≤ c.toNat && c.toNat ≤ range.2

def trimBlanks (cs : List Char) : List Char :=
  ((cs.dropWhile isBlank).reverse.dropWhile isBlank).reverse

def trim (s : String) : String :=
  String.ofList (trimBlanks s.toList)

structure IsTrimmed (s t : String) : Prop where
  cut : ∃ front behind, s.toList = front ++ t.toList ++ behind ∧
    (∀ c ∈ front, isBlank c = true) ∧ ∀ c ∈ behind, isBlank c = true
  first : ∀ c ∈ t.toList.head?, isBlank c = false
  last : ∀ c ∈ t.toList.getLast?, isBlank c = false

theorem is_blank_of_mem_take_while {c : Char} {cs : List Char} (h : c ∈ cs.takeWhile isBlank) :
    isBlank c = true :=
  List.all_eq_true.mp List.all_takeWhile c h

theorem not_is_blank_of_head_drop_while {c : Char} {cs : List Char}
    (h : c ∈ (cs.dropWhile isBlank).head?) : isBlank c = false := by
  have hhead := List.head?_dropWhile_not isBlank cs
  rw [Option.mem_def.mp h] at hhead
  exact hhead

theorem trim_blanks_append (cs : List Char) :
    trimBlanks cs ++ ((cs.dropWhile isBlank).reverse.takeWhile isBlank).reverse =
      cs.dropWhile isBlank := by
  rw [trimBlanks, ← List.reverse_append, List.takeWhile_append_dropWhile, List.reverse_reverse]

theorem is_trimmed_trim (s : String) : IsTrimmed s (trim s) := by
  have hbehind := trim_blanks_append s.toList
  have hwhole := List.takeWhile_append_dropWhile (p := isBlank) (l := s.toList)
  rw [← hbehind, ← List.append_assoc] at hwhole
  rw [trim]
  constructor
  · rw [String.toList_ofList]
    exact ⟨_, _, hwhole.symm, fun c => is_blank_of_mem_take_while,
      fun c hc => is_blank_of_mem_take_while (List.mem_reverse.mp hc)⟩
  · intro c hc
    rw [String.toList_ofList] at hc
    have hhead : c ∈ (s.toList.dropWhile isBlank).head? := by
      rw [← hbehind, List.head?_append, Option.mem_def.mp hc]
      rfl
    exact not_is_blank_of_head_drop_while hhead
  · intro c hc
    rw [String.toList_ofList, trimBlanks, List.getLast?_reverse] at hc
    exact not_is_blank_of_head_drop_while hc

theorem drop_while_is_blank_eq_self {cs : List Char} (h : ∀ c ∈ cs, isBlank c = false) :
    cs.dropWhile isBlank = cs := by
  cases cs with
  | nil => rfl
  | cons c cs => simp [h c (List.mem_cons_self ..)]

theorem trim_eq_self {s : String} (h : ∀ c ∈ s.toList, isBlank c = false) : trim s = s := by
  have hreverse : ∀ c ∈ s.toList.reverse, isBlank c = false :=
    fun c hc => h c (List.mem_reverse.mp hc)
  rw [trim, trimBlanks, drop_while_is_blank_eq_self h, drop_while_is_blank_eq_self hreverse,
    List.reverse_reverse, String.ofList_toList]

theorem to_upper_of_is_blank {c : Char} (h : isBlank c = true) : c.toUpper = c := by
  have hrange : ∀ range ∈ blankRanges, range.2 < 97 ∨ 122 < range.1 := by decide
  obtain ⟨range, hmem, hbounds⟩ := List.any_eq_true.mp h
  simp only [Bool.and_eq_true, decide_eq_true_eq] at hbounds
  have hletter : ¬(97 ≤ c.toNat ∧ c.toNat ≤ 122) := by
    have := hrange range hmem
    omega
  exact dif_neg hletter

end RedoLog.Text
