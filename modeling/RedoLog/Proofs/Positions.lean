import Mathlib.Data.List.TakeWhile
import RedoLog.Proofs.Scanning

/-!
# Lines and columns

The column is counted from the byte at which the last line starts. Every character moves the point
behind it forward. So no two characters of a text stand at one line and column, and another
character at the same place keeps all that follows where it was, unless a line feed comes or goes.
-/

set_option autoImplicit false

namespace RedoLog

namespace Text

theorem exists_last_line (cs : List Char) :
    '\n' ∉ cs ∨ ∃ front last, cs = front ++ '\n' :: last ∧ '\n' ∉ last := by
  by_cases h : '\n' ∈ cs
  · right
    obtain ⟨last, front, hreverse, hlast⟩ := List.eq_append_cons_of_mem (List.mem_reverse.mpr h)
    refine ⟨front.reverse, last.reverse, ?_, fun hmem => hlast (List.mem_reverse.mp hmem)⟩
    rw [← List.reverse_reverse cs, hreverse]
    simp
  · exact Or.inl h

theorem column_after_of_not_mem {cs : List Char} (h : '\n' ∉ cs) : columnAfter cs = cs.length := by
  have hall : ∀ c ∈ cs.reverse, decide (c ≠ '\n') = true := by
    intro c hc
    exact decide_eq_true fun heq => h (heq ▸ List.mem_reverse.mp hc)
  rw [columnAfter, List.takeWhile_eq_self_iff.mpr hall, List.length_reverse]

theorem column_after_append (front : List Char) {last : List Char} (h : '\n' ∉ last) :
    columnAfter (front ++ '\n' :: last) = last.length := by
  have hall : ∀ c ∈ last.reverse, decide (c ≠ '\n') = true := by
    intro c hc
    exact decide_eq_true fun heq => h (heq ▸ List.mem_reverse.mp hc)
  have hreverse : (front ++ '\n' :: last).reverse = last.reverse ++ '\n' :: front.reverse := by
    simp
  rw [columnAfter, hreverse, List.takeWhile_append_of_pos hall]
  simp

theorem last_feed_of_not_mem {cs : List Char} (h : '\n' ∉ cs) : lastFeed? cs = none := by
  induction cs with
  | nil => rfl
  | cons c cs ih =>
    rw [List.mem_cons, not_or] at h
    rw [lastFeed?, ih h.2]
    exact if_neg (Ne.symm h.1)

theorem last_feed_append (front : List Char) {last : List Char} (h : '\n' ∉ last) :
    lastFeed? (front ++ '\n' :: last) = some (byteLength front) := by
  induction front with
  | nil => simp [lastFeed?, last_feed_of_not_mem h, byteLength]
  | cons c front ih => simp [lastFeed?, ih, byteLength]

theorem length_last_line (cs : List Char) :
    ((dropBytes? (lineStart cs) cs).getD []).length = columnAfter cs := by
  rcases exists_last_line cs with h | ⟨front, last, rfl, h⟩
  · simp [lineStart, last_feed_of_not_mem h, column_after_of_not_mem h, dropBytes?]
  · have hstart : lineStart (front ++ '\n' :: last) = byteLength (front ++ ['\n']) := by
      rw [lineStart, last_feed_append front h, byte_length_append]
      rfl
    have hdrop := drop_bytes_byte_length (front ++ ['\n']) last
    rw [List.append_assoc, List.singleton_append] at hdrop
    rw [hstart, hdrop, column_after_append front h, Option.getD_some]

def position (cs : List Char) : Nat × Nat :=
  (lineAfter cs, columnAfter cs)

def Earlier (a b : Nat × Nat) : Prop :=
  a.1 < b.1 ∨ a.1 = b.1 ∧ a.2 < b.2

theorem Earlier.trans {a b c : Nat × Nat} (h : Earlier a b) (h' : Earlier b c) : Earlier a c := by
  unfold Earlier at *
  omega

theorem Earlier.ne {a b : Nat × Nat} (h : Earlier a b) : a ≠ b := by
  rintro rfl
  unfold Earlier at h
  omega

theorem position_snoc (cs : List Char) (c : Char) :
    position (cs ++ [c]) =
      if c = '\n' then (lineAfter cs + 1, 0) else (lineAfter cs, columnAfter cs + 1) := by
  by_cases hc : c = '\n' <;> simp [position, lineAfter, columnAfter, hc]

theorem position_snoc_of_ne (cs : List Char) {c : Char} (hc : c ≠ '\n') :
    position (cs ++ [c]) = ((position cs).1, (position cs).2 + 1) := by
  rw [position_snoc, if_neg hc]
  rfl

theorem earlier_append (cs : List Char) {ds : List Char} (hds : ds ≠ []) :
    Earlier (position cs) (position (cs ++ ds)) := by
  induction ds generalizing cs with
  | nil => exact absurd rfl hds
  | cons d ds ih =>
    have hfirst : Earlier (position cs) (position (cs ++ [d])) := by
      rw [position_snoc]
      unfold Earlier position
      split <;> simp
    by_cases hmore : ds = []
    · rwa [hmore]
    · have hrest := ih (cs ++ [d]) hmore
      rw [List.append_assoc] at hrest
      exact hfirst.trans hrest

/-- The same characters move two points at one place to one place. -/
theorem position_congr {cs ds : List Char} (h : position cs = position ds) (es : List Char) :
    position (cs ++ es) = position (ds ++ es) := by
  induction es generalizing cs ds with
  | nil => simpa using h
  | cons e es ih =>
    have hfirst : position (cs ++ [e]) = position (ds ++ [e]) := by
      obtain ⟨hline, hcolumn⟩ := Prod.mk.inj h
      rw [position_snoc, position_snoc, hline, hcolumn]
    simpa using ih hfirst

/-- Two points of a text at one place are one point. -/
theorem eq_of_position_eq {cs ds es es' : List Char} (happend : cs ++ es = ds ++ es')
    (h : position cs = position ds) : cs = ds := by
  rcases List.append_eq_append_iff.mp happend with ⟨more, rfl, -⟩ | ⟨more, rfl, -⟩
  · by_cases hmore : more = []
    · simp [hmore]
    · exact absurd h (earlier_append cs hmore).ne
  · by_cases hmore : more = []
    · simp [hmore]
    · exact absurd h.symm (earlier_append ds hmore).ne

/-- A text that comes behind another one, with a blank for each character at one of the places. -/
def blankAt (places : List (Nat × Nat)) : List Char → List Char → List Char
  | _, [] => []
  | passed, c :: cs =>
    (if position passed ∈ places then ' ' else c) :: blankAt places (passed ++ [c]) cs

variable (places : List (Nat × Nat))

theorem blank_at_append (passed cs ds : List Char) :
    blankAt places passed (cs ++ ds) =
      blankAt places passed cs ++ blankAt places (passed ++ cs) ds := by
  induction cs generalizing passed with
  | nil => simp [blankAt]
  | cons c cs ih => simp [blankAt, ih]

theorem blank_at_of_not_mem {passed cs : List Char}
    (h : ∀ front c behind, cs = front ++ c :: behind → position (passed ++ front) ∉ places) :
    blankAt places passed cs = cs := by
  induction cs generalizing passed with
  | nil => rfl
  | cons c cs ih =>
    have hc : position passed ∉ places := by simpa using h [] c cs rfl
    rw [blankAt, if_neg hc, ih]
    rintro front d behind rfl
    simpa using h (c :: front) d behind rfl

end Text

def Problem.position (p : Problem) : Nat × Nat :=
  (p.line, p.column)

theorem Problem.locate_eq (source : List Char) (offset : Nat) (message : String) :
    locate source offset message =
      ⟨Text.lineAfter (Text.before offset source), Text.columnAfter (Text.before offset source),
        message⟩ := by
  rw [locate, Text.length_last_line]

theorem Problem.locate_byte_length (before behind : List Char) (message : String) :
    locate (before ++ behind) (Text.byteLength before) message =
      ⟨Text.lineAfter before, Text.columnAfter before, message⟩ := by
  simp [locate_eq, Text.before, Text.take_bytes_byte_length]

end RedoLog
