import RedoLog.Proofs.Positions

/-!
# Locations read backwards

A line and column of a text say what stands in front of them: the lines above, and some characters
of the next one. Read in this way, the location of an offset between two characters gives back the
text up to that offset.
-/

set_option autoImplicit false

namespace RedoLog

namespace Text

theorem byte_length_to_list (s : String) : byteLength s.toList = s.utf8ByteSize := by
  have hsize : ∀ cs : List Char, (String.ofList cs).utf8ByteSize = byteLength cs := by
    intro cs
    induction cs with
    | nil => rfl
    | cons c cs ih =>
      rw [String.ofList_cons, String.utf8ByteSize_append, String.utf8ByteSize_singleton, ih,
        byteLength]
  rw [← hsize, String.ofList_toList]

theorem is_valid_iff (s : String) (offset : Nat) :
    String.Pos.Raw.IsValid s ⟨offset⟩ ↔
      ∃ front rest, s.toList = front ++ rest ∧ byteLength front = offset := by
  rw [String.Pos.Raw.isValid_iff_exists_append]
  constructor
  · rintro ⟨front, rest, rfl, hoffset⟩
    refine ⟨front.toList, rest.toList, String.toList_append, ?_⟩
    rw [byte_length_to_list]
    exact (congrArg String.Pos.Raw.byteIdx hoffset).symm
  · rintro ⟨front, rest, hsource, hoffset⟩
    refine ⟨String.ofList front, String.ofList rest, ?_, ?_⟩
    · rw [← String.ofList_append, ← hsource, String.ofList_toList]
    · apply String.Pos.Raw.ext
      rw [String.byteIdx_rawEndPos, ← byte_length_to_list, String.toList_ofList, hoffset]

def lines (cs : List Char) : List (List Char) :=
  cs.splitOn '\n'

/-- What stands in front of a line and column: the lines above with their line feeds, and as many
characters of the line as the column says. `none` if the text has no such place. -/
def upTo? (place : Nat × Nat) (cs : List Char) : Option (List Char) :=
  match place with
  | (0, _) => none
  | (above + 1, column) =>
    (lines cs)[above]?.bind fun line =>
      if column ≤ line.length then
        some (((lines cs).take above).flatMap (· ++ ['\n']) ++ line.take column)
      else none

theorem lines_append (front cs : List Char) :
    lines (front ++ '\n' :: cs) = lines front ++ lines cs :=
  List.splitOn_append_cons_self front cs

theorem lines_feed (cs : List Char) : lines ('\n' :: cs) = [] :: lines cs :=
  lines_append [] cs

theorem lines_cons_of_ne {c : Char} (h : c ≠ '\n') (cs : List Char) :
    lines (c :: cs) = (lines cs).modifyHead (c :: ·) := by
  rw [lines, List.splitOn_cons_eq_if_modifyHead, if_neg (by simpa using h)]
  rfl

theorem exists_lines_cons (cs : List Char) : ∃ line others, lines cs = line :: others :=
  List.exists_cons_of_ne_nil (List.splitOn_ne_nil '\n' cs)

theorem lines_append_of_not_mem {last : List Char} (h : '\n' ∉ last) (rest : List Char) :
    ∃ more others, lines (last ++ rest) = (last ++ more) :: others := by
  induction last with
  | nil => exact exists_lines_cons rest
  | cons c last ih =>
    rw [List.mem_cons, not_or] at h
    obtain ⟨more, others, hlines⟩ := ih h.2
    refine ⟨more, others, ?_⟩
    rw [List.cons_append, lines_cons_of_ne (Ne.symm h.1), hlines]
    rfl

theorem flat_map_lines (cs : List Char) : (lines cs).flatMap (· ++ ['\n']) = cs ++ ['\n'] := by
  induction cs with
  | nil => rfl
  | cons c cs ih =>
    by_cases hc : c = '\n'
    · rw [hc, lines_feed, List.flatMap_cons, ih]
      rfl
    · obtain ⟨line, others, hlines⟩ := exists_lines_cons cs
      rw [hlines, List.flatMap_cons] at ih
      rw [lines_cons_of_ne hc, hlines, List.modifyHead_cons, List.flatMap_cons, List.cons_append,
        List.cons_append, ih]
      rfl

theorem length_lines (cs : List Char) : (lines cs).length = cs.count '\n' + 1 := by
  induction cs with
  | nil => rfl
  | cons c cs ih =>
    by_cases hc : c = '\n'
    · rw [hc, lines_feed, List.length_cons, ih, List.count_cons_self]
    · rw [lines_cons_of_ne hc, List.length_modifyHead, ih, List.count_cons_of_ne hc]

theorem up_to_position (front rest : List Char) :
    upTo? (position front) (front ++ rest) = some front := by
  rcases exists_last_line front with h | ⟨earlier, last, rfl, h⟩
  · obtain ⟨more, others, hlines⟩ := lines_append_of_not_mem h rest
    have hposition : position front = (1, front.length) := by
      simp [position, lineAfter, column_after_of_not_mem h, List.count_eq_zero.mpr h]
    simp [hposition, upTo?, hlines]
  · obtain ⟨more, others, hlines⟩ := lines_append_of_not_mem h rest
    have hall : lines (earlier ++ '\n' :: last ++ rest) =
        lines earlier ++ (last ++ more) :: others := by
      rw [List.append_assoc, List.cons_append, lines_append, hlines]
    have hposition : position (earlier ++ '\n' :: last) =
        ((lines earlier).length + 1, last.length) := by
      simp [position, lineAfter, column_after_append earlier h, List.count_eq_zero.mpr h,
        length_lines]
    simp only [hposition, upTo?, hall]
    simp [flat_map_lines]

theorem earlier_of_byte_length_lt {cs front front' rest rest' : List Char} (h : cs = front ++ rest)
    (h' : cs = front' ++ rest') (hlt : byteLength front < byteLength front') :
    Earlier (position front) (position front') := by
  rcases List.append_eq_append_iff.mp (h.symm.trans h') with ⟨more, rfl, -⟩ | ⟨more, rfl, -⟩
  · apply earlier_append
    rintro rfl
    simp at hlt
  · rw [byte_length_append] at hlt
    omega

theorem lt_iff_earlier {cs front front' rest rest' : List Char} (h : cs = front ++ rest)
    (h' : cs = front' ++ rest') :
    byteLength front < byteLength front' ↔
      Earlier (position front) (position front') := by
  refine ⟨earlier_of_byte_length_lt h h', fun hearlier => ?_⟩
  rcases Nat.lt_trichotomy (byteLength front) (byteLength front') with hlt | heq | hgt
  · exact hlt
  · rw [eq_of_byte_length_eq (h.symm.trans h') heq] at hearlier
    exact absurd rfl hearlier.ne
  · exact absurd rfl (hearlier.trans (earlier_of_byte_length_lt h' h hgt)).ne

end Text

namespace Problem

theorem position_locate {source : String} {front rest : List Char}
    (h : source.toList = front ++ rest) (message : String) :
    (locate source.toList (Text.byteLength front) message).position = Text.position front := by
  rw [h, locate_byte_length]
  rfl

theorem locate_of_not_is_valid {source : String} {offset : Nat}
    (h : ¬String.Pos.Raw.IsValid source ⟨offset⟩) (message : String) :
    locate source.toList offset message = locate source.toList source.utf8ByteSize message := by
  have hnone : Text.takeBytes? offset source.toList = none := by
    apply Option.eq_none_iff_forall_ne_some.mpr
    intro front hfront
    obtain ⟨rest, hsource, hoffset⟩ := Text.split_of_take_bytes hfront
    exact h ((Text.is_valid_iff source offset).mpr ⟨front, rest, hsource, hoffset⟩)
  have hend := Text.take_bytes_byte_length source.toList []
  rw [List.append_nil, Text.byte_length_to_list] at hend
  simp [locate, Text.before, hnone, hend]

/-- The location of an offset between two characters gives back the text up to that offset, and
grows with the offset. Every other offset has the location of the end. -/
theorem locate_inverted (source message : String) :
    (∀ offset, String.Pos.Raw.IsValid source ⟨offset⟩ →
      ∃ front rest, source.toList = front ++ rest ∧ Text.byteLength front = offset ∧
        Text.upTo? (locate source.toList offset message).position source.toList = some front) ∧
      (∀ offset offset', String.Pos.Raw.IsValid source ⟨offset⟩ →
        String.Pos.Raw.IsValid source ⟨offset'⟩ →
        (offset < offset' ↔ Text.Earlier (locate source.toList offset message).position
          (locate source.toList offset' message).position) ∧
        ((locate source.toList offset message).position =
          (locate source.toList offset' message).position → offset = offset')) ∧
      ∀ offset, ¬String.Pos.Raw.IsValid source ⟨offset⟩ →
        locate source.toList offset message =
          locate source.toList source.utf8ByteSize message := by
  refine ⟨?_, ?_, fun offset h => locate_of_not_is_valid h message⟩
  · intro offset hvalid
    obtain ⟨front, rest, hsource, rfl⟩ := (Text.is_valid_iff source offset).mp hvalid
    refine ⟨front, rest, hsource, rfl, ?_⟩
    rw [position_locate hsource, hsource, Text.up_to_position]
  · intro offset offset' hvalid hvalid'
    obtain ⟨front, rest, hsource, rfl⟩ := (Text.is_valid_iff source offset).mp hvalid
    obtain ⟨front', rest', hsource', rfl⟩ := (Text.is_valid_iff source offset').mp hvalid'
    rw [position_locate hsource, position_locate hsource']
    refine ⟨Text.lt_iff_earlier hsource hsource', fun hsame => ?_⟩
    rw [Text.eq_of_position_eq (hsource.symm.trans hsource') hsame]

example : (locate "é\nSET ü @".toList 10 "").position = (2, 6) ∧
    Text.upTo? (2, 6) "é\nSET ü @".toList = some "é\nSET ü ".toList := by
  decide

end Problem

end RedoLog
