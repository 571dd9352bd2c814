import Mathlib.Data.List.Forall2
import RedoLog.Proofs.WhereBytes

/-!
# The first WHERE of a text

A text is cut where the letters stand first, at a point between two characters. A text without the
letters is left as it is, and the cut text is such a text.
-/

set_option autoImplicit false

namespace RedoLog

theorem Text.upper_eq_iff {letters : List Char} (h : ∀ letter ∈ letters, letter.isUpper = true)
    (word : List Char) :
    upper word = letters ↔
      List.Forall₂ (fun c letter => c = letter ∨ c = letter.toLower) word letters := by
  induction letters generalizing word with
  | nil => simp [upper]
  | cons letter letters ih =>
    have ih := ih fun l hl => h l (List.mem_cons_of_mem _ hl)
    cases word with
    | nil => simp [upper]
    | cons c word =>
      rw [List.forall₂_cons, ← ih, ← to_upper_eq_iff (h letter (List.mem_cons_self ..))]
      simp [upper]

def SpellsWhere (word : List Char) : Prop :=
  List.Forall₂ (fun c letter => c = letter ∨ c = letter.toLower) word whereLetters

def HasWhere (cs : List Char) : Prop :=
  ∃ head word rest, cs = head ++ (word ++ rest) ∧ SpellsWhere word

structure FirstWhere (cs head word rest : List Char) : Prop where
  split : cs = head ++ (word ++ rest)
  spells : SpellsWhere word
  first : ∀ head' word' rest', cs = head' ++ (word' ++ rest') → SpellsWhere word' →
    head.length ≤ head'.length

theorem spells_where_iff (word : List Char) : SpellsWhere word ↔ Text.upper word = whereLetters :=
  (Text.upper_eq_iff (by simp [whereLetters]) word).symm

theorem SpellsWhere.semicolon_not_mem {word : List Char} (h : SpellsWhere word) : ';' ∉ word := by
  intro hmem
  have hletter : ';'.toUpper ∈ Text.upper word := List.mem_map_of_mem hmem
  rw [(spells_where_iff word).mp h] at hletter
  exact absurd hletter (by decide)

theorem starts_with_where_iff (cs : List Char) :
    startsWithWhere cs = true ↔ ∃ word rest, cs = word ++ rest ∧ SpellsWhere word := by
  rw [startsWithWhere, beq_iff_eq, ← spells_where_iff]
  constructor
  · intro h
    exact ⟨cs.take 5, cs.drop 5, (List.take_append_drop 5 cs).symm, h⟩
  · rintro ⟨word, rest, rfl, hword⟩
    have hlength : word.length = 5 := hword.length_eq
    rwa [← hlength, List.take_left]

theorem before_where_eq_some_iff_first_where {cs head : List Char} :
    beforeWhere? cs = some head ↔ ∃ word rest, FirstWhere cs head word rest := by
  rw [before_where_eq_some_iff]
  constructor
  · rintro ⟨tail, hcs, htail, hfirst⟩
    obtain ⟨word, rest, rfl, hword⟩ := (starts_with_where_iff tail).mp htail
    refine ⟨word, rest, hcs, hword, ?_⟩
    intro head' word' rest' hcs' hword'
    exact hfirst head' (word' ++ rest') hcs'
      ((starts_with_where_iff _).mpr ⟨word', rest', rfl, hword'⟩)
  · rintro ⟨word, rest, hcs, hword, hfirst⟩
    refine ⟨word ++ rest, hcs, (starts_with_where_iff _).mpr ⟨word, rest, rfl, hword⟩, ?_⟩
    intro before behind hcs' hbehind
    obtain ⟨word', rest', rfl, hword'⟩ := (starts_with_where_iff behind).mp hbehind
    exact hfirst before word' rest' hcs' hword'

theorem exists_first_where {cs : List Char} (h : HasWhere cs) :
    ∃ head word rest, FirstWhere cs head word rest := by
  obtain ⟨before, word, rest, rfl, hword⟩ := h
  have hstarts : startsWithWhere (word ++ rest) = true :=
    (starts_with_where_iff _).mpr ⟨word, rest, rfl, hword⟩
  obtain ⟨head, hhead⟩ := Option.ne_none_iff_exists'.mp (before_where_ne_none hstarts before)
  exact ⟨head, before_where_eq_some_iff_first_where.mp hhead⟩

theorem FirstWhere.has_where {cs head word rest : List Char} (h : FirstWhere cs head word rest) :
    HasWhere cs :=
  ⟨head, word, rest, h.split, h.spells⟩

theorem FirstWhere.not_has_where_cut {cs head word rest : List Char}
    (h : FirstWhere cs head word rest) : ¬HasWhere (head ++ [';']) := by
  rintro ⟨head', word', rest', hcut, hword'⟩
  have hlength : word'.length = 5 := hword'.length_eq
  rcases List.eq_nil_or_concat' rest' with rfl | ⟨more, last, rfl⟩
  · have hne : word' ≠ [] := List.ne_nil_of_length_eq_add_one hlength
    have hlast : word'.getLast? = some ';' := by
      rw [← List.getLast?_append_of_ne_nil head' hne, ← List.append_nil word', ← hcut,
        List.getLast?_concat]
    exact hword'.semicolon_not_mem (List.mem_of_getLast? hlast)
  · have hends : head ++ [';'] = (head' ++ (word' ++ more)) ++ [last] := by simpa using hcut
    have hhead : head = head' ++ (word' ++ more) := List.append_inj_left' hends rfl
    have hfirst := h.first head' word' (more ++ (word ++ rest)) (by simp [h.split, hhead]) hword'
    simp only [hhead, List.length_append] at hfirst
    omega

theorem truncate_from_where_of_not_has_where {source : String} (h : ¬HasWhere source.toList) :
    truncateFromWhere source = source := by
  have hnone : beforeWhere? source.toList = none := by
    apply Option.eq_none_iff_forall_ne_some.mpr
    intro head hhead
    obtain ⟨word, rest, hfirst⟩ := before_where_eq_some_iff_first_where.mp hhead
    exact h hfirst.has_where
  simp [truncateFromWhere, truncate_eq, hnone]

theorem truncate_from_where_of_first_where {source : String} {head word rest : List Char}
    (h : FirstWhere source.toList head word rest) :
    truncateFromWhere source = String.ofList (head ++ [';']) := by
  have hbefore := before_where_eq_some_iff_first_where.mpr ⟨word, rest, h⟩
  simp [truncateFromWhere, truncate_eq, hbefore]

theorem not_has_where_truncate_from_where (source : String) :
    ¬HasWhere (truncateFromWhere source).toList := by
  by_cases h : HasWhere source.toList
  · obtain ⟨head, word, rest, hfirst⟩ := exists_first_where h
    rw [truncate_from_where_of_first_where hfirst, String.toList_ofList]
    exact hfirst.not_has_where_cut
  · rwa [truncate_from_where_of_not_has_where h]

/-- A text is left as it is if the letters stand nowhere in it, and else cut where they stand first.
The cut text has none, so another cut changes nothing. The bytes that are found always start at a
character, the first of the letters, so that there is a text to be kept. -/
theorem truncate_from_where_first (source : String) :
    (truncateFromWhere source = source ↔ ¬HasWhere source.toList) ∧
      (HasWhere source.toList → ∃ head word rest, FirstWhere source.toList head word rest ∧
        truncateFromWhere source = String.ofList (head ++ [';'])) ∧
      ¬HasWhere (truncateFromWhere source).toList ∧
      truncateFromWhere (truncateFromWhere source) = truncateFromWhere source ∧
      ∀ offset, whereOffset? (Text.utf8 source.toList) = some offset →
        ∃ head word rest, FirstWhere source.toList head word rest ∧
          Text.byteLength head = offset ∧ Text.takeBytes? offset source.toList = some head := by
  have hnone := not_has_where_truncate_from_where source
  refine ⟨⟨?_, truncate_from_where_of_not_has_where⟩, ?_, hnone,
    truncate_from_where_of_not_has_where hnone, ?_⟩
  · intro hsame
    rwa [hsame] at hnone
  · intro h
    obtain ⟨head, word, rest, hfirst⟩ := exists_first_where h
    exact ⟨head, word, rest, hfirst, truncate_from_where_of_first_where hfirst⟩
  · intro offset hoffset
    rw [where_offset_utf8] at hoffset
    obtain ⟨head, hbefore, hlength⟩ := Option.map_eq_some_iff.mp hoffset
    obtain ⟨word, rest, hfirst⟩ := before_where_eq_some_iff_first_where.mp hbefore
    refine ⟨head, word, rest, hfirst, hlength, ?_⟩
    rw [hfirst.split, ← hlength, Text.take_bytes_byte_length]

example : truncateFromWhere "é WhErE x" = "é ;" := by decide

end RedoLog
