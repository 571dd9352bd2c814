import RedoLog.Proofs.JsonLiterals

/-!
# JSON that is written and read

What is written is read back as it was: numerals with all their digits, members in order. Two calls
of the reader for each character are enough, since every item and every member takes a character of
its own besides those of its value.
-/

set_option autoImplicit false

namespace RedoLog.Json

/-- JSON whose numerals have digits behind the point and whose string literals are texts. -/
inductive Proper : Json → Prop where
  | null : Proper .null
  | bool (b : Bool) : Proper (.bool b)
  | number (n : Numeral) (hdigits : ∀ c ∈ n.fraction, c.isDigit = true) : Proper (.number n)
  | text (s : String) : Proper (.string (some s))
  | array (items : List Json) (hitems : ∀ item ∈ items, Proper item) : Proper (.array items)
  | object (members : List (Option String × Json))
      (hnames : ∀ entry ∈ members, entry.1.isSome = true)
      (hvalues : ∀ entry ∈ members, Proper entry.2) : Proper (.object members)

theorem skip_spaces_cons {c : Char} (h : isSpace c = false) (cs : List Char) :
    skipSpaces (c :: cs) = c :: cs := by
  rw [skipSpaces, List.dropWhile_cons, h]
  rfl

theorem write_numeral (n : Numeral) :
    ∃ c cs, n.write = c :: cs ∧
      c ∉ [' ', '\t', '\n', '\r', ']', 'n', 't', 'f', '"', '[', '\x7b'] := by
  rw [write_eq]
  cases n.negative with
  | true => exact ⟨'-', _, rfl, by decide⟩
  | false =>
    obtain ⟨c, cs, hcs⟩ := List.exists_cons_of_ne_nil (digits_ne_nil n.whole)
    have hc : c.isDigit = true := is_digit_of_mem_digits (n := n.whole) (by rw [hcs]; simp)
    have hdigits : ∀ d ∈ [' ', '\t', '\n', '\r', ']', 'n', 't', 'f', '"', '[', '\x7b'],
        d.isDigit = false := by simp
    refine ⟨c, _, by rw [hcs]; rfl, fun hmem => ?_⟩
    rw [hdigits c hmem] at hc
    cases hc

theorem write_cons {j : Json} (hj : j.Proper) :
    ∃ c cs, j.write = c :: cs ∧ isSpace c = false ∧ c ≠ ']' := by
  cases hj with
  | null => exact ⟨'n', _, rfl, by decide, by decide⟩
  | bool b => cases b <;> exact ⟨_, _, rfl, by decide, by decide⟩
  | number n hdigits =>
    obtain ⟨c, cs, hcs, hc⟩ := write_numeral n
    simp only [List.mem_cons, not_or] at hc
    refine ⟨c, cs, hcs, ?_, hc.2.2.2.2.1⟩
    simp [isSpace, hc]
  | text s => exact ⟨'"', _, rfl, by decide, by decide⟩
  | array items hitems => cases items <;> exact ⟨'[', _, rfl, by decide, by decide⟩
  | object members hnames hvalues => cases members <;> exact ⟨'\x7b', _, rfl, by decide, by decide⟩

def ReadsBack (j : Json) : Prop :=
  ∀ fuel rest, 2 * j.write.length ≤ fuel → EndsNumeral rest →
    readValue? fuel (j.write ++ rest) = some (j, rest)

theorem exists_succ_of_length {cs : List Char} {fuel : Nat} (hne : cs ≠ [])
    (h : 2 * cs.length ≤ fuel) : ∃ f, fuel = f + 1 := by
  have hlength := List.length_pos_iff.mpr hne
  exact ⟨fuel - 1, by omega⟩

theorem reads_back_number {n : Numeral} (hdigits : ∀ c ∈ n.fraction, c.isDigit = true) :
    ReadsBack (.number n) := by
  intro fuel rest hfuel hrest
  obtain ⟨c, cs, hcs, hc⟩ := write_numeral n
  have hread := read_numeral_write hdigits hrest
  obtain ⟨f, rfl⟩ := exists_succ_of_length (by simp [write, hcs]) hfuel
  simp only [List.mem_cons, List.not_mem_nil, or_false, not_or] at hc
  have hspace : isSpace c = false := by simp [isSpace, hc]
  rw [write]
  rw [hcs, List.cons_append] at hread ⊢
  simp [readValue?, skip_spaces_cons hspace, hc, hread]

theorem reads_back_text (s : String) : ReadsBack (.string (some s)) := by
  intro fuel rest hfuel _
  obtain ⟨f, rfl⟩ := exists_succ_of_length (by simp [write, writeString, writeText]) hfuel
  have hread := read_string_write s rest
  simp [write, writeString, writeText, readValue?, skip_spaces_cons (c := '"') (by decide), hread]

theorem read_items_write (items : List Json) (hitems : ∀ item ∈ items, item.ReadsBack) (item : Json)
    (hitem : item.ReadsBack) (fuel : Nat) (rest : List Char)
    (hfuel : 2 * (item.write ++ writeItems items).length ≤ fuel) :
    readItems? fuel (item.write ++ (writeItems items ++ rest)) = some (item :: items, rest) := by
  induction items generalizing item fuel with
  | nil =>
    obtain ⟨f, rfl⟩ := exists_succ_of_length (by simp [writeItems]) hfuel
    have hfirst := hitem f (']' :: rest) (by simp [writeItems] at hfuel; omega)
      (ends_numeral_cons (by decide) rest)
    rw [writeItems, List.singleton_append, readItems?, hfirst]
    simp [skip_spaces_cons (c := ']') (by decide)]
  | cons next items ih =>
    rw [List.forall_mem_cons] at hitems
    obtain ⟨f, rfl⟩ := exists_succ_of_length (by simp [writeItems]) hfuel
    have hfirst := hitem f (',' :: (next.write ++ (writeItems items ++ rest)))
      (by simp [writeItems] at hfuel; omega) (ends_numeral_cons (by decide) _)
    have hmore := ih hitems.2 next hitems.1 f (by simp [writeItems] at hfuel ⊢; omega)
    rw [writeItems, List.cons_append, List.append_assoc, readItems?, hfirst]
    simp [skip_spaces_cons (c := ',') (by decide), hmore]

theorem write_text_append (s : String) (rest : List Char) :
    writeText s ++ rest = '"' :: (s.toList.flatMap escape ++ '"' :: rest) := by
  simp [writeText]

theorem read_members_write (members : List (Option String × Json))
    (hnames : ∀ entry ∈ members, entry.1.isSome = true)
    (hvalues : ∀ entry ∈ members, entry.2.ReadsBack) (name : String) (value : Json)
    (hvalue : value.ReadsBack) (fuel : Nat) (rest : List Char)
    (hfuel : 2 * (writeText name ++ ':' :: (value.write ++ writeMembers members)).length ≤ fuel) :
    readMembers? fuel (writeText name ++ ':' :: (value.write ++ (writeMembers members ++ rest))) =
      some ((some name, value) :: members, rest) := by
  induction members generalizing name value fuel with
  | nil =>
    obtain ⟨f, rfl⟩ := exists_succ_of_length (by simp) hfuel
    have hfirst := hvalue f ('\x7d' :: rest) (by simp [writeMembers] at hfuel; omega)
      (ends_numeral_cons (by decide) rest)
    rw [writeMembers, List.singleton_append, readMembers?, write_text_append]
    simp [skip_spaces_cons (c := '"') (by decide), read_string_write,
      skip_spaces_cons (c := ':') (by decide), hfirst, skip_spaces_cons (c := '\x7d') (by decide)]
  | cons entry members ih =>
    obtain ⟨entryName, next⟩ := entry
    rw [List.forall_mem_cons] at hnames hvalues
    obtain ⟨hname, hnames⟩ := hnames
    obtain ⟨nextName, rfl⟩ := Option.isSome_iff_exists.mp hname
    obtain ⟨f, rfl⟩ := exists_succ_of_length (by simp) hfuel
    have hfirst := hvalue f
      (',' :: (writeText nextName ++ ':' :: (next.write ++ (writeMembers members ++ rest))))
      (by simp [writeMembers] at hfuel; omega) (ends_numeral_cons (by decide) _)
    have hmore := ih hnames hvalues.2 nextName next hvalues.1 f
      (by simp [writeMembers, writeString] at hfuel ⊢; omega)
    have hbehind : writeMembers ((some nextName, next) :: members) ++ rest =
        ',' :: (writeText nextName ++ ':' :: (next.write ++ (writeMembers members ++ rest))) := by
      simp [writeMembers, writeString]
    rw [hbehind]
    generalize writeText nextName ++ ':' :: (next.write ++ (writeMembers members ++ rest)) = behind
      at hfirst hmore
    rw [readMembers?, write_text_append]
    simp [skip_spaces_cons (c := '"') (by decide), read_string_write,
      skip_spaces_cons (c := ':') (by decide), hfirst, skip_spaces_cons (c := ',') (by decide),
      hmore]

theorem reads_back_array {items : List Json} (hproper : ∀ item ∈ items, item.Proper)
    (hitems : ∀ item ∈ items, item.ReadsBack) : ReadsBack (.array items) := by
  intro fuel rest hfuel _
  have hbracket : ∀ cs, skipSpaces ('[' :: cs) = '[' :: cs := skip_spaces_cons (by decide)
  cases items with
  | nil =>
    obtain ⟨f, rfl⟩ := exists_succ_of_length (by simp [write]) hfuel
    simp [write, readValue?, hbracket, skip_spaces_cons (c := ']') (by decide)]
  | cons item items =>
    rw [List.forall_mem_cons] at hproper hitems
    obtain ⟨f, rfl⟩ := exists_succ_of_length (by simp [write]) hfuel
    have hread := read_items_write items hitems.2 item hitems.1 f rest
      (by simp [write] at hfuel ⊢; omega)
    obtain ⟨c, cs, hcs, hspace, hclosing⟩ := write_cons hproper.1
    rw [write, List.cons_append, List.append_assoc, readValue?, hbracket]
    rw [hcs, List.cons_append] at hread ⊢
    simp [skip_spaces_cons hspace, hclosing, hread]

theorem reads_back_object {members : List (Option String × Json)}
    (hnames : ∀ entry ∈ members, entry.1.isSome = true)
    (hvalues : ∀ entry ∈ members, entry.2.ReadsBack) : ReadsBack (.object members) := by
  intro fuel rest hfuel _
  have hbrace : ∀ cs, skipSpaces ('\x7b' :: cs) = '\x7b' :: cs := skip_spaces_cons (by decide)
  cases members with
  | nil =>
    obtain ⟨f, rfl⟩ := exists_succ_of_length (by simp [write]) hfuel
    simp [write, readValue?, hbrace, skip_spaces_cons (c := '\x7d') (by decide)]
  | cons entry members =>
    obtain ⟨entryName, value⟩ := entry
    rw [List.forall_mem_cons] at hnames hvalues
    obtain ⟨hname, hnames⟩ := hnames
    obtain ⟨name, rfl⟩ := Option.isSome_iff_exists.mp hname
    obtain ⟨f, rfl⟩ := exists_succ_of_length (by simp [write]) hfuel
    have hread := read_members_write members hnames hvalues.2 name value hvalues.1 f rest
      (by simp [write, writeString] at hfuel ⊢; omega)
    have hform : (Json.object ((some name, value) :: members)).write ++ rest = '\x7b' ::
        (writeText name ++ ':' :: (value.write ++ (writeMembers members ++ rest))) := by
      simp [write, writeString]
    rw [hform, readValue?, hbrace]
    rw [write_text_append] at hread ⊢
    simp [skip_spaces_cons (c := '"') (by decide), hread]

theorem Proper.reads_back {j : Json} (hj : j.Proper) : j.ReadsBack := by
  induction hj with
  | null =>
    intro fuel rest hfuel _
    obtain ⟨f, rfl⟩ := exists_succ_of_length (by simp [write]) hfuel
    simp [write, readValue?, skip_spaces_cons (c := 'n') (by decide)]
  | bool b =>
    intro fuel rest hfuel _
    cases b <;> obtain ⟨f, rfl⟩ := exists_succ_of_length (by simp [write]) hfuel <;>
      simp [write, readValue?, skip_spaces_cons (c := 't') (by decide),
        skip_spaces_cons (c := 'f') (by decide)]
  | number n hdigits => exact reads_back_number hdigits
  | text s => exact reads_back_text s
  | array items hproper ih => exact reads_back_array hproper ih
  | object members hnames _ ih => exact reads_back_object hnames ih

theorem Proper.read_render {j : Json} (hj : j.Proper) : read? j.render = some j := by
  have hread := hj.reads_back (2 * j.write.length + 2) [] (by omega) (by simp [EndsNumeral])
  rw [List.append_nil] at hread
  simp [read?, render, hread, skipSpaces]

end RedoLog.Json
