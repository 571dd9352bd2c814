import RedoLog.Proofs.Scanning
import RedoLog.Proofs.WhereSearch

/-!
# The letters WHERE among the bytes of a text

A character of more than one byte has no byte of an ASCII character. So what is found among the
bytes of a text is what is found among its characters, and never starts inside one of them.
-/

set_option autoImplicit false

namespace RedoLog

namespace Text

theorem utf8_cons_ascii {c : Char} (hc : c.toNat ≤ 127) (cs : List Char) :
    utf8 (c :: cs) = UInt8.ofNat c.toNat :: utf8 cs := by
  have hencode : String.utf8EncodeChar c = [UInt8.ofNat c.toNat] := if_pos hc
  simp [utf8, hencode]

theorem lt_of_mem_utf8_encode_char {c : Char} (hc : 127 < c.toNat) :
    ∀ b ∈ String.utf8EncodeChar c, 127 < b.toNat := by
  have hlong : ¬c.val.toNat ≤ 127 := Nat.not_le.mpr hc
  intro b hb
  simp only [String.utf8EncodeChar, hlong, if_false] at hb
  split_ifs at hb
  all_goals
    simp only [List.mem_cons, List.not_mem_nil, or_false] at hb
    rcases hb with rfl | rfl | rfl | rfl <;> simp <;> omega

theorem exists_utf8_cons {c : Char} (hc : 127 < c.toNat) (cs : List Char) :
    ∃ b bs, 127 < b.toNat ∧ utf8 (c :: cs) = b :: bs := by
  obtain ⟨b, bs, hencode⟩ := List.exists_cons_of_ne_nil (String.utf8EncodeChar_ne_nil (c := c))
  have hb := lt_of_mem_utf8_encode_char hc b (by simp [hencode])
  exact ⟨b, bs ++ utf8 cs, hb, by simp [utf8, hencode]⟩

theorem upper_byte_eq_iff (b : UInt8) {letter : Char} (h : letter.toNat ≤ 127) :
    upperByte b = UInt8.ofNat letter.toNat ↔
      (if 97 ≤ b.toNat ∧ b.toNat ≤ 122 then b.toNat - 32 else b.toNat) = letter.toNat := by
  rw [← UInt8.toNat_inj, to_nat_upper_byte, UInt8.toNat_ofNat_of_lt' (by simp [UInt8.size]; omega)]

theorem take_utf8_eq_iff {letters : List Char} (h : ∀ letter ∈ letters, letter.toNat ≤ 127)
    (cs : List Char) :
    ((utf8 cs).take letters.length).map upperByte = utf8 letters ↔
      upper (cs.take letters.length) = letters := by
  induction letters generalizing cs with
  | nil => simp [utf8, upper]
  | cons letter letters ih =>
    have hletter : letter.toNat ≤ 127 := h letter (List.mem_cons_self ..)
    have ih := ih fun l hl => h l (List.mem_cons_of_mem _ hl)
    rw [utf8_cons_ascii hletter]
    cases cs with
    | nil => simp [utf8, upper]
    | cons c cs =>
      have hfirst : c.toUpper = letter ↔
          (if 97 ≤ c.toNat ∧ c.toNat ≤ 122 then c.toNat - 32 else c.toNat) = letter.toNat := by
        rw [← Char.toNat_inj, to_nat_to_upper]
      by_cases hc : c.toNat ≤ 127
      · have hvalue : (UInt8.ofNat c.toNat).toNat = c.toNat :=
          UInt8.toNat_ofNat_of_lt' (by simp [UInt8.size]; omega)
        rw [utf8_cons_ascii hc]
        simp only [upper, List.length_cons, List.take_succ_cons, List.map_cons, List.cons.injEq]
        rw [upper_byte_eq_iff _ hletter, hfirst, hvalue, ih cs]
        rfl
      · -- neither the character nor its first byte is a letter
        obtain ⟨b, bs, hb, hbytes⟩ := exists_utf8_cons (Nat.lt_of_not_le hc) cs
        have hbyte : upperByte b ≠ UInt8.ofNat letter.toNat := by
          rw [Ne, upper_byte_eq_iff b hletter, if_neg (by omega)]
          omega
        have hother : c.toUpper ≠ letter := by
          rw [Ne, hfirst, if_neg (by omega)]
          omega
        simp [hbytes, upper, hbyte, hother]

end Text

theorem starts_with_where_bytes_utf8 (cs : List Char) :
    startsWithWhereBytes (Text.utf8 cs) = startsWithWhere cs := by
  have hascii : ∀ letter ∈ whereLetters, letter.toNat ≤ 127 := by simp [whereLetters]
  have htake := Text.take_utf8_eq_iff hascii cs
  have hlength : whereLetters.length = 5 := rfl
  rw [hlength] at htake
  rw [Bool.eq_iff_iff, startsWithWhereBytes, startsWithWhere, beq_iff_eq, beq_iff_eq, htake]

theorem starts_with_where_bytes_of_long {b : UInt8} (hb : 127 < b.toNat) (bs : List UInt8) :
    startsWithWhereBytes (b :: bs) = false := by
  have hvalue : (Text.upperByte b).toNat = b.toNat := by
    rw [Text.to_nat_upper_byte, if_neg (by omega)]
  have hfirst : Text.upperByte b ≠ 87 := by
    intro heq
    rw [heq] at hvalue
    exact absurd (hvalue ▸ hb) (by decide)
  have hletters : Text.utf8 whereLetters = 87 :: Text.utf8 whereLetters.tail := rfl
  simp [startsWithWhereBytes, hletters, hfirst]

theorem where_offset_append {bs : List UInt8} (h : ∀ b ∈ bs, 127 < b.toNat) (rest : List UInt8) :
    whereOffset? (bs ++ rest) = (whereOffset? rest).map (· + bs.length) := by
  induction bs with
  | nil => simp
  | cons b bs ih =>
    have hstarts := starts_with_where_bytes_of_long (h b (List.mem_cons_self ..)) (bs ++ rest)
    rw [List.cons_append, whereOffset?, hstarts, ih fun d hd => h d (List.mem_cons_of_mem _ hd)]
    simp [Function.comp_def, Nat.add_assoc]

/-- The offset that is found is the length of what stands before the letters. -/
theorem where_offset_utf8 (cs : List Char) :
    whereOffset? (Text.utf8 cs) = (beforeWhere? cs).map Text.byteLength := by
  induction cs with
  | nil => rfl
  | cons c cs ih =>
    by_cases hc : c.toNat ≤ 127
    · have hsize : c.utf8Size = 1 := Char.utf8Size_eq_one_iff.mpr hc
      rw [Text.utf8_cons_ascii hc, whereOffset?, ← Text.utf8_cons_ascii hc,
        starts_with_where_bytes_utf8, beforeWhere?, ih]
      split
      · rfl
      · simp [Function.comp_def, Text.byteLength, hsize, Nat.add_comm]
    · have hlong : 127 < c.toNat := Nat.lt_of_not_le hc
      have hstarts : startsWithWhere (c :: cs) = false := by
        obtain ⟨b, bs, hb, hbytes⟩ := Text.exists_utf8_cons hlong cs
        rw [← starts_with_where_bytes_utf8, hbytes, starts_with_where_bytes_of_long hb]
      have hbytes : Text.utf8 (c :: cs) = String.utf8EncodeChar c ++ Text.utf8 cs := rfl
      rw [hbytes, where_offset_append (Text.lt_of_mem_utf8_encode_char hlong), ih, beforeWhere?,
        hstarts, String.length_utf8EncodeChar]
      simp [Function.comp_def, Text.byteLength, Nat.add_comm]

theorem truncate_eq (source : String) :
    truncate? source =
      (beforeWhere? source.toList).map fun head => String.ofList (head ++ [';']) := by
  rw [truncate?, where_offset_utf8]
  cases hbefore : beforeWhere? source.toList with
  | none => rfl
  | some head =>
    obtain ⟨tail, hsource, -⟩ := before_where_eq_some hbefore
    simp [hsource, Text.take_bytes_byte_length]

end RedoLog
