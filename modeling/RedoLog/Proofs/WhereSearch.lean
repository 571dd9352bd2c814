import RedoLog.Statement.Meaning
import RedoLog.Token.Lexer
import RedoLog.Truncate

/-!
# The letters WHERE in a text

The search finds the first place where the letters stand. A word that holds them behind its first
character is no keyword, no constant and no function that is rebuilt.
-/

set_option autoImplicit false

namespace RedoLog

namespace Text

theorem is_alpha_of_to_upper {c : Char} (h : c.toUpper.isAlpha = true) : c.isAlpha = true := by
  unfold Char.toUpper at h
  split at h
  · rename_i hlower
    have hletter : c.isLower = true := by
      show (c.val ≥ 'a'.val && c.val ≤ 'z'.val) = true
      simpa using hlower
    show (c.isUpper || c.isLower) = true
    rw [hletter, Bool.or_true]
  · exact h

theorem eq_of_to_upper_eq_w {c : Char} (h : c.toUpper = 'W') : c = 'W' ∨ c = 'w' :=
  (to_upper_eq_iff (by decide)).mp h

end Text

/-- The place that is found is the first one where the letters stand. -/
theorem before_where_eq_some_iff {cs head : List Char} :
    beforeWhere? cs = some head ↔ ∃ tail, cs = head ++ tail ∧ startsWithWhere tail = true ∧
      ∀ before behind, cs = before ++ behind → startsWithWhere behind = true →
        head.length ≤ before.length := by
  induction cs generalizing head with
  | nil =>
    constructor
    · intro h
      cases h
    · rintro ⟨tail, hcs, htail, -⟩
      rw [(List.append_eq_nil_iff.mp hcs.symm).2] at htail
      cases htail
  | cons c cs ih =>
    rw [beforeWhere?]
    by_cases hhere : startsWithWhere (c :: cs) = true
    · rw [if_pos hhere]
      constructor
      · rintro ⟨⟩
        exact ⟨c :: cs, rfl, hhere, fun before behind _ _ => Nat.zero_le _⟩
      · rintro ⟨tail, -, -, hfirst⟩
        have hlength : head.length ≤ 0 := hfirst [] (c :: cs) rfl hhere
        rw [List.length_eq_zero_iff.mp (Nat.le_zero.mp hlength)]
    · rw [if_neg hhere]
      constructor
      · intro h
        obtain ⟨more, hmore, rfl⟩ := Option.map_eq_some_iff.mp h
        obtain ⟨tail, hcs, htail, hfirst⟩ := ih.mp hmore
        refine ⟨tail, by rw [hcs]; rfl, htail, ?_⟩
        intro before behind hbefore hbehind
        cases before with
        | nil => exact absurd (by rw [hbefore]; exact hbehind) hhere
        | cons d before =>
          exact Nat.succ_le_succ (hfirst before behind (List.cons.inj hbefore).2 hbehind)
      · rintro ⟨tail, hcs, htail, hfirst⟩
        cases head with
        | nil => exact absurd (by rw [hcs]; exact htail) hhere
        | cons d head =>
          obtain ⟨rfl, hmore⟩ := List.cons.inj hcs
          apply Option.map_eq_some_iff.mpr
          refine ⟨head, ih.mpr ⟨tail, hmore, htail, ?_⟩, rfl⟩
          intro before behind hbefore hbehind
          have hlength := hfirst (c :: before) behind (by rw [hbefore]; rfl) hbehind
          exact Nat.le_of_succ_le_succ hlength

theorem before_where_eq_some {cs head : List Char} (h : beforeWhere? cs = some head) :
    ∃ tail, cs = head ++ tail ∧ startsWithWhere tail = true := by
  obtain ⟨tail, hcs, htail, -⟩ := before_where_eq_some_iff.mp h
  exact ⟨tail, hcs, htail⟩

theorem before_where_ne_none {tail : List Char} (h : startsWithWhere tail = true)
    (cs : List Char) : beforeWhere? (cs ++ tail) ≠ none := by
  induction cs with
  | nil =>
    cases tail with
    | nil => cases h
    | cons c tail => simp [beforeWhere?, h]
  | cons c cs ih =>
    rw [List.cons_append, beforeWhere?]
    split
    · simp
    · simpa using ih

theorem starts_with_where_cons {tail : List Char} (h : startsWithWhere tail = true) :
    ∃ x xs, tail = x :: xs ∧ (x = 'W' ∨ x = 'w') := by
  cases tail with
  | nil => cases h
  | cons x xs =>
    have hletters : Text.upper ((x :: xs).take 5) = whereLetters := by
      simpa [startsWithWhere] using h
    have hfirst : x.toUpper = 'W' := by
      simpa [Text.upper, whereLetters] using congrArg List.head? hletters
    exact ⟨x, xs, rfl, Text.eq_of_to_upper_eq_w hfirst⟩

theorem upper_take_while_where {tail : List Char} (h : startsWithWhere tail = true) :
    ∃ more, Text.upper (tail.takeWhile Lexer.continuesWord) = whereLetters ++ more := by
  have hletters : Text.upper (tail.take 5) = whereLetters := by
    simpa [startsWithWhere] using h
  have hcontinues : ∀ c ∈ tail.take 5, Lexer.continuesWord c = true := by
    intro c hc
    have hmem : c.toUpper ∈ whereLetters := by
      rw [← hletters]
      exact List.mem_map_of_mem hc
    have halpha : c.toUpper.isAlpha = true := by
      revert hmem
      generalize c.toUpper = d
      intro hmem
      simp only [whereLetters, List.mem_cons, List.not_mem_nil, or_false] at hmem
      rcases hmem with rfl | rfl | rfl | rfl | rfl <;> decide
    show (c.isAlpha || c.isDigit || c = '_' || c = '$' || c = '#') = true
    simp [Text.is_alpha_of_to_upper halpha]
  refine ⟨Text.upper ((tail.drop 5).takeWhile Lexer.continuesWord), ?_⟩
  calc Text.upper (tail.takeWhile Lexer.continuesWord)
      = Text.upper ((tail.take 5 ++ tail.drop 5).takeWhile Lexer.continuesWord) := by
        rw [List.take_append_drop]
    _ = whereLetters ++ Text.upper ((tail.drop 5).takeWhile Lexer.continuesWord) := by
        rw [List.takeWhile_append_of_pos hcontinues, Text.upper_append, hletters]

def knownWords : List String :=
  TokenKind.words.map Prod.fst ++ Token.constantWords ++ supportedFunctions

theorem no_where_in_known_words :
    ∀ word ∈ knownWords, beforeWhere? word.toList.tail = none ∧
      Text.upper word.toList = word.toList := by
  decide

/-- A word with the letters behind its first character is not known. -/
theorem not_known_of_where {tail : List Char} (h : startsWithWhere tail = true) (c : Char)
    (cs : List Char) : ∀ word ∈ knownWords,
      word.toList ≠ Text.upper (c :: (cs ++ tail.takeWhile Lexer.continuesWord)) := by
  intro word hword heq
  obtain ⟨more, hmore⟩ := upper_take_while_where h
  have htail : word.toList.tail = Text.upper cs ++ (whereLetters ++ more) := by
    rw [heq, ← hmore, ← Text.upper_append]
    rfl
  have hstarts : startsWithWhere (whereLetters ++ more) = true := by
    simp [startsWithWhere, whereLetters]
    decide
  have hnone := (no_where_in_known_words word hword).1
  rw [htail] at hnone
  exact before_where_ne_none hstarts (Text.upper cs) hnone

theorem of_word_eq_name {c : Char} {cs tail : List Char} (h : startsWithWhere tail = true) :
    TokenKind.ofWord (c :: (cs ++ tail.takeWhile Lexer.continuesWord)) = .name := by
  have hfind : TokenKind.words.find? (fun entry => entry.1.toList ==
      Text.upper (c :: (cs ++ tail.takeWhile Lexer.continuesWord))) = none := by
    apply List.find?_eq_none.mpr
    intro entry hentry
    have hknown : entry.1 ∈ knownWords := by
      simp only [knownWords, List.mem_append]
      exact Or.inl (Or.inl (List.mem_map_of_mem hentry))
    simpa using not_known_of_where h c cs entry.1 hknown
  rw [TokenKind.ofWord, hfind]

theorem not_same_letters_of_where {c : Char} {cs tail : List Char}
    (h : startsWithWhere tail = true) {t : Token}
    (ht : t.text.toList = c :: (cs ++ tail.takeWhile Lexer.continuesWord)) {word : String}
    (hword : word ∈ knownWords) : Text.sameLetters word t.text = false := by
  have hupper := (no_where_in_known_words word hword).2
  have hne := not_known_of_where h c cs word hword
  simpa [Text.sameLetters, ht, hupper] using hne

theorem not_is_constant_word_of_where {c : Char} {cs tail : List Char}
    (h : startsWithWhere tail = true) {t : Token}
    (ht : t.text.toList = c :: (cs ++ tail.takeWhile Lexer.continuesWord)) :
    t.isConstantWord = false := by
  have hnone : ∀ word ∈ Token.constantWords, Text.sameLetters word t.text = false := by
    intro word hword
    exact not_same_letters_of_where h ht (by simp [knownWords, hword])
  simpa [Token.isConstantWord] using fun _ => hnone

theorem not_is_supported_of_where {c : Char} {cs tail : List Char}
    (h : startsWithWhere tail = true) {call : Call}
    (ht : call.name.text.toList = c :: (cs ++ tail.takeWhile Lexer.continuesWord)) :
    call.isSupported = false := by
  have hnone : ∀ word ∈ supportedFunctions, Text.sameLetters word call.name.text = false := by
    intro word hword
    exact not_same_letters_of_where h ht (by simp [knownWords, hword])
  simpa [Call.isSupported] using hnone

end RedoLog
