import RedoLog.Proofs.SetClause

/-!
# SET clauses that go on

A statement that starts with the assignments of another one has them too, and those that come
behind a comma after them. Only the last value can come out differently: a word that stands alone
at the end may be the name of a call where more tokens follow.
-/

set_option autoImplicit false

namespace RedoLog

theorem TokenKind.of_word_mem (cs : List Char) : ofWord cs ∈ .name :: words.map Prod.snd := by
  rw [ofWord]
  split
  · rename_i entry hfind
    exact List.mem_cons_of_mem _ (List.mem_map_of_mem (List.mem_of_find?_eq_some hfind))
  · exact List.mem_cons_self

theorem TokenKind.of_word_ne_comma (cs : List Char) : ofWord cs ≠ .comma := by
  intro hcomma
  have hmem := of_word_mem cs
  rw [hcomma] at hmem
  exact absurd hmem (by decide)

theorem Call.not_is_supported_of_constant {c : Call} (h : c.name.isConstantWord = true) :
    c.isSupported = false := by
  have hdifferent : ∀ constant ∈ Token.constantWords, ∀ supported ∈ supportedFunctions,
      Text.upper supported.toList ≠ Text.upper constant.toList := by decide
  obtain ⟨-, hconstant⟩ := Bool.and_eq_true_iff.mp h
  obtain ⟨constant, hmem, hletters⟩ := List.any_eq_true.mp hconstant
  apply Bool.eq_false_iff.mpr
  intro hsupported
  obtain ⟨supported, hmem', hletters'⟩ := List.any_eq_true.mp hsupported
  apply hdifferent constant hmem supported hmem'
  rw [eq_of_beq hletters, eq_of_beq hletters']

namespace Expression

theorem tokens_eq_last (e : Expression) : ∃ front, e.tokens = front ++ [e.last] := by
  cases e with
  | group opening inner closing => exact ⟨opening :: inner.tokens, rfl⟩
  | number sign literal => exact ⟨sign.toList, rfl⟩
  | text type literal => exact ⟨type.toList, rfl⟩
  | null word => exact ⟨[], rfl⟩
  | constant word => exact ⟨[], rfl⟩
  | call name opening arguments closing =>
    exact ⟨name :: opening :: argumentTokens arguments, by simp [tokens, last]⟩

theorem kind_last {e : Expression} (h : e.WellFormed) :
    e.last.kind ∈ [.closeParen, .number, .text, .nullWord, .name] := by
  cases e with
  | group opening inner closing => simp [last, h.2.2]
  | number sign literal => simp [last, h.2]
  | text type literal => simp [last, h.2]
  | null word =>
    have hword : word.kind = .nullWord := h
    simp [last, hword]
  | constant word => simp [last, Token.kind_of_is_constant_word h]
  | call name opening arguments closing => simp [last, h.2.2.2]

theorem tokens_of_word_last {e : Expression} (h : e.WellFormed)
    (hword : ∃ cs, e.last.kind = TokenKind.ofWord cs) : e.tokens = [e.last] := by
  obtain ⟨cs, hcs⟩ := hword
  have hmem := TokenKind.of_word_mem cs
  rw [← hcs] at hmem
  cases e with
  | group opening inner closing =>
    rw [last, h.2.2] at hmem
    exact absurd hmem (by decide)
  | number sign literal =>
    rw [last, h.2] at hmem
    exact absurd hmem (by decide)
  | text type literal =>
    rw [last, h.2] at hmem
    exact absurd hmem (by decide)
  | null word => rfl
  | constant word => rfl
  | call name opening arguments closing =>
    rw [last, h.2.2.2] at hmem
    exact absurd hmem (by decide)

end Expression

namespace Parser

variable {α : Type}

theorem chain_up_to_cases {separator : TokenKind} {item : Parse α} {fuel : Nat} {ts : List Token}
    {c : Chain α} {rest : List Token} (h : chainUpTo separator item fuel ts = .ok (c, rest)) :
    ∃ a behind, item ts = .ok (a, behind) ∧
      (c = .last a ∨ ∃ s ts' d fuel', behind = s :: ts' ∧ s.kind = separator ∧
        chainUpTo separator item fuel' ts' = .ok (d, rest) ∧ c = .next a s d) := by
  cases fuel with
  | zero =>
    obtain ⟨⟨a, behind⟩, ha, h⟩ := bind_eq_ok h
    cases h
    exact ⟨a, _, ha, Or.inl rfl⟩
  | succ fuel =>
    obtain ⟨⟨a, behind⟩, ha, h⟩ := bind_eq_ok h
    refine ⟨a, behind, ha, ?_⟩
    dsimp only at h
    split at h
    · rename_i s ts' hoptional
      obtain ⟨hbehind, hs⟩ := optional_eq hoptional
      obtain ⟨⟨d, r⟩, hd, h⟩ := bind_eq_ok h
      cases h
      exact Or.inr ⟨s, ts', d, fuel, hbehind, by simpa using hs, hd, rfl⟩
    · cases h
      exact Or.inl rfl

/-- An assignment is read as it was, unless its value is a constant word that is now called. -/
theorem assignment_again {a a' : Assignment} (hgood : a'.WellFormed)
    (hnesting : a'.value.nesting ≤ maxLevels) {more behind : List Token}
    (h : assignment (a'.tokens ++ more) = .ok (a, behind)) :
    (a = a' ∧ behind = more) ∨ ∃ c ∈ a.value.calls, c.isSupported = false := by
  obtain ⟨hcolumn, hequals, hvalue⟩ := hgood
  rw [Assignment.tokens, List.cons_append, List.cons_append,
    assignment_cons hcolumn hequals] at h
  obtain ⟨⟨e, r⟩, he, h⟩ := bind_eq_ok h
  cases h
  by_cases hcalled : (∃ word, a'.value = .constant word) ∧ kindOf? more = some .openParen
  · right
    obtain ⟨⟨word, hword⟩, hmore⟩ := hcalled
    rw [hword] at hvalue he
    obtain ⟨opening, arguments, closing, rfl⟩ :=
      call_of_expression he (Token.kind_of_is_constant_word hvalue) fun _ => hmore
    exact ⟨⟨word, closing⟩, by simp [Expression.calls], Call.not_is_supported_of_constant hvalue⟩
  · left
    have hread := expression_tokens maxLevels a'.value ⟨hvalue, hnesting⟩ more
      fun hconstant hopen => hcalled ⟨hconstant, hopen⟩
    rw [hread] at he
    cases he
    exact ⟨rfl, rfl⟩

end Parser

namespace Update

theorem leading_eq_header (s : Update) :
    s.leading = s.header ++
      (s.assignments.tokensBefore Assignment.tokens ++ s.assignments.final.tokens) := by
  rw [← Chain.tokens_eq_before]
  simp [leading, front, tokens, header]

theorem leading_eq_last (s : Update) :
    ∃ front, s.leading = front ++ [s.assignments.final.value.last] := by
  obtain ⟨front, hfront⟩ := s.assignments.final.value.tokens_eq_last
  rw [leading_eq_header, Assignment.tokens, hfront]
  exact ⟨s.header ++ (s.assignments.tokensBefore Assignment.tokens ++
    s.assignments.final.column :: s.assignments.final.equals :: front), by simp⟩

theorem kind_of_leading {s : Update} (hs : s.WellFormed) {front : List Token} {t : Token}
    (h : s.leading = front ++ [t]) : t.kind ≠ .semicolon := by
  obtain ⟨front', hfront'⟩ := s.leading_eq_last
  obtain ⟨-, hlast⟩ := List.append_inj' (h.symm.trans hfront') rfl
  have hmem := Expression.kind_last (hs.assignment s.assignments.final_mem_to_list).2.2
  rw [← List.singleton_inj.mp hlast] at hmem
  intro hkind
  rw [hkind] at hmem
  exact absurd hmem (by decide)

variable {s s' : Update} (hs' : s'.WellFormed) (hnesting : s'.nesting ≤ maxLevels)

include hs' hnesting

/-- All assignments but the last one are the same in a statement that starts in the same way. -/
theorem assignments_behind {ts : List Token}
    (h : Parser.update (s'.header ++ (s'.assignments.tokensBefore Assignment.tokens ++ ts)) =
      .ok s) :
    ∃ a behind more, Parser.assignment ts = .ok (a, behind) ∧
      s.assignments.toList = s'.assignments.toList.dropLast ++ a :: more ∧
      (∀ b ∈ more, ∀ t ∈ b.tokens, t ∈ behind) ∧
      (more ≠ [] → Parser.kindOf? behind = some .comma) := by
  have hfront := front_well_formed hs' hnesting
  obtain ⟨fuel, hbefore⟩ :=
    Parser.chain_before Parser.rereads_assignment (by simp) s'.assignments hfront.made ts
  rw [Parser.update_eq_front] at h
  obtain ⟨⟨start, r⟩, hstart, h⟩ := bind_eq_ok h
  obtain ⟨⟨filter, r'⟩, -, h⟩ := bind_eq_ok h
  obtain ⟨terminator, -, h⟩ := bind_eq_ok h
  cases h
  obtain ⟨⟨c, r''⟩, hchain, hupdate⟩ := bind_eq_ok
    ((Parser.update_front_header hfront _).symm.trans hstart)
  cases hupdate
  obtain ⟨⟨d, r₁⟩, hd, hc⟩ := bind_eq_ok (hbefore.symm.trans hchain)
  cases hc
  obtain ⟨a, behind, ha, rfl | ⟨s, ts', more, fuel', hbehind, hs, hmore, rfl⟩⟩ :=
    Parser.chain_up_to_cases hd
  · exact ⟨a, behind, [], ha, Chain.to_list_replace_final _ _, by simp, by simp⟩
  · obtain ⟨htokens, -⟩ :=
      Parser.reads_chain_up_to Parser.reads_assignment fuel' ts' more _ hmore
    refine ⟨a, behind, more.toList, ha, Chain.to_list_replace_final _ _, ?_, ?_⟩
    · intro b hb t ht
      rw [hbehind, htokens]
      exact List.mem_cons_of_mem _ (List.mem_append_left _ (Chain.mem_tokens_of_mem hb ht))
    · intro _
      rw [hbehind, Parser.kindOf?, List.head?_cons, Option.map_some, hs]

/-- The assignments behind the given ones come behind a comma. -/
theorem assignments_of_leading (hsupported : ∀ c ∈ s.setCalls, c.isSupported = true)
    {behind : List Token} (h : Parser.update (s'.leading ++ behind) = .ok s) :
    ∃ more, s.assignments.toList = s'.assignments.toList ++ more ∧
      (∀ b ∈ more, ∀ t ∈ b.tokens, t ∈ behind) ∧
      (more ≠ [] → Parser.kindOf? behind = some .comma) := by
  have hmem := s'.assignments.final_mem_to_list
  rw [leading_eq_header, List.append_assoc, List.append_assoc] at h
  obtain ⟨a, r, more, ha, hlist, hmore⟩ := assignments_behind hs' hnesting h
  have hagain := Parser.assignment_again (hs'.assignment hmem)
    (Parser.nesting_le_of_mem hnesting _ hmem) ha
  rcases hagain with ⟨rfl, rfl⟩ | ⟨c, hc, hunsupported⟩
  · refine ⟨more, ?_, hmore⟩
    rw [hlist, s'.assignments.to_list_eq_drop_last, List.dropLast_concat, List.append_assoc]
    rfl
  · have hcall : c ∈ s.setCalls := by
      rw [setCalls, hlist]
      exact List.mem_flatMap.mpr ⟨a, by simp, hc⟩
    rw [hsupported c hcall] at hunsupported
    cases hunsupported

theorem call_of_last_word {front : List Token} {part : Token}
    (hleading : s'.leading = front ++ [part]) (hpart : ∃ cs, part.kind = TokenKind.ofWord cs)
    {word : Token} (hname : word.kind = .name) (hword : word.isConstantWord = false)
    {behind : List Token} (h : Parser.update (front ++ word :: behind) = .ok s) :
    ∃ c ∈ s.setCalls, c.name = word := by
  have hmem := s'.assignments.final_mem_to_list
  obtain ⟨hcolumn, hequals, hvalue⟩ := hs'.assignment hmem
  obtain ⟨front', hfront'⟩ := s'.leading_eq_last
  obtain ⟨rfl, hlast⟩ : front = front' ∧ [part] = [s'.assignments.final.value.last] :=
    List.append_inj' (hleading.symm.trans hfront') rfl
  obtain rfl : part = s'.assignments.final.value.last := by simpa using hlast
  have hvalueTokens := Expression.tokens_of_word_last hvalue hpart
  rw [leading_eq_header, Assignment.tokens, hvalueTokens] at hleading
  have hfront : front = s'.header ++ (s'.assignments.tokensBefore Assignment.tokens ++
      [s'.assignments.final.column, s'.assignments.final.equals]) := by
    apply List.append_cancel_right (hleading.symm.trans _)
    simp
  rw [hfront] at h
  simp only [List.append_assoc, List.cons_append, List.nil_append] at h
  obtain ⟨a, r, more, ha, hlist, -⟩ := assignments_behind hs' hnesting h
  rw [Parser.assignment_cons hcolumn hequals] at ha
  obtain ⟨⟨e, r'⟩, he, ha⟩ := bind_eq_ok ha
  cases ha
  obtain ⟨opening, arguments, closing, rfl⟩ :=
    Parser.call_of_expression he hname fun hconstant => absurd hconstant (by simp [hword])
  refine ⟨⟨word, closing⟩, ?_, rfl⟩
  rw [setCalls, hlist]
  simp [Expression.calls]

end Update

end RedoLog
