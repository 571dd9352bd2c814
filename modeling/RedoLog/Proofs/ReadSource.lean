import RedoLog.Proofs.ParsedTokens
import RedoLog.Proofs.Scanning
import RedoLog.Statement.Reading

/-!
# Statements read from a source

A statement that is read holds exactly the tokens of its source, so each of its tokens stands in
the source where it says.
-/

set_option autoImplicit false

namespace RedoLog

theorem read_with_eq_ok {α : Type} {parser : List Token → Except ParseFault α} {source : String}
    {a : α} (h : readWith parser source = .ok a) :
    ∃ ts, Lexer.lex source.toList = .ok ts ∧ parser ts = .ok a := by
  unfold readWith at h
  split at h
  · simp at h
  · rename_i ts hlex
    split at h
    · simp at h
    · rename_i hparse
      cases h
      exact ⟨ts, hlex, hparse⟩

theorem Insert.read_eq_ok {source : String} {s : Insert} (h : Insert.read source = .ok s) :
    Lexer.lex source.toList = .ok s.tokens ∧ s.WellFormed ∧ s.nesting ≤ maxLevels := by
  obtain ⟨ts, hlex, hparse⟩ := read_with_eq_ok h
  obtain ⟨htokens, hgood⟩ := Parser.insert_eq hparse
  rw [htokens] at hlex
  exact ⟨hlex, hgood⟩

theorem Update.read_eq_ok {source : String} {s : Update} (h : Update.read source = .ok s) :
    Lexer.lex source.toList = .ok s.tokens ∧ s.WellFormed ∧ s.nesting ≤ maxLevels := by
  obtain ⟨ts, hlex, hparse⟩ := read_with_eq_ok h
  obtain ⟨htokens, hgood⟩ := Parser.update_eq hparse
  rw [htokens] at hlex
  exact ⟨hlex, hgood⟩

theorem Update.parse_of_read {source : String} {s : Update} (h : Update.read source = .ok s) :
    Parser.update s.tokens = .ok s := by
  obtain ⟨ts, -, hparse⟩ := read_with_eq_ok h
  obtain ⟨htokens, -⟩ := Parser.update_eq hparse
  rw [← htokens, hparse]

theorem lex_of_tokenize {source : String} {ts : List Token} (h : tokenize source = .ok ts) :
    ∃ tokens, Lexer.lex source.toList = .ok tokens ∧
      ts = tokens ++ [Lexer.endToken source.toList tokens.length] := by
  obtain ⟨tokens, hlex, htokens⟩ := ok_of_map h
  exact ⟨tokens, hlex, htokens.symm⟩

/-- The tokens in front of the one at the end are those that are parsed. -/
theorem read_with_eq_ok_iff {α : Type} {parser : List Token → Except ParseFault α} {source : String}
    {ts : List Token} {last : Token} (h : tokenize source = .ok (ts ++ [last])) (a : α) :
    readWith parser source = .ok a ↔ parser ts = .ok a := by
  obtain ⟨tokens, hlex, hends⟩ := lex_of_tokenize h
  obtain ⟨rfl, -⟩ := List.append_inj' hends rfl
  simp only [readWith, hlex]
  cases parser ts <;> simp

theorem Update.read_of_parse_update {source : String} {tree : ParseTree}
    (h : parseUpdate source = .ok tree) : ∃ s, Update.read source = .ok s := by
  obtain ⟨s, hs, -⟩ := ok_of_map h
  exact ⟨s, hs⟩

theorem Insert.stands_in_of_read {source : String} {s : Insert} (h : Insert.read source = .ok s) :
    ∀ t ∈ s.tokens, t.StandsIn source.toList :=
  Lexer.stands_in_of_lex (Insert.read_eq_ok h).1

theorem Update.stands_in_of_read {source : String} {s : Update} (h : Update.read source = .ok s) :
    ∀ t ∈ s.tokens, t.StandsIn source.toList :=
  Lexer.stands_in_of_lex (Update.read_eq_ok h).1

theorem parse_insert_eq_ok {source : String} {s : Insert} (h : Insert.read source = .ok s) :
    parseInsert source = .ok ⟨source.toList, s.node⟩ := by
  rw [parseInsert, h]
  rfl

theorem parse_update_eq_ok {source : String} {s : Update} (h : Update.read source = .ok s) :
    parseUpdate source = .ok ⟨source.toList, s.node⟩ := by
  rw [parseUpdate, h]
  rfl

end RedoLog
