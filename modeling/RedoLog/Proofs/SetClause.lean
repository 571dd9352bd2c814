import RedoLog.Proofs.Relabelled
import RedoLog.Proofs.ReparsedConditions
import RedoLog.Proofs.UpdateReplay

/-!
# What an UPDATE yields

An `UPDATE` yields its assignments, and the tokens up to the end of its `SET` clause determine
them. What its condition says, or whether there is one, makes no difference.
-/

set_option autoImplicit false

namespace RedoLog

namespace Token

def lexeme (t : Token) : TokenKind × String :=
  (t.kind, t.text)

def placeless (t : Token) : Token :=
  ⟨t.kind, 0, 0, t.text⟩

theorem keeps_lexemes_placeless : KeepsLexemes placeless :=
  ⟨fun _ => rfl, fun _ _ => rfl⟩

theorem map_placeless_of_lexeme {ts us : List Token} (h : ts.map lexeme = us.map lexeme) :
    ts.map placeless = us.map placeless := by
  have hplaceless : placeless = (fun l : TokenKind × String => ⟨l.1, 0, 0, l.2⟩) ∘ lexeme := rfl
  rw [hplaceless, ← List.map_map, ← List.map_map, h]

end Token

def Assignment.relabel (f : Token → Token) (a : Assignment) : Assignment :=
  ⟨f a.column, f a.equals, a.value.relabel f⟩

theorem Assignment.tokens_relabel (f : Token → Token) (a : Assignment) :
    (a.relabel f).tokens = a.tokens.map f := by
  simp [relabel, tokens, Expression.tokens_relabel]

theorem Assignment.entry_relabel {f : Token → Token} (hf : KeepsLexemes f) (options : Options)
    (a : Assignment) (ha : a.WellFormed) : (a.relabel f).entry options = a.entry options := by
  have hcolumn : (f a.column).text = a.column.text :=
    hf.text a.column (TokenKind.carries_text_of_is_name ha.1)
  have hvalue := a.value.meaning_relabel hf options.trimText ha.2.2
  simp [relabel, entry, hcolumn, hvalue]

namespace Update

theorem WellFormed.assignment {s : Update} (hs : s.WellFormed) {a : Assignment}
    (ha : a ∈ s.assignments.toList) : a.WellFormed :=
  hs.2.2.2.2.1 a ha

def relabelFront (f : Token → Token) (s : Update) : Update :=
  ⟨f s.update, s.table.relabel f f, s.correlation.map f, f s.setWord,
    s.assignments.relabel f (Assignment.relabel f), none, none⟩

theorem tokens_relabel_front (f : Token → Token) (s : Update) :
    (s.relabelFront f).tokens = s.leading.map f := by
  have htable : (s.table.relabel f f).tokens (fun t => [t]) =
      (s.table.tokens fun t => [t]).map f := Chain.tokens_relabel f f (by simp) s.table
  have hassignments : (s.assignments.relabel f (Assignment.relabel f)).tokens Assignment.tokens =
      (s.assignments.tokens Assignment.tokens).map f :=
    Chain.tokens_relabel f _ (Assignment.tokens_relabel f) s.assignments
  cases hc : s.correlation <;>
    simp [relabelFront, leading, front, tokens, htable, hassignments, hc]

theorem relabel_front_well_formed {f : Token → Token} (hf : KeepsLexemes f) {s : Update}
    (hs : s.WellFormed) (hnesting : s.nesting ≤ maxLevels) :
    Parser.FrontWellFormed (s.relabelFront f) := by
  obtain ⟨hupdate, ⟨hnames, hdots⟩, hcorrelation, hset, hassignments, hcommas, -, -⟩ := hs
  have hvalues := Parser.nesting_le_of_mem hnesting
  refine ⟨⟨?_, ⟨?_, ?_⟩, ?_, ?_, ?_, ?_, by simp [relabelFront], by simp [relabelFront]⟩, ?_,
    rfl, rfl⟩
  · simpa [relabelFront, hf.kind] using hupdate
  · simpa [relabelFront, Chain.to_list_relabel, hf.kind] using hnames
  · simpa [relabelFront, Chain.separators_relabel, hf.kind] using hdots
  · cases hc : s.correlation with
    | none => simp [relabelFront, hc]
    | some t => simpa [relabelFront, hc, hf.kind] using hcorrelation t (by simp [hc])
  · simpa [relabelFront, hf.kind] using hset
  · intro a ha
    obtain ⟨b, hb, rfl⟩ : ∃ b ∈ s.assignments.toList, b.relabel f = a := by
      simpa [relabelFront, Chain.to_list_relabel] using ha
    obtain ⟨hcolumn, hequals, hvalue⟩ := hassignments b hb
    simp [Assignment.WellFormed, Assignment.relabel, hf.kind, hcolumn, hequals,
      (b.value.well_formed_relabel hf).mpr hvalue]
  · simpa [relabelFront, Chain.separators_relabel, hf.kind] using hcommas
  · apply Parser.nesting_le_of_parts
    · simpa [relabelFront, Chain.to_list_relabel, Assignment.relabel,
        Expression.nesting_relabel] using hvalues
    · simp [relabelFront]

theorem meaning_relabel_front {f : Token → Token} (hf : KeepsLexemes f) (options : Options)
    {s : Update} (hs : s.WellFormed) : (s.relabelFront f).meaning options = s.meaning options := by
  have hentries : ∀ a ∈ s.assignments.toList, (a.relabel f).entry options = a.entry options :=
    fun a ha => a.entry_relabel hf options (hs.assignment ha)
  simp only [meaning, relabelFront, Chain.to_list_relabel, List.map_map]
  exact congrArg OrderedMap.ofEntries (List.map_congr_left hentries)

theorem is_supported_relabel_front {f : Token → Token} (hf : KeepsLexemes f) {s : Update}
    (hs : s.WellFormed) :
    (∀ c ∈ (s.relabelFront f).setCalls, c.isSupported = true) ↔
      ∀ c ∈ s.setCalls, c.isSupported = true := by
  simp only [setCalls, relabelFront, Chain.to_list_relabel, List.forall_mem_flatMap,
    List.forall_mem_map]
  exact forall₂_congr fun a ha =>
    a.value.is_supported_relabel hf (hs.assignment ha).2.2

/-- Statements that start with the same lexemes up to the end of the `SET` clause mean the same. -/
theorem same_of_leading {s s' : Update} (hs : s.WellFormed) (hs' : s'.WellFormed)
    (hnesting : s.nesting ≤ maxLevels) (hnesting' : s'.nesting ≤ maxLevels)
    (h : s.leading.map Token.lexeme = s'.leading.map Token.lexeme) :
    (∀ options, s.meaning options = s'.meaning options) ∧
      ((∀ c ∈ s.setCalls, c.isSupported = true) ↔ ∀ c ∈ s'.setCalls, c.isSupported = true) := by
  have hf := Token.keeps_lexemes_placeless
  have hfront : s.relabelFront Token.placeless = s'.relabelFront Token.placeless := by
    apply Parser.eq_of_front_tokens (relabel_front_well_formed hf hs hnesting)
      (relabel_front_well_formed hf hs' hnesting')
    rw [tokens_relabel_front, tokens_relabel_front, Token.map_placeless_of_lexeme h]
  constructor
  · intro options
    rw [← meaning_relabel_front hf options hs, hfront, meaning_relabel_front hf options hs']
  · rw [← is_supported_relabel_front hf hs, hfront, is_supported_relabel_front hf hs']

end Update

def SameOutcome (a b : Except Failure Columns) : Prop :=
  (∃ columns, a = .ok columns ∧ b = .ok columns) ∨
    ∃ text text', a = .error (.replay (.unsupportedFunction text)) ∧
      b = .error (.replay (.unsupportedFunction text'))

/-- An `UPDATE` is rebuilt exactly if its values call only supported functions, and what is rebuilt
is what its assignments say. Another condition, or none, does not change the outcome. -/
theorem reconstruct_update_assignments (options : Options) (source : String) (s : Update)
    (h : Update.read source = .ok s) :
    ((∃ columns, reconstructUpdate options source = .ok columns) ↔
        ∀ a ∈ s.assignments.toList, ∀ c ∈ a.value.calls, c.isSupported = true) ∧
      (∀ columns, reconstructUpdate options source = .ok columns →
        columns = s.meaning options) ∧
      ∀ source' s', Update.read source' = .ok s' →
        s.leading.map Token.lexeme = s'.leading.map Token.lexeme →
        SameOutcome (reconstructUpdate options source) (reconstructUpdate options source') := by
  have hcalls : (∀ a ∈ s.assignments.toList, ∀ c ∈ a.value.calls, c.isSupported = true) ↔
      ∀ c ∈ s.setCalls, c.isSupported = true := List.forall_mem_flatMap.symm
  have hcases := reconstruct_update_cases options source s h
  rw [hcalls]
  refine ⟨?_, ?_, ?_⟩
  · rcases hcases with ⟨hok, hsupported⟩ | ⟨⟨text, herror⟩, hunsupported⟩
    · exact ⟨fun _ => hsupported, fun _ => ⟨_, hok⟩⟩
    · simp [herror, hunsupported]
  · intro columns hcolumns
    rcases hcases with ⟨hok, -⟩ | ⟨⟨text, herror⟩, -⟩
    · rw [hok] at hcolumns
      exact (Except.ok.inj hcolumns).symm
    · rw [herror] at hcolumns
      cases hcolumns
  · intro source' s' h' hleading
    obtain ⟨-, hs, hnesting⟩ := Update.read_eq_ok h
    obtain ⟨-, hs', hnesting'⟩ := Update.read_eq_ok h'
    obtain ⟨hmeaning, hsame⟩ := Update.same_of_leading hs hs' hnesting hnesting' hleading
    have hcases' := reconstruct_update_cases options source' s' h'
    rw [← hsame, ← hmeaning] at hcases'
    rcases hcases with ⟨hok, hsupported⟩ | ⟨⟨text, herror⟩, hunsupported⟩
    · rcases hcases' with ⟨hok', -⟩ | ⟨-, hunsupported'⟩
      · exact Or.inl ⟨_, hok, hok'⟩
      · exact absurd hsupported hunsupported'
    · rcases hcases' with ⟨-, hsupported'⟩ | ⟨⟨text', herror'⟩, -⟩
      · exact absurd hsupported' hunsupported
      · exact Or.inr ⟨text, text', herror, herror'⟩

def updateWithCondition : String :=
  "update T set a=1,b=null,a=to_date('x') where f(g(null))=(2) or not (b is null)"

def updateWithoutCondition : String :=
  "update T set a = 1, b = null, a = to_date('x')"

theorem reconstruct_update_update_with_condition :
    ∃ s, Update.read updateWithCondition = .ok s ∧
      (s.meaning defaultOptions).entries =
        [("th2_a", .call "TO_DATE" [.text "x"]), ("th2_b", .null)] ∧
      SameOutcome (reconstructUpdate defaultOptions updateWithCondition)
        (reconstructUpdate defaultOptions updateWithoutCondition) := by
  have hnesting : (Update.read updateWithoutCondition).toOption.map Update.nesting = some 2 := by
    decide +kernel
  have hlexemes : (Update.read updateWithCondition).toOption.map
      (fun s => s.leading.map Token.lexeme) = (Update.read updateWithoutCondition).toOption.map
        (fun s => s.leading.map Token.lexeme) := by decide +kernel
  obtain ⟨s', hs', -⟩ := ok_of_to_option_map hnesting
  rw [hs'] at hlexemes
  obtain ⟨s, hs, hleading⟩ := ok_of_to_option_map hlexemes
  have hentries : (reconstructUpdate defaultOptions updateWithCondition).toOption.map
      (·.entries) = some [("th2_a", .call "TO_DATE" [.text "x"]), ("th2_b", .null)] := by
    decide +kernel
  obtain ⟨columns, hcolumns, hvalues⟩ := ok_of_to_option_map hentries
  have hupdate := reconstruct_update_assignments defaultOptions updateWithCondition s hs
  rw [hupdate.2.1 columns hcolumns] at hvalues
  exact ⟨s, hs, hvalues, hupdate.2.2 updateWithoutCondition s' hs' hleading⟩

end RedoLog
