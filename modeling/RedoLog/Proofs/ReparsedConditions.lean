import RedoLog.Proofs.ReparsedTokens

/-!
# Parsing conditions that have been built

A condition is built again from its tokens if a closing parenthesis, a semicolon, a connective or
nothing stands behind it, for none of these can continue it. So every well-formed statement is what
its tokens are parsed to.
-/

set_option autoImplicit false

namespace RedoLog

theorem Chain.head_tokens (c : Chain Token) : (c.tokens fun t => [t]).head? = some c.head := by
  cases c <;> rfl

namespace Expression

theorem head_tokens (e : Expression) : e.tokens.head? = some e.first := by
  cases e with
  | number sign literal => cases sign <;> rfl
  | text type literal => cases type <;> rfl
  | _ => rfl

theorem kind_first {e : Expression} (he : e.WellFormed) (hgroup : e.isGroup = false) :
    e.first.kind ≠ .openParen ∧ e.first.kind ≠ .notWord := by
  cases e with
  | group opening inner closing => cases hgroup
  | number sign literal =>
    cases sign with
    | none => simp [first, he.2]
    | some s => rcases he.1 s rfl with hkind | hkind <;> simp [first, hkind]
  | text type literal =>
    cases type with
    | none => simp [first, he.2]
    | some t => rcases he.1 t rfl with hkind | hkind <;> simp [first, hkind]
  | null word =>
    have hkind : word.kind = .nullWord := he
    simp [first, hkind]
  | constant word => simp [first, Token.kind_of_is_constant_word he]
  | call name opening arguments closing => simp [first, he.1]

end Expression

namespace Operand

theorem head_tokens (o : Operand) : o.tokens.head? = some o.first := by
  cases o with
  | column path => exact path.head_tokens
  | value e => exact e.head_tokens

theorem kind_first {o : Operand} (ho : o.WellFormed) (hgroup : o.isGroup = false) :
    o.first.kind ≠ .openParen ∧ o.first.kind ≠ .notWord := by
  cases o with
  | column path =>
    have hname : path.head.kind.isName = true :=
      ho.1.1 path.head (by cases path <;> simp [Chain.head, Chain.toList])
    constructor <;> intro hkind <;> rw [first] at hkind <;> rw [hkind] at hname <;> cases hname
  | value e => exact e.kind_first ho hgroup

end Operand

namespace Parser

def EndsCondition (next : Option TokenKind) : Prop :=
  next ∈ [none, some .closeParen, some .semicolon, some .andWord, some .orWord]

def EndsOperand (next : Option TokenKind) : Prop :=
  next ≠ some .dot ∧ next ≠ some .openParen

theorem EndsCondition.ends_operand {next : Option TokenKind} (h : EndsCondition next) :
    EndsOperand next := by
  simp only [EndsCondition, List.mem_cons, List.not_mem_nil, or_false] at h
  rcases h with rfl | rfl | rfl | rfl | rfl <;> simp [EndsOperand]

/-- A value is no column: where it starts with a name, that name is a constant or is called. -/
theorem starts_column_value {e : Expression} (he : e.WellFormed) (rest : List Token) :
    startsColumn (e.tokens ++ rest) = false := by
  cases e with
  | group opening inner closing => simp [Expression.tokens, startsColumn, he.1, TokenKind.isName]
  | number sign literal =>
    cases sign with
    | none => simp [Expression.tokens, startsColumn, he.2, TokenKind.isName]
    | some s =>
      rcases he.1 s rfl with hkind | hkind <;>
        simp [Expression.tokens, startsColumn, hkind, TokenKind.isName]
  | text type literal =>
    cases type with
    | none => simp [Expression.tokens, startsColumn, he.2, TokenKind.isName]
    | some t =>
      rcases he.1 t rfl with hkind | hkind <;>
        simp [Expression.tokens, startsColumn, hkind, TokenKind.isName]
  | null word =>
    have hkind : word.kind = .nullWord := he
    simp [Expression.tokens, startsColumn, hkind, TokenKind.isName]
  | constant word =>
    have hword : word.isConstantWord = true := he
    simp [Expression.tokens, startsColumn, hword]
  | call name opening arguments closing =>
    simp [Expression.tokens, startsColumn, kindOf?, he.2.1]

theorem starts_column_path {path : Chain Token} (hpath : Operand.PathWellFormed path)
    (hhead : path.head.isConstantWord = false) {rest : List Token}
    (hrest : kindOf? rest ≠ some .openParen) :
    startsColumn (path.tokens (fun t => [t]) ++ rest) = true := by
  cases path with
  | last name =>
    have hname : name.kind.isName = true := hpath.1 name (by simp [Chain.toList])
    have hconstant : name.isConstantWord = false := hhead
    simp [Chain.tokens, startsColumn, hname, hconstant, hrest]
  | next name dot more =>
    have hname : name.kind.isName = true := hpath.1 name (by simp [Chain.toList])
    have hdot : dot.kind = .dot := hpath.2 dot (by simp [Chain.separators])
    have hconstant : name.isConstantWord = false := hhead
    simp [Chain.tokens, startsColumn, hname, hconstant, kindOf?, hdot]

theorem rereads_operand (levels : Nat) :
    Rereads EndsOperand Operand.tokens (fun o => o.WellFormed ∧ o.nesting ≤ levels)
      (operand levels) := by
  intro o ho rest hrest
  obtain ⟨hgood, hnesting⟩ := ho
  cases o with
  | column path =>
    have hstarts := starts_column_path hgood.1 hgood.2 hrest.2
    have hpath := rereads_path path hgood.1 rest hrest.1
    simp only [operand, Operand.tokens, hstarts, if_true, hpath, ok_bind]
    rfl
  | value e =>
    have hstarts := starts_column_value hgood rest
    have hvalue := rereads_expression levels e ⟨hgood, hnesting⟩ rest hrest.2
    simp only [operand, Operand.tokens, hstarts, hvalue, ok_bind]
    rfl

theorem rereads_test (levels : Nat) :
    Rereads EndsCondition Test.tokens (fun t => t.WellFormed ∧ t.nesting ≤ levels)
      (test levels) := by
  intro asked hasked rest hrest
  obtain ⟨hgood, hnesting⟩ := hasked
  cases asked with
  | holds =>
    cases rest with
    | nil => rfl
    | cons t ts =>
      have hkind : t.kind.isComparison = false ∧ t.kind ≠ .isWord := by
        simp only [EndsCondition, kindOf?, List.head?_cons, Option.map_some, List.mem_cons,
          Option.some.injEq, reduceCtorEq, List.not_mem_nil, or_false, false_or] at hrest
        rcases hrest with h | h | h | h <;> simp [h, TokenKind.isComparison]
      simp [Test.tokens, test, hkind.1, hkind.2]
  | compare operator right =>
    have hright := rereads_operand levels right ⟨hgood.2, hnesting⟩ rest hrest.ends_operand
    simp only [Test.tokens, List.cons_append, test, hgood.1, if_true, hright, ok_bind]
    rfl
  | isNull word negation null =>
    obtain ⟨hword, hnegation, hnull⟩ := hgood
    cases negation with
    | none =>
      have hoptional : optional (fun t => t.kind = .notWord) (null :: rest) =
          (none, null :: rest) := optional_kind_none (by simp [kindOf?, hnull])
      simp only [Test.tokens, List.cons_append, test, hword, if_true, hoptional,
        Option.toList_none, List.nil_append, kind_cons hnull, ok_bind]
      rfl
    | some negation =>
      have hoptional : optional (fun t => t.kind = .notWord) (negation :: null :: rest) =
          (some negation, null :: rest) := optional_kind_cons (hnegation negation rfl) _
      simp only [Test.tokens, List.cons_append, test, hword, if_true, hoptional,
        Option.toList_some, List.nil_append, kind_cons hnull, ok_bind]
      rfl

theorem ends_operand_test {asked : Test} (hasked : asked.WellFormed) {rest : List Token}
    (hrest : EndsCondition (kindOf? rest)) : EndsOperand (kindOf? (asked.tokens ++ rest)) := by
  cases asked with
  | holds => exact hrest.ends_operand
  | compare operator right =>
    have hcompare : operator.kind.isComparison = true := hasked.1
    constructor <;> intro hkind <;> simp only [Test.tokens, kindOf?, List.cons_append,
      List.head?_cons, Option.map_some, Option.some.injEq] at hkind <;>
      simp [hkind, TokenKind.isComparison] at hcompare
  | isNull word negation null =>
    simp [EndsOperand, Test.tokens, kindOf?, hasked.1]

/-- A left side that does not start with a parenthesis, and what is asked of it. -/
theorem condition_with_operand {n : Nat} {negated : Parse Condition} {inner : Parse Alternatives}
    {left : Operand} {asked : Test} (hc : (Condition.operand left asked).WellFormed)
    (hnesting : (Condition.operand left asked).nesting ≤ n) {rest : List Token}
    (hrest : EndsCondition (kindOf? rest)) :
    conditionWith n negated inner ((Condition.operand left asked).tokens ++ rest) =
      .ok (.operand left asked, rest) := by
  obtain ⟨hleft, hgroup, hasked⟩ := hc
  obtain ⟨hnesting, hnesting'⟩ := Nat.max_le.mp hnesting
  have hbuilt := rereads_operand n left ⟨hleft, hnesting⟩ (asked.tokens ++ rest)
    (ends_operand_test hasked hrest)
  have hbuilt' := rereads_test n asked ⟨hasked, hnesting'⟩ rest hrest
  obtain ⟨hopen, hnot⟩ := left.kind_first hleft hgroup
  obtain ⟨more, hmore⟩ := List.head?_eq_some_iff.mp left.head_tokens
  rw [Condition.tokens, List.append_assoc]
  rw [hmore, List.cons_append] at hbuilt ⊢
  rw [conditionWith, if_neg hnot, if_neg hopen, hbuilt, ok_bind]
  simp only [hbuilt', ok_bind]
  rfl

theorem rereads_condition_with {n : Nat} {negated : Parse Condition} {inner : Parse Alternatives}
    (hnegated : Rereads EndsCondition Condition.tokens
      (fun c => c.WellFormed ∧ c.nesting + 1 ≤ n) negated)
    (hinner : Rereads (· = some .closeParen) Condition.alternativeTokens
      (fun c => Condition.AlternativesWellFormed c ∧ Condition.alternativeNesting c + 1 ≤ n)
      inner) :
    Rereads EndsCondition Condition.tokens (fun c => c.WellFormed ∧ c.nesting ≤ n)
      (conditionWith n negated inner) := by
  intro c hc rest hrest
  obtain ⟨hgood, hnesting⟩ := hc
  cases c with
  | not word c =>
    have hbuilt := hnegated c ⟨hgood.2, hnesting⟩ rest hrest
    simp only [Condition.tokens, List.cons_append, conditionWith, hgood.1, if_true, hbuilt, ok_bind]
    rfl
  | group opening c closing asked =>
    obtain ⟨hopening, hc, hclosing, hasked⟩ := hgood
    obtain ⟨hnesting, hnesting'⟩ := Nat.max_le.mp hnesting
    have hbuilt := hinner c ⟨hc, hnesting⟩ (closing :: (asked.tokens ++ rest))
      (by simp [kindOf?, hclosing])
    have hbuilt' := rereads_test n asked ⟨hasked, hnesting'⟩ rest hrest
    simp only [Condition.tokens, List.cons_append, List.append_assoc, conditionWith, hopening,
      reduceCtorEq, if_false, if_true, hbuilt, kind_cons hclosing, hbuilt', ok_bind]
    rfl
  | operand left asked => exact condition_with_operand hgood hnesting hrest

theorem rereads_alternatives_of {n : Nat} {p : Parse Condition}
    (hp : Rereads EndsCondition Condition.tokens (fun c => c.WellFormed ∧ c.nesting ≤ n) p) :
    Rereads (fun k => k = none ∨ k = some .closeParen ∨ k = some .semicolon)
      Condition.alternativeTokens
      (fun c => Condition.AlternativesWellFormed c ∧ Condition.alternativeNesting c ≤ n)
      (alternativesOf p) := by
  intro c hc rest hrest
  have hmade : c.Made .orWord (Chain.Made .andWord fun d => d.WellFormed ∧ d.nesting ≤ n) := by
    obtain ⟨hgood, hwords⟩ := (Condition.alternatives_well_formed_iff c).mp hc.1
    have hlevels := (Condition.alternative_nesting_le c n).mp hc.2
    exact ⟨fun d hd => ⟨fun e he => ⟨(hgood d hd).1 e he, hlevels d hd e he⟩, (hgood d hd).2⟩,
      hwords⟩
  have hands := rereads_chain hp (show EndsCondition (some .andWord) by simp [EndsCondition])
  have hors := rereads_chain hands
    (show EndsCondition (some .orWord) ∧ some .orWord ≠ some TokenKind.andWord by
      simp [EndsCondition]) c hmade rest
  rw [Condition.alternative_tokens_eq]
  apply hors
  rcases hrest with h | h | h <;> simp [h, EndsCondition]

theorem rereads_condition (levels : Nat) :
    Rereads EndsCondition Condition.tokens (fun c => c.WellFormed ∧ c.nesting ≤ levels)
      (condition levels) := by
  induction levels with
  | zero =>
    apply rereads_condition_with
    · rintro c ⟨-, hnesting⟩
      exact absurd hnesting (Nat.not_succ_le_zero _)
    · rintro c ⟨-, hnesting⟩
      exact absurd hnesting (Nat.not_succ_le_zero _)
  | succ levels ih =>
    apply rereads_condition_with
    · rintro c ⟨hgood, hnesting⟩ rest hrest
      exact ih c ⟨hgood, Nat.le_of_succ_le_succ hnesting⟩ rest hrest
    · rintro c ⟨hgood, hnesting⟩ rest hrest
      exact rereads_alternatives_of ih c ⟨hgood, Nat.le_of_succ_le_succ hnesting⟩ rest
        (Or.inr (Or.inl hrest))

theorem rereads_optional_filter :
    Rereads (fun k => k = none ∨ k = some .semicolon) (fun o => o.elim [] Filter.tokens)
      (fun o => ∀ f ∈ o, f.WellFormed ∧ f.nesting ≤ maxLevels) optionalFilter := by
  intro o ho rest hrest
  cases o with
  | none =>
    have hoptional : optional (fun t => t.kind = .whereWord) rest = (none, rest) :=
      optional_kind_none (by rcases hrest with h | h <;> simp [h])
    simp only [optionalFilter, Option.elim_none, List.nil_append, hoptional]
  | some f =>
    obtain ⟨⟨hword, hcondition⟩, hnesting⟩ := ho f rfl
    have hoptional : optional (fun t => t.kind = .whereWord) (f.tokens ++ rest) =
        (some f.word, Condition.alternativeTokens f.condition ++ rest) :=
      optional_kind_cons hword _
    have hbuilt := rereads_alternatives_of (rereads_condition (maxLevels - 1)) f.condition
      ⟨hcondition, Nat.le_of_succ_le_succ hnesting⟩ rest (hrest.imp_right Or.inr)
    have halternatives : alternatives maxLevels = alternativesOf (condition (maxLevels - 1)) := rfl
    simp only [optionalFilter, Option.elim_some, hoptional, halternatives, hbuilt, ok_bind]
    rfl

theorem update_tokens {s : Update} (hs : s.WellFormed) (hnesting : s.nesting ≤ maxLevels) :
    update s.tokens = .ok s := by
  obtain ⟨-, -, -, -, -, -, hfilter, hterminator⟩ := id hs
  have hend : kindOf? s.terminator.toList = none ∨
      kindOf? s.terminator.toList = some .semicolon := by
    cases ht : s.terminator with
    | none => exact Or.inl rfl
    | some t => exact Or.inr (congrArg some (hterminator t ht))
  have hlevels : ∀ f ∈ s.filter, f.WellFormed ∧ f.nesting ≤ maxLevels := by
    intro f hf
    refine ⟨hfilter f hf, ?_⟩
    have hmax := (Nat.max_le.mp hnesting).2
    rwa [Option.mem_def.mp hf] at hmax
  have hbehind : kindOf? (s.filter.elim [] Filter.tokens ++ s.terminator.toList) ≠
        some .openParen ∧
      kindOf? (s.filter.elim [] Filter.tokens ++ s.terminator.toList) ≠ some .comma := by
    cases hf : s.filter with
    | none => rcases hend with h | h <;> simp [h]
    | some f => simp [kindOf?, Filter.tokens, (hfilter f hf).1]
  have hfront := rereads_update_front s.front (Update.front_well_formed hs hnesting) _ hbehind
  have hbuilt := rereads_optional_filter s.filter hlevels _ hend
  have hleading : s.leading = s.front.tokens := rfl
  rw [s.tokens_eq_leading, hleading, update_eq_front, hfront, ok_bind]
  simp only [hbuilt, terminator_tokens hterminator, ok_bind]
  rfl

end Parser

end RedoLog
