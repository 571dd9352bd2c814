import RedoLog.Statement.Syntax

/-!
# Chains inside expressions and conditions

Arguments, conjunctions and alternatives are chains whose tokens, form and levels are defined by
recursion together with those of their items. Each of these is the same thing said of every item.
-/

set_option autoImplicit false

namespace RedoLog

namespace Chain

variable {α : Type}

def Made (separator : TokenKind) (good : α → Prop) (c : Chain α) : Prop :=
  (∀ a ∈ c.toList, good a) ∧ ∀ s ∈ c.separators, s.kind = separator

theorem made_last (separator : TokenKind) (good : α → Prop) (a : α) :
    (last a).Made separator good ↔ good a := by
  simp [Made, toList, separators]

theorem made_next (separator : TokenKind) (good : α → Prop) (a : α) (s : Token) (c : Chain α) :
    (next a s c).Made separator good ↔
      good a ∧ s.kind = separator ∧ c.Made separator good := by
  simp only [Made, toList, separators, List.mem_cons, forall_eq_or_imp]
  constructor
  · rintro ⟨⟨ha, hc⟩, hs, hcs⟩
    exact ⟨ha, hs, hc, hcs⟩
  · rintro ⟨ha, hs, hc, hcs⟩
    exact ⟨⟨ha, hc⟩, hs, hcs⟩

theorem Made.imp {separator : TokenKind} {good better : α → Prop} {c : Chain α}
    (h : c.Made separator good) (himp : ∀ a, good a → better a) : c.Made separator better :=
  ⟨fun a ha => himp a (h.1 a ha), h.2⟩

theorem to_list_ne_nil (c : Chain α) : c.toList ≠ [] := by
  cases c <;> simp [toList]

theorem final_mem_to_list (c : Chain α) : c.final ∈ c.toList := by
  induction c with
  | last a => simp [final, toList]
  | next a s rest ih => simp [final, toList, ih]

theorem mem_tokens_of_mem {itemTokens : α → List Token} {c : Chain α} {a : α} {t : Token}
    (ha : a ∈ c.toList) (ht : t ∈ itemTokens a) : t ∈ c.tokens itemTokens := by
  induction c with
  | last b =>
    have hab : a = b := by simpa [toList] using ha
    simpa [tokens, ← hab] using ht
  | next b s rest ih =>
    simp only [toList, List.mem_cons] at ha
    simp only [tokens, List.mem_append, List.mem_cons]
    rcases ha with rfl | ha
    · exact Or.inl ht
    · exact Or.inr (Or.inr (ih ha))

theorem forall_mem_tokens (good : Token → Prop) {itemTokens : α → List Token} {c : Chain α} :
    (∀ t ∈ c.tokens itemTokens, good t) ↔
      (∀ a ∈ c.toList, ∀ t ∈ itemTokens a, good t) ∧ ∀ s ∈ c.separators, good s := by
  induction c with
  | last a => simp [tokens, toList, separators]
  | next a s rest ih =>
    simp only [tokens, toList, separators, List.forall_mem_append, List.forall_mem_cons, ih]
    constructor
    · rintro ⟨ha, hs, hrest, hseparators⟩
      exact ⟨⟨ha, hrest⟩, hs, hseparators⟩
    · rintro ⟨⟨ha, hrest⟩, hs, hseparators⟩
      exact ⟨ha, hs, hrest, hseparators⟩

def tokensBefore (itemTokens : α → List Token) : Chain α → List Token
  | .last _ => []
  | .next a s rest => itemTokens a ++ s :: tokensBefore itemTokens rest

def replaceFinal : Chain α → Chain α → Chain α
  | .last _, d => d
  | .next a s rest, d => .next a s (replaceFinal rest d)

theorem tokens_eq_before (itemTokens : α → List Token) (c : Chain α) :
    c.tokens itemTokens = c.tokensBefore itemTokens ++ itemTokens c.final := by
  induction c with
  | last a => rfl
  | next a s rest ih => simp [tokens, tokensBefore, final, ih]

theorem to_list_eq_drop_last (c : Chain α) : c.toList = c.toList.dropLast ++ [c.final] := by
  induction c with
  | last a => rfl
  | next a s rest ih =>
    rw [toList, List.dropLast_cons_of_ne_nil rest.to_list_ne_nil, final, List.cons_append, ← ih]

theorem to_list_replace_final (c d : Chain α) :
    (c.replaceFinal d).toList = c.toList.dropLast ++ d.toList := by
  induction c with
  | last a => rfl
  | next a s rest ih =>
    rw [replaceFinal, toList, ih, toList, List.dropLast_cons_of_ne_nil rest.to_list_ne_nil,
      List.cons_append]

theorem replace_final_last (c : Chain α) : c.replaceFinal (last c.final) = c := by
  induction c with
  | last a => rfl
  | next a s rest ih => rw [replaceFinal, final, ih]

end Chain

namespace Expression

theorem argument_tokens_eq (es : Chain Expression) : argumentTokens es = es.tokens tokens := by
  induction es with
  | last e => simp [argumentTokens, Chain.tokens]
  | next e s rest ih => simp [argumentTokens, Chain.tokens, ih]

theorem arguments_well_formed_iff (es : Chain Expression) :
    ArgumentsWellFormed es ↔ es.Made .comma WellFormed := by
  induction es with
  | last e => simp [ArgumentsWellFormed, Chain.made_last]
  | next e s rest ih => simp [ArgumentsWellFormed, Chain.made_next, ih]

theorem argument_nesting_le (es : Chain Expression) (n : Nat) :
    argumentNesting es ≤ n ↔ ∀ e ∈ es.toList, e.nesting ≤ n := by
  induction es with
  | last e => simp [argumentNesting, Chain.toList]
  | next e s rest ih =>
    rw [argumentNesting, Nat.max_le, ih, Chain.toList, List.forall_mem_cons]

theorem mem_argument_tokens {es : Chain Expression} {e : Expression} {t : Token}
    (he : e ∈ es.toList) (ht : t ∈ e.tokens) : t ∈ argumentTokens es := by
  rw [argument_tokens_eq]
  exact Chain.mem_tokens_of_mem he ht

end Expression

theorem RowInsert.mem_tokens_of_value {s : RowInsert} {e : Expression} {t : Token}
    (he : e ∈ s.row.toList) (ht : t ∈ e.tokens) : t ∈ s.tokens := by
  have hmem := Expression.mem_argument_tokens he ht
  simp [tokens, hmem]

theorem Update.mem_tokens_of_assignment {s : Update} {a : Assignment} {t : Token}
    (ha : a ∈ s.assignments.toList) (ht : t ∈ a.tokens) : t ∈ s.tokens := by
  have hmem : t ∈ s.assignments.tokens Assignment.tokens := Chain.mem_tokens_of_mem ha ht
  simp [tokens, hmem]

namespace Condition

theorem conjunction_tokens_eq (cs : Chain Condition) : conjunctionTokens cs = cs.tokens tokens := by
  induction cs with
  | last c => simp [conjunctionTokens, Chain.tokens]
  | next c s rest ih => simp [conjunctionTokens, Chain.tokens, ih]

theorem alternative_tokens_eq (cs : Alternatives) :
    alternativeTokens cs = cs.tokens fun c => c.tokens tokens := by
  induction cs with
  | last c => simp [alternativeTokens, Chain.tokens, conjunction_tokens_eq]
  | next c s rest ih => simp [alternativeTokens, Chain.tokens, conjunction_tokens_eq, ih]

theorem conjunction_well_formed_iff (cs : Chain Condition) :
    ConjunctionWellFormed cs ↔ cs.Made .andWord WellFormed := by
  induction cs with
  | last c => simp [ConjunctionWellFormed, Chain.made_last]
  | next c s rest ih => simp [ConjunctionWellFormed, Chain.made_next, ih]

theorem alternatives_well_formed_iff (cs : Alternatives) :
    AlternativesWellFormed cs ↔ cs.Made .orWord (Chain.Made .andWord WellFormed) := by
  induction cs with
  | last c => simp [AlternativesWellFormed, Chain.made_last, conjunction_well_formed_iff]
  | next c s rest ih =>
    simp [AlternativesWellFormed, Chain.made_next, conjunction_well_formed_iff, ih]

theorem conjunction_nesting_le (cs : Chain Condition) (n : Nat) :
    conjunctionNesting cs ≤ n ↔ ∀ c ∈ cs.toList, c.nesting ≤ n := by
  induction cs with
  | last c => simp [conjunctionNesting, Chain.toList]
  | next c s rest ih =>
    rw [conjunctionNesting, Nat.max_le, ih, Chain.toList, List.forall_mem_cons]

theorem alternative_nesting_le (cs : Alternatives) (n : Nat) :
    alternativeNesting cs ≤ n ↔ ∀ c ∈ cs.toList, ∀ d ∈ c.toList, d.nesting ≤ n := by
  induction cs with
  | last c => simp [alternativeNesting, Chain.toList, conjunction_nesting_le]
  | next c s rest ih =>
    rw [alternativeNesting, Nat.max_le, conjunction_nesting_le, ih, Chain.toList,
      List.forall_mem_cons]

end Condition

end RedoLog
