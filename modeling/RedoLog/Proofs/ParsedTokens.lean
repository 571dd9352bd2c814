import Mathlib.Tactic.SplitIfs
import RedoLog.Proofs.Chains
import RedoLog.Proofs.Outcome
import RedoLog.Statement.Parser

/-!
# What a parser has read

A parser that succeeds has taken exactly the tokens of what it builds, from the front, and has
built nothing but well-formed syntax of the allowed nesting. So a statement that parses holds every
token of its source, in order.
-/

set_option autoImplicit false

namespace RedoLog.Parser

variable {α : Type}

/-- A parser takes the tokens of what it builds, and what it builds is good. -/
def Reads (tokens : α → List Token) (good : α → Prop) (p : Parse α) : Prop :=
  ∀ ts a rest, p ts = .ok (a, rest) → ts = tokens a ++ rest ∧ good a

theorem reads_satisfy (what : Expectation) (test : Token → Bool) :
    Reads (fun t => [t]) (fun t => test t = true) (satisfy what test) := by
  intro ts a rest h
  cases ts with
  | nil => simp [satisfy, fail] at h
  | cons t ts =>
    simp only [satisfy] at h
    split at h
    · rename_i htest
      cases h
      exact ⟨rfl, htest⟩
    · simp [fail] at h

theorem reads_kind (k : TokenKind) : Reads (fun t => [t]) (fun t => t.kind = k) (kind k) := by
  intro ts a rest h
  simpa using reads_satisfy (.token k) (fun t => t.kind = k) ts a rest h

theorem reads_name : Reads (fun t => [t]) (fun t => t.kind.isName = true) name :=
  reads_satisfy .name fun t => t.kind.isName

theorem reads_close_list : Reads (fun t => [t]) (fun t => t.kind = .closeParen) closeList := by
  intro ts a rest h
  simpa using reads_satisfy .moreOrClose (fun t => t.kind = .closeParen) ts a rest h

theorem reads_too_deep (tokens : α → List Token) (good : α → Prop) : Reads tokens good tooDeep := by
  intro ts a rest h
  simp [tooDeep] at h

theorem optional_append (test : Token → Bool) (ts : List Token) :
    (optional test ts).1.toList ++ (optional test ts).2 = ts := by
  unfold optional
  split
  · rfl
  · split <;> rfl

theorem optional_test (test : Token → Bool) (ts : List Token) :
    ∀ t ∈ (optional test ts).1, test t = true := by
  unfold optional
  split
  · simp
  · split <;> simp_all

theorem optional_eq {test : Token → Bool} {ts rest : List Token} {o : Option Token}
    (h : optional test ts = (o, rest)) :
    ts = o.toList ++ rest ∧ ∀ t ∈ o, test t = true := by
  have happend := optional_append test ts
  have htest := optional_test test ts
  rw [h] at happend htest
  exact ⟨happend.symm, htest⟩

theorem reads_chain_up_to {separator : TokenKind} {item : Parse α} {tokens : α → List Token}
    {good : α → Prop} (hitem : Reads tokens good item) (fuel : Nat) :
    Reads (Chain.tokens tokens) (Chain.Made separator good) (chainUpTo separator item fuel) := by
  induction fuel with
  | zero =>
    intro ts c rest h
    obtain ⟨⟨a, r⟩, ha, hr⟩ := bind_eq_ok h
    cases hr
    obtain ⟨htokens, hgood⟩ := hitem ts a rest ha
    exact ⟨htokens, (Chain.made_last separator good a).mpr hgood⟩
  | succ fuel ih =>
    intro ts c rest h
    obtain ⟨⟨a, r⟩, ha, hr⟩ := bind_eq_ok h
    obtain ⟨htokens, hgood⟩ := hitem ts a r ha
    dsimp only at hr
    split at hr
    · rename_i s more hoptional
      obtain ⟨hr', hs⟩ := optional_eq hoptional
      obtain ⟨⟨d, r'⟩, hd, hc⟩ := bind_eq_ok hr
      cases hc
      obtain ⟨hmore, hmade⟩ := ih more d r' hd
      refine ⟨by simp [Chain.tokens, htokens, hr', hmore], ?_⟩
      exact (Chain.made_next separator good a s d).mpr ⟨hgood, by simpa using hs, hmade⟩
    · rename_i more hoptional
      obtain ⟨hr', -⟩ := optional_eq hoptional
      cases hr
      exact ⟨by simp [Chain.tokens, htokens, hr'],
        (Chain.made_last separator good a).mpr hgood⟩

theorem reads_chain (separator : TokenKind) {item : Parse α} {tokens : α → List Token}
    {good : α → Prop} (hitem : Reads tokens good item) :
    Reads (Chain.tokens tokens) (Chain.Made separator good) (chain separator item) :=
  fun ts => reads_chain_up_to hitem ts.length ts

theorem reads_path : Reads (Chain.tokens fun t => [t]) Operand.PathWellFormed path := by
  intro ts c rest h
  exact reads_chain .dot reads_name ts c rest h

def Within (n : Nat) (e : Expression) : Prop :=
  e.WellFormed ∧ e.nesting ≤ n

theorem within_call (n : Nat) (name opening closing : Token) (arguments : Chain Expression) :
    Within (n + 1) (.call name opening arguments closing) ↔
      name.kind = .name ∧ opening.kind = .openParen ∧ arguments.Made .comma (Within n) ∧
        closing.kind = .closeParen := by
  simp only [Within, Expression.WellFormed, Expression.nesting, Nat.add_le_add_iff_right,
    Expression.arguments_well_formed_iff, Expression.argument_nesting_le, Chain.Made]
  constructor
  · rintro ⟨⟨hname, hopening, ⟨hitems, hcommas⟩, hclosing⟩, hnesting⟩
    exact ⟨hname, hopening, ⟨fun e he => ⟨hitems e he, hnesting e he⟩, hcommas⟩, hclosing⟩
  · rintro ⟨hname, hopening, ⟨hitems, hcommas⟩, hclosing⟩
    exact ⟨⟨hname, hopening, ⟨fun e he => (hitems e he).1, hcommas⟩, hclosing⟩,
      fun e he => (hitems e he).2⟩

theorem reads_value_with {n : Nat} {inner : Parse Expression}
    (hinner : Reads Expression.tokens (Within n) inner) :
    Reads Expression.tokens (Within (n + 1)) (valueWith inner) := by
  intro ts e rest h
  cases ts with
  | nil => simp [valueWith, fail] at h
  | cons t ts =>
    simp only [valueWith] at h
    split at h
    case h_1 hkind =>
      obtain ⟨⟨e', r⟩, he', h⟩ := bind_eq_ok h
      obtain ⟨⟨closing, r'⟩, hclosing, h⟩ := bind_eq_ok h
      cases h
      obtain ⟨htokens, hgood⟩ := hinner ts e' r he'
      obtain ⟨hr, hparen⟩ := reads_kind .closeParen r closing r' hclosing
      refine ⟨by simp [Expression.tokens, htokens, hr], ⟨hkind, hgood.1, hparen⟩, ?_⟩
      simpa [Expression.nesting] using hgood.2
    case h_2 hkind | h_3 hkind =>
      split at h
      · split at h
        · rename_i hnumber
          cases h
          exact ⟨rfl, ⟨by simp [hkind], hnumber⟩, by simp [Expression.nesting]⟩
        · simp [fail] at h
      · simp [fail] at h
    case h_4 hkind =>
      cases h
      exact ⟨rfl, ⟨by simp, hkind⟩, by simp [Expression.nesting]⟩
    case h_5 hkind =>
      cases h
      exact ⟨rfl, ⟨by simp, hkind⟩, by simp [Expression.nesting]⟩
    case h_6 hkind | h_7 hkind =>
      split at h
      · split at h
        · rename_i htext
          cases h
          exact ⟨rfl, ⟨by simp [hkind], htext⟩, by simp [Expression.nesting]⟩
        · simp [fail] at h
      · simp [fail] at h
    case h_8 hkind =>
      cases h
      exact ⟨rfl, hkind, by simp [Expression.nesting]⟩
    case h_9 hkind =>
      split at h
      · rename_i opening r hoptional
        obtain ⟨hts, hopening⟩ := optional_eq hoptional
        obtain ⟨⟨arguments, r'⟩, harguments, h⟩ := bind_eq_ok h
        obtain ⟨⟨closing, r''⟩, hclosing, h⟩ := bind_eq_ok h
        cases h
        obtain ⟨hr, hmade⟩ := reads_chain .comma hinner r arguments r' harguments
        obtain ⟨hr', hparen⟩ := reads_close_list r' closing r'' hclosing
        refine ⟨by simp [Expression.tokens, Expression.argument_tokens_eq, hts, hr, hr'], ?_⟩
        exact (within_call n t opening closing arguments).mpr
          ⟨hkind, by simpa using hopening, hmade, hparen⟩
      · split at h
        · rename_i hconstant
          cases h
          exact ⟨rfl, hconstant, by simp [Expression.nesting]⟩
        · simp [fail] at h
    case h_10 => simp [fail] at h

theorem reads_expression (levels : Nat) :
    Reads Expression.tokens (Within levels) (expression levels) := by
  induction levels with
  | zero => exact reads_too_deep _ _
  | succ levels ih => exact reads_value_with ih

theorem reads_operand (levels : Nat) :
    Reads Operand.tokens (fun o => o.WellFormed ∧ o.nesting ≤ levels) (operand levels) := by
  intro ts o rest h
  simp only [operand] at h
  split at h
  · rename_i hstarts
    obtain ⟨⟨names, r⟩, hnames, h⟩ := bind_eq_ok h
    cases h
    obtain ⟨htokens, hpath⟩ := reads_path ts names r hnames
    refine ⟨htokens, ⟨hpath, ?_⟩, Nat.zero_le _⟩
    obtain ⟨more, hmore⟩ : ∃ more, ts = names.head :: more := by
      cases names <;> exact ⟨_, htokens⟩
    simp only [hmore, startsColumn, Bool.and_eq_true, Bool.not_eq_true'] at hstarts
    exact hstarts.2
  · obtain ⟨⟨e, r⟩, he, h⟩ := bind_eq_ok h
    cases h
    exact reads_expression levels ts e r he

theorem reads_test (levels : Nat) :
    Reads Test.tokens (fun t => t.WellFormed ∧ t.nesting ≤ levels) (test levels) := by
  intro ts asked rest h
  cases ts with
  | nil =>
    cases h
    exact ⟨rfl, trivial, Nat.zero_le _⟩
  | cons t ts =>
    simp only [test] at h
    split_ifs at h with hcompare his
    · obtain ⟨⟨right, r⟩, hright, h⟩ := bind_eq_ok h
      cases h
      obtain ⟨htokens, hgood, hnesting⟩ := reads_operand levels ts right r hright
      exact ⟨by simp [Test.tokens, htokens], ⟨hcompare, hgood⟩, hnesting⟩
    · obtain ⟨⟨null, r⟩, hnull, h⟩ := bind_eq_ok h
      cases h
      have hts := optional_append (fun t => t.kind = .notWord) ts
      have hnot := optional_test (fun t => t.kind = .notWord) ts
      obtain ⟨hr, hword⟩ := reads_kind .nullWord _ null r hnull
      rw [hr] at hts
      refine ⟨(congrArg (t :: ·) hts.symm).trans ?_, ⟨his, by simpa using hnot, hword⟩,
        Nat.zero_le _⟩
      simp [Test.tokens]
    · cases h
      exact ⟨rfl, trivial, Nat.zero_le _⟩

theorem is_group_of_head {o : Operand} {rest : List Token} (ho : o.WellFormed)
    (hfirst : ∀ t ∈ (o.tokens ++ rest).head?, t.kind ≠ .openParen) : o.isGroup = false := by
  cases o with
  | column path => rfl
  | value e =>
    cases e with
    | group opening inner closing => exact absurd ho.1 (hfirst opening rfl)
    | _ => rfl

theorem reads_comparison {levels : Nat} {ts : List Token} {c : Condition} {rest : List Token}
    (hfirst : ∀ t ∈ ts.head?, t.kind ≠ .openParen)
    (h : (do
      let (left, r) ← operand levels ts
      let (asked, r') ← test levels r
      return (Condition.operand left asked, r')) = .ok (c, rest)) :
    ts = c.tokens ++ rest ∧ c.WellFormed ∧ c.nesting ≤ levels := by
  obtain ⟨⟨left, r⟩, hleft, h⟩ := bind_eq_ok h
  obtain ⟨⟨asked, r'⟩, hasked, h⟩ := bind_eq_ok h
  cases h
  obtain ⟨hts, hgood, hnesting⟩ := reads_operand levels ts left r hleft
  obtain ⟨hr, hgood', hnesting'⟩ := reads_test levels r asked rest hasked
  have hgroup := is_group_of_head hgood (hts ▸ hfirst)
  exact ⟨by simp [Condition.tokens, hts, hr], ⟨hgood, hgroup, hgood'⟩,
    Nat.max_le.mpr ⟨hnesting, hnesting'⟩⟩

theorem reads_condition_with {n : Nat} {negated : Parse Condition} {inner : Parse Alternatives}
    (hnegated : Reads Condition.tokens (fun c => c.WellFormed ∧ c.nesting + 1 ≤ n) negated)
    (hinner : Reads Condition.alternativeTokens
      (fun c => Condition.AlternativesWellFormed c ∧ Condition.alternativeNesting c + 1 ≤ n)
      inner) :
    Reads Condition.tokens (fun c => c.WellFormed ∧ c.nesting ≤ n)
      (conditionWith n negated inner) := by
  intro ts c rest h
  cases ts with
  | nil => exact reads_comparison (by simp) h
  | cons t ts =>
    simp only [conditionWith] at h
    split_ifs at h with hnot hopen
    · obtain ⟨⟨c', r⟩, hc', h⟩ := bind_eq_ok h
      cases h
      obtain ⟨hts, hgood, hnesting⟩ := hnegated ts c' r hc'
      exact ⟨by simp [Condition.tokens, hts], ⟨hnot, hgood⟩, hnesting⟩
    · obtain ⟨⟨c', r⟩, hc', h⟩ := bind_eq_ok h
      obtain ⟨⟨closing, r'⟩, hclosing, h⟩ := bind_eq_ok h
      obtain ⟨⟨asked, r''⟩, hasked, h⟩ := bind_eq_ok h
      cases h
      obtain ⟨hts, hgood, hnesting⟩ := hinner ts c' r hc'
      obtain ⟨hr, hparen⟩ := reads_kind .closeParen r closing r' hclosing
      obtain ⟨hr', hgood', hnesting'⟩ := reads_test n r' asked r'' hasked
      exact ⟨by simp [Condition.tokens, hts, hr, hr'], ⟨hopen, hgood, hparen, hgood'⟩,
        Nat.max_le.mpr ⟨hnesting, hnesting'⟩⟩
    · exact reads_comparison (by simpa using hopen) h

theorem alternatives_of_made {n : Nat} {c : Alternatives}
    (h : c.Made .orWord (Chain.Made .andWord fun d => d.WellFormed ∧ d.nesting ≤ n)) :
    Condition.AlternativesWellFormed c ∧ Condition.alternativeNesting c ≤ n := by
  rw [Condition.alternatives_well_formed_iff, Condition.alternative_nesting_le]
  exact ⟨h.imp fun d hd => hd.imp fun e he => he.1, fun d hd e he => ((h.1 d hd).1 e he).2⟩

theorem reads_alternatives_of {n : Nat} {p : Parse Condition}
    (hp : Reads Condition.tokens (fun c => c.WellFormed ∧ c.nesting ≤ n) p) :
    Reads Condition.alternativeTokens
      (fun c => Condition.AlternativesWellFormed c ∧ Condition.alternativeNesting c ≤ n)
      (alternativesOf p) := by
  intro ts c rest h
  obtain ⟨hts, hmade⟩ := reads_chain .orWord (reads_chain .andWord hp) ts c rest h
  exact ⟨by rw [Condition.alternative_tokens_eq]; exact hts, alternatives_of_made hmade⟩

theorem reads_condition (levels : Nat) :
    Reads Condition.tokens (fun c => c.WellFormed ∧ c.nesting ≤ levels) (condition levels) := by
  induction levels with
  | zero => exact reads_condition_with (reads_too_deep _ _) (reads_too_deep _ _)
  | succ levels ih =>
    apply reads_condition_with
    · intro ts c rest h
      simpa using ih ts c rest h
    · intro ts c rest h
      simpa using reads_alternatives_of ih ts c rest h

theorem reads_alternatives (levels : Nat) :
    Reads Condition.alternativeTokens
      (fun c => Condition.AlternativesWellFormed c ∧ Condition.alternativeNesting c + 1 ≤ levels)
      (alternatives levels) := by
  cases levels with
  | zero => exact reads_too_deep _ _
  | succ levels =>
    intro ts c rest h
    simpa using reads_alternatives_of (reads_condition levels) ts c rest h

theorem reads_column_list : Reads ColumnList.tokens ColumnList.WellFormed columnList := by
  intro ts c rest h
  obtain ⟨⟨opening, r⟩, hopening, h⟩ := bind_eq_ok h
  obtain ⟨⟨names, r'⟩, hnames, h⟩ := bind_eq_ok h
  obtain ⟨⟨closing, r''⟩, hclosing, h⟩ := bind_eq_ok h
  cases h
  obtain ⟨hts, hopen⟩ := reads_kind .openParen ts opening r hopening
  obtain ⟨hr, hitems, hcommas⟩ := reads_chain .comma reads_name r names r' hnames
  obtain ⟨hr', hclose⟩ := reads_close_list r' closing rest hclosing
  exact ⟨by simp [ColumnList.tokens, hts, hr, hr'], hopen, hitems, hcommas, hclose⟩

theorem reads_optional_column_list :
    Reads (fun o => o.elim [] ColumnList.tokens) (fun o => ∀ c ∈ o, c.WellFormed)
      optionalColumnList := by
  intro ts o rest h
  simp only [optionalColumnList] at h
  split_ifs at h
  · obtain ⟨⟨c, r⟩, hc, h⟩ := bind_eq_ok h
    cases h
    obtain ⟨hts, hgood⟩ := reads_column_list ts c r hc
    exact ⟨hts, by simpa using hgood⟩
  · cases h
    exact ⟨rfl, by simp⟩

theorem terminator_eq {ts : List Token} {semicolon : Option Token}
    (h : terminator ts = .ok semicolon) :
    ts = semicolon.toList ∧ ∀ t ∈ semicolon, t.kind = .semicolon := by
  simp only [terminator] at h
  split at h
  · rename_i o hoptional
    cases h
    obtain ⟨hts, hkind⟩ := optional_eq hoptional
    exact ⟨by simpa using hts, by simpa using hkind⟩
  · simp at h

theorem row_insert_eq {word : Token} {ts : List Token} {s : Insert}
    (hword : word.kind = .insertWord) (h : rowInsert word ts = .ok s) :
    word :: ts = s.tokens ∧ s.WellFormed ∧ s.nesting ≤ maxLevels := by
  obtain ⟨⟨into, r₁⟩, hinto, h⟩ := bind_eq_ok h
  obtain ⟨⟨table, r₂⟩, htable, h⟩ := bind_eq_ok h
  obtain ⟨⟨columns, r₃⟩, hcolumns, h⟩ := bind_eq_ok h
  obtain ⟨⟨values, r₄⟩, hvalues, h⟩ := bind_eq_ok h
  obtain ⟨⟨opening, r₅⟩, hopening, h⟩ := bind_eq_ok h
  obtain ⟨⟨row, r₆⟩, hrow, h⟩ := bind_eq_ok h
  obtain ⟨⟨closing, r₇⟩, hclosing, h⟩ := bind_eq_ok h
  obtain ⟨semicolon, hsemicolon, h⟩ := bind_eq_ok h
  cases h
  obtain ⟨e₁, k₁⟩ := reads_kind .intoWord ts into r₁ hinto
  obtain ⟨e₂, k₂⟩ := reads_path r₁ table r₂ htable
  obtain ⟨e₃, k₃⟩ := reads_optional_column_list r₂ columns r₃ hcolumns
  obtain ⟨e₄, k₄⟩ := reads_kind .valuesWord r₃ values r₄ hvalues
  obtain ⟨e₅, k₅⟩ := reads_kind .openParen r₄ opening r₅ hopening
  obtain ⟨e₆, k₆⟩ := reads_chain .comma (reads_expression maxLevels) r₅ row r₆ hrow
  obtain ⟨e₇, k₇⟩ := reads_close_list r₆ closing r₇ hclosing
  obtain ⟨e₈, k₈⟩ := terminator_eq hsemicolon
  refine ⟨?_, ⟨hword, k₁, k₂, k₃, k₄, k₅, ?_, k₇, k₈⟩, ?_⟩
  · rw [e₁, e₂, e₃, e₄, e₅, e₆, e₇, e₈]
    cases columns <;> simp [Insert.tokens, RowInsert.tokens, Expression.argument_tokens_eq]
  · exact (Expression.arguments_well_formed_iff row).mpr (k₆.imp fun e he => he.1)
  · exact (Expression.argument_nesting_le row maxLevels).mpr fun e he => (k₆.1 e he).2

theorem insert_eq {ts : List Token} {s : Insert} (h : insert ts = .ok s) :
    ts = s.tokens ∧ s.WellFormed ∧ s.nesting ≤ maxLevels := by
  obtain ⟨⟨word, r⟩, hword, h⟩ := bind_eq_ok h
  obtain ⟨hts, hkind⟩ := reads_kind .insertWord ts word r hword
  dsimp only at h
  split at h
  · rename_i all rest hoptional
    cases h
    obtain ⟨hr, hall⟩ := optional_eq hoptional
    exact ⟨by simp [Insert.tokens, hts, hr], ⟨hkind, by simpa using hall⟩, Nat.zero_le _⟩
  · rename_i rest hoptional
    obtain ⟨hr, -⟩ := optional_eq hoptional
    rw [hts, hr]
    exact row_insert_eq hkind h

theorem reads_assignment :
    Reads Assignment.tokens (fun a => a.WellFormed ∧ a.value.nesting ≤ maxLevels) assignment := by
  intro ts a rest h
  obtain ⟨⟨column, r₁⟩, hcolumn, h⟩ := bind_eq_ok h
  obtain ⟨⟨equals, r₂⟩, hequals, h⟩ := bind_eq_ok h
  obtain ⟨⟨value, r₃⟩, hvalue, h⟩ := bind_eq_ok h
  cases h
  obtain ⟨e₁, k₁⟩ := reads_name ts column r₁ hcolumn
  obtain ⟨e₂, k₂⟩ := reads_kind .equals r₁ equals r₂ hequals
  obtain ⟨e₃, k₃⟩ := reads_expression maxLevels r₂ value rest hvalue
  exact ⟨by simp [Assignment.tokens, e₁, e₂, e₃], ⟨k₁, k₂, k₃.1⟩, k₃.2⟩

theorem reads_optional_filter :
    Reads (fun o => o.elim [] Filter.tokens)
      (fun o => ∀ f ∈ o, f.WellFormed ∧ f.nesting ≤ maxLevels) optionalFilter := by
  intro ts o rest h
  simp only [optionalFilter] at h
  split at h
  · rename_i word r hoptional
    obtain ⟨hts, hword⟩ := optional_eq hoptional
    obtain ⟨⟨c, r'⟩, hc, h⟩ := bind_eq_ok h
    cases h
    obtain ⟨hr, hgood, hnesting⟩ := reads_alternatives maxLevels r c r' hc
    refine ⟨by simp [Filter.tokens, hts, hr], ?_⟩
    simp only [Option.mem_some_iff, forall_eq']
    exact ⟨⟨by simpa using hword, hgood⟩, hnesting⟩
  · rename_i r hoptional
    cases h
    exact ⟨(optional_eq hoptional).1, by simp⟩

theorem nesting_le_of_parts {s : Update} {n : Nat}
    (hassignments : ∀ a ∈ s.assignments.toList, a.value.nesting ≤ n)
    (hfilter : ∀ f ∈ s.filter, f.nesting ≤ n) : s.nesting ≤ n := by
  apply Nat.max_le.mpr
  constructor
  · generalize s.assignments.toList = as at hassignments
    induction as with
    | nil => exact Nat.zero_le _
    | cons a as ih =>
      exact Nat.max_le.mpr ⟨hassignments a (by simp), ih fun b hb => hassignments b (by simp [hb])⟩
  · cases hf : s.filter with
    | none => exact Nat.zero_le _
    | some f => exact hfilter f (by simp [hf])

def updateFront : Parse Update := fun ts => do
  let (update, ts) ← kind .updateWord ts
  let (table, ts) ← path ts
  let (correlation, ts) := optional (fun t => t.kind.isName) ts
  let (setWord, ts) ← kind .setWord ts
  let (assignments, ts) ← chain .comma assignment ts
  return (⟨update, table, correlation, setWord, assignments, none, none⟩, ts)

theorem update_eq_front (ts : List Token) :
    update ts = (do
      let (front, ts) ← updateFront ts
      let (filter, ts) ← optionalFilter ts
      let semicolon ← terminator ts
      return { front with filter := filter, terminator := semicolon }) := by
  simp only [update, updateFront, bind_assoc, pure_bind]

def FrontWellFormed (s : Update) : Prop :=
  s.WellFormed ∧ s.nesting ≤ maxLevels ∧ s.filter = none ∧ s.terminator = none

theorem reads_update_front : Reads Update.tokens FrontWellFormed updateFront := by
  intro ts s rest h
  obtain ⟨⟨word, r₁⟩, hword, h⟩ := bind_eq_ok h
  obtain ⟨⟨table, r₂⟩, htable, h⟩ := bind_eq_ok h
  cases hoptional : optional (fun t => t.kind.isName) r₂ with
  | mk correlation r₃ =>
    simp only [hoptional] at h
    obtain ⟨⟨setWord, r₄⟩, hset, h⟩ := bind_eq_ok h
    obtain ⟨⟨assignments, r₅⟩, hassignments, h⟩ := bind_eq_ok h
    cases h
    obtain ⟨e₁, k₁⟩ := reads_kind .updateWord ts word r₁ hword
    obtain ⟨e₂, k₂⟩ := reads_path r₁ table r₂ htable
    obtain ⟨e₃, k₃⟩ := optional_eq hoptional
    obtain ⟨e₄, k₄⟩ := reads_kind .setWord r₃ setWord r₄ hset
    obtain ⟨e₅, k₅⟩ := reads_chain .comma reads_assignment r₄ assignments r₅ hassignments
    refine ⟨by simp [Update.tokens, e₁, e₂, e₃, e₄, e₅], ?_, ?_, rfl, rfl⟩
    · exact ⟨k₁, k₂, k₃, k₄, fun a ha => (k₅.1 a ha).1, k₅.2, by simp, by simp⟩
    · exact nesting_le_of_parts (fun a ha => (k₅.1 a ha).2) (by simp)

theorem update_of_front {front : Update} {filter : Option Filter} {semicolon : Option Token}
    (hfront : FrontWellFormed front)
    (hfilter : ∀ f ∈ filter, f.WellFormed ∧ f.nesting ≤ maxLevels)
    (hsemicolon : ∀ t ∈ semicolon, t.kind = .semicolon) :
    ({ front with filter := filter, terminator := semicolon } : Update).tokens =
        front.tokens ++ (filter.elim [] Filter.tokens ++ semicolon.toList) ∧
      ({ front with filter := filter, terminator := semicolon } : Update).WellFormed ∧
      ({ front with filter := filter, terminator := semicolon } : Update).nesting ≤ maxLevels := by
  obtain ⟨⟨h₁, h₂, h₃, h₄, h₅, h₆, -, -⟩, hnesting, hnone, hnone'⟩ := hfront
  refine ⟨?_, ⟨h₁, h₂, h₃, h₄, h₅, h₆, fun f hf => (hfilter f hf).1, hsemicolon⟩, ?_⟩
  · cases filter <;> simp [Update.tokens, hnone, hnone']
  · refine Nat.max_le.mpr ⟨(Nat.max_le.mp hnesting).1, ?_⟩
    cases filter with
    | none => exact Nat.zero_le _
    | some f => exact (hfilter f rfl).2

theorem update_eq {ts : List Token} {s : Update} (h : update ts = .ok s) :
    ts = s.tokens ∧ s.WellFormed ∧ s.nesting ≤ maxLevels := by
  rw [update_eq_front] at h
  obtain ⟨⟨front, r₁⟩, hfront, h⟩ := bind_eq_ok h
  obtain ⟨⟨filter, r₂⟩, hfilter, h⟩ := bind_eq_ok h
  obtain ⟨semicolon, hsemicolon, h⟩ := bind_eq_ok h
  cases h
  obtain ⟨e₁, k₁⟩ := reads_update_front ts front r₁ hfront
  obtain ⟨e₂, k₂⟩ := reads_optional_filter r₁ filter r₂ hfilter
  obtain ⟨e₃, k₃⟩ := terminator_eq hsemicolon
  obtain ⟨htokens, hgood⟩ := update_of_front k₁ k₂ k₃
  exact ⟨by rw [e₁, e₂, e₃, htokens], hgood⟩

end RedoLog.Parser
