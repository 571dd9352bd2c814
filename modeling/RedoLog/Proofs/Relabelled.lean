import RedoLog.Proofs.Chains
import RedoLog.Statement.Meaning

/-!
# Tokens with other labels

The place of a token and the spelling of a keyword say nothing. Syntax whose tokens are replaced by
others of the same kinds, with the same texts where a text counts, is as well formed as before,
calls the same functions and means the same.
-/

set_option autoImplicit false

namespace RedoLog

def TokenKind.carriesText : TokenKind → Bool
  | .name => true
  | .quotedName => true
  | .text => true
  | .number => true
  | _ => false

theorem TokenKind.carries_text_of_is_name {k : TokenKind} (h : k.isName = true) :
    k.carriesText = true := by
  cases k <;> simp [isName] at h <;> rfl

structure KeepsLexemes (f : Token → Token) : Prop where
  kind : ∀ t, (f t).kind = t.kind
  text : ∀ t, t.kind.carriesText = true → (f t).text = t.text

theorem KeepsLexemes.is_constant_word_eq {f : Token → Token} (hf : KeepsLexemes f) (t : Token) :
    (f t).isConstantWord = t.isConstantWord := by
  simp only [Token.isConstantWord, hf.kind]
  by_cases h : t.kind = .name
  · rw [hf.text t (by rw [h]; rfl)]
  · simp [h]

namespace Chain

variable {α β : Type}

def relabel (f : Token → Token) (g : α → β) : Chain α → Chain β
  | .last a => .last (g a)
  | .next a s rest => .next (g a) (f s) (relabel f g rest)

theorem to_list_relabel (f : Token → Token) (g : α → β) (c : Chain α) :
    (c.relabel f g).toList = c.toList.map g := by
  induction c with
  | last a => rfl
  | next a s rest ih => simp [relabel, toList, ih]

theorem separators_relabel (f : Token → Token) (g : α → β) (c : Chain α) :
    (c.relabel f g).separators = c.separators.map f := by
  induction c with
  | last a => rfl
  | next a s rest ih => simp [relabel, separators, ih]

theorem tokens_relabel (f : Token → Token) (g : α → β) {itemTokens : α → List Token}
    {itemTokens' : β → List Token} (h : ∀ a, itemTokens' (g a) = (itemTokens a).map f)
    (c : Chain α) : (c.relabel f g).tokens itemTokens' = (c.tokens itemTokens).map f := by
  induction c with
  | last a => simp [relabel, tokens, h]
  | next a s rest ih => simp [relabel, tokens, h, ih]

end Chain

def Call.relabel (f : Token → Token) (c : Call) : Call :=
  ⟨f c.name, f c.closing⟩

theorem Call.is_supported_relabel {f : Token → Token} (hf : KeepsLexemes f) {c : Call}
    (hc : c.name.kind = .name) : (c.relabel f).isSupported = c.isSupported := by
  have hname : (f c.name).text = c.name.text := hf.text c.name (by rw [hc]; rfl)
  simp [isSupported, relabel, hname]

namespace Expression

mutual

def relabel (f : Token → Token) : Expression → Expression
  | .group opening inner closing => .group (f opening) (relabel f inner) (f closing)
  | .number sign literal => .number (sign.map f) (f literal)
  | .text type literal => .text (type.map f) (f literal)
  | .null word => .null (f word)
  | .constant word => .constant (f word)
  | .call name opening arguments closing =>
    .call (f name) (f opening) (relabelArguments f arguments) (f closing)

def relabelArguments (f : Token → Token) : Chain Expression → Chain Expression
  | .last e => .last (relabel f e)
  | .next e comma rest => .next (relabel f e) (f comma) (relabelArguments f rest)

end

variable {f : Token → Token}

mutual

theorem tokens_relabel : ∀ e : Expression, (e.relabel f).tokens = e.tokens.map f
  | .group _ inner _ => by simp [relabel, tokens, tokens_relabel inner]
  | .number sign _ => by cases sign <;> simp [relabel, tokens]
  | .text type _ => by cases type <;> simp [relabel, tokens]
  | .null _ => rfl
  | .constant _ => rfl
  | .call _ _ arguments _ => by simp [relabel, tokens, argument_tokens_relabel arguments]

theorem argument_tokens_relabel : ∀ es : Chain Expression,
    argumentTokens (relabelArguments f es) = (argumentTokens es).map f
  | .last e => by simp [relabelArguments, argumentTokens, tokens_relabel e]
  | .next e _ rest => by
    simp [relabelArguments, argumentTokens, tokens_relabel e, argument_tokens_relabel rest]

end

mutual

theorem nesting_relabel : ∀ e : Expression, (e.relabel f).nesting = e.nesting
  | .group _ inner _ => by simp [relabel, nesting, nesting_relabel inner]
  | .number _ _ => rfl
  | .text _ _ => rfl
  | .null _ => rfl
  | .constant _ => rfl
  | .call _ _ arguments _ => by simp [relabel, nesting, argument_nesting_relabel arguments]

theorem argument_nesting_relabel : ∀ es : Chain Expression,
    argumentNesting (relabelArguments f es) = argumentNesting es
  | .last e => by simp [relabelArguments, argumentNesting, nesting_relabel e]
  | .next e _ rest => by
    simp [relabelArguments, argumentNesting, nesting_relabel e, argument_nesting_relabel rest]

end

mutual

theorem calls_relabel : ∀ e : Expression, (e.relabel f).calls = e.calls.map (Call.relabel f)
  | .group _ inner _ => by simp [relabel, calls, calls_relabel inner]
  | .number _ _ => rfl
  | .text _ _ => rfl
  | .null _ => rfl
  | .constant _ => rfl
  | .call _ _ arguments _ => by
    simp [relabel, calls, Call.relabel, argument_calls_relabel arguments]

theorem argument_calls_relabel : ∀ es : Chain Expression,
    argumentCalls (relabelArguments f es) = (argumentCalls es).map (Call.relabel f)
  | .last e => by simp [relabelArguments, argumentCalls, calls_relabel e]
  | .next e _ rest => by
    simp [relabelArguments, argumentCalls, calls_relabel e, argument_calls_relabel rest]

end

mutual

theorem well_formed_relabel (hf : KeepsLexemes f) :
    ∀ e : Expression, (e.relabel f).WellFormed ↔ e.WellFormed
  | .group _ inner _ => by simp [relabel, WellFormed, hf.kind, well_formed_relabel hf inner]
  | .number sign _ => by cases sign <;> simp [relabel, WellFormed, hf.kind]
  | .text type _ => by cases type <;> simp [relabel, WellFormed, hf.kind]
  | .null _ => by simp [relabel, WellFormed, hf.kind]
  | .constant _ => by simp [relabel, WellFormed, hf.is_constant_word_eq]
  | .call _ _ arguments _ => by
    simp [relabel, WellFormed, hf.kind, arguments_well_formed_relabel hf arguments]

theorem arguments_well_formed_relabel (hf : KeepsLexemes f) : ∀ es : Chain Expression,
    ArgumentsWellFormed (relabelArguments f es) ↔ ArgumentsWellFormed es
  | .last e => by simp [relabelArguments, ArgumentsWellFormed, well_formed_relabel hf e]
  | .next e _ rest => by
    simp [relabelArguments, ArgumentsWellFormed, hf.kind, well_formed_relabel hf e,
      arguments_well_formed_relabel hf rest]

end

mutual

theorem meaning_relabel (hf : KeepsLexemes f) (trim : Bool) :
    ∀ e : Expression, e.WellFormed → (e.relabel f).meaning trim = e.meaning trim
  | .group _ inner _, he => meaning_relabel hf trim inner he.2.1
  | .number sign literal, he => by
    have hliteral : (f literal).text = literal.text := hf.text literal (by rw [he.2]; rfl)
    cases sign <;> simp [relabel, meaning, numberText, hliteral, hf.kind]
  | .text _ literal, he => by
    have hliteral : (f literal).text = literal.text := hf.text literal (by rw [he.2]; rfl)
    simp [relabel, meaning, hliteral]
  | .null _, _ => rfl
  | .constant word, he => by
    have hkind : word.kind = .name := Token.kind_of_is_constant_word he
    have hword : (f word).text = word.text := hf.text word (by rw [hkind]; rfl)
    simp [relabel, meaning, hword]
  | .call name _ arguments _, he => by
    have hname : (f name).text = name.text := hf.text name (by rw [he.1]; rfl)
    simp [relabel, meaning, hname, argument_meanings_relabel hf trim arguments he.2.2.1]

theorem argument_meanings_relabel (hf : KeepsLexemes f) (trim : Bool) :
    ∀ es : Chain Expression, ArgumentsWellFormed es →
      argumentMeanings trim (relabelArguments f es) = argumentMeanings trim es
  | .last e, he => by
    simp [relabelArguments, argumentMeanings, meaning_relabel hf trim e he]
  | .next e _ rest, he => by
    simp [relabelArguments, argumentMeanings, meaning_relabel hf trim e he.1,
      argument_meanings_relabel hf trim rest he.2.2]

end

mutual

theorem name_of_mem_calls : ∀ e : Expression, e.WellFormed → ∀ c ∈ e.calls, c.name.kind = .name
  | .group _ inner _, he => name_of_mem_calls inner he.2.1
  | .number _ _, _ => by simp [calls]
  | .text _ _, _ => by simp [calls]
  | .null _, _ => by simp [calls]
  | .constant _, _ => by simp [calls]
  | .call _ _ arguments _, he => by
    have harguments := name_of_mem_argument_calls arguments he.2.2.1
    simpa [calls] using ⟨he.1, harguments⟩

theorem name_of_mem_argument_calls : ∀ es : Chain Expression, ArgumentsWellFormed es →
    ∀ c ∈ argumentCalls es, c.name.kind = .name
  | .last e, he => name_of_mem_calls e he
  | .next e _ rest, he => by
    have hfirst := name_of_mem_calls e he.1
    have hrest := name_of_mem_argument_calls rest he.2.2
    intro c hc
    rcases List.mem_append.mp hc with hc | hc
    · exact hfirst c hc
    · exact hrest c hc

end

theorem is_supported_relabel (hf : KeepsLexemes f) {e : Expression} (he : e.WellFormed) :
    (∀ c ∈ (e.relabel f).calls, c.isSupported = true) ↔ ∀ c ∈ e.calls, c.isSupported = true := by
  rw [calls_relabel, List.forall_mem_map]
  exact forall₂_congr fun c hc => by
    rw [Call.is_supported_relabel hf (e.name_of_mem_calls he c hc)]

end Expression

end RedoLog
