import RedoLog.Proofs.ParsedTokens
import RedoLog.Proofs.TokenTexts

/-!
# Completing what was read

A parser that reads from the left may stop too late, behind tokens with which no statement starts.
These parsers do not: where one fails, what it has taken can be completed. A completion is given by
the kinds and texts of its tokens, since the labels are only known in the source that it ends.
-/

set_option autoImplicit false

namespace RedoLog

namespace Lexer

theorem delimits_blank {rest : List Char} (h : ∀ c ∈ rest.head?, c = ' ') : Delimits rest :=
  fun c hc => by simp [h c hc]

theorem stands_alone_word {word : String} {kind : TokenKind} (h : (word, kind) ∈ TokenKind.words) :
    StandsAlone (kind, word) := by
  have hall : ∀ entry ∈ TokenKind.words, TokenKind.ofWord entry.1.toList = entry.2 ∧
      entry.1.toList.head?.any startsWord = true ∧ entry.1.toList.all continuesWord = true := by
    decide +kernel
  obtain ⟨hkind, hstarts, hcontinues⟩ := hall _ h
  intro rest hrest
  cases hword : word.toList with
  | nil => simp [hword] at hstarts
  | cons c cs =>
    simp only [hword, List.head?_cons, Option.any_some, List.all_cons, Bool.and_eq_true,
      List.all_eq_true] at hkind hstarts hcontinues
    have hscans := scans_word ⟨hstarts, hcontinues.2⟩ (delimits_blank hrest)
    rwa [hkind, ← hword, String.ofList_toList, hword] at hscans

theorem stands_alone_separator {c : Char} {kind : TokenKind} (h : (c, kind) ∈ separatingSymbols) :
    StandsAlone (kind, String.ofList [c]) := by
  intro rest _
  rw [String.toList_ofList]
  exact scans_separator c kind h rest

theorem stands_alone_x : StandsAlone (.name, "x") := by
  intro rest hrest
  have hopen : OpenWord 'x' [] := ⟨by decide, by simp⟩
  exact scans_word hopen (delimits_blank hrest)

end Lexer

theorem Token.exists_of_lexemes (ls : List (TokenKind × String)) :
    ∃ w : List Token, w.map Token.lexeme = ls :=
  ⟨ls.map fun l => ⟨l.1, 0, 0, l.2⟩, by rw [List.map_map]; exact List.map_id ls⟩

namespace Parser

variable {α β γ : Type}

/-- Tokens with some kinds and texts complete what stands before them to good syntax, whatever their
labels are. -/
def Completes (tokens : α → List Token) (good : α → Prop) (front : List Token) : Prop :=
  ∃ ls : List (TokenKind × String), (∀ l ∈ ls, Lexer.StandsAlone l) ∧
    ∀ w : List Token, w.map Token.lexeme = ls → ∃ a, tokens a = front ++ w ∧ good a

/-- Where parsing fails, and not for the levels, the tokens up to there can be completed. -/
def Viable (tokens : α → List Token) (good : α → Prop) (ts : List Token)
    (result : Except ParseFault β) : Prop :=
  ∀ f, result = .error f → f.complaint ≠ .tooDeep →
    ∃ front, ts = front ++ f.unread ∧ Completes tokens good front

/-- The same, and the syntax can be made from nothing. -/
structure Prompt (tokens : α → List Token) (good : α → Prop) (ts : List Token)
    (result : Except ParseFault β) : Prop where
  default : Completes tokens good []
  viable : Viable tokens good ts result

def pairTokens (tokens : α → List Token) (tokens' : β → List Token) (x : α × β) : List Token :=
  tokens x.1 ++ tokens' x.2

def PairGood (good : α → Prop) (good' : β → Prop) (x : α × β) : Prop :=
  good x.1 ∧ good' x.2

section Combining

variable {tokens : α → List Token} {good : α → Prop} {tokens' : β → List Token} {good' : β → Prop}

theorem Completes.of_good {a : α} (ha : good a) : Completes tokens good (tokens a) := by
  refine ⟨[], by simp, fun w hw => ⟨a, ?_, ha⟩⟩
  rw [List.map_eq_nil_iff.mp hw, List.append_nil]

theorem Completes.within {front : List Token} (h : Completes tokens good front)
    (lead : List Token) (hmake : ∀ a, good a → ∃ b, tokens' b = lead ++ tokens a ∧ good' b) :
    Completes tokens' good' (lead ++ front) := by
  obtain ⟨ls, hls, hmade⟩ := h
  refine ⟨ls, hls, fun w hw => ?_⟩
  obtain ⟨a, htokens, ha⟩ := hmade w hw
  obtain ⟨b, hb, hgood⟩ := hmake a ha
  exact ⟨b, by rw [hb, htokens, List.append_assoc], hgood⟩

theorem Completes.starts_with {front : List Token} (h : Completes tokens good front) :
    Completes tokens (fun a => good a ∧ front <+: tokens a) front := by
  obtain ⟨ls, hls, hmade⟩ := h
  refine ⟨ls, hls, fun w hw => ?_⟩
  obtain ⟨a, htokens, ha⟩ := hmade w hw
  exact ⟨a, htokens, ha, w, htokens.symm⟩

theorem Completes.pair {front : List Token} (h : Completes tokens good front)
    (h' : Completes tokens' good' []) :
    Completes (pairTokens tokens tokens') (PairGood good good') front := by
  obtain ⟨ls, hls, hmade⟩ := h
  obtain ⟨ls', hls', hmade'⟩ := h'
  refine ⟨ls ++ ls', List.forall_mem_append.mpr ⟨hls, hls'⟩, fun w hw => ?_⟩
  obtain ⟨v, v', rfl, hv, hv'⟩ := List.map_eq_append_iff.mp hw
  obtain ⟨a, ha, hgood⟩ := hmade v hv
  obtain ⟨b, hb, hgood'⟩ := hmade' v' hv'
  exact ⟨(a, b), by simp [pairTokens, ha, hb], hgood, hgood'⟩

theorem Completes.behind {a : α} (ha : good a) {front : List Token}
    (h : Completes tokens' good' front) :
    Completes (pairTokens tokens tokens') (PairGood good good') (tokens a ++ front) :=
  h.within (tokens a) fun b hb => ⟨(a, b), rfl, ha, hb⟩

theorem Completes.exists_good (h : Completes tokens good []) : ∃ a, good a := by
  obtain ⟨ls, -, hmade⟩ := h
  obtain ⟨w, hw⟩ := Token.exists_of_lexemes ls
  obtain ⟨a, -, ha⟩ := hmade w hw
  exact ⟨a, ha⟩

theorem Viable.within {ts : List Token} {result : Except ParseFault γ}
    (h : Viable tokens good ts result) (lead : List Token)
    (hmake : ∀ a, good a → ∃ b, tokens' b = lead ++ tokens a ∧ good' b) :
    Viable tokens' good' (lead ++ ts) result := by
  intro f hf hdeep
  obtain ⟨front, hts, hfront⟩ := h f hf hdeep
  exact ⟨lead ++ front, by rw [hts, List.append_assoc], hfront.within lead hmake⟩

/-- A failure is one of the first step, before what the second needs, or one of the second. -/
theorem Viable.bind {ts : List Token} {p : Parse α} {k : α × List Token → Except ParseFault γ}
    (hreads : Reads tokens good p) (hp : Viable tokens good ts (p ts))
    (hdefault : Completes tokens' good' [])
    (hk : ∀ a rest, good a → Viable tokens' good' rest (k (a, rest))) :
    Viable (pairTokens tokens tokens') (PairGood good good') ts (p ts >>= k) := by
  intro f hf hdeep
  rcases bind_eq_error hf with hfirst | ⟨⟨a, rest⟩, hfirst, hf⟩
  · obtain ⟨front, hts, hfront⟩ := hp f hfirst hdeep
    exact ⟨front, hts, hfront.pair hdefault⟩
  · obtain ⟨hts, ha⟩ := hreads ts a rest hfirst
    obtain ⟨front, hrest, hfront⟩ := hk a rest ha f hf hdeep
    exact ⟨tokens a ++ front, by rw [hts, hrest, List.append_assoc], hfront.behind ha⟩

theorem Viable.finish {δ : Type} {ts : List Token} {result : Except ParseFault γ}
    {k : γ → Except ParseFault δ} (h : Viable tokens good ts result)
    (hk : ∀ c, ∃ d, k c = .ok d) : Viable tokens good ts (result >>= k) := by
  intro f hf hdeep
  rcases bind_eq_error hf with hfirst | ⟨c, -, hf⟩
  · exact h f hfirst hdeep
  · obtain ⟨d, hd⟩ := hk c
    rw [hd] at hf
    cases hf

theorem Prompt.map {ts : List Token} {result : Except ParseFault γ}
    (h : Prompt tokens good ts result)
    (hmake : ∀ a, good a → ∃ b, tokens' b = tokens a ∧ good' b) :
    Prompt tokens' good' ts result :=
  ⟨h.default.within [] hmake, h.viable.within [] hmake⟩

theorem Prompt.bind {ts : List Token} {p : Parse α} {k : α × List Token → Except ParseFault γ}
    (hreads : Reads tokens good p) (hp : Prompt tokens good ts (p ts))
    (hk : ∀ a rest, good a → Prompt tokens' good' rest (k (a, rest))) :
    Prompt (pairTokens tokens tokens') (PairGood good good') ts (p ts >>= k) := by
  obtain ⟨a, ha⟩ := hp.default.exists_good
  have hdefault := (hk a [] ha).default
  exact ⟨hp.default.pair hdefault,
    Viable.bind hreads hp.viable hdefault fun b rest hb => (hk b rest hb).viable⟩

theorem Prompt.finish {δ : Type} {ts : List Token} {result : Except ParseFault γ}
    {k : γ → Except ParseFault δ} (h : Prompt tokens good ts result)
    (hk : ∀ c, ∃ d, k c = .ok d) : Prompt tokens good ts (result >>= k) :=
  ⟨h.default, h.viable.finish hk⟩

theorem Viable.of_ok {ts : List Token} (c : γ) :
    Viable tokens good ts (.ok c : Except ParseFault γ) := by
  intro f hf
  cases hf

theorem viable_fail (what : Expectation) (h : Completes tokens good []) (ts : List Token) :
    Viable tokens good ts (fail what ts : Except ParseFault (γ × List Token)) := by
  intro f hf _
  cases hf
  exact ⟨[], rfl, h⟩

theorem viable_too_deep (ts : List Token) :
    Viable tokens good ts (tooDeep ts : Except ParseFault (γ × List Token)) := by
  intro f hf hdeep
  cases hf
  exact absurd rfl hdeep

end Combining

theorem prompt_satisfy (what : Expectation) {test : Token → Bool} {l : TokenKind × String}
    (hl : Lexer.StandsAlone l) (htest : ∀ t : Token, t.lexeme = l → test t = true)
    (ts : List Token) :
    Prompt (fun t => [t]) (fun t => test t = true) ts (satisfy what test ts) := by
  have hdefault : Completes (fun t => [t]) (fun t => test t = true) [] := by
    refine ⟨[l], by simpa using hl, fun w hw => ?_⟩
    obtain ⟨t, rfl, ht⟩ := List.map_eq_singleton_iff.mp hw
    exact ⟨t, rfl, htest t ht⟩
  refine ⟨hdefault, ?_⟩
  cases ts with
  | nil => exact viable_fail what hdefault []
  | cons t ts =>
    rw [satisfy]
    split
    · exact .of_ok _
    · exact viable_fail what hdefault (t :: ts)

theorem prompt_kind {k : TokenKind} {text : String} (h : Lexer.StandsAlone (k, text))
    (ts : List Token) : Prompt (fun t => [t]) (fun t => t.kind = k) ts (kind k ts) := by
  have hkind : Prompt (fun t => [t]) (fun t => decide (t.kind = k) = true) ts (kind k ts) :=
    prompt_satisfy (.token k) h
      (fun t ht => by simpa [Token.lexeme] using congrArg Prod.fst ht) ts
  exact hkind.map fun t ht => ⟨t, rfl, by simpa using ht⟩

theorem prompt_word {k : TokenKind} (h : k ∈ TokenKind.words.map Prod.snd) (ts : List Token) :
    Prompt (fun t => [t]) (fun t => t.kind = k) ts (kind k ts) := by
  obtain ⟨⟨word, k'⟩, hmem, rfl⟩ := List.mem_map.mp h
  exact prompt_kind (Lexer.stands_alone_word hmem) ts

theorem prompt_symbol {k : TokenKind} (h : k ∈ Lexer.separatingSymbols.map Prod.snd)
    (ts : List Token) : Prompt (fun t => [t]) (fun t => t.kind = k) ts (kind k ts) := by
  obtain ⟨⟨c, k'⟩, hmem, rfl⟩ := List.mem_map.mp h
  exact prompt_kind (Lexer.stands_alone_separator hmem) ts

theorem prompt_close_list (ts : List Token) :
    Prompt (fun t => [t]) (fun t => t.kind = .closeParen) ts (closeList ts) := by
  have hclose : Lexer.StandsAlone (.closeParen, String.ofList [')']) :=
    Lexer.stands_alone_separator (by decide)
  have hkind : Prompt (fun t => [t]) (fun t => decide (t.kind = .closeParen) = true) ts
      (closeList ts) :=
    prompt_satisfy .moreOrClose hclose
      (fun t ht => by simpa [Token.lexeme] using congrArg Prod.fst ht) ts
  exact hkind.map fun t ht => ⟨t, rfl, by simpa using ht⟩

theorem prompt_name (ts : List Token) :
    Prompt (fun t => [t]) (fun t => t.kind.isName = true) ts (name ts) := by
  refine prompt_satisfy .name Lexer.stands_alone_x (fun t ht => ?_) ts
  rw [show t.kind = .name from congrArg Prod.fst ht]
  rfl

theorem reads_optional (test : Token → Bool) :
    Reads Option.toList (fun o => ∀ t ∈ o, test t = true) fun ts => .ok (optional test ts) := by
  intro ts o rest h
  exact optional_eq (Except.ok.inj h)

theorem prompt_optional (test : Token → Bool) (ts : List Token) :
    Prompt Option.toList (fun o => ∀ t ∈ o, test t = true) ts
      (.ok (optional test ts) : Except ParseFault (Option Token × List Token)) :=
  ⟨Completes.of_good (a := none) (by simp), .of_ok _⟩

theorem completes_name : Completes (fun t => [t])
    (fun t => t.kind.isName = true ∧ t.isConstantWord = false) [] := by
  refine ⟨[(.name, "x")], by simpa using Lexer.stands_alone_x, fun w hw => ?_⟩
  obtain ⟨t, rfl, ht⟩ := List.map_eq_singleton_iff.mp hw
  obtain ⟨hkind, htext⟩ := Prod.mk.inj ht
  refine ⟨t, rfl, by rw [hkind]; rfl, ?_⟩
  rw [Token.isConstantWord, hkind, htext]
  decide

section Chains

variable {item : Parse α} {tokens : α → List Token} {good : α → Prop}
  (hreads : Reads tokens good item)

include hreads

theorem viable_chain_up_to (separator : TokenKind) (hitem : ∀ ts, Viable tokens good ts (item ts))
    (fuel : Nat) (ts : List Token) :
    Viable (Chain.tokens tokens) (Chain.Made separator good) ts
      (chainUpTo separator item fuel ts) := by
  have hlast : ∀ ts, Viable (Chain.tokens tokens) (Chain.Made separator good) ts (item ts) :=
    fun ts => (hitem ts).within [] fun a ha =>
      ⟨.last a, rfl, (Chain.made_last separator good a).mpr ha⟩
  induction fuel generalizing ts with
  | zero => exact (hlast ts).finish fun _ => ⟨_, rfl⟩
  | succ fuel ih =>
    intro f hf hdeep
    rcases bind_eq_error hf with hfirst | ⟨⟨a, rest⟩, hfirst, hf⟩
    · exact hlast ts f hfirst hdeep
    obtain ⟨hts, ha⟩ := hreads ts a rest hfirst
    dsimp only at hf
    split at hf
    · rename_i s more hoptional
      obtain ⟨hrest, hs⟩ := optional_eq hoptional
      have hmake : ∀ c : Chain α, c.Made separator good → ∃ d : Chain α,
          d.tokens tokens = (tokens a ++ [s]) ++ c.tokens tokens ∧ d.Made separator good :=
        fun c hc => ⟨.next a s c, by simp [Chain.tokens],
          (Chain.made_next separator good a s c).mpr ⟨ha, by simpa using hs, hc⟩⟩
      have hshape : ts = (tokens a ++ [s]) ++ more := by simp [hts, hrest]
      rw [hshape]
      exact ((ih more).finish fun _ => ⟨_, rfl⟩).within _ hmake f hf hdeep
    · cases hf

theorem viable_chain (separator : TokenKind) (hitem : ∀ ts, Viable tokens good ts (item ts))
    (ts : List Token) :
    Viable (Chain.tokens tokens) (Chain.Made separator good) ts (chain separator item ts) :=
  viable_chain_up_to hreads separator hitem ts.length ts

theorem prompt_chain (separator : TokenKind) (hitem : ∀ ts, Prompt tokens good ts (item ts))
    (ts : List Token) :
    Prompt (Chain.tokens tokens) (Chain.Made separator good) ts (chain separator item ts) := by
  refine ⟨(hitem ts).default.within [] fun a ha => ⟨.last a, rfl, ?_⟩,
    viable_chain hreads separator (fun ts => (hitem ts).viable) ts⟩
  exact (Chain.made_last separator good a).mpr ha

end Chains

theorem prompt_path (ts : List Token) :
    Prompt (Chain.tokens fun t => [t]) Operand.PathWellFormed ts (path ts) :=
  prompt_chain reads_name .dot prompt_name ts

end Parser

end RedoLog
