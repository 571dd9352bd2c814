import Mathlib.Data.List.Forall2
import RedoLog.Proofs.WrittenTokens

/-!
# Syntax that is written

A written form stands for a piece of syntax if any tokens that it is scanned to are those of such a
piece. Forms that follow each other stand for what their parts stand for, as long as the parts are
kept apart, and lists stand for chains of what their items stand for.
-/

set_option autoImplicit false

namespace RedoLog

open Lexer

/-- A text that is scanned, whatever is delimited from it, to the tokens of something good. -/
def Writes {α : Type} (tokens : α → List Token) (good : α → Prop) (cs : List Char) : Prop :=
  ∃ ls, ls ≠ [] ∧ (∀ rest, Delimits rest → Scans (cs ++ rest) ls rest) ∧
    ∀ ts : List Token, ts.map Token.lexeme = ls → ∃ a, tokens a = ts ∧ good a

theorem cons_of_map_lexeme {ts : List Token} {kind : TokenKind} {text : String}
    {ls : List (TokenKind × String)} (h : ts.map Token.lexeme = (kind, text) :: ls) :
    ∃ t us, ts = t :: us ∧ t.kind = kind ∧ t.text = text ∧ us.map Token.lexeme = ls := by
  obtain ⟨t, us, rfl, ht, hus⟩ := List.map_eq_cons_iff.mp h
  obtain ⟨hkind, htext⟩ := Prod.mk.inj ht
  exact ⟨t, us, rfl, hkind, htext, hus⟩

theorem writes_token {kind : TokenKind} {cs : List Char}
    (h : ∀ rest, Delimits rest → Scans (cs ++ rest) [(kind, String.ofList cs)] rest) :
    Writes (fun t => [t]) (fun t => t.kind = kind ∧ t.text = String.ofList cs) cs := by
  refine ⟨[(kind, String.ofList cs)], by simp, h, fun ts hts => ?_⟩
  obtain ⟨t, us, rfl, hkind, htext, hus⟩ := cons_of_map_lexeme hts
  obtain rfl := List.map_eq_nil_iff.mp hus
  exact ⟨t, rfl, hkind, htext⟩

theorem writes_word {c : Char} {cs : List Char} (h : OpenWord c cs) :
    Writes (fun t => [t])
      (fun t => t.kind = TokenKind.ofWord (c :: cs) ∧ t.text = String.ofList (c :: cs))
      (c :: cs) :=
  writes_token fun _ => scans_word h

theorem writes_separator (c : Char) (kind : TokenKind) (h : (c, kind) ∈ separatingSymbols) :
    Writes (fun t => [t]) (fun t => t.kind = kind ∧ t.text = String.ofList [c]) [c] :=
  writes_token fun rest _ => scans_separator c kind h rest

theorem Writes.map {α β : Type} {tokens : α → List Token} {tokens' : β → List Token}
    {good : α → Prop} {good' : β → Prop} {cs : List Char} (h : Writes tokens good cs) (f : α → β)
    (htokens : ∀ a, tokens' (f a) = tokens a) (hgood : ∀ a, good a → good' (f a)) :
    Writes tokens' good' cs := by
  obtain ⟨ls, hne, hscans, hbuilt⟩ := h
  refine ⟨ls, hne, hscans, fun ts hts => ?_⟩
  obtain ⟨a, ha, hgood'⟩ := hbuilt ts hts
  exact ⟨f a, (htokens a).trans ha, hgood a hgood'⟩

theorem writes_keyword {c : Char} {cs : List Char} {kind : TokenKind}
    (hopen : startsWord c = true ∧ cs.all continuesWord = true)
    (hkind : TokenKind.ofWord (c :: cs) = kind) :
    Writes (fun t => [t]) (fun t => t.kind = kind) (c :: cs) :=
  (writes_word ⟨hopen.1, List.all_eq_true.mp hopen.2⟩).map id (fun _ => rfl)
    fun _ ht => ht.1.trans hkind

section Sequences

variable {α β : Type} {tokens : α → List Token} {tokens' : β → List Token} {good : α → Prop}
  {good' : β → Prop} {cs ds : List Char}

theorem Writes.blank (h : Writes tokens good cs) : Writes tokens good (' ' :: cs) := by
  obtain ⟨ls, hne, hscans, hbuilt⟩ := h
  exact ⟨ls, hne, fun rest hrest => (hscans rest hrest).blank hne, hbuilt⟩

theorem Writes.append (hfirst : Writes tokens good cs) (hsecond : Writes tokens' good' ds)
    (hdelimits : ∀ rest, Delimits (ds ++ rest)) :
    Writes (fun p : α × β => tokens p.1 ++ tokens' p.2) (fun p => good p.1 ∧ good' p.2)
      (cs ++ ds) := by
  obtain ⟨ls, hne, hscans, hbuilt⟩ := hfirst
  obtain ⟨ms, -, hscans', hbuilt'⟩ := hsecond
  refine ⟨ls ++ ms, by simp [hne], fun rest hrest => ?_, fun ts hts => ?_⟩
  · rw [List.append_assoc]
    exact (hscans (ds ++ rest) (hdelimits rest)).append (hscans' rest hrest)
  · obtain ⟨us, vs, rfl, hus, hvs⟩ := List.map_eq_append_iff.mp hts
    obtain ⟨a, rfl, ha⟩ := hbuilt us hus
    obtain ⟨b, rfl, hb⟩ := hbuilt' vs hvs
    exact ⟨(a, b), rfl, ha, hb⟩

theorem Writes.apart (hfirst : Writes tokens good cs) (hsecond : Writes tokens' good' ds) :
    Writes (fun p : α × β => tokens p.1 ++ tokens' p.2) (fun p => good p.1 ∧ good' p.2)
      (cs ++ ' ' :: ds) :=
  hfirst.append hsecond.blank fun _ => delimits_cons (by decide) _

theorem Writes.behind (c : Char) (kind : TokenKind) (hc : (c, kind) ∈ separatingSymbols)
    (h : Writes tokens good cs) :
    Writes (fun p : Token × α => p.1 :: tokens p.2) (fun p => p.1.kind = kind ∧ good p.2)
      (c :: cs) := by
  obtain ⟨ls, -, hscans, hbuilt⟩ := h
  refine ⟨(kind, String.ofList [c]) :: ls, by simp, fun rest hrest => ?_, fun ts hts => ?_⟩
  · exact (scans_separator c kind hc (cs ++ rest)).append (hscans rest hrest)
  · obtain ⟨t, us, rfl, hkind, -, hus⟩ := cons_of_map_lexeme hts
    obtain ⟨a, rfl, ha⟩ := hbuilt us hus
    exact ⟨(t, a), rfl, hkind, ha⟩

theorem Writes.parentheses (h : Writes tokens good cs) :
    Writes (fun p : Token × α × Token => p.1 :: (tokens p.2.1 ++ [p.2.2]))
      (fun p => p.1.kind = .openParen ∧ good p.2.1 ∧ p.2.2.kind = .closeParen)
      ('(' :: (cs ++ [')'])) := by
  have hclosing := writes_separator ')' .closeParen (by decide)
  have hinner := h.append hclosing fun _ => delimits_cons (by decide) _
  apply (hinner.behind '(' .openParen (by decide)).map id (fun _ => rfl)
  rintro ⟨opening, a, closing⟩ ⟨hopening, ha, hkind, -⟩
  exact ⟨hopening, ha, hkind⟩

end Sequences

theorem write_list_cons (item : List Char) {items : List (List Char)} (h : items ≠ []) :
    writeList (item :: items) = item ++ ',' :: writeList items := by
  obtain ⟨next, more, rfl⟩ := List.exists_cons_of_ne_nil h
  simp [writeList, List.intercalate]

theorem Writes.list {α β : Type} {tokens : α → List Token} {good : β → α → Prop}
    {write : β → List Char} (xs : List β) (hne : xs ≠ [])
    (h : ∀ x ∈ xs, Writes tokens (good x) (write x)) :
    Writes (Chain.tokens tokens)
      (fun c => (∀ s ∈ c.separators, s.kind = .comma) ∧ List.Forall₂ good xs c.toList)
      (writeList (xs.map write)) := by
  induction xs with
  | nil => exact absurd rfl hne
  | cons x xs ih =>
    have hfirst := h x (List.mem_cons_self ..)
    by_cases hxs : xs = []
    · subst hxs
      have hform : writeList ([x].map write) = write x := by simp [writeList]
      rw [hform]
      apply hfirst.map Chain.last (fun _ => rfl)
      exact fun a ha => ⟨by simp [Chain.separators], .cons ha .nil⟩
    · have hmore := ih hxs fun y hy => h y (List.mem_cons_of_mem _ hy)
      have hbehind := hmore.behind ',' .comma (by decide)
      rw [List.map_cons, write_list_cons _ (by simpa using hxs)]
      apply (hfirst.append hbehind fun _ => delimits_cons (by decide) _).map
        (fun p => Chain.next p.1 p.2.1 p.2.2) (fun _ => rfl)
      rintro ⟨a, comma, c⟩ ⟨ha, hcomma, hcommas, hall⟩
      exact ⟨by simpa [Chain.separators] using ⟨hcomma, hcommas⟩, .cons ha hall⟩

/-- What every item of a list of forms has, every item of the chain has. -/
theorem forall₂_mem_right {α β : Type} {R : α → β → Prop} {xs : List α} {ys : List β}
    (h : List.Forall₂ R xs ys) : ∀ y ∈ ys, ∃ x ∈ xs, R x y := by
  induction h with
  | nil => simp
  | @cons x y xs ys hr _ ih =>
    intro z hz
    rcases List.mem_cons.mp hz with rfl | hz
    · exact ⟨x, List.mem_cons_self .., hr⟩
    · obtain ⟨w, hw, hrw⟩ := ih z hz
      exact ⟨w, List.mem_cons_of_mem _ hw, hrw⟩

theorem map_eq_of_forall₂ {α β γ : Type} {f : β → γ} {g : α → γ} {xs : List α} {ys : List β}
    (h : List.Forall₂ (fun x y => f y = g x) xs ys) : ys.map f = xs.map g := by
  induction h with
  | nil => rfl
  | cons hr _ ih => rw [List.map_cons, List.map_cons, hr, ih]

end RedoLog
