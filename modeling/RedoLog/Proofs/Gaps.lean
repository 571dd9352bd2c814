import RedoLog.Proofs.Scanning

/-!
# Gaps

What stands between tokens is made of blanks, of comments that end with their line, and of comments
that end with an asterisk and a slash. A comment is open only at the end of the text. A gap that is
not open is passed over in the same way whatever follows it.
-/

set_option autoImplicit false

namespace RedoLog.Lexer

inductive GapUpTo (ending : List Char → Prop) : List Char → Prop where
  | stop {cs : List Char} (h : ending cs) : GapUpTo ending cs
  | blank {c : Char} {cs : List Char} (hc : isSpace c = true) (h : GapUpTo ending cs) :
      GapUpTo ending (c :: cs)
  | line {comment cs : List Char} (hcomment : '\n' ∉ comment) (h : GapUpTo ending cs) :
      GapUpTo ending ('-' :: '-' :: (comment ++ '\n' :: cs))
  | block {comment cs : List Char} (hcomment : ¬['*', '/'] <:+: comment)
      (h : GapUpTo ending cs) : GapUpTo ending ('/' :: '*' :: (comment ++ '*' :: '/' :: cs))

def IsGap (cs : List Char) : Prop :=
  GapUpTo (· = []) cs

inductive OpenComment : List Char → Prop where
  | line {comment : List Char} (hcomment : '\n' ∉ comment) : OpenComment ('-' :: '-' :: comment)
  | block {comment : List Char} (hcomment : ¬['*', '/'] <:+: comment) :
      OpenComment ('/' :: '*' :: comment)

def IsLastGap (cs : List Char) : Prop :=
  GapUpTo (fun more => more = [] ∨ OpenComment more) cs

theorem is_gap_nil : IsGap [] :=
  .stop rfl

section Comments

variable {comment : List Char} (ds : List Char)

theorem split_gap_line (h : '\n' ∉ comment) :
    splitGap .line (comment ++ '\n' :: ds) =
      (comment ++ '\n' :: (splitGap .between ds).1, (splitGap .between ds).2) := by
  induction comment with
  | nil => rfl
  | cons c comment ih =>
    simp only [List.mem_cons, not_or] at h
    obtain ⟨hc, hmore⟩ := h
    rw [List.cons_append, splitGap.eq_4, if_neg (Ne.symm hc), ih hmore]
    rfl

theorem split_gap_block (h : ¬['*', '/'] <:+: comment) :
    splitGap .block (comment ++ '*' :: '/' :: ds) =
      (comment ++ '*' :: '/' :: (splitGap .between ds).1, (splitGap .between ds).2) := by
  induction comment with
  | nil => rfl
  | cons c comment ih =>
    rw [List.infix_cons_iff, not_or] at h
    have hend : ∀ es, c = '*' → comment ++ '*' :: '/' :: ds = '/' :: es → False := by
      rintro es rfl hes
      cases comment with
      | nil => simp at hes
      | cons d comment => exact h.1 (by simp [(List.cons.inj hes).1])
    rw [List.cons_append, splitGap.eq_6 c _ hend, ih h.2]
    rfl

end Comments

theorem is_space_ne {c : Char} (h : isSpace c = true) : c ≠ '-' ∧ c ≠ '/' := by
  constructor <;> rintro rfl <;> simp [isSpace] at h

theorem split_gap_blank {c : Char} (h : isSpace c = true) (cs : List Char) :
    splitGap .between (c :: cs) =
      (c :: (splitGap .between cs).1, (splitGap .between cs).2) := by
  obtain ⟨hline, hblock⟩ := is_space_ne h
  rw [splitGap.eq_3 c cs (fun _ hc => absurd hc hline) (fun _ hc => absurd hc hblock), if_pos h]

theorem IsGap.split_gap_append {gap : List Char} (h : IsGap gap) (ds : List Char) :
    splitGap .between (gap ++ ds) =
      (gap ++ (splitGap .between ds).1, (splitGap .between ds).2) := by
  induction h with
  | stop h =>
    subst h
    rfl
  | blank hc _ ih => rw [List.cons_append, split_gap_blank hc, ih]; rfl
  | line hcomment _ ih =>
    simp only [List.cons_append, List.append_assoc, splitGap]
    rw [split_gap_line _ hcomment, ih]
  | block hcomment _ ih =>
    simp only [List.cons_append, List.append_assoc, splitGap]
    rw [split_gap_block _ hcomment, ih]

theorem IsGap.append {gap gap' : List Char} (h : IsGap gap) (h' : IsGap gap') :
    IsGap (gap ++ gap') := by
  induction h with
  | stop h =>
    subst h
    exact h'
  | blank hc _ ih => exact .blank hc ih
  | line hcomment _ ih =>
    simp only [List.cons_append, List.append_assoc]
    exact .line hcomment ih
  | block hcomment _ ih =>
    simp only [List.cons_append, List.append_assoc]
    exact .block hcomment ih

def Place.opening : Place → List Char
  | .between => []
  | .line => ['-', '-']
  | .block => ['/', '*']

section Splitting

/-- A comment may be open where nothing follows. -/
def GapBefore (rest : List Char) : List Char → Prop :=
  GapUpTo fun more => more = [] ∨ rest = [] ∧ OpenComment more

variable {rest gap : List Char}

theorem GapBefore.line_cons {c : Char} (hc : c ≠ '\n') (h : GapBefore rest ('-' :: '-' :: gap)) :
    GapBefore rest ('-' :: '-' :: c :: gap) := by
  cases h with
  | stop h =>
    rcases h with h | ⟨hrest, h⟩
    · cases h
    · cases h with
      | line hcomment =>
        exact .stop (Or.inr ⟨hrest, .line (by simp [Ne.symm hc, hcomment])⟩)
  | blank hspace _ => exact absurd rfl (is_space_ne hspace).1
  | @line comment _ hcomment h =>
    have hmore : '\n' ∉ c :: comment := by simp [Ne.symm hc, hcomment]
    exact .line hmore h

theorem not_infix_cons {c : Char} {comment : List Char}
    (hc : ∀ es, c = '*' → comment = '/' :: es → False) (h : ¬['*', '/'] <:+: comment) :
    ¬['*', '/'] <:+: c :: comment := by
  rw [List.infix_cons_iff, not_or]
  refine ⟨fun hstart => ?_, h⟩
  obtain ⟨es, hes⟩ := hstart
  obtain ⟨hstar, hslash⟩ := List.cons.inj hes
  exact hc es hstar.symm hslash.symm

theorem GapBefore.block_cons {c : Char} (hc : ∀ es, c = '*' → gap = '/' :: es → False)
    (h : GapBefore rest ('/' :: '*' :: gap)) : GapBefore rest ('/' :: '*' :: c :: gap) := by
  cases h with
  | stop h =>
    rcases h with h | ⟨hrest, h⟩
    · cases h
    · cases h with
      | block hcomment => exact .stop (Or.inr ⟨hrest, .block (not_infix_cons hc hcomment)⟩)
  | blank hspace _ => exact absurd rfl (is_space_ne hspace).2
  | @block comment more hcomment h =>
    have hend : ∀ es, c = '*' → comment = '/' :: es → False := fun es hstar hes =>
      hc (es ++ '*' :: '/' :: more) hstar (by simp [hes])
    exact .block (not_infix_cons hend hcomment) h

/-- What is passed over is blank or a comment, and the characters that lead to the place where the
scan starts belong to it. -/
theorem gap_before_split_gap (p : Place) (cs : List Char) :
    GapBefore (splitGap p cs).2 (p.opening ++ (splitGap p cs).1) := by
  fun_induction splitGap p cs with
  | case1 cs gap rest hsplit ih =>
    rw [hsplit] at ih
    exact ih
  | case2 cs gap rest hsplit ih =>
    rw [hsplit] at ih
    exact ih
  | case3 c cs _ _ hspace gap rest hsplit ih =>
    rw [hsplit] at ih
    exact .blank hspace ih
  | case4 => exact .stop (Or.inl rfl)
  | case5 c cs gap rest hsplit ih =>
    rw [hsplit] at ih
    by_cases hc : c = '\n'
    · rw [if_pos hc] at ih
      subst hc
      exact .line (List.not_mem_nil : '\n' ∉ []) ih
    · rw [if_neg hc] at ih
      exact GapBefore.line_cons hc ih
  | case6 cs gap rest hsplit ih =>
    rw [hsplit] at ih
    have hempty : ¬['*', '/'] <:+: [] := by simp
    exact .block hempty ih
  | case7 c cs hend gap rest hsplit ih =>
    have happend := split_gap_append .block cs
    rw [hsplit] at ih happend
    refine GapBefore.block_cons (fun es hstar hes => hend (es ++ rest) hstar ?_) ih
    rw [← happend, hes]
    rfl
  | case8 p =>
    cases p with
    | between => exact .stop (Or.inl rfl)
    | line => exact .stop (Or.inr ⟨rfl, .line (by simp)⟩)
    | block => exact .stop (Or.inr ⟨rfl, .block (by simp)⟩)

end Splitting

theorem GapUpTo.mono {ending ending' : List Char → Prop} (h : ∀ cs, ending cs → ending' cs)
    {cs : List Char} (hcs : GapUpTo ending cs) : GapUpTo ending' cs := by
  induction hcs with
  | stop hcs => exact .stop (h _ hcs)
  | blank hc _ ih => exact .blank hc ih
  | line hcomment _ ih => exact .line hcomment ih
  | block hcomment _ ih => exact .block hcomment ih

theorem is_gap_of_split_gap {cs gap rest : List Char} {c : Char}
    (h : splitGap .between cs = (gap, c :: rest)) : IsGap gap := by
  have hgap := gap_before_split_gap .between cs
  rw [h] at hgap
  refine GapUpTo.mono (fun more hmore => ?_) hgap
  rcases hmore with hmore | ⟨hrest, -⟩
  · exact hmore
  · cases hrest

theorem split_gap_behind {cs gap rest : List Char} {c : Char}
    (h : splitGap .between cs = (gap, c :: rest)) :
    splitGap .between (c :: rest) = ([], c :: rest) := by
  have hagain := (is_gap_of_split_gap h).split_gap_append (c :: rest)
  have happend := split_gap_append .between cs
  rw [h] at happend
  rw [happend, h, Prod.mk.injEq] at hagain
  exact Prod.ext (List.self_eq_append_right.mp hagain.1) hagain.2.symm

theorem is_last_gap_of_split_gap {cs gap : List Char} (h : splitGap .between cs = (gap, [])) :
    IsLastGap gap := by
  have hgap := gap_before_split_gap .between cs
  rw [h] at hgap
  exact GapUpTo.mono (fun _ hmore => hmore.imp_right And.right) hgap

end RedoLog.Lexer
