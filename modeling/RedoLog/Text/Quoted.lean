/-!
# Quoted texts

A quoted text stands between two quote characters, and a quote inside it is written twice.
Reading one takes two steps that are used apart from each other: one layer of quotes is removed,
and doubled quotes are folded into one.
-/

set_option autoImplicit false

namespace RedoLog.Text

def doubleQuotes (quote : Char) : List Char → List Char
  | [] => []
  | c :: cs => if c = quote then c :: c :: doubleQuotes quote cs else c :: doubleQuotes quote cs

def foldQuotes (quote : Char) : List Char → List Char
  | [] => []
  | [c] => [c]
  | c :: d :: cs =>
    if c = quote ∧ d = quote then c :: foldQuotes quote cs else c :: foldQuotes quote (d :: cs)

/-- The text without one layer of quotes; a text that lacks either quote is left as it is. -/
def stripQuotes (quote : Char) (cs : List Char) : List Char :=
  match cs with
  | [] => []
  | c :: inner => if c = quote ∧ inner.getLast? = some quote then inner.dropLast else c :: inner

def quoted (quote : Char) (cs : List Char) : List Char :=
  quote :: (doubleQuotes quote cs ++ [quote])

theorem strip_quotes_quoted (quote : Char) (cs : List Char) :
    stripQuotes quote (quoted quote cs) = doubleQuotes quote cs := by
  simp [quoted, stripQuotes]

theorem fold_quotes_double_quotes (quote : Char) (cs : List Char) :
    foldQuotes quote (doubleQuotes quote cs) = cs := by
  induction cs with
  | nil => rfl
  | cons c cs ih =>
    by_cases h : c = quote
    · simp [doubleQuotes, foldQuotes, h, ih]
    · cases hd : doubleQuotes quote cs with
      | nil =>
        have : cs = [] := by rw [← ih, hd]; rfl
        simp [doubleQuotes, foldQuotes, h, this]
      | cons d ds =>
        rw [hd] at ih
        simp [doubleQuotes, foldQuotes, h, hd, ih]

theorem length_double_quotes (quote : Char) (cs : List Char) :
    (doubleQuotes quote cs).length = cs.length + cs.count quote := by
  induction cs with
  | nil => rfl
  | cons c cs ih =>
    by_cases h : c = quote
    · simp only [doubleQuotes, h, if_true, List.length_cons, List.count_cons_self, ih]
      omega
    · simp only [doubleQuotes, h, if_false, List.length_cons, List.count_cons_of_ne h, ih]
      omega

theorem double_quotes_eq_self_iff (quote : Char) (cs : List Char) :
    doubleQuotes quote cs = cs ↔ quote ∉ cs := by
  constructor
  · intro h
    have hlength := length_double_quotes quote cs
    rw [h] at hlength
    exact List.count_eq_zero.mp (by omega)
  · intro h
    induction cs with
    | nil => rfl
    | cons c cs ih =>
      rw [List.mem_cons, not_or] at h
      rw [doubleQuotes, if_neg (Ne.symm h.1), ih h.2]

end RedoLog.Text
