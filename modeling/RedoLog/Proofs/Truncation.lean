import RedoLog.Proofs.CutTokens
import RedoLog.Proofs.LongerClauses
import RedoLog.Proofs.Maps
import RedoLog.Proofs.WhereBytes

/-!
# What the cut at WHERE changes

Where an `UPDATE` can be read before and after it is cut, the cut takes no assignment from it
unless the letters are found in a comment. Then it takes the assignments that come behind, and the
columns stay the same exactly if those assignments would change nothing.
-/

set_option autoImplicit false

namespace RedoLog

def cutOffset (source : String) : Nat :=
  Text.byteLength ((beforeWhere? source.toList).getD source.toList)

def Assignment.isBehind (offset : Nat) (a : Assignment) : Bool :=
  offset < a.column.start

namespace Update

def assignmentsBefore (offset : Nat) (s : Update) : List Assignment :=
  s.assignments.toList.filter fun a => !a.isBehind offset

def assignmentsBehind (offset : Nat) (s : Update) : List Assignment :=
  s.assignments.toList.filter (Assignment.isBehind offset)

def trailing (s : Update) : List Token :=
  s.filter.elim [] Filter.tokens ++ s.terminator.toList

theorem kind_trailing {s : Update} (hs : s.WellFormed) {t : Token} {ts : List Token}
    (htrailing : s.trailing = t :: ts) : t.kind ≠ .comma := by
  obtain ⟨-, -, -, -, -, -, hfilter, hterminator⟩ := hs
  have hfirst : s.trailing.head? = some t := by rw [htrailing, List.head?_cons]
  cases hf : s.filter with
  | some f =>
    have ht : f.word = t := by simpa [trailing, hf, Filter.tokens] using hfirst
    simp [← ht, (hfilter f (by simp [hf])).1]
  | none =>
    have ht : s.terminator = some t := by simpa [trailing, hf] using hfirst
    simp [hterminator t (by simp [ht])]

theorem last_of_parts {xs ys front : List Token} {t : Token} (h : xs ++ ys = front ++ [t]) :
    (ys = [] ∧ xs = front ++ [t]) ∨ ∃ ts, ys = ts ++ [t] ∧ front = xs ++ ts := by
  rcases List.eq_nil_or_concat ys with rfl | ⟨ts, u, rfl⟩
  · exact Or.inl ⟨rfl, by simpa using h⟩
  · right
    rw [List.concat_eq_append, ← List.append_assoc] at h
    obtain ⟨hfront, hlast⟩ := List.append_inj' h rfl
    exact ⟨ts, by rw [List.concat_eq_append, hlast], hfront.symm⟩

/-- The tokens of a text start with those up to the end of the `SET` clause, which all stand before
an offset. If a comma comes next, it comes behind that offset. -/
def StartsIn (offset : Nat) (s : Update) (whole : List Token) : Prop :=
  ∃ behind, whole = s.leading ++ behind ∧ (∀ t ∈ s.leading, t.stop ≤ offset) ∧
    (Parser.kindOf? behind = some .comma → ∀ t ∈ behind, offset < t.start)

/-- Neither what may follow the `SET` clause nor a word is a comma. -/
theorem starts_in_of_trailing {offset : Nat} {s : Update} (hs : s.WellFormed) {ts rest : List Token}
    (htrailing : s.trailing = ts ++ rest) (hfront : ∀ t ∈ s.leading ++ ts, t.stop ≤ offset)
    {word : Token} (hword : ∃ cs, word.kind = TokenKind.ofWord cs) (behind : List Token) :
    s.StartsIn offset ((s.leading ++ ts) ++ word :: behind) := by
  refine ⟨ts ++ word :: behind, List.append_assoc .., ?_, ?_⟩
  · intro t ht
    exact hfront t (List.mem_append_left _ ht)
  · intro hcomma
    cases ts with
    | nil =>
      obtain ⟨cs, hkind⟩ := hword
      exact absurd (hkind.symm.trans (Option.some.inj hcomma)) (TokenKind.of_word_ne_comma cs)
    | cons t ts => exact absurd (Option.some.inj hcomma) (kind_trailing hs htrailing)

/-- A cut statement stands at the start of the whole one, up to the end of its `SET` clause. Else
the cut is made inside a word that ends the clause. -/
theorem leading_of_cut {offset : Nat} {tail : List Char} {s : Update} (hs : s.WellFormed)
    {whole : List Token} (hcut : Lexer.CutTokens offset tail s.tokens whole) :
    s.StartsIn offset whole ∨
    ∃ front part word behind, s.leading = front ++ [part] ∧ whole = front ++ word :: behind ∧
      (∃ cs, part.kind = TokenKind.ofWord cs) ∧
      word.kind = TokenKind.ofWord word.text.toList ∧
      ∃ c cs, word.text.toList = c :: (cs ++ tail.takeWhile Lexer.continuesWord) := by
  have htokens : s.tokens = s.leading ++ s.trailing := s.tokens_eq_leading
  generalize s.tokens = cut at hcut htokens
  cases hcut with
  | comment front behind hfront hbehind =>
    left
    refine ⟨s.trailing ++ behind, by rw [htokens, List.append_assoc], ?_, ?_⟩
    · intro t ht
      exact hfront t (by rw [htokens]; exact List.mem_append_left _ ht)
    · cases htrailing : s.trailing with
      | nil => exact fun _ => hbehind
      | cons t ts =>
        intro hcomma
        exact absurd (Option.some.inj hcomma) (kind_trailing hs htrailing)
  | between front semicolon word behind hfront hsemicolon hword =>
    left
    rcases last_of_parts htokens.symm with ⟨-, hleading⟩ | ⟨ts, htrailing, rfl⟩
    · exact absurd hsemicolon (kind_of_leading hs hleading)
    · exact starts_in_of_trailing hs htrailing hfront hword behind
  | word front part semicolon word behind hfront hsemicolon hpart hword htext =>
    have hparts : s.leading ++ s.trailing = (front ++ [part]) ++ [semicolon] := by
      rw [← htokens, List.append_assoc]
      rfl
    rcases last_of_parts hparts with ⟨-, hleading⟩ | ⟨ts, htrailing, hrest⟩
    · exact absurd hsemicolon (kind_of_leading hs hleading)
    · rcases last_of_parts hrest.symm with ⟨-, hleading⟩ | ⟨ts', rfl, rfl⟩
      · exact Or.inr ⟨front, part, word, behind, hleading, rfl, hpart, hword, htext⟩
      · left
        rw [List.append_assoc] at htrailing
        exact starts_in_of_trailing hs htrailing hfront ⟨_, hword⟩ behind

/-- The assignments of a cut statement are the first ones of the whole statement. Those that are
cut off stand behind the cut, which then is made between two tokens. -/
theorem assignments_of_cut {offset : Nat} {tail : List Char} {s s' : Update}
    (htail : startsWithWhere tail = true) (hs' : s'.WellFormed) (hnesting : s'.nesting ≤ maxLevels)
    (hcut : Lexer.CutTokens offset tail s'.tokens s.tokens) (hs : Parser.update s.tokens = .ok s)
    (hsupported : ∀ c ∈ s.setCalls, c.isSupported = true) :
    ∃ more, s.assignments.toList = s'.assignments.toList ++ more ∧
      (∀ t ∈ s'.leading, t.stop ≤ offset) ∧
      (∀ a ∈ more, ∀ t ∈ a.tokens, offset < t.start) ∧
      (more ≠ [] → ∀ t ∈ s.tokens, t.stop ≤ offset ∨ offset < t.start) := by
  rcases leading_of_cut hs' hcut with ⟨behind, hwhole, hleading, hcomma⟩ |
    ⟨front, part, word, behind, hleading, hwhole, hpart, hkind, c, cs, htext⟩
  · have hstart : Parser.update (s'.leading ++ behind) = .ok s := by rw [← hwhole, hs]
    obtain ⟨more, hlist, hbehind, hmore⟩ :=
      assignments_of_leading hs' hnesting hsupported hstart
    refine ⟨more, hlist, hleading, ?_, ?_⟩
    · intro a ha t ht
      exact hcomma (hmore (List.ne_nil_of_mem ha)) t (hbehind a ha t ht)
    · intro hne t ht
      rw [hwhole, List.mem_append] at ht
      rcases ht with ht | ht
      · exact Or.inl (hleading t ht)
      · exact Or.inr (hcomma (hmore hne) t ht)
  · have hname : word.kind = .name := by rw [hkind, htext, of_word_eq_name htail]
    have hconstant := not_is_constant_word_of_where htail htext
    obtain ⟨call, hcall, hcalled⟩ :=
      call_of_last_word hs' hnesting hleading hpart hname hconstant (hwhole ▸ hs)
    have hunsupported : call.isSupported = false :=
      not_is_supported_of_where htail (by rw [hcalled]; exact htext)
    rw [hsupported call hcall] at hunsupported
    cases hunsupported

theorem assignments_split {offset : Nat} {s : Update} {first more : List Assignment}
    (hlist : s.assignments.toList = first ++ more)
    (hfirst : ∀ a ∈ first, a.column.start ≤ offset)
    (hmore : ∀ a ∈ more, offset < a.column.start) :
    s.assignmentsBefore offset = first ∧ s.assignmentsBehind offset = more := by
  have hkept : ∀ a ∈ first, a.isBehind offset = false := by
    intro a ha
    simpa [Assignment.isBehind] using hfirst a ha
  have hlost : ∀ a ∈ more, a.isBehind offset = true := by
    intro a ha
    simpa [Assignment.isBehind] using hmore a ha
  constructor
  · rw [assignmentsBefore, hlist, List.filter_append, List.filter_eq_self.mpr,
      List.filter_eq_nil_iff.mpr, List.append_nil]
    · intro a ha
      simp [hlost a ha]
    · intro a ha
      simp [hkept a ha]
  · rw [assignmentsBehind, hlist, List.filter_append, List.filter_eq_self.mpr hlost,
      List.filter_eq_nil_iff.mpr, List.nil_append]
    intro a ha
    simp [hkept a ha]

end Update

theorem truncate_from_where_of_none {source : String} (h : beforeWhere? source.toList = none) :
    truncateFromWhere source = source ∧ cutOffset source = Text.byteLength source.toList := by
  simp [truncateFromWhere, truncate_eq, cutOffset, h]

theorem truncate_from_where_of_some {source : String} {head : List Char}
    (h : beforeWhere? source.toList = some head) :
    (truncateFromWhere source).toList = head ++ [';'] ∧
      cutOffset source = Text.byteLength head := by
  simp [truncateFromWhere, truncate_eq, cutOffset, h]

theorem Update.assignments_truncated {source : String} {s s' : Update}
    (hs : Update.read source = .ok s) (hs' : Update.read (truncateFromWhere source) = .ok s')
    (hsupported : ∀ c ∈ s.setCalls, c.isSupported = true) :
    ∃ more, s.assignments.toList = s'.assignments.toList ++ more ∧
      (∀ t ∈ s'.leading, t.stop ≤ cutOffset source) ∧
      (∀ a ∈ more, ∀ t ∈ a.tokens, cutOffset source < t.start) ∧
      (more ≠ [] → ∀ t ∈ s.tokens, t.stop ≤ cutOffset source ∨ cutOffset source < t.start) := by
  obtain ⟨hlex, -, -⟩ := Update.read_eq_ok hs
  cases hbefore : beforeWhere? source.toList with
  | none =>
    obtain ⟨hsame, hoffset⟩ := truncate_from_where_of_none hbefore
    rw [hsame, hs] at hs'
    cases hs'
    refine ⟨[], by simp, ?_, by simp, by simp⟩
    intro t ht
    rw [hoffset]
    apply Lexer.stop_le_of_lex hlex
    rw [Update.tokens_eq_leading]
    exact List.mem_append_left _ ht
  | some head =>
    obtain ⟨hcut, hoffset⟩ := truncate_from_where_of_some hbefore
    obtain ⟨hlex', hgood', hnesting'⟩ := Update.read_eq_ok hs'
    obtain ⟨tail, htail, hstarts⟩ := before_where_eq_some hbefore
    obtain ⟨x, xs, rfl, hx⟩ := starts_with_where_cons hstarts
    rw [hcut] at hlex'
    rw [htail] at hlex
    rw [hoffset]
    exact Update.assignments_of_cut hstarts hgood' hnesting' (Lexer.cut_tokens hx hlex' hlex)
      (Update.parse_of_read hs) hsupported

/-- Where both texts are rebuilt, the cut text yields the assignments before the cut, and the whole
text puts those behind it on top. There are none behind it if the cut is made at a token, so only a
comment can hide some. In any case the columns are the same exactly if the cut text yields already
what the lost assignments say last about each name. -/
theorem reconstruct_update_truncated (options : Options) (source : String) (columns cut : Columns)
    (hcolumns : reconstructUpdate options source = .ok columns)
    (hcut : reconstructUpdate options (truncateFromWhere source) = .ok cut) :
    ∃ s, Update.read source = .ok s ∧
      s.assignments.toList =
        s.assignmentsBefore (cutOffset source) ++ s.assignmentsBehind (cutOffset source) ∧
      cut = OrderedMap.ofEntries
        ((s.assignmentsBefore (cutOffset source)).map (Assignment.entry options)) ∧
      columns = cut.insertAll
        ((s.assignmentsBehind (cutOffset source)).map (Assignment.entry options)) ∧
      ((∃ t ∈ s.tokens, t.start ≤ cutOffset source ∧ cutOffset source < t.stop) →
        s.assignmentsBehind (cutOffset source) = [] ∧ columns = cut) ∧
      (columns = cut ↔ ∀ name value,
        ((s.assignmentsBehind (cutOffset source)).map
            (Assignment.entry options)).reverse.lookup name = some value →
          cut.get? name = some value) := by
  obtain ⟨s, hs, rfl, hsupported⟩ := reconstruct_update_eq_ok hcolumns
  obtain ⟨s', hs', rfl, -⟩ := reconstruct_update_eq_ok hcut
  obtain ⟨more, hlist, hleading, hmore, hsplit⟩ :=
    Update.assignments_truncated hs hs' hsupported
  have hfirst : ∀ a ∈ s'.assignments.toList, a.column.start ≤ cutOffset source := by
    intro a ha
    have hmem : a.column ∈ s'.assignments.tokens Assignment.tokens :=
      Chain.mem_tokens_of_mem ha (List.mem_cons_self ..)
    have hstop := hleading a.column (by simp [Update.leading, Update.front, Update.tokens, hmem])
    rw [Token.stop] at hstop
    omega
  have hlater : ∀ a ∈ more, cutOffset source < a.column.start :=
    fun a ha => hmore a ha a.column (List.mem_cons_self ..)
  obtain ⟨hbefore, hbehind⟩ := Update.assignments_split hlist hfirst hlater
  have hcolumns : s.meaning options =
      (s'.meaning options).insertAll (more.map (Assignment.entry options)) := by
    rw [Update.meaning, hlist, List.map_append, OrderedMap.of_entries_append]
    rfl
  refine ⟨s, hs, ?_⟩
  rw [hbefore, hbehind]
  refine ⟨hlist, rfl, hcolumns, ?_, ?_⟩
  · rintro ⟨t, ht, hstart, hstop⟩
    have hnone : more = [] := by
      by_cases hne : more = []
      · exact hne
      · have hoff := hsplit hne t ht
        omega
    rw [hcolumns, hnone]
    exact ⟨rfl, rfl⟩
  · rw [hcolumns, OrderedMap.insert_all_eq_self_iff]

def updateWithRepeat : String :=
  "update t set a = 1, b = 2 /* where */, a = 1"

theorem reconstruct_update_update_with_repeat :
    ∃ s, Update.read updateWithRepeat = .ok s ∧
      (s.assignmentsBehind (cutOffset updateWithRepeat)).length = 1 ∧
      (¬∃ t ∈ s.tokens, t.start ≤ 29 ∧ 29 < t.stop) ∧
      reconstructUpdate defaultOptions (truncateFromWhere updateWithRepeat) =
        reconstructUpdate defaultOptions updateWithRepeat := by
  have hentries : (reconstructUpdate defaultOptions updateWithRepeat).toOption.map (·.entries) =
      some [("th2_a", .integer 1), ("th2_b", .integer 2)] := by decide +kernel
  have hentries' : (reconstructUpdate defaultOptions
      (truncateFromWhere updateWithRepeat)).toOption.map (·.entries) =
        some [("th2_a", .integer 1), ("th2_b", .integer 2)] := by decide +kernel
  obtain ⟨columns, hcolumns, hvalues⟩ := ok_of_to_option_map hentries
  obtain ⟨cut, hcut, hvalues'⟩ := ok_of_to_option_map hentries'
  have hsame : cut = columns := OrderedMap.ext (hvalues'.trans hvalues.symm)
  have hoffset : cutOffset updateWithRepeat = 29 := by decide +kernel
  have hbehind : (Update.read updateWithRepeat).toOption.map
      (fun s => (s.assignmentsBehind (cutOffset updateWithRepeat)).length) = some 1 := by
    decide +kernel
  obtain ⟨s, hs, -, -, -, hat, -⟩ :=
    reconstruct_update_truncated defaultOptions updateWithRepeat columns cut hcolumns hcut
  obtain ⟨s', hs', hlength⟩ := ok_of_to_option_map hbehind
  rw [hs] at hs'
  cases hs'
  refine ⟨s, hs, hlength, ?_, by rw [hcut, hcolumns, hsame]⟩
  rw [← hoffset]
  intro htoken
  simp [(hat htoken).1] at hlength

/-- The letters in a comment cut off what stands behind the comment. -/
theorem truncate_from_where_loses_column :
    ¬∀ (options : Options) (source : String) (columns cut : Columns),
      reconstructUpdate options source = .ok columns →
        reconstructUpdate options (truncateFromWhere source) = .ok cut → columns = cut := by
  intro hsame
  have hentries : (reconstructUpdate defaultOptions
      "update t set a = 1 /* where */, b = 2").toOption.map (·.entries) =
        some [("th2_a", .integer 1), ("th2_b", .integer 2)] := by decide +kernel
  have hentries' : (reconstructUpdate defaultOptions
      (truncateFromWhere "update t set a = 1 /* where */, b = 2")).toOption.map (·.entries) =
        some [("th2_a", .integer 1)] := by decide +kernel
  obtain ⟨columns, hcolumns, hvalues⟩ := ok_of_to_option_map hentries
  obtain ⟨cut, hcut, hvalues'⟩ := ok_of_to_option_map hentries'
  rw [hsame _ _ columns cut hcolumns hcut, hvalues'] at hvalues
  exact absurd hvalues (by decide)

end RedoLog
