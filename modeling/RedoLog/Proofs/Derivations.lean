import RedoLog.Proofs.DerivationTrees
import RedoLog.Proofs.ReadSource
import RedoLog.Statement.Derivation

/-!
# What is parsed is what is derived

The tokens of a source are parsed exactly if the grammar derives them, and the tree that comes out
is the one that belongs to their derivation, of which there is one only. The rules that look at the
token behind exclude nothing from a whole statement, since in a statement no parenthesis opens
behind a value or a column.
-/

set_option autoImplicit false

namespace RedoLog

theorem not_opened_some {t : Token} (h : t.kind ≠ .openParen) : NotOpened (some t) := by
  simpa [NotOpened] using h

namespace Expression

mutual

theorem alone_of_well_formed : ∀ (e : Expression) (next : Option Token), e.WellFormed →
    NotOpened next → e.Alone next
  | .group _ inner closing, _, he, _ =>
    alone_of_well_formed inner (some closing) he.2.1 (not_opened_some (by simp [he.2.2]))
  | .number _ _, _, _, _ => trivial
  | .text _ _, _, _, _ => trivial
  | .null _, _, _, _ => trivial
  | .constant _, _, _, hnext => hnext
  | .call _ _ arguments closing, _, he, _ =>
    arguments_alone_of_well_formed arguments (some closing) he.2.2.1
      (not_opened_some (by simp [he.2.2.2]))

theorem arguments_alone_of_well_formed : ∀ (es : Chain Expression) (next : Option Token),
    ArgumentsWellFormed es → NotOpened next → ArgumentsAlone es next
  | .last e, next, hes, hnext => alone_of_well_formed e next hes hnext
  | .next e comma rest, next, hes, hnext =>
    ⟨alone_of_well_formed e (some comma) hes.1 (not_opened_some (by simp [hes.2.1])),
      arguments_alone_of_well_formed rest next hes.2.2 hnext⟩

end

end Expression

theorem Operand.alone_of_well_formed {o : Operand} {next : Option Token} (ho : o.WellFormed)
    (hnext : NotOpened next) : o.Alone next := by
  cases o with
  | column path =>
    cases path with
    | last name => exact hnext
    | next name dot rest =>
      have hdot : dot.kind = .dot := ho.1.2 dot (by simp [Chain.separators])
      exact not_opened_some (by simp [hdot])
  | value e => exact e.alone_of_well_formed next ho hnext

theorem Test.alone_of_well_formed {t : Test} {next : Option Token} (ht : t.WellFormed)
    (hnext : NotOpened next) : t.Alone next := by
  cases t with
  | holds => trivial
  | compare operator right => exact Operand.alone_of_well_formed ht.2 hnext
  | isNull word negation null => trivial

theorem Test.not_opened {t : Test} {next : Option Token} (ht : t.WellFormed)
    (hnext : NotOpened next) : NotOpened (t.tokens.head?.or next) := by
  cases t with
  | holds => exact hnext
  | compare operator right =>
    apply not_opened_some
    intro hkind
    have hcompare : operator.kind.isComparison = true := ht.1
    rw [hkind] at hcompare
    cases hcompare
  | isNull word negation null => exact not_opened_some (by simp [ht.1])

namespace Condition

mutual

theorem alone_of_well_formed : ∀ (c : Condition) (next : Option Token), c.WellFormed →
    NotOpened next → c.Alone next
  | .not _ inner, next, hc, hnext => alone_of_well_formed inner next hc.2 hnext
  | .group _ inner closing test, next, hc, hnext =>
    ⟨alternatives_alone_of_well_formed inner (some closing) hc.2.1
      (not_opened_some (by simp [hc.2.2.1])), test.alone_of_well_formed hc.2.2.2 hnext⟩
  | .operand left test, next, hc, hnext =>
    ⟨left.alone_of_well_formed hc.1 (test.not_opened hc.2.2 hnext),
      test.alone_of_well_formed hc.2.2 hnext⟩

theorem conjunction_alone_of_well_formed : ∀ (cs : Chain Condition) (next : Option Token),
    ConjunctionWellFormed cs → NotOpened next → ConjunctionAlone cs next
  | .last c, next, hcs, hnext => alone_of_well_formed c next hcs hnext
  | .next c word rest, next, hcs, hnext =>
    ⟨alone_of_well_formed c (some word) hcs.1 (not_opened_some (by simp [hcs.2.1])),
      conjunction_alone_of_well_formed rest next hcs.2.2 hnext⟩

theorem alternatives_alone_of_well_formed : ∀ (cs : Chain (Chain Condition)) (next : Option Token),
    AlternativesWellFormed cs → NotOpened next → AlternativesAlone cs next
  | .last c, next, hcs, hnext => conjunction_alone_of_well_formed c next hcs hnext
  | .next c word rest, next, hcs, hnext =>
    ⟨conjunction_alone_of_well_formed c (some word) hcs.1 (not_opened_some (by simp [hcs.2.1])),
      alternatives_alone_of_well_formed rest next hcs.2.2 hnext⟩

end

end Condition

namespace Insert

theorem alone_of_well_formed {s : Insert} (hs : s.WellFormed) : s.Alone := by
  cases s with
  | row s =>
    obtain ⟨-, -, -, -, -, -, hrow, hclosing, -⟩ := hs
    exact Expression.arguments_alone_of_well_formed s.row _ hrow
      (not_opened_some (by simp [hclosing]))
  | several insert word rest => trivial

theorem parse_eq_ok_iff (ts : List Token) (s : Insert) :
    Parser.insert ts = .ok s ↔ s.Derives ts := by
  constructor
  · intro h
    obtain ⟨htokens, hgood, hlevels⟩ := Parser.insert_eq h
    exact ⟨htokens.symm, hgood, alone_of_well_formed hgood, hlevels⟩
  · rintro ⟨rfl, hgood, -, hlevels⟩
    cases s with
    | row s => exact Parser.insert_tokens hgood hlevels
    | several insert word rest =>
      obtain ⟨hinsert, hword⟩ := hgood
      have hoptional : Parser.optional (fun t => t.kind = .allWord || t.kind = .firstWord)
          (word :: rest) = (some word, rest) := Parser.optional_cons (by simpa using hword) rest
      simp only [tokens, Parser.insert, Parser.kind_cons hinsert, ok_bind, hoptional]
      rfl

end Insert

namespace Update

theorem assignments_alone_of_well_formed {as : Chain Assignment} {next : Option Token}
    (has : ∀ a ∈ as.toList, a.WellFormed) (hcommas : ∀ t ∈ as.separators, t.kind = .comma)
    (hnext : NotOpened next) : AssignmentsAlone as next := by
  induction as with
  | last a =>
    exact a.value.alone_of_well_formed next (has a (by simp [Chain.toList])).2.2 hnext
  | next a comma rest ih =>
    rw [Chain.toList, List.forall_mem_cons] at has
    rw [Chain.separators, List.forall_mem_cons] at hcommas
    have hcomma : NotOpened (some comma) := not_opened_some (by simp [hcommas.1])
    exact ⟨a.value.alone_of_well_formed _ has.1.2.2 hcomma, ih has.2 hcommas.2⟩

theorem alone_of_well_formed {s : Update} (hs : s.WellFormed) : s.Alone := by
  obtain ⟨-, -, -, -, hassignments, hcommas, hfilter, hterminator⟩ := hs
  have hend : NotOpened s.terminator := by
    intro t ht
    simp [hterminator t ht]
  have hbehind : NotOpened ((s.filter.map Filter.word).or s.terminator) := by
    cases hf : s.filter with
    | none => exact hend
    | some f => exact not_opened_some (by simp [(hfilter f hf).1])
  refine ⟨assignments_alone_of_well_formed hassignments hcommas hbehind, ?_⟩
  intro f hf
  exact Condition.alternatives_alone_of_well_formed f.condition _ (hfilter f hf).2 hend

theorem parse_eq_ok_iff (ts : List Token) (s : Update) :
    Parser.update ts = .ok s ↔ s.Derives ts := by
  constructor
  · intro h
    obtain ⟨htokens, hgood, hlevels⟩ := Parser.update_eq h
    exact ⟨htokens.symm, hgood, alone_of_well_formed hgood, hlevels⟩
  · rintro ⟨rfl, hgood, -, hlevels⟩
    exact Parser.update_tokens hgood hlevels

end Update

/-- A parser that finds the derivations of some grammar gives a tree exactly if the tokens have a
derivation, and then the tree of that one. -/
theorem read_with_derivation {α : Type} {parser : List Token → Except ParseFault α}
    {derives : α → List Token → Prop} (hparser : ∀ ts s, parser ts = .ok s ↔ derives s ts)
    {node : α → Node} {shown : α → Node → Prop} (hshown : ∀ s n, shown s n ↔ n = node s)
    {source : String} {ts : List Token} {last : Token}
    (h : tokenize source = .ok (ts ++ [last])) :
    ((∃ tree, (readWith parser source).map (fun s => ParseTree.mk source.toList (node s)) =
        .ok tree) ↔ ∃ s, derives s ts) ∧
      ∀ s, derives s ts →
        (∀ tree, (readWith parser source).map (fun s => ParseTree.mk source.toList (node s)) =
            .ok tree ↔ tree.source = source.toList ∧ shown s tree.root) ∧
          ∀ s', derives s' ts → s' = s := by
  have hread : ∀ s, readWith parser source = .ok s ↔ derives s ts := fun s =>
    (read_with_eq_ok_iff h s).trans (hparser ts s)
  refine ⟨⟨?_, ?_⟩, ?_⟩
  · rintro ⟨tree, htree⟩
    obtain ⟨s, hs, -⟩ := ok_of_map htree
    exact ⟨s, (hread s).mp hs⟩
  · rintro ⟨s, hs⟩
    rw [(hread s).mpr hs]
    exact ⟨⟨source.toList, node s⟩, rfl⟩
  · intro s hs
    rw [(hread s).mpr hs]
    refine ⟨fun tree => ⟨?_, ?_⟩, fun s' hs' => ?_⟩
    · rintro ⟨⟩
      exact ⟨rfl, (hshown s _).mpr rfl⟩
    · rintro ⟨hsource, hroot⟩
      obtain ⟨source', root⟩ := tree
      obtain rfl : source' = source.toList := hsource
      obtain rfl : root = node s := (hshown s root).mp hroot
      rfl
    · have hsame := (hread s').mpr hs'
      rw [(hread s).mpr hs] at hsame
      exact (Except.ok.inj hsame).symm

/-- A source is accepted as an `INSERT` exactly if the grammar derives its tokens. The derivation is
the only one, and the tree belongs to it. -/
theorem parse_insert_derivation (source : String) (ts : List Token) (last : Token)
    (h : tokenize source = .ok (ts ++ [last])) :
    ((∃ tree, parseInsert source = .ok tree) ↔ ∃ s : Insert, s.Derives ts) ∧
      ∀ s : Insert, s.Derives ts →
        (∀ tree, parseInsert source = .ok tree ↔
          tree.source = source.toList ∧ s.Shown tree.root) ∧
        ∀ s' : Insert, s'.Derives ts → s' = s :=
  read_with_derivation Insert.parse_eq_ok_iff Insert.shown_iff h

def Node.outline (n : Node) : List (Production × Nat × Nat × Nat × Nat) :=
  n.preorder.map fun m => (m.production, m.tokenIndex, m.start, m.stop, m.children.length)

def rowOfEveryKind : String :=
  "insert into S.\"T\"(a,\"b\",c) values ((-1),to_date(date 'x',null),True);"

def rowOutline : List (Production × Nat × Nat × Nat × Nat) :=
  [(.insertStatement, 0, 0, 68, 2), (.insertIntoClause, 1, 7, 26, 4), (.tableName, 2, 12, 17, 0),
    (.columnName, 6, 18, 19, 0), (.columnName, 8, 20, 23, 0), (.columnName, 10, 24, 25, 0),
    (.valuesClause, 12, 27, 68, 3), (.unaryExpression, 14, 35, 39, 1),
    (.unaryExpression, 15, 36, 38, 1), (.constant (.number "-1" true), 15, 36, 38, 0),
    (.unaryExpression, 19, 40, 62, 1), (.function "to_date", 19, 40, 62, 2),
    (.unaryExpression, 21, 48, 56, 1), (.constant .quoted, 21, 48, 56, 1),
    (.quotedString, 22, 53, 56, 0), (.unaryExpression, 24, 57, 61, 1),
    (.constant .null, 24, 57, 61, 0), (.unaryExpression, 27, 63, 67, 1),
    (.constant .word, 27, 63, 67, 0)]

theorem parse_insert_row_of_every_kind :
    ∃ ts last, ∃ s : Insert, ∃ tree, tokenize rowOfEveryKind = .ok (ts ++ [last]) ∧
      ts.length = 30 ∧ s.Derives ts ∧ (∀ s' : Insert, s'.Derives ts → s' = s) ∧
      parseInsert rowOfEveryKind = .ok tree ∧ tree.source = rowOfEveryKind.toList ∧
      s.Shown tree.root ∧ tree.root.outline = rowOutline := by
  have htokens : (tokenize rowOfEveryKind).toOption.map List.length = some 31 := by
    decide +kernel
  have haccepted : (parseInsert rowOfEveryKind).toOption.map (fun tree => tree.root.outline) =
      some rowOutline := by
    decide +kernel
  obtain ⟨all, hall, hcount⟩ := ok_of_to_option_map htokens
  obtain ⟨tree, htree, houtline⟩ := ok_of_to_option_map haccepted
  obtain ⟨ts, -, rfl⟩ := lex_of_tokenize hall
  have hderivation := parse_insert_derivation rowOfEveryKind ts _ hall
  obtain ⟨s, hs⟩ := hderivation.1.mp ⟨tree, htree⟩
  obtain ⟨htrees, hunique⟩ := hderivation.2 s hs
  obtain ⟨hsource, hshown⟩ := (htrees tree).mp htree
  exact ⟨ts, _, s, tree, hall, by simpa using hcount, hs, hunique, htree, hsource, hshown, houtline⟩

theorem parse_update_derivation (source : String) (ts : List Token) (last : Token)
    (h : tokenize source = .ok (ts ++ [last])) :
    ((∃ tree, parseUpdate source = .ok tree) ↔ ∃ s : Update, s.Derives ts) ∧
      ∀ s : Update, s.Derives ts →
        (∀ tree, parseUpdate source = .ok tree ↔
          tree.source = source.toList ∧ s.Shown tree.root) ∧
        ∀ s' : Update, s'.Derives ts → s' = s :=
  read_with_derivation Update.parse_eq_ok_iff Update.shown_iff h

def updateOfEveryKind : String :=
  "update T x set a = (1) where not (x.a = (2) or true) <> f('b') and c is not null or \"d\""

def updateOutline : List (Production × Nat × Nat × Nat × Nat) :=
  [(.updateStatement, 0, 0, 87, 3), (.tableName, 1, 7, 8, 0), (.updateSetClause, 3, 11, 22, 1),
    (.setItem, 4, 15, 22, 2), (.columnName, 4, 15, 16, 0), (.unaryExpression, 6, 19, 22, 1),
    (.unaryExpression, 7, 20, 21, 1), (.constant (.number "1" true), 7, 20, 21, 0),
    (.whereClause, 9, 23, 87, 1), (.condition, 10, 29, 87, 2), (.condition, 10, 29, 80, 2),
    (.condition, 10, 29, 62, 1), (.condition, 11, 33, 62, 2), (.condition, 11, 33, 52, 1),
    (.condition, 12, 34, 51, 2), (.condition, 12, 34, 43, 2), (.unaryExpression, 12, 34, 37, 1),
    (.columnReference, 12, 34, 37, 0), (.unaryExpression, 16, 40, 43, 1),
    (.unaryExpression, 17, 41, 42, 1), (.constant (.number "2" true), 17, 41, 42, 0),
    (.unaryExpression, 20, 47, 51, 1), (.constant .word, 20, 47, 51, 0),
    (.unaryExpression, 23, 56, 62, 1), (.function "f", 23, 56, 62, 1),
    (.unaryExpression, 25, 58, 61, 1), (.constant .quoted, 25, 58, 61, 1),
    (.quotedString, 25, 58, 61, 0), (.condition, 28, 67, 80, 1), (.unaryExpression, 28, 67, 68, 1),
    (.columnReference, 28, 67, 68, 0), (.unaryExpression, 33, 84, 87, 1),
    (.columnReference, 33, 84, 87, 0)]

theorem parse_update_update_of_every_kind :
    ∃ ts last, ∃ s : Update, ∃ tree, tokenize updateOfEveryKind = .ok (ts ++ [last]) ∧
      ts.length = 34 ∧ s.Derives ts ∧ (∀ s' : Update, s'.Derives ts → s' = s) ∧
      parseUpdate updateOfEveryKind = .ok tree ∧ tree.source = updateOfEveryKind.toList ∧
      s.Shown tree.root ∧ tree.root.outline = updateOutline := by
  have htokens : (tokenize updateOfEveryKind).toOption.map List.length = some 35 := by
    decide +kernel
  have haccepted : (parseUpdate updateOfEveryKind).toOption.map (fun tree => tree.root.outline) =
      some updateOutline := by
    decide +kernel
  obtain ⟨all, hall, hcount⟩ := ok_of_to_option_map htokens
  obtain ⟨tree, htree, houtline⟩ := ok_of_to_option_map haccepted
  obtain ⟨ts, -, rfl⟩ := lex_of_tokenize hall
  have hderivation := parse_update_derivation updateOfEveryKind ts _ hall
  obtain ⟨s, hs⟩ := hderivation.1.mp ⟨tree, htree⟩
  obtain ⟨htrees, hunique⟩ := hderivation.2 s hs
  obtain ⟨hsource, hshown⟩ := (htrees tree).mp htree
  exact ⟨ts, _, s, tree, hall, by simpa using hcount, hs, hunique, htree, hsource, hshown, houtline⟩

end RedoLog
