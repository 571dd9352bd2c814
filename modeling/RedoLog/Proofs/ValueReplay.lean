import RedoLog.Proofs.ValueConservation
import RedoLog.Proofs.ValueNodes

/-!
# Replaying a value over any slots

The events of a value bring its meaning to the top of any stack and touch nothing below, also where
slots below have the token indices of the value itself. So the meaning of a call is made of the
meanings of its parameters.
-/

set_option autoImplicit false

namespace RedoLog

namespace Slots

def runOver (trim : Bool) (slots : Slots) (es : List Event) : Except ReplayError Run :=
  es.foldlM (Run.step trim) ⟨[], slots⟩

def alone (trim : Bool) : Host Run where
  trim := trim
  step := Run.step trim
  place slots := ⟨[], slots⟩
  take value slots := .ok ⟨[value], slots⟩
  step_place slots e _ := by
    rw [Run.step]
    congr 1
    funext outcome
    obtain ⟨_ | value, slots'⟩ := outcome <;> rfl

theorem run_over_expression (trim : Bool) {source : List Char} (e : Expression)
    (hsource : ∀ t ∈ e.tokens, t.StandsIn source) (slots : Slots) :
    runOver trim slots (e.node.events source) =
      (checkCalls source e.calls >>= fun _ =>
        deliver (e.meaning trim) slots >>= settle (alone trim).place (alone trim).take) :=
  (alone trim).run_expression source e hsource slots

theorem given_of_concat {trim : Bool} {slots : Slots} {es : List Event} {e : Event} {value : Value}
    (hproduction : e.production = .unaryExpression) (hphase : e.phase = .exit)
    (h : runOver trim slots (es ++ [e]) = .ok ⟨[value], []⟩) :
    ∃ inside, runOver trim slots es = .ok ⟨[], inside⟩ := by
  rw [runOver, List.foldlM_append] at h
  obtain ⟨⟨given, inside⟩, hes, h⟩ := bind_eq_ok h
  have hlast : Run.step trim ⟨given, inside⟩ e = .ok ⟨[value], []⟩ := by simpa using h
  obtain ⟨⟨value', slots'⟩, hhandle, hends⟩ := bind_eq_ok hlast
  obtain ⟨hgivens, hslots⟩ := Run.mk.inj (Except.ok.inj hends)
  have hsome := (step_of_handle hhandle).given.mpr ⟨hproduction, hphase, hslots⟩
  obtain ⟨v, rfl⟩ := Option.isSome_iff_exists.mp hsome
  obtain ⟨hgiven, -⟩ := List.append_inj' (hgivens.trans (List.nil_append [value]).symm) rfl
  exact ⟨inside, hgiven ▸ hes⟩

/-- A value in the tree of a statement, replayed over any slots. Its first call of an unsupported
function, outer calls before inner ones, is an error. Without one the meaning of the value is put
into the top slot, nothing below changes, and nothing is given out; where there is no slot, the
last event gives the meaning out. -/
theorem run_over_value (source : String) (tree : ParseTree)
    (hparse : parseInsert source = .ok tree ∨ parseUpdate source = .ok tree)
    (n : Node) (before behind : List Event)
    (hstands : Node.StandsIn tree.source n tree.root before behind) (hvalue : n.IsValue)
    (trim : Bool) :
    (∀ call, n.preorder.find? Node.isUnsupportedCall = some call →
        ∀ slots, runOver trim slots (ParseTree.mk tree.source n).events =
          .error (.unsupportedFunction (tree.text call))) ∧
      (n.preorder.find? Node.isUnsupportedCall = none →
        (∀ index below,
          runOver trim (.unary index none :: below) (ParseTree.mk tree.source n).events =
            .ok ⟨[], .unary index (some (n.meaning trim tree.source)) :: below⟩) ∧
        (∀ index f parameters below,
          runOver trim (.function index f parameters :: below)
              (ParseTree.mk tree.source n).events =
            .ok ⟨[], .function index f (parameters ++ [n.meaning trim tree.source]) :: below⟩) ∧
        runOver trim [] (ParseTree.mk tree.source n).events =
          .ok ⟨[n.meaning trim tree.source], []⟩ ∧
        ∃ inside, runOver trim [] (ParseTree.mk tree.source n).events.dropLast =
          .ok ⟨[], inside⟩) := by
  obtain ⟨e, rfl, hsource⟩ := reads_values_of_parse hparse n before behind hstands hvalue
  have hmeaning : e.node.meaning trim tree.source = e.meaning trim :=
    e.meaning_node trim tree.source hsource
  have hrun := fun slots => run_over_expression trim e hsource slots
  -- The expression is not unique, but its meaning and its calls are those of the tree.
  rw [ParseTree.events_eq, hmeaning]
  simp only [check_calls_node] at hrun
  constructor
  · intro call hcall slots
    rw [hrun, hcall]
    rfl
  · intro hsupported
    simp only [hsupported, ok_bind] at hrun
    have hempty : runOver trim [] (e.node.events tree.source) = .ok ⟨[e.meaning trim], []⟩ :=
      hrun []
    refine ⟨fun index below => hrun _, fun index f parameters below => hrun _, hempty, ?_⟩
    rw [Node.events_eq, ← List.cons_append] at hempty ⊢
    rw [List.dropLast_concat]
    exact given_of_concat hvalue.1 rfl hempty

def nestedCalls : String :=
  "insert into T values (to_timestamp(to_date(('x'),null)))"

theorem run_over_nested_calls :
    ∃ tree n before behind, parseInsert nestedCalls = .ok tree ∧
      Node.StandsIn tree.source n tree.root before behind ∧ n.IsValue ∧
      runOver false
          [.function n.tokenIndex "TO_DATE" [.null], .unary n.tokenIndex none,
            .unary n.tokenIndex none]
          (ParseTree.mk tree.source n).events =
        .ok ⟨[], [.function n.tokenIndex "TO_DATE"
          [.null, .call "TO_TIMESTAMP" [.call "TO_DATE" [.text "x", .null]]],
          .unary n.tokenIndex none, .unary n.tokenIndex none]⟩ := by
  have hshape : (parseInsert nestedCalls).toOption.map (fun tree =>
      tree.root.children.getLast?.bind fun clause => clause.children.head?.map fun n =>
        (n.production :: n.children.map Node.production, n.meaning false tree.source,
          (n.preorder.find? Node.isUnsupportedCall).isNone)) =
      some (some ([.unaryExpression, .function "to_timestamp"],
        .call "TO_TIMESTAMP" [.call "TO_DATE" [.text "x", .null]], true)) := by
    decide +kernel
  obtain ⟨tree, htree, hclause⟩ := ok_of_to_option_map hshape
  obtain ⟨clause, hlast, hclause⟩ := Option.bind_eq_some_iff.mp hclause
  obtain ⟨n, hfirst, hn⟩ := Option.map_eq_some_iff.mp hclause
  obtain ⟨into, hroot⟩ := List.getLast?_eq_some_iff.mp hlast
  obtain ⟨others, hvalues⟩ := List.head?_eq_some_iff.mp hfirst
  obtain ⟨hproductions, hn⟩ := Prod.mk.inj hn
  obtain ⟨hmeaning, hsupported⟩ := Prod.mk.inj hn
  obtain ⟨hproduction, hchildren⟩ := List.cons.inj hproductions
  have hvalue : n.IsValue := by
    obtain ⟨call, hcall, hfunction⟩ := List.map_eq_singleton_iff.mp hchildren
    exact ⟨hproduction, by simp [hcall, hfunction]⟩
  have hinside : Node.StandsIn tree.source n clause _ _ :=
    .child clause n [] others [] [] hvalues .root
  have hstands := Node.StandsIn.child tree.root clause into [] _ _ hroot hinside
  have hrun := run_over_value nestedCalls tree (Or.inl htree) n _ _ hstands hvalue false
  have hcall := (hrun.2 (Option.isNone_iff_eq_none.mp hsupported)).2.1
  rw [hmeaning] at hcall
  exact ⟨tree, n, _, _, htree, hstands, hvalue, hcall _ _ _ _⟩

end Slots

end RedoLog
