import RedoLog.Proofs.InsertReplay
import RedoLog.Proofs.UpdateReplay

/-!
# Errors that a text can bring about

The events of a parsed statement always fit together. What can still go wrong is the text itself: it
may be malformed, fill several tables, call an unsupported function, or pair names and values that
are not equally many.
-/

set_option autoImplicit false

namespace RedoLog

namespace ReplayError

def isInternal : ReplayError → Bool
  | .stage _ _ _ _ => true
  | .emptyStack _ _ => true
  | .expressionNotFound _ _ => true
  | .tagMismatch _ _ _ _ => true
  | .multipleValues _ _ _ => true
  | .alreadyCompleted _ _ _ => true
  | .notCompleted _ _ => true
  | .uncompletedValues _ _ => true
  | .rowValueNotOpen _ _ => true
  | .rowValueNotFlushed _ _ _ => true
  | .columnAlreadySet _ _ _ => true
  | .valueAlreadySet _ _ _ => true
  | .rowValueIncomplete _ _ => true
  | .unsupportedFunction _ => false
  | .unsupportedMultiTableInsert _ => false
  | .missingColumnName _ => false
  | .unusedColumnNames _ => false

inductive OfUpdate : ReplayError → Prop where
  | unsupportedFunction (text : String) : OfUpdate (.unsupportedFunction text)

inductive OfInsert : ReplayError → Prop where
  | unsupportedFunction (text : String) : OfInsert (.unsupportedFunction text)
  | unsupportedMultiTableInsert (text : String) : OfInsert (.unsupportedMultiTableInsert text)
  | missingColumnName (value : Value) : OfInsert (.missingColumnName value)
  | unusedColumnNames (names : List String) : OfInsert (.unusedColumnNames names)

theorem OfInsert.not_internal {e : ReplayError} (h : OfInsert e) : e.isInternal = false := by
  cases h <;> rfl

theorem OfUpdate.not_internal {e : ReplayError} (h : OfUpdate e) : e.isInternal = false := by
  cases h
  rfl

end ReplayError

def FailsOnlyWith (kind : ReplayError → Prop) (outcome : Except Failure Columns) : Prop :=
  (∃ columns, outcome = .ok columns) ∨ (∃ problems, outcome = .error (.malformed problems)) ∨
    ∃ error, kind error ∧ outcome = .error (.replay error)

theorem FailsOnlyWith.ne_internal {kind : ReplayError → Prop} {outcome : Except Failure Columns}
    (h : FailsOnlyWith kind outcome) (hkind : ∀ error, kind error → error.isInternal = false)
    (error : ReplayError) (herror : error.isInternal = true) :
    outcome ≠ .error (.replay error) := by
  rintro rfl
  rcases h with ⟨columns, h⟩ | ⟨problems, h⟩ | ⟨error', hreachable, h⟩
  · cases h
  · cases h
  · cases h
    rw [hkind error hreachable] at herror
    cases herror

namespace InsertReplay

variable (options : Options) (source : List Char)

theorem take_expression_error {r : InsertReplay} {e : Expression} {error : ReplayError}
    (h : takeExpression options source r e = .error error) : error.OfInsert := by
  rw [takeExpression] at h
  rcases check_calls_cases source e.calls with hok | ⟨text, herror⟩
  · rw [hok, ok_bind, takeValue] at h
    cases hnames : r.names with
    | nil =>
      rw [hnames] at h
      cases h
      exact .missingColumnName _
    | cons name names =>
      rw [hnames] at h
      cases h
  · rw [herror] at h
    cases h
    exact .unsupportedFunction text

theorem take_expressions_error {es : List Expression} {r : InsertReplay} {error : ReplayError}
    (h : es.foldlM (takeExpression options source) r = .error error) : error.OfInsert := by
  induction es generalizing r with
  | nil => cases h
  | cons e es ih =>
    rw [List.foldlM_cons] at h
    cases hfirst : takeExpression options source r e with
    | error error' =>
      rw [hfirst] at h
      cases h
      exact take_expression_error options source hfirst
    | ok r' =>
      rw [hfirst, ok_bind] at h
      exact ih h

theorem run_row_insert_error {s : RowInsert} (hsource : ∀ t ∈ s.tokens, t.StandsIn source)
    {error : ReplayError} (h : replayInsert options (s.node.events source) = .error error) :
    error.OfInsert := by
  rw [run_row_insert options source s hsource] at h
  cases htake : s.row.toList.foldlM (takeExpression options source)
      ⟨.parsingValues, s.columnNames, [], OrderedMap.empty⟩ with
  | error error' =>
    rw [htake] at h
    cases h
    exact take_expressions_error options source htake
  | ok r =>
    have hslots : r.slots = [] := (take_expressions_kept options source htake).2
    rw [htake, ok_bind, finish] at h
    by_cases hnames : r.names = []
    · simp [hnames, hslots] at h
    · have hunused : error = .unusedColumnNames r.names := by
        simpa [hnames] using h.symm
      rw [hunused]
      exact .unusedColumnNames r.names

end InsertReplay

theorem reconstruct_insert_fails (options : Options) (source : String) :
    FailsOnlyWith ReplayError.OfInsert (reconstructInsert options source) := by
  cases hread : Insert.read source with
  | error problems =>
    refine Or.inr (Or.inl ⟨problems, ?_⟩)
    rw [reconstructInsert, parseInsert, hread]
    rfl
  | ok s =>
    have hevents : (⟨source.toList, s.node⟩ : ParseTree).events = s.node.events source.toList :=
      ParseTree.events_eq _
    rw [reconstructInsert, parse_insert_eq_ok hread]
    simp only [insertColumns, hevents]
    cases hrun : replayInsert options (s.node.events source.toList) with
    | ok r => exact Or.inl ⟨r.columns, rfl⟩
    | error error =>
      refine Or.inr (Or.inr ⟨error, ?_, rfl⟩)
      cases s with
      | row s =>
        exact InsertReplay.run_row_insert_error options source.toList
          (Insert.stands_in_of_read hread) hrun
      | several insert word rest =>
        obtain ⟨text, htext⟩ := InsertReplay.run_several options source.toList insert word rest
        rw [htext] at hrun
        cases hrun
        exact .unsupportedMultiTableInsert text

theorem reconstruct_update_fails (options : Options) (source : String) :
    FailsOnlyWith ReplayError.OfUpdate (reconstructUpdate options source) := by
  cases hread : Update.read source with
  | error problems =>
    refine Or.inr (Or.inl ⟨problems, ?_⟩)
    rw [reconstructUpdate, parseUpdate, hread]
    rfl
  | ok s =>
    rcases reconstruct_update_cases options source s hread with ⟨hok, -⟩ | ⟨⟨text, herror⟩, -⟩
    · exact Or.inl ⟨_, hok⟩
    · exact Or.inr (Or.inr ⟨_, .unsupportedFunction text, herror⟩)

/-- A text yields columns, is malformed, or is outside the supported subset. No text leads to events
that do not fit together. -/
theorem reconstruct_reachable (options : Options) (source : String) :
    FailsOnlyWith ReplayError.OfInsert (reconstruct .insert options source) ∧
      FailsOnlyWith ReplayError.OfUpdate (reconstruct .update options source) ∧
      ∀ kind error, error.isInternal = true →
        reconstruct kind options source ≠ .error (.replay error) := by
  have hinsert := reconstruct_insert_fails options source
  have hupdate := reconstruct_update_fails options source
  refine ⟨hinsert, hupdate, ?_⟩
  intro kind error herror
  cases kind with
  | insert => exact hinsert.ne_internal (fun _ h => h.not_internal) error herror
  | update => exact hupdate.ne_internal (fun _ h => h.not_internal) error herror

theorem reconstruct_value_without_name :
    reconstruct .insert defaultOptions "insert into T values(1)" =
        .error (.replay (.missingColumnName (.integer 1))) ∧
      reconstruct .insert defaultOptions "insert into T values(1)" ≠
        .error (.replay (.uncompletedValues .insert 1)) := by
  constructor
  · exact error_of_failure (by decide +kernel)
  · exact (reconstruct_reachable defaultOptions _).2.2 .insert _ rfl

end RedoLog
