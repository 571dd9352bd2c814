import RedoLog.Proofs.Chains
import RedoLog.Proofs.ConditionNodes
import RedoLog.Proofs.ReadSource
import RedoLog.Reconstruct

/-!
# Replaying an UPDATE

Each assignment opens a row value, fills it with a name and a value, and puts it. Behind the `SET`
clause no row value is open. The nodes of a condition are such that nothing is done without one, so
the condition changes nothing, whatever stands in it.
-/

set_option autoImplicit false

namespace RedoLog

def Update.setCalls (s : Update) : List Call :=
  s.assignments.toList.flatMap fun a => a.value.calls

namespace UpdateReplay

variable (options : Options) (source : List Char)

def takeRow (row : RowValue) (columns : Columns) (value : Value) (_ : Slots) :
    Except ReplayError UpdateReplay := do
  let row ← row.setValue value
  return ⟨some row, [], columns⟩

/-- The events of a value are handed to its slots as long as a row value is open. -/
theorem handle_of_value (row : RowValue) (columns : Columns) (slots : Slots) (e : Event)
    (he : e.production.isOfValue = true) :
    handle options ⟨some row, slots, columns⟩ e =
      (Slots.handle options.trimText slots e >>=
        Slots.settle (fun slots => ⟨some row, slots, columns⟩) (takeRow row columns)) := by
  obtain ⟨phase, production, tokenIndex, text⟩ := e
  cases production <;> cases he <;> cases phase <;>
    simp only [handle, Slots.accepts, takeExpression, if_true] <;>
    first
    | rfl
    | apply bind_congr
      rintro ⟨value | value, slots⟩ <;> rfl

def host (row : RowValue) (columns : Columns) : Slots.Host UpdateReplay where
  trim := options.trimText
  step := handle options
  place slots := ⟨some row, slots, columns⟩
  take := takeRow row columns
  step_place := handle_of_value options row columns

theorem run_assignment (a : Assignment) (hsource : ∀ t ∈ a.tokens, t.StandsIn source)
    (columns : Columns) :
    (a.node.events source).foldlM (handle options) ⟨none, [], columns⟩ =
      (checkCalls source a.value.calls >>= fun _ =>
        .ok ⟨none, [], columns.insert (a.entry options).1 (a.entry options).2⟩) := by
  let row : RowValue := ⟨a.column.index, some (unquoteName a.column.text), none⟩
  have henter : handle options ⟨none, [], columns⟩ (a.node.event source .enter) =
      .ok ⟨some ⟨a.column.index, none, none⟩, [], columns⟩ := rfl
  have hname : ((Node.leaf .columnName a.column).events source).foldlM (handle options)
      ⟨some ⟨a.column.index, none, none⟩, [], columns⟩ = .ok ⟨some row, [], columns⟩ := by
    simp only [row]
    rw [← Node.text_leaf .columnName (hsource a.column (by simp [Assignment.tokens]))]
    rfl
  have hvalue : (a.value.node.events source).foldlM (handle options) ⟨some row, [], columns⟩ =
      (checkCalls source a.value.calls >>= fun _ =>
        takeRow row columns (a.value.meaning options.trimText) []) :=
    (host options row columns).run_expression source a.value
      (fun t ht => hsource t (by simp [Assignment.tokens, ht])) []
  have hchildren : Node.eventsAll source a.node.children =
      (Node.leaf .columnName a.column).events source ++ a.value.node.events source := by
    simp [Assignment.node, Node.span, Node.eventsAll]
  rw [Node.foldlm_events, henter, ok_bind, hchildren, List.foldlM_append, hname, ok_bind, hvalue,
    bind_assoc]
  rfl

theorem run_assignments (as : List Assignment)
    (hsource : ∀ a ∈ as, ∀ t ∈ a.tokens, t.StandsIn source) (columns : Columns) :
    (Node.eventsAll source (as.map Assignment.node)).foldlM (handle options)
        ⟨none, [], columns⟩ =
      (checkCalls source (as.flatMap fun a => a.value.calls) >>= fun _ =>
        .ok ⟨none, [], columns.insertAll (as.map (Assignment.entry options))⟩) := by
  induction as generalizing columns with
  | nil => rfl
  | cons a as ih =>
    have hrest := ih (fun b hb => hsource b (by simp [hb]))
      (columns.insert (a.entry options).1 (a.entry options).2)
    rw [List.map_cons, Node.foldlm_events_all_cons,
      run_assignment options source a (hsource a (by simp)), List.flatMap_cons,
      check_calls_append, bind_assoc, bind_assoc]
    simp only [ok_bind, hrest]
    rfl

/-- Without an open row value, what a condition is made of changes nothing. -/
theorem handle_of_condition (r : UpdateReplay) (hrow : r.row = none) (e : Event)
    (he : e.production.isOfCondition = true) : handle options r e = .ok r := by
  obtain ⟨phase, production, tokenIndex, text⟩ := e
  have hskip : ∀ e, takeExpression options r e = .ok r := by
    intro e
    rw [takeExpression, hrow]
  cases production <;> cases he <;> cases phase <;> simp [handle, Slots.accepts, hskip]

theorem run_of_condition (es : List Event) (hes : ∀ e ∈ es, e.production.isOfCondition = true)
    (r : UpdateReplay) (hrow : r.row = none) : es.foldlM (handle options) r = .ok r := by
  induction es with
  | nil => rfl
  | cons e es ih =>
    rw [List.forall_mem_cons] at hes
    rw [List.foldlM_cons, handle_of_condition options r hrow e hes.1, ok_bind, ih hes.2]

theorem run_set_clause (s : Update) (hsource : ∀ t ∈ s.tokens, t.StandsIn source) :
    (s.setNode.events source).foldlM (handle options) start =
      (checkCalls source s.setCalls >>= fun _ => .ok ⟨none, [], s.meaning options⟩) := by
  have hassignments : ∀ a ∈ s.assignments.toList, ∀ t ∈ a.tokens, t.StandsIn source :=
    fun a ha t ht => hsource t (Update.mem_tokens_of_assignment ha ht)
  have hrun := run_assignments options source s.assignments.toList hassignments OrderedMap.empty
  rw [Node.foldlm_events]
  show (Node.eventsAll source (s.assignments.toList.map Assignment.node)).foldlM (handle options)
    ⟨none, [], OrderedMap.empty⟩ >>= _ = _
  rw [hrun, bind_assoc]
  rfl

/-- An `UPDATE` is rebuilt from its assignments alone. -/
theorem run_update (s : Update) (hsource : ∀ t ∈ s.tokens, t.StandsIn source) :
    replayUpdate options (s.node.events source) =
      (checkCalls source s.setCalls >>= fun _ => .ok ⟨none, [], s.meaning options⟩) := by
  have henter : handle options start (s.node.event source .enter) = .ok start := rfl
  have htable : ((tableNode s.table).events source).foldlM (handle options) start = .ok start := rfl
  have hexit : handle options ⟨none, [], s.meaning options⟩ (s.node.event source .exit) =
      .ok ⟨none, [], s.meaning options⟩ := rfl
  have hfilter : (Node.eventsAll source (s.filter.toList.map Filter.node)).foldlM (handle options)
      ⟨none, [], s.meaning options⟩ = .ok ⟨none, [], s.meaning options⟩ := by
    cases s.filter with
    | none => rfl
    | some f =>
      show (Node.eventsAll source [f.node]).foldlM _ _ = _
      rw [Node.foldlm_events_all_singleton]
      exact run_of_condition options _ (f.node_of_condition source) _ rfl
  rw [replayUpdate, Node.foldlm_events, henter, ok_bind]
  show (Node.eventsAll source (tableNode s.table :: s.setNode ::
    s.filter.toList.map Filter.node)).foldlM (handle options) start >>= _ = _
  rw [Node.foldlm_events_all_cons, htable, ok_bind, Node.foldlm_events_all_cons,
    run_set_clause options source s hsource]
  simp only [bind_assoc, ok_bind, hfilter, hexit]

end UpdateReplay

theorem reconstruct_update_eq (options : Options) (source : String) (s : Update)
    (h : Update.read source = .ok s) :
    reconstructUpdate options source =
      match checkCalls source.toList s.setCalls with
      | .ok _ => .ok (s.meaning options)
      | .error error => .error (.replay error) := by
  have hevents : (⟨source.toList, s.node⟩ : ParseTree).events = s.node.events source.toList :=
    ParseTree.events_eq _
  rw [reconstructUpdate, parse_update_eq_ok h]
  simp only [updateColumns, hevents]
  rw [UpdateReplay.run_update options source.toList s (Update.stands_in_of_read h)]
  cases checkCalls source.toList s.setCalls <;> rfl

theorem reconstruct_update_cases (options : Options) (source : String) (s : Update)
    (h : Update.read source = .ok s) :
    (reconstructUpdate options source = .ok (s.meaning options) ∧
        ∀ c ∈ s.setCalls, c.isSupported = true) ∨
      ((∃ text, reconstructUpdate options source =
          .error (.replay (.unsupportedFunction text))) ∧
        ¬∀ c ∈ s.setCalls, c.isSupported = true) := by
  rw [reconstruct_update_eq options source s h, ← check_calls_eq_ok source.toList]
  rcases check_calls_cases source.toList s.setCalls with hok | ⟨text, herror⟩
  · exact Or.inl ⟨by rw [hok], hok⟩
  · exact Or.inr ⟨⟨text, by rw [herror]⟩, by simp [herror]⟩

theorem reconstruct_update_eq_ok {options : Options} {source : String} {columns : Columns}
    (h : reconstructUpdate options source = .ok columns) :
    ∃ s, Update.read source = .ok s ∧ columns = s.meaning options ∧
      ∀ c ∈ s.setCalls, c.isSupported = true := by
  cases hread : Update.read source with
  | error problems =>
    rw [reconstructUpdate, parseUpdate, hread] at h
    cases h
  | ok s =>
    rcases reconstruct_update_cases options source s hread with
      ⟨hok, hsupported⟩ | ⟨⟨text, herror⟩, -⟩
    · rw [hok] at h
      exact ⟨s, rfl, (Except.ok.inj h).symm, hsupported⟩
    · rw [herror] at h
      cases h

end RedoLog
