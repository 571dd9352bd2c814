import RedoLog.Proofs.InsertReplay
import RedoLog.Proofs.Maps
import RedoLog.Proofs.ValueConservation

/-!
# What an INSERT replay holds at every point

Events may reach the replay of an `INSERT` in any order. As long as it takes them, its stage moves
forward by single steps, its queue holds the names behind those that have a value, and its columns
are the names and values that stand at the same place, null left out. At the end of a statement
every name has its value.
-/

set_option autoImplicit false

namespace RedoLog

def Stage.next? : Stage → Option Stage
  | .begin => some .parsingNames
  | .parsingNames => some .parsedNames
  | .parsedNames => some .parsingValues
  | .parsingValues => some .parsedValues
  | .parsedValues => none

def Event.columnName? (e : Event) : Option String :=
  match e.production, e.phase with
  | .columnName, .enter => some (unquoteName e.text)
  | _, _ => none

def announced (es : List Event) : List String :=
  es.filterMap Event.columnName?

theorem announced_concat (es : List Event) (e : Event) :
    announced (es ++ [e]) = announced es ++ e.columnName?.toList := by
  rw [announced, List.filterMap_append]
  cases h : e.columnName? <;> simp [announced, h]

theorem Slots.handle_of_not_accepts {e : Event} (h : Slots.accepts e = false) (trim : Bool)
    (slots : Slots) : Slots.handle trim slots e = .ok (none, slots) := by
  obtain ⟨phase, production, tokenIndex, text⟩ := e
  cases production <;> cases phase <;> first | rfl | cases h

theorem zip_append_of_length_le {α β : Type} {xs : List α} {ys : List β}
    (h : ys.length ≤ xs.length) (zs : List α) : (xs ++ zs).zip ys = xs.zip ys := by
  induction ys generalizing xs with
  | nil => simp
  | cons y ys ih =>
    cases xs with
    | nil => simp at h
    | cons x xs =>
      have hrest := ih (Nat.le_of_succ_le_succ h)
      simp [hrest]

namespace InsertReplay

variable {options : Options}

inductive Step (options : Options) (r : InsertReplay) (e : Event) : InsertReplay → Prop where
  | move (stage : Stage) (hstage : stage = r.stage ∨ r.stage.next? = some stage)
      (hname : e.columnName? = none) (haccepts : Slots.accepts e = false)
      (hends : e.production = .insertStatement → e.phase = .exit → r.names = [] ∧ r.slots = []) :
      Step options r e { r with stage := stage }
  | name (name : String) (hstage : r.stage = .parsingNames) (hname : e.columnName? = some name) :
      Step options r e { r with names := r.names ++ [name] }
  | part (slots : Slots) (hstage : r.stage = .parsingValues) (haccepts : Slots.accepts e = true)
      (h : Slots.handle options.trimText r.slots e = .ok (none, slots)) :
      Step options r e { r with slots := slots }
  | value (value : Value) (name : String) (names : List String) (slots : Slots)
      (hstage : r.stage = .parsingValues) (haccepts : Slots.accepts e = true)
      (hnames : r.names = name :: names)
      (h : Slots.handle options.trimText r.slots e = .ok (some value, slots)) :
      Step options r e
        { r with
          names := names
          slots := slots
          columns := if value.isNull then r.columns else putColumn options r.columns name value }

theorem check_stage_eq_ok {r : InsertReplay} {e : Event} {expected : Stage} {u : Unit}
    (h : r.checkStage e expected = .ok u) : r.stage = expected := by
  unfold checkStage at h
  split at h
  · rename_i hstage
    exact hstage
  · cases h

theorem is_of_value_of_accepts {e : Event} (h : Slots.accepts e = true) :
    e.production.isOfValue = true := by
  obtain ⟨phase, production, tokenIndex, text⟩ := e
  cases production <;> cases phase <;> first | rfl | cases h

theorem stage_of_accepts {r r' : InsertReplay} {e : Event} (haccepts : Slots.accepts e = true)
    (h : handle options r e = .ok r') : r.stage = .parsingValues := by
  obtain ⟨phase, production, tokenIndex, text⟩ := e
  cases production <;> cases phase <;> first
    | (cases haccepts; done)
    | (obtain ⟨u, hcheck, -⟩ := bind_eq_ok h
       exact check_stage_eq_ok hcheck)

theorem step_of_accepts {r r' : InsertReplay} {e : Event} (haccepts : Slots.accepts e = true)
    (h : handle options r e = .ok r') : Step options r e r' := by
  have hstage := stage_of_accepts haccepts h
  have hhandle := handle_of_value options r hstage r.slots e (is_of_value_of_accepts haccepts)
  rw [h] at hhandle
  obtain ⟨⟨value, slots⟩, hslots, h⟩ := bind_eq_ok hhandle.symm
  cases value with
  | none =>
    cases h
    exact .part slots hstage haccepts hslots
  | some value =>
    simp only [Slots.settle, takeValue] at h
    split at h
    · cases h
    · rename_i name names hnames
      cases h
      exact .value value name names slots hstage haccepts hnames hslots

theorem step_of_advance {r r' : InsertReplay} {e : Event} {expected next : Stage}
    (hnext : next = expected ∨ expected.next? = some next) (hname : e.columnName? = none)
    (haccepts : Slots.accepts e = false)
    (hends : e.production = .insertStatement → e.phase = .enter)
    (h : r.advance e expected next = .ok r') : Step options r e r' := by
  obtain ⟨u, hcheck, h⟩ := bind_eq_ok h
  cases h
  rw [← check_stage_eq_ok hcheck] at hnext
  refine .move next hnext hname haccepts fun hproduction hphase => ?_
  rw [hends hproduction] at hphase
  cases hphase

theorem step_of_ok (r : InsertReplay) {e : Event} (hname : e.columnName? = none)
    (haccepts : Slots.accepts e = false) (hends : e.production ≠ .insertStatement) :
    Step options r e r :=
  .move r.stage (Or.inl rfl) hname haccepts fun hproduction => absurd hproduction hends

theorem step_of_end {r r' : InsertReplay} {e : Event} (hname : e.columnName? = none)
    (haccepts : Slots.accepts e = false) (h : r.finish = .ok r') : Step options r e r' := by
  unfold finish at h
  split_ifs at h with hnames hslots
  cases h
  exact .move r.stage (Or.inl rfl) hname haccepts fun _ _ =>
    ⟨Decidable.not_not.mp hnames, Decidable.not_not.mp hslots⟩

theorem step_of_handle {r r' : InsertReplay} {e : Event} (h : handle options r e = .ok r') :
    Step options r e r' := by
  cases haccepts : Slots.accepts e with
  | true => exact step_of_accepts haccepts h
  | false =>
    obtain ⟨phase, production, tokenIndex, text⟩ := e
    cases production with
    | insertStatement =>
      cases phase with
      | enter => exact step_of_advance (Or.inl rfl) rfl haccepts (fun _ => rfl) h
      | exit =>
        obtain ⟨u, -, h⟩ := bind_eq_ok h
        exact step_of_end rfl haccepts h
    | insertIntoClause =>
      cases phase <;> exact step_of_advance (Or.inr rfl) rfl haccepts (by simp) h
    | valuesClause =>
      cases phase <;> exact step_of_advance (Or.inr rfl) rfl haccepts (by simp) h
    | columnName =>
      cases phase with
      | enter =>
        obtain ⟨u, hcheck, h⟩ := bind_eq_ok h
        cases h
        exact .name _ (check_stage_eq_ok hcheck) rfl
      | exit =>
        cases h
        exact step_of_ok r rfl haccepts (by simp)
    | multiTableInsert =>
      cases phase with
      | enter => cases h
      | exit =>
        cases h
        exact step_of_ok r rfl haccepts (by simp)
    | unaryExpression | function => cases haccepts
    | constant | quotedString =>
      cases phase with
      | enter => cases haccepts
      | exit =>
        cases h
        exact step_of_ok r rfl haccepts (by simp)
    | _ =>
      cases phase <;> cases h <;> exact step_of_ok r rfl haccepts (by simp)

theorem column_name_of_accepts {e : Event} (h : Slots.accepts e = true) :
    e.columnName? = none ∧ e.production ≠ .insertStatement := by
  obtain ⟨phase, production, tokenIndex, text⟩ := e
  cases production <;> cases phase <;> first | (cases h; done) | exact ⟨rfl, by simp⟩

theorem accepts_of_column_name {e : Event} {name : String} (h : e.columnName? = some name) :
    Slots.accepts e = false ∧ e.production ≠ .insertStatement := by
  obtain ⟨phase, production, tokenIndex, text⟩ := e
  cases production <;> cases phase <;> first | (cases h; done) | exact ⟨rfl, by simp⟩

/-- How an event moves the stage, and at which stages it may come: a name inside the column list
and the parts of a value inside the row. -/
structure InOrder (before : Stage) (e : Event) (behind : Stage) : Prop where
  moves : behind = before ∨ before.next? = some behind
  name : e.columnName?.isSome = true → before = .parsingNames
  part : Slots.accepts e = true → before = .parsingValues

theorem Step.in_order {r r' : InsertReplay} {e : Event} (h : Step options r e r') :
    InOrder r.stage e r'.stage := by
  cases h with
  | move stage hstage hname haccepts =>
    exact ⟨hstage, by simp [hname], by simp [haccepts]⟩
  | name name hstage hname =>
    exact ⟨Or.inl rfl, fun _ => hstage, by simp [(accepts_of_column_name hname).1]⟩
  | part slots hstage haccepts =>
    exact ⟨Or.inl rfl, by simp [(column_name_of_accepts haccepts).1], fun _ => hstage⟩
  | value value name names slots hstage haccepts =>
    exact ⟨Or.inl rfl, by simp [(column_name_of_accepts haccepts).1], fun _ => hstage⟩

/-- The columns of names and values that stand at the same place, null left out. -/
def pairedColumns (options : Options) (names : List String) (values : List Value) : Columns :=
  OrderedMap.ofEntries
    (((names.map (options.columnPrefix ++ ·)).zip values).filter fun entry => !entry.2.isNull)

/-- What a replay holds behind events, given the values that a fresh stack gives out for them. -/
structure Holds (options : Options) (es : List Event) (values : List Value) (r : InsertReplay) :
    Prop where
  run : Slots.run options.trimText es = .ok ⟨values, r.slots⟩
  length : values.length ≤ (announced es).length
  names : r.names = (announced es).drop values.length
  columns : r.columns = pairedColumns options (announced es) values

theorem paired_columns_append {names : List String} {values : List Value}
    (h : values.length ≤ names.length) (more : List String) :
    pairedColumns options (names ++ more) values = pairedColumns options names values := by
  rw [pairedColumns, List.map_append, zip_append_of_length_le (by simpa using h)]
  rfl

theorem paired_columns_concat {all : List String} {values : List Value} {name : String}
    {names : List String} (h : all.drop values.length = name :: names)
    (hlength : values.length ≤ all.length) (value : Value) :
    pairedColumns options all (values ++ [value]) =
      if value.isNull then pairedColumns options all values
      else putColumn options (pairedColumns options all values) name value := by
  -- The names that have values, then the one that the new value takes.
  let before := all.take values.length
  have hall : all = before ++ name :: names := by rw [← h, List.take_append_drop]
  have hbefore : values.length = before.length := by simp [before, hlength]
  have hpairs : (all.map (options.columnPrefix ++ ·)).zip (values ++ [value]) =
      (all.map (options.columnPrefix ++ ·)).zip values ++
        [(options.columnPrefix ++ name, value)] := by
    have hmap : (before.map (options.columnPrefix ++ ·)).length = values.length := by
      rw [List.length_map, hbefore]
    rw [hall, List.map_append, List.zip_append hmap,
      zip_append_of_length_le (Nat.le_of_eq hmap.symm), List.map_cons, List.zip_cons_cons,
      List.zip_nil_right]
  rw [pairedColumns, hpairs, List.filter_append, OrderedMap.of_entries_append]
  cases hnull : value.isNull <;> simp [hnull, OrderedMap.insertAll, putColumn, pairedColumns]

theorem run_concat_eq {es : List Event} {e : Event} {values : List Value} {slots slots' : Slots}
    {given : Option Value} {trim : Bool} (h : Slots.run trim es = .ok ⟨values, slots⟩)
    (he : Slots.handle trim slots e = .ok (given, slots')) :
    Slots.run trim (es ++ [e]) = .ok ⟨values ++ given.toList, slots'⟩ := by
  rw [Slots.run_concat, h, ok_bind, Slots.Run.step, he]
  rfl

theorem announced_of_unnamed (es : List Event) {e : Event} (h : e.columnName? = none) :
    announced (es ++ [e]) = announced es := by
  rw [announced_concat, h, Option.toList_none, List.append_nil]

theorem Holds.unchanged {es : List Event} {e : Event} {values : List Value} {r : InsertReplay}
    {slots : Slots} (h : Holds options es values r) (hname : e.columnName? = none)
    (he : Slots.handle options.trimText r.slots e = .ok (none, slots)) (stage : Stage) :
    Holds options (es ++ [e]) values { r with stage := stage, slots := slots } where
  run := by simpa using run_concat_eq h.run he
  length := by rw [announced_of_unnamed es hname]; exact h.length
  names := by rw [announced_of_unnamed es hname]; exact h.names
  columns := by rw [announced_of_unnamed es hname]; exact h.columns

theorem Holds.announce {es : List Event} {e : Event} {values : List Value} {r : InsertReplay}
    {name : String} (h : Holds options es values r) (hname : e.columnName? = some name) :
    Holds options (es ++ [e]) values { r with names := r.names ++ [name] } := by
  have hannounced : announced (es ++ [e]) = announced es ++ [name] := by
    rw [announced_concat, hname, Option.toList_some]
  have he := Slots.handle_of_not_accepts (accepts_of_column_name hname).1 options.trimText r.slots
  refine ⟨by simpa using run_concat_eq h.run he, ?_, ?_, ?_⟩
  · rw [hannounced, List.length_append]
    exact Nat.le_add_right_of_le h.length
  · rw [hannounced, List.drop_append_of_le_length h.length, ← h.names]
  · rw [hannounced, paired_columns_append h.length]
    exact h.columns

theorem Holds.complete {es : List Event} {e : Event} {values : List Value} {r : InsertReplay}
    {value : Value} {name : String} {names : List String} {slots : Slots}
    (h : Holds options es values r) (hname : e.columnName? = none)
    (hqueue : r.names = name :: names)
    (he : Slots.handle options.trimText r.slots e = .ok (some value, slots)) :
    Holds options (es ++ [e]) (values ++ [value])
      { r with
        names := names
        slots := slots
        columns :=
          if value.isNull then r.columns else putColumn options r.columns name value } := by
  have hdrop : (announced es).drop values.length = name :: names := by rw [← h.names, hqueue]
  have hless : values.length < (announced es).length := by
    have hcount := congrArg List.length hdrop
    rw [List.length_cons, List.length_drop] at hcount
    omega
  refine ⟨run_concat_eq h.run he, ?_, ?_, ?_⟩
  · rw [announced_of_unnamed es hname, List.length_append]
    exact hless
  · rw [announced_of_unnamed es hname, List.length_append, ← List.drop_drop, hdrop]
    rfl
  · rw [announced_of_unnamed es hname, paired_columns_concat hdrop h.length, ← h.columns]

/-- What is held is kept up by every event, and is complete behind the end of a statement. -/
theorem Holds.step {es : List Event} {e : Event} {values : List Value} {r r' : InsertReplay}
    (h : Holds options es values r) (hstep : Step options r e r') :
    ∃ values', Holds options (es ++ [e]) values' r' ∧
      (e.production = .insertStatement → e.phase = .exit →
        values'.length = (announced (es ++ [e])).length ∧ r'.slots = []) := by
  cases hstep with
  | move stage hstage hname haccepts hends =>
    have he := Slots.handle_of_not_accepts haccepts options.trimText r.slots
    refine ⟨values, h.unchanged hname he stage, fun hproduction hphase => ?_⟩
    -- With an empty queue no name is left behind those that have a value.
    obtain ⟨hempty, hslots⟩ := hends hproduction hphase
    have hcovered : (announced es).drop values.length = [] := by rw [← h.names, hempty]
    rw [announced_of_unnamed es hname]
    exact ⟨Nat.le_antisymm h.length (List.drop_eq_nil_iff.mp hcovered), hslots⟩
  | name name hstage hname =>
    exact ⟨values, h.announce hname, fun hproduction =>
      absurd hproduction (accepts_of_column_name hname).2⟩
  | part slots hstage haccepts hslots =>
    obtain ⟨hname, hends⟩ := column_name_of_accepts haccepts
    exact ⟨values, h.unchanged hname hslots r.stage, fun hproduction => absurd hproduction hends⟩
  | value value name names slots hstage haccepts hqueue hslots =>
    obtain ⟨hname, hends⟩ := column_name_of_accepts haccepts
    exact ⟨values ++ [value], h.complete hname hqueue hslots, fun hproduction =>
      absurd hproduction hends⟩

theorem holds_start (options : Options) : Holds options [] [] start where
  run := rfl
  length := Nat.le_refl _
  names := rfl
  columns := rfl

end InsertReplay

theorem replay_insert_append (options : Options) (es fs : List Event) :
    replayInsert options (es ++ fs) =
      (replayInsert options es >>= fun r => fs.foldlM (InsertReplay.handle options) r) :=
  List.foldlM_append

theorem replay_insert_holds {options : Options} {es : List Event} {r : InsertReplay}
    (h : replayInsert options es = .ok r) :
    ∃ values, InsertReplay.Holds options es values r ∧
      ∀ e ∈ es.getLast?, e.production = .insertStatement → e.phase = .exit →
        values.length = (announced es).length ∧ r.slots = [] := by
  -- By the last event: what is asked of the end concerns it alone, and what is held goes on.
  induction es using List.reverseRecOn generalizing r with
  | nil =>
    cases h
    exact ⟨[], InsertReplay.holds_start options, by simp⟩
  | append_singleton es e ih =>
    rw [replay_insert_append] at h
    obtain ⟨r₁, hbefore, h⟩ := bind_eq_ok h
    obtain ⟨r₂, hhandle, h⟩ := bind_eq_ok h
    cases h
    obtain ⟨values, hholds, -⟩ := ih hbefore
    obtain ⟨values', hholds', hends⟩ := hholds.step (InsertReplay.step_of_handle hhandle)
    refine ⟨values', hholds', ?_⟩
    simpa using hends

/-- At every point of a run that is accepted, the stage has moved on from the first one by single
steps, names and values have come in the clauses they belong to, the values given out so far have
taken the first names, and those that are not null are the columns. Where a statement ends, every
name has its value and no value is open. -/
theorem replay_insert_invariant (options : Options) (es : List Event) (r : InsertReplay)
    (h : replayInsert options es = .ok r) :
    ∀ before behind, es = before ++ behind → ∃ r' values,
      replayInsert options before = .ok r' ∧ InsertReplay.Holds options before values r' ∧
      (before = [] → r'.stage = .begin) ∧
      (∀ e ∈ behind.head?, ∃ r'', replayInsert options (before ++ [e]) = .ok r'' ∧
        InsertReplay.InOrder r'.stage e r''.stage) ∧
      ∀ e ∈ before.getLast?, e.production = .insertStatement → e.phase = .exit →
        values.length = (announced before).length ∧ r'.slots = [] := by
  rintro before behind rfl
  rw [replay_insert_append] at h
  obtain ⟨r', hbefore, hbehind⟩ := bind_eq_ok h
  obtain ⟨values, hholds, hends⟩ := replay_insert_holds hbefore
  refine ⟨r', values, hbefore, hholds, ?_, ?_, hends⟩
  · rintro rfl
    cases hbefore
    rfl
  intro e he
  obtain ⟨rest, rfl⟩ := List.head?_eq_some_iff.mp he
  obtain ⟨r'', hhandle, -⟩ := bind_eq_ok hbehind
  refine ⟨r'', ?_, (InsertReplay.step_of_handle hhandle).in_order⟩
  rw [replay_insert_append, hbefore, ok_bind, List.foldlM_cons, hhandle, ok_bind]
  rfl

def handMadeEvents : List Event :=
  [⟨.enter, .insertIntoClause, 0, ""⟩, ⟨.enter, .columnName, 3, "\"A\""⟩,
    ⟨.enter, .columnName, 1, "B"⟩, ⟨.enter, .columnName, 2, "A"⟩,
    ⟨.exit, .insertIntoClause, 0, ""⟩, ⟨.enter, .valuesClause, 4, ""⟩,
    ⟨.enter, .unaryExpression, 5, ""⟩, ⟨.enter, .constant (.number "1" true), 5, ""⟩,
    ⟨.exit, .unaryExpression, 5, ""⟩, ⟨.enter, .unaryExpression, 6, ""⟩,
    ⟨.exit, .unaryExpression, 6, ""⟩, ⟨.enter, .unaryExpression, 7, ""⟩,
    ⟨.enter, .unaryExpression, 8, ""⟩, ⟨.enter, .quotedString, 9, "'x'"⟩,
    ⟨.exit, .unaryExpression, 7, ""⟩, ⟨.exit, .valuesClause, 4, ""⟩,
    ⟨.exit, .insertStatement, 0, ""⟩]

theorem replay_insert_hand_made_events :
    ∃ r values, replayInsert defaultOptions handMadeEvents = .ok r ∧
      r.columns.entries = [("th2_A", .text "x")] ∧
      InsertReplay.Holds defaultOptions handMadeEvents values r ∧
      values.length = (announced handMadeEvents).length ∧ r.slots = [] := by
  have hends : (replayInsert defaultOptions handMadeEvents).toOption.map
      (fun r => r.columns.entries) = some [("th2_A", .text "x")] := by
    decide +kernel
  obtain ⟨r, hrun, hcolumns⟩ := ok_of_to_option_map hends
  obtain ⟨r', values, hrun', hholds, -, -, hcomplete⟩ :=
    replay_insert_invariant defaultOptions handMadeEvents r hrun handMadeEvents []
      (List.append_nil _).symm
  rw [hrun] at hrun'
  cases hrun'
  exact ⟨r, values, hrun, hcolumns, hholds, hcomplete _ rfl rfl rfl⟩

end RedoLog
