import RedoLog.Proofs.Chains
import RedoLog.Proofs.ExpressionReplay
import RedoLog.Proofs.ReadSource
import RedoLog.Reconstruct

/-!
# Replaying an INSERT

The names of the column list fill the queue, each value of the row takes the name at its head, and
at the end the queue has to be empty. So a row is rebuilt exactly if it has as many values as names
and calls only supported functions, and its columns are those that the statement says.
-/

set_option autoImplicit false

namespace RedoLog

namespace InsertReplay

variable (options : Options) (source : List Char)

theorem handle_of_value (r : InsertReplay) (hstage : r.stage = .parsingValues) (slots : Slots)
    (e : Event) (he : e.production.isOfValue = true) :
    handle options { r with slots := slots } e =
      (Slots.handle options.trimText slots e >>=
        Slots.settle (fun slots => { r with slots := slots })
          fun value slots => takeValue options { r with slots := slots } value) := by
  obtain ⟨phase, production, tokenIndex, text⟩ := e
  have hcheck : ∀ e, checkStage { r with slots := slots } e .parsingValues = .ok () :=
    fun e => if_pos hstage
  cases production <;> cases he <;> cases phase <;>
    simp only [handle, Slots.accepts, hcheck, ok_bind, if_true] <;>
    first
    | rfl
    | apply bind_congr
      rintro ⟨value | value, slots⟩ <;> rfl

def host (r : InsertReplay) (hstage : r.stage = .parsingValues) : Slots.Host InsertReplay where
  trim := options.trimText
  step := handle options
  place slots := { r with slots := slots }
  take value slots := takeValue options { r with slots := slots } value
  step_place := handle_of_value options r hstage

def takeExpression (r : InsertReplay) (e : Expression) : Except ReplayError InsertReplay := do
  checkCalls source e.calls
  takeValue options r (e.meaning options.trimText)

theorem take_value_kept {r r' : InsertReplay} {value : Value}
    (h : takeValue options r value = .ok r') : r'.stage = r.stage ∧ r'.slots = r.slots := by
  unfold takeValue at h
  split at h
  · simp at h
  · cases h
    exact ⟨rfl, rfl⟩

theorem run_value (r : InsertReplay) (hstage : r.stage = .parsingValues) (hslots : r.slots = [])
    (e : Expression) (hsource : ∀ t ∈ e.tokens, t.StandsIn source) :
    (e.node.events source).foldlM (handle options) r = takeExpression options source r e := by
  have hrun := (host options r hstage).run_expression source e hsource []
  have hplace : (host options r hstage).place [] = r := by
    cases r
    cases hslots
    rfl
  rw [hplace] at hrun
  have htake : takeValue options { r with slots := [] } (e.meaning options.trimText) =
      takeValue options r (e.meaning options.trimText) :=
    congrArg (fun r => takeValue options r (e.meaning options.trimText)) hplace
  rw [takeExpression, ← htake]
  exact hrun

theorem run_row (es : Chain Expression)
    (hsource : ∀ t ∈ Expression.argumentTokens es, t.StandsIn source) (r : InsertReplay)
    (hstage : r.stage = .parsingValues) (hslots : r.slots = []) :
    (Node.eventsAll source (Expression.argumentNodes es)).foldlM (handle options) r =
      es.toList.foldlM (takeExpression options source) r := by
  induction es generalizing r with
  | last e =>
    rw [Expression.argumentNodes, Node.foldlm_events_all_singleton,
      run_value options source r hstage hslots e hsource]
    simp [Chain.toList]
  | next e comma rest ih =>
    have he : ∀ t ∈ e.tokens, t.StandsIn source :=
      fun t ht => hsource t (by simp [Expression.argumentTokens, ht])
    have hrest : ∀ t ∈ Expression.argumentTokens rest, t.StandsIn source :=
      fun t ht => hsource t (by simp [Expression.argumentTokens, ht])
    rw [Expression.argumentNodes, Node.foldlm_events_all_cons,
      run_value options source r hstage hslots e he, Chain.toList, List.foldlM_cons]
    cases htake : takeExpression options source r e with
    | error error => rfl
    | ok r' =>
      obtain ⟨-, -, htaken⟩ := bind_eq_ok htake
      obtain ⟨hstage', hslots'⟩ := take_value_kept options htaken
      rw [ok_bind, ok_bind]
      exact ih hrest r' (hstage'.trans hstage) (hslots'.trans hslots)

theorem run_names (ts : List Token) (hsource : ∀ t ∈ ts, t.StandsIn source) (names : List String)
    (slots : Slots) (columns : Columns) :
    (Node.eventsAll source (ts.map (Node.leaf .columnName))).foldlM (handle options)
        ⟨.parsingNames, names, slots, columns⟩ =
      .ok ⟨.parsingNames, names ++ ts.map fun t => unquoteName t.text, slots, columns⟩ := by
  induction ts generalizing names with
  | nil => simp [Node.eventsAll, pure, Except.pure]
  | cons t ts ih =>
    have htext := Node.text_leaf .columnName (hsource t (by simp))
    have hname : ((Node.leaf .columnName t).events source).foldlM (handle options)
        ⟨.parsingNames, names, slots, columns⟩ =
          .ok ⟨.parsingNames, names ++ [unquoteName t.text], slots, columns⟩ := by
      rw [← htext]
      rfl
    rw [List.map_cons, Node.foldlm_events_all_cons, hname, ok_bind,
      ih fun u hu => hsource u (by simp [hu])]
    simp

theorem run_into (s : RowInsert) (hsource : ∀ t ∈ s.tokens, t.StandsIn source) :
    (s.intoNode.events source).foldlM (handle options) start =
      .ok ⟨.parsedNames, s.columnNames, [], OrderedMap.empty⟩ := by
  have htable : ∀ r, ((tableNode s.table).events source).foldlM (handle options) r = .ok r :=
    fun r => rfl
  cases hcolumns : s.columns with
  | none =>
    rw [Node.foldlm_events, RowInsert.intoNode, RowInsert.columnNames, hcolumns]
    rfl
  | some c =>
    have hnames : ∀ t ∈ c.names.toList, t.StandsIn source := by
      intro t ht
      apply hsource
      have hmem : t ∈ c.names.tokens fun t => [t] :=
        Chain.mem_tokens_of_mem ht (List.mem_singleton.mpr rfl)
      simp [RowInsert.tokens, hcolumns, ColumnList.tokens, hmem]
    have hrun := run_names options source c.names.toList hnames [] [] OrderedMap.empty
    rw [Node.foldlm_events, RowInsert.intoNode, RowInsert.columnNames, hcolumns]
    simp only [Node.span, Node.foldlm_events_all_cons, htable, ok_bind]
    show (Node.eventsAll source (c.names.toList.map (Node.leaf .columnName))).foldlM
      (handle options) ⟨.parsingNames, [], [], OrderedMap.empty⟩ >>= _ = _
    rw [hrun]
    rfl

theorem take_expressions_kept {es : List Expression} {r r' : InsertReplay}
    (h : es.foldlM (takeExpression options source) r = .ok r') :
    r'.stage = r.stage ∧ r'.slots = r.slots := by
  induction es generalizing r with
  | nil =>
    cases h
    exact ⟨rfl, rfl⟩
  | cons e es ih =>
    obtain ⟨r₁, hfirst, hrest⟩ := bind_eq_ok h
    obtain ⟨-, -, htaken⟩ := bind_eq_ok hfirst
    have hkept := take_value_kept options htaken
    exact ⟨(ih hrest).1.trans hkept.1, (ih hrest).2.trans hkept.2⟩

theorem run_values (s : RowInsert)
    (hsource : ∀ t ∈ Expression.argumentTokens s.row, t.StandsIn source) (names : List String)
    (columns : Columns) :
    (s.valuesNode.events source).foldlM (handle options) ⟨.parsedNames, names, [], columns⟩ =
      (do
        let r ← s.row.toList.foldlM (takeExpression options source)
          ⟨.parsingValues, names, [], columns⟩
        return { r with stage := .parsedValues }) := by
  have henter : handle options ⟨.parsedNames, names, [], columns⟩
      (s.valuesNode.event source .enter) = .ok ⟨.parsingValues, names, [], columns⟩ := rfl
  have hexit : ∀ r, r.stage = .parsingValues →
      handle options r (s.valuesNode.event source .exit) =
        .ok { r with stage := .parsedValues } := by
    rintro ⟨_, _, _, _⟩ rfl
    rfl
  have hrow := run_row options source s.row hsource ⟨.parsingValues, names, [], columns⟩ rfl rfl
  rw [Node.foldlm_events, henter, ok_bind]
  show (Node.eventsAll source (Expression.argumentNodes s.row)).foldlM (handle options)
    ⟨.parsingValues, names, [], columns⟩ >>= _ = _
  rw [hrow]
  cases htake : s.row.toList.foldlM (takeExpression options source)
      ⟨.parsingValues, names, [], columns⟩ with
  | error error => rfl
  | ok r => exact hexit r (take_expressions_kept options source htake).1

/-- A row is rebuilt by taking its values one after the other with the names of the column list. -/
theorem run_row_insert (s : RowInsert) (hsource : ∀ t ∈ s.tokens, t.StandsIn source) :
    replayInsert options (s.node.events source) =
      (do
        let r ← s.row.toList.foldlM (takeExpression options source)
          ⟨.parsingValues, s.columnNames, [], OrderedMap.empty⟩
        finish { r with stage := .parsedValues }) := by
  have henter : handle options start (s.node.event source .enter) = .ok start := rfl
  have hexit : ∀ r : InsertReplay, handle options { r with stage := .parsedValues }
      (s.node.event source .exit) = finish { r with stage := .parsedValues } := fun r => rfl
  have hchildren : Node.eventsAll source s.node.children =
      s.intoNode.events source ++ s.valuesNode.events source := by
    simp [RowInsert.node, Node.span, Node.eventsAll]
  have hrow : ∀ t ∈ Expression.argumentTokens s.row, t.StandsIn source :=
    fun t ht => hsource t (by simp [RowInsert.tokens, ht])
  rw [replayInsert, Node.foldlm_events, henter, ok_bind, hchildren, List.foldlM_append,
    run_into options source s hsource, ok_bind, run_values options source s hrow, bind_assoc]
  simp only [pure_bind, hexit]

/-- A value is taken if a name is left for it and its calls are supported. -/
theorem take_expression_eq_ok (r r' : InsertReplay) (e : Expression) :
    takeExpression options source r e = .ok r' ↔
      (∀ c ∈ e.calls, c.isSupported = true) ∧ ∃ name names, r.names = name :: names ∧
        r' = { r with
          names := names
          columns := if (e.meaning options.trimText).isNull then r.columns
            else putColumn options r.columns name (e.meaning options.trimText) } := by
  rw [← check_calls_eq_ok source, takeExpression]
  cases hcheck : checkCalls source e.calls with
  | error error => simp
  | ok _ =>
    rw [ok_bind, takeValue]
    cases hnames : r.names with
    | nil => simp
    | cons name names =>
      constructor
      · intro h
        cases h
        exact ⟨rfl, name, names, rfl, rfl⟩
      · rintro ⟨-, name', names', hcons, rfl⟩
        cases hcons
        rfl

def behind (r : InsertReplay) (es : List Expression) : InsertReplay :=
  { r with
    names := r.names.drop es.length
    columns := r.columns.insertAll
      (((r.names.map (options.columnPrefix ++ ·)).zip
        (es.map (Expression.meaning options.trimText))).filter fun entry => !entry.2.isNull) }

theorem behind_cons (r : InsertReplay) (name : String) (names : List String) (e : Expression)
    (es : List Expression) (hnames : r.names = name :: names) :
    behind options r (e :: es) =
      behind options
        { r with
          names := names
          columns := if (e.meaning options.trimText).isNull then r.columns
            else putColumn options r.columns name (e.meaning options.trimText) } es := by
  cases hnull : (e.meaning options.trimText).isNull <;>
    simp [behind, hnames, hnull, OrderedMap.insertAll, putColumn]

theorem take_expressions_eq_ok (es : List Expression) (r r' : InsertReplay) :
    es.foldlM (takeExpression options source) r = .ok r' ↔
      (∀ e ∈ es, ∀ c ∈ e.calls, c.isSupported = true) ∧ es.length ≤ r.names.length ∧
        r' = behind options r es := by
  induction es generalizing r with
  | nil =>
    have hbehind : behind options r [] = r := by simp [behind, OrderedMap.insertAll]
    rw [hbehind]
    constructor
    · intro h
      cases h
      simp
    · rintro ⟨-, -, rfl⟩
      rfl
  | cons e es ih =>
    rw [List.foldlM_cons, List.forall_mem_cons]
    constructor
    · intro h
      obtain ⟨r₁, hfirst, hrest⟩ := bind_eq_ok h
      obtain ⟨hcalls, name, names, hnames, rfl⟩ :=
        (take_expression_eq_ok options source r r₁ e).mp hfirst
      obtain ⟨hmore, hlength, rfl⟩ := (ih _).mp hrest
      exact ⟨⟨hcalls, hmore⟩, by simpa [hnames] using hlength,
        (behind_cons options r name names e es hnames).symm⟩
    · rintro ⟨⟨hcalls, hmore⟩, hlength, rfl⟩
      cases hnames : r.names with
      | nil => simp [hnames] at hlength
      | cons name names =>
        have hfirst := (take_expression_eq_ok options source r _ e).mpr
          ⟨hcalls, name, names, hnames, rfl⟩
        rw [hfirst, ok_bind, ih, behind_cons options r name names e es hnames]
        exact ⟨hmore, by simpa [hnames] using hlength, rfl⟩

theorem run_several (insert word : Token) (rest : List Token) :
    ∃ text, replayInsert options ((Insert.several insert word rest).node.events source) =
      .error (.unsupportedMultiTableInsert text) := by
  refine ⟨(Node.span .multiTableInsert word (rest.getLast?.getD word) []).text source, ?_⟩
  rw [replayInsert, Node.foldlm_events]
  rfl

end InsertReplay

theorem replay_insert_eq_ok (options : Options) (source : List Char) (s : RowInsert)
    (hsource : ∀ t ∈ s.tokens, t.StandsIn source) (r : InsertReplay) :
    replayInsert options (s.node.events source) = .ok r ↔
      s.columnNames.length = s.row.toList.length ∧
        (∀ c ∈ Expression.argumentCalls s.row, c.isSupported = true) ∧
        r = ⟨.parsedValues, [], [], s.meaning options⟩ := by
  have hentries : (InsertReplay.behind options
      ⟨.parsingValues, s.columnNames, [], OrderedMap.empty⟩ s.row.toList).columns =
        s.meaning options := rfl
  have hnames : (InsertReplay.behind options
      ⟨.parsingValues, s.columnNames, [], OrderedMap.empty⟩ s.row.toList).names =
        s.columnNames.drop s.row.toList.length := rfl
  rw [InsertReplay.run_row_insert options source s hsource, Expression.argument_calls_eq_flat_map,
    List.forall_mem_flatMap]
  constructor
  · intro h
    obtain ⟨r₁, htaken, hfinish⟩ := bind_eq_ok h
    obtain ⟨hcalls, hlength, rfl⟩ :=
      (InsertReplay.take_expressions_eq_ok options source _ _ _).mp htaken
    rw [InsertReplay.finish] at hfinish
    split_ifs at hfinish with hleft hslots
    have hdrop : s.columnNames.drop s.row.toList.length = [] := Decidable.not_not.mp hleft
    cases hfinish
    have hle := List.drop_eq_nil_iff.mp hdrop
    rw [hnames, hdrop]
    exact ⟨Nat.le_antisymm hle hlength, hcalls, rfl⟩
  · rintro ⟨hlength, hcalls, rfl⟩
    have htaken := (InsertReplay.take_expressions_eq_ok options source s.row.toList
      ⟨.parsingValues, s.columnNames, [], OrderedMap.empty⟩ _).mpr
        ⟨hcalls, Nat.le_of_eq hlength.symm, rfl⟩
    rw [htaken, ok_bind, InsertReplay.finish, hnames, ← hlength, List.drop_length]
    rfl

/-- Columns come from one row that is read, with as many values as names, whose calls are all
supported. -/
theorem reconstruct_insert_eq_ok (options : Options) (source : String) (columns : Columns) :
    reconstructInsert options source = .ok columns ↔
      ∃ s, Insert.read source = .ok (.row s) ∧ s.columnNames.length = s.row.toList.length ∧
        (∀ c ∈ Expression.argumentCalls s.row, c.isSupported = true) ∧
        columns = s.meaning options := by
  cases hread : Insert.read source with
  | error problems => simp [reconstructInsert, parseInsert, hread, Except.map]
  | ok i =>
    have hevents : (⟨source.toList, i.node⟩ : ParseTree).events = i.node.events source.toList :=
      ParseTree.events_eq _
    rw [reconstructInsert, parse_insert_eq_ok hread]
    simp only [insertColumns, hevents]
    cases i with
    | several insert word rest =>
      obtain ⟨text, hrun⟩ := InsertReplay.run_several options source.toList insert word rest
      simp [hrun]
    | row s =>
      have hreplay := replay_insert_eq_ok options source.toList s (Insert.stands_in_of_read hread)
      constructor
      · intro h
        cases hrun : replayInsert options ((Insert.row s).node.events source.toList) with
        | error error => simp [hrun] at h
        | ok r =>
          rw [hrun] at h
          obtain ⟨hlength, hcalls, rfl⟩ := (hreplay r).mp hrun
          exact ⟨s, rfl, hlength, hcalls, (Except.ok.inj h).symm⟩
      · rintro ⟨s', hs', hlength, hcalls, rfl⟩
        obtain rfl := Insert.row.inj (Except.ok.inj hs')
        have hrun : replayInsert options ((Insert.row s).node.events source.toList) = _ :=
          (hreplay _).mpr ⟨hlength, hcalls, rfl⟩
        rw [hrun]

/-- A row is rebuilt exactly if every value has a name and every name a value, and only supported
functions are called. What is rebuilt is what the statement says. -/
theorem reconstruct_insert_row (options : Options) (source : String) (s : RowInsert)
    (h : Insert.read source = .ok (.row s)) :
    ((∃ columns, reconstructInsert options source = .ok columns) ↔
      s.columnNames.length = s.row.toList.length ∧
        ∀ c ∈ Expression.argumentCalls s.row, c.isSupported = true) ∧
      ∀ columns, reconstructInsert options source = .ok columns → columns = s.meaning options := by
  have hreplay := replay_insert_eq_ok options source.toList s (Insert.stands_in_of_read h)
  have hevents : (⟨source.toList, (Insert.row s).node⟩ : ParseTree).events =
      s.node.events source.toList := ParseTree.events_eq _
  rw [reconstructInsert, parse_insert_eq_ok h]
  simp only [insertColumns, hevents]
  cases hrun : replayInsert options (s.node.events source.toList) with
  | error error =>
    refine ⟨⟨fun hcolumns => by simp at hcolumns, ?_⟩, by simp⟩
    rintro ⟨hlength, hcalls⟩
    have hok := (hreplay _).mpr ⟨hlength, hcalls, rfl⟩
    rw [hok] at hrun
    cases hrun
  | ok r =>
    obtain ⟨hlength, hcalls, rfl⟩ := (hreplay r).mp hrun
    refine ⟨⟨fun _ => ⟨hlength, hcalls⟩, fun _ => ⟨_, rfl⟩⟩, ?_⟩
    intro columns hcolumns
    cases hcolumns
    rfl

def rowWithCall : String :=
  "insert into T(A,\"b\",A) values (to_date(('x'),NULL),null,(-12))"

theorem reconstruct_insert_row_with_call :
    ∃ s, Insert.read rowWithCall = .ok (.row s) ∧
      s.meaning defaultOptions = OrderedMap.ofEntries [("th2_A", .integer (-12))] := by
  have hnesting : (Insert.read rowWithCall).toOption.map Insert.nesting = some 3 := by
    decide +kernel
  have hentries : (reconstructInsert defaultOptions rowWithCall).toOption.map (·.entries) =
      some [("th2_A", .integer (-12))] := by decide +kernel
  obtain ⟨i, hread, hlevels⟩ := ok_of_to_option_map hnesting
  obtain ⟨columns, hcolumns, hvalues⟩ := ok_of_to_option_map hentries
  cases i with
  | several insert word rest => cases hlevels
  | row s =>
    have hrow := reconstruct_insert_row defaultOptions rowWithCall s hread
    rw [hrow.2 columns hcolumns] at hvalues
    exact ⟨s, hread, OrderedMap.ext hvalues⟩

end RedoLog
