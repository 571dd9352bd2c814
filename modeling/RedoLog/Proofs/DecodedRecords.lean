import RedoLog.Proofs.SavedFields

/-!
# What a record is decoded to

The failures of a record come in order: fields that are missing, then an operation of no known kind,
then a statement that cannot be reconstructed. A record without these keeps its identity, and its
body holds the columns of the statement and the saved fields, and nothing else.
-/

set_option autoImplicit false

namespace RedoLog

theorem eq_filter_of_sublist {α : Type} {xs ys : List α} {p : α → Bool} (hdistinct : ys.Nodup)
    (horder : xs.Sublist ys) (hmem : ∀ a ∈ ys, a ∈ xs ↔ p a = true) : xs = ys.filter p := by
  have hkept : xs.filter p = xs :=
    List.filter_eq_self.mpr fun a ha => (hmem a (horder.subset ha)).mp ha
  have hpart : xs.Sublist (ys.filter p) := by
    rw [← hkept]
    exact horder.filter p
  have hsame : xs.Perm (ys.filter p) := by
    rw [List.perm_ext_iff_of_nodup (horder.nodup hdistinct) (hdistinct.filter p)]
    intro a
    rw [List.mem_filter]
    constructor
    · intro ha
      exact ⟨horder.subset ha, (hmem a (horder.subset ha)).mp ha⟩
    · rintro ⟨ha, hp⟩
      exact (hmem a ha).mpr hp
  exact hpart.eq_of_length hsame.length_eq

namespace Record

def Complete (r : Record) : Prop :=
  ∀ name ∈ requiredFields, r.body.get? name ≠ none

theorem missing_fields_eq_nil_iff (r : Record) : r.missingFields = [] ↔ r.Complete := by
  simp [missingFields, Complete, OrderedMap.contains]

theorem Complete.exists_get {r : Record} (h : r.Complete) (name : String)
    (hname : name ∈ requiredFields) : ∃ value, r.body.get? name = some value :=
  Option.ne_none_iff_exists'.mp (h name hname)

theorem field_text_of_get {r : Record} {name : String} {value : Value}
    (h : r.body.get? name = some value) : r.fieldText name = value.display := by
  unfold fieldText
  rw [h]
  cases value <;> rfl

end Record

namespace Decoder

variable (c : Configuration) (r : Record)

inductive StatementColumns : String → String → Except Failure Columns → Prop where
  | insert (statement : String) :
      StatementColumns "INSERT" statement
        (reconstructInsert ⟨c.columnPrefix, c.trimText⟩ statement)
  | update (statement : String) (hwhole : c.truncateUpdates = false) :
      StatementColumns "UPDATE" statement
        (reconstructUpdate ⟨c.columnPrefix, c.trimText⟩ statement)
  | updateCut (statement : String) (hcut : c.truncateUpdates = true) :
      StatementColumns "UPDATE" statement
        (reconstructUpdate ⟨c.columnPrefix, c.trimText⟩ (truncateFromWhere statement))
  | delete (statement : String) : StatementColumns "DELETE" statement (.ok OrderedMap.empty)
  | unsupported (statement : String) :
      StatementColumns "UNSUPPORTED" statement (.ok OrderedMap.empty)

/-- A body of columns and saved fields. First come the names of the columns, in the order of the
statement, and then those of saved fields that are no columns, in the order of the settings. A name
that is saved has the value of the source, and any other that of its column. -/
structure Merges (columns body : OrderedMap Value) : Prop where
  keys : body.keys = columns.keys ++
    c.saveColumns.names.filter fun name => name ∈ r.body.keys ∧ name ∉ columns.keys
  saved : ∀ name ∈ c.saveColumns.names, ∀ value, r.body.get? name = some value →
    body.get? name = some value
  reconstructed : ∀ name, name ∉ c.saveColumns.names ∨ r.body.get? name = none →
    body.get? name = columns.get? name

inductive DecodesTo : Except Failure Record → Prop where
  | incomplete (absent : List String) (hsome : absent ≠ [])
      (horder : absent.Sublist requiredFields)
      (habsent : ∀ name ∈ requiredFields, name ∈ absent ↔ r.body.get? name = none) :
      DecodesTo (.error (.missingFields absent))
  | unknown (operation : Value) (hcomplete : r.Complete)
      (hoperation : r.body.get? "OPERATION" = some operation)
      (hunknown : operation.display ∉ ["INSERT", "UPDATE", "DELETE", "UNSUPPORTED"]) :
      DecodesTo (.error (.unsupportedOperation operation.display))
  | failed (operation statement : Value) (e : Failure) (hcomplete : r.Complete)
      (hoperation : r.body.get? "OPERATION" = some operation)
      (hstatement : r.body.get? "SQL_REDO" = some statement)
      (hcolumns : StatementColumns c operation.display statement.display (.error e)) :
      DecodesTo (.error e)
  | decoded (operation statement : Value) (columns body : OrderedMap Value)
      (hcomplete : r.Complete) (hoperation : r.body.get? "OPERATION" = some operation)
      (hstatement : r.body.get? "SQL_REDO" = some statement)
      (hcolumns : StatementColumns c operation.display statement.display (.ok columns))
      (hbody : Merges c r columns body) :
      DecodesTo (.ok
        { id := r.id
          eventId := r.eventId
          type := r.type
          metadata := r.metadata
          protocol := "[csv,oracle-log-miner]"
          body := body })

theorem keys_saved_fields (names : List String) :
    (names.filterMap fun name => (r.body.get? name).map fun value => (name, value)).map Prod.fst =
      names.filter fun name => name ∈ r.body.keys := by
  induction names with
  | nil => rfl
  | cons name names ih =>
    have hname := OrderedMap.mem_keys r.body name
    cases h : r.body.get? name with
    | none =>
      rw [h] at hname
      simp [h, ih, hname]
    | some value =>
      rw [h] at hname
      simp [h, ih, hname]

theorem merges_save_fields (columns : OrderedMap Value) :
    Merges c r columns (saveFields c r columns) := by
  constructor
  · have hdistinct := c.saveColumns.distinct.filter fun name => decide (name ∈ r.body.keys)
    rw [← keys_saved_fields] at hdistinct
    rw [saveFields, OrderedMap.keys_insert_all _ _ hdistinct, keys_saved_fields, List.filter_filter]
    simp [and_comm]
  · intro name hname value hvalue
    rw [get_save_fields, savedField?, if_pos hname, hvalue, Option.some_or]
  · intro name hname
    have hunsaved : savedField? c r name = none := by
      rcases hname with hname | hname
      · exact if_neg hname
      · simp [savedField?, hname]
    rw [get_save_fields, hunsaved, Option.none_or]

theorem Merges.unique {columns body body' : OrderedMap Value} (h : Merges c r columns body)
    (h' : Merges c r columns body') : body = body' := by
  apply OrderedMap.eq_of_get (h.keys.trans h'.keys.symm)
  intro name
  by_cases hname : name ∈ c.saveColumns.names
  · cases hvalue : r.body.get? name with
    | none =>
      rw [h.reconstructed name (Or.inr hvalue), h'.reconstructed name (Or.inr hvalue)]
    | some value => rw [h.saved name hname value hvalue, h'.saved name hname value hvalue]
  · rw [h.reconstructed name (Or.inl hname), h'.reconstructed name (Or.inl hname)]

theorem columns_of_complete (hcomplete : r.Complete) {operation statement : Value}
    (hoperation : r.body.get? "OPERATION" = some operation)
    (hstatement : r.body.get? "SQL_REDO" = some statement) :
    (operation.display ∉ ["INSERT", "UPDATE", "DELETE", "UNSUPPORTED"] →
        columns c r = .error (.unsupportedOperation operation.display)) ∧
      ∀ result, StatementColumns c operation.display statement.display result →
        columns c r = result := by
  have hmissing := (Record.missing_fields_eq_nil_iff r).mpr hcomplete
  simp only [columns, hmissing, Record.field_text_of_get hoperation,
    Record.field_text_of_get hstatement, ne_eq, not_true_eq_false, if_false]
  constructor
  · intro hunknown
    simp only [List.mem_cons, List.not_mem_nil, or_false, not_or] at hunknown
    obtain ⟨hinsert, hupdate, hdelete, hunsupported⟩ := hunknown
    simp only [readOperation, Operation.ofName?, hinsert, hupdate, hdelete, hunsupported, if_false]
  · intro result h
    generalize operation.display = name at h
    cases h with
    | insert => rfl
    | update _ hwhole => simp [readOperation, Operation.ofName?, hwhole, Configuration.options]
    | updateCut _ hcut => simp [readOperation, Operation.ofName?, hcut, Configuration.options]
    | delete => rfl
    | unsupported => rfl

theorem exists_statement_columns {name : String}
    (h : name ∈ ["INSERT", "UPDATE", "DELETE", "UNSUPPORTED"]) (statement : String) :
    ∃ result, StatementColumns c name statement result := by
  simp only [List.mem_cons, List.not_mem_nil, or_false] at h
  rcases h with rfl | rfl | rfl | rfl
  · exact ⟨_, .insert statement⟩
  · cases hcut : c.truncateUpdates with
    | false => exact ⟨_, .update statement hcut⟩
    | true => exact ⟨_, .updateCut statement hcut⟩
  · exact ⟨_, .delete statement⟩
  · exact ⟨_, .unsupported statement⟩

theorem decodes_to_of_incomplete (h : ¬r.Complete) : DecodesTo c r (decodeRecord c r) := by
  have hmissing : r.missingFields ≠ [] := mt (Record.missing_fields_eq_nil_iff r).mp h
  have hdecode : decodeRecord c r = .error (.missingFields r.missingFields) := by
    rw [decodeRecord, columns, if_pos hmissing]
  rw [hdecode]
  refine .incomplete r.missingFields hmissing List.filter_sublist fun name hname => ?_
  simp [Record.missingFields, OrderedMap.contains, hname]

theorem decodes_to_of_complete (h : r.Complete) : DecodesTo c r (decodeRecord c r) := by
  obtain ⟨operation, hoperation⟩ := h.exists_get "OPERATION" (by decide)
  obtain ⟨statement, hstatement⟩ := h.exists_get "SQL_REDO" (by decide)
  obtain ⟨hunknown, hknown⟩ := columns_of_complete c r h hoperation hstatement
  by_cases hname : operation.display ∈ ["INSERT", "UPDATE", "DELETE", "UNSUPPORTED"]
  · obtain ⟨result, hresult⟩ := exists_statement_columns c hname statement.display
    have hcolumns := hknown result hresult
    cases result with
    | error e =>
      have hdecode : decodeRecord c r = .error e := by rw [decodeRecord, hcolumns]
      rw [hdecode]
      exact .failed operation statement e h hoperation hstatement hresult
    | ok found =>
      rw [decode_record_of_columns c hcolumns]
      exact .decoded operation statement found _ h hoperation hstatement hresult
        (merges_save_fields c r found)
  · have hdecode : decodeRecord c r = .error (.unsupportedOperation operation.display) := by
      rw [decodeRecord, hunknown hname]
    rw [hdecode]
    exact .unknown operation h hoperation hname

/-- A record is decoded to one result. It lacks fields, or its operation is of no known kind, or its
statement fails, or it is decoded to its own identity with the columns and the saved fields. -/
theorem decode_record_result (result : Except Failure Record) :
    decodeRecord c r = result ↔ DecodesTo c r result := by
  constructor
  · rintro rfl
    by_cases h : r.Complete
    · exact decodes_to_of_complete c r h
    · exact decodes_to_of_incomplete c r h
  · intro h
    cases h with
    | incomplete absent hsome horder habsent =>
      have hmissing : absent = r.missingFields :=
        eq_filter_of_sublist (by decide) horder fun name hname => by
          simp [habsent name hname, OrderedMap.contains]
      rw [hmissing] at hsome ⊢
      rw [decodeRecord, columns, if_pos hsome]
    | unknown operation hcomplete hoperation hunknown =>
      obtain ⟨statement, hstatement⟩ := hcomplete.exists_get "SQL_REDO" (by decide)
      rw [decodeRecord, (columns_of_complete c r hcomplete hoperation hstatement).1 hunknown]
    | failed operation statement e hcomplete hoperation hstatement hcolumns =>
      rw [decodeRecord, (columns_of_complete c r hcomplete hoperation hstatement).2 _ hcolumns]
    | decoded operation statement found body hcomplete hoperation hstatement hcolumns hbody =>
      have hfound := (columns_of_complete c r hcomplete hoperation hstatement).2 _ hcolumns
      rw [decode_record_of_columns c hfound, hbody.unique c r (merges_save_fields c r found)]
      rfl

end Decoder

end RedoLog
