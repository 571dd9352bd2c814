import RedoLog.Proofs.BatchPolicy
import RedoLog.Proofs.InsertReplay
import RedoLog.Proofs.Maps
import RedoLog.Proofs.UpdateReplay

/-!
# Saved fields beside computed ones

The fields that the decoder computes and those that it saves stand in one map, and the saved ones
come in last. A computed field keeps its value unless the source has a field to be saved under its
name. The names of reconstructed columns start with the prefix, so a prefix with which no saved
field of the source starts keeps the two apart.
-/

set_option autoImplicit false

namespace RedoLog

theorem lookup_filter_map {α : Type} (f : String → Option α) (names : List String) (name : String) :
    (names.filterMap fun key => (f key).map fun value => (key, value)).lookup name =
      if name ∈ names then f name else none := by
  induction names with
  | nil => rfl
  | cons key names ih =>
    cases hkey : f key with
    | none =>
      rw [List.filterMap_cons_none (by simp [hkey]), ih]
      by_cases h : name = key
      · simp [h, hkey]
      · simp [h]
    | some value =>
      rw [List.filterMap_cons_some (by rw [hkey]; rfl)]
      by_cases h : name = key
      · simp [h, hkey]
      · rw [lookup_cons_of_ne h, ih]
        simp [h]

theorem prefix_of_reconstruct {kind : StatementKind} {options : Options} {source : String}
    {columns : Columns} (h : reconstruct kind options source = .ok columns)
    {entry : String × Value} (hentry : entry ∈ columns.entries) :
    ∃ column, entry.1 = options.columnPrefix ++ column := by
  cases kind with
  | insert =>
    obtain ⟨s, -, -, -, rfl⟩ := (reconstruct_insert_eq_ok options source columns).mp h
    rcases OrderedMap.mem_entries_insert_all hentry with hmem | hmem
    · cases hmem
    · have hnamed : entry ∈ s.entries options := (List.mem_filter.mp hmem).1
      obtain ⟨column, -, hcolumn⟩ := List.mem_map.mp (List.of_mem_zip hnamed).1
      exact ⟨column, hcolumn.symm⟩
  | update =>
    obtain ⟨s, -, rfl, -⟩ := reconstruct_update_eq_ok h
    rcases OrderedMap.mem_entries_insert_all hentry with hmem | hmem
    · cases hmem
    · obtain ⟨a, -, rfl⟩ := List.mem_map.mp hmem
      exact ⟨unquoteName a.column.text, rfl⟩

namespace Decoder

variable (c : Configuration)

def savedField? (source : Record) (name : String) : Option Value :=
  if name ∈ c.saveColumns.names then source.body.get? name else none

theorem get_save_fields (source : Record) (body : OrderedMap Value) (name : String) :
    (saveFields c source body).get? name =
      (savedField? c source name).or (body.get? name) := by
  rw [saveFields, OrderedMap.get_insert_all, ← List.filterMap_reverse, lookup_filter_map]
  simp only [List.mem_reverse]
  rfl

theorem columns_cases {r : Record} {found : Columns} (h : columns c r = .ok found) :
    (∃ kind source, reconstruct kind c.options source = .ok found) ∨ found = OrderedMap.empty := by
  unfold columns at h
  split at h
  · cases h
  · split at h
    · cases h
    · exact Or.inl ⟨.insert, _, h⟩
    · exact Or.inl ⟨.update, _, h⟩
    · exact Or.inr (Except.ok.inj h).symm
    · exact Or.inr (Except.ok.inj h).symm

theorem prefix_of_columns {r : Record} {found : Columns} (h : columns c r = .ok found)
    {name : String} {value : Value} (hvalue : found.get? name = some value) :
    ∃ column, name = c.columnPrefix ++ column := by
  have hkey : name ∈ found.keys := by
    rw [OrderedMap.mem_keys, hvalue]
    rfl
  obtain ⟨entry, hentry, rfl⟩ := List.mem_map.mp hkey
  rcases columns_cases c h with ⟨kind, source, hfound⟩ | rfl
  · exact prefix_of_reconstruct hfound hentry
  · cases hentry

theorem decode_record_of_columns {r : Record} {found : Columns} (h : columns c r = .ok found) :
    decodeRecord c r =
      .ok { r with protocol := aggregatedProtocol, body := saveFields c r found } := by
  rw [decodeRecord, h]

theorem decode_record_eq_ok {r d : Record} (h : decodeRecord c r = .ok d) :
    ∃ found, columns c r = .ok found ∧ d.body = saveFields c r found := by
  unfold decodeRecord at h
  split at h
  · cases h
  · rename_i found hfound
    cases h
    exact ⟨found, hfound, rfl⟩

theorem get_error_record (r : Record) (e : Failure) :
    ∃ line, FirstLine e.message.toList line ∧
      (errorRecord c r e.summary).body.get? errorField =
        some ((savedField? c r errorField).getD (.text (String.ofList line))) := by
  refine ⟨_, Failure.first_line_spec _, ?_⟩
  have hcomputed : (OrderedMap.empty.insert errorField (Value.text e.summary)).get? errorField =
      some (.text e.summary) := by
    rw [OrderedMap.get_insert, if_pos rfl]
  rw [errorRecord, get_save_fields, hcomputed]
  cases savedField? c r errorField <;> rfl

def Describes (m m' : Message) : Prop :=
  ∀ r e, FailsWith c m r e → ∃ d line, m' = .parsed d ∧ FirstLine e.message.toList line ∧
    d.body.get? "content" =
      some ((savedField? c r "content").getD (.text (String.ofList line)))

theorem describes_outcome (m : Message) : Describes c m ((outcome c m).message c) := by
  intro r e hm
  have hfailed := (outcome_eq_failed_iff c m r e).mpr hm
  obtain ⟨line, hline, hcontent⟩ := get_error_record c r e
  exact ⟨errorRecord c r e.summary, line, by rw [hfailed]; rfl, hline, hcontent⟩

theorem decode_pair (m m' : Message) :
    (decode c [] [m, m']).1 = .ok [(outcome c m).message c, (outcome c m').message c] := by
  have hseveral : ¬∃ m₁ r e, [m, m'] = [m₁] ∧ FailsWith c m₁ r e := by
    rintro ⟨m₁, r, e, hbatch, -⟩
    cases hbatch
  rw [decode_eq_ok c [] hseveral]
  rfl

/-- In a decoded record every reconstructed column has the value that is reconstructed, and in an
error record the description is the first line of the failure, except where the source has a field
to be saved under that name. The names of the columns start with the prefix. -/
theorem decode_computed_fields :
    (∀ r d, decodeRecord c r = .ok d → ∃ found, columns c r = .ok found ∧
        ∀ name value, found.get? name = some value →
          (∃ column, name = c.columnPrefix ++ column) ∧
            d.body.get? name = some ((savedField? c r name).getD value)) ∧
      ∀ warnings batch output, (decode c warnings batch).1 = .ok output →
        List.Forall₂ (Describes c) batch output := by
  constructor
  · intro r d h
    obtain ⟨found, hfound, hbody⟩ := decode_record_eq_ok c h
    refine ⟨found, hfound, fun name value hvalue => ⟨prefix_of_columns c hfound hvalue, ?_⟩⟩
    rw [hbody, get_save_fields, hvalue]
    cases savedField? c r name <;> rfl
  · intro warnings batch output h
    have hseveral : ¬∃ m r e, batch = [m] ∧ FailsWith c m r e := by
      rintro ⟨m, r, e, rfl, hm⟩
      have hfailed := (outcome_eq_failed_iff c m r e).mpr hm
      simp [decode, hfailed] at h
    rw [decode_eq_ok c warnings hseveral] at h
    obtain rfl := Except.ok.inj h
    rw [List.forall₂_map_right_iff, List.forall₂_same]
    exact fun m _ => describes_outcome c m

def bareNames : Configuration :=
  { Configuration.standard with columnPrefix := "" }

def selfNamedRecord : Record :=
  ⟨⟨"oracle", .incoming, 1, []⟩, none, "Row", OrderedMap.empty, "csv",
    OrderedMap.ofEntries
      [("OPERATION", .text "INSERT"),
        ("SQL_REDO", .text "insert into t (OPERATION, NOTE) values ('x', 'y')"),
        ("ROW_ID", .text "AAAR"), ("TIMESTAMP", .text "2024-01-01 00:00:00"),
        ("TABLE_NAME", .text "T")]⟩

def savesContent : Configuration :=
  { Configuration.standard with saveColumns := NameSet.ofNames ["content"] }

def contentRecord : Record :=
  { incompleteRecord with body := OrderedMap.empty.insert "content" (.text "kept") }

theorem columns_self_named_record :
    (columns bareNames selfNamedRecord).toOption.map
        (fun found => (found.get? "NOTE", found.get? "OPERATION")) =
      some (some (.text "y"), some (.text "x")) := by
  decide +kernel

theorem decode_self_named_record :
    (∃ d, decodeRecord bareNames selfNamedRecord = .ok d ∧
        d.body.get? "NOTE" = some (.text "y") ∧
        d.body.get? "OPERATION" = some (.text "INSERT")) ∧
      ∃ output, (decode savesContent [] [.parsed contentRecord, .parsed incompleteRecord]).1 =
          .ok output ∧
        List.Forall₂ (Describes savesContent)
          [.parsed contentRecord, .parsed incompleteRecord] output := by
  constructor
  · obtain ⟨found, hfound, hvalues⟩ := ok_of_to_option_map columns_self_named_record
    obtain ⟨hnote, hoperation⟩ := Prod.mk.inj hvalues
    have hdecode := decode_record_of_columns bareNames hfound
    obtain ⟨found', hfound', hfields⟩ := (decode_computed_fields bareNames).1 _ _ hdecode
    obtain rfl := Except.ok.inj (hfound.symm.trans hfound')
    have hunsaved : savedField? bareNames selfNamedRecord "NOTE" = none := by decide +kernel
    have hsaved : savedField? bareNames selfNamedRecord "OPERATION" = some (.text "INSERT") := by
      decide +kernel
    refine ⟨_, hdecode, ?_, ?_⟩
    · rw [(hfields "NOTE" _ hnote).2, hunsaved]
      rfl
    · rw [(hfields "OPERATION" _ hoperation).2, hsaved]
      rfl
  · have hdecode := decode_pair savesContent (.parsed contentRecord) (.parsed incompleteRecord)
    exact ⟨_, hdecode, (decode_computed_fields savesContent).2 [] _ _ hdecode⟩

/-- A saved field replaces the column of its name, and the description of a failure. -/
theorem decode_overwrites :
    (∃ found d, columns bareNames selfNamedRecord = .ok found ∧
        decodeRecord bareNames selfNamedRecord = .ok d ∧
        found.get? "OPERATION" = some (.text "x") ∧
        d.body.get? "OPERATION" = some (.text "INSERT")) ∧
      ∃ e output, FailsWith savesContent (.parsed contentRecord) contentRecord e ∧
        e.summary ≠ "kept" ∧
        (decode savesContent [] [.parsed contentRecord, .parsed incompleteRecord]).1 =
          .ok output ∧
        ∃ d, output.head? = some (.parsed d) ∧ d.body.get? "content" = some (.text "kept") := by
  constructor
  · obtain ⟨found, hfound, hvalues⟩ := ok_of_to_option_map columns_self_named_record
    obtain ⟨-, hoperation⟩ := Prod.mk.inj hvalues
    have hsaved : savedField? bareNames selfNamedRecord "OPERATION" = some (.text "INSERT") := by
      decide +kernel
    refine ⟨found, _, hfound, decode_record_of_columns bareNames hfound, hoperation, ?_⟩
    rw [get_save_fields, hsaved]
    rfl
  · have hfails : FailsWith savesContent (.parsed contentRecord) contentRecord
        (.missingFields ["OPERATION", "SQL_REDO", "ROW_ID", "TIMESTAMP", "TABLE_NAME"]) :=
      ⟨rfl, by decide +kernel, error_of_failure (by decide +kernel)⟩
    have hfailed := (outcome_eq_failed_iff savesContent _ _ _).mpr hfails
    have hsaved : savedField? savesContent contentRecord errorField = some (.text "kept") := by
      decide +kernel
    obtain ⟨line, -, hcontent⟩ := get_error_record savesContent contentRecord
      (.missingFields ["OPERATION", "SQL_REDO", "ROW_ID", "TIMESTAMP", "TABLE_NAME"])
    rw [hsaved] at hcontent
    refine ⟨_, _, hfails, by decide +kernel, decode_pair savesContent _ _, ?_⟩
    rw [hfailed]
    exact ⟨_, rfl, hcontent⟩

end Decoder

end RedoLog
