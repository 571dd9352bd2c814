import RedoLog.Proofs.InsertReplay
import RedoLog.Proofs.LiteralTexts
import RedoLog.Proofs.Maps
import RedoLog.Proofs.UpdateReplay

/-!
# Columns that a source states

Both statements state columns: each is the token of a name and an expression. What is rebuilt from a
source are the entries of the columns that it states, and only an `INSERT` leaves some of them out.
The name of an entry is that of its token without one layer of quotes. So a quoted name that holds
quotes comes out with each of them doubled, as it is written.
-/

set_option autoImplicit false

namespace RedoLog

structure StatedColumn where
  name : Token
  value : Expression

namespace StatedColumn

def entry (options : Options) (c : StatedColumn) : String × Value :=
  (options.columnPrefix ++ unquoteName c.name.text, c.value.meaning options.trimText)

structure StandsAmong (ts : List Token) (c : StatedColumn) : Prop where
  name : c.name ∈ ts
  isName : c.name.kind.isName = true
  value : ∀ t ∈ c.value.tokens, t ∈ ts
  wellFormed : c.value.WellFormed

end StatedColumn

def RowInsert.stated (s : RowInsert) : List StatedColumn :=
  match s.columns with
  | none => []
  | some c => (c.names.toList.zip s.row.toList).map fun p => ⟨p.1, p.2⟩

def Update.stated (s : Update) : List StatedColumn :=
  s.assignments.toList.map fun a => ⟨a.column, a.value⟩

/-- A source states columns if it is read as a statement that holds them. Of an `INSERT`, the names
and the values are equally many. -/
inductive States : StatementKind → String → List StatedColumn → Prop where
  | insert {source : String} {s : RowInsert} (hread : Insert.read source = .ok (.row s))
      (hlength : s.columnNames.length = s.row.toList.length) : States .insert source s.stated
  | update {source : String} {s : Update} (hread : Update.read source = .ok s) :
      States .update source s.stated

def StatementKind.keeps (kind : StatementKind) (value : Value) : Bool :=
  match kind with
  | .insert => !value.isNull
  | .update => true

def statedColumns (kind : StatementKind) (options : Options) (cs : List StatedColumn) : Columns :=
  OrderedMap.ofEntries
    ((cs.map (StatedColumn.entry options)).filter fun entry => kind.keeps entry.2)

theorem RowInsert.entries_eq_stated (options : Options) (s : RowInsert) :
    s.entries options = s.stated.map (StatedColumn.entry options) := by
  cases hcolumns : s.columns with
  | none => simp [entries, columnNames, stated, hcolumns]
  | some c =>
    simp only [entries, columnNames, stated, hcolumns, List.map_map, List.zip_map]
    rfl

theorem RowInsert.meaning_eq_stated (options : Options) (s : RowInsert) :
    s.meaning options = statedColumns .insert options s.stated := by
  rw [meaning, entries_eq_stated]
  rfl

theorem Update.meaning_eq_stated (options : Options) (s : Update) :
    s.meaning options = statedColumns .update options s.stated := by
  have hall : ((s.stated.map (StatedColumn.entry options)).filter fun entry =>
      StatementKind.update.keeps entry.2) = s.stated.map (StatedColumn.entry options) :=
    List.filter_eq_self.mpr fun _ _ => rfl
  rw [meaning, statedColumns, hall, stated, List.map_map]
  rfl

theorem reconstruct_stated {kind : StatementKind} {options : Options} {source : String}
    {columns : Columns} (h : reconstruct kind options source = .ok columns) :
    ∃ cs, States kind source cs ∧ columns = statedColumns kind options cs := by
  cases kind with
  | insert =>
    obtain ⟨s, hread, hlength, -, rfl⟩ := (reconstruct_insert_eq_ok options source columns).mp h
    exact ⟨s.stated, .insert hread hlength, s.meaning_eq_stated options⟩
  | update =>
    obtain ⟨s, hread, rfl, -⟩ := reconstruct_update_eq_ok h
    exact ⟨s.stated, .update hread, s.meaning_eq_stated options⟩

theorem RowInsert.stands_among {s : RowInsert} (hs : s.WellFormed) :
    ∀ c ∈ s.stated, c.StandsAmong s.tokens := by
  obtain ⟨-, -, -, hlist, -, -, hrow, -, -⟩ := hs
  intro c hc
  cases hcolumns : s.columns with
  | none => simp [stated, hcolumns] at hc
  | some columns =>
    simp only [stated, hcolumns, List.mem_map] at hc
    obtain ⟨⟨name, e⟩, hmem, rfl⟩ := hc
    obtain ⟨hname, he⟩ := List.of_mem_zip hmem
    obtain ⟨-, hnames, -, -⟩ := hlist columns hcolumns
    have hvalues := ((Expression.arguments_well_formed_iff s.row).mp hrow).1
    have hnameToken : name ∈ columns.names.tokens fun t => [t] :=
      Chain.mem_tokens_of_mem hname (List.mem_singleton_self _)
    exact ⟨by simp [RowInsert.tokens, hcolumns, ColumnList.tokens, hnameToken], hnames name hname,
      fun t ht => mem_tokens_of_value he ht, hvalues e he⟩

theorem Update.stands_among {s : Update} (hs : s.WellFormed) :
    ∀ c ∈ s.stated, c.StandsAmong s.tokens := by
  intro c hc
  obtain ⟨a, ha, rfl⟩ := List.mem_map.mp hc
  obtain ⟨hname, -, hvalue⟩ := hs.assignment ha
  exact ⟨mem_tokens_of_assignment ha (by simp [Assignment.tokens]), hname,
    fun t ht => mem_tokens_of_assignment ha (by simp [Assignment.tokens, ht]), hvalue⟩

theorem States.stands_among {kind : StatementKind} {source : String} {cs : List StatedColumn}
    (h : States kind source cs) :
    ∃ ts, Lexer.lex source.toList = .ok ts ∧ ∀ c ∈ cs, c.StandsAmong ts := by
  cases h with
  | insert hread =>
    obtain ⟨hlex, hs, -⟩ := Insert.read_eq_ok hread
    exact ⟨_, hlex, RowInsert.stands_among hs⟩
  | update hread =>
    obtain ⟨hlex, hs, -⟩ := Update.read_eq_ok hread
    exact ⟨_, hlex, Update.stands_among hs⟩

theorem unquote_name_write_name (name : String) :
    unquoteName (String.ofList (writeName name)) =
      String.ofList (Text.doubleQuotes '"' name.toList) := by
  rw [unquoteName, String.toList_ofList, writeName, Text.strip_quotes_quoted]

/-- A quoted name is one token, and every column name between quotes is the token of one name. The
column is rebuilt under this name with its quotes doubled, which is the name itself exactly if it
holds none. -/
theorem reconstruct_quoted_names (name : String) {kind : StatementKind} {options : Options}
    {source : String} {columns : Columns} (h : reconstruct kind options source = .ok columns) :
    tokenize (String.ofList (writeName name)) =
        .ok [⟨.quotedName, 0, 0, String.ofList (writeName name)⟩,
          Lexer.endToken (writeName name) 1] ∧
      ∃ cs, States kind source cs ∧ columns = statedColumns kind options cs ∧
        ∀ c ∈ cs,
          (c.name.kind = .quotedName → ∃ s : String, c.name.text = String.ofList (writeName s)) ∧
            (kind.keeps (c.entry options).2 = true → (c.entry options).1 ∈ columns.keys) ∧
            (c.name.text = String.ofList (writeName name) →
              (c.entry options).1 =
                  options.columnPrefix ++ String.ofList (Text.doubleQuotes '"' name.toList) ∧
                ((c.entry options).1 = options.columnPrefix ++ name ↔ '"' ∉ name.toList)) := by
  obtain ⟨cs, hstates, rfl⟩ := reconstruct_stated h
  obtain ⟨ts, hlex, hstands⟩ := hstates.stands_among
  refine ⟨tokenize_write_name name, cs, hstates, rfl,
    fun c hc => ⟨fun hkind => ?_, fun hkept => ?_, fun hname => ?_⟩⟩
  · have hliteral := Lexer.literal_text_of_lex hlex (hstands c hc).name (by rw [hkind]; rfl)
    rw [hkind] at hliteral
    generalize htext : c.name.text.toList = text at hliteral
    cases hliteral with
    | quotedName content =>
      refine ⟨String.ofList content, ?_⟩
      rw [writeName, String.toList_ofList, ← htext, String.ofList_toList]
  · apply OrderedMap.mem_keys_of_entries
    exact List.mem_filter.mpr ⟨List.mem_map_of_mem hc, hkept⟩
  · have hkey : (c.entry options).1 =
        options.columnPrefix ++ String.ofList (Text.doubleQuotes '"' name.toList) := by
      rw [StatedColumn.entry, hname, unquote_name_write_name]
    refine ⟨hkey, ?_⟩
    rw [hkey, String.append_right_inj, ← String.toList_inj, String.toList_ofList,
      Text.double_quotes_eq_self_iff]

def quotedColumns : String :=
  "insert into t (\"a\"\"b\", \"\"\"\", c) values (1, /* \" */ 'x', 'y')"

theorem reconstruct_quoted_columns :
    ∃ columns cs, reconstruct .insert defaultOptions quotedColumns = .ok columns ∧
      columns.keys = ["th2_a\"\"b", "th2_\"\"", "th2_c"] ∧
      States .insert quotedColumns cs ∧
      ∀ c ∈ cs, c.name.text = "\"a\"\"b\"" →
        (c.entry defaultOptions).1 ≠ defaultColumnPrefix ++ "a\"b" := by
  have hkeys : (reconstruct .insert defaultOptions quotedColumns).toOption.map (·.keys) =
      some ["th2_a\"\"b", "th2_\"\"", "th2_c"] := by decide +kernel
  obtain ⟨columns, hcolumns, hnames⟩ := ok_of_to_option_map hkeys
  obtain ⟨-, cs, hstates, -, hentries⟩ := reconstruct_quoted_names "a\"b" hcolumns
  refine ⟨columns, cs, hcolumns, hnames, hstates, fun c hc hname hkey => ?_⟩
  have hwritten : c.name.text = String.ofList (writeName "a\"b") := hname
  have hplain := ((hentries c hc).2.2 hwritten).2.mp hkey
  exact hplain (by decide)

/-- The quotes of a name are doubled when it is written and stay doubled when it is read. -/
theorem reconstruct_keeps_doubled_quotes :
    ¬∀ name : String, (reconstruct .update defaultOptions
      ("update t set " ++ String.ofList (writeName name) ++ " = 1")).toOption.map (·.keys) =
        some ["th2_" ++ name] := by
  intro h
  have hkept : (reconstruct .update defaultOptions
      ("update t set " ++ String.ofList (writeName "a\"b") ++ " = 1")).toOption.map (·.keys) =
        some ["th2_a\"\"b"] := by decide +kernel
  rw [h "a\"b"] at hkept
  exact absurd hkept (by decide +kernel)

end RedoLog
