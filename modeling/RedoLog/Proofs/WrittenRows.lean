import Mathlib.Data.List.Nodup
import RedoLog.Proofs.InsertReplay
import RedoLog.Proofs.Maps
import RedoLog.Proofs.ReparsedConditions
import RedoLog.Proofs.UpdateReplay
import RedoLog.Proofs.WrittenValues

/-!
# Rows that are written and rebuilt

A row that is written as a statement is read as this statement, and the statement says what the row
holds. So the columns of the row come back, in order and with their values, whatever characters
stand in its texts.
-/

set_option autoImplicit false

namespace RedoLog

open Lexer

theorem Writes.lex {α : Type} {tokens : α → List Token} {good : α → Prop} {cs : List Char}
    (h : Writes tokens good cs) : ∃ a, Lexer.lex cs = .ok (tokens a) ∧ good a := by
  obtain ⟨ls, -, hscans, hbuilt⟩ := h
  have hall := hscans [] (by simp [Delimits])
  rw [List.append_nil] at hall
  obtain ⟨ts, hlex, hts⟩ := hall.lex
  obtain ⟨a, rfl, hgood⟩ := hbuilt ts hts
  exact ⟨a, hlex, hgood⟩

theorem writes_name {name : String} (hname : '"' ∉ name.toList) :
    Writes (fun t => [t]) (fun t => t.kind.isName = true ∧ unquoteName t.text = name)
      (writeName name) := by
  have htoken : Writes (fun t => [t]) _ (writeName name) :=
    writes_token fun rest hrest => scans_name name fun h => (hrest.ends '"' h).2.2.2.1 rfl
  apply htoken.map id (fun _ => rfl)
  rintro t ⟨hkind, htext⟩
  refine ⟨by rw [id, hkind]; rfl, ?_⟩
  rw [id, htext, unquoteName, String.toList_ofList, writeName, Text.strip_quotes_quoted,
    (Text.double_quotes_eq_self_iff '"' _).mpr hname, String.ofList_toList]

/-- A point in front of a name is no part of a number. -/
theorem scans_dot (rest : List Char) : Scans ('.' :: '"' :: rest) [(.dot, ".")] ('"' :: rest) := by
  have hscan : scan '.' ('"' :: rest) = ⟨.token .dot, ['.'], '"' :: rest⟩ := by
    simp [scan, startsNumber, startsWord, symbol?]
  exact .step (split_gap_cons (by decide) (by decide) _) hscan (.done _)

theorem writes_table (schema table : String) :
    Writes (Chain.tokens fun t => [t]) Operand.PathWellFormed (writeTable schema table) := by
  refine ⟨[(.quotedName, String.ofList (writeName schema)), (.dot, "."),
    (.quotedName, String.ofList (writeName table))], by simp, fun rest hrest => ?_,
    fun ts hts => ?_⟩
  · have hquote : rest.head? ≠ some '"' := fun h => (hrest.ends '"' h).2.2.2.1 rfl
    have hschema : Scans (writeName schema ++ '.' :: (writeName table ++ rest)) _ _ :=
      scans_name schema (by simp)
    rw [writeTable, List.append_assoc, List.cons_append]
    exact hschema.append ((scans_dot _).append (scans_name table hquote))
  · obtain ⟨first, us, rfl, hfirst, -, hus⟩ := cons_of_map_lexeme hts
    obtain ⟨dot, us, rfl, hdot, -, hus⟩ := cons_of_map_lexeme hus
    obtain ⟨second, us, rfl, hsecond, -, hus⟩ := cons_of_map_lexeme hus
    obtain rfl := List.map_eq_nil_iff.mp hus
    refine ⟨.next first dot (.last second), rfl, ?_⟩
    simp [Operand.PathWellFormed, Chain.toList, Chain.separators, hfirst, hdot, hsecond,
      TokenKind.isName]

structure Assignment.Spells (entry : String × Value) (a : Assignment) : Prop where
  column : a.column.kind.isName = true
  equals : a.equals.kind = .equals
  name : unquoteName a.column.text = entry.1
  value : a.value.Spells entry.2

theorem writes_assignment {entry : String × Value} (hname : '"' ∉ entry.1.toList)
    (hvalue : entry.2.Writable) :
    Writes Assignment.tokens (Assignment.Spells entry) (writeAssignment entry) := by
  have hform : writeAssignment entry =
      writeName entry.1 ++ ' ' :: '=' :: ' ' :: entry.2.writeSql := by
    simp [writeAssignment]
  rw [hform]
  have hbehind := hvalue.writes.blank.behind '=' .equals (by decide)
  apply ((writes_name hname).apart hbehind).map (fun p => Assignment.mk p.1 p.2.1 p.2.2)
    (fun _ => rfl)
  rintro ⟨column, equals, e⟩ ⟨⟨hkind, htext⟩, hequals, he⟩
  exact ⟨hkind, hequals, htext, he⟩

structure Update.Spells (row : List (String × Value)) (s : Update) : Prop where
  wellFormed : s.WellFormed
  filter : s.filter = none
  assignments : List.Forall₂ Assignment.Spells row s.assignments.toList

structure RowInsert.Spells (row : List (String × Value)) (s : RowInsert) : Prop where
  wellFormed : s.WellFormed
  names : s.columnNames = row.map Prod.fst
  values : List.Forall₂ (fun entry e => Expression.Spells entry.2 e) row s.row.toList

theorem writes_update (schema table : String) {row : List (String × Value)} (hne : row ≠ [])
    (hnames : ∀ entry ∈ row, '"' ∉ entry.1.toList) (hvalues : ∀ entry ∈ row, entry.2.Writable) :
    Writes Update.tokens (Update.Spells row) (writeUpdate schema table row).toList := by
  have hupdate : Writes (fun t => [t]) (fun t => t.kind = .updateWord)
      ['u', 'p', 'd', 'a', 't', 'e'] := writes_keyword (by decide) (by decide)
  have hset : Writes (fun t => [t]) (fun t => t.kind = .setWord) ['s', 'e', 't'] :=
    writes_keyword (by decide) (by decide)
  have hclause := Writes.list row hne fun entry hentry =>
    writes_assignment (hnames entry hentry) (hvalues entry hentry)
  have hend := hclause.append (writes_separator ';' .semicolon (by decide))
    fun _ => delimits_cons (by decide) _
  have hform : (writeUpdate schema table row).toList = ['u', 'p', 'd', 'a', 't', 'e'] ++
      ' ' :: (writeTable schema table ++ ' ' :: (['s', 'e', 't'] ++
        ' ' :: (writeList (row.map writeAssignment) ++ [';']))) := by
    have hfirst : "update ".toList = ['u', 'p', 'd', 'a', 't', 'e', ' '] := by decide
    have hsecond : " set ".toList = [' ', 's', 'e', 't', ' '] := by decide
    refine String.toList_ofList.trans ?_
    rw [hfirst, hsecond]
    simp only [List.append_assoc, List.cons_append, List.nil_append]
  rw [hform]
  apply (hupdate.apart ((writes_table schema table).apart (hset.apart hend))).map
    (fun p => Update.mk p.1 p.2.1 none p.2.2.1 p.2.2.2.1 none (some p.2.2.2.2))
  · rintro ⟨update, path, set, assignments, semicolon⟩
    simp [Update.tokens]
  rintro ⟨update, path, set, assignments, semicolon⟩
    ⟨hword, hpath, hset, ⟨hcommas, hall⟩, hsemicolon, -⟩
  refine ⟨⟨hword, hpath, by simp, hset, fun a ha => ?_, hcommas, by simp, ?_⟩, rfl, hall⟩
  · obtain ⟨entry, -, hentry⟩ := forall₂_mem_right hall a ha
    exact ⟨hentry.column, hentry.equals, hentry.value.wellFormed⟩
  · simpa using hsemicolon

theorem writes_column_list {row : List (String × Value)} (hne : row ≠ [])
    (hnames : ∀ entry ∈ row, '"' ∉ entry.1.toList) :
    Writes ColumnList.tokens
      (fun c => c.WellFormed ∧
        c.names.toList.map (fun t => unquoteName t.text) = row.map Prod.fst)
      ('(' :: (writeList (row.map fun entry => writeName entry.1) ++ [')'])) := by
  have hnames := Writes.list row hne fun entry hentry => writes_name (hnames entry hentry)
  apply hnames.parentheses.map (fun p => ColumnList.mk p.1 p.2.1 p.2.2) (fun _ => rfl)
  rintro ⟨opening, names, closing⟩ ⟨hopening, ⟨hcommas, hall⟩, hclosing⟩
  refine ⟨⟨hopening, fun t ht => ?_, hcommas, hclosing⟩,
    map_eq_of_forall₂ (hall.imp fun entry t h => h.2)⟩
  obtain ⟨entry, -, hkind, -⟩ := forall₂_mem_right hall t ht
  exact hkind

theorem writes_insert (schema table : String) {row : List (String × Value)} (hne : row ≠ [])
    (hnames : ∀ entry ∈ row, '"' ∉ entry.1.toList) (hvalues : ∀ entry ∈ row, entry.2.Writable) :
    Writes RowInsert.tokens (RowInsert.Spells row) (writeInsert schema table row).toList := by
  have hinsert : Writes (fun t => [t]) (fun t => t.kind = .insertWord)
      ['i', 'n', 's', 'e', 'r', 't'] := writes_keyword (by decide) (by decide)
  have hinto : Writes (fun t => [t]) (fun t => t.kind = .intoWord) ['i', 'n', 't', 'o'] :=
    writes_keyword (by decide) (by decide)
  have hwords : Writes (fun t => [t]) (fun t => t.kind = .valuesWord)
      ['v', 'a', 'l', 'u', 'e', 's'] := writes_keyword (by decide) (by decide)
  have hrow := (Writes.list row hne fun entry hentry =>
    (hvalues entry hentry).writes).parentheses
  have hend := hrow.append (writes_separator ';' .semicolon (by decide))
    fun _ => delimits_cons (by decide) _
  have htable := (writes_table schema table).append
    ((writes_column_list hne hnames).apart (hwords.apart hend)) fun _ => delimits_cons (by decide) _
  have hform : (writeInsert schema table row).toList = ['i', 'n', 's', 'e', 'r', 't'] ++
      ' ' :: (['i', 'n', 't', 'o'] ++ ' ' :: (writeTable schema table ++
        ('(' :: (writeList (row.map fun entry => writeName entry.1) ++ [')']) ++
          ' ' :: (['v', 'a', 'l', 'u', 'e', 's'] ++
            ' ' :: ('(' :: (writeList (row.map fun entry => entry.2.writeSql) ++ [')'])
              ++ [';']))))) := by
    have hfirst : "insert into ".toList =
        ['i', 'n', 's', 'e', 'r', 't', ' ', 'i', 'n', 't', 'o', ' '] := by decide
    have hsecond : ") values (".toList =
        [')', ' ', 'v', 'a', 'l', 'u', 'e', 's', ' ', '('] := by decide
    refine String.toList_ofList.trans ?_
    rw [hfirst, hsecond]
    simp only [List.append_assoc, List.cons_append, List.nil_append]
  rw [hform]
  apply (hinsert.apart (hinto.apart htable)).map
    fun (insert, into, path, columns, values, (opening, values', closing), semicolon) =>
      RowInsert.mk insert into path (some columns) values opening values' closing (some semicolon)
  · rintro ⟨insert, into, path, columns, values, ⟨opening, row, closing⟩, semicolon⟩
    simp [RowInsert.tokens, Expression.argument_tokens_eq]
  rintro ⟨insert, into, path, columns, values, ⟨opening, values', closing⟩, semicolon⟩
    ⟨hinsert, hinto, hpath, ⟨hcolumns, hnames⟩, hwords, ⟨hopening, ⟨hcommas, hall⟩, hclosing⟩,
      hsemicolon, -⟩
  refine ⟨⟨hinsert, hinto, hpath, by simpa using hcolumns, hwords, hopening, ?_, hclosing,
    by simpa using hsemicolon⟩, hnames, hall⟩
  apply (Expression.arguments_well_formed_iff values').mpr
  refine ⟨fun e he => ?_, hcommas⟩
  obtain ⟨entry, -, hentry⟩ := forall₂_mem_right hall e he
  exact hentry.wellFormed

section Statements

variable {row : List (String × Value)}

theorem Update.Spells.read {source : String} {s : Update} (hs : s.Spells row)
    (hdepth : ∀ entry ∈ row, entry.2.callDepth ≤ 127)
    (hlex : Lexer.lex source.toList = .ok s.tokens) : Update.read source = .ok s := by
  have hnesting : s.nesting ≤ maxLevels := by
    apply Parser.nesting_le_of_parts _ (by simp [hs.filter])
    intro a ha
    obtain ⟨entry, hentry, hspells⟩ := forall₂_mem_right hs.assignments a ha
    exact Nat.le_trans hspells.value.nesting (Nat.succ_le_succ (hdepth entry hentry))
  have hparse := Parser.update_tokens hs.wellFormed hnesting
  simp only [Update.read, readWith, hlex, hparse]

theorem RowInsert.Spells.read {source : String} {s : RowInsert} (hs : s.Spells row)
    (hdepth : ∀ entry ∈ row, entry.2.callDepth ≤ 127)
    (hlex : Lexer.lex source.toList = .ok s.tokens) : Insert.read source = .ok (.row s) := by
  have hnesting : s.nesting ≤ maxLevels := by
    apply (Expression.argument_nesting_le s.row maxLevels).mpr
    intro e he
    obtain ⟨entry, hentry, hspells⟩ := forall₂_mem_right hs.values e he
    exact Nat.le_trans hspells.nesting (Nat.succ_le_succ (hdepth entry hentry))
  simp only [Insert.read, readWith, hlex, Parser.insert_tokens hs.wellFormed hnesting]

theorem Update.Spells.is_supported {s : Update} (hs : s.Spells row) :
    ∀ c ∈ s.setCalls, c.isSupported = true := by
  rw [Update.setCalls, List.forall_mem_flatMap]
  intro a ha
  obtain ⟨entry, -, hentry⟩ := forall₂_mem_right hs.assignments a ha
  exact hentry.value.supported

theorem RowInsert.Spells.is_supported {s : RowInsert} (hs : s.Spells row) :
    ∀ c ∈ Expression.argumentCalls s.row, c.isSupported = true := by
  rw [Expression.argument_calls_eq_flat_map, List.forall_mem_flatMap]
  intro e he
  obtain ⟨entry, -, hentry⟩ := forall₂_mem_right hs.values e he
  exact hentry.supported

def prefixedRow (columnPrefix : String) (row : List (String × Value)) : List (String × Value) :=
  row.map fun entry => (columnPrefix ++ entry.1, entry.2)

theorem nodup_prefixed_row (columnPrefix : String) (h : (row.map Prod.fst).Nodup) :
    ((prefixedRow columnPrefix row).map Prod.fst).Nodup := by
  have hnames : (prefixedRow columnPrefix row).map Prod.fst =
      (row.map Prod.fst).map (columnPrefix ++ ·) := by
    simp [prefixedRow]
  rw [hnames]
  exact List.Nodup.map (fun a b hab => (String.append_right_inj columnPrefix).mp hab) h

theorem Update.Spells.meaning {s : Update} (hs : s.Spells row) (columnPrefix : String)
    (hdistinct : (row.map Prod.fst).Nodup) :
    (s.meaning ⟨columnPrefix, false⟩).entries = prefixedRow columnPrefix row := by
  have hentries : s.assignments.toList.map (Assignment.entry ⟨columnPrefix, false⟩) =
      prefixedRow columnPrefix row := by
    apply map_eq_of_forall₂
    apply hs.assignments.imp
    intro entry a ha
    rw [Assignment.entry, ha.name, ha.value.meaning]
  rw [Update.meaning, hentries]
  exact OrderedMap.entries_of_entries (nodup_prefixed_row columnPrefix hdistinct)

theorem RowInsert.Spells.meaning {s : RowInsert} (hs : s.Spells row) (columnPrefix : String)
    (hdistinct : (row.map Prod.fst).Nodup) :
    (s.meaning ⟨columnPrefix, false⟩).entries =
      (prefixedRow columnPrefix row).filter fun entry => !entry.2.isNull := by
  have hvalues : s.row.toList.map (Expression.meaning false) = row.map Prod.snd :=
    map_eq_of_forall₂ (hs.values.imp fun entry e he => he.meaning)
  have hentries : s.entries ⟨columnPrefix, false⟩ = prefixedRow columnPrefix row := by
    rw [RowInsert.entries, hs.names, hvalues, List.map_map, List.zip_map']
    rfl
  rw [RowInsert.meaning, hentries]
  apply OrderedMap.entries_of_entries
  have hsublist := (List.filter_sublist (p := fun entry => !entry.2.isNull)
    (l := prefixedRow columnPrefix row)).map Prod.fst
  exact (nodup_prefixed_row columnPrefix hdistinct).sublist hsublist

end Statements

/-- A row that is written comes back, whichever statement states it: an `INSERT` yields what is not
null, and an `UPDATE` everything. -/
theorem reconstruct_written (columnPrefix schema table : String) (row : List (String × Value))
    (hne : row ≠ []) (hdistinct : (row.map Prod.fst).Nodup)
    (hnames : ∀ entry ∈ row, '"' ∉ entry.1.toList) (hvalues : ∀ entry ∈ row, entry.2.Writable)
    (hdepth : ∀ entry ∈ row, entry.2.callDepth ≤ 127) :
    (∃ columns, reconstructInsert ⟨columnPrefix, false⟩ (writeInsert schema table row) =
        .ok columns ∧
        columns.entries = (prefixedRow columnPrefix row).filter fun entry => !entry.2.isNull) ∧
      ∃ columns, reconstructUpdate ⟨columnPrefix, false⟩ (writeUpdate schema table row) =
        .ok columns ∧ columns.entries = prefixedRow columnPrefix row := by
  constructor
  · obtain ⟨s, hlex, hs⟩ := (writes_insert schema table hne hnames hvalues).lex
    refine ⟨s.meaning ⟨columnPrefix, false⟩, ?_, hs.meaning columnPrefix hdistinct⟩
    apply (reconstruct_insert_eq_ok _ _ _).mpr
    have hlengths : s.columnNames.length = s.row.toList.length := by
      rw [hs.names, List.length_map, hs.values.length_eq]
    exact ⟨s, hs.read hdepth hlex, hlengths, hs.is_supported, rfl⟩
  · obtain ⟨s, hlex, hs⟩ := (writes_update schema table hne hnames hvalues).lex
    refine ⟨s.meaning ⟨columnPrefix, false⟩, ?_, hs.meaning columnPrefix hdistinct⟩
    rcases reconstruct_update_cases ⟨columnPrefix, false⟩ _ s (hs.read hdepth hlex) with
      ⟨hok, -⟩ | ⟨-, hunsupported⟩
    · exact hok
    · exact absurd hs.is_supported hunsupported

def rowOfExtremes : List (String × Value) :=
  [("A", .null), ("b (c", .integer Int64.minValue), ("", .text "it's /* ;\n-- WHERE"),
    ("D", .call "TO_DATE" [.text "ü''", .call "TO_TIMESTAMP" [.null]])]

theorem reconstruct_row_of_extremes :
    writeUpdate "S" "T" rowOfExtremes = "update \"S\".\"T\" set \"A\" = NULL," ++
        "\"b (c\" = -9223372036854775808,\"\" = 'it''s /* ;\n-- WHERE'," ++
        "\"D\" = TO_DATE('ü''''',TO_TIMESTAMP(NULL));" ∧
      (∃ columns, reconstructInsert ⟨"x_", false⟩ (writeInsert "S" "T" rowOfExtremes) =
        .ok columns ∧ columns.keys = ["x_b (c", "x_", "x_D"]) ∧
      ∃ columns, reconstructUpdate ⟨"x_", false⟩ (writeUpdate "S" "T" rowOfExtremes) =
        .ok columns ∧ columns.keys = ["x_A", "x_b (c", "x_", "x_D"] := by
  have hcall : ∀ p ∈ [Value.text "ü''", .call "TO_TIMESTAMP" [.null]], p.Writable := by
    simp only [List.forall_mem_cons]
    exact ⟨.text _, .call _ _ (by decide) (by simp) (by simpa using .null), by simp⟩
  have hvalues : ∀ entry ∈ rowOfExtremes, entry.2.Writable := by
    simp only [rowOfExtremes, List.forall_mem_cons]
    exact ⟨.null, .integer _, .text _, .call _ _ (by decide) (by simp) hcall, by simp⟩
  obtain ⟨⟨columns, hinsert, hentries⟩, columns', hupdate, hentries'⟩ :=
    reconstruct_written "x_" "S" "T" rowOfExtremes (by simp [rowOfExtremes]) (by decide)
      (by decide) hvalues (by decide)
  refine ⟨by decide +kernel, ⟨columns, hinsert, ?_⟩, columns', hupdate, ?_⟩
  · rw [OrderedMap.keys, hentries]
    decide
  · rw [OrderedMap.keys, hentries']
    decide

end RedoLog
