import RedoLog.Proofs.InsertReplay
import RedoLog.Proofs.Maps
import RedoLog.Proofs.ReparsedTokens
import RedoLog.Proofs.ShortNumerals
import RedoLog.Proofs.StoredValues
import RedoLog.Proofs.UpdateReplay

/-!
# Columns that are stored and loaded

Every value of a statement comes from one of its expressions. So each column can be loaded again
from its JSON form, unless more calls stand inside each other than JSON is read with, or a binary
number is lost on the way.
-/

set_option autoImplicit false

namespace RedoLog

theorem meaning_of_reconstruct {kind : StatementKind} {options : Options} {source : String}
    {columns : Columns} (h : reconstruct kind options source = .ok columns)
    {entry : String × Value} (hentry : entry ∈ columns.entries) :
    ∃ e : Expression, e.nesting ≤ maxLevels ∧ entry.2 = e.meaning options.trimText := by
  cases kind with
  | insert =>
    obtain ⟨s, hread, -, -, rfl⟩ := (reconstruct_insert_eq_ok options source columns).mp h
    obtain ⟨-, -, hnesting⟩ := Insert.read_eq_ok hread
    have hentries : entry ∈ s.entries options := by
      rcases OrderedMap.mem_entries_insert_all hentry with hmem | hmem
      · cases hmem
      · exact (List.mem_filter.mp hmem).1
    obtain ⟨e, he, hvalue⟩ := List.mem_map.mp (List.of_mem_zip hentries).2
    exact ⟨e, (Expression.argument_nesting_le s.row maxLevels).mp hnesting e he, hvalue.symm⟩
  | update =>
    obtain ⟨s, hread, rfl, -⟩ := reconstruct_update_eq_ok h
    obtain ⟨-, -, hnesting⟩ := Update.read_eq_ok hread
    rcases OrderedMap.mem_entries_insert_all hentry with hmem | hmem
    · cases hmem
    · obtain ⟨a, ha, rfl⟩ := List.mem_map.mp hmem
      exact ⟨a.value, Parser.nesting_le_of_mem hnesting a ha, rfl⟩

/-- A column is loaded again as it was exactly if at most 63 calls stand inside each other in it and
its binary numbers are storable, for which it suffices that they are finite and their numerals
short. It is stored as null is exactly if it is null or a number that is not finite. An expression
holds up to 127 calls inside each other. -/
theorem reconstruct_stored (kind : StatementKind) (options : Options) (source : String)
    (columns : Columns) (h : reconstruct kind options source = .ok columns)
    (entry : String × Value) (hentry : entry ∈ columns.entries) :
    (Value.read? entry.2.render = some entry.2 ↔
        entry.2.callDepth ≤ 63 ∧ entry.2.IsStorable) ∧
      ((∀ x, .real x ∈ entry.2.leaves → x.isFinite = true ∧ x.HasShortNumeral) →
        entry.2.IsStorable) ∧
      (entry.2.render = Value.null.render ↔
        entry.2 = .null ∨ ∃ x, entry.2 = .real x ∧ x.isFinite = false) ∧
      entry.2.callDepth ≤ 127 := by
  obtain ⟨e, hnesting, hvalue⟩ := meaning_of_reconstruct h hentry
  have hdepth := e.call_depth_meaning options.trimText
  have happlied := e.applied_meaning options.trimText
  rw [← hvalue] at hdepth happlied
  have hlevels : entry.2.callDepth + 1 ≤ 128 := Nat.le_trans hdepth hnesting
  have hshort : (∀ x, .real x ∈ entry.2.leaves → x.isFinite = true ∧ x.HasShortNumeral) →
      entry.2.IsStorable :=
    fun hall x hx => ⟨(hall x hx).1, (hall x hx).2.real_eq_some (hall x hx).1⟩
  exact ⟨happlied.read_render, hshort, entry.2.render_eq_null, by omega⟩

def updateToInfinity : String :=
  "update t set a = to_date(-2.5), b = 1e999"

theorem update_to_infinity_entries :
    (reconstruct .update defaultOptions updateToInfinity).toOption.map (·.entries) =
      some [("th2_a", .call "TO_DATE" [.real ⟨0xc004000000000000⟩]),
        ("th2_b", .real (Binary64.infinity false))] := by
  decide +kernel

theorem reconstruct_update_to_infinity :
    ∃ columns, reconstruct .update defaultOptions updateToInfinity = .ok columns ∧
      ∃ a b, columns.entries = [("th2_a", a), ("th2_b", b)] ∧
        Value.read? a.render = some a ∧ b.render = Value.null.render ∧ b ≠ .null ∧
        Value.read? b.render ≠ some b := by
  obtain ⟨columns, hcolumns, hentries⟩ := ok_of_to_option_map update_to_infinity_entries
  have ha : ("th2_a", .call "TO_DATE" [.real ⟨0xc004000000000000⟩]) ∈ columns.entries := by
    simp [hentries]
  have hb : ("th2_b", .real (Binary64.infinity false)) ∈ columns.entries := by
    simp [hentries]
  obtain ⟨hreadA, hshortA, -, -⟩ := reconstruct_stored _ _ _ columns hcolumns _ ha
  obtain ⟨hreadB, -, hnullB, -⟩ := reconstruct_stored _ _ _ columns hcolumns _ hb
  refine ⟨columns, hcolumns, _, _, hentries, ?_, ?_, by decide, ?_⟩
  · refine hreadA.mpr ⟨by decide, hshortA fun x hx => ?_⟩
    obtain rfl : x = ⟨0xc004000000000000⟩ := by simpa [Value.leaves, Value.leavesAll] using hx
    decide +kernel
  · exact hnullB.mpr (.inr ⟨_, rfl, by decide +kernel⟩)
  · intro hread
    have hfinite := ((hreadB.mp hread).2 (Binary64.infinity false) (List.mem_singleton_self _)).1
    exact absurd hfinite (by decide +kernel)

theorem reconstruct_loses_infinity :
    ¬∀ (kind : StatementKind) (options : Options) (source : String) (columns : Columns),
      reconstruct kind options source = .ok columns →
        ∀ entry ∈ columns.entries, Value.read? entry.2.render = some entry.2 := by
  intro hstored
  obtain ⟨columns, hcolumns, hentries⟩ := ok_of_to_option_map update_to_infinity_entries
  have hread := hstored _ _ _ columns hcolumns ("th2_b", .real (Binary64.infinity false))
    (by simp [hentries])
  exact absurd hread (by decide +kernel)

end RedoLog
