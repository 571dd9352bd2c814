import RedoLog.Proofs.LoadedValues
import RedoLog.Proofs.StoredRecords

/-!
# Messages that are loaded

Whatever text a message is read from, each value of its body became no deeper, so its own JSON form
is never too deep, and its binary numbers are finite. So what was loaded once is stored and loaded
again without a change, as far as each number is read from the numeral that is written for it.
-/

set_option autoImplicit false

namespace RedoLog

/-- Around a value that is read at some depth, as many arrays and objects fit again. -/
theorem Value.loaded_of_read_json {outer : Nat} {j : Json} {v : Value}
    (h : readJson? outer j = some v) : Loaded (127 - outer) v := by
  obtain ⟨⟨-, hnesting⟩, hread⟩ := Option.ite_none_right_eq_some.mp h
  have hloaded := v.loaded_of_of_json j hread
  have hlevels : j.nesting ≤ 127 - outer := Nat.le_sub_of_add_le hnesting
  exact ⟨Nat.le_trans hloaded.nesting hlevels, hloaded.finite⟩

namespace Message

theorem loaded_of_body_of_json {j : Json} {body : OrderedMap Value}
    (h : bodyOfJson? j = some body) : ∀ entry ∈ body.entries, entry.2.Loaded 124 := by
  obtain ⟨members, -, h⟩ := Option.bind_eq_some_iff.mp h
  obtain ⟨entries, hentries, h⟩ := Option.bind_eq_some_iff.mp h
  cases h
  intro entry hentry
  rcases OrderedMap.mem_entries_insert_all hentry with hmem | hmem
  · cases hmem
  · obtain ⟨read, -, hread⟩ := mem_of_mapm hentries entry hmem
    obtain ⟨v, hv, rfl⟩ := Option.map_eq_some_iff.mp hread
    exact Value.loaded_of_read_json hv

theorem body_of_of_json {j : Json} {r : Record} (h : Record.ofJson? j = some r) :
    r.body = OrderedMap.empty ∨ ∃ field, bodyOfJson? field = some r.body := by
  obtain ⟨fields, -, h⟩ := Option.bind_eq_some_iff.mp h
  split at h
  · rename_i field
    obtain ⟨id, -, h⟩ := Option.bind_eq_some_iff.mp h
    obtain ⟨eventId, -, h⟩ := Option.bind_eq_some_iff.mp h
    obtain ⟨type, -, h⟩ := Option.bind_eq_some_iff.mp h
    obtain ⟨metadata, -, h⟩ := Option.bind_eq_some_iff.mp h
    obtain ⟨protocol, -, h⟩ := Option.bind_eq_some_iff.mp h
    obtain ⟨body, hbody, h⟩ := Option.bind_eq_some_iff.mp h
    cases h
    cases field with
    | none => exact Or.inl (Option.some.inj hbody).symm
    | some field => exact Or.inr ⟨field, hbody⟩
  · cases h

theorem loaded_of_of_json {j : Json} {m : Message} (h : ofJson? j = some m) :
    ∀ v ∈ m.values, v.Loaded 124 := by
  cases m with
  | raw r => simp [values]
  | parsed r =>
    have hrecord : ∃ i, Record.ofJson? i = some r := by
      rw [ofJson?.eq_def] at h
      split at h
      · rename_i i
        split at h
        · obtain ⟨r', hr, hparsed⟩ := Option.map_eq_some_iff.mp h
          cases hparsed
          exact ⟨i, hr⟩
        · split at h
          · obtain ⟨r', -, hraw⟩ := Option.map_eq_some_iff.mp h
            cases hraw
          · cases h
      · cases h
    obtain ⟨i, hi⟩ := hrecord
    rw [values, List.forall_mem_map]
    rcases body_of_of_json hi with hempty | ⟨field, hfield⟩
    · simp [hempty]
    · exact loaded_of_body_of_json hfield

/-- What a message is read as holds no deep values and no number that is not finite. -/
theorem loaded_of_read {s : String} {m : Message} (h : read? s = some m) :
    ∀ v ∈ m.values, v.Loaded 124 := by
  obtain ⟨j, -, hj⟩ := Option.bind_eq_some_iff.mp h
  exact loaded_of_of_json hj

end Message

/-- A message is loaded again as it was, with the entries of its maps in order, exactly if at most
127 arrays and objects stand inside each other and each of its binary numbers is finite and what the
numeral written for it is read as. Settings always are. Of a message that is read from any text the
first two hold, so that only numerals can stand in the way of reading it again. -/
theorem stored_loaded :
    (∀ m : Message, Message.read? m.render = some m ↔
      m.toJson.nesting ≤ 127 ∧ ∀ v ∈ m.values, v.IsStorable) ∧
    (∀ c : Configuration, Configuration.read? c.render = some c) ∧
    ∀ (s : String) (m : Message), Message.read? s = some m →
      m.toJson.nesting ≤ 127 ∧
      (∀ v ∈ m.values, ∀ x, .real x ∈ v.leaves → x.isFinite = true) ∧
      ((∀ v ∈ m.values, ∀ x, .real x ∈ v.leaves → x.jsonNumeral.real? = some x) →
        Message.read? m.render = some m) := by
  refine ⟨Message.read_render, Configuration.read_render, fun s m h => ?_⟩
  have hloaded := Message.loaded_of_read h
  have hnesting : m.toJson.nesting ≤ 127 := by
    rw [m.nesting_to_json_le]
    exact fun v hv => Nat.add_le_add_right (hloaded v hv).nesting 3
  refine ⟨hnesting, fun v hv => (hloaded v hv).finite, fun hnumerals => ?_⟩
  rw [m.read_render]
  exact ⟨hnesting, fun v hv x hx => ⟨(hloaded v hv).finite x hx, hnumerals v hv x hx⟩⟩

def twiceTwo : Message :=
  .parsed ⟨⟨"s", .incoming, -1, []⟩, none, "", OrderedMap.empty, "",
    OrderedMap.ofEntries
      [("b", .integer 2), ("a", .call "F" [.real ⟨0x4000000000000000⟩, .null]),
        ("c", .call "F" [])]⟩

def twiceTwoInArrays : String :=
  "\x7b\"parsed\":[[\"s\",\"incoming\",-1],null,\"\",\x7b\x7d,\"\",\x7b\"b\":2,"
    ++ "\"a\":[\"F\",[2.0,null]],\"c\":\x7b\"x\":[],\"function\":\"F\"\x7d\x7d]\x7d"

theorem twice_two_values :
    twiceTwo.values =
      [.integer 2, .call "F" [.real ⟨0x4000000000000000⟩, .null], .call "F" []] :=
  rfl

theorem stored_loaded_twice_two :
    Message.read? twiceTwoInArrays = some twiceTwo ∧
      twiceTwo.render ≠ twiceTwoInArrays ∧ Message.read? twiceTwo.render = some twiceTwo ∧
      Configuration.read? Configuration.standard.render = some Configuration.standard := by
  obtain ⟨-, hsettings, hloaded⟩ := stored_loaded
  have hread : Message.read? twiceTwoInArrays = some twiceTwo := by decide +kernel
  have htwo : ∀ v ∈ twiceTwo.values, ∀ x, .real x ∈ v.leaves → x = ⟨0x4000000000000000⟩ := by
    simp [twice_two_values, Value.leaves, Value.leavesAll]
  have hnumerals : ∀ v ∈ twiceTwo.values, ∀ x, .real x ∈ v.leaves →
      x.jsonNumeral.real? = some x := by
    intro v hv x hx
    rw [htwo v hv x hx]
    decide +kernel
  obtain ⟨-, -, hagain⟩ := hloaded _ _ hread
  exact ⟨hread, by decide +kernel, hagain hnumerals, hsettings _⟩

end RedoLog
