import RedoLog.Proofs.CallDepth
import RedoLog.Proofs.JsonFields
import RedoLog.Value.Json
import RedoLog.Value.Leaves

/-!
# Values that are stored and loaded

A value that is written as JSON is loaded again exactly if its calls are not too deep and each of
its binary numbers is one that its numeral is read as. A call takes an object and an array, so half
as many calls may stand inside each other as arrays and objects.
-/

set_option autoImplicit false

namespace RedoLog

def Binary64.IsStorable (x : Binary64) : Prop :=
  x.isFinite = true ∧ x.jsonNumeral.real? = some x

namespace Value

/-- What holds of every call whose parameters it holds of holds of every value. -/
@[elab_as_elim] theorem induct {motive : Value → Prop} (null : motive .null)
    (integer : ∀ n, motive (.integer n)) (real : ∀ x, motive (.real x))
    (text : ∀ s, motive (.text s))
    (call : ∀ f ps, (∀ p ∈ ps, motive p) → motive (.call f ps)) : ∀ v, motive v
  | .null => null
  | .integer n => integer n
  | .real x => real x
  | .text s => text s
  | .call f ps => call f ps fun p _ => induct null integer real text call p

def IsStorable (v : Value) : Prop :=
  ∀ x, .real x ∈ v.leaves → x.IsStorable

theorem to_json_all_eq_map (ps : List Value) : toJsonAll ps = ps.map toJson := by
  induction ps with
  | nil => rfl
  | cons p ps ih => rw [toJsonAll, ih, List.map_cons]

theorem to_json_call (f : String) {ps : List Value} (hne : ps ≠ []) :
    toJson (.call f ps) = .object [Json.member "function" (Json.text f),
      Json.member "parameters" (.array (ps.map toJson))] := by
  obtain ⟨p, ps, rfl⟩ := List.exists_cons_of_ne_nil hne
  rw [toJson, to_json_all_eq_map, List.map_cons]

theorem proper (v : Value) : v.toJson.Proper := by
  induction v using induct with
  | null => exact .null
  | integer n => exact .number _ (by simp [Numeral.ofInt])
  | real x =>
    rw [toJson]
    split
    · exact .number _ (json_numeral_shape x).1
    · exact .null
  | text s => exact .text s
  | call f ps ih =>
    by_cases hne : ps = []
    · subst hne
      exact Json.proper_object (by simpa [Json.member] using .text f)
    · have hparameters : (Json.array (ps.map toJson)).Proper := Json.proper_items ps toJson ih
      rw [to_json_call f hne]
      exact Json.proper_object (by simpa [Json.member] using ⟨.text f, hparameters⟩)

theorem nesting_all_to_json {ps : List Value}
    (h : ∀ p ∈ ps, p.toJson.nesting = 2 * p.callDepth) :
    Json.nestingAll (ps.map toJson) = 2 * callDepthAll ps := by
  induction ps with
  | nil => rfl
  | cons p ps ih =>
    rw [List.forall_mem_cons] at h
    rw [List.map_cons, Json.nestingAll, callDepthAll, h.1, ih h.2]
    omega

theorem Applied.nesting {v : Value} (hv : v.Applied) : v.toJson.nesting = 2 * v.callDepth := by
  induction hv with
  | null => rfl
  | integer n => rfl
  | real x =>
    rw [toJson]
    split <;> rfl
  | text s => rfl
  | call f ps hne _ ih =>
    rw [to_json_call f hne, callDepth]
    simp only [Json.nesting, Json.nestingMembers, Json.member, Json.text, nesting_all_to_json ih]
    omega

theorem is_sound_all_iff (items : List Json) :
    Json.isSoundAll items = true ↔ ∀ item ∈ items, item.isSound = true := by
  induction items with
  | nil => simp [Json.isSoundAll]
  | cons item items ih => simp [Json.isSoundAll, ih]

theorem real_mem_leaves_all {x : Binary64} {ps : List Value} :
    .real x ∈ leavesAll ps ↔ ∃ p ∈ ps, .real x ∈ p.leaves := by
  induction ps with
  | nil => simp [leavesAll]
  | cons p ps ih => simp [leavesAll, ih]

theorem is_storable_call (f : String) (ps : List Value) :
    (Value.call f ps).IsStorable ↔ ∀ p ∈ ps, p.IsStorable := by
  simp only [IsStorable, leaves, real_mem_leaves_all, forall_exists_index, and_imp]
  exact ⟨fun h p hp x hx => h x p hp hx, fun h x p hp hx => h p hp x hx⟩

theorem is_sound_to_json {v : Value} (hstorable : v.IsStorable) : v.toJson.isSound = true := by
  induction v using induct with
  | null => rfl
  | integer n =>
    have hsize : n.toInt.natAbs < UInt64.size := by
      have hlower := n.minValue_le_toInt
      have hupper := n.toInt_le
      have hbounds : Int64.minValue.toInt = -9223372036854775808 ∧
          Int64.maxValue.toInt = 9223372036854775807 ∧ UInt64.size = 18446744073709551616 :=
        ⟨by decide, by decide, rfl⟩
      omega
    exact Numeral.real_of_int hsize
  | real x =>
    obtain ⟨hfinite, hread⟩ := hstorable x (List.mem_singleton_self _)
    rw [toJson, if_pos hfinite, Json.isSound, hread]
    rfl
  | text s => rfl
  | call f ps ih =>
    by_cases hne : ps = []
    · subst hne
      rfl
    · have hall := (is_storable_call f ps).mp hstorable
      have hitems : Json.isSoundAll (ps.map toJson) = true := by
        rw [is_sound_all_iff]
        simpa using fun p hp => ih p hp (hall p hp)
      rw [to_json_call f hne]
      simp [Json.isSound, Json.isSoundMembers, Json.member, Json.text, hitems]

theorem of_json_all_eq_mapm (js : List Json) : ofJsonAll? js = js.mapM ofJson? := by
  induction js with
  | nil => rfl
  | cons j js ih =>
    rw [ofJsonAll?, List.mapM_cons, ih]

theorem of_json_all_to_json (ps : List Value) :
    ofJsonAll? (ps.map toJson) = some ps ↔ ∀ p ∈ ps, ofJson? p.toJson = some p := by
  rw [of_json_all_eq_mapm]
  exact mapm_eq_some_self ps

theorem of_json_call (f : String) {ps : List Value} (hne : ps ≠ []) :
    ofJson? (toJson (.call f ps)) = (ofJsonAll? (ps.map toJson)).map (.call f) := by
  rw [to_json_call f hne, Value.ofJson?]
  have hfunction : Json.memberValues "function" [Json.member "function" (Json.text f),
      Json.member "parameters" (.array (ps.map toJson))] = [Json.text f] := rfl
  have hparameters : parameterLists? [Json.member "function" (Json.text f),
      Json.member "parameters" (.array (ps.map toJson))] =
        (ofJsonAll? (ps.map toJson)).map fun qs => [qs] := by
    simp only [Json.member, Json.text, parameterLists?]
    cases ofJsonAll? (ps.map toJson) <;> rfl
  rw [hfunction, hparameters]
  cases ofJsonAll? (ps.map toJson) <;> rfl

/-- A value is taken from its JSON form exactly if its binary numbers are. -/
theorem of_json_to_json (v : Value) : Value.ofJson? v.toJson = some v ↔ v.IsStorable := by
  induction v using induct with
  | null => simp [toJson, Value.ofJson?, IsStorable, leaves]
  | integer n =>
    simp [toJson, Value.ofJson?, integer_of_int, int64_to_int, IsStorable, leaves]
  | real x =>
    have hleaf : (Value.real x).IsStorable ↔ x.IsStorable := by simp [IsStorable, leaves]
    rw [hleaf, toJson, Binary64.IsStorable]
    by_cases hfinite : x.isFinite = true
    · simp [hfinite, Value.ofJson?, (json_numeral_shape x).2]
    · simp [hfinite, Value.ofJson?]
  | text s => simp [toJson, Value.ofJson?, Json.text, IsStorable, leaves]
  | call f ps ih =>
    by_cases hne : ps = []
    · subst hne
      have hempty : Value.ofJson? (toJson (.call f [])) = some (.call f []) := rfl
      simp [hempty, is_storable_call]
    · rw [of_json_call f hne, is_storable_call]
      have hall : (∀ p ∈ ps, Value.ofJson? p.toJson = some p) ↔ ∀ p ∈ ps, p.IsStorable :=
        forall₂_congr ih
      rw [← hall, ← of_json_all_to_json]
      simp

/-- At a place with arrays and objects around it, a value is read from its JSON form as it was
exactly if it is not too deep there and its binary numbers are storable. -/
theorem read_json_to_json (outer : Nat) (v : Value) :
    readJson? outer v.toJson = some v ↔ v.toJson.nesting + outer ≤ 127 ∧ v.IsStorable := by
  rw [readJson?]
  constructor
  · intro h
    split at h
    · rename_i hgood
      exact ⟨hgood.2, v.of_json_to_json.mp h⟩
    · cases h
  · rintro ⟨hnesting, hstorable⟩
    rw [if_pos ⟨is_sound_to_json hstorable, hnesting⟩]
    exact v.of_json_to_json.mpr hstorable

theorem read_render (v : Value) :
    read? v.render = some v ↔ v.toJson.nesting ≤ 127 ∧ v.IsStorable := by
  rw [read?, render, v.proper.read_render, Option.bind_some, read_json_to_json]
  rfl

/-- Calls are deep enough for half of the nesting. -/
theorem Applied.read_render {v : Value} (hv : v.Applied) :
    read? v.render = some v ↔ v.callDepth ≤ 63 ∧ v.IsStorable := by
  have hdepth : 2 * v.callDepth ≤ 127 ↔ v.callDepth ≤ 63 := by omega
  rw [Value.read_render, hv.nesting, hdepth]

theorem to_json_eq_null (v : Value) :
    v.toJson = .null ↔ v = .null ∨ ∃ x, v = .real x ∧ x.isFinite = false := by
  cases v with
  | real x => cases h : x.isFinite <;> simp [toJson, h]
  | call f ps => cases ps <;> simp [toJson]
  | _ => simp [toJson, Json.text]

/-- Only null and numbers that are not finite are written as null. -/
theorem render_eq_null (v : Value) :
    v.render = Value.null.render ↔ v = .null ∨ ∃ x, v = .real x ∧ x.isFinite = false := by
  rw [← to_json_eq_null]
  constructor
  · intro h
    have hread := v.proper.read_render
    have hnull := Value.null.proper.read_render
    rw [← render, h, render, hnull] at hread
    exact (Option.some.inj hread).symm
  · intro h
    rw [render, h]
    rfl

end Value

end RedoLog
