import RedoLog.Proofs.JsonFields
import RedoLog.Proofs.ReadNumbers
import RedoLog.Proofs.StoredValues

/-!
# Values that are loaded

Whatever JSON a value is taken from, arrays in place of objects and members that nobody asks for
included, its own JSON form is no deeper, and its binary numbers are finite.
-/

set_option autoImplicit false

namespace RedoLog

namespace Value

theorem nesting_call_le {depth : Nat} (f : String) {ps : List Value}
    (hps : ∀ p ∈ ps, p.toJson.nesting ≤ depth) : (toJson (.call f ps)).nesting ≤ depth + 2 := by
  by_cases hne : ps = []
  · subst hne
    exact Nat.succ_le_succ (Nat.zero_le _)
  · have hparameters : Json.nestingAll (ps.map toJson) ≤ depth := by
      rw [Json.nesting_all_le]
      simpa using hps
    rw [to_json_call f hne]
    simp only [Json.nesting, Json.nestingMembers, Json.member, Json.text]
    omega

structure Loaded (depth : Nat) (v : Value) : Prop where
  nesting : v.toJson.nesting ≤ depth
  finite : ∀ x, .real x ∈ v.leaves → x.isFinite = true

theorem of_json_all_mem {js : List Json} {ps : List Value} (h : ofJsonAll? js = some ps) :
    ∀ p ∈ ps, ∃ j ∈ js, ofJson? j = some p := by
  rw [of_json_all_eq_mapm] at h
  exact mem_of_mapm h

theorem parameter_lists_mem {members : List (Option String × Json)} {lists : List (List Value)}
    (h : parameterLists? members = some lists) :
    ∀ ps ∈ lists, ∃ js, ofJsonAll? js = some ps ∧
      Json.nestingAll js + 1 ≤ Json.nestingMembers members := by
  induction members generalizing lists with
  | nil =>
    cases h
    simp
  | cons entry members ih =>
    obtain ⟨name, j⟩ := entry
    have hskipped : ∀ {lists}, parameterLists? members = some lists → ∀ ps ∈ lists,
        ∃ js, ofJsonAll? js = some ps ∧
          Json.nestingAll js + 1 ≤ Json.nestingMembers ((name, j) :: members) := by
      intro lists hlists ps hps
      obtain ⟨js, hjs, hdepth⟩ := ih hlists ps hps
      exact ⟨js, hjs, Nat.le_trans hdepth (Nat.le_max_right _ _)⟩
    cases j with
    | array items =>
      rw [parameterLists?] at h
      split at h
      · obtain ⟨qs, hqs, h⟩ := Option.bind_eq_some_iff.mp h
        obtain ⟨rest, hrest, h⟩ := Option.bind_eq_some_iff.mp h
        cases h
        rw [List.forall_mem_cons]
        exact ⟨⟨items, hqs, Nat.le_max_left _ _⟩, hskipped hrest⟩
      · exact hskipped h
    | _ =>
      obtain ⟨-, hlists⟩ := Option.ite_none_left_eq_some.mp h
      exact hskipped hlists

/-- A call without parameters takes an array or an object, and one with parameters also the array
that holds them. -/
theorem call_of_of_json {j : Json} {f : String} {ps : List Value}
    (h : ofJson? j = some (.call f ps)) :
    (ps = [] ∧ 1 ≤ j.nesting) ∨
      ∃ js, ofJsonAll? js = some ps ∧ Json.nestingAll js + 2 ≤ j.nesting := by
  rw [ofJson?.eq_def] at h
  split at h
  · cases h
  · cases h
  · split at h
    · cases h
    · obtain ⟨x, -, hx⟩ := Option.map_eq_some_iff.mp h
      cases hx
  · obtain ⟨s, -, hs⟩ := Option.map_eq_some_iff.mp h
    cases hs
  · cases h
    exact Or.inl ⟨rfl, Nat.le_add_left 1 _⟩
  · rename_i items
    obtain ⟨qs, hqs, hcall⟩ := Option.map_eq_some_iff.mp h
    cases hcall
    refine Or.inr ⟨items, hqs, ?_⟩
    simp only [Json.nesting, Json.nestingAll]
    omega
  · cases h
  · rename_i members
    split at h
    · cases h
      exact Or.inl ⟨rfl, Nat.le_add_left 1 _⟩
    · rename_i hlists
      cases h
      obtain ⟨js, hjs, hdepth⟩ := parameter_lists_mem hlists ps (List.mem_singleton_self ps)
      exact Or.inr ⟨js, hjs, Nat.succ_le_succ hdepth⟩
    · cases h

theorem real_of_of_json {j : Json} {x : Binary64} (h : ofJson? j = some (.real x)) :
    ∃ n : Numeral, n.real? = some x := by
  rw [ofJson?.eq_def] at h
  split at h
  · cases h
  · cases h
  · rename_i n
    split at h
    · cases h
    · obtain ⟨y, hy, hx⟩ := Option.map_eq_some_iff.mp h
      cases hx
      exact ⟨n, hy⟩
  · obtain ⟨s, -, hs⟩ := Option.map_eq_some_iff.mp h
    cases hs
  · cases h
  · obtain ⟨qs, -, hcall⟩ := Option.map_eq_some_iff.mp h
    cases hcall
  · cases h
  · split at h <;> cases h

/-- By induction on the value, which is taken from JSON that is shallower in each parameter. -/
theorem loaded_of_of_json (v : Value) : ∀ j : Json, ofJson? j = some v → Loaded j.nesting v := by
  have hleaf : ∀ (v : Value) (n : Nat), v.toJson.nesting = 0 → v.toJson.nesting ≤ n :=
    fun v n h => h ▸ Nat.zero_le n
  induction v using induct with
  | null => exact fun j _ => ⟨hleaf _ _ rfl, by simp [leaves]⟩
  | integer n => exact fun j _ => ⟨hleaf _ _ rfl, by simp [leaves]⟩
  | text s => exact fun j _ => ⟨hleaf _ _ rfl, by simp [leaves]⟩
  | real x =>
    intro j h
    obtain ⟨n, hn⟩ := real_of_of_json h
    have hfinite := Numeral.is_finite_of_real hn
    refine ⟨hleaf _ _ ?_, by simpa [leaves] using hfinite⟩
    rw [toJson, if_pos hfinite]
    rfl
  | call f ps ih =>
    intro j h
    rcases call_of_of_json h with ⟨rfl, hdepth⟩ | ⟨js, hjs, hdepth⟩
    · exact ⟨hdepth, by simp [leaves, leavesAll]⟩
    · have hps : ∀ p ∈ ps, Loaded (Json.nestingAll js) p := by
        intro p hp
        obtain ⟨i, hi, hread⟩ := of_json_all_mem hjs p hp
        have hloaded := ih p hp i hread
        have hle := (Json.nesting_all_le js _).mp (Nat.le_refl _) i hi
        exact ⟨Nat.le_trans hloaded.nesting hle, hloaded.finite⟩
      refine ⟨Nat.le_trans (nesting_call_le f fun p hp => (hps p hp).nesting) hdepth, ?_⟩
      intro x hx
      obtain ⟨p, hp, hleaf⟩ := real_mem_leaves_all.mp hx
      exact (hps p hp).finite x hleaf

end Value

end RedoLog
