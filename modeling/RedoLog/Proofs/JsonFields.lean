import RedoLog.Json.Fields
import RedoLog.Ordered.Names
import RedoLog.Proofs.JsonNumbers
import RedoLog.Proofs.JsonRoundTrip
import RedoLog.Proofs.Maps

/-!
# Fields that are written and read

Items of an array and members of an object are read one by one, and reading succeeds if it does for
each of them. A map and a set are rebuilt from what they list, since they list nothing twice.
-/

set_option autoImplicit false

namespace RedoLog

section Lists

variable {α β : Type}

theorem mapm_eq_some_self {f : β → Option α} {g : α → β} (items : List α) :
    (items.map g).mapM f = some items ↔ ∀ a ∈ items, f (g a) = some a := by
  induction items with
  | nil => simp
  | cons a items ih =>
    rw [List.forall_mem_cons, ← ih, List.map_cons, List.mapM_cons]
    cases f (g a) with
    | none => simp
    | some b => cases (items.map g).mapM f <;> simp

theorem mem_of_mapm {f : β → Option α} {bs : List β} {as : List α} (h : bs.mapM f = some as) :
    ∀ a ∈ as, ∃ b ∈ bs, f b = some a := by
  induction bs generalizing as with
  | nil =>
    cases h
    simp
  | cons b bs ih =>
    rw [List.mapM_cons] at h
    obtain ⟨a, ha, h⟩ := Option.bind_eq_some_iff.mp h
    obtain ⟨rest, hrest, h⟩ := Option.bind_eq_some_iff.mp h
    cases h
    rw [List.forall_mem_cons]
    refine ⟨⟨b, List.mem_cons_self .., ha⟩, fun a' ha' => ?_⟩
    obtain ⟨b', hb', hread⟩ := ih hrest a' ha'
    exact ⟨b', List.mem_cons_of_mem _ hb', hread⟩

theorem keys_of_mapm {f : β → Option α} {entries : List (String × β)}
    {entries' : List (String × α)}
    (h : entries.mapM (fun entry => (f entry.2).map fun a => (entry.1, a)) = some entries') :
    entries'.map Prod.fst = entries.map Prod.fst := by
  induction entries generalizing entries' with
  | nil =>
    cases h
    rfl
  | cons entry entries ih =>
    rw [List.mapM_cons] at h
    obtain ⟨first, hfirst, h⟩ := Option.bind_eq_some_iff.mp h
    obtain ⟨rest, hrest, h⟩ := Option.bind_eq_some_iff.mp h
    obtain ⟨a, -, rfl⟩ := Option.map_eq_some_iff.mp hfirst
    cases h
    rw [List.map_cons, List.map_cons, ih hrest]

end Lists

theorem OrderedMap.of_entries_self {α : Type} (m : OrderedMap α) : ofEntries m.entries = m :=
  ext (entries_of_entries m.distinct)

theorem OrderedMap.of_entries_mapm {α β : Type} (m : OrderedMap α) (read? : β → Option α)
    (write : α → β) :
    ((m.entries.map fun entry => (entry.1, write entry.2)).mapM fun entry =>
        (read? entry.2).map fun a => (entry.1, a)).bind (fun entries =>
          some (ofEntries entries)) = some m ↔
      ∀ entry ∈ m.entries, read? (write entry.2) = some entry.2 := by
  have hall := mapm_eq_some_self
    (f := fun entry : String × β => (read? entry.2).map fun a => (entry.1, a))
    (g := fun entry : String × α => (entry.1, write entry.2)) m.entries
  have hentry : ∀ entry : String × α,
      (read? (write entry.2)).map (fun a => (entry.1, a)) = some entry ↔
        read? (write entry.2) = some entry.2 := by
    intro entry
    simp [Prod.ext_iff]
  simp only [hentry] at hall
  rw [← hall]
  constructor
  · intro h
    obtain ⟨entries, hentries, hm⟩ := Option.bind_eq_some_iff.mp h
    have hkeys : entries.map Prod.fst = m.entries.map Prod.fst := by
      rw [keys_of_mapm hentries, List.map_map]
      rfl
    have hsame : entries = m.entries := by
      rw [← Option.some.inj hm, entries_of_entries (hkeys ▸ m.distinct)]
    exact hsame ▸ hentries
  · intro h
    rw [h, Option.bind_some, m.of_entries_self]

theorem NameSet.names_insert_all (names : List String) (s : NameSet)
    (h : (s.names ++ names).Nodup) : (names.foldl insert s).names = s.names ++ names := by
  induction names generalizing s with
  | nil => exact (List.append_nil _).symm
  | cons name names ih =>
    have hnew : name ∉ s.names := by
      rw [List.nodup_append] at h
      exact fun hmem => h.2.2 _ hmem _ (List.mem_cons_self ..) rfl
    have hinsert : (s.insert name).names = s.names ++ [name] := by
      rw [insert, dif_neg hnew]
    rw [List.foldl_cons, ih _ (by rw [hinsert]; simpa using h), hinsert]
    simp

theorem NameSet.of_names_self (s : NameSet) : ofNames s.names = s :=
  ext (names_insert_all s.names empty s.distinct)

namespace Json

theorem proper_object {members : List (Option String × Json)}
    (h : ∀ entry ∈ members, entry.1.isSome = true ∧ entry.2.Proper) : Proper (.object members) :=
  .object _ (fun entry hentry => (h entry hentry).1) fun entry hentry => (h entry hentry).2

theorem proper_members {α : Type} (entries : List α) (name : α → String) (value : α → Json)
    (h : ∀ entry ∈ entries, (value entry).Proper) :
    Proper (.object (entries.map fun entry => member (name entry) (value entry))) := by
  refine .object _ ?_ ?_
  · simp [member]
  · simpa [member] using h

theorem proper_items {α : Type} (items : List α) (value : α → Json)
    (h : ∀ item ∈ items, (value item).Proper) : Proper (.array (items.map value)) :=
  .array _ (by simpa using h)

theorem proper_integer (n : Int) : Proper (.number (Numeral.ofInt n)) :=
  .number _ (by simp [Numeral.ofInt])

theorem nesting_all_le (items : List Json) (n : Nat) :
    nestingAll items ≤ n ↔ ∀ item ∈ items, item.nesting ≤ n := by
  induction items with
  | nil => simp [nestingAll]
  | cons item items ih => rw [nestingAll, Nat.max_le, ih, List.forall_mem_cons]

theorem nesting_all_members_le (members : List (Option String × Json)) (n : Nat) :
    nestingMembers members ≤ n ↔ ∀ entry ∈ members, entry.2.nesting ≤ n := by
  induction members with
  | nil => simp [nestingMembers]
  | cons entry members ih => rw [nestingMembers, Nat.max_le, ih, List.forall_mem_cons]

theorem nesting_items_le {α : Type} (items : List α) (value : α → Json) (n : Nat) :
    nesting (.array (items.map value)) ≤ n + 1 ↔ ∀ item ∈ items, (value item).nesting ≤ n := by
  rw [nesting, Nat.add_le_add_iff_right, nesting_all_le, List.forall_mem_map]

theorem nesting_members_le {α : Type} (entries : List α) (name : α → String) (value : α → Json)
    (n : Nat) :
    nesting (.object (entries.map fun entry => member (name entry) (value entry))) ≤ n + 1 ↔
      ∀ entry ∈ entries, (value entry).nesting ≤ n := by
  rw [nesting, Nat.add_le_add_iff_right, nesting_all_members_le, List.forall_mem_map]
  rfl

theorem members_object {α : Type} (entries : List (String × α)) (value : α → Json) :
    members? (.object (entries.map fun entry => member entry.1 (value entry.2))) =
      some (entries.map fun entry => (entry.1, value entry.2)) := by
  induction entries with
  | nil => rfl
  | cons entry entries ih =>
    simp only [members?, List.map_cons, List.mapM_cons, member] at ih ⊢
    rw [ih]
    rfl

theorem nat_below_of_int {n bound : Nat} (h : n < bound) :
    natBelow? bound (.number (Numeral.ofInt n)) = some n := by
  have hbounds : (0 : Int) ≤ n ∧ (n : Int) < bound := ⟨Int.natCast_nonneg n, Int.ofNat_lt.mpr h⟩
  simp [natBelow?, integer?, integer_of_int, hbounds]

theorem mapm_nat_below {α : Type} {toNat : α → Nat} {ofNat : Nat → α} {bound : Nat}
    (hbound : ∀ a, toNat a < bound) (hback : ∀ a, ofNat (toNat a) = a) (items : List α) :
    ((items.map fun a => number (Numeral.ofInt (toNat a))).mapM fun item =>
      (item.natBelow? bound).map ofNat) = some items := by
  apply (mapm_eq_some_self items).mpr
  intro a _
  rw [nat_below_of_int (hbound a), Option.map_some, hback]

end Json

end RedoLog
