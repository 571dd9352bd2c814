import RedoLog.Ordered.Map

/-!
# What a map holds

A map is known from its names in order and the value that each of them has. Of several entries for
one name that come in, the last one counts. Entries leave a map as it is exactly if it has their
values already. Values can be replaced when they come in or in the whole map.
-/

set_option autoImplicit false

namespace RedoLog

variable {α : Type}

theorem lookup_cons_of_ne {key name : String} (h : key ≠ name) (value : α)
    (entries : List (String × α)) :
    ((name, value) :: entries).lookup key = entries.lookup key := by
  rw [List.lookup_cons, beq_false_of_ne h]

theorem lookup_put_entry (name : String) (value : α) (entries : List (String × α)) (key : String) :
    (putEntry name value entries).lookup key =
      if key = name then some value else entries.lookup key := by
  induction entries with
  | nil =>
    by_cases h : key = name
    · simp [putEntry, h]
    · simp [putEntry, h, lookup_cons_of_ne h]
  | cons entry entries ih =>
    obtain ⟨first, old⟩ := entry
    by_cases hfirst : first = name
    · by_cases h : key = name
      · simp [putEntry, hfirst, h]
      · simp [putEntry, hfirst, h, lookup_cons_of_ne h]
    · by_cases h : key = first
      · simp [putEntry, hfirst, h]
      · simp [putEntry, hfirst, lookup_cons_of_ne h, ih]

theorem put_entry_of_not_mem {name : String} {entries : List (String × α)}
    (h : name ∉ entries.map Prod.fst) (value : α) :
    putEntry name value entries = entries ++ [(name, value)] := by
  induction entries with
  | nil => rfl
  | cons entry entries ih =>
    rw [List.map_cons, List.mem_cons, not_or] at h
    obtain ⟨hfirst, hrest⟩ := h
    simp only [putEntry, if_neg (Ne.symm hfirst), ih hrest, List.cons_append]

theorem mem_of_mem_put_entry {name : String} {value : α} {entries : List (String × α)}
    {entry : String × α} (h : entry ∈ putEntry name value entries) :
    entry ∈ entries ∨ entry = (name, value) := by
  induction entries with
  | nil => simpa [putEntry] using h
  | cons first entries ih =>
    by_cases hfirst : first.1 = name
    · simp only [putEntry, hfirst, if_true, List.mem_cons] at h
      rcases h with rfl | h
      · exact Or.inr rfl
      · exact Or.inl (List.mem_cons_of_mem _ h)
    · simp only [putEntry, hfirst, if_false, List.mem_cons] at h
      rcases h with rfl | h
      · exact Or.inl (List.mem_cons_self ..)
      · exact (ih h).imp_left (List.mem_cons_of_mem _)

theorem eq_of_lookup {es fs : List (String × α)} (hdistinct : (es.map Prod.fst).Nodup)
    (hnames : es.map Prod.fst = fs.map Prod.fst)
    (hvalues : ∀ name ∈ es.map Prod.fst, es.lookup name = fs.lookup name) : es = fs := by
  induction es generalizing fs with
  | nil => simpa using hnames.symm
  | cons e es ih =>
    cases fs with
    | nil => simp at hnames
    | cons f fs =>
      obtain ⟨name, value⟩ := e
      obtain ⟨name', value'⟩ := f
      simp only [List.map_cons, List.cons.injEq] at hnames hdistinct
      obtain ⟨rfl, hrest⟩ := hnames
      rw [List.nodup_cons] at hdistinct
      have hvalue : value = value' := by simpa using hvalues name (by simp)
      have hbehind : ∀ key ∈ es.map Prod.fst, es.lookup key = fs.lookup key := by
        intro key hkey
        have hne : key ≠ name := by
          rintro rfl
          exact hdistinct.1 hkey
        simpa [lookup_cons_of_ne hne] using hvalues key (List.mem_cons_of_mem _ hkey)
      rw [hvalue, ih hdistinct.2 hrest hbehind]

namespace OrderedMap

theorem get_insert (m : OrderedMap α) (name : String) (value : α) (key : String) :
    (m.insert name value).get? key = if key = name then some value else m.get? key :=
  lookup_put_entry name value m.entries key

theorem keys_insert (m : OrderedMap α) (name : String) (value : α) :
    (m.insert name value).keys = if name ∈ m.keys then m.keys else m.keys ++ [name] :=
  keys_put_entry name value m.entries

theorem mem_keys (m : OrderedMap α) (name : String) :
    name ∈ m.keys ↔ (m.get? name).isSome = true := by
  rw [keys, get?, List.lookup_isSome_iff, List.mem_map]
  constructor
  · rintro ⟨entry, hentry, rfl⟩
    exact ⟨entry, hentry, by simp⟩
  · rintro ⟨entry, hentry, hname⟩
    exact ⟨entry, hentry, (eq_of_beq hname).symm⟩

theorem eq_of_get {a b : OrderedMap α} (hkeys : a.keys = b.keys)
    (hvalues : ∀ name, a.get? name = b.get? name) : a = b :=
  ext (eq_of_lookup a.distinct hkeys fun name _ => hvalues name)

theorem of_entries_append (es fs : List (String × α)) :
    ofEntries (es ++ fs) = (ofEntries es).insertAll fs :=
  List.foldl_append

theorem insert_all_cons (m : OrderedMap α) (entry : String × α) (entries : List (String × α)) :
    m.insertAll (entry :: entries) = (m.insert entry.1 entry.2).insertAll entries :=
  rfl

theorem get_insert_all (m : OrderedMap α) (entries : List (String × α)) (name : String) :
    (m.insertAll entries).get? name = (entries.reverse.lookup name).or (m.get? name) := by
  induction entries generalizing m with
  | nil => rfl
  | cons entry entries ih =>
    obtain ⟨key, value⟩ := entry
    rw [insert_all_cons, ih, get_insert, List.reverse_cons, List.lookup_append, Option.or_assoc]
    by_cases h : name = key
    · simp [h]
    · simp [h, lookup_cons_of_ne h]

theorem keys_insert_all_of_mem (m : OrderedMap α) (entries : List (String × α))
    (h : ∀ entry ∈ entries, entry.1 ∈ m.keys) : (m.insertAll entries).keys = m.keys := by
  induction entries generalizing m with
  | nil => rfl
  | cons entry entries ih =>
    rw [List.forall_mem_cons] at h
    have hkeys : (m.insert entry.1 entry.2).keys = m.keys := by rw [keys_insert, if_pos h.1]
    have hrest : ∀ other ∈ entries, other.1 ∈ (m.insert entry.1 entry.2).keys := by
      rw [hkeys]
      exact h.2
    rw [insert_all_cons, ih _ hrest, hkeys]

/-- Names that are new come behind those of the map, in order. -/
theorem keys_insert_all (m : OrderedMap α) (entries : List (String × α))
    (h : (entries.map Prod.fst).Nodup) :
    (m.insertAll entries).keys =
      m.keys ++ (entries.map Prod.fst).filter fun name => name ∉ m.keys := by
  induction entries generalizing m with
  | nil => simp [insertAll]
  | cons entry entries ih =>
    rw [List.map_cons, List.nodup_cons] at h
    obtain ⟨hfirst, hrest⟩ := h
    rw [insert_all_cons, ih _ hrest, keys_insert, List.map_cons]
    by_cases hold : entry.1 ∈ m.keys
    · rw [if_pos hold, List.filter_cons_of_neg (by simpa using hold)]
    · -- The name is new, and none of those behind it is the same.
      have hother : ((entries.map Prod.fst).filter fun name => name ∉ m.keys ++ [entry.1]) =
          (entries.map Prod.fst).filter fun name => name ∉ m.keys := by
        apply List.filter_congr
        intro name hname
        have hne : name ≠ entry.1 := by
          rintro rfl
          exact hfirst hname
        simp [hne]
      rw [if_neg hold, List.filter_cons_of_pos (by simpa using hold), hother, List.append_assoc]
      rfl

theorem entries_insert_all_of_nodup (m : OrderedMap α) (entries : List (String × α))
    (h : ((m.entries ++ entries).map Prod.fst).Nodup) :
    (m.insertAll entries).entries = m.entries ++ entries := by
  induction entries generalizing m with
  | nil => exact (List.append_nil _).symm
  | cons entry entries ih =>
    have hnew : entry.1 ∉ m.entries.map Prod.fst := by
      rw [List.map_append, List.map_cons, List.nodup_append] at h
      intro hmem
      exact h.2.2 _ hmem _ (List.mem_cons_self ..) rfl
    have hput : (m.insert entry.1 entry.2).entries = m.entries ++ [entry] :=
      put_entry_of_not_mem hnew entry.2
    have hrest : (((m.insert entry.1 entry.2).entries ++ entries).map Prod.fst).Nodup := by
      rw [hput]
      simpa using h
    rw [insert_all_cons, ih _ hrest, hput]
    simp

theorem entries_of_entries {entries : List (String × α)} (h : (entries.map Prod.fst).Nodup) :
    (ofEntries entries).entries = entries :=
  entries_insert_all_of_nodup empty entries h

theorem is_some_lookup_reverse {entries : List (String × α)} {entry : String × α}
    (h : entry ∈ entries) : (entries.reverse.lookup entry.1).isSome = true := by
  rw [List.lookup_isSome_iff]
  exact ⟨entry, by simpa using h, by simp⟩

theorem mem_keys_of_entries {entries : List (String × α)} {entry : String × α}
    (h : entry ∈ entries) : entry.1 ∈ (ofEntries entries).keys := by
  rw [mem_keys, ofEntries, get_insert_all, Option.isSome_or, is_some_lookup_reverse h, Bool.true_or]

theorem mem_entries_insert_all {m : OrderedMap α} {entries : List (String × α)}
    {entry : String × α} (h : entry ∈ (m.insertAll entries).entries) :
    entry ∈ m.entries ∨ entry ∈ entries := by
  induction entries generalizing m with
  | nil => exact Or.inl h
  | cons first entries ih =>
    rw [insert_all_cons] at h
    rcases ih h with hmem | hmem
    · rcases mem_of_mem_put_entry hmem with hold | rfl
      · exact Or.inl hold
      · exact Or.inr (List.mem_cons_self ..)
    · exact Or.inr (List.mem_cons_of_mem _ hmem)

theorem insert_all_eq_self_iff (m : OrderedMap α) (entries : List (String × α)) :
    m.insertAll entries = m ↔
      ∀ name value, entries.reverse.lookup name = some value → m.get? name = some value := by
  constructor
  · intro h name value hlast
    calc m.get? name
        = (m.insertAll entries).get? name := by rw [h]
      _ = some value := by rw [get_insert_all, hlast, Option.some_or]
  · intro h
    apply eq_of_get
    · apply keys_insert_all_of_mem
      intro entry hentry
      obtain ⟨value, hlast⟩ := Option.isSome_iff_exists.mp (is_some_lookup_reverse hentry)
      rw [mem_keys, h entry.1 value hlast]
      rfl
    · intro name
      rw [get_insert_all]
      cases hlast : entries.reverse.lookup name with
      | none => rfl
      | some value => rw [Option.some_or, h name value hlast]

section Values

variable {β : Type} (f : α → β)

def mapValues (m : OrderedMap α) : OrderedMap β :=
  ⟨m.entries.map fun entry => (entry.1, f entry.2), by
    rw [List.map_map]
    exact m.distinct⟩

theorem map_values_insert (m : OrderedMap α) (name : String) (value : α) :
    (m.insert name value).mapValues f = (m.mapValues f).insert name (f value) := by
  apply ext
  show (putEntry name value m.entries).map _ = putEntry name (f value) (m.entries.map _)
  induction m.entries with
  | nil => rfl
  | cons entry entries ih =>
    by_cases h : entry.1 = name
    · simp [putEntry, h]
    · simp [putEntry, h, ih]

theorem map_values_insert_all (m : OrderedMap α) (entries : List (String × α)) :
    (m.insertAll entries).mapValues f =
      (m.mapValues f).insertAll (entries.map fun entry => (entry.1, f entry.2)) := by
  induction entries generalizing m with
  | nil => rfl
  | cons entry entries ih =>
    rw [insert_all_cons, ih, map_values_insert, List.map_cons, insert_all_cons]

theorem map_values_of_entries (entries : List (String × α)) :
    (ofEntries entries).mapValues f =
      ofEntries (entries.map fun entry => (entry.1, f entry.2)) :=
  map_values_insert_all f empty entries

end Values

end OrderedMap

end RedoLog
