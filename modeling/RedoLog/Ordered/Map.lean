/-!
# Maps in order of insertion

A map from names lists its entries in the order in which their names first came in. Putting a name
that is present keeps its place and replaces its value. No name stands twice.
-/

set_option autoImplicit false

namespace RedoLog

def putEntry {α : Type} (name : String) (value : α) : List (String × α) → List (String × α)
  | [] => [(name, value)]
  | (key, old) :: entries =>
    if key = name then (key, value) :: entries else (key, old) :: putEntry name value entries

theorem keys_put_entry {α : Type} (name : String) (value : α) (entries : List (String × α)) :
    (putEntry name value entries).map Prod.fst =
      if name ∈ entries.map Prod.fst then entries.map Prod.fst
      else entries.map Prod.fst ++ [name] := by
  induction entries with
  | nil => simp [putEntry]
  | cons entry entries ih =>
    obtain ⟨key, old⟩ := entry
    by_cases h : key = name
    · simp [putEntry, h]
    · have h' : name ≠ key := fun e => h e.symm
      simp only [putEntry, h, if_false, List.map_cons, ih, List.mem_cons, h', false_or]
      split <;> simp

theorem nodup_put_entry {α : Type} (name : String) (value : α) (entries : List (String × α))
    (h : (entries.map Prod.fst).Nodup) : ((putEntry name value entries).map Prod.fst).Nodup := by
  rw [keys_put_entry]
  split
  · exact h
  · rename_i hn
    rw [List.nodup_append]
    exact ⟨h, by simp, fun a ha b hb e => hn (by simp_all)⟩

structure OrderedMap (α : Type) where
  entries : List (String × α)
  distinct : (entries.map Prod.fst).Nodup

namespace OrderedMap

variable {α : Type}

@[ext] theorem ext {a b : OrderedMap α} (h : a.entries = b.entries) : a = b := by
  cases a; cases b; cases h; rfl

instance [DecidableEq α] : DecidableEq (OrderedMap α) := fun a b =>
  decidable_of_iff (a.entries = b.entries) ⟨OrderedMap.ext, fun h => h ▸ rfl⟩

def empty : OrderedMap α :=
  ⟨[], List.nodup_nil⟩

instance : Inhabited (OrderedMap α) :=
  ⟨empty⟩

def insert (m : OrderedMap α) (name : String) (value : α) : OrderedMap α :=
  ⟨putEntry name value m.entries, nodup_put_entry name value m.entries m.distinct⟩

def insertAll (m : OrderedMap α) (entries : List (String × α)) : OrderedMap α :=
  entries.foldl (fun m entry => m.insert entry.1 entry.2) m

def ofEntries (entries : List (String × α)) : OrderedMap α :=
  empty.insertAll entries

def get? (m : OrderedMap α) (name : String) : Option α :=
  m.entries.lookup name

def contains (m : OrderedMap α) (name : String) : Bool :=
  (m.get? name).isSome

def keys (m : OrderedMap α) : List String :=
  m.entries.map Prod.fst

@[simp] theorem entries_empty : (empty : OrderedMap α).entries = [] :=
  rfl

@[simp] theorem entries_insert (m : OrderedMap α) (name : String) (value : α) :
    (m.insert name value).entries = putEntry name value m.entries :=
  rfl

end OrderedMap

end RedoLog
