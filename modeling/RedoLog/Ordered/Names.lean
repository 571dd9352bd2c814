/-!
# Sets of names in order of insertion

A name that is present already changes nothing, so the first place of a name counts.
-/

set_option autoImplicit false

namespace RedoLog

structure NameSet where
  names : List String
  distinct : names.Nodup

namespace NameSet

@[ext] theorem ext {a b : NameSet} (h : a.names = b.names) : a = b := by
  cases a; cases b; cases h; rfl

instance : DecidableEq NameSet := fun a b =>
  decidable_of_iff (a.names = b.names) ⟨NameSet.ext, fun h => h ▸ rfl⟩

def empty : NameSet :=
  ⟨[], List.nodup_nil⟩

instance : Inhabited NameSet :=
  ⟨empty⟩

def insert (s : NameSet) (name : String) : NameSet :=
  if h : name ∈ s.names then s
  else
    ⟨s.names ++ [name], by
      rw [List.nodup_append]
      exact ⟨s.distinct, by simp, fun a ha b hb e => h (by simp_all)⟩⟩

def ofNames (names : List String) : NameSet :=
  names.foldl insert empty

end NameSet

end RedoLog
