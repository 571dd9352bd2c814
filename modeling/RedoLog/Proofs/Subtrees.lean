import RedoLog.Proofs.Walk

/-!
# Where a subtree stands in a walk

The events of a subtree follow each other in the walk of its tree, with some events in front of them
and some behind. Every exit in a walk is the last event of one subtree.
-/

set_option autoImplicit false

namespace RedoLog

namespace Node

variable (source : List Char)

inductive StandsIn (n : Node) : Node → List Event → List Event → Prop where
  | root : StandsIn n n [] []
  | child (parent child : Node) (left right : List Node) (before behind : List Event)
      (hchildren : parent.children = left ++ child :: right)
      (h : StandsIn n child before behind) :
      StandsIn n parent (parent.event source .enter :: (eventsAll source left ++ before))
        (behind ++ (eventsAll source right ++ [parent.event source .exit]))

theorem events_all_append (ns ms : List Node) :
    eventsAll source (ns ++ ms) = eventsAll source ns ++ eventsAll source ms := by
  induction ns with
  | nil => rfl
  | cons n ns ih => simp [eventsAll, ih]

variable {source}

theorem StandsIn.events_eq {n root : Node} {before behind : List Event}
    (h : StandsIn source n root before behind) :
    root.events source = before ++ (n.events source ++ behind) := by
  induction h with
  | root => simp
  | child parent child left right before behind hchildren _ ih =>
    rw [Node.events_eq, hchildren, events_all_append, eventsAll, ih]
    simp

theorem exists_of_events_all {ns : List Node} {before behind : List Event} {e : Event}
    (h : eventsAll source ns = before ++ e :: behind) :
    ∃ left n right before' behind', ns = left ++ n :: right ∧
      n.events source = before' ++ e :: behind' ∧ before = eventsAll source left ++ before' ∧
      behind = behind' ++ eventsAll source right := by
  induction ns generalizing before with
  | nil => simp [eventsAll] at h
  | cons n ns ih =>
    rw [eventsAll, List.append_eq_append_iff] at h
    rcases h with ⟨more, rfl, hmore⟩ | ⟨more, hn, hmore⟩
    · obtain ⟨left, m, right, before', behind', rfl, hm, rfl, rfl⟩ := ih hmore
      exact ⟨n :: left, m, right, before', behind', rfl, hm, by simp [eventsAll], rfl⟩
    · rcases List.cons_eq_append_iff.mp hmore with ⟨rfl, hrest⟩ | ⟨behind', rfl, rfl⟩
      · -- The event is the first of the trees that follow.
        have hfirst : eventsAll source ns = [] ++ e :: behind := hrest
        obtain ⟨left, m, right, before', behind', rfl, hm, hbefore, rfl⟩ := ih hfirst
        obtain ⟨hleft, rfl⟩ := List.append_eq_nil_iff.mp hbefore.symm
        refine ⟨n :: left, m, right, [], behind', rfl, hm, ?_, rfl⟩
        simp [eventsAll, hleft, hn]
      · exact ⟨[], n, ns, before, behind', rfl, hn, rfl, rfl⟩

/-- A subtree ends with every exit. -/
theorem exists_stands_in_of_exit (root : Node) (before : List Event) (e : Event)
    (behind : List Event) (h : root.events source = before ++ e :: behind)
    (hexit : e.phase = .exit) :
    ∃ n front, StandsIn source n root front behind ∧ e = n.event source .exit ∧
      before ++ [e] = front ++ n.events source := by
  rw [Node.events_eq, ← List.cons_append] at h
  rcases List.eq_nil_or_concat behind with rfl | ⟨inner, last, rfl⟩
  · obtain ⟨hfront, hlast⟩ := List.append_inj' h rfl
    obtain rfl : root.event source .exit = e := by simpa using hlast
    exact ⟨root, [], .root, rfl, by rw [Node.events_eq, ← hfront]; rfl⟩
  · rw [List.concat_eq_append, ← List.cons_append, ← List.append_assoc] at h
    obtain ⟨hfront, hlast⟩ := List.append_inj' h rfl
    obtain rfl : root.event source .exit = last := by simpa using hlast
    cases before with
    | nil =>
      -- The first event of a walk enters.
      rw [List.nil_append, List.cons.injEq] at hfront
      rw [← hfront.1] at hexit
      cases hexit
    | cons first before =>
      rw [List.cons_append, List.cons.injEq] at hfront
      obtain ⟨rfl, hinside⟩ := hfront
      obtain ⟨left, child, right, before', inner', hchildren, hchild, rfl, rfl⟩ :=
        exists_of_events_all hinside
      have hless : sizeOf child < sizeOf root := by
        have hmember : sizeOf child < sizeOf root.children :=
          List.sizeOf_lt_of_mem (by rw [hchildren]; simp)
        cases root
        simp only [Node.mk.sizeOf_spec] at hmember ⊢
        omega
      obtain ⟨n, front, hn, he, hends⟩ :=
        exists_stands_in_of_exit child before' e inner' hchild hexit
      refine ⟨n, root.event source .enter :: (eventsAll source left ++ front), ?_, he, ?_⟩
      · have hstands := StandsIn.child root child left right front inner' hchildren hn
        simpa using hstands
      · simp [← hends]
termination_by sizeOf root

end Node

end RedoLog
