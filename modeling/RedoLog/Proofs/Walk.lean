import RedoLog.Tree

/-!
# A walk lists the events of its tree

The walk keeps open nodes on a stack and looks at one of them at a time. What it has left to do at
any point is determined by that stack, so the events it yields are those of the recursion.
-/

set_option autoImplicit false

namespace RedoLog

namespace Node

mutual

theorem length_events (source : List Char) :
    ∀ n : Node, (n.events source).length = 2 * n.size
  | ⟨_, _, _, _, children⟩ => by
    simp [events, size, length_events_all source children]
    omega

theorem length_events_all (source : List Char) :
    ∀ ns : List Node, (eventsAll source ns).length = 2 * sizeAll ns
  | [] => rfl
  | n :: ns => by
    simp [eventsAll, sizeAll, length_events source n, length_events_all source ns]
    omega

end

theorem events_eq (source : List Char) (n : Node) :
    n.events source =
      n.event source .enter :: (eventsAll source n.children ++ [n.event source .exit]) := by
  cases n
  rfl

section Folding

variable {m : Type → Type} [Monad m] {σ : Type}

theorem foldlm_events_all_singleton (source : List Char) (f : σ → Event → m σ) (s : σ) (n : Node) :
    (eventsAll source [n]).foldlM f s = (n.events source).foldlM f s := by
  simp [eventsAll]

variable [LawfulMonad m]

theorem foldlm_events (source : List Char) (f : σ → Event → m σ) (s : σ) (n : Node) :
    (n.events source).foldlM f s =
      (do
        let s ← f s (n.event source .enter)
        let s ← (eventsAll source n.children).foldlM f s
        f s (n.event source .exit)) := by
  simp [events_eq]

theorem foldlm_events_all_cons (source : List Char) (f : σ → Event → m σ) (s : σ) (n : Node)
    (ns : List Node) :
    (eventsAll source (n :: ns)).foldlM f s =
      ((n.events source).foldlM f s >>= (eventsAll source ns).foldlM f) := by
  simp [eventsAll]

end Folding

end Node

namespace Walk

def pending (source : List Char) : List (Node × Nat) → List Event
  | [] => []
  | (n, place) :: path =>
    Node.eventsAll source (n.children.drop place) ++ n.event source .exit :: pending source path

def remaining (w : Walk) : List Event :=
  w.root.elim [] (Node.events w.source) ++ pending w.source w.path

/-- A walk yields the first of the events before it, and has ended if there are none. -/
theorem next_cases (w : Walk) :
    (w.next? = none ∧ w.remaining = []) ∨
      ∃ event w', w.next? = some (event, w') ∧ w.remaining = event :: w'.remaining := by
  obtain ⟨source, root, path⟩ := w
  cases root with
  | some root =>
    exact Or.inr ⟨_, _, rfl, by simp [remaining, pending, Node.events_eq]⟩
  | none =>
    match path with
    | [] => exact Or.inl ⟨rfl, rfl⟩
    | (n, place) :: path =>
      right
      cases hchild : n.children[place]? with
      | some child =>
        obtain ⟨hplace, hget⟩ := List.getElem?_eq_some_iff.mp hchild
        have hrest : n.children.drop place = child :: n.children.drop (place + 1) := by
          rw [List.drop_eq_getElem_cons hplace, hget]
        refine ⟨child.event source .enter, ⟨source, none, (child, 0) :: (n, place + 1) :: path⟩,
          by simp [next?, hchild], ?_⟩
        simp [remaining, pending, hrest, Node.eventsAll, Node.events_eq]
      | none =>
        have hrest : n.children.drop place = [] :=
          List.drop_eq_nil_of_le (List.getElem?_eq_none_iff.mp hchild)
        refine ⟨n.event source .exit, ⟨source, none, path⟩, by simp [next?, hchild], ?_⟩
        simp [remaining, pending, hrest, Node.eventsAll]

theorem take_eq (count : Nat) (w : Walk) : w.take count = w.remaining.take count := by
  induction count generalizing w with
  | zero => rfl
  | succ count ih =>
    rcases w.next_cases with ⟨hnext, hremaining⟩ | ⟨event, w', hnext, hremaining⟩
    · simp [take, hnext, hremaining]
    · simp [take, hnext, hremaining, ih]

def call (w : Walk) : Option Event × Walk :=
  match w.next? with
  | some (event, w) => (some event, w)
  | none => (none, w)

def calls : Nat → Walk → List (Option Event)
  | 0, _ => []
  | count + 1, w => w.call.1 :: calls count w.call.2

theorem calls_of_ended {w : Walk} (h : w.remaining = []) (count : Nat) :
    w.calls count = List.replicate count none := by
  have hcall : w.call = (none, w) := by
    rcases w.next_cases with ⟨hnext, -⟩ | ⟨event, w', -, hremaining⟩
    · simp [call, hnext]
    · rw [h] at hremaining
      cases hremaining
  induction count with
  | zero => rfl
  | succ count ih => rw [calls, hcall, ih, List.replicate_succ]

/-- Each call yields one of the events before the walk, and the calls behind them yield none. -/
theorem calls_remaining (w : Walk) (more : Nat) :
    w.calls (w.remaining.length + more) = w.remaining.map some ++ List.replicate more none := by
  induction hevents : w.remaining generalizing w with
  | nil => simp [calls_of_ended hevents]
  | cons e es ih =>
    rcases w.next_cases with ⟨-, hremaining⟩ | ⟨event, w', hnext, hremaining⟩
    · rw [hremaining] at hevents
      cases hevents
    · rw [hremaining] at hevents
      obtain ⟨rfl, hrest⟩ := List.cons.inj hevents
      rw [List.length_cons, Nat.add_right_comm]
      simp [calls, call, hnext, ih w' hrest]

end Walk

namespace ParseTree

theorem remaining_walk (t : ParseTree) : t.walk.remaining = t.root.events t.source := by
  simp [walk, Walk.remaining, Walk.pending]

theorem events_eq (t : ParseTree) : t.events = t.root.events t.source := by
  rw [events, Walk.take_eq, remaining_walk, ← Node.length_events t.source, List.take_length]

/-- The calls of a walk yield the events of its tree, as many as there are nodes to be entered and
left, and nothing from then on. -/
theorem calls_walk (t : ParseTree) (more : Nat) :
    t.walk.calls (2 * t.root.size + more) =
      (t.root.events t.source).map some ++ List.replicate more none := by
  have hcalls := t.walk.calls_remaining more
  rw [remaining_walk, Node.length_events] at hcalls
  exact hcalls

end ParseTree

end RedoLog
