import RedoLog.Proofs.InsertRuns
import RedoLog.Proofs.Subtrees

/-!
# Assignments do not disturb each other

A tree may have nodes of any kinds in any places, with any token indices. Its events still come in
pairs of an enter and the exit of the same node, and between the two every subtree leaves the stack
as deep as it was: below the top slot nothing changes, and the top slot stays that of its
expression. An assignment can only be opened while no row value is open, when the stack is empty.
So each assignment starts and ends with an empty stack, and emits what it would emit alone.
-/

set_option autoImplicit false

namespace RedoLog

namespace Slot

def emptied : Slot → Slot
  | .unary tokenIndex _ => .unary tokenIndex none
  | .function tokenIndex name _ => .function tokenIndex name []

theorem emptied_append {slot slot' : Slot} {value : Value} (h : slot.append value = .ok slot') :
    slot'.emptied = slot.emptied := by
  cases slot with
  | unary tokenIndex held =>
    cases held with
    | some held => cases h
    | none =>
      cases h
      rfl
  | function tokenIndex name parameters =>
    cases h
    rfl

end Slot

namespace Slots

/-- What a subtree finds and has to leave: the expression of the top slot, and all slots below. -/
def frame : Slots → Slots
  | [] => []
  | top :: below => top.emptied :: below

theorem eq_nil_of_frame {slots : Slots} (h : slots.frame = []) : slots = [] := by
  cases slots with
  | nil => rfl
  | cons top below => cases h

theorem frame_attach {e : Event} {value : Value} {slots slots' : Slots}
    (h : attach e value slots = .ok slots') : slots'.frame = slots.frame := by
  cases slots with
  | nil => cases h
  | cons top below =>
    obtain ⟨top', htop, h⟩ := bind_eq_ok h
    cases h
    rw [frame, frame, Slot.emptied_append htop]

theorem frame_deliver {value : Value} {slots slots' : Slots} {given : Option Value}
    (h : deliver value slots = .ok (given, slots')) : slots'.frame = slots.frame := by
  cases slots with
  | nil =>
    cases h
    rfl
  | cons parent below =>
    obtain ⟨parent', hparent, h⟩ := bind_eq_ok h
    cases h
    rw [frame, frame, Slot.emptied_append hparent]

theorem frame_exit_unary {e : Event} {slots inside slots' : Slots} {given : Option Value}
    (hinside : inside.frame = .unary e.tokenIndex none :: slots)
    (h : exitUnary e inside = .ok (given, slots')) : slots'.frame = slots.frame := by
  cases inside with
  | nil => cases hinside
  | cons top below =>
    obtain ⟨htop, rfl⟩ := List.cons.inj hinside
    cases top with
    | function tokenIndex name parameters => cases htop
    | unary tokenIndex held =>
      cases htop
      have hclose : exitUnary e (.unary e.tokenIndex held :: below) =
          closeUnary e [] (.unary e.tokenIndex held) below := by
        simp [exitUnary, Slot.isUnaryAt]
      rw [hclose] at h
      obtain ⟨value, -, h⟩ := bind_eq_ok h
      exact frame_deliver h

theorem frame_exit_function {e : Event} {name : String} {slots inside slots' : Slots}
    (hinside : inside.frame = .function e.tokenIndex name [] :: slots)
    (h : exitFunction e inside = .ok slots') : slots'.frame = slots.frame := by
  cases inside with
  | nil => cases hinside
  | cons top below =>
    obtain ⟨htop, rfl⟩ := List.cons.inj hinside
    cases top with
    | unary tokenIndex held => cases htop
    | function tokenIndex name parameters =>
      cases htop
      rw [exitFunction, if_pos rfl] at h
      exact frame_attach h

/-- The stack has the frame of before once a node is left, if it had the frame of the entered node
just before that. -/
theorem frame_of_handle (trim : Bool) (production : Production) (tokenIndex : Nat) (text : String)
    {slots entered inside slots' : Slots} {given given' : Option Value}
    (henter : handle trim slots ⟨.enter, production, tokenIndex, text⟩ = .ok (given, entered))
    (hinside : inside.frame = entered.frame)
    (hexit : handle trim inside ⟨.exit, production, tokenIndex, text⟩ = .ok (given', slots')) :
    slots'.frame = slots.frame := by
  cases production with
  | unaryExpression =>
    cases henter
    exact frame_exit_unary hinside hexit
  | function name =>
    obtain ⟨slots'', hfunction, henter⟩ := bind_eq_ok henter
    cases henter
    obtain ⟨closed, hclosed, hexit⟩ := bind_eq_ok hexit
    cases hexit
    simp only [enterFunction] at hfunction
    split at hfunction
    · cases hfunction
      exact frame_exit_function hinside hclosed
    · cases hfunction
  | constant c =>
    obtain ⟨slots'', hconstant, henter⟩ := bind_eq_ok henter
    cases henter
    cases hexit
    rw [hinside]
    simp only [enterConstant] at hconstant
    split at hconstant
    · exact frame_attach hconstant
    · cases hconstant
      rfl
  | quotedString =>
    obtain ⟨slots'', hattach, henter⟩ := bind_eq_ok henter
    cases henter
    cases hexit
    rw [hinside, frame_attach hattach]
  | _ =>
    cases henter
    cases hexit
    exact hinside

end Slots

namespace UpdateReplay

variable {options : Options}

/-- Values are under construction only while a row value is open. -/
def Settled (r : UpdateReplay) : Prop :=
  r.row = none → r.slots = []

def frame (r : UpdateReplay) : Bool × Slots :=
  (r.row.isSome, r.slots.frame)

theorem Settled.of_frame {r r' : UpdateReplay} (hr : r.Settled) (h : r'.frame = r.frame) :
    r'.Settled := by
  intro hrow
  obtain ⟨hisSome, hslots⟩ := Prod.mk.inj h
  have hnone : r.row = none := by simpa [hrow] using hisSome.symm
  rw [hr hnone] at hslots
  exact Slots.eq_nil_of_frame hslots

theorem frame_of_closed {r : UpdateReplay} (hr : r.Settled) (hrow : r.row = none) :
    r.frame = (false, []) := by
  rw [frame, hrow, hr hrow]
  rfl

/-- Events other than those of the statement, its assignments and columns go to the stack, which
may leave them alone. -/
theorem handle_eq_take_expression (r : UpdateReplay) {e : Event}
    (hstatement : e.production ≠ .updateStatement) (hassignment : e.production ≠ .setItem)
    (hcolumn : e.production ≠ .columnName) : handle options r e = r.takeExpression options e := by
  have htake : handle options r e =
      if Slots.accepts e then r.takeExpression options e else .ok r := by
    obtain ⟨phase, production, tokenIndex, text⟩ := e
    cases production <;> first | contradiction | rfl
  rw [htake]
  split
  · rfl
  · rename_i haccepts
    rw [Bool.not_eq_true] at haccepts
    obtain ⟨row, slots, columns⟩ := r
    cases row with
    | none => rfl
    | some row => simp [takeExpression, Slots.handle_of_not_accepts haccepts]; rfl

theorem take_expression_some {row : RowValue} {slots : Slots} {columns : Columns} {e : Event}
    {r : UpdateReplay} (h : takeExpression options ⟨some row, slots, columns⟩ e = .ok r) :
    ∃ given row', Slots.handle options.trimText slots e = .ok (given, r.slots) ∧
      r.row = some row' := by
  obtain ⟨⟨given, slots'⟩, hhandle, h⟩ := bind_eq_ok h
  cases given with
  | none =>
    cases h
    exact ⟨none, row, hhandle, rfl⟩
  | some value =>
    obtain ⟨row', -, h⟩ := bind_eq_ok h
    cases h
    -- A value is given out by the exit that empties the stack.
    obtain ⟨-, -, rfl⟩ := (Slots.step_of_handle hhandle).given.mp rfl
    exact ⟨some value, row', hhandle, rfl⟩

section Bracket

variable {r entered inside r' : UpdateReplay} {production : Production} {tokenIndex : Nat}
  {text : String}

theorem settled_of_enter (hr : r.Settled)
    (h : handle options r ⟨.enter, production, tokenIndex, text⟩ = .ok entered) :
    entered.Settled := by
  by_cases hstatement : production = .updateStatement
  · subst hstatement
    cases h
    exact fun _ => rfl
  by_cases hassignment : production = .setItem
  · subst hassignment
    simp only [handle, openRow] at h
    split at h
    · cases h
    · cases h
      exact fun hrow => nomatch hrow
  by_cases hcolumn : production = .columnName
  · subst hcolumn
    simp only [handle, nameRow] at h
    split at h
    · cases h
    · obtain ⟨row, -, h⟩ := bind_eq_ok h
      cases h
      exact fun hrow => nomatch hrow
  rw [handle_eq_take_expression r hstatement hassignment hcolumn] at h
  obtain ⟨row, slots, columns⟩ := r
  cases row with
  | none =>
    cases h
    exact hr
  | some row =>
    obtain ⟨given, row', -, hrow'⟩ := take_expression_some h
    exact fun hrow => nomatch hrow'.symm.trans hrow

theorem frame_of_assignment (hr : r.Settled)
    (henter : handle options r ⟨.enter, .setItem, tokenIndex, text⟩ = .ok entered)
    (hinside : inside.frame = entered.frame)
    (hexit : handle options inside ⟨.exit, .setItem, tokenIndex, text⟩ = .ok r') :
    r = ⟨none, [], r.columns⟩ ∧ r'.row = none ∧ r'.slots = [] := by
  obtain ⟨row, slots, columns⟩ := r
  cases row with
  | some row => cases henter
  | none =>
    obtain rfl : slots = [] := hr rfl
    cases henter
    obtain ⟨-, hslots⟩ := Prod.mk.inj hinside
    simp only [handle, closeRow] at hexit
    split at hexit
    · cases hexit
    · obtain ⟨pair, -, hexit⟩ := bind_eq_ok hexit
      cases hexit
      exact ⟨rfl, rfl, Slots.eq_nil_of_frame hslots⟩

/-- A statement cannot stand in an assignment: its exit asks that no row value is open. -/
theorem frame_of_statement (hr : r.Settled)
    (henter : handle options r ⟨.enter, .updateStatement, tokenIndex, text⟩ = .ok entered)
    (hinside : inside.frame = entered.frame)
    (hexit : handle options inside ⟨.exit, .updateStatement, tokenIndex, text⟩ = .ok r') :
    r'.frame = r.frame := by
  cases henter
  simp only [handle, finish] at hexit
  split at hexit
  · cases hexit
  · rename_i hclosed
    obtain rfl : inside = r' := by
      split at hexit <;> cases hexit
      rfl
    obtain ⟨hisSome, -⟩ := Prod.mk.inj hinside
    have hrow : r.row = none := by simpa [hclosed] using hisSome.symm
    rw [frame_of_closed hr hrow, hinside, frame, hrow]
    rfl

theorem frame_of_column
    (henter : handle options r ⟨.enter, .columnName, tokenIndex, text⟩ = .ok entered)
    (hinside : inside.frame = entered.frame)
    (hexit : handle options inside ⟨.exit, .columnName, tokenIndex, text⟩ = .ok r') :
    r'.frame = r.frame := by
  cases hexit
  rw [hinside]
  obtain ⟨row, slots, columns⟩ := r
  cases row with
  | none => cases henter
  | some row =>
    obtain ⟨row', -, henter⟩ := bind_eq_ok henter
    cases henter
    rfl

theorem frame_of_expression
    (henter : r.takeExpression options ⟨.enter, production, tokenIndex, text⟩ = .ok entered)
    (hinside : inside.frame = entered.frame)
    (hexit : inside.takeExpression options ⟨.exit, production, tokenIndex, text⟩ = .ok r') :
    r'.frame = r.frame := by
  obtain ⟨hisSome, hslots⟩ := Prod.mk.inj hinside
  obtain ⟨row, slots, columns⟩ := r
  obtain ⟨row₁, slots₁, columns₁⟩ := inside
  cases row with
  | none =>
    cases henter
    cases row₁ with
    | some row₁ => cases hisSome
    | none =>
      cases hexit
      exact hinside
  | some row =>
    obtain ⟨given, row', henters, hrow'⟩ := take_expression_some henter
    cases row₁ with
    | none =>
      rw [hrow'] at hisSome
      cases hisSome
    | some row₁ =>
      obtain ⟨given', row'', hexits, hrow''⟩ := take_expression_some hexit
      rw [frame, hrow'', Slots.frame_of_handle _ _ _ _ henters hslots hexits]
      rfl

theorem frame_of_handle (hr : r.Settled)
    (henter : handle options r ⟨.enter, production, tokenIndex, text⟩ = .ok entered)
    (hinside : inside.frame = entered.frame)
    (hexit : handle options inside ⟨.exit, production, tokenIndex, text⟩ = .ok r') :
    r'.frame = r.frame := by
  by_cases hstatement : production = .updateStatement
  · subst hstatement
    exact frame_of_statement hr henter hinside hexit
  by_cases hassignment : production = .setItem
  · subst hassignment
    obtain ⟨hfound, hrow, hslots⟩ := frame_of_assignment hr henter hinside hexit
    rw [hfound, frame, frame, hrow, hslots]
  by_cases hcolumn : production = .columnName
  · subst hcolumn
    exact frame_of_column henter hinside hexit
  rw [handle_eq_take_expression _ hstatement hassignment hcolumn] at henter hexit
  exact frame_of_expression henter hinside hexit

end Bracket

mutual

/-- By recursion on the tree: whatever the nodes are, a subtree leaves the frame that it found. -/
theorem frame_of_events (source : List Char) : ∀ (n : Node) {r r' : UpdateReplay}, r.Settled →
    (n.events source).foldlM (handle options) r = .ok r' → r'.frame = r.frame
  | ⟨production, tokenIndex, start, stop, children⟩, r, r', hr, h => by
    rw [Node.foldlm_events] at h
    obtain ⟨entered, henter, h⟩ := bind_eq_ok h
    obtain ⟨inside, hchildren, hexit⟩ := bind_eq_ok h
    have hentered := settled_of_enter hr henter
    have hinside := frame_of_events_all source children hentered hchildren
    exact frame_of_handle hr henter hinside hexit

theorem frame_of_events_all (source : List Char) : ∀ (ns : List Node) {r r' : UpdateReplay},
    r.Settled → (Node.eventsAll source ns).foldlM (handle options) r = .ok r' → r'.frame = r.frame
  | [], r, r', _, h => by
    cases h
    rfl
  | n :: ns, r, r', hr, h => by
    rw [Node.foldlm_events_all_cons] at h
    obtain ⟨between, hfirst, hrest⟩ := bind_eq_ok h
    have hbetween := frame_of_events source n hr hfirst
    exact (frame_of_events_all source ns (hr.of_frame hbetween) hrest).trans hbetween

end

theorem settled_of_stands_in {source : List Char} {n root : Node} {front behind : List Event}
    (hn : Node.StandsIn source n root front behind) {r r' : UpdateReplay} (hr : r.Settled)
    (h : front.foldlM (handle options) r = .ok r') : r'.Settled := by
  induction hn generalizing r with
  | root =>
    cases h
    exact hr
  | child parent child left right before behind hchildren hchild ih =>
    rw [List.foldlM_cons] at h
    obtain ⟨entered, henter, h⟩ := bind_eq_ok h
    rw [List.foldlM_append] at h
    obtain ⟨between, hleft, hbefore⟩ := bind_eq_ok h
    have hentered := settled_of_enter hr henter
    exact ih (hentered.of_frame (frame_of_events_all source left hentered hleft)) hbefore

def emitted? (r : UpdateReplay) (e : Event) : Option (String × Value) :=
  match e.production, e.phase, r.row with
  | .setItem, .exit, some ⟨_, some column, some value⟩ => some (column, value)
  | _, _, _ => none

def emit (options : Options) (columns : Columns) : Option (String × Value) → Columns
  | some (column, value) => putColumn options columns column value
  | none => columns

theorem emitted_of_enter (r : UpdateReplay) {e : Event} (h : e.phase = .enter) :
    r.emitted? e = none := by
  unfold emitted?
  split
  · rename_i hphase _
    cases h.symm.trans hphase
  · rfl

theorem emitted_of_ne (r : UpdateReplay) {e : Event} (h : e.production ≠ .setItem) :
    r.emitted? e = none := by
  unfold emitted?
  split
  · contradiction
  · rfl

theorem take_expression_columns {row : Option RowValue} {slots : Slots} {columns : Columns}
    {e : Event} {r' : UpdateReplay}
    (h : takeExpression options ⟨row, slots, columns⟩ e = .ok r') (others : Columns) :
    takeExpression options ⟨row, slots, others⟩ e = .ok ⟨r'.row, r'.slots, others⟩ := by
  cases row with
  | none =>
    cases h
    rfl
  | some row =>
    obtain ⟨⟨given, slots'⟩, hhandle, h⟩ := bind_eq_ok h
    simp only [takeExpression, hhandle, ok_bind]
    cases given with
    | none =>
      cases h
      rfl
    | some value =>
      obtain ⟨row', hrow', h⟩ := bind_eq_ok h
      cases h
      simp only [hrow', ok_bind]
      rfl

theorem close_row_columns {row : Option RowValue} {slots : Slots} {columns : Columns}
    {tokenIndex : Nat} {text : String} {r' : UpdateReplay}
    (h : handle options ⟨row, slots, columns⟩ ⟨.exit, .setItem, tokenIndex, text⟩ = .ok r') :
    ∃ pair, emitted? ⟨row, slots, columns⟩ ⟨.exit, .setItem, tokenIndex, text⟩ = some pair ∧
      ∀ others, handle options ⟨row, slots, others⟩ ⟨.exit, .setItem, tokenIndex, text⟩ =
        .ok ⟨none, slots, putColumn options others pair.1 pair.2⟩ := by
  cases row with
  | none => cases h
  | some row =>
    obtain ⟨pair, hpair, -⟩ := bind_eq_ok h
    obtain ⟨index, column, value⟩ := row
    cases column with
    | none => cases hpair
    | some column =>
      cases value with
      | none => cases hpair
      | some value => exact ⟨(column, value), rfl, fun others => rfl⟩

/-- The columns are changed by what is emitted and by nothing else, and nothing depends on them. -/
theorem handle_columns {row : Option RowValue} {slots : Slots} {columns : Columns} {e : Event}
    {r' : UpdateReplay} (h : handle options ⟨row, slots, columns⟩ e = .ok r') (others : Columns) :
    handle options ⟨row, slots, others⟩ e =
      .ok ⟨r'.row, r'.slots, emit options others (emitted? ⟨row, slots, columns⟩ e)⟩ := by
  obtain ⟨phase, production, tokenIndex, text⟩ := e
  by_cases hassignment : production = .setItem
  · subst hassignment
    cases phase with
    | enter =>
      cases row with
      | some row => cases h
      | none =>
        cases h
        rfl
    | exit =>
      obtain ⟨pair, hpair, hclose⟩ := close_row_columns h
      rw [hclose] at h
      cases h
      rw [hpair, hclose]
      rfl
  rw [emitted_of_ne _ hassignment]
  by_cases hstatement : production = .updateStatement
  · subst hstatement
    cases phase with
    | enter =>
      cases h
      rfl
    | exit =>
      simp only [handle, finish] at h ⊢
      split at h
      · cases h
      · split at h <;> cases h
        simp_all [emit]
  by_cases hcolumn : production = .columnName
  · subst hcolumn
    cases phase with
    | enter =>
      cases row with
      | none => cases h
      | some row =>
        obtain ⟨row', hrow', h⟩ := bind_eq_ok h
        cases h
        simp only [handle, nameRow, hrow', ok_bind]
        rfl
    | exit =>
      cases h
      rfl
  rw [handle_eq_take_expression _ hstatement hassignment hcolumn] at h ⊢
  exact take_expression_columns h others

theorem is_some_of_enter {r entered : UpdateReplay} {e : Event} (hphase : e.phase = .enter)
    (h : handle options r e = .ok entered) (hrow : r.row.isSome = true) :
    e.production ≠ .setItem ∧ entered.row.isSome = true := by
  obtain ⟨row, slots, columns⟩ := r
  cases row with
  | none => cases hrow
  | some row =>
    obtain ⟨phase, production, tokenIndex, text⟩ := e
    obtain rfl : phase = .enter := hphase
    by_cases hassignment : production = .setItem
    · subst hassignment
      cases h
    refine ⟨hassignment, ?_⟩
    by_cases hstatement : production = .updateStatement
    · subst hstatement
      cases h
      rfl
    by_cases hcolumn : production = .columnName
    · subst hcolumn
      obtain ⟨row', -, h⟩ := bind_eq_ok h
      cases h
      rfl
    rw [handle_eq_take_expression _ hstatement hassignment hcolumn] at h
    obtain ⟨given, row', -, hrow'⟩ := take_expression_some h
    rw [hrow']
    rfl

theorem is_some_of_frame {r r' : UpdateReplay} (h : r'.frame = r.frame)
    (hrow : r.row.isSome = true) : r'.row.isSome = true :=
  (Prod.mk.inj h).1.trans hrow

mutual

theorem run_inside (source : List Char) (others : Columns) :
    ∀ (n : Node) {r r' : UpdateReplay}, r.Settled → r.row.isSome = true →
      (n.events source).foldlM (handle options) r = .ok r' →
      (n.events source).foldlM (handle options) ⟨r.row, r.slots, others⟩ =
        .ok ⟨r'.row, r'.slots, others⟩
  | ⟨production, tokenIndex, start, stop, children⟩, r, r', hr, hrow, h => by
    rw [Node.foldlm_events] at h ⊢
    obtain ⟨entered, henter, h⟩ := bind_eq_ok h
    obtain ⟨inside, hchildren, hexit⟩ := bind_eq_ok h
    obtain ⟨hassignment, hopen⟩ := is_some_of_enter rfl henter hrow
    have hinside :=
      run_all_inside source others children (settled_of_enter hr henter) hopen hchildren
    rw [handle_columns henter, emitted_of_enter r rfl, ok_bind]
    simp only [emit, hinside, ok_bind]
    rw [handle_columns hexit, emitted_of_ne]
    · rfl
    · exact hassignment

theorem run_all_inside (source : List Char) (others : Columns) :
    ∀ (ns : List Node) {r r' : UpdateReplay}, r.Settled → r.row.isSome = true →
      (Node.eventsAll source ns).foldlM (handle options) r = .ok r' →
      (Node.eventsAll source ns).foldlM (handle options) ⟨r.row, r.slots, others⟩ =
        .ok ⟨r'.row, r'.slots, others⟩
  | [], r, r', _, _, h => by
    cases h
    rfl
  | n :: ns, r, r', hr, hrow, h => by
    rw [Node.foldlm_events_all_cons] at h ⊢
    obtain ⟨between, hfirst, hrest⟩ := bind_eq_ok h
    have hbetween := frame_of_events source n hr hfirst
    rw [run_inside source others n hr hrow hfirst, ok_bind]
    exact run_all_inside source others ns (hr.of_frame hbetween) (is_some_of_frame hbetween hrow)
      hrest

end

/-- An assignment that starts without an open row value emits its pair at its exit, on whatever
columns it is run. -/
theorem run_assignment_node {source : List Char} {n : Node} (hn : n.production = .setItem)
    {r inside r' : UpdateReplay} (hr : r.Settled)
    (hinside : (n.event source .enter :: Node.eventsAll source n.children).foldlM (handle options)
      r = .ok inside)
    (hexit : handle options inside (n.event source .exit) = .ok r') :
    ∃ pair, inside.emitted? (n.event source .exit) = some pair ∧
      r' = ⟨none, [], putColumn options inside.columns pair.1 pair.2⟩ ∧
      ∀ others, (n.events source).foldlM (handle options) ⟨none, [], others⟩ =
        .ok ⟨none, [], putColumn options others pair.1 pair.2⟩ := by
  obtain ⟨production, tokenIndex, start, stop, children⟩ := n
  obtain rfl : production = .setItem := hn
  rw [List.foldlM_cons] at hinside
  obtain ⟨entered, henter, hchildren⟩ := bind_eq_ok hinside
  have hentered := settled_of_enter hr henter
  obtain ⟨hfound, hrow, hslots⟩ := frame_of_assignment hr henter
    (frame_of_events_all source children hentered hchildren) hexit
  obtain ⟨pair, hpair, hclose⟩ := close_row_columns hexit
  have hends : r' = ⟨none, inside.slots, putColumn options inside.columns pair.1 pair.2⟩ :=
    Except.ok.inj (hexit.symm.trans (hclose inside.columns))
  have hempty : inside.slots = [] := by
    rw [hends] at hslots
    exact hslots
  rw [hempty] at hends hclose
  refine ⟨pair, hpair, hends, fun others => ?_⟩
  rw [hfound] at henter
  have hopen : entered.row.isSome = true := by
    cases henter
    rfl
  have hrun := run_all_inside source others children hentered hopen hchildren
  rw [hempty] at hrun
  rw [Node.foldlm_events, handle_columns henter others, emitted_of_enter _ rfl, ok_bind]
  exact (congrArg (· >>= _) hrun).trans (hclose others)

end UpdateReplay

open UpdateReplay in
/-- In the replay of any tree that succeeds, every exit of an assignment leaves no row value open
and an empty stack, and emits the pair that the subtree of the assignment emits alone. -/
theorem replay_update_apart (options : Options) (t : ParseTree) (r : UpdateReplay)
    (h : replayUpdate options t.events = .ok r) (before : List Event) (e : Event)
    (behind : List Event) (hsplit : t.events = before ++ e :: behind)
    (hproduction : e.production = .setItem) (hphase : e.phase = .exit) :
    ∃ n front r₁ pair, Node.StandsIn t.source n t.root front behind ∧
      e = n.event t.source .exit ∧ before ++ [e] = front ++ n.events t.source ∧
      replayUpdate options before = .ok r₁ ∧ r₁.emitted? e = some pair ∧
      handle options r₁ e = .ok ⟨none, [], putColumn options r₁.columns pair.1 pair.2⟩ ∧
      replayUpdate options (ParseTree.events ⟨t.source, n⟩) =
        .ok ⟨none, [], putColumn options OrderedMap.empty pair.1 pair.2⟩ := by
  have hroot : t.root.events t.source = before ++ e :: behind := by
    rw [← t.events_eq, hsplit]
  obtain ⟨n, front, hn, rfl, hends⟩ :=
    Node.exists_stands_in_of_exit t.root before e behind hroot hphase
  have hbefore : before =
      front ++ (n.event t.source .enter :: Node.eventsAll t.source n.children) := by
    rw [Node.events_eq, ← List.cons_append, ← List.append_assoc] at hends
    exact (List.append_inj' hends rfl).1
  rw [hsplit, replayUpdate, List.foldlM_append] at h
  obtain ⟨r₁, hrun, h⟩ := bind_eq_ok h
  rw [List.foldlM_cons] at h
  obtain ⟨r₂, hexit, -⟩ := bind_eq_ok h
  have hparts := hrun
  rw [hbefore, List.foldlM_append] at hparts
  obtain ⟨r₀, hfront, hinside⟩ := bind_eq_ok hparts
  have hstart : start.Settled := fun _ => rfl
  have hr₀ : r₀.Settled := settled_of_stands_in hn hstart hfront
  obtain ⟨pair, hpair, rfl, halone⟩ := run_assignment_node hproduction hr₀ hinside hexit
  refine ⟨n, front, r₁, pair, hn, rfl, hends, hrun, hpair, hexit, ?_⟩
  rw [ParseTree.events_eq, replayUpdate]
  exact halone OrderedMap.empty

namespace UpdateReplay

/-- Two assignments with the same token index in an expression, a constant between them, and a
statement behind. -/
def strayTree : ParseTree :=
  ⟨"a1b2".toList,
    ⟨.unaryExpression, 7, 0, 4,
      [⟨.setItem, 7, 0, 2,
          [⟨.columnName, 7, 0, 1, []⟩, ⟨.condition, 7, 1, 2,
            [⟨.unaryExpression, 7, 1, 2, [⟨.function "to_date", 7, 1, 2,
              [⟨.constant (.number "1" true), 7, 1, 2, []⟩]⟩]⟩]⟩]⟩,
        ⟨.constant .word, 7, 0, 1, []⟩,
        ⟨.setItem, 7, 2, 4,
          [⟨.unaryExpression, 7, 3, 4, [⟨.constant (.number "2" true), 7, 3, 4, []⟩]⟩,
            ⟨.columnName, 7, 2, 3, []⟩]⟩,
        ⟨.updateStatement, 7, 0, 0, []⟩]⟩⟩

def strayExit : Event :=
  ⟨.exit, .setItem, 7, "b2"⟩

theorem replay_update_stray_tree :
    ∃ r, replayUpdate ⟨"p_", false⟩ strayTree.events = .ok r ∧
      r.columns.entries = [("p_a", .call "TO_DATE" [.integer 1]), ("p_b", .integer 2)] ∧
      ∃ n r₁ pair, strayExit = n.event strayTree.source .exit ∧
        replayUpdate ⟨"p_", false⟩ (strayTree.events.take 22) = .ok r₁ ∧
        r₁.emitted? strayExit = some pair ∧
        handle ⟨"p_", false⟩ r₁ strayExit =
          .ok ⟨none, [], putColumn ⟨"p_", false⟩ r₁.columns pair.1 pair.2⟩ ∧
        replayUpdate ⟨"p_", false⟩ (ParseTree.events ⟨strayTree.source, n⟩) =
          .ok ⟨none, [], putColumn ⟨"p_", false⟩ OrderedMap.empty pair.1 pair.2⟩ := by
  have hcolumns : (replayUpdate ⟨"p_", false⟩ strayTree.events).toOption.map
      (fun r => r.columns.entries) =
      some [("p_a", .call "TO_DATE" [.integer 1]), ("p_b", .integer 2)] := by
    decide +kernel
  obtain ⟨r, hrun, hentries⟩ := ok_of_to_option_map hcolumns
  have hsplit : strayTree.events =
      strayTree.events.take 22 ++ strayExit :: strayTree.events.drop 23 := by
    decide +kernel
  obtain ⟨n, front, r₁, pair, -, he, -, hbefore, hpair, hexit, halone⟩ :=
    replay_update_apart ⟨"p_", false⟩ strayTree r hrun _ strayExit _ hsplit rfl rfl
  exact ⟨r, hrun, hentries, n, r₁, pair, he, hbefore, hpair, hexit, halone⟩

end UpdateReplay

end RedoLog
