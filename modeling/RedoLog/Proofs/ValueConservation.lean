import Mathlib.Data.List.Induction
import RedoLog.Proofs.CallDepth
import RedoLog.Proofs.Outcome
import RedoLog.Replay.Slots
import RedoLog.Value.Leaves

/-!
# No value is lost on the stack

Events may reach the stack in any order, those of no parsed statement included. Whatever order it
takes them in, the literals that they bring are, from left to right, the leaves of the values given
out so far and then those of the slots from the bottom to the top.
-/

set_option autoImplicit false

namespace RedoLog

def Slot.leaves : Slot → List Value
  | .unary _ value => (value.getD .null).leaves
  | .function _ _ parameters => Value.leavesAll parameters

theorem Slot.leaves_append {slot slot' : Slot} {value : Value} (h : slot.append value = .ok slot') :
    slot'.leaves = slot.leaves ++ value.leaves := by
  cases slot with
  | unary tokenIndex held =>
    cases held with
    | some held => cases h
    | none =>
      cases h
      rfl
  | function tokenIndex name parameters =>
    cases h
    simp [leaves, Value.leaves_all_append, Value.leavesAll]

theorem Slot.leaves_value {slot : Slot} {value : Value} (h : slot.value = .ok value) :
    value.leaves = slot.leaves := by
  cases slot with
  | unary tokenIndex held =>
    cases h
    rfl
  | function tokenIndex name parameters => cases h

namespace Slots

def leaves : Slots → List Value
  | [] => []
  | top :: below => leaves below ++ top.leaves

def literal? (trim : Bool) (e : Event) : Option Value :=
  match e.production, e.phase with
  | .constant c, .enter => constantValue? e.text c
  | .quotedString, .enter => some (.text (textContent trim e.text))
  | _, _ => none

structure Run where
  given : List Value
  slots : Slots

def Run.step (trim : Bool) (r : Run) (e : Event) : Except ReplayError Run := do
  let (value, slots) ← handle trim r.slots e
  return ⟨r.given ++ value.toList, slots⟩

def run (trim : Bool) (es : List Event) : Except ReplayError Run :=
  es.foldlM (Run.step trim) ⟨[], []⟩

theorem attach_leaves {e : Event} {value : Value} {slots slots' : Slots}
    (h : attach e value slots = .ok slots') : leaves slots' = leaves slots ++ value.leaves := by
  cases slots with
  | nil => cases h
  | cons top below =>
    obtain ⟨top', htop, h⟩ := bind_eq_ok h
    cases h
    simp [leaves, Slot.leaves_append htop]

theorem deliver_leaves {value : Value} {slots slots' : Slots} {given : Option Value}
    (h : deliver value slots = .ok (given, slots')) :
    Value.leavesAll given.toList ++ leaves slots' = leaves slots ++ value.leaves := by
  cases slots with
  | nil =>
    cases h
    simp [leaves, Value.leavesAll]
  | cons parent below =>
    obtain ⟨parent', hparent, h⟩ := bind_eq_ok h
    cases h
    simp [leaves, Value.leavesAll, Slot.leaves_append hparent]

theorem close_unary_leaves {e : Event} {pending below slots' : Slots} {unary : Slot}
    {given : Option Value} (h : closeUnary e pending unary below = .ok (given, slots')) :
    Value.leavesAll given.toList ++ leaves slots' = leaves (pending ++ unary :: below) := by
  match pending, h with
  | [], h =>
    obtain ⟨value, hvalue, h⟩ := bind_eq_ok h
    rw [deliver_leaves h, Slot.leaves_value hvalue]
    rfl
  | [child], h =>
    obtain ⟨inner, hinner, h⟩ := bind_eq_ok h
    obtain ⟨unary', hunary, h⟩ := bind_eq_ok h
    obtain ⟨value, hvalue, h⟩ := bind_eq_ok h
    rw [deliver_leaves h, Slot.leaves_value hvalue, Slot.leaves_append hunary,
      Slot.leaves_value hinner]
    simp [leaves]
  | _ :: _ :: _, h => cases h

theorem exit_unary_leaves {e : Event} {slots slots' : Slots} {given : Option Value}
    (h : exitUnary e slots = .ok (given, slots')) :
    Value.leavesAll given.toList ++ leaves slots' = leaves slots := by
  -- The slots above the one that closes are passed over, not dropped.
  have hsplit := List.takeWhile_append_dropWhile
    (p := fun slot : Slot => !slot.isUnaryAt e.tokenIndex) (l := slots)
  unfold exitUnary at h
  split at h
  · cases h
  · rename_i unary below hdrop
    rw [close_unary_leaves h, ← hdrop, hsplit]

theorem exit_function_leaves {e : Event} {slots slots' : Slots}
    (h : exitFunction e slots = .ok slots') : leaves slots' = leaves slots := by
  match slots, h with
  | [], h => cases h
  | .unary _ _ :: _, h => cases h
  | .function tokenIndex name parameters :: below, h =>
    simp only [exitFunction] at h
    split at h
    · rw [attach_leaves h]
      rfl
    · cases h

inductive Step (trim : Bool) (slots : Slots) (e : Event) : Option Value → Slots → Prop where
  | enterUnary (hproduction : e.production = .unaryExpression) (hphase : e.phase = .enter) :
      Step trim slots e none (.unary e.tokenIndex none :: slots)
  | exitUnary {given : Option Value} {slots' : Slots}
      (hproduction : e.production = .unaryExpression) (hphase : e.phase = .exit)
      (h : exitUnary e slots = .ok (given, slots')) : Step trim slots e given slots'
  | literal {value : Value} {slots' : Slots} (hvalue : literal? trim e = some value)
      (h : attach e value slots = .ok slots') : Step trim slots e none slots'
  | enterFunction {name canonical : String} (hproduction : e.production = .function name)
      (hphase : e.phase = .enter) (hname : canonicalFunction? name = some canonical) :
      Step trim slots e none (.function e.tokenIndex canonical [] :: slots)
  | exitFunction {name : String} {slots' : Slots} (hproduction : e.production = .function name)
      (hphase : e.phase = .exit) (h : exitFunction e slots = .ok slots') :
      Step trim slots e none slots'
  | nothing (hproduction : e.production ≠ .unaryExpression) (hvalue : literal? trim e = none) :
      Step trim slots e none slots

theorem step_of_handle {trim : Bool} {e : Event} {slots slots' : Slots} {given : Option Value}
    (h : handle trim slots e = .ok (given, slots')) : Step trim slots e given slots' := by
  obtain ⟨phase, production, tokenIndex, text⟩ := e
  cases production with
  | unaryExpression =>
    cases phase with
    | enter =>
      cases h
      exact .enterUnary rfl rfl
    | exit => exact .exitUnary rfl rfl h
  | constant c =>
    cases phase with
    | enter =>
      obtain ⟨slots'', hconstant, h⟩ := bind_eq_ok h
      cases h
      simp only [enterConstant] at hconstant
      split at hconstant
      · rename_i value hvalue
        exact .literal hvalue hconstant
      · rename_i hvalue
        cases hconstant
        exact .nothing (by simp) hvalue
    | exit =>
      cases h
      exact .nothing (by simp) rfl
  | quotedString =>
    cases phase with
    | enter =>
      obtain ⟨slots'', hattach, h⟩ := bind_eq_ok h
      cases h
      exact .literal rfl hattach
    | exit =>
      cases h
      exact .nothing (by simp) rfl
  | function name =>
    cases phase with
    | enter =>
      obtain ⟨slots'', henter, h⟩ := bind_eq_ok h
      cases h
      simp only [enterFunction] at henter
      split at henter
      · rename_i canonical hname
        cases henter
        exact .enterFunction rfl rfl hname
      · cases henter
    | exit =>
      obtain ⟨slots'', hexit, h⟩ := bind_eq_ok h
      cases h
      exact .exitFunction rfl rfl hexit
  | _ =>
    cases h
    exact .nothing (by simp) rfl

/-- One event adds the leaves of its literal to those that have been given out or are held. -/
theorem Step.leaves {trim : Bool} {e : Event} {slots slots' : Slots} {given : Option Value}
    (h : Step trim slots e given slots') :
    Value.leavesAll given.toList ++ Slots.leaves slots' =
      Slots.leaves slots ++ Value.leavesAll (literal? trim e).toList := by
  have hnone : ∀ name, e.production = .unaryExpression ∨ e.production = .function name →
      literal? trim e = none := by
    rintro name (hproduction | hproduction) <;> simp [literal?, hproduction]
  cases h with
  | enterUnary hproduction hphase =>
    rw [hnone "" (Or.inl hproduction)]
    simp [Slots.leaves, Slot.leaves, Value.leaves, Value.leavesAll]
  | exitUnary hproduction hphase h =>
    rw [hnone "" (Or.inl hproduction), exit_unary_leaves h]
    simp [Value.leavesAll]
  | literal hvalue h =>
    rw [hvalue, attach_leaves h]
    simp [Value.leavesAll]
  | enterFunction hproduction hphase hname =>
    rw [hnone _ (Or.inr hproduction)]
    simp [Slots.leaves, Slot.leaves, Value.leavesAll]
  | exitFunction hproduction hphase h =>
    rw [hnone _ (Or.inr hproduction), exit_function_leaves h]
    simp [Value.leavesAll]
  | nothing hproduction hvalue =>
    rw [hvalue]
    simp [Value.leavesAll]

theorem deliver_given {value : Value} {slots slots' : Slots} {given : Option Value}
    (h : deliver value slots = .ok (given, slots')) : given.isSome = true ↔ slots' = [] := by
  cases slots with
  | nil =>
    cases h
    simp
  | cons parent below =>
    obtain ⟨parent', -, h⟩ := bind_eq_ok h
    cases h
    simp

theorem close_unary_given {e : Event} {pending below slots' : Slots} {unary : Slot}
    {given : Option Value} (h : closeUnary e pending unary below = .ok (given, slots')) :
    given.isSome = true ↔ slots' = [] := by
  match pending, h with
  | [], h =>
    obtain ⟨value, -, h⟩ := bind_eq_ok h
    exact deliver_given h
  | [child], h =>
    obtain ⟨inner, -, h⟩ := bind_eq_ok h
    obtain ⟨unary', -, h⟩ := bind_eq_ok h
    obtain ⟨value, -, h⟩ := bind_eq_ok h
    exact deliver_given h
  | _ :: _ :: _, h => cases h

/-- A value is given out exactly when the last slot closes, which only a unary one can do. -/
theorem Step.given {trim : Bool} {e : Event} {slots slots' : Slots} {given : Option Value}
    (h : Step trim slots e given slots') :
    given.isSome = true ↔
      e.production = .unaryExpression ∧ e.phase = .exit ∧ slots' = [] := by
  cases h with
  | enterUnary hproduction hphase => simp [hphase]
  | exitUnary hproduction hphase h =>
    rw [and_iff_right hproduction, and_iff_right hphase]
    unfold Slots.exitUnary at h
    split at h
    · cases h
    · exact close_unary_given h
  | literal hvalue h =>
    have hproduction : e.production ≠ .unaryExpression := by
      intro hproduction
      simp [literal?, hproduction] at hvalue
    simp [hproduction]
  | enterFunction hproduction hphase hname => simp [hproduction]
  | exitFunction hproduction hphase h => simp [hproduction]
  | nothing hproduction hvalue => simp [hproduction]

theorem run_concat (trim : Bool) (es : List Event) (e : Event) :
    run trim (es ++ [e]) = (run trim es >>= fun r => r.step trim e) := by
  simp [run, List.foldlM_append]

/-- The leaves of what was given out and of what is held are those of all literals. -/
theorem run_leaves {trim : Bool} {es : List Event} {r : Run} (h : run trim es = .ok r) :
    Value.leavesAll (es.filterMap (literal? trim)) = Value.leavesAll r.given ++ leaves r.slots := by
  -- By the last event: its literal comes behind all leaves, wherever these have got to.
  induction es using List.reverseRecOn generalizing r with
  | nil =>
    cases h
    rfl
  | append_singleton es e ih =>
    rw [run_concat] at h
    obtain ⟨r₁, hbefore, h⟩ := bind_eq_ok h
    obtain ⟨⟨value, slots⟩, hhandle, h⟩ := bind_eq_ok h
    cases h
    have hstep := (step_of_handle hhandle).leaves
    calc Value.leavesAll ((es ++ [e]).filterMap (literal? trim))
        = Value.leavesAll (es.filterMap (literal? trim)) ++
            Value.leavesAll (literal? trim e).toList := by
          rw [List.filterMap_append, Value.leaves_all_append]
          cases hliteral : literal? trim e <;> simp [hliteral]
      _ = Value.leavesAll r₁.given ++ (leaves r₁.slots ++
            Value.leavesAll (literal? trim e).toList) := by
          rw [ih hbefore, List.append_assoc]
      _ = Value.leavesAll (r₁.given ++ value.toList) ++ leaves slots := by
          rw [← hstep, Value.leaves_all_append, List.append_assoc]

end Slots

theorem Value.leaves_of_call_depth {value : Value} (h : value.callDepth = 0) :
    value.leaves = if value.isNull then [] else [value] := by
  cases value with
  | call function parameters => simp [callDepth] at h
  | _ => rfl

namespace Slots

theorem call_depth_literal {trim : Bool} {e : Event} {value : Value}
    (h : literal? trim e = some value) : value.callDepth = 0 := by
  unfold literal? at h
  split at h
  · rename_i c hproduction hphase
    cases c with
    | number text integer =>
      cases h
      exact (number_value_leaf text integer).2
    | quoted => cases h
    | null | word =>
      cases h
      rfl
  · cases h
    rfl
  · cases h

theorem leaves_all_literals (trim : Bool) (es : List Event) :
    Value.leavesAll (es.filterMap (literal? trim)) =
      (es.filterMap (literal? trim)).filter fun value => !value.isNull := by
  induction es with
  | nil => rfl
  | cons e es ih =>
    cases hliteral : literal? trim e with
    | none => simpa [hliteral] using ih
    | some value =>
      have hleaves := Value.leaves_of_call_depth (call_depth_literal hliteral)
      rw [List.filterMap_cons_some hliteral, Value.leavesAll, hleaves, ih, List.filter_cons]
      cases value.isNull <;> simp

/-- In a run of any events, the literals other than null are the leaves of what has been given out
and of what the slots hold, in order. A value is given out by the exit that empties the stack. -/
theorem run_conserves (trim : Bool) (es : List Event) (r : Run) (h : run trim es = .ok r) :
    ((es.filterMap (literal? trim)).filter fun value => !value.isNull) =
        Value.leavesAll r.given ++ leaves r.slots ∧
      ∀ before e behind, es = before ++ e :: behind →
        ∃ r' value slots, run trim before = .ok r' ∧
          handle trim r'.slots e = .ok (value, slots) ∧
          (value.isSome = true ↔
            e.production = .unaryExpression ∧ e.phase = .exit ∧ slots = []) := by
  constructor
  · rw [← leaves_all_literals, run_leaves h]
  · rintro before e behind rfl
    have hsplit : run trim (before ++ e :: behind) =
        (run trim before >>= fun r => (e :: behind).foldlM (Run.step trim) r) := by
      rw [run, List.foldlM_append]
      rfl
    rw [hsplit] at h
    obtain ⟨r', hbefore, h⟩ := bind_eq_ok h
    obtain ⟨r'', hstep, -⟩ := bind_eq_ok h
    obtain ⟨⟨value, slots⟩, hhandle, -⟩ := bind_eq_ok hstep
    exact ⟨r', value, slots, hbefore, hhandle, (step_of_handle hhandle).given⟩

def strayEvents : List Event :=
  [⟨.enter, .unaryExpression, 0, ""⟩, ⟨.enter, .function "to_date", 0, ""⟩,
    ⟨.enter, .unaryExpression, 1, ""⟩, ⟨.enter, .unaryExpression, 2, ""⟩,
    ⟨.enter, .quotedString, 9, "'x'"⟩, ⟨.exit, .unaryExpression, 1, ""⟩,
    ⟨.exit, .function "", 0, ""⟩, ⟨.exit, .unaryExpression, 0, ""⟩,
    ⟨.enter, .unaryExpression, 5, ""⟩, ⟨.enter, .constant (.number "7" true), 5, ""⟩]

theorem run_stray_events :
    ∃ r, run false strayEvents = .ok r ∧ r.given = [.call "TO_DATE" [.text "x"]] ∧
      r.slots = [.unary 5 (some (.integer 7))] ∧
      ((strayEvents.filterMap (literal? false)).filter fun value => !value.isNull) =
        Value.leavesAll r.given ++ leaves r.slots := by
  have hends : (run false strayEvents).toOption.map (fun r => (r.given, r.slots)) =
      some ([.call "TO_DATE" [.text "x"]], [.unary 5 (some (.integer 7))]) := by
    decide +kernel
  obtain ⟨r, hrun, hr⟩ := ok_of_to_option_map hends
  obtain ⟨hgiven, hslots⟩ := Prod.mk.inj hr
  exact ⟨r, hrun, hgiven, hslots, (run_conserves false strayEvents r hrun).1⟩

end Slots

end RedoLog
