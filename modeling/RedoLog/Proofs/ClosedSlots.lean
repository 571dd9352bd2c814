import RedoLog.Proofs.AssignmentRuns

/-!
# What takes a slot from the stack

Events may reach the stack in any order. A slot that an event puts on it stays until an exit takes
it away, and that is the exit of its own expression with one exception. A unary slot that was left
open on the top is taken by the exit of the unary slot below it, and hands its value down. A
function slot is taken by its own exit only.
-/

set_option autoImplicit false

namespace RedoLog

namespace Event

def IsOf (e : Event) : Slot → Prop
  | .unary tokenIndex _ => e.production = .unaryExpression ∧ e.tokenIndex = tokenIndex
  | .function tokenIndex _ _ => (∃ f, e.production = .function f) ∧ e.tokenIndex = tokenIndex

theorem is_of_emptied (e : Event) (slot : Slot) : e.IsOf slot.emptied ↔ e.IsOf slot := by
  cases slot <;> exact Iff.rfl

def IsExitOf (closing opening : Event) : Prop :=
  closing.phase = .exit ∧ closing.tokenIndex = opening.tokenIndex ∧
    ((opening.production = .unaryExpression ∧ closing.production = .unaryExpression) ∨
      ∃ f g, opening.production = .function f ∧ closing.production = .function g)

theorem is_exit_of_slot {opening closing : Event} {slot : Slot} (hopening : opening.IsOf slot)
    (hphase : closing.phase = .exit) (hclosing : closing.IsOf slot) :
    closing.IsExitOf opening := by
  cases slot with
  | unary tokenIndex held =>
    obtain ⟨hopens, hindex⟩ := hopening
    obtain ⟨hcloses, hindex'⟩ := hclosing
    exact ⟨hphase, hindex'.trans hindex.symm, Or.inl ⟨hopens, hcloses⟩⟩
  | function tokenIndex name parameters =>
    obtain ⟨⟨f, hopens⟩, hindex⟩ := hopening
    obtain ⟨⟨g, hcloses⟩, hindex'⟩ := hclosing
    exact ⟨hphase, hindex'.trans hindex.symm, Or.inr ⟨f, g, hopens, hcloses⟩⟩

end Event

theorem Slot.emptied_emptied (slot : Slot) : slot.emptied.emptied = slot.emptied := by
  cases slot <;> rfl

theorem Slot.is_unary_at_iff (tokenIndex : Nat) (slot : Slot) :
    slot.isUnaryAt tokenIndex = true ↔ ∃ held, slot = .unary tokenIndex held := by
  cases slot <;> simp [isUnaryAt]

namespace Slots

def outline (slots : Slots) : Slots :=
  slots.map Slot.emptied

theorem outline_of_frame {slots slots' : Slots} (h : slots'.frame = slots.frame) :
    slots'.outline = slots.outline := by
  have houtline : ∀ slots : Slots, slots.frame.outline = slots.outline := by
    intro slots
    cases slots with
    | nil => rfl
    | cons top below => simp [frame, outline, Slot.emptied_emptied]
  rw [← houtline slots', h, houtline]

theorem length_of_frame {slots slots' : Slots} (h : slots'.frame = slots.frame) :
    slots'.length = slots.length := by
  have hlength := congrArg List.length (outline_of_frame h)
  simpa [outline] using hlength

inductive Move (e : Event) (slots slots' : Slots) : Prop where
  | opens (slot : Slot) (hphase : e.phase = .enter) (hof : e.IsOf slot)
      (hslots : slots' = slot :: slots)
  | stays (hframe : slots'.frame = slots.frame)
  | closes (slot : Slot) (below : Slots) (hphase : e.phase = .exit) (hof : e.IsOf slot)
      (hslots : slots = slot :: below) (hframe : slots'.frame = below.frame)
  | folds (index : Nat) (held : Option Value) (below : Slots) (hphase : e.phase = .exit)
      (hproduction : e.production = .unaryExpression) (hother : index ≠ e.tokenIndex)
      (hslots : slots = .unary index held :: .unary e.tokenIndex none :: below)
      (hframe : slots'.frame = below.frame)

/-- The exit of a unary expression finds its slot on the top, or directly below another unary one
whose value it hands down. -/
theorem exit_unary_cases {e : Event} {slots slots' : Slots} {given : Option Value}
    (h : exitUnary e slots = .ok (given, slots')) :
    (∃ held below, slots = .unary e.tokenIndex held :: below ∧
        deliver (held.getD .null) below = .ok (given, slots')) ∨
      ∃ index held below, index ≠ e.tokenIndex ∧
        slots = .unary index held :: .unary e.tokenIndex none :: below ∧
        deliver (held.getD .null) below = .ok (given, slots') := by
  have hsplit := List.takeWhile_append_dropWhile
    (p := fun slot : Slot => !slot.isUnaryAt e.tokenIndex) (l := slots)
  have hfound := List.head?_dropWhile_not (fun slot : Slot => !slot.isUnaryAt e.tokenIndex) slots
  have hpassed := List.all_takeWhile
    (p := fun slot : Slot => !slot.isUnaryAt e.tokenIndex) (l := slots)
  unfold exitUnary at h
  split at h
  · cases h
  · rename_i unary below hdrop
    rw [hdrop] at hsplit hfound
    obtain ⟨held, rfl⟩ := (Slot.is_unary_at_iff e.tokenIndex unary).mp (by simpa using hfound)
    match hpending : slots.takeWhile fun slot : Slot => !slot.isUnaryAt e.tokenIndex with
    | [] =>
      rw [hpending] at hsplit h
      obtain ⟨value, hvalue, h⟩ := bind_eq_ok h
      cases hvalue
      exact Or.inl ⟨held, below, hsplit.symm, h⟩
    | [child] =>
      rw [hpending] at hsplit h hpassed
      obtain ⟨inner, hinner, h⟩ := bind_eq_ok h
      obtain ⟨closed, hclosed, h⟩ := bind_eq_ok h
      obtain ⟨value, hvalue, h⟩ := bind_eq_ok h
      cases child with
      | function => cases hinner
      | unary index inside =>
        cases hinner
        cases held with
        | some held => cases hclosed
        | none =>
          cases hclosed
          cases hvalue
          have hother : index ≠ e.tokenIndex := by simpa [Slot.isUnaryAt] using hpassed
          exact Or.inr ⟨index, inside, below, hother, hsplit.symm, h⟩
    | _ :: _ :: _ =>
      rw [hpending] at h
      cases h

theorem Step.move {trim : Bool} {e : Event} {slots slots' : Slots} {given : Option Value}
    (h : Step trim slots e given slots') : Move e slots slots' := by
  cases h with
  | enterUnary hproduction hphase =>
    exact .opens (.unary e.tokenIndex none) hphase ⟨hproduction, rfl⟩ rfl
  | exitUnary hproduction hphase h =>
    rcases exit_unary_cases h with ⟨held, below, hslots, hdeliver⟩ |
      ⟨index, held, below, hother, hslots, hdeliver⟩
    · exact .closes (.unary e.tokenIndex held) below hphase ⟨hproduction, rfl⟩ hslots
        (frame_deliver hdeliver)
    · exact .folds index held below hphase hproduction hother hslots (frame_deliver hdeliver)
  | literal hvalue h => exact .stays (frame_attach h)
  | @enterFunction name canonical hproduction hphase hname =>
    exact .opens (.function e.tokenIndex canonical []) hphase ⟨⟨name, hproduction⟩, rfl⟩ rfl
  | @exitFunction f _ hproduction hphase h =>
    match slots, h with
    | .function tokenIndex name parameters :: below, h =>
      rw [Slots.exitFunction] at h
      split at h
      · rename_i hindex
        exact .closes (.function tokenIndex name parameters) below hphase
          ⟨⟨f, hproduction⟩, hindex.symm⟩ rfl (frame_attach h)
      · cases h
  | nothing hproduction hvalue => exact .stays rfl

theorem Move.outline_eq {e : Event} {slots slots' : Slots} (h : Move e slots slots') :
    (∃ slot, e.phase = .enter ∧ e.IsOf slot ∧ slots' = slot :: slots) ∨
      ∃ gone, slots.outline = gone ++ slots'.outline := by
  cases h with
  | opens slot hphase hof hslots => exact Or.inl ⟨slot, hphase, hof, hslots⟩
  | stays hframe => exact Or.inr ⟨[], (outline_of_frame hframe).symm⟩
  | closes slot below hphase hof hslots hframe =>
    right
    refine ⟨[slot.emptied], ?_⟩
    rw [hslots, outline_of_frame hframe]
    rfl
  | folds index held below hphase hproduction hother hslots hframe =>
    right
    refine ⟨[.unary index none, .unary e.tokenIndex none], ?_⟩
    rw [hslots, outline_of_frame hframe]
    rfl

def Holds (slots : Slots) (slot : Slot) (level : Nat) : Prop :=
  ∃ above held below, slots = above ++ held :: below ∧ held.emptied = slot.emptied ∧
    below.length = level

theorem holds_of_outline {slots above below gone : Slots} {slot : Slot}
    (h : slots.outline = gone ++ outline (above ++ slot :: below)) :
    slots.Holds slot below.length := by
  simp only [outline, List.map_append, List.map_cons, ← List.append_assoc] at h
  obtain ⟨above', rest, rfl, -, hrest⟩ := List.map_eq_append_iff.mp h
  obtain ⟨held, below', rfl, hheld, hbelow⟩ := List.map_eq_cons_iff.mp hrest
  exact ⟨above', held, below', rfl, hheld, by simpa using congrArg List.length hbelow⟩

theorem Move.length_le {e : Event} {slots slots' : Slots} (h : Move e slots slots')
    {above below : Slots} {slot : Slot} (hslots : slots = above ++ slot :: below)
    (hgone : ¬slots'.Holds slot below.length) : slots'.length ≤ below.length := by
  by_contra hlevel
  apply hgone
  rcases h.outline_eq with ⟨new, -, -, rfl⟩ | ⟨gone, houtline⟩
  · exact ⟨new :: above, slot, below, by rw [hslots]; rfl, rfl, rfl⟩
  · -- Both stacks end with the same expressions, so at this level they have the same one.
    obtain ⟨front, rest, rfl, hrest⟩ : ∃ front rest, slots' = front ++ rest ∧
        rest.length = below.length + 1 :=
      ⟨slots'.take (slots'.length - (below.length + 1)),
        slots'.drop (slots'.length - (below.length + 1)), (List.take_append_drop ..).symm,
        by rw [List.length_drop]; omega⟩
    cases rest with
    | nil => simp at hrest
    | cons held rest =>
      have hlength : rest.length = below.length := by simpa using hrest
      rw [hslots] at houtline
      simp only [outline, List.map_append, List.map_cons, ← List.append_assoc] at houtline
      obtain ⟨-, hsame⟩ := List.append_inj' houtline (by simp [hlength])
      exact ⟨front, held, rest, rfl, (List.cons.inj hsame).1.symm, hlength⟩

/-- The slot over so many others is the one that this event has put there. -/
structure Since (trim : Bool) (level : Nat) (before : List Event) (opening : Event)
    (between : List Event) : Prop where
  under : ∃ r, run trim before = .ok r ∧ r.slots.length = level
  higher : ∀ front, front <+: between →
    ∃ r, run trim (before ++ opening :: front) = .ok r ∧ level < r.slots.length

theorem Since.concat {trim : Bool} {level : Nat} {before between : List Event} {opening e : Event}
    (h : Since trim level before opening between) {r : Run}
    (hr : run trim (before ++ opening :: between ++ [e]) = .ok r)
    (hlevel : level < r.slots.length) :
    Since trim level before opening (between ++ [e]) := by
  refine ⟨h.under, fun front hfront => ?_⟩
  rcases List.prefix_concat_iff.mp hfront with rfl | hfront
  · exact ⟨r, by simpa using hr, hlevel⟩
  · exact h.higher front hfront

theorem exists_since {trim : Bool} {es : List Event} {r : Run} (h : run trim es = .ok r)
    {above below : Slots} {slot : Slot} (hslots : r.slots = above ++ slot :: below) :
    ∃ before opening between, es = before ++ opening :: between ∧
      Since trim below.length before opening between ∧
      opening.phase = .enter ∧ opening.IsOf slot := by
  -- By the last event: it has opened the slot, or the slot was there before it.
  induction es using List.reverseRecOn generalizing r above slot below with
  | nil =>
    cases h
    simp at hslots
  | append_singleton es e ih =>
    have hrun := h
    rw [run_concat] at h
    obtain ⟨r₁, hbefore, h⟩ := bind_eq_ok h
    obtain ⟨⟨value, slots⟩, hhandle, h⟩ := bind_eq_ok h
    cases h
    have hlevel : below.length < slots.length := by
      simp only at hslots
      simp [hslots]
      omega
    have hearlier : r₁.slots.Holds slot below.length → ∃ before opening between,
        es ++ [e] = before ++ opening :: between ∧ Since trim below.length before opening between ∧
        opening.phase = .enter ∧ opening.IsOf slot := by
      rintro ⟨above', held, below', hslots', hheld, hlength⟩
      obtain ⟨before, opening, between, rfl, hsince, hphase, hof⟩ := ih hbefore hslots'
      rw [hlength] at hsince
      refine ⟨before, opening, between ++ [e], by simp, hsince.concat hrun hlevel, hphase, ?_⟩
      rw [← Event.is_of_emptied, ← hheld, Event.is_of_emptied]
      exact hof
    rcases (step_of_handle hhandle).move.outline_eq with ⟨new, hphase, hof, rfl⟩ | ⟨gone, hgone⟩
    · rcases List.cons_eq_append_iff.mp hslots with ⟨rfl, hfirst⟩ | ⟨above', rfl, hrest⟩
      · obtain ⟨rfl, rfl⟩ := List.cons.inj hfirst
        refine ⟨es, e, [], rfl, ⟨⟨r₁, hbefore, rfl⟩, fun front hfront => ?_⟩, hphase, hof⟩
        rw [List.prefix_nil.mp hfront]
        exact ⟨_, hrun, hlevel⟩
      · exact hearlier ⟨above', slot, below, hrest, rfl, rfl⟩
    · simp only at hslots
      rw [hslots] at hgone
      exact hearlier (holds_of_outline hgone)

theorem exit_unary_folds {e : Event} {index : Nat} (hother : index ≠ e.tokenIndex)
    (held : Option Value) (below : Slots) :
    exitUnary e (.unary index held :: .unary e.tokenIndex none :: below) =
      exitUnary e (.unary e.tokenIndex (some (held.getD .null)) :: below) := by
  simp [exitUnary, Slot.isUnaryAt, hother, closeUnary, Slot.value, Slot.append]

/-- A unary slot on the top, over an empty one that is closed by its own exit. The exit takes both,
as if the value of the upper slot stood in the lower one. -/
inductive Folds (trim : Bool) (closing : Event) : Slots → Slot → Slots → Prop where
  | top (index : Nat) (held : Option Value) (below : Slots) (hphase : closing.phase = .exit)
      (hproduction : closing.production = .unaryExpression) (hother : index ≠ closing.tokenIndex)
      (hvalue :
        handle trim (.unary index held :: .unary closing.tokenIndex none :: below) closing =
          handle trim (.unary closing.tokenIndex (some (held.getD .null)) :: below) closing) :
      Folds trim closing [] (.unary index held) (.unary closing.tokenIndex none :: below)

theorem folds_top (trim : Bool) {closing : Event} (hphase : closing.phase = .exit)
    (hproduction : closing.production = .unaryExpression) {index : Nat}
    (hother : index ≠ closing.tokenIndex) (held : Option Value) (below : Slots) :
    Folds trim closing [] (.unary index held) (.unary closing.tokenIndex none :: below) := by
  refine .top index held below hphase hproduction hother ?_
  obtain ⟨phase, production, tokenIndex, text⟩ := closing
  obtain rfl : phase = .exit := hphase
  obtain rfl : production = .unaryExpression := hproduction
  exact exit_unary_folds hother held below

/-- In a run of any events, a slot that an event takes from the stack was put there by the enter
event of an expression, and the event is the exit of an expression of that kind and token index. The
exception is a unary slot on the top that is folded into the one below it. -/
theorem run_closes (trim : Bool) (es : List Event) (closing : Event) (r r' : Run)
    (hr : run trim es = .ok r) (hr' : run trim (es ++ [closing]) = .ok r') (above : Slots)
    (slot : Slot) (below : Slots) (hslots : r.slots = above ++ slot :: below)
    (hgone : ¬r'.slots.Holds slot below.length) :
    ∃ before opening between, es = before ++ opening :: between ∧
      Since trim below.length before opening between ∧ opening.phase = .enter ∧
      opening.IsOf slot ∧ (closing.IsExitOf opening ∨ Folds trim closing above slot below) := by
  obtain ⟨before, opening, between, hes, hsince, hphase, hof⟩ := exists_since hr hslots
  refine ⟨before, opening, between, hes, hsince, hphase, hof, ?_⟩
  rw [run_concat, hr, ok_bind] at hr'
  obtain ⟨⟨value, slots⟩, hhandle, hr'⟩ := bind_eq_ok hr'
  cases hr'
  have hmove := (step_of_handle hhandle).move
  have hlength : slots.length ≤ below.length := hmove.length_le hslots hgone
  rw [hslots] at hmove
  cases hmove with
  | opens new hphase' hof' hnew =>
    simp [hnew] at hlength
    omega
  | stays hframe =>
    simp [length_of_frame hframe] at hlength
    omega
  | closes top rest hphase' hof' hrest hframe =>
    rw [length_of_frame hframe] at hlength
    rcases above with - | ⟨first, above⟩
    · obtain ⟨rfl, rfl⟩ := List.cons.inj hrest
      exact Or.inl (Event.is_exit_of_slot hof hphase' hof')
    · obtain ⟨-, rfl⟩ := List.cons.inj hrest
      simp at hlength
      omega
  | folds index held rest hphase' hproduction hother hrest hframe =>
    rw [length_of_frame hframe] at hlength
    rcases above with - | ⟨first, - | ⟨second, above⟩⟩
    · obtain ⟨rfl, rfl⟩ := List.cons.inj hrest
      exact Or.inr (folds_top trim hphase' hproduction hother held rest)
    · obtain ⟨-, hown⟩ := List.cons.inj hrest
      obtain ⟨rfl, rfl⟩ := List.cons.inj hown
      exact Or.inl (Event.is_exit_of_slot hof hphase' ⟨hproduction, rfl⟩)
    · obtain ⟨-, hown⟩ := List.cons.inj hrest
      obtain ⟨-, rfl⟩ := List.cons.inj hown
      simp at hlength
      omega

def outerEntry : Event :=
  ⟨.enter, .unaryExpression, 1, ""⟩

def innerEntry : Event :=
  ⟨.enter, .unaryExpression, 2, ""⟩

def innerText : Event :=
  ⟨.enter, .quotedString, 2, "'x'"⟩

def outerExit : Event :=
  ⟨.exit, .unaryExpression, 1, ""⟩

theorem run_inner_text :
    ∃ r, run false [outerEntry, innerEntry, innerText] = .ok r ∧
      r.slots = [.unary 2 (some (.text "x")), .unary 1 none] := by
  have hslots : (run false [outerEntry, innerEntry, innerText]).toOption.map Run.slots =
      some [.unary 2 (some (.text "x")), .unary 1 none] := by
    decide +kernel
  exact ok_of_to_option_map hslots

theorem not_holds_nil (slot : Slot) (level : Nat) : ¬Slots.Holds [] slot level := by
  rintro ⟨above, held, below, hslots, -, -⟩
  simp at hslots

theorem run_outer_exit :
    ∃ r, run false ([outerEntry, innerEntry, innerText] ++ [outerExit]) = .ok r ∧
      (r.given, r.slots) = ([.text "x"], []) := by
  have hends : (run false ([outerEntry, innerEntry, innerText] ++ [outerExit])).toOption.map
      (fun r => (r.given, r.slots)) = some ([.text "x"], []) := by
    decide +kernel
  exact ok_of_to_option_map hends

theorem run_closes_both_slots :
    (∃ before opening between,
      [outerEntry, innerEntry, innerText] = before ++ opening :: between ∧
      Since false 0 before opening between ∧ outerExit.IsExitOf opening) ∧
    ∃ before opening between,
      [outerEntry, innerEntry, innerText] = before ++ opening :: between ∧
      Since false 1 before opening between ∧
      Folds false outerExit [] (.unary 2 (some (.text "x"))) [.unary 1 none] := by
  obtain ⟨r, hrun, hslots⟩ := run_inner_text
  obtain ⟨r', hrun', hends⟩ := run_outer_exit
  obtain ⟨-, hempty⟩ := Prod.mk.inj hends
  constructor
  · obtain ⟨before, opening, between, hes, hsince, -, -, hexit | hfolds⟩ :=
      run_closes false _ outerExit r r' hrun hrun' [.unary 2 (some (.text "x"))] (.unary 1 none) []
        hslots (by rw [hempty]; exact not_holds_nil _ _)
    · exact ⟨before, opening, between, hes, hsince, hexit⟩
    · cases hfolds
  · obtain ⟨before, opening, between, hes, hsince, -, hof, hexit | hfolds⟩ :=
      run_closes false _ outerExit r r' hrun hrun' [] (.unary 2 (some (.text "x"))) [.unary 1 none]
        hslots (by rw [hempty]; exact not_holds_nil _ _)
    · -- The event that opened the slot has its token index, and the exit has another one.
      have hindex : outerExit.tokenIndex = 2 := hexit.2.1.trans hof.2
      cases hindex
    · exact ⟨before, opening, between, hes, hsince, hfolds⟩

/-- The exit of one expression can take the slot of another one that was never left. -/
theorem run_closes_other :
    ∃ r r', run false [outerEntry, innerEntry, innerText] = .ok r ∧
      run false ([outerEntry, innerEntry, innerText] ++ [outerExit]) = .ok r' ∧
      r.slots = [.unary 2 (some (.text "x")), .unary 1 none] ∧ r'.slots = [] ∧
      Since false 1 [outerEntry] innerEntry [innerText] ∧ ¬outerExit.IsExitOf innerEntry := by
  obtain ⟨r, hrun, hslots⟩ := run_inner_text
  obtain ⟨r', hrun', hends⟩ := run_outer_exit
  obtain ⟨-, hempty⟩ := Prod.mk.inj hends
  have hone : (run false [outerEntry]).toOption.map (fun r => r.slots.length) = some 1 := by
    decide +kernel
  have htwo : (run false [outerEntry, innerEntry]).toOption.map (fun r => r.slots.length) =
      some 2 := by
    decide +kernel
  refine ⟨r, r', hrun, hrun', hslots, hempty, ⟨ok_of_to_option_map hone, ?_⟩, ?_⟩
  · intro front hfront
    rcases List.prefix_cons_iff.mp hfront with rfl | ⟨rest, rfl, hrest⟩
    · obtain ⟨r₂, hrun₂, hlength⟩ := ok_of_to_option_map htwo
      exact ⟨r₂, hrun₂, by omega⟩
    · rw [List.prefix_nil.mp hrest]
      exact ⟨r, hrun, by simp [hslots]⟩
  · rintro ⟨-, hindex, -⟩
    cases hindex

end Slots

end RedoLog
