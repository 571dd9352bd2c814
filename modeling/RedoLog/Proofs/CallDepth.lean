import RedoLog.Proofs.Chains
import RedoLog.Statement.Meaning

/-!
# Calls inside each other

The calls of a value stand as deep inside each other as the levels of the expression allow that the
value comes from, and each of them has a parameter, since every call of an expression has one.
-/

set_option autoImplicit false

namespace RedoLog

namespace Value

mutual

def callDepth : Value → Nat
  | .call _ ps => callDepthAll ps + 1
  | _ => 0

def callDepthAll : List Value → Nat
  | [] => 0
  | p :: ps => max (callDepth p) (callDepthAll ps)

end

theorem call_depth_all_le (ps : List Value) (n : Nat) :
    callDepthAll ps ≤ n ↔ ∀ p ∈ ps, p.callDepth ≤ n := by
  induction ps with
  | nil => simp [callDepthAll]
  | cons p ps ih => rw [callDepthAll, Nat.max_le, ih, List.forall_mem_cons]

inductive Applied : Value → Prop where
  | null : Applied .null
  | integer (n : Int64) : Applied (.integer n)
  | real (x : Binary64) : Applied (.real x)
  | text (s : String) : Applied (.text s)
  | call (f : String) (ps : List Value) (hne : ps ≠ []) (hps : ∀ p ∈ ps, Applied p) :
      Applied (.call f ps)

end Value

theorem number_value_leaf (text : String) (integer : Bool) :
    (numberValue text integer).Applied ∧ (numberValue text integer).callDepth = 0 := by
  unfold numberValue
  split
  · exact ⟨.integer _, rfl⟩
  · split
    · exact ⟨.real _, rfl⟩
    · exact ⟨.text _, rfl⟩

namespace Expression

mutual

theorem applied_meaning (trim : Bool) : ∀ e : Expression, (e.meaning trim).Applied
  | .group _ inner _ => applied_meaning trim inner
  | .number _ _ => (number_value_leaf _ _).1
  | .text _ _ => .text _
  | .null _ => .null
  | .constant _ => .text _
  | .call _ _ arguments _ => by
    obtain ⟨hne, hall⟩ := applied_argument_meanings trim arguments
    exact .call _ _ hne hall

theorem applied_argument_meanings (trim : Bool) : ∀ es : Chain Expression,
    argumentMeanings trim es ≠ [] ∧ ∀ v ∈ argumentMeanings trim es, v.Applied
  | .last e => by simpa [argumentMeanings] using applied_meaning trim e
  | .next e _ rest => by
    have hrest := (applied_argument_meanings trim rest).2
    simpa [argumentMeanings] using ⟨applied_meaning trim e, hrest⟩

end

mutual

/-- A level of an expression holds at most one call. -/
theorem call_depth_meaning (trim : Bool) : ∀ e : Expression,
    (e.meaning trim).callDepth + 1 ≤ e.nesting
  | .group _ inner _ => Nat.le_succ_of_le (call_depth_meaning trim inner)
  | .number _ _ => Nat.le_of_eq (congrArg (· + 1) (number_value_leaf _ _).2)
  | .text _ _ => Nat.le_refl _
  | .null _ => Nat.le_refl _
  | .constant _ => Nat.le_refl _
  | .call _ _ arguments _ => Nat.succ_le_succ (call_depth_argument_meanings trim arguments)

theorem call_depth_argument_meanings (trim : Bool) : ∀ es : Chain Expression,
    Value.callDepthAll (argumentMeanings trim es) + 1 ≤ argumentNesting es
  | .last e => by
    simpa [argumentMeanings, Value.callDepthAll, argumentNesting] using call_depth_meaning trim e
  | .next e _ rest => by
    have he := call_depth_meaning trim e
    have hrest := call_depth_argument_meanings trim rest
    simp only [argumentMeanings, Value.callDepthAll, argumentNesting]
    omega

end

end Expression

end RedoLog
