import RedoLog.Proofs.Outcome
import RedoLog.Proofs.Scanning
import RedoLog.Proofs.Walk
import RedoLog.Statement.Meaning

/-!
# Replaying one expression

The events of an expression, handed to slots one after the other, bring its meaning to the slot
below, or end at the first call of an unsupported function. This holds over any slots, those with
the same token indices included, since every exit finds the slot that its own entry put on top.
-/

set_option autoImplicit false

namespace RedoLog

theorem Node.text_leaf {source : List Char} {t : Token} (production : Production)
    (h : t.StandsIn source) : (Node.leaf production t).text source = t.text := by
  have hslice : Text.slice? t.start t.stop source = some t.text.toList := h
  simp [Node.text, Node.leaf, Node.span, hslice]

theorem canonical_function_eq (c : Call) :
    canonicalFunction? c.name.text =
      if c.isSupported then some (String.ofList (Text.upper c.name.text.toList)) else none := by
  have hcapitals : ∀ s ∈ supportedFunctions, Text.upper s.toList = s.toList := by decide
  cases hfind : canonicalFunction? c.name.text with
  | none =>
    have hnone := List.find?_eq_none.mp hfind
    have hunsupported : c.isSupported = false := by
      simpa [Call.isSupported] using hnone
    simp [hunsupported]
  | some f =>
    have hmem : f ∈ supportedFunctions := List.mem_of_find?_eq_some hfind
    have hsame : Text.sameLetters f c.name.text = true := by
      simpa using List.find?_some hfind
    have hsupported : c.isSupported = true := List.any_eq_true.mpr ⟨f, hmem, hsame⟩
    have hletters : Text.upper f.toList = Text.upper c.name.text.toList := by
      simpa [Text.sameLetters] using hsame
    rw [if_pos hsupported, ← hletters, hcapitals f hmem, String.ofList_toList]

def checkCalls (source : List Char) (calls : List Call) : Except ReplayError Unit :=
  match calls.find? fun c => !c.isSupported with
  | none => .ok ()
  | some c => .error (.unsupportedFunction (c.text source))

theorem check_calls_cons (source : List Char) (c : Call) (cs : List Call) :
    checkCalls source (c :: cs) =
      if c.isSupported then checkCalls source cs
      else .error (.unsupportedFunction (c.text source)) := by
  cases h : c.isSupported <;> simp [checkCalls, h]

theorem check_calls_append (source : List Char) (cs ds : List Call) :
    checkCalls source (cs ++ ds) = (checkCalls source cs >>= fun _ => checkCalls source ds) := by
  induction cs with
  | nil => rfl
  | cons c cs ih =>
    rw [List.cons_append, check_calls_cons, check_calls_cons, ih]
    split <;> rfl

theorem check_calls_eq_ok (source : List Char) (cs : List Call) :
    checkCalls source cs = .ok () ↔ ∀ c ∈ cs, c.isSupported = true := by
  induction cs with
  | nil => simp [checkCalls]
  | cons c cs ih => cases h : c.isSupported <;> simp [check_calls_cons, h, ih]

theorem check_calls_cases (source : List Char) (cs : List Call) :
    checkCalls source cs = .ok () ∨
      ∃ text, checkCalls source cs = .error (.unsupportedFunction text) := by
  cases h : cs.find? fun c => !c.isSupported with
  | none => exact Or.inl (by simp [checkCalls, h])
  | some c => exact Or.inr ⟨c.text source, by simp [checkCalls, h]⟩

def Production.isOfValue : Production → Bool
  | .unaryExpression => true
  | .constant _ => true
  | .quotedString => true
  | .function _ => true
  | _ => false

namespace Slots

variable {σ : Type}

/-- What becomes of the outcome of an event: slots are put back, and a value that was given out is
taken. -/
def settle (place : Slots → σ) (take : Value → Slots → Except ReplayError σ) :
    Option Value × Slots → Except ReplayError σ
  | (none, slots) => .ok (place slots)
  | (some value, slots) => take value slots

structure Host (σ : Type) where
  trim : Bool
  step : σ → Event → Except ReplayError σ
  place : Slots → σ
  take : Value → Slots → Except ReplayError σ
  step_place : ∀ slots e, e.production.isOfValue = true →
    step (place slots) e = (handle trim slots e >>= settle place take)

theorem exit_unary_top (e : Event) (value : Value) (slots : Slots) :
    exitUnary e (.unary e.tokenIndex (some value) :: slots) = deliver value slots := by
  simp [exitUnary, Slot.isUnaryAt, closeUnary, Slot.value]

namespace Host

variable (host : Host σ) (source : List Char)

theorem run_unary (first last : Token) (children : List Node) (value : Value) (slots : Slots)
    (check : Except ReplayError Unit)
    (hinner : (Node.eventsAll source children).foldlM host.step
        (host.place (.unary first.index none :: slots)) =
      (check >>= fun _ => .ok (host.place (.unary first.index (some value) :: slots)))) :
    ((Node.span .unaryExpression first last children).events source).foldlM host.step
        (host.place slots) =
      (check >>= fun _ => deliver value slots >>= settle host.place host.take) := by
  have henter : host.step (host.place slots)
      ((Node.span .unaryExpression first last children).event source .enter) =
        .ok (host.place (.unary first.index none :: slots)) := host.step_place _ _ rfl
  have hexit : host.step (host.place (.unary first.index (some value) :: slots))
      ((Node.span .unaryExpression first last children).event source .exit) =
        (deliver value slots >>= settle host.place host.take) := by
    rw [host.step_place _ _ rfl]
    exact congrArg (· >>= settle host.place host.take) (exit_unary_top _ value slots)
  rw [Node.foldlm_events, henter, ok_bind]
  simp only [Node.span] at hinner hexit ⊢
  rw [hinner, bind_assoc]
  simp only [ok_bind, hexit]

theorem run_constant (c : Constant) (first last : Token) (value : Value) (index : Nat)
    (slots : Slots)
    (hvalue : constantValue? ((Node.span (.constant c) first last []).text source) c =
      some value) :
    ((Node.span (.constant c) first last []).events source).foldlM host.step
        (host.place (.unary index none :: slots)) =
      .ok (host.place (.unary index (some value) :: slots)) := by
  have henter : host.step (host.place (.unary index none :: slots))
      ((Node.span (.constant c) first last []).event source .enter) =
        .ok (host.place (.unary index (some value) :: slots)) := by
    rw [host.step_place _ _ rfl]
    simp only [handle, Node.event, Node.span, enterConstant] at hvalue ⊢
    rw [hvalue]
    rfl
  have hexit : host.step (host.place (.unary index (some value) :: slots))
      ((Node.span (.constant c) first last []).event source .exit) =
        .ok (host.place (.unary index (some value) :: slots)) := host.step_place _ _ rfl
  rw [Node.foldlm_events, henter, ok_bind]
  exact hexit

theorem run_text (type : Option Token) (literal : Token) (hliteral : literal.StandsIn source)
    (index : Nat) (slots : Slots) :
    ((Expression.textNode type literal).events source).foldlM host.step
        (host.place (.unary index none :: slots)) =
      .ok (host.place (.unary index (some (.text (textContent host.trim literal.text)))
        :: slots)) := by
  have henter : host.step (host.place (.unary index none :: slots))
      ((Expression.textNode type literal).event source .enter) =
        .ok (host.place (.unary index none :: slots)) := host.step_place _ _ rfl
  have hstring : host.step (host.place (.unary index none :: slots))
      ((Node.leaf .quotedString literal).event source .enter) =
        .ok (host.place (.unary index (some (.text (textContent host.trim literal.text)))
          :: slots)) := by
    rw [host.step_place _ _ rfl, ← Node.text_leaf .quotedString hliteral]
    rfl
  have hleave : ∀ slots, host.step (host.place slots)
      ((Node.leaf .quotedString literal).event source .exit) = .ok (host.place slots) :=
    fun slots => host.step_place _ _ rfl
  have hexit : ∀ slots, host.step (host.place slots)
      ((Expression.textNode type literal).event source .exit) = .ok (host.place slots) :=
    fun slots => host.step_place _ _ rfl
  have hinner : Node.eventsAll source (Expression.textNode type literal).children =
      [(Node.leaf .quotedString literal).event source .enter,
        (Node.leaf .quotedString literal).event source .exit] := rfl
  rw [Node.foldlm_events, henter, ok_bind, hinner]
  simp only [List.foldlM_cons, List.foldlM_nil, hstring, hleave, hexit, ok_bind, pure_bind]

theorem run_function (name closing : Token) (arguments : List Node) (parameters : List Value)
    (index : Nat) (slots : Slots) (check : Except ReplayError Unit)
    (hinner : ∀ f, (Node.eventsAll source arguments).foldlM host.step
        (host.place (.function name.index f [] :: .unary index none :: slots)) =
      (check >>= fun _ =>
        .ok (host.place (.function name.index f parameters :: .unary index none :: slots)))) :
    ((Node.span (.function name.text) name closing arguments).events source).foldlM host.step
        (host.place (.unary index none :: slots)) =
      ((if (Call.mk name closing).isSupported then check
        else .error (.unsupportedFunction ((Call.mk name closing).text source))) >>= fun _ =>
          .ok (host.place (.unary index
            (some (.call (String.ofList (Text.upper name.text.toList)) parameters)) :: slots))) := by
  have henter : host.step (host.place (.unary index none :: slots))
      ((Node.span (.function name.text) name closing arguments).event source .enter) =
        (if (Call.mk name closing).isSupported then
          .ok (host.place (.function name.index
            (String.ofList (Text.upper name.text.toList)) [] :: .unary index none :: slots))
        else .error (.unsupportedFunction ((Call.mk name closing).text source))) := by
    rw [host.step_place _ _ rfl]
    have hcanonical := canonical_function_eq (Call.mk name closing)
    cases h : (Call.mk name closing).isSupported <;>
      simp only [handle, Node.event, Node.span, enterFunction, hcanonical, h] <;> rfl
  have hexit : host.step
      (host.place (.function name.index (String.ofList (Text.upper name.text.toList)) parameters
        :: .unary index none :: slots))
      ((Node.span (.function name.text) name closing arguments).event source .exit) =
        .ok (host.place (.unary index
          (some (.call (String.ofList (Text.upper name.text.toList)) parameters)) :: slots)) := by
    rw [host.step_place _ _ rfl]
    simp [handle, Node.event, Node.span, exitFunction, attach, Slot.append, settle]
  rw [Node.foldlm_events, henter]
  cases (Call.mk name closing).isSupported with
  | false => rfl
  | true =>
    simp only [if_true, ok_bind]
    simp only [Node.span] at hinner hexit ⊢
    rw [hinner, bind_assoc]
    simp only [ok_bind, hexit]

mutual

/-- The events of an expression find its first unsupported call, or else deliver its meaning to
the slots below it. -/
theorem run_expression : ∀ (e : Expression), (∀ t ∈ e.tokens, t.StandsIn source) → ∀ slots : Slots,
    (e.node.events source).foldlM host.step (host.place slots) =
      (checkCalls source e.calls >>= fun _ =>
        deliver (e.meaning host.trim) slots >>= settle host.place host.take)
  | .group opening inner closing, hsource, slots => by
    apply host.run_unary source opening closing [inner.node] (inner.meaning host.trim) slots _
    rw [Node.foldlm_events_all_singleton,
      run_expression inner fun t ht => hsource t (by simp [Expression.tokens, ht])]
    rfl
  | .number sign literal, hsource, slots => by
    apply host.run_unary source _ _ _ _ slots (.ok ())
    rw [Node.foldlm_events_all_singleton]
    exact host.run_constant source _ _ _ _ _ slots rfl
  | .text type literal, hsource, slots => by
    apply host.run_unary source _ _ _ _ slots (.ok ())
    rw [Node.foldlm_events_all_singleton]
    exact host.run_text source type literal (hsource literal (by simp [Expression.tokens])) _ slots
  | .null word, hsource, slots => by
    apply host.run_unary source _ _ _ _ slots (.ok ())
    rw [Node.foldlm_events_all_singleton]
    exact host.run_constant source _ _ _ _ _ slots rfl
  | .constant word, hsource, slots => by
    apply host.run_unary source _ _ _ _ slots (.ok ())
    rw [Node.foldlm_events_all_singleton]
    apply host.run_constant source _ _ _ (.text word.text) _ slots
    have htext := Node.text_leaf (.constant .word) (hsource word (by simp [Expression.tokens]))
    exact congrArg (fun s => some (Value.text s)) htext
  | .call name opening arguments closing, hsource, slots => by
    apply host.run_unary source _ _ _ _ slots _
    rw [Node.foldlm_events_all_singleton, Expression.calls, check_calls_cons]
    refine host.run_function source name closing _
      (Expression.argumentMeanings host.trim arguments) name.index slots _ fun f => ?_
    exact run_arguments arguments (fun t ht => hsource t (by simp [Expression.tokens, ht]))
      name.index f [] (.unary name.index none :: slots)

theorem run_arguments : ∀ (es : Chain Expression),
    (∀ t ∈ Expression.argumentTokens es, t.StandsIn source) →
    ∀ (index : Nat) (f : String) (parameters : List Value) (slots : Slots),
    (Node.eventsAll source (Expression.argumentNodes es)).foldlM host.step
        (host.place (.function index f parameters :: slots)) =
      (checkCalls source (Expression.argumentCalls es) >>= fun _ =>
        .ok (host.place (.function index f
          (parameters ++ Expression.argumentMeanings host.trim es) :: slots)))
  | .last e, hsource, index, f, parameters, slots => by
    rw [Expression.argumentNodes, Node.foldlm_events_all_singleton, run_expression e hsource]
    rfl
  | .next e comma rest, hsource, index, f, parameters, slots => by
    rw [Expression.argumentNodes, Node.foldlm_events_all_cons,
      run_expression e fun t ht => hsource t (by simp [Expression.argumentTokens, ht])]
    simp only [deliver, Slot.append, ok_bind, bind_assoc]
    rw [Expression.argumentCalls, check_calls_append, bind_assoc]
    congr 1
    funext _
    refine (run_arguments rest (fun t ht => hsource t (by simp [Expression.argumentTokens, ht]))
      index f (parameters ++ [e.meaning host.trim]) slots).trans ?_
    simp [Expression.argumentMeanings]

end

end Host

end Slots

end RedoLog
