import RedoLog.Number.Reading
import RedoLog.Replay.Error
import RedoLog.Text.Blank
import RedoLog.Text.Quoted
import RedoLog.Tree

/-!
# Values under construction

Values are rebuilt on a stack of slots, the innermost first. A slot carries the index of the token
at which its expression starts. A function slot is closed only by the exit of a function with that
index. A unary slot is closed by the exit of a unary expression with that index, or, if it was left
open right above another unary slot, by the exit of that one, which takes over its value. The value
of the outermost expression is given out when its slot closes.
-/

set_option autoImplicit false

namespace RedoLog

def supportedFunctions : List String :=
  ["TO_DATE", "TO_TIMESTAMP"]

def canonicalFunction? (name : String) : Option String :=
  supportedFunctions.find? fun supported => Text.sameLetters supported name

/-- A number is an integer if it is written as one and fits, and a binary number otherwise. Text
that is no number stays text. -/
def numberValue (text : String) (integer : Bool) : Value :=
  match if integer then readInt64? text else none with
  | some n => .integer n
  | none =>
    match readBinary64? text with
    | some x => .real x
    | none => .text text

/-- The content of a string literal: one layer of quotes is removed, and then doubled quotes are
folded. -/
def unquoteText (text : String) : String :=
  String.ofList (Text.foldQuotes '\'' (Text.stripQuotes '\'' text.toList))

def textContent (trim : Bool) (text : String) : String :=
  if trim then Text.trim (unquoteText text) else unquoteText text

inductive Slot where
  | unary (tokenIndex : Nat) (value : Option Value)
  | function (tokenIndex : Nat) (name : String) (parameters : List Value)
  deriving DecidableEq, Repr

namespace Slot

def isUnaryAt (tokenIndex : Nat) : Slot → Bool
  | .unary index _ => index = tokenIndex
  | .function _ _ _ => false

def append (value : Value) : Slot → Except ReplayError Slot
  | .unary tokenIndex (some held) => .error (.alreadyCompleted tokenIndex value held)
  | .unary tokenIndex none => .ok (.unary tokenIndex (some value))
  | .function tokenIndex name parameters =>
    .ok (.function tokenIndex name (parameters ++ [value]))

def value : Slot → Except ReplayError Value
  | .unary _ value => .ok (value.getD .null)
  | .function tokenIndex _ _ => .error (.notCompleted .function tokenIndex)

end Slot

abbrev Slots : Type :=
  List Slot

namespace Slots

def accepts (e : Event) : Bool :=
  match e.production, e.phase with
  | .unaryExpression, _ => true
  | .function _, _ => true
  | .constant _, .enter => true
  | .quotedString, .enter => true
  | _, _ => false

def attach (e : Event) (value : Value) : Slots → Except ReplayError Slots
  | [] => .error (.emptyStack e.display e.text)
  | top :: slots => do
    let top ← top.append value
    return top :: slots

/-- The value that a constant has by itself; a quoted one has it in the event of its string. -/
def constantValue? (text : String) : Constant → Option Value
  | .null => some .null
  | .number text integer => some (numberValue text integer)
  | .quoted => none
  | .word => some (.text text)

def enterConstant (e : Event) (c : Constant) (slots : Slots) : Except ReplayError Slots :=
  match constantValue? e.text c with
  | some value => attach e value slots
  | none => .ok slots

def enterFunction (e : Event) (name : String) (slots : Slots) : Except ReplayError Slots :=
  match canonicalFunction? name with
  | some canonical => .ok (.function e.tokenIndex canonical [] :: slots)
  | none => .error (.unsupportedFunction e.text)

def exitFunction (e : Event) : Slots → Except ReplayError Slots
  | [] => .error (.emptyStack e.display e.text)
  | .function tokenIndex name parameters :: slots =>
    if tokenIndex = e.tokenIndex then attach e (.call name parameters) slots
    else .error (.tagMismatch .function e.tokenIndex tokenIndex e.text)
  | .unary tokenIndex _ :: _ => .error (.tagMismatch .function e.tokenIndex tokenIndex e.text)

def deliver (value : Value) : Slots → Except ReplayError (Option Value × Slots)
  | [] => .ok (some value, [])
  | parent :: slots => do
    let parent ← parent.append value
    return (none, parent :: slots)

def closeUnary (e : Event) (pending : Slots) (unary : Slot) (below : Slots) :
    Except ReplayError (Option Value × Slots) :=
  match pending with
  | [] => do
    let value ← unary.value
    deliver value below
  | [child] => do
    let inner ← child.value
    let unary ← unary.append inner
    let value ← unary.value
    deliver value below
  | _ => .error (.multipleValues e.tokenIndex pending.length e.text)

def exitUnary (e : Event) (slots : Slots) : Except ReplayError (Option Value × Slots) :=
  match slots.dropWhile fun slot => !slot.isUnaryAt e.tokenIndex with
  | [] => .error (.expressionNotFound e.tokenIndex e.text)
  | unary :: below =>
    closeUnary e (slots.takeWhile fun slot => !slot.isUnaryAt e.tokenIndex) unary below

def handle (trim : Bool) (slots : Slots) (e : Event) : Except ReplayError (Option Value × Slots) :=
  match e.production, e.phase with
  | .unaryExpression, .enter => .ok (none, .unary e.tokenIndex none :: slots)
  | .unaryExpression, .exit => exitUnary e slots
  | .constant c, .enter => do
    let slots ← enterConstant e c slots
    return (none, slots)
  | .quotedString, .enter => do
    let slots ← attach e (.text (textContent trim e.text)) slots
    return (none, slots)
  | .function name, .enter => do
    let slots ← enterFunction e name slots
    return (none, slots)
  | .function _, .exit => do
    let slots ← exitFunction e slots
    return (none, slots)
  | _, _ => .ok (none, slots)

end Slots

end RedoLog
