import RedoLog.Ordered.Map
import RedoLog.Replay.Slots

/-!
# Replaying an INSERT

The names of the columns are queued while the column list is read. Each value of the row takes the
name at the head of the queue, and a value other than null is put under it.
-/

set_option autoImplicit false

namespace RedoLog

abbrev Columns : Type :=
  OrderedMap Value

structure Options where
  columnPrefix : String
  trimText : Bool
  deriving DecidableEq, Repr

def defaultColumnPrefix : String :=
  "th2_"

def defaultOptions : Options :=
  ⟨defaultColumnPrefix, true⟩

/-- A column name without its layer of double quotes; doubled quotes inside stay as they are. -/
def unquoteName (text : String) : String :=
  String.ofList (Text.stripQuotes '"' text.toList)

def putColumn (options : Options) (columns : Columns) (name : String) (value : Value) : Columns :=
  columns.insert (options.columnPrefix ++ name) value

structure InsertReplay where
  stage : Stage
  names : List String
  slots : Slots
  columns : Columns

namespace InsertReplay

def start : InsertReplay :=
  ⟨.begin, [], [], OrderedMap.empty⟩

def checkStage (r : InsertReplay) (e : Event) (expected : Stage) : Except ReplayError Unit :=
  if r.stage = expected then .ok () else .error (.stage e.display expected r.stage e.text)

def advance (r : InsertReplay) (e : Event) (expected next : Stage) :
    Except ReplayError InsertReplay := do
  r.checkStage e expected
  return { r with stage := next }

def takeValue (options : Options) (r : InsertReplay) (value : Value) :
    Except ReplayError InsertReplay :=
  match r.names with
  | [] => .error (.missingColumnName value)
  | name :: names =>
    .ok { r with
      names := names
      columns := if value.isNull then r.columns else putColumn options r.columns name value }

def finish (r : InsertReplay) : Except ReplayError InsertReplay :=
  if r.names ≠ [] then .error (.unusedColumnNames r.names)
  else if r.slots ≠ [] then .error (.uncompletedValues .insert r.slots.length)
  else .ok r

def handle (options : Options) (r : InsertReplay) (e : Event) : Except ReplayError InsertReplay :=
  match e.production, e.phase with
  | .insertStatement, .enter => r.advance e .begin .begin
  | .multiTableInsert, .enter => .error (.unsupportedMultiTableInsert e.text)
  | .insertIntoClause, .enter => r.advance e .begin .parsingNames
  | .columnName, .enter => do
    r.checkStage e .parsingNames
    return { r with names := r.names ++ [unquoteName e.text] }
  | .insertIntoClause, .exit => r.advance e .parsingNames .parsedNames
  | .valuesClause, .enter => r.advance e .parsedNames .parsingValues
  | .valuesClause, .exit => r.advance e .parsingValues .parsedValues
  | .insertStatement, .exit => do
    r.checkStage e .parsedValues
    r.finish
  | _, _ =>
    if Slots.accepts e then do
      r.checkStage e .parsingValues
      let (value, slots) ← Slots.handle options.trimText r.slots e
      match value with
      | some value => takeValue options { r with slots := slots } value
      | none => return { r with slots := slots }
    else .ok r

end InsertReplay

end RedoLog
