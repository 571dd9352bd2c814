import RedoLog.Replay.Insert

/-!
# Replaying an UPDATE

Each assignment of the `SET` clause opens a row value, which collects a column name and a value and
is put when the assignment ends, null included. The `WHERE` clause holds values of the same form;
they are skipped because no row value is open there.
-/

set_option autoImplicit false

namespace RedoLog

structure RowValue where
  tokenIndex : Nat
  column : Option String
  value : Option Value
  deriving DecidableEq, Repr

namespace RowValue

def setColumn (r : RowValue) (column : String) : Except ReplayError RowValue :=
  match r.column with
  | some held => .error (.columnAlreadySet r.tokenIndex column held)
  | none => .ok { r with column := some column }

def setValue (r : RowValue) (value : Value) : Except ReplayError RowValue :=
  match r.value with
  | some held => .error (.valueAlreadySet r.tokenIndex value held)
  | none => .ok { r with value := some value }

def complete (r : RowValue) (text : String) : Except ReplayError (String × Value) :=
  match r.column, r.value with
  | some column, some value => .ok (column, value)
  | _, _ => .error (.rowValueIncomplete r.tokenIndex text)

end RowValue

structure UpdateReplay where
  row : Option RowValue
  slots : Slots
  columns : Columns

namespace UpdateReplay

def start : UpdateReplay :=
  ⟨none, [], OrderedMap.empty⟩

def openRow (r : UpdateReplay) (e : Event) : Except ReplayError UpdateReplay :=
  match r.row with
  | some row => .error (.rowValueNotFlushed e.display row.tokenIndex e.text)
  | none => .ok { r with row := some ⟨e.tokenIndex, none, none⟩ }

def nameRow (r : UpdateReplay) (e : Event) : Except ReplayError UpdateReplay :=
  match r.row with
  | none => .error (.rowValueNotOpen e.display e.text)
  | some row => do
    let row ← row.setColumn (unquoteName e.text)
    return { r with row := some row }

def closeRow (options : Options) (r : UpdateReplay) (e : Event) : Except ReplayError UpdateReplay :=
  match r.row with
  | none => .error (.rowValueNotOpen e.display e.text)
  | some row => do
    let (column, value) ← row.complete e.text
    return { r with row := none, columns := putColumn options r.columns column value }

def finish (r : UpdateReplay) (e : Event) : Except ReplayError UpdateReplay :=
  match r.row with
  | some row => .error (.rowValueIncomplete row.tokenIndex e.text)
  | none => if r.slots ≠ [] then .error (.uncompletedValues .update r.slots.length) else .ok r

def takeExpression (options : Options) (r : UpdateReplay) (e : Event) :
    Except ReplayError UpdateReplay :=
  match r.row with
  | none => .ok r
  | some row => do
    let (value, slots) ← Slots.handle options.trimText r.slots e
    match value with
    | none => return { r with slots := slots }
    | some value =>
      let row ← row.setValue value
      return { r with row := some row, slots := [] }

def handle (options : Options) (r : UpdateReplay) (e : Event) : Except ReplayError UpdateReplay :=
  match e.production, e.phase with
  | .updateStatement, .enter => .ok { r with slots := [] }
  | .setItem, .enter => r.openRow e
  | .columnName, .enter => r.nameRow e
  | .setItem, .exit => r.closeRow options e
  | .updateStatement, .exit => r.finish e
  | _, _ => if Slots.accepts e then r.takeExpression options e else .ok r

end UpdateReplay

end RedoLog
