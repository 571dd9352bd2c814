import RedoLog.Configuration
import RedoLog.Reconstruct
import RedoLog.Record
import RedoLog.Text.Blank
import RedoLog.Truncate

/-!
# Decoding records

A record of a row change is decoded into a record whose fields are the columns that its statement
writes, and behind them the saved fields of the source. In a batch, a record that cannot be decoded
is replaced by an error record and reported by a warning. Where it is the only message, its failure
is the failure of the batch.
-/

set_option autoImplicit false

namespace RedoLog

inductive Operation where
  | insert
  | update
  | delete
  | unsupported
  deriving DecidableEq, Repr

def Operation.ofName? (name : String) : Option Operation :=
  if name = "INSERT" then some .insert
  else if name = "UPDATE" then some .update
  else if name = "DELETE" then some .delete
  else if name = "UNSUPPORTED" then some .unsupported
  else none

def readOperation (name : String) : Except Failure Operation :=
  match Operation.ofName? name with
  | some operation => .ok operation
  | none => .error (.unsupportedOperation name)

def acceptedProtocols : List String :=
  ["csv", "oracle-log-miner"]

def aggregatedProtocol : String :=
  "[csv,oracle-log-miner]"

def errorType : String :=
  "th2-codec-error"

def errorField : String :=
  "content"

namespace Record

def isAccepted (r : Record) : Bool :=
  let protocol := Text.trim r.protocol
  protocol == "" || acceptedProtocols.contains protocol

def missingFields (r : Record) : List String :=
  requiredFields.filter fun name => !r.body.contains name

def fieldText (r : Record) (name : String) : String :=
  match r.body.get? name with
  | some (.text s) => s
  | some value => value.display
  | none => ""

end Record

namespace Decoder

def columns (c : Configuration) (r : Record) : Except Failure Columns :=
  if r.missingFields ≠ [] then .error (.missingFields r.missingFields)
  else
    let source := r.fieldText "SQL_REDO"
    match readOperation (r.fieldText "OPERATION") with
    | .error e => .error e
    | .ok .insert => reconstructInsert c.options source
    | .ok .update =>
      reconstructUpdate c.options (if c.truncateUpdates then truncateFromWhere source else source)
    | .ok .delete => .ok OrderedMap.empty
    | .ok .unsupported => .ok OrderedMap.empty

def saveFields (c : Configuration) (source : Record) (body : OrderedMap Value) :
    OrderedMap Value :=
  body.insertAll
    (c.saveColumns.names.filterMap fun name => (source.body.get? name).map fun v => (name, v))

def decodeRecord (c : Configuration) (r : Record) : Except Failure Record :=
  match columns c r with
  | .error e => .error e
  | .ok found => .ok { r with protocol := aggregatedProtocol, body := saveFields c r found }

def errorRecord (c : Configuration) (r : Record) (summary : String) : Record :=
  { r with
    type := errorType
    protocol := aggregatedProtocol
    body := saveFields c r (OrderedMap.empty.insert errorField (.text summary)) }

def warning (id : MessageId) (summary : String) : String :=
  "Message " ++ id.display ++ " transformation failure: " ++ summary

inductive Outcome where
  | skipped (m : Message)
  | decoded (r : Record)
  | failed (source : Record) (failure : Failure)

def outcome (c : Configuration) : Message → Outcome
  | .raw m => .skipped (.raw m)
  | .parsed r =>
    if r.isAccepted then
      match decodeRecord c r with
      | .ok decoded => .decoded decoded
      | .error failure => .failed r failure
    else .skipped (.parsed r)

def Outcome.message (c : Configuration) : Outcome → Message
  | .skipped m => m
  | .decoded r => .parsed r
  | .failed source failure => .parsed (errorRecord c source failure.summary)

def Outcome.warnings : Outcome → List String
  | .failed source failure => [warning source.id failure.summary]
  | _ => []

def decode (c : Configuration) (warnings : List String) (batch : List Message) :
    Except Failure (List Message) × List String :=
  match batch.map (outcome c) with
  | [.failed _ failure] => (.error failure, warnings)
  | outcomes =>
    (.ok (outcomes.map (Outcome.message c)), warnings ++ outcomes.flatMap Outcome.warnings)

end Decoder

end RedoLog
