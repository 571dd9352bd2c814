import RedoLog.Ordered.Map
import RedoLog.Value

/-!
# Messages

A batch is a list of messages. A parsed message is a record: its fields are values by name. A raw
message holds bytes and is never decoded.
-/

set_option autoImplicit false

namespace RedoLog

inductive Direction where
  | incoming
  | outgoing
  deriving DecidableEq, Repr

def Direction.word : Direction → String
  | .incoming => "incoming"
  | .outgoing => "outgoing"

structure MessageId where
  session : String
  direction : Direction
  sequence : Int64
  subsequence : List UInt32
  deriving DecidableEq, Repr

def MessageId.display (id : MessageId) : String :=
  id.session ++ ":" ++ id.direction.word ++ ":" ++ toString id.sequence.toInt
    ++ String.join (id.subsequence.map fun part => "." ++ toString part.toNat)

structure Record where
  id : MessageId
  eventId : Option String
  type : String
  metadata : OrderedMap String
  protocol : String
  body : OrderedMap Value
  deriving DecidableEq

structure RawMessage where
  id : MessageId
  eventId : Option String
  metadata : OrderedMap String
  protocol : String
  body : List UInt8
  deriving DecidableEq

inductive Message where
  | parsed (r : Record)
  | raw (r : RawMessage)
  deriving DecidableEq

end RedoLog
