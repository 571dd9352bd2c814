import RedoLog.Record
import RedoLog.Value.Json

/-!
# Messages in JSON

A message is an object with one member, whose name tells the two kinds of messages apart. Of an
identity the subsequence may be left out, and of a message everything but the identity. An empty
subsequence and an absent event are not written.
-/

set_option autoImplicit false

namespace RedoLog

namespace Direction

def ofName? (name : String) : Option Direction :=
  if name = "incoming" then some .incoming
  else if name = "outgoing" then some .outgoing
  else none

/-- A direction is a text, or an object whose one member has that name and is null. -/
def ofJson? : Json → Option Direction
  | .string (some name) => ofName? name
  | .object [(some name, .null)] => ofName? name
  | _ => none

end Direction

namespace MessageId

def fieldNames : List String :=
  ["session_alias", "direction", "sequence", "subsequence"]

def toJson (id : MessageId) : Json :=
  .object
    ([Json.member "session_alias" (Json.text id.session),
      Json.member "direction" (Json.text id.direction.word),
      Json.member "sequence" (.number (Numeral.ofInt id.sequence.toInt))]
      ++ if id.subsequence = [] then []
        else
          [Json.member "subsequence"
            (.array (id.subsequence.map fun part => .number (Numeral.ofInt part.toNat)))])

def sequenceOfJson? (j : Json) : Option Int64 :=
  j.integer?.bind int64?

def subsequenceOfJson? (j : Json) : Option (List UInt32) := do
  let items ← j.items?
  items.mapM fun item => (item.natBelow? UInt32.size).map UInt32.ofNat

def ofJson? (j : Json) : Option MessageId := do
  match ← j.fields? fieldNames with
  | [some session, some direction, some sequence, subsequence] =>
    let session ← session.text?
    let direction ← Direction.ofJson? direction
    let sequence ← sequenceOfJson? sequence
    let subsequence ← Json.orDefault [] subsequenceOfJson? subsequence
    return ⟨session, direction, sequence, subsequence⟩
  | _ => none

end MessageId

namespace Message

def metadataToJson (metadata : OrderedMap String) : Json :=
  .object (metadata.entries.map fun entry => Json.member entry.1 (Json.text entry.2))

def metadataOfJson? (j : Json) : Option (OrderedMap String) := do
  let members ← j.members?
  let entries ← members.mapM fun entry => entry.2.text?.map fun s => (entry.1, s)
  return OrderedMap.ofEntries entries

def bodyToJson (body : OrderedMap Value) : Json :=
  .object (body.entries.map fun entry => Json.member entry.1 entry.2.toJson)

/-- A body stands in the object of its message, which stands in another one. -/
def bodyOfJson? (j : Json) : Option (OrderedMap Value) := do
  let members ← j.members?
  let entries ← members.mapM fun entry => (Value.readJson? 3 entry.2).map fun v => (entry.1, v)
  return OrderedMap.ofEntries entries

def bytesToJson (bytes : List UInt8) : Json :=
  .array (bytes.map fun byte => .number (Numeral.ofInt byte.toNat))

def bytesOfJson? (j : Json) : Option (List UInt8) := do
  let items ← j.items?
  items.mapM fun item => (item.natBelow? UInt8.size).map UInt8.ofNat

def eventIdToJson (eventId : Option String) : List (Option String × Json) :=
  eventId.toList.map fun s => Json.member "event_id" (Json.text s)

def eventIdOfJson? : Json → Option (Option String)
  | .null => some none
  | j => j.text?.map some

end Message

namespace Record

def fieldNames : List String :=
  ["id", "event_id", "type", "metadata", "protocol", "body"]

def toJson (r : Record) : Json :=
  .object
    (Json.member "id" r.id.toJson :: Message.eventIdToJson r.eventId
      ++ [Json.member "type" (Json.text r.type),
        Json.member "metadata" (Message.metadataToJson r.metadata),
        Json.member "protocol" (Json.text r.protocol),
        Json.member "body" (Message.bodyToJson r.body)])

def ofJson? (j : Json) : Option Record := do
  match ← j.fields? fieldNames with
  | [some id, eventId, type, metadata, protocol, body] =>
    let id ← MessageId.ofJson? id
    let eventId ← Json.orDefault none Message.eventIdOfJson? eventId
    let type ← Json.orDefault "" Json.text? type
    let metadata ← Json.orDefault OrderedMap.empty Message.metadataOfJson? metadata
    let protocol ← Json.orDefault "" Json.text? protocol
    let body ← Json.orDefault OrderedMap.empty Message.bodyOfJson? body
    return ⟨id, eventId, type, metadata, protocol, body⟩
  | _ => none

end Record

namespace RawMessage

def fieldNames : List String :=
  ["id", "event_id", "metadata", "protocol", "body"]

def toJson (r : RawMessage) : Json :=
  .object
    (Json.member "id" r.id.toJson :: Message.eventIdToJson r.eventId
      ++ [Json.member "metadata" (Message.metadataToJson r.metadata),
        Json.member "protocol" (Json.text r.protocol),
        Json.member "body" (Message.bytesToJson r.body)])

def ofJson? (j : Json) : Option RawMessage := do
  match ← j.fields? fieldNames with
  | [some id, eventId, metadata, protocol, body] =>
    let id ← MessageId.ofJson? id
    let eventId ← Json.orDefault none Message.eventIdOfJson? eventId
    let metadata ← Json.orDefault OrderedMap.empty Message.metadataOfJson? metadata
    let protocol ← Json.orDefault "" Json.text? protocol
    let body ← Json.orDefault [] Message.bytesOfJson? body
    return ⟨id, eventId, metadata, protocol, body⟩
  | _ => none

end RawMessage

namespace Message

def toJson : Message → Json
  | .parsed r => .object [Json.member "parsed" r.toJson]
  | .raw r => .object [Json.member "raw" r.toJson]

def ofJson? : Json → Option Message
  | .object [(some name, j)] =>
    if name = "parsed" then (Record.ofJson? j).map .parsed
    else if name = "raw" then (RawMessage.ofJson? j).map .raw
    else none
  | _ => none

def render (m : Message) : String :=
  m.toJson.render

def read? (s : String) : Option Message :=
  (Json.read? s).bind ofJson?

end Message

def renderColumns (columns : OrderedMap Value) : String :=
  (Message.bodyToJson columns).render

end RedoLog
