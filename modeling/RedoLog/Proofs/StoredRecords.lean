import RedoLog.Configuration
import RedoLog.Proofs.JsonFields
import RedoLog.Proofs.StoredValues
import RedoLog.Record.Json

/-!
# Messages and settings that are stored

A message is loaded again from its JSON form exactly if each value of its body is, at the depth at
which it stands there. Settings hold neither nested values nor numbers.
-/

set_option autoImplicit false

namespace RedoLog

theorem Direction.of_json_word (d : Direction) : ofJson? (Json.text d.word) = some d := by
  cases d <;> rfl

theorem Json.text_text (s : String) : (text s).text? = some s :=
  rfl

theorem Json.or_default_some {α : Type} (default : α) (read? : Json → Option α) (j : Json) :
    orDefault default read? (some j) = read? j :=
  rfl

namespace MessageId

def partsToJson (parts : List UInt32) : Json :=
  .array (parts.map fun part => .number (Numeral.ofInt part.toNat))

theorem to_json_eq (id : MessageId) :
    id.toJson = .object
      ([Json.member "session_alias" (Json.text id.session),
        Json.member "direction" (Json.text id.direction.word),
        Json.member "sequence" (.number (Numeral.ofInt id.sequence.toInt))]
        ++ if id.subsequence = [] then []
          else [Json.member "subsequence" (partsToJson id.subsequence)]) :=
  rfl

theorem subsequence_of_json_parts_to_json (parts : List UInt32) :
    subsequenceOfJson? (partsToJson parts) = some parts :=
  Json.mapm_nat_below (fun part => part.toNat_lt) (fun _ => UInt32.ofNat_toNat) parts

theorem fields_to_json (id : MessageId) :
    id.toJson.fields? fieldNames =
      some [some (Json.text id.session), some (Json.text id.direction.word),
        some (.number (Numeral.ofInt id.sequence.toInt)),
        if id.subsequence = [] then none else some (partsToJson id.subsequence)] := by
  by_cases h : id.subsequence = [] <;>
    simp [to_json_eq, fieldNames, Json.fields?, Json.uniqueMember?, Json.memberValues, Json.member,
      h]

theorem of_json_to_json (id : MessageId) : ofJson? id.toJson = some id := by
  have hsequence : sequenceOfJson? (.number (Numeral.ofInt id.sequence.toInt)) =
      some id.sequence := by
    simp [sequenceOfJson?, Json.integer?, integer_of_int, int64_to_int]
  have hparts : Json.orDefault [] subsequenceOfJson?
      (if id.subsequence = [] then none else some (partsToJson id.subsequence)) =
        some id.subsequence := by
    by_cases h : id.subsequence = []
    · rw [if_pos h, h]
      rfl
    · rw [if_neg h]
      exact subsequence_of_json_parts_to_json id.subsequence
  rw [ofJson?, fields_to_json]
  simp [Json.text_text, Direction.of_json_word, hsequence, hparts]

theorem proper (id : MessageId) : id.toJson.Proper := by
  have hparts : (partsToJson id.subsequence).Proper :=
    Json.proper_items _ _ fun part _ => Json.proper_integer _
  rw [to_json_eq]
  apply Json.proper_object
  rw [List.forall_mem_append]
  constructor
  · simp [Json.member, Json.text, Json.Proper.text, Json.proper_integer]
  · split
    · simp
    · simpa [Json.member] using hparts

theorem nesting_to_json_le (id : MessageId) : id.toJson.nesting ≤ 2 := by
  have hparts : (partsToJson id.subsequence).nesting ≤ 1 :=
    (Json.nesting_items_le _ _ 0).mpr fun _ _ => Nat.le_refl 0
  rw [to_json_eq]
  apply Nat.succ_le_succ
  rw [Json.nesting_all_members_le, List.forall_mem_append]
  constructor
  · simp [Json.member, Json.text, Json.nesting]
  · split
    · simp
    · simpa [Json.member] using hparts

end MessageId

namespace Message

theorem metadata_of_json_metadata_to_json (metadata : OrderedMap String) :
    metadataOfJson? (metadataToJson metadata) = some metadata := by
  rw [metadataOfJson?, metadataToJson, Json.members_object]
  exact (OrderedMap.of_entries_mapm metadata _ _).mpr fun entry _ => rfl

theorem body_of_json_body_to_json (body : OrderedMap Value) :
    bodyOfJson? (bodyToJson body) = some body ↔
      ∀ entry ∈ body.entries, Value.readJson? 3 entry.2.toJson = some entry.2 := by
  rw [bodyOfJson?, bodyToJson, Json.members_object]
  exact OrderedMap.of_entries_mapm body _ _

theorem bytes_of_json_bytes_to_json (bytes : List UInt8) :
    bytesOfJson? (bytesToJson bytes) = some bytes :=
  Json.mapm_nat_below (fun byte => byte.toNat_lt) (fun _ => UInt8.ofNat_toNat) bytes

theorem proper_metadata_to_json (metadata : OrderedMap String) : (metadataToJson metadata).Proper :=
  Json.proper_members _ _ _ fun entry _ => .text entry.2

theorem proper_body_to_json (body : OrderedMap Value) : (bodyToJson body).Proper :=
  Json.proper_members _ _ _ fun entry _ => entry.2.proper

theorem proper_bytes_to_json (bytes : List UInt8) : (bytesToJson bytes).Proper :=
  Json.proper_items _ _ fun _ _ => Json.proper_integer _

theorem proper_event_id_to_json (eventId : Option String) :
    ∀ entry ∈ eventIdToJson eventId, entry.1.isSome = true ∧ entry.2.Proper := by
  cases eventId <;> simp [eventIdToJson, Json.member, Json.text, Json.Proper.text]

theorem nesting_metadata_to_json_le (metadata : OrderedMap String) :
    (metadataToJson metadata).nesting ≤ 1 :=
  (Json.nesting_members_le _ _ _ 0).mpr fun _ _ => Nat.le_refl 0

theorem nesting_body_to_json_le (body : OrderedMap Value) (n : Nat) :
    (bodyToJson body).nesting ≤ n + 1 ↔ ∀ entry ∈ body.entries, entry.2.toJson.nesting ≤ n :=
  Json.nesting_members_le _ _ _ n

theorem nesting_bytes_to_json_le (bytes : List UInt8) : (bytesToJson bytes).nesting ≤ 1 :=
  (Json.nesting_items_le _ _ 0).mpr fun _ _ => Nat.le_refl 0

theorem nesting_event_id_to_json_le (eventId : Option String) :
    ∀ entry ∈ eventIdToJson eventId, entry.2.nesting ≤ 0 := by
  cases eventId <;> simp [eventIdToJson, Json.member, Json.text, Json.nesting]

theorem event_id_of_json_text (eventId : Option String) :
    Json.orDefault none eventIdOfJson? (eventId.map Json.text) = some eventId := by
  cases eventId <;> rfl

end Message

namespace Record

theorem fields_to_json (r : Record) :
    r.toJson.fields? fieldNames =
      some [some r.id.toJson, r.eventId.map Json.text, some (Json.text r.type),
        some (Message.metadataToJson r.metadata), some (Json.text r.protocol),
        some (Message.bodyToJson r.body)] := by
  cases h : r.eventId <;>
    simp [toJson, Message.eventIdToJson, fieldNames, Json.fields?, Json.uniqueMember?,
      Json.memberValues, Json.member, h]

/-- A record is loaded as it was exactly if its body is. -/
theorem of_json_to_json (r : Record) :
    ofJson? r.toJson = some r ↔
      Message.bodyOfJson? (Message.bodyToJson r.body) = some r.body := by
  have heventId := Message.event_id_of_json_text r.eventId
  have hload : ofJson? r.toJson = (Message.bodyOfJson? (Message.bodyToJson r.body)).map
      fun body => { r with body := body } := by
    rw [ofJson?, fields_to_json]
    cases hbody : Message.bodyOfJson? (Message.bodyToJson r.body) <;>
      simp [MessageId.of_json_to_json, heventId, Json.or_default_some, Json.text_text,
        Message.metadata_of_json_metadata_to_json, hbody]
  rw [hload, Option.map_eq_some_iff]
  constructor
  · rintro ⟨body, hbody, hr⟩
    exact hbody.trans (congrArg (fun r => some r.body) hr)
  · exact fun h => ⟨r.body, h, rfl⟩

theorem proper (r : Record) : r.toJson.Proper := by
  apply Json.proper_object
  rw [List.cons_append, List.forall_mem_cons, List.forall_mem_append]
  refine ⟨⟨rfl, r.id.proper⟩, Message.proper_event_id_to_json r.eventId, ?_⟩
  simp [Json.member, Json.text, Json.Proper.text, Message.proper_metadata_to_json,
    Message.proper_body_to_json]

theorem nesting_to_json_le (r : Record) {n : Nat} (h : 1 ≤ n) :
    r.toJson.nesting ≤ n + 2 ↔ ∀ entry ∈ r.body.entries, entry.2.toJson.nesting ≤ n := by
  have hid : r.id.toJson.nesting ≤ n + 1 :=
    Nat.le_trans r.id.nesting_to_json_le (Nat.succ_le_succ h)
  have heventId : ∀ entry ∈ Message.eventIdToJson r.eventId, entry.2.nesting ≤ n + 1 :=
    fun entry hentry => Nat.le_trans (Message.nesting_event_id_to_json_le _ entry hentry)
      (Nat.zero_le _)
  have hmetadata : (Message.metadataToJson r.metadata).nesting ≤ n + 1 :=
    Nat.le_trans (Message.nesting_metadata_to_json_le _) (Nat.le_add_left 1 n)
  have htext : ∀ s : String, (Json.text s).nesting ≤ n + 1 := fun _ => Nat.zero_le _
  rw [← Message.nesting_body_to_json_le, toJson, Json.nesting, Nat.add_le_add_iff_right (n := 1),
    Json.nesting_all_members_le, List.cons_append, List.forall_mem_cons, List.forall_mem_append]
  simp only [Json.member, hid, true_and, List.forall_mem_cons, htext, hmetadata]
  exact ⟨fun h => h.2.1, fun h => ⟨heventId, h, by simp⟩⟩

end Record

namespace RawMessage

theorem fields_to_json (r : RawMessage) :
    r.toJson.fields? fieldNames =
      some [some r.id.toJson, r.eventId.map Json.text, some (Message.metadataToJson r.metadata),
        some (Json.text r.protocol), some (Message.bytesToJson r.body)] := by
  cases h : r.eventId <;>
    simp [toJson, Message.eventIdToJson, fieldNames, Json.fields?, Json.uniqueMember?,
      Json.memberValues, Json.member, h]

theorem of_json_to_json (r : RawMessage) : ofJson? r.toJson = some r := by
  have heventId := Message.event_id_of_json_text r.eventId
  rw [ofJson?, fields_to_json]
  simp [MessageId.of_json_to_json, heventId, Json.or_default_some, Json.text_text,
    Message.metadata_of_json_metadata_to_json, Message.bytes_of_json_bytes_to_json]

theorem proper (r : RawMessage) : r.toJson.Proper := by
  apply Json.proper_object
  rw [List.cons_append, List.forall_mem_cons, List.forall_mem_append]
  refine ⟨⟨rfl, r.id.proper⟩, Message.proper_event_id_to_json r.eventId, ?_⟩
  simp [Json.member, Json.text, Json.Proper.text, Message.proper_metadata_to_json,
    Message.proper_bytes_to_json]

theorem nesting_to_json_le (r : RawMessage) : r.toJson.nesting ≤ 3 := by
  have heventId : ∀ entry ∈ Message.eventIdToJson r.eventId, entry.2.nesting ≤ 2 :=
    fun entry hentry => Nat.le_trans (Message.nesting_event_id_to_json_le _ entry hentry)
      (Nat.zero_le 2)
  have hmetadata := Message.nesting_metadata_to_json_le r.metadata
  have hbytes := Message.nesting_bytes_to_json_le r.body
  apply Nat.succ_le_succ
  rw [Json.nesting_all_members_le, List.cons_append, List.forall_mem_cons, List.forall_mem_append]
  refine ⟨r.id.nesting_to_json_le, heventId, ?_⟩
  simp only [Json.member, List.forall_mem_cons]
  exact ⟨Nat.le_succ_of_le hmetadata, Nat.zero_le 2, Nat.le_succ_of_le hbytes, by simp⟩

end RawMessage

namespace Message

def values : Message → List Value
  | .parsed r => r.body.entries.map Prod.snd
  | .raw _ => []

theorem proper : ∀ m : Message, m.toJson.Proper
  | .parsed r => Json.proper_object (by simpa [Json.member] using r.proper)
  | .raw r => Json.proper_object (by simpa [Json.member] using r.proper)

theorem nesting_to_json_le (m : Message) :
    m.toJson.nesting ≤ 127 ↔ ∀ v ∈ m.values, v.toJson.nesting + 3 ≤ 127 := by
  cases m with
  | parsed r =>
    have hrecord := r.nesting_to_json_le (n := 124) (by decide)
    have hlevel : ∀ n : Nat, n ≤ 124 ↔ n + 3 ≤ 127 := fun n => by omega
    simp only [toJson, Json.nesting, Json.nestingMembers, Json.member, values, List.forall_mem_map,
      ← hlevel, ← hrecord]
    omega
  | raw r =>
    have hraw := r.nesting_to_json_le
    refine iff_of_true ?_ (by simp [values])
    simp only [toJson, Json.nesting, Json.nestingMembers, Json.member]
    omega

/-- A message is loaded again as it was exactly if at most 127 arrays and objects stand inside each
other and its binary numbers are storable. -/
theorem read_render (m : Message) :
    read? m.render = some m ↔
      m.toJson.nesting ≤ 127 ∧ ∀ v ∈ m.values, v.IsStorable := by
  have hvalues : (m.toJson.nesting ≤ 127 ∧ ∀ v ∈ m.values, v.IsStorable) ↔
      ∀ v ∈ m.values, Value.readJson? 3 v.toJson = some v := by
    simp only [nesting_to_json_le, Value.read_json_to_json, imp_and, forall_and]
  rw [read?, render, m.proper.read_render, Option.bind_some, hvalues]
  cases m with
  | parsed r =>
    have hparsed : ofJson? (toJson (.parsed r)) = (Record.ofJson? r.toJson).map .parsed := rfl
    rw [hparsed, values, List.forall_mem_map, ← body_of_json_body_to_json, ← r.of_json_to_json]
    simp
  | raw r =>
    have hraw : ofJson? (toJson (.raw r)) = (RawMessage.ofJson? r.toJson).map .raw := rfl
    simp [hraw, r.of_json_to_json, values]

end Message

namespace Configuration

theorem names_of_json_names (s : NameSet) :
    namesOfJson? (.array (s.names.map Json.text)) = some s := by
  have hnames : (s.names.map Json.text).mapM Json.text? = some s.names :=
    (mapm_eq_some_self s.names).mpr fun name _ => Json.text_text name
  rw [namesOfJson?, Json.items?, Option.bind_eq_bind, Option.bind_some, hnames]
  exact congrArg some s.of_names_self

theorem proper (c : Configuration) : c.toJson.Proper := by
  have hnames : (Json.array (c.saveColumns.names.map Json.text)).Proper :=
    Json.proper_items _ _ fun name _ => .text name
  apply Json.proper_object
  simpa [Json.member, Json.text, Json.Proper.text, Json.Proper.bool] using hnames

theorem fields_to_json (c : Configuration) :
    c.toJson.fields? fieldNames =
      some [some (Json.text c.columnPrefix),
        some (.array (c.saveColumns.names.map Json.text)), some (.bool c.truncateUpdates),
        some (.bool c.trimText)] := by
  simp [toJson, fieldNames, Json.fields?, Json.uniqueMember?, Json.memberValues, Json.member]

theorem read_render (c : Configuration) : read? c.render = some c := by
  rw [read?, render, c.proper.read_render, Option.bind_some, ofJson?, fields_to_json]
  simp [Json.or_default_some, Json.text_text, names_of_json_names, Json.bool?]

end Configuration

end RedoLog
