import Mathlib.Data.List.Forall2
import RedoLog.Decoder
import RedoLog.Proofs.Outcome

/-!
# What becomes of a batch

A batch fails only where it is one message, and that message cannot be decoded. Any other batch
keeps its length and its order. What a message becomes is decided by the message alone, and each
failed message adds one warning, in the order of the batch.
-/

set_option autoImplicit false

namespace RedoLog

/-- The line with which a text starts. It goes up to a line feed, or a carriage return and a line
feed, or the end of the text. -/
inductive FirstLine : List Char → List Char → Prop where
  | whole (line : List Char) (hline : '\n' ∉ line) : FirstLine line line
  | feed (line behind : List Char) (hline : '\n' ∉ line) (hlast : line.getLast? ≠ some '\r') :
      FirstLine (line ++ '\n' :: behind) line
  | returnAndFeed (line behind : List Char) (hline : '\n' ∉ line) :
      FirstLine (line ++ '\r' :: '\n' :: behind) line

namespace Failure

theorem take_while_line {line : List Char} (hline : '\n' ∉ line) (behind : List Char) :
    (line ++ behind).takeWhile (· ≠ '\n') = line ++ behind.takeWhile (· ≠ '\n') := by
  apply List.takeWhile_append_of_pos
  intro c hc
  apply decide_eq_true
  rintro rfl
  exact hline hc

theorem first_line_of_feed {line : List Char} (hline : '\n' ∉ line) (behind : List Char) :
    firstLine (line ++ '\n' :: behind) =
      if line.getLast? = some '\r' then line.dropLast else line := by
  have htake : (line ++ '\n' :: behind).takeWhile (· ≠ '\n') = line := by
    simpa using take_while_line hline ('\n' :: behind)
  have hfeed : (line ++ '\n' :: behind).contains '\n' = true := by simp
  simp only [firstLine, htake, hfeed, true_and]

theorem first_line_of_not_mem {line : List Char} (hline : '\n' ∉ line) : firstLine line = line := by
  have htake : line.takeWhile (· ≠ '\n') = line := by simpa using take_while_line hline []
  have hfeed : line.contains '\n' = false := by simpa using hline
  simp only [firstLine, htake, hfeed, Bool.false_eq_true, false_and, if_false]

theorem first_line_spec (cs : List Char) : FirstLine cs (firstLine cs) := by
  by_cases hmem : '\n' ∈ cs
  · obtain ⟨line, behind, rfl, hline⟩ := List.eq_append_cons_of_mem hmem
    rw [first_line_of_feed hline]
    split
    · rename_i hlast
      obtain ⟨front, rfl⟩ := List.getLast?_eq_some_iff.mp hlast
      rw [List.dropLast_concat, List.append_assoc]
      exact .returnAndFeed front behind fun h => hline (List.mem_append_left _ h)
    · rename_i hlast
      exact .feed line behind hline hlast
  · rw [first_line_of_not_mem hmem]
    exact .whole cs hmem

end Failure

theorem FirstLine.eq_first_line {cs line : List Char} (h : FirstLine cs line) :
    line = Failure.firstLine cs := by
  cases h with
  | whole _ hline => rw [Failure.first_line_of_not_mem hline]
  | feed _ behind hline hlast => rw [Failure.first_line_of_feed hline, if_neg hlast]
  | returnAndFeed _ behind hline =>
    have hreturn : '\n' ∉ line ++ ['\r'] := by simpa using hline
    have hshape : line ++ '\r' :: '\n' :: behind = (line ++ ['\r']) ++ '\n' :: behind := by simp
    rw [hshape, Failure.first_line_of_feed hreturn, if_pos (by simp), List.dropLast_concat]

namespace Decoder

variable (c : Configuration)

def FailsWith (m : Message) (r : Record) (e : Failure) : Prop :=
  m = .parsed r ∧ r.isAccepted = true ∧ decodeRecord c r = .error e

inductive Becomes : Message → Message → Prop where
  | raw (m : RawMessage) : Becomes (.raw m) (.raw m)
  | other (r : Record) (hother : r.isAccepted = false) : Becomes (.parsed r) (.parsed r)
  | decoded (r d : Record) (haccepted : r.isAccepted = true) (hd : decodeRecord c r = .ok d) :
      Becomes (.parsed r) (.parsed d)
  | failed (r : Record) (e : Failure) (line : List Char) (haccepted : r.isAccepted = true)
      (he : decodeRecord c r = .error e) (hline : FirstLine e.message.toList line) :
      Becomes (.parsed r) (.parsed
        { id := r.id
          eventId := r.eventId
          type := "th2-codec-error"
          metadata := r.metadata
          protocol := "[csv,oracle-log-miner]"
          body := (OrderedMap.empty.insert "content" (.text (String.ofList line))).insertAll
            (c.saveColumns.names.filterMap fun name =>
              (r.body.get? name).map fun value => (name, value)) })

inductive Warns : List Message → List String → Prop where
  | nil : Warns [] []
  | failed (m : Message) (r : Record) (e : Failure) (line : List Char) (batch : List Message)
      (more : List String) (he : FailsWith c m r e) (hline : FirstLine e.message.toList line)
      (hmore : Warns batch more) :
      Warns (m :: batch)
        (("Message " ++ r.id.display ++ " transformation failure: " ++ String.ofList line) :: more)
  | silent (m : Message) (batch : List Message) (more : List String)
      (hm : ∀ r e, ¬FailsWith c m r e) (hmore : Warns batch more) : Warns (m :: batch) more

theorem outcome_cases (m : Message) :
    (outcome c m = .skipped m ∧ Becomes c m m ∧ ∀ r e, ¬FailsWith c m r e) ∨
      (∃ d, outcome c m = .decoded d ∧ Becomes c m (.parsed d) ∧ ∀ r e, ¬FailsWith c m r e) ∨
        ∃ r e, outcome c m = .failed r e ∧ FailsWith c m r e ∧
          Becomes c m (.parsed (errorRecord c r e.summary)) := by
  cases m with
  | raw m =>
    left
    refine ⟨rfl, .raw m, ?_⟩
    rintro r e ⟨hr, -, -⟩
    cases hr
  | parsed r =>
    by_cases haccepted : r.isAccepted = true
    · right
      cases hdecode : decodeRecord c r with
      | ok d =>
        left
        refine ⟨d, by simp [outcome, haccepted, hdecode], .decoded r d haccepted hdecode, ?_⟩
        rintro r' e ⟨hr, -, he⟩
        cases hr
        rw [hdecode] at he
        cases he
      | error e =>
        right
        exact ⟨r, e, by simp [outcome, haccepted, hdecode], ⟨rfl, haccepted, hdecode⟩,
          .failed r e _ haccepted hdecode (Failure.first_line_spec _)⟩
    · left
      refine ⟨by simp [outcome, haccepted], .other r (by simpa using haccepted), ?_⟩
      rintro r' e ⟨hr, hr', -⟩
      cases hr
      exact haccepted hr'

theorem outcome_eq_failed_iff (m : Message) (r : Record) (e : Failure) :
    outcome c m = .failed r e ↔ FailsWith c m r e := by
  constructor
  · intro h
    rcases outcome_cases c m with ⟨hm, -, -⟩ | ⟨d, hm, -, -⟩ | ⟨r', e', hm, he, -⟩
    · rw [h] at hm
      cases hm
    · rw [h] at hm
      cases hm
    · rw [h] at hm
      cases hm
      exact he
  · rintro ⟨rfl, haccepted, he⟩
    simp [outcome, haccepted, he]

theorem becomes_outcome (m : Message) : Becomes c m ((outcome c m).message c) := by
  rcases outcome_cases c m with ⟨hm, h, -⟩ | ⟨d, hm, h, -⟩ | ⟨r, e, hm, -, h⟩
  · rw [hm]
    exact h
  · rw [hm]
    exact h
  · rw [hm]
    exact h

theorem Becomes.eq_message {m m' : Message} (h : Becomes c m m') :
    m' = (outcome c m).message c := by
  cases h with
  | raw => rfl
  | other r hother => simp [outcome, hother, Outcome.message]
  | decoded r d haccepted hd => simp [outcome, haccepted, hd, Outcome.message]
  | failed r e line haccepted he hline =>
    rw [hline.eq_first_line]
    simp only [outcome, haccepted, he, if_true, Outcome.message]
    rfl

theorem warns_outcomes (batch : List Message) :
    Warns c batch ((batch.map (outcome c)).flatMap Outcome.warnings) := by
  induction batch with
  | nil => exact .nil
  | cons m batch ih =>
    rw [List.map_cons, List.flatMap_cons]
    rcases outcome_cases c m with ⟨hm, -, h⟩ | ⟨d, hm, -, h⟩ | ⟨r, e, hm, h, -⟩
    · rw [hm]
      exact .silent m batch _ h ih
    · rw [hm]
      exact .silent m batch _ h ih
    · rw [hm]
      exact .failed m r e _ batch _ h (Failure.first_line_spec _) ih

/-- Only one failed message makes a batch fail. -/
theorem decode_eq_ok (warnings : List String) {batch : List Message}
    (h : ¬∃ m r e, batch = [m] ∧ FailsWith c m r e) :
    decode c warnings batch = (.ok (batch.map fun m => (outcome c m).message c),
      warnings ++ (batch.map (outcome c)).flatMap Outcome.warnings) := by
  have hsingle : ∀ r e, batch.map (outcome c) ≠ [.failed r e] := by
    intro r e hmap
    obtain ⟨m, hm, hfailed⟩ := List.map_eq_singleton_iff.mp hmap
    exact h ⟨m, r, e, hm, (outcome_eq_failed_iff c m r e).mp hfailed⟩
  unfold decode
  split
  · rename_i r e hmap
    exact absurd hmap (hsingle r e)
  · rw [List.map_map]
    rfl

/-- A batch that is one failed message fails with the reason and adds no warning. In any other
batch each message becomes what it alone decides, and the failed ones are warned of in order. -/
theorem decode_batch (warnings : List String) (batch : List Message) :
    (∀ m r e, batch = [m] → FailsWith c m r e →
        decode c warnings batch = (.error e, warnings)) ∧
      ((¬∃ m r e, batch = [m] ∧ FailsWith c m r e) →
        ∃ output added, decode c warnings batch = (.ok output, warnings ++ added) ∧
          output.length = batch.length ∧ List.Forall₂ (Becomes c) batch output ∧
            Warns c batch added) ∧
      ∀ m a b, Becomes c m a → Becomes c m b → a = b := by
  refine ⟨?_, ?_, ?_⟩
  · rintro m r e rfl hm
    have hfailed := (outcome_eq_failed_iff c m r e).mpr hm
    simp [decode, hfailed]
  · intro h
    refine ⟨_, _, decode_eq_ok c warnings h, List.length_map .., ?_, warns_outcomes c batch⟩
    rw [List.forall₂_map_right_iff, List.forall₂_same]
    exact fun m _ => becomes_outcome c m
  · intro m a b ha hb
    rw [ha.eq_message, hb.eq_message]

def incompleteRecord : Record :=
  ⟨⟨"oracle", .incoming, 7, []⟩, none, "Row", OrderedMap.empty, "csv",
    OrderedMap.empty.insert "OPERATION" (.text "INSERT")⟩

def foreignRecord : Record :=
  { incompleteRecord with protocol := "json" }

def incompleteWarning : String :=
  "Message oracle:incoming:7 transformation failure: Message doesn't contain required fields "
    ++ "[\"SQL_REDO\", \"ROW_ID\", \"TIMESTAMP\", \"TABLE_NAME\"]"

theorem decode_incomplete_record :
    decode Configuration.standard ["first"] [.parsed incompleteRecord] =
        (.error (.missingFields ["SQL_REDO", "ROW_ID", "TIMESTAMP", "TABLE_NAME"]), ["first"]) ∧
      ∃ output, decode Configuration.standard ["first"]
          [.parsed foreignRecord, .parsed incompleteRecord] =
        (.ok output, ["first", incompleteWarning]) ∧
        List.Forall₂ (Becomes Configuration.standard)
          [.parsed foreignRecord, .parsed incompleteRecord] output := by
  have hfails : FailsWith Configuration.standard (.parsed incompleteRecord) incompleteRecord
      (.missingFields ["SQL_REDO", "ROW_ID", "TIMESTAMP", "TABLE_NAME"]) :=
    ⟨rfl, by decide +kernel, error_of_failure (by decide +kernel)⟩
  have hwarnings : (decode Configuration.standard ["first"]
      [.parsed foreignRecord, .parsed incompleteRecord]).2 =
        ["first", incompleteWarning] := by
    decide +kernel
  obtain ⟨hsingle, -, -⟩ :=
    decode_batch Configuration.standard ["first"] [.parsed incompleteRecord]
  obtain ⟨-, hseveral, -⟩ := decode_batch Configuration.standard ["first"]
    [.parsed foreignRecord, .parsed incompleteRecord]
  refine ⟨hsingle _ _ _ rfl hfails, ?_⟩
  obtain ⟨output, added, hdecode, -, hbecomes, -⟩ := hseveral (by
    rintro ⟨m, r, e, hbatch, -⟩
    cases hbatch)
  refine ⟨output, ?_, hbecomes⟩
  rw [hdecode] at hwarnings ⊢
  rw [← hwarnings]

end Decoder

end RedoLog
