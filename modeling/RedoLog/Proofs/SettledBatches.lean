import RedoLog.Proofs.SavedFields

/-!
# Batches that are decoded already

A decoded record and an error record carry the aggregated protocol, and its records are not decoded.
So every decoder leaves alone what comes out of any decoder.
-/

set_option autoImplicit false

namespace RedoLog

namespace Decoder

def Settled : Message → Prop
  | .raw _ => True
  | .parsed r => r.isAccepted = false

theorem is_accepted_of_aggregated {r : Record} (h : r.protocol = aggregatedProtocol) :
    r.isAccepted = false := by
  have htrim : Text.trim aggregatedProtocol = aggregatedProtocol := by decide
  simp only [Record.isAccepted, h, htrim]
  decide

variable (c : Configuration)

theorem protocol_of_decode_record {r d : Record} (h : decodeRecord c r = .ok d) :
    d.protocol = aggregatedProtocol := by
  unfold decodeRecord at h
  split at h <;> cases h
  rfl

theorem Becomes.settled {m m' : Message} (h : Becomes c m m') : Settled m' := by
  cases h with
  | raw m => exact trivial
  | other r hother => exact hother
  | decoded r d haccepted hd => exact is_accepted_of_aggregated (protocol_of_decode_record c hd)
  | failed r e line haccepted he hline => exact is_accepted_of_aggregated rfl

theorem Settled.outcome_eq {m : Message} (h : Settled m) : outcome c m = .skipped m := by
  cases m with
  | raw m => rfl
  | parsed r =>
    have hr : r.isAccepted = false := h
    simp [outcome, hr]

theorem decode_settled (warnings : List String) {batch : List Message}
    (h : ∀ m ∈ batch, Settled m) : decode c warnings batch = (.ok batch, warnings) := by
  have hseveral : ¬∃ m r e, batch = [m] ∧ FailsWith c m r e := by
    rintro ⟨m, r, e, rfl, hm⟩
    rw [← outcome_eq_failed_iff, (h m (by simp)).outcome_eq c] at hm
    cases hm
  have hmessages : (batch.map fun m => (outcome c m).message c) = batch := by
    calc (batch.map fun m => (outcome c m).message c)
        = batch.map id := List.map_congr_left fun m hm => by
          rw [(h m hm).outcome_eq c]
          rfl
      _ = batch := List.map_id batch
  have hwarnings : (batch.map (outcome c)).flatMap Outcome.warnings = [] := by
    rw [List.flatMap_eq_nil_iff]
    intro o ho
    obtain ⟨m, hm, rfl⟩ := List.mem_map.mp ho
    rw [(h m hm).outcome_eq c]
    rfl
  rw [decode_eq_ok c warnings hseveral, hmessages, hwarnings, List.append_nil]

theorem output_of_decode {warnings : List String} {batch output : List Message}
    (h : (decode c warnings batch).1 = .ok output) :
    output = batch.map fun m => (outcome c m).message c := by
  have hseveral : ¬∃ m r e, batch = [m] ∧ FailsWith c m r e := by
    rintro ⟨m, r, e, rfl, hm⟩
    have hfailed := (outcome_eq_failed_iff c m r e).mpr hm
    simp [decode, hfailed] at h
  rw [decode_eq_ok c warnings hseveral] at h
  exact (Except.ok.inj h).symm

/-- What a batch becomes, message by message, is left as it is by every decoder, and without a
warning. -/
theorem decode_output (c' : Configuration) (warnings warnings' : List String)
    (batch output : List Message) (h : (decode c warnings batch).1 = .ok output) :
    List.Forall₂ (Becomes c) batch output ∧
      decode c' warnings' output = (.ok output, warnings') := by
  obtain rfl := output_of_decode c h
  constructor
  · rw [List.forall₂_map_right_iff, List.forall₂_same]
    exact fun m _ => becomes_outcome c m
  · apply decode_settled c' warnings'
    intro m' hm'
    obtain ⟨m, -, rfl⟩ := List.mem_map.mp hm'
    exact (becomes_outcome c m).settled c

def rawNote : RawMessage :=
  ⟨⟨"oracle", .outgoing, 3, [1]⟩, some "event", OrderedMap.empty, "csv", [1, 2, 255]⟩

def mixedBatch : List Message :=
  [.raw rawNote, .parsed foreignRecord, .parsed selfNamedRecord, .parsed incompleteRecord]

def labels? : Message → Option (String × String)
  | .raw _ => none
  | .parsed r => some (r.type, r.protocol)

theorem decode_mixed_output :
    ∃ output single, (decode Configuration.standard [] mixedBatch).1 = .ok output ∧
      output.map labels? =
        [none, some ("Row", "json"), some ("Row", "[csv,oracle-log-miner]"),
          some ("th2-codec-error", "[csv,oracle-log-miner]")] ∧
      decode savesContent ["first"] output = (.ok output, ["first"]) ∧
      (decode bareNames [] [.parsed selfNamedRecord]).1 = .ok single ∧
      decode Configuration.standard [] single = (.ok single, []) := by
  have hlabels : (decode Configuration.standard [] mixedBatch).1.toOption.map (·.map labels?) =
      some [none, some ("Row", "json"), some ("Row", "[csv,oracle-log-miner]"),
        some ("th2-codec-error", "[csv,oracle-log-miner]")] := by
    decide +kernel
  have hlength : (decode bareNames [] [.parsed selfNamedRecord]).1.toOption.map List.length =
      some 1 := by
    decide +kernel
  obtain ⟨output, houtput, htypes⟩ := ok_of_to_option_map hlabels
  obtain ⟨single, hsingle, -⟩ := ok_of_to_option_map hlength
  obtain ⟨-, hmixed⟩ :=
    decode_output Configuration.standard savesContent [] ["first"] mixedBatch output houtput
  obtain ⟨-, halone⟩ :=
    decode_output bareNames Configuration.standard [] [] [.parsed selfNamedRecord] single hsingle
  exact ⟨output, single, houtput, htypes, hmixed, hsingle, halone⟩

end Decoder

end RedoLog
