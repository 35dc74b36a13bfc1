import ForthDB.Lib.RecordLog
import ForthDB.Queue.IntentCodec

/-!
# Epochs as journal records

A record of the admission journal carries an epoch id and its intents, each lowered
to an instruction stream behind its length.

* `decodeEpochPayload_encode`: an epoch is read back if all its intents survive
  lowering and it is shorter than `2 ^ 32` bytes.
* `stable_epoch`: payloads are self-delimiting.
-/

namespace ForthDB

open Bytes Decode

/-- `EpochBatch`, without the channels of its callers. -/
structure EpochBatch where
  id : ℕ
  intents : List QueuedIntent
deriving DecidableEq, Repr

namespace Journal

/-- Records framed by `AEP1` and `END1`. -/
def epochFormat : RecordLog.Format where
  magic := utf8 "AEP1"
  trailer := utf8 "END1"
  limit := 64 * 1024 * 1024
  magic_length := by decide
  trailer_length := by decide
  limit_lt := by decide

/-- The bytes of one intent in an epoch. -/
def encodeIntent (i : QueuedIntent) : List UInt8 :=
  match i.compileToStreamFrame with
  | .ok frame => Isa.encodeFrame frame
  | .error _ => IntentCodec.encodeQueuedIntent i

/-- The payload that `encode_epoch` frames. -/
def encodeEpochPayload (batch : EpochBatch) : List UInt8 :=
  le 8 batch.id ++ (le 4 batch.intents.length ++
    batch.intents.flatMap fun i => le 4 (encodeIntent i).length ++ encodeIntent i)

/-- `encode_epoch`. -/
def encodeEpoch (batch : EpochBatch) : List UInt8 := epochFormat.encode (encodeEpochPayload batch)

/-- What a decoder makes of all the bytes of an intent. -/
def wholeIntent (decoded : Except String (QueuedIntent × Cursor)) : Except String QueuedIntent :=
  match decoded with
  | .error e => .error e
  | .ok (i, c) =>
    if c.rest = [] then .ok i else .error "intent decoder did not consume its canonical bytes"

/-- One intent of `decode_epoch_payload`, from its own bytes. -/
def decodeIntent (bytes : List UInt8) : Except String QueuedIntent :=
  if 4 ≤ bytes.length ∧ bytes.take 4 = Isa.streamMagic then
    match Isa.readFrame ⟨bytes, 0⟩ with
    | .error e => .error e
    | .ok (frame, c) => wholeIntent ((fromStreamFrame frame).map fun i => (i, c))
  else wholeIntent (IntentCodec.readQueuedIntent ⟨bytes, 0⟩)

/-- A result that reads nothing more. -/
def ofExcept {α : Type} : Except String α → Decoder α
  | .ok a => pure a
  | .error e => fail e

def readEpochIntent : Decoder QueuedIntent := do
  let length ← number IntentCodec.wording.eof 4
  let bytes ← take (fun _ _ => "truncated intent in admission epoch") length
  ofExcept (decodeIntent bytes)

def readEpoch : Decoder (ℕ × List QueuedIntent) := do
  let epochId ← number IntentCodec.wording.eof 8
  let count ← number IntentCodec.wording.eof 4
  let intents ← times count readEpochIntent
  pure (epochId, intents)

/-- `decode_epoch_payload`. -/
def decodeEpochPayload (payload : List UInt8) : Except String (ℕ × List QueuedIntent) :=
  decodeAll (fun _ => "trailing admission epoch payload bytes") readEpoch payload

theorem stable_ofExcept {α : Type} (r : Except String α) : Stable (ofExcept r) := by
  cases r with
  | ok a => exact stable_pure a
  | error e => exact stable_fail e

/-- **Epochs are self-delimiting.** -/
theorem stable_epoch : Stable readEpoch := by
  have hintent : Stable readEpochIntent :=
    (stable_number _ _).bind fun _ => (stable_take _ _).bind fun _ => stable_ofExcept _
  exact (stable_number _ _).bind fun _ => (stable_number _ _).bind fun n =>
    (stable_times hintent n).bind fun _ => stable_pure _

/-- The bytes of an intent are an instruction stream. -/
theorem encodeIntent_eq (i : QueuedIntent) : ∃ frame, i.compileToStreamFrame = .ok frame ∧
    encodeIntent i = Isa.encodeFrame frame ∧
    4 ≤ (encodeIntent i).length ∧ (encodeIntent i).take 4 = Isa.streamMagic := by
  obtain ⟨frame, hframe⟩ : ∃ frame, i.compileToStreamFrame = .ok frame := ⟨_, rfl⟩
  have henc : encodeIntent i = Isa.encodeFrame frame := by unfold encodeIntent; rw [hframe]
  have h4 : Isa.streamMagic.length = 4 := by decide
  refine ⟨frame, hframe, henc, ?_, ?_⟩
  · rw [henc]
    unfold Isa.encodeFrame
    simp only [List.length_append, h4]
    omega
  · rw [henc]
    unfold Isa.encodeFrame
    rw [← h4, List.take_left]

/-- **One intent** survives the journal, if it survives lowering and is short. -/
theorem decodeIntent_encodeIntent {i : QueuedIntent} (hb : i.Built) (hl : i.Liftable)
    (hspace : i.space < 2 ^ 64) (hlen : (encodeIntent i).length < 2 ^ 32) :
    decodeIntent (encodeIntent i) = .ok i := by
  obtain ⟨frame, hframe, henc, hmagic⟩ := encodeIntent_eq i
  rw [henc] at hlen hmagic ⊢
  have hfits := fits_of_length hb hl hspace hframe hlen
  have hread := Isa.reads_frame hfits [] 0
  rw [List.append_nil] at hread
  have hlift := fromStreamFrame_compile hb hl hframe hfits.slots.1
  unfold decodeIntent
  rw [if_pos hmagic, hread]
  simp only [hlift, Except.map, wholeIntent, if_true]

/-- An epoch that the journal keeps: each intent survives lowering, and the length fields
suffice. -/
def Keeps (batch : EpochBatch) : Prop :=
  (∀ i ∈ batch.intents, i.Liftable) ∧ (encodeEpochPayload batch).length < 2 ^ 32

/-- **An epoch is read back.** -/
theorem decodeEpochPayload_encode {batch : EpochBatch} (hid : batch.id < 2 ^ 64)
    (hb : ∀ i ∈ batch.intents, i.Built ∧ i.space < 2 ^ 64) (hk : Keeps batch) :
    decodeEpochPayload (encodeEpochPayload batch) = .ok (batch.id, batch.intents) := by
  obtain ⟨hl, hlen⟩ := hk
  unfold encodeEpochPayload at hlen
  simp only [List.length_append, length_le] at hlen
  have hcount : batch.intents.length < 2 ^ 32 := by
    have := Isa.count_le_flatMap (fun i => le 4 (encodeIntent i).length ++ encodeIntent i)
      batch.intents (fun i => by simp)
    omega
  have hintent : ∀ i ∈ batch.intents,
      Decode.Reads readEpochIntent (le 4 (encodeIntent i).length ++ encodeIntent i) i := by
    intro i hi
    have hle := Isa.length_le_flatMap (fun i => le 4 (encodeIntent i).length ++ encodeIntent i) hi
    simp only [List.length_append, length_le] at hle
    have hshort : (encodeIntent i).length < 2 ^ 32 := by omega
    have hlast : Decode.Reads (ofExcept (decodeIntent (encodeIntent i))) [] i := by
      rw [decodeIntent_encodeIntent (hb i hi).1 (hl i hi) (hb i hi).2 hshort]
      exact reads_pure i
    exact (reads_u32 hshort).bind ((reads_take _ (encodeIntent i)).bind_nil hlast)
  refine decodeAll_of_reads ?_
  exact (reads_u64 hid).bind ((reads_u32 hcount).bind ((reads_times _ hintent).bind_pure _))

end Journal

end ForthDB
