import ForthDB.Store.DecodedFrames

/-!
# The memory-mapped commit file

`MmapCommitStore` reads the same file as `FileCommitStore` through a mapping and keeps,
for every frame, where its record lies. It writes through a `FileCommitStore` that it
opens on the same path at the first append.

* `MappedFile.decodeFile_iff`: the mapped parser reads what the commit file's parser reads.
* `MappedFile.decodeFile_slices`: every span cuts out the record of its frame.
* `parsers_agree`: **the three parsers of commit files agree**, and no frame has two encodings.
-/

namespace ForthDB

open Bytes Decode RecordLog

structure FrameSpan where
  recordStart : ℕ
  payloadStart : ℕ
  payloadEnd : ℕ
  recordEnd : ℕ
deriving DecidableEq, Repr

namespace MappedFile

open FileStore

/-- The span that the loop of `decode_file` pushes. -/
def spanOf (offset : ℕ) (payload : List UInt8) : FrameSpan where
  recordStart := offset
  payloadStart := offset + 20
  payloadEnd := offset + 20 + payload.length
  recordEnd := offset + 20 + payload.length + 4

/-- What the loop of `decode_file` does with one payload. The decoder of payloads, the check of
the position and the texts of the errors are those of the commit file. -/
def acceptFrame (s : List CommitFrame × List FrameSpan) (offset : ℕ) (payload : List UInt8) :
    Except FileCommitStoreError (List CommitFrame × List FrameSpan) :=
  match decodePayload payload with
  | .error reason => .error (.corruptFrame offset s!"invalid payload: {reason}")
  | .ok frame =>
    match validateDecodedPosition s.1 frame offset with
    | .error e => .error e
    | .ok () => .ok (s.1 ++ [frame], s.2 ++ [spanOf offset payload])

/-- `decode_file` of the mapped format: the frames with their spans, and the offset behind the
last complete record. -/
def decodeFile (bytes : List UInt8) :
    Except FileCommitStoreError ((List CommitFrame × List FrameSpan) × ℕ) :=
  if bytes.length < 16 then .error (.invalidHeader "header is incomplete")
  else if bytes.take 8 ≠ utf8 "FTHDB001" then
    .error (.invalidHeader "magic bytes do not match FTHDB001")
  else
    let version := ofLe ((bytes.drop 8).take 4)
    if version ≠ 1 then .error (.unsupportedFormat version)
    else
      let flags := ofLe ((bytes.drop 12).take 4)
      if flags ≠ 0 then .error (.invalidHeader s!"unsupported header flags 0x{hex8 flags}")
      else scanLog frameFormat acceptFrame corrupt bytes.length ([], []) 16 (bytes.drop 16)

/-- `decode_complete_span`: the one record from `offset` to the end of the file. -/
def decodeCompleteSpan (bytes : List UInt8) (offset : ℕ) : Except FileCommitStoreError FrameSpan :=
  let front := bytes.drop offset
  if front.length < 20 then .error (.corruptFrame offset "newly appended frame prefix is incomplete")
  else if front.take 4 ≠ utf8 "FRM1" then
    .error (.corruptFrame offset "frame magic does not match FRM1")
  else
    let payloadLen := ofLe ((front.drop 4).take 8)
    if maxFrameBytes < payloadLen then
      .error (.corruptFrame offset "newly appended frame exceeds payload limit")
    else
      let recordEnd := offset + 20 + payloadLen + 4
      if recordEnd ≠ bytes.length then
        .error (.corruptFrame offset
          s!"newly appended record ends at {recordEnd}, mapped file ends at {bytes.length}")
      else if (front.drop (20 + payloadLen)).take 4 ≠ utf8 "END1" then
        .error (.corruptFrame offset "completion trailer does not match END1")
      else
        let payload := (front.drop 20).take payloadLen
        if checksum payload ≠ ofLe ((front.drop 12).take 8) then
          .error (.corruptFrame offset "newly appended frame checksum mismatch")
        else .ok (spanOf offset payload)

end MappedFile

/-- The mapped store. `bytes` is the file behind its own handle and its writer's. -/
structure MmapCommitStore where
  bytes : List UInt8
  mapping : Option (List UInt8)
  frames : List CommitFrame
  spans : List FrameSpan
  recoveredTailBytes : ℕ
  writer : Option FileCommitStore
  lastRemapError : Option FileCommitStoreError
deriving DecidableEq, Repr

/-- Which operations of one mapped `append` fail. -/
structure MappedAppendFaults where
  /-- The query of the file's length. -/
  fileLen : Bool := false
  append : AppendFaults := {}
  /-- The new mapping behind a durable append. -/
  remap : Bool := false
deriving DecidableEq, Repr

namespace MmapCommitStore

open FileStore MappedFile

/-- `MmapCommitStore::open` on the bytes of the file. -/
def openStore (bytes : List UInt8) : Except FileCommitStoreError MmapCommitStore :=
  let bytes := if bytes = [] then fileHeader else bytes
  match MappedFile.decodeFile bytes with
  | .error e => .error e
  | .ok ((frames, spans), lastGoodOffset) =>
    let recoveredTailBytes := bytes.length - lastGoodOffset
    let file : DiskFile := ⟨bytes, bytes.length⟩
    let file := if recoveredTailBytes ≠ 0 then file.setLen lastGoodOffset else file
    match World.reconstruct frames with
    | .error e => .error (.history e)
    | .ok _ => .ok {
        bytes := file.bytes, mapping := some file.bytes, frames := frames, spans := spans,
        recoveredTailBytes := recoveredTailBytes, writer := none, lastRemapError := none }

/-- `mapped_record`. -/
def mappedRecord (s : MmapCommitStore) (index : ℕ) : Option (List UInt8) :=
  s.mapping.bind fun mapping => s.spans[index]?.map fun span =>
    (mapping.take span.recordEnd).drop span.recordStart

/-- `mapped_payload`. -/
def mappedPayload (s : MmapCommitStore) (index : ℕ) : Option (List UInt8) :=
  s.mapping.bind fun mapping => s.spans[index]?.map fun span =>
    (mapping.take span.payloadEnd).drop span.payloadStart

def validateAppend (s : MmapCommitStore) (frame : CommitFrame) : Except FileCommitStoreError Unit :=
  (checkPosition s.frames frame).mapError .nonLinearAppend

/-- `remap_after_durable_append`. -/
def remapAfterDurableAppend (s : MmapCommitStore) (recordStart : ℕ) (fails : Bool) :
    MmapCommitStore :=
  if fails then { s with mapping := none, lastRemapError := some .io }
  else match decodeCompleteSpan s.bytes recordStart with
    | .ok span =>
      { s with spans := s.spans ++ [span], mapping := some s.bytes, lastRemapError := none }
    | .error e => { s with mapping := none, lastRemapError := some e }

/-- The writer that an append uses: the one that is there, or one opened on the file. -/
def openWriter (s : MmapCommitStore) : Except FileCommitStoreError FileCommitStore :=
  match s.writer with
  | some writer => .ok writer
  | none => FileCommitStore.openStore s.bytes

def append (s : MmapCommitStore) (frame : CommitFrame) (faults : MappedAppendFaults) :
    Except FileCommitStoreError Unit × MmapCommitStore :=
  match s.validateAppend frame with
  | .error e => (.error e, s)
  | .ok () =>
    if faults.fileLen then (.error .io, s)
    else
      let recordStart := s.bytes.length
      match s.openWriter with
      | .error e => (.error e, s)
      | .ok writer =>
        match writer.append frame faults.append with
        | (.error e, writer) => (.error e, { s with bytes := writer.file.bytes, writer := some writer })
        | (.ok (), writer) =>
          let s := { s with
            bytes := writer.file.bytes, writer := some writer, frames := s.frames ++ [frame],
            recoveredTailBytes := 0 }
          (.ok (), s.remapAfterDurableAppend recordStart faults.remap)

/-- The frames are appended in order, and every append returns `Ok`. -/
def AllAppended (s : MmapCommitStore) :
    List (CommitFrame × MappedAppendFaults) → MmapCommitStore → Prop
  | [], t => t = s
  | (frame, faults) :: calls, t => ∃ s', s.append frame faults = (.ok (), s') ∧ s'.AllAppended calls t

end MmapCommitStore

namespace MappedFile

open FileStore

variable {bytes : List UInt8} {frames : List CommitFrame} {spans : List FrameSpan}

theorem acceptFrame_frames (s : List CommitFrame × List FrameSpan) (offset : ℕ)
    (payload : List UInt8) :
    (acceptFrame s offset payload).map Prod.fst = FileStore.acceptFrame s.1 offset payload := by
  unfold acceptFrame FileStore.acceptFrame
  cases decodePayload payload with
  | error reason => rfl
  | ok frame =>
    simp only
    cases validateDecodedPosition s.1 frame offset <;> rfl

/-- **The mapped parser returns the frames of the commit file's parser**, and its errors. -/
theorem decodeFile_frames (bytes : List UInt8) :
    (decodeFile bytes).map (fun r => (r.1.1, r.2)) = FileStore.decodeFile bytes := by
  unfold decodeFile FileStore.decodeFile
  split
  · rfl
  · split
    · rfl
    · simp only
      split
      · rfl
      · split
        · rfl
        · exact scanLog_map Prod.fst acceptFrame_frames _ _ _ _

theorem decodeFile_iff {offset : ℕ} : FileStore.decodeFile bytes = .ok (frames, offset) ↔
    ∃ spans, decodeFile bytes = .ok ((frames, spans), offset) := by
  rw [← decodeFile_frames]
  cases h : decodeFile bytes with
  | error e => simp [Except.map]
  | ok r =>
    obtain ⟨⟨fs, ss⟩, o⟩ := r
    simp [Except.map, and_assoc]

/-- A span cuts the record of its frame out of a file, and the frame's payload. -/
structure Slices (bytes : List UInt8) (span : FrameSpan) (frame : CommitFrame) : Prop where
  record : FileCommitStore.encodeRecord frame =
    .ok ((bytes.take span.recordEnd).drop span.recordStart)
  payload : encodePayload frame = (bytes.take span.payloadEnd).drop span.payloadStart

/-- A piece of a byte string, by its ends. -/
theorem slice_eq {before piece rest : List UInt8} {start stop : ℕ} (hs : start = before.length)
    (he : stop = before.length + piece.length) :
    ((before ++ (piece ++ rest)).take stop).drop start = piece := by
  have htake : (before ++ (piece ++ rest)).take stop = before ++ piece := by
    rw [he, ← List.length_append, ← List.append_assoc, List.take_left]
  rw [htake, hs, List.drop_left]

/-- The span of a record cuts out the record of the frame that its payload spells. -/
theorem spanOf_slices {before payload rest : List UInt8} {frame : CommitFrame}
    (henc : encodePayload frame = payload) (hlen : payload.length ≤ maxFrameBytes)
    (hb : bytes = before ++ (frameFormat.encode payload ++ rest)) :
    Slices bytes (spanOf before.length payload) frame := by
  constructor
  · unfold FileCommitStore.encodeRecord
    simp only [henc, if_neg (not_lt.2 hlen)]
    rw [hb, slice_eq (by simp [spanOf]) (by simp [spanOf]; omega)]
  · have hfields : bytes = (before ++ (frameFormat.magic ++ (le 8 payload.length ++
        le 8 (checksum payload)))) ++ (payload ++ (frameFormat.trailer ++ rest)) := by
      rw [hb]
      simp [Format.encode]
    rw [henc, hfields]
    refine (slice_eq ?_ ?_).symm <;> simp [spanOf, frameFormat.magic_length]

/-- **Accepting payloads keeps the spans beside their frames.** -/
theorem acceptAll_slices {ps : List (List UInt8)} {before rest : List UInt8}
    {s s' : List CommitFrame × List FrameSpan} {offset : ℕ}
    (hb : bytes = before ++ (ps.flatMap frameFormat.encode ++ rest))
    (hps : ∀ p ∈ ps, p.length ≤ maxFrameBytes) (hs : List.Forall₂ (Slices bytes) s.2 s.1)
    (h : acceptAll acceptFrame s before.length ps = .ok (s', offset)) :
    List.Forall₂ (Slices bytes) s'.2 s'.1 := by
  induction ps generalizing before s with
  | nil => cases h; exact hs
  | cons p ps ih =>
    rw [List.forall_mem_cons] at hps
    have hb' : bytes = before ++ (frameFormat.encode p ++ (ps.flatMap frameFormat.encode ++ rest)) := by
      rw [hb, List.flatMap_cons, List.append_assoc]
    unfold acceptAll at h
    cases ha : acceptFrame s before.length p with
    | error e => rw [ha] at h; cases h
    | ok t =>
      rw [ha] at h
      simp only at h
      have hnext : (before ++ frameFormat.encode p).length = before.length + (20 + p.length + 4) := by
        rw [List.length_append, length_encode]
      rw [← hnext] at h
      refine ih (by rw [hb', List.append_assoc]) hps.2 ?_ h
      unfold acceptFrame at ha
      cases hd : decodePayload p with
      | error e => rw [hd] at ha; cases ha
      | ok frame =>
        rw [hd] at ha
        simp only at ha
        split at ha
        · cases ha
        · cases ha
          exact List.rel_append hs
            (.cons (spanOf_slices (encodePayload_decodePayload hd) hps.1 hb') .nil)

/-- A file with a valid header is its scan. -/
theorem scan_of_decodeFile {offset : ℕ} (h : decodeFile bytes = .ok ((frames, spans), offset)) :
    scanLog frameFormat acceptFrame corrupt bytes.length ([], []) 16 (bytes.drop 16) =
      .ok ((frames, spans), offset) := by
  unfold decodeFile at h
  split at h
  · cases h
  split at h
  · cases h
  simp only at h
  split at h
  · cases h
  split at h
  · cases h
  exact h

/-- **Every span of a parsed file cuts out the record of its frame.** -/
theorem decodeFile_slices {offset : ℕ} (h : decodeFile bytes = .ok ((frames, spans), offset)) :
    List.Forall₂ (Slices bytes) spans frames := by
  have hheader := header_of_decodeFile (decodeFile_iff.2 ⟨spans, h⟩)
  obtain ⟨ps, tail, hb, hps, hacc, -, -⟩ := scanLog_ok (by simp) (scan_of_decodeFile h)
  have hbytes : bytes = fileHeader ++ (ps.flatMap frameFormat.encode ++ tail) := by
    rw [← hb]
    exact hheader
  exact acceptAll_slices hbytes hps .nil hacc

end MappedFile

/-- **The three parsers of commit files agree**: they accept the same byte strings and return
the same frames and the same last good offset. A payload that any of their decoders accepts is
the encoding of its frame, and every span of the mapped parser cuts out the record of its
frame. -/
theorem parsers_agree :
    (∀ bytes frames offset, FileStore.decodeFile bytes = .ok (frames, offset) ↔
      ∃ spans, MappedFile.decodeFile bytes = .ok ((frames, spans), offset)) ∧
    (∀ bytes frames offset, FileStore.decodeFile bytes = .ok (frames, offset) ↔
      EpochFile.inspectFile bytes = .ok (frames, offset)) ∧
    (∀ payload frame, FileStore.decodePayload payload = .ok frame →
      FileStore.encodePayload frame = payload) ∧
    (∀ payload frame, EpochFile.decodePayload payload = .ok frame →
      FileStore.encodePayload frame = payload) ∧
    ∀ bytes frames spans offset, MappedFile.decodeFile bytes = .ok ((frames, spans), offset) →
      List.Forall₂ (MappedFile.Slices bytes) spans frames := by
  refine ⟨fun _ _ _ => MappedFile.decodeFile_iff, fun _ _ _ => (EpochFile.inspectFile_iff _ _).symm,
    fun _ _ => FileStore.encodePayload_decodePayload, fun _ _ h => ?_,
    fun _ _ _ _ => MappedFile.decodeFile_slices⟩
  exact FileStore.encodePayload_decodePayload ((EpochFile.decodePayload_iff _ _).1 h)

/-- A commit file of one frame. -/
def FileCommitStore.oneRecord : List UInt8 :=
  FileStore.fileHeader ++ FileStore.frameFormat.encode (FileStore.encodePayload oneEntity)

/-- The file of one frame, under the three parsers. -/
theorem parsers_agree_oneEntity :
    ∃ spans, MappedFile.decodeFile FileCommitStore.oneRecord =
        .ok (([FileCommitStore.oneEntity], spans), 97) ∧
      EpochFile.inspectFile FileCommitStore.oneRecord = .ok ([FileCommitStore.oneEntity], 97) ∧
      List.Forall₂ (MappedFile.Slices FileCommitStore.oneRecord) spans
        [FileCommitStore.oneEntity] := by
  have h : FileStore.decodeFile FileCommitStore.oneRecord =
      .ok ([FileCommitStore.oneEntity], 97) := by decide +kernel
  obtain ⟨spans, hs⟩ := (parsers_agree.1 _ _ _).1 h
  exact ⟨spans, hs, (parsers_agree.2.1 _ _ _).1 h, parsers_agree.2.2.2.2 _ _ _ _ hs⟩

end ForthDB
