import ForthDB.Lib.RecordLog
import ForthDB.World.History

/-!
# The commit file

`FileCommitStore` keeps one record for each commit frame behind a fixed header.
`openStore` reads the file back, drops an incomplete last record and rebuilds the
history; `append` writes one record and rolls the file back when a write or a sync
fails. Every file operation of `append` can fail: `AppendFaults` says which do.

* `decodePayload_encodePayload`: a frame in range is read back.
* `decodePayload_prefix`: payloads are self-delimiting.
* `encodePayload_decodePayload`: a payload that is read is the one that would be written.
-/

namespace ForthDB

open Bytes Decode

/-- Lower-case hexadecimal digits, padded with zeros. -/
def hexPadded (width n : ℕ) : String :=
  let digits := Nat.toDigits 16 n
  String.ofList (List.replicate (width - digits.length) '0' ++ digits)

/-- `{:016x}`. -/
def hex16 (n : ℕ) : String := hexPadded 16 n

/-- `{:08x}`. -/
def hex8 (n : ℕ) : String := hexPadded 8 n

instance : ToString WorldId := ⟨fun id => "World_" ++ hex16 id.value.toNat⟩

inductive FileCommitStoreError
  | io
  | invalidHeader (message : String)
  | unsupportedFormat (version : ℕ)
  | corruptFrame (offset : ℕ) (reason : String)
  | nonLinearAppend (message : String)
  | history (error : CandidateError)
deriving DecidableEq, Repr

namespace FileStore

def maxFrameBytes : ℕ := 64 * 1024 * 1024

def maxOperationsPerFrame : ℕ := 1000000

/-- Magic `FTHDB001`, version one, no flags. -/
def fileHeader : List UInt8 := utf8 "FTHDB001" ++ (le 4 1 ++ le 4 0)

theorem frameMagic_length : (utf8 "FRM1").length = 4 := by decide

theorem frameTrailer_length : (utf8 "END1").length = 4 := by decide

theorem maxFrameBytes_lt : maxFrameBytes < 256 ^ 8 := by decide

/-- Records framed by `FRM1` and `END1`. -/
def frameFormat : RecordLog.Format where
  magic := utf8 "FRM1"
  trailer := utf8 "END1"
  limit := maxFrameBytes
  magic_length := frameMagic_length
  trailer_length := frameTrailer_length
  limit_lt := maxFrameBytes_lt

def wording : Wording :=
  let eof := fun position length =>
    if 2 ^ 64 ≤ position + length then "payload cursor overflow"
    else s!"unexpected end of payload at byte {position}, need {length} more bytes"
  { eof := eof
    eofText := eof
    utf8 := "string is not valid UTF-8"
    atomTag := fun tag => s!"unknown atom tag {tag}"
    operationTag := fun tag => s!"unknown operation tag {tag}" }

def encodePayload (frame : CommitFrame) : List UInt8 :=
  le 8 frame.parentWorld.value.toNat ++ (le 8 frame.resultingWorld.value.toNat ++
    (le 8 frame.parentVersion ++ (le 8 frame.resultingVersion ++ (le 8 frame.resultingAllocator ++
      (le 8 frame.operations.length ++ frame.operations.flatMap (putOperation 8))))))

/-- The operations behind their count. -/
def readOperations (count : ℕ) : Decoder (List Operation) :=
  if maxOperationsPerFrame < count then
    fail s!"operation count {count} exceeds limit {maxOperationsPerFrame}"
  else times count (readOperation wording 8)

def readPayload : Decoder CommitFrame := do
  let parentWorld ← number wording.eof 8
  let resultingWorld ← number wording.eof 8
  let parentVersion ← number wording.eof 8
  let resultingVersion ← number wording.eof 8
  let resultingAllocator ← number wording.eof 8
  let operationCount ← number wording.eof 8
  let operations ← readOperations operationCount
  pure {
    parentWorld := ⟨.ofNat parentWorld⟩, resultingWorld := ⟨.ofNat resultingWorld⟩,
    parentVersion := parentVersion, resultingVersion := resultingVersion,
    resultingAllocator := resultingAllocator, operations := operations }

def decodePayload (payload : List UInt8) : Except String CommitFrame :=
  decodeAll (fun n => s!"{n} trailing payload bytes remain") readPayload payload

/-- Where the next frame must start: the last frame's world and version. -/
def lastPosition (frames : List CommitFrame) : WorldId × ℕ :=
  match frames.getLast? with
  | some current => (current.resultingWorld, current.resultingVersion)
  | none => (.genesis, 0)

/-- The three checks that `validate_append` and `validate_decoded_position` share. -/
def checkPosition (frames : List CommitFrame) (frame : CommitFrame) : Except String Unit :=
  let (expectedParent, expectedParentVersion) := lastPosition frames
  if frame.parentWorld ≠ expectedParent then
    .error s!"expected parent {expectedParent}, found {frame.parentWorld}"
  else if frame.parentVersion ≠ expectedParentVersion then
    .error s!"expected parent version {expectedParentVersion}, found {frame.parentVersion}"
  else if expectedParentVersion = 2 ^ 64 - 1 then .error "world version overflow"
  else if frame.resultingVersion ≠ expectedParentVersion + 1 then
    .error (s!"expected resulting version {expectedParentVersion + 1}, " ++
      s!"found {frame.resultingVersion}")
  else .ok ()

def validateDecodedPosition (frames : List CommitFrame) (frame : CommitFrame) (offset : ℕ) :
    Except FileCommitStoreError Unit :=
  (checkPosition frames frame).mapError (.corruptFrame offset)

/-- What the loop of `decode_file` does with one payload. -/
def acceptFrame (frames : List CommitFrame) (offset : ℕ) (payload : List UInt8) :
    Except FileCommitStoreError (List CommitFrame) :=
  match decodePayload payload with
  | .error reason => .error (.corruptFrame offset s!"invalid payload: {reason}")
  | .ok frame =>
    match validateDecodedPosition frames frame offset with
    | .error e => .error e
    | .ok () => .ok (frames ++ [frame])

/-- The error of a damaged record. -/
def corrupt (offset : ℕ) : RecordLog.Damage → FileCommitStoreError
  | .magic => .corruptFrame offset "frame magic does not match FRM1"
  | .length declared => .corruptFrame offset s!"declared payload length {declared} exceeds limit"
  | .trailer => .corruptFrame offset "completion trailer does not match END1"
  | .checksum expected actual => .corruptFrame offset
      s!"checksum mismatch: expected {hex16 expected}, calculated {hex16 actual}"

/-- `decode_file`: the frames, and the offset behind the last complete record. -/
def decodeFile (bytes : List UInt8) : Except FileCommitStoreError (List CommitFrame × ℕ) :=
  if bytes.length < 16 then .error (.invalidHeader "header is incomplete")
  else if bytes.take 8 ≠ utf8 "FTHDB001" then
    .error (.invalidHeader "magic bytes do not match FTHDB001")
  else
    let version := ofLe ((bytes.drop 8).take 4)
    if version ≠ 1 then .error (.unsupportedFormat version)
    else
      let flags := ofLe ((bytes.drop 12).take 4)
      if flags ≠ 0 then
        .error (.invalidHeader s!"unsupported header flags 0x{hex8 flags}")
      else RecordLog.scanLog frameFormat acceptFrame corrupt bytes.length [] 16 (bytes.drop 16)

end FileStore

/-- An open file: its bytes and the position of the next write. -/
structure DiskFile where
  bytes : List UInt8
  position : ℕ
deriving DecidableEq, Repr

namespace DiskFile

def seekEnd (file : DiskFile) : DiskFile := { file with position := file.bytes.length }

/-- Write at the position, over what is there or behind a gap of zeros. -/
def write (file : DiskFile) (data : List UInt8) : DiskFile :=
  let gap := List.replicate (file.position - file.bytes.length) 0
  { bytes := file.bytes.take file.position ++ gap ++ data ++
      file.bytes.drop (file.position + data.length)
    position := file.position + data.length }

/-- Cut the file, or pad it with zeros. -/
def setLen (file : DiskFile) (length : ℕ) : DiskFile :=
  { file with
    bytes := file.bytes.take length ++ List.replicate (length - file.bytes.length) 0 }

end DiskFile

structure FileCommitStore where
  file : DiskFile
  frames : List CommitFrame
  recoveredTailBytes : ℕ
deriving DecidableEq, Repr

/-- Which operations of one `append` fail. -/
structure AppendFaults where
  /-- The seek to the end before the write. -/
  seekStart : Bool := false
  /-- `write_all` fails after this many bytes. -/
  write : Option ℕ := none
  sync : Bool := false
  rollbackSetLen : Bool := false
  rollbackSeek : Bool := false
  rollbackSync : Bool := false
deriving DecidableEq, Repr

namespace FileCommitStore

open FileStore

/-- `FileCommitStore::open` on the bytes of the file. -/
def openStore (bytes : List UInt8) : Except FileCommitStoreError FileCommitStore :=
  let bytes := if bytes = [] then fileHeader else bytes
  match decodeFile bytes with
  | .error e => .error e
  | .ok (frames, lastGoodOffset) =>
    let recoveredTailBytes := bytes.length - lastGoodOffset
    let file : DiskFile := ⟨bytes, bytes.length⟩
    let file := if recoveredTailBytes ≠ 0 then file.setLen lastGoodOffset else file
    match World.reconstruct frames with
    | .error e => .error (.history e)
    | .ok _ => .ok ⟨file.seekEnd, frames, recoveredTailBytes⟩

def validateAppend (s : FileCommitStore) (frame : CommitFrame) : Except FileCommitStoreError Unit :=
  (checkPosition s.frames frame).mapError .nonLinearAppend

/-- `encode_record`. -/
def encodeRecord (frame : CommitFrame) : Except FileCommitStoreError (List UInt8) :=
  let payload := encodePayload frame
  if maxFrameBytes < payload.length then
    .error (.nonLinearAppend
      s!"encoded frame payload is {payload.length} bytes, limit is {maxFrameBytes}")
  else .ok (frameFormat.encode payload)

/-- `rollback_failed_append`: each step's error is discarded. A failed sync loses nothing
that a reader of the file could see. -/
def rollbackFailedAppend (file : DiskFile) (start : ℕ) (faults : AppendFaults) : DiskFile :=
  let file := if faults.rollbackSetLen then file else file.setLen start
  if faults.rollbackSeek then file else file.seekEnd

def append (s : FileCommitStore) (frame : CommitFrame) (faults : AppendFaults) :
    Except FileCommitStoreError Unit × FileCommitStore :=
  match s.validateAppend frame with
  | .error e => (.error e, s)
  | .ok () =>
    match encodeRecord frame with
    | .error e => (.error e, s)
    | .ok record =>
      if faults.seekStart then (.error .io, s)
      else
        let file := s.file.seekEnd
        let start := file.position
        match faults.write with
        | some written =>
          let file := file.write (record.take written)
          (.error .io, { s with file := rollbackFailedAppend file start faults })
        | none =>
          let file := file.write record
          if faults.sync then
            (.error .io, { s with file := rollbackFailedAppend file start faults })
          else (.ok (), ⟨file, s.frames ++ [frame], 0⟩)

/-- A sequence of appends: the store after it, and the frames whose append returned `Ok`. -/
def appendAll (s : FileCommitStore) :
    List (CommitFrame × AppendFaults) → FileCommitStore × List CommitFrame
  | [] => (s, [])
  | (frame, faults) :: calls =>
    match s.append frame faults with
    | (.ok (), s') => let (t, acked) := s'.appendAll calls; (t, frame :: acked)
    | (.error _, s') => s'.appendAll calls

end FileCommitStore

namespace FileStore

variable {frame : CommitFrame}

theorem reads_payload (h : frame.InRange) (hops : frame.operations.length ≤ maxOperationsPerFrame) :
    Decode.Reads readPayload (encodePayload frame) frame := by
  obtain ⟨h1, h2, h3, h4, h5⟩ := h
  have hw : ∀ id : WorldId, Decode.Reads (number wording.eof 8) (le 8 id.value.toNat) id.value.toNat :=
    fun id => reads_u64 id.value.toNat_lt
  have hops' : Decode.Reads (readOperations frame.operations.length)
      (frame.operations.flatMap (putOperation 8)) frame.operations := by
    unfold readOperations
    rw [if_neg (not_lt.2 hops)]
    exact reads_times _ fun op hop => reads_operation (h5 op hop)
  have h : Decode.Reads readPayload (encodePayload frame) ⟨⟨.ofNat frame.parentWorld.value.toNat⟩,
      ⟨.ofNat frame.resultingWorld.value.toNat⟩, frame.parentVersion, frame.resultingVersion,
      frame.resultingAllocator, frame.operations⟩ := by
    refine (hw _).bind ((hw _).bind ?_)
    refine (reads_u64 h1).bind ((reads_u64 h2).bind ((reads_u64 h3).bind ((reads_u64 h4).bind ?_)))
    exact hops'.bind_pure _
  simpa only [UInt64.ofNat_toNat] using h

/-- **A frame in range is read back.** -/
theorem decodePayload_encodePayload (h : frame.InRange)
    (hops : frame.operations.length ≤ maxOperationsPerFrame) :
    decodePayload (encodePayload frame) = .ok frame := decodeAll_of_reads (reads_payload h hops)

theorem stable_payload : Stable readPayload := by
  refine (stable_number _ _).bind fun _ => (stable_number _ _).bind fun _ =>
    (stable_number _ _).bind fun _ => (stable_number _ _).bind fun _ =>
    (stable_number _ _).bind fun _ => (stable_number _ _).bind fun count => ?_
  refine Stable.bind ?_ fun _ => stable_pure _
  unfold readOperations
  split
  · exact stable_fail _
  · exact stable_times stable_operation _

/-- **Payloads are self-delimiting**: no cut-short or overlong payload decodes. -/
theorem decodePayload_prefix {p q : List UInt8} (hp : decodePayload p = .ok frame) (hne : q ≠ p)
    (hpq : q <+: p ∨ p <+: q) : ∃ e, decodePayload q = .error e := by
  cases hq : decodePayload q with
  | error e => exact ⟨e, rfl⟩
  | ok g =>
    exfalso
    rcases hpq with ⟨more, rfl⟩ | ⟨more, rfl⟩
    · have := decodeAll_prefix stable_payload hq hp
      simp [this] at hne
    · have := decodeAll_prefix stable_payload hp hq
      simp [this] at hne

/-- A `u64` that was read is written back. -/
theorem le_toNat_ofNat (n : ℕ) : le 8 (UInt64.ofNat n).toNat = le 8 n := by
  have h : (UInt64.ofNat n).toNat = n % 256 ^ 8 := UInt64.toNat_ofNat'
  rw [h, le_mod]

/-- **What a payload's decoder reads spells the frame that it returns**, under any wording of
its errors. -/
theorem spells_frame {eof : ℕ → ℕ → String} {operations : ℕ → Decoder (List Operation)}
    (hops : ∀ before count, SpellsAfter (before ++ le 8 count) (operations count)
      (fun ops => before ++ (le 8 ops.length ++ ops.flatMap (putOperation 8)))) :
    Spells (do
      let parentWorld ← number eof 8
      let resultingWorld ← number eof 8
      let parentVersion ← number eof 8
      let resultingVersion ← number eof 8
      let resultingAllocator ← number eof 8
      let operationCount ← number eof 8
      let operations ← operations operationCount
      pure {
        parentWorld := ⟨.ofNat parentWorld⟩, resultingWorld := ⟨.ofNat resultingWorld⟩,
        parentVersion := parentVersion, resultingVersion := resultingVersion,
        resultingAllocator := resultingAllocator, operations := operations }) encodePayload := by
  have hn := spells_number eof 8
  refine Spells.bind hn fun parentWorld => Spells.bind hn fun resultingWorld =>
    Spells.bind hn fun parentVersion => Spells.bind hn fun resultingVersion =>
    Spells.bind hn fun resultingAllocator => Spells.bind hn fun count => ?_
  refine (hops _ count).bind fun ops => spells_pure ?_
  simp only [encodePayload, le_toNat_ofNat, List.append_assoc, List.nil_append]

theorem spells_operations (before : List UInt8) (count : ℕ) :
    SpellsAfter (before ++ le 8 count) (readOperations count)
      (fun ops => before ++ (le 8 ops.length ++ ops.flatMap (putOperation 8))) := by
  unfold readOperations
  split
  · exact spells_fail _ _ _
  · exact spells_counted spells_operation before 8 count

/-- **A payload that is read is the one that would be written.** -/
theorem encodePayload_decodePayload {payload : List UInt8} (h : decodePayload payload = .ok frame) :
    encodePayload frame = payload := encode_of_decodeAll (spells_frame spells_operations) h

end FileStore

end ForthDB
