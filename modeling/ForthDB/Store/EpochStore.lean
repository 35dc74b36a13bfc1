import ForthDB.Store.FileStore

/-!
# The epoch store

`FileEpochStore` appends batches of frames to a commit file through a narrow I/O
boundary. A batch that fails after its first write is cut off again and the file is read
back; if that cannot be verified the store is poisoned and refuses every later operation.

The I/O follows a script: each call takes the next `IoOutcome`. A call that fails keeps the
bytes before the append offset and leaves any others behind it.
-/

namespace ForthDB

open Bytes Decode

inductive EpochIoPhase
  | epochStart
  | epochWrite
  | epochSync
  | repairTruncate
  | repairSync
  | verifyLength
  | verifyRead
deriving DecidableEq, Repr

/-- How `{:?}` prints a phase. -/
def EpochIoPhase.debug : EpochIoPhase → String
  | .epochStart => "EpochStart"
  | .epochWrite => "EpochWrite"
  | .epochSync => "EpochSync"
  | .repairTruncate => "RepairTruncate"
  | .repairSync => "RepairSync"
  | .verifyLength => "VerifyLength"
  | .verifyRead => "VerifyRead"

inductive FileEpochState
  | healthy
  | repairing
  | poisoned
deriving DecidableEq, Repr

inductive FileEpochSyncPolicy
  | perFrame
  | perEpoch
deriving DecidableEq, Repr

inductive FileEpochStoreError
  | file (error : FileCommitStoreError)
  | io (phase : EpochIoPhase) (source : String)
  | epochRepaired (phase : EpochIoPhase) (source : String)
  | repairFailed (primaryPhase : EpochIoPhase) (primary : String) (repairPhase : EpochIoPhase)
      (repair : String)
  | verification (message : String)
  | storePoisoned (message : String)
deriving DecidableEq, Repr

instance : ToString CandidateError where
  toString
    | .historyParentMismatch expected actual =>
      s!"commit history expected parent {expected}, found {actual}"
    | .historyVersionMismatch expected actual =>
      s!"commit history expected parent version {expected}, found {actual}"
    | .allocatorOperationMismatch expected actual =>
      s!"entity allocation expected identifier {expected}, found {actual}"
    | .allocatorStateMismatch expected actual =>
      s!"commit frame expected allocator state {expected}, reconstructed {actual}"
    | .worldIdentityMismatch expected actual =>
      s!"commit frame expected resulting identity {expected}, found {actual}"
    | .baseWorldMismatch expected actual =>
      s!"candidate expected base world {expected}, reconstructed {actual}"
    | .kernelInvariant message => s!"candidate violates kernel invariants: {message}"

/-- The text of an `io::Error` is not kept. -/
instance : ToString FileCommitStoreError where
  toString
    | .io => "file commit store I/O failed"
    | .invalidHeader message => s!"invalid ForthDB file header: {message}"
    | .unsupportedFormat version => s!"unsupported ForthDB file format version {version}"
    | .corruptFrame offset reason => s!"corrupt commit frame at byte {offset}: {reason}"
    | .nonLinearAppend message => s!"nonlinear commit append: {message}"
    | .history error => s!"persisted history is invalid: {error}"

instance : ToString FileEpochStoreError where
  toString
    | .file error => s!"file epoch format failed: {error}"
    | .io phase source => s!"file epoch I/O failed during {phase.debug}: {source}"
    | .epochRepaired phase source =>
      s!"file epoch failed during {phase.debug} and was rolled back: {source}"
    | .repairFailed primaryPhase primary repairPhase repair =>
      s!"file epoch failed during {primaryPhase.debug} ({primary}); " ++
        s!"repair failed during {repairPhase.debug} ({repair})"
    | .verification message => s!"file epoch verification failed: {message}"
    | .storePoisoned reason => s!"file epoch store is poisoned: {reason}"

/-- What one call of the I/O does. -/
inductive IoOutcome
  | done
  /-- A write takes at most this many bytes. -/
  | short (count : ℕ)
  /-- An error. A transport reports it with `phase`; of a call that changes the file, `landed`
  is what lies behind the append offset afterwards. -/
  | fail (phase : EpochIoPhase) (source : String) (landed : List UInt8)
deriving DecidableEq, Repr

/-- `EpochFileIo` over a file: `transport` tells whether it implements `persist_epoch`. -/
structure EpochFileIo where
  bytes : List UInt8
  appendOffset : ℕ
  script : List IoOutcome
  transport : Bool
deriving DecidableEq, Repr

namespace EpochFileIo

variable (io : EpochFileIo)

/-- The outcome of the next call. Behind its end the script is without faults. -/
def next : IoOutcome × EpochFileIo :=
  match io.script with
  | [] => (.done, io)
  | outcome :: script => (outcome, { io with script := script })

/-- `data` is written over the file at an offset. -/
def put (offset : ℕ) (data : List UInt8) : EpochFileIo :=
  { io with bytes := (DiskFile.write ⟨io.bytes, offset⟩ data).bytes }

/-- Nothing behind the append offset is promised. -/
def land (landed : List UInt8) : EpochFileIo :=
  { io with bytes := io.bytes.take io.appendOffset ++ landed }

/-- `len`. The length at the start of an epoch is the append offset. -/
def len (phase : EpochIoPhase) : Except String ℕ × EpochFileIo :=
  match io.next with
  | (.fail _ source _, io) => (.error source, io)
  | (_, io) =>
    (.ok io.bytes.length,
      if phase = .epochStart then { io with appendOffset := io.bytes.length } else io)

def writeAt (offset : ℕ) (data : List UInt8) : Except String ℕ × EpochFileIo :=
  match io.next with
  | (.done, io) => (.ok data.length, io.put offset data)
  | (.short count, io) => (.ok (data.take count).length, io.put offset (data.take count))
  | (.fail _ source landed, io) => (.error source, io.land landed)

def syncData : Except String Unit × EpochFileIo :=
  match io.next with
  | (.fail _ source landed, io) => (.error source, io.land landed)
  | (_, io) => (.ok (), io)

def setLen (length : ℕ) : Except String Unit × EpochFileIo :=
  match io.next with
  | (.fail _ source landed, io) => (.error source, io.land landed)
  | (_, io) => (.ok (), { io with bytes := (DiskFile.setLen ⟨io.bytes, 0⟩ length).bytes })

def readAll : Except String (List UInt8) × EpochFileIo :=
  match io.next with
  | (.fail _ source _, io) => (.error source, io)
  | (_, io) => (.ok io.bytes, io)

/-- `persist_epoch` of an I/O that implements it. -/
def persistEpoch (startOffset : ℕ) (records : List (List UInt8)) :
    Except (EpochIoPhase × String) Unit × EpochFileIo :=
  match io.next with
  | (.fail phase source landed, io) => (.error (phase, source), io.land landed)
  | (_, io) => (.ok (), io.put startOffset records.flatten)

/-- The loop of `write_all_at`; every turn takes at least one byte. -/
def writeAll (io : EpochFileIo) (offset : ℕ) (bytes : List UInt8) :
    ℕ → Except (EpochIoPhase × String) Unit × EpochFileIo
  | 0 => (.ok (), io)
  | fuel + 1 =>
    if bytes = [] then (.ok (), io)
    else match io.writeAt offset bytes with
      | (.ok 0, io) => (.error (.epochWrite, "epoch write made no progress"), io)
      | (.ok written, io) => writeAll io (offset + written) (bytes.drop written) fuel
      | (.error source, io) => (.error (.epochWrite, source), io)

def writeAllAt (offset : ℕ) (bytes : List UInt8) : Except (EpochIoPhase × String) Unit × EpochFileIo :=
  io.writeAll offset bytes bytes.length

def syncEpoch : Except (EpochIoPhase × String) Unit × EpochFileIo :=
  match io.syncData with
  | (.ok (), io) => (.ok (), io)
  | (.error source, io) => (.error (.epochSync, source), io)

def writeOneEpoch (startOffset : ℕ) (records : List (List UInt8)) :
    Except (EpochIoPhase × String) Unit × EpochFileIo :=
  match io.writeAllAt startOffset records.flatten with
  | (.error e, io) => (.error e, io)
  | (.ok (), io) => io.syncEpoch

def writePerFrame (io : EpochFileIo) (offset : ℕ) :
    List (List UInt8) → Except (EpochIoPhase × String) Unit × EpochFileIo
  | [] => (.ok (), io)
  | record :: records =>
    match io.writeAllAt offset record with
    | (.error e, io) => (.error e, io)
    | (.ok (), io) =>
      match io.syncEpoch with
      | (.error e, io) => (.error e, io)
      | (.ok (), io) => writePerFrame io (offset + record.length) records

end EpochFileIo

namespace EpochFile

open FileStore (maxFrameBytes maxOperationsPerFrame frameFormat lastPosition encodePayload)

/-- The texts of `EpochDecoder`. -/
def wording : Wording where
  eof := fun position length =>
    if 2 ^ 64 ≤ position + length then "payload offset overflow" else "unexpected end of payload"
  eofText := fun position length =>
    if 2 ^ 64 ≤ position + length then "string offset overflow" else "unexpected end of string"
  utf8 := "invalid UTF-8"
  atomTag := fun tag => s!"unknown atom tag {tag}"
  operationTag := fun tag => s!"unknown operation tag {tag}"

/-- The operations behind their count. -/
def readOperations (count : ℕ) : Decoder (List Operation) :=
  if maxOperationsPerFrame < count then fail "operation count exceeds limit"
  else times count (readOperation wording 8)

def readPayload : Decoder CommitFrame := do
  let parentWorld ← number wording.eof 8
  let resultingWorld ← number wording.eof 8
  let parentVersion ← number wording.eof 8
  let resultingVersion ← number wording.eof 8
  let resultingAllocator ← number wording.eof 8
  let operationCount ← number wording.eof 8
  let operations ← readOperations operationCount
  pure {
    parentWorld := ⟨.ofNat parentWorld⟩, resultingWorld := ⟨.ofNat resultingWorld⟩,
    parentVersion := parentVersion, resultingVersion := resultingVersion,
    resultingAllocator := resultingAllocator, operations := operations }

def decodePayload (payload : List UInt8) : Except String CommitFrame :=
  decodeAll (fun n => s!"payload has {n} trailing bytes") readPayload payload

def validateDecodedPosition (frames : List CommitFrame) (frame : CommitFrame) (offset : ℕ) :
    Except FileEpochStoreError Unit :=
  let (expectedParent, expectedVersion) := lastPosition frames
  if frame.parentWorld ≠ expectedParent then
    .error (.file (.corruptFrame offset "decoded parent world is nonlinear"))
  else if frame.parentVersion ≠ expectedVersion ∨ frame.resultingVersion ≠ expectedVersion + 1 then
    .error (.file (.corruptFrame offset "decoded world version is nonlinear"))
  else .ok ()

/-- What the loop of `inspect_file` does with one payload. -/
def acceptFrame (frames : List CommitFrame) (offset : ℕ) (payload : List UInt8) :
    Except FileEpochStoreError (List CommitFrame) :=
  match decodePayload payload with
  | .error reason => .error (.file (.corruptFrame offset reason))
  | .ok frame =>
    match validateDecodedPosition frames frame offset with
    | .error e => .error e
    | .ok () => .ok (frames ++ [frame])

/-- The error of a damaged record. -/
def corrupt (offset : ℕ) : RecordLog.Damage → FileEpochStoreError
  | .magic => .file (.corruptFrame offset "frame magic does not match FRM1")
  | .length declared =>
    .file (.corruptFrame offset s!"declared payload length {declared} exceeds limit")
  | .trailer => .file (.corruptFrame offset "completion trailer does not match END1")
  | .checksum _ _ => .file (.corruptFrame offset "checksum mismatch")

/-- `inspect_file`: the frames, and the offset behind the last complete record. -/
def inspectFile (bytes : List UInt8) : Except FileEpochStoreError (List CommitFrame × ℕ) :=
  if bytes.length < 16 then .error (.file (.invalidHeader "header is incomplete"))
  else if bytes.take 8 ≠ utf8 "FTHDB001" then
    .error (.file (.invalidHeader "magic bytes do not match FTHDB001"))
  else
    let version := ofLe ((bytes.drop 8).take 4)
    if version ≠ 1 then .error (.file (.unsupportedFormat version))
    else
      let flags := ofLe ((bytes.drop 12).take 4)
      if flags ≠ 0 then
        .error (.file (.invalidHeader
          s!"unsupported header flags 0x{hex8 flags}"))
      else RecordLog.scanLog frameFormat acceptFrame corrupt bytes.length [] 16 (bytes.drop 16)

/-- `encode_record`. -/
def encodeRecord (frame : CommitFrame) : Except FileEpochStoreError (List UInt8) :=
  let payload := encodePayload frame
  if maxFrameBytes < payload.length then
    .error (.file (.nonLinearAppend
      s!"encoded frame payload is {payload.length} bytes, limit is {maxFrameBytes}"))
  else .ok (frameFormat.encode payload)

def encodeRecords : List CommitFrame → Except FileEpochStoreError (List (List UInt8))
  | [] => .ok []
  | frame :: frames =>
    match encodeRecord frame with
    | .error e => .error e
    | .ok record => (encodeRecords frames).map (record :: ·)

end EpochFile

structure EpochCheckpoint where
  startOffset : ℕ
  frameCount : ℕ
  worldId : WorldId
  worldVersion : ℕ
  prefixDigest : UInt64
deriving DecidableEq, Repr

structure PreparedFileEpoch where
  checkpoint : EpochCheckpoint
  frames : List CommitFrame
  records : List (List UInt8)
deriving DecidableEq, Repr

structure FileEpochStore where
  io : EpochFileIo
  frames : List CommitFrame
  policy : FileEpochSyncPolicy
  state : FileEpochState
  poisonReason : Option String
  prefixDigest : UInt64
  recoveredTailBytes : ℕ
deriving DecidableEq, Repr

namespace FileEpochStore

open EpochFile
open FileStore (lastPosition)

/-- `from_io`. -/
def fromIo (io : EpochFileIo) (policy : FileEpochSyncPolicy) :
    Except FileEpochStoreError FileEpochStore :=
  match io.readAll with
  | (.error source, _) => .error (.io .verifyRead source)
  | (.ok bytes, io) =>
    match inspectFile bytes with
    | .error e => .error e
    | .ok (frames, lastGoodOffset) =>
      if lastGoodOffset ≠ bytes.length then
        .error (.verification
          s!"opened file contains {bytes.length - lastGoodOffset} unverified trailing bytes")
      else match World.reconstruct frames with
        | .error e => .error (.file (.history e))
        | .ok _ => .ok {
            io := io, frames := frames, policy := policy, state := .healthy, poisonReason := none,
            prefixDigest := Fnv.fnv1a bytes, recoveredTailBytes := 0 }

variable (s : FileEpochStore)

def ensureHealthy : Except FileEpochStoreError Unit :=
  match s.state with
  | .healthy => .ok ()
  | .repairing => .error (.storePoisoned "store is still repairing")
  | .poisoned =>
    .error (.storePoisoned (s.poisonReason.getD "repair could not be verified"))

def fileLen : Except FileEpochStoreError ℕ × FileEpochStore :=
  match s.ensureHealthy with
  | .error e => (.error e, s)
  | .ok () =>
    match s.io.len .verifyLength with
    | (.error source, io) => (.error (.io .verifyLength source), { s with io := io })
    | (.ok length, io) => (.ok length, { s with io := io })

def physicalFrames : Except FileEpochStoreError (List CommitFrame) × FileEpochStore :=
  match s.ensureHealthy with
  | .error e => (.error e, s)
  | .ok () =>
    match s.io.readAll with
    | (.error source, io) => (.error (.io .verifyRead source), { s with io := io })
    | (.ok bytes, io) =>
      match inspectFile bytes with
      | .error e => (.error e, { s with io := io })
      | .ok (frames, lastGoodOffset) =>
        if lastGoodOffset ≠ bytes.length then
          (.error (.verification "physical file contains an incomplete tail"), { s with io := io })
        else (.ok frames, { s with io := io })

def checkpoint (startOffset : ℕ) : EpochCheckpoint where
  startOffset := startOffset
  frameCount := s.frames.length
  worldId := (lastPosition s.frames).1
  worldVersion := (lastPosition s.frames).2
  prefixDigest := s.prefixDigest

/-- The loop of `validate_epoch`: every frame continues the one before it. -/
def validateFrom : List CommitFrame → List CommitFrame → Except FileEpochStoreError Unit
  | _, [] => .ok ()
  | before, frame :: frames =>
    match FileStore.checkPosition before frame with
    | .error message => .error (.file (.nonLinearAppend message))
    | .ok () => validateFrom (before ++ [frame]) frames

def validateEpoch (frames : List CommitFrame) : Except FileEpochStoreError Unit :=
  validateFrom s.frames frames

def prepareEpoch (frames : List CommitFrame) :
    Except FileEpochStoreError PreparedFileEpoch × FileEpochStore :=
  match s.ensureHealthy with
  | .error e => (.error e, s)
  | .ok () =>
    if frames = [] then (.ok ⟨s.checkpoint 0, [], []⟩, s)
    else match s.validateEpoch frames with
      | .error e => (.error e, s)
      | .ok () =>
        match encodeRecords frames with
        | .error e => (.error e, s)
        | .ok records =>
          match s.io.len .epochStart with
          | (.error source, io) => (.error (.io .epochStart source), { s with io := io })
          | (.ok startOffset, io) =>
            (.ok ⟨s.checkpoint startOffset, frames, records⟩, { s with io := io })

/-- How `append_epoch` writes the records: by the transport, or by the policy. -/
def persist (startOffset : ℕ) (records : List (List UInt8)) :
    Except (EpochIoPhase × String) Unit × EpochFileIo :=
  if s.io.transport then s.io.persistEpoch startOffset records
  else match s.policy with
    | .perFrame => s.io.writePerFrame startOffset records
    | .perEpoch => s.io.writeOneEpoch startOffset records

/-- The checks of `repair` on the bytes that were read back. -/
def verifyRepaired (checkpoint : EpochCheckpoint) (bytes : List UInt8) : Except String Unit :=
  if Fnv.fnv1a bytes ≠ checkpoint.prefixDigest then
    .error "repaired prefix digest does not match checkpoint"
  else match inspectFile bytes with
    | .error e => .error (toString e)
    | .ok (frames, lastGoodOffset) =>
      if lastGoodOffset ≠ bytes.length then
        .error "repaired file still contains an incomplete tail"
      else if frames.length ≠ checkpoint.frameCount then
        .error s!"expected {checkpoint.frameCount} repaired frames, found {frames.length}"
      else
        let (actualWorld, actualVersion) := lastPosition frames
        if actualWorld ≠ checkpoint.worldId ∨ actualVersion ≠ checkpoint.worldVersion then
          .error (s!"expected repaired tail {checkpoint.worldId} v{checkpoint.worldVersion}, " ++
            s!"found {actualWorld} v{actualVersion}")
        else match World.reconstruct frames with
          | .error e => .error (toString e)
          | .ok _ => .ok ()

/-- `repair`. -/
def repair (io : EpochFileIo) (checkpoint : EpochCheckpoint) :
    Except (EpochIoPhase × String) Unit × EpochFileIo :=
  match io.setLen checkpoint.startOffset with
  | (.error e, io) => (.error (.repairTruncate, e), io)
  | (.ok (), io) =>
    match io.syncData with
    | (.error e, io) => (.error (.repairSync, e), io)
    | (.ok (), io) =>
      match io.len .verifyLength with
      | (.error e, io) => (.error (.verifyLength, e), io)
      | (.ok actualLen, io) =>
        if actualLen ≠ checkpoint.startOffset then
          (.error (.verifyLength,
            s!"expected repaired length {checkpoint.startOffset}, found {actualLen}"), io)
        else match io.readAll with
          | (.error e, io) => (.error (.verifyRead, e), io)
          | (.ok bytes, io) =>
            match verifyRepaired checkpoint bytes with
            | .error e => (.error (.verifyRead, e), io)
            | .ok () => (.ok (), io)

def handlePrimaryFailure (checkpoint : EpochCheckpoint) (primaryPhase : EpochIoPhase)
    (primary : String) : FileEpochStoreError × FileEpochStore :=
  match repair s.io checkpoint with
  | (.ok (), io) => (.epochRepaired primaryPhase primary, { s with io := io, state := .healthy })
  | (.error (repairPhase, repair), io) =>
    (.repairFailed primaryPhase primary repairPhase repair, { s with
      io := io
      state := .poisoned
      poisonReason := some (s!"primary {primaryPhase.debug}: {primary}; " ++
        s!"repair {repairPhase.debug}: {repair}") })

def finishPreparedEpoch (prepared : PreparedFileEpoch) (result : Except (EpochIoPhase × String) Unit) :
    Except FileEpochStoreError Unit × FileEpochStore :=
  if prepared.frames = [] then (.ok (), s)
  else match result with
    | .error (phase, source) =>
      let (e, s) := s.handlePrimaryFailure prepared.checkpoint phase source
      (.error e, s)
    | .ok () => (.ok (), { s with
        prefixDigest := prepared.records.foldl Fnv.fnv1aFrom s.prefixDigest
        frames := s.frames ++ prepared.frames
        recoveredTailBytes := 0 })

def appendEpoch (frames : List CommitFrame) : Except FileEpochStoreError Unit × FileEpochStore :=
  match s.prepareEpoch frames with
  | (.error e, s) => (.error e, s)
  | (.ok prepared, s) =>
    if prepared.frames = [] then (.ok (), s)
    else
      let (result, io) := s.persist prepared.checkpoint.startOffset prepared.records
      { s with io := io }.finishPreparedEpoch prepared result

end FileEpochStore

namespace EpochFile

theorem agrees_payload : Agrees readPayload FileStore.readPayload := by
  refine (agrees_number _ _ _).bind fun _ => (agrees_number _ _ _).bind fun _ =>
    (agrees_number _ _ _).bind fun _ => (agrees_number _ _ _).bind fun _ =>
    (agrees_number _ _ _).bind fun _ => (agrees_number _ _ _).bind fun count => ?_
  refine Agrees.bind ?_ fun _ => .refl _
  unfold readOperations FileStore.readOperations
  split
  · exact agrees_fail _ _
  · exact agrees_times (agrees_operation _ _ _) _

/-- A decoded version is a `u64`. -/
theorem resultingVersion_lt {p : List UInt8} {frame : CommitFrame}
    (h : FileStore.decodePayload p = .ok frame) : frame.resultingVersion < 2 ^ 64 := by
  obtain ⟨n, hn⟩ := decodeAll_ok h
  obtain ⟨_, _, -, hn⟩ := bind_ok hn
  obtain ⟨_, _, -, hn⟩ := bind_ok hn
  obtain ⟨_, _, -, hn⟩ := bind_ok hn
  obtain ⟨v, _, hv, hn⟩ := bind_ok hn
  obtain ⟨_, _, -, hn⟩ := bind_ok hn
  obtain ⟨_, _, -, hn⟩ := bind_ok hn
  obtain ⟨_, _, -, hn⟩ := bind_ok hn
  cases hn
  exact number_lt hv

/-- Both decoders of payloads accept the same ones. -/
theorem decodePayload_iff (p : List UInt8) (frame : CommitFrame) :
    decodePayload p = .ok frame ↔ FileStore.decodePayload p = .ok frame :=
  agrees_payload.decodeAll _ _ p frame

/-- Both loops accept the same payloads. -/
theorem acceptFrame_iff (frames : List CommitFrame) (offset : ℕ) (p : List UInt8)
    (frames' : List CommitFrame) :
    acceptFrame frames offset p = .ok frames' ↔
      FileStore.acceptFrame frames offset p = .ok frames' := by
  have hdec := decodePayload_iff p
  unfold acceptFrame FileStore.acceptFrame
  cases hd : FileStore.decodePayload p with
  | error e =>
    cases hd' : decodePayload p with
    | error e' => simp
    | ok f =>
      rw [(hdec f).1 hd'] at hd
      cases hd
  | ok f =>
    rw [(hdec f).2 hd]
    have hlt := resultingVersion_lt hd
    simp only
    unfold validateDecodedPosition FileStore.validateDecodedPosition FileStore.checkPosition
    generalize FileStore.lastPosition frames = position
    obtain ⟨parent, version⟩ := position
    simp only
    by_cases hp : f.parentWorld = parent
    · by_cases hv : f.parentVersion = version
      · by_cases hr : f.resultingVersion = version + 1
        · have hmax : version ≠ 18446744073709551615 := by omega
          simp [hp, hv, hr, hmax, Except.mapError]
        · by_cases hmax : version = 18446744073709551615
          · have hr' : f.resultingVersion ≠ 18446744073709551616 := by omega
            simp [hp, hv, hr', hmax, Except.mapError]
          · simp [hp, hv, hr, hmax, Except.mapError]
      · simp [hp, hv, Except.mapError]
    · simp [hp, Except.mapError]

/-- **The epoch store reads the files that the commit store reads**, with the same frames. -/
theorem inspectFile_iff (bytes : List UInt8) (r : List CommitFrame × ℕ) :
    inspectFile bytes = .ok r ↔ FileStore.decodeFile bytes = .ok r := by
  have hscan : RecordLog.scanLog FileStore.frameFormat acceptFrame corrupt bytes.length [] 16
        (bytes.drop 16) = .ok r ↔
      RecordLog.scanLog FileStore.frameFormat FileStore.acceptFrame FileStore.corrupt bytes.length
        [] 16 (bytes.drop 16) = .ok r :=
    RecordLog.scanLog_agrees acceptFrame_iff _ _ _ _ _
  unfold inspectFile FileStore.decodeFile
  split
  · simp
  · split
    · simp
    · simp only
      split
      · simp
      · split
        · simp
        · exact hscan

end EpochFile

end ForthDB
