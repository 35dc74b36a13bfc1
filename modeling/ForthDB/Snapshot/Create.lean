import ForthDB.Vm.Workspace
import ForthDB.World.World
import Mathlib.Data.List.Dedup

/-!
# Writing an image

`MmapVmSnapshot.create` collects the names of a projection, writes its definition
stacks as linked records, sorts the active ones into three indexes and appends the
encoded history. `toFile` lays the image out as bytes: a header of 320 bytes, ten
sections and a trailer.

References and tokens are `u32` in the source. An image in which one does not fit is
larger than the size limit, so the model does not wrap them.
-/

namespace ForthDB

open Bytes

/-- `MAX_SNAPSHOT_BYTES`. -/
def maxSnapshotBytes : ℕ := 512 * 1024 * 1024

/-- The texts of a `BTreeSet`. -/
def sortedNames (names : List String) : List String := names.dedup.insertionSort (· ≤ ·)

/-- `collect_atom_string`. -/
def collectAtomString : Atom → List String
  | .literal l => [l.value]
  | .entity _ => []

/-- The definitions that a projection retains. -/
def VmQueryProjection.retained (p : VmQueryProjection) : List ProjectedFact :=
  p.definitions.entries.flatMap fun entry => entry.2

/-- The three name tables of an image. -/
structure ImageNames where
  slots : List String
  predicates : List String
  literals : List String

def VmQueryProjection.names (p : VmQueryProjection) : ImageNames where
  slots := (p.definitions.keys.map SlotId.value).insertionSort (· ≤ ·)
  predicates := sortedNames (p.retained.map fun entry => entry.fact.predicate.value)
  literals := sortedNames (p.retained.flatMap fun entry =>
    collectAtomString entry.fact.subject ++ collectAtomString entry.fact.object)

namespace ImageNames

variable (names : ImageNames)

/-- `atom_cell`. -/
def atomCell : Atom → Except String ℕ
  | .entity e =>
    if e.value < literalBase then .ok e.value
    else .error "entity overlaps physical snapshot literal namespace"
  | .literal l =>
    match names.literals.idxOf? l.value with
    | some token => .ok (literalBase + token)
    | none => .error "literal is missing from physical snapshot dictionary"

/-- The token of a predicate: an `error` is the panic of an index. -/
def predicateToken (predicate : Predicate) : Except String ℕ :=
  match names.predicates.idxOf? predicate.value with
  | some token => .ok token
  | none => .error "no entry found for key"

def record (slot : ℕ) (previous : Option ℕ) (entry : ProjectedFact) :
    Except String MappedRecord := do
  let subject ← names.atomCell entry.fact.subject
  let predicate ← names.predicateToken entry.fact.predicate
  let object ← names.atomCell entry.fact.object
  pure {
    originalId := entry.recordId, slot := slot, previous := previous, subject := subject,
    predicate := predicate, object := object }

/-- One stack, oldest definition first: the records so far and the newest of the slot's. -/
def stack (slot : ℕ) (s : List MappedRecord × Option ℕ) :
    List ProjectedFact → Except String (List MappedRecord × Option ℕ)
  | [] => .ok s
  | entry :: rest =>
    match names.record slot s.2 entry with
    | .error e => .error e
    | .ok record => stack slot (s.1 ++ [record], some s.1.length) rest

/-- The stacks of some slots: the records and the heads so far. -/
def slotStacks (definitions : Definitions) (s : List MappedRecord × List (Option ℕ)) :
    List String → Except String (List MappedRecord × List (Option ℕ))
  | [] => .ok s
  | slot :: rest =>
    match names.stack s.2.length (s.1, none) ((definitions.lookup ⟨slot⟩).getD []) with
    | .error e => .error e
    | .ok (records, head) => slotStacks definitions (records, s.2 ++ [head]) rest

end ImageNames

/-- The id that a record had in its world's log. -/
def originalIdOf (records : List MappedRecord) (index : ℕ) : ℕ :=
  (records[index]?.map MappedRecord.originalId).getD 0

/-- The order of an index section. -/
def IndexEntry.Before (records : List MappedRecord) (left right : IndexEntry) : Prop :=
  [left.first, left.second, left.third, originalIdOf records left.record] ≤
    [right.first, right.second, right.third, originalIdOf records right.record]

instance (records : List MappedRecord) : DecidableRel (IndexEntry.Before records) :=
  fun _ _ => inferInstanceAs (Decidable (_ ≤ _))

/-- One index section over the active records. -/
def indexSection (records : List MappedRecord) (active : List ℕ)
    (entry : MappedRecord → ℕ → IndexEntry) : List IndexEntry :=
  (active.filterMap fun index => records[index]?.map fun record => entry record index).insertionSort
    (IndexEntry.Before records)

/-! ## The encoded history -/

/-- `encode_string`. -/
def encodeImageString (text : String) : Except String (List UInt8) :=
  if (utf8 text).length < 2 ^ 32 then .ok (putString 4 text)
  else .error "snapshot string too long"

/-- `encode_atom`. -/
def encodeImageAtom : Atom → Except String (List UInt8)
  | .entity e => .ok (0 :: le 8 e.value)
  | .literal l => (encodeImageString l.value).map (1 :: ·)

/-- `encode_operation`. -/
def encodeImageOperation : Operation → Except String (List UInt8)
  | .allocateEntity e => .ok (0 :: le 8 e.value)
  | .define slot fact => do
    let slot ← encodeImageString slot.value
    let subject ← encodeImageAtom fact.subject
    let predicate ← encodeImageString fact.predicate.value
    let object ← encodeImageAtom fact.object
    pure (1 :: (slot ++ (subject ++ (predicate ++ object))))
  | .forget slot => (encodeImageString slot.value).map (2 :: ·)

/-- The encodings of some values, one behind the other, up to the first error. -/
def encodeEach {α : Type} (encode : α → Except String (List UInt8)) :
    List α → Except String (List UInt8)
  | [] => .ok []
  | a :: as => do
    let bytes ← encode a
    let rest ← encodeEach encode as
    pure (bytes ++ rest)

def encodeImageFrame (frame : CommitFrame) : Except String (List UInt8) :=
  if frame.operations.length < 2 ^ 32 then do
    let operations ← encodeEach encodeImageOperation frame.operations
    pure (le 8 frame.parentWorld.value.toNat ++ (le 8 frame.resultingWorld.value.toNat ++
      (le 8 frame.parentVersion ++ (le 8 frame.resultingVersion ++
        (le 8 frame.resultingAllocator ++ (le 4 frame.operations.length ++ operations))))))
  else .error "snapshot frame has too many operations"

/-- `encode_frames`. -/
def encodeFrames (frames : List CommitFrame) : Except String (List UInt8) :=
  (encodeEach encodeImageFrame frames).map (le 8 frames.length ++ ·)

/-! ## The file -/

/-- `encode_string_table`. -/
def encodeStringTable (values : List String) : List UInt8 :=
  le 4 values.length ++ (le 4 0 ++
    ((values.scanl (fun offset value => offset + (utf8 value).length) 0).flatMap (le 8) ++
      values.flatMap utf8))

def MappedRecord.toBytes (r : MappedRecord) : List UInt8 :=
  le 8 r.originalId ++ (le 4 r.slot ++ (le 4 (referenceCode r.previous) ++ (le 8 r.subject ++
    (le 4 r.predicate ++ (le 4 0 ++ (le 8 r.object ++ le 8 0))))))

def IndexEntry.toBytes (e : IndexEntry) : List UInt8 :=
  le 8 e.first ++ (le 8 e.second ++ (le 8 e.third ++ (le 4 e.record ++ le 4 0)))

/-- The sections behind an offset, each at a multiple of eight: where they are, and their
bytes with the gaps before them. -/
def layoutSections : ℕ → List (List UInt8) → List (ℕ × ℕ) × List UInt8
  | _, [] => ([], [])
  | offset, bytes :: rest =>
    let gap := (8 - offset % 8) % 8
    let (ranges, tail) := layoutSections (offset + gap + bytes.length) rest
    ((offset + gap, bytes.length) :: ranges, List.replicate gap 0 ++ bytes ++ tail)

/-- `HEADER_LEN`. -/
def imageHeaderLength : ℕ := 320

namespace MmapVmSnapshot

def sections (s : MmapVmSnapshot) : List (List UInt8) :=
  [encodeStringTable s.slots, encodeStringTable s.predicates, encodeStringTable s.literals,
    s.records.flatMap MappedRecord.toBytes, (s.heads.map referenceCode).flatMap (le 4),
    s.active.flatMap (le 4), s.spo.flatMap IndexEntry.toBytes, s.pos.flatMap IndexEntry.toBytes,
    s.osp.flatMap IndexEntry.toBytes, s.history]

/-- What follows the header. -/
def body (s : MmapVmSnapshot) : List UInt8 :=
  (layoutSections imageHeaderLength s.sections).2 ++ utf8 "VMSEND01"

/-- The header of a file with a body, for a journal. -/
def header (s : MmapVmSnapshot) (journal : List UInt8) : List UInt8 :=
  utf8 "FTHVMS01" ++ (le 4 1 ++ (le 4 imageHeaderLength ++
    (le 8 (imageHeaderLength + s.body.length) ++ (le 8 (Fnv.fnv1a s.body).toNat ++
      (le 8 s.epochCount ++ (le 8 s.journalOffset ++ (le 8 (Fnv.fnv1a journal).toNat ++
        (le 8 s.worldId.value.toNat ++ (le 8 s.worldVersion ++ (le 8 s.nextEntity ++
          (le 8 s.operationCount ++ (le 8 s.activeSlotCount ++ (le 8 s.recordCount ++
            (le 8 s.frameCount ++ ((layoutSections imageHeaderLength s.sections).1.flatMap
              (fun range => le 8 range.1 ++ le 8 range.2) ++ List.replicate 48 0)))))))))))))))

/-- The image as the bytes of its file. -/
def toFile (s : MmapVmSnapshot) (journal : List UInt8) : List UInt8 := s.header journal ++ s.body

/-- The active records in the order of their ids. -/
def activeOf (records : List MappedRecord) (heads : List (Option ℕ)) : List ℕ :=
  (heads.filterMap id).insertionSort fun left right =>
    originalIdOf records left ≤ originalIdOf records right

/-- The image of a world, from the records of its projection and its encoded history. -/
def ofParts (journal : List UInt8) (epochCount : ℕ) (world : World) (names : ImageNames)
    (records : List MappedRecord) (heads : List (Option ℕ)) (frames : List CommitFrame)
    (history : List UInt8) : MmapVmSnapshot :=
  let active := activeOf records heads
  { epochCount := epochCount
    journalOffset := journal.length
    worldId := world.id
    worldVersion := world.version
    nextEntity := world.nextEntity
    operationCount := world.operationCount
    activeSlotCount := world.activeSlotCount
    recordCount := world.recordCount
    frameCount := frames.length
    slots := names.slots
    predicates := names.predicates
    literals := names.literals
    records := records
    heads := heads
    active := active
    spo := indexSection records active fun r i => ⟨r.subject, r.predicate, r.object, i⟩
    pos := indexSection records active fun r i => ⟨r.predicate, r.object, r.subject, i⟩
    osp := indexSection records active fun r i => ⟨r.object, r.subject, r.predicate, i⟩
    history := history }

/-- `create` up to the file operations: an `error` is an `Err`, or a panic of `frames`. -/
def create (journal : List UInt8) (epochCount : ℕ) (world : World)
    (projection : VmQueryProjection) : Except String MmapVmSnapshot :=
  if projection.mapped.isSome then
    .error "rewriting a mapped snapshot with a tail is not implemented"
  else do
    let names := projection.names
    let (records, heads) ← names.slotStacks projection.definitions ([], []) names.slots
    let frames ← world.frames
    let history ← encodeFrames frames
    let image := ofParts journal epochCount world names records heads frames history
    if maxSnapshotBytes < (image.toFile journal).length then
      .error "mmap VM snapshot exceeds size limit"
    else pure image

end MmapVmSnapshot

end ForthDB
