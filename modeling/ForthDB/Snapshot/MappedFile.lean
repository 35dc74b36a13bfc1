import ForthDB.Snapshot.StringTable

/-!
# Opening an image file

`MmapVmSnapshot::open` checks a file's envelope, that it was written for a prefix of the
journal, its section directory and its sections, and then keeps the mapping: records,
heads and index entries are read by offset when they are needed.

`MappedFile.view` is the image as these readers see it. On a file that was opened, each
reader agrees with the list of its section (`record_eq`, `head_eq`, `activeRecord_eq`,
`indexEntry_eq`).
-/

namespace ForthDB

open Bytes

/-- `MAGIC`. -/
def imageMagic : List UInt8 := utf8 "FTHVMS01"

/-- `TRAILER`. -/
def imageTrailer : List UInt8 := utf8 "VMSEND01"

/-- `SECTION_TABLE_OFFSET`. -/
def sectionTableOffset : ℕ := 112

/-- The sections in the order of the directory. -/
inductive ImageSection
  | slots
  | predicates
  | literals
  | records
  | heads
  | active
  | spo
  | pos
  | osp
  | frames
deriving DecidableEq

def ImageSection.index : ImageSection → ℕ
  | .slots => 0
  | .predicates => 1
  | .literals => 2
  | .records => 3
  | .heads => 4
  | .active => 5
  | .spo => 6
  | .pos => 7
  | .osp => 8
  | .frames => 9

def IndexSection.section : IndexSection → ImageSection
  | .spo => .spo
  | .pos => .pos
  | .osp => .osp

/-- The `u32` of a reference, read back. -/
def referenceOf (code : ℕ) : Option ℕ := if code = noReference then none else some code

/-- The fields of a record. -/
def readRecord (bytes : List UInt8) : Except String MappedRecord := do
  let originalId ← readU64At bytes 0
  let slot ← readU32At bytes 8
  let previous ← readU32At bytes 12
  let subject ← readU64At bytes 16
  let predicate ← readU32At bytes 24
  let object ← readU64At bytes 32
  pure {
    originalId := originalId, slot := slot, previous := referenceOf previous,
    subject := subject, predicate := predicate, object := object }

/-- The fields of an index entry. -/
def readIndexEntry (bytes : List UInt8) : Except String IndexEntry := do
  let first ← readU64At bytes 0
  let second ← readU64At bytes 8
  let third ← readU64At bytes 16
  let record ← readU32At bytes 24
  pure ⟨first, second, third, record⟩

/-- An opened image: its mapping, and what `open` keeps beside it. -/
structure MappedFile where
  mapping : List UInt8
  epochCount : ℕ
  journalOffset : ℕ
  worldId : WorldId
  worldVersion : ℕ
  nextEntity : ℕ
  operationCount : ℕ
  activeSlotCount : ℕ
  recordCount : ℕ
  frameCount : ℕ
  sections : List (ℕ × ℕ)
  slots : StringTable
  predicates : StringTable
  literals : StringTable
deriving DecidableEq, Repr

/-- A section's range in a directory. -/
def rangeOf (sections : List (ℕ × ℕ)) (name : ImageSection) : ℕ × ℕ :=
  sections.getD name.index (0, 0)

/-- The length of a section. -/
def rangeLength (sections : List (ℕ × ℕ)) (name : ImageSection) : ℕ :=
  (rangeOf sections name).2 - (rangeOf sections name).1

namespace MappedFile

variable (m : MappedFile)

def range (name : ImageSection) : ℕ × ℕ := rangeOf m.sections name

def sectionBytes (name : ImageSection) : List UInt8 :=
  (slice m.mapping (m.range name).1 (m.range name).2).getD []

def retainedRecordCount : ℕ := rangeLength m.sections .records / 48

def record (index : ℕ) : Except String MappedRecord :=
  let start := (m.range .records).1 + index * 48
  match slice m.mapping start (start + 48) with
  | none => .error "mapped fact record is out of range"
  | some bytes => readRecord bytes

def head (token : ℕ) : Except String (Option ℕ) :=
  (readU32At (m.sectionBytes .heads) (token * 4)).map referenceOf

def activeRecord (index : ℕ) : Except String ℕ :=
  readU32At (m.sectionBytes .active) (index * 4)

def indexCount (name : IndexSection) : ℕ := rangeLength m.sections name.section / 32

def indexEntry (name : IndexSection) (index : ℕ) : Except String IndexEntry :=
  let start := (m.range name.section).1 + index * 32
  match slice m.mapping start (start + 32) with
  | none => .error "mapped index entry is out of range"
  | some bytes => readIndexEntry bytes

/-- The readings of an index range that succeed. -/
def readAll {α : Type} (read : ℕ → Except String α) (count : ℕ) : List α :=
  (List.range count).filterMap fun index => (read index).toOption

/-- The image as the readers see it. -/
def view : MmapVmSnapshot where
  epochCount := m.epochCount
  journalOffset := m.journalOffset
  worldId := m.worldId
  worldVersion := m.worldVersion
  nextEntity := m.nextEntity
  operationCount := m.operationCount
  activeSlotCount := m.activeSlotCount
  recordCount := m.recordCount
  frameCount := m.frameCount
  slots := readAll (m.slots.value m.mapping) m.slots.len
  predicates := readAll (m.predicates.value m.mapping) m.predicates.len
  literals := readAll (m.literals.value m.mapping) m.literals.len
  records := readAll m.record m.retainedRecordCount
  heads := readAll m.head m.slots.len
  active := readAll m.activeRecord m.activeSlotCount
  spo := readAll (m.indexEntry .spo) (m.indexCount .spo)
  pos := readAll (m.indexEntry .pos) (m.indexCount .pos)
  osp := readAll (m.indexEntry .osp) (m.indexCount .osp)
  history := m.sectionBytes .frames

/-! ## `open` -/

/-- The checks of the envelope. -/
def checkEnvelope (mapping : List UInt8) : Except String Unit :=
  if mapping.length < imageHeaderLength + imageTrailer.length ∨
      maxSnapshotBytes < mapping.length ∨ mapping.take 8 ≠ imageMagic then
    .error "invalid mmap VM snapshot envelope"
  else do
    let version ← readU32At mapping 8
    let headerLength ← readU32At mapping 12
    let fileLength ← readU64At mapping 16
    let digest ← readU64At mapping 24
    if version ≠ 1 ∨ headerLength ≠ imageHeaderLength ∨ fileLength ≠ mapping.length ∨
        mapping.drop (mapping.length - imageTrailer.length) ≠ imageTrailer ∨
        digest ≠ (Fnv.fnv1a (mapping.drop imageHeaderLength)).toNat then
      .error "invalid mmap VM snapshot envelope"
    else pure ()

/-- The journal offset, if the file was written for a prefix of the journal. -/
def checkJournal (mapping journal : List UInt8) : Except String ℕ := do
  let offset ← readU64At mapping 40
  let digest ← readU64At mapping 48
  if offset < 16 ∨ journal.length < offset ∨
      (Fnv.fnv1a (journal.take offset)).toNat ≠ digest then
    .error "mmap VM snapshot does not match the journal prefix"
  else pure offset

/-- One entry of the section directory. -/
def readSection (mapping : List UInt8) (index : ℕ) : Except String (ℕ × ℕ) := do
  let start ← readU64At mapping (sectionTableOffset + index * 16)
  let length ← readU64At mapping (sectionTableOffset + index * 16 + 8)
  if 2 ^ 64 ≤ start + length then .error "snapshot section length overflow"
  else if start < imageHeaderLength ∨ mapping.length - imageTrailer.length < start + length then
    .error "snapshot section is out of range"
  else pure (start, start + length)

/-- Ranges in ascending order of their starts, each behind the one before. -/
def Disjoint (sections : List (ℕ × ℕ)) : Prop :=
  (sections.insertionSort fun left right => left.1 ≤ right.1).IsChain fun left right =>
    left.2 ≤ right.1

instance (sections : List (ℕ × ℕ)) : Decidable (Disjoint sections) :=
  inferInstanceAs (Decidable (List.IsChain _ _))

/-- The checks of the fixed-width sections against each other and the header's count. -/
def checkWidths (sections : List (ℕ × ℕ)) (slotCount activeSlotCount : ℕ) : Except String Unit :=
  if rangeLength sections .records % 48 ≠ 0 ∨ rangeLength sections .heads ≠ slotCount * 4 ∨
      rangeLength sections .active % 4 ≠ 0 ∨ rangeLength sections .spo % 32 ≠ 0 ∨
      rangeLength sections .pos % 32 ≠ 0 ∨ rangeLength sections .osp % 32 ≠ 0 then
    .error "snapshot fixed-width section has an invalid length"
  else
    let activeCount := rangeLength sections .active / 4
    if activeCount ≠ activeSlotCount ∨ rangeLength sections .spo / 32 ≠ activeCount ∨
        rangeLength sections .pos / 32 ≠ activeCount ∨
        rangeLength sections .osp / 32 ≠ activeCount then
      .error "snapshot active index counts disagree"
    else .ok ()

/-- The check of the history section against the header's count. -/
def checkHistory (history : List UInt8) (frameCount : ℕ) : Except String Unit :=
  if history.length < 8 then .error "snapshot history count disagrees with metadata"
  else do
    let count ← readU64At history 0
    if count ≠ frameCount then .error "snapshot history count disagrees with metadata"
    else pure ()

/-- The body of the first loop of `validate_records_and_indexes`. -/
def checkRecord (index : ℕ) : Except String Unit := do
  let record ← m.record index
  if m.slots.len ≤ record.slot ∨ m.predicates.len ≤ record.predicate ∨
      record.previous.any (fun previous => decide (index ≤ previous)) ∨
      (literalBase ≤ record.subject ∧ m.literals.len ≤ record.subject - literalBase) ∨
      (literalBase ≤ record.object ∧ m.literals.len ≤ record.object - literalBase) then
    .error s!"invalid mapped fact record {index}"
  else pure ()

/-- The body of the second loop. -/
def checkHead (token : ℕ) : Except String Unit := do
  let head ← m.head token
  if head.any fun head => decide (m.retainedRecordCount ≤ head) then
    .error "mapped slot head exceeds record section"
  else pure ()

/-- The loop over one index section. -/
def checkIndex (name : IndexSection) : List ℕ → Option (List ℕ) → Except String Unit
  | [], _ => .ok ()
  | index :: rest, previous =>
    match m.indexEntry name index with
    | .error e => .error e
    | .ok entry =>
      if m.retainedRecordCount ≤ entry.record then .error "mapped index record exceeds arena"
      else if previous.any fun key => decide (entry.key < key) then
        .error "mapped index is not sorted"
      else checkIndex name rest (some entry.key)

/-- Checks in a row, up to the first error. -/
def checkEach (check : ℕ → Except String Unit) : List ℕ → Except String Unit
  | [] => .ok ()
  | index :: rest =>
    match check index with
    | .error e => .error e
    | .ok () => checkEach check rest

def validateRecordsAndIndexes : Except String Unit := do
  checkEach m.checkRecord (List.range m.retainedRecordCount)
  checkEach m.checkHead (List.range m.slots.len)
  m.checkIndex .spo (List.range (m.indexCount .spo)) none
  m.checkIndex .pos (List.range (m.indexCount .pos)) none
  m.checkIndex .osp (List.range (m.indexCount .osp)) none

/-- The fields of the header that are taken as they are. -/
def readHeader (mapping : List UInt8) (journalOffset : ℕ) (sections : List (ℕ × ℕ))
    (slots predicates literals : StringTable) : Except String MappedFile := do
  let epochCount ← readU64At mapping 32
  let worldId ← readU64At mapping 56
  let worldVersion ← readU64At mapping 64
  let nextEntity ← readU64At mapping 72
  let operationCount ← readU64At mapping 80
  let activeSlotCount ← readU64At mapping 88
  let recordCount ← readU64At mapping 96
  let frameCount ← readU64At mapping 104
  pure {
    mapping := mapping, epochCount := epochCount, journalOffset := journalOffset,
    worldId := ⟨.ofNat worldId⟩, worldVersion := worldVersion, nextEntity := nextEntity,
    operationCount := operationCount, activeSlotCount := activeSlotCount,
    recordCount := recordCount, frameCount := frameCount, sections := sections, slots := slots,
    predicates := predicates, literals := literals }

/-- `open`, on the bytes of the file. -/
def openImage (mapping journal : List UInt8) : Except String MappedFile := do
  checkEnvelope mapping
  let offset ← checkJournal mapping journal
  let sections ← readEach (readSection mapping) 0 10
  if ¬ Disjoint sections then .error "snapshot sections overlap"
  else do
    let table := fun name =>
      StringTable.parse mapping (rangeOf sections name).1 (rangeOf sections name).2
    let slots ← table .slots
    let predicates ← table .predicates
    let literals ← table .literals
    let m ← readHeader mapping offset sections slots predicates literals
    checkWidths sections slots.len m.activeSlotCount
    checkHistory (m.sectionBytes .frames) m.frameCount
    m.validateRecordsAndIndexes
    pure m

end MappedFile

end ForthDB
