import ForthDB.Snapshot.MappedFile
import ForthDB.Snapshot.Query

/-!
# Reopening a written image

`create` lays an image out as bytes and `open` checks them again. For an image whose parts
refer to each other as they should (`Sound`), every check passes on the written bytes and
the readers see the image that was written: `open_toFile` and `view_mapped`.
-/

namespace ForthDB

open Bytes

/-! ## The layout -/

/-- Where a section begins, and how long it is. -/
theorem layoutSections_get {sections : List (List UInt8)} {k : ℕ} {bytes : List UInt8}
    (h : sections[k]? = some bytes) {offset : ℕ} {front : List UInt8} (hf : front.length = offset) :
    ∃ start, (layoutSections offset sections).1[k]? = some (start, bytes.length) ∧
      offset ≤ start ∧ At (front ++ (layoutSections offset sections).2) start bytes := by
  induction sections generalizing k offset front with
  | nil => simp at h
  | cons first rest ih =>
    have hgap : (front ++ List.replicate ((8 - offset % 8) % 8) (0 : UInt8)).length =
        offset + (8 - offset % 8) % 8 := by simp [hf]
    cases k with
    | zero =>
      obtain rfl : first = bytes := by simpa using h
      refine ⟨offset + (8 - offset % 8) % 8, rfl, Nat.le_add_right _ _, ?_⟩
      exact ⟨front ++ List.replicate ((8 - offset % 8) % 8) 0,
        (layoutSections (offset + (8 - offset % 8) % 8 + first.length) rest).2,
        by simp [layoutSections], hgap⟩
    | succ k =>
      have hfront : (front ++ (List.replicate ((8 - offset % 8) % 8) (0 : UInt8) ++ first)).length =
          offset + (8 - offset % 8) % 8 + first.length := by
        simp [hf, Nat.add_assoc]
      obtain ⟨start, hget, hle, hat⟩ := ih (k := k) (by simpa using h) hfront
      refine ⟨start, by simpa [layoutSections] using hget, by omega, ?_⟩
      simpa [layoutSections] using hat

theorem length_layoutSections (offset : ℕ) (sections : List (List UInt8)) :
    (layoutSections offset sections).1.length = sections.length := by
  induction sections generalizing offset with
  | nil => rfl
  | cons first rest ih => simp [layoutSections, ih]

/-- Sections begin at or behind the offset, each behind the end of the one before. -/
theorem layoutSections_ordered (offset : ℕ) (sections : List (List UInt8)) :
    (∀ r ∈ (layoutSections offset sections).1, offset ≤ r.1) ∧
      (layoutSections offset sections).1.Pairwise fun left right => left.1 + left.2 ≤ right.1 := by
  induction sections generalizing offset with
  | nil => simp [layoutSections]
  | cons first rest ih =>
    obtain ⟨hle, hpairs⟩ := ih (offset + (8 - offset % 8) % 8 + first.length)
    constructor
    · intro r hr
      rcases List.mem_cons.1 hr with rfl | hr
      · exact Nat.le_add_right _ _
      · have := hle r hr
        omega
    · exact List.pairwise_cons.2 ⟨fun r hr => hle r hr, hpairs⟩

namespace MmapVmSnapshot

variable (s : MmapVmSnapshot) (journal : List UInt8)

/-! ## The header -/

theorem length_imageMagic : imageMagic.length = 8 := by decide +kernel

theorem length_imageTrailer : imageTrailer.length = 8 := by decide +kernel

/-- The directory of the sections. -/
def directory : List (ℕ × ℕ) := (layoutSections imageHeaderLength s.sections).1

theorem length_directory : s.directory.length = 10 := length_layoutSections _ _

/-- The directory's bytes. -/
def directoryBytes : List UInt8 := s.directory.flatMap fun range => le 8 range.1 ++ le 8 range.2

theorem length_directoryBytes : s.directoryBytes.length = 160 := by
  unfold directoryBytes
  rw [length_flatMap_const (n := 16) (fun _ => by simp), length_directory]

theorem length_header : (s.header journal).length = imageHeaderLength := by
  have hmagic := length_imageMagic
  have hdirectory := s.length_directoryBytes
  unfold imageMagic at hmagic
  unfold directoryBytes directory at hdirectory
  unfold header
  simp only [List.length_append, length_le, hmagic, hdirectory, List.length_replicate]
  rfl

theorem length_body : s.body.length = (layoutSections imageHeaderLength s.sections).2.length + 8 := by
  unfold body
  rw [List.length_append]
  exact congrArg _ length_imageTrailer

theorem length_toFile : (s.toFile journal).length = imageHeaderLength + s.body.length := by
  unfold toFile
  rw [List.length_append, length_header]

/-- What stands in the header, field by field. -/
theorem header_fields :
    At (s.toFile journal) 0 imageMagic ∧ At (s.toFile journal) 8 (le 4 1) ∧
      At (s.toFile journal) 12 (le 4 imageHeaderLength) ∧
      At (s.toFile journal) 16 (le 8 (s.toFile journal).length) ∧
      At (s.toFile journal) 24 (le 8 (Fnv.fnv1a s.body).toNat) ∧
      At (s.toFile journal) 32 (le 8 s.epochCount) ∧
      At (s.toFile journal) 40 (le 8 s.journalOffset) ∧
      At (s.toFile journal) 48 (le 8 (Fnv.fnv1a journal).toNat) ∧
      At (s.toFile journal) 56 (le 8 s.worldId.value.toNat) ∧
      At (s.toFile journal) 64 (le 8 s.worldVersion) ∧
      At (s.toFile journal) 72 (le 8 s.nextEntity) ∧
      At (s.toFile journal) 80 (le 8 s.operationCount) ∧
      At (s.toFile journal) 88 (le 8 s.activeSlotCount) ∧
      At (s.toFile journal) 96 (le 8 s.recordCount) ∧
      At (s.toFile journal) 104 (le 8 s.frameCount) ∧
      At (s.toFile journal) 112 s.directoryBytes := by
  have h0 : At (s.toFile journal) 0 (s.header journal) := (At.refl (s.toFile journal)).left
  rw [length_toFile]
  have h8 := h0.right
  rw [show (utf8 "FTHVMS01").length = 8 from length_imageMagic] at h8
  have h12 := h8.next
  have h16 := h12.next
  have h24 := h16.next
  have h32 := h24.next
  have h40 := h32.next
  have h48 := h40.next
  have h56 := h48.next
  have h64 := h56.next
  have h72 := h64.next
  have h80 := h72.next
  have h88 := h80.next
  have h96 := h88.next
  have h104 := h96.next
  have h112 := h104.next
  exact ⟨h0.left, h8.left, h12.left, h16.left, h24.left, h32.left, h40.left, h48.left, h56.left,
    h64.left, h72.left, h80.left, h88.left, h96.left, h104.left, h112.left⟩

/-- Where a section stands in the file. -/
theorem section_at {k : ℕ} {bytes : List UInt8} (h : s.sections[k]? = some bytes) :
    ∃ start, s.directory[k]? = some (start, bytes.length) ∧ imageHeaderLength ≤ start ∧
      start + bytes.length ≤ (s.toFile journal).length - 8 ∧ At (s.toFile journal) start bytes := by
  obtain ⟨start, hget, hle, hat⟩ := layoutSections_get h (s.length_header journal)
  have hfile : s.toFile journal =
      (s.header journal ++ (layoutSections imageHeaderLength s.sections).2) ++ imageTrailer := by
    unfold toFile body
    rw [List.append_assoc]
    rfl
  refine ⟨start, hget, hle, ?_, ?_⟩
  · have hlen := hat.length_le
    rw [List.length_append, length_header] at hlen
    rw [length_toFile, length_body]
    omega
  · have h0 : At (s.toFile journal) 0
        (s.header journal ++ (layoutSections imageHeaderLength s.sections).2) := by
      have hself := At.refl (s.toFile journal)
      rw [hfile] at hself ⊢
      exact hself.left
    have htrans := h0.trans hat
    rwa [Nat.zero_add] at htrans

/-! ## Sections by name -/

/-- The bytes of a section. -/
def sectionOf (name : ImageSection) : List UInt8 := s.sections.getD name.index []

/-- Where a section begins. -/
def startOf (name : ImageSection) : ℕ := (s.directory.getD name.index (0, 0)).1

/-- The ranges of the sections. -/
def ranges : List (ℕ × ℕ) := s.directory.map fun range => (range.1, range.1 + range.2)

theorem index_lt (name : ImageSection) : name.index < 10 := by cases name <;> decide

/-- **A section by name**: its range, and its bytes in the file. -/
theorem named_section (name : ImageSection) :
    rangeOf s.ranges name = (s.startOf name, s.startOf name + (s.sectionOf name).length) ∧
      At (s.toFile journal) (s.startOf name) (s.sectionOf name) := by
  have hlt : name.index < s.sections.length := index_lt name
  have hget : s.sections[name.index]? = some (s.sectionOf name) := by
    rw [sectionOf, List.getD_eq_getElem?_getD, List.getElem?_eq_getElem hlt]
    rfl
  obtain ⟨start, hstart, -, -, hat⟩ := s.section_at journal hget
  have hs : s.startOf name = start := by
    rw [startOf, List.getD_eq_getElem?_getD, hstart]
    rfl
  rw [hs]
  refine ⟨?_, hat⟩
  rw [rangeOf, ranges, List.getD_eq_getElem?_getD, List.getElem?_map, hstart]
  rfl

theorem rangeLength_ranges (name : ImageSection) :
    rangeLength s.ranges name = (s.sectionOf name).length := by
  rw [rangeLength, (s.named_section [] name).1]
  exact Nat.add_sub_cancel_left _ _

theorem sectionOf_mem (name : ImageSection) : s.sectionOf name ∈ s.sections := by
  have hlt : name.index < s.sections.length := index_lt name
  rw [sectionOf, List.getD_eq_getElem?_getD, List.getElem?_eq_getElem hlt]
  exact List.getElem_mem hlt

/-- An image whose parts refer to each other as they should. -/
structure Formed (s : MmapVmSnapshot) (journal : List UInt8) : Prop where
  names : s.NamesSorted
  size : (s.toFile journal).length ≤ maxSnapshotBytes
  heads_length : s.heads.length = s.slots.length
  record : ∀ (i : ℕ) (r : MappedRecord), s.records[i]? = some r → r.originalId < 2 ^ 64 ∧
    r.slot < s.slots.length ∧ r.predicate < s.predicates.length ∧
    (∀ p, r.previous = some p → p < i) ∧ r.subject < literalBase + s.literals.length ∧
    r.object < literalBase + s.literals.length
  head : ∀ t i : ℕ, s.heads[t]? = some (some i) → i < s.records.length
  active : ∀ i ∈ s.active, i < s.records.length
  index_length : ∀ name, (s.indexEntries name).length = s.active.length
  index : ∀ name, ∀ e ∈ s.indexEntries name, e.record < s.records.length ∧ e.first < 2 ^ 64 ∧
    e.second < 2 ^ 64 ∧ e.third < 2 ^ 64
  index_sorted : ∀ name, (s.indexEntries name).Pairwise fun e e' => e.key ≤ e'.key
  history : ∃ rest, s.history = le 8 s.frameCount ++ rest
  header : s.epochCount < 2 ^ 64 ∧ s.worldVersion < 2 ^ 64 ∧ s.nextEntity < 2 ^ 64 ∧
    s.operationCount < 2 ^ 64 ∧ s.activeSlotCount < 2 ^ 64 ∧ s.recordCount < 2 ^ 64 ∧
    s.frameCount < 2 ^ 64
  offset : s.journalOffset = journal.length ∧ journal.length < 2 ^ 64

/-- A formed image that counts its active records, for a journal with a header. -/
structure Sound (s : MmapVmSnapshot) (journal : List UInt8) : Prop
    extends s.Formed journal where
  active_length : s.activeSlotCount = s.active.length
  journal_header : 16 ≤ journal.length

/-- The file of an image, opened. -/
def mapped : MappedFile where
  mapping := s.toFile journal
  epochCount := s.epochCount
  journalOffset := s.journalOffset
  worldId := s.worldId
  worldVersion := s.worldVersion
  nextEntity := s.nextEntity
  operationCount := s.operationCount
  activeSlotCount := s.activeSlotCount
  recordCount := s.recordCount
  frameCount := s.frameCount
  sections := s.ranges
  slots := .tableAt (s.startOf .slots) s.slots
  predicates := .tableAt (s.startOf .predicates) s.predicates
  literals := .tableAt (s.startOf .literals) s.literals

end MmapVmSnapshot

/-! ## Reading back what was written -/

theorem readU64At_of_at {file : List UInt8} {i n : ℕ} (h : At file i (le 8 n)) (hn : n < 2 ^ 64) :
    readU64At file i = .ok n := by
  unfold readU64At
  rw [h.number hn]

theorem readU32At_of_at {file : List UInt8} {i n : ℕ} (h : At file i (le 4 n)) (hn : n < 2 ^ 32) :
    readU32At file i = .ok n := by
  unfold readU32At
  rw [h.number hn]

theorem referenceCode_lt {reference : Option ℕ} (h : ∀ i, reference = some i → i < noReference) :
    referenceCode reference < 2 ^ 32 := by
  cases reference with
  | none => decide
  | some i => exact lt_trans (h i rfl) (by decide)

theorem referenceOf_referenceCode {reference : Option ℕ}
    (h : ∀ i, reference = some i → i < noReference) : referenceOf (referenceCode reference) = reference := by
  cases reference with
  | none => rfl
  | some i =>
    have hne : i ≠ noReference := ne_of_lt (h i rfl)
    exact if_neg hne

/-- A record is read back. -/
theorem readRecord_toBytes {r : MappedRecord} (hid : r.originalId < 2 ^ 64) (hslot : r.slot < 2 ^ 32)
    (hprevious : ∀ p, r.previous = some p → p < noReference) (hsubject : r.subject < 2 ^ 64)
    (hpredicate : r.predicate < 2 ^ 32) (hobject : r.object < 2 ^ 64) :
    readRecord r.toBytes = .ok r := by
  have h0 : At r.toBytes 0 r.toBytes := At.refl _
  have h8 := h0.next
  have h12 := h8.next
  have h16 := h12.next
  have h24 := h16.next
  have h28 := h24.next
  have h32 := h28.next
  unfold readRecord
  rw [readU64At_of_at h0.left hid, readU32At_of_at h8.left hslot,
    readU32At_of_at h12.left (referenceCode_lt hprevious), readU64At_of_at h16.left hsubject,
    readU32At_of_at h24.left hpredicate, readU64At_of_at h32.left hobject]
  simp only [bind, Except.bind, pure, Except.pure, referenceOf_referenceCode hprevious]

/-- An index entry is read back. -/
theorem readIndexEntry_toBytes {e : IndexEntry} (hfirst : e.first < 2 ^ 64)
    (hsecond : e.second < 2 ^ 64) (hthird : e.third < 2 ^ 64) (hrecord : e.record < 2 ^ 32) :
    readIndexEntry e.toBytes = .ok e := by
  have h0 : At e.toBytes 0 e.toBytes := At.refl _
  have h8 := h0.next
  have h16 := h8.next
  have h24 := h16.next
  unfold readIndexEntry
  rw [readU64At_of_at h0.left hfirst, readU64At_of_at h8.left hsecond,
    readU64At_of_at h16.left hthird, readU32At_of_at h24.left hrecord]
  rfl

theorem MappedFile.readAll_eq {α : Type} {read : ℕ → Except String α} {as : List α}
    (h : ∀ (i : ℕ) (a : α), as[i]? = some a → read i = .ok a) :
    MappedFile.readAll read as.length = as := by
  have hread : ∀ i ∈ List.range as.length, (read i).toOption = as[i]? := by
    intro i hi
    have hlt := List.mem_range.1 hi
    rw [List.getElem?_eq_getElem hlt, h i _ (List.getElem?_eq_getElem hlt)]
    rfl
  unfold MappedFile.readAll
  rw [List.filterMap_congr hread, SortedTable.filterMap_range]

namespace MmapVmSnapshot

variable {s : MmapVmSnapshot} {journal : List UInt8}

/-- Every section is small. -/
theorem Formed.section_le (h : s.Formed journal) (name : ImageSection) :
    (s.sectionOf name).length ≤ 2 ^ 29 :=
  (length_section_le (s.sectionOf_mem name) journal).trans (h.size.trans (by decide))

theorem Formed.table_lt (h : s.Formed journal) (name : ImageSection) {values : List String}
    (hs : s.sectionOf name = encodeStringTable values) :
    values.length < 2 ^ 32 ∧ StringTable.bytesOf values < 2 ^ 64 := by
  have hle := h.section_le name
  rw [hs, StringTable.length_table] at hle
  omega

theorem Formed.records_lt (h : s.Formed journal) : s.records.length < noReference := by
  have hle : (s.records.flatMap MappedRecord.toBytes).length ≤ 2 ^ 29 := h.section_le .records
  rw [length_flatMap_const MappedRecord.length_toBytes] at hle
  unfold noReference
  omega

/-! ## The readers of the written file -/

theorem Formed.slots_holds (h : s.Formed journal) :
    (s.mapped journal).slots.Holds (s.mapped journal).mapping s.slots :=
  StringTable.tableAt_holds (s.named_section journal .slots).2 h.names.slots
    (h.table_lt .slots rfl).1

theorem Formed.predicates_holds (h : s.Formed journal) :
    (s.mapped journal).predicates.Holds (s.mapped journal).mapping s.predicates :=
  StringTable.tableAt_holds (s.named_section journal .predicates).2 h.names.predicates
    (h.table_lt .predicates rfl).1

theorem Formed.literals_holds (h : s.Formed journal) :
    (s.mapped journal).literals.Holds (s.mapped journal).mapping s.literals :=
  StringTable.tableAt_holds (s.named_section journal .literals).2 h.names.literals
    (h.table_lt .literals rfl).1

theorem sectionBytes_mapped (name : ImageSection) :
    (s.mapped journal).sectionBytes name = s.sectionOf name := by
  obtain ⟨hrange, hat⟩ := s.named_section journal name
  unfold MappedFile.sectionBytes MappedFile.range
  rw [show (s.mapped journal).sections = s.ranges from rfl, hrange,
    show (s.mapped journal).mapping = s.toFile journal from rfl, hat.slice rfl]
  rfl

theorem retainedRecordCount_mapped : (s.mapped journal).retainedRecordCount = s.records.length := by
  unfold MappedFile.retainedRecordCount
  rw [show (s.mapped journal).sections = s.ranges from rfl, rangeLength_ranges,
    show s.sectionOf .records = s.records.flatMap MappedRecord.toBytes from rfl,
    length_flatMap_const MappedRecord.length_toBytes]
  omega

/-- The section of an index. -/
theorem sectionOf_index (name : IndexSection) :
    s.sectionOf name.section = (s.indexEntries name).flatMap IndexEntry.toBytes := by
  cases name <;> rfl

theorem indexCount_mapped (name : IndexSection) :
    (s.mapped journal).indexCount name = (s.indexEntries name).length := by
  unfold MappedFile.indexCount
  rw [show (s.mapped journal).sections = s.ranges from rfl, rangeLength_ranges, sectionOf_index,
    length_flatMap_const IndexEntry.length_toBytes]
  omega

theorem range_mapped (name : ImageSection) :
    ((s.mapped journal).range name).1 = s.startOf name := by
  unfold MappedFile.range
  rw [show (s.mapped journal).sections = s.ranges from rfl, (s.named_section journal name).1]

/-- **A record is read** from its place in the mapping. -/
theorem Formed.record_eq (h : s.Formed journal) {i : ℕ} {r : MappedRecord}
    (hr : s.records[i]? = some r) : (s.mapped journal).record i = .ok r := by
  have hat := (s.named_section journal .records).2.nth MappedRecord.length_toBytes hr
  obtain ⟨hid, hslot, hpredicate, hprevious, hsubject, hobject⟩ := h.record i r hr
  have hslots := (h.table_lt .slots rfl).1
  have hpredicates := (h.table_lt .predicates rfl).1
  have hliterals := (h.table_lt .literals rfl).1
  have hrecords := h.records_lt
  have hi := (List.getElem?_eq_some_iff.1 hr).1
  have hbase : literalBase = 2 ^ 63 := rfl
  unfold MappedFile.record
  rw [range_mapped]
  simp only
  rw [show (s.mapped journal).mapping = s.toFile journal from rfl,
    hat.slice (by rw [MappedRecord.length_toBytes])]
  apply readRecord_toBytes hid (by omega) _ (by omega) (by omega) (by omega)
  intro p hp
  have := hprevious p hp
  omega

/-- **An index entry is read** from its place in the mapping. -/
theorem Formed.indexEntry_eq (h : s.Formed journal) (name : IndexSection) {i : ℕ} {e : IndexEntry}
    (he : (s.indexEntries name)[i]? = some e) : (s.mapped journal).indexEntry name i = .ok e := by
  have hat := (s.named_section journal name.section).2
  rw [sectionOf_index] at hat
  have hentry := hat.nth IndexEntry.length_toBytes he
  obtain ⟨hrecord, hfirst, hsecond, hthird⟩ := h.index name e (List.mem_of_getElem? he)
  have hrecords := h.records_lt
  have hcode : noReference < 2 ^ 32 := by decide
  unfold MappedFile.indexEntry
  rw [range_mapped]
  simp only
  rw [show (s.mapped journal).mapping = s.toFile journal from rfl,
    hentry.slice (by rw [IndexEntry.length_toBytes])]
  exact readIndexEntry_toBytes hfirst hsecond hthird (by omega)

theorem Formed.head_eq (h : s.Formed journal) {t : ℕ} {head : Option ℕ}
    (ht : s.heads[t]? = some head) : (s.mapped journal).head t = .ok head := by
  have hlt : ∀ i, head = some i → i < noReference := by
    intro i hi
    subst hi
    exact lt_trans (h.head t i ht) h.records_lt
  have hself : At (s.sectionOf .heads) 0 ((s.heads.map referenceCode).flatMap (le 4)) := At.refl _
  have hcode : (s.heads.map referenceCode)[t]? = some (referenceCode head) := by
    rw [List.getElem?_map, ht]
    rfl
  have hat := hself.nth (fun _ => length_le 4 _) hcode
  unfold MappedFile.head
  rw [sectionBytes_mapped, ← Nat.zero_add (t * 4), readU32At_of_at hat (referenceCode_lt hlt)]
  exact congrArg Except.ok (referenceOf_referenceCode hlt)

theorem Formed.activeRecord_eq (h : s.Formed journal) {k i : ℕ} (hk : s.active[k]? = some i) :
    (s.mapped journal).activeRecord k = .ok i := by
  have hself : At (s.sectionOf .active) 0 (s.active.flatMap (le 4)) := At.refl _
  have hat := hself.nth (fun _ => length_le 4 _) hk
  have hlt := h.active i (List.mem_of_getElem? hk)
  have hrecords := h.records_lt
  have hcode : noReference < 2 ^ 32 := by decide
  unfold MappedFile.activeRecord
  rw [sectionBytes_mapped, ← Nat.zero_add (k * 4)]
  exact readU32At_of_at hat (by omega)

theorem values_eq {t : StringTable} {mapping : List UInt8} {values : List String}
    (h : t.Holds mapping values) : MappedFile.readAll (t.value mapping) t.len = values := by
  rw [h.len]
  exact MappedFile.readAll_eq fun i v hv => (h.value i v).2 hv

/-- **The readers see the image that was written.** -/
theorem Sound.view_mapped (h : s.Sound journal) : (s.mapped journal).view = s := by
  have hheads : MappedFile.readAll (s.mapped journal).head (s.mapped journal).slots.len = s.heads := by
    rw [h.slots_holds.len, ← h.heads_length]
    exact MappedFile.readAll_eq fun t head ht => h.head_eq ht
  have hactive : MappedFile.readAll (s.mapped journal).activeRecord s.activeSlotCount = s.active := by
    rw [h.active_length]
    exact MappedFile.readAll_eq fun k i hk => h.activeRecord_eq hk
  have hrecords : MappedFile.readAll (s.mapped journal).record
      (s.mapped journal).retainedRecordCount = s.records := by
    rw [retainedRecordCount_mapped]
    exact MappedFile.readAll_eq fun i r hr => h.record_eq hr
  have hindex : ∀ name, MappedFile.readAll ((s.mapped journal).indexEntry name)
      ((s.mapped journal).indexCount name) = s.indexEntries name := by
    intro name
    rw [indexCount_mapped]
    exact MappedFile.readAll_eq fun i e he => h.indexEntry_eq name he
  unfold MappedFile.view
  rw [values_eq h.slots_holds, values_eq h.predicates_holds, values_eq h.literals_holds, hrecords,
    hheads, hindex, hindex, hindex, sectionBytes_mapped,
    show (s.mapped journal).activeSlotCount = s.activeSlotCount from rfl, hactive]
  rfl

/-! ## The checks of `open` -/

theorem take_of_at {file bytes : List UInt8} (h : At file 0 bytes) :
    file.take bytes.length = bytes := by
  obtain ⟨front, rest, hfile, hfront⟩ := h
  obtain rfl := List.length_eq_zero_iff.1 hfront
  rw [hfile, List.nil_append, List.take_left' rfl]

theorem Formed.checkEnvelope_ok (h : s.Formed journal) :
    MappedFile.checkEnvelope (s.toFile journal) = .ok () := by
  obtain ⟨hmagic, hversion, hheader, hlength, hdigest, -⟩ := s.header_fields journal
  have hlen := s.length_toFile journal
  have hbody := s.length_body
  have hsize := h.size
  have hmax : maxSnapshotBytes < 2 ^ 64 := by decide
  have htrailer : (s.toFile journal).drop ((s.toFile journal).length - imageTrailer.length) =
      imageTrailer := by
    have hfile : s.toFile journal =
        (s.header journal ++ (layoutSections imageHeaderLength s.sections).2) ++ imageTrailer := by
      unfold toFile body
      rw [List.append_assoc]
      rfl
    rw [hfile]
    apply List.drop_left'
    simp only [List.length_append]
    omega
  have hdrop : (s.toFile journal).drop imageHeaderLength = s.body :=
    List.drop_left' (s.length_header journal)
  have htake : (s.toFile journal).take 8 = imageMagic := take_of_at hmagic
  unfold MappedFile.checkEnvelope
  rw [if_neg (by
    rw [length_imageTrailer, htake]
    simp only [ne_eq, not_true_eq_false, or_false, not_or, not_lt]
    exact ⟨by omega, hsize⟩)]
  rw [readU32At_of_at hversion (by decide), readU32At_of_at hheader (by decide),
    readU64At_of_at hlength (by omega), readU64At_of_at hdigest (UInt64.toNat_lt _)]
  simp only [bind, Except.bind]
  rw [if_neg (by rw [htrailer, hdrop]; simp)]
  rfl

theorem Sound.checkJournal_ok (h : s.Sound journal) {current : List UInt8}
    (hlonger : journal <+: current) :
    MappedFile.checkJournal (s.toFile journal) current = .ok s.journalOffset := by
  obtain ⟨-, -, -, -, -, -, hoffset, hdigest, -⟩ := s.header_fields journal
  obtain ⟨hjournal, hmax⟩ := h.offset
  have hmin := h.journal_header
  have htake : current.take s.journalOffset = journal := by
    obtain ⟨rest, rfl⟩ := hlonger
    rw [hjournal, List.take_left' rfl]
  have hle := hlonger.length_le
  unfold MappedFile.checkJournal
  rw [readU64At_of_at hoffset (by omega), readU64At_of_at hdigest (UInt64.toNat_lt _)]
  simp only [bind, Except.bind]
  rw [if_neg (by rw [htake, hjournal]; simp; omega)]
  rfl

theorem Formed.readSections_ok (h : s.Formed journal) :
    readEach (MappedFile.readSection (s.toFile journal)) 0 10 = .ok s.ranges := by
  obtain ⟨-, -, -, -, -, -, -, -, -, -, -, -, -, -, -, hdirectory⟩ := s.header_fields journal
  have hlen : s.ranges.length = 10 := by rw [ranges, List.length_map, length_directory]
  rw [← hlen]
  apply readEach_of_get
  intro k range hk
  rw [ranges, List.getElem?_map] at hk
  obtain ⟨entry, hentry, rfl⟩ := Option.map_eq_some_iff.1 hk
  have hk10 : k < s.sections.length := by
    have hlt := (List.getElem?_eq_some_iff.1 hentry).1
    rwa [length_directory] at hlt
  obtain ⟨start, hstart, hfirst, hend, -⟩ :=
    s.section_at journal (List.getElem?_eq_getElem hk10)
  rw [hentry, Option.some.injEq] at hstart
  subst hstart
  have hat := hdirectory.nth (k := 16) (fun _ => by simp) hentry
  have hsize := h.size
  have hmax : maxSnapshotBytes < 2 ^ 64 := by decide
  unfold MappedFile.readSection sectionTableOffset
  rw [Nat.zero_add, readU64At_of_at hat.left (by simp only at *; omega),
    readU64At_of_at hat.next (by simp only at *; omega)]
  simp only [bind, Except.bind] at *
  rw [if_neg (by omega), if_neg (by rw [length_imageTrailer]; omega)]
  rfl

theorem disjoint_ranges (s : MmapVmSnapshot) : MappedFile.Disjoint s.ranges := by
  have hpairs := (layoutSections_ordered imageHeaderLength s.sections).2
  have hranges : s.ranges.Pairwise fun left right => left.2 ≤ right.1 := by
    unfold ranges directory
    rw [List.pairwise_map]
    exact hpairs
  have hsorted : s.ranges.Pairwise fun left right => left.1 ≤ right.1 := by
    unfold ranges directory
    rw [List.pairwise_map]
    exact hpairs.imp fun hle => by omega
  unfold MappedFile.Disjoint
  rw [List.Pairwise.insertionSort_eq hsorted]
  exact hranges.isChain

theorem Formed.readHeader_ok (h : s.Formed journal) :
    MappedFile.readHeader (s.toFile journal) s.journalOffset s.ranges
      (.tableAt (s.startOf .slots) s.slots) (.tableAt (s.startOf .predicates) s.predicates)
      (.tableAt (s.startOf .literals) s.literals) = .ok (s.mapped journal) := by
  obtain ⟨-, -, -, -, -, hepoch, -, -, hid, hversion, hnext, hoperations, hactive, hrecords, hframes,
    -⟩ := s.header_fields journal
  obtain ⟨h1, h2, h3, h4, h5, h6, h7⟩ := h.header
  unfold MappedFile.readHeader
  rw [readU64At_of_at hepoch h1, readU64At_of_at hid (UInt64.toNat_lt _),
    readU64At_of_at hversion h2, readU64At_of_at hnext h3, readU64At_of_at hoperations h4,
    readU64At_of_at hactive h5, readU64At_of_at hrecords h6, readU64At_of_at hframes h7]
  simp only [bind, Except.bind, pure, Except.pure, UInt64.ofNat_toNat]
  rfl

theorem Sound.checkWidths_ok (h : s.Sound journal) :
    MappedFile.checkWidths s.ranges s.slots.length s.activeSlotCount = .ok () := by
  have hrecords : rangeLength s.ranges .records = 48 * s.records.length := by
    rw [rangeLength_ranges]
    exact length_flatMap_const MappedRecord.length_toBytes _
  have hheads : rangeLength s.ranges .heads = 4 * s.slots.length := by
    have hlen := length_flatMap_const (fun code => length_le 4 code) (s.heads.map referenceCode)
    rw [List.length_map, h.heads_length] at hlen
    rw [rangeLength_ranges]
    exact hlen
  have hactive : rangeLength s.ranges .active = 4 * s.active.length := by
    rw [rangeLength_ranges]
    exact length_flatMap_const (fun _ => length_le 4 _) _
  have hindex : ∀ name : IndexSection, rangeLength s.ranges name.section = 32 * s.active.length := by
    intro name
    rw [rangeLength_ranges, sectionOf_index, ← h.index_length name]
    exact length_flatMap_const IndexEntry.length_toBytes _
  have hspo := hindex .spo
  have hpos := hindex .pos
  have hosp := hindex .osp
  have hcount := h.active_length
  simp only [IndexSection.section] at hspo hpos hosp
  unfold MappedFile.checkWidths
  rw [if_neg (by omega)]
  simp only
  rw [if_neg (by omega)]

theorem Formed.checkHistory_ok (h : s.Formed journal) :
    MappedFile.checkHistory ((s.mapped journal).sectionBytes .frames) s.frameCount = .ok () := by
  obtain ⟨rest, hrest⟩ := h.history
  obtain ⟨-, -, -, -, -, -, hframes⟩ := h.header
  have hbytes : (s.mapped journal).sectionBytes .frames = le 8 s.frameCount ++ rest := by
    rw [sectionBytes_mapped]
    exact hrest
  have hself := At.refl (le 8 s.frameCount ++ rest)
  unfold MappedFile.checkHistory
  rw [hbytes, if_neg (by simp), readU64At_of_at hself.left hframes]
  simp only [bind, Except.bind]
  rw [if_neg (by simp)]
  rfl

theorem checkEach_ok {check : ℕ → Except String Unit} {indexes : List ℕ}
    (h : ∀ i ∈ indexes, check i = .ok ()) : MappedFile.checkEach check indexes = .ok () := by
  induction indexes with
  | nil => rfl
  | cons index indexes ih =>
    unfold MappedFile.checkEach
    rw [h index (by simp)]
    exact ih fun i hi => h i (by simp [hi])

theorem Formed.checkRecord_ok (h : s.Formed journal) {i : ℕ} (hi : i < s.records.length) :
    (s.mapped journal).checkRecord i = .ok () := by
  have hget := List.getElem?_eq_getElem hi
  obtain ⟨-, hslot, hpredicate, hprevious, hsubject, hobject⟩ := h.record i _ hget
  have hnone : ¬ (s.records[i].previous.any fun previous => decide (i ≤ previous)) = true := by
    cases hp : s.records[i].previous with
    | none => simp
    | some p =>
      have hlt := hprevious p hp
      simpa using hlt
  unfold MappedFile.checkRecord
  rw [h.record_eq hget, h.slots_holds.len, h.predicates_holds.len, h.literals_holds.len]
  simp only [bind, Except.bind]
  rw [if_neg (by
    simp only [not_or, not_and, not_le]
    exact ⟨hslot, hpredicate, hnone, fun _ => by omega, fun _ => by omega⟩)]
  rfl

theorem Formed.checkHead_ok (h : s.Formed journal) {t : ℕ} (ht : t < s.heads.length) :
    (s.mapped journal).checkHead t = .ok () := by
  have hget := List.getElem?_eq_getElem ht
  have hnone : ¬ (s.heads[t].any fun head => decide (s.records.length ≤ head)) = true := by
    cases hh : s.heads[t] with
    | none => simp
    | some i =>
      have hlt := h.head t i (by rw [hget, hh])
      simpa using hlt
  unfold MappedFile.checkHead
  rw [h.head_eq hget, retainedRecordCount_mapped]
  simp only [bind, Except.bind]
  rw [if_neg hnone]
  rfl

/-- A run of the loop over an index section, from the entry `k` on. -/
theorem Formed.checkIndex_ok (h : s.Formed journal) (name : IndexSection) {k n : ℕ}
    {previous : Option (List ℕ)} (hn : k + n = (s.indexEntries name).length)
    (hprevious : ∀ key e, previous = some key → e ∈ (s.indexEntries name).drop k → key ≤ e.key) :
    (s.mapped journal).checkIndex name (List.range' k n) previous = .ok () := by
  induction n generalizing k previous with
  | zero => rfl
  | succ n ih =>
    have hk : k < (s.indexEntries name).length := by omega
    have hget := List.getElem?_eq_getElem hk
    have hdrop := List.drop_eq_getElem_cons hk
    have hrecord := (h.index name _ (List.getElem_mem hk)).1
    have hnone : ¬ (previous.any fun key => decide ((s.indexEntries name)[k].key < key)) = true := by
      cases previous with
      | none => simp
      | some key =>
        have hle := hprevious key _ rfl (by rw [hdrop]; exact List.mem_cons_self)
        simpa using hle
    rw [List.range'_succ]
    unfold MappedFile.checkIndex
    rw [h.indexEntry_eq name hget, retainedRecordCount_mapped]
    simp only
    rw [if_neg (not_le.2 hrecord), if_neg hnone]
    apply ih (by omega)
    intro key e hkey he
    cases hkey
    have hsorted := (h.index_sorted name).drop (i := k)
    rw [hdrop] at hsorted
    exact (List.pairwise_cons.1 hsorted).1 e he

theorem Formed.validate_ok (h : s.Formed journal) :
    (s.mapped journal).validateRecordsAndIndexes = .ok () := by
  have hrecords : MappedFile.checkEach (s.mapped journal).checkRecord
      (List.range (s.mapped journal).retainedRecordCount) = .ok () := by
    apply checkEach_ok
    intro i hi
    rw [retainedRecordCount_mapped] at hi
    exact h.checkRecord_ok (List.mem_range.1 hi)
  have hheads : MappedFile.checkEach (s.mapped journal).checkHead
      (List.range (s.mapped journal).slots.len) = .ok () := by
    apply checkEach_ok
    intro t ht
    rw [h.slots_holds.len, ← h.heads_length] at ht
    exact h.checkHead_ok (List.mem_range.1 ht)
  have hindex : ∀ name, (s.mapped journal).checkIndex name
      (List.range ((s.mapped journal).indexCount name)) none = .ok () := by
    intro name
    rw [List.range_eq_range', indexCount_mapped]
    exact h.checkIndex_ok name (Nat.zero_add _) (by simp)
  unfold MappedFile.validateRecordsAndIndexes
  rw [hrecords, hheads, hindex, hindex, hindex]
  rfl

/-- Two checks of `open` can fail on the file of a formed image. -/
theorem Formed.open_eq (h : s.Formed journal) {current : List UInt8}
    (hoffset : MappedFile.checkJournal (s.toFile journal) current = .ok s.journalOffset) :
    MappedFile.openImage (s.toFile journal) current =
      (MappedFile.checkWidths s.ranges s.slots.length s.activeSlotCount).map
        fun _ => s.mapped journal := by
  have htable : ∀ (name : ImageSection) (values : List String),
      s.sectionOf name = encodeStringTable values → values.Pairwise (· < ·) →
      StringTable.parse (s.toFile journal) (rangeOf s.ranges name).1 (rangeOf s.ranges name).2 =
        .ok (.tableAt (s.startOf name) values) := by
    intro name values hname hsorted
    obtain ⟨hrange, hat⟩ := s.named_section journal name
    obtain ⟨hcount, hbytes⟩ := h.table_lt name hname
    rw [hname] at hrange hat
    rw [hrange]
    exact StringTable.parse_encode hat hsorted hcount hbytes
  have hslots : (StringTable.tableAt (s.startOf .slots) s.slots).len = s.slots.length :=
    h.slots_holds.len
  unfold MappedFile.openImage
  simp only [h.checkEnvelope_ok, hoffset, h.readSections_ok, bind, Except.bind,
    disjoint_ranges, not_true_eq_false, if_false, htable .slots s.slots rfl h.names.slots,
    htable .predicates s.predicates rfl h.names.predicates,
    htable .literals s.literals rfl h.names.literals, h.readHeader_ok, hslots]
  rw [show (s.mapped journal).activeSlotCount = s.activeSlotCount from rfl,
    show (s.mapped journal).frameCount = s.frameCount from rfl, h.checkHistory_ok]
  cases MappedFile.checkWidths s.ranges s.slots.length s.activeSlotCount with
  | error e => rfl
  | ok done =>
    simp only [h.validate_ok]
    rfl

/-- **A written image is opened again**, on its journal or a longer one. -/
theorem Sound.open_toFile (h : s.Sound journal) {current : List UInt8}
    (hlonger : journal <+: current) :
    MappedFile.openImage (s.toFile journal) current = .ok (s.mapped journal) := by
  rw [h.open_eq (h.checkJournal_ok hlonger), h.checkWidths_ok]
  rfl

/-- The offset that the file of a formed image is checked with. -/
theorem Formed.checkJournal_offset (h : s.Formed journal) {current : List UInt8} {offset : ℕ}
    (hcheck : MappedFile.checkJournal (s.toFile journal) current = .ok offset) :
    offset = s.journalOffset ∧ 16 ≤ journal.length := by
  obtain ⟨-, -, -, -, -, -, hoffset, hdigest, -⟩ := s.header_fields journal
  obtain ⟨hjournal, hmax⟩ := h.offset
  unfold MappedFile.checkJournal at hcheck
  rw [readU64At_of_at hoffset (by omega), readU64At_of_at hdigest (UInt64.toNat_lt _)] at hcheck
  simp only [bind, Except.bind, pure, Except.pure] at hcheck
  split at hcheck
  · cases hcheck
  rename_i hok
  cases hcheck
  rw [not_or] at hok
  exact ⟨rfl, by omega⟩

theorem Formed.checkWidths_active (h : s.Formed journal)
    (hcheck : MappedFile.checkWidths s.ranges s.slots.length s.activeSlotCount = .ok ()) :
    s.activeSlotCount = s.active.length := by
  have hactive : rangeLength s.ranges .active = 4 * s.active.length := by
    rw [rangeLength_ranges]
    exact length_flatMap_const (fun _ => length_le 4 _) _
  unfold MappedFile.checkWidths at hcheck
  split at hcheck
  · cases hcheck
  simp only at hcheck
  split at hcheck
  · cases hcheck
  rename_i hok
  rw [hactive] at hok
  omega

/-- **What is opened** of a formed image is the file of a sound one. -/
theorem Formed.opened (h : s.Formed journal) {current : List UInt8} {m : MappedFile}
    (hopen : MappedFile.openImage (s.toFile journal) current = .ok m) :
    s.Sound journal ∧ m = s.mapped journal := by
  have hjournal : ∃ offset, MappedFile.checkJournal (s.toFile journal) current = .ok offset := by
    unfold MappedFile.openImage at hopen
    simp only [h.checkEnvelope_ok, bind, Except.bind] at hopen
    cases hcheck : MappedFile.checkJournal (s.toFile journal) current with
    | error e => rw [hcheck] at hopen; cases hopen
    | ok offset => exact ⟨offset, rfl⟩
  obtain ⟨offset, hcheck⟩ := hjournal
  obtain ⟨rfl, hheader⟩ := h.checkJournal_offset hcheck
  rw [h.open_eq hcheck] at hopen
  cases hwidths : MappedFile.checkWidths s.ranges s.slots.length s.activeSlotCount with
  | error e => rw [hwidths] at hopen; cases hopen
  | ok done =>
    rw [hwidths] at hopen
    exact ⟨⟨h, h.checkWidths_active hwidths, hheader⟩, (Except.ok.inj hopen).symm⟩

end MmapVmSnapshot

end ForthDB
