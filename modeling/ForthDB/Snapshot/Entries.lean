import ForthDB.Snapshot.Reopened
import ForthDB.World.ProjectionParity

/-!
# The entries of an image

An image keeps with each definition the slot it stands under and the record id that the
projection gave it.

* `Filed m n`: the projected entries stand under their own slots, and were recorded
  before `n`. `fromFrames_filed`: those of a projection of frames are.
* `s.Captures m`: the records of the image `s` link exactly the entries of `m`, and its
  other sections are made of those records. `create_captures`: a written image captures
  the entries of its projection.
* `Captures.formed`: then the file of the image passes the checks of `open` on its parts.
-/

namespace ForthDB

open Bytes

namespace VmQueryProjection

/-! ## Projected entries -/

/-- The entries stand under their own slots, and were recorded before `n`. -/
def Filed (m : EntryStacks) (n : ℕ) : Prop :=
  ∀ slot, ∀ e ∈ m.stack slot, e.slot = slot ∧ e.recordId < n

theorem filed_empty : Filed .empty 0 := fun slot e he => nomatch he

theorem Filed.mono {m : EntryStacks} {n n' : ℕ} (h : Filed m n) (hn : n ≤ n') : Filed m n' := by
  intro slot e he
  obtain ⟨hslot, hid⟩ := h slot e he
  exact ⟨hslot, lt_of_lt_of_le hid hn⟩

theorem Filed.push {m : EntryStacks} {n : ℕ} (h : Filed m n) (slot : SlotId) (fact : Fact) :
    Filed (m.push slot ⟨n, slot, fact⟩) (n + 1) := by
  intro slot' e he
  by_cases hs : slot' = slot
  · subst hs
    rw [StackMap.stack_push_self, List.mem_cons] at he
    rcases he with rfl | he
    · exact ⟨rfl, Nat.lt_succ_self n⟩
    · exact (h.mono (Nat.le_succ n)) slot' e he
  · rw [StackMap.stack_push_ne _ _ hs] at he
    exact (h.mono (Nat.le_succ n)) slot' e he

theorem Filed.pop {m : EntryStacks} {n : ℕ} (h : Filed m n) (slot : SlotId) :
    Filed (m.pop slot) n := by
  intro slot' e he
  by_cases hs : slot' = slot
  · subst hs
    rw [StackMap.stack_pop_self] at he
    exact h slot' e (List.mem_of_mem_tail he)
  · rw [StackMap.stack_pop_ne _ hs] at he
    exact h slot' e he

/-- **One operation** files the entry that it makes. -/
theorem Filed.project {s : Definitions × ℕ} {m : EntryStacks} (h : Filed m s.2) (op : Operation) :
    Filed (perform m s.2 op) (VmQueryProjection.project s op).2 ∧
      (VmQueryProjection.project s op).2 ≤ s.2 + 1 := by
  cases op with
  | allocateEntity e => exact ⟨h, Nat.le_succ _⟩
  | define slot fact => exact ⟨h.push slot fact, le_rfl⟩
  | forget slot =>
    rw [project_forget_count]
    exact ⟨(h.pop slot).mono (Nat.le_succ _), le_rfl⟩

/-- **A run of operations** files its entries. -/
theorem projectAll_filed {s : Definitions × ℕ} {m : EntryStacks} (hl : Lists s.1 m)
    (h : Filed m s.2) (ops : List Operation) :
    ∃ m', Lists (ops.foldl VmQueryProjection.project s).1 m' ∧ Filed m' (s.2 + ops.length) := by
  induction ops generalizing s m with
  | nil => exact ⟨m, hl, h⟩
  | cons op ops ih =>
    obtain ⟨hfiled, hcount⟩ := h.project op
    obtain ⟨m', hlists, hfiled'⟩ := ih (project_lists hl op) hfiled
    refine ⟨m', hlists, hfiled'.mono ?_⟩
    rw [List.length_cons]
    omega

/-- **A projection of frames** lists filed entries. -/
theorem fromFrames_filed (fs : List CommitFrame) :
    ∃ m, Lists (fromFrames fs).definitions m ∧ Filed m (operationsOf fs).length := by
  obtain ⟨m, hlists, hfiled⟩ := projectAll_filed (s := (∅, 0)) lists_empty filed_empty (operationsOf fs)
  rw [Nat.zero_add] at hfiled
  exact ⟨m, hlists, hfiled⟩

end VmQueryProjection

/-- The query view of a world without a mapped one projects its frames. -/
theorem World.vmQuery_frames {w : World} {p : VmQueryProjection} (hp : w.vmQuery = .ok p)
    (hm : p.mapped = none) : ∃ fs, w.frames = .ok fs ∧ p = .fromFrames fs := by
  unfold World.vmQuery at hp
  cases hw : w.mapped with
  | some t =>
    rw [hw] at hp
    obtain rfl := Except.ok.inj hp
    cases hm
  | none =>
    simp only [hw] at hp
    split at hp
    · cases hp
    cases hfs : w.frames with
    | error e => rw [hfs] at hp; cases hp
    | ok fs =>
      rw [hfs] at hp
      exact ⟨fs, rfl, (Except.ok.inj hp).symm⟩

/-- The counters of a world are `u64`s. -/
structure World.InRange (w : World) : Prop where
  version : w.version < 2 ^ 64
  nextEntity : w.nextEntity < 2 ^ 64
  operationCount : w.operationCount < 2 ^ 64
  activeSlotCount : w.activeSlotCount < 2 ^ 64
  recordCount : w.recordCount < 2 ^ 64

/-- The entry of a record. -/
def ImageNames.entry (names : ImageNames) (r : MappedRecord) : Option ProjectedFact := do
  let slot ← names.slots[r.slot]?
  let fact ← names.fact r.subject r.predicate r.object
  pure ⟨r.originalId, ⟨slot⟩, fact⟩

/-- The entry of a record in an index. -/
def IndexSection.entryOf : IndexSection → MappedRecord → ℕ → IndexEntry
  | .spo, r, i => ⟨r.subject, r.predicate, r.object, i⟩
  | .pos, r, i => ⟨r.predicate, r.object, r.subject, i⟩
  | .osp, r, i => ⟨r.object, r.subject, r.predicate, i⟩

theorem ImageNames.atom_lt {names : ImageNames} {cell : ℕ} {a : Atom}
    (h : names.atom cell = some a) : cell < literalBase + names.literals.length := by
  unfold atom at h
  split at h
  · omega
  · obtain ⟨text, htext, -⟩ := Option.map_eq_some_iff.1 h
    have hlt := (List.getElem?_eq_some_iff.1 htext).1
    omega

theorem ImageNames.fact_some {names : ImageNames} {subject predicate object : ℕ} {f : Fact}
    (h : names.fact subject predicate object = some f) :
    names.atom subject = some f.subject ∧ names.predicates[predicate]? = some f.predicate.value ∧
      names.atom object = some f.object := by
  unfold fact at h
  simp only [bind, Option.bind_eq_some_iff, pure, Option.some.injEq] at h
  obtain ⟨s, hs, p, hp, o, ho, rfl⟩ := h
  exact ⟨hs, hp, ho⟩

theorem ImageNames.entry_some {names : ImageNames} {r : MappedRecord} {e : ProjectedFact}
    (h : names.entry r = some e) : e.recordId = r.originalId ∧
      names.slots[r.slot]? = some e.slot.value ∧
      names.fact r.subject r.predicate r.object = some e.fact := by
  unfold entry at h
  simp only [bind, Option.bind_eq_some_iff, pure, Option.some.injEq] at h
  obtain ⟨slot, hslot, fact, hfact, rfl⟩ := h
  exact ⟨rfl, hslot, hfact⟩

namespace MmapVmSnapshot

open VmQueryProjection

/-- The records of an image link exactly the entries of `m`; the active records and the indexes
are made of them. -/
structure Captures (s : MmapVmSnapshot) (m : EntryStacks) : Prop where
  names : s.NamesSorted
  heads : s.heads.length = s.slots.length
  linked : Linked (ImageNames.valueNode s.tables.entry s.records) s.headOf m
  valid : ImageNames.Valid s.slots.length s.records
  made : ∀ r ∈ s.records, ∃ slot, ∃ e ∈ m.stack slot, s.tables.entry r = some e
  active : s.active = activeOf s.records s.heads
  index : ∀ name, s.indexEntries name = indexSection s.records s.active name.entryOf

/-- **A written image** captures the entries of its projection. -/
theorem create_captures {journal : List UInt8} {n : ℕ} {w : World} {p : VmQueryProjection}
    {s : MmapVmSnapshot} (h : create journal n w p = .ok s) {m : EntryStacks} {k : ℕ}
    (hl : Lists p.definitions m) (hfiled : Filed m k) : s.Captures m := by
  have hd : ∀ slot, ((p.definitions.lookup slot).getD []).map id = (m.stack slot).reverse := by
    intro slot
    rw [List.map_id, hl.stack]
  have hval : ∀ (t : ℕ) slot, p.names.slots[t]? = some slot →
      ∀ e ∈ (p.definitions.lookup ⟨slot⟩).getD [], ∀ prev r, p.names.record t prev e = .ok r →
        p.names.entry r = some (id e) := by
    intro t slot ht e he prev r hr
    obtain ⟨hid, hslot, -, hfact⟩ := ImageNames.record_spec hr
    rw [hl.stack, List.mem_reverse] at he
    have hown := (hfiled ⟨slot⟩ e he).1
    unfold ImageNames.entry
    rw [hslot, ht, hfact, hid]
    show some (⟨e.recordId, ⟨slot⟩, e.fact⟩ : ProjectedFact) = some e
    rw [← hown]
  obtain ⟨htables, hw, hlinked⟩ := create_linked h hd hl.nonempty hval
  obtain ⟨-, -, records, heads, frames, history, -, -, -, hs⟩ := create_ok h
  refine ⟨create_names h, hw.length, ?_, hw.valid, ?_, by rw [hs]; rfl, ?_⟩
  · rw [htables]; exact hlinked
  · rw [htables]; exact hw.made
  · intro name
    rw [hs]
    cases name <;> rfl

namespace Captures

variable {s : MmapVmSnapshot} {m : EntryStacks}

/-- The newest record of a slot. -/
theorem head_entry (h : s.Captures m) {t i : ℕ} (hi : s.heads[t]? = some (some i)) :
    ∃ r slot e, s.records[i]? = some r ∧ s.slots[t]? = some slot ∧ s.headOf ⟨slot⟩ = some i ∧
      m.top ⟨slot⟩ = some e ∧ s.tables.entry r = some e := by
  have ht : t < s.slots.length := by
    rw [← h.heads]
    exact (List.getElem?_eq_some_iff.1 hi).1
  have hslot := List.getElem?_eq_getElem ht
  have htoken : s.slotToken ⟨s.slots[t]⟩ = some t :=
    (SortedTable.lookup_iff h.names.slots).2 hslot
  have hhead : s.headOf ⟨s.slots[t]⟩ = some i := by
    unfold headOf
    rw [htoken, Option.bind_some, hi]
    rfl
  have hchain := h.linked ⟨s.slots[t]⟩
  rw [hhead] at hchain
  cases hstack : m.stack ⟨s.slots[t]⟩ with
  | nil => rw [hstack] at hchain; cases hchain
  | cons e es =>
    rw [hstack] at hchain
    cases hchain with
    | cons hnode _ =>
      obtain ⟨r, hr, hvalue⟩ := Option.bind_eq_some_iff.1 hnode
      obtain ⟨e', he', hpair⟩ := Option.map_eq_some_iff.1 hvalue
      obtain ⟨rfl, -⟩ := Prod.mk.inj hpair
      exact ⟨r, s.slots[t], e', hr, hslot, hhead, by rw [StackMap.top, hstack]; rfl, he'⟩

theorem mem_active (h : s.Captures m) {i : ℕ} :
    i ∈ s.active ↔ ∃ t : ℕ, s.heads[t]? = some (some i) := by
  rw [h.active, activeOf, List.mem_insertionSort, List.mem_filterMap]
  constructor
  · rintro ⟨head, hhead, rfl⟩
    exact List.getElem?_of_mem hhead
  · rintro ⟨t, ht⟩
    exact ⟨some i, List.mem_of_getElem? ht, rfl⟩

theorem active_record (h : s.Captures m) {i : ℕ} (hi : i ∈ s.active) :
    ∃ r, s.records[i]? = some r := by
  obtain ⟨t, ht⟩ := h.mem_active.1 hi
  obtain ⟨r, -, -, hr, -⟩ := h.head_entry ht
  exact ⟨r, hr⟩

/-- **No record is active twice.** -/
theorem active_nodup (h : s.Captures m) {k : ℕ} (hfiled : Filed m k) : s.active.Nodup := by
  rw [h.active, activeOf, (List.perm_insertionSort _ _).nodup_iff]
  unfold List.Nodup
  rw [List.pairwise_filterMap, List.pairwise_iff_getElem]
  intro t t' ht ht' hlt i hi i' hi' heq
  subst heq
  -- the record knows the slot that it is the head of
  have hsame : ∀ t : ℕ, s.heads[t]? = some (some i) → ∃ r, s.records[i]? = some r ∧ r.slot = t := by
    intro t hget
    obtain ⟨r, slot, e, hr, hslot, -, htop, hentry⟩ := h.head_entry hget
    obtain ⟨-, hname, -⟩ := ImageNames.entry_some hentry
    have hown := (hfiled ⟨slot⟩ e (List.mem_of_mem_head? htop)).1
    rw [hown] at hname
    exact ⟨r, hr, SortedTable.position_inj h.names.slots hname hslot⟩
  obtain ⟨r, hr, hslot⟩ := hsame t (by rw [List.getElem?_eq_getElem ht]; exact congrArg some hi)
  obtain ⟨r', hr', hslot'⟩ := hsame t' (by rw [List.getElem?_eq_getElem ht']; exact congrArg some hi')
  rw [hr, Option.some.injEq] at hr'
  rw [← hslot, ← hslot', hr'] at hlt
  exact lt_irrefl _ hlt

end Captures

/-! ## The parts of a written image -/

instance (records : List MappedRecord) : Std.Total (IndexEntry.Before records) :=
  ⟨fun _ _ => le_total _ _⟩

instance (records : List MappedRecord) : IsTrans IndexEntry (IndexEntry.Before records) :=
  ⟨fun _ _ _ => le_trans⟩

theorem Before.key_le {records : List MappedRecord} {e e' : IndexEntry}
    (h : IndexEntry.Before records e e') : e.key ≤ e'.key := SortedTable.take_le_take h 3

theorem mem_indexSection {records : List MappedRecord} {active : List ℕ}
    {entryOf : MappedRecord → ℕ → IndexEntry} {e : IndexEntry} :
    e ∈ indexSection records active entryOf ↔
      ∃ i ∈ active, ∃ r, records[i]? = some r ∧ entryOf r i = e := by
  unfold indexSection
  rw [List.mem_insertionSort, List.mem_filterMap]
  constructor
  · rintro ⟨i, hi, he⟩
    obtain ⟨r, hr, rfl⟩ := Option.map_eq_some_iff.1 he
    exact ⟨i, hi, r, hr, rfl⟩
  · rintro ⟨i, hi, r, hr, rfl⟩
    exact ⟨i, hi, by rw [hr]; rfl⟩

theorem length_indexSection {records : List MappedRecord} {active : List ℕ}
    (hactive : ∀ i ∈ active, ∃ r, records[i]? = some r) (entryOf : MappedRecord → ℕ → IndexEntry) :
    (indexSection records active entryOf).length = active.length := by
  unfold indexSection
  rw [List.length_insertionSort]
  induction active with
  | nil => rfl
  | cons i active ih =>
    obtain ⟨r, hr⟩ := hactive i (by simp)
    rw [List.filterMap_cons, hr]
    simp only [Option.map_some, List.length_cons]
    rw [ih fun j hj => hactive j (List.mem_cons_of_mem _ hj)]

namespace Captures

variable {s : MmapVmSnapshot} {m : EntryStacks} {k : ℕ}

/-- The cells of a record are tokens of the tables, or ids of entities. -/
theorem record_lt (h : s.Captures m) (hfiled : Filed m k) {i : ℕ} {r : MappedRecord}
    (hr : s.records[i]? = some r) : r.originalId < k ∧ r.slot < s.slots.length ∧
      r.predicate < s.predicates.length ∧ (∀ p, r.previous = some p → p < i) ∧
      r.subject < literalBase + s.literals.length ∧
      r.object < literalBase + s.literals.length := by
  obtain ⟨slot, e, he, hentry⟩ := h.made r (List.mem_of_getElem? hr)
  obtain ⟨hid, -, hfact⟩ := ImageNames.entry_some hentry
  obtain ⟨hsubject, hpredicate, hobject⟩ := ImageNames.fact_some hfact
  obtain ⟨hslot, hprevious⟩ := h.valid i r hr
  refine ⟨?_, hslot, ?_, hprevious, ImageNames.atom_lt hsubject, ImageNames.atom_lt hobject⟩
  · rw [← hid]
    exact (hfiled slot e he).2
  · exact (List.getElem?_eq_some_iff.1 hpredicate).1

theorem index_sorted (h : s.Captures m) (name : IndexSection) :
    (s.indexEntries name).Pairwise fun e e' => e.key ≤ e'.key := by
  rw [h.index]
  exact (List.pairwise_insertionSort (IndexEntry.Before s.records) _).imp Before.key_le

theorem index_length (h : s.Captures m) (name : IndexSection) :
    (s.indexEntries name).length = s.active.length := by
  rw [h.index]
  exact length_indexSection (fun i hi => h.active_record hi) _

end Captures

/-- **The parts of a written image** refer to each other as they should. -/
theorem create_formed {journal : List UInt8} {n : ℕ} {w : World} {p : VmQueryProjection}
    {s : MmapVmSnapshot} (h : create journal n w p = .ok s) (hp : w.vmQuery = .ok p)
    (hw : w.InRange) (hn : n < 2 ^ 64) (hjournal : journal.length < 2 ^ 64) :
    s.Formed journal ∧ ∃ m k, Lists p.definitions m ∧ Filed m k ∧ s.Captures m := by
  obtain ⟨hmapped, hsize, records, heads, frames, history, -, hf, hh, hs⟩ := create_ok h
  obtain ⟨fs, hfs, rfl⟩ := World.vmQuery_frames hp hmapped
  rw [hfs] at hf
  obtain rfl : fs = frames := Except.ok.inj hf
  obtain ⟨m, hlists, hfiled⟩ := fromFrames_filed fs
  have hcaptures := create_captures h hlists hfiled
  refine ⟨?_, m, _, hlists, hfiled, hcaptures⟩
  -- every section, the history among them, is as short as the file
  have hsection : ∀ bytes ∈ s.sections, bytes.length ≤ 2 ^ 29 := fun bytes hb =>
    (length_section_le hb journal).trans (hsize.trans (by decide))
  have hhistory : s.history = history := by rw [hs]; rfl
  have hframes : s.frameCount = fs.length := by rw [hs]; rfl
  obtain ⟨hframesLe, hoperationsLe⟩ := length_le_encodeFrames hh
  have hhistoryLe : history.length ≤ 2 ^ 29 := hsection history (by rw [← hhistory]; simp [sections])
  have hliterals : s.literals.length ≤ 2 ^ 29 :=
    (length_encodeStringTable s.literals).trans (hsection _ (by simp [sections]))
  have hpredicates : s.predicates.length ≤ 2 ^ 29 :=
    (length_encodeStringTable s.predicates).trans (hsection _ (by simp [sections]))
  have hbase : literalBase = 2 ^ 63 := rfl
  refine ⟨hcaptures.names, hsize, hcaptures.heads, ?_, ?_, ?_, hcaptures.index_length, ?_,
    hcaptures.index_sorted, ?_, ?_, ?_, hjournal⟩
  · intro i r hr
    obtain ⟨hid, hrest⟩ := hcaptures.record_lt hfiled hr
    exact ⟨by omega, hrest⟩
  · intro t i hi
    obtain ⟨r, -, -, hr, -⟩ := hcaptures.head_entry hi
    exact (List.getElem?_eq_some_iff.1 hr).1
  · intro i hi
    obtain ⟨r, hr⟩ := hcaptures.active_record hi
    exact (List.getElem?_eq_some_iff.1 hr).1
  · intro name e he
    rw [hcaptures.index, mem_indexSection] at he
    obtain ⟨i, -, r, hr, rfl⟩ := he
    obtain ⟨-, -, hpredicate, -, hsubject, hobject⟩ := hcaptures.record_lt hfiled hr
    have hi := (List.getElem?_eq_some_iff.1 hr).1
    cases name <;> simp only [IndexSection.entryOf] <;> omega
  · rw [hhistory, hframes]
    unfold encodeFrames at hh
    cases he : encodeEach encodeImageFrame fs with
    | error e => rw [he] at hh; cases hh
    | ok rest =>
      rw [he] at hh
      exact ⟨rest, (Except.ok.inj hh).symm⟩
  · rw [hframes, hs]
    exact ⟨hn, hw.version, hw.nextEntity, hw.operationCount, hw.activeSlotCount, hw.recordCount,
      by omega⟩
  · rw [hs]
    rfl

end MmapVmSnapshot

end ForthDB
