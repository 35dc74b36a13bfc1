import Mathlib.Data.List.Lex
import ForthDB.Lib.ActiveSet
import ForthDB.Lib.Dict
import ForthDB.Lib.SortedTable
import ForthDB.Vm.StaleCells

/-!
# Queries of a published root

A root is a set of frontiers of the arenas. Its facts are found by replaying the index deltas up
to its frontier, or by a range of a sorted compact base and the index deltas behind that.

* `Workspace.querySlots`, `Workspace.resolveObjectAt`, `Workspace.compactBase`,
  `LayeredSnapshot.querySlots`, `LayeredSnapshot.queryCount`: the readers of the source.
* `edits_transition`: the index deltas of a slot delta, as a pattern reads them.
* `mem_slice`, `CompactBase.slice_eq`: the range of a pattern in a sorted base.
-/

namespace ForthDB

open ActiveSet

inductive QueryPattern
  | subject (subject : ℕ)
  | predicate (predicate : ℕ)
  | object (object : ℕ)
  | subjectPredicate (subject predicate : ℕ)
  | subjectObject (subject object : ℕ)
  | predicateObject (predicate object : ℕ)
  | exact (subject predicate object : ℕ)
deriving DecidableEq, Repr

/-- `matches_index`. -/
def matchesIndex (delta : IndexDelta) : QueryPattern → Bool
  | .subject subject => delta.permutation = .spo ∧ delta.first = subject
  | .predicate predicate => delta.permutation = .pos ∧ delta.first = predicate
  | .object object => delta.permutation = .osp ∧ delta.first = object
  | .subjectPredicate subject predicate =>
    delta.permutation = .spo ∧ delta.first = subject ∧ delta.second = predicate
  | .subjectObject subject object =>
    delta.permutation = .osp ∧ delta.first = object ∧ delta.second = subject
  | .predicateObject predicate object =>
    delta.permutation = .pos ∧ delta.first = predicate ∧ delta.second = object
  | .exact subject predicate object =>
    delta.permutation = .spo ∧ delta.first = subject ∧ delta.second = predicate ∧
      delta.third = object

/-- `query_key`. -/
def queryKey : QueryPattern → IndexPermutation × List ℕ × ℕ
  | .subject subject => (.spo, [subject, 0, 0], 1)
  | .predicate predicate => (.pos, [predicate, 0, 0], 1)
  | .object object => (.osp, [object, 0, 0], 1)
  | .subjectPredicate subject predicate => (.spo, [subject, predicate, 0], 2)
  | .subjectObject subject object => (.osp, [object, subject, 0], 2)
  | .predicateObject predicate object => (.pos, [predicate, object, 0], 2)
  | .exact subject predicate object => (.spo, [subject, predicate, object], 3)

/-! ## The compact base -/

structure CompactIndexEntry where
  first : ℕ
  second : ℕ
  third : ℕ
  record : ℕ
  slot : ℕ
deriving DecidableEq, Repr

namespace CompactIndexEntry

def key (entry : CompactIndexEntry) : List ℕ := [entry.first, entry.second, entry.third]

/-- The derived order: field by field. -/
def Before (left right : CompactIndexEntry) : Prop :=
  left.key ++ [left.record, left.slot] ≤ right.key ++ [right.record, right.slot]

instance : DecidableRel Before := fun _ _ => inferInstanceAs (Decidable (_ ≤ _))

end CompactIndexEntry

structure CompactBase where
  root : WorldRoot
  spo : List CompactIndexEntry
  pos : List CompactIndexEntry
  osp : List CompactIndexEntry

def CompactBase.activeFactCount (base : CompactBase) : ℕ := base.spo.length

def CompactBase.entries (base : CompactBase) : IndexPermutation → List CompactIndexEntry
  | .spo => base.spo
  | .pos => base.pos
  | .osp => base.osp

/-- `compare_prefix`. -/
def comparePrefix (entry : CompactIndexEntry) (key : List ℕ) (keyLen : ℕ) : Ordering :=
  compareOfLessAndEq (entry.key.take keyLen) (key.take keyLen)

/-- `compact_prefix_range`. -/
def compactPrefixRange (entries : List CompactIndexEntry) (key : List ℕ) (keyLen : ℕ) : ℕ × ℕ :=
  (SortedTable.partitionPoint (fun entry => (comparePrefix entry key keyLen).isLT) entries
      entries.length 0 entries.length,
    SortedTable.partitionPoint (fun entry => !(comparePrefix entry key keyLen).isGT) entries
      entries.length 0 entries.length)

/-- The first entries of an arena: an `error` is the panic of the slice. -/
def activeUpTo {α : Type} (arena : List α) (frontier : ℕ) : Except String (List α) :=
  if frontier ≤ arena.length then .ok (arena.take frontier)
  else .error s!"range end index {frontier} out of range for slice of length {arena.length}"

/-- The order of a permutation of the cells of an SPO delta. -/
def CompactIndexEntry.ofDelta (delta : IndexDelta) : IndexPermutation → CompactIndexEntry
  | .spo => ⟨delta.first, delta.second, delta.third, delta.record, delta.slot⟩
  | .pos => ⟨delta.second, delta.third, delta.first, delta.record, delta.slot⟩
  | .osp => ⟨delta.third, delta.first, delta.second, delta.record, delta.slot⟩

/-- One round of the loop of `compact_base`. -/
def compactDelta (active : Dict ℕ IndexDelta) (delta : IndexDelta) : Dict ℕ IndexDelta :=
  if delta.permutation ≠ .spo then active
  else if delta.added then active.insert delta.record delta
  else active.erase delta.record

namespace Workspace

variable (w : Workspace)

/-- `PodArena::get` outside of a program. -/
def recordAt (index : ℕ) : Except String FactRecord :=
  match w.records[index]? with
  | some record => .ok record
  | none => .error "record reference beyond active frontier"

def resolveObjectAt (root : WorldRoot) (slot : ℕ) : Except String (Option ℕ) := do
  let deltas ← activeUpTo w.deltas root.slotDeltaFrontier
  match (deltas.reverse.find? fun delta => delta.slot = slot).bind SlotDelta.resultingVisible with
  | some visible => (w.recordAt visible).map fun record => some record.object
  | none => pure none

/-- `query_slots`. -/
def querySlots (root : WorldRoot) (pattern : QueryPattern) : Except String (List ℕ) := do
  let deltas ← activeUpTo w.indexDeltas root.indexDeltaFrontier
  let activeRecords := deltas.foldl (fun active delta =>
    if matchesIndex delta pattern then edit id active delta.added delta.record else active) []
  let slots ← activeRecords.mapM fun record => (w.recordAt record).map FactRecord.slot
  pure (slots.insertionSort (· ≤ ·))

/-- `compact_base`. The sorts undo the order of the map. -/
def compactBase (root : WorldRoot) : Except String CompactBase := do
  let deltas ← activeUpTo w.indexDeltas root.indexDeltaFrontier
  let active := (deltas.foldl compactDelta ∅).entries.map Sigma.snd
  let sorted := fun permutation =>
    (active.map fun delta => CompactIndexEntry.ofDelta delta permutation).insertionSort
      CompactIndexEntry.Before
  pure { root := root, spo := sorted .spo, pos := sorted .pos, osp := sorted .osp }

end Workspace

/-! ## The layered snapshot -/

structure LayeredSnapshot where
  base : CompactBase
  root : WorldRoot
  tail : List IndexDelta

def Workspace.layeredSnapshot (w : Workspace) (base : CompactBase) (root : WorldRoot) :
    Except String LayeredSnapshot :=
  if base.root.indexDeltaFrontier ≤ root.indexDeltaFrontier then
    (activeUpTo w.indexDeltas root.indexDeltaFrontier).map fun deltas =>
      { base := base, root := root, tail := deltas.drop base.root.indexDeltaFrontier }
  else
    .error "assertion failed: base.root.index_delta_frontier <= root.index_delta_frontier"

namespace LayeredSnapshot

variable (s : LayeredSnapshot)

/-- The base entries that a pattern selects, behind `base_entries` and `compact_prefix_range`. -/
def baseRange (pattern : QueryPattern) : List CompactIndexEntry × ℕ × ℕ :=
  let (permutation, key, keyLen) := queryKey pattern
  let entries := s.base.entries permutation
  (entries, compactPrefixRange entries key keyLen)

def queryCount (pattern : QueryPattern) : Except String ℕ :=
  let (_, start, stop) := s.baseRange pattern
  let count := s.tail.foldl (fun (count : ℤ) delta =>
    if matchesIndex delta pattern then count + (if delta.added then 1 else -1) else count)
    (stop - start)
  if 0 ≤ count then .ok count.toNat else .error "assertion failed: count >= 0"

def querySlots (pattern : QueryPattern) : List ℕ :=
  let (entries, start, stop) := s.baseRange pattern
  let active := ((entries.drop start).take (stop - start)).map fun entry =>
    (entry.record, entry.slot)
  let active := s.tail.foldl (fun active delta =>
    if matchesIndex delta pattern then edit Prod.fst active delta.added (delta.record, delta.slot)
    else active) active
  (active.map Prod.snd).insertionSort (· ≤ ·)

end LayeredSnapshot

/-! ## What a pattern asks for -/

/-- The facts that a pattern asks for. -/
def QueryPattern.Holds (fact : FactRecord) : QueryPattern → Prop
  | .subject s => fact.subject = s
  | .predicate p => fact.predicate = p
  | .object o => fact.object = o
  | .subjectPredicate s p => fact.subject = s ∧ fact.predicate = p
  | .subjectObject s o => fact.subject = s ∧ fact.object = o
  | .predicateObject p o => fact.predicate = p ∧ fact.object = o
  | .exact s p o => fact.subject = s ∧ fact.predicate = p ∧ fact.object = o

instance (fact : FactRecord) : DecidablePred (QueryPattern.Holds fact)
  | .subject _ | .predicate _ | .object _ => inferInstanceAs (Decidable (_ = _))
  | .subjectPredicate _ _ | .subjectObject _ _ | .predicateObject _ _ =>
    inferInstanceAs (Decidable (_ ∧ _))
  | .exact _ _ _ => inferInstanceAs (Decidable (_ ∧ _ ∧ _))

/-- The records that a pattern asks for. -/
def QueryPattern.selects (pattern : QueryPattern) (records : List FactRecord) (x : ℕ) : Bool :=
  records[x]?.any fun fact => pattern.Holds fact

theorem QueryPattern.selects_iff (pattern : QueryPattern) (records : List FactRecord) (x : ℕ) :
    pattern.selects records x = true ↔
      ∃ fact, records[x]? = some fact ∧ pattern.Holds fact := by
  unfold QueryPattern.selects
  cases records[x]? with
  | none => simp
  | some fact => simp

/-- The edit that an index delta is to a pattern. -/
def editOf (pattern : QueryPattern) (delta : IndexDelta) : Option (Bool × ℕ) :=
  if matchesIndex delta pattern then some (delta.added, delta.record) else none

/-- Of the three deltas of a fact that a pattern asks for it reads one. -/
theorem edits_factIndexes (pattern : QueryPattern) (fact : FactRecord) (x : ℕ) (added : Bool) :
    (factIndexes fact x added).filterMap (editOf pattern) =
      if pattern.Holds fact then [(added, x)] else [] := by
  unfold factIndexes
  cases pattern with
  | subject s => by_cases h : fact.subject = s <;> simp [editOf, matchesIndex, QueryPattern.Holds, h]
  | predicate p =>
    by_cases h : fact.predicate = p <;> simp [editOf, matchesIndex, QueryPattern.Holds, h]
  | object o => by_cases h : fact.object = o <;> simp [editOf, matchesIndex, QueryPattern.Holds, h]
  | subjectPredicate s p =>
    by_cases h : fact.subject = s ∧ fact.predicate = p <;>
      simp [editOf, matchesIndex, QueryPattern.Holds, h]
  | subjectObject s o =>
    have hswap : (fact.object = o ∧ fact.subject = s) ↔ (fact.subject = s ∧ fact.object = o) :=
      and_comm
    by_cases h : fact.subject = s ∧ fact.object = o <;>
      simp [editOf, matchesIndex, QueryPattern.Holds, hswap, h]
  | predicateObject p o =>
    by_cases h : fact.predicate = p ∧ fact.object = o <;>
      simp [editOf, matchesIndex, QueryPattern.Holds, h]
  | exact s p o =>
    by_cases h : fact.subject = s ∧ fact.predicate = p ∧ fact.object = o <;>
      simp [editOf, matchesIndex, QueryPattern.Holds, h]

/-- The same for a reference. -/
theorem edits_referenceIndexes (pattern : QueryPattern) (records : List FactRecord)
    (reference : Option ℕ) (added : Bool) :
    (referenceIndexes records reference added).filterMap (editOf pattern) =
      (reference.toList.filter (pattern.selects records)).map fun x => (added, x) := by
  cases reference with
  | none => rfl
  | some x =>
    unfold referenceIndexes QueryPattern.selects
    cases hx : records[x]? with
    | none => simp [hx]
    | some fact =>
      simp only [Option.bind_some, hx, Option.map_some, edits_factIndexes, Option.toList_some]
      by_cases h : pattern.Holds fact <;> simp [hx, h]

/-- A slot delta, as a change of the head of its slot. -/
def SlotDelta.change (delta : SlotDelta) : Change ℕ ℕ :=
  ⟨delta.slot, delta.previousVisible, delta.resultingVisible⟩

/-- The index deltas of a slot delta. -/
def SlotDelta.transition (records : List FactRecord) (delta : SlotDelta) : List IndexDelta :=
  referenceIndexes records delta.previousVisible false ++
    referenceIndexes records delta.resultingVisible true

/-- **What a pattern reads** of the index deltas behind some slot deltas. -/
theorem edits_transitions (pattern : QueryPattern) (records : List FactRecord)
    (deltas : List SlotDelta) :
    (deltas.flatMap (SlotDelta.transition records)).filterMap (editOf pattern) =
      (deltas.map SlotDelta.change).flatMap (Change.edits · (pattern.selects records)) := by
  induction deltas with
  | nil => rfl
  | cons d deltas ih =>
    rw [List.flatMap_cons, List.filterMap_append, ih, List.map_cons, List.flatMap_cons]
    congr 1
    rw [SlotDelta.transition, List.filterMap_append, edits_referenceIndexes,
      edits_referenceIndexes]
    rfl

/-! ## The map of a compact base -/

/-- The slot of a record. -/
def slotOf (records : List FactRecord) (x : ℕ) : Option ℕ := records[x]?.map FactRecord.slot

/-- The first delta of a fact that is added. -/
def spoDelta (records : List FactRecord) (x : ℕ) : Option IndexDelta :=
  records[x]?.map fun fact =>
    ⟨.spo, true, fact.subject, fact.predicate, fact.object, x, fact.slot⟩

/-- The map holds the first delta of every active record, and nothing else. -/
def Compacts (records : List FactRecord) (heads : ℕ → Option ℕ) (active : Dict ℕ IndexDelta) :
    Prop :=
  ∀ x delta, active.lookup x = some delta ↔
    Active (slotOf records) heads x ∧ spoDelta records x = some delta

theorem foldl_compactDelta (active : Dict ℕ IndexDelta) (fact : FactRecord) (x : ℕ)
    (added : Bool) :
    (factIndexes fact x added).foldl compactDelta active =
      if added then active.insert x
        ⟨.spo, true, fact.subject, fact.predicate, fact.object, x, fact.slot⟩
      else active.erase x := by
  cases added <;> simp [factIndexes, compactDelta]

/-- A reference to no record compacts nothing. -/
theorem compact_referenceIndexes (active : Dict ℕ IndexDelta) (records : List FactRecord)
    (reference : Option ℕ) (added : Bool) :
    (referenceIndexes records reference added).foldl compactDelta active =
      match reference.bind fun x => (spoDelta records x).map fun delta => (x, delta) with
      | some (x, delta) => if added then active.insert x delta else active.erase x
      | none => active := by
  cases reference with
  | none => rfl
  | some x =>
    unfold referenceIndexes spoDelta
    cases hx : records[x]? with
    | none => simp [hx]
    | some fact =>
      simp only [Option.bind_some, hx, Option.map_some]
      exact foldl_compactDelta active fact x added

/-- A slot of a record is that of its delta. -/
theorem spoDelta_of_slotOf {records : List FactRecord} {x t : ℕ} (h : slotOf records x = some t) :
    ∃ delta, spoDelta records x = some delta := by
  unfold slotOf at h
  obtain ⟨fact, hfact, -⟩ := Option.map_eq_some_iff.1 h
  exact ⟨_, by rw [spoDelta, hfact]; rfl⟩

/-- **One slot delta** keeps the map. -/
theorem Compacts.transition {records : List FactRecord} {heads : ℕ → Option ℕ}
    {active : Dict ℕ IndexDelta} (h : Compacts records heads active) {d : SlotDelta}
    (hd : d.change.Fits (slotOf records) heads) :
    Compacts records (d.change.apply heads) ((d.transition records).foldl compactDelta active) := by
  rw [SlotDelta.transition, List.foldl_append, compact_referenceIndexes, compact_referenceIndexes]
  set erased : Dict ℕ IndexDelta :=
    match d.previousVisible.bind fun x => (spoDelta records x).map fun delta => (x, delta) with
    | some (x, delta) => if false = true then active.insert x delta else active.erase x
    | none => active with herased
  -- without the previous head the other slots are left
  have hother : ∀ x delta, erased.lookup x = some delta ↔
      (slotOf records x ≠ some d.slot ∧ Active (slotOf records) heads x) ∧
        spoDelta records x = some delta := by
    intro x delta
    have hprevious : slotOf records x = some d.slot →
        (Active (slotOf records) heads x ↔ d.previousVisible = some x) := fun hg =>
      active_previous hd hg
    cases hp : d.previousVisible with
    | none =>
      rw [hp] at herased
      rw [herased]
      simp only [Option.bind_none, h x delta]
      constructor
      · rintro ⟨hactive, hdelta⟩
        refine ⟨⟨fun hg => ?_, hactive⟩, hdelta⟩
        have hsome := (hprevious hg).1 hactive
        rw [hp] at hsome
        cases hsome
      · rintro ⟨⟨-, hactive⟩, hdelta⟩
        exact ⟨hactive, hdelta⟩
    | some y =>
      have hy : slotOf records y = some d.slot := hd.removed y hp
      obtain ⟨delta', hdelta'⟩ := spoDelta_of_slotOf hy
      rw [hp] at herased
      rw [herased]
      simp only [Option.bind_some, hdelta', Option.map_some, Bool.false_eq_true, if_false]
      by_cases hxy : x = y
      · subst hxy
        rw [AList.lookup_erase]
        exact iff_of_false nofun fun hx => hx.1.1 hy
      · rw [AList.lookup_erase_ne hxy, h x delta]
        constructor
        · rintro ⟨hactive, hdelta⟩
          refine ⟨⟨fun hg => hxy ?_, hactive⟩, hdelta⟩
          have hsome := (hprevious hg).1 hactive
          rw [hp] at hsome
          exact (Option.some.inj hsome).symm
        · rintro ⟨⟨-, hactive⟩, hdelta⟩
          exact ⟨hactive, hdelta⟩
  intro x delta
  rw [active_apply hd]
  change _ ↔ (d.resultingVisible = some x ∨ slotOf records x ≠ some d.slot ∧ _) ∧ _
  cases hr : d.resultingVisible with
  | none =>
    simp only [Option.bind_none, hother, reduceCtorEq, false_or]
  | some z =>
    have hz : slotOf records z = some d.slot := hd.added z hr
    obtain ⟨delta', hdelta'⟩ := spoDelta_of_slotOf hz
    simp only [Option.bind_some, hdelta', Option.map_some, if_true]
    by_cases hxz : x = z
    · subst hxz
      rw [AList.lookup_insert, hdelta']
      constructor
      · intro heq
        exact ⟨.inl rfl, heq⟩
      · exact fun heq => heq.2
    · rw [AList.lookup_insert_ne hxz, hother]
      constructor
      · rintro ⟨hx, hdelta⟩
        exact ⟨.inr hx, hdelta⟩
      · rintro ⟨heq | hx, hdelta⟩
        · exact absurd (Option.some.inj heq).symm hxz
        · exact ⟨hx, hdelta⟩

/-- **The map of a compact base** holds what is active behind the slot deltas. -/
theorem Compacts.transitions {records : List FactRecord} {heads : ℕ → Option ℕ}
    {active : Dict ℕ IndexDelta} (h : Compacts records heads active) {deltas : List SlotDelta}
    (hlog : Legal (slotOf records) heads (deltas.map SlotDelta.change)) :
    Compacts records (headsAfter heads (deltas.map SlotDelta.change))
      ((deltas.flatMap (SlotDelta.transition records)).foldl compactDelta active) := by
  induction deltas generalizing heads active with
  | nil => exact h
  | cons d deltas ih =>
    obtain ⟨hd, hrest⟩ := hlog
    rw [List.flatMap_cons, List.foldl_append]
    exact ih (h.transition hd) hrest

/-! ## The range of a pattern -/

theorem CompactIndexEntry.Before.key_le {e e' : CompactIndexEntry} (h : e.Before e') :
    e.key ≤ e'.key := SortedTable.take_le_take h 3

theorem comparePrefix_isLT (e : CompactIndexEntry) (key : List ℕ) (n : ℕ) :
    (comparePrefix e key n).isLT = true ↔ e.key.take n < key.take n := by
  unfold comparePrefix compareOfLessAndEq
  split
  · rename_i h
    exact iff_of_true rfl h
  · rename_i h
    split <;> exact iff_of_false nofun h

theorem comparePrefix_isGT (e : CompactIndexEntry) (key : List ℕ) (n : ℕ) :
    (!(comparePrefix e key n).isGT) = true ↔ e.key.take n ≤ key.take n := by
  unfold comparePrefix compareOfLessAndEq
  split
  · rename_i h
    exact iff_of_true rfl h.le
  · rename_i h
    split
    · rename_i heq
      exact iff_of_true rfl heq.le
    · rename_i hne
      exact iff_of_false nofun fun hle => h (lt_of_le_of_ne hle hne)

/-- **The range of a key** in sorted entries. -/
theorem slice_compactPrefixRange {entries : List CompactIndexEntry}
    (hs : entries.Pairwise CompactIndexEntry.Before) (key : List ℕ) (n : ℕ) :
    let range := compactPrefixRange entries key n
    range.1 ≤ range.2 ∧ range.2 ≤ entries.length ∧
      (entries.drop range.1).take (range.2 - range.1) =
        entries.filter fun e => e.key.take n = key.take n := by
  obtain ⟨start, stop, hstart, hstop, hle, hlength, hslice⟩ :=
    SortedTable.range_of_key (hs.imp fun h => h.key_le) n (key.take n)
      (fun e => comparePrefix_isLT e key n) (fun e => comparePrefix_isGT e key n)
  unfold compactPrefixRange
  simp only [hstart, hstop]
  exact ⟨hle, hlength, hslice⟩

/-- The key of a pattern is the key of the facts that it asks for. -/
theorem key_eq_iff (pattern : QueryPattern) (fact : FactRecord) (x t : ℕ) :
    ((CompactIndexEntry.ofDelta ⟨.spo, true, fact.subject, fact.predicate, fact.object, x, t⟩
        (queryKey pattern).1).key.take (queryKey pattern).2.2 =
      (queryKey pattern).2.1.take (queryKey pattern).2.2) ↔ pattern.Holds fact := by
  cases pattern <;>
    simp [queryKey, CompactIndexEntry.ofDelta, CompactIndexEntry.key, QueryPattern.Holds, and_comm]

namespace CompactIndexEntry

instance : Std.Total Before := ⟨fun _ _ => le_total _ _⟩

instance : IsTrans CompactIndexEntry Before := ⟨fun _ _ _ => le_trans⟩

end CompactIndexEntry

/-- One of the sorted arrays of a compact base. -/
def sortedEntries (active : Dict ℕ IndexDelta) (permutation : IndexPermutation) :
    List CompactIndexEntry :=
  ((active.entries.map Sigma.snd).map fun delta =>
    CompactIndexEntry.ofDelta delta permutation).insertionSort CompactIndexEntry.Before

theorem CompactIndexEntry.ofDelta_record (delta : IndexDelta) (permutation : IndexPermutation) :
    (CompactIndexEntry.ofDelta delta permutation).record = delta.record := by
  cases permutation <;> rfl

theorem CompactIndexEntry.ofDelta_slot (delta : IndexDelta) (permutation : IndexPermutation) :
    (CompactIndexEntry.ofDelta delta permutation).slot = delta.slot := by
  cases permutation <;> rfl

/-- The entries that a pattern reads of a compact base. -/
def patternSlice (active : Dict ℕ IndexDelta) (pattern : QueryPattern) : List CompactIndexEntry :=
  (sortedEntries active (queryKey pattern).1).filter fun e =>
    e.key.take (queryKey pattern).2.2 = (queryKey pattern).2.1.take (queryKey pattern).2.2

namespace Compacts

variable {records : List FactRecord} {heads : ℕ → Option ℕ} {active : Dict ℕ IndexDelta}

/-- An entry stands for an active record. -/
theorem mem_sortedEntries (h : Compacts records heads active) (permutation : IndexPermutation)
    (e : CompactIndexEntry) :
    e ∈ sortedEntries active permutation ↔
      ∃ delta, Active (slotOf records) heads e.record ∧ spoDelta records e.record = some delta ∧
        e = CompactIndexEntry.ofDelta delta permutation := by
  unfold sortedEntries
  rw [List.mem_insertionSort, List.mem_map]
  constructor
  · rintro ⟨delta, hdelta, rfl⟩
    obtain ⟨⟨x, delta⟩, hx, rfl⟩ := List.mem_map.1 hdelta
    obtain ⟨hactive, hspo⟩ := (h x delta).1 (Dict.mem_entries.1 hx)
    have hrecord : delta.record = x := by
      obtain ⟨fact, -, rfl⟩ := Option.map_eq_some_iff.1 hspo
      rfl
    rw [CompactIndexEntry.ofDelta_record, hrecord]
    exact ⟨delta, hactive, hspo, rfl⟩
  · rintro ⟨delta, hactive, hspo, he⟩
    have hlookup := (h e.record delta).2 ⟨hactive, hspo⟩
    exact ⟨delta, List.mem_map.2 ⟨⟨e.record, delta⟩, Dict.mem_entries.2 hlookup, rfl⟩, he.symm⟩

/-- No record stands twice in a compact base. -/
theorem nodup_sortedEntries (h : Compacts records heads active) (permutation : IndexPermutation) :
    ((sortedEntries active permutation).map CompactIndexEntry.record).Nodup := by
  unfold sortedEntries
  have hperm := (List.perm_insertionSort CompactIndexEntry.Before
    ((active.entries.map Sigma.snd).map fun delta =>
      CompactIndexEntry.ofDelta delta permutation)).map CompactIndexEntry.record
  rw [hperm.nodup_iff, List.map_map, List.map_map]
  have hkeys : active.entries.map ((CompactIndexEntry.record ∘ fun delta =>
      CompactIndexEntry.ofDelta delta permutation) ∘ Sigma.snd) = active.keys := by
    refine List.map_congr_left fun e he => ?_
    obtain ⟨x, delta⟩ := e
    obtain ⟨-, hspo⟩ := (h x delta).1 (Dict.mem_entries.1 he)
    obtain ⟨fact, -, rfl⟩ := Option.map_eq_some_iff.1 hspo
    exact CompactIndexEntry.ofDelta_record _ _
  rw [hkeys]
  exact active.keys_nodup

/-- **The slice of a pattern** lists the active records that it asks for, with their slots. -/
theorem patternSlice_lists (h : Compacts records heads active) (pattern : QueryPattern) :
    Lists (slotOf records) heads (pattern.selects records)
        ((patternSlice active pattern).map CompactIndexEntry.record) ∧
      ∀ e ∈ patternSlice active pattern, slotOf records e.record = some e.slot := by
  have hmem : ∀ e, e ∈ patternSlice active pattern ↔
      ∃ fact, records[e.record]? = some fact ∧ Active (slotOf records) heads e.record ∧
        pattern.Holds fact ∧ e = CompactIndexEntry.ofDelta
          ⟨.spo, true, fact.subject, fact.predicate, fact.object, e.record, fact.slot⟩
          (queryKey pattern).1 := by
    intro e
    unfold patternSlice
    rw [List.mem_filter, h.mem_sortedEntries, decide_eq_true_iff]
    constructor
    · rintro ⟨⟨delta, hactive, hspo, he⟩, hkey⟩
      obtain ⟨fact, hfact, rfl⟩ := Option.map_eq_some_iff.1 hspo
      refine ⟨fact, hfact, hactive, ?_, he⟩
      rw [he] at hkey
      exact (key_eq_iff pattern fact _ _).1 hkey
    · rintro ⟨fact, hfact, hactive, hholds, he⟩
      refine ⟨⟨_, hactive, by rw [spoDelta, hfact]; rfl, he⟩, ?_⟩
      rw [he]
      exact (key_eq_iff pattern fact _ _).2 hholds
  refine ⟨⟨?_, fun x => ?_⟩, fun e he => ?_⟩
  · exact ((List.filter_sublist).map _).nodup (h.nodup_sortedEntries _)
  · rw [List.mem_map]
    rw [pattern.selects_iff]
    constructor
    · rintro ⟨e, he, rfl⟩
      obtain ⟨fact, hfact, hactive, hholds, -⟩ := (hmem e).1 he
      exact ⟨hactive, fact, hfact, hholds⟩
    · rintro ⟨hactive, fact, hfact, hholds⟩
      have hrecord := CompactIndexEntry.ofDelta_record
        ⟨.spo, true, fact.subject, fact.predicate, fact.object, x, fact.slot⟩ (queryKey pattern).1
      refine ⟨_, (hmem _).2 ⟨fact, ?_, ?_, hholds, ?_⟩, hrecord⟩
      · rw [hrecord]
        exact hfact
      · rw [hrecord]
        exact hactive
      · rw [hrecord]
  · obtain ⟨fact, hfact, -, -, heq⟩ := (hmem e).1 he
    rw [heq, CompactIndexEntry.ofDelta_record, CompactIndexEntry.ofDelta_slot, slotOf, hfact]
    rfl

end Compacts

end ForthDB
