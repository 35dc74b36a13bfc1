import ForthDB.Vm.RootQueries

/-!
# The answers of a root

The deltas up to the frontiers of a root fix what its readers say, whatever lies behind them.

* `Rooted w root deltas`: the arenas of `w` up to the frontiers of a root.
* `SlotsFor`: the slots of the heads that a pattern asks for; `SlotsFor.unique`: there is one list.
* `Rooted.querySlots`, `Rooted.layered`: **the slots of a pattern**, read from the index deltas or
  from a compact base and a tail.
* `Rooted.resolveObjectAt`: the object of a slot is that of its head.
-/

namespace ForthDB

open ActiveSet

/-- The heads behind some slot deltas. -/
def headsOf (deltas : List SlotDelta) : ℕ → Option ℕ :=
  headsAfter (fun _ => none) (deltas.map SlotDelta.change)

/-- The head of a slot is what its last delta left. -/
theorem headsOf_eq_find (deltas : List SlotDelta) (slot : ℕ) :
    headsOf deltas slot =
      (deltas.reverse.find? fun delta => delta.slot = slot).bind SlotDelta.resultingVisible := by
  unfold headsOf
  rw [headsAfter_eq_find, ← List.map_reverse, List.find?_map, Option.bind_map]
  rfl

theorem headsOf_append (deltas : List SlotDelta) (d : SlotDelta) (slot : ℕ) :
    headsOf (deltas ++ [d]) slot =
      if slot = d.slot then d.resultingVisible else headsOf deltas slot := by
  unfold headsOf
  rw [List.map_append, headsAfter_append]
  exact Function.update_apply _ _ _ _

/-- What is read stays when more follows. -/
theorem getElem?_of_extended {α : Type} {as bs : List α} (h : as <+: bs) {i : ℕ} {a : α}
    (hi : as[i]? = some a) : bs[i]? = some a := by
  obtain ⟨more, rfl⟩ := h
  rw [List.getElem?_append_left (List.getElem?_eq_some_iff.1 hi).1]
  exact hi

/-- A record keeps its slot when more records follow. -/
theorem slotOf_mono {records records' : List FactRecord} (h : records <+: records') {x t : ℕ}
    (hx : slotOf records x = some t) : slotOf records' x = some t := by
  unfold slotOf at hx ⊢
  obtain ⟨fact, hfact, rfl⟩ := Option.map_eq_some_iff.1 hx
  rw [getElem?_of_extended h hfact]
  rfl

/-- The index deltas of a legal history are the same when more records follow. -/
theorem transitions_mono {records records' : List FactRecord} (h : records <+: records')
    {heads : ℕ → Option ℕ} {deltas : List SlotDelta}
    (hlegal : Legal (slotOf records) heads (deltas.map SlotDelta.change)) :
    deltas.flatMap (SlotDelta.transition records') =
      deltas.flatMap (SlotDelta.transition records) := by
  have hreference : ∀ reference added t, (∀ x, reference = some x → slotOf records x = some t) →
      referenceIndexes records' reference added = referenceIndexes records reference added := by
    intro reference added t hslot
    cases reference with
    | none => rfl
    | some x =>
      obtain ⟨fact, hfact, -⟩ := Option.map_eq_some_iff.1 (hslot x rfl)
      unfold referenceIndexes
      rw [Option.bind_some, Option.bind_some, getElem?_of_extended h hfact, hfact]
  induction deltas generalizing heads with
  | nil => rfl
  | cons d deltas ih =>
    obtain ⟨hd, hrest⟩ := hlegal
    have hprevious := hreference d.previousVisible false d.slot hd.removed
    have hresulting := hreference d.resultingVisible true d.slot hd.added
    rw [List.flatMap_cons, List.flatMap_cons, ih hrest, SlotDelta.transition, SlotDelta.transition,
      hprevious, hresulting]

/-- The slots of the heads that a pattern asks for, in order. -/
structure SlotsFor (records : List FactRecord) (deltas : List SlotDelta) (pattern : QueryPattern)
    (slots : List ℕ) : Prop where
  sorted : slots.Pairwise (· < ·)
  mem : ∀ t, t ∈ slots ↔ ∃ x fact, headsOf deltas t = some x ∧ records[x]? = some fact ∧
    pattern.Holds fact

namespace SlotsFor

variable {records records' : List FactRecord} {deltas : List SlotDelta} {pattern : QueryPattern}
  {slots slots' : List ℕ}

/-- There is one such list. -/
theorem unique (h : SlotsFor records deltas pattern slots)
    (h' : SlotsFor records deltas pattern slots') : slots = slots' := by
  have hperm : slots.Perm slots' := by
    refine (List.perm_ext_iff_of_nodup ?_ ?_).2 fun t => (h.mem t).trans (h'.mem t).symm
    · exact h.sorted.imp ne_of_lt
    · exact h'.sorted.imp ne_of_lt
  exact hperm.eq_of_pairwise' (h.sorted.imp le_of_lt) (h'.sorted.imp le_of_lt)

/-- More records behind a legal history do not change it. -/
theorem mono (h : SlotsFor records deltas pattern slots) (hextends : records <+: records')
    (hlegal : Legal (slotOf records) (fun _ => none) (deltas.map SlotDelta.change)) :
    SlotsFor records' deltas pattern slots := by
  refine ⟨h.sorted, fun t => (h.mem t).trans ?_⟩
  constructor
  · rintro ⟨x, fact, hhead, hfact, hholds⟩
    exact ⟨x, fact, hhead, getElem?_of_extended hextends hfact, hholds⟩
  · rintro ⟨x, fact, hhead, hfact, hholds⟩
    -- the head is one of the records of the history
    have hslot := hlegal.group_head (fun _ _ hnone => nomatch hnone) t x hhead
    obtain ⟨fact', hfact', -⟩ := Option.map_eq_some_iff.1 hslot
    obtain rfl := Option.some.inj ((getElem?_of_extended hextends hfact').symm.trans hfact)
    exact ⟨x, fact', hhead, hfact', hholds⟩

/-- The groups of a list of heads. -/
theorem of_lists {xs ts : List ℕ}
    (hlegal : Legal (slotOf records) (fun _ => none) (deltas.map SlotDelta.change))
    (hx : Lists (slotOf records) (headsOf deltas) (pattern.selects records) xs)
    (ht : xs.map (slotOf records) = ts.map some) :
    SlotsFor records deltas pattern (ts.insertionSort (· ≤ ·)) := by
  obtain ⟨hsorted, hmem⟩ := hx.groups ht
  refine ⟨hsorted, fun t => (hmem t).trans ?_⟩
  constructor
  · rintro ⟨x, hhead, -, hselects⟩
    obtain ⟨fact, hfact, hholds⟩ := (pattern.selects_iff records x).1 hselects
    exact ⟨x, fact, hhead, hfact, hholds⟩
  · rintro ⟨x, fact, hhead, hfact, hholds⟩
    exact ⟨x, hhead, hlegal.group_head (fun _ _ hnone => nomatch hnone) t x hhead,
      (pattern.selects_iff records x).2 ⟨fact, hfact, hholds⟩⟩

end SlotsFor

namespace LayeredSnapshot

variable {s : LayeredSnapshot} {active : Dict ℕ IndexDelta}

/-- The range of a pattern in a compact base is its slice. -/
theorem baseRange_eq
    (hentries : ∀ permutation, s.base.entries permutation = sortedEntries active permutation)
    (pattern : QueryPattern) :
    ∃ start stop,
      s.baseRange pattern = (sortedEntries active (queryKey pattern).1, start, stop) ∧
      ((sortedEntries active (queryKey pattern).1).drop start).take (stop - start) =
        patternSlice active pattern ∧
      (stop : ℤ) - start = (patternSlice active pattern).length := by
  have hsorted : (sortedEntries active (queryKey pattern).1).Pairwise CompactIndexEntry.Before :=
    List.pairwise_insertionSort _ _
  obtain ⟨hle, hlen, hslice⟩ := slice_compactPrefixRange hsorted (queryKey pattern).2.1
    (queryKey pattern).2.2
  refine ⟨_, _, ?_, hslice, ?_⟩
  · unfold LayeredSnapshot.baseRange
    simp only [hentries]
  · have hlength := congrArg List.length hslice
    rw [List.length_take, List.length_drop] at hlength
    unfold patternSlice
    omega

/-- The records and slots that a snapshot finds, behind the edits of its tail. -/
def found (s : LayeredSnapshot) (active : Dict ℕ IndexDelta) (pattern : QueryPattern) :
    List (ℕ × ℕ) :=
  replay Prod.fst ((patternSlice active pattern).map fun e => (e.record, e.slot))
    (selectedEdits (fun delta => matchesIndex delta pattern) IndexDelta.added
      (fun delta => (delta.record, delta.slot)) s.tail)

theorem querySlots_eq
    (hentries : ∀ permutation, s.base.entries permutation = sortedEntries active permutation)
    (pattern : QueryPattern) :
    s.querySlots pattern = ((s.found active pattern).map Prod.snd).insertionSort (· ≤ ·) := by
  obtain ⟨start, stop, hrange, hslice, -⟩ := baseRange_eq hentries pattern
  unfold LayeredSnapshot.querySlots found
  rw [hrange]
  simp only [hslice]
  rw [← foldl_selected]

theorem queryCount_eq
    (hentries : ∀ permutation, s.base.entries permutation = sortedEntries active permutation)
    (pattern : QueryPattern) {count : ℕ}
    (hcount : balance (patternSlice active pattern).length (s.tail.filterMap (editOf pattern)) =
      count) : s.queryCount pattern = .ok count := by
  obtain ⟨start, stop, hrange, -, hlength⟩ := baseRange_eq hentries pattern
  have hloop := foldl_balance (fun delta => matchesIndex delta pattern) IndexDelta.added
    IndexDelta.record (patternSlice active pattern).length s.tail
  have hcount' : balance (patternSlice active pattern).length
      (selectedEdits (fun delta => matchesIndex delta pattern) IndexDelta.added IndexDelta.record
        s.tail) = count := hcount
  unfold LayeredSnapshot.queryCount
  rw [hrange]
  simp only [hlength]
  rw [hloop, hcount', if_pos (Int.natCast_nonneg _), Int.toNat_natCast]

end LayeredSnapshot

/-- The arenas up to the frontiers of a root. -/
structure Rooted (w : Workspace) (root : WorldRoot) (deltas : List SlotDelta) : Prop where
  slots : activeUpTo w.deltas root.slotDeltaFrontier = .ok deltas
  indexes : activeUpTo w.indexDeltas root.indexDeltaFrontier =
    .ok (deltas.flatMap (SlotDelta.transition w.records))
  legal : Legal (slotOf w.records) (fun _ => none) (deltas.map SlotDelta.change)

namespace Rooted

variable {w : Workspace} {root root' : WorldRoot} {deltas more : List SlotDelta}

/-- Records that have slots resolve. -/
theorem mapM_slots {xs ts : List ℕ} (h : xs.map (slotOf w.records) = ts.map some) :
    (xs.mapM fun record => (w.recordAt record).map FactRecord.slot) = .ok ts := by
  induction xs generalizing ts with
  | nil =>
    obtain rfl : ts = [] := List.map_eq_nil_iff.1 h.symm
    rfl
  | cons x xs ih =>
    cases ts with
    | nil => cases h
    | cons t ts =>
      obtain ⟨hx, hxs⟩ := List.cons.inj h
      obtain ⟨fact, hfact, rfl⟩ := Option.map_eq_some_iff.1 hx
      rw [List.mapM_cons, ih hxs]
      unfold Workspace.recordAt
      rw [hfact]
      rfl

/-- **The slots of a pattern**, read from the index deltas of a root. -/
theorem querySlots (h : Rooted w root deltas) (pattern : QueryPattern) :
    ∃ slots, SlotsFor w.records deltas pattern slots ∧ w.querySlots root pattern = .ok slots := by
  obtain ⟨hlists, -⟩ := (lists_nil (slotOf w.records) (pattern.selects w.records)).replayed h.legal
  rw [← edits_transitions] at hlists
  obtain ⟨ts, hts⟩ := hlists.exists_groups
  refine ⟨_, .of_lists h.legal hlists hts, ?_⟩
  have hloop := foldl_selected (fun delta => matchesIndex delta pattern) IndexDelta.added id
    IndexDelta.record [] (deltas.flatMap (SlotDelta.transition w.records))
  unfold Workspace.querySlots
  rw [h.indexes]
  simp only [bind, Except.bind]
  rw [hloop]
  have hmap := mapM_slots hts
  unfold editOf at hmap
  unfold selectedEdits
  rw [hmap]
  rfl

/-- **The compact base** of a root holds its heads. -/
theorem compactBase (h : Rooted w root deltas) :
    ∃ base active, w.compactBase root = .ok base ∧ base.root = root ∧
      Compacts w.records (headsOf deltas) active ∧
      ∀ permutation, base.entries permutation = sortedEntries active permutation := by
  have hempty : Compacts w.records (fun _ => none) ∅ := by
    intro x delta
    refine iff_of_false (nomatch ·) ?_
    rintro ⟨⟨k, -, hhead⟩, -⟩
    cases hhead
  have hactive := hempty.transitions h.legal
  set active := (deltas.flatMap (SlotDelta.transition w.records)).foldl compactDelta ∅ with hdef
  have hbase : w.compactBase root = .ok
      { root := root, spo := sortedEntries active .spo, pos := sortedEntries active .pos
        osp := sortedEntries active .osp } := by
    unfold Workspace.compactBase
    rw [h.indexes]
    rfl
  exact ⟨_, active, hbase, rfl, hactive, fun permutation => by cases permutation <;> rfl⟩

/-- An index delta carries the slot of its record. -/
theorem slotOf_of_mem {records : List FactRecord} {deltas : List SlotDelta} {delta : IndexDelta}
    (h : delta ∈ deltas.flatMap (SlotDelta.transition records)) :
    slotOf records delta.record = some delta.slot := by
  have hreference : ∀ reference added, delta ∈ referenceIndexes records reference added →
      slotOf records delta.record = some delta.slot := by
    intro reference added hmem
    unfold referenceIndexes at hmem
    split at hmem
    · rename_i x fact hx
      obtain ⟨y, -, hy⟩ := Option.bind_eq_some_iff.1 hx
      obtain ⟨fact', hfact, heq⟩ := Option.map_eq_some_iff.1 hy
      obtain ⟨rfl, rfl⟩ := Prod.mk.inj heq
      unfold slotOf
      simp only [factIndexes, List.mem_cons, List.not_mem_nil, or_false] at hmem
      rcases hmem with rfl | rfl | rfl <;> simp only [hfact, Option.map_some]
    · cases hmem
  obtain ⟨d, -, hd⟩ := List.mem_flatMap.1 h
  rcases List.mem_append.1 hd with hd | hd
  · exact hreference _ _ hd
  · exact hreference _ _ hd

theorem activeUpTo_ok {α : Type} {arena active : List α} {frontier : ℕ}
    (h : activeUpTo arena frontier = .ok active) :
    active.length = frontier ∧ active <+: arena := by
  unfold activeUpTo at h
  split at h
  · obtain rfl := Except.ok.inj h
    exact ⟨List.length_take_of_le ‹_›, List.take_prefix _ _⟩
  · cases h

/-- A snapshot keeps the index deltas between its roots. -/
theorem layeredSnapshot_eq (h : Rooted w root deltas) (h' : Rooted w root' (deltas ++ more))
    {base : CompactBase} (hbase : base.root = root) :
    w.layeredSnapshot base root' =
      .ok ⟨base, root', more.flatMap (SlotDelta.transition w.records)⟩ := by
  obtain ⟨hlen, -⟩ := activeUpTo_ok h.indexes
  obtain ⟨hlen', -⟩ := activeUpTo_ok h'.indexes
  have hle : base.root.indexDeltaFrontier ≤ root'.indexDeltaFrontier := by
    rw [hbase, ← hlen, ← hlen', List.flatMap_append, List.length_append]
    exact Nat.le_add_right _ _
  unfold Workspace.layeredSnapshot
  rw [if_pos hle, h'.indexes, hbase, ← hlen, List.flatMap_append]
  simp only [Except.map, List.drop_left]

/-- **The slots and the count of a pattern**, read from a compact base and the index deltas behind
it. -/
theorem layered (h : Rooted w root deltas) (h' : Rooted w root' (deltas ++ more))
    {base : CompactBase} (hbase : w.compactBase root = .ok base) (pattern : QueryPattern) :
    ∃ snapshot slots, w.layeredSnapshot base root' = .ok snapshot ∧
      SlotsFor w.records (deltas ++ more) pattern slots ∧
      snapshot.querySlots pattern = slots ∧ snapshot.queryCount pattern = .ok slots.length := by
  obtain ⟨base', active, hcompact, hroot, hactive, hentries⟩ := h.compactBase
  obtain rfl := Except.ok.inj (hbase.symm.trans hcompact)
  obtain ⟨hlists, hslots⟩ := hactive.patternSlice_lists pattern
  -- the tail tells the heads of the base
  have hlegal := h'.legal
  rw [List.map_append, legal_append] at hlegal
  obtain ⟨hreplayed, hbalance⟩ := hlists.replayed hlegal.2
  rw [← edits_transitions] at hreplayed hbalance
  have hsnapshot := h.layeredSnapshot_eq h' hroot
  set snapshot : LayeredSnapshot := ⟨base, root', more.flatMap (SlotDelta.transition w.records)⟩
  set pairs := snapshot.found active pattern with hpairs
  have hrecords : pairs.map Prod.fst = replay id
      ((patternSlice active pattern).map CompactIndexEntry.record)
      (snapshot.tail.filterMap (editOf pattern)) := by
    rw [hpairs, LayeredSnapshot.found, replay_map, selectedEdits_map, List.map_map]
    rfl
  rw [← hrecords] at hreplayed hbalance
  have hpair : ∀ e ∈ pairs, slotOf w.records e.1 = some e.2 := by
    refine forall_mem_replay (fun e he => ?_) fun e he => ?_
    · obtain ⟨entry, hentry, rfl⟩ := List.mem_map.1 he
      exact hslots entry hentry
    · obtain ⟨delta, hdelta, heq⟩ := List.mem_filterMap.1 he
      split at heq
      · obtain rfl := Option.some.inj heq
        exact slotOf_of_mem hdelta
      · cases heq
  have hts : (pairs.map Prod.fst).map (slotOf w.records) = (pairs.map Prod.snd).map some := by
    rw [List.map_map, List.map_map]
    exact List.map_congr_left hpair
  refine ⟨snapshot, _, hsnapshot, .of_lists h'.legal ?_ hts, ?_, ?_⟩
  · unfold headsOf at hreplayed ⊢
    rw [List.map_append, headsAfter_append]
    exact hreplayed
  · exact snapshot.querySlots_eq hentries pattern
  · rw [List.length_insertionSort, List.length_map, ← List.length_map (f := Prod.fst)]
    rw [List.length_map] at hbalance
    exact snapshot.queryCount_eq hentries pattern hbalance

/-- **The object of a slot** is that of its head. -/
theorem resolveObjectAt (h : Rooted w root deltas) (slot : ℕ) :
    w.resolveObjectAt root slot = match headsOf deltas slot with
      | some x => (w.recordAt x).map fun record => some record.object
      | none => .ok none := by
  unfold Workspace.resolveObjectAt
  rw [h.slots, headsOf_eq_find]
  rfl

end Rooted

end ForthDB
