import ForthDB.Journal.Recovery
import ForthDB.Queue.PublishedWorlds
import ForthDB.Queue.VmRuns
import ForthDB.Snapshot.Answers

/-!
# Resuming from an image

An engine at rest writes an image of its world beside the journal. When the journal is opened again,
the image stands for all epochs before it, if the journal is still as long as it was.

* `length_records_le`, `length_active`: an image retains no more records than the history appended,
  and a head for each slot that is defined.
* `World.Alike`: worlds that a client cannot tell apart.
* `Twins`: an engine that replayed the epochs, and one that was loaded from an image of its world.
* `Twins.epoch`: **one epoch**, planned by both alike. `Twins.resumed`: an image of the second one is
  loaded as a twin again.
-/

namespace ForthDB

open Bytes VmEpochMaterializer

/-! ## The retained records -/

namespace ImageNames

variable {names : ImageNames}

theorem length_stack {slot : ℕ} {es : List ProjectedFact} {rs rs' : List MappedRecord}
    {previous head : Option ℕ} (h : names.stack slot (rs, previous) es = .ok (rs', head)) :
    rs'.length = rs.length + es.length := by
  induction es generalizing rs previous with
  | nil =>
    cases h
    rfl
  | cons e es ih =>
    unfold stack at h
    cases hr : names.record slot previous e with
    | error message =>
      simp only [hr] at h
      cases h
    | ok r =>
      simp only [hr] at h
      rw [ih h, List.length_append, List.length_singleton, List.length_cons]
      omega

theorem length_slotStacks {definitions : Definitions} {todo : List String}
    {rs rs' : List MappedRecord} {hs hs' : List (Option ℕ)}
    (h : names.slotStacks definitions (rs, hs) todo = .ok (rs', hs')) :
    rs'.length = rs.length +
      (todo.flatMap fun slot => (definitions.lookup ⟨slot⟩).getD []).length := by
  induction todo generalizing rs hs with
  | nil =>
    cases h
    rfl
  | cons slot todo ih =>
    unfold slotStacks at h
    cases hst : names.stack hs.length (rs, none) ((definitions.lookup ⟨slot⟩).getD []) with
    | error message =>
      simp only [hst] at h
      cases h
    | ok q =>
      obtain ⟨rs₁, head⟩ := q
      simp only [hst] at h
      have hone := length_stack hst
      rw [ih h, hone, List.flatMap_cons, List.length_append]
      omega

end ImageNames

/-- Entries that are known by ids below `n` are at most `n`. -/
theorem VmQueryProjection.Apart.length_le {m : VmQueryProjection.EntryStacks} {n : ℕ}
    (h : VmQueryProjection.Apart m n) {slots : List SlotId} (hslots : slots.Nodup) :
    (slots.flatMap m.stack).length ≤ n := by
  have hnodup : (slots.flatMap fun slot => (m.stack slot).map ProjectedFact.recordId).Nodup := by
    rw [List.nodup_flatMap]
    constructor
    · intro slot _
      refine (h.nodup slot).map_on ?_
      intro e he e' he' hid
      exact h.ids slot slot e he e' he' hid
    · refine hslots.imp ?_
      intro slot slot' hne
      refine List.disjoint_left.2 ?_
      intro i hi hi'
      obtain ⟨e, he, rfl⟩ := List.mem_map.1 hi
      obtain ⟨e', he', hid⟩ := List.mem_map.1 hi'
      -- one entry stands under one slot
      have hsame := h.ids slot' slot e' he' e he hid
      have hown := (h.filed slot e he).1
      have hown' := (h.filed slot' e' he').1
      rw [hsame, hown] at hown'
      exact hne hown'
  have hsub : (slots.flatMap fun slot => (m.stack slot).map ProjectedFact.recordId) ⊆
      List.range n := by
    intro i hi
    obtain ⟨slot, -, hmem⟩ := List.mem_flatMap.1 hi
    obtain ⟨e, he, rfl⟩ := List.mem_map.1 hmem
    exact List.mem_range.2 (h.filed slot e he).2
  have hle := (hnodup.subperm hsub).length_le
  rw [List.length_range, ← List.map_flatMap, List.length_map] at hle
  exact hle

theorem MmapVmSnapshot.slotIds_nodup (p : VmQueryProjection) : (p.names.slots.map SlotId.mk).Nodup := by
  refine List.Nodup.map (fun x y hxy => SlotId.mk.inj hxy) ?_
  exact (names_slots_sorted p).imp fun hlt => ne_of_lt hlt

/-- **An image retains** no more records than its history appended. -/
theorem MmapVmSnapshot.length_records_le {journal : List UInt8} {n : ℕ} {w : World}
    {fs : List CommitFrame} {s : MmapVmSnapshot}
    (h : create journal n w (.fromFrames fs) = .ok s) :
    s.records.length ≤ recordsOf (operationsOf fs) := by
  obtain ⟨-, -, records, heads, frames, history, hst, -, -, hs⟩ := create_ok h
  obtain ⟨m, hlists, hapart⟩ := VmQueryProjection.fromFrames_apart fs
  have hrecords : s.records = records := by
    rw [hs]
    rfl
  have hlength := ImageNames.length_slotStacks hst
  have hflat : ((VmQueryProjection.fromFrames fs).names.slots.flatMap fun slot =>
      ((VmQueryProjection.fromFrames fs).definitions.lookup ⟨slot⟩).getD []).length =
      (((VmQueryProjection.fromFrames fs).names.slots.map SlotId.mk).flatMap m.stack).length := by
    rw [List.flatMap_map, List.length_flatMap, List.length_flatMap]
    congr 1
    refine List.map_congr_left ?_
    intro slot _
    rw [hlists.stack, List.length_reverse]
  rw [hrecords, hlength, hflat, List.length_nil, Nat.zero_add]
  exact hapart.length_le (slotIds_nodup _)

/-- **An image counts** a head for each slot that is defined. -/
theorem MmapVmSnapshot.length_active {journal : List UInt8} {n : ℕ} {w : World}
    {p : VmQueryProjection} {s : MmapVmSnapshot} (h : create journal n w p = .ok s)
    {m : SlotStacks} (hp : VmQueryProjection.Projects p.definitions m) :
    s.active.length = m.size := by
  have hval : ∀ (t : ℕ) slot, p.names.slots[t]? = some slot →
      ∀ e ∈ (p.definitions.lookup ⟨slot⟩).getD [], ∀ prev r, p.names.record t prev e = .ok r →
        p.names.fact r.subject r.predicate r.object = some e.fact :=
    fun t slot _ e _ prev r hr => (ImageNames.record_spec hr).2.2.2
  obtain ⟨htables, hwritten, -⟩ :=
    create_linked (g := ProjectedFact.fact) h hp.stack hp.nonempty hval
  have hnames : s.slots = p.names.slots := congrArg ImageNames.slots htables
  have hdefined : ∀ slot ∈ s.slots, m.stack ⟨slot⟩ ≠ [] := by
    intro slot hslot
    rw [hnames] at hslot
    exact stack_ne_of_mem hp.stack hp.nonempty hslot
  -- every head stands for a record
  have hheads : ∀ head ∈ s.heads, head ≠ none := by
    rintro head hhead rfl
    obtain ⟨t, ht⟩ := List.getElem?_of_mem hhead
    have hlt : t < s.slots.length := by
      rw [← hwritten.length]
      exact (List.getElem?_eq_some_iff.1 ht).1
    have hchain := hwritten.chain t _ (List.getElem?_eq_getElem hlt)
    rw [ht] at hchain
    cases hstack : m.stack ⟨s.slots[t]⟩ with
    | nil => exact hdefined _ (List.getElem_mem hlt) hstack
    | cons e es =>
      rw [hstack] at hchain
      cases hchain
  have hcount : ∀ hs : List (Option ℕ), (∀ head ∈ hs, head ≠ none) →
      (hs.filterMap id).length = hs.length := by
    intro hs hsome
    rw [List.length_filterMap_eq_countP, List.countP_eq_length]
    intro head hhead
    exact Option.isSome_iff_ne_none.2 (hsome head hhead)
  have hactive : s.active = activeOf s.records s.heads := by
    obtain ⟨-, -, records, heads, frames, history, -, -, -, hs⟩ := create_ok h
    rw [hs]
    rfl
  have hmem : (s.slots.map SlotId.mk).toFinset = m.active := by
    ext slot
    rw [List.mem_toFinset, List.mem_map, m.mem_active]
    constructor
    · rintro ⟨name, hname, rfl⟩
      exact hdefined name hname
    · intro hne
      refine ⟨slot.value, ?_, rfl⟩
      rw [hnames, mem_names_slots]
      intro hnone
      have hstack := hp.stack slot
      rw [show p.definitions.lookup slot = none from hnone] at hstack
      exact hne (List.reverse_eq_nil_iff.1 hstack.symm)
  have hnodup : (s.slots.map SlotId.mk).Nodup := by
    rw [hnames]
    exact slotIds_nodup p
  rw [hactive, activeOf, List.length_insertionSort, hcount _ hheads, hwritten.length,
    StackMap.size, ← hmem, List.toFinset_card_of_nodup hnodup, List.length_map]

/-! ## What a client can compare -/

/-- A client cannot tell two worlds apart. -/
structure World.Alike (w v : World) : Prop where
  id : v.id = w.id
  version : v.version = w.version
  nextEntity : v.nextEntity = w.nextEntity
  operationCount : v.operationCount = w.operationCount
  activeSlotCount : v.activeSlotCount = w.activeSlotCount
  recordCount : v.recordCount = w.recordCount
  frames : ∃ fs, w.frames = .ok fs ∧ v.frames = .ok fs
  resolve : ∀ slot, ∃ fact, w.resolve slot = .ok fact ∧ v.resolve slot = .ok fact

/-- Counters that fit their fields in one of two such worlds fit them in the other. -/
theorem World.Alike.inRange {w v : World} (h : w.Alike v) (hw : w.InRange) : v.InRange := by
  constructor
  · exact h.version ▸ hw.version
  · exact h.nextEntity ▸ hw.nextEntity
  · exact h.operationCount ▸ hw.operationCount
  · exact h.activeSlotCount ▸ hw.activeSlotCount
  · exact h.recordCount ▸ hw.recordCount

/-- Worlds that hold one history. -/
theorem World.Holds.alike {w v : World} {fs : List CommitFrame} {a : WorldState} (h : w.Holds fs a)
    (h' : v.Holds fs a) : w.Alike v := by
  obtain ⟨hid, hversion, -⟩ := h'.chained.det h.chained
  exact ⟨hid, hversion, h'.next.trans h.next.symm, h'.operationCount.trans h.operationCount.symm,
    h'.active.trans h.active.symm, h'.records.trans h.records.symm, ⟨fs, h.frames, h'.frames⟩,
    fun slot => ⟨_, h.resolve slot, h'.resolve slot⟩⟩

/-! ## Two engines -/

/-- What a planned epoch leaves in the arenas. -/
theorem VmEpochMaterializer.deriveVmEpoch_grown {m m₁ : VmEpochMaterializer} {base : FrozenNames}
    {names : List SlotId} {a : WorldState} (h : m.Holds base names a) (ht : Tight base names m)
    {w : World} {is : List QueuedIntent} {plan : EpochPlan}
    (hd : m.deriveVmEpoch w is = .ok (plan, m₁)) :
    m₁.workspace.records.length = m.workspace.records.length +
        recordsOf ((EpochState.start w a).intents is).2.operations ∧
      m₁.workspace.indexDeltas.length = m.workspace.indexDeltas.length +
        indexCost a.slots ((EpochState.start w a).intents is).2.operations ∧
      a.applyAll ((EpochState.start w a).intents is).2.operations =
        some ((EpochState.start w a).intents is).2.state := by
  obtain ⟨ds, r, hr, rfl⟩ := deriveVmEpoch_run hd
  obtain ⟨ops, hops, hb, hrec, hidx⟩ := EpochRun.intents_grown (h.startVm ht w) hr
  have hops' : ((EpochState.start w a).intents is).2.operations = ops := hops
  rw [hops']
  exact ⟨hrec, hidx, hb⟩

/-- The plan that a materializer makes of an abstract epoch. -/
def EpochState.vmPlan (w : World) (ds : List Decision) (s : EpochState) : EpochPlan :=
  .assemble w ds (World.fromVmEpoch w s.operations s.state.next s.state.slots.size s.state.records)

theorem World.fromVmEpoch_nextEntity (w : World) (ops : List Operation) (n size records : ℕ) :
    (w.fromVmEpoch ops n size records).1.nextEntity = n := rfl

namespace World.Holds

variable {w v : World} {fs : List CommitFrame} {a b : WorldState} {s : EpochState}
  {ds : List Decision}

/-- Worlds that hold one history plan alike. -/
theorem vmPlan_agrees (h : w.Holds fs a) (h' : v.Holds fs a) :
    (s.vmPlan w ds).Agrees (s.vmPlan v ds) := by
  have halike := h.alike h'
  constructor
  · have hsummary : EpochState.summary v ds s = EpochState.summary w ds s := by
      unfold EpochState.summary
      rw [halike.id, halike.version, halike.activeSlotCount, halike.recordCount]
    unfold EpochState.vmPlan
    rw [EpochState.summary_vmPlan, EpochState.summary_vmPlan, hsummary]
  · unfold EpochState.vmPlan EpochPlan.assemble
    split
    · exact (World.fromVmEpoch_nextEntity w _ _ _ _).trans
        (World.fromVmEpoch_nextEntity v _ _ _ _).symm
    · exact halike.nextEntity.symm

/-- The tail of a plan holds the history with its frames. -/
theorem vmPlan (h : w.Holds fs a) {is : List QueuedIntent} (hs : (EpochState.start w a).intents is = (ds, s))
    (hb : a.applyAll s.operations = some s.state) :
    (s.vmPlan w ds).tail.Holds (fs ++ (s.vmPlan w ds).frames) s.state := by
  rcases EpochPlan.assemble_cases w ds (World.fromVmEpoch w s.operations s.state.next
    s.state.slots.size s.state.records) with ⟨-, htail, hframes⟩ | ⟨hno, htail, hframes⟩
  · have htail' : (s.vmPlan w ds).tail = _ := htail
    have hframes' : (s.vmPlan w ds).frames = _ := hframes
    rw [htail', hframes']
    exact fromVmEpoch_holds h hb
  · have htail' : (s.vmPlan w ds).tail = _ := htail
    have hframes' : (s.vmPlan w ds).frames = _ := hframes
    -- nothing was accepted, so the state is the one before
    have hds : ((EpochState.start w a).intents is).1.any Decision.isAccepted = false := by
      rw [hs]
      exact hno
    have hsame := (EpochState.intents_of_rejected (EpochState.intents_rejected.1 hds)).2
    rw [hs] at hsame
    have hstate : s.state = a := congrArg EpochState.state hsame
    rw [htail', hframes', List.append_nil, hstate]
    exact h

end World.Holds

/-- An engine that replayed the history `fs` from genesis, and one whose world holds it behind an
image; the arenas of the second are no fuller. -/
structure Twins (w : World) (m : VmEpochMaterializer) (v : World) (m' : VmEpochMaterializer)
    (fs : List CommitFrame) (a : WorldState) : Prop where
  kept : ∃ names, VmKept w m fs a names
  loaded : v.Holds fs a
  holds : ∃ base names, m'.Holds base names a ∧ Tight base names m'
  records : m'.workspace.records.length ≤ m.workspace.records.length
  indexDeltas : m'.workspace.indexDeltas.length ≤ m.workspace.indexDeltas.length

namespace Twins

variable {w v : World} {m m' : VmEpochMaterializer} {fs : List CommitFrame} {a : WorldState}

/-- An engine is a twin of itself. -/
theorem refl {names : List SlotId} (h : VmKept w m fs a names) : Twins w m w m fs a :=
  ⟨⟨names, h⟩, h.world, ⟨.none, names, h.holds, h.tight⟩, le_rfl, le_rfl⟩

theorem alike (h : Twins w m v m' fs a) : w.Alike v := by
  obtain ⟨names, hkept⟩ := h.kept
  exact hkept.world.alike h.loaded

/-- **One epoch** that the first engine plans is planned alike by the second. -/
theorem epoch (h : Twins w m v m' fs a) {is : List QueuedIntent} {plan : EpochPlan}
    {m₁ : VmEpochMaterializer} (hd : m.deriveVmEpoch w is = .ok (plan, m₁)) :
    ∃ plan' m₁', m'.deriveVmEpoch v is = .ok (plan', m₁') ∧ plan.Agrees plan' ∧
      ∃ b, Twins plan.tail m₁ plan'.tail m₁' (fs ++ plan.frames) b := by
  obtain ⟨names, hkept⟩ := h.kept
  obtain ⟨base, names', hholds, htight⟩ := h.holds
  obtain ⟨hid, hversion, -⟩ := h.loaded.chained.det hkept.world.chained
  -- both start from the same state, under the same id
  have hstart : EpochState.start v a = EpochState.start w a := by
    unfold EpochState.start
    rw [hid, hversion]
  obtain ⟨b, names₁, hkept₁, -⟩ := hkept.epoch hd
  obtain ⟨hrec, hidx, hb⟩ := deriveVmEpoch_grown hkept.holds hkept.tight hd
  have hspec := deriveVmEpoch_spec hkept.holds hkept.tight hkept.world.next.symm is
  have hspec' := deriveVmEpoch_spec hholds htight h.loaded.next.symm is
  rw [hstart] at hspec'
  generalize hs : (EpochState.start w a).intents is = outcome at hspec hspec' hrec hidx hb
  obtain ⟨ds, s⟩ := outcome
  rcases hspec with ⟨hfeasible, m₂, names₂, hd₂, -⟩ | ⟨-, halt, hhalt⟩
  swap
  · rw [hd] at hhalt
    cases hhalt
  rw [hd] at hd₂
  obtain ⟨hplan, -⟩ := Prod.mk.inj (Except.ok.inj hd₂)
  have hplan : plan = s.vmPlan w ds := hplan
  -- the arenas of the second engine have room as well
  have hroom : m'.Feasible a s.operations := by
    obtain ⟨hrange, hrecords, hindex⟩ := hfeasible
    have hle := h.records
    have hle' := h.indexDeltas
    refine ⟨hrange, ?_, ?_⟩
    · exact (Nat.add_le_add_right hle _).trans hrecords
    · exact (Nat.add_le_add_right hle' _).trans hindex
  rcases hspec' with ⟨-, m₁', names₁', hd', hh', ht'⟩ | ⟨hnot, -⟩
  swap
  · exact absurd hroom hnot
  have hd' : m'.deriveVmEpoch v is = .ok (s.vmPlan v ds, m₁') := hd'
  obtain ⟨hrec', hidx', -⟩ := deriveVmEpoch_grown hholds htight hd'
  rw [hstart, hs] at hrec' hidx'
  have hagrees : plan.Agrees (s.vmPlan v ds) := by
    rw [hplan]
    exact hkept.world.vmPlan_agrees h.loaded
  have hframes : (s.vmPlan v ds).frames = plan.frames :=
    (congrArg PlanSummary.frames hagrees.summary).symm
  have htail : plan.tail.Holds (fs ++ plan.frames) s.state := by
    rw [hplan]
    exact hkept.world.vmPlan hs hb
  have htail' : (s.vmPlan v ds).tail.Holds (fs ++ plan.frames) s.state := by
    rw [← hframes]
    exact h.loaded.vmPlan (hstart ▸ hs) hb
  obtain ⟨-, -, rfl⟩ := htail.chained.det hkept₁.world.chained
  have hle := h.records
  have hle' := h.indexDeltas
  refine ⟨_, m₁', hd', hagrees, s.state, ⟨names₁, hkept₁⟩, htail', ⟨base, names₁', hh', ht'⟩, ?_, ?_⟩
  · omega
  · omega

/-- **An image** that the second engine writes is read back as a third one. -/
theorem resumed (h : Twins w m v m' fs a) (hrange : w.InRange) (hframes : ∀ f ∈ fs, f.InRange)
    {p : VmQueryProjection} (hp : v.vmQuery = .ok p) {journal : List UInt8} {n : ℕ}
    {s : MmapVmSnapshot} (hs : MmapVmSnapshot.create journal n v p = .ok s) (hn : n < 2 ^ 64)
    (hheader : 16 ≤ journal.length) (hjournal : journal.length < 2 ^ 64) :
    s.Sound journal ∧ s.epochCount = n ∧ fromMmap s = .ok s.materializer ∧
      Twins w m (.fromMmap s) s.materializer fs a := by
  obtain ⟨names, hkept⟩ := h.kept
  have hrange' : v.InRange := h.alike.inRange hrange
  obtain ⟨hformed, -⟩ := MmapVmSnapshot.create_formed hs hp hrange' hn hjournal
  obtain ⟨hmapped, -, records, heads, frames, history, -, -, -, hparts⟩ :=
    MmapVmSnapshot.create_ok hs
  obtain ⟨gs, hgs, rfl⟩ := World.vmQuery_frames hp hmapped
  rw [h.loaded.frames] at hgs
  obtain rfl := Except.ok.inj hgs
  -- the image links the stacks of the history
  have hslots : a.slots = (operationsOf fs).foldl SlotStacks.perform .empty :=
    WorldState.applyAll_slots h.loaded.chained.applyAll
  have hprojects := VmQueryProjection.fromFrames_projects fs
  rw [← hslots] at hprojects
  have hlinks := MmapVmSnapshot.create_links hs hprojects
  have hhistory := MmapVmSnapshot.create_frames hs h.loaded.frames hframes
  have hid : s.worldId = v.id := by
    rw [hparts]
    rfl
  have hversion : s.worldVersion = v.version := by
    rw [hparts]
    rfl
  have hnext : s.nextEntity = v.nextEntity := by
    rw [hparts]
    rfl
  have hcount : s.operationCount = v.operationCount := by
    rw [hparts]
    rfl
  have hactive : s.activeSlotCount = v.activeSlotCount := by
    rw [hparts]
    rfl
  have hrecords : s.recordCount = v.recordCount := by
    rw [hparts]
    rfl
  have hepochs : s.epochCount = n := by
    rw [hparts]
    rfl
  have hloaded : (World.fromMmap s).Holds fs a :=
    ⟨MmapVmSnapshot.fromMmap_replays hlinks hhistory h.loaded.toReplays hid hversion hnext hcount,
      hactive.trans h.loaded.active, hrecords.trans h.loaded.records⟩
  -- it retains no more records than the history appended
  have hle := MmapVmSnapshot.length_records_le hs
  have hall : a.records = recordsOf (operationsOf fs) :=
    (WorldState.applyAll_records h.loaded.chained.applyAll).trans (Nat.zero_add _)
  have hfits : ¬ s.recordCount < s.records.length := by
    rw [hrecords, h.loaded.records, hall]
    omega
  refine ⟨⟨hformed, ?_, hheader⟩, hepochs, ?_, ⟨names, hkept⟩, hloaded,
    ⟨_, _, hlinks.materializer_holds (hnext.trans h.loaded.next) (hrecords.trans h.loaded.records),
      hlinks.materializer_tight⟩, ?_, ?_⟩
  · rw [hactive, h.loaded.active, MmapVmSnapshot.length_active hs hprojects]
  · rw [hlinks.fromMmap_eq, if_neg hfits]
  · -- the arena of the image holds what it retains
    have hworkspace : s.materializer.workspace.records.length = s.records.length :=
      s.length_workspaceImage
    rw [hworkspace, hkept.records]
    exact hle
  · exact Nat.zero_le _

end Twins

end ForthDB
