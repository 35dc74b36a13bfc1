import ForthDB.World.Projection

/-!
# Histories and the worlds they publish

* `Chained fs id v a`: the frames `fs` link from genesis to the world `id` at version
  `v`, and their operations lead to the abstract state `a`.
* `reconstruct_iff`: `reconstruct` accepts exactly the chained histories.
* `World.Replays w fs a`: the world `w` replays the history `fs` to the state `a`: its
  id, its allocator, its kernel and its readers agree with `a`. `World.Holds` adds the
  counts of slots and records.
* `reconstruct_holds`, `fromVmEpoch_holds`, `intoWorld_holds`: every way to make a
  world keeps it.
-/

namespace ForthDB

/-- The operations of a history. -/
abbrev operationsOf (fs : List CommitFrame) : List Operation := fs.flatMap CommitFrame.operations

/-- The frames link from genesis, and their operations lead to `a`. -/
inductive Chained : List CommitFrame → WorldId → ℕ → WorldState → Prop
  | nil : Chained [] .genesis 0 .genesis
  | snoc {fs : List CommitFrame} {id : WorldId} {v : ℕ} {a b : WorldState} {f : CommitFrame} :
      Chained fs id v a → f.parentWorld = id → f.parentVersion = v →
      a.applyAll f.operations = some b → f.resultingAllocator = b.next →
      calculateWorldId f.parentWorld f.resultingVersion f.resultingAllocator f.operations =
        f.resultingWorld →
      Chained (fs ++ [f]) f.resultingWorld f.resultingVersion b

namespace Chained

variable {fs : List CommitFrame} {id : WorldId} {v : ℕ} {a : WorldState}

theorem applyAll (h : Chained fs id v a) : WorldState.genesis.applyAll (operationsOf fs) = some a := by
  induction h with
  | nil => rfl
  | snoc _ _ _ hb _ _ ih =>
    rw [operationsOf, List.flatMap_append, WorldState.applyAll_append, ih]
    simpa using hb

/-- A history is chained from its first frames on. -/
theorem take (h : Chained fs id v a) (k : ℕ) : ∃ id' v' a', Chained (fs.take k) id' v' a' := by
  induction h with
  | nil => exact ⟨_, _, _, by simpa using Chained.nil⟩
  | @snoc fs id v a b f hfs h1 h2 h3 h4 h5 ih =>
    by_cases hk : k ≤ fs.length
    · rw [List.take_append_of_le_length hk]
      exact ih
    · rw [List.take_of_length_le (by simp; omega)]
      exact ⟨_, _, _, hfs.snoc h1 h2 h3 h4 h5⟩

/-- A chained history determines the world it leads to. -/
theorem det {id' : WorldId} {v' : ℕ} {a' : WorldState} (h : Chained fs id v a)
    (h' : Chained fs id' v' a') : id = id' ∧ v = v' ∧ a = a' := by
  have ha : a = a' := Option.some.inj (h.applyAll.symm.trans h'.applyAll)
  cases h with
  | nil =>
    generalize hfs : ([] : List CommitFrame) = gs at h'
    cases h' with
    | nil => exact ⟨rfl, rfl, ha⟩
    | snoc => simp at hfs
  | @snoc _ _ _ _ _ f _ _ _ _ _ _ =>
    generalize hfs : _ ++ [f] = gs at h'
    cases h' with
    | nil => simp at hfs
    | @snoc _ _ _ _ _ f' _ _ _ _ _ _ =>
      obtain ⟨-, hff⟩ := List.append_inj' hfs rfl
      cases hff
      exact ⟨rfl, rfl, ha⟩

end Chained

namespace VmQueryProjection

/-- The projected stacks are the abstract ones, oldest first. -/
structure Projects (d : Definitions) (m : SlotStacks) : Prop where
  stack : ∀ slot, ((d.lookup slot).getD []).map ProjectedFact.fact = (m.stack slot).reverse
  nonempty : ∀ slot, d.lookup slot ≠ some []

theorem Lists.projects {d : Definitions} {m : EntryStacks} (h : Lists d m) :
    Projects d (m.map ProjectedFact.fact) :=
  ⟨fun slot => by rw [h.stack, List.map_reverse, StackMap.stack_map], h.nonempty⟩

theorem perform_map (m : EntryStacks) (recordId : ℕ) (op : Operation) :
    (perform m recordId op).map ProjectedFact.fact =
      SlotStacks.perform (m.map ProjectedFact.fact) op := by
  cases op with
  | allocateEntity e => rfl
  | define slot fact => exact StackMap.map_push _ _ _ _
  | forget slot => exact StackMap.map_pop _ _ _

/-- **A run of operations** is projected as it acts on the stacks. -/
theorem projectAll_lists {s : Definitions × ℕ} {m : EntryStacks} (h : Lists s.1 m)
    (ops : List Operation) : ∃ m', Lists (ops.foldl project s).1 m' ∧
      m'.map ProjectedFact.fact = ops.foldl SlotStacks.perform (m.map ProjectedFact.fact) := by
  induction ops generalizing s m with
  | nil => exact ⟨m, h, rfl⟩
  | cons op ops ih =>
    obtain ⟨m', hm', hmap⟩ := ih (project_lists h op)
    exact ⟨m', hm', by rw [hmap, perform_map, List.foldl_cons]⟩

/-- **A projection of frames** holds the stacks that their operations build. -/
theorem fromFrames_projects (fs : List CommitFrame) :
    Projects (fromFrames fs).definitions ((operationsOf fs).foldl SlotStacks.perform .empty) := by
  obtain ⟨m, hm, hmap⟩ := projectAll_lists (s := (∅, 0)) (m := .empty) lists_empty (operationsOf fs)
  have hempty : StackMap.map ProjectedFact.fact .empty = (.empty : SlotStacks) := rfl
  rw [hempty] at hmap
  rw [← hmap]
  exact hm.projects

theorem fromFrames_resolve {fs : List CommitFrame} {a : WorldState}
    (ha : WorldState.genesis.applyAll (operationsOf fs) = some a) (slot : SlotId) :
    (fromFrames fs).resolve slot = a.slots.top slot := by
  have h := (fromFrames_projects fs).stack slot
  rw [← show a.slots = (operationsOf fs).foldl SlotStacks.perform .empty from
    WorldState.applyAll_slots ha] at h
  unfold fromFrames at h
  unfold resolve fromFrames StackMap.top
  simp only at h ⊢
  rw [← List.getLast?_reverse, ← h, List.getLast?_map]
  cases ((operationsOf fs).foldl project (∅, 0)).1.lookup slot <;> rfl

theorem fromFrames_definitionsOf {fs : List CommitFrame} {a : WorldState}
    (ha : WorldState.genesis.applyAll (operationsOf fs) = some a) (slot : SlotId) :
    (fromFrames fs).definitionsOf slot = a.slots.stack slot := by
  have h := (fromFrames_projects fs).stack slot
  rw [← show a.slots = (operationsOf fs).foldl SlotStacks.perform .empty from
    WorldState.applyAll_slots ha] at h
  show (((fromFrames fs).definitions.lookup slot).getD []).reverse.map ProjectedFact.fact = _
  rw [List.map_reverse, h, List.reverse_reverse]

end VmQueryProjection

namespace World

/-- The world `w` replays the history `fs` to the abstract state `a`. -/
structure Replays (w : World) (fs : List CommitFrame) (a : WorldState) : Prop where
  frames : w.frames = .ok fs
  chained : Chained fs w.id w.version a
  next : w.nextEntity = a.next
  operationCount : w.operationCount = (operationsOf fs).length
  kernel : ∃ k, w.kernel = .ok k ∧ StateHolds (k, w.nextEntity) a
  resolve : ∀ slot, w.resolve slot = .ok (a.slots.top slot)

/-- The world `w` stands for the history `fs` and the abstract state `a`, counts included. -/
structure Holds (w : World) (fs : List CommitFrame) (a : WorldState) : Prop
    extends Replays w fs a where
  active : w.activeSlotCount = a.slots.size
  records : w.recordCount = a.records

variable {w : World} {fs : List CommitFrame} {a b : WorldState}

theorem genesis_holds : genesis.Holds [] .genesis :=
  ⟨⟨rfl, .nil, rfl, rfl, ⟨.new, rfl, stateHolds_genesis⟩,
    fun slot => congrArg Except.ok (ForthDb.resolve_eq ForthDb.new_holds slot)⟩, rfl, rfl⟩

/-- A replay of a chained history gives its kernel. -/
theorem replay_kernel {id : WorldId} {v : ℕ} (h : Chained fs id v a) :
    ∃ k, applyOperations (.new, 1) (operationsOf fs) = .ok (k, a.next) ∧ StateHolds (k, a.next) a := by
  obtain ⟨⟨k, n⟩, hk, hs⟩ := applyOperations_ok stateHolds_genesis h.applyAll
  obtain rfl : n = a.next := hs.next
  exact ⟨k, hk, hs⟩

/-- A world without an eager kernel and without a mapped view replays its frames. -/
theorem replays_of_frames (hf : w.frames = .ok fs) (hc : Chained fs w.id w.version a)
    (he : w.eagerKernel = none) (hm : w.mapped = none) (hh : w.history ≠ [])
    (hn : w.nextEntity = a.next) (ho : w.operationCount = (operationsOf fs).length) :
    w.Replays fs a := by
  refine ⟨hf, hc, hn, ho, ?_, fun slot => ?_⟩
  · obtain ⟨k, hk, hs⟩ := replay_kernel hc
    refine ⟨k, ?_, by rwa [hn]⟩
    unfold World.kernel
    simp only [he, hf, bind, Except.bind]
    rw [hk]
  · unfold World.resolve vmQuery
    simp only [he, hm, if_neg hh, hf, Except.map]
    rw [VmQueryProjection.fromFrames_resolve hc.applyAll]

/-- A world with an eager kernel holds what the kernel says. -/
theorem holds_of_kernel {k : ForthDb} (hf : w.frames = .ok fs) (hc : Chained fs w.id w.version a)
    (he : w.eagerKernel = some k) (hk : StateHolds (k, w.nextEntity) a)
    (ha : w.activeSlotCount = k.activeSlotCount) (hr : w.recordCount = k.recordCount)
    (ho : w.operationCount = (operationsOf fs).length) : w.Holds fs a := by
  refine ⟨⟨hf, hc, hk.next, ho, ⟨k, ?_, hk⟩, fun slot => ?_⟩, ?_, ?_⟩
  · unfold World.kernel; rw [he]
  · unfold World.resolve; rw [he]; exact congrArg Except.ok (ForthDb.resolve_eq hk.kernel slot)
  · rw [ha, ForthDb.activeSlotCount_eq hk.kernel]
  · rw [hr]; exact hk.records

/-- **A VM epoch** leads to a world that replays to the successor state, whatever counts it
was given. -/
theorem fromVmEpoch_replays (h : w.Replays fs a) {ops : List Operation}
    (hb : a.applyAll ops = some b) (active records : ℕ) :
    (fromVmEpoch w ops b.next active records).1.Replays
      (fs ++ [(fromVmEpoch w ops b.next active records).2]) b := by
  apply replays_of_frames
  · have hf := h.frames
    unfold World.frames fromVmEpoch at *
    simp only
    cases hp : w.historyPrefix with
    | none =>
      rw [hp] at hf
      rw [Except.ok.inj hf]
    | some source =>
      rw [hp] at hf
      simp only at hf ⊢
      cases hs : source.frames with
      | error e => rw [hs] at hf; cases hf
      | ok gs =>
        rw [hs] at hf
        have : gs ++ w.history = fs := Except.ok.inj hf
        simp [Except.map, ← this]
  · exact Chained.snoc h.chained rfl rfl hb rfl rfl
  · rfl
  · rfl
  · simp [fromVmEpoch]
  · rfl
  · simp [fromVmEpoch, h.operationCount, List.flatMap_append]

/-- **A VM epoch** leads to a world that holds the successor state. -/
theorem fromVmEpoch_holds (h : w.Holds fs a) {ops : List Operation}
    (hb : a.applyAll ops = some b) :
    (fromVmEpoch w ops b.next b.slots.size b.records).1.Holds
      (fs ++ [(fromVmEpoch w ops b.next b.slots.size b.records).2]) b :=
  ⟨fromVmEpoch_replays h.toReplays hb _ _, rfl, rfl⟩

end World

namespace CandidateWorld

variable {fs : List CommitFrame} {a b : WorldState}

/-- A candidate on a kernel that holds `a` is the one for the successor state, and fails
only when an allocation does not name the next entity. -/
theorem construct_ok {k : ForthDb} {n : ℕ} (h : StateHolds (k, n) a) (id : WorldId) (v oc : ℕ)
    {ops : List Operation} (hb : a.applyAll ops = some b) :
    ∃ k', StateHolds (k', b.next) b ∧ constructFromState id v n oc k ops = .ok {
      baseWorld := id, baseVersion := v, id := calculateWorldId id (v + 1) b.next ops,
      version := v + 1, nextEntity := b.next, baseOperationCount := oc, operations := ops,
      kernel := k' } := by
  obtain ⟨⟨k', n'⟩, hk, hs⟩ := applyOperations_ok h hb
  obtain rfl : n' = b.next := hs.next
  refine ⟨k', hs, ?_⟩
  unfold constructFromState
  simp only [hk, ForthDb.validate_ok hs.kernel]

/-- A candidate exists only when its operations apply. -/
theorem applyAll_of_construct {k : ForthDb} {n : ℕ} (h : StateHolds (k, n) a) {id : WorldId}
    {v oc : ℕ} {ops : List Operation} {c : CandidateWorld}
    (hc : constructFromState id v n oc k ops = .ok c) :
    ∃ b, a.applyAll ops = some b ∧ StateHolds (c.kernel, c.nextEntity) b ∧ c.operations = ops ∧
      c.id = calculateWorldId id (v + 1) b.next ops ∧ c.version = v + 1 ∧
      c.baseWorld = id ∧ c.baseVersion = v ∧ c.baseOperationCount = oc := by
  cases hb : a.applyAll ops with
  | none =>
    rcases applyOperations_holds h ops with ⟨s', b, h1, h2, h3⟩ | ⟨⟨e, h1⟩, -⟩
    · rw [hb] at h2; cases h2
    · simp [constructFromState, h1] at hc
  | some b =>
    obtain ⟨k', hk', hcon⟩ := construct_ok h id v oc hb
    rw [hcon] at hc
    cases hc
    exact ⟨b, rfl, hk', rfl, rfl, rfl, rfl, rfl, rfl⟩

theorem construct_error {k : ForthDb} {n : ℕ} (h : StateHolds (k, n) a) (id : WorldId) (v oc : ℕ)
    {ops : List Operation} (hb : a.applyAll ops = none) :
    ∃ e, constructFromState id v n oc k ops = .error e := by
  rcases applyOperations_holds h ops with ⟨s', c, h1, h2, h3⟩ | ⟨⟨e, h1⟩, -⟩
  · rw [hb] at h2; cases h2
  · exact ⟨e, by simp [constructFromState, h1]⟩

/-- **A committed candidate** is a world that holds the successor state. -/
theorem intoWorld_holds {w : World} {c : CandidateWorld} (h : Chained fs w.id w.version a)
    (hb : a.applyAll c.operations = some b) (hk : StateHolds (c.kernel, c.nextEntity) b)
    (hw : c.baseWorld = w.id) (hv : c.baseVersion = w.version)
    (hid : c.id = calculateWorldId c.baseWorld c.version c.nextEntity c.operations)
    (ho : c.baseOperationCount = (operationsOf fs).length) :
    (c.intoWorld c.commitFrame fs).Holds (fs ++ [c.commitFrame]) b := by
  apply World.holds_of_kernel (k := c.kernel)
  · rfl
  · exact Chained.snoc h hw hv hb hk.next hid.symm
  · rfl
  · exact hk
  · rfl
  · rfl
  · simp [intoWorld, ho, commitFrame, List.flatMap_append]

end CandidateWorld

namespace World

/-- What `reconstruct` has built after some frames. -/
structure Rebuilt (s : World × ForthDb) (fs : List CommitFrame) (a : WorldState) : Prop where
  chained : Chained fs s.1.id s.1.version a
  kernel : StateHolds (s.2, s.1.nextEntity) a
  active : s.1.activeSlotCount = s.2.activeSlotCount
  records : s.1.recordCount = s.2.recordCount
  operationCount : s.1.operationCount = (operationsOf fs).length
  history : s.1.history = fs
  noPrefix : s.1.historyPrefix = none

theorem rebuilt_genesis : Rebuilt (genesis, .new) [] .genesis :=
  ⟨.nil, stateHolds_genesis, rfl, rfl, rfl, rfl, rfl⟩

variable {s s' : World × ForthDb} {fs : List CommitFrame} {a : WorldState} {f : CommitFrame}

/-- One frame: `reconstruct` accepts it exactly when it continues the chain. -/
theorem reconstructStep_ok (h : Rebuilt s fs a) (hs : reconstructStep s f = .ok s') :
    ∃ b, Rebuilt s' (fs ++ [f]) b := by
  unfold reconstructStep at hs
  split at hs
  · cases hs
  rename_i hw
  split at hs
  · cases hs
  rename_i hv
  rcases applyOperations_holds h.kernel f.operations with ⟨⟨k, n⟩, b, hk, hb, hk'⟩ | ⟨⟨e, he⟩, -⟩
  · rw [hk] at hs
    simp only at hs
    split at hs
    · cases hs
    rename_i hn
    rw [ForthDb.validate_ok hk'.kernel] at hs
    simp only at hs
    split at hs
    · cases hs
    rename_i hid
    cases hs
    push Not at hw hv hn hid
    subst hn
    refine ⟨b, ⟨Chained.snoc h.chained hw hv hb hk'.next hid, hk', rfl, rfl, ?_, ?_, rfl⟩⟩
    · simp [h.operationCount, List.flatMap_append]
    · simp [h.history]
  · rw [he] at hs; cases hs

theorem reconstructStep_of_chained {b : WorldState} {id : WorldId} {v : ℕ} (h : Rebuilt s fs a)
    (hc : Chained (fs ++ [f]) id v b) : ∃ s', reconstructStep s f = .ok s' := by
  generalize hgs : fs ++ [f] = gs at hc
  cases hc with
  | nil => simp at hgs
  | @snoc fs' id' v' a' b f' hc hw hv hb hn hid =>
    obtain ⟨rfl, hff⟩ := List.append_inj' hgs rfl
    cases hff
    obtain ⟨hid', hv', rfl⟩ := h.chained.det hc
    obtain ⟨⟨k, n⟩, hk, hk'⟩ := applyOperations_ok h.kernel hb
    have hn' : n = f.resultingAllocator := by rw [hn]; exact hk'.next
    subst hn'
    unfold reconstructStep
    rw [if_neg (by rw [hid']; exact not_not.2 hw), if_neg (by rw [hv']; exact not_not.2 hv), hk]
    simp only
    rw [if_neg (by simp), ForthDb.validate_ok hk'.kernel]
    simp only
    rw [if_neg (not_not.2 hid)]
    exact ⟨_, rfl⟩

theorem reconstructFrom_ok {gs : List CommitFrame} (h : Rebuilt s fs a)
    (hs : reconstructFrom s gs = .ok s') : ∃ b, Rebuilt s' (fs ++ gs) b := by
  induction gs generalizing s fs a with
  | nil => cases hs; exact ⟨a, by rwa [List.append_nil]⟩
  | cons g gs ih =>
    simp only [reconstructFrom] at hs
    cases hg : reconstructStep s g with
    | error e => rw [hg] at hs; cases hs
    | ok t =>
      rw [hg] at hs
      obtain ⟨b, hb⟩ := reconstructStep_ok h hg
      have := ih hb hs
      rwa [List.append_assoc] at this

/-- **Reconstruction** yields a world that holds its frames. -/
theorem reconstruct_holds {gs : List CommitFrame} {w : World} (h : reconstruct gs = .ok w) :
    ∃ a, w.Holds gs a ∧ w.historyPrefix = none := by
  unfold reconstruct at h
  cases hs : reconstructFrom (genesis, .new) gs with
  | error e => rw [hs] at h; cases h
  | ok s =>
    rw [hs] at h
    obtain rfl : { s.1 with eagerKernel := some s.2 } = w := Except.ok.inj h
    obtain ⟨b, hb⟩ := reconstructFrom_ok rebuilt_genesis hs
    rw [List.nil_append] at hb
    refine ⟨b, holds_of_kernel (k := s.2) ?_ hb.chained rfl hb.kernel hb.active hb.records
      hb.operationCount, hb.noPrefix⟩
    simp [World.frames, hb.noPrefix, hb.history]

theorem reconstructFrom_append (s : World × ForthDb) (xs ys : List CommitFrame) :
    reconstructFrom s (xs ++ ys) =
      match reconstructFrom s xs with
      | .ok s' => reconstructFrom s' ys
      | .error e => .error e := by
  induction xs generalizing s with
  | nil => rfl
  | cons x xs ih =>
    simp only [List.cons_append, reconstructFrom]
    cases reconstructStep s x with
    | ok s' => exact ih s'
    | error e => rfl

theorem reconstructFrom_of_chained {id : WorldId} {v : ℕ} (h : Chained fs id v a) :
    ∃ s, reconstructFrom (genesis, .new) fs = .ok s := by
  induction h with
  | nil => exact ⟨_, rfl⟩
  | @snoc fs id v a b f hc hw hv hb hn hid ih =>
    obtain ⟨s, hs⟩ := ih
    obtain ⟨c, hreb⟩ := reconstructFrom_ok rebuilt_genesis hs
    rw [List.nil_append] at hreb
    obtain ⟨s', hs'⟩ := reconstructStep_of_chained hreb (hc.snoc hw hv hb hn hid)
    exact ⟨s', by rw [reconstructFrom_append, hs]; simp [reconstructFrom, hs']⟩

/-- **`reconstruct` accepts exactly the chained histories.** -/
theorem reconstruct_iff : (∃ w, reconstruct fs = .ok w) ↔ ∃ id v a, Chained fs id v a := by
  constructor
  · rintro ⟨w, hw⟩
    obtain ⟨a, ha, -⟩ := reconstruct_holds hw
    exact ⟨_, _, a, ha.chained⟩
  · rintro ⟨id, v, a, h⟩
    obtain ⟨s, hs⟩ := reconstructFrom_of_chained h
    exact ⟨_, by rw [reconstruct, hs]; rfl⟩

end World

end ForthDB
