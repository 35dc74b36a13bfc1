import ForthDB.Core.KernelParity
import ForthDB.World.History

/-!
# The projection answers like the kernel

A projection of frames and the kernel that replays the same frames are built side by
side: the kernel's log links exactly the entries of the projected stacks, an entry's
record id is its place in the log, and the next record id is the length of the log
(`Tracks`). Then the active entries are the active records in order
(`Tracks.active_ids`), and the two query engines enumerate the same candidates under
other names (`Tracks.renames`).
-/

namespace ForthDB

namespace SharedForthDb

/-- `apply_operation` on the kernel with its indexes. The outer `error` is a panic. -/
def applyOperation (s : SharedForthDb × ℕ) :
    Operation → Except String (Except CandidateError (SharedForthDb × ℕ))
  | .allocateEntity entity =>
    if entity.value ≠ s.2 then .ok (.error (.allocatorOperationMismatch s.2 entity.value))
    else
      let (actual, kernel) := s.1.entity
      if actual ≠ entity then .ok (.error (.allocatorOperationMismatch entity.value actual.value))
      else .ok (.ok (kernel, s.2 + 1))
  | .define slot fact => (s.1.define slot fact).map fun defined => .ok (defined.2, s.2)
  | .forget slot => (s.1.forget slot).map fun forgotten => .ok (forgotten.2, s.2)

/-- Run operations in order, up to the first error. -/
def applyOperations (s : SharedForthDb × ℕ) :
    List Operation → Except String (Except CandidateError (SharedForthDb × ℕ))
  | [] => .ok (.ok s)
  | op :: ops =>
    match applyOperation s op with
    | .ok (.ok s') => applyOperations s' ops
    | .ok (.error e) => .ok (.error e)
    | .error e => .error e

variable {s : SharedForthDb} {k k' : ForthDb} {n n' : ℕ}

/-- **One operation** keeps the kernel with its indexes in step with its log. -/
theorem Refines.applyOperation (h : s.Refines k) (hk : k.Sound) {op : Operation}
    (hop : ForthDB.applyOperation (k, n) op = .ok (k', n')) :
    ∃ s', SharedForthDb.applyOperation (s, n) op = .ok (.ok (s', n')) ∧ s'.Refines k' ∧
      k'.Sound := by
  cases op with
  | allocateEntity entity =>
    obtain ⟨hid, hrefines⟩ := h.entity
    simp only [ForthDB.applyOperation] at hop
    split at hop
    · cases hop
    rename_i hnext
    split at hop
    · cases hop
    rename_i hactual
    cases hop
    refine ⟨s.entity.2, ?_, hrefines, ForthDb.entity_sound hk⟩
    simp only [SharedForthDb.applyOperation, if_neg hnext]
    rw [if_neg (by rw [hid]; exact hactual)]
  | define slot fact =>
    obtain ⟨s', hdefine, hrefines⟩ := h.define hk slot fact
    cases hop
    refine ⟨s', ?_, hrefines, ForthDb.define_sound hk slot fact⟩
    simp only [SharedForthDb.applyOperation, hdefine]
    rfl
  | forget slot =>
    obtain ⟨s', hforget, hrefines⟩ := h.forget hk slot
    cases hop
    refine ⟨s', ?_, hrefines, ForthDb.forget_sound hk slot⟩
    simp only [SharedForthDb.applyOperation, hforget]
    rfl

end SharedForthDb

namespace ForthDb

/-- The arena of the projected entries. -/
def entryNode (log : List Record) (i : ℕ) : Option (ProjectedFact × Option ℕ) :=
  log[i]?.bind fun r => r.fact.map fun f => (⟨i, r.slot, f⟩, r.previousHead)

theorem entryNode_append {log : List Record} (r : Record) {i : ℕ}
    {x : ProjectedFact × Option ℕ} (h : entryNode log i = some x) :
    entryNode (log ++ [r]) i = some x := by
  unfold entryNode at h ⊢
  obtain ⟨q, hq, -⟩ := Option.bind_eq_some_iff.1 h
  rwa [List.getElem?_append_left (List.getElem?_eq_some_iff.1 hq).1]

theorem entryNode_some {log : List Record} {i : ℕ} {e : ProjectedFact} {previous : Option ℕ}
    (h : entryNode log i = some (e, previous)) :
    ∃ r, log[i]? = some r ∧ e.recordId = i ∧ r.slot = e.slot ∧ r.fact = some e.fact := by
  obtain ⟨r, hr, hmap⟩ := Option.bind_eq_some_iff.1 h
  obtain ⟨f, hf, hpair⟩ := Option.map_eq_some_iff.1 hmap
  cases hpair
  exact ⟨r, hr, rfl, rfl, hf⟩

end ForthDb

namespace VmQueryProjection

/-- The kernel's log links the entries of the projected stacks. -/
structure Tracks (s : Definitions × ℕ) (k : ForthDb) (m : EntryStacks) : Prop where
  lists : Lists s.1 m
  linked : Linked (ForthDb.entryNode k.store.log) k.store.head.lookup m
  count : s.2 = k.store.log.length

variable {s : Definitions × ℕ} {k k' : ForthDb} {m : EntryStacks} {n n' : ℕ}

theorem tracks_new : Tracks (∅, 0) .new .empty where
  lists := lists_empty
  linked slot := by simpa [ForthDb.new, DefinitionStore.empty] using Chain.nil
  count := rfl

theorem project_forget_count (s : Definitions × ℕ) (slot : SlotId) :
    (project s (.forget slot)).2 = s.2 + 1 := by
  simp only [project]
  split
  · split <;> rfl
  · rfl

theorem Tracks.define (h : Tracks s k m) (slot : SlotId) (fact : Fact) :
    Tracks (project s (.define slot fact)) (k.define slot fact)
      (m.push slot ⟨s.2, slot, fact⟩) where
  lists := project_lists h.lists (.define slot fact)
  linked := by
    refine h.linked.push ?_ (i := k.store.log.length) ?_ ?_ ?_
    · intro i x hx
      rw [ForthDb.define_log]
      exact ForthDb.entryNode_append _ hx
    · rw [ForthDb.define_log]
      simp [ForthDb.entryNode, h.count]
    · rw [ForthDb.define_head, AList.lookup_insert]
    · intro slot' hne
      rw [ForthDb.define_head, AList.lookup_insert_ne hne]
  count := by
    rw [ForthDb.define_log]
    simp [project, h.count]

theorem Tracks.forget (h : Tracks s k m) (hk : k.Sound) (slot : SlotId) :
    Tracks (project s (.forget slot)) (k.forget slot) (m.pop slot) where
  lists := project_lists h.lists (.forget slot)
  linked := by
    refine h.linked.pop ?_ ?_ ?_
    · intro i x hx
      rw [ForthDb.forget_log]
      exact ForthDb.entryNode_append _ hx
    · -- the head is a definition, so its node carries the previous head of its record
      rw [ForthDb.forget_head, if_pos rfl]
      unfold ForthDb.revealed
      cases hhead : k.store.head.lookup slot with
      | none => rfl
      | some i =>
        obtain ⟨r, f, hr, -, -, hf⟩ := hk.heads slot i hhead
        simp [ForthDb.entryNode, hr, hf]
    · intro slot' hne
      rw [ForthDb.forget_head, if_neg hne]
  count := by
    rw [ForthDb.forget_log, project_forget_count, h.count]
    simp

/-- **One operation** keeps the log linked to the projected stacks. -/
theorem Tracks.applyOperation (h : Tracks s k m) (hk : k.Sound) {op : Operation}
    (hop : ForthDB.applyOperation (k, n) op = .ok (k', n')) :
    Tracks (project s op) k' (perform m s.2 op) := by
  cases op with
  | allocateEntity entity =>
    simp only [ForthDB.applyOperation] at hop
    split at hop
    · cases hop
    split at hop
    · cases hop
    cases hop
    exact ⟨h.lists, h.linked, h.count⟩
  | define slot fact =>
    cases hop
    exact h.define slot fact
  | forget slot =>
    cases hop
    exact h.forget hk slot

/-- **A run of operations** replayed by the kernel with its indexes, by its log and by the
projection. -/
theorem Tracks.applyOperations {t : SharedForthDb} (h : Tracks s k m) (hk : k.Sound)
    (ht : t.Refines k) {ops : List Operation}
    (hops : ForthDB.applyOperations (k, n) ops = .ok (k', n')) :
    ∃ t' m', SharedForthDb.applyOperations (t, n) ops = .ok (.ok (t', n')) ∧ t'.Refines k' ∧
      k'.Sound ∧ Tracks (ops.foldl project s) k' m' := by
  induction ops generalizing s k m n t with
  | nil =>
    cases hops
    exact ⟨t, m, rfl, ht, hk, h⟩
  | cons op ops ih =>
    unfold ForthDB.applyOperations at hops
    cases hop : ForthDB.applyOperation (k, n) op with
    | error e => rw [hop] at hops; cases hops
    | ok next =>
      obtain ⟨k₁, n₁⟩ := next
      rw [hop] at hops
      obtain ⟨t₁, happly, ht₁, hk₁⟩ := ht.applyOperation hk hop
      obtain ⟨t', m', hrun, rest⟩ := ih (h.applyOperation hk hop) hk₁ ht₁ hops
      refine ⟨t', m', ?_, rest⟩
      unfold SharedForthDb.applyOperations
      rw [happly]
      exact hrun

/-! ## The active entries -/

variable {p : VmQueryProjection}

theorem getLast?_lookup (h : Lists p.definitions m) (slot : SlotId) :
    ((p.definitions.lookup slot).getD []).getLast? = m.top slot := by
  rw [h.stack, List.getLast?_reverse]
  rfl

theorem mem_active_iff (h : Lists p.definitions m) {e : ProjectedFact} :
    e ∈ p.active ↔ ∃ slot, m.top slot = some e := by
  have htop := getLast?_lookup h
  unfold active
  rw [List.mem_insertionSort, List.mem_filterMap]
  constructor
  · rintro ⟨⟨slot, stack⟩, hmem, hlast⟩
    refine ⟨slot, ?_⟩
    rw [← htop, Dict.mem_entries.1 hmem]
    exact hlast
  · rintro ⟨slot, he⟩
    rw [← htop] at he
    cases hstack : p.definitions.lookup slot with
    | none => rw [hstack] at he; cases he
    | some stack =>
      rw [hstack] at he
      exact ⟨⟨slot, stack⟩, Dict.mem_entries.2 hstack, he⟩

/-- The newest entry of a slot is the record of its head. -/
theorem Tracks.top_iff (h : Tracks s k m) {slot : SlotId} {e : ProjectedFact}
    (he : m.top slot = some e) : k.store.head.lookup slot = some e.recordId ∧
      ∃ r, k.store.log[e.recordId]? = some r ∧ r.slot = e.slot ∧ r.fact = some e.fact := by
  rw [h.linked.top_eq] at he
  obtain ⟨i, hi, hnode⟩ := Option.bind_eq_some_iff.1 he
  obtain ⟨⟨e', previous⟩, hx, rfl⟩ := Option.map_eq_some_iff.1 hnode
  obtain ⟨r, hr, rfl, hslot, hfact⟩ := ForthDb.entryNode_some hx
  exact ⟨hi, r, hr, hslot, hfact⟩

theorem Tracks.active_record (h : Tracks s k m) (hp : p.definitions = s.1) {e : ProjectedFact}
    (he : e ∈ p.active) :
    ∃ r, k.store.log[e.recordId]? = some r ∧ r.slot = e.slot ∧ r.fact = some e.fact := by
  obtain ⟨slot, htop⟩ := (mem_active_iff (hp ▸ h.lists)).1 he
  exact (h.top_iff htop).2

/-- The newest entries of two slots are different records. -/
theorem Tracks.top_ne (h : Tracks s k m) (hk : k.Sound) {slot slot' : SlotId} (hne : slot ≠ slot')
    {e e' : ProjectedFact} (he : m.top slot = some e) (he' : m.top slot' = some e') :
    e.recordId ≠ e'.recordId := by
  intro hid
  have hhead := (h.top_iff he).1
  have hhead' := (h.top_iff he').1
  rw [hid] at hhead
  exact hne ((hk.heads _ _ hhead).slot_eq (hk.heads _ _ hhead'))

theorem Tracks.active_sorted (h : Tracks s k m) (hk : k.Sound) (hp : p.definitions = s.1) :
    p.active.Pairwise fun x y => x.recordId < y.recordId := by
  have hne : (p.definitions.entries.filterMap fun e => e.2.getLast?).Pairwise
      fun x y => x.recordId ≠ y.recordId := by
    rw [List.pairwise_filterMap]
    refine (List.nodupKeys_iff_pairwise.1 p.definitions.nodupKeys).imp_of_mem ?_
    rintro ⟨slot, stack⟩ ⟨slot', stack'⟩ hmem hmem' hslot e he e' he'
    refine h.top_ne hk hslot ?_ ?_
    · rw [← getLast?_lookup (hp ▸ h.lists), Dict.mem_entries.1 hmem]
      exact he
    · rw [← getLast?_lookup (hp ▸ h.lists), Dict.mem_entries.1 hmem']
      exact he'
  unfold active
  have hle := List.pairwise_insertionSort (fun x y : ProjectedFact => x.recordId ≤ y.recordId)
    (p.definitions.entries.filterMap fun e => e.2.getLast?)
  have hne' := (List.perm_insertionSort (fun x y : ProjectedFact => x.recordId ≤ y.recordId)
    _).symm.pairwise hne Ne.symm
  exact (hle.and hne').imp fun hxy => lt_of_le_of_ne hxy.1 hxy.2

/-- **The active entries are the active records**, in ascending order. -/
theorem Tracks.active_ids (h : Tracks s k m) (hk : k.Sound) (hp : p.definitions = s.1) :
    p.active.map ProjectedFact.recordId = k.active.sort := by
  have hsorted : (p.active.map ProjectedFact.recordId).Pairwise (· < ·) :=
    List.pairwise_map.2 (h.active_sorted hk hp)
  refine List.Perm.eq_of_pairwise (fun _ _ _ _ => le_antisymm) (hsorted.imp le_of_lt)
    (Finset.pairwise_sort _ _) ?_
  refine (List.perm_ext_iff_of_nodup (hsorted.imp ne_of_lt) (Finset.sort_nodup _ _)).2 fun i => ?_
  rw [List.mem_map, Finset.mem_sort, ForthDb.mem_active]
  constructor
  · rintro ⟨e, he, rfl⟩
    obtain ⟨slot, htop⟩ := (mem_active_iff (hp ▸ h.lists)).1 he
    exact ⟨slot, (h.top_iff htop).1⟩
  · rintro ⟨slot, hhead⟩
    obtain ⟨r, f, hr, -, hslot, hf⟩ := hk.heads slot i hhead
    have htop : m.top slot = some ⟨i, r.slot, f⟩ := by
      rw [h.linked.top_eq, hhead]
      simp [ForthDb.entryNode, hr, hf]
    exact ⟨_, (mem_active_iff (hp ▸ h.lists)).2 ⟨slot, htop⟩, rfl⟩

/-- The record behind a position of the active entries. -/
def recordAt (p : VmQueryProjection) (index : ℕ) : ℕ :=
  (p.active[index]?.map ProjectedFact.recordId).getD 0

theorem Tracks.candidates_eq (h : Tracks s k m) (hk : k.Sound) (hp : p.definitions = s.1)
    (pattern : Pattern) (binding : Binding) :
    k.candidates pattern binding = (p.candidates pattern binding).map p.recordAt := by
  set agrees := fun fact => ForthDb.Agrees (resolvedAtom pattern.subject binding)
    (resolvedPredicate pattern.predicate binding) (resolvedAtom pattern.object binding) fact
    with hagrees
  -- both are the active entries that agree
  have hentries : k.candidates pattern binding =
      (p.active.filter fun e => agrees e.fact).map ProjectedFact.recordId := by
    unfold ForthDb.candidates
    rw [sort_filter, ← h.active_ids hk hp, List.filter_map]
    congr 1
    refine List.filter_congr fun e he => ?_
    obtain ⟨r, hr, -, hf⟩ := h.active_record hp he
    simp [ForthDb.factOf, hr, hf, hagrees]
  rw [hentries, p.candidates_eq, List.map_map]
  have hposition : ∀ e ∈ p.active.zipIdx.filter fun e => agrees e.1.fact,
      (p.recordAt ∘ Prod.snd) e = (ProjectedFact.recordId ∘ Prod.fst) e := by
    rintro ⟨e, i⟩ he
    have hi := List.mem_zipIdx_iff_getElem?.1 (List.mem_of_mem_filter he)
    simp only [Function.comp_apply, recordAt] at hi ⊢
    rw [hi]
    rfl
  rw [List.map_congr_left hposition, ← List.map_map]
  congr 1
  conv_lhs => rw [← List.zipIdx_map_fst 0 p.active, List.filter_map]
  rfl

/-- **The two engines enumerate the same candidates**: positions of active entries on one
side, their records on the other. -/
theorem Tracks.renames (h : Tracks s k m) (hk : k.Sound) (hp : p.definitions = s.1) :
    p.source.Renames k.source p.recordAt where
  count pattern binding := by
    show (k.candidates pattern binding).length = (p.candidates pattern binding).length
    rw [h.candidates_eq hk hp, List.length_map]
  candidates := h.candidates_eq hk hp
  visit pattern binding i hi := by
    have hmem : i ∈ p.candidates pattern binding := hi
    rw [p.candidates_eq, List.mem_map] at hmem
    obtain ⟨⟨e, j⟩, he, rfl⟩ := hmem
    have hj := List.mem_zipIdx_iff_getElem?.1 (List.mem_of_mem_filter he)
    obtain ⟨r, hr, hslot, hf⟩ := h.active_record hp (List.mem_of_getElem? hj)
    show visitRecord k.record pattern binding (p.recordAt j) = p.visit pattern binding j
    unfold visitRecord ForthDb.record recordAt visit
    simp only [hj, Option.map_some, Option.getD_some, hr, bind, Except.bind, hf, hslot]
    rfl

end VmQueryProjection

/-- **The projection answers like the kernel.** For every history that `reconstruct` accepts,
the kernel that replays its operations and the projection of its frames resolve every slot
alike, list the same definitions, and give the same query result, metrics and first path
included, for all patterns and options. No reader of either panics. -/
theorem projection_answers_like_kernel {frames : List CommitFrame} {w : World}
    (hw : World.reconstruct frames = .ok w) :
    ∃ kernel nextEntity,
      SharedForthDb.applyOperations (.new, 1) (operationsOf frames) =
        .ok (.ok (kernel, nextEntity)) ∧
      (∀ slot, kernel.resolve slot =
        .ok ((VmQueryProjection.fromFrames frames).resolve slot)) ∧
      (∀ slot, kernel.definitions slot =
        .ok ((VmQueryProjection.fromFrames frames).definitionsOf slot)) ∧
      ∀ patterns options, ∃ result, kernel.query patterns options = .ok result ∧
        (VmQueryProjection.fromFrames frames).query patterns options = .ok result := by
  obtain ⟨a, ha, -⟩ := World.reconstruct_holds hw
  obtain ⟨k, hk, hstate⟩ := World.replay_kernel ha.chained
  obtain ⟨t, m, ht, hrefines, hsound, htracks⟩ :=
    VmQueryProjection.tracks_new.applyOperations ForthDb.new_sound SharedForthDb.new_refines hk
  set p := VmQueryProjection.fromFrames frames with hp
  have hobserve := hrefines.observe_eq hsound hstate.kernel
  have hquery (patterns : List Pattern) (options : QueryOptions) :
      p.query patterns options = k.query patterns options :=
    ((htracks.renames hsound (p := p) rfl).query_eq patterns options).symm
  refine ⟨t, a.next, ht, fun slot => ?_, fun slot => ?_, fun patterns options => ?_⟩
  · have hresolve := congrFun (congrArg Observation.resolve hobserve) slot
    rw [VmQueryProjection.fromFrames_resolve ha.chained.applyAll]
    exact hresolve.trans (congrArg Except.ok (ForthDb.resolve_eq hstate.kernel slot))
  · have hdefinitions := congrFun (congrArg Observation.definitions hobserve) slot
    rw [VmQueryProjection.fromFrames_definitionsOf ha.chained.applyAll]
    exact hdefinitions.trans (hstate.kernel.definitions_eq slot)
  · obtain ⟨result, hresult⟩ := hsound.visits.query_ok patterns options
    refine ⟨result, ?_, ?_⟩
    · exact (congrFun (congrFun (congrArg Observation.query hobserve) patterns) options).trans
        hresult
    · rw [hquery]
      exact hresult

/-- A frame that redefines a slot, defines another and reveals the first definition. -/
def CommitFrame.redefined : CommitFrame :=
  let fact := fun text : String => (⟨.entity ⟨1⟩, ⟨"is"⟩, .literal ⟨text⟩⟩ : Fact)
  let operations := [.allocateEntity ⟨1⟩, .define ⟨"a"⟩ (fact "x"), .define ⟨"b"⟩ (fact "y"),
    .define ⟨"a"⟩ (fact "z"), .forget ⟨"a"⟩]
  { parentWorld := .genesis, resultingWorld := calculateWorldId .genesis 1 2 operations,
    parentVersion := 0, resultingVersion := 1, resultingAllocator := 2,
    operations := operations }

theorem projection_answers_like_kernel_redefined :
    ∃ kernel nextEntity,
      SharedForthDb.applyOperations (.new, 1) (operationsOf [.redefined]) =
        .ok (.ok (kernel, nextEntity)) ∧
      (∀ slot, kernel.resolve slot =
        .ok ((VmQueryProjection.fromFrames [.redefined]).resolve slot)) ∧
      (∀ slot, kernel.definitions slot =
        .ok ((VmQueryProjection.fromFrames [.redefined]).definitionsOf slot)) ∧
      ∀ patterns options, ∃ result, kernel.query patterns options = .ok result ∧
        (VmQueryProjection.fromFrames [.redefined]).query patterns options = .ok result := by
  have h : ∃ w, World.reconstruct [.redefined] = .ok w := by
    have hok : (World.reconstruct [.redefined]).isOk = true := by decide +kernel
    cases hw : World.reconstruct [.redefined] with
    | ok w => exact ⟨w, rfl⟩
    | error e => rw [hw] at hok; cases hok
  obtain ⟨w, hw⟩ := h
  exact projection_answers_like_kernel hw

end ForthDB
