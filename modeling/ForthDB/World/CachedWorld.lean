import ForthDB.Queue.DerivedEpoch
import ForthDB.Snapshot.Capture

/-!
# Worlds with their cached kernels

A world without an eager kernel builds one when it is first asked, and stores it. It starts from
its projection base: the kernel of the nearest ancestor that had one when the world was made. Only
the frames behind that ancestor are applied.

* `CachedWorld.kernel`: the kernel, and the world that has stored it.
* `CachedWorld.Sound c k`: whatever `c` has stored, its kernel is `k`.
* `Sound.kernel`, `Sound.succeed`: asking for the kernel keeps it, and a VM epoch hands it on.
* `CachedWorld.Whole c k`: `k` is what the frames of `c` replay to from genesis.
-/

namespace ForthDB

structure ProjectionBase where
  kernel : ForthDb
  version : ℕ
  nextEntity : ℕ

/-- The frames that `materialize_kernel` meets before a version that is projected already,
oldest first. -/
def pendingFrames (projectedVersion : ℕ) (history : List CommitFrame) : List CommitFrame :=
  (history.reverse.takeWhile fun frame => projectedVersion < frame.resultingVersion).reverse

/-- Apply the pending frames, with the `debug_assert` behind each. -/
def applyFrames (s : ForthDb × ℕ) : List CommitFrame → Except String (ForthDb × ℕ)
  | [] => .ok s
  | frame :: frames =>
    match applyOperations s frame.operations with
    | .error _ => .error "published VM operations must materialize deterministically"
    | .ok s =>
      if s.2 = frame.resultingAllocator then applyFrames s frames
      else .error "assertion `left == right` failed"

/-- `HistoryNode::materialize_kernel`. -/
def materializeKernel (history : List CommitFrame) (projected : Option ProjectionBase) :
    Except String ForthDb :=
  let projectedVersion := (projected.map ProjectionBase.version).getD 0
  let start := (projected.map fun base => (base.kernel, base.nextEntity)).getD (.new, 1)
  (applyFrames start (pendingFrames projectedVersion history)).map Prod.fst

/-- A world, with its `lazy_kernel` and its `projection_base`. -/
structure CachedWorld where
  world : World
  lazyKernel : Option ForthDb
  projectionBase : Option ProjectionBase

namespace CachedWorld

/-- A world that has nothing cached. -/
def fresh (world : World) : CachedWorld := ⟨world, none, none⟩

variable (c : CachedWorld)

/-- What `kernel` stores in an empty `lazy_kernel`. -/
def buildKernel : Except String ForthDb :=
  if c.world.historyPrefix.isSome then
    match c.world.frames with
    | .error message => .error message
    | .ok frames =>
      match applyOperations (.new, 1) (operationsOf frames) with
      | .error _ => .error "mapped history must materialize deterministically"
      | .ok (kernel, _) => .ok kernel
  else if c.world.history = [] then .error "only an eager genesis world may omit history"
  else materializeKernel c.world.history c.projectionBase

/-- `World::kernel`: the kernel, and the world that has stored it. -/
def kernel : Except String (ForthDb × CachedWorld) :=
  match c.world.eagerKernel with
  | some kernel => .ok (kernel, c)
  | none =>
    match c.lazyKernel with
    | some kernel => .ok (kernel, c)
    | none => c.buildKernel.map fun kernel => (kernel, { c with lazyKernel := some kernel })

/-- The projection base that `from_vm_epoch` gives to a successor. -/
def projection : Option ProjectionBase :=
  ((c.lazyKernel.or c.world.eagerKernel).map fun kernel =>
    ⟨kernel, c.world.version, c.world.nextEntity⟩).or c.projectionBase

/-- The successor `w` that `from_vm_epoch` makes. -/
def succeed (w : World) : CachedWorld := ⟨w, none, c.projection⟩

end CachedWorld

/-! ## Frames in turn -/

theorem applyFrames_append (s : ForthDb × ℕ) (xs ys : List CommitFrame) :
    applyFrames s (xs ++ ys) =
      match applyFrames s xs with
      | .error message => .error message
      | .ok s => applyFrames s ys := by
  induction xs generalizing s with
  | nil => rfl
  | cons f xs ih =>
    simp only [List.cons_append, applyFrames]
    cases applyOperations s f.operations with
    | error e => rfl
    | ok s' =>
      by_cases hallocator : s'.2 = f.resultingAllocator
      · simp only [if_pos hallocator]
        exact ih s'
      · simp only [if_neg hallocator]

/-- A frame that is not projected is pending behind those before it. -/
theorem pendingFrames_snoc {v : ℕ} {f : CommitFrame} (fs : List CommitFrame)
    (h : v < f.resultingVersion) : pendingFrames v (fs ++ [f]) = pendingFrames v fs ++ [f] := by
  have htrue : decide (v < f.resultingVersion) = true := decide_eq_true h
  unfold pendingFrames
  rw [List.reverse_append, List.reverse_singleton, List.singleton_append,
    List.takeWhile_cons, htrue]
  exact List.reverse_cons

/-- Nothing is pending behind a version that the newest frame does not exceed. -/
theorem pendingFrames_eq_nil {v : ℕ} {fs : List CommitFrame}
    (h : ∀ f, fs.getLast? = some f → f.resultingVersion ≤ v) : pendingFrames v fs = [] := by
  rcases List.eq_nil_or_concat' fs with rfl | ⟨gs, f, rfl⟩
  · rfl
  · have hf := h f (by rw [List.getLast?_append, List.getLast?_singleton]; rfl)
    have hfalse : decide (v < f.resultingVersion) = false := decide_eq_false (not_lt.2 hf)
    unfold pendingFrames
    rw [List.reverse_append, List.reverse_singleton, List.singleton_append, List.takeWhile_cons,
      hfalse]
    rfl

/-- The newest frame of a chain has the version that it leads to. -/
theorem Chained.last_version {fs : List CommitFrame} {id : WorldId} {v : ℕ} {a : WorldState}
    (h : Chained fs id v a) {f : CommitFrame} (hf : fs.getLast? = some f) :
    f.resultingVersion = v := by
  cases h with
  | nil => cases hf
  | snoc _ _ _ _ _ _ =>
    rw [List.getLast?_append, List.getLast?_singleton] at hf
    obtain rfl := Option.some.inj hf
    rfl

theorem World.reconstructFrom_applies {s s' : World × ForthDb} {fs : List CommitFrame}
    (h : World.reconstructFrom s fs = .ok s') :
    applyOperations (s.2, s.1.nextEntity) (operationsOf fs) = .ok (s'.2, s'.1.nextEntity) := by
  induction fs generalizing s with
  | nil =>
    cases h
    rfl
  | cons f fs ih =>
    unfold World.reconstructFrom at h
    split at h
    · rename_i s₁ hstep
      have hrest := ih h
      unfold World.reconstructStep at hstep
      split at hstep
      · cases hstep
      split at hstep
      · cases hstep
      split at hstep
      · cases hstep
      rename_i k n happly
      split at hstep
      · cases hstep
      rename_i hallocator
      split at hstep
      · cases hstep
      simp only at hstep
      split at hstep
      · cases hstep
      cases hstep
      rw [operationsOf, List.flatMap_cons, applyOperations_append, happly]
      rw [not_not.1 hallocator]
      exact hrest
    · cases h

namespace CachedWorld

variable {c c' : CachedWorld} {k : ForthDb} {w : World}

/-- Whatever `c` has stored, its kernel is `k`. -/
structure Sound (c : CachedWorld) (k : ForthDb) : Prop where
  holds : ∃ a, StateHolds (k, c.world.nextEntity) a
  eager : ∀ k', c.world.eagerKernel = some k' → k' = k
  lazy : ∀ k', c.lazyKernel = some k' → k' = k
  /-- The newest frame is not newer than the world. -/
  numbered : ∀ f, c.world.history.getLast? = some f → f.resultingVersion ≤ c.world.version
  mapped : c.world.historyPrefix.isSome = true → ∃ fs, c.world.frames = .ok fs ∧
    applyOperations (.new, 1) (operationsOf fs) = .ok (k, c.world.nextEntity)
  /-- Without a mapped prefix, the frames behind the projection base lead from it to `k`. -/
  projected : c.world.historyPrefix.isSome = false → c.world.eagerKernel = none →
    c.world.history ≠ [] ∧ ∃ base, c.projectionBase = some base ∧
      base.version ≤ c.world.version ∧
      applyFrames (base.kernel, base.nextEntity) (pendingFrames base.version c.world.history) =
        .ok (k, c.world.nextEntity)

/-- The frames of `c` replay to `k` from genesis. -/
def Whole (c : CachedWorld) (k : ForthDb) : Prop :=
  ∃ fs, c.world.frames = .ok fs ∧
    applyOperations (.new, 1) (operationsOf fs) = .ok (k, c.world.nextEntity)

theorem Sound.build (h : c.Sound k) (heager : c.world.eagerKernel = none) :
    c.buildKernel = .ok k := by
  unfold buildKernel
  by_cases hunmapped : c.world.historyPrefix.isSome = true
  · obtain ⟨fs, hfs, happly⟩ := h.mapped hunmapped
    rw [if_pos hunmapped]
    simp only [hfs, happly]
  · rw [Bool.not_eq_true] at hunmapped
    obtain ⟨hne, base, hbase, -, happly⟩ := h.projected hunmapped heager
    rw [hunmapped, if_neg Bool.false_ne_true, if_neg hne]
    unfold materializeKernel
    rw [hbase]
    simp only [Option.map_some, Option.getD_some, happly, Except.map]

/-- **Asking for the kernel** answers `k`, and changes nothing else. -/
theorem Sound.kernel (h : c.Sound k) :
    ∃ c', c.kernel = .ok (k, c') ∧ c'.world = c.world ∧ c'.Sound k := by
  unfold CachedWorld.kernel
  cases heager : c.world.eagerKernel with
  | some k' =>
    obtain rfl := h.eager k' heager
    exact ⟨c, rfl, rfl, h⟩
  | none =>
    cases hlazy : c.lazyKernel with
    | some k' =>
      obtain rfl := h.lazy k' hlazy
      exact ⟨c, rfl, rfl, h⟩
    | none =>
      simp only [h.build heager, Except.map]
      refine ⟨_, rfl, rfl, h.holds, h.eager, fun k' hk' => ?_, h.numbered, h.mapped, h.projected⟩
      exact (Option.some.inj hk').symm

/-- A world with an eager kernel needs nothing else. -/
theorem Sound.of_eager (hholds : ∃ a, StateHolds (k, w.nextEntity) a)
    (heager : w.eagerKernel = some k)
    (hnumbered : ∀ f, w.history.getLast? = some f → f.resultingVersion ≤ w.version)
    (hunmapped : w.historyPrefix = none) : (fresh w).Sound k := by
  refine ⟨hholds, fun k' hk' => ?_, fun k' hk' => (nomatch hk'), hnumbered, fun hp => ?_,
    fun _ hnone => ?_⟩
  · exact Option.some.inj (hk'.symm.trans heager)
  · have hp' : w.historyPrefix.isSome = true := hp
    rw [hunmapped] at hp'
    cases hp'
  · have hnone' : w.eagerKernel = none := hnone
    rw [heager] at hnone'
    cases hnone'

/-- A mapped root replays its image. -/
theorem Sound.of_mapped {s : MmapVmSnapshot} {fs : List CommitFrame} (hfs : s.frames = .ok fs)
    (happly : applyOperations (.new, 1) (operationsOf fs) = .ok (k, s.nextEntity))
    (hholds : ∃ a, StateHolds (k, s.nextEntity) a) : (fresh (.fromMmap s)).Sound k := by
  have hframes : (World.fromMmap s).frames = .ok fs := by
    unfold World.frames World.fromMmap
    simp only [hfs, Except.map, List.append_nil]
  exact ⟨hholds, fun _ hk' => (nomatch hk'), fun _ hk' => (nomatch hk'),
    fun _ hf => (nomatch hf), fun _ => ⟨fs, hframes, happly⟩, fun hp => (nomatch hp)⟩

/-- The frame of a VM epoch, and the frames behind it. -/
theorem frames_fromVmEpoch {fs : List CommitFrame} (hfs : w.frames = .ok fs) (ops : List Operation)
    (n active records : ℕ) :
    (World.fromVmEpoch w ops n active records).1.frames =
      .ok (fs ++ [(World.fromVmEpoch w ops n active records).2]) := by
  unfold World.frames World.fromVmEpoch at *
  simp only
  cases hp : w.historyPrefix with
  | none =>
    rw [hp] at hfs
    rw [Except.ok.inj hfs]
  | some source =>
    rw [hp] at hfs
    simp only at hfs ⊢
    cases hs : source.frames with
    | error e =>
      rw [hs] at hfs
      cases hfs
    | ok gs =>
      rw [hs] at hfs
      have happend : gs ++ w.history = fs := Except.ok.inj hfs
      simp [Except.map, ← happend]

theorem operationsOf_snoc (fs : List CommitFrame) (f : CommitFrame) :
    operationsOf (fs ++ [f]) = operationsOf fs ++ f.operations := by
  rw [operationsOf, List.flatMap_append, List.flatMap_singleton]

/-- Whole frames and one more. -/
theorem applyOperations_snoc {fs : List CommitFrame} {f : CommitFrame} {n n' : ℕ} {k' : ForthDb}
    (h : applyOperations (.new, 1) (operationsOf fs) = .ok (k, n))
    (happly : applyOperations (k, n) f.operations = .ok (k', n')) :
    applyOperations (.new, 1) (operationsOf (fs ++ [f])) = .ok (k', n') := by
  rw [operationsOf_snoc, applyOperations_append, h]
  exact happly

/-- **A VM epoch** hands its kernel on, from wherever the base has it. -/
theorem Sound.succeed (h : c.Sound k) {ops : List Operation} {n' : ℕ} {k' : ForthDb}
    (happly : applyOperations (k, c.world.nextEntity) ops = .ok (k', n'))
    (hholds : ∃ a, StateHolds (k', n') a) (active records : ℕ) :
    (c.succeed (World.fromVmEpoch c.world ops n' active records).1).Sound k' := by
  generalize hw : World.fromVmEpoch c.world ops n' active records = r
  have hhistory : r.1.history = c.world.history ++ [r.2] := by rw [← hw]; rfl
  have hversion : r.2.resultingVersion = c.world.version + 1 := by rw [← hw]; rfl
  have hnewer : r.1.version = c.world.version + 1 := by rw [← hw]; rfl
  have hnext : r.1.nextEntity = n' := by rw [← hw]; rfl
  have hoperations : r.2.operations = ops := by rw [← hw]; rfl
  have hallocator : r.2.resultingAllocator = n' := by rw [← hw]; rfl
  have hunmapped : r.1.historyPrefix = c.world.historyPrefix := by rw [← hw]; rfl
  have hone : applyFrames (k, c.world.nextEntity) [r.2] = .ok (k', n') := by
    unfold applyFrames applyFrames
    rw [hoperations, happly]
    simp only [hallocator, ↓reduceIte]
  refine ⟨?_, fun k'' hk'' => ?_, fun k'' hk'' => (nomatch hk''), fun f hf => ?_, fun hp => ?_,
    fun hp _ => ⟨?_, ?_⟩⟩
  · obtain ⟨a, ha⟩ := hholds
    refine ⟨a, ?_⟩
    show StateHolds (k', r.1.nextEntity) a
    rw [hnext]
    exact ha
  · have hnone : r.1.eagerKernel = none := by rw [← hw]; rfl
    have hk : r.1.eagerKernel = some k'' := hk''
    rw [hnone] at hk
    cases hk
  · have hlast : (c.world.history ++ [r.2]).getLast? = some f := by
      rw [← hhistory]
      exact hf
    rw [List.getLast?_append, List.getLast?_singleton] at hlast
    obtain rfl := Option.some.inj hlast
    show r.2.resultingVersion ≤ r.1.version
    rw [hversion, hnewer]
  · have hp' : r.1.historyPrefix.isSome = true := hp
    rw [hunmapped] at hp'
    obtain ⟨fs, hfs, hreplay⟩ := h.mapped hp'
    have hframes := frames_fromVmEpoch hfs ops n' active records
    rw [hw] at hframes
    refine ⟨fs ++ [r.2], hframes, ?_⟩
    show applyOperations (.new, 1) (operationsOf (fs ++ [r.2])) = .ok (k', r.1.nextEntity)
    rw [hnext]
    exact applyOperations_snoc hreplay (by rw [hoperations]; exact happly)
  · show r.1.history ≠ []
    rw [hhistory]
    exact List.append_ne_nil_of_right_ne_nil _ (List.cons_ne_nil _ _)
  · show ∃ base, c.projection = some base ∧ base.version ≤ r.1.version ∧
      applyFrames (base.kernel, base.nextEntity) (pendingFrames base.version r.1.history) =
        .ok (k', r.1.nextEntity)
    rw [hhistory, hnext, hnewer]
    cases hstored : c.lazyKernel.or c.world.eagerKernel with
    | some stored =>
      -- the base has a kernel: nothing but the new frame is pending
      have hsame : stored = k := by
        cases hlazy : c.lazyKernel with
        | some k'' =>
          rw [hlazy] at hstored
          exact (Option.some.inj hstored).symm.trans (h.lazy k'' hlazy)
        | none =>
          rw [hlazy] at hstored
          exact h.eager stored hstored
      subst hsame
      refine ⟨⟨stored, c.world.version, c.world.nextEntity⟩, ?_, Nat.le_succ _, ?_⟩
      · unfold projection
        rw [hstored]
        rfl
      · rw [pendingFrames_snoc _ (by rw [hversion]; exact Nat.lt_succ_self _),
          pendingFrames_eq_nil h.numbered, List.nil_append]
        exact hone
    | none =>
      -- the base has none: its own pending frames come first
      obtain ⟨hlazy, heager⟩ := Option.or_eq_none_iff.1 hstored
      have hp' : c.world.historyPrefix.isSome = false := by
        rw [← hunmapped]
        exact hp
      obtain ⟨-, base, hbase, hle, hpending⟩ := h.projected hp' heager
      refine ⟨base, ?_, by omega, ?_⟩
      · unfold projection
        rw [hstored]
        exact hbase
      · rw [pendingFrames_snoc _ (by rw [hversion]; omega), applyFrames_append, hpending]
        exact hone

/-- The kernel of a candidate is that of a sound successor, whatever frames it keeps. -/
theorem Sound.intoWorld {candidate : CandidateWorld} {frame : CommitFrame}
    (hholds : ∃ a, StateHolds (candidate.kernel, candidate.nextEntity) a)
    (hframe : frame.resultingVersion = candidate.version) (history : List CommitFrame) :
    (fresh (candidate.intoWorld frame history)).Sound candidate.kernel := by
  refine .of_eager hholds rfl (fun f hf => ?_) rfl
  have hlast : (history ++ [frame]).getLast? = some f := hf
  rw [List.getLast?_append, List.getLast?_singleton] at hlast
  obtain rfl := Option.some.inj hlast
  exact hframe.le

/-- **A candidate on whole frames** without a mapped prefix makes whole frames. -/
theorem Whole.intoWorld (h : c.Whole k) (hunmapped : c.world.historyPrefix = none)
    {candidate : CandidateWorld} {frame : CommitFrame}
    (happly : applyOperations (k, c.world.nextEntity) frame.operations =
      .ok (candidate.kernel, candidate.nextEntity)) :
    (fresh (candidate.intoWorld frame c.world.history)).Whole candidate.kernel := by
  obtain ⟨fs, hfs, hreplay⟩ := h
  unfold World.frames at hfs
  rw [hunmapped] at hfs
  obtain rfl := Except.ok.inj hfs
  exact ⟨c.world.history ++ [frame], rfl, applyOperations_snoc hreplay happly⟩

theorem Whole.succeed (h : c.Whole k) {ops : List Operation} {n' : ℕ} {k' : ForthDb}
    (happly : applyOperations (k, c.world.nextEntity) ops = .ok (k', n')) (active records : ℕ) :
    (c.succeed (World.fromVmEpoch c.world ops n' active records).1).Whole k' := by
  obtain ⟨fs, hfs, hreplay⟩ := h
  exact ⟨_, frames_fromVmEpoch hfs ops n' active records, applyOperations_snoc hreplay happly⟩

/-- **A world that is reconstructed** is sound and whole. -/
theorem of_reconstruct {fs : List CommitFrame} (h : World.reconstruct fs = .ok w) :
    ∃ k, (fresh w).Sound k ∧ (fresh w).Whole k := by
  obtain ⟨a, hw, hunmapped⟩ := World.reconstruct_holds h
  have hhistory : w.history = fs := by
    have hfs := hw.frames
    unfold World.frames at hfs
    rw [hunmapped] at hfs
    exact Except.ok.inj hfs
  unfold World.reconstruct at h
  cases hs : World.reconstructFrom (.genesis, .new) fs with
  | error e =>
    rw [hs] at h
    cases h
  | ok s =>
    rw [hs] at h
    have heq : { s.1 with eagerKernel := some s.2 } = w := Except.ok.inj h
    have heager : w.eagerKernel = some s.2 := by rw [← heq]
    have hnext : w.nextEntity = s.1.nextEntity := by rw [← heq]
    have happly := World.reconstructFrom_applies hs
    obtain ⟨k, hk, hholds⟩ := hw.kernel
    have hsame : k = s.2 := by
      unfold World.kernel at hk
      rw [heager] at hk
      exact (Except.ok.inj hk).symm
    subst hsame
    refine ⟨s.2, .of_eager ⟨a, hholds⟩ heager (fun f hf => ?_) hunmapped, fs, hw.frames, ?_⟩
    · rw [hhistory] at hf
      exact (hw.chained.last_version hf).le
    · show applyOperations (.new, 1) (operationsOf fs) = .ok (s.2, w.nextEntity)
      rw [hnext]
      exact happly

end CachedWorld

end ForthDB
