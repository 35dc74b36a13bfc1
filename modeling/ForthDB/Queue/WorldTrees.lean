import ForthDB.Queue.CollapsedEpoch
import ForthDB.Queue.PublishedWorlds
import ForthDB.Vm.Allocations
import ForthDB.World.CachedWorld

/-!
# Trees of worlds

Worlds are derived from one another by commits, epochs and VM epochs, reconstructed from frames,
and mapped from images. Every world stays, any of them may be derived from again, and any may be
asked for its kernel at any time.

* `Grows pool event pool'`: what an event does to the worlds there are.
* `Tree pool steps`: a run of events from genesis.
* `Grows.kept`: every event keeps the worlds sound; clear events keep their frames whole.
* `kernel_transparent`: in a run of clear events the kernel of every world is what its frames
  replay to, whatever was cached when. `kernel_forgets_prefix`: without that it is not.
-/

namespace ForthDB

inductive TreeEvent
  | reconstruct (frames : List CommitFrame)
  /-- An image is written of a world, and mapped. -/
  | image (index : ℕ)
  /-- A world is asked for its kernel. -/
  | kernel (index : ℕ)
  | commit (index : ℕ) (operations : List Operation)
  | epoch (index : ℕ) (intents : List QueuedIntent) (validators : List Validator)
  | vmEpoch (index : ℕ) (materializer : VmEpochMaterializer) (intents : List QueuedIntent)
  | mixedEpoch (index : ℕ) (materializer : VmEpochMaterializer) (intents : List ControllerIntent)
      (validators : List Validator)

/-- What is carried out. A call that is refused can only have asked for a kernel. -/
inductive Grows (pool : List CachedWorld) : TreeEvent → List CachedWorld → Prop
  | reconstruct {fs : List CommitFrame} {w : World} : World.reconstruct fs = .ok w →
      Grows pool (.reconstruct fs) (pool ++ [.fresh w])
  | image {i : ℕ} {c : CachedWorld} {fs : List CommitFrame} {p : VmQueryProjection}
      {journal : List UInt8} {n : ℕ} {s : MmapVmSnapshot} : pool[i]? = some c →
      c.world.frames = .ok fs → (∀ f ∈ fs, f.InRange) → c.world.vmQuery = .ok p →
      MmapVmSnapshot.create journal n c.world p = .ok s →
      Grows pool (.image i) (pool ++ [.fresh (.fromMmap s)])
  | kernel {i : ℕ} {c c' : CachedWorld} {k : ForthDb} : pool[i]? = some c →
      c.kernel = .ok (k, c') → Grows pool (.kernel i) (pool.set i c')
  /-- `Transaction::commit`, and every accepted intent of `derive_epoch`. -/
  | commit {i : ℕ} {c c' : CachedWorld} {k : ForthDb} {ops : List Operation}
      {candidate : CandidateWorld} : pool[i]? = some c → c.kernel = .ok (k, c') →
      CandidateWorld.constructFromState c.world.id c.world.version c.world.nextEntity
        c.world.operationCount k ops = .ok candidate →
      Grows pool (.commit i ops)
        (pool.set i c' ++ [.fresh (candidate.intoWorld candidate.commitFrame c.world.history)])
  /-- `derive_epoch_world`. -/
  | epoch {i : ℕ} {c c' : CachedWorld} {k : ForthDb} {is : List QueuedIntent}
      {vs : List Validator} {ds : List Decision} {s : EpochWorkspace} : pool[i]? = some c →
      c.kernel = .ok (k, c') → (EpochWorkspace.start c.world k).intents vs is = (ds, s) →
      ds.any Decision.isAccepted = true →
      Grows pool (.epoch i is vs) (pool.set i c' ++ [.fresh (s.collapsed c.world).1])
  | vmEpoch {i : ℕ} {c : CachedWorld} {m m' : VmEpochMaterializer} {is : List QueuedIntent}
      {plan : EpochPlan} : pool[i]? = some c → m.deriveVmEpoch c.world is = .ok (plan, m') →
      plan.frames ≠ [] → Grows pool (.vmEpoch i m is) (pool ++ [c.succeed plan.tail])
  /-- `materialize_mixed`, with a materializer that is synchronized to the base. -/
  | mixedEpoch {i : ℕ} {c c' : CachedWorld} {k : ForthDb} {m : VmEpochMaterializer}
      {is : List ControllerIntent} {vs : List Validator} {ds : List MixedDecision} {s : MixedRun} :
      pool[i]? = some c → c.kernel = .ok (k, c') →
      m.workspace.nextEntity = c.world.nextEntity →
      (m.startMixed c.world).intents c.world k vs is = .ok (ds, s) →
      ds.any MixedDecision.isAccepted = true →
      Grows pool (.mixedEpoch i m is vs) (pool.set i c' ++ [c'.succeed
        (World.fromVmEpoch c.world s.operations s.materializer.workspace.nextEntity
          s.materializer.workspace.activeSlotCount s.materializer.workspace.deltaCount).1])

/-- The worlds there are, each event with those there were before it. -/
inductive Tree : List CachedWorld → List (List CachedWorld × TreeEvent) → Prop
  | genesis : Tree [.fresh .genesis] []
  | grow {pool pool' : List CachedWorld} {steps : List (List CachedWorld × TreeEvent)}
      {event : TreeEvent} : Tree pool steps → Grows pool event pool' →
      Tree pool' (steps ++ [(pool, event)])

/-- Nothing is published through `into_world` on a world with a mapped prefix. -/
def TreeEvent.Clear (pool : List CachedWorld) : TreeEvent → Prop
  | .commit i _ | .epoch i _ _ => ∀ c, pool[i]? = some c → c.world.historyPrefix = none
  | _ => True

/-- An image is written only of a world whose frames lead to its allocator. -/
def TreeEvent.Faithful (pool : List CachedWorld) : TreeEvent → Prop
  | .image i => ∀ c fs, pool[i]? = some c → c.world.frames = .ok fs →
      Leads 1 (operationsOf fs) c.world.nextEntity
  | _ => True

/-! ## What planners apply -/

/-- Operations that ran on a kernel keep it in order. -/
theorem holds_of_applies {s s' : ForthDb × ℕ} {ops : List Operation}
    (h : applyOperations s ops = .ok s') (hs : ∃ a, StateHolds s a) : ∃ b, StateHolds s' b := by
  obtain ⟨a, ha⟩ := hs
  rcases applyOperations_holds ha ops with ⟨s'', b, h', -, hb⟩ | ⟨⟨e, h'⟩, -⟩
  · obtain rfl := Except.ok.inj (h'.symm.trans h)
    exact ⟨b, hb⟩
  · rw [h] at h'
    cases h'

/-- Operations that follow on from its allocator run on every kernel in order. -/
theorem Leads.applies {k : ForthDb} {n n' : ℕ} {ops : List Operation} (h : Leads n ops n')
    (hk : ∃ a, StateHolds (k, n) a) :
    ∃ k', applyOperations (k, n) ops = .ok (k', n') ∧ ∃ b, StateHolds (k', n') b := by
  obtain ⟨a, ha⟩ := hk
  obtain ⟨b, hb, hbn⟩ := h a ha.next.symm
  obtain ⟨⟨k', n''⟩, happly, hholds⟩ := applyOperations_ok ha hb
  have hnext : n'' = n' := hholds.next.trans hbn
  subst hnext
  exact ⟨k', happly, b, hholds⟩

/-- What the loop of `derive_epoch_world` has applied. -/
def EpochWorkspace.Applied (k : ForthDb) (n : ℕ) (s : EpochWorkspace) : Prop :=
  applyOperations (k, n) s.operations = .ok (s.kernel, s.nextEntity)

theorem EpochWorkspace.intent_applied {k : ForthDb} {n : ℕ} {s : EpochWorkspace}
    (h : s.Applied k n) (vs : List Validator) (i : QueuedIntent) :
    (s.intent vs i).2.Applied k n := by
  rw [EpochWorkspace.intent_eq]
  cases hv : validated (s.candidate i) vs with
  | error e => exact h
  | ok p =>
    obtain ⟨candidate, entities⟩ := p
    have hcandidate := EpochWorkspace.of_validated hv
    unfold EpochWorkspace.candidate at hcandidate
    simp only [bind, Except.bind, pure, Except.pure] at hcandidate
    split at hcandidate
    · cases hcandidate
    split at hcandidate
    · cases hcandidate
    split at hcandidate
    · cases hcandidate
    rename_i hconstruct
    cases hcandidate
    cases hc : CandidateWorld.constructFromState _ _ _ _ _ _ with
    | error e =>
      rw [hc] at hconstruct
      cases hconstruct
    | ok c =>
      rw [hc] at hconstruct
      cases hconstruct
      obtain ⟨k', n', happly, -, rfl⟩ := CandidateWorld.constructFromState_eq hc
      unfold Applied EpochWorkspace.accept
      simp only
      rw [applyOperations_append, h]
      exact happly

theorem EpochWorkspace.intents_applied {k : ForthDb} {n : ℕ} {s : EpochWorkspace}
    (h : s.Applied k n) (vs : List Validator) (is : List QueuedIntent) :
    (s.intents vs is).2.Applied k n := by
  induction is generalizing s with
  | nil => exact h
  | cons i is ih => exact ih (EpochWorkspace.intent_applied h vs i)

/-- The tail of a VM epoch. -/
theorem VmEpochMaterializer.deriveVmEpoch_succeeds {m m' : VmEpochMaterializer} {w : World}
    {is : List QueuedIntent} {plan : EpochPlan} (h : m.deriveVmEpoch w is = .ok (plan, m'))
    (hframes : plan.frames ≠ []) : ∃ ops n active records, Leads w.nextEntity ops n ∧
      plan.tail = (World.fromVmEpoch w ops n active records).1 := by
  unfold deriveVmEpoch at h
  simp only at h
  split at h
  · cases h
  · rename_i hnext
    rw [ne_eq, not_not] at hnext
    split at h
    · cases h
    · rename_i ds r hr
      cases h
      have hstart : EpochRun.LeadsFrom w.nextEntity
          { materializer := m, predecessorId := w.id, predecessorVersion := w.version,
            operations := [] } := by
        unfold EpochRun.LeadsFrom
        rw [hnext]
        exact .nil _
      have hleads := EpochRun.intents_leads hstart hr
      rcases EpochPlan.assemble_cases w ds (World.fromVmEpoch w r.operations
          r.materializer.workspace.nextEntity r.materializer.workspace.activeSlotCount
          r.materializer.workspace.deltaCount) with ⟨-, htail, -⟩ | ⟨-, -, hnone⟩
      · exact ⟨_, _, _, _, hleads, htail⟩
      · exact absurd hnone hframes

/-! ## What events keep -/

/-- A world is sound, and its frames are whole if they have to be. -/
def CachedWorld.Keeps (whole : Prop) (c : CachedWorld) : Prop :=
  ∃ k, c.Sound k ∧ (whole → c.Whole k)

section Events

variable {whole : Prop} {pool pool' : List CachedWorld} {event : TreeEvent}

theorem CachedWorld.keeps_genesis (whole : Prop) : CachedWorld.Keeps whole (.fresh .genesis) := by
  refine ⟨.new, ?_, fun _ => ⟨[], rfl, rfl⟩⟩
  exact CachedWorld.Sound.of_eager ⟨_, stateHolds_genesis⟩ rfl (fun f hf => (nomatch hf)) rfl

/-- Asking a world for its kernel changes none of the others. -/
theorem keeps_set (h : ∀ c ∈ pool, c.Keeps whole) {i : ℕ} {c' : CachedWorld}
    (hc' : c'.Keeps whole) : ∀ c ∈ pool.set i c', c.Keeps whole := by
  intro c hc
  rcases List.mem_or_eq_of_mem_set hc with hc | rfl
  · exact h c hc
  · exact hc'

theorem keeps_snoc (h : ∀ c ∈ pool, c.Keeps whole) {c' : CachedWorld} (hc' : c'.Keeps whole) :
    ∀ c ∈ pool ++ [c'], c.Keeps whole := by
  intro c hc
  rcases List.mem_append.1 hc with hc | hc
  · exact h c hc
  · rw [List.mem_singleton.1 hc]
    exact hc'

/-- Whole frames lead to the allocator of their world. -/
theorem CachedWorld.Whole.leads {c : CachedWorld} {k : ForthDb} (h : c.Whole k)
    {fs : List CommitFrame} (hfs : c.world.frames = .ok fs) :
    Leads 1 (operationsOf fs) c.world.nextEntity := by
  obtain ⟨fs', hfs', happly⟩ := h
  obtain rfl := Except.ok.inj (hfs'.symm.trans hfs)
  intro a ha
  exact applyAll_of_applyOperations happly ha

/-- **One event** keeps every world, the new one included. -/
theorem Grows.kept (hg : Grows pool event pool') (h : ∀ c ∈ pool, c.Keeps whole)
    (hclear : whole → event.Clear pool) (hfaithful : ¬ whole → event.Faithful pool) :
    ∀ c ∈ pool', c.Keeps whole := by
  cases hg with
  | reconstruct hw =>
    obtain ⟨k, hsound, hwhole⟩ := CachedWorld.of_reconstruct hw
    exact keeps_snoc h ⟨k, hsound, fun _ => hwhole⟩
  | @image i c fs p journal n s hi hfs hr hp hs =>
    -- the image replays as the frames do that it was written from
    have hframes := MmapVmSnapshot.create_frames hs hfs hr
    obtain ⟨-, -, records, heads, frames, history, -, -, -, hparts⟩ := MmapVmSnapshot.create_ok hs
    have hnext : s.nextEntity = c.world.nextEntity := by rw [hparts]; rfl
    have hleads : Leads 1 (operationsOf fs) s.nextEntity := by
      rw [hnext]
      by_cases hwhole : whole
      · obtain ⟨k, -, hk⟩ := h c (List.mem_of_getElem? hi)
        exact (hk hwhole).leads hfs
      · exact hfaithful hwhole c fs hi hfs
    obtain ⟨k, happly, hholds⟩ := hleads.applies ⟨_, stateHolds_genesis⟩
    have hsound := CachedWorld.Sound.of_mapped hframes happly hholds
    refine keeps_snoc h ⟨k, hsound, fun _ => ?_⟩
    exact hsound.mapped rfl
  | @kernel i c c' k' hi hk =>
    obtain ⟨k, hsound, hwhole⟩ := h c (List.mem_of_getElem? hi)
    obtain ⟨c'', hk'', hworld, hsound'⟩ := hsound.kernel
    rw [hk] at hk''
    obtain ⟨rfl, rfl⟩ := Prod.mk.inj (Except.ok.inj hk'')
    refine keeps_set h ⟨k', hsound', fun hw => ?_⟩
    unfold CachedWorld.Whole
    rw [hworld]
    exact hwhole hw
  | @commit i c c' k' ops candidate hi hk hcandidate =>
    obtain ⟨k, hsound, hwhole⟩ := h c (List.mem_of_getElem? hi)
    obtain ⟨c'', hk'', hworld, hsound'⟩ := hsound.kernel
    rw [hk] at hk''
    obtain ⟨rfl, rfl⟩ := Prod.mk.inj (Except.ok.inj hk'')
    obtain ⟨k₁, n₁, happly, -, rfl⟩ := CandidateWorld.constructFromState_eq hcandidate
    refine keeps_snoc (keeps_set h ⟨k', hsound', fun hw => ?_⟩) ⟨k₁, ?_, fun hw => ?_⟩
    · unfold CachedWorld.Whole
      rw [hworld]
      exact hwhole hw
    · exact CachedWorld.Sound.intoWorld (holds_of_applies happly hsound.holds) rfl _
    · exact (hwhole hw).intoWorld (hclear hw c hi) happly
  | @epoch i c c' k' is vs ds s hi hk hintents haccepted =>
    obtain ⟨k, hsound, hwhole⟩ := h c (List.mem_of_getElem? hi)
    obtain ⟨c'', hk'', hworld, hsound'⟩ := hsound.kernel
    rw [hk] at hk''
    obtain ⟨rfl, rfl⟩ := Prod.mk.inj (Except.ok.inj hk'')
    have happlied : applyOperations (k', c.world.nextEntity) s.operations =
        .ok (s.kernel, s.nextEntity) := by
      have hstart : (EpochWorkspace.start c.world k').Applied k' c.world.nextEntity := rfl
      have hloop := EpochWorkspace.intents_applied hstart vs is
      rw [hintents] at hloop
      exact hloop
    refine keeps_snoc (keeps_set h ⟨k', hsound', fun hw => ?_⟩) ⟨s.kernel, ?_, fun hw => ?_⟩
    · unfold CachedWorld.Whole
      rw [hworld]
      exact hwhole hw
    · exact CachedWorld.Sound.intoWorld (holds_of_applies happlied hsound.holds) rfl _
    · exact (hwhole hw).intoWorld (hclear hw c hi) happlied
  | @vmEpoch i c m m' is plan hi hplan hframes =>
    obtain ⟨k, hsound, hwhole⟩ := h c (List.mem_of_getElem? hi)
    obtain ⟨ops, n, active, records, hleads, htail⟩ :=
      VmEpochMaterializer.deriveVmEpoch_succeeds hplan hframes
    obtain ⟨k', happly, hholds⟩ := hleads.applies hsound.holds
    rw [htail]
    exact keeps_snoc h ⟨k', hsound.succeed happly hholds active records,
      fun hw => (hwhole hw).succeed happly active records⟩
  | @mixedEpoch i c c' k' m is vs ds s hi hk hnext hintents haccepted =>
    obtain ⟨k, hsound, hwhole⟩ := h c (List.mem_of_getElem? hi)
    obtain ⟨c'', hk'', hworld, hsound'⟩ := hsound.kernel
    rw [hk] at hk''
    obtain ⟨rfl, rfl⟩ := Prod.mk.inj (Except.ok.inj hk'')
    have hstart : (m.startMixed c.world).LeadsFrom c.world.nextEntity := by
      unfold MixedRun.LeadsFrom
      rw [← hnext]
      exact .nil _
    have hleads : Leads c.world.nextEntity s.operations s.materializer.workspace.nextEntity :=
      MixedRun.intents_leads hstart hintents
    obtain ⟨k₁, happly, hholds⟩ := hleads.applies hsound.holds
    have hwhole' : whole → c'.Whole k' := fun hw => by
      unfold CachedWorld.Whole
      rw [hworld]
      exact hwhole hw
    rw [← hworld] at happly ⊢
    exact keeps_snoc (keeps_set h ⟨k', hsound', hwhole'⟩)
      ⟨k₁, hsound'.succeed happly hholds _ _, fun hw => (hwhole' hw).succeed happly _ _⟩

/-- **A run** keeps every world. -/
theorem Tree.kept {steps : List (List CachedWorld × TreeEvent)} (h : Tree pool steps)
    (hclear : whole → ∀ step ∈ steps, step.2.Clear step.1)
    (hfaithful : ¬ whole → ∀ step ∈ steps, step.2.Faithful step.1) :
    ∀ c ∈ pool, c.Keeps whole := by
  induction h with
  | genesis =>
    intro c hc
    rw [List.mem_singleton.1 hc]
    exact CachedWorld.keeps_genesis whole
  | grow _ hg ih =>
    have hbefore := ih (fun hw step hstep => hclear hw step (List.mem_append_left _ hstep))
      fun hw step hstep => hfaithful hw step (List.mem_append_left _ hstep)
    exact hg.kept hbefore
      (fun hw => hclear hw _ (List.mem_append_right _ (List.mem_singleton.2 rfl)))
      fun hw => hfaithful hw _ (List.mem_append_right _ (List.mem_singleton.2 rfl))

/-- In a run of clear events every image is faithful. -/
theorem Tree.faithful {steps : List (List CachedWorld × TreeEvent)} (h : Tree pool steps)
    (hclear : ∀ step ∈ steps, step.2.Clear step.1) : ∀ step ∈ steps, step.2.Faithful step.1 := by
  induction h with
  | genesis => exact fun step hstep => nomatch hstep
  | @grow pool pool' steps event h hg ih =>
    have hbefore := fun step hstep => hclear step (List.mem_append_left [(pool, event)] hstep)
    have hkept : ∀ c ∈ pool, c.Keeps True :=
      h.kept (fun _ => hbefore) fun hno => absurd trivial hno
    intro step hstep
    rcases List.mem_append.1 hstep with hstep | hstep
    · exact ih hbefore step hstep
    · obtain rfl := List.mem_singleton.1 hstep
      cases event with
      | image i =>
        intro c fs hc hfs
        obtain ⟨k, -, hwhole⟩ := hkept c (List.mem_of_getElem? hc)
        exact (hwhole trivial).leads hfs
      | _ => exact trivial

end Events

/-- **Materialising a kernel is transparent.** In every run in which nothing is published through
`into_world` on a mapped prefix, the kernel of every world is what its frames replay to from
genesis, whatever kernels were asked for before. -/
theorem kernel_transparent {pool : List CachedWorld}
    {steps : List (List CachedWorld × TreeEvent)} (h : Tree pool steps)
    (hclear : ∀ step ∈ steps, step.2.Clear step.1) :
    ∀ c ∈ pool, ∃ fs k c', c.world.frames = .ok fs ∧
      applyOperations (.new, 1) (operationsOf fs) = .ok (k, c.world.nextEntity) ∧
      c.kernel = .ok (k, c') := by
  intro c hc
  have hkept : ∀ c ∈ pool, c.Keeps True :=
    h.kept (fun _ => hclear) fun hno => absurd trivial hno
  obtain ⟨k, hsound, hwhole⟩ := hkept c hc
  obtain ⟨fs, hfs, happly⟩ := hwhole trivial
  obtain ⟨c', hk, -, -⟩ := hsound.kernel
  exact ⟨fs, k, c', hfs, happly, hk⟩

/-! ## A commit on a mapped root -/

/-- A world, asked for its kernel, and the world that a commit makes on it. -/
def CachedWorld.committed (c : CachedWorld) (ops : List Operation) :
    Option (CachedWorld × CachedWorld) :=
  match c.kernel with
  | .error _ => none
  | .ok (k, c') =>
    match CandidateWorld.constructFromState c.world.id c.world.version c.world.nextEntity
      c.world.operationCount k ops with
    | .error _ => none
    | .ok candidate =>
      some (c', .fresh (candidate.intoWorld candidate.commitFrame c.world.history))

theorem grows_committed {pool : List CachedWorld} {i : ℕ} {c c' d : CachedWorld}
    {ops : List Operation} (hi : pool[i]? = some c) (h : c.committed ops = some (c', d)) :
    Grows pool (.commit i ops) (pool.set i c' ++ [d]) := by
  unfold CachedWorld.committed at h
  split at h
  · cases h
  · rename_i k c'' hk
    split at h
    · cases h
    · rename_i candidate hcandidate
      obtain ⟨rfl, rfl⟩ := Prod.mk.inj (Option.some.inj h)
      exact .commit hi hk hcandidate

/-- The root that is mapped from an image of a world. -/
def CachedWorld.mappedRoot (c : CachedWorld) : Option CachedWorld :=
  match c.world.frames, imageOf c.world with
  | .ok fs, .ok image =>
    if ∀ f ∈ fs, f.InRange then some (.fresh (.fromMmap image)) else none
  | _, _ => none

theorem grows_mappedRoot {pool : List CachedWorld} {i : ℕ} {c d : CachedWorld}
    (hi : pool[i]? = some c) (h : c.mappedRoot = some d) : Grows pool (.image i) (pool ++ [d]) := by
  unfold CachedWorld.mappedRoot at h
  split at h
  · rename_i fs image hfs himage
    split at h
    · rename_i hr
      cases h
      unfold imageOf at himage
      split at himage
      · rename_i p hp
        exact .image hi hfs hr hp himage
      · cases himage
    · cases h
  · cases h

/-- A commit of one entity on genesis, and the image of that. -/
def allocatedRoot : Option (CachedWorld × CachedWorld × CachedWorld) := do
  let (genesis, first) ← CachedWorld.committed (.fresh .genesis) [.allocateEntity ⟨1⟩]
  let root ← first.mappedRoot
  pure (genesis, first, root)

/-- The worlds behind that image. -/
theorem tree_allocatedRoot {g c d : CachedWorld} (h : allocatedRoot = some (g, c, d)) :
    Tree [g, c, d] [([.fresh .genesis], .commit 0 [.allocateEntity ⟨1⟩]), ([g, c], .image 1)] := by
  unfold allocatedRoot at h
  simp only [Option.bind_eq_bind, Option.bind_eq_some_iff, Option.pure_def] at h
  obtain ⟨⟨g', c'⟩, hcommitted, d', hroot, heq⟩ := h
  cases heq
  have hfirst := Tree.genesis.grow (grows_committed (i := 0) rfl hcommitted)
  exact hfirst.grow (grows_mappedRoot (i := 1) rfl hroot)

/-- Neither of the two events publishes on a mapped prefix. -/
theorem clear_allocatedRoot {g c : CachedWorld} :
    ∀ step ∈ [([CachedWorld.fresh .genesis], TreeEvent.commit 0 [.allocateEntity ⟨1⟩]),
      ([g, c], .image 1)], step.2.Clear step.1 := by
  intro step hstep
  rcases List.mem_cons.1 hstep with rfl | hstep
  · intro c hc
    cases hc
    rfl
  · obtain rfl := List.mem_singleton.1 hstep
    exact trivial

/-- The kernel of a mapped root that has been asked for it. -/
theorem kernel_transparent_mapped : ∃ pool steps, Tree pool steps ∧ pool.length = 3 ∧
    ∀ c ∈ pool, ∃ fs k c', c.world.frames = .ok fs ∧
      applyOperations (.new, 1) (operationsOf fs) = .ok (k, c.world.nextEntity) ∧
      c.kernel = .ok (k, c') := by
  have hsome : allocatedRoot.isSome = true := by decide +kernel
  obtain ⟨⟨g, c, d⟩, h⟩ := Option.isSome_iff_exists.1 hsome
  exact ⟨_, _, tree_allocatedRoot h, rfl,
    kernel_transparent (tree_allocatedRoot h) clear_allocatedRoot⟩

/-- What the frames of a world replay to, and what its kernel is, by their allocators. -/
def CachedWorld.allocators (c : CachedWorld) : Except String (ℕ × ℕ) :=
  match c.world.frames, c.kernel with
  | .ok fs, .ok (k, _) =>
    match applyOperations (.new, 1) (operationsOf fs) with
    | .ok (k', _) => .ok (k'.nextEntity, k.nextEntity)
    | .error e => .error e.debug
  | .error message, _ => .error message
  | _, .error message => .error message

/-- **A commit on a mapped root** keeps the kernel and forgets the frames of the image: its frames
replay to another kernel. -/
theorem kernel_forgets_prefix : ∃ pool steps c fs k n k' c', Tree pool steps ∧ c ∈ pool ∧
    c.world.frames = .ok fs ∧ applyOperations (.new, 1) (operationsOf fs) = .ok (k, n) ∧
    c.kernel = .ok (k', c') ∧ k.nextEntity = 1 ∧ k'.nextEntity = 2 := by
  have hsome : (allocatedRoot.bind fun p => (p.2.2.committed [.forget ⟨"s"⟩]).map fun q =>
      q.2.allocators) = some (.ok (1, 2)) := by decide +kernel
  obtain ⟨⟨g, c, d⟩, hroot, hsome⟩ := Option.bind_eq_some_iff.1 hsome
  obtain ⟨⟨d', e⟩, hcommitted, hallocators⟩ := Option.map_eq_some_iff.1 hsome
  have htree := (tree_allocatedRoot hroot).grow (grows_committed (i := 2) rfl hcommitted)
  unfold CachedWorld.allocators at hallocators
  split at hallocators
  · rename_i fs k' e' hfs hk
    split at hallocators
    · rename_i k n happly
      obtain ⟨hone, htwo⟩ := Prod.mk.inj (Except.ok.inj hallocators)
      exact ⟨_, _, e, fs, k, n, k', e', htree,
        List.mem_append_right _ (List.mem_singleton.2 rfl), hfs, happly, hk, hone, htwo⟩
    · cases hallocators
  · cases hallocators
  · cases hallocators

end ForthDB
