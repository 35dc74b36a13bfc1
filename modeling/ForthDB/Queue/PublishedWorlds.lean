import ForthDB.Journal.Replay
import ForthDB.Queue.DerivedEpoch
import ForthDB.Queue.MixedShape

/-!
# The history of published worlds

A database commits transactions, queued epochs and mixed epochs; an admission engine
materializes epochs. Either starts at genesis or at an image of a world that was published
before.

* `Reached e steps`: the engine `e` is reached by `steps`.
* `World.Complete`: `reconstruct` rebuilds the world from its own frames.
* `Engine.Clear`: nothing is published through `into_world` on a head with a mapped prefix,
  and the slots of a mixed epoch have tokens of their own.
* `published_worlds_complete`: **clear steps publish complete worlds only**.
* `forgotten`, `mapped_root_forgotten`: `into_world` forgets the frames of a mapped root.
-/

namespace ForthDB

open VmEpochMaterializer

/-- `reconstruct` rebuilds the world from its own frames. -/
def World.Complete (w : World) : Prop :=
  ∃ fs r, w.frames = .ok fs ∧ World.reconstruct fs = .ok r ∧ r.id = w.id ∧ r.version = w.version ∧
    r.nextEntity = w.nextEntity ∧ r.activeSlotCount = w.activeSlotCount ∧
    r.recordCount = w.recordCount ∧
    ∀ slot, ∃ fact, w.resolve slot = .ok fact ∧ r.resolve slot = .ok fact

/-- A database with the materializer of its mixed epochs, or an admission engine. -/
inductive Engine
  | database (database : Database) (materializer : VmEpochMaterializer)
  | admission (state : EngineState) (validators : List Validator)

/-- The published head. -/
def Engine.world : Engine → World
  | .database d _ => d.current
  | .admission s _ => s.1

inductive EngineEvent
  | registerValidator (validator : Validator)
  | commit (transaction : Transaction)
  | queuedEpoch (intents : List QueuedIntent)
  | mixedEpoch (intents : List ControllerIntent)
  | admissionEpoch (intents : List QueuedIntent)

/-- What an engine carries out. A refused call and a halted epoch publish nothing. -/
inductive Engine.Step : Engine → EngineEvent → Engine → Prop
  | registerDatabase (d : Database) (m : VmEpochMaterializer) (v : Validator) :
      Step (.database d m) (.registerValidator v) (.database (d.registerValidator v) m)
  | registerAdmission (s : EngineState) (vs : List Validator) (v : Validator) :
      Step (.admission s vs) (.registerValidator v) (.admission s (vs ++ [v]))
  | commit {d d' : Database} (m : VmEpochMaterializer) {t : Transaction} :
      d.commit t = .ok (.ok d') → Step (.database d m) (.commit t) (.database d' m)
  | queuedEpoch {d d' : Database} (m : VmEpochMaterializer) {is : List QueuedIntent}
      {plan : EpochPlan} : d.commitQueuedEpoch is = .ok (plan, d') →
      Step (.database d m) (.queuedEpoch is) (.database d' m)
  | mixedEpoch {d d' : Database} {m m' : VmEpochMaterializer} {is : List ControllerIntent}
      {plan : MixedEpochPlan} : d.commitMixedEpoch is m = .ok (plan, d', m') →
      Step (.database d m) (.mixedEpoch is) (.database d' m')
  | admissionEpoch {s s' : EngineState} {vs : List Validator} {is : List QueuedIntent}
      {plan : EpochPlan} : liveEpoch vs s is = .ok (plan, s') →
      Step (.admission s vs) (.admissionEpoch is) (.admission s' vs)

/-- Where engines start: at genesis, or at an image. -/
inductive Engine.Root : Option MmapVmSnapshot → Engine → Prop
  | genesis : Root none (.database .new (.new 1))
  | fresh (s : MmapVmSnapshot) (nextEntity : ℕ) :
      Root (some s) (.database ⟨.fromMmap s, [], []⟩ (.new nextEntity))
  | mapped (s : MmapVmSnapshot) {m : VmEpochMaterializer} : fromMmap s = .ok m →
      Root (some s) (.database ⟨.fromMmap s, [], []⟩ m)
  | admission {snapshot : Option MmapVmSnapshot} {kind : AdmissionMaterializer} {s : EngineState} :
      startEngine snapshot kind = .ok s → Root snapshot (.admission s [])

/-- The engines that are reached, each with the steps that led to it. An image can be written
of every published world; the numbers of its frames are `u64`s. -/
inductive Reached : Engine → List (Engine × EngineEvent) → Prop
  | genesis {e : Engine} : e.Root none → Reached e []
  | step {e e' : Engine} {steps : List (Engine × EngineEvent)} {event : EngineEvent} :
      Reached e steps → e.Step event e' → Reached e' (steps ++ [(e, event)])
  | mapped {e e' : Engine} {steps : List (Engine × EngineEvent)} {fs : List CommitFrame}
      {p : VmQueryProjection} {journal : List UInt8} {n : ℕ} {s : MmapVmSnapshot} :
      Reached e steps → e.world.frames = .ok fs → (∀ f ∈ fs, f.InRange) →
      e.world.vmQuery = .ok p → MmapVmSnapshot.create journal n e.world p = .ok s →
      e'.Root (some s) → Reached e' steps

/-- At most `2 ^ 32` slots are known to the materializer, or named by the history of the head
or by the intents. -/
def SlotsFit (m : VmEpochMaterializer) (w : World) (is : List ControllerIntent) : Prop :=
  ∃ U : Finset SlotId, U.card ≤ 2 ^ 32 ∧ (∀ k, m.slots.lookup k ≠ none → k ∈ U) ∧
    (∀ k, (m.mappedBase.bind fun base => base.slotToken k) ≠ none → k ∈ U) ∧
    (∀ fs, w.frames = .ok fs → ∀ op ∈ operationsOf fs, ∀ k ∈ op.slots, k ∈ U) ∧
    ∀ i ∈ is, ∀ k ∈ i.slots, k ∈ U

/-- A step that does not drop history: it publishes nothing through `into_world` on a head with
a mapped prefix, commits transactions on the head itself, and has tokens for its slots. -/
def Engine.Clear : Engine → EngineEvent → Prop
  | .database d _, .commit t =>
    (t.base.id = d.current.id → t.base = d.current) ∧
      (d.current.historyPrefix = none ∨ ∀ d', d.commit t ≠ .ok (.ok d'))
  | .database d _, .queuedEpoch is =>
    d.current.historyPrefix = none ∨
      ∀ plan d', d.commitQueuedEpoch is = .ok (plan, d') → plan.frames = []
  | .database d m, .mixedEpoch is => SlotsFit m d.current is
  | .admission s vs, .admissionEpoch is =>
    s.1.historyPrefix = none ∨ (vs = [] ∧ s.2 ≠ .world) ∨
      ∀ plan s', liveEpoch vs s is = .ok (plan, s') → plan.frames = []
  | _, _ => True

/-! ## What a world records -/

/-- The world holds a history whose frames are numbered by their versions. -/
structure World.Recorded (w : World) (fs : List CommitFrame) (a : WorldState) : Prop
    extends World.Holds w fs a where
  numbered : Numbered fs
  version_eq : w.version = fs.length

namespace World.Recorded

variable {w w' : World} {fs : List CommitFrame} {a b : WorldState} {f : CommitFrame}

theorem genesis : World.genesis.Recorded [] .genesis := ⟨World.genesis_holds, rfl, rfl⟩

/-- **A recorded world is complete.** -/
theorem complete (h : w.Recorded fs a) : w.Complete := by
  obtain ⟨r, hr⟩ := World.reconstruct_iff.2 ⟨_, _, _, h.chained⟩
  obtain ⟨b, hb, -⟩ := World.reconstruct_holds hr
  obtain ⟨hid, hv, rfl⟩ := hb.chained.det h.chained
  exact ⟨fs, r, h.frames, hr, hid, hv, hb.next.trans h.next.symm, hb.active.trans h.active.symm,
    hb.records.trans h.records.symm, fun slot => ⟨_, h.resolve slot, hb.resolve slot⟩⟩

/-- The state behind more frames. -/
theorem applyAll (h : w.Recorded fs a) {gs : List CommitFrame} (h' : w'.Recorded (fs ++ gs) b) :
    a.applyAll (operationsOf gs) = some b := by
  have hb := h'.chained.applyAll
  rw [operationsOf, List.flatMap_append, WorldState.applyAll_append, h.chained.applyAll] at hb
  exact hb

/-- **A succession** on a head without a mapped prefix. -/
theorem succeeds (h : w.Recorded fs a) (hp : w.historyPrefix = none) (hs : Succeeds w f w') :
    ∃ b, w'.Recorded (fs ++ [f]) b ∧ w'.historyPrefix = none := by
  obtain ⟨ops, c, hc, rfl, rfl⟩ := hs
  obtain ⟨k, hk, hkernel⟩ := h.kernel
  unfold CandidateWorld.construct at hc
  rw [hk] at hc
  obtain ⟨b, hb, hkb, ho, hid, hv, hw, hbv, hoc⟩ :=
    CandidateWorld.applyAll_of_construct hkernel (Except.ok.inj hc)
  have hfs : w.history = fs := by
    have hf := h.frames
    simp only [World.frames, hp] at hf
    exact Except.ok.inj hf
  rw [hfs]
  refine ⟨b, ⟨CandidateWorld.intoWorld_holds h.chained (by rw [ho]; exact hb) hkb hw hbv ?_ ?_,
    numbered_snoc h.numbered (hbv.trans h.version_eq), ?_⟩, rfl⟩
  · rw [hid, hw, hv, ho, ← hkb.next]
  · rw [hoc]
    exact h.operationCount
  · rw [List.length_append, List.length_singleton, ← h.version_eq]
    exact hv

/-- A chain of successions on a head without a mapped prefix. -/
theorem descends {gs : List CommitFrame} (h : w.Recorded fs a) (hp : w.historyPrefix = none)
    (hd : Descends w gs w') : ∃ b, w'.Recorded (fs ++ gs) b := by
  induction hd generalizing fs a with
  | refl w => exact ⟨a, by rw [List.append_nil]; exact h⟩
  | cons hs _ ih =>
    obtain ⟨b, hb, hp'⟩ := h.succeeds hp hs
    obtain ⟨c, hc⟩ := ih hb hp'
    exact ⟨c, by rw [List.append_cons]; exact hc⟩

/-- **A succession on a head with a mapped prefix** forgets the frames of the prefix: the world
cannot be rebuilt. -/
theorem forgotten (h : w.Recorded fs a) {source : MmapVmSnapshot} {gs : List CommitFrame}
    (hp : w.historyPrefix = some source) (hs : source.frames = .ok gs) (hne : gs ≠ [])
    (hsucc : Succeeds w f w') : ¬ w'.Complete := by
  rintro ⟨fs', r, hfs', hr, -⟩
  obtain ⟨ops, c, hc, rfl, rfl⟩ := hsucc
  have hf : c.commitFrame.parentVersion = w.version := by
    unfold CandidateWorld.construct at hc
    cases hk : w.kernel with
    | error e => rw [hk] at hc; cases hc
    | ok k =>
      rw [hk] at hc
      obtain ⟨k', n', -, -, rfl⟩ := CandidateWorld.constructFromState_eq (Except.ok.inj hc)
      rfl
  have hfs : fs = gs ++ w.history := by
    have hframes := h.frames
    simp only [World.frames, hp, hs, Except.map] at hframes
    exact (Except.ok.inj hframes).symm
  have hfs'' : fs' = w.history ++ [c.commitFrame] := by
    exact (Except.ok.inj hfs').symm
  -- the first frame that is left starts behind the prefix
  have hnum := numbered_snoc h.numbered (hf.trans h.version_eq)
  obtain ⟨g, rest, hg⟩ : ∃ g rest, w.history ++ [c.commitFrame] = g :: rest := by
    cases w.history with
    | nil => exact ⟨c.commitFrame, [], rfl⟩
    | cons g rest => exact ⟨g, rest ++ [c.commitFrame], rfl⟩
  rw [hfs, List.append_assoc, hg] at hnum
  have hversion : g.parentVersion ≠ World.genesis.version := by
    rw [hnum.parentVersion_eq]
    exact fun hzero => hne (List.length_eq_zero_iff.1 hzero)
  rw [hfs'', hg] at hr
  unfold World.reconstruct at hr
  simp only [World.reconstructFrom, World.reconstructStep] at hr
  split at hr
  · rename_i s hstep
    split at hstep
    · cases hstep
    · cases hstep
  · cases hr

/-- **An epoch of `derive_epoch_world`** on a head without a mapped prefix. -/
theorem derived (h : w.Recorded fs a) (hp : w.historyPrefix = none) {is : List QueuedIntent}
    {vs : List Validator} {plan : EpochPlan} (hd : deriveEpochWorld w is vs = .ok plan) :
    ∃ b, plan.tail.Recorded (fs ++ plan.frames) b := by
  have hfs : w.history = fs := by
    have hf := h.frames
    simp only [World.frames, hp] at hf
    exact Except.ok.inj hf
  obtain ⟨k, hk, hs⟩ := h.kernel
  unfold deriveEpochWorld at hd
  rw [hk, hfs] at hd
  obtain rfl := Except.ok.inj hd
  simp only
  have h0 : (EpochWorkspace.start w k).Sound a := ⟨⟨a, rfl, hs⟩⟩
  have hsound := EpochWorkspace.intents_sound h0 vs is
  generalize (EpochWorkspace.start w k).intents vs is = run at hsound
  obtain ⟨b, hb, hkb⟩ := hsound.applied
  rcases EpochPlan.assemble_cases w run.1 _ with ⟨-, ht, hf⟩ | ⟨-, ht, hf⟩
  · rw [ht, hf]
    refine ⟨b, CandidateWorld.intoWorld_holds h.chained hb hkb rfl rfl rfl h.operationCount,
      numbered_snoc h.numbered h.version_eq, ?_⟩
    rw [List.length_append, List.length_singleton, ← h.version_eq]
    rfl
  · rw [ht, hf, List.append_nil]
    exact ⟨a, h⟩

/-- **A VM epoch**, on any head. -/
theorem vmEpoch (h : w.Recorded fs a) {ops : List Operation} (hb : a.applyAll ops = some b) :
    (World.fromVmEpoch w ops b.next b.slots.size b.records).1.Recorded
      (fs ++ [(World.fromVmEpoch w ops b.next b.slots.size b.records).2]) b := by
  refine ⟨World.fromVmEpoch_holds h.toHolds hb, numbered_snoc h.numbered h.version_eq, ?_⟩
  rw [List.length_append, List.length_singleton, ← h.version_eq]
  rfl

/-- The query view of a recorded world projects its frames. -/
theorem projects (h : w.Recorded fs a) {p : VmQueryProjection} (hp : w.vmQuery = .ok p)
    (hm : p.mapped = none) : VmQueryProjection.Projects p.definitions a.slots ∧ fs ≠ [] := by
  unfold World.vmQuery at hp
  cases hw : w.mapped with
  | some t =>
    rw [hw] at hp
    obtain rfl := Except.ok.inj hp
    cases hm
  | none =>
    simp only [hw] at hp
    split at hp
    · cases hp
    rename_i hne
    rw [h.frames] at hp
    obtain rfl := Except.ok.inj hp
    refine ⟨?_, ?_⟩
    · rw [WorldState.applyAll_slots h.chained.applyAll]
      exact VmQueryProjection.fromFrames_projects fs
    · rintro rfl
      have hf := h.frames
      unfold World.frames at hf
      split at hf
      · rename_i source _
        cases hs : source.frames with
        | error e => rw [hs] at hf; cases hf
        | ok gs =>
          rw [hs] at hf
          exact hne (List.append_eq_nil_iff.1 (Except.ok.inj hf)).2
      · exact hne (Except.ok.inj hf)

/-- **An image of a recorded world** is a recorded world. -/
theorem mapped (h : w.Recorded fs a) (hr : ∀ f ∈ fs, f.InRange) {p : VmQueryProjection}
    (hp : w.vmQuery = .ok p) {journal : List UInt8} {n : ℕ} {s : MmapVmSnapshot}
    (hs : MmapVmSnapshot.create journal n w p = .ok s) :
    (World.fromMmap s).Recorded fs a ∧ fs ≠ [] := by
  obtain ⟨hm, -, records, heads, frames, history, -, -, -, hparts⟩ := MmapVmSnapshot.create_ok hs
  obtain ⟨hprojects, hne⟩ := h.projects hp hm
  have hlinks := MmapVmSnapshot.create_links hs hprojects
  have hframes := MmapVmSnapshot.create_frames hs h.frames hr
  have hid : s.worldId = w.id := by rw [hparts]; rfl
  have hv : s.worldVersion = w.version := by rw [hparts]; rfl
  have hn : s.nextEntity = w.nextEntity := by rw [hparts]; rfl
  have ho : s.operationCount = w.operationCount := by rw [hparts]; rfl
  have hactive : s.activeSlotCount = w.activeSlotCount := by rw [hparts]; rfl
  have hrecords : s.recordCount = w.recordCount := by rw [hparts]; rfl
  refine ⟨⟨⟨?_, hactive.trans h.active, hrecords.trans h.records⟩, h.numbered,
    hv.trans h.version_eq⟩, hne⟩
  exact MmapVmSnapshot.fromMmap_replays hlinks hframes h.toReplays hid hv hn ho

end World.Recorded

/-! ## What the engines keep -/

/-- The head is recorded, and the materializer beside it follows its history. -/
def Engine.Sound : Engine → Prop
  | .database d m => ∃ fs a base, d.current.Recorded fs a ∧ m.Follows base fs
  | .admission s _ => ∃ fs a, s.1.Recorded fs a ∧ ∀ vm, s.2 = .tokenVm vm → vm.Ready s.1 a

namespace Engine.Sound

variable {e e' : Engine} {d d' : Database} {m m' : VmEpochMaterializer} {s s' : EngineState}
  {vs : List Validator}

theorem complete (h : e.Sound) : e.world.Complete := by
  cases e with
  | database d m =>
    obtain ⟨fs, a, base, hw, -⟩ := h
    exact hw.complete
  | admission s vs =>
    obtain ⟨fs, a, hw, -⟩ := h
    exact hw.complete

/-- A new materializer is to be reset. -/
theorem follows_new (n : ℕ) {fs : List CommitFrame} (hne : fs ≠ []) :
    (VmEpochMaterializer.new n).Follows .none fs :=
  ⟨Nat.zero_le _, [], (tables_new n).toDictionaries.bare, .inl ⟨rfl, hne⟩⟩

theorem root_genesis (h : e.Root none) : e.Sound := by
  cases h with
  | genesis =>
    refine ⟨[], .genesis, .none, .genesis, Nat.zero_le _, [], (tables_new 1).toDictionaries.bare,
      .inr ⟨.genesis, rfl, ?_⟩⟩
    exact (VmEpochMaterializer.new_holds 1).stands.shaped
  | @admission snapshot kind s hs =>
    cases kind with
    | world =>
      cases hs
      exact ⟨[], .genesis, .genesis, fun vm hvm => nomatch hvm⟩
    | tokenVm =>
      cases hs
      refine ⟨[], .genesis, .genesis, fun vm hvm => ?_⟩
      cases hvm
      exact ⟨rfl, .none, [], VmEpochMaterializer.new_holds 1, VmEpochMaterializer.new_tight 1⟩

/-- **An engine on an image** of a recorded world. -/
theorem root_mapped {w : World} {fs : List CommitFrame} {a : WorldState} (h : w.Recorded fs a)
    (hr : ∀ f ∈ fs, f.InRange) {p : VmQueryProjection} (hp : w.vmQuery = .ok p)
    {journal : List UInt8} {n : ℕ} {image : MmapVmSnapshot}
    (hs : MmapVmSnapshot.create journal n w p = .ok image) (he : e.Root (some image)) :
    e.Sound := by
  obtain ⟨hw, hne⟩ := h.mapped hr hp hs
  have hready : ∀ m, fromMmap image = .ok m → m.Ready (.fromMmap image) a := by
    intro m hm
    have ha : a = ⟨(operationsOf fs).foldl SlotStacks.perform .empty, w.recordCount, w.nextEntity⟩ :=
      WorldState.ext (WorldState.applyAll_slots h.chained.applyAll) h.records.symm h.next.symm
    rw [ha]
    exact Ready.mapped h.frames hp hs hm
  generalize hsome : some image = root at he
  cases he with
  | genesis => cases hsome
  | fresh image' next =>
    cases hsome
    exact ⟨fs, a, .none, hw, follows_new next hne⟩
  | @mapped image' m hm =>
    cases hsome
    obtain ⟨base, names, hholds, -⟩ := (hready m hm).holds
    refine ⟨fs, a, base, hw, ?_, names, hholds.tables.toDictionaries.bare, .inl ⟨?_, hne⟩⟩
    all_goals
      have hv : m.version = 0 := by
        unfold fromMmap at hm
        simp only [bind, Except.bind, pure, Except.pure] at hm
        split at hm
        · cases hm
        · cases hm
          rfl
      omega
  | @admission snapshot kind s hstart =>
    subst hsome
    unfold startEngine at hstart
    cases kind with
    | world =>
      cases hstart
      exact ⟨fs, a, hw, fun vm hvm => nomatch hvm⟩
    | tokenVm =>
      simp only at hstart
      cases hm : fromMmap image with
      | error message => rw [hm] at hstart; cases hstart
      | ok vm =>
        rw [hm] at hstart
        cases hstart
        refine ⟨fs, a, hw, fun vm' hvm => ?_⟩
        cases hvm
        exact hready vm hm

/-- **A strict commit** on the head itself. -/
theorem commit (h : Engine.Sound (.database d m)) {t : Transaction}
    (hc : Engine.Clear (.database d m) (.commit t)) (hd : d.commit t = .ok (.ok d')) :
    Engine.Sound (.database d' m) := by
  obtain ⟨fs, a, base, hw, hm⟩ := h
  obtain ⟨hbase, hp | hrefused⟩ := hc
  swap
  · exact absurd hd (hrefused d')
  unfold Database.commit at hd
  split at hd
  · cases hd
  rename_i hid
  have hsame := hbase (not_not.1 hid)
  split at hd
  · cases hd
  · cases hd
  rename_i c hcand
  split at hd
  · cases hd
  cases hd
  unfold Transaction.candidate at hcand
  rw [hsame] at hcand
  obtain ⟨b, hb, -⟩ := hw.succeeds hp ⟨t.operations, c, hcand, rfl, rfl⟩
  exact ⟨_, b, base, hb, hm.append _⟩

/-- **A queued epoch.** -/
theorem queuedEpoch (h : Engine.Sound (.database d m)) {is : List QueuedIntent}
    (hc : Engine.Clear (.database d m) (.queuedEpoch is)) {plan : EpochPlan}
    (hd : d.commitQueuedEpoch is = .ok (plan, d')) : Engine.Sound (.database d' m) := by
  obtain ⟨fs, a, base, hw, hm⟩ := h
  obtain ⟨hdesc, -, -⟩ := Database.commitQueuedEpoch_descends hd
  rcases hc with hp | hnone
  · obtain ⟨b, hb⟩ := hw.descends hp hdesc
    exact ⟨_, b, base, hb, hm.append _⟩
  · rw [hnone plan d' hd] at hdesc
    exact ⟨fs, a, base, by rw [hdesc.eq_of_nil]; exact hw, hm⟩

/-- What a mixed epoch publishes, and the materializer behind it. -/
theorem commitMixedEpoch_follows {fs : List CommitFrame} {a : WorldState} {base : FrozenNames}
    (hw : d.current.Recorded fs a) (hm : m.Follows base fs) {is : List ControllerIntent}
    (hc : SlotsFit m d.current is) {plan : MixedEpochPlan}
    (hd : d.commitMixedEpoch is m = .ok (plan, d', m')) :
    ∃ b, d'.current.Recorded (fs ++ plan.frames) b ∧ m'.Follows base (fs ++ plan.frames) ∧
      m'.version = (fs ++ plan.frames).length ∧
      d'.current.historyPrefix = d.current.historyPrefix := by
  obtain ⟨U, hcard, hknown, hfrozen, hframes, his⟩ := hc
  have hbase : Supply base U := by
    obtain ⟨names, hdict, -⟩ := hm.shaped
    exact hdict.supply hcard hfrozen
  unfold Database.commitMixedEpoch at hd
  split at hd
  · cases hd
  · cases hd
  rename_i m₁ hsync
  obtain ⟨names₁, h₁, hU₁⟩ := synchronizeTo_shape hm hw.toReplays hw.version_eq hw.numbered
    (hframes fs hw.frames) hknown hbase hsync
  split at hd
  · cases hd
  rename_i plan₂ m₂ hmat
  cases hd
  obtain ⟨b, names₂, htail, h₂, -, -, hcases⟩ :=
    materializeMixed_holds h₁ hU₁ hbase hw.toHolds his hmat
  -- the new head, and the version that the materializer is given with it
  have hhead : (if plan.frames = [] then d else
      { d with current := plan.tail, store := d.store ++ plan.frames }).current = plan.tail := by
    rcases hcases with ⟨hf, ht⟩ | ⟨ops, hf, ht⟩
    · rw [if_pos hf, ht]
    · rw [if_neg (by rw [hf]; simp)]
  have hrec : plan.tail.Recorded (fs ++ plan.frames) b := by
    rcases hcases with ⟨hf, ht⟩ | ⟨ops, hf, ht⟩
    · refine ⟨htail, ?_, ?_⟩
      · rw [hf, List.append_nil]
        exact hw.numbered
      · rw [hf, ht, List.append_nil]
        exact hw.version_eq
    · refine ⟨htail, ?_, ?_⟩
      · rw [hf]
        exact numbered_snoc hw.numbered hw.version_eq
      · rw [hf, ht, List.length_append, List.length_singleton, ← hw.version_eq]
        rfl
  have hprefix : plan.tail.historyPrefix = d.current.historyPrefix := by
    rcases hcases with ⟨-, ht⟩ | ⟨ops, -, ht⟩
    · rw [ht]
    · rw [ht]
      rfl
  refine ⟨b, by rw [hhead]; exact hrec, ⟨hrec.version_eq.le, names₂, (h₂.withVersion _).slots,
    .inr ⟨b, ?_, h₂.withVersion _⟩⟩, hrec.version_eq, by rw [hhead]; exact hprefix⟩
  rw [hrec.version_eq, List.take_length]
  exact hrec.chained.applyAll

/-- **A mixed epoch**, on any head. -/
theorem mixedEpoch (h : Engine.Sound (.database d m)) {is : List ControllerIntent}
    (hc : Engine.Clear (.database d m) (.mixedEpoch is)) {plan : MixedEpochPlan}
    (hd : d.commitMixedEpoch is m = .ok (plan, d', m')) : Engine.Sound (.database d' m') := by
  obtain ⟨fs, a, base, hw, hm⟩ := h
  obtain ⟨b, hw', hm', -⟩ := commitMixedEpoch_follows hw hm hc hd
  exact ⟨fs ++ plan.frames, b, base, hw', hm'⟩

/-- The plan of an epoch leads from one recorded world to another. -/
theorem materialized {w : World} {fs : List CommitFrame} {a : WorldState} (hw : w.Recorded fs a)
    {em em' : EpochMaterializer} (hready : ∀ vm, em = .tokenVm vm → vm.Ready w a)
    {is : List QueuedIntent} {plan : EpochPlan} (hp : em.materialize w is vs = .ok (plan, em'))
    (hc : w.historyPrefix = none ∨ (vs = [] ∧ em ≠ .world) ∨ plan.frames = []) :
    ∃ b, plan.tail.Recorded (fs ++ plan.frames) b := by
  have hvm : ∀ vm vm', em = .tokenVm vm → vm.deriveVmEpoch w is = .ok (plan, vm') →
      ∃ b, plan.tail.Recorded (fs ++ plan.frames) b := by
    intro vm vm' hem hv
    obtain ⟨hnext, base, names, hh, ht⟩ := hready vm hem
    rcases deriveVmEpoch_spec hh ht hnext is with ⟨-, m', names', hd, -⟩ | ⟨-, halt, hd⟩
    swap
    · rw [hd] at hv
      cases hv
    rw [hd] at hv
    cases hv
    obtain ⟨ops, hops, hs⟩ := EpochState.intents_operations (EpochState.start w a) is
    have hops' : ((EpochState.start w a).intents is).2.operations = ops := hops
    rw [hops']
    generalize ((EpochState.start w a).intents is).2.state = b at hs
    rcases EpochPlan.assemble_cases w ((EpochState.start w a).intents is).1
      (World.fromVmEpoch w ops b.next b.slots.size b.records) with ⟨-, ht, hf⟩ | ⟨-, ht, hf⟩
    · rw [ht, hf]
      exact ⟨b, hw.vmEpoch hs⟩
    · rw [ht, hf, List.append_nil]
      exact ⟨a, hw⟩
  by_cases hnone : plan.frames = []
  · rw [EpochMaterializer.tail_of_no_frames hp hnone, hnone, List.append_nil]
    exact ⟨a, hw⟩
  rcases EpochMaterializer.materialize_cases hp with hd | ⟨-, vm, vm', hem, hv⟩
  swap
  · exact hvm vm vm' hem hv
  rcases hc with hprefix | ⟨hvs, hem⟩ | hf
  · exact hw.derived hprefix hd
  · -- without validators a machine does not ask `derive_epoch_world`
    cases em with
    | world => exact absurd rfl hem
    | tokenVm vm =>
      simp only [EpochMaterializer.materialize, VmEpochMaterializer.materialize, hvs, ne_eq,
        not_true_eq_false, if_false] at hp
      cases hv : vm.deriveVmEpoch w is with
      | error halt => rw [hv] at hp; cases hp
      | ok r =>
        rw [hv] at hp
        cases hp
        exact hvm vm r.2 rfl hv
  · exact absurd hf hnone

/-- **An admission epoch.** -/
theorem admissionEpoch (h : Engine.Sound (.admission s vs)) {is : List QueuedIntent}
    (hc : Engine.Clear (.admission s vs) (.admissionEpoch is)) {plan : EpochPlan}
    (hs : liveEpoch vs s is = .ok (plan, s')) : Engine.Sound (.admission s' vs) := by
  obtain ⟨fs, a, hw, hready⟩ := h
  have hc' : s.1.historyPrefix = none ∨ (vs = [] ∧ s.2 ≠ .world) ∨ plan.frames = [] := by
    rcases hc with hc | hc | hc
    · exact .inl hc
    · exact .inr (.inl hc)
    · exact .inr (.inr (hc plan s' hs))
  unfold liveEpoch at hs
  split at hs
  swap
  · cases hs
  rename_i plan' em' hm
  cases hs
  obtain ⟨b, hb⟩ := materialized hw hready hm hc'
  have hhead : (if plan.frames = [] then s.1 else plan.tail) = plan.tail := by
    split
    · rename_i hf
      exact (EpochMaterializer.tail_of_no_frames hm hf).symm
    · rfl
  refine ⟨_, b, by rw [hhead]; exact hb, fun vm hvm => ?_⟩
  simp only at hvm
  subst hvm
  rw [hhead]
  generalize hem : s.2 = em at hm hready
  cases em with
  | world =>
    simp only [EpochMaterializer.materialize] at hm
    split at hm <;> cases hm
  | tokenVm vm₀ =>
    simp only [EpochMaterializer.materialize] at hm
    cases hv : vm₀.materialize s.1 is vs with
    | error halt => rw [hv] at hm; cases hm
    | ok r =>
      rw [hv] at hm
      cases hm
      exact (hready vm₀ rfl).materialize hv (hw.applyAll hb)

/-- **Every clear step** keeps the engine sound. -/
theorem step (h : e.Sound) {event : EngineEvent} (hc : e.Clear event) (hs : e.Step event e') :
    e'.Sound := by
  cases hs with
  | registerDatabase d m v => exact h
  | registerAdmission s vs v => exact h
  | commit m hd => exact h.commit hc hd
  | queuedEpoch m hd => exact h.queuedEpoch hc hd
  | mixedEpoch hd => exact h.mixedEpoch hc hd
  | admissionEpoch hs => exact h.admissionEpoch hc hs

/-- **Every engine that clear steps reach** is sound. -/
theorem of_reached {steps : List (Engine × EngineEvent)} (h : Reached e steps)
    (hc : ∀ s ∈ steps, s.1.Clear s.2) : e.Sound := by
  induction h with
  | genesis he => exact root_genesis he
  | @step e e' steps event _ hs ih =>
    rw [List.forall_mem_append] at hc
    exact (ih hc.1).step (hc.2 (e, event) (by simp)) hs
  | @mapped e e' steps fs p journal n s _ hf hr hp hs he ih =>
    obtain ⟨gs, a, hw⟩ : ∃ gs a, e.world.Recorded gs a := by
      cases e with
      | database d m =>
        obtain ⟨gs, a, base, hw, -⟩ := ih hc
        exact ⟨gs, a, hw⟩
      | admission s vs =>
        obtain ⟨gs, a, hw, -⟩ := ih hc
        exact ⟨gs, a, hw⟩
    obtain rfl : fs = gs := Except.ok.inj (hf.symm.trans hw.frames)
    exact root_mapped hw hr hp hs he

end Engine.Sound

/-- **Clear steps publish complete worlds only.** -/
theorem published_worlds_complete {e : Engine} {steps : List (Engine × EngineEvent)}
    (h : Reached e steps) (hc : ∀ s ∈ steps, s.1.Clear s.2) : e.world.Complete :=
  (Engine.Sound.of_reached h hc).complete

/-! ## A mapped root, with the machine and with `derive_epoch_world` -/

/-- The engine after an epoch of one intent. -/
def afterEpoch (s : EngineState) (i : QueuedIntent) : EngineState :=
  match liveEpoch [] s [i] with
  | .ok (_, s') => s'
  | .error _ => s

/-- The head of a new admission engine after an epoch of one definition. -/
def textWorld : World := (afterEpoch (.genesis, .world) definesText).1

/-- An intent that allocates an entity. -/
def allocatesOne : QueuedIntent := (QueuedIntent.new 0).entity

/-- The image of a world, over an empty journal. -/
def imageOf (w : World) : Except String MmapVmSnapshot :=
  match w.vmQuery with
  | .ok p => MmapVmSnapshot.create [] 1 w p
  | .error message => .error message

/-- The head behind an epoch on the image of that world, with one of the materializers. -/
def mappedHead (kind : AdmissionMaterializer) : Option World :=
  match imageOf textWorld with
  | .error _ => none
  | .ok image =>
    match startEngine (some image) kind with
    | .error _ => none
    | .ok s => if (liveEpoch [] s [allocatesOne]).toBool then some (afterEpoch s allocatesOne).1 else none

theorem step_afterEpoch {s : EngineState} {i : QueuedIntent}
    (h : (liveEpoch [] s [i]).toBool = true) :
    Engine.Step (.admission s []) (.admissionEpoch [i]) (.admission (afterEpoch s i) []) := by
  cases hl : liveEpoch [] s [i] with
  | error halt => rw [hl] at h; cases h
  | ok r =>
    have ha : afterEpoch s i = r.2 := by
      unfold afterEpoch
      rw [hl]
    rw [ha]
    exact .admissionEpoch hl

/-- The two epochs, before and behind the image. -/
theorem reached_mappedHead {kind : AdmissionMaterializer} {w : World} (h : mappedHead kind = some w) :
    ∃ s em, Reached (.admission (w, em) [])
      [(.admission (.genesis, .world) [], .admissionEpoch [definesText]),
        (.admission s [], .admissionEpoch [allocatesOne])] ∧ (kind = .tokenVm → s.2 ≠ .world) := by
  unfold mappedHead at h
  split at h
  · cases h
  rename_i image himage
  split at h
  · cases h
  rename_i s hs
  split at h
  swap
  · cases h
  rename_i hlive
  obtain rfl := Option.some.inj h
  have hfirst : (liveEpoch [] (.genesis, .world) [definesText]).toBool = true := by decide +kernel
  have hrange : (textWorld.frames.map fun fs => decide (∀ f ∈ fs, f.InRange)) = .ok true := by
    decide +kernel
  have hroot : Engine.Root none (.admission (.genesis, .world) []) :=
    .admission (show startEngine none .world = .ok (.genesis, .world) from rfl)
  have hreached := (Reached.genesis hroot).step (step_afterEpoch hfirst)
  cases hf : textWorld.frames with
  | error e => rw [hf] at hrange; cases hrange
  | ok fs =>
    rw [hf] at hrange
    unfold imageOf at himage
    split at himage
    · rename_i p hp
      have hmapped := hreached.mapped hf (of_decide_eq_true (Except.ok.inj hrange)) hp himage
        (.admission hs)
      refine ⟨s, (afterEpoch s allocatesOne).2, hmapped.step (step_afterEpoch hlive), ?_⟩
      rintro rfl hworld
      unfold startEngine at hs
      simp only at hs
      split at hs
      · cases hs
        cases hworld
      · cases hs
    · cases himage

/-- The machine publishes a complete world on the mapped root. -/
theorem published_worlds_complete_mapped :
    ∃ w e steps, mappedHead .tokenVm = some w ∧ Reached e steps ∧ e.world = w ∧ w.Complete := by
  have hsome : (mappedHead .tokenVm).isSome = true := by decide +kernel
  obtain ⟨w, hw⟩ := Option.isSome_iff_exists.1 hsome
  obtain ⟨s, em, hreached, hvm⟩ := reached_mappedHead hw
  refine ⟨w, _, _, hw, hreached, rfl, published_worlds_complete hreached ?_⟩
  intro step hstep
  rcases List.mem_cons.1 hstep with rfl | hstep
  · exact .inl rfl
  · obtain rfl := List.mem_singleton.1 hstep
    exact .inr (.inl ⟨rfl, hvm rfl⟩)

/-- **`derive_epoch_world` forgets the frames of a mapped root**: the head behind an epoch on it
cannot be rebuilt. -/
theorem mapped_root_forgotten :
    ∃ w e steps, mappedHead .world = some w ∧ Reached e steps ∧ e.world = w ∧ ¬ w.Complete := by
  have hbroken : (mappedHead .world).map (fun w => w.frames.map fun fs =>
      (World.reconstruct fs).toBool) = some (.ok false) := by
    decide +kernel
  cases hw : mappedHead .world with
  | none => rw [hw] at hbroken; cases hbroken
  | some w =>
    obtain ⟨s, em, hreached, -⟩ := reached_mappedHead hw
    refine ⟨w, _, _, rfl, hreached, rfl, ?_⟩
    rintro ⟨fs, r, hf, hr, -⟩
    rw [hw, Option.map_some, hf] at hbroken
    simp only [Except.map, hr, Except.toBool] at hbroken
    cases hbroken

end ForthDB
