import ForthDB.Queue.Materialization
import ForthDB.Vm.Acceptance

/-!
# Runs of one materializer from genesis

* `VmReached w m`: epochs of `derive_vm_epoch`, from genesis on, have led to the world `w`
  and the materializer `m`.
* `vmReached_kept`: the materializer stands for the world's state, and its arenas hold
  exactly the records of the world's history.
* `vmEpoch_simulates_iff`: **an epoch is planned as by the reference** exactly when the
  whole history still fits the arenas; and no compiled program is ever rejected.
* `fullArena_not_simulated`: one intent that forgets a slot `2 ^ 32` times does not fit.
-/

namespace ForthDB

/-- The world and the materializer behind some epochs of `derive_vm_epoch`. -/
inductive VmReached : World → VmEpochMaterializer → Prop
  | genesis : VmReached .genesis (.new World.genesis.nextEntity)
  | epoch {w : World} {m m' : VmEpochMaterializer} {is : List QueuedIntent} {plan : EpochPlan} :
      VmReached w m → m.deriveVmEpoch w is = .ok (plan, m') → VmReached plan.tail m'

/-- A record for every definition and every forget, and their index deltas, fit the arenas. -/
def ArenasHold (ops : List Operation) : Prop :=
  recordsOf ops ≤ noReference ∧ indexCost .empty ops ≤ noReference

/-- What an observer can compare of two plans: the decisions with their reasons and entities,
the frames, and the tail's id, allocator and counts. -/
structure EpochPlan.Agrees (p q : EpochPlan) : Prop where
  summary : p.summary = q.summary
  nextEntity : p.tail.nextEntity = q.tail.nextEntity

/-- The machine plans an epoch as the reference does. -/
def Simulates (w : World) (m : VmEpochMaterializer) (is : List QueuedIntent) : Prop :=
  ∃ plan m' ref, m.deriveVmEpoch w is = .ok (plan, m') ∧ deriveEpochWorld w is [] = .ok ref ∧
    plan.Agrees ref

namespace VmEpochMaterializer

/-- No list of operations that compiles is rejected by the machine. -/
def RejectsNothing (m : VmEpochMaterializer) : Prop :=
  ∀ ops is m₁, m.compileOperations ops = (.ok is, m₁) →
    ∀ e w, m₁.workspace.executeInstructions 0 is ≠ .ok (.rejected e, w)

/-- What the loop of `derive_vm_epoch` starts from. -/
def startVm (m : VmEpochMaterializer) (w : World) : EpochRun where
  materializer := m
  predecessorId := w.id
  predecessorVersion := w.version
  operations := []

variable {base : FrozenNames} {names : List SlotId} {m m' : VmEpochMaterializer} {a b : WorldState}

theorem Holds.startVm (h : m.Holds base names a) (ht : Tight base names m) (w : World) :
    (m.startVm w).Holds base names (EpochState.start w a) := ⟨h, ht, rfl, rfl, rfl⟩

/-- The run behind a plan. -/
theorem deriveVmEpoch_run {w : World} {is : List QueuedIntent} {plan : EpochPlan}
    (h : m.deriveVmEpoch w is = .ok (plan, m')) :
    ∃ ds r, (m.startVm w).intents is = .ok (ds, r) ∧ r.materializer = m' := by
  unfold deriveVmEpoch at h
  simp only at h
  split at h
  · cases h
  · split at h
    · cases h
    · rename_i ds r hr
      exact ⟨ds, r, hr, (Prod.mk.inj (Except.ok.inj h)).2⟩

theorem Holds.slotsLive (h : m.Holds base names a) : m.SlotsLive := by
  have key : ∀ slot t, (m.slots.lookup slot).or (base.slots.find slot) = some t →
      t < m.workspace.acceptedHeads.length := by
    intro slot t ht
    refine h.tables.token_lt (k := slot) ?_
    unfold token Vocabulary.token
    rw [← ht]
    cases hl : m.slots.lookup slot <;> simp [hl]
  refine ⟨fun slot t ht => key slot t (by rw [ht]; rfl), fun slot t ht => ?_⟩
  rw [h.tables.slotFind] at ht
  cases hl : m.slots.lookup slot with
  | none => exact key slot t (by rw [hl, ht]; rfl)
  | some t' =>
    -- a frozen name is never interned again
    exfalso
    obtain ⟨i, -, hi⟩ := (h.tables.slots.assigned_iff slot t').1 hl
    rw [h.tables.slots.fresh slot (List.mem_of_getElem? hi)] at ht
    cases ht

theorem Holds.rejectsNothing (h : m.Holds base names a) : m.RejectsNothing := fun _ _ _ hc e w =>
  compiled_never_rejected h.slotsLive h.rest.stack h.rest.stack_le hc e w

/-- **A list of intents** leaves in the arenas what its accepted operations cost. -/
theorem EpochRun.intents_grown {r r' : EpochRun} {s : EpochState} (h : r.Holds base names s)
    {is : List QueuedIntent} {ds : List Decision} (hr : r.intents is = .ok (ds, r')) :
    ∃ ops, (s.intents is).2.operations = s.operations ++ ops ∧
      s.state.applyAll ops = some (s.intents is).2.state ∧
      r'.materializer.workspace.records.length =
        r.materializer.workspace.records.length + recordsOf ops ∧
      r'.materializer.workspace.indexDeltas.length =
        r.materializer.workspace.indexDeltas.length + indexCost s.state.slots ops := by
  induction is generalizing r s names ds with
  | nil =>
    cases hr
    exact ⟨[], by simp [EpochState.intents], rfl, rfl, rfl⟩
  | cons i is ih =>
    obtain ⟨xs, hxs, hbx, hi⟩ := EpochRun.intent_spec h i
    simp only [EpochRun.intents] at hr
    rcases hi with ⟨-, r₁, names₁, hr₁, h₁, hrec, hidx⟩ | ⟨-, halt, hr₁⟩
    swap
    · rw [hr₁] at hr
      cases hr
    rw [hr₁] at hr
    simp only at hr
    cases hrest : r₁.intents is with
    | error halt => rw [hrest] at hr; cases hr
    | ok p =>
      obtain ⟨ds', r₂⟩ := p
      rw [hrest] at hr
      cases hr
      obtain ⟨ys, hys, hby, hrec', hidx'⟩ := ih h₁ hrest
      refine ⟨xs ++ ys, ?_, ?_, ?_, ?_⟩
      · simp only [EpochState.intents, hys, hxs, List.append_assoc]
      · rw [WorldState.applyAll_append, hbx]
        exact hby
      · rw [hrec', hrec]
        simp [recordsOf, Nat.add_assoc]
      · rw [hidx', hidx, indexCost_append, ← WorldState.applyAll_slots hbx, Nat.add_assoc]

end VmEpochMaterializer

open VmEpochMaterializer

/-- The plan of the machine amounts to the abstract epoch. -/
theorem EpochState.summary_vmPlan (w : World) (ds : List Decision) (s : EpochState) :
    (EpochPlan.assemble w ds (World.fromVmEpoch w s.operations s.state.next s.state.slots.size
      s.state.records)).summary = EpochState.summary w ds s := by
  rw [summary_assemble]
  rfl

/-- What a run keeps: the world holds its history, the materializer stands for its state, and
the arenas are as full as the history. -/
structure VmKept (w : World) (m : VmEpochMaterializer) (fs : List CommitFrame) (a : WorldState)
    (names : List SlotId) : Prop where
  world : w.Holds fs a
  holds : m.Holds .none names a
  tight : Tight .none names m
  records : m.workspace.records.length = recordsOf (operationsOf fs)
  indexDeltas : m.workspace.indexDeltas.length = indexCost .empty (operationsOf fs)

namespace VmKept

variable {w : World} {m m' : VmEpochMaterializer} {fs : List CommitFrame} {a : WorldState}
  {names : List SlotId} {is : List QueuedIntent} {plan : EpochPlan}

/-- The arenas have room exactly when they hold the history with the new operations. -/
theorem feasible_iff (h : VmKept w m fs a names) (ops : List Operation) :
    m.Feasible a ops ↔ (∀ op ∈ ops, op.InVmRange) ∧ ArenasHold (operationsOf fs ++ ops) := by
  have hslots : a.slots = (operationsOf fs).foldl SlotStacks.perform .empty :=
    WorldState.applyAll_slots h.world.chained.applyAll
  unfold Feasible Workspace.Fits ArenasHold
  rw [h.records, h.indexDeltas, indexCost_append, ← hslots]
  simp only [recordsOf, List.map_append, List.sum_append]

/-- **One epoch** that is planned. -/
theorem epoch (h : VmKept w m fs a names) (hd : m.deriveVmEpoch w is = .ok (plan, m')) :
    ∃ b names', VmKept plan.tail m' (fs ++ plan.frames) b names' ∧
      ∃ ds ops, plan = .assemble w ds (World.fromVmEpoch w ops b.next b.slots.size b.records) ∧
        a.applyAll ops = some b ∧
        ds = ((EpochState.start w a).intents is).1 ∧
        ops = ((EpochState.start w a).intents is).2.operations := by
  rcases deriveVmEpoch_spec h.holds h.tight h.world.next.symm is with
    ⟨-, m₁, names', hd', hh, ht⟩ | ⟨-, halt, hd'⟩
  swap
  · rw [hd] at hd'
    cases hd'
  rw [hd] at hd'
  obtain ⟨rfl, rfl⟩ := Prod.mk.inj (Except.ok.inj hd')
  -- the arenas grow by what the operations cost
  obtain ⟨ds, r, hr, hm⟩ := deriveVmEpoch_run hd
  obtain ⟨ops, hops, hb, hrec, hidx⟩ := EpochRun.intents_grown (h.holds.startVm h.tight w) hr
  rw [hm] at hrec hidx
  have hops' : ((EpochState.start w a).intents is).2.operations = ops := by
    rw [hops]
    rfl
  have hrec' : m'.workspace.records.length = m.workspace.records.length + recordsOf ops := hrec
  have hidx' : m'.workspace.indexDeltas.length =
    m.workspace.indexDeltas.length + indexCost a.slots ops := hidx
  have hb' : a.applyAll ops = some ((EpochState.start w a).intents is).2.state := hb
  have hslots : a.slots = (operationsOf fs).foldl SlotStacks.perform .empty :=
    WorldState.applyAll_slots h.world.chained.applyAll
  refine ⟨_, names', ?_, _, _, rfl, by rw [hops']; exact hb', rfl, rfl⟩
  rcases EpochPlan.assemble_cases w ((EpochState.start w a).intents is).1 _ with
    ⟨-, htail, hframes⟩ | ⟨hno, htail, hframes⟩
  · rw [htail, hframes, hops']
    have hfs : operationsOf (fs ++ [(World.fromVmEpoch w ops
        ((EpochState.start w a).intents is).2.state.next
        ((EpochState.start w a).intents is).2.state.slots.size
        ((EpochState.start w a).intents is).2.state.records).2]) = operationsOf fs ++ ops := by
      simp [World.fromVmEpoch]
    refine ⟨World.fromVmEpoch_holds h.world hb', hh, ht, ?_, ?_⟩
    · rw [hrec', h.records, hfs]
      simp [recordsOf]
    · rw [hidx', h.indexDeltas, hfs, indexCost_append, ← hslots]
  · have hsame := (EpochState.intents_of_rejected (EpochState.intents_rejected.1 hno)).2
    have hnil : ops = [] := by
      rw [← hops', hsame]
      rfl
    rw [htail, hframes, List.append_nil]
    rw [hsame] at hh ⊢
    rw [hnil] at hrec' hidx'
    exact ⟨h.world, hh, ht, hrec'.trans h.records, hidx'.trans h.indexDeltas⟩

end VmKept

/-- **A run keeps** the machine and the world together. -/
theorem vmReached_kept {w : World} {m : VmEpochMaterializer} (h : VmReached w m) :
    ∃ fs a names, VmKept w m fs a names := by
  induction h with
  | genesis => exact ⟨[], .genesis, [], World.genesis_holds, new_holds 1, new_tight 1, rfl, rfl⟩
  | epoch _ hd ih =>
    obtain ⟨fs, a, names, hk⟩ := ih
    obtain ⟨b, names', hk', -⟩ := hk.epoch hd
    exact ⟨_, b, names', hk'⟩

/-- **An epoch is planned as by the reference** exactly when the history with the epoch's
operations fits the arenas, given that the operations name entities below the literal cells.
No program compiled on the way is rejected. -/
theorem vmEpoch_simulates_iff {w : World} {m : VmEpochMaterializer} (h : VmReached w m)
    (is : List QueuedIntent) :
    ∃ fs ref, w.frames = .ok fs ∧ deriveEpochWorld w is [] = .ok ref ∧
      ((∀ op ∈ operationsOf ref.frames, op.InVmRange) →
        (Simulates w m is ↔ ArenasHold (operationsOf (fs ++ ref.frames)))) ∧
      ∀ xs ds r, (m.startVm w).intents xs = .ok (ds, r) → r.materializer.RejectsNothing := by
  obtain ⟨fs, a, names, hk⟩ := vmReached_kept h
  obtain ⟨ref, href, hsum⟩ := deriveEpochWorld_eq hk.world.toReplays is
  refine ⟨fs, ref, hk.world.frames, href, fun hrange => ?_, fun xs ds r hr => ?_⟩
  · -- the operations of the reference plan are those of the abstract epoch
    have hops : operationsOf ref.frames = ((EpochState.start w a).intents is).2.operations := by
      have hframes : ref.frames = (EpochState.summary w ((EpochState.start w a).intents is).1
        ((EpochState.start w a).intents is).2).frames := congrArg PlanSummary.frames hsum
      rw [hframes]
      unfold EpochState.summary
      split
      · simp
      · rename_i hno
        have hno : ((EpochState.start w a).intents is).1.any Decision.isAccepted = false := by
          simpa using hno
        rw [(EpochState.intents_of_rejected (EpochState.intents_rejected.1 hno)).2]
        rfl
    rw [operationsOf, List.flatMap_append]
    show _ ↔ ArenasHold (operationsOf fs ++ operationsOf ref.frames)
    have hfeas := hk.feasible_iff (operationsOf ref.frames)
    constructor
    · rintro ⟨plan, m', ref', hd, -, -⟩
      rcases deriveVmEpoch_spec hk.holds hk.tight hk.world.next.symm is with
        ⟨hf, -⟩ | ⟨-, halt, hd'⟩
      · rw [← hops] at hf
        exact (hfeas.1 hf).2
      · rw [hd] at hd'
        cases hd'
    · intro hroom
      have hf := hfeas.2 ⟨hrange, hroom⟩
      rw [hops] at hf
      rcases deriveVmEpoch_spec hk.holds hk.tight hk.world.next.symm is with
        ⟨-, m', names', hd, -⟩ | ⟨hno, -⟩
      swap
      · exact absurd hf hno
      have hplan := (EpochState.summary_vmPlan w _ _).trans hsum.symm
      obtain ⟨b', names'', hk', -⟩ := hk.epoch hd
      generalize EpochPlan.assemble w ((EpochState.start w a).intents is).1 _ = plan at hd hplan hk'
      refine ⟨plan, m', ref, hd, href, hplan, ?_⟩
      -- the allocator of a tail is the one its frames lead to
      obtain ⟨b, hb, hn⟩ := (deriveEpochWorld_next href hk.world.next).2
      have hframes : plan.frames = ref.frames := congrArg PlanSummary.frames hplan
      have hb' := hk'.world.chained.applyAll
      rw [operationsOf, List.flatMap_append, WorldState.applyAll_append,
        hk.world.chained.applyAll, Option.bind_some, hframes] at hb'
      have hbb : a.applyAll (operationsOf ref.frames) = some b' := hb'
      rw [hb] at hbb
      rw [hn, hk'.world.next, Option.some.inj hbb]
  · obtain ⟨ops, -, -, hspec⟩ := EpochRun.intents_spec (hk.holds.startVm hk.tight w) xs
    rcases hspec with ⟨-, r', names', hr', hh⟩ | ⟨-, halt, hr'⟩
    · rw [hr] at hr'
      cases hr'
      exact hh.materializer.rejectsNothing
    · rw [hr] at hr'
      cases hr'

/-- The first epoch, of one definition, is planned as by the reference. -/
theorem vmEpoch_simulates_genesis :
    Simulates .genesis (.new World.genesis.nextEntity) [definesText] := by
  have hdec : (deriveEpochWorld .genesis [definesText] []).map EpochPlan.frames =
      .ok [definingFrame] := by decide +kernel
  obtain ⟨fs, ref, hfs, href, h, -⟩ := vmEpoch_simulates_iff .genesis [definesText]
  obtain rfl : [] = fs := Except.ok.inj hfs
  rw [href] at hdec
  rw [show ref.frames = [definingFrame] from Except.ok.inj hdec] at h
  exact (h (by decide)).2 ⟨by decide, by decide⟩

/-! ## A full arena -/

/-- An intent that forgets one slot over and over. -/
def forgetTimes : ℕ → QueuedIntent
  | 0 => .new 0
  | n + 1 => (forgetTimes n).forget ⟨"s"⟩

theorem forgetTimes_eq (n : ℕ) :
    forgetTimes n = ⟨0, 0, [], List.replicate n (.forget ⟨"s"⟩)⟩ ∧ (forgetTimes n).Built := by
  induction n with
  | zero => exact ⟨rfl, .new 0⟩
  | succ n ih =>
    refine ⟨?_, .forget _ ih.2⟩
    rw [forgetTimes, ih.1, List.replicate_succ']
    rfl

theorem resolveOperations_forgets (space n k : ℕ) (entities : EntityMap) (slot : SlotId) :
    resolveOperations space k entities (List.replicate n (.forget slot)) =
      .ok (List.replicate n (.forget slot), entities) := by
  induction n with
  | zero => rfl
  | succ n ih => simp only [List.replicate_succ, resolveOperations, ih, bind, Except.bind, pure,
      Except.pure]

theorem recordsOf_forgets (n : ℕ) (slot : SlotId) :
    recordsOf (List.replicate n (.forget slot)) = n := by
  simp [recordsOf, Operation.records]

/-- What the reference commits for it. -/
theorem forgetTimes_frames (n : ℕ) {ref : EpochPlan}
    (h : deriveEpochWorld .genesis [forgetTimes n] [] = .ok ref) :
    operationsOf ref.frames = List.replicate n (.forget ⟨"s"⟩) := by
  obtain ⟨ref', href, hsum⟩ := deriveEpochWorld_eq World.genesis_holds.toReplays [forgetTimes n]
  rw [h] at href
  obtain rfl := Except.ok.inj href
  have hdecide : (EpochState.start .genesis .genesis).state.decide
      (EpochState.start .genesis .genesis).id (forgetTimes n) =
        .ok (List.replicate n (.forget ⟨"s"⟩), ∅) := by
    rw [(forgetTimes_eq n).1]
    exact resolveOperations_forgets _ _ _ _ _
  have hframes := congrArg PlanSummary.frames hsum
  simp only [EpochState.intents, EpochState.intent, hdecide, EpochState.summary, List.any_cons,
    Decision.isAccepted, Except.toBool, Bool.true_or, if_true] at hframes
  have hframes' : ref.frames = _ := hframes
  rw [hframes']
  simp [EpochState.start]

theorem forgetTimes_not_simulated {n : ℕ} (hn : noReference < n) :
    (∃ ref, deriveEpochWorld .genesis [forgetTimes n] [] = .ok ref ∧
      ∀ op ∈ operationsOf ref.frames, op.InVmRange) ∧
      ¬ Simulates .genesis (.new World.genesis.nextEntity) [forgetTimes n] := by
  obtain ⟨fs, ref, hfs, href, h, -⟩ := vmEpoch_simulates_iff .genesis [forgetTimes n]
  obtain rfl : [] = fs := Except.ok.inj hfs
  have hops := forgetTimes_frames n href
  have hrange : ∀ op ∈ operationsOf ref.frames, op.InVmRange := by
    rw [hops]
    intro op hop
    rw [List.eq_of_mem_replicate hop]
    trivial
  refine ⟨⟨ref, href, hrange⟩, fun hsim => ?_⟩
  have hroom := ((h hrange).1 hsim).1
  rw [List.nil_append, hops, recordsOf_forgets] at hroom
  omega

/-- **A full arena**: the reference plans an intent of `2 ^ 32` forgets, the machine does not. -/
theorem fullArena_not_simulated :
    VmReached .genesis (.new World.genesis.nextEntity) ∧ (forgetTimes (2 ^ 32)).Built ∧
      (∃ ref, deriveEpochWorld .genesis [forgetTimes (2 ^ 32)] [] = .ok ref ∧
        ∀ op ∈ operationsOf ref.frames, op.InVmRange) ∧
      ¬ Simulates .genesis (.new World.genesis.nextEntity) [forgetTimes (2 ^ 32)] :=
  have h := forgetTimes_not_simulated (n := 2 ^ 32) (by norm_num [noReference])
  ⟨.genesis, (forgetTimes_eq _).2, h.1, h.2⟩

end ForthDB
