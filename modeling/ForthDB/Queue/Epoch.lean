import ForthDB.Queue.Intent
import ForthDB.World.History

/-!
# Epochs

An epoch decides a list of intents in order on an evolving private predecessor and
collapses what it accepted into one frame. `deriveEpochWorld` is the reference: its
predecessor is a kernel.

The abstract epoch `WorldState.decideAll` says what any planner must decide: it
knows a world's id, version and abstract state, and no kernel. `deriveEpochWorld_eq`
connects the two.
-/

namespace ForthDB

/-- `Validator`: refuses a candidate with a message. -/
abbrev Validator : Type := CandidateWorld → Except String Unit

/-- The validators in order, up to the first refusal. -/
def runValidators (candidate : CandidateWorld) : List Validator → Except String Unit
  | [] => .ok ()
  | validator :: rest =>
    match validator candidate with
    | .ok () => runValidators candidate rest
    | .error message => .error message

structure AcceptedIntent where
  position : ℕ
  world : World
  frame : CommitFrame
  entities : EntityMap

structure RejectedIntent where
  position : ℕ
  error : IntentRejection

inductive EpochOutcome
  | accepted (intent : AcceptedIntent)
  | rejected (intent : RejectedIntent)

structure EpochPlan where
  base : World
  tail : World
  outcomes : List EpochOutcome
  frames : List CommitFrame

/-- What an epoch decides about one intent. -/
abbrev Decision : Type := Except IntentRejection EntityMap

def Decision.isAccepted (d : Decision) : Bool := d.toBool

/-- The outcomes of decisions, at their positions, in the epoch's world and frame. -/
def outcomesOf (world : World) (frame : CommitFrame) (decisions : List Decision) :
    List EpochOutcome :=
  decisions.zipIdx.map fun
    | (.ok entities, position) => .accepted ⟨position, world, frame, entities⟩
    | (.error error, position) => .rejected ⟨position, error⟩

/-- The outcomes of decisions that are all rejections. -/
def rejectionsOf (decisions : List Decision) : List EpochOutcome :=
  decisions.zipIdx.filterMap fun
    | (.ok _, _) => none
    | (.error error, position) => some (.rejected ⟨position, error⟩)

/-- The plan of an epoch: an epoch that accepts nothing keeps its base. -/
def EpochPlan.assemble (base : World) (decisions : List Decision) (successor : World × CommitFrame) :
    EpochPlan :=
  if decisions.any Decision.isAccepted then
    { base := base, tail := successor.1,
      outcomes := outcomesOf successor.1 successor.2 decisions, frames := [successor.2] }
  else { base := base, tail := base, outcomes := rejectionsOf decisions, frames := [] }

/-- The evolving workspace of `derive_epoch_world`. -/
structure EpochWorkspace where
  predecessorId : WorldId
  predecessorVersion : ℕ
  nextEntity : ℕ
  operationCount : ℕ
  kernel : ForthDb
  operations : List Operation

/-- The workspace that `derive_epoch_world` starts from. -/
def EpochWorkspace.start (base : World) (kernel : ForthDb) : EpochWorkspace where
  predecessorId := base.id
  predecessorVersion := base.version
  nextEntity := base.nextEntity
  operationCount := base.operationCount
  kernel := kernel
  operations := []

/-- One intent of `derive_epoch_world`. -/
def EpochWorkspace.intent (s : EpochWorkspace) (validators : List Validator)
    (intent : QueuedIntent) : Decision × EpochWorkspace :=
  let result : Except IntentRejection (CandidateWorld × EntityMap) := do
    checkPreconditions s.predecessorId s.kernel.resolve intent.preconditions
    let (operations, entities) ←
      resolveOperationsFrom s.nextEntity intent.space intent.operations
    let candidate ← (CandidateWorld.constructFromState s.predecessorId s.predecessorVersion
      s.nextEntity s.operationCount s.kernel operations).mapError .candidate
    (runValidators candidate validators).mapError .validation
    pure (candidate, entities)
  match result with
  | .error error => (.error error, s)
  | .ok (candidate, entities) =>
    (.ok entities, {
      predecessorId := candidate.id
      predecessorVersion := candidate.version
      nextEntity := candidate.nextEntity
      operationCount := candidate.baseOperationCount + candidate.operations.length
      kernel := candidate.kernel
      operations := s.operations ++ candidate.operations })

/-- The loop of `derive_epoch_world`. -/
def EpochWorkspace.intents (s : EpochWorkspace) (validators : List Validator) :
    List QueuedIntent → List Decision × EpochWorkspace
  | [] => ([], s)
  | i :: rest =>
    let (decision, s) := s.intent validators i
    let (decisions, s) := intents s validators rest
    (decision :: decisions, s)

/-- `derive_epoch_world`: an `error` is the panic of `World::kernel`. -/
def deriveEpochWorld (base : World) (intents : List QueuedIntent) (validators : List Validator) :
    Except String EpochPlan :=
  base.kernel.map fun kernel =>
    let (decisions, s) := (EpochWorkspace.start base kernel).intents validators intents
    let version := base.version + 1
    let candidate : CandidateWorld := {
      baseWorld := base.id
      baseVersion := base.version
      id := calculateWorldId base.id version s.nextEntity s.operations
      version := version
      nextEntity := s.nextEntity
      baseOperationCount := base.operationCount
      operations := s.operations
      kernel := s.kernel }
    .assemble base decisions
      (candidate.intoWorld candidate.commitFrame base.history, candidate.commitFrame)

/-- What a client can tell about a plan: decisions, frames, and the tail's id and counts. -/
structure PlanSummary where
  decisions : List (ℕ × Decision)
  frames : List CommitFrame
  tailId : WorldId
  activeSlotCount : ℕ
  recordCount : ℕ

def EpochOutcome.decision : EpochOutcome → ℕ × Decision
  | .accepted a => (a.position, .ok a.entities)
  | .rejected r => (r.position, .error r.error)

def EpochPlan.summary (p : EpochPlan) : PlanSummary where
  decisions := p.outcomes.map EpochOutcome.decision
  frames := p.frames
  tailId := p.tail.id
  activeSlotCount := p.tail.activeSlotCount
  recordCount := p.tail.recordCount

/-- The decisions with their positions. -/
def positioned (decisions : List Decision) : List (ℕ × Decision) :=
  decisions.zipIdx.map fun (decision, position) => (position, decision)

theorem decision_outcomesOf (world : World) (frame : CommitFrame) (decisions : List Decision) :
    (outcomesOf world frame decisions).map EpochOutcome.decision = positioned decisions := by
  unfold outcomesOf positioned
  rw [List.map_map]
  refine List.map_congr_left ?_
  rintro ⟨d, i⟩ -
  cases d <;> rfl

theorem decision_rejectionsOf {decisions : List Decision}
    (h : decisions.any Decision.isAccepted = false) :
    (rejectionsOf decisions).map EpochOutcome.decision = positioned decisions := by
  have key : ∀ n, ((decisions.zipIdx n).filterMap fun
      | (.ok _, _) => none
      | (.error error, position) =>
        some (EpochOutcome.rejected ⟨position, error⟩)).map EpochOutcome.decision =
      (decisions.zipIdx n).map fun (decision, position) => (position, decision) := by
    induction decisions with
    | nil => intro n; rfl
    | cons d ds ih =>
      intro n
      simp only [List.any_cons, Bool.or_eq_false_iff] at h
      cases d with
      | ok entities => exact absurd h.1 (by simp [Decision.isAccepted, Except.toBool])
      | error e =>
        simp only [List.zipIdx_cons, List.filterMap_cons, List.map_cons]
        rw [ih h.2 (n + 1)]
        rfl
  exact key 0

theorem summary_assemble (base : World) (decisions : List Decision)
    (successor : World × CommitFrame) :
    (EpochPlan.assemble base decisions successor).summary =
      if decisions.any Decision.isAccepted then
        ⟨positioned decisions, [successor.2], successor.1.id, successor.1.activeSlotCount,
          successor.1.recordCount⟩
      else ⟨positioned decisions, [], base.id, base.activeSlotCount, base.recordCount⟩ := by
  unfold EpochPlan.assemble
  split
  · simp [EpochPlan.summary, decision_outcomesOf]
  · rename_i h
    simp [EpochPlan.summary, decision_rejectionsOf (by simpa using h)]

/-- What an intent means on an abstract predecessor. -/
def WorldState.decide (a : WorldState) (id : WorldId) (i : QueuedIntent) :
    Except IntentRejection (List Operation × EntityMap) :=
  match checkPreconditions id a.slots.top i.preconditions with
  | .error e => .error e
  | .ok () => resolveOperationsFrom a.next i.space i.operations

/-- The evolving predecessor of an abstract epoch, and what it accepted so far. -/
structure EpochState where
  id : WorldId
  version : ℕ
  state : WorldState
  operations : List Operation

/-- One intent of an abstract epoch. -/
def EpochState.intent (s : EpochState) (i : QueuedIntent) : Decision × EpochState :=
  match s.state.decide s.id i with
  | .error e => (.error e, s)
  | .ok (operations, entities) =>
    let state := (s.state.applyAll operations).getD s.state
    (.ok entities, {
      id := calculateWorldId s.id (s.version + 1) state.next operations
      version := s.version + 1
      state := state
      operations := s.operations ++ operations })

def EpochState.intents (s : EpochState) : List QueuedIntent → List Decision × EpochState
  | [] => ([], s)
  | i :: rest =>
    let (decision, s) := s.intent i
    let (decisions, s) := intents s rest
    (decision :: decisions, s)

/-- The summary of the plan that an abstract epoch amounts to on a base. -/
def EpochState.summary (base : World) (decisions : List Decision) (s : EpochState) : PlanSummary :=
  if decisions.any Decision.isAccepted then
    let version := base.version + 1
    let id := calculateWorldId base.id version s.state.next s.operations
    { decisions := positioned decisions
      frames := [{
        parentWorld := base.id, resultingWorld := id, parentVersion := base.version,
        resultingVersion := version, resultingAllocator := s.state.next,
        operations := s.operations }]
      tailId := id
      activeSlotCount := s.state.slots.size
      recordCount := s.state.records }
  else ⟨positioned decisions, [], base.id, base.activeSlotCount, base.recordCount⟩

/-- Resolved operations allocate exactly the next entities, so no allocation can fail. -/
theorem applyAll_of_resolved {space n : ℕ} {entities entities' : EntityMap}
    {ops : List IntentOperation} {os : List Operation}
    (h : resolveOperations space n entities ops = .ok (os, entities')) {a : WorldState}
    (ha : a.next = n) : ∃ b, a.applyAll os = some b := by
  induction ops generalizing n entities os a with
  | nil => cases h; exact ⟨a, rfl⟩
  | cons op ops ih =>
    cases op with
    | allocateEntity temporary =>
      simp only [resolveOperations] at h
      split at h
      · cases h
      cases hr : resolveOperations space (n + 1) (entities.insert temporary ⟨n⟩) ops with
      | error e => rw [hr] at h; cases h
      | ok p =>
        rw [hr] at h
        cases h
        obtain ⟨b, hb⟩ := ih hr (a := { a with next := a.next + 1 }) (by simp [ha])
        refine ⟨b, ?_⟩
        simp only [WorldState.applyAll, WorldState.apply, ha, if_true, Option.bind_some]
        rw [ha] at hb
        exact hb
    | define slot fact =>
      simp only [resolveOperations] at h
      cases hf : fact.resolve space entities with
      | error e => rw [hf] at h; cases h
      | ok f =>
        rw [hf] at h
        cases hr : resolveOperations space n entities ops with
        | error e => simp only [bind, Except.bind, hr] at h; cases h
        | ok p =>
          simp only [bind, Except.bind, hr] at h
          cases h
          obtain ⟨b, hb⟩ := ih hr (a := { a with
            slots := a.slots.push slot f, records := a.records + 1 }) ha
          exact ⟨b, hb⟩
    | forget slot =>
      simp only [resolveOperations] at h
      cases hr : resolveOperations space n entities ops with
      | error e => simp only [bind, Except.bind, hr] at h; cases h
      | ok p =>
        simp only [bind, Except.bind, hr] at h
        cases h
        obtain ⟨b, hb⟩ := ih hr (a := { a with
          slots := a.slots.pop slot, records := a.records + 1 }) ha
        exact ⟨b, hb⟩

/-- **An accepted intent's operations apply.** -/
theorem WorldState.applyAll_of_decide {a : WorldState} {id : WorldId} {i : QueuedIntent}
    {ops : List Operation} {entities : EntityMap} (h : a.decide id i = .ok (ops, entities)) :
    ∃ b, a.applyAll ops = some b := by
  unfold decide at h
  split at h
  · cases h
  · exact applyAll_of_resolved h rfl

/-- What an abstract epoch accepts applies to its base. -/
theorem EpochState.intents_operations (s : EpochState) (is : List QueuedIntent) :
    ∃ ops, (s.intents is).2.operations = s.operations ++ ops ∧
      s.state.applyAll ops = some (s.intents is).2.state := by
  induction is generalizing s with
  | nil => exact ⟨[], by simp [intents], rfl⟩
  | cons i is ih =>
    obtain ⟨ys, hys, hby⟩ := ih (s.intent i).2
    have hstep : ∃ xs, (s.intent i).2.operations = s.operations ++ xs ∧
        s.state.applyAll xs = some (s.intent i).2.state := by
      unfold EpochState.intent
      cases hd : s.state.decide s.id i with
      | error e => exact ⟨[], by simp, rfl⟩
      | ok p =>
        obtain ⟨ops, entities⟩ := p
        obtain ⟨b, hb⟩ := WorldState.applyAll_of_decide hd
        exact ⟨ops, by simp, by simp [hb]⟩
    obtain ⟨xs, hxs, hbx⟩ := hstep
    refine ⟨xs ++ ys, ?_, ?_⟩
    · simp only [intents, hys, hxs, List.append_assoc]
    · rw [WorldState.applyAll_append, hbx]
      exact hby

/-- The workspace of `derive_epoch_world` stands for an abstract epoch. -/
structure EpochWorkspace.Holds (w : EpochWorkspace) (s : EpochState) : Prop where
  id : w.predecessorId = s.id
  version : w.predecessorVersion = s.version
  state : StateHolds (w.kernel, w.nextEntity) s.state
  operations : w.operations = s.operations

/-- **One intent** of the reference, without validators. -/
theorem EpochWorkspace.intent_holds {w : EpochWorkspace} {s : EpochState} (h : w.Holds s)
    (i : QueuedIntent) :
    (w.intent [] i).1 = (s.intent i).1 ∧ (w.intent [] i).2.Holds (s.intent i).2 := by
  have htop : w.kernel.resolve = s.state.slots.top :=
    funext fun slot => ForthDb.resolve_eq h.state.kernel slot
  have hnext : w.nextEntity = s.state.next := h.state.next
  unfold EpochWorkspace.intent EpochState.intent WorldState.decide
  simp only [bind, Except.bind, runValidators, h.id, htop, hnext]
  cases hc : checkPreconditions s.id s.state.slots.top i.preconditions with
  | error e => exact ⟨rfl, h⟩
  | ok u =>
    simp only
    cases hr : resolveOperationsFrom s.state.next i.space i.operations with
    | error e => exact ⟨rfl, h⟩
    | ok p =>
      obtain ⟨ops, entities⟩ := p
      obtain ⟨b, hb⟩ := applyAll_of_resolved hr rfl
      have hk : StateHolds (w.kernel, s.state.next) s.state := by rw [← hnext]; exact h.state
      obtain ⟨k', hk', hcon⟩ := CandidateWorld.construct_ok hk s.id w.predecessorVersion
        w.operationCount hb
      simp only [hcon, hb, Except.mapError, Option.getD_some, pure, Except.pure]
      refine ⟨trivial, ?_, ?_, hk', ?_⟩
      · simp [h.version]
      · simp [h.version]
      · simp [h.operations]

theorem EpochWorkspace.intents_holds {w : EpochWorkspace} {s : EpochState} (h : w.Holds s)
    (is : List QueuedIntent) :
    (w.intents [] is).1 = (s.intents is).1 ∧ (w.intents [] is).2.Holds (s.intents is).2 := by
  induction is generalizing w s with
  | nil => exact ⟨rfl, h⟩
  | cons i is ih =>
    obtain ⟨h1, h2⟩ := EpochWorkspace.intent_holds h i
    obtain ⟨h3, h4⟩ := ih h2
    exact ⟨by simp only [EpochWorkspace.intents, EpochState.intents, h1, h3], h4⟩

/-- The abstract epoch of a base world. -/
def EpochState.start (base : World) (a : WorldState) : EpochState := ⟨base.id, base.version, a, []⟩

/-- **The reference plans the abstract epoch.** -/
theorem deriveEpochWorld_eq {w : World} {fs : List CommitFrame} {a : WorldState}
    (h : w.Replays fs a) (is : List QueuedIntent) :
    ∃ plan, deriveEpochWorld w is [] = .ok plan ∧
      plan.summary = EpochState.summary w ((EpochState.start w a).intents is).1
        ((EpochState.start w a).intents is).2 := by
  obtain ⟨k, hk, hs⟩ := h.kernel
  have h0 : (EpochWorkspace.start w k).Holds (EpochState.start w a) := ⟨rfl, rfl, hs, rfl⟩
  obtain ⟨h1, h2⟩ := EpochWorkspace.intents_holds h0 is
  unfold deriveEpochWorld
  rw [hk]
  refine ⟨_, rfl, ?_⟩
  simp only
  rw [summary_assemble, h1]
  unfold EpochState.summary
  have hn := h2.state.next
  have ho := h2.operations
  have ha := ForthDb.activeSlotCount_eq h2.state.kernel
  have hr := h2.state.records
  simp only at hn ho ha hr
  split
  · simp only [CandidateWorld.intoWorld, CandidateWorld.commitFrame, hn, ho, ha, hr]
  · rfl

end ForthDB
