import ForthDB.Vm.TrialVocabulary

/-!
# Mixed epochs and the database that commits them

`VmEpochMaterializer::materialize_mixed` decides queued and semantic intents in order on
one workspace. `Database` publishes strict commits and mixed epochs; before a mixed epoch
the materializer is synchronized to the head.

An `error` of `Except String` is a panic.
-/

namespace ForthDB

/-- How `{:?}` prints a `CandidateError`. -/
def CandidateError.debug : CandidateError → String
  | .historyParentMismatch expected actual =>
    s!"HistoryParentMismatch \x7b expected: WorldId({expected.value}), actual: WorldId({actual.value}) \x7d"
  | .historyVersionMismatch expected actual =>
    s!"HistoryVersionMismatch \x7b expected: {expected}, actual: {actual} \x7d"
  | .allocatorOperationMismatch expected actual =>
    s!"AllocatorOperationMismatch \x7b expected: {expected}, actual: {actual} \x7d"
  | .allocatorStateMismatch expected actual =>
    s!"AllocatorStateMismatch \x7b expected: {expected}, actual: {actual} \x7d"
  | .worldIdentityMismatch expected actual =>
    s!"WorldIdentityMismatch \x7b expected: WorldId({expected.value}), actual: WorldId({actual.value}) \x7d"
  | .baseWorldMismatch expected actual =>
    s!"BaseWorldMismatch \x7b expected: WorldId({expected.value}), actual: WorldId({actual.value}) \x7d"
  | .kernelInvariant message => s!"KernelInvariant({message.quote})"

/-- What a mixed epoch decides about one intent. -/
inductive MixedDecision
  | queued (decision : Decision)
  | semantic (decision : Except SemanticTicketRejection SemanticBindings)

def MixedDecision.isAccepted : MixedDecision → Bool
  | .queued decision => decision.isAccepted
  | .semantic decision => decision.toBool

structure AcceptedSemanticIntent where
  position : ℕ
  world : World
  frame : CommitFrame
  bindings : SemanticBindings

structure RejectedSemanticIntent where
  position : ℕ
  error : SemanticTicketRejection

inductive MixedEpochOutcome
  | queuedAccepted (intent : AcceptedIntent)
  | queuedRejected (intent : RejectedIntent)
  | semanticAccepted (intent : AcceptedSemanticIntent)
  | semanticRejected (intent : RejectedSemanticIntent)

structure MixedEpochPlan where
  base : World
  tail : World
  outcomes : List MixedEpochOutcome
  frames : List CommitFrame

/-- The outcomes of decisions, at their positions, in the epoch's world and frame. -/
def mixedOutcomesOf (world : World) (frame : CommitFrame) (decisions : List MixedDecision) :
    List MixedEpochOutcome :=
  decisions.zipIdx.map fun
    | (.queued (.ok entities), position) => .queuedAccepted ⟨position, world, frame, entities⟩
    | (.queued (.error error), position) => .queuedRejected ⟨position, error⟩
    | (.semantic (.ok bindings), position) => .semanticAccepted ⟨position, world, frame, bindings⟩
    | (.semantic (.error error), position) => .semanticRejected ⟨position, error⟩

/-- The outcomes of decisions that are all rejections. -/
def mixedRejectionsOf (decisions : List MixedDecision) : List MixedEpochOutcome :=
  decisions.zipIdx.filterMap fun
    | (.queued (.error error), position) => some (.queuedRejected ⟨position, error⟩)
    | (.semantic (.error error), position) => some (.semanticRejected ⟨position, error⟩)
    | _ => none

/-- What the loop of `materialize_mixed` works on. -/
structure MixedRun where
  materializer : VmEpochMaterializer
  predecessorId : WorldId
  predecessorVersion : ℕ
  operations : List Operation

namespace MixedRun

variable (s : MixedRun)

/-- The run behind an accepted intent. -/
def accept (materializer : VmEpochMaterializer) (operations : List Operation) : MixedRun :=
  let version := s.predecessorVersion + 1
  { materializer := materializer
    predecessorId :=
      calculateWorldId s.predecessorId version materializer.workspace.nextEntity operations
    predecessorVersion := version
    operations := s.operations ++ operations }

/-- The candidate that validators are shown. The kernel is the base's. -/
def candidate (base : World) (kernel : ForthDb) (operations : List Operation) :
    Except CandidateError CandidateWorld :=
  CandidateWorld.constructFromState s.predecessorId s.predecessorVersion s.materializer.workspace.nextEntity
    base.operationCount kernel operations

/-- The preconditions and the operations of a queued intent. -/
def resolveQueued (intent : QueuedIntent) :
    Except String (Except IntentRejection (List Operation × EntityMap)) :=
  match s.materializer.checkPreconditions s.predecessorId intent.preconditions with
  | .error message => .error message
  | .ok (.error error) => .ok (.error error)
  | .ok (.ok ()) => .ok (resolveOperationsFrom s.materializer.workspace.nextEntity intent.space
      intent.operations)

/-- Compile and execute the operations of a queued intent. -/
def executeQueued (operations : List Operation) (entities : EntityMap) :
    Except String (MixedDecision × MixedRun) :=
  match s.materializer.compileOperations operations with
  | (.error e, m) => .ok (.queued (.error (.validation e)), { s with materializer := m })
  | (.ok instructions, m) =>
    match m.workspace.executeInstructions 0 instructions with
    | .error message => .error message
    | .ok (.accepted, workspace) =>
      .ok (.queued (.ok entities), s.accept { m with workspace := workspace } operations)
    | .ok (.rejected error, workspace) =>
      .ok (.queued (.error (.validation error.debug)),
        { s with materializer := { m with workspace := workspace } })

/-- One queued intent. -/
def queued (base : World) (kernel : ForthDb) (validators : List Validator)
    (intent : QueuedIntent) : Except String (MixedDecision × MixedRun) :=
  match s.resolveQueued intent with
  | .error message => .error message
  | .ok (.error error) => .ok (.queued (.error error), s)
  | .ok (.ok (operations, entities)) =>
    if validators ≠ [] then
      match s.candidate base kernel operations with
      | .error error => .ok (.queued (.error (.candidate error)), s)
      | .ok candidate =>
        match runValidators candidate validators with
        | .error message => .ok (.queued (.error (.validation message)), s)
        | .ok () => s.executeQueued operations entities
    else s.executeQueued operations entities

/-- Compile and execute a semantic intent. -/
def executeSemantic (intent : SemanticIntent) : Except String (MixedDecision × MixedRun) :=
  let nextEntity := s.materializer.workspace.nextEntity
  match (TrialVocabulary.new s.materializer).compileSemanticTrial intent.ast.operations with
  | .error message => .error message
  | .ok (.error e, c) => .ok (.semantic (.error (.lowering e)),
      { s with materializer := c.trial.materializer })
  | .ok (.ok instructions, c) =>
    match c.trial.materializer.workspace.executeInstructions 0 instructions with
    | .error message => .error message
    | .ok (.accepted, workspace) =>
      match intent.synthesized nextEntity with
      | .error message => .error message
      | .ok operations =>
        let trial : TrialVocabulary :=
          { c.trial with materializer := { c.trial.materializer with workspace := workspace } }
        .ok (.semantic (.ok ⟨c.bindings.sorted id⟩), s.accept trial.commit operations)
    | .ok (.rejected error, workspace) =>
      .ok (.semantic (.error (.validation error.debug)),
        { s with materializer := { c.trial.materializer with workspace := workspace } })

/-- One semantic intent. -/
def semantic (base : World) (kernel : ForthDb) (validators : List Validator)
    (intent : SemanticIntent) : Except String (MixedDecision × MixedRun) :=
  if validators ≠ [] then
    match intent.synthesized s.materializer.workspace.nextEntity with
    | .error message => .error message
    | .ok operations =>
      match s.candidate base kernel operations with
      | .error error =>
        .ok (.semantic (.error (.validation s!"candidate error: {error.debug}")), s)
      | .ok candidate =>
        match runValidators candidate validators with
        | .error message => .ok (.semantic (.error (.validation message)), s)
        | .ok () => s.executeSemantic intent
  else s.executeSemantic intent

/-- One intent of `materialize_mixed`. -/
def intent (base : World) (kernel : ForthDb) (validators : List Validator) :
    ControllerIntent → Except String (MixedDecision × MixedRun)
  | .queued q => s.queued base kernel validators q
  | .semantic i => s.semantic base kernel validators i

/-- The loop of `materialize_mixed`. -/
def intents (s : MixedRun) (base : World) (kernel : ForthDb) (validators : List Validator) :
    List ControllerIntent → Except String (List MixedDecision × MixedRun)
  | [] => .ok ([], s)
  | i :: rest =>
    match s.intent base kernel validators i with
    | .error message => .error message
    | .ok (decision, s) =>
      match intents s base kernel validators rest with
      | .error message => .error message
      | .ok (decisions, s) => .ok (decision :: decisions, s)

end MixedRun

/-- The plan of a mixed epoch: an epoch that accepts nothing keeps its base. -/
def MixedEpochPlan.assemble (base : World) (decisions : List MixedDecision)
    (successor : World × CommitFrame) : MixedEpochPlan :=
  if decisions.any MixedDecision.isAccepted then
    { base := base, tail := successor.1,
      outcomes := mixedOutcomesOf successor.1 successor.2 decisions, frames := [successor.2] }
  else { base := base, tail := base, outcomes := mixedRejectionsOf decisions, frames := [] }

namespace VmEpochMaterializer

variable (m : VmEpochMaterializer)

/-- What the loop of `materialize_mixed` starts from. -/
def startMixed (base : World) : MixedRun :=
  { materializer := m, predecessorId := base.id, predecessorVersion := base.version,
    operations := [] }

/-- `materialize_mixed`: the plan and the materializer after it. -/
def materializeMixed (base : World) (intents : List ControllerIntent)
    (validators : List Validator) : Except String (MixedEpochPlan × VmEpochMaterializer) :=
  match base.kernel with
  | .error message => .error message
  | .ok kernel =>
    match (m.startMixed base).intents base kernel validators intents with
    | .error message => .error message
    | .ok (decisions, s) =>
      let workspace := s.materializer.workspace
      .ok (.assemble base decisions (World.fromVmEpoch base s.operations workspace.nextEntity
        workspace.activeSlotCount workspace.deltaCount), s.materializer)

/-- One frame of `synchronize_to`. -/
def synchronizeFrame (frame : CommitFrame) : Except Halt VmEpochMaterializer :=
  let frameVersion := frame.parentVersion + 1
  if frameVersion > m.version then
    (m.applyCommitted frame.operations).map fun m => { m with version := frameVersion }
  else .ok m

def synchronizeFrames (m : VmEpochMaterializer) :
    List CommitFrame → Except Halt VmEpochMaterializer
  | [] => .ok m
  | frame :: frames =>
    match m.synchronizeFrame frame with
    | .error halt => .error halt
    | .ok m => synchronizeFrames m frames

/-- `synchronize_to`: the reset from version 0 replaces the workspace only. -/
def synchronizeTo (base : World) : Except Halt VmEpochMaterializer :=
  if m.version > base.version then .error (.error "VM materializer cannot rewind")
  else if m.version = base.version then .ok m
  else
    match base.frames with
    | .error message => .error (.panic message)
    | .ok frames =>
      let m := if m.version = 0 ∧ base.version > 0 then
        { m with workspace := .withIndexesFrom 1 0 32 } else m
      m.synchronizeFrames frames

end VmEpochMaterializer

structure Transaction where
  base : World
  nextEntity : ℕ
  operations : List Operation

namespace Transaction

def new (base : World) : Transaction := ⟨base, base.nextEntity, []⟩

variable (t : Transaction)

def entity : EntityId × Transaction :=
  (⟨t.nextEntity⟩, { t with
    nextEntity := t.nextEntity + 1
    operations := t.operations ++ [.allocateEntity ⟨t.nextEntity⟩] })

def define (slot : SlotId) (fact : Fact) : Transaction :=
  { t with operations := t.operations ++ [.define slot fact] }

def forget (slot : SlotId) : Transaction :=
  { t with operations := t.operations ++ [.forget slot] }

def candidate : Except String (Except CandidateError CandidateWorld) :=
  CandidateWorld.construct t.base t.operations

end Transaction

inductive CommitError
  | staleTransaction (basedOn current : WorldId)
  | candidate (error : CandidateError)
  | validation (message : String)

/-- `Database<MemoryCommitStore>`: the head, the stored frames and the validators. -/
structure Database where
  current : World
  store : List CommitFrame
  validators : List Validator

namespace Database

/-- `Database::new` on an empty store. -/
def new : Database := ⟨.genesis, [], []⟩

variable (d : Database)

def begin : Transaction := .new d.current

def registerValidator (validator : Validator) : Database :=
  { d with validators := d.validators ++ [validator] }

/-- `commit`: the database after a commit that is not refused. -/
def commit (t : Transaction) : Except String (Except CommitError Database) :=
  if t.base.id ≠ d.current.id then .ok (.error (.staleTransaction t.base.id d.current.id))
  else match t.candidate with
    | .error message => .error message
    | .ok (.error error) => .ok (.error (.candidate error))
    | .ok (.ok candidate) =>
      match runValidators candidate d.validators with
      | .error message => .ok (.error (.validation message))
      | .ok () => .ok (.ok { d with
          current := candidate.intoWorld candidate.commitFrame d.current.history
          store := d.store ++ [candidate.commitFrame] })

/-- `commit_mixed_epoch`. -/
def commitMixedEpoch (intents : List ControllerIntent) (m : VmEpochMaterializer) :
    Except String (MixedEpochPlan × Database × VmEpochMaterializer) :=
  match m.synchronizeTo d.current with
  | .error (.error e) => .error s!"fatal materializer synchronization failure: {e}"
  | .error (.panic message) => .error message
  | .ok m =>
    match m.materializeMixed d.current intents d.validators with
    | .error message => .error message
    | .ok (plan, m) =>
      let d := if plan.frames = [] then d else
        { d with current := plan.tail, store := d.store ++ plan.frames }
      .ok (plan, d, { m with version := plan.tail.version })

end Database

end ForthDB
