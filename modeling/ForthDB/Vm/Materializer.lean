import ForthDB.Queue.Epoch
import ForthDB.Snapshot.Image
import ForthDB.Vm.Program

/-!
# The epoch materializer

`VmEpochMaterializer` keeps the dictionaries of slots, predicates and literals next to
a workspace. An epoch compiles each intent's operations and runs them as one trial.

An `error` of `Except String` is what the doc of the definition says: a `Result::Err`
for the functions that have one in the source, a panic for the others. Where both can
happen the error is a `Halt`.
-/

namespace ForthDB

/-- How a materialization does not return a plan. -/
inductive Halt
  | error (message : String)
  | panic (message : String)
deriving DecidableEq, Repr

/-- `check_preconditions` for a reader that may panic. -/
def checkPreconditionsBy (predecessorId : WorldId)
    (resolve : SlotId → Except String (Option Fact)) :
    List IntentPrecondition → Except String (Except IntentRejection Unit)
  | [] => .ok (.ok ())
  | .expectedWorld expected :: rest =>
    if expected ≠ predecessorId then .ok (.error (.worldPrecondition expected predecessorId))
    else checkPreconditionsBy predecessorId resolve rest
  | .expectedSlot slot expected :: rest =>
    match resolve slot with
    | .error message => .error message
    | .ok actual =>
      if actual ≠ expected then .ok (.error (.slotPrecondition slot expected actual))
      else checkPreconditionsBy predecessorId resolve rest

theorem checkPreconditionsBy_eq {resolve : SlotId → Except String (Option Fact)}
    {top : SlotId → Option Fact} (h : ∀ slot, resolve slot = .ok (top slot))
    (predecessorId : WorldId) (ps : List IntentPrecondition) :
    checkPreconditionsBy predecessorId resolve ps =
      .ok (checkPreconditions predecessorId top ps) := by
  induction ps with
  | nil => rfl
  | cons p ps ih =>
    cases p with
    | expectedWorld expected =>
      simp only [checkPreconditionsBy, checkPreconditions, ih]
      split <;> rfl
    | expectedSlot slot expected =>
      simp only [checkPreconditionsBy, checkPreconditions, h slot, ih]
      split <;> rfl

/-- `MmapVmSnapshot::workspace_image`. -/
def MmapVmSnapshot.workspaceImage (s : MmapVmSnapshot) : List FactRecord × List (Option ℕ) :=
  (s.records.zipIdx.map fun (record, index) =>
    { kind := .define, slot := record.slot, subject := record.subject,
      predicate := record.predicate, object := record.object,
      previousVisible := record.previous, resultingVisible := some index }, s.heads)

structure VmEpochMaterializer where
  workspace : Workspace
  version : ℕ
  mappedBase : Option MmapVmSnapshot
  slots : Dict SlotId ℕ
  predicates : Dict Predicate ℕ
  predicateValues : List Predicate
  literals : Dict Literal ℕ
  literalValues : List Literal

namespace VmEpochMaterializer

def new (nextEntity : ℕ) : VmEpochMaterializer where
  workspace := .withIndexesFrom nextEntity 0 32
  version := 0
  mappedBase := none
  slots := ∅
  predicates := ∅
  predicateValues := []
  literals := ∅
  literalValues := []

/-- `from_mmap`: an `error` is an `Err`. -/
def fromMmap (snapshot : MmapVmSnapshot) : Except String VmEpochMaterializer := do
  let (records, heads) := snapshot.workspaceImage
  let workspace ← Workspace.fromPhysicalSnapshot snapshot.nextEntity records heads
    snapshot.recordCount
  pure {
    workspace := workspace
    version := 0
    mappedBase := some snapshot
    slots := ∅
    predicates := ∅
    predicateValues := []
    literals := ∅
    literalValues := [] }

variable (m : VmEpochMaterializer)

def baseSlotCount : ℕ := (m.mappedBase.map MmapVmSnapshot.slotCount).getD 0

def basePredicateCount : ℕ := (m.mappedBase.map MmapVmSnapshot.predicateCount).getD 0

def baseLiteralCount : ℕ := (m.mappedBase.map MmapVmSnapshot.literalCount).getD 0

/-- `slot_token`, and the materializer after it. The token is a `u32`. -/
def slotToken (slot : SlotId) : ℕ × VmEpochMaterializer :=
  match m.slots.lookup slot with
  | some token => (token, m)
  | none =>
    match m.mappedBase.bind fun base => base.slotToken slot with
    | some token => (token, m)
    | none =>
      let token := (m.baseSlotCount + m.slots.size) % 2 ^ 32
      let slots : Dict SlotId ℕ := m.slots.insert slot token
      (token, { m with
        slots := slots
        workspace := m.workspace.ensureSlotCount (m.baseSlotCount + slots.size) })

/-- `predicate_cell`. -/
def predicateCell (predicate : Predicate) : ℕ × VmEpochMaterializer :=
  match m.predicates.lookup predicate with
  | some cell => (cell, m)
  | none =>
    match m.mappedBase.bind fun base => base.predicateToken predicate with
    | some token => (token, m)
    | none =>
      let cell := m.basePredicateCount + m.predicates.size
      (cell, { m with
        predicates := m.predicates.insert predicate cell
        predicateValues := m.predicateValues ++ [predicate] })

/-- `atom_cell`: an `error` is an `Err`. -/
def atomCell : Atom → Except String ℕ × VmEpochMaterializer
  | .entity e =>
    if e.value < literalBase then (.ok e.value, m)
    else (.error "entity identifier overlaps the VM literal namespace", m)
  | .literal l =>
    match m.literals.lookup l with
    | some cell => (.ok cell, m)
    | none =>
      match m.mappedBase.bind fun base => base.literalToken l with
      | some token => (.ok (literalBase + token), m)
      | none =>
        let cell := literalBase + (m.baseLiteralCount + m.literalValues.length)
        if cell < 2 ^ 64 then
          (.ok cell, { m with
            literals := m.literals.insert l cell
            literalValues := m.literalValues ++ [l] })
        else (.error "VM literal token overflow", m)

/-- One operation of `compile_operations`. -/
def compileOperation : Operation → Except String (List Instruction) × VmEpochMaterializer
  | .allocateEntity entity =>
    if entity.value ≥ literalBase then
      (.error "entity allocator exhausted the VM atom namespace", m)
    else (.ok [.allocateDiscard], m)
  | .define slot fact =>
    let (slot, m) := m.slotToken slot
    match m.atomCell fact.subject with
    | (.error e, m) => (.error e, m)
    | (.ok subject, m) =>
      let (predicate, m) := m.predicateCell fact.predicate
      match m.atomCell fact.object with
      | (.error e, m) => (.error e, m)
      | (.ok object, m) =>
        (.ok [.push subject, .push predicate, .push object, .define slot], m)
  | .forget slot =>
    let (slot, m) := m.slotToken slot
    (.ok [.forget slot], m)

/-- `compile_operations`: the names met before an `Err` stay interned. -/
def compileOperations (m : VmEpochMaterializer) :
    List Operation → Except String (List Instruction) × VmEpochMaterializer
  | [] => (.ok [], m)
  | op :: ops =>
    match m.compileOperation op with
    | (.error e, m) => (.error e, m)
    | (.ok instructions, m) =>
      match compileOperations m ops with
      | (.error e, m) => (.error e, m)
      | (.ok rest, m) => (.ok (instructions ++ rest), m)

def atomFromCell (cell : ℕ) : Option Atom :=
  if cell < literalBase then some (.entity ⟨cell⟩)
  else
    let token := cell - literalBase
    match m.mappedBase with
    | some base =>
      if token < base.literalCount then (base.literalValue token).map .literal
      else m.literalValues[token - base.literalCount]?.map .literal
    | none => m.literalValues[token]?.map .literal

def predicateFromCell (cell : ℕ) : Option Predicate :=
  match m.mappedBase with
  | some base =>
    if cell < base.predicateCount then base.predicateValue cell
    else m.predicateValues[cell - base.predicateCount]?
  | none => m.predicateValues[cell]?

/-- The fact that three cells stand for. -/
def factFromCells (subject predicate object : ℕ) : Option Fact := do
  let subject ← m.atomFromCell subject
  let predicate ← m.predicateFromCell predicate
  let object ← m.atomFromCell object
  pure ⟨subject, predicate, object⟩

/-- `resolve_fact`: an `error` is a panic. -/
def resolveFact (slot : SlotId) : Except String (Option Fact) :=
  match (m.slots.lookup slot).or (m.mappedBase.bind fun base => base.slotToken slot) with
  | none => .ok none
  | some token => (m.workspace.resolveFactCells token).map fun cells =>
    cells.bind fun (subject, predicate, object) => m.factFromCells subject predicate object

def checkPreconditions (predecessorId : WorldId) (preconditions : List IntentPrecondition) :
    Except String (Except IntentRejection Unit) :=
  checkPreconditionsBy predecessorId m.resolveFact preconditions

/-- `apply_committed`. -/
def applyCommitted (operations : List Operation) : Except Halt VmEpochMaterializer :=
  match m.compileOperations operations with
  | (.error e, _) => .error (.error e)
  | (.ok instructions, m) =>
    match m.workspace.executeInstructions 0 instructions with
    | .error message => .error (.panic message)
    | .ok (.accepted, workspace) => .ok { m with workspace := workspace }
    | .ok (.rejected error, _) =>
      .error (.error s!"validated committed operations were rejected by the VM: {error.debug}")

/-- The evolving state of `derive_vm_epoch`. -/
structure EpochRun where
  materializer : VmEpochMaterializer
  predecessorId : WorldId
  predecessorVersion : ℕ
  operations : List Operation

/-- One intent of `derive_vm_epoch`. -/
def EpochRun.intent (s : EpochRun) (intent : QueuedIntent) : Except Halt (Decision × EpochRun) :=
  match s.materializer.checkPreconditions s.predecessorId intent.preconditions with
  | .error message => .error (.panic message)
  | .ok (.error error) => .ok (.error error, s)
  | .ok (.ok ()) =>
    match resolveOperationsFrom s.materializer.workspace.nextEntity intent.space
      intent.operations with
    | .error error => .ok (.error error, s)
    | .ok (operations, entities) =>
      match s.materializer.compileOperations operations with
      | (.error e, _) => .error (.error e)
      | (.ok instructions, m) =>
        match m.workspace.executeInstructions 0 instructions with
        | .error message => .error (.panic message)
        | .ok (.accepted, workspace) =>
          let version := s.predecessorVersion + 1
          .ok (.ok entities, {
            materializer := { m with workspace := workspace }
            predecessorId :=
              calculateWorldId s.predecessorId version workspace.nextEntity operations
            predecessorVersion := version
            operations := s.operations ++ operations })
        | .ok (.rejected error, _) =>
          .error (.error s!"compiled durable intent was rejected by the VM: {error.debug}")

/-- The loop of `derive_vm_epoch`. -/
def EpochRun.intents (s : EpochRun) : List QueuedIntent → Except Halt (List Decision × EpochRun)
  | [] => .ok ([], s)
  | i :: rest =>
    match s.intent i with
    | .error halt => .error halt
    | .ok (decision, s) =>
      match intents s rest with
      | .error halt => .error halt
      | .ok (decisions, s) => .ok (decision :: decisions, s)

/-- `derive_vm_epoch`. -/
def deriveVmEpoch (base : World) (intents : List QueuedIntent) :
    Except Halt (EpochPlan × VmEpochMaterializer) :=
  let allocator := m.workspace.nextEntity
  let published := base.nextEntity
  if allocator ≠ published then
    .error (.error s!"VM allocator {allocator}, published world allocator {published}")
  else
    match EpochRun.intents
      { materializer := m, predecessorId := base.id, predecessorVersion := base.version,
        operations := [] } intents with
    | .error halt => .error halt
    | .ok (decisions, s) =>
      let workspace := s.materializer.workspace
      .ok (.assemble base decisions (World.fromVmEpoch base s.operations workspace.nextEntity
        workspace.activeSlotCount workspace.deltaCount), s.materializer)

/-- `materialize`: the plan, whether the VM derived it, and the materializer after it. -/
def materialize (base : World) (intents : List QueuedIntent) (validators : List Validator) :
    Except Halt ((EpochPlan × Bool) × VmEpochMaterializer) :=
  if validators ≠ [] then
    match deriveEpochWorld base intents validators with
    | .error message => .error (.panic message)
    | .ok plan =>
      match plan.frames.head? with
      | none => .ok ((plan, false), m)
      | some frame => (m.applyCommitted frame.operations).map fun m => ((plan, false), m)
  else (m.deriveVmEpoch base intents).map fun (plan, m) => ((plan, true), m)

end VmEpochMaterializer

end ForthDB
