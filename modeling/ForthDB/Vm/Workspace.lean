import ForthDB.Core.Kernel
import ForthDB.Vm.Instruction

/-!
# The workspace of the virtual machine

`Workspace` of `stack_vm.rs`: a fixed stack of cells, three append-only arenas
(records, slot deltas, index deltas), the accepted head of each slot, and the
allocator. A program runs as a trial behind a checkpoint: `accept` publishes its
deltas, `rollback` forgets them.

An arena is the list of its active entries: what a rollback leaves behind the
frontier is never read. The stack keeps its stale cells. `RootedWorkspace` adds the
published roots.
-/

namespace ForthDB

/-- `NONE`: the `u32` that names no record, hence the capacity of an arena. -/
def noReference : ℕ := 2 ^ 32 - 1

structure FactRecord where
  kind : RecordKind
  slot : ℕ
  subject : ℕ
  predicate : ℕ
  object : ℕ
  previousVisible : Option ℕ
  resultingVisible : Option ℕ
deriving DecidableEq, Repr

structure SlotDelta where
  slot : ℕ
  previousVisible : Option ℕ
  resultingVisible : Option ℕ
deriving DecidableEq, Repr

inductive IndexPermutation
  | spo
  | pos
  | osp
deriving DecidableEq, Repr

structure IndexDelta where
  permutation : IndexPermutation
  added : Bool
  first : ℕ
  second : ℕ
  third : ℕ
  record : ℕ
  slot : ℕ
deriving DecidableEq, Repr

inductive ExecError
  | explicitRejection
  | missingExpectedValue
  | expectedValueMismatch
  | stackUnderflow
  | stackOverflow
  | invalidLocal
  | invalidSlot
deriving DecidableEq, Repr

/-- How `{:?}` prints an `ExecError`. -/
def ExecError.debug : ExecError → String
  | .explicitRejection => "ExplicitRejection"
  | .missingExpectedValue => "MissingExpectedValue"
  | .expectedValueMismatch => "ExpectedValueMismatch"
  | .stackUnderflow => "StackUnderflow"
  | .stackOverflow => "StackOverflow"
  | .invalidLocal => "InvalidLocal"
  | .invalidSlot => "InvalidSlot"

inductive ExecutionOutcome
  | accepted
  | rejected (error : ExecError)
deriving DecidableEq, Repr

/-- Why an instruction does not complete: the trial is rejected, or the process panics. -/
inductive Stop
  | rejected (error : ExecError)
  | panicked (message : String)
deriving DecidableEq, Repr

/-- `PodArena::push`. -/
def arenaPush {α : Type} (arena : List α) (value : α) : Except Stop (List α) :=
  if arena.length < noReference then .ok (arena ++ [value])
  else .error (.panicked "Phase 1 arena exhausted u32 references")

structure TrialCheckpoint where
  stackPointer : ℕ
  frameBase : ℕ
  recordFrontier : ℕ
  deltaFrontier : ℕ
  indexDeltaFrontier : ℕ
  nextEntity : ℕ

structure Workspace where
  stack : List ℕ
  stackPointer : ℕ
  frameBase : ℕ
  records : List FactRecord
  deltas : List SlotDelta
  indexDeltas : List IndexDelta
  acceptedHeads : List (Option ℕ)
  nextEntity : ℕ
  semanticHash : UInt64
  trackIndexes : Bool
  historicalDeltaOffset : ℕ
deriving DecidableEq, Repr

/-- The `u32` behind a reference. -/
def referenceCode (reference : Option ℕ) : ℕ := reference.getD noReference

def RecordKind.code : RecordKind → ℕ
  | .define => 0
  | .forget => 1

/-- `hash_record`. -/
def hashRecord (hash : UInt64) (record : FactRecord) : UInt64 :=
  [record.kind.code, record.slot, record.subject, record.predicate, record.object,
    referenceCode record.previousVisible, referenceCode record.resultingVisible].foldl
      (fun hash value => (hash ^^^ UInt64.ofNat value) * Fnv.prime) hash

namespace Workspace

/-- `with_indexes_from` an empty world, with the stack of the materializer. -/
def withIndexesFrom (nextEntity slotCount stackCapacity : ℕ) : Workspace where
  stack := List.replicate stackCapacity 0
  stackPointer := 0
  frameBase := 0
  records := []
  deltas := []
  indexDeltas := []
  acceptedHeads := List.replicate slotCount none
  nextEntity := nextEntity
  semanticHash := Fnv.offsetBasis
  trackIndexes := true
  historicalDeltaOffset := 0

/-- Whether `from_physical_snapshot` takes a record at an index. -/
def PhysicalRecord (headCount index : ℕ) (record : FactRecord) : Prop :=
  record.kind = .define ∧ record.resultingVisible = some index ∧
    (∀ previous, record.previousVisible = some previous → previous < index) ∧
    record.slot < headCount

instance (headCount index : ℕ) (record : FactRecord) :
    Decidable (PhysicalRecord headCount index record) :=
  inferInstanceAs (Decidable (_ ∧ _ ∧ (∀ previous ∈ record.previousVisible, previous < index) ∧ _))

def fromPhysicalSnapshot (nextEntity : ℕ) (records : List FactRecord)
    (acceptedHeads : List (Option ℕ)) (totalRecordCount : ℕ) : Except String Workspace :=
  if totalRecordCount < records.length then
    .error "snapshot retained records exceed total record count"
  else match records.zipIdx.find? fun e => ¬ PhysicalRecord acceptedHeads.length e.2 e.1 with
    | some (_, index) => .error s!"invalid physical fact record {index}"
    | none =>
      if acceptedHeads.any fun head => head.any fun h => h ≥ records.length then
        .error "physical snapshot head exceeds record arena"
      else .ok {
        stack := List.replicate 32 0
        stackPointer := 0
        frameBase := 0
        records := records
        deltas := []
        indexDeltas := []
        acceptedHeads := acceptedHeads
        nextEntity := nextEntity
        semanticHash := records.foldl hashRecord Fnv.offsetBasis
        trackIndexes := true
        historicalDeltaOffset := totalRecordCount }

variable (w : Workspace)

def recordCount : ℕ := w.records.length

def deltaCount : ℕ := w.historicalDeltaOffset + w.deltas.length

def activeSlotCount : ℕ := (w.acceptedHeads.filter Option.isSome).length

def ensureSlotCount (slotCount : ℕ) : Workspace :=
  if w.acceptedHeads.length < slotCount then
    { w with acceptedHeads :=
        w.acceptedHeads ++ List.replicate (slotCount - w.acceptedHeads.length) none }
  else w

/-- `PodArena::get` on the records. -/
def record (index : ℕ) : Except Stop FactRecord :=
  match w.records[index]? with
  | some record => .ok record
  | none => .error (.panicked "record reference beyond active frontier")

def acceptedHead (slot : ℕ) : Except Stop (Option ℕ) :=
  match w.acceptedHeads[slot]? with
  | some head => .ok head
  | none => .error (.rejected .invalidSlot)

/-- `resolve_fact_cells`: an `error` is a panic. -/
def resolveFactCells (slot : ℕ) : Except String (Option (ℕ × ℕ × ℕ)) :=
  match w.acceptedHeads[slot]? with
  | some (some head) =>
    match w.records[head]? with
    | some record => .ok (some (record.subject, record.predicate, record.object))
    | none => .error "record reference beyond active frontier"
  | _ => .ok none

def resolveTrialHead (slot trialDeltaFrontier : ℕ) : Except Stop (Option ℕ) := do
  let head ← w.acceptedHead slot
  match (w.deltas.drop trialDeltaFrontier).reverse.find? fun delta => delta.slot = slot with
  | some delta => pure delta.resultingVisible
  | none => pure head

def resolveTrialObject (slot trialDeltaFrontier : ℕ) : Except Stop (Option ℕ) := do
  match ← w.resolveTrialHead slot trialDeltaFrontier with
  | some head => (w.record head).map fun record => some record.object
  | none => pure none

def reserve (cells : ℕ) : Except Stop Workspace :=
  if w.stackPointer + cells > w.stack.length then .error (.rejected .stackOverflow)
  else .ok { w with stackPointer := w.stackPointer + cells }

def push (value : ℕ) : Except Stop Workspace :=
  if w.stackPointer = w.stack.length then .error (.rejected .stackOverflow)
  else .ok { w with
    stack := w.stack.set w.stackPointer value, stackPointer := w.stackPointer + 1 }

/-- `pop`: the cell and the workspace after it. -/
def pop : Except Stop (ℕ × Workspace) :=
  if w.stackPointer ≤ w.frameBase then .error (.rejected .stackUnderflow)
  else .ok (w.stack.getD (w.stackPointer - 1) 0, { w with stackPointer := w.stackPointer - 1 })

def loadLocal (index : ℕ) : Except Stop ℕ :=
  if w.frameBase + index ≥ w.stackPointer then .error (.rejected .invalidLocal)
  else .ok (w.stack.getD (w.frameBase + index) 0)

def storeLocal (index value : ℕ) : Except Stop Workspace :=
  if w.frameBase + index ≥ w.stackPointer then .error (.rejected .invalidLocal)
  else .ok { w with stack := w.stack.set (w.frameBase + index) value }

/-- `append_fact_indexes`. -/
def appendFactIndexes (fact : FactRecord) (record : ℕ) (added : Bool) : Except Stop Workspace := do
  let indexDeltas ← arenaPush w.indexDeltas
    ⟨.spo, added, fact.subject, fact.predicate, fact.object, record, fact.slot⟩
  let indexDeltas ← arenaPush indexDeltas
    ⟨.pos, added, fact.predicate, fact.object, fact.subject, record, fact.slot⟩
  let indexDeltas ← arenaPush indexDeltas
    ⟨.osp, added, fact.object, fact.subject, fact.predicate, record, fact.slot⟩
  pure { w with indexDeltas := indexDeltas }

/-- One half of `append_index_transition`. -/
def appendReferenceIndexes (reference : Option ℕ) (added : Bool) : Except Stop Workspace :=
  match reference with
  | some index => do
    let fact ← w.record index
    w.appendFactIndexes fact index added
  | none => .ok w

/-- `append_index_transition`. -/
def appendIndexTransition (previous resulting : Option ℕ) : Except Stop Workspace :=
  if w.trackIndexes then do
    let w ← w.appendReferenceIndexes previous false
    w.appendReferenceIndexes resulting true
  else .ok w

/-- The common end of `define` and `forget`: one record, one delta, the index deltas. -/
def appendRecord (record : FactRecord) : Except Stop Workspace := do
  let records ← arenaPush w.records record
  let deltas ← arenaPush w.deltas ⟨record.slot, record.previousVisible, record.resultingVisible⟩
  { w with records := records, deltas := deltas }.appendIndexTransition record.previousVisible
    record.resultingVisible

def define (slot subject predicate object trialDeltaFrontier : ℕ) : Except Stop Workspace := do
  let previous ← w.resolveTrialHead slot trialDeltaFrontier
  w.appendRecord ⟨.define, slot, subject, predicate, object, previous, some w.records.length⟩

def forget (slot trialDeltaFrontier : ℕ) : Except Stop Workspace := do
  let previous ← w.resolveTrialHead slot trialDeltaFrontier
  let revealed ← match previous with
    | some index => (w.record index).map FactRecord.previousVisible
    | none => pure none
  w.appendRecord ⟨.forget, slot, 0, 0, 0, previous, revealed⟩

def executeInstruction (instruction : Instruction) (trialDeltaFrontier : ℕ) :
    Except Stop Workspace :=
  match instruction.opcode with
  | .expectObject =>
    if instruction.argument = Instruction.worldArgument then
      if w.semanticHash ≠ UInt64.ofNat instruction.immediate then
        .error (.rejected .expectedValueMismatch)
      else .ok w
    else do
      match ← w.resolveTrialObject instruction.argument trialDeltaFrontier with
      | some actual =>
        if actual = instruction.immediate then pure w
        else .error (.rejected .expectedValueMismatch)
      | none => .error (.rejected .missingExpectedValue)
  | .allocate => { w with nextEntity := w.nextEntity + 1 }.push w.nextEntity
  | .allocateDiscard => .ok { w with nextEntity := w.nextEntity + 1 }
  | .loadLocal => do
    let value ← w.loadLocal instruction.argument
    w.push value
  | .storeLocal => do
    let (value, w) ← w.pop
    w.storeLocal instruction.argument value
  | .pushCell => w.push instruction.immediate
  | .define => do
    let (object, w) ← w.pop
    let (predicate, w) ← w.pop
    let (subject, w) ← w.pop
    w.define instruction.argument subject predicate object trialDeltaFrontier
  | .forget => w.forget instruction.argument trialDeltaFrontier
  | .reject => .error (.rejected .explicitRejection)

def checkpoint : TrialCheckpoint where
  stackPointer := w.stackPointer
  frameBase := w.frameBase
  recordFrontier := w.records.length
  deltaFrontier := w.deltas.length
  indexDeltaFrontier := w.indexDeltas.length
  nextEntity := w.nextEntity

def rollback (c : TrialCheckpoint) : Workspace :=
  { w with
    stackPointer := c.stackPointer
    frameBase := c.frameBase
    records := w.records.take c.recordFrontier
    deltas := w.deltas.take c.deltaFrontier
    indexDeltas := w.indexDeltas.take c.indexDeltaFrontier
    nextEntity := c.nextEntity }

def accept (c : TrialCheckpoint) : Workspace :=
  { w with
    stackPointer := c.stackPointer
    frameBase := c.frameBase
    acceptedHeads := (w.deltas.drop c.deltaFrontier).foldl
      (fun heads delta => heads.set delta.slot delta.resultingVisible) w.acceptedHeads
    semanticHash := (w.records.drop c.recordFrontier).foldl hashRecord w.semanticHash }

/-- The loop of `execute_instructions`. A rejected instruction has written no stack cell, and
`rollback` restores the rest, so its own partial effects are dropped here. -/
def run (w : Workspace) (trialDeltaFrontier : ℕ) :
    List Instruction → Except String (ExecutionOutcome × Workspace)
  | [] => .ok (.accepted, w)
  | instruction :: rest =>
    match w.executeInstruction instruction trialDeltaFrontier with
    | .ok w' => run w' trialDeltaFrontier rest
    | .error (.rejected error) => .ok (.rejected error, w)
    | .error (.panicked message) => .error message

/-- `execute_instructions`: an `error` is a panic. -/
def executeInstructions (localCount : ℕ) (instructions : List Instruction) :
    Except String (ExecutionOutcome × Workspace) :=
  let c := w.checkpoint
  let w := { w with frameBase := w.stackPointer }
  match w.reserve localCount with
  | .error _ => .ok (.rejected .stackOverflow, w.rollback c)
  | .ok w =>
    (w.run c.deltaFrontier instructions).map fun
      | (.accepted, w) => (.accepted, w.accept c)
      | (.rejected error, w) => (.rejected error, w.rollback c)

def execute (program : IntentProgram) : Except String (ExecutionOutcome × Workspace) :=
  w.executeInstructions program.localCount program.instructions

end Workspace

end ForthDB
