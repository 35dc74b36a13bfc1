import ForthDB.Snapshot.Image

/-!
# Worlds

A world is an immutable head: its id and counters, its commit history, and one of
three ways to answer readers: an eager kernel, a projection of the frames, or a
mapped image. An `error` of a function that returns a plain value in the source is
the panic of an `expect` or an `assert`.

The source caches the lazily built kernel and projection; the model recomputes them
from the frames.
-/

namespace ForthDB

/-- One definition that is still on its slot's stack. -/
structure ProjectedFact where
  recordId : ℕ
  slot : SlotId
  fact : Fact
deriving DecidableEq, Repr

/-- The definition stacks of `VmQueryProjection`, oldest first. -/
abbrev Definitions : Type := Dict SlotId (List ProjectedFact)

/-- `VmQueryProjection`. Its eight indexes serve queries only. -/
structure VmQueryProjection where
  mapped : Option MmapVmSnapshot
  definitions : Definitions

namespace VmQueryProjection

/-- One operation of `from_frames`: the stacks and the next record id. -/
def project (s : Definitions × ℕ) : Operation → Definitions × ℕ
  | .allocateEntity _ => s
  | .define slot fact =>
    (s.1.insert slot ((s.1.lookup slot).getD [] ++ [⟨s.2, slot, fact⟩]), s.2 + 1)
  | .forget slot =>
    match s.1.lookup slot with
    | some stack =>
      if stack.dropLast = [] then (s.1.erase slot, s.2 + 1)
      else (s.1.insert slot stack.dropLast, s.2 + 1)
    | none => (s.1, s.2 + 1)

def fromFrames (frames : List CommitFrame) : VmQueryProjection :=
  ⟨none, ((frames.flatMap CommitFrame.operations).foldl project (∅, 0)).1⟩

def fromMmap (snapshot : MmapVmSnapshot) : VmQueryProjection := ⟨some snapshot, ∅⟩

def resolve (p : VmQueryProjection) (slot : SlotId) : Option Fact :=
  match p.mapped with
  | some mapped => mapped.resolve slot
  | none => ((p.definitions.lookup slot).bind List.getLast?).map ProjectedFact.fact

end VmQueryProjection

structure World where
  id : WorldId
  version : ℕ
  nextEntity : ℕ
  operationCount : ℕ
  activeSlotCount : ℕ
  recordCount : ℕ
  eagerKernel : Option ForthDb
  /-- The query view that `from_mmap` installs. -/
  mapped : Option MmapVmSnapshot
  /-- The frames of the history nodes, oldest first. -/
  history : List CommitFrame
  historyPrefix : Option MmapVmSnapshot

namespace World

def genesis : World where
  id := .genesis
  version := 0
  nextEntity := 1
  operationCount := 0
  activeSlotCount := 0
  recordCount := 0
  eagerKernel := some .new
  mapped := none
  history := []
  historyPrefix := none

def frames (w : World) : Except String (List CommitFrame) :=
  match w.historyPrefix with
  | some source => source.frames.map (· ++ w.history)
  | none => .ok w.history

def vmQuery (w : World) : Except String VmQueryProjection :=
  match w.mapped with
  | some snapshot => .ok (.fromMmap snapshot)
  | none =>
    if w.history = [] then .error "mapped VM roots preinstall their query view"
    else w.frames.map .fromFrames

def kernel (w : World) : Except String ForthDb :=
  match w.eagerKernel with
  | some kernel => .ok kernel
  | none => do
    let frames ← w.frames
    match applyOperations (.new, 1) (frames.flatMap CommitFrame.operations) with
    | .ok (kernel, _) => .ok kernel
    | .error _ => .error "published VM operations must materialize deterministically"

def resolve (w : World) (slot : SlotId) : Except String (Option Fact) :=
  match w.eagerKernel with
  | some kernel => .ok (kernel.resolve slot)
  | none => w.vmQuery.map fun projection => projection.resolve slot

/-- `World::from_mmap`. -/
def fromMmap (snapshot : MmapVmSnapshot) : World where
  id := snapshot.worldId
  version := snapshot.worldVersion
  nextEntity := snapshot.nextEntity
  operationCount := snapshot.operationCount
  activeSlotCount := snapshot.activeSlotCount
  recordCount := snapshot.recordCount
  eagerKernel := none
  mapped := some snapshot
  history := []
  historyPrefix := some snapshot

/-- One frame of `reconstruct`, on the world so far and its kernel. -/
def reconstructStep (s : World × ForthDb) (frame : CommitFrame) :
    Except CandidateError (World × ForthDb) :=
  if frame.parentWorld ≠ s.1.id then .error (.historyParentMismatch s.1.id frame.parentWorld)
  else if frame.parentVersion ≠ s.1.version then
    .error (.historyVersionMismatch s.1.version frame.parentVersion)
  else match applyOperations (s.2, s.1.nextEntity) frame.operations with
    | .error e => .error e
    | .ok (kernel, nextEntity) =>
      if nextEntity ≠ frame.resultingAllocator then
        .error (.allocatorStateMismatch frame.resultingAllocator nextEntity)
      else match kernel.validate with
        | .error message => .error (.kernelInvariant message)
        | .ok () =>
          let expectedWorld := calculateWorldId frame.parentWorld frame.resultingVersion
            frame.resultingAllocator frame.operations
          if expectedWorld ≠ frame.resultingWorld then
            .error (.worldIdentityMismatch expectedWorld frame.resultingWorld)
          else .ok ({
            id := frame.resultingWorld
            version := frame.resultingVersion
            nextEntity := frame.resultingAllocator
            operationCount := s.1.operationCount + frame.operations.length
            activeSlotCount := kernel.activeSlotCount
            recordCount := kernel.recordCount
            eagerKernel := none
            mapped := none
            history := s.1.history ++ [frame]
            historyPrefix := none }, kernel)

/-- `reconstruct` before the kernel is stored. -/
def reconstructFrom (s : World × ForthDb) :
    List CommitFrame → Except CandidateError (World × ForthDb)
  | [] => .ok s
  | frame :: frames =>
    match reconstructStep s frame with
    | .ok s' => reconstructFrom s' frames
    | .error e => .error e

def reconstruct (frames : List CommitFrame) : Except CandidateError World :=
  (reconstructFrom (genesis, .new) frames).map fun s => { s.1 with eagerKernel := some s.2 }

/-- `World::from_vm_epoch`: the successor of `base` and the frame that leads to it. -/
def fromVmEpoch (base : World) (operations : List Operation)
    (nextEntity activeSlotCount recordCount : ℕ) : World × CommitFrame :=
  let version := base.version + 1
  let id := calculateWorldId base.id version nextEntity operations
  let frame : CommitFrame :=
    { parentWorld := base.id, resultingWorld := id, parentVersion := base.version,
      resultingVersion := version, resultingAllocator := nextEntity, operations := operations }
  ({ id := id
     version := version
     nextEntity := nextEntity
     operationCount := base.operationCount + operations.length
     activeSlotCount := activeSlotCount
     recordCount := recordCount
     eagerKernel := none
     mapped := none
     history := base.history ++ [frame]
     historyPrefix := base.historyPrefix }, frame)

end World

/-- `CandidateWorld`. -/
structure CandidateWorld where
  baseWorld : WorldId
  baseVersion : ℕ
  id : WorldId
  version : ℕ
  nextEntity : ℕ
  baseOperationCount : ℕ
  operations : List Operation
  kernel : ForthDb

namespace CandidateWorld

/-- `construct_from_state`. -/
def constructFromState (baseWorld : WorldId) (baseVersion baseNextEntity baseOperationCount : ℕ)
    (baseKernel : ForthDb) (operations : List Operation) : Except CandidateError CandidateWorld :=
  match applyOperations (baseKernel, baseNextEntity) operations with
  | .error e => .error e
  | .ok (kernel, nextEntity) =>
    match kernel.validate with
    | .error message => .error (.kernelInvariant message)
    | .ok () =>
      let version := baseVersion + 1
      .ok {
        baseWorld := baseWorld
        baseVersion := baseVersion
        id := calculateWorldId baseWorld version nextEntity operations
        version := version
        nextEntity := nextEntity
        baseOperationCount := baseOperationCount
        operations := operations
        kernel := kernel }

/-- `construct`: the outer `error` is the panic of `World::kernel`. -/
def construct (base : World) (operations : List Operation) :
    Except String (Except CandidateError CandidateWorld) :=
  base.kernel.map fun kernel =>
    constructFromState base.id base.version base.nextEntity base.operationCount kernel operations

def commitFrame (c : CandidateWorld) : CommitFrame where
  parentWorld := c.baseWorld
  resultingWorld := c.id
  parentVersion := c.baseVersion
  resultingVersion := c.version
  resultingAllocator := c.nextEntity
  operations := c.operations

/-- `into_world`. -/
def intoWorld (c : CandidateWorld) (frame : CommitFrame) (parentHistory : List CommitFrame) :
    World where
  id := c.id
  version := c.version
  nextEntity := c.nextEntity
  operationCount := c.baseOperationCount + c.operations.length
  activeSlotCount := c.kernel.activeSlotCount
  recordCount := c.kernel.recordCount
  eagerKernel := some c.kernel
  mapped := none
  history := parentHistory ++ [frame]
  historyPrefix := none

end CandidateWorld

end ForthDB
