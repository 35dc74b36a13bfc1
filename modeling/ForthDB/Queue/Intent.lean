import ForthDB.World.World

/-!
# Queued intents

A queued intent is a list of preconditions and operations whose new entities are
temporaries, numbered within the intent's own namespace. The planner that assigns
its predecessor resolves them.

* `QueuedIntent.Built`: the intents a client can make through the public interface.
* `resolveOperationsFrom`: temporaries become consecutive entities.
* `checkWorkspacePreconditions`: preconditions on a predecessor.
-/

namespace ForthDB

structure TempEntity where
  space : ℕ
  index : ℕ
deriving DecidableEq, Repr

inductive IntentAtom
  | entity (entity : EntityId)
  | temporary (temporary : TempEntity)
  | literal (literal : Literal)
deriving DecidableEq, Repr

structure IntentFact where
  subject : IntentAtom
  predicate : Predicate
  object : IntentAtom
deriving DecidableEq, Repr

inductive IntentPrecondition
  | expectedWorld (world : WorldId)
  | expectedSlot (slot : SlotId) (expected : Option Fact)
deriving DecidableEq, Repr

inductive IntentOperation
  | allocateEntity (temporary : TempEntity)
  | define (slot : SlotId) (fact : IntentFact)
  | forget (slot : SlotId)
deriving DecidableEq, Repr

/-- `QueuedIntent`; the namespace is the field `space`. -/
structure QueuedIntent where
  space : ℕ
  nextTemporary : ℕ
  preconditions : List IntentPrecondition
  operations : List IntentOperation
deriving DecidableEq, Repr

namespace QueuedIntent

/-- `QueuedIntent::new`, with the namespace that the global counter hands out. -/
def new (space : ℕ) : QueuedIntent := ⟨space, 0, [], []⟩

variable (i : QueuedIntent)

def expectWorld (world : WorldId) : QueuedIntent :=
  { i with preconditions := i.preconditions ++ [.expectedWorld world] }

def expectValue (slot : SlotId) (fact : Fact) : QueuedIntent :=
  { i with preconditions := i.preconditions ++ [.expectedSlot slot (some fact)] }

def expectAbsent (slot : SlotId) : QueuedIntent :=
  { i with preconditions := i.preconditions ++ [.expectedSlot slot none] }

/-- `entity`, without the temporary that it also returns. -/
def entity : QueuedIntent :=
  { i with
    nextTemporary := i.nextTemporary + 1
    operations := i.operations ++ [.allocateEntity ⟨i.space, i.nextTemporary⟩] }

def define (slot : SlotId) (fact : IntentFact) : QueuedIntent :=
  { i with operations := i.operations ++ [.define slot fact] }

def forget (slot : SlotId) : QueuedIntent := { i with operations := i.operations ++ [.forget slot] }

/-- The intents that the public interface can build. `entity` panics when its `u32` index
is used up. -/
inductive Built : QueuedIntent → Prop
  | new (space : ℕ) : Built (.new space)
  | expectWorld {i : QueuedIntent} (world : WorldId) : Built i → Built (i.expectWorld world)
  | expectValue {i : QueuedIntent} (slot : SlotId) (fact : Fact) :
      Built i → Built (i.expectValue slot fact)
  | expectAbsent {i : QueuedIntent} (slot : SlotId) : Built i → Built (i.expectAbsent slot)
  | entity {i : QueuedIntent} : Built i → i.nextTemporary + 1 < 2 ^ 32 → Built i.entity
  | define {i : QueuedIntent} (slot : SlotId) (fact : IntentFact) :
      Built i → Built (i.define slot fact)
  | forget {i : QueuedIntent} (slot : SlotId) : Built i → Built (i.forget slot)

end QueuedIntent

/-- The temporaries that operations allocate, in order. -/
def allocations (ops : List IntentOperation) : List TempEntity :=
  ops.filterMap fun
    | .allocateEntity temporary => some temporary
    | _ => none

/-- A built intent numbers its temporaries consecutively in its own namespace. -/
theorem QueuedIntent.Built.allocations_eq {i : QueuedIntent} (h : i.Built) :
    allocations i.operations = (List.range i.nextTemporary).map (TempEntity.mk i.space) ∧
      i.nextTemporary < 2 ^ 32 := by
  induction h with
  | new space => exact ⟨rfl, by norm_num [QueuedIntent.new]⟩
  | expectWorld _ _ ih => exact ih
  | expectValue _ _ _ ih => exact ih
  | expectAbsent _ _ ih => exact ih
  | @entity i _ hn ih =>
    refine ⟨?_, hn⟩
    simp only [QueuedIntent.entity, List.range_succ, List.map_append, List.map_cons, List.map_nil]
    rw [← ih.1]
    simp [allocations]
  | define slot fact _ ih => exact ⟨by simpa [QueuedIntent.define, allocations] using ih.1, ih.2⟩
  | forget slot _ ih => exact ⟨by simpa [QueuedIntent.forget, allocations] using ih.1, ih.2⟩

inductive IntentRejection
  | worldPrecondition (expected actual : WorldId)
  | slotPrecondition (slot : SlotId) (expected actual : Option Fact)
  | unknownTemporaryEntity (temporary : TempEntity)
  | candidate (error : CandidateError)
  | validation (message : String)
deriving DecidableEq, Repr

/-- The entities that temporaries were bound to. -/
abbrev EntityMap : Type := Dict TempEntity EntityId

/-- `resolve_atom`. -/
def IntentAtom.resolve (space : ℕ) (entities : EntityMap) : IntentAtom → Except IntentRejection Atom
  | .entity e => .ok (.entity e)
  | .temporary t =>
    if t.space ≠ space then .error (.unknownTemporaryEntity t)
    else match entities.lookup t with
      | some e => .ok (.entity e)
      | none => .error (.unknownTemporaryEntity t)
  | .literal l => .ok (.literal l)

/-- `resolve_fact`. -/
def IntentFact.resolve (space : ℕ) (entities : EntityMap) (fact : IntentFact) :
    Except IntentRejection Fact := do
  let subject ← fact.subject.resolve space entities
  let object ← fact.object.resolve space entities
  pure ⟨subject, fact.predicate, object⟩

/-- The loop of `resolve_operations_from`, on the allocator and the bindings so far. -/
def resolveOperations (space : ℕ) :
    ℕ → EntityMap → List IntentOperation → Except IntentRejection (List Operation × EntityMap)
  | _, entities, [] => .ok ([], entities)
  | nextEntity, entities, .allocateEntity temporary :: ops =>
    if temporary.space ≠ space then .error (.unknownTemporaryEntity temporary)
    else do
      let (operations, entities) ← resolveOperations space (nextEntity + 1)
        (entities.insert temporary ⟨nextEntity⟩) ops
      pure (.allocateEntity ⟨nextEntity⟩ :: operations, entities)
  | nextEntity, entities, .define slot fact :: ops => do
    let fact ← fact.resolve space entities
    let (operations, entities) ← resolveOperations space nextEntity entities ops
    pure (.define slot fact :: operations, entities)
  | nextEntity, entities, .forget slot :: ops => do
    let (operations, entities) ← resolveOperations space nextEntity entities ops
    pure (.forget slot :: operations, entities)

/-- `resolve_operations_from`. -/
def resolveOperationsFrom (nextEntity space : ℕ) (ops : List IntentOperation) :
    Except IntentRejection (List Operation × EntityMap) :=
  resolveOperations space nextEntity ∅ ops

/-- `check_preconditions`, for a predecessor that resolves slots by `resolve`. -/
def checkPreconditions (predecessorId : WorldId) (resolve : SlotId → Option Fact) :
    List IntentPrecondition → Except IntentRejection Unit
  | [] => .ok ()
  | .expectedWorld expected :: rest =>
    if expected ≠ predecessorId then .error (.worldPrecondition expected predecessorId)
    else checkPreconditions predecessorId resolve rest
  | .expectedSlot slot expected :: rest =>
    let actual := resolve slot
    if actual ≠ expected then .error (.slotPrecondition slot expected actual)
    else checkPreconditions predecessorId resolve rest

end ForthDB
