import ForthDB.Queue.TransactionAst
import ForthDB.Vm.Materializer

/-!
# Trial vocabularies

A semantic intent is compiled against dictionaries of its own, laid over those of the
materializer: `commit` merges them after the program was accepted, a rejected program
drops them. Only the heads that new slots were given stay.

Where a function both panics and returns an `Err`, the outer `Except` is the panic.
-/

namespace ForthDB

structure TrialVocabulary where
  materializer : VmEpochMaterializer
  slots : Dict SlotId ℕ
  predicates : Dict Predicate ℕ
  literals : Dict Literal ℕ

namespace TrialVocabulary

def new (materializer : VmEpochMaterializer) : TrialVocabulary := ⟨materializer, ∅, ∅, ∅⟩

variable (t : TrialVocabulary)

/-- `commit`: the values are appended in the order of the trial's maps. -/
def commit : VmEpochMaterializer :=
  let slots := t.slots.sorted SlotId.value
  let predicates := t.predicates.sorted Predicate.value
  let literals := t.literals.sorted Literal.value
  { t.materializer with
    slots := t.materializer.slots.insertAll slots
    predicates := t.materializer.predicates.insertAll predicates
    predicateValues := t.materializer.predicateValues ++ predicates.map Prod.fst
    literals := t.materializer.literals.insertAll literals
    literalValues := t.materializer.literalValues ++ literals.map Prod.fst }

/-- `slot_token`, and the trial after it. The token is a `u32`. -/
def slotToken (slot : SlotId) : ℕ × TrialVocabulary :=
  match t.slots.lookup slot with
  | some token => (token, t)
  | none =>
    match t.materializer.slots.lookup slot with
    | some token => (token, t)
    | none =>
      match t.materializer.mappedBase.bind fun base => base.slotToken slot with
      | some token => (token, t)
      | none =>
        let totalSlots := t.materializer.baseSlotCount + t.materializer.slots.size + t.slots.size
        let token := totalSlots % 2 ^ 32
        (token, { t with
          slots := t.slots.insert slot token
          materializer := { t.materializer with
            workspace := t.materializer.workspace.ensureSlotCount (totalSlots + 1) } })

/-- `predicate_cell`. -/
def predicateCell (predicate : Predicate) : ℕ × TrialVocabulary :=
  match t.predicates.lookup predicate with
  | some cell => (cell, t)
  | none =>
    match t.materializer.predicates.lookup predicate with
    | some cell => (cell, t)
    | none =>
      match t.materializer.mappedBase.bind fun base => base.predicateToken predicate with
      | some token => (token, t)
      | none =>
        let cell := t.materializer.basePredicateCount + t.materializer.predicates.size +
          t.predicates.size
        (cell, { t with predicates := t.predicates.insert predicate cell })

/-- `literal_cell`: an `error` is a panic. -/
def literalCell (literal : Literal) : Except String (ℕ × TrialVocabulary) :=
  match t.literals.lookup literal with
  | some cell => .ok (cell, t)
  | none =>
    match t.materializer.literals.lookup literal with
    | some cell => .ok (cell, t)
    | none =>
      match t.materializer.mappedBase.bind fun base => base.literalToken literal with
      | some token => .ok (literalBase + token, t)
      | none =>
        let cell := literalBase + (t.materializer.baseLiteralCount +
          t.materializer.literalValues.length + t.literals.size)
        if cell < 2 ^ 64 then .ok (cell, { t with literals := t.literals.insert literal cell })
        else .error "VM literal token overflow"

end TrialVocabulary

/-- What `compile_semantic_trial` works on. -/
structure SemanticCompiler where
  trial : TrialVocabulary
  bindings : Dict String EntityId
  localEntityCount : ℕ

namespace SemanticCompiler

variable (c : SemanticCompiler)

/-- The cell of an operand. An entity is not checked against the literal cells. -/
def atomCell : AtomRef → Except String (Except String ℕ × SemanticCompiler)
  | .entity e => .ok (.ok e.value, c)
  | .literal l =>
    (c.trial.literalCell ⟨l⟩).map fun (cell, trial) => (.ok cell, { c with trial := trial })
  | .symbol s =>
    match c.bindings.lookup s with
    | some e => .ok (.ok e.value, c)
    | none => .ok (.error s!"use of undefined symbol '{s}'", c)

/-- One operation of `compile_semantic_trial`. -/
def operation : TransactionOp → Except String (Except String (List Instruction) × SemanticCompiler)
  | .allocate result =>
    if (c.bindings.lookup result).isSome then
      .ok (.error s!"duplicate allocation for symbol '{result}'", c)
    else
      let entity := c.trial.materializer.workspace.nextEntity + c.localEntityCount
      if entity ≥ literalBase then
        .ok (.error "entity allocator exhausted the VM atom namespace", c)
      else .ok (.ok [.allocateDiscard], { c with
        bindings := c.bindings.insert result ⟨entity⟩
        localEntityCount := c.localEntityCount + 1 })
  | .expectWorld _ => .ok (.ok [], c)
  | .expectObject slot expected =>
    let (slot, trial) := c.trial.slotToken ⟨slot⟩
    match { c with trial := trial }.atomCell expected with
    | .error message => .error message
    | .ok (.error e, c) => .ok (.error e, c)
    | .ok (.ok expected, c) => .ok (.ok [.expectObject slot expected], c)
  | .define slot subject predicate object =>
    let (slot, trial) := c.trial.slotToken ⟨slot⟩
    match { c with trial := trial }.atomCell subject with
    | .error message => .error message
    | .ok (.error e, c) => .ok (.error e, c)
    | .ok (.ok subject, c) =>
      let (predicate, trial) := c.trial.predicateCell ⟨predicate⟩
      match { c with trial := trial }.atomCell object with
      | .error message => .error message
      | .ok (.error e, c) => .ok (.error e, c)
      | .ok (.ok object, c) =>
        .ok (.ok [.push subject, .push predicate, .push object, .define slot], c)
  | .forget slot =>
    let (slot, trial) := c.trial.slotToken ⟨slot⟩
    .ok (.ok [.forget slot], { c with trial := trial })
  | .reject => .ok (.ok [.reject], c)

def operations (c : SemanticCompiler) :
    List TransactionOp → Except String (Except String (List Instruction) × SemanticCompiler)
  | [] => .ok (.ok [], c)
  | op :: ops =>
    match c.operation op with
    | .error message => .error message
    | .ok (.error e, c) => .ok (.error e, c)
    | .ok (.ok instructions, c) =>
      match operations c ops with
      | .error message => .error message
      | .ok (.error e, c) => .ok (.error e, c)
      | .ok (.ok rest, c) => .ok (.ok (instructions ++ rest), c)

end SemanticCompiler

/-- `compile_semantic_trial`: the result, and what the compiler has bound and interned. -/
def TrialVocabulary.compileSemanticTrial (t : TrialVocabulary) (ops : List TransactionOp) :
    Except String (Except String (List Instruction) × SemanticCompiler) :=
  SemanticCompiler.operations ⟨t, ∅, 0⟩ ops

end ForthDB
