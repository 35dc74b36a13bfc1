import ForthDB.Lib.NameTable
import ForthDB.Queue.Intent
import ForthDB.Vm.Instruction

/-!
# Intents as instruction streams

The admission journal stores an intent lowered to instructions over a dictionary of
the names it uses. `compileToStreamFrame` lowers, `fromStreamFrame` lifts a stream
back into an intent.

* `fromStreamFrame_compile`: **lifting undoes lowering** for an intent whose
  temporaries are its own and whose entity ids lie below the literal cells.
* The lowered form has neither the namespace of a temporary nor a mark that tells an
  entity from a literal, so outside of these intents it does not.
-/

namespace ForthDB

open NameTable

structure StreamDictionary where
  slots : List (ℕ × SlotId)
  predicates : List (ℕ × Predicate)
  literals : List (ℕ × Literal)
deriving DecidableEq, Repr

structure InstructionStreamFrame where
  version : ℕ
  space : ℕ
  dictionary : StreamDictionary
  localCount : ℕ
  instructions : List Instruction
deriving DecidableEq, Repr

namespace StreamDictionary

def empty : StreamDictionary := ⟨[], [], []⟩

/-- `slots.len() as u32`. -/
def slotNumber (n : ℕ) : ℕ := n % 2 ^ 32

def literalNumber (n : ℕ) : ℕ := literalBase + n

variable (d : StreamDictionary)

/-- `get_slot`. -/
def getSlot (slot : SlotId) : ℕ × StreamDictionary :=
  let (token, slots) := intern slotNumber d.slots slot
  (token, { d with slots := slots })

/-- `get_predicate`. -/
def getPredicate (predicate : Predicate) : ℕ × StreamDictionary :=
  let (cell, predicates) := intern id d.predicates predicate
  (cell, { d with predicates := predicates })

/-- `get_literal`. -/
def getLiteral (literal : Literal) : ℕ × StreamDictionary :=
  let (cell, literals) := intern literalNumber d.literals literal
  (cell, { d with literals := literals })

/-- Push an atom of an expected fact. -/
def pushAtom : Atom → Instruction × StreamDictionary
  | .entity e => (.push e.value, d)
  | .literal l => let (cell, d) := d.getLiteral l; (.push cell, d)

/-- Push an atom of a defined fact. -/
def pushIntentAtom : IntentAtom → Instruction × StreamDictionary
  | .entity e => (.push e.value, d)
  | .temporary t => (.loadLocal t.index, d)
  | .literal l => let (cell, d) := d.getLiteral l; (.push cell, d)

def compilePrecondition : IntentPrecondition → List Instruction × StreamDictionary
  | .expectedWorld world => ([⟨.expectObject, Instruction.worldArgument, world.value.toNat⟩], d)
  | .expectedSlot slot (some fact) =>
    let (token, d) := d.getSlot slot
    let (subject, d) := d.pushAtom fact.subject
    let (predicate, d) := d.getPredicate fact.predicate
    let (object, d) := d.pushAtom fact.object
    ([subject, .push predicate, object, .expectObject token 1], d)
  | .expectedSlot slot none =>
    let (token, d) := d.getSlot slot
    ([.expectObject token 0], d)

def compileOperation : IntentOperation → List Instruction × StreamDictionary
  | .allocateEntity temporary => ([.allocate, .storeLocal temporary.index], d)
  | .define slot fact =>
    let (token, d) := d.getSlot slot
    let (subject, d) := d.pushIntentAtom fact.subject
    let (predicate, d) := d.getPredicate fact.predicate
    let (object, d) := d.pushIntentAtom fact.object
    ([subject, .push predicate, object, .define token], d)
  | .forget slot =>
    let (token, d) := d.getSlot slot
    ([.forget token], d)

end StreamDictionary

/-- Compile a list, threading the dictionary. -/
def compileList {α : Type} (compile : StreamDictionary → α → List Instruction × StreamDictionary) :
    StreamDictionary → List α → List Instruction × StreamDictionary
  | d, [] => ([], d)
  | d, a :: as =>
    let (first, d) := compile d a
    let (rest, d) := compileList compile d as
    (first ++ rest, d)

/-- `compile_to_stream_frame`: its result is an `Ok` for every intent. -/
def QueuedIntent.compileToStreamFrame (i : QueuedIntent) : Except String InstructionStreamFrame :=
  let (expectations, d) := compileList StreamDictionary.compilePrecondition .empty i.preconditions
  let (instructions, d) := compileList StreamDictionary.compileOperation d i.operations
  .ok { version := 1, space := i.space, dictionary := d, localCount := i.nextTemporary,
        instructions := expectations ++ instructions }

/-- A value on the stack of `from_stream_frame`. -/
inductive StackVal
  | atom (atom : IntentAtom)
  | cellVal (cell : ℕ)
deriving DecidableEq, Repr

namespace StreamDictionary

variable (d : StreamDictionary)

def slotOf (token : ℕ) : Except String SlotId :=
  match lastEntry d.slots token with
  | some slot => .ok slot
  | none => .error s!"unknown slot token {token}"

/-- `resolve_atom` of `from_stream_frame`. -/
def liftAtom : StackVal → IntentAtom
  | .atom a => a
  | .cellVal c =>
    if c < literalBase then .entity ⟨c⟩
    else match lastEntry d.literals c with
      | some l => .literal l
      | none => .literal ⟨s!"lit_{c}"⟩

def liftPredicate : StackVal → Predicate
  | .cellVal c => (lastEntry d.predicates c).getD ⟨s!"pred_{c}"⟩
  | .atom (.literal l) => ⟨l.value⟩
  | .atom _ => ⟨"predicate"⟩

/-- An atom of an expected fact; a temporary becomes entity zero. -/
def liftExpectedAtom (v : StackVal) : Atom :=
  match d.liftAtom v with
  | .entity e => .entity e
  | .literal l => .literal l
  | .temporary _ => .entity ⟨0⟩

/-- One instruction of `from_stream_frame`, on the intent so far and the stack, its top first.
The source skips the store behind an allocation and ignores every other one. -/
def liftInstruction (s : QueuedIntent × List StackVal) (inst : Instruction) :
    Except String (QueuedIntent × List StackVal) :=
  match inst.opcode with
  | .allocate => .ok (s.1.entity, s.2)
  | .allocateDiscard => .ok (s.1.entity, s.2)
  | .pushCell => .ok (s.1, .cellVal inst.immediate :: s.2)
  | .loadLocal => .ok (s.1, .atom (.temporary ⟨s.1.space, inst.argument⟩) :: s.2)
  | .define =>
    match s.2 with
    | object :: predicate :: subject :: stack => do
      let slot ← d.slotOf inst.argument
      .ok (s.1.define slot ⟨d.liftAtom subject, d.liftPredicate predicate, d.liftAtom object⟩, stack)
    | _ => .ok s
  | .forget => do
    let slot ← d.slotOf inst.argument
    .ok (s.1.forget slot, s.2)
  | .expectObject =>
    if inst.argument = Instruction.worldArgument then
      .ok (s.1.expectWorld ⟨.ofNat inst.immediate⟩, s.2)
    else do
      let slot ← d.slotOf inst.argument
      if inst.immediate = 0 then .ok (s.1.expectAbsent slot, s.2)
      else match s.2 with
        | object :: predicate :: subject :: stack =>
          .ok (s.1.expectValue slot
            ⟨d.liftExpectedAtom subject, d.liftPredicate predicate, d.liftExpectedAtom object⟩, stack)
        | _ => .ok s
  | .storeLocal => .ok s
  | .reject => .ok s

def liftAll (s : QueuedIntent × List StackVal) :
    List Instruction → Except String (QueuedIntent × List StackVal)
  | [] => .ok s
  | inst :: rest =>
    match d.liftInstruction s inst with
    | .ok s' => liftAll s' rest
    | .error e => .error e

end StreamDictionary

/-- `from_stream_frame`. -/
def fromStreamFrame (frame : InstructionStreamFrame) : Except String QueuedIntent :=
  (frame.dictionary.liftAll (.new frame.space, []) frame.instructions).map Prod.fst

namespace StreamDictionary

theorem liftAll_append (d : StreamDictionary) (s : QueuedIntent × List StackVal)
    (xs ys : List Instruction) :
    d.liftAll s (xs ++ ys) =
      match d.liftAll s xs with
      | .ok s' => d.liftAll s' ys
      | .error e => .error e := by
  induction xs generalizing s with
  | nil => rfl
  | cons x xs ih =>
    simp only [List.cons_append, liftAll]
    cases d.liftInstruction s x with
    | ok s' => exact ih s'
    | error e => rfl

/-- The three tables are numbered. -/
structure Ok (d : StreamDictionary) : Prop where
  slots : Numbered slotNumber d.slots
  predicates : Numbered id d.predicates
  literals : Numbered literalNumber d.literals

/-- `d'` has the entries of `d` and perhaps more. -/
structure Extends (d d' : StreamDictionary) : Prop where
  slots : d.slots <+: d'.slots
  predicates : d.predicates <+: d'.predicates
  literals : d.literals <+: d'.literals

variable {d d' full : StreamDictionary}

theorem empty_ok : empty.Ok := ⟨numbered_nil, numbered_nil, numbered_nil⟩

theorem Extends.refl (d : StreamDictionary) : d.Extends d :=
  ⟨List.prefix_refl _, List.prefix_refl _, List.prefix_refl _⟩

theorem Extends.trans {d₁ d₂ d₃ : StreamDictionary} (h : d₁.Extends d₂) (h' : d₂.Extends d₃) :
    d₁.Extends d₃ :=
  ⟨h.slots.trans h'.slots, h.predicates.trans h'.predicates, h.literals.trans h'.literals⟩

theorem getSlot_spec (h : d.Ok) (slot : SlotId) :
    (d.getSlot slot).2.Ok ∧ d.Extends (d.getSlot slot).2 ∧
      ((d.getSlot slot).1, slot) ∈ (d.getSlot slot).2.slots := by
  obtain ⟨h1, h2, h3⟩ := intern_spec h.slots slot
  exact ⟨⟨h1, h.predicates, h.literals⟩, ⟨h2, List.prefix_refl _, List.prefix_refl _⟩, h3⟩

theorem getPredicate_spec (h : d.Ok) (predicate : Predicate) :
    (d.getPredicate predicate).2.Ok ∧ d.Extends (d.getPredicate predicate).2 ∧
      ((d.getPredicate predicate).1, predicate) ∈ (d.getPredicate predicate).2.predicates := by
  obtain ⟨h1, h2, h3⟩ := intern_spec h.predicates predicate
  exact ⟨⟨h.slots, h1, h.literals⟩, ⟨List.prefix_refl _, h2, List.prefix_refl _⟩, h3⟩

theorem getLiteral_spec (h : d.Ok) (literal : Literal) :
    (d.getLiteral literal).2.Ok ∧ d.Extends (d.getLiteral literal).2 ∧
      ((d.getLiteral literal).1, literal) ∈ (d.getLiteral literal).2.literals := by
  obtain ⟨h1, h2, h3⟩ := intern_spec h.literals literal
  exact ⟨⟨h.slots, h.predicates, h1⟩, ⟨List.prefix_refl _, List.prefix_refl _, h2⟩, h3⟩

/-- The finished dictionary has few enough slots that no token wraps or reads as a world. -/
structure Final (d : StreamDictionary) : Prop extends d.Ok where
  room : d.slots.length < 2 ^ 32

theorem slotNumber_inj {i j : ℕ} (hi : i < 2 ^ 32) (hj : j < 2 ^ 32)
    (h : slotNumber i = slotNumber j) : i = j := by
  unfold slotNumber at h; omega

namespace Final

theorem slotOf_eq (h : full.Final) {token : ℕ} {slot : SlotId} (hm : (token, slot) ∈ full.slots) :
    full.slotOf token = .ok slot := by
  have hroom := h.room
  unfold slotOf
  rw [lastEntry_of_mem h.slots (fun i j hi hj => slotNumber_inj (by omega) (by omega)) hm]

theorem slot_ne_world (h : full.Final) {token : ℕ} {slot : SlotId}
    (hm : (token, slot) ∈ full.slots) : token ≠ Instruction.worldArgument := by
  have hroom := h.room
  obtain ⟨i, hi, rfl⟩ := number_of_mem h.slots hm
  unfold slotNumber Instruction.worldArgument
  omega

theorem predicate_eq (h : full.Final) {cell : ℕ} {predicate : Predicate}
    (hm : (cell, predicate) ∈ full.predicates) :
    full.liftPredicate (.cellVal cell) = predicate := by
  unfold liftPredicate
  simp only
  rw [lastEntry_of_mem h.predicates (fun i j _ _ hij => hij) hm]
  rfl

theorem literal_eq (h : full.Final) {cell : ℕ} {literal : Literal}
    (hm : (cell, literal) ∈ full.literals) :
    full.liftAtom (.cellVal cell) = .literal literal := by
  obtain ⟨i, -, rfl⟩ := number_of_mem h.literals hm
  have hinj : ∀ i j, i < full.literals.length → j < full.literals.length →
      literalNumber i = literalNumber j → i = j := by
    intro i j _ _ hij
    unfold literalNumber at hij
    omega
  unfold liftAtom
  simp only
  rw [if_neg (by unfold literalNumber; omega), lastEntry_of_mem h.literals hinj hm]

end Final

end StreamDictionary

/-- The atom survives lowering in an intent of the given namespace. A temporary's index is a
`u32` by its type. -/
def IntentAtom.Liftable (space : ℕ) : IntentAtom → Prop
  | .entity e => e.value < literalBase
  | .temporary t => t.space = space ∧ t.index < 2 ^ 32
  | .literal _ => True

def IntentPrecondition.Liftable : IntentPrecondition → Prop
  | .expectedWorld _ => True
  | .expectedSlot _ (some fact) => fact.subject.InVmRange ∧ fact.object.InVmRange
  | .expectedSlot _ none => True

def IntentOperation.Liftable (space : ℕ) : IntentOperation → Prop
  | .allocateEntity _ => True
  | .define _ fact => fact.subject.Liftable space ∧ fact.object.Liftable space
  | .forget _ => True

/-- Every temporary is the intent's own, and every entity id lies below the literal cells. -/
structure QueuedIntent.Liftable (i : QueuedIntent) : Prop where
  preconditions : ∀ p ∈ i.preconditions, p.Liftable
  operations : ∀ op ∈ i.operations, op.Liftable i.space

/-- What lifting does for one operation. -/
def QueuedIntent.perform (i : QueuedIntent) : IntentOperation → QueuedIntent
  | .allocateEntity _ => i.entity
  | .define slot fact => i.define slot fact
  | .forget slot => i.forget slot

@[simp] theorem QueuedIntent.perform_space (i : QueuedIntent) (op : IntentOperation) :
    (i.perform op).space = i.space := by cases op <;> rfl

/-- Performing operations that number their temporaries consecutively appends them. -/
theorem QueuedIntent.foldl_perform (i : QueuedIntent) {ops : List IntentOperation} {k : ℕ}
    (h : allocations ops = (List.range' i.nextTemporary k).map (TempEntity.mk i.space)) :
    ops.foldl QueuedIntent.perform i =
      { i with nextTemporary := i.nextTemporary + k, operations := i.operations ++ ops } := by
  induction ops generalizing i k with
  | nil =>
    have hk : k = 0 := by simpa [allocations] using h
    subst hk
    simp
  | cons op ops ih =>
    rw [List.foldl_cons]
    cases op with
    | allocateEntity t =>
      cases k with
      | zero => simp [allocations] at h
      | succ k =>
        rw [List.range'_succ, List.map_cons] at h
        obtain ⟨ht, h'⟩ : t = ⟨i.space, i.nextTemporary⟩ ∧ allocations ops =
            (List.range' (i.nextTemporary + 1) k).map (TempEntity.mk i.space) := by
          simpa [allocations] using h
        subst ht
        rw [show i.perform (.allocateEntity ⟨i.space, i.nextTemporary⟩) = i.entity from rfl,
          ih i.entity h']
        simp [QueuedIntent.entity, Nat.add_assoc, Nat.add_comm k 1]
    | define slot fact =>
      rw [show i.perform (.define slot fact) = i.define slot fact from rfl,
        ih (i.define slot fact) (by simpa [allocations, QueuedIntent.define] using h)]
      simp [QueuedIntent.define]
    | forget slot =>
      rw [show i.perform (.forget slot) = i.forget slot from rfl,
        ih (i.forget slot) (by simpa [allocations, QueuedIntent.forget] using h)]
      simp [QueuedIntent.forget]

namespace StreamDictionary

variable {d full : StreamDictionary}

theorem liftInstruction_push (s : QueuedIntent × List StackVal) (cell : ℕ) :
    full.liftInstruction s (.push cell) = .ok (s.1, .cellVal cell :: s.2) := rfl

theorem liftInstruction_expectAbsent {token : ℕ} {slot : SlotId} (hs : full.slotOf token = .ok slot)
    (hw : token ≠ Instruction.worldArgument) (i : QueuedIntent) (stack : List StackVal) :
    full.liftInstruction (i, stack) (.expectObject token 0) = .ok (i.expectAbsent slot, stack) := by
  simp [liftInstruction, Instruction.expectObject, hw, hs, bind, Except.bind]

theorem liftInstruction_expectValue {token : ℕ} {slot : SlotId} (hs : full.slotOf token = .ok slot)
    (hw : token ≠ Instruction.worldArgument) (i : QueuedIntent) (object predicate subject : StackVal)
    (stack : List StackVal) :
    full.liftInstruction (i, object :: predicate :: subject :: stack) (.expectObject token 1) =
      .ok (i.expectValue slot ⟨full.liftExpectedAtom subject, full.liftPredicate predicate,
        full.liftExpectedAtom object⟩, stack) := by
  simp [liftInstruction, Instruction.expectObject, hw, hs, bind, Except.bind]

theorem liftInstruction_define {token : ℕ} {slot : SlotId} (hs : full.slotOf token = .ok slot)
    (i : QueuedIntent) (object predicate subject : StackVal) (stack : List StackVal) :
    full.liftInstruction (i, object :: predicate :: subject :: stack) (.define token) =
      .ok (i.define slot ⟨full.liftAtom subject, full.liftPredicate predicate,
        full.liftAtom object⟩, stack) := by
  simp [liftInstruction, Instruction.define, hs, bind, Except.bind]

theorem liftInstruction_forget {token : ℕ} {slot : SlotId} (hs : full.slotOf token = .ok slot)
    (i : QueuedIntent) (stack : List StackVal) :
    full.liftInstruction (i, stack) (.forget token) = .ok (i.forget slot, stack) := by
  simp [liftInstruction, Instruction.forget, hs, bind, Except.bind]

theorem pushAtom_spec (h : d.Ok) (a : Atom) :
    (d.pushAtom a).2.Ok ∧ d.Extends (d.pushAtom a).2 ∧
      (full.Final → (d.pushAtom a).2.Extends full → a.InVmRange → ∃ v, full.liftExpectedAtom v = a ∧
        ∀ s, full.liftInstruction s (d.pushAtom a).1 = .ok (s.1, v :: s.2)) := by
  cases a with
  | entity e =>
    refine ⟨h, .refl d, fun _ _ ha => ⟨.cellVal e.value, ?_, fun _ => rfl⟩⟩
    simp only [liftExpectedAtom, liftAtom, if_pos (show e.value < literalBase from ha)]
  | literal l =>
    obtain ⟨h1, h2, h3⟩ := getLiteral_spec h l
    refine ⟨h1, h2, fun hf he _ => ⟨.cellVal (d.getLiteral l).1, ?_, fun _ => rfl⟩⟩
    simp only [liftExpectedAtom, hf.literal_eq (he.literals.mem h3)]

theorem pushIntentAtom_spec (h : d.Ok) (a : IntentAtom) :
    (d.pushIntentAtom a).2.Ok ∧ d.Extends (d.pushIntentAtom a).2 ∧
      (full.Final → (d.pushIntentAtom a).2.Extends full → ∀ i : QueuedIntent, a.Liftable i.space →
        ∃ v, full.liftAtom v = a ∧
          ∀ stack, full.liftInstruction (i, stack) (d.pushIntentAtom a).1 = .ok (i, v :: stack)) := by
  cases a with
  | entity e =>
    refine ⟨h, .refl d, fun _ _ i ha => ⟨.cellVal e.value, ?_, fun _ => rfl⟩⟩
    simp only [liftAtom, if_pos (show e.value < literalBase from ha)]
  | temporary t =>
    refine ⟨h, .refl d, fun _ _ i ha => ⟨.atom (.temporary t), rfl, fun stack => ?_⟩⟩
    have ht : (⟨i.space, t.index⟩ : TempEntity) = t := by
      rw [← show t.space = i.space from ha.1]
    show Except.ok (i, StackVal.atom (.temporary ⟨i.space, t.index⟩) :: stack) = _
    rw [ht]
  | literal l =>
    obtain ⟨h1, h2, h3⟩ := getLiteral_spec h l
    exact ⟨h1, h2, fun hf he i _ =>
      ⟨.cellVal (d.getLiteral l).1, hf.literal_eq (he.literals.mem h3), fun _ => rfl⟩⟩

/-- **One precondition** is lifted from its instructions. -/
theorem compilePrecondition_spec (h : d.Ok) (p : IntentPrecondition) :
    (d.compilePrecondition p).2.Ok ∧ d.Extends (d.compilePrecondition p).2 ∧
      (full.Final → (d.compilePrecondition p).2.Extends full → p.Liftable →
        ∀ i stack, full.liftAll (i, stack) (d.compilePrecondition p).1 =
          .ok ({ i with preconditions := i.preconditions ++ [p] }, stack)) := by
  cases p with
  | expectedWorld world =>
    refine ⟨h, .refl d, fun _ _ _ i stack => ?_⟩
    simp [compilePrecondition, liftAll, liftInstruction, QueuedIntent.expectWorld]
  | expectedSlot slot expected =>
    obtain ⟨h1, e1, m1⟩ := getSlot_spec h slot
    cases expected with
    | none =>
      refine ⟨h1, e1, fun hf he _ i stack => ?_⟩
      have hm := he.slots.mem m1
      show full.liftAll (i, stack) [.expectObject (d.getSlot slot).1 0] = _
      simp only [liftAll, liftInstruction_expectAbsent (hf.slotOf_eq hm) (hf.slot_ne_world hm)]
      rfl
    | some fact =>
      obtain ⟨h2, e2, l2⟩ := @pushAtom_spec _ full h1 fact.subject
      obtain ⟨h3, e3, m3⟩ := getPredicate_spec h2 fact.predicate
      obtain ⟨h4, e4, l4⟩ := @pushAtom_spec _ full h3 fact.object
      refine ⟨h4, e1.trans (e2.trans (e3.trans e4)), fun hf he hl i stack => ?_⟩
      have he3 := e4.trans he
      have he2 := e3.trans he3
      have hm := (e2.trans he2).slots.mem m1
      obtain ⟨v2, hv2, l2⟩ := l2 hf he2 hl.1
      obtain ⟨v4, hv4, l4⟩ := l4 hf he hl.2
      have hp := hf.predicate_eq (he3.predicates.mem m3)
      simp only [compilePrecondition, liftAll, l2, l4, liftInstruction_push,
        liftInstruction_expectValue (hf.slotOf_eq hm) (hf.slot_ne_world hm), hv2, hv4, hp]
      rfl

/-- **One operation** is lifted from its instructions. -/
theorem compileOperation_spec (h : d.Ok) (op : IntentOperation) :
    (d.compileOperation op).2.Ok ∧ d.Extends (d.compileOperation op).2 ∧
      (full.Final → (d.compileOperation op).2.Extends full → ∀ i : QueuedIntent,
        op.Liftable i.space → ∀ stack,
          full.liftAll (i, stack) (d.compileOperation op).1 = .ok (i.perform op, stack)) := by
  cases op with
  | allocateEntity t => exact ⟨h, .refl d, fun _ _ i _ stack => rfl⟩
  | define slot fact =>
    obtain ⟨h1, e1, m1⟩ := getSlot_spec h slot
    obtain ⟨h2, e2, l2⟩ := @pushIntentAtom_spec _ full h1 fact.subject
    obtain ⟨h3, e3, m3⟩ := getPredicate_spec h2 fact.predicate
    obtain ⟨h4, e4, l4⟩ := @pushIntentAtom_spec _ full h3 fact.object
    refine ⟨h4, e1.trans (e2.trans (e3.trans e4)), fun hf he i hl stack => ?_⟩
    have he3 := e4.trans he
    have he2 := e3.trans he3
    have hm := (e2.trans he2).slots.mem m1
    obtain ⟨v2, hv2, l2⟩ := l2 hf he2 i hl.1
    obtain ⟨v4, hv4, l4⟩ := l4 hf he i hl.2
    have hp := hf.predicate_eq (he3.predicates.mem m3)
    simp only [compileOperation, liftAll, l2, l4, liftInstruction_push,
      liftInstruction_define (hf.slotOf_eq hm), hv2, hv4, hp]
    rfl
  | forget slot =>
    obtain ⟨h1, e1, m1⟩ := getSlot_spec h slot
    refine ⟨h1, e1, fun hf he i _ stack => ?_⟩
    show full.liftAll (i, stack) [.forget (d.getSlot slot).1] = _
    simp only [liftAll, liftInstruction_forget (hf.slotOf_eq (he.slots.mem m1))]
    rfl

theorem compilePreconditions_spec (h : d.Ok) (ps : List IntentPrecondition) :
    (compileList compilePrecondition d ps).2.Ok ∧
      d.Extends (compileList compilePrecondition d ps).2 ∧
      (full.Final → (compileList compilePrecondition d ps).2.Extends full →
        (∀ p ∈ ps, p.Liftable) → ∀ i stack,
          full.liftAll (i, stack) (compileList compilePrecondition d ps).1 =
            .ok ({ i with preconditions := i.preconditions ++ ps }, stack)) := by
  induction ps generalizing d with
  | nil => exact ⟨h, .refl d, fun _ _ _ i stack => by simp [compileList, liftAll]⟩
  | cons p ps ih =>
    obtain ⟨h1, e1, l1⟩ := @compilePrecondition_spec _ full h p
    obtain ⟨h2, e2, l2⟩ := ih h1
    refine ⟨h2, e1.trans e2, fun hf he hl i stack => ?_⟩
    simp only [compileList, liftAll_append]
    rw [l1 hf (e2.trans he) (hl p (by simp))]
    simp only
    rw [l2 hf he fun q hq => hl q (by simp [hq])]
    simp

theorem compileOperations_spec (h : d.Ok) (ops : List IntentOperation) :
    (compileList compileOperation d ops).2.Ok ∧ d.Extends (compileList compileOperation d ops).2 ∧
      (full.Final → (compileList compileOperation d ops).2.Extends full → ∀ i : QueuedIntent,
        (∀ op ∈ ops, op.Liftable i.space) → ∀ stack,
          full.liftAll (i, stack) (compileList compileOperation d ops).1 =
            .ok (ops.foldl QueuedIntent.perform i, stack)) := by
  induction ops generalizing d with
  | nil => exact ⟨h, .refl d, fun _ _ i _ stack => rfl⟩
  | cons op ops ih =>
    obtain ⟨h1, e1, l1⟩ := @compileOperation_spec _ full h op
    obtain ⟨h2, e2, l2⟩ := ih h1
    refine ⟨h2, e1.trans e2, fun hf he i hl stack => ?_⟩
    simp only [compileList, liftAll_append]
    rw [l1 hf (e2.trans he) i (hl op (by simp))]
    simp only
    rw [l2 hf he (i.perform op) fun o ho => by simpa using hl o (by simp [ho])]
    rfl

end StreamDictionary

open StreamDictionary

/-- **Lifting undoes lowering.** -/
theorem fromStreamFrame_compile {i : QueuedIntent} {frame : InstructionStreamFrame} (hb : i.Built)
    (hl : i.Liftable) (hf : i.compileToStreamFrame = .ok frame)
    (hroom : frame.dictionary.slots.length < 2 ^ 32) : fromStreamFrame frame = .ok i := by
  set pre := compileList compilePrecondition .empty i.preconditions with hpre
  set ops := compileList compileOperation pre.2 i.operations with hops
  have hframe : frame = ⟨1, i.space, ops.2, i.nextTemporary, pre.1 ++ ops.1⟩ :=
    (Except.ok.inj hf).symm
  subst hframe
  obtain ⟨h1, -, l1⟩ := @compilePreconditions_spec _ ops.2 empty_ok i.preconditions
  rw [← hpre] at h1 l1
  obtain ⟨h2, e2, l2⟩ := @compileOperations_spec _ ops.2 h1 i.operations
  rw [← hops] at h2 e2 l2
  have hfinal : ops.2.Final := ⟨h2, hroom⟩
  obtain ⟨halloc, -⟩ := hb.allocations_eq
  have hstart : ops.2.liftAll (.new i.space, []) pre.1 =
      .ok (⟨i.space, 0, i.preconditions, []⟩, []) := l1 hfinal e2 hl.preconditions _ _
  have hrest : ops.2.liftAll (⟨i.space, 0, i.preconditions, []⟩, []) ops.1 = .ok (i, []) := by
    rw [l2 hfinal (.refl _) ⟨i.space, 0, i.preconditions, []⟩ hl.operations,
      QueuedIntent.foldl_perform (k := i.nextTemporary) _
        (by rw [halloc, List.range_eq_range'])]
    simp
  unfold fromStreamFrame
  simp only [liftAll_append, hstart, hrest]
  rfl

end ForthDB
