import ForthDB.Python.TransactionAst
import Mathlib.Data.Set.List
import Mathlib.Tactic.IntervalCases

/-!
# Compiling transactions in Python

`TransactionBuilder` of `forthdb_compiler.py`: each call numbers the names it meets and appends
instructions for the machine of `execute_isa_frame`. In the meaning of a program the same calls act
on the kernel at once, with the allocated entities at hand.

* `TransactionBuilder.call`, `TransactionBuilder.compileBytes`: an `error` is an exception.
* `DirectRun.step`, `directRun`: what the calls mean.
* `Scoped`: entities are numbered below the literals, and a temporary is used behind its allocation.
* `compile_correct`: **the compiled bytes, decoded and executed, do what the calls mean**.
-/

namespace ForthDB

open Bytes Decode NameTable

/-! ## The builder -/

/-- `AtomRef`, and the values that are taken besides. -/
inductive PythonAtomRef
  | entityRef (value : ℕ)
  | tempEntity (space index : ℕ)
  | literalRef (value : String)
  | str (value : String)
  | int (value : ℕ)
deriving DecidableEq

inductive BuilderCall
  | allocate
  | define (slot : String) (subject : PythonAtomRef) (predicate : String) (object : PythonAtomRef)
  | forget (slot : String)
  | expectObject (slot : String) (expected : PythonAtomRef)

/-- The dictionary holds the tables; a `dict` beside each finds the names in it. -/
structure TransactionBuilder where
  space : ℕ
  nextLocal : ℕ
  dictionary : StreamDictionary
  instructions : List PythonInstruction

namespace TransactionBuilder

/-- `TransactionBuilder(compiler)`, in the namespace that the compiler gives it. -/
def new (space : ℕ) : TransactionBuilder := ⟨space, 0, ⟨[], [], []⟩, []⟩

variable (b : TransactionBuilder)

def emit (instructions : List PythonInstruction) : TransactionBuilder :=
  { b with instructions := b.instructions ++ instructions }

def getSlot (slot : String) : ℕ × TransactionBuilder :=
  let (token, slots) := intern id b.dictionary.slots ⟨slot⟩
  (token, { b with dictionary := { b.dictionary with slots := slots } })

def getPredicate (predicate : String) : ℕ × TransactionBuilder :=
  let (cell, predicates) := intern id b.dictionary.predicates ⟨predicate⟩
  (cell, { b with dictionary := { b.dictionary with predicates := predicates } })

def getLiteral (literal : String) : ℕ × TransactionBuilder :=
  let (cell, literals) := intern (literalBase + ·) b.dictionary.literals ⟨literal⟩
  (cell, { b with dictionary := { b.dictionary with literals := literals } })

def allocate : TransactionBuilder :=
  { b with nextLocal := b.nextLocal + 1 }.emit
    [⟨PythonOpcode.allocate, 0, 0⟩, ⟨PythonOpcode.storeLocal, b.nextLocal, 0⟩]

def pushAtom : PythonAtomRef → TransactionBuilder
  | .entityRef value => b.emit [⟨PythonOpcode.pushCell, 0, value⟩]
  | .tempEntity _ index => b.emit [⟨PythonOpcode.loadLocal, index, 0⟩]
  | .literalRef value =>
    let (cell, b) := b.getLiteral value
    b.emit [⟨PythonOpcode.pushCell, 0, cell⟩]
  | .str value =>
    let (cell, b) := b.getLiteral value
    b.emit [⟨PythonOpcode.pushCell, 0, cell⟩]
  | .int value => b.emit [⟨PythonOpcode.pushCell, 0, value⟩]

def define (slot : String) (subject : PythonAtomRef) (predicate : String)
    (object : PythonAtomRef) : TransactionBuilder :=
  let (token, b) := b.getSlot slot
  let b := b.pushAtom subject
  let (cell, b) := b.getPredicate predicate
  let b := b.emit [⟨PythonOpcode.pushCell, 0, cell⟩]
  let b := b.pushAtom object
  b.emit [⟨PythonOpcode.define, token, 0⟩]

def forget (slot : String) : TransactionBuilder :=
  let (token, b) := b.getSlot slot
  b.emit [⟨PythonOpcode.forget, token, 0⟩]

/-- The cell of an expected object. -/
def expectedCell : PythonAtomRef → Except String (ℕ × TransactionBuilder)
  | .literalRef value => .ok (b.getLiteral value)
  | .str value => .ok (b.getLiteral value)
  | .entityRef value => .ok (value, b)
  | .int value => .ok (value, b)
  | .tempEntity _ _ =>
    .error "TypeError: unsupported expected reference type: <class 'forthdb_compiler.TempEntity'>"

def expectObject (slot : String) (expected : PythonAtomRef) : Except String TransactionBuilder := do
  let (token, b) := b.getSlot slot
  let (cell, b) ← b.expectedCell expected
  pure (b.emit [⟨PythonOpcode.expectObject, token, cell⟩])

def call : BuilderCall → Except String TransactionBuilder
  | .allocate => .ok b.allocate
  | .define slot subject predicate object => .ok (b.define slot subject predicate object)
  | .forget slot => .ok (b.forget slot)
  | .expectObject slot expected => b.expectObject slot expected

/-- The calls of a program, in order. -/
def calls (b : TransactionBuilder) : List BuilderCall → Except String TransactionBuilder
  | [] => .ok b
  | c :: rest => do
    let b ← b.call c
    calls b rest

def buildFrame : PythonCodecFrame where
  version := 1
  space := b.space
  dictionary := b.dictionary
  localCount := b.nextLocal
  instructions := b.instructions

def compileBytes : Except String (List UInt8) := b.buildFrame.encode

end TransactionBuilder

/-! ## What the calls mean -/

/-- The kernel, the records that were appended, and the entities that were allocated. -/
structure DirectRun where
  kernel : PythonForthDb
  records : List Record
  temps : List EntityId

namespace DirectRun

variable (r : DirectRun)

/-- The atom of an operand. A temporary is known by its index. -/
def atom : PythonAtomRef → Option Atom
  | .entityRef value => some (.entity ⟨value⟩)
  | .int value => some (.entity ⟨value⟩)
  | .literalRef value => some (.literal ⟨value⟩)
  | .str value => some (.literal ⟨value⟩)
  | .tempEntity _ index => r.temps[index]?.map .entity

/-- The slot holds a fact with this object. -/
def expect (slot : String) (object : Option Atom) : Except String Unit := do
  match ← r.kernel.resolve ⟨slot⟩ with
  | none => .error s!"ConstraintViolation: precondition failed: slot {slot} is empty"
  | some actual =>
    if some actual.object = object then .ok ()
    else .error s!"ConstraintViolation: precondition failed on slot {slot}"

def step : BuilderCall → Except String DirectRun
  | .allocate =>
    let (entity, kernel) := r.kernel.entity
    .ok { r with kernel := kernel, temps := r.temps ++ [entity] }
  | .define slot subject predicate object =>
    match r.atom subject, r.atom object with
    | some subject, some object => do
      let (record, kernel) ← r.kernel.define ⟨slot⟩ ⟨subject, ⟨predicate⟩, object⟩
      pure { r with kernel := kernel, records := r.records ++ [record] }
    | _, _ => .error "TypeError: cannot resolve atom from: None"
  | .forget slot => do
    let (record, kernel) ← r.kernel.forget ⟨slot⟩
    pure { r with kernel := kernel, records := r.records ++ [record] }
  | .expectObject slot expected => do
    r.expect slot (r.atom expected)
    pure r

end DirectRun

/-- The records or the exception, and the kernel that is left. -/
def directRun : List BuilderCall → DirectRun → Except String (List Record) × PythonForthDb
  | [], r => (.ok r.records, r.kernel)
  | c :: rest, r =>
    match r.step c with
    | .ok r => directRun rest r
    | .error e => (.error e, r.kernel)

/-! ## Scoped programs -/

/-- An operand behind `n` allocations: an entity is numbered below the literals. -/
def PythonAtomRef.Scoped (n : ℕ) : PythonAtomRef → Prop
  | .entityRef value => value < literalBase
  | .int value => value < literalBase
  | .tempEntity _ index => index < n
  | _ => True

/-- An object that may be expected: no temporary, and not the entity 0, which stands for every
literal without a number. -/
def PythonAtomRef.Expectable : PythonAtomRef → Prop
  | .entityRef value => 0 < value ∧ value < literalBase
  | .int value => 0 < value ∧ value < literalBase
  | .tempEntity _ _ => False
  | _ => True

def BuilderCall.Scoped (n : ℕ) : BuilderCall → Prop
  | .define _ subject _ object => subject.Scoped n ∧ object.Scoped n
  | .expectObject _ expected => expected.Expectable
  | _ => True

def BuilderCall.allocations : BuilderCall → ℕ
  | .allocate => 1
  | _ => 0

def ScopedCalls (n : ℕ) : List BuilderCall → Prop
  | [] => True
  | c :: rest => c.Scoped n ∧ ScopedCalls (n + c.allocations) rest

/-- The objects of a kernel are numbered below the literals, and so are the next entities. -/
structure BelowLiterals (k : ForthDb) (n : ℕ) : Prop where
  objects : ∀ r ∈ k.store.log, ∀ f, r.fact = some f → ∀ e, f.object = .entity e →
    e.value < literalBase
  allocator : k.nextEntity + n ≤ literalBase

/-! ## Tables -/

/-- Every table is numbered in order. -/
structure StreamDictionary.Numbers (d : StreamDictionary) : Prop where
  slots : Numbered id d.slots
  predicates : Numbered id d.predicates
  literals : Numbered (literalBase + ·) d.literals

/-- Tables only grow. -/
structure StreamDictionary.Within (d d' : StreamDictionary) : Prop where
  slots : d.slots <+: d'.slots
  predicates : d.predicates <+: d'.predicates
  literals : d.literals <+: d'.literals

theorem StreamDictionary.Within.refl (d : StreamDictionary) : d.Within d :=
  ⟨List.prefix_rfl, List.prefix_rfl, List.prefix_rfl⟩

theorem StreamDictionary.Within.trans {d d' d'' : StreamDictionary} (h : d.Within d')
    (h' : d'.Within d'') : d.Within d'' :=
  ⟨h.slots.trans h'.slots, h.predicates.trans h'.predicates, h.literals.trans h'.literals⟩

namespace StreamDictionary

variable {d : StreamDictionary}

theorem Numbers.slotAt (h : d.Numbers) {token : ℕ} {slot : SlotId} (hm : (token, slot) ∈ d.slots) :
    d.slotAt token = .ok slot :=
  slotAt_eq (lastEntry_of_mem h.slots (fun _ _ _ _ hij => hij) hm)

theorem Numbers.predicate (h : d.Numbers) {cell : ℕ} {predicate : Predicate}
    (hm : (cell, predicate) ∈ d.predicates) : d.resolvePredicate (.int cell) = predicate := by
  unfold resolvePredicate
  simp only
  rw [lastEntry_of_mem h.predicates (fun _ _ _ _ hij => hij) hm]
  rfl

theorem Numbers.literal (h : d.Numbers) {cell : ℕ} {literal : Literal}
    (hm : (cell, literal) ∈ d.literals) :
    literalBase ≤ cell ∧ lastEntry d.literals cell = some literal := by
  obtain ⟨i, -, rfl⟩ := number_of_mem h.literals hm
  exact ⟨Nat.le_add_right _ _,
    lastEntry_of_mem h.literals (fun i j _ _ hij => Nat.add_left_cancel hij) hm⟩

theorem resolveAtom_entity {n : ℕ} (h : n < literalBase) :
    d.resolveAtom (.int n) = .ok (.entity ⟨n⟩) := by
  unfold resolveAtom
  simp only
  rw [if_pos h]

theorem Numbers.resolveAtom_literal (h : d.Numbers) {cell : ℕ} {literal : Literal}
    (hm : (cell, literal) ∈ d.literals) : d.resolveAtom (.int cell) = .ok (.literal literal) := by
  obtain ⟨hbase, hentry⟩ := h.literal hm
  unfold resolveAtom
  simp only
  rw [if_neg (by omega), hentry]

/-- No entity is numbered as a literal. -/
theorem Numbers.lastEntry_entity (h : d.Numbers) {n : ℕ} (hn : n < literalBase) :
    lastEntry d.literals n = none := by
  apply lastEntry_eq_none
  intro e he heq
  obtain ⟨hbase, -⟩ := @Numbers.literal _ h e.1 e.2 he
  omega

/-- The cell of a literal is its number, or 0. -/
theorem Numbers.objectCell_literal (h : d.Numbers) (literal : Literal) :
    (d.objectCell (.literal literal), literal) ∈ d.literals ∨
      d.objectCell (.literal literal) = 0 ∧ ∀ cell, (cell, literal) ∉ d.literals := by
  unfold objectCell
  simp only
  cases hfind : (d.literals.map Prod.fst).find?
      fun cell => lastEntry d.literals cell = some literal with
  | none =>
    right
    refine ⟨rfl, ?_⟩
    intro cell hm
    have hnone := List.find?_eq_none.1 hfind cell (List.mem_map_of_mem (f := Prod.fst) hm)
    exact hnone (by simpa using (h.literal hm).2)
  | some cell =>
    left
    have hcell : lastEntry d.literals cell = some literal := by
      simpa using List.find?_some hfind
    obtain ⟨e, he, rfl⟩ := List.mem_map.1 (List.mem_of_find?_eq_some hfind)
    have hentry := (@Numbers.literal _ h e.1 e.2 he).2
    rw [hentry, Option.some.injEq] at hcell
    rw [Option.getD_some, ← hcell]
    exact he

/-- **An expected entity** is found exactly where it is the object. -/
theorem Numbers.expects_entity (h : d.Numbers) {n : ℕ} (hpos : 0 < n) (hn : n < literalBase)
    (object : Atom) : d.Expects object n ↔ object = .entity ⟨n⟩ := by
  unfold Expects
  rw [h.lastEntry_entity hn]
  simp only [Option.map_none, reduceCtorEq, or_false]
  cases object with
  | entity e =>
    unfold objectCell
    simp only [Atom.entity.injEq]
    constructor
    · intro he
      rw [← he]
    · intro he
      rw [he]
  | literal l =>
    simp only [reduceCtorEq, iff_false]
    intro hcell
    rcases h.objectCell_literal l with hm | ⟨hzero, -⟩
    · have hbase := (h.literal hm).1
      omega
    · omega

/-- **An expected literal** is found exactly where it is the object, if no object is numbered as
a literal. -/
theorem Numbers.expects_literal (h : d.Numbers) {cell : ℕ} {literal : Literal}
    (hm : (cell, literal) ∈ d.literals) {object : Atom}
    (hobject : ∀ e, object = .entity e → e.value < literalBase) :
    d.Expects object cell ↔ object = .literal literal := by
  obtain ⟨hbase, hentry⟩ := h.literal hm
  unfold Expects
  rw [hentry]
  simp only [Option.map_some, Option.some.injEq]
  constructor
  · rintro (hcell | rfl)
    · cases object with
      | entity e =>
        have hlt := hobject e rfl
        unfold objectCell at hcell
        simp only at hcell
        omega
      | literal l =>
        rcases h.objectCell_literal l with hm' | ⟨hzero, -⟩
        · rw [hcell] at hm'
          have hl := (h.literal hm').2
          rw [hentry, Option.some.injEq] at hl
          rw [hl]
        · have hpos : 0 < literalBase := by decide
          omega
    · rfl
  · rintro rfl
    exact .inr rfl

end StreamDictionary

/-! ## What each call emits -/

namespace TransactionBuilder

variable {b : TransactionBuilder}

/-- A builder behind some calls: numbered tables that hold those before. -/
structure Extends (b b' : TransactionBuilder) (instructions : List PythonInstruction) : Prop where
  space : b'.space = b.space
  nextLocal : b.nextLocal ≤ b'.nextLocal
  numbers : b.dictionary.Numbers → b'.dictionary.Numbers
  within : b.dictionary.Within b'.dictionary
  instructions : b'.instructions = b.instructions ++ instructions

theorem Extends.refl (b : TransactionBuilder) : b.Extends b [] :=
  ⟨rfl, le_rfl, fun h => h, .refl _, (List.append_nil _).symm⟩

theorem Extends.trans {b₁ b₂ b₃ : TransactionBuilder} {xs ys : List PythonInstruction}
    (h : b₁.Extends b₂ xs) (h' : b₂.Extends b₃ ys) : b₁.Extends b₃ (xs ++ ys) := by
  refine ⟨h'.space.trans h.space, h.nextLocal.trans h'.nextLocal, ?_, h.within.trans h'.within, ?_⟩
  · intro hn
    exact h'.numbers (h.numbers hn)
  · rw [h'.instructions, h.instructions, List.append_assoc]

theorem emit_extends (b : TransactionBuilder) (instructions : List PythonInstruction) :
    b.Extends (b.emit instructions) instructions := ⟨rfl, le_rfl, fun h => h, .refl _, rfl⟩

theorem getSlot_extends (h : b.dictionary.Numbers) (slot : String) :
    b.Extends (b.getSlot slot).2 [] ∧
      ((b.getSlot slot).1, (⟨slot⟩ : SlotId)) ∈ (b.getSlot slot).2.dictionary.slots := by
  obtain ⟨hnumbered, hgrows, hmem⟩ := intern_spec h.slots (⟨slot⟩ : SlotId)
  exact ⟨⟨rfl, le_rfl, fun _ => ⟨hnumbered, h.predicates, h.literals⟩,
    ⟨hgrows, List.prefix_rfl, List.prefix_rfl⟩, (List.append_nil _).symm⟩, hmem⟩

theorem getPredicate_extends (h : b.dictionary.Numbers) (predicate : String) :
    b.Extends (b.getPredicate predicate).2 [] ∧
      ((b.getPredicate predicate).1, (⟨predicate⟩ : Predicate)) ∈
        (b.getPredicate predicate).2.dictionary.predicates := by
  obtain ⟨hnumbered, hgrows, hmem⟩ := intern_spec h.predicates (⟨predicate⟩ : Predicate)
  exact ⟨⟨rfl, le_rfl, fun _ => ⟨h.slots, hnumbered, h.literals⟩,
    ⟨List.prefix_rfl, hgrows, List.prefix_rfl⟩, (List.append_nil _).symm⟩, hmem⟩

theorem getLiteral_extends (h : b.dictionary.Numbers) (literal : String) :
    b.Extends (b.getLiteral literal).2 [] ∧
      ((b.getLiteral literal).1, (⟨literal⟩ : Literal)) ∈
        (b.getLiteral literal).2.dictionary.literals := by
  obtain ⟨hnumbered, hgrows, hmem⟩ := intern_spec h.literals (⟨literal⟩ : Literal)
  exact ⟨⟨rfl, le_rfl, fun _ => ⟨h.slots, h.predicates, hnumbered⟩,
    ⟨List.prefix_rfl, List.prefix_rfl, hgrows⟩, (List.append_nil _).symm⟩, hmem⟩

end TransactionBuilder

/-! ## The machine follows the meaning -/

/-- A kernel that is sound and below the literals, with `n` allocations to come. -/
def PythonForthDb.Grounded (s : PythonForthDb) (n : ℕ) : Prop :=
  ∃ k, s.Refines k ∧ k.Sound ∧ BelowLiterals k n

namespace PythonForthDb

variable {s : PythonForthDb} {n : ℕ}

/-- The object of a slot is below the literals. -/
theorem Grounded.resolve (h : s.Grounded n) (slot : SlotId) :
    ∃ fact, s.resolve slot = .ok fact ∧
      ∀ f, fact = some f → ∀ e, f.object = .entity e → e.value < literalBase := by
  obtain ⟨k, hrefines, hsound, hbelow⟩ := h
  refine ⟨k.resolve slot, hrefines.resolve hsound slot, ?_⟩
  intro f hf
  unfold ForthDb.resolve DefinitionStore.resolveRecord at hf
  simp only [Option.bind_eq_some_iff] at hf
  obtain ⟨record, ⟨i, -, hrecord⟩, hfact⟩ := hf
  exact hbelow.objects record (List.mem_of_getElem? hrecord) f hfact

theorem Grounded.entity (h : s.Grounded (n + 1)) :
    s.entity.1.value < literalBase ∧ s.entity.2.Grounded n := by
  obtain ⟨k, hrefines, hsound, hbelow⟩ := h
  have hallocator := hbelow.allocator
  have hentity := hrefines.entity
  refine ⟨?_, k.entity.2, hentity.2, ForthDb.entity_sound hsound, hbelow.objects, ?_⟩
  · rw [hentity.1]
    change k.nextEntity < literalBase
    omega
  · change k.nextEntity + 1 + n ≤ literalBase
    omega

theorem Grounded.define (h : s.Grounded n) (slot : SlotId) {fact : Fact}
    (hfact : ∀ e, fact.object = .entity e → e.value < literalBase) :
    ∃ r s', s.define slot fact = .ok (r, s') ∧ s'.Grounded n := by
  obtain ⟨k, hrefines, hsound, hbelow⟩ := h
  obtain ⟨r, s', hdefine, hrefines', -⟩ := hrefines.define hsound slot fact
  refine ⟨r, s', hdefine, k.define slot fact, hrefines', ForthDb.define_sound hsound slot fact, ?_,
    hbelow.allocator⟩
  intro record hrecord f hf
  rw [ForthDb.define_log] at hrecord
  rcases List.mem_append.1 hrecord with hold | hnew
  · exact hbelow.objects record hold f hf
  · rw [List.mem_singleton.1 hnew] at hf
    rw [← Option.some.inj hf]
    exact hfact

theorem Grounded.forget (h : s.Grounded n) (slot : SlotId) :
    ∃ r s', s.forget slot = .ok (r, s') ∧ s'.Grounded n := by
  obtain ⟨k, hrefines, hsound, hbelow⟩ := h
  obtain ⟨r, s', hforget, hrefines', -⟩ := hrefines.forget hsound slot
  refine ⟨r, s', hforget, k.forget slot, hrefines', ForthDb.forget_sound hsound slot, ?_,
    hbelow.allocator⟩
  intro record hrecord f hf
  rw [ForthDb.forget_log] at hrecord
  rcases List.mem_append.1 hrecord with hold | hnew
  · exact hbelow.objects record hold f hf
  · rw [List.mem_singleton.1 hnew] at hf
    cases hf

end PythonForthDb

namespace FrameMachine

variable {d : StreamDictionary} {m : FrameMachine} {r : DirectRun} {localCount n : ℕ}

/-- The machine between two calls of a program, with `n` allocations to come. -/
structure Follows (localCount n : ℕ) (m : FrameMachine) (r : DirectRun) : Prop where
  kernel : m.kernel = r.kernel
  records : m.records = r.records
  stack : m.stack = []
  length : m.locals.length = localCount + 16
  locals : ∀ (i : ℕ) (e : EntityId), r.temps[i]? = some e →
    m.locals[i]? = some (PythonCell.entity e)
  temps : ∀ e ∈ r.temps, e.value < literalBase
  room : r.temps.length + n ≤ localCount
  grounded : r.kernel.Grounded n

/-- An instruction that pushes an atom, on any stack. -/
def Pushes (d : StreamDictionary) (m : FrameMachine) (i : PythonInstruction) (atom : Atom) : Prop :=
  ∃ cell, d.resolveAtom cell = .ok atom ∧
    ∀ stack, ({ m with stack := stack } : FrameMachine).step d i =
      .ok { m with stack := cell :: stack }

end FrameMachine

namespace TransactionBuilder

open FrameMachine

variable {b : TransactionBuilder} {d : StreamDictionary} {m : FrameMachine} {r : DirectRun}
  {localCount n : ℕ}

/-- A number that is pushed. -/
theorem pushes_cell {value : ℕ} {atom : Atom} (h : d.resolveAtom (.int value) = .ok atom) :
    Pushes d m ⟨PythonOpcode.pushCell, 0, value⟩ atom := ⟨.int value, h, fun _ => rfl⟩

/-- **An operand** is one instruction, which pushes its atom. -/
theorem pushAtom_pushes (hn : b.dictionary.Numbers) {ref : PythonAtomRef} {k : ℕ}
    (hscoped : ref.Scoped k) :
    ∃ i, b.Extends (b.pushAtom ref) [i] ∧ i.opcode < PythonOpcode.reject ∧
      ∀ {d : StreamDictionary} {m : FrameMachine} {r : DirectRun} {localCount n : ℕ},
        (b.pushAtom ref).dictionary.Within d → d.Numbers → m.Follows localCount n r →
        r.temps.length = k →
        ∃ atom, r.atom ref = some atom ∧ Pushes d m i atom ∧
          ∀ e, atom = .entity e → e.value < literalBase := by
  have hpush : PythonOpcode.pushCell < PythonOpcode.reject := by decide
  have hliteral : ∀ value : String, ∃ i,
      b.Extends ((b.getLiteral value).2.emit [⟨PythonOpcode.pushCell, 0, (b.getLiteral value).1⟩])
        [i] ∧ i.opcode < PythonOpcode.reject ∧
      ∀ {d : StreamDictionary} {m : FrameMachine},
        ((b.getLiteral value).2.emit
          [⟨PythonOpcode.pushCell, 0, (b.getLiteral value).1⟩]).dictionary.Within d → d.Numbers →
        Pushes d m i (.literal ⟨value⟩) := by
    intro value
    obtain ⟨hextends, hmem⟩ := getLiteral_extends hn value
    refine ⟨_, hextends.trans (emit_extends _ _), hpush, ?_⟩
    intro d m hwithin hd
    exact pushes_cell (hd.resolveAtom_literal (hwithin.literals.subset hmem))
  cases ref with
  | entityRef value =>
    refine ⟨_, emit_extends b _, hpush, ?_⟩
    intro d m r localCount n _ _ _ _
    refine ⟨.entity ⟨value⟩, rfl, pushes_cell (StreamDictionary.resolveAtom_entity hscoped), ?_⟩
    rintro e ⟨⟩
    exact hscoped
  | int value =>
    refine ⟨_, emit_extends b _, hpush, ?_⟩
    intro d m r localCount n _ _ _ _
    refine ⟨.entity ⟨value⟩, rfl, pushes_cell (StreamDictionary.resolveAtom_entity hscoped), ?_⟩
    rintro e ⟨⟩
    exact hscoped
  | tempEntity space index =>
    have hload : PythonOpcode.loadLocal < PythonOpcode.reject := by decide
    refine ⟨_, emit_extends b _, hload, ?_⟩
    intro d m r localCount n _ _ hfollows hlength
    have hlt : index < r.temps.length := by
      rw [hlength]
      exact hscoped
    have hget : r.temps[index]? = some r.temps[index] := List.getElem?_eq_getElem hlt
    refine ⟨.entity r.temps[index], by simp only [DirectRun.atom, hget, Option.map_some], ?_, ?_⟩
    · refine ⟨.entity r.temps[index], rfl, ?_⟩
      intro stack
      have hlocal := hfollows.locals index _ hget
      simp only [FrameMachine.step, hlocal]
    · intro e he
      rw [← Atom.entity.inj he]
      exact hfollows.temps _ (List.getElem_mem hlt)
  | literalRef value =>
    obtain ⟨i, hextends, hopcode, hpushes⟩ := hliteral value
    refine ⟨i, hextends, hopcode, ?_⟩
    intro d m r localCount n hwithin hd _ _
    refine ⟨.literal ⟨value⟩, rfl, hpushes hwithin hd, ?_⟩
    rintro e ⟨⟩
  | str value =>
    obtain ⟨i, hextends, hopcode, hpushes⟩ := hliteral value
    refine ⟨i, hextends, hopcode, ?_⟩
    intro d m r localCount n hwithin hd _ _
    refine ⟨.literal ⟨value⟩, rfl, hpushes hwithin hd, ?_⟩
    rintro e ⟨⟩

end TransactionBuilder

/-! ## One call -/

namespace FrameMachine

variable {d : StreamDictionary} {m m' : FrameMachine} {r : DirectRun} {localCount n : ℕ}

theorem walk_step {i : PythonInstruction} (h : m.step d i = .ok m')
    (rest : List PythonInstruction) : walk d (i :: rest) m = walk d rest m' := by
  conv_lhs => unfold walk
  rw [h]

theorem walk_raise {i : PythonInstruction} {e : String} (h : m.step d i = .error e)
    (rest : List PythonInstruction) : walk d (i :: rest) m = (.error e, m.kernel) := by
  unfold walk
  rw [h]

/-- Instructions do to the machine what a call means: they get to the machine behind it, or they
raise its exception on the same kernel. -/
def Performs (d : StreamDictionary) (is : List PythonInstruction) (m : FrameMachine)
    (localCount n temps : ℕ) : Except String DirectRun → PythonForthDb → Prop
  | .ok r', _ => ∃ m', (∀ rest, walk d (is ++ rest) m = walk d rest m') ∧
      m'.Follows localCount n r' ∧ r'.temps.length = temps
  | .error e, s => ∀ rest, walk d (is ++ rest) m = (.error e, s)

/-- A machine with an empty stack. -/
theorem Follows.eq (h : m.Follows localCount n r) : { m with stack := [] } = m := by
  have hstack := h.stack
  cases m
  cases hstack
  rfl

/-- **Allocating** leaves the entity in the local of its index. -/
theorem Follows.allocate (h : m.Follows localCount (1 + n) r) :
    Performs d [⟨PythonOpcode.allocate, 0, 0⟩, ⟨PythonOpcode.storeLocal, r.temps.length, 0⟩] m
      localCount n (r.temps.length + 1) (r.step .allocate) r.kernel := by
  have hroom := h.room
  have hgrounded := h.grounded
  rw [Nat.add_comm] at hgrounded
  obtain ⟨hbelow, hentity⟩ := hgrounded.entity
  have hlt : r.temps.length < m.locals.length := by
    rw [h.length]
    omega
  refine ⟨{ m with
    kernel := m.kernel.entity.2
    locals := m.locals.set r.temps.length (.entity m.kernel.entity.1) }, ?_, ?_, ?_⟩
  · intro rest
    have hpush : m.step d ⟨PythonOpcode.allocate, 0, 0⟩ = .ok { m with
        kernel := m.kernel.entity.2, stack := .entity m.kernel.entity.1 :: m.stack } := rfl
    rw [List.cons_append, List.cons_append, List.nil_append, walk_step hpush, walk_step]
    unfold step assignLocal
    simp only [if_pos hlt, bind, Except.bind, pure, Except.pure]
  · refine ⟨congrArg (fun k => k.entity.2) h.kernel, h.records, h.stack, ?_, ?_, ?_, ?_, hentity⟩
    · rw [List.length_set, h.length]
    · intro i e he
      rw [h.kernel]
      rw [List.getElem?_append] at he
      rw [List.getElem?_set]
      split at he
      · rename_i hi
        rw [if_neg (by omega)]
        exact h.locals i e he
      · rename_i hi
        have hi' : i = r.temps.length := by
          have hsome := (List.getElem?_eq_some_iff.1 he).1
          simp only [List.length_singleton] at hsome
          omega
        subst hi'
        rw [Nat.sub_self, List.getElem?_cons_zero, Option.some.injEq] at he
        rw [if_pos rfl, if_pos hlt, ← he]
        rfl
    · intro e he
      rcases List.mem_append.1 he with hold | hnew
      · exact h.temps e hold
      · rw [List.mem_singleton.1 hnew]
        exact hbelow
    · rw [List.length_append, List.length_singleton]
      omega
  · exact List.length_append

/-- **Defining** pops the operands that were pushed. -/
theorem Follows.define (h : m.Follows localCount n r) {slot predicate : String}
    {subject object : PythonAtomRef} {x y : Atom} {i j : PythonInstruction} {token cell : ℕ}
    (hd : d.Numbers) (hslot : (token, (⟨slot⟩ : SlotId)) ∈ d.slots)
    (hpredicate : (cell, (⟨predicate⟩ : Predicate)) ∈ d.predicates)
    (hx : r.atom subject = some x) (hi : Pushes d m i x) (hy : r.atom object = some y)
    (hj : Pushes d m j y) (hbelow : ∀ e, y = .entity e → e.value < literalBase) :
    Performs d [i, ⟨PythonOpcode.pushCell, 0, cell⟩, j, ⟨PythonOpcode.define, token, 0⟩] m
      localCount n r.temps.length (r.step (.define slot subject predicate object)) r.kernel := by
  obtain ⟨cx, hcx, hpushx⟩ := hi
  obtain ⟨cy, hcy, hpushy⟩ := hj
  obtain ⟨record, s', hdefine, hgrounded⟩ :=
    @PythonForthDb.Grounded.define _ _ h.grounded ⟨slot⟩ ⟨x, ⟨predicate⟩, y⟩ hbelow
  have hstep : r.step (.define slot subject predicate object) =
      .ok { r with kernel := s', records := r.records ++ [record] } := by
    unfold DirectRun.step
    simp only [hx, hy, hdefine, bind, Except.bind, pure, Except.pure]
  rw [hstep]
  refine ⟨{ m with kernel := s', records := m.records ++ [record] }, ?_, ?_, rfl⟩
  · intro rest
    have h₁ := hpushx []
    rw [h.eq] at h₁
    have h₂ : ({ m with stack := [cx] } : FrameMachine).step d ⟨PythonOpcode.pushCell, 0, cell⟩ =
        .ok { m with stack := [.int cell, cx] } := rfl
    have h₃ := hpushy [.int cell, cx]
    simp only [List.cons_append, List.nil_append]
    rw [walk_step h₁, walk_step h₂, walk_step h₃, walk_step]
    unfold step
    simp only [hcx, hcy, hd.slotAt hslot, hd.predicate hpredicate, h.kernel, hdefine, bind,
      Except.bind, pure, Except.pure, h.stack]
  · exact ⟨rfl, by rw [h.records], h.stack, h.length, h.locals, h.temps, h.room, hgrounded⟩

theorem Follows.forget (h : m.Follows localCount n r) {slot : String} {token : ℕ}
    (hd : d.Numbers) (hslot : (token, (⟨slot⟩ : SlotId)) ∈ d.slots) :
    Performs d [⟨PythonOpcode.forget, token, 0⟩] m localCount n r.temps.length
      (r.step (.forget slot)) r.kernel := by
  obtain ⟨record, s', hforget, hgrounded⟩ := h.grounded.forget ⟨slot⟩
  have hstep : r.step (.forget slot) =
      .ok { r with kernel := s', records := r.records ++ [record] } := by
    unfold DirectRun.step
    simp only [hforget, bind, Except.bind, pure, Except.pure]
  rw [hstep]
  refine ⟨{ m with kernel := s', records := m.records ++ [record] }, ?_, ?_, rfl⟩
  · intro rest
    rw [List.singleton_append, walk_step]
    unfold step
    simp only [hd.slotAt hslot, h.kernel, hforget, bind, Except.bind, pure, Except.pure]
  · exact ⟨rfl, by rw [h.records], h.stack, h.length, h.locals, h.temps, h.room, hgrounded⟩

/-- **An expectation** is met, or raises, as the object of the slot is the expected one. -/
theorem Follows.expectObject (h : m.Follows localCount n r) {slot : String} {token cell : ℕ}
    {expected : PythonAtomRef} {atom : Atom} (hd : d.Numbers)
    (hslot : (token, (⟨slot⟩ : SlotId)) ∈ d.slots) (hatom : r.atom expected = some atom)
    (hexpects : ∀ object : Atom, (∀ e, object = .entity e → e.value < literalBase) →
      (d.Expects object cell ↔ object = atom)) :
    Performs d [⟨PythonOpcode.expectObject, token, cell⟩] m localCount n r.temps.length
      (r.step (.expectObject slot expected)) r.kernel := by
  obtain ⟨fact, hresolve, hobject⟩ := h.grounded.resolve ⟨slot⟩
  have hmachine : m.step d ⟨PythonOpcode.expectObject, token, cell⟩ =
      (r.expect slot (some atom)).map fun _ => m := by
    unfold step StreamDictionary.expectObject DirectRun.expect
    simp only [hd.slotAt hslot, h.kernel, hresolve, bind, Except.bind]
    cases fact with
    | none => rfl
    | some f =>
      have hiff := hexpects f.object (hobject f rfl)
      simp only [Option.some.injEq]
      by_cases heq : f.object = atom
      · rw [if_pos (hiff.2 heq), if_pos heq]
        rfl
      · rw [if_neg fun hd => heq (hiff.1 hd), if_neg heq]
        rfl
  have hstep : r.step (.expectObject slot expected) =
      (r.expect slot (some atom)).map fun _ => r := by
    unfold DirectRun.step
    simp only [hatom, bind, Except.bind]
    cases r.expect slot (some atom) <;> rfl
  rw [hstep]
  cases hexpect : r.expect slot (some atom) with
  | ok u =>
    rw [hexpect] at hmachine
    exact ⟨m, fun rest => walk_step hmachine rest, h, rfl⟩
  | error e =>
    rw [hexpect] at hmachine
    intro rest
    rw [List.singleton_append, walk_raise hmachine, h.kernel]

end FrameMachine

namespace TransactionBuilder

open FrameMachine

variable {b : TransactionBuilder}

theorem pushAtom_nextLocal (b : TransactionBuilder) (ref : PythonAtomRef) :
    (b.pushAtom ref).nextLocal = b.nextLocal := by
  cases ref <;> rfl

/-- The instructions of a call, in every frame whose tables hold those of the builder. -/
structure Compiles (b b' : TransactionBuilder) (c : BuilderCall) (is : List PythonInstruction) :
    Prop where
  call : b.call c = .ok b'
  extends_ : b.Extends b' is
  nextLocal : b'.nextLocal = b.nextLocal + c.allocations
  opcodes : ∀ i ∈ is, i.opcode < PythonOpcode.reject
  performs : ∀ {d : StreamDictionary} {m : FrameMachine} {r : DirectRun} {localCount n : ℕ},
    b'.dictionary.Within d → d.Numbers → m.Follows localCount (c.allocations + n) r →
    r.temps.length = b.nextLocal →
    Performs d is m localCount n b'.nextLocal (r.step c) r.kernel

theorem compiles_allocate (b : TransactionBuilder) :
    b.Compiles b.allocate .allocate
      [⟨PythonOpcode.allocate, 0, 0⟩, ⟨PythonOpcode.storeLocal, b.nextLocal, 0⟩] where
  call := rfl
  extends_ := ⟨rfl, Nat.le_succ _, fun h => h, .refl _, rfl⟩
  nextLocal := rfl
  opcodes := by
    intro i hi
    simp only [List.mem_cons, List.not_mem_nil, or_false] at hi
    rcases hi with rfl | rfl
    · decide
    · change PythonOpcode.storeLocal < PythonOpcode.reject
      decide
  performs := by
    intro d m r localCount n _ _ hfollows hlength
    have hnext : b.allocate.nextLocal = r.temps.length + 1 := by
      rw [hlength]
      rfl
    rw [hnext, ← hlength]
    exact hfollows.allocate

/-- The predicate is pushed as the number it has. -/
theorem pushPredicate_extends (hn : b.dictionary.Numbers) (predicate : String) :
    ∃ cell, (∃ b', b' = (b.getPredicate predicate).2.emit [⟨PythonOpcode.pushCell, 0, cell⟩] ∧
      cell = (b.getPredicate predicate).1 ∧ b.Extends b' [⟨PythonOpcode.pushCell, 0, cell⟩] ∧
      b'.nextLocal = b.nextLocal ∧ (cell, (⟨predicate⟩ : Predicate)) ∈ b'.dictionary.predicates) := by
  obtain ⟨hextends, hmem⟩ := getPredicate_extends hn predicate
  exact ⟨_, _, rfl, rfl, hextends.trans (emit_extends _ _), rfl, hmem⟩

theorem compiles_define (hn : b.dictionary.Numbers) {slot predicate : String}
    {subject object : PythonAtomRef} (hsubject : subject.Scoped b.nextLocal)
    (hobject : object.Scoped b.nextLocal) :
    ∃ b' is, b.Compiles b' (.define slot subject predicate object) is := by
  obtain ⟨hslot, hslotMem⟩ := getSlot_extends hn slot
  have hn₁ := hslot.numbers hn
  obtain ⟨i, hi, hopi, hpushi⟩ := pushAtom_pushes hn₁ hsubject
  have hn₂ := hi.numbers hn₁
  obtain ⟨cell, b₃, hb₃, hcell, hpredicate, hlocal, hpredicateMem⟩ :=
    pushPredicate_extends hn₂ predicate
  have hn₃ := hpredicate.numbers hn₂
  have hlocal₃ : b₃.nextLocal = b.nextLocal := hlocal.trans (pushAtom_nextLocal _ subject)
  rw [← hlocal₃] at hobject
  obtain ⟨j, hj, hopj, hpushj⟩ := pushAtom_pushes hn₃ hobject
  have hlast := emit_extends (b₃.pushAtom object) [⟨PythonOpcode.define, (b.getSlot slot).1, 0⟩]
  have hall := hslot.trans (hi.trans (hpredicate.trans (hj.trans hlast)))
  have hcall : b.define slot subject predicate object =
      (b₃.pushAtom object).emit [⟨PythonOpcode.define, (b.getSlot slot).1, 0⟩] := by
    unfold define
    rw [hb₃, hcell]
  have hpush : PythonOpcode.pushCell < PythonOpcode.reject := by decide
  have hdefine : PythonOpcode.define < PythonOpcode.reject := by decide
  refine ⟨_, _, congrArg Except.ok hcall, hall, (pushAtom_nextLocal b₃ object).trans hlocal₃, ?_, ?_⟩
  · intro x hx
    simp only [List.nil_append, List.cons_append, List.mem_cons, List.not_mem_nil, or_false] at hx
    rcases hx with rfl | rfl | rfl | rfl
    · exact hopi
    · exact hpush
    · exact hopj
    · exact hdefine
  · intro d m r localCount n hwithin hd hfollows hlength
    have hwithin₄ := hlast.within.trans hwithin
    have hwithin₃ := hj.within.trans hwithin₄
    have hwithin₂ := hpredicate.within.trans hwithin₃
    have hwithin₁ := hi.within.trans hwithin₂
    have hfollows' : m.Follows localCount n r := by
      have hzero : (BuilderCall.define slot subject predicate object).allocations + n = n :=
        Nat.zero_add n
      rwa [hzero] at hfollows
    obtain ⟨x, hx, hpushx, -⟩ := hpushi hwithin₂ hd hfollows' hlength
    obtain ⟨y, hy, hpushy, hbelow⟩ := hpushj hwithin₄ hd hfollows' (hlength.trans hlocal₃.symm)
    have hperforms := hfollows'.define hd (hwithin₁.slots.subset hslotMem)
      (hwithin₃.predicates.subset hpredicateMem) hx hpushx hy hpushy hbelow
    rw [hlength] at hperforms
    rw [show ((b₃.pushAtom object).emit _).nextLocal = b.nextLocal from
      (pushAtom_nextLocal b₃ object).trans hlocal₃]
    exact hperforms

theorem compiles_forget (hn : b.dictionary.Numbers) (slot : String) :
    b.Compiles (b.forget slot) (.forget slot) [⟨PythonOpcode.forget, (b.getSlot slot).1, 0⟩] where
  call := rfl
  extends_ := by
    obtain ⟨hslot, -⟩ := getSlot_extends hn slot
    exact hslot.trans (emit_extends _ _)
  nextLocal := rfl
  opcodes := by
    intro i hi
    rw [List.mem_singleton.1 hi]
    change PythonOpcode.forget < PythonOpcode.reject
    decide
  performs := by
    intro d m r localCount n hwithin hd hfollows hlength
    obtain ⟨-, hslotMem⟩ := getSlot_extends hn slot
    rw [show (BuilderCall.forget slot).allocations + n = n from Nat.zero_add n] at hfollows
    have hperforms := hfollows.forget hd (hwithin.slots.subset hslotMem)
    rw [hlength] at hperforms
    exact hperforms

theorem compiles_expectObject (hn : b.dictionary.Numbers) (slot : String) {expected : PythonAtomRef}
    (hexpected : expected.Expectable) :
    ∃ b' is, b.Compiles b' (.expectObject slot expected) is := by
  obtain ⟨hslot, hslotMem⟩ := getSlot_extends hn slot
  have hn₁ := hslot.numbers hn
  have hopcode : PythonOpcode.expectObject < PythonOpcode.reject := by decide
  -- the expected cell, and what it stands for in a frame
  obtain ⟨cell, b₂, hcell, hextends, hlocal, hmeaning⟩ : ∃ cell b₂,
      (b.getSlot slot).2.expectedCell expected = .ok (cell, b₂) ∧
      (b.getSlot slot).2.Extends b₂ [] ∧ b₂.nextLocal = b.nextLocal ∧
      ∀ {d : StreamDictionary} (r : DirectRun), b₂.dictionary.Within d → d.Numbers →
        ∃ atom, r.atom expected = some atom ∧
          ∀ object : Atom, (∀ e, object = .entity e → e.value < literalBase) →
            (d.Expects object cell ↔ object = atom) := by
    cases expected with
    | entityRef value =>
      refine ⟨_, _, rfl, .refl _, rfl, ?_⟩
      intro d r _ hd
      exact ⟨_, rfl, fun object _ => hd.expects_entity hexpected.1 hexpected.2 object⟩
    | int value =>
      refine ⟨_, _, rfl, .refl _, rfl, ?_⟩
      intro d r _ hd
      exact ⟨_, rfl, fun object _ => hd.expects_entity hexpected.1 hexpected.2 object⟩
    | tempEntity space index => exact hexpected.elim
    | literalRef value =>
      obtain ⟨hliteral, hliteralMem⟩ := getLiteral_extends hn₁ value
      refine ⟨_, _, rfl, hliteral, rfl, ?_⟩
      intro d r hwithin hd
      exact ⟨_, rfl, fun object hobject =>
        hd.expects_literal (hwithin.literals.subset hliteralMem) hobject⟩
    | str value =>
      obtain ⟨hliteral, hliteralMem⟩ := getLiteral_extends hn₁ value
      refine ⟨_, _, rfl, hliteral, rfl, ?_⟩
      intro d r hwithin hd
      exact ⟨_, rfl, fun object hobject =>
        hd.expects_literal (hwithin.literals.subset hliteralMem) hobject⟩
  have hlast := emit_extends b₂ [⟨PythonOpcode.expectObject, (b.getSlot slot).1, cell⟩]
  have hcall : b.expectObject slot expected =
      .ok (b₂.emit [⟨PythonOpcode.expectObject, (b.getSlot slot).1, cell⟩]) := by
    unfold expectObject
    simp only [hcell, bind, Except.bind, pure, Except.pure]
  refine ⟨_, _, hcall, hslot.trans (hextends.trans hlast), hlocal, ?_, ?_⟩
  · intro i hi
    rw [List.nil_append, List.nil_append] at hi
    rw [List.mem_singleton.1 hi]
    exact hopcode
  · intro d m r localCount n hwithin hd hfollows hlength
    have hwithin₂ := hlast.within.trans hwithin
    have hwithin₁ := hextends.within.trans hwithin₂
    rw [show (BuilderCall.expectObject slot expected).allocations + n = n from Nat.zero_add n]
      at hfollows
    obtain ⟨atom, hatom, hexpects⟩ := hmeaning r hwithin₂ hd
    have hperforms := hfollows.expectObject hd (hwithin₁.slots.subset hslotMem) hatom hexpects
    rw [hlength, ← hlocal] at hperforms
    exact hperforms

/-- **Every scoped call** compiles to instructions that do what it means. -/
theorem call_compiles (hn : b.dictionary.Numbers) {c : BuilderCall} (hc : c.Scoped b.nextLocal) :
    ∃ b' is, b.Compiles b' c is := by
  cases c with
  | allocate => exact ⟨_, _, compiles_allocate b⟩
  | define slot subject predicate object => exact compiles_define hn hc.1 hc.2
  | forget slot => exact ⟨_, _, compiles_forget hn slot⟩
  | expectObject slot expected => exact compiles_expectObject hn slot hc

end TransactionBuilder

/-! ## A program -/

/-- The entities that a program allocates. -/
def BuilderCall.allocated (program : List BuilderCall) : ℕ := (program.map allocations).sum

namespace TransactionBuilder

open FrameMachine

variable {b : TransactionBuilder}

/-- The program, one call after the other. -/
theorem calls_compile (hn : b.dictionary.Numbers) {program : List BuilderCall}
    (hscoped : ScopedCalls b.nextLocal program) :
    ∃ b' is, b.calls program = .ok b' ∧ b.Extends b' is ∧
      b'.nextLocal = b.nextLocal + BuilderCall.allocated program ∧
      (∀ i ∈ is, i.opcode < PythonOpcode.reject) ∧
      ∀ {d : StreamDictionary} {m : FrameMachine} {r : DirectRun} {localCount : ℕ},
        b'.dictionary.Within d → d.Numbers →
        m.Follows localCount (BuilderCall.allocated program) r → r.temps.length = b.nextLocal →
        walk d is m = directRun program r := by
  induction program generalizing b with
  | nil =>
    refine ⟨b, [], rfl, .refl b, rfl, ?_, ?_⟩
    · intro i hi
      cases hi
    · intro d m r localCount _ _ hfollows _
      unfold walk directRun
      rw [hfollows.kernel, hfollows.records]
  | cons c rest ih =>
    obtain ⟨b₁, is₁, h₁⟩ := call_compiles hn hscoped.1
    have hn₁ := h₁.extends_.numbers hn
    have hrest := hscoped.2
    rw [← h₁.nextLocal] at hrest
    obtain ⟨b', is', hcalls, hextends, hlocal, hopcodes, hwalk⟩ := ih hn₁ hrest
    have hall : (BuilderCall.allocated (c :: rest)) = c.allocations + BuilderCall.allocated rest :=
      List.sum_cons
    refine ⟨b', is₁ ++ is', ?_, h₁.extends_.trans hextends, ?_, ?_, ?_⟩
    · unfold calls
      simp only [h₁.call, hcalls, bind, Except.bind]
    · rw [hlocal, h₁.nextLocal, hall, Nat.add_assoc]
    · intro i hi
      rcases List.mem_append.1 hi with hi | hi
      · exact h₁.opcodes i hi
      · exact hopcodes i hi
    · intro d m r localCount hwithin hd hfollows hlength
      rw [hall] at hfollows
      have hperforms := h₁.performs (hextends.within.trans hwithin) hd hfollows hlength
      unfold directRun
      cases hstep : r.step c with
      | ok r' =>
        rw [hstep] at hperforms
        obtain ⟨m', hm', hfollows', hlength'⟩ := hperforms
        rw [hm' is', hwalk hwithin hd hfollows' hlength']
      | error e =>
        rw [hstep] at hperforms
        exact hperforms is'

/-- **The frame of a program** does what the calls mean. -/
theorem frame_compiles {s : PythonForthDb} {program : List BuilderCall}
    (hs : s.Grounded (BuilderCall.allocated program)) (hscoped : ScopedCalls 0 program)
    (space : ℕ) :
    ∃ b, (new space).calls program = .ok b ∧ b.space = space ∧ b.dictionary.Numbers ∧
      (∀ i ∈ b.instructions, i.opcode < PythonOpcode.reject) ∧
      executeIsaFrame s b.buildFrame.toPythonStreamFrame = directRun program ⟨s, [], []⟩ := by
  have hnew : (new space).dictionary.Numbers := ⟨numbered_nil, numbered_nil, numbered_nil⟩
  obtain ⟨b, is, hcalls, hextends, hlocal, hopcodes, hwalk⟩ := calls_compile hnew hscoped
  have his : b.instructions = is := by
    rw [hextends.instructions]
    exact List.nil_append _
  refine ⟨b, hcalls, hextends.space, hextends.numbers hnew, his ▸ hopcodes, ?_⟩
  unfold executeIsaFrame
  rw [runInstructions_eq]
  change walk b.dictionary b.instructions _ = _
  rw [his]
  refine @hwalk b.dictionary _ _ b.nextLocal (.refl _) (hextends.numbers hnew) ?_ rfl
  refine ⟨rfl, rfl, rfl, List.length_replicate, ?_, ?_, ?_, hs⟩
  · intro i e he
    cases he
  · intro e he
    cases he
  · rw [hlocal]
    exact le_rfl

end TransactionBuilder

/-! ## As bytes -/

section

open PythonStruct

theorem mem_of_packEach {α : Type} {encode : α → Except String (List UInt8)} {l : List α}
    {bytes : List UInt8} (h : packEach encode l = .ok bytes) :
    ∀ a ∈ l, ∃ bs, encode a = .ok bs := by
  induction l generalizing bytes with
  | nil =>
    intro a ha
    cases ha
  | cons b rest ih =>
    unfold packEach at h
    obtain ⟨bs, hbs, h⟩ := except_bind_ok_iff.1 h
    obtain ⟨others, hothers, -⟩ := except_bind_ok_iff.1 h
    exact List.forall_mem_cons.2 ⟨⟨bs, hbs⟩, ih hothers⟩

theorem entriesFit_of_encode {κ : Type} {width : ℕ} {name : κ → String} {table : List (ℕ × κ)}
    {bytes : List UInt8} (h : encodePythonEntries width name table = .ok bytes) :
    Isa.EntriesFit width name table := by
  unfold encodePythonEntries at h
  obtain ⟨count, hcount, h⟩ := except_bind_ok_iff.1 h
  obtain ⟨entries, hentries, -⟩ := except_bind_ok_iff.1 h
  refine ⟨(pack_ok_iff.1 hcount).1, ?_⟩
  intro e he
  obtain ⟨bs, hbs⟩ := mem_of_packEach hentries e he
  unfold encodePythonEntry at hbs
  obtain ⟨number, hnumber, hbs⟩ := except_bind_ok_iff.1 hbs
  obtain ⟨length, hlength, -⟩ := except_bind_ok_iff.1 hbs
  exact ⟨(pack_ok_iff.1 hnumber).1, (pack_ok_iff.1 hlength).1⟩

theorem exists_opcode {n : ℕ} (hn : n < PythonOpcode.reject) : ∃ o : Opcode, o.toPython = n := by
  have hn' : n < 8 := hn
  interval_cases n
  · exact ⟨.expectObject, rfl⟩
  · exact ⟨.allocate, rfl⟩
  · exact ⟨.allocateDiscard, rfl⟩
  · exact ⟨.loadLocal, rfl⟩
  · exact ⟨.storeLocal, rfl⟩
  · exact ⟨.pushCell, rfl⟩
  · exact ⟨.define, rfl⟩
  · exact ⟨.forget, rfl⟩

/-- **What Python packs fits**, and is a frame of the other language. -/
theorem frameFits_of_encode {frame : PythonCodecFrame} {bytes : List UInt8}
    (hversion : frame.version = 1)
    (hopcodes : ∀ i ∈ frame.instructions, i.opcode < PythonOpcode.reject)
    (h : frame.encode = .ok bytes) :
    ∃ f : InstructionStreamFrame, f.toPython = frame ∧ Isa.FrameFits f := by
  have hinstructions : frame.instructions ∈ Set.range (List.map Instruction.toPython) := by
    rw [Set.range_list_map]
    intro i hi
    obtain ⟨o, ho⟩ := exists_opcode (hopcodes i hi)
    refine ⟨⟨o, i.argument, i.immediate⟩, ?_⟩
    unfold Instruction.toPython
    rw [ho]
  obtain ⟨is, his⟩ := hinstructions
  unfold PythonCodecFrame.encode at h
  obtain ⟨version, -, h⟩ := except_bind_ok_iff.1 h
  obtain ⟨space, hspace, h⟩ := except_bind_ok_iff.1 h
  obtain ⟨dictionary, hdictionary, h⟩ := except_bind_ok_iff.1 h
  obtain ⟨localCount, hlocal, h⟩ := except_bind_ok_iff.1 h
  obtain ⟨count, hcount, h⟩ := except_bind_ok_iff.1 h
  obtain ⟨packed, hpacked, -⟩ := except_bind_ok_iff.1 h
  unfold encodePythonDictionary at hdictionary
  obtain ⟨slots, hslots, hdictionary⟩ := except_bind_ok_iff.1 hdictionary
  obtain ⟨predicates, hpredicates, hdictionary⟩ := except_bind_ok_iff.1 hdictionary
  obtain ⟨literals, hliterals, -⟩ := except_bind_ok_iff.1 hdictionary
  refine ⟨⟨frame.version, frame.space, frame.dictionary, frame.localCount, is⟩, ?_, ?_⟩
  · unfold InstructionStreamFrame.toPython
    rw [his]
  · refine ⟨hversion, (pack_ok_iff.1 hspace).1, entriesFit_of_encode hslots,
      entriesFit_of_encode hpredicates, entriesFit_of_encode hliterals, (pack_ok_iff.1 hlocal).1,
      ?_, ?_⟩
    · rw [← his, List.length_map] at hcount
      exact (pack_ok_iff.1 hcount).1
    · intro inst hinst
      have hmem : inst.toPython ∈ frame.instructions := his ▸ List.mem_map_of_mem hinst
      obtain ⟨bs, hbs⟩ := mem_of_packEach hpacked _ hmem
      unfold PythonInstruction.encode at hbs
      obtain ⟨opcode, -, hbs⟩ := except_bind_ok_iff.1 hbs
      obtain ⟨argument, hargument, hbs⟩ := except_bind_ok_iff.1 hbs
      obtain ⟨immediate, himmediate, -⟩ := except_bind_ok_iff.1 hbs
      exact ⟨(pack_ok_iff.1 hargument).1, (pack_ok_iff.1 himmediate).1⟩

end

end ForthDB
