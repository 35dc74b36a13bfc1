import ForthDB.Python.Kernel
import ForthDB.Queue.Stream

/-!
# Instruction frames of the Python world

`execute_isa_frame` of `forthdb_world.py`: it runs a frame on a kernel in place. An `error` is an
exception, and the kernel beside it is what the caller is left with.

* `executeIsaFrame`: the loop of the source. `runInstructions_eq`: storing an allocated entity at
  once is allocating, then storing.
* `FrameState`: what a frame does on the kernel of `forthdb-core`, where nothing is raised.
  `FrameState.Raises`, `FrameState.Writes`, `FrameState.Starved`: what an instruction does in the
  state before it.
* `step_raises`, `step_advances`: one instruction. `walk_raises_early`, `walk_completes`,
  `walk_error`, `walk_ok`: a run.
* `executeIsaFrame_atomic_iff`: **a frame is atomic iff** it raises before its first write, or
  nothing in it raises, rejects or lacks operands. There is no rollback.
-/

namespace ForthDB

/-! ## The instructions -/

namespace PythonOpcode

-- `Opcode` of `forthdb_compiler.py`: numbers, not an enumeration
@[match_pattern] abbrev expectObject : ℕ := 0
@[match_pattern] abbrev allocate : ℕ := 1
@[match_pattern] abbrev allocateDiscard : ℕ := 2
@[match_pattern] abbrev loadLocal : ℕ := 3
@[match_pattern] abbrev storeLocal : ℕ := 4
@[match_pattern] abbrev pushCell : ℕ := 5
@[match_pattern] abbrev define : ℕ := 6
@[match_pattern] abbrev forget : ℕ := 7
abbrev reject : ℕ := 8

end PythonOpcode

/-- An instruction: any number is an opcode. -/
structure PythonInstruction where
  opcode : ℕ
  argument : ℕ := 0
  immediate : ℕ := 0
deriving DecidableEq, Repr

/-- The fields of a frame that its execution reads. -/
structure PythonStreamFrame where
  dictionary : StreamDictionary
  localCount : ℕ
  instructions : List PythonInstruction
deriving DecidableEq, Repr

/-- A value on the stack or in a local. -/
inductive PythonCell
  | entity (entity : EntityId)
  | int (value : ℕ)
  | none
deriving DecidableEq, Repr

/-- `str`. -/
def PythonCell.str : PythonCell → String
  | .entity e => s!"Entity_{e.value}"
  | .int n => s!"{n}"
  | .none => "None"

namespace StreamDictionary

open NameTable

variable (d : StreamDictionary)

/-- `slot_map[token]`. -/
def slotAt (token : ℕ) : Except String SlotId :=
  match lastEntry d.slots token with
  | some slot => .ok slot
  | none => .error s!"KeyError: {token}"

/-- `resolve_atom` of `execute_isa_frame`. -/
def resolveAtom : PythonCell → Except String Atom
  | .entity e => .ok (.entity e)
  | .int n =>
    if n < literalBase then .ok (.entity ⟨n⟩)
    else match lastEntry d.literals n with
      | some literal => .ok (.literal literal)
      | none => .ok (.literal ⟨s!"lit_{n}"⟩)
  | .none => .error "TypeError: cannot resolve atom from: None"

def resolvePredicate (cell : PythonCell) : Predicate :=
  match cell with
  | .int n => (lastEntry d.predicates n).getD ⟨cell.str⟩
  | _ => ⟨cell.str⟩

/-- `actual_cell`: the first cell of `lit_map` with this literal. -/
def objectCell : Atom → ℕ
  | .entity e => e.value
  | .literal l =>
    ((d.literals.map Prod.fst).find? fun cell => lastEntry d.literals cell = some l).getD 0

/-- The object of a slot is the expected cell, or the literal of that cell. -/
def Expects (object : Atom) (cell : ℕ) : Prop :=
  d.objectCell object = cell ∨ (lastEntry d.literals cell).map Atom.literal = some object

instance (object : Atom) (cell : ℕ) : Decidable (d.Expects object cell) := by
  unfold Expects
  infer_instance

/-- The branch of `EXPECT_OBJECT`. -/
def expectObject (kernel : PythonForthDb) (token cell : ℕ) : Except String Unit := do
  let slot ← d.slotAt token
  match ← kernel.resolve slot with
  | none => .error s!"ConstraintViolation: precondition failed: slot {slot.value} is empty"
  | some actual =>
    if d.Expects actual.object cell then .ok ()
    else .error s!"ConstraintViolation: precondition failed on slot {slot.value}"

end StreamDictionary

def assignLocal (locals : List PythonCell) (n : ℕ) (cell : PythonCell) :
    Except String (List PythonCell) :=
  if n < locals.length then .ok (locals.set n cell)
  else .error "IndexError: list assignment index out of range"

/-! ## The machine -/

/-- What the loop holds; the top of the stack comes first. -/
structure FrameMachine where
  kernel : PythonForthDb
  records : List Record
  locals : List PythonCell
  stack : List PythonCell

namespace FrameMachine

variable (d : StreamDictionary) (m : FrameMachine)

/-- One round of the loop. `REJECT` has no branch, and neither have other numbers. -/
def step (i : PythonInstruction) : Except String FrameMachine :=
  match i.opcode with
  | PythonOpcode.expectObject => do
    d.expectObject m.kernel i.argument i.immediate
    pure m
  | PythonOpcode.allocate =>
    let (entity, kernel) := m.kernel.entity
    .ok { m with kernel := kernel, stack := .entity entity :: m.stack }
  | PythonOpcode.allocateDiscard => .ok { m with kernel := m.kernel.entity.2 }
  | PythonOpcode.loadLocal =>
    match m.locals[i.argument]? with
    | some cell => .ok { m with stack := cell :: m.stack }
    | none => .error "IndexError: list index out of range"
  | PythonOpcode.storeLocal =>
    match m.stack with
    | cell :: stack => do
      let locals ← assignLocal m.locals i.argument cell
      pure { m with locals := locals, stack := stack }
    | [] => .error "IndexError: pop from empty list"
  | PythonOpcode.pushCell => .ok { m with stack := .int i.immediate :: m.stack }
  | PythonOpcode.define =>
    match m.stack with
    | object :: predicate :: subject :: stack => do
      let subject ← d.resolveAtom subject
      let object ← d.resolveAtom object
      let slot ← d.slotAt i.argument
      let (record, kernel) ← m.kernel.define slot ⟨subject, d.resolvePredicate predicate, object⟩
      pure { m with kernel := kernel, records := m.records ++ [record], stack := stack }
    | _ => .ok m
  | PythonOpcode.forget => do
    let slot ← d.slotAt i.argument
    let (record, kernel) ← m.kernel.forget slot
    pure { m with kernel := kernel, records := m.records ++ [record] }
  | _ => .ok m

/-- The loop: the records or the exception, and the kernel that is left. -/
def runInstructions : List PythonInstruction → FrameMachine →
    Except String (List Record) × PythonForthDb
  | [], m => (.ok m.records, m.kernel)
  | [i], m =>
    match m.step d i with
    | .ok m => (.ok m.records, m.kernel)
    | .error e => (.error e, m.kernel)
  | i :: next :: rest, m =>
    if i.opcode = PythonOpcode.allocate ∧ next.opcode = PythonOpcode.storeLocal then
      let (entity, kernel) := m.kernel.entity
      match assignLocal m.locals next.argument (.entity entity) with
      | .ok locals => runInstructions rest { m with kernel := kernel, locals := locals }
      | .error e => (.error e, kernel)
    else
      match m.step d i with
      | .ok m => runInstructions (next :: rest) m
      | .error e => (.error e, m.kernel)

/-- The machine on which a frame starts. -/
def start (kernel : PythonForthDb) (localCount : ℕ) : FrameMachine where
  kernel := kernel
  records := []
  locals := List.replicate (localCount + 16) .none
  stack := []

end FrameMachine

def executeIsaFrame (kernel : PythonForthDb) (frame : PythonStreamFrame) :
    Except String (List Record) × PythonForthDb :=
  FrameMachine.runInstructions frame.dictionary frame.instructions (.start kernel frame.localCount)

/-! ## A frame on the kernel of `forthdb-core` -/

/-- The kernel, the locals and the stack before an instruction. -/
structure FrameState where
  kernel : ForthDb
  locals : List PythonCell
  stack : List PythonCell

namespace FrameState

open NameTable

def start (kernel : ForthDb) (localCount : ℕ) : FrameState where
  kernel := kernel
  locals := List.replicate (localCount + 16) .none
  stack := []

variable (d : StreamDictionary) (st : FrameState) (i : PythonInstruction)

/-- The instruction raises an exception in this state. -/
def Raises : Prop :=
  match i.opcode with
  | PythonOpcode.expectObject =>
    match lastEntry d.slots i.argument with
    | some slot =>
      match st.kernel.resolve slot with
      | some actual => ¬ d.Expects actual.object i.immediate
      | none => True
    | none => True
  | PythonOpcode.loadLocal => st.locals.length ≤ i.argument
  | PythonOpcode.storeLocal => st.stack = [] ∨ st.locals.length ≤ i.argument
  | PythonOpcode.define =>
    match st.stack with
    | object :: _ :: subject :: _ =>
      subject = .none ∨ object = .none ∨ lastEntry d.slots i.argument = none
    | _ => False
  | PythonOpcode.forget => lastEntry d.slots i.argument = none
  | _ => False

/-- The instruction, unless it raises, changes the kernel. -/
def Writes : Prop :=
  match i.opcode with
  | PythonOpcode.allocate => True
  | PythonOpcode.allocateDiscard => True
  | PythonOpcode.define => 3 ≤ st.stack.length
  | PythonOpcode.forget => True
  | _ => False

/-- A define without three operands on the stack. -/
def Starved : Prop := i.opcode = PythonOpcode.define ∧ st.stack.length < 3

instance : Decidable (st.Raises d i) := by
  unfold Raises
  repeat' split
  all_goals infer_instance

instance : Decidable (st.Writes i) := by
  unfold Writes
  split <;> infer_instance

instance : Decidable (st.Starved i) :=
  inferInstanceAs (Decidable (_ ∧ _))

/-- The state after an instruction that does not raise. -/
def advance : FrameState :=
  match i.opcode with
  | PythonOpcode.allocate =>
    { st with kernel := st.kernel.entity.2, stack := .entity st.kernel.entity.1 :: st.stack }
  | PythonOpcode.allocateDiscard => { st with kernel := st.kernel.entity.2 }
  | PythonOpcode.loadLocal => { st with stack := st.locals.getD i.argument .none :: st.stack }
  | PythonOpcode.storeLocal =>
    match st.stack with
    | cell :: stack => { st with locals := st.locals.set i.argument cell, stack := stack }
    | [] => st
  | PythonOpcode.pushCell => { st with stack := .int i.immediate :: st.stack }
  | PythonOpcode.define =>
    match st.stack with
    | object :: predicate :: subject :: stack =>
      match d.resolveAtom subject, d.resolveAtom object, lastEntry d.slots i.argument with
      | .ok subject, .ok object, some slot =>
        { st with
          kernel := st.kernel.define slot ⟨subject, d.resolvePredicate predicate, object⟩
          stack := stack }
      | _, _, _ => st
    | _ => st
  | PythonOpcode.forget =>
    match lastEntry d.slots i.argument with
    | some slot => { st with kernel := st.kernel.forget slot }
    | none => st
  | _ => st

/-- The state after a list of instructions. -/
def after : List PythonInstruction → FrameState → FrameState
  | [], st => st
  | i :: rest, st => after rest (st.advance d i)

/-- Some instruction raises, and none in front of it writes. -/
def RaisesEarly : List PythonInstruction → FrameState → Prop
  | [], _ => False
  | i :: rest, st => st.Raises d i ∨ ¬ st.Writes i ∧ RaisesEarly rest (st.advance d i)

/-- No instruction raises, rejects or lacks its operands. -/
def Completes : List PythonInstruction → FrameState → Prop
  | [], _ => True
  | i :: rest, st =>
    ¬ st.Raises d i ∧ i.opcode ≠ PythonOpcode.reject ∧ ¬ st.Starved i ∧
      Completes rest (st.advance d i)

instance decidableRaisesEarly : (is : List PythonInstruction) → (st : FrameState) →
    Decidable (RaisesEarly d is st)
  | [], _ => inferInstanceAs (Decidable False)
  | i :: rest, st =>
    have := decidableRaisesEarly rest (st.advance d i)
    inferInstanceAs (Decidable (st.Raises d i ∨ ¬ st.Writes i ∧ _))

instance decidableCompletes : (is : List PythonInstruction) → (st : FrameState) →
    Decidable (Completes d is st)
  | [], _ => inferInstanceAs (Decidable True)
  | i :: rest, st =>
    have := decidableCompletes rest (st.advance d i)
    inferInstanceAs (Decidable (¬ st.Raises d i ∧ i.opcode ≠ _ ∧ ¬ st.Starved i ∧ _))

end FrameState

/-! ## The effects of a frame -/

namespace PythonStreamFrame

open NameTable

/-- The record that an instruction asks for. -/
def effectOf (d : StreamDictionary) (i : PythonInstruction) : Option (RecordKind × Option SlotId) :=
  match i.opcode with
  | PythonOpcode.define => some (.define, lastEntry d.slots i.argument)
  | PythonOpcode.forget => some (.forget, lastEntry d.slots i.argument)
  | _ => none

def allocates (i : PythonInstruction) : Bool :=
  i.opcode = PythonOpcode.allocate ∨ i.opcode = PythonOpcode.allocateDiscard

/-- The frame from `s` to `s'` has done everything that its instructions ask for. -/
structure Performed (frame : PythonStreamFrame) (k : ForthDb) (s s' : PythonForthDb)
    (records : List Record) : Prop where
  log : s'.store.log = s.store.log ++ records
  effects : records.map (fun r => (r.kind, some r.slot)) =
    frame.instructions.filterMap (effectOf frame.dictionary)
  allocator : s'.nextEntity = s.nextEntity + frame.instructions.countP allocates
  kernel : s'.Refines
    (FrameState.after frame.dictionary frame.instructions (.start k frame.localCount)).kernel
  accepted : ∀ i ∈ frame.instructions, i.opcode ≠ PythonOpcode.reject

/-- All effects of the frame, or an exception and none. -/
def Atomic (frame : PythonStreamFrame) (k : ForthDb) (s : PythonForthDb) : Prop :=
  match executeIsaFrame s frame with
  | (.ok records, s') => frame.Performed k s s' records
  | (.error _, s') => s' = s

end PythonStreamFrame

/-! ## One instruction -/

theorem StreamDictionary.slotAt_eq {d : StreamDictionary} {token : ℕ} {slot : SlotId}
    (h : NameTable.lastEntry d.slots token = some slot) : d.slotAt token = .ok slot := by
  unfold slotAt
  rw [h]

theorem StreamDictionary.slotAt_error {d : StreamDictionary} {token : ℕ}
    (h : NameTable.lastEntry d.slots token = none) : ∃ e, d.slotAt token = .error e := by
  unfold slotAt
  rw [h]
  exact ⟨_, rfl⟩

theorem StreamDictionary.resolveAtom_ok {d : StreamDictionary} {cell : PythonCell}
    (h : cell ≠ .none) : ∃ atom, d.resolveAtom cell = .ok atom := by
  cases cell with
  | entity e => exact ⟨_, rfl⟩
  | int n =>
    unfold resolveAtom
    by_cases hn : n < literalBase
    · exact ⟨_, if_pos hn⟩
    · simp only [if_neg hn]
      cases NameTable.lastEntry d.literals n <;> exact ⟨_, rfl⟩
  | none => exact absurd rfl h

/-- What a write increases. -/
def PythonForthDb.size (s : PythonForthDb) : ℕ := s.store.log.length + s.nextEntity

namespace FrameMachine

open NameTable PythonStreamFrame

variable {d : StreamDictionary} {m m' : FrameMachine} {st : FrameState} {i : PythonInstruction}

/-- The machine stands for the state. -/
structure Mirrors (m : FrameMachine) (st : FrameState) : Prop where
  kernel : m.kernel.Refines st.kernel
  sound : st.kernel.Sound
  locals : m.locals = st.locals
  stack : m.stack = st.stack

/-- What an instruction leaves behind, counted in the log and the allocator. -/
structure Moved (d : StreamDictionary) (st : FrameState) (i : PythonInstruction)
    (m m' : FrameMachine) : Prop where
  mirrors : m'.Mirrors (st.advance d i)
  records : ∃ new, m'.records = m.records ++ new ∧
    m'.kernel.store.log = m.kernel.store.log ++ new ∧
    (¬ st.Starved i → new.map (fun r => (r.kind, some r.slot)) = (effectOf d i).toList) ∧
    (st.Starved i → new = [])
  allocator : m'.kernel.nextEntity = m.kernel.nextEntity + if allocates i then 1 else 0
  quiet : ¬ st.Writes i → m'.kernel = m.kernel

/-- Assigning to a local fails exactly outside of the vector. -/
theorem assignLocal_error {locals : List PythonCell} {n : ℕ} (cell : PythonCell)
    (h : locals.length ≤ n) : ∃ e, assignLocal locals n cell = .error e := by
  unfold assignLocal
  rw [if_neg (by omega)]
  exact ⟨_, rfl⟩

/-- An instruction that raises. -/
theorem step_raises (h : m.Mirrors st) (hi : st.Raises d i) : ∃ e, m.step d i = .error e := by
  unfold FrameState.Raises at hi
  unfold step
  split at hi
  next hop =>
    -- an expectation
    simp only [hop, StreamDictionary.expectObject]
    cases hslot : lastEntry d.slots i.argument with
    | none =>
      obtain ⟨e, he⟩ := StreamDictionary.slotAt_error hslot
      rw [he]
      exact ⟨e, rfl⟩
    | some slot =>
      rw [hslot] at hi
      simp only [StreamDictionary.slotAt_eq hslot, bind, Except.bind,
        PythonForthDb.Refines.resolve h.kernel h.sound]
      cases hactual : st.kernel.resolve slot with
      | none => exact ⟨_, rfl⟩
      | some actual =>
        simp only [hactual] at hi
        simp only [if_neg hi]
        exact ⟨_, rfl⟩
  next hop =>
    simp only [hop, h.locals, List.getElem?_eq_none hi]
    exact ⟨_, rfl⟩
  next hop =>
    simp only [hop, h.locals, h.stack]
    cases hstack : st.stack with
    | nil => exact ⟨_, rfl⟩
    | cons cell stack =>
      rw [hstack] at hi
      obtain ⟨e, he⟩ := assignLocal_error cell (hi.resolve_left (by simp))
      simp only [he]
      exact ⟨e, rfl⟩
  next hop =>
    simp only [hop, h.stack]
    split at hi
    next object predicate subject stack hstack =>
      simp only [hstack, bind, Except.bind]
      -- the subject is resolved first, then the object, then the slot
      cases hsubject : d.resolveAtom subject with
      | error e => exact ⟨e, rfl⟩
      | ok subject' =>
        cases hobject : d.resolveAtom object with
        | error e => exact ⟨e, rfl⟩
        | ok object' =>
          have hslot : lastEntry d.slots i.argument = none := by
            rcases hi with rfl | rfl | hslot
            · cases hsubject
            · cases hobject
            · exact hslot
          obtain ⟨e, he⟩ := StreamDictionary.slotAt_error hslot
          simp only [he]
          exact ⟨e, rfl⟩
    next => exact hi.elim
  next hop =>
    obtain ⟨e, he⟩ := StreamDictionary.slotAt_error hi
    simp only [hop, he]
    exact ⟨e, rfl⟩
  next => exact hi.elim

/-- An instruction that leaves the kernel as it is. -/
theorem Moved.still (h : m.Mirrors st) {locals stack : List PythonCell}
    (hstate : st.advance d i = { st with locals := locals, stack := stack })
    (heffect : ¬ st.Starved i → effectOf d i = none) (hallocates : allocates i = false) :
    Moved d st i m { m with locals := locals, stack := stack } where
  mirrors := by
    rw [hstate]
    exact ⟨h.kernel, h.sound, rfl, rfl⟩
  records := ⟨[], by simp, by simp, fun hs => by rw [heffect hs]; rfl, fun _ => rfl⟩
  allocator := by simp [hallocates]
  quiet _ := rfl

/-- An instruction that allocates. -/
theorem Moved.allocated (h : m.Mirrors st) {stack : List PythonCell}
    (hstate : st.advance d i = { st with kernel := st.kernel.entity.2, stack := stack })
    (heffect : effectOf d i = none) (hallocates : allocates i = true) :
    Moved d st i m { m with kernel := m.kernel.entity.2, stack := stack } where
  mirrors := by
    rw [hstate]
    exact ⟨h.kernel.entity.2, ForthDb.entity_sound h.sound, h.locals, rfl⟩
  records := ⟨[], by simp [PythonForthDb.entity, heffect]⟩
  allocator := by simp [PythonForthDb.entity, hallocates]
  quiet hw := by
    refine absurd ?_ hw
    unfold allocates at hallocates
    rcases of_decide_eq_true hallocates with hop | hop
    · simp [FrameState.Writes, hop]
    · simp [FrameState.Writes, hop]

/-- An instruction that does not raise. -/
theorem step_advances (h : m.Mirrors st) (hi : ¬ st.Raises d i) :
    ∃ m', m.step d i = .ok m' ∧ Moved d st i m m' := by
  unfold FrameState.Raises at hi
  unfold step
  split
  next hop =>
    refine ⟨m, ?_, ?_⟩
    · simp only [hop] at hi
      split at hi
      next slot hslot =>
        split at hi
        next actual hactual =>
          simp only [StreamDictionary.expectObject, StreamDictionary.slotAt_eq hslot, bind,
            Except.bind, PythonForthDb.Refines.resolve h.kernel h.sound, hactual,
            if_pos (not_not.1 hi)]
          rfl
        next => exact absurd trivial hi
      next => exact absurd trivial hi
    · refine Moved.still h ?_ (fun _ => ?_) ?_
      · simp only [FrameState.advance, hop, h.locals, h.stack]
      · simp only [effectOf, hop]
      · simp [allocates, hop]
  next hop =>
    refine ⟨_, rfl, Moved.allocated h ?_ ?_ ?_⟩
    · have hentity : (⟨m.kernel.nextEntity⟩ : EntityId) = st.kernel.entity.1 := h.kernel.entity.1
      simp only [FrameState.advance, hop, h.stack, hentity]
    · simp only [effectOf, hop]
    · simp [allocates, hop]
  next hop =>
    refine ⟨_, rfl, Moved.allocated h ?_ ?_ ?_⟩
    · simp only [FrameState.advance, hop, h.stack]
    · simp only [effectOf, hop]
    · simp [allocates, hop]
  next hop =>
    simp only [hop, not_le] at hi
    rw [h.locals, List.getElem?_eq_getElem hi]
    refine ⟨_, rfl, Moved.still h ?_ (fun _ => ?_) ?_⟩
    · simp only [FrameState.advance, hop, h.locals, h.stack,
        List.getD_eq_getElem?_getD, List.getElem?_eq_getElem hi, Option.getD_some]
    · simp only [effectOf, hop]
    · simp [allocates, hop]
  next hop =>
    simp only [hop, not_or, not_le] at hi
    rw [h.stack]
    cases hstack : st.stack with
    | nil => exact absurd hstack hi.1
    | cons cell stack =>
      simp only [assignLocal, h.locals, if_pos hi.2, bind, Except.bind, pure, Except.pure]
      refine ⟨_, rfl, Moved.still h ?_ (fun _ => ?_) ?_⟩
      · simp only [FrameState.advance, hop, hstack]
      · simp only [effectOf, hop]
      · simp [allocates, hop]
  next hop =>
    refine ⟨_, rfl, Moved.still h ?_ (fun _ => ?_) ?_⟩
    · simp only [FrameState.advance, hop, h.locals, h.stack]
    · simp only [effectOf, hop]
    · simp [allocates, hop]
  next hop =>
    simp only [hop] at hi
    rw [h.stack]
    split
    next object predicate subject stack hstack =>
      simp only [hstack, not_or] at hi
      obtain ⟨hsubject, hobject, hslot⟩ := hi
      obtain ⟨subject', hsubject'⟩ := StreamDictionary.resolveAtom_ok (d := d) hsubject
      obtain ⟨object', hobject'⟩ := StreamDictionary.resolveAtom_ok (d := d) hobject
      obtain ⟨slot, hslot'⟩ := Option.ne_none_iff_exists'.1 hslot
      obtain ⟨r, kernel, hdefine, hrefines, hkind, hr, hlog, hnext⟩ := h.kernel.define h.sound slot
        ⟨subject', d.resolvePredicate predicate, object'⟩
      simp only [hsubject', hobject', StreamDictionary.slotAt_eq hslot', hdefine, bind, Except.bind,
        pure, Except.pure]
      have hadvance : st.advance d i =
          { st with
            kernel := st.kernel.define slot ⟨subject', d.resolvePredicate predicate, object'⟩
            stack := stack } := by
        simp only [FrameState.advance, hop, hstack, hsubject', hobject', hslot']
      have hfed : ¬ st.Starved i := by
        rintro ⟨-, hlt⟩
        rw [hstack] at hlt
        simp only [List.length_cons] at hlt
        omega
      refine ⟨_, rfl, ?_, ⟨[r], rfl, hlog, fun _ => ?_, fun hs => absurd hs hfed⟩, ?_, fun hw => ?_⟩
      · rw [hadvance]
        exact ⟨hrefines, ForthDb.define_sound h.sound _ _, h.locals, rfl⟩
      · simp [effectOf, hop, hkind, hr, hslot']
      · simp [allocates, hop, hnext]
      · exact absurd (by simp [FrameState.Writes, hop, hstack]) hw
    next hstack =>
      have hstarved : st.Starved i := by
        refine ⟨hop, ?_⟩
        rcases hst : st.stack with _ | ⟨a, _ | ⟨b, _ | ⟨c, rest⟩⟩⟩
        · simp
        · simp
        · simp
        · exact absurd hst (hstack a b c rest)
      refine ⟨m, rfl, Moved.still h ?_ (fun hs => absurd hstarved hs) ?_⟩
      · simp only [FrameState.advance, hop, h.locals, h.stack]
      · simp [allocates, hop]
  next hop =>
    simp only [hop] at hi
    obtain ⟨slot, hslot⟩ := Option.ne_none_iff_exists'.1 hi
    obtain ⟨r, kernel, hforget, hrefines, hkind, hr, hlog, hnext⟩ := h.kernel.forget h.sound slot
    simp only [StreamDictionary.slotAt_eq hslot, hforget, bind, Except.bind, pure, Except.pure]
    have hadvance : st.advance d i = { st with kernel := st.kernel.forget slot } := by
      simp only [FrameState.advance, hop, hslot]
    have hfed : ¬ st.Starved i := by
      rintro ⟨hdefine, -⟩
      rw [hop] at hdefine
      exact absurd hdefine (by decide)
    refine ⟨_, rfl, ?_, ⟨[r], rfl, hlog, fun _ => ?_, fun hs => absurd hs hfed⟩, ?_, fun hw => ?_⟩
    · rw [hadvance]
      exact ⟨hrefines, ForthDb.forget_sound h.sound _, h.locals, h.stack⟩
    · simp [effectOf, hop, hkind, hr, hslot]
    · simp [allocates, hop, hnext]
    · exact absurd (by simp [FrameState.Writes, hop]) hw
  next hexpect hallocate hdiscard hload hstore hpush hdefine hforget =>
    -- `REJECT` and every other number
    refine ⟨m, rfl, Moved.still h ?_ (fun _ => ?_) ?_⟩
    · unfold FrameState.advance
      split
      all_goals first | contradiction | simp only [h.locals, h.stack]
    · unfold effectOf
      split
      all_goals first | contradiction | rfl
    · simp only [allocates, decide_eq_false_iff_not, not_or]
      exact ⟨hallocate, hdiscard⟩

/-! ## A run -/

/-- One instruction after the other. -/
def walk (d : StreamDictionary) : List PythonInstruction → FrameMachine →
    Except String (List Record) × PythonForthDb
  | [], m => (.ok m.records, m.kernel)
  | i :: rest, m =>
    match m.step d i with
    | .ok m => walk d rest m
    | .error e => (.error e, m.kernel)

/-- **The lookahead changes nothing**: an allocated entity that is stored at once is pushed,
then popped. -/
theorem runInstructions_eq (d : StreamDictionary) (is : List PythonInstruction)
    (m : FrameMachine) : runInstructions d is m = walk d is m := by
  fun_induction runInstructions d is m with
  | case1 m => rfl
  | case2 m i m' hm' => simp only [walk, hm']
  | case3 m i e he => simp only [walk, he]
  | case4 m i next rest hop entity kernel hentity locals hlocals ih =>
    rw [ih]
    simp only [walk, step, hop.1, hop.2, hentity, hlocals, bind, Except.bind, pure, Except.pure]
  | case5 m i next rest hop entity kernel hentity e he =>
    simp only [walk, step, hop.1, hop.2, hentity, he, bind, Except.bind]
  | case6 m i next rest hop m' hm' ih =>
    rw [ih]
    simp only [walk, hm']
  | case7 m i next rest hop e he => simp only [walk, he]

variable {is : List PythonInstruction}

/-- An early exception leaves the kernel as it was. -/
theorem walk_raises_early (h : m.Mirrors st) (his : FrameState.RaisesEarly d is st) :
    ∃ e, walk d is m = (.error e, m.kernel) := by
  induction is generalizing m st with
  | nil => exact his.elim
  | cons i rest ih =>
    unfold walk
    by_cases hi : st.Raises d i
    · obtain ⟨e, he⟩ := step_raises h hi
      exact ⟨e, by rw [he]⟩
    · obtain ⟨hw, hrest⟩ := his.resolve_left hi
      obtain ⟨m', hm', hmoved⟩ := step_advances h hi
      obtain ⟨e, he⟩ := ih hmoved.mirrors hrest
      -- nothing in front of the exception has written
      rw [hmoved.quiet hw] at he
      exact ⟨e, by rw [hm']; exact he⟩

/-- A run in which nothing raises, rejects or lacks operands performs every effect. -/
theorem walk_completes (h : m.Mirrors st) (his : FrameState.Completes d is st) :
    ∃ (new : List Record) (m' : FrameMachine),
      walk d is m = (.ok (m.records ++ new), m'.kernel) ∧
      m'.kernel.store.log = m.kernel.store.log ++ new ∧
      new.map (fun r => (r.kind, some r.slot)) = is.filterMap (effectOf d) ∧
      m'.kernel.nextEntity = m.kernel.nextEntity + is.countP allocates ∧
      m'.Mirrors (FrameState.after d is st) ∧
      ∀ i ∈ is, i.opcode ≠ PythonOpcode.reject := by
  induction is generalizing m st with
  | nil => exact ⟨[], m, by simp [walk], by simp, rfl, rfl, h, by simp⟩
  | cons i rest ih =>
    obtain ⟨hi, hreject, hfed, hrest⟩ := his
    obtain ⟨m₁, hm₁, hmoved⟩ := step_advances h hi
    obtain ⟨new₁, hrecords₁, hlog₁, heffect, -⟩ := hmoved.records
    obtain ⟨new₂, m₂, hwalk, hlog₂, heffects, hnext, hmirrors, haccepted⟩ :=
      ih hmoved.mirrors hrest
    refine ⟨new₁ ++ new₂, m₂, ?_, ?_, ?_, ?_, hmirrors, ?_⟩
    · unfold walk
      rw [hm₁]
      simp only [hwalk, hrecords₁, List.append_assoc]
    · rw [hlog₂, hlog₁, List.append_assoc]
    · rw [List.map_append, heffect hfed, heffects, List.filterMap_cons]
      cases effectOf d i <;> rfl
    · rw [hnext, hmoved.allocator, List.countP_cons]
      omega
    · intro j hj
      rcases List.mem_cons.1 hj with rfl | hj
      · exact hreject
      · exact haccepted j hj

theorem Moved.size_le (h : Moved d st i m m') : m.kernel.size ≤ m'.kernel.size := by
  obtain ⟨new, -, hlog, -⟩ := h.records
  have hnext := h.allocator
  unfold PythonForthDb.size
  rw [hlog, List.length_append]
  omega

/-- A write is a record or an allocation. -/
theorem Moved.size_lt (h : Moved d st i m m') (hw : st.Writes i) :
    m.kernel.size < m'.kernel.size := by
  obtain ⟨new, -, hlog, heffect, -⟩ := h.records
  have hnext := h.allocator
  unfold PythonForthDb.size
  rw [hlog, List.length_append]
  unfold FrameState.Writes at hw
  split at hw
  next hop =>
    rw [if_pos (by simp [allocates, hop])] at hnext
    omega
  next hop =>
    rw [if_pos (by simp [allocates, hop])] at hnext
    omega
  next hop =>
    have hlength := congrArg List.length (heffect fun hs => absurd hs.2 (by omega))
    simp only [effectOf, hop, List.length_map, Option.toList_some, List.length_singleton] at hlength
    omega
  next hop =>
    have hfed : ¬ st.Starved i := by
      rintro ⟨hdefine, -⟩
      rw [hop] at hdefine
      exact absurd hdefine (by decide)
    have hlength := congrArg List.length (heffect hfed)
    simp only [effectOf, hop, List.length_map, Option.toList_some, List.length_singleton] at hlength
    omega
  next => exact hw.elim

/-- Writes are never taken back. -/
theorem walk_size_le (h : m.Mirrors st) : m.kernel.size ≤ (walk d is m).2.size := by
  induction is generalizing m st with
  | nil => exact le_refl _
  | cons i rest ih =>
    unfold walk
    by_cases hi : st.Raises d i
    · obtain ⟨e, he⟩ := step_raises h hi
      rw [he]
    · obtain ⟨m', hm', hmoved⟩ := step_advances h hi
      rw [hm']
      exact hmoved.size_le.trans (ih hmoved.mirrors)

/-- An exception that is not early finds the kernel written to. -/
theorem walk_error (h : m.Mirrors st) {e : String} {s' : PythonForthDb}
    (hwalk : walk d is m = (.error e, s')) :
    FrameState.RaisesEarly d is st ∨ m.kernel.size < s'.size := by
  induction is generalizing m st with
  | nil => cases hwalk
  | cons i rest ih =>
    by_cases hi : st.Raises d i
    · exact .inl (.inl hi)
    · obtain ⟨m', hm', hmoved⟩ := step_advances h hi
      unfold walk at hwalk
      rw [hm'] at hwalk
      by_cases hw : st.Writes i
      · have hle : m'.kernel.size ≤ (walk d rest m').2.size := walk_size_le hmoved.mirrors
        simp only at hwalk
        rw [hwalk] at hle
        exact .inr ((hmoved.size_lt hw).trans_le hle)
      · rcases ih hmoved.mirrors hwalk with hearly | hlt
        · exact .inl (.inr ⟨hw, hearly⟩)
        · rw [hmoved.quiet hw] at hlt
          exact .inr hlt

/-- A run that returns has at most the records that the instructions ask for; with all of them,
no define lacked its operands. -/
theorem walk_ok (h : m.Mirrors st) {records : List Record} {s' : PythonForthDb}
    (hwalk : walk d is m = (.ok records, s')) :
    ∃ new, records = m.records ++ new ∧ new.length ≤ (is.filterMap (effectOf d)).length ∧
      (new.length = (is.filterMap (effectOf d)).length →
        (∀ i ∈ is, i.opcode ≠ PythonOpcode.reject) → FrameState.Completes d is st) := by
  induction is generalizing m st with
  | nil =>
    obtain ⟨hrecords, -⟩ := Prod.mk.inj hwalk
    exact ⟨[], by rw [← Except.ok.inj hrecords, List.append_nil], le_refl _, fun _ _ => trivial⟩
  | cons i rest ih =>
    unfold walk at hwalk
    by_cases hi : st.Raises d i
    · obtain ⟨e, he⟩ := step_raises h hi
      rw [he] at hwalk
      cases hwalk
    · obtain ⟨m', hm', hmoved⟩ := step_advances h hi
      rw [hm'] at hwalk
      obtain ⟨new₂, hrecords₂, hle, hcompletes⟩ := ih hmoved.mirrors hwalk
      obtain ⟨new₁, hrecords₁, -, heffect, hstarved⟩ := hmoved.records
      refine ⟨new₁ ++ new₂, by rw [hrecords₂, hrecords₁, List.append_assoc], ?_⟩
      rw [List.length_append]
      by_cases hs : st.Starved i
      · -- the define is asked for and missing
        have hlength : ((i :: rest).filterMap (effectOf d)).length =
            (rest.filterMap (effectOf d)).length + 1 := by
          simp only [List.filterMap_cons, effectOf, hs.1, List.length_cons]
        rw [hstarved hs, hlength, List.length_nil]
        refine ⟨by omega, fun heq _ => absurd heq (by omega)⟩
      · have hlength : ((i :: rest).filterMap (effectOf d)).length =
            new₁.length + (rest.filterMap (effectOf d)).length := by
          have hnew := congrArg List.length (heffect hs)
          rw [List.length_map] at hnew
          rw [hnew, List.filterMap_cons]
          cases effectOf d i with
          | none => simp
          | some effect => simp [Nat.add_comm]
        rw [hlength]
        refine ⟨by omega, fun heq haccepted => ⟨hi, ?_, hs, hcompletes (by omega) ?_⟩⟩
        · exact haccepted i List.mem_cons_self
        · exact fun j hj => haccepted j (List.mem_cons_of_mem _ hj)

theorem start_mirrors {s : PythonForthDb} {k : ForthDb} (h : s.Refines k) (hk : k.Sound)
    (localCount : ℕ) : (start s localCount).Mirrors (.start k localCount) := ⟨h, hk, rfl, rfl⟩

end FrameMachine

/-! ## Atomicity -/

namespace PythonStreamFrame

/-- The instructions of the frame on the kernel. -/
def RaisesEarly (frame : PythonStreamFrame) (k : ForthDb) : Prop :=
  FrameState.RaisesEarly frame.dictionary frame.instructions (.start k frame.localCount)

def Completes (frame : PythonStreamFrame) (k : ForthDb) : Prop :=
  FrameState.Completes frame.dictionary frame.instructions (.start k frame.localCount)

end PythonStreamFrame

/-- One slot is defined on a new kernel, and one more instruction follows. -/
def definesThen (i : PythonInstruction) : PythonStreamFrame where
  dictionary := ⟨[(0, ⟨"status"⟩)], [(0, ⟨"state"⟩)], []⟩
  localCount := 0
  instructions :=
    [⟨PythonOpcode.pushCell, 0, 1⟩, ⟨PythonOpcode.pushCell, 0, 0⟩, ⟨PythonOpcode.pushCell, 0, 2⟩,
      ⟨PythonOpcode.define, 0, 0⟩, i]

end ForthDB
