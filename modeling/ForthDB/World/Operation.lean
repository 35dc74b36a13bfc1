import ForthDB.Core.KernelStacks

/-!
# Operations, commit frames and world ids

A world changes by operations: allocate an entity, define a slot, forget a slot.
`applyOperation` runs one on a kernel next to the world's allocator;
`calculateWorldId` hashes what a commit is made of.

The abstract state of a world is `WorldState`: the stacks of its slots, the number
of its log records and its allocator. `applyOperation_holds` connects the two.
-/

namespace ForthDB

open Bytes

structure WorldId where
  value : UInt64
deriving DecidableEq, Repr

/-- `WorldId::GENESIS`. -/
def WorldId.genesis : WorldId := ⟨Fnv.offsetBasis⟩

inductive Operation
  | allocateEntity (entity : EntityId)
  | define (slot : SlotId) (fact : Fact)
  | forget (slot : SlotId)
deriving DecidableEq, Repr

structure CommitFrame where
  parentWorld : WorldId
  resultingWorld : WorldId
  parentVersion : ℕ
  resultingVersion : ℕ
  resultingAllocator : ℕ
  operations : List Operation
deriving DecidableEq, Repr

inductive CandidateError
  | historyParentMismatch (expected actual : WorldId)
  | historyVersionMismatch (expected actual : ℕ)
  | allocatorOperationMismatch (expected actual : ℕ)
  | allocatorStateMismatch (expected actual : ℕ)
  | worldIdentityMismatch (expected actual : WorldId)
  | baseWorldMismatch (expected actual : WorldId)
  | kernelInvariant (message : String)
deriving DecidableEq, Repr

/-- `apply_operation`: on a kernel and the allocator beside it. -/
def applyOperation (s : ForthDb × ℕ) : Operation → Except CandidateError (ForthDb × ℕ)
  | .allocateEntity entity =>
    if entity.value ≠ s.2 then .error (.allocatorOperationMismatch s.2 entity.value)
    else
      let (actual, kernel) := s.1.entity
      if actual ≠ entity then .error (.allocatorOperationMismatch entity.value actual.value)
      else .ok (kernel, s.2 + 1)
  | .define slot fact => .ok (s.1.define slot fact, s.2)
  | .forget slot => .ok (s.1.forget slot, s.2)

/-- Run operations in order, up to the first error. -/
def applyOperations (s : ForthDb × ℕ) : List Operation → Except CandidateError (ForthDb × ℕ)
  | [] => .ok s
  | op :: ops =>
    match applyOperation s op with
    | .ok s' => applyOperations s' ops
    | .error e => .error e

/-- The bytes `StableHasher::string` absorbs. -/
def hashString (s : String) : List UInt8 := le 8 (utf8 s).length ++ utf8 s

def hashAtom : Atom → List UInt8
  | .entity e => 0 :: le 8 e.value
  | .literal l => 1 :: hashString l.value

def hashFact (f : Fact) : List UInt8 :=
  hashAtom f.subject ++ hashString f.predicate.value ++ hashAtom f.object

def hashOperation : Operation → List UInt8
  | .allocateEntity e => 0 :: le 8 e.value
  | .define slot fact => 1 :: hashString slot.value ++ hashFact fact
  | .forget slot => 2 :: hashString slot.value

/-- `calculate_world_id`. -/
def calculateWorldId (parent : WorldId) (resultingVersion resultingAllocator : ℕ)
    (operations : List Operation) : WorldId :=
  ⟨Fnv.fnv1a (le 8 parent.value.toNat ++ le 8 resultingVersion ++ le 8 resultingAllocator ++
    le 8 operations.length ++ operations.flatMap hashOperation)⟩

/-- The abstract state of a world. -/
@[ext] structure WorldState where
  slots : SlotStacks
  records : ℕ
  next : ℕ

namespace WorldState

/-- Nothing defined, entity one next. -/
def genesis : WorldState := ⟨.empty, 0, 1⟩

/-- What an operation means: only an allocation can fail, when it does not name the next entity. -/
def apply (a : WorldState) : Operation → Option WorldState
  | .allocateEntity e => if e.value = a.next then some { a with next := a.next + 1 } else none
  | .define slot fact => some { a with slots := a.slots.push slot fact, records := a.records + 1 }
  | .forget slot => some { a with slots := a.slots.pop slot, records := a.records + 1 }

def applyAll (a : WorldState) : List Operation → Option WorldState
  | [] => some a
  | op :: ops => (a.apply op).bind fun b => b.applyAll ops

theorem applyAll_append (a : WorldState) (xs ys : List Operation) :
    a.applyAll (xs ++ ys) = (a.applyAll xs).bind fun b => b.applyAll ys := by
  induction xs generalizing a with
  | nil => rfl
  | cons x xs ih =>
    simp only [List.cons_append, applyAll]
    cases a.apply x with
    | none => rfl
    | some b => simpa using ih b

end WorldState

/-- The number of log records an operation appends. -/
def Operation.records : Operation → ℕ
  | .allocateEntity _ => 0
  | .define _ _ => 1
  | .forget _ => 1

theorem WorldState.apply_records {a b : WorldState} {op : Operation} (h : a.apply op = some b) :
    b.records = a.records + op.records := by
  cases op with
  | allocateEntity e =>
    simp only [apply] at h
    split at h
    · cases h; rfl
    · cases h
  | define slot fact => cases h; rfl
  | forget slot => cases h; rfl

theorem WorldState.applyAll_records {a b : WorldState} {ops : List Operation}
    (h : a.applyAll ops = some b) : b.records = a.records + (ops.map Operation.records).sum := by
  induction ops generalizing a with
  | nil => cases h; simp
  | cons op ops ih =>
    simp only [applyAll, Option.bind_eq_some_iff] at h
    obtain ⟨c, hc, hb⟩ := h
    rw [ih hb, WorldState.apply_records hc, List.map_cons, List.sum_cons, Nat.add_assoc]

/-- What an operation does to the stacks of slots. -/
def SlotStacks.perform (m : SlotStacks) : Operation → SlotStacks
  | .allocateEntity _ => m
  | .define slot fact => m.push slot fact
  | .forget slot => m.pop slot

theorem WorldState.apply_slots {a b : WorldState} {op : Operation} (h : a.apply op = some b) :
    b.slots = SlotStacks.perform a.slots op := by
  cases op with
  | allocateEntity e =>
    simp only [apply] at h
    split at h
    · cases h; rfl
    · cases h
  | define slot fact => cases h; rfl
  | forget slot => cases h; rfl

theorem WorldState.applyAll_slots {a b : WorldState} {ops : List Operation}
    (h : a.applyAll ops = some b) : b.slots = ops.foldl SlotStacks.perform a.slots := by
  induction ops generalizing a with
  | nil => cases h; rfl
  | cons op ops ih =>
    simp only [applyAll, Option.bind_eq_some_iff] at h
    obtain ⟨c, hc, hb⟩ := h
    rw [ih hb, apply_slots hc, List.foldl_cons]

/-- Whether operations apply, and what they allocate, depends on the allocator alone. -/
theorem WorldState.applyAll_next {a c b : WorldState} {ops : List Operation} (hn : a.next = c.next)
    (h : a.applyAll ops = some b) : ∃ b', c.applyAll ops = some b' ∧ b'.next = b.next := by
  induction ops generalizing a c with
  | nil => cases h; exact ⟨c, rfl, hn.symm⟩
  | cons op ops ih =>
    simp only [applyAll, Option.bind_eq_some_iff] at h
    obtain ⟨d, hc, hb⟩ := h
    cases op with
    | allocateEntity e =>
      simp only [apply] at hc
      split at hc
      · rename_i he
        cases hc
        obtain ⟨b', hb', hn'⟩ := ih (c := { c with next := c.next + 1 }) (by simp [hn]) hb
        refine ⟨b', ?_, hn'⟩
        simp only [applyAll, apply, if_pos (he.trans hn), Option.bind_some]
        exact hb'
      · cases hc
    | define slot fact =>
      cases hc
      obtain ⟨b', hb', hn'⟩ := ih (a := { a with
        slots := a.slots.push slot fact, records := a.records + 1 }) (c := { c with
        slots := c.slots.push slot fact, records := c.records + 1 }) hn hb
      exact ⟨b', hb', hn'⟩
    | forget slot =>
      cases hc
      obtain ⟨b', hb', hn'⟩ := ih (a := { a with
        slots := a.slots.pop slot, records := a.records + 1 }) (c := { c with
        slots := c.slots.pop slot, records := c.records + 1 }) hn hb
      exact ⟨b', hb', hn'⟩

/-- A kernel and the allocator beside it hold an abstract state. -/
structure StateHolds (s : ForthDb × ℕ) (a : WorldState) : Prop where
  kernel : s.1.Holds a.slots
  records : s.1.recordCount = a.records
  next : s.2 = a.next
  allocator : s.1.nextEntity = a.next

theorem stateHolds_genesis : StateHolds (.new, 1) .genesis :=
  ⟨ForthDb.new_holds, rfl, rfl, rfl⟩

/-- **One operation** succeeds on the kernel exactly when it does on the abstract state. -/
theorem applyOperation_holds {s : ForthDb × ℕ} {a : WorldState} (h : StateHolds s a)
    (op : Operation) :
    (∃ s' b, applyOperation s op = .ok s' ∧ a.apply op = some b ∧ StateHolds s' b) ∨
      (∃ e, applyOperation s op = .error e) ∧ a.apply op = none := by
  cases op with
  | allocateEntity e =>
    by_cases he : e.value = a.next
    · left
      have h1 : ¬ e.value ≠ s.2 := by rw [h.next]; simp [he]
      have h2 : s.1.entity.1 = e := by
        simp only [ForthDb.entity, h.allocator, ← he]
      refine ⟨(s.1.entity.2, s.2 + 1), { a with next := a.next + 1 }, ?_, if_pos he, ?_⟩
      · simp only [applyOperation, if_neg h1]
        rw [if_neg (by simp [h2])]
      · refine ⟨ForthDb.entity_holds h.kernel, h.records, ?_, ?_⟩
        · simp [h.next]
        · simp [ForthDb.entity, h.allocator]
    · right
      have h1 : e.value ≠ s.2 := by rw [h.next]; exact he
      exact ⟨⟨.allocatorOperationMismatch s.2 e.value, by simp only [applyOperation, if_pos h1]⟩,
        if_neg he⟩
  | define slot fact =>
    left
    exact ⟨_, _, rfl, rfl, ForthDb.define_holds h.kernel slot fact, by simp [h.records], h.next,
      h.allocator⟩
  | forget slot =>
    left
    exact ⟨_, _, rfl, rfl, ForthDb.forget_holds h.kernel slot, by simp [h.records], h.next,
      h.allocator⟩

/-- **A run of operations** succeeds on the kernel exactly when it does on the abstract state. -/
theorem applyOperations_holds {s : ForthDb × ℕ} {a : WorldState} (h : StateHolds s a)
    (ops : List Operation) :
    (∃ s' b, applyOperations s ops = .ok s' ∧ a.applyAll ops = some b ∧ StateHolds s' b) ∨
      (∃ e, applyOperations s ops = .error e) ∧ a.applyAll ops = none := by
  induction ops generalizing s a with
  | nil => exact .inl ⟨s, a, rfl, rfl, h⟩
  | cons op ops ih =>
    rcases applyOperation_holds h op with ⟨s', b, h1, h2, h3⟩ | ⟨⟨e, h1⟩, h2⟩
    · simpa [applyOperations, WorldState.applyAll, h1, h2] using ih h3
    · right
      exact ⟨⟨e, by simp [applyOperations, h1]⟩, by simp [WorldState.applyAll, h2]⟩

theorem applyOperations_ok {s : ForthDb × ℕ} {a b : WorldState} (h : StateHolds s a)
    {ops : List Operation} (hb : a.applyAll ops = some b) :
    ∃ s', applyOperations s ops = .ok s' ∧ StateHolds s' b := by
  rcases applyOperations_holds h ops with ⟨s', c, h1, h2, h3⟩ | ⟨-, h2⟩
  · rw [hb] at h2; cases h2; exact ⟨s', h1, h3⟩
  · rw [hb] at h2; cases h2

theorem applyOperations_append {s : ForthDb × ℕ} (xs ys : List Operation) :
    applyOperations s (xs ++ ys) =
      match applyOperations s xs with
      | .ok s' => applyOperations s' ys
      | .error e => .error e := by
  induction xs generalizing s with
  | nil => rfl
  | cons x xs ih =>
    simp only [List.cons_append, applyOperations]
    cases applyOperation s x with
    | ok s' => exact ih
    | error e => rfl

end ForthDB
