import ForthDB.Queue.Lowering

/-!
# What a lowered transaction keeps

A transaction's frame should be decoded to an intent that means the same, and be the frame of no
other transaction.

* `PreservedBy`: the intent has the operations of the transaction and its expectations.
* `preservedBy_iff`: **which transactions are preserved**: those without literals, expected objects
  and rejections.
* `Unshared`: every literal has its cell to itself.
* `lowering_preserves_iff`: both, for every transaction that lowers.
-/

namespace ForthDB

/-! ## The intent that a transaction means -/

def AtomRef.Denotes : AtomRef → Atom → Prop
  | .entity e, a => a = .entity e
  | .literal l, a => a = .literal ⟨l⟩
  | .symbol _, _ => False

namespace TransactionOp

/-- The operation holds in the world before the transaction. -/
def Holds (world : WorldId) (resolve : SlotId → Option Fact) : TransactionOp → Prop
  | .expectWorld expected => expected = world
  | .expectObject slot expected =>
    ∃ fact, resolve ⟨slot⟩ = some fact ∧ expected.Denotes fact.object
  | .reject => False
  | _ => True

def isExpectation : TransactionOp → Bool
  | .expectWorld _ | .expectObject _ _ | .reject => true
  | _ => false

end TransactionOp

/-- The precondition is met in exactly the worlds where the operation holds. -/
def IntentPrecondition.Asks (p : IntentPrecondition) (op : TransactionOp) : Prop :=
  ∀ world resolve, checkPreconditions world resolve [p] = .ok () ↔ op.Holds world resolve

/-- What an operand means behind the allocations of `seen`. -/
def AtomRef.intended (space : ℕ) (seen : List String) : AtomRef → Option IntentAtom
  | .entity e => some (.entity e)
  | .literal l => some (.literal ⟨l⟩)
  | .symbol s => (seen.idxOf? s).map fun index => .temporary ⟨space, index⟩

/-- The operations that a transaction means: a symbol is the temporary of its own allocation, an
earlier one. -/
def intendedOperations (space : ℕ) : List String → List TransactionOp → Option (List IntentOperation)
  | _, [] => some []
  | seen, .allocate result :: ops =>
    (intendedOperations space (seen ++ [result]) ops).map
      (.allocateEntity ⟨space, seen.length⟩ :: ·)
  | seen, .define slot subject predicate object :: ops => do
    let subject ← subject.intended space seen
    let object ← object.intended space seen
    let rest ← intendedOperations space seen ops
    some (.define ⟨slot⟩ ⟨subject, ⟨predicate⟩, object⟩ :: rest)
  | seen, .forget slot :: ops => (intendedOperations space seen ops).map (.forget ⟨slot⟩ :: ·)
  | seen, _ :: ops => intendedOperations space seen ops

namespace TransactionAst

/-- The intent has the namespace, the operations and the expectations of the transaction. -/
structure PreservedBy (a : TransactionAst) (i : QueuedIntent) : Prop where
  space : i.space = a.space
  operations : intendedOperations a.space [] a.operations = some i.operations
  expectations : List.Forall₂ IntentPrecondition.Asks i.preconditions
    (a.operations.filter TransactionOp.isExpectation)

end TransactionAst

/-! ## Which transactions are preserved -/

/-- The operand is decoded to what it means. -/
def AtomRef.Decodable (seen : List String) : AtomRef → Prop
  | .entity e => e.value < literalBase
  | .literal _ => False
  | .symbol s => s ∈ seen

def TransactionOp.Decodable (seen : List String) : TransactionOp → Prop
  | .define _ subject _ object => subject.Decodable seen ∧ object.Decodable seen
  | .expectObject _ _ | .reject => False
  | _ => True

/-- Operations without an expected object and without a rejection, whose definitions use entities
below the literal cells and symbols that are allocated before. -/
def DecodableFrom : List String → List TransactionOp → Prop
  | _, [] => True
  | seen, op :: ops => op.Decodable seen ∧ DecodableFrom (seen ++ op.allocated) ops

/-- **No precondition of an intent** asks for an object alone, or never to be met. -/
theorem IntentPrecondition.asks_iff {p : IntentPrecondition} {op : TransactionOp}
    (h : op.isExpectation) : p.Asks op ↔ ∃ w, op = .expectWorld w ∧ p = .expectedWorld w := by
  have hworld : ∀ w world resolve,
      checkPreconditions world resolve [.expectedWorld w] = .ok () ↔ w = world := by
    intro w world resolve
    simp only [checkPreconditions]
    by_cases hw : w = world
    · simp [hw]
    · simp [hw]
  have hslot : ∀ slot f world resolve,
      checkPreconditions world resolve [.expectedSlot slot f] = .ok () ↔ resolve slot = f := by
    intro slot f world resolve
    simp only [checkPreconditions]
    by_cases hf : resolve slot = f
    · simp [hf]
    · simp [hf]
  constructor
  · intro hp
    cases p with
    | expectedWorld w =>
      have hw := (hp w fun _ => none).1 ((hworld w w _).2 rfl)
      cases op with
      | expectWorld w' => exact ⟨w', rfl, by rw [show w' = w from hw]⟩
      | expectObject slot expected =>
        obtain ⟨fact, hfact, -⟩ := hw
        cases hfact
      | reject => exact hw.elim
      | _ => cases h
    | expectedSlot slot f =>
      have hany : ∀ world, op.Holds world fun _ => f :=
        fun world => (hp world fun _ => f).1 ((hslot slot f world _).2 rfl)
      cases op with
      | expectWorld w =>
        -- every world would be the expected one
        have h0 : w = ⟨0⟩ := hany ⟨0⟩
        have h1 : w = ⟨1⟩ := hany ⟨1⟩
        rw [h0] at h1
        cases h1
      | expectObject slot' expected =>
        obtain ⟨fact, rfl, hdenotes⟩ := hany ⟨0⟩
        -- another predicate has the same object
        let other : Fact := { fact with predicate := ⟨fact.predicate.value ++ "x"⟩ }
        have hother := (hslot slot (some fact) ⟨0⟩ fun _ => some other).1
          ((hp ⟨0⟩ fun _ => some other).2 ⟨other, rfl, hdenotes⟩)
        have hpred : fact.predicate.value ++ "x" = fact.predicate.value :=
          congrArg (fun f : Fact => f.predicate.value) (Option.some.inj hother)
        have hlen := congrArg String.length hpred
        rw [String.length_append] at hlen
        have hx : "x".length = 1 := by decide
        omega
      | reject => exact (hany ⟨0⟩).elim
      | _ => cases h
  · rintro ⟨w, rfl, rfl⟩ world resolve
    exact hworld w world resolve

namespace LoweringContext

variable {c : LoweringContext}

/-- The precondition that an operation is decoded to, if any. -/
def decodedPreconditions (c : LoweringContext) : TransactionOp → List IntentPrecondition
  | .expectWorld expected => [.expectedWorld expected]
  | .expectObject slot expected =>
    if c.expectedCell expected = 0 then [.expectedSlot ⟨slot⟩ none] else []
  | _ => []

/-- The operations that operations are decoded to, behind `n` allocations. -/
def decodedOperations (c : LoweringContext) (space : ℕ) : ℕ → List TransactionOp → List IntentOperation
  | _, [] => []
  | n, .allocate _ :: ops => .allocateEntity ⟨space, n⟩ :: c.decodedOperations space (n + 1) ops
  | n, .define slot subject predicate object :: ops =>
    .define ⟨slot⟩ ⟨c.decodedAtom space subject, ⟨predicate⟩, c.decodedAtom space object⟩ ::
      c.decodedOperations space n ops
  | n, .forget slot :: ops => .forget ⟨slot⟩ :: c.decodedOperations space n ops
  | n, _ :: ops => c.decodedOperations space n ops

/-- **The decoded intent**, its preconditions and its operations apart. -/
theorem foldl_decode (ops : List TransactionOp) (i : QueuedIntent) :
    (ops.foldl c.decode i).space = i.space ∧
      (ops.foldl c.decode i).preconditions = i.preconditions ++ ops.flatMap c.decodedPreconditions ∧
      (ops.foldl c.decode i).operations =
        i.operations ++ c.decodedOperations i.space i.nextTemporary ops := by
  induction ops generalizing i with
  | nil => simp [decodedOperations]
  | cons op ops ih =>
    obtain ⟨hspace, hpre, hops⟩ := ih (c.decode i op)
    rw [List.foldl_cons, hspace, hpre, hops, decode_space, List.flatMap_cons]
    cases op with
    | expectObject slot expected =>
      simp only [decode, decodedPreconditions, decodedOperations]
      by_cases hcell : c.expectedCell expected = 0
      · simp [hcell, QueuedIntent.expectAbsent]
      · simp [hcell]
    | _ =>
      simp [decode, decodedPreconditions, decodedOperations, QueuedIntent.entity,
        QueuedIntent.expectWorld, QueuedIntent.define, QueuedIntent.forget]

/-- **An operand** is decoded to what it means exactly when it is decodable. -/
theorem intended_eq_iff {space : ℕ} {seen rest : List String} (hsym : c.symbols = seen ++ rest)
    (x : AtomRef) :
    x.intended space seen = some (c.decodedAtom space x) ↔ x.Decodable seen := by
  cases x with
  | entity e =>
    simp only [AtomRef.intended, decodedAtom, AtomRef.Decodable, StreamDictionary.liftAtom,
      Option.some.injEq]
    by_cases he : e.value < literalBase
    · simp [he]
    · rw [if_neg he]
      refine iff_of_false (fun h => ?_) he
      split at h <;> cases h
  | literal l => simp [AtomRef.intended, decodedAtom, AtomRef.Decodable]
  | symbol s =>
    simp only [AtomRef.intended, decodedAtom, AtomRef.Decodable]
    cases hs : seen.idxOf? s with
    | none => exact iff_of_false (fun h => (by cases h)) (List.idxOf?_eq_none_iff.1 hs)
    | some index =>
      obtain ⟨hmem, rfl⟩ := idxOf?_eq_some hs
      refine iff_of_true ?_ hmem
      rw [hsym, List.idxOf_append_of_mem hmem]
      rfl

/-- **Operations are decoded to what they mean** exactly when they are decodable. -/
theorem decoded_iff {space : ℕ} {ops : List TransactionOp} {seen rest : List String}
    (hsym : c.symbols = seen ++ (ops.flatMap TransactionOp.allocated ++ rest)) :
    (intendedOperations space seen ops = some (c.decodedOperations space seen.length ops) ∧
      List.Forall₂ IntentPrecondition.Asks (ops.flatMap c.decodedPreconditions)
        (ops.filter TransactionOp.isExpectation)) ↔ DecodableFrom seen ops := by
  induction ops generalizing seen with
  | nil => exact iff_of_true ⟨rfl, .nil⟩ trivial
  | cons op ops ih =>
    have hnext : c.symbols = (seen ++ op.allocated) ++ (ops.flatMap TransactionOp.allocated ++ rest) := by
      rw [hsym, List.flatMap_cons, List.append_assoc, List.append_assoc]
    have hih := ih hnext
    -- an expectation that no precondition asks
    have hnever : op.isExpectation → (∀ w, op ≠ .expectWorld w) →
        ¬ List.Forall₂ IntentPrecondition.Asks ((op :: ops).flatMap c.decodedPreconditions)
          ((op :: ops).filter TransactionOp.isExpectation) := by
      intro hexp hne hall
      rw [List.filter_cons_of_pos hexp] at hall
      cases hpre : (op :: ops).flatMap c.decodedPreconditions with
      | nil => rw [hpre] at hall; cases hall
      | cons p ps =>
        rw [hpre] at hall
        cases hall with
        | cons hask _ =>
          obtain ⟨w, hw, -⟩ := (IntentPrecondition.asks_iff hexp).1 hask
          exact hne w hw
    cases op with
    | allocate result =>
      rw [show (seen ++ (TransactionOp.allocate result).allocated) = seen ++ [result] from rfl] at hih
      rw [List.length_append, List.length_singleton] at hih
      simp only [DecodableFrom, TransactionOp.Decodable, true_and]
      rw [show (seen ++ (TransactionOp.allocate result).allocated) = seen ++ [result] from rfl, ← hih]
      simp [intendedOperations, decodedOperations, decodedPreconditions, TransactionOp.isExpectation]
    | expectWorld w =>
      simp only [TransactionOp.allocated, List.append_nil] at hih
      simp only [DecodableFrom, TransactionOp.Decodable, true_and, TransactionOp.allocated,
        List.append_nil, ← hih, intendedOperations, decodedOperations]
      have hask : (IntentPrecondition.expectedWorld w).Asks (.expectWorld w) :=
        (IntentPrecondition.asks_iff rfl).2 ⟨w, rfl, rfl⟩
      rw [List.filter_cons_of_pos rfl, List.flatMap_cons]
      simp [decodedPreconditions, hask]
    | expectObject slot expected =>
      refine iff_of_false (fun h => ?_) (fun h => h.1)
      exact hnever rfl (fun w hw => (by cases hw)) h.2
    | reject =>
      refine iff_of_false (fun h => ?_) (fun h => h.1)
      exact hnever rfl (fun w hw => (by cases hw)) h.2
    | define slot subject predicate object =>
      simp only [TransactionOp.allocated, List.append_nil] at hih
      have hsubject : subject.intended space seen = some (c.decodedAtom space subject) ↔ _ :=
        intended_eq_iff hsym subject
      have hobject : object.intended space seen = some (c.decodedAtom space object) ↔ _ :=
        intended_eq_iff hsym object
      simp only [DecodableFrom, TransactionOp.Decodable, TransactionOp.allocated, List.append_nil,
        ← hih, ← hsubject, ← hobject, intendedOperations, decodedOperations, List.flatMap_cons,
        decodedPreconditions, List.nil_append, bind, Option.bind]
      rw [List.filter_cons_of_neg (by simp [TransactionOp.isExpectation])]
      cases subject.intended space seen with
      | none => simp
      | some x =>
        cases object.intended space seen with
        | none => simp
        | some y =>
          cases intendedOperations space seen ops with
          | none => simp
          | some os => simp [and_assoc]
    | forget slot =>
      simp only [TransactionOp.allocated, List.append_nil] at hih
      simp only [DecodableFrom, TransactionOp.Decodable, true_and, TransactionOp.allocated,
        List.append_nil, ← hih]
      simp [intendedOperations, decodedOperations, decodedPreconditions, TransactionOp.isExpectation]

end LoweringContext

/-- **Which transactions are preserved**: the decoded intent means the same exactly where every
operation is decodable. -/
theorem LoweringContext.preservedBy_iff {a : TransactionAst} {c : LoweringContext}
    (hc : LoweringContext.collect a.operations = .ok c) :
    a.PreservedBy (a.operations.foldl c.decode (.new a.space)) ↔
      DecodableFrom [] a.operations := by
  obtain ⟨hspace, hpre, hops⟩ := c.foldl_decode a.operations (.new a.space)
  have hsym : c.symbols = [] ++ (a.operations.flatMap TransactionOp.allocated ++ []) := by
    obtain ⟨rfl, -⟩ := LoweringContext.collect_ok_iff.1 hc
    rw [List.nil_append, List.append_nil]
  have hiff : (intendedOperations a.space [] a.operations =
      some (c.decodedOperations a.space 0 a.operations) ∧ _) ↔ _ :=
    LoweringContext.decoded_iff hsym
  rw [← hiff]
  constructor
  · rintro ⟨-, hmean, hask⟩
    rw [hops] at hmean
    rw [hpre] at hask
    exact ⟨hmean, hask⟩
  · rintro ⟨hmean, hask⟩
    refine ⟨hspace, ?_, ?_⟩
    · rw [hops]
      exact hmean
    · rw [hpre]
      exact hask

/-! ## One operation's instructions -/

/-- What the instructions of one operation say. -/
inductive LoweredOp
  | allocate (index : ℕ)
  | expectWorld (world : ℕ)
  | expectObject (token cell : ℕ)
  | define (subject : Instruction) (predicate : ℕ) (object : Instruction) (token : ℕ)
  | forget (token : ℕ)
  | reject
deriving DecidableEq, Repr

namespace LoweredOp

def instructions : LoweredOp → List Instruction
  | .allocate index => [.allocate, .storeLocal index]
  | .expectWorld world => [.expectObject Instruction.worldArgument world]
  | .expectObject token cell => [.expectObject token cell]
  | .define subject predicate object token => [subject, .push predicate, object, .define token]
  | .forget token => [.forget token]
  | .reject => [.reject]

/-- A definition begins with a loaded operand, and no slot's token reads as a world. -/
def Readable : LoweredOp → Prop
  | .define subject _ _ _ => subject.opcode = .pushCell ∨ subject.opcode = .loadLocal
  | .expectObject token _ => token ≠ Instruction.worldArgument
  | _ => True

/-- Read the first operation back from its instructions. -/
def read : List Instruction → Option (LoweredOp × List Instruction)
  | [] => none
  | inst :: rest =>
    match inst.opcode, rest with
    | .allocate, store :: rest => some (.allocate store.argument, rest)
    | .expectObject, rest =>
      if inst.argument = Instruction.worldArgument then some (.expectWorld inst.immediate, rest)
      else some (.expectObject inst.argument inst.immediate, rest)
    | .forget, rest => some (.forget inst.argument, rest)
    | .reject, rest => some (.reject, rest)
    | _, predicate :: object :: last :: rest =>
      some (.define inst predicate.immediate object last.argument, rest)
    | _, _ => none

theorem read_instructions {x : LoweredOp} (h : x.Readable) (rest : List Instruction) :
    read (x.instructions ++ rest) = some (x, rest) := by
  cases x with
  | allocate index => rfl
  | expectWorld world => rfl
  | expectObject token cell =>
    show (if token = Instruction.worldArgument then _ else _) = _
    rw [if_neg h]
    rfl
  | define subject predicate object token =>
    obtain ⟨opcode, argument, immediate⟩ := subject
    rcases h with rfl | rfl <;> rfl
  | forget token => rfl
  | reject => rfl

/-- **A list of instructions** is that of one list of operations only. -/
theorem flatMap_instructions_inj {xs ys : List LoweredOp} (hx : ∀ x ∈ xs, x.Readable)
    (hy : ∀ y ∈ ys, y.Readable) (h : xs.flatMap instructions = ys.flatMap instructions) :
    xs = ys := by
  induction xs generalizing ys with
  | nil =>
    cases ys with
    | nil => rfl
    | cons y ys =>
      have hread := read_instructions (hy y List.mem_cons_self) (ys.flatMap instructions)
      rw [← List.flatMap_cons, ← h] at hread
      cases hread
  | cons x xs ih =>
    have hread := read_instructions (hx x List.mem_cons_self) (xs.flatMap instructions)
    rw [← List.flatMap_cons, h] at hread
    cases ys with
    | nil => cases hread
    | cons y ys =>
      rw [List.flatMap_cons, read_instructions (hy y List.mem_cons_self)] at hread
      obtain ⟨rfl, hrest⟩ := Prod.mk.inj (Option.some.inj hread)
      rw [ih (fun z hz => hx z (List.mem_cons_of_mem _ hz))
        (fun z hz => hy z (List.mem_cons_of_mem _ hz)) hrest.symm]

end LoweredOp

namespace LoweringContext

variable {c c' : LoweringContext}

/-- What an operation is lowered to, before its instructions are written out. -/
def lowered (c : LoweringContext) : TransactionOp → Except LoweringError LoweredOp
  | .allocate result => .ok (.allocate (c.symbols.idxOf result % 2 ^ 32))
  | .expectWorld expected => .ok (.expectWorld expected.value.toNat)
  | .expectObject _ (.symbol _) => .error .unsupportedDynamicSymbolExpectObject
  | .expectObject slot expected => .ok (.expectObject (c.slotToken slot) (c.expectedCell expected))
  | .define slot subject predicate object => do
    let subject ← c.loadAtom subject
    let object ← c.loadAtom object
    .ok (.define subject (c.predicateCell predicate) object (c.slotToken slot))
  | .forget slot => .ok (.forget (c.slotToken slot))
  | .reject => .ok .reject

theorem lowerOperation_eq (op : TransactionOp) :
    c.lowerOperation op = (c.lowered op).map LoweredOp.instructions := by
  cases op with
  | expectObject slot expected => cases expected <;> rfl
  | define slot subject predicate object =>
    simp only [lowerOperation, lowered, bind, Except.bind]
    cases c.loadAtom subject with
    | error e => rfl
    | ok first => cases c.loadAtom object <;> rfl
  | _ => rfl

theorem lowerOperations_eq {ops : List TransactionOp} {is : List Instruction}
    (h : c.lowerOperations ops = .ok is) :
    ∃ xs, List.Forall₂ (fun op x => c.lowered op = .ok x) ops xs ∧
      is = xs.flatMap LoweredOp.instructions := by
  induction ops generalizing is with
  | nil =>
    cases h
    exact ⟨[], .nil, rfl⟩
  | cons op ops ih =>
    simp only [lowerOperations, bind, Except.bind, lowerOperation_eq] at h
    cases hop : c.lowered op with
    | error e => rw [hop] at h; cases h
    | ok x =>
      rw [hop] at h
      simp only [Except.map] at h
      cases hrest : c.lowerOperations ops with
      | error e => rw [hrest] at h; cases h
      | ok rest =>
        rw [hrest] at h
        obtain ⟨xs, hxs, rfl⟩ := ih hrest
        cases h
        exact ⟨x :: xs, .cons hop hxs, rfl⟩

/-- A loaded operand is one push or one load. -/
theorem opcode_loadAtom {x : AtomRef} {inst : Instruction} (h : c.loadAtom x = .ok inst) :
    inst.opcode = .pushCell ∨ inst.opcode = .loadLocal := by
  cases x with
  | entity e =>
    cases h
    exact .inl rfl
  | literal l =>
    cases h
    exact .inl rfl
  | symbol s =>
    simp only [loadAtom] at h
    split at h
    · cases h
      exact .inr rfl
    · cases h

theorem lowered_readable (hroom : c.slots.length < 2 ^ 32) {op : TransactionOp} (hc : c.Collected [op]) {x : LoweredOp}
    (h : c.lowered op = .ok x) : x.Readable := by
  cases op with
  | expectObject slot expected =>
    have hslot : slot ∈ c.slots := hc.slots.2 _ (List.mem_singleton_self _) slot (by
      simp [TransactionOp.slotNames])
    cases expected with
    | symbol s => cases h
    | _ =>
      cases h
      exact slotToken_ne_world hroom hslot
  | define slot subject predicate object =>
    simp only [lowered, bind, Except.bind] at h
    cases hs : c.loadAtom subject with
    | error e => rw [hs] at h; cases h
    | ok first =>
      rw [hs] at h
      simp only at h
      cases ho : c.loadAtom object with
      | error e => rw [ho] at h; cases h
      | ok last =>
        rw [ho] at h
        cases h
        exact opcode_loadAtom hs
  | _ =>
    cases h
    trivial

/-- Two operands that are loaded alike. -/
def SameCode (c c' : LoweringContext) (x y : AtomRef) : Prop :=
  ∃ inst, c.loadAtom x = .ok inst ∧ c'.loadAtom y = .ok inst

end LoweringContext

namespace LoweringContext

variable {c : LoweringContext}

/-- A lowered definition is that of a definition. -/
theorem lowered_define_iff {op : TransactionOp} {subject object : Instruction} {cell token : ℕ} :
    c.lowered op = .ok (.define subject cell object token) ↔
      ∃ slot x p y, op = .define slot x p y ∧ c.loadAtom x = .ok subject ∧
        c.loadAtom y = .ok object ∧ cell = c.predicateCell p ∧ token = c.slotToken slot := by
  constructor
  · intro h
    cases op with
    | define slot x p y =>
      simp only [lowered, bind, Except.bind] at h
      cases hx : c.loadAtom x with
      | error e => rw [hx] at h; cases h
      | ok first =>
        rw [hx] at h
        simp only at h
        cases hy : c.loadAtom y with
        | error e => rw [hy] at h; cases h
        | ok last =>
          rw [hy] at h
          cases h
          exact ⟨slot, x, p, y, rfl, hx, hy, rfl, rfl⟩
    | expectObject slot expected => cases expected <;> cases h
    | _ => cases h
  · rintro ⟨slot, x, p, y, rfl, hx, hy, rfl, rfl⟩
    simp only [lowered, hx, hy, bind, Except.bind]

/-- A lowered expectation is that of an expected object that is no symbol. -/
theorem lowered_expectObject_iff {op : TransactionOp} {token cell : ℕ} :
    c.lowered op = .ok (.expectObject token cell) ↔
      ∃ slot x, op = .expectObject slot x ∧ c.loadAtom x = .ok (.push cell) ∧
        token = c.slotToken slot := by
  constructor
  · intro h
    cases op with
    | define slot x p y =>
      simp only [lowered, bind, Except.bind] at h
      split at h
      · cases h
      · split at h <;> cases h
    | expectObject slot x =>
      refine ⟨slot, x, rfl, ?_⟩
      cases x with
      | symbol s => cases h
      | _ =>
        cases h
        exact ⟨rfl, rfl⟩
    | _ => cases h
  · rintro ⟨slot, x, rfl, hx, rfl⟩
    cases x with
    | entity e =>
      cases hx
      rfl
    | literal l =>
      cases hx
      rfl
    | symbol s =>
      simp only [loadAtom] at hx
      split at hx <;> cases hx

theorem lowered_plain {op : TransactionOp} {x : LoweredOp} (h : c.lowered op = .ok x) :
    (∀ k, x = .allocate k → ∃ s, op = .allocate s ∧ k = c.symbols.idxOf s % 2 ^ 32) ∧
      (∀ w, x = .expectWorld w → ∃ e : WorldId, op = .expectWorld e ∧ w = e.value.toNat) ∧
      (∀ t, x = .forget t → ∃ slot, op = .forget slot ∧ t = c.slotToken slot) ∧
      (x = .reject → op = .reject) := by
  cases op with
  | define slot a p b =>
    simp only [lowered, bind, Except.bind] at h
    split at h
    · cases h
    · split at h
      · cases h
      · cases h
        simp
  | expectObject slot a =>
    cases a with
    | symbol s => cases h
    | _ =>
      cases h
      simp
  | _ =>
    cases h
    simp

end LoweringContext

/-! ## Transactions with one frame -/

/-- Symbols under other names. -/
def AtomRef.renamed (f : String → String) : AtomRef → AtomRef
  | .symbol s => .symbol (f s)
  | x => x

def TransactionOp.renamed (f : String → String) : TransactionOp → TransactionOp
  | .allocate result => .allocate (f result)
  | .expectWorld expected => .expectWorld expected
  | .expectObject slot expected => .expectObject slot (expected.renamed f)
  | .define slot subject predicate object =>
    .define slot (subject.renamed f) predicate (object.renamed f)
  | .forget slot => .forget slot
  | .reject => .reject

/-- Two transactions that differ in the names of their symbols at most. -/
def TransactionAst.SameUpToSymbols (a b : TransactionAst) : Prop :=
  b.space = a.space ∧ ∃ f, b.operations = a.operations.map (TransactionOp.renamed f)

namespace LoweringContext

variable {c c' : LoweringContext}

/-- Two contexts with the same dictionary and as many symbols. -/
structure Twin (c c' : LoweringContext) : Prop where
  slots : c'.slots = c.slots
  predicates : c'.predicates = c.predicates
  literals : c'.literals = c.literals
  symbols : c'.symbols.length = c.symbols.length

/-- The symbol at the place of another one. -/
def rename (c c' : LoweringContext) (s : String) : String := c'.symbols.getD (c.symbols.idxOf s) s

theorem rename_eq {s s' : String} (hs : s' ∈ c'.symbols)
    (h : c.symbols.idxOf s = c'.symbols.idxOf s') : rename c c' s = s' := by
  unfold rename
  have hlt := List.idxOf_lt_length_iff.2 hs
  rw [h, List.getD_eq_getElem?_getD, List.getElem?_eq_getElem hlt, List.getElem_idxOf]
  rfl

/-- **Two operations that are lowered alike** have the same slot and predicate, and operands that
are loaded alike. -/
theorem same_of_lowered (ht : Twin c c') (hf : c.Fits) {op op' : TransactionOp}
    (hc : c.Collected [op]) (hc' : c'.Collected [op']) {x : LoweredOp}
    (h : c.lowered op = .ok x) (h' : c'.lowered op' = .ok x) :
    List.Forall₂ (SameCode c c') op.operands op'.operands ∧
      (op'.operands = op.operands.map (AtomRef.renamed (rename c c')) →
        op' = op.renamed (rename c c')) := by
  have hslots : ∀ s ∈ op.slotNames, ∀ s' ∈ op'.slotNames, c.slotToken s = c'.slotToken s' →
      s' = s := by
    intro s hs s' hs' heq
    have hmem := hc.slots.2 op (List.mem_singleton_self _) s hs
    have hmem' := hc'.slots.2 op' (List.mem_singleton_self _) s' hs'
    rw [ht.slots] at hmem'
    unfold slotToken at heq
    rw [ht.slots] at heq
    have hlt := List.idxOf_lt_length_iff.2 hmem
    have hlt' := List.idxOf_lt_length_iff.2 hmem'
    have hroom := hf.slots
    rw [Nat.mod_eq_of_lt (by omega), Nat.mod_eq_of_lt (by omega)] at heq
    exact ((List.idxOf_inj hmem).1 heq).symm
  cases x with
  | allocate index =>
    obtain ⟨s, rfl, hs⟩ := (lowered_plain h).1 index rfl
    obtain ⟨s', rfl, hs'⟩ := (lowered_plain h').1 index rfl
    refine ⟨.nil, fun _ => ?_⟩
    have hmem := hc.symbols.2 _ (List.mem_singleton_self _) s (List.mem_singleton_self _)
    have hmem' := hc'.symbols.2 _ (List.mem_singleton_self _) s' (List.mem_singleton_self _)
    have hlt := List.idxOf_lt_length_iff.2 hmem
    have hlt' := List.idxOf_lt_length_iff.2 hmem'
    have hroom := hf.symbols
    rw [ht.symbols] at hlt'
    rw [Nat.mod_eq_of_lt (by omega)] at hs hs'
    show TransactionOp.allocate s' = .allocate (rename c c' s)
    rw [rename_eq hmem' (hs.symm.trans hs')]
  | expectWorld world =>
    obtain ⟨e, rfl, he⟩ := (lowered_plain h).2.1 world rfl
    obtain ⟨e', rfl, he'⟩ := (lowered_plain h').2.1 world rfl
    refine ⟨.nil, fun _ => ?_⟩
    have hvalue : e'.value = e.value := UInt64.toNat_inj.1 (he'.symm.trans he)
    obtain ⟨value⟩ := e
    obtain ⟨value'⟩ := e'
    simp only at hvalue
    rw [hvalue]
    rfl
  | expectObject token cell =>
    obtain ⟨s, a, rfl, ha, hs⟩ := lowered_expectObject_iff.1 h
    obtain ⟨s', b, rfl, hb, hs'⟩ := lowered_expectObject_iff.1 h'
    refine ⟨.cons ⟨_, ha, hb⟩ .nil, fun hops => ?_⟩
    obtain rfl := hslots s (by simp [TransactionOp.slotNames]) s' (by simp [TransactionOp.slotNames])
      (hs.symm.trans hs')
    rw [List.singleton_inj.1 hops]
    rfl
  | define subject cell object token =>
    obtain ⟨s, a, p, b, rfl, ha, hb, hp, hs⟩ := lowered_define_iff.1 h
    obtain ⟨s', a', p', b', rfl, ha', hb', hp', hs'⟩ := lowered_define_iff.1 h'
    refine ⟨.cons ⟨_, ha, ha'⟩ (.cons ⟨_, hb, hb'⟩ .nil), fun hops => ?_⟩
    obtain rfl := hslots s (by simp [TransactionOp.slotNames]) s' (by simp [TransactionOp.slotNames])
      (hs.symm.trans hs')
    have hpredicate : p' = p := by
      have hmem := hc.predicates.2 _ (List.mem_singleton_self _) p (by
        simp [TransactionOp.predicateNames])
      have heq := hp.symm.trans hp'
      unfold predicateCell at heq
      rw [ht.predicates] at heq
      exact ((List.idxOf_inj hmem).1 heq).symm
    have hsubject : a' = a.renamed (rename c c') := (List.cons.inj hops).1
    have hobject : b' = b.renamed (rename c c') := (List.cons.inj (List.cons.inj hops).2).1
    rw [hpredicate, hsubject, hobject]
    rfl
  | forget token =>
    obtain ⟨s, rfl, hs⟩ := (lowered_plain h).2.2.1 token rfl
    obtain ⟨s', rfl, hs'⟩ := (lowered_plain h').2.2.1 token rfl
    refine ⟨.nil, fun _ => ?_⟩
    obtain rfl := hslots s (by simp [TransactionOp.slotNames]) s' (by simp [TransactionOp.slotNames])
      (hs.symm.trans hs')
    rfl
  | reject =>
    obtain rfl := (lowered_plain h).2.2.2 rfl
    obtain rfl := (lowered_plain h').2.2.2 rfl
    exact ⟨.nil, fun _ => rfl⟩

/-- **Two operands that are loaded alike** are the same, but for an entity with a literal's cell. -/
theorem SameCode.cases (ht : Twin c c') (hf : c.Fits) {x y : AtomRef} (h : SameCode c c' x y)
    (hy : ∀ l ∈ y.literalNames, l ∈ c.literals) :
    y = x.renamed (rename c c') ∨
      (∃ e l, x = .entity e ∧ y = .literal l ∧ e.value = c.literalCell l) ∨
      ∃ l e, x = .literal l ∧ y = .entity e := by
  have hcell : ∀ l, c'.literalCell l = c.literalCell l := by
    intro l
    unfold literalCell
    rw [ht.literals, ht.predicates]
  obtain ⟨inst, hx, hy'⟩ := h
  cases x with
  | entity e =>
    cases hx
    cases y with
    | entity e' =>
      simp only [loadAtom, Except.ok.injEq, Instruction.push, Instruction.mk.injEq] at hy'
      obtain ⟨value⟩ := e
      obtain ⟨value'⟩ := e'
      exact .inl (by rw [show value' = value from hy'.2.2]; rfl)
    | literal l =>
      simp only [loadAtom, Except.ok.injEq, Instruction.push, Instruction.mk.injEq, hcell] at hy'
      exact .inr (.inl ⟨e, l, rfl, rfl, hy'.2.2.symm⟩)
    | symbol s =>
      simp only [loadAtom] at hy'
      split at hy' <;> cases hy'
  | literal l =>
    cases hx
    cases y with
    | entity e => exact .inr (.inr ⟨l, e, rfl, rfl⟩)
    | literal l' =>
      simp only [loadAtom, Except.ok.injEq, Instruction.push, Instruction.mk.injEq, hcell] at hy'
      have heq : c.literals.idxOf l' = c.literals.idxOf l := by
        have hsum := hy'.2.2
        unfold literalCell at hsum
        omega
      have hl' := hy l' (List.mem_singleton_self _)
      exact .inl (by rw [(List.idxOf_inj hl').1 heq]; rfl)
    | symbol s =>
      simp only [loadAtom] at hy'
      split at hy' <;> cases hy'
  | symbol s =>
    simp only [loadAtom] at hx
    split at hx
    swap
    · cases hx
    rename_i index hs
    cases hx
    cases y with
    | entity e => cases hy'
    | literal l => cases hy'
    | symbol s' =>
      simp only [loadAtom] at hy'
      split at hy'
      swap
      · cases hy'
      rename_i index' hs'
      obtain ⟨hmem, rfl⟩ := idxOf?_eq_some hs
      obtain ⟨hmem', rfl⟩ := idxOf?_eq_some hs'
      have hlt := List.idxOf_lt_length_iff.2 hmem
      have hlt' := List.idxOf_lt_length_iff.2 hmem'
      have hroom := hf.symbols
      rw [ht.symbols] at hlt'
      simp only [Except.ok.injEq, Instruction.loadLocal, Instruction.mk.injEq] at hy'
      rw [Nat.mod_eq_of_lt (by omega), Nat.mod_eq_of_lt (by omega)] at hy'
      refine .inl ?_
      show AtomRef.symbol s' = .symbol (rename c c' s)
      rw [rename_eq hmem' hy'.2.1.symm]

/-- No operand is an entity with the cell of a literal. -/
def Apart (c : LoweringContext) (xs : List AtomRef) : Prop :=
  ∀ e, .entity e ∈ xs → ∀ l ∈ c.literals, e.value ≠ c.literalCell l

theorem Apart.tail {x : AtomRef} {xs : List AtomRef} (h : c.Apart (x :: xs)) : c.Apart xs :=
  fun e he => h e (List.mem_cons_of_mem _ he)

/-- Of operands loaded alike, the second ones have no further literals. -/
theorem literals_subset (ht : Twin c c') (hf : c.Fits) {xs ys : List AtomRef}
    (h : List.Forall₂ (SameCode c c') xs ys) (hapart : c.Apart xs)
    (hys : ∀ l ∈ ys.flatMap AtomRef.literalNames, l ∈ c.literals) :
    ∀ l ∈ ys.flatMap AtomRef.literalNames, l ∈ xs.flatMap AtomRef.literalNames := by
  induction h with
  | nil => exact fun l hl => hl
  | @cons x y xs ys hxy _ ih =>
    simp only [List.flatMap_cons, List.mem_append] at hys ⊢
    rintro l (hl | hl)
    · rcases hxy.cases ht hf fun l hl => hys l (.inl hl) with
        rfl | ⟨e, l', rfl, rfl, he⟩ | ⟨l', e, rfl, rfl⟩
      · cases x with
        | literal l' => exact .inl hl
        | entity e => cases hl
        | symbol s => cases hl
      · exact absurd he (hapart e List.mem_cons_self l' (hys l' (.inl (List.mem_singleton_self _))))
      · cases hl
    · exact .inr (ih hapart.tail (fun l hl => hys l (.inr hl)) l hl)

/-- **Operands loaded alike** are the same up to the names of symbols, where every literal has its
cell to itself. -/
theorem operands_unique (ht : Twin c c') (hf : c.Fits) {xs ys : List AtomRef}
    (h : List.Forall₂ (SameCode c c') xs ys) (hapart : c.Apart xs)
    (honce : (xs.flatMap AtomRef.literalNames).Nodup)
    (hys : ∀ l ∈ ys.flatMap AtomRef.literalNames, l ∈ c.literals)
    (hkept : ∀ l ∈ xs.flatMap AtomRef.literalNames, l ∈ ys.flatMap AtomRef.literalNames) :
    ys = xs.map (AtomRef.renamed (rename c c')) := by
  induction h with
  | nil => rfl
  | @cons x y xs ys hxy hrest ih =>
    have hsub := literals_subset ht hf hrest hapart.tail fun l hl => hys l (by
      rw [List.flatMap_cons]
      exact List.mem_append_right _ hl)
    simp only [List.flatMap_cons, List.mem_append] at hys hkept
    rw [List.flatMap_cons, List.nodup_append] at honce
    obtain ⟨-, honce, hdisjoint⟩ := honce
    have hhead : y = x.renamed (rename c c') := by
      rcases hxy.cases ht hf fun l hl => hys l (.inl hl) with
        hsame | ⟨e, l, rfl, rfl, he⟩ | ⟨l, e, rfl, rfl⟩
      · exact hsame
      · exact absurd he (hapart e List.mem_cons_self l (hys l (.inl (List.mem_singleton_self _))))
      · -- the literal would be left to a later operand, and occur twice
        have hl := List.mem_singleton_self l
        rcases hkept l (.inl hl) with hy | hy
        · cases hy
        · exact absurd rfl (hdisjoint l hl l (hsub l hy))
    have hliterals : y.literalNames = x.literalNames := by
      rw [hhead]
      cases x <;> rfl
    rw [List.map_cons, ← hhead, ← ih hapart.tail honce (fun l hl => hys l (.inr hl)) fun l hl => ?_]
    rcases hkept l (.inr hl) with hy | hy
    · rw [hliterals] at hy
      exact absurd rfl (hdisjoint l hy l hl)
    · exact hy

/-- **Operations that are lowered alike**, one by one. -/
theorem operations_same (ht : Twin c c') (hf : c.Fits) {ops ops' : List TransactionOp}
    {xs : List LoweredOp} (h : List.Forall₂ (fun op x => c.lowered op = .ok x) ops xs)
    (h' : List.Forall₂ (fun op x => c'.lowered op = .ok x) ops' xs) (hc : c.Collected ops)
    (hc' : c'.Collected ops') :
    List.Forall₂ (SameCode c c') (ops.flatMap TransactionOp.operands)
        (ops'.flatMap TransactionOp.operands) ∧
      (ops'.flatMap TransactionOp.operands =
          (ops.flatMap TransactionOp.operands).map (AtomRef.renamed (rename c c')) →
        ops' = ops.map (TransactionOp.renamed (rename c c'))) := by
  induction h generalizing ops' with
  | nil =>
    cases h'
    exact ⟨.nil, fun _ => rfl⟩
  | @cons op x ops xs hop _ ih =>
    cases h' with
    | @cons op' _ ops' _ hop' hrest' =>
      obtain ⟨hhead, hsame⟩ := same_of_lowered ht hf hc.head hc'.head hop hop'
      obtain ⟨htail, hrest⟩ := ih hrest' hc.tail hc'.tail
      simp only [List.flatMap_cons, List.map_append, List.map_cons]
      refine ⟨List.rel_append hhead htail, fun heq => ?_⟩
      have hlen : op'.operands.length = (op.operands.map (AtomRef.renamed (rename c c'))).length := by
        rw [List.length_map, hhead.length_eq]
      obtain ⟨hfirst, hlast⟩ := List.append_inj heq hlen
      rw [hsame hfirst, hrest hlast]

/-- How many symbols a lowered operation allocates. -/
theorem length_allocated {op op' : TransactionOp} {x : LoweredOp} (h : c.lowered op = .ok x)
    (h' : c'.lowered op' = .ok x) : op.allocated.length = op'.allocated.length := by
  have hnone : ∀ {c : LoweringContext} {op : TransactionOp}, c.lowered op = .ok x →
      (∀ k, x ≠ .allocate k) → op.allocated = [] := by
    intro c op h hx
    cases op with
    | allocate result =>
      cases h
      exact absurd rfl (hx _)
    | _ => rfl
  cases x with
  | allocate k =>
    obtain ⟨s, rfl, -⟩ := (lowered_plain h).1 k rfl
    obtain ⟨s', rfl, -⟩ := (lowered_plain h').1 k rfl
    rfl
  | _ =>
    rw [hnone h (fun k hk => nomatch hk), hnone h' (fun k hk => nomatch hk)]

theorem length_allocations {ops ops' : List TransactionOp} {xs : List LoweredOp}
    (h : List.Forall₂ (fun op x => c.lowered op = .ok x) ops xs)
    (h' : List.Forall₂ (fun op x => c'.lowered op = .ok x) ops' xs) :
    (ops.flatMap TransactionOp.allocated).length = (ops'.flatMap TransactionOp.allocated).length := by
  induction h generalizing ops' with
  | nil =>
    cases h'
    rfl
  | cons hop _ ih =>
    cases h' with
    | cons hop' hrest' =>
      rw [List.flatMap_cons, List.flatMap_cons, List.length_append, List.length_append,
        length_allocated hop hop', ih hrest']

theorem all_readable (hroom : c.slots.length < 2 ^ 32) {ops : List TransactionOp} {xs : List LoweredOp}
    (h : List.Forall₂ (fun op x => c.lowered op = .ok x) ops xs) (hc : c.Collected ops) :
    ∀ x ∈ xs, x.Readable := by
  induction h with
  | nil => exact fun x hx => nomatch hx
  | cons hop _ ih =>
    exact List.forall_mem_cons.2 ⟨lowered_readable hroom hc.head hop, ih hc.tail⟩

/-- The names of a dictionary. -/
theorem dictionary_inj (h : c'.dictionary = c.dictionary) :
    c'.slots = c.slots ∧ c'.predicates = c.predicates ∧ c'.literals = c.literals := by
  have hnames : ∀ (names : List String) (n : ℕ → ℕ),
      (names.zipIdx.map fun p => (n p.2, p.1)).map Prod.snd = names := by
    intro names n
    have hfst : names.zipIdx.map Prod.fst = names := List.zipIdx_map_fst 0 names
    rw [List.map_map]
    exact hfst
  have hslots : ∀ c : LoweringContext, c.dictionary.slots.map (fun e => e.2.value) = c.slots := by
    intro c
    rw [← hnames c.slots fun i => i % 2 ^ 32]
    simp [dictionary]
  have hpredicates : ∀ c : LoweringContext,
      c.dictionary.predicates.map (fun e => e.2.value) = c.predicates := by
    intro c
    rw [← hnames c.predicates id]
    simp [dictionary]
  have hliterals : ∀ c : LoweringContext,
      c.dictionary.literals.map (fun e => e.2.value) = c.literals := by
    intro c
    rw [← hnames c.literals fun i => i + c.predicates.length]
    simp [dictionary]
  refine ⟨?_, ?_, ?_⟩
  · rw [← hslots c', h, hslots]
  · rw [← hpredicates c', h, hpredicates]
  · rw [← hliterals c', h, hliterals]

end LoweringContext

namespace TransactionAst

/-- The operands of a transaction, in order. -/
def operands (a : TransactionAst) : List AtomRef := a.operations.flatMap TransactionOp.operands

/-- The literals of a transaction, each as often as it occurs. -/
def literals (a : TransactionAst) : List String := a.operands.flatMap AtomRef.literalNames

/-- Every literal has its cell to itself: it occurs once, and no operand is an entity with its
cell. -/
structure Unshared (a : TransactionAst) : Prop where
  once : a.literals.Nodup
  apart : ∀ c, LoweringContext.collect a.operations = .ok c → c.Apart a.operands

/-- The context of every transaction that lowers fits its numbers. -/
def Fits (a : TransactionAst) : Prop :=
  ∀ c, LoweringContext.collect a.operations = .ok c → c.Fits

theorem mem_literals {a : TransactionAst} {c : LoweringContext}
    (hc : LoweringContext.collect a.operations = .ok c) {l : String} :
    l ∈ c.literals ↔ l ∈ a.literals := by
  obtain ⟨rfl, -⟩ := LoweringContext.collect_ok_iff.1 hc
  show l ∈ distinctNames _ ↔ _
  rw [mem_distinctNames]
  unfold literals operands
  rw [List.flatMap_assoc]
  rfl

/-- **A frame has one transaction**, up to the names of symbols, where every literal has its cell to
itself. -/
theorem sameUpToSymbols_of_unshared {a b : TransactionAst} {frame : InstructionStreamFrame}
    (ha : a.lowerToSisa = .ok frame) (hb : b.lowerToSisa = .ok frame) (hf : a.Fits)
    (h : a.Unshared) : a.SameUpToSymbols b := by
  obtain ⟨c, is, hc, his, rfl⟩ := lowerToSisa_ok ha
  obtain ⟨c', is', hc', his', hframe⟩ := lowerToSisa_ok hb
  simp only [InstructionStreamFrame.mk.injEq, true_and] at hframe
  obtain ⟨hspace, hdict, -, rfl⟩ := hframe
  obtain ⟨hslots, hpredicates, hliterals⟩ := LoweringContext.dictionary_inj hdict.symm
  have hfits := hf c hc
  have hcol := LoweringContext.Collected.of_collect hc
  have hcol' := LoweringContext.Collected.of_collect hc'
  obtain ⟨xs, hxs, hxs'⟩ := LoweringContext.lowerOperations_eq his
  obtain ⟨ys, hys, hys'⟩ := LoweringContext.lowerOperations_eq his'
  have hroom' : c'.slots.length < 2 ^ 32 := by
    rw [hslots]
    exact hfits.slots
  obtain rfl : xs = ys := LoweredOp.flatMap_instructions_inj
    (LoweringContext.all_readable hfits.slots hxs hcol)
    (LoweringContext.all_readable hroom' hys hcol') (hxs'.symm.trans hys')
  have htwin : LoweringContext.Twin c c' := by
    refine ⟨hslots, hpredicates, hliterals, ?_⟩
    obtain ⟨hc₁, -⟩ := LoweringContext.collect_ok_iff.1 hc
    obtain ⟨hc₂, -⟩ := LoweringContext.collect_ok_iff.1 hc'
    rw [hc₁, hc₂]
    exact (LoweringContext.length_allocations hxs hys).symm
  obtain ⟨hoperands, hsame⟩ := LoweringContext.operations_same htwin hfits hxs hys hcol hcol'
  refine ⟨hspace.symm, _, hsame ?_⟩
  -- both transactions have the literals of the dictionary
  have hb' : ∀ l ∈ b.literals, l ∈ c.literals := fun l hl => by
    rw [← hliterals]
    exact (mem_literals hc').2 hl
  have ha' : ∀ l ∈ a.literals, l ∈ b.literals := fun l hl => by
    have hl' := (mem_literals hc).2 hl
    rw [← hliterals] at hl'
    exact (mem_literals hc').1 hl'
  exact LoweringContext.operands_unique htwin hfits hoperands (h.apart c hc) h.once hb' ha'

end TransactionAst

/-! ## Collisions -/

/-- Other operands in the places of an operation's own. -/
def TransactionOp.mapAtoms (g : AtomRef → AtomRef) : TransactionOp → TransactionOp
  | .expectObject slot expected => .expectObject slot (g expected)
  | .define slot subject predicate object => .define slot (g subject) predicate (g object)
  | op => op

theorem TransactionOp.operands_mapAtoms (g : AtomRef → AtomRef) (op : TransactionOp) :
    (op.mapAtoms g).operands = op.operands.map g := by cases op <;> rfl

theorem TransactionOp.operands_renamed (f : String → String) (op : TransactionOp) :
    (op.renamed f).operands = op.operands.map (AtomRef.renamed f) := by cases op <;> rfl

namespace LoweringContext

variable {c : LoweringContext}

/-- An expected object is loaded like an operand, but for a symbol. -/
theorem lowerOperation_expectObject {x : AtomRef} (hx : ∀ s, x ≠ .symbol s) (slot : String) :
    c.lowerOperation (.expectObject slot x) =
      (c.loadAtom x).map fun inst => [.expectObject (c.slotToken slot) inst.immediate] := by
  cases x with
  | symbol s => exact absurd rfl (hx s)
  | _ => rfl

theorem lowerOperation_mapAtoms {g : AtomRef → AtomRef} (hload : ∀ x, c.loadAtom (g x) = c.loadAtom x)
    (hsymbol : ∀ x s, g x = .symbol s ↔ x = .symbol s) (op : TransactionOp) :
    c.lowerOperation (op.mapAtoms g) = c.lowerOperation op := by
  cases op with
  | expectObject slot expected =>
    simp only [TransactionOp.mapAtoms]
    by_cases hs : ∃ s, expected = .symbol s
    · obtain ⟨s, rfl⟩ := hs
      rw [(hsymbol _ s).2 rfl]
    · have hx : ∀ s, expected ≠ .symbol s := fun s he => hs ⟨s, he⟩
      have hg : ∀ s, g expected ≠ .symbol s := fun s he => hx s ((hsymbol _ s).1 he)
      rw [lowerOperation_expectObject hx, lowerOperation_expectObject hg, hload]
  | define slot subject predicate object =>
    simp only [TransactionOp.mapAtoms, lowerOperation, hload]
  | _ => rfl

/-- An operation in the place of one that is lowered alike. -/
theorem lowerOperations_replace {op op' : TransactionOp}
    (h : c.lowerOperation op' = c.lowerOperation op) (pre post : List TransactionOp) :
    c.lowerOperations (pre ++ op' :: post) = c.lowerOperations (pre ++ op :: post) := by
  induction pre with
  | nil => simp only [List.nil_append, lowerOperations, h]
  | cons x pre ih => simp only [List.cons_append, lowerOperations, ih]

end LoweringContext

/-- **One operation for another** with the same names, that is lowered alike, leaves the frame. -/
theorem TransactionAst.lowerToSisa_replace {space : ℕ} {pre post : List TransactionOp}
    {op op' : TransactionOp} {frame : InstructionStreamFrame} {c : LoweringContext}
    (h : (TransactionAst.mk space (pre ++ op :: post)).lowerToSisa = .ok frame)
    (hc : LoweringContext.collect (pre ++ op :: post) = .ok c)
    (hslots : op'.slotNames = op.slotNames) (hpredicates : op'.predicateNames = op.predicateNames)
    (hallocated : op'.allocated = op.allocated)
    (hliterals : ∀ l, l ∈ op'.literalNames ∨ l ∈ (pre ++ post).flatMap TransactionOp.literalNames ↔
      l ∈ op.literalNames ∨ l ∈ (pre ++ post).flatMap TransactionOp.literalNames)
    (hop : c.lowerOperation op' = c.lowerOperation op) :
    (TransactionAst.mk space (pre ++ op' :: post)).lowerToSisa = .ok frame := by
  have hc' : LoweringContext.collect (pre ++ op' :: post) = .ok c := by
    obtain ⟨rfl, hn⟩ := LoweringContext.collect_ok_iff.1 hc
    refine LoweringContext.collect_ok_iff.2 ⟨?_, ?_⟩
    · -- the literals are the same, whatever the operation that has them
      have hnames : distinctNames ((pre ++ op :: post).flatMap TransactionOp.literalNames) =
          distinctNames ((pre ++ op' :: post).flatMap TransactionOp.literalNames) := by
        refine distinctNames_congr fun l => ?_
        have hl := hliterals l
        simp only [List.flatMap_append, List.flatMap_cons, List.mem_append] at hl ⊢
        tauto
      rw [hnames]
      simp only [List.flatMap_append, List.flatMap_cons, hslots, hpredicates, hallocated]
    · rw [List.flatMap_append, List.flatMap_cons, hallocated]
      rw [List.flatMap_append, List.flatMap_cons] at hn
      exact hn
  unfold lowerToSisa at h ⊢
  simp only [hc, hc', bind, Except.bind, LoweringContext.lowerOperations_replace hop pre post] at h ⊢
  exact h

/-- A repetition among the names of operations is in one operation or between two of them. -/
theorem exists_repeated {names : TransactionOp → List String} {ops : List TransactionOp}
    (h : ¬ (ops.flatMap names).Nodup) :
    ∃ pre op post, ops = pre ++ op :: post ∧
      (¬ (names op).Nodup ∨ ∃ l ∈ names op, l ∈ post.flatMap names) := by
  induction ops with
  | nil => exact absurd List.nodup_nil h
  | cons op ops ih =>
    by_cases hrest : (ops.flatMap names).Nodup
    · refine ⟨[], op, ops, rfl, ?_⟩
      by_cases hop : (names op).Nodup
      · right
        by_contra hnone
        refine h ?_
        rw [List.flatMap_cons, List.nodup_append]
        refine ⟨hop, hrest, fun l hl l' hl' heq => hnone ⟨l, hl, ?_⟩⟩
        rw [heq]
        exact hl'
      · exact .inl hop
    · obtain ⟨pre, op', post, rfl, hop⟩ := ih hrest
      exact ⟨op :: pre, op', post, rfl, hop⟩

namespace TransactionAst

variable {a : TransactionAst} {c : LoweringContext} {frame : InstructionStreamFrame}

/-- Another operand for some of an operation's own. -/
theorem collides_of_mapAtoms {space : ℕ} {pre post : List TransactionOp} {op : TransactionOp}
    (h : (TransactionAst.mk space (pre ++ op :: post)).lowerToSisa = .ok frame)
    (hc : LoweringContext.collect (pre ++ op :: post) = .ok c) {x y : AtomRef} (hx : x ∈ op.operands)
    (hplain : ∀ s, x ≠ .symbol s ∧ y ≠ .symbol s) (hne : x ≠ y) (hload : c.loadAtom y = c.loadAtom x)
    (hkept : ∀ l, l ∈ x.literalNames → l ∈ (pre ++ post).flatMap TransactionOp.literalNames)
    (hknown : ∀ l, l ∈ y.literalNames → l ∈ op.literalNames ∨
      l ∈ (pre ++ post).flatMap TransactionOp.literalNames) :
    ∃ b : TransactionAst, b.lowerToSisa = .ok frame ∧
      ¬ (TransactionAst.mk space (pre ++ op :: post)).SameUpToSymbols b := by
  let g : AtomRef → AtomRef := fun z => if z = x then y else z
  have hg : ∀ z, z ≠ x → g z = z := fun z hz => if_neg hz
  have hgx : g x = y := if_pos rfl
  have hliterals : ∀ l, l ∈ (op.mapAtoms g).literalNames ∨
      l ∈ (pre ++ post).flatMap TransactionOp.literalNames ↔
      l ∈ op.literalNames ∨ l ∈ (pre ++ post).flatMap TransactionOp.literalNames := by
    intro l
    have hnew : l ∈ (op.mapAtoms g).literalNames ↔ ∃ z ∈ op.operands, l ∈ (g z).literalNames := by
      show l ∈ (op.mapAtoms g).operands.flatMap AtomRef.literalNames ↔ _
      rw [TransactionOp.operands_mapAtoms, List.mem_flatMap]
      simp
    rw [hnew]
    constructor
    · rintro (⟨z, hz, hl⟩ | hl)
      · by_cases hzx : z = x
        · rw [hzx, hgx] at hl
          exact hknown l hl
        · rw [hg z hzx] at hl
          exact .inl (List.mem_flatMap.2 ⟨z, hz, hl⟩)
      · exact .inr hl
    · rintro (hl | hl)
      · obtain ⟨z, hz, hl⟩ := List.mem_flatMap.1 hl
        by_cases hzx : z = x
        · rw [hzx] at hl
          exact .inr (hkept l hl)
        · exact .inl ⟨z, hz, by rw [hg z hzx]; exact hl⟩
      · exact .inr hl
  refine ⟨⟨space, pre ++ op.mapAtoms g :: post⟩, lowerToSisa_replace h hc ?_ ?_ ?_ hliterals ?_, ?_⟩
  · cases op <;> rfl
  · cases op <;> rfl
  · cases op <;> rfl
  · refine LoweringContext.lowerOperation_mapAtoms (fun z => ?_) (fun z s => ?_) op
    · by_cases hz : z = x
      · rw [hz, hgx, hload]
      · rw [hg z hz]
    · by_cases hz : z = x
      · rw [hz, hgx]
        exact iff_of_false (hplain s).2 (hplain s).1
      · rw [hg z hz]
  · rintro ⟨-, f, hf⟩
    simp only [List.map_append, List.map_cons] at hf
    obtain ⟨-, hcons⟩ := List.append_inj hf (by rw [List.length_map])
    have hop : (op.mapAtoms g).operands = (op.renamed f).operands := by rw [(List.cons.inj hcons).1]
    rw [TransactionOp.operands_mapAtoms, TransactionOp.operands_renamed, List.map_inj_left] at hop
    have hyx := hop x hx
    rw [hgx] at hyx
    cases x with
    | symbol s => exact (hplain s).1 rfl
    | _ => exact hne hyx.symm

/-- A definition with one literal twice. -/
theorem collides_of_define {space : ℕ} {pre post : List TransactionOp} {slot l p : String}
    (h : (TransactionAst.mk space
      (pre ++ .define slot (.literal l) p (.literal l) :: post)).lowerToSisa = .ok frame)
    (hc : LoweringContext.collect (pre ++ .define slot (.literal l) p (.literal l) :: post) = .ok c) :
    ∃ b : TransactionAst, b.lowerToSisa = .ok frame ∧
      ¬ (TransactionAst.mk space
        (pre ++ .define slot (.literal l) p (.literal l) :: post)).SameUpToSymbols b := by
  refine ⟨⟨space, pre ++ .define slot (.literal l) p (.entity ⟨c.literalCell l⟩) :: post⟩,
    lowerToSisa_replace h hc rfl rfl rfl (fun m => ?_) rfl, ?_⟩
  · simp [TransactionOp.literalNames, TransactionOp.operands, AtomRef.literalNames]
  · rintro ⟨-, f, hf⟩
    simp only [List.map_append, List.map_cons] at hf
    obtain ⟨-, hcons⟩ := List.append_inj hf (by rw [List.length_map])
    cases (List.cons.inj hcons).1

/-- **A literal that shares its cell** leaves the frame to another transaction. -/
theorem collides_of_shared (h : a.lowerToSisa = .ok frame) (hshared : ¬ a.Unshared) :
    ∃ b : TransactionAst, b.lowerToSisa = .ok frame ∧ ¬ a.SameUpToSymbols b := by
  obtain ⟨c, is, hc, -, -⟩ := lowerToSisa_ok h
  obtain ⟨space, ops⟩ := a
  have hliterals : (TransactionAst.mk space ops).literals =
      ops.flatMap TransactionOp.literalNames := by
    unfold literals operands
    rw [List.flatMap_assoc]
    rfl
  by_cases honce : (TransactionAst.mk space ops).literals.Nodup
  · -- an entity has the cell of a literal
    have hentity : ∃ e, .entity e ∈ (TransactionAst.mk space ops).operands ∧
        ∃ l ∈ c.literals, e.value = c.literalCell l := by
      by_contra hnone
      refine hshared ⟨honce, fun c' hc' e he l hl hcell => hnone ⟨e, he, l, ?_, ?_⟩⟩
      · rw [Except.ok.inj (hc.symm.trans hc')]
        exact hl
      · rw [Except.ok.inj (hc.symm.trans hc')]
        exact hcell
    obtain ⟨e, he, l, hl, hcell⟩ := hentity
    obtain ⟨op, hop, heop⟩ := List.mem_flatMap.1 he
    obtain ⟨pre, post, rfl⟩ := List.append_of_mem hop
    have hold := (mem_literals hc).1 hl
    rw [hliterals] at hold
    refine collides_of_mapAtoms h hc (y := .literal l) heop
      (fun s => ⟨fun h => (by cases h), fun h => (by cases h)⟩) (fun h => (by cases h)) ?_
      (fun m hm => (by cases hm)) (fun m hm => ?_)
    · obtain ⟨value⟩ := e
      simp only at hcell
      rw [hcell]
      rfl
    · rw [List.mem_singleton.1 hm]
      simp only [List.flatMap_append, List.flatMap_cons, List.mem_append] at hold ⊢
      tauto
  · rw [hliterals] at honce
    obtain ⟨pre, op, post, rfl, hop⟩ := exists_repeated honce
    rcases hop with hop | ⟨l, hl, hlater⟩
    · cases op with
      | define slot x p y =>
        have hboth : ∃ l, x = .literal l ∧ y = .literal l := by
          cases x with
          | literal l =>
            cases y with
            | literal l' =>
              refine ⟨l, rfl, ?_⟩
              by_contra hne
              refine hop ?_
              have hll : l ≠ l' := fun heq => hne (by rw [heq])
              simp [TransactionOp.literalNames, TransactionOp.operands, AtomRef.literalNames, hll]
            | _ =>
              exact absurd (List.nodup_singleton l) hop
          | _ =>
            refine absurd ?_ hop
            cases y <;> simp [TransactionOp.literalNames, TransactionOp.operands,
              AtomRef.literalNames]
        obtain ⟨l, rfl, rfl⟩ := hboth
        exact collides_of_define h hc
      | expectObject slot x =>
        refine absurd ?_ hop
        cases x <;> simp [TransactionOp.literalNames, TransactionOp.operands, AtomRef.literalNames]
      | _ => exact absurd List.nodup_nil hop
    · -- a later operation keeps the literal
      obtain ⟨x, hx, hlx⟩ := List.mem_flatMap.1 hl
      obtain rfl : x = .literal l := by
        cases x with
        | literal l' => rw [List.mem_singleton.1 hlx]
        | _ => cases hlx
      refine collides_of_mapAtoms h hc (y := .entity ⟨c.literalCell l⟩) hx
        (fun s => ⟨fun h => (by cases h), fun h => (by cases h)⟩) (fun h => (by cases h)) rfl
        (fun m hm => ?_) (fun m hm => (by cases hm))
      rw [List.mem_singleton.1 hm, List.flatMap_append]
      exact List.mem_append_right _ hlater

/-- **When lowering preserves a transaction**: the decoded intent means the same exactly where every
operation is decodable; and the frame is that of no other transaction exactly where every literal
has its cell to itself. -/
theorem lowering_preserves_iff (h : a.lowerToSisa = .ok frame) (hf : a.Fits) :
    ((∀ i, fromStreamFrame frame = .ok i → a.PreservedBy i) ↔ DecodableFrom [] a.operations) ∧
      ((∀ b : TransactionAst, b.lowerToSisa = .ok frame → a.SameUpToSymbols b) ↔ a.Unshared) := by
  constructor
  · obtain ⟨c, is, hc, his, rfl⟩ := lowerToSisa_ok h
    have hdecoded := fromStreamFrame_lowered hc (hf c hc) his (c.symbols.length % 2 ^ 32)
    rw [← LoweringContext.preservedBy_iff hc, hdecoded]
    constructor
    · intro hall
      exact hall _ rfl
    · intro hp i hi
      obtain rfl := Except.ok.inj hi
      exact hp
  · constructor
    · intro hall
      by_contra hshared
      obtain ⟨b, hb, hdiffers⟩ := collides_of_shared h hshared
      exact hdiffers (hall b hb)
    · intro hunshared b hb
      exact sameUpToSymbols_of_unshared h hb hf hunshared

/-- A transaction of decodable operations. -/
def decodable : TransactionAst :=
  ⟨0, [.expectWorld ⟨5⟩, .allocate "a", .define "s" (.symbol "a") "p" (.entity ⟨7⟩), .forget "t"]⟩

theorem lowering_preserves_decodable :
    ∃ frame, decodable.lowerToSisa = .ok frame ∧
      (∀ i, fromStreamFrame frame = .ok i → decodable.PreservedBy i) ∧
      ∀ b : TransactionAst, b.lowerToSisa = .ok frame → decodable.SameUpToSymbols b := by
  have hcollect : LoweringContext.collect decodable.operations =
      .ok ⟨["s", "t"], ["p"], [], ["a"]⟩ := by decide +kernel
  have hlowers : decodable.lowerToSisa = .ok ⟨1, 0, ⟨[(0, ⟨"s"⟩), (1, ⟨"t"⟩)], [(0, ⟨"p"⟩)], []⟩, 1,
      [⟨.expectObject, Instruction.worldArgument, 5⟩, .allocate, .storeLocal 0, .loadLocal 0,
        .push 0, .push 7, .define 0, .forget 1]⟩ := by decide +kernel
  have hfits : decodable.Fits := by
    intro c hc
    obtain rfl := Except.ok.inj (hcollect.symm.trans hc)
    exact ⟨by decide, by decide, by decide⟩
  have hdecodable : DecodableFrom [] decodable.operations :=
    ⟨trivial, trivial, ⟨List.mem_singleton_self _, show (7 : ℕ) < literalBase by decide⟩, trivial,
      trivial⟩
  have hunshared : decodable.Unshared := by
    refine ⟨by decide, fun c hc e he l hl => ?_⟩
    obtain rfl := Except.ok.inj (hcollect.symm.trans hc)
    cases hl
  obtain ⟨hpreserves, hunique⟩ := lowering_preserves_iff hlowers hfits
  exact ⟨_, hlowers, hpreserves.2 hdecodable, hunique.2 hunshared⟩

/-- **A literal reads as an entity**, and an entity with its cell lowers to the same frame; a
rejection is lost. -/
theorem lowering_confuses :
    (∃ (a b : TransactionAst) (frame : InstructionStreamFrame) (i : QueuedIntent),
      a.operations = [.define "s" (.entity ⟨1⟩) "p" (.literal "y")] ∧
      b.operations = [.define "s" (.literal "y") "p" (.literal "y")] ∧
      a.lowerToSisa = .ok frame ∧ b.lowerToSisa = .ok frame ∧ ¬ a.SameUpToSymbols b ∧
      fromStreamFrame frame = .ok i ∧ ¬ a.PreservedBy i) ∧
    ∃ (a : TransactionAst) (frame : InstructionStreamFrame), a.operations = [.reject] ∧
      a.lowerToSisa = .ok frame ∧ fromStreamFrame frame = .ok (.new a.space) := by
  refine ⟨⟨⟨0, _⟩, ⟨0, _⟩, ⟨1, 0, ⟨[(0, ⟨"s"⟩)], [(0, ⟨"p"⟩)], [(1, ⟨"y"⟩)]⟩, 0,
    [.push 1, .push 0, .push 1, .define 0]⟩,
    ⟨0, 0, [], [.define ⟨"s"⟩ ⟨.entity ⟨1⟩, ⟨"p"⟩, .entity ⟨1⟩⟩]⟩, rfl, rfl, by decide +kernel,
    by decide +kernel, ?_, by decide +kernel, ?_⟩,
    ⟨0, _⟩, ⟨1, 0, .empty, 0, [.reject]⟩, rfl, by decide +kernel, by decide +kernel⟩
  · rintro ⟨-, f, hf⟩
    cases (List.cons.inj hf).1
  · rintro ⟨-, hops, -⟩
    revert hops
    decide

end TransactionAst

end ForthDB
