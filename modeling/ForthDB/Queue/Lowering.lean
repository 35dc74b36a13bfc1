import ForthDB.Queue.Stream
import ForthDB.Queue.TransactionAst
import Mathlib.Data.List.Sort

/-!
# Lowering a transaction to the Semantic ISA

`lower_to_sisa` collects the names of a transaction, numbers them in the order of their texts,
and writes the instructions of one operation after another. Literals are numbered behind the
predicates. `from_stream_frame` reads a cell below the literal cells of the VM as an entity.

* `lowerToSisa`: the front end.
* `lowerOperation_inj`: what two operations with the same instructions share.
* `fromStreamFrame_lowered`: the intent that a lowered frame is decoded to.
-/

namespace ForthDB

inductive LoweringError
  | duplicateAllocation (symbol : String)
  | undefinedSymbol (symbol : String)
  | localCountOverflow
  | unsupportedDynamicSymbolExpectObject
deriving DecidableEq, Repr

/-- The literal of an operand, if it is one. -/
def AtomRef.literalNames : AtomRef → List String
  | .literal l => [l]
  | .entity _ | .symbol _ => []

namespace TransactionOp

def allocated : TransactionOp → List String
  | .allocate result => [result]
  | _ => []

def slotNames : TransactionOp → List String
  | .expectObject slot _ | .define slot _ _ _ | .forget slot => [slot]
  | _ => []

def predicateNames : TransactionOp → List String
  | .define _ _ predicate _ => [predicate]
  | _ => []

/-- The operands that are looked up among the literals. -/
def operands : TransactionOp → List AtomRef
  | .expectObject _ expected => [expected]
  | .define _ subject _ object => [subject, object]
  | _ => []

def literalNames (op : TransactionOp) : List String := op.operands.flatMap AtomRef.literalNames

end TransactionOp

/-- `sort_unstable_by_key` and `dedup_by`. -/
def distinctNames (names : List String) : List String := (names.insertionSort (· ≤ ·)).dedup

/-- The scratch vectors of `LoweringContext` behind the first pass. -/
structure LoweringContext where
  slots : List String
  predicates : List String
  literals : List String
  symbols : List String
deriving DecidableEq, Repr

/-- The symbols that the first pass collects: a symbol is allocated once. -/
def collectSymbols (symbols : List String) :
    List TransactionOp → Except LoweringError (List String)
  | [] => .ok symbols
  | .allocate result :: ops =>
    if result ∈ symbols then .error (.duplicateAllocation result)
    else collectSymbols (symbols ++ [result]) ops
  | _ :: ops => collectSymbols symbols ops

/-- The first pass of `lower_transient`. -/
def LoweringContext.collect (ops : List TransactionOp) : Except LoweringError LoweringContext :=
  (collectSymbols [] ops).map fun symbols =>
    { slots := distinctNames (ops.flatMap TransactionOp.slotNames)
      predicates := distinctNames (ops.flatMap TransactionOp.predicateNames)
      literals := distinctNames (ops.flatMap TransactionOp.literalNames)
      symbols := symbols }

namespace LoweringContext

variable (c : LoweringContext)

/-- The token of a slot, an `as u32` cast. Every name that is looked up has been collected. -/
def slotToken (slot : String) : ℕ := c.slots.idxOf slot % 2 ^ 32

def predicateCell (predicate : String) : ℕ := c.predicates.idxOf predicate

/-- The cell of a literal: the literals are numbered behind the predicates. -/
def literalCell (literal : String) : ℕ := c.literals.idxOf literal + c.predicates.length

/-- `load_atom`. -/
def loadAtom : AtomRef → Except LoweringError Instruction
  | .entity e => .ok (.push e.value)
  | .literal l => .ok (.push (c.literalCell l))
  | .symbol s =>
    match c.symbols.idxOf? s with
    | some index => .ok (.loadLocal (index % 2 ^ 32))
    | none => .error (.undefinedSymbol s)

/-- One operation in the second pass of `lower_transient`. -/
def lowerOperation : TransactionOp → Except LoweringError (List Instruction)
  | .allocate result => .ok [.allocate, .storeLocal (c.symbols.idxOf result % 2 ^ 32)]
  | .expectWorld expected =>
    .ok [⟨.expectObject, Instruction.worldArgument, expected.value.toNat⟩]
  | .expectObject slot expected =>
    match expected with
    | .entity e => .ok [.expectObject (c.slotToken slot) e.value]
    | .literal l => .ok [.expectObject (c.slotToken slot) (c.literalCell l)]
    | .symbol _ => .error .unsupportedDynamicSymbolExpectObject
  | .define slot subject predicate object => do
    let subject ← c.loadAtom subject
    let object ← c.loadAtom object
    .ok [subject, .push (c.predicateCell predicate), object, .define (c.slotToken slot)]
  | .forget slot => .ok [.forget (c.slotToken slot)]
  | .reject => .ok [.reject]

/-- The second pass of `lower_transient`. -/
def lowerOperations : List TransactionOp → Except LoweringError (List Instruction)
  | [] => .ok []
  | op :: ops => do
    let instructions ← c.lowerOperation op
    let rest ← lowerOperations ops
    .ok (instructions ++ rest)

/-- The dictionary of `lower_from_source`. -/
def dictionary : StreamDictionary where
  slots := c.slots.zipIdx.map fun (slot, i) => (i % 2 ^ 32, ⟨slot⟩)
  predicates := c.predicates.zipIdx.map fun (predicate, i) => (i, ⟨predicate⟩)
  literals := c.literals.zipIdx.map fun (literal, i) => (i + c.predicates.length, ⟨literal⟩)

end LoweringContext

/-- `lower_to_sisa`. -/
def TransactionAst.lowerToSisa (a : TransactionAst) : Except LoweringError InstructionStreamFrame := do
  let c ← LoweringContext.collect a.operations
  let instructions ← c.lowerOperations a.operations
  .ok { version := 1, space := a.space, dictionary := c.dictionary,
        localCount := c.symbols.length % 2 ^ 32, instructions := instructions }

/-! ## The names of a transaction -/

theorem mem_distinctNames {names : List String} {name : String} :
    name ∈ distinctNames names ↔ name ∈ names := by
  unfold distinctNames
  rw [List.mem_dedup, List.mem_insertionSort]

theorem nodup_distinctNames (names : List String) : (distinctNames names).Nodup := List.nodup_dedup _

/-- The names are numbered whatever their order in the transaction. -/
theorem distinctNames_congr {xs ys : List String} (h : ∀ name, name ∈ xs ↔ name ∈ ys) :
    distinctNames xs = distinctNames ys := by
  have hsorted : ∀ names, (distinctNames names).Pairwise (· ≤ ·) := fun names =>
    (List.pairwise_insertionSort (· ≤ ·) names).sublist (List.dedup_sublist _)
  refine List.Perm.eq_of_pairwise' (hsorted xs) (hsorted ys) ?_
  rw [List.perm_ext_iff_of_nodup (nodup_distinctNames xs) (nodup_distinctNames ys)]
  intro name
  rw [mem_distinctNames, mem_distinctNames, h]

/-- **The first pass** succeeds when no symbol is allocated twice, and then has the symbols in the
order of their allocations. -/
theorem collectSymbols_ok_iff {seen symbols : List String} {ops : List TransactionOp}
    (h : seen.Nodup) : collectSymbols seen ops = .ok symbols ↔
      symbols = seen ++ ops.flatMap TransactionOp.allocated ∧ symbols.Nodup := by
  induction ops generalizing seen with
  | nil =>
    simp only [collectSymbols, Except.ok.injEq, List.flatMap_nil, List.append_nil]
    constructor
    · rintro rfl
      exact ⟨rfl, h⟩
    · rintro ⟨rfl, -⟩
      rfl
  | cons op ops ih =>
    cases op with
    | allocate result =>
      simp only [collectSymbols, List.flatMap_cons, TransactionOp.allocated]
      by_cases hr : result ∈ seen
      · rw [if_pos hr]
        refine iff_of_false (fun hs => nomatch hs) ?_
        rintro ⟨rfl, hn⟩
        rw [List.nodup_append] at hn
        exact hn.2.2 result hr result (by simp) rfl
      · rw [if_neg hr, ih, List.append_assoc]
        rw [List.nodup_append]
        refine ⟨h, List.nodup_singleton _, fun x hx y hy hxy => ?_⟩
        rw [List.mem_singleton.1 hy] at hxy
        exact hr (hxy ▸ hx)
    | expectWorld _ => exact ih h
    | expectObject _ _ => exact ih h
    | define _ _ _ _ => exact ih h
    | forget _ => exact ih h
    | reject => exact ih h

namespace LoweringContext

variable {c : LoweringContext} {ops : List TransactionOp}

/-- What the context knows of operations: their names, all of them once. -/
structure Collected (c : LoweringContext) (ops : List TransactionOp) : Prop where
  slots : c.slots.Nodup ∧ ∀ op ∈ ops, ∀ slot ∈ op.slotNames, slot ∈ c.slots
  predicates : c.predicates.Nodup ∧ ∀ op ∈ ops, ∀ p ∈ op.predicateNames, p ∈ c.predicates
  literals : c.literals.Nodup ∧ ∀ op ∈ ops, ∀ l ∈ op.literalNames, l ∈ c.literals
  symbols : c.symbols.Nodup ∧ ∀ op ∈ ops, ∀ s ∈ op.allocated, s ∈ c.symbols

theorem collect_ok_iff : collect ops = .ok c ↔
    c = { slots := distinctNames (ops.flatMap TransactionOp.slotNames)
          predicates := distinctNames (ops.flatMap TransactionOp.predicateNames)
          literals := distinctNames (ops.flatMap TransactionOp.literalNames)
          symbols := ops.flatMap TransactionOp.allocated } ∧
      (ops.flatMap TransactionOp.allocated).Nodup := by
  unfold collect
  constructor
  · intro h
    cases hs : collectSymbols [] ops with
    | error e => rw [hs] at h; cases h
    | ok symbols =>
      obtain ⟨rfl, hn⟩ := (collectSymbols_ok_iff List.nodup_nil).1 hs
      rw [hs] at h
      cases h
      exact ⟨rfl, hn⟩
  · rintro ⟨rfl, hn⟩
    rw [(collectSymbols_ok_iff List.nodup_nil).2 ⟨rfl, hn⟩]
    rfl

theorem Collected.of_collect (h : collect ops = .ok c) : c.Collected ops := by
  have hmem : ∀ names : TransactionOp → List String, ∀ op ∈ ops, ∀ name ∈ names op,
      name ∈ distinctNames (ops.flatMap names) := fun names op hop name hname =>
    mem_distinctNames.2 (List.mem_flatMap.2 ⟨op, hop, hname⟩)
  obtain ⟨rfl, hn⟩ := collect_ok_iff.1 h
  exact ⟨⟨nodup_distinctNames _, hmem _⟩, ⟨nodup_distinctNames _, hmem _⟩,
    ⟨nodup_distinctNames _, hmem _⟩, hn, fun op hop s hs => List.mem_flatMap.2 ⟨op, hop, hs⟩⟩

theorem Collected.head {op : TransactionOp} (h : c.Collected (op :: ops)) : c.Collected [op] := by
  obtain ⟨⟨hs, hs'⟩, ⟨hp, hp'⟩, ⟨hl, hl'⟩, hy, hy'⟩ := h
  simp only [List.forall_mem_cons] at hs' hp' hl' hy'
  exact ⟨⟨hs, by simpa using hs'.1⟩, ⟨hp, by simpa using hp'.1⟩, ⟨hl, by simpa using hl'.1⟩, hy,
    by simpa using hy'.1⟩

theorem Collected.tail {op : TransactionOp} (h : c.Collected (op :: ops)) : c.Collected ops := by
  obtain ⟨⟨hs, hs'⟩, ⟨hp, hp'⟩, ⟨hl, hl'⟩, hy, hy'⟩ := h
  simp only [List.forall_mem_cons] at hs' hp' hl' hy'
  exact ⟨⟨hs, hs'.2⟩, ⟨hp, hp'.2⟩, ⟨hl, hl'.2⟩, hy, hy'.2⟩

/-- The tokens and locals fit their `u32`, and the cells lie below the literal cells of the VM. -/
structure Fits (c : LoweringContext) : Prop where
  slots : c.slots.length < 2 ^ 32
  symbols : c.symbols.length < 2 ^ 32
  cells : c.predicates.length + c.literals.length ≤ literalBase

/-! ## The numbers of the names -/

theorem idxOf?_eq_some {names : List String} {name : String} {i : ℕ}
    (h : names.idxOf? name = some i) : name ∈ names ∧ names.idxOf name = i := by
  induction names generalizing i with
  | nil => cases h
  | cons x names ih =>
    rw [List.idxOf?_cons] at h
    rw [List.idxOf_cons]
    cases hx : x == name with
    | true =>
      rw [hx] at h
      obtain rfl := Option.some.inj h
      exact ⟨by rw [eq_of_beq hx]; exact List.mem_cons_self, rfl⟩
    | false =>
      rw [hx] at h
      obtain ⟨j, hj, rfl⟩ := Option.map_eq_some_iff.1 h
      obtain ⟨hmem, hidx⟩ := ih hj
      exact ⟨List.mem_cons_of_mem _ hmem, by rw [hidx]; rfl⟩

/-- A table over distinct names is numbered. -/
theorem numbered_zipIdx {κ : Type} {names : List String} (hn : names.Nodup) (make : String → κ)
    (hmake : make.Injective) (number : ℕ → ℕ) :
    NameTable.Numbered number (names.zipIdx.map fun (name, i) => (number i, make name)) := by
  constructor
  · rw [List.map_map]
    have hfst : names.zipIdx.map Prod.fst = names := List.zipIdx_map_fst 0 names
    have hnames : (names.zipIdx.map fun p => make p.1) = names.map make := by
      calc _ = (names.zipIdx.map Prod.fst).map make := by
              rw [List.map_map]
              rfl
        _ = names.map make := by rw [hfst]
    show (names.zipIdx.map fun p => make p.1).Nodup
    rw [hnames]
    exact hn.map hmake
  · intro i e he
    rw [List.getElem?_map, List.getElem?_zipIdx] at he
    cases hi : names[i]? with
    | none => rw [hi] at he; cases he
    | some name =>
      rw [hi] at he
      simp only [Option.map_some, Option.some.injEq, Nat.zero_add] at he
      rw [← he]

theorem mem_zipIdx_idxOf {κ : Type} {names : List String} {name : String} (h : name ∈ names)
    (make : String → κ) (number : ℕ → ℕ) :
    (number (names.idxOf name), make name) ∈
      names.zipIdx.map fun (name, i) => (number i, make name) := by
  refine List.mem_map.2 ⟨(name, names.idxOf name), ?_, rfl⟩
  rw [List.mem_zipIdx_iff_getElem?]
  rw [List.getElem?_eq_getElem (List.idxOf_lt_length_iff.2 h), List.getElem_idxOf]

/-- **The slot of a token** is the one it was given to. -/
theorem slotOf_slotToken (h : c.Collected ops) (hf : c.Fits) {slot : String}
    (hs : slot ∈ c.slots) : c.dictionary.slotOf (c.slotToken slot) = .ok ⟨slot⟩ := by
  have hnum : NameTable.Numbered (fun i => i % 2 ^ 32) c.dictionary.slots :=
    numbered_zipIdx h.slots.1 SlotId.mk (fun _ _ he => SlotId.mk.inj he) _
  have hlen : c.dictionary.slots.length = c.slots.length := by simp [dictionary]
  have hroom := hf.slots
  have hlast : NameTable.lastEntry c.dictionary.slots (c.slotToken slot) = some ⟨slot⟩ := by
    refine NameTable.lastEntry_of_mem hnum (fun i j hi hj hij => ?_)
      (mem_zipIdx_idxOf hs SlotId.mk fun i => i % 2 ^ 32)
    omega
  unfold StreamDictionary.slotOf
  rw [hlast]

theorem slotToken_ne_world (hroom : c.slots.length < 2 ^ 32) {slot : String} (hs : slot ∈ c.slots) :
    c.slotToken slot ≠ Instruction.worldArgument := by
  have hidx := List.idxOf_lt_length_iff.2 hs
  unfold slotToken Instruction.worldArgument
  omega

theorem liftPredicate_predicateCell (h : c.Collected ops) {p : String} (hp : p ∈ c.predicates) :
    c.dictionary.liftPredicate (.cellVal (c.predicateCell p)) = ⟨p⟩ := by
  have hnum : NameTable.Numbered id c.dictionary.predicates :=
    numbered_zipIdx h.predicates.1 Predicate.mk (fun _ _ he => Predicate.mk.inj he) _
  have hlast : NameTable.lastEntry c.dictionary.predicates (c.predicateCell p) = some ⟨p⟩ :=
    NameTable.lastEntry_of_mem hnum (fun i j _ _ hij => hij)
      (mem_zipIdx_idxOf hp Predicate.mk id)
  unfold StreamDictionary.liftPredicate
  simp only [hlast]
  rfl

theorem literalCell_lt (hf : c.Fits) {l : String} (hl : l ∈ c.literals) :
    c.literalCell l < literalBase := by
  have hcells := hf.cells
  have hidx := List.idxOf_lt_length_iff.2 hl
  unfold literalCell
  omega

/-! ## Decoding -/

variable (c)

/-- What an operand of a definition is decoded to. -/
def decodedAtom (space : ℕ) : AtomRef → IntentAtom
  | .entity e => c.dictionary.liftAtom (.cellVal e.value)
  | .literal l => .entity ⟨c.literalCell l⟩
  | .symbol s => .temporary ⟨space, c.symbols.idxOf s⟩

/-- The cell of an expected object. -/
def expectedCell : AtomRef → ℕ
  | .entity e => e.value
  | .literal l => c.literalCell l
  | .symbol _ => 0

/-- What decoding an operation adds to an intent: an expected object becomes an expected absence
where its cell is zero, and is dropped otherwise; a rejection is dropped. -/
def decode (i : QueuedIntent) : TransactionOp → QueuedIntent
  | .allocate _ => i.entity
  | .expectWorld expected => i.expectWorld expected
  | .expectObject slot expected => if c.expectedCell expected = 0 then i.expectAbsent ⟨slot⟩ else i
  | .define slot subject predicate object =>
    i.define ⟨slot⟩ ⟨c.decodedAtom i.space subject, ⟨predicate⟩, c.decodedAtom i.space object⟩
  | .forget slot => i.forget ⟨slot⟩
  | .reject => i

variable {c}

theorem decode_space (i : QueuedIntent) (op : TransactionOp) : (c.decode i op).space = i.space := by
  cases op with
  | expectObject slot expected =>
    simp only [decode]
    split <;> rfl
  | _ => rfl

/-- **A loaded operand** is a value that lifts to what the operand is decoded to. -/
theorem liftInstruction_loadAtom (hf : c.Fits) {x : AtomRef} (hx : ∀ l ∈ x.literalNames, l ∈ c.literals) {inst : Instruction} (h : c.loadAtom x = .ok inst)
    (i : QueuedIntent) :
    ∃ v, c.dictionary.liftAtom v = c.decodedAtom i.space x ∧
      ∀ stack, c.dictionary.liftInstruction (i, stack) inst = .ok (i, v :: stack) := by
  cases x with
  | entity e =>
    cases h
    exact ⟨.cellVal e.value, rfl, fun _ => rfl⟩
  | literal l =>
    cases h
    refine ⟨.cellVal (c.literalCell l), ?_, fun _ => rfl⟩
    have hlt := literalCell_lt hf (hx l (List.mem_singleton_self _))
    unfold StreamDictionary.liftAtom
    exact if_pos hlt
  | symbol s =>
    simp only [loadAtom] at h
    cases hs : c.symbols.idxOf? s with
    | none => rw [hs] at h; cases h
    | some index =>
      rw [hs] at h
      cases h
      obtain ⟨hmem, rfl⟩ := idxOf?_eq_some hs
      have hroom := hf.symbols
      have hidx := List.idxOf_lt_length_iff.2 hmem
      refine ⟨.atom (.temporary ⟨i.space, c.symbols.idxOf s⟩), rfl, fun stack => ?_⟩
      rw [Nat.mod_eq_of_lt (by omega)]
      rfl

/-- **One operation** is decoded from its instructions. -/
theorem liftAll_lowerOperation (hf : c.Fits) {op : TransactionOp} (hc : c.Collected [op])
    {is : List Instruction} (h : c.lowerOperation op = .ok is) (i : QueuedIntent) :
    c.dictionary.liftAll (i, []) is = .ok (c.decode i op, []) := by
  cases op with
  | allocate result =>
    cases h
    rfl
  | expectWorld expected =>
    cases h
    show Except.ok (i.expectWorld ⟨.ofNat expected.value.toNat⟩, []) = _
    rw [UInt64.ofNat_toNat]
    rfl
  | expectObject slot expected =>
    have hslot : slot ∈ c.slots := hc.slots.2 _ (List.mem_singleton_self _) slot (by
      simp [TransactionOp.slotNames])
    have hinst : ∃ cell, is = [.expectObject (c.slotToken slot) cell] ∧
        cell = c.expectedCell expected := by
      cases expected with
      | entity e =>
        cases h
        exact ⟨_, rfl, rfl⟩
      | literal l =>
        cases h
        exact ⟨_, rfl, rfl⟩
      | symbol s => cases h
    obtain ⟨cell, rfl, hcell⟩ := hinst
    have hworld := slotToken_ne_world hf.slots hslot
    have hof := slotOf_slotToken hc hf hslot
    simp only [decode, ← hcell]
    by_cases hzero : cell = 0
    · subst hzero
      simp only [StreamDictionary.liftAll,
        StreamDictionary.liftInstruction_expectAbsent hof hworld, ↓reduceIte]
    · -- the stack has no fact to expect
      simp [StreamDictionary.liftAll, StreamDictionary.liftInstruction, Instruction.expectObject,
        hworld, hof, hzero, bind, Except.bind]
  | define slot subject predicate object =>
    have hop := List.mem_singleton_self (TransactionOp.define slot subject predicate object)
    have hslot : slot ∈ c.slots := hc.slots.2 _ hop slot (by simp [TransactionOp.slotNames])
    have hpredicate : predicate ∈ c.predicates :=
      hc.predicates.2 _ hop predicate (by simp [TransactionOp.predicateNames])
    have hsubject : ∀ l ∈ subject.literalNames, l ∈ c.literals := fun l hl =>
      hc.literals.2 _ hop l (by simp [TransactionOp.literalNames, TransactionOp.operands, hl])
    have hobject : ∀ l ∈ object.literalNames, l ∈ c.literals := fun l hl =>
      hc.literals.2 _ hop l (by simp [TransactionOp.literalNames, TransactionOp.operands, hl])
    simp only [lowerOperation, bind, Except.bind] at h
    cases hs : c.loadAtom subject with
    | error e => rw [hs] at h; cases h
    | ok first =>
      cases ho : c.loadAtom object with
      | error e => rw [hs, ho] at h; cases h
      | ok last =>
        rw [hs, ho] at h
        cases h
        obtain ⟨v, hv, hpush⟩ := liftInstruction_loadAtom hf hsubject hs i
        obtain ⟨u, hu, hpush'⟩ := liftInstruction_loadAtom hf hobject ho i
        simp only [StreamDictionary.liftAll, hpush, hpush', StreamDictionary.liftInstruction_push,
          StreamDictionary.liftInstruction_define (slotOf_slotToken hc hf hslot), hv, hu,
          liftPredicate_predicateCell hc hpredicate]
        rfl
  | forget slot =>
    have hslot : slot ∈ c.slots := hc.slots.2 _ (List.mem_singleton_self _) slot (by
      simp [TransactionOp.slotNames])
    cases h
    simp only [StreamDictionary.liftAll,
      StreamDictionary.liftInstruction_forget (slotOf_slotToken hc hf hslot)]
    rfl
  | reject =>
    cases h
    rfl

/-- **All operations** are decoded one after another. -/
theorem liftAll_lowerOperations (hf : c.Fits) (hc : c.Collected ops) {is : List Instruction}
    (h : c.lowerOperations ops = .ok is) (i : QueuedIntent) :
    c.dictionary.liftAll (i, []) is = .ok (ops.foldl c.decode i, []) := by
  induction ops generalizing i is with
  | nil =>
    cases h
    rfl
  | cons op ops ih =>
    simp only [lowerOperations, bind, Except.bind] at h
    cases hop : c.lowerOperation op with
    | error e => rw [hop] at h; cases h
    | ok first =>
      cases hrest : c.lowerOperations ops with
      | error e => rw [hop, hrest] at h; cases h
      | ok rest =>
        rw [hop, hrest] at h
        cases h
        rw [StreamDictionary.liftAll_append, liftAll_lowerOperation hf hc.head hop]
        exact ih hc.tail hrest (c.decode i op)

end LoweringContext

/-- A frame is what one context makes of a transaction. -/
theorem TransactionAst.lowerToSisa_ok {a : TransactionAst} {frame : InstructionStreamFrame}
    (h : a.lowerToSisa = .ok frame) :
    ∃ c is, LoweringContext.collect a.operations = .ok c ∧ c.lowerOperations a.operations = .ok is ∧
      frame = { version := 1, space := a.space, dictionary := c.dictionary,
                localCount := c.symbols.length % 2 ^ 32, instructions := is } := by
  simp only [lowerToSisa, bind, Except.bind] at h
  cases hc : LoweringContext.collect a.operations with
  | error e => rw [hc] at h; cases h
  | ok c =>
    rw [hc] at h
    simp only at h
    cases his : c.lowerOperations a.operations with
    | error e => rw [his] at h; cases h
    | ok is =>
      rw [his] at h
      cases h
      exact ⟨c, is, rfl, his, rfl⟩

/-- **Decoding a lowered frame** never fails: the intent has what each operation is decoded to. -/
theorem fromStreamFrame_lowered {a : TransactionAst} {c : LoweringContext} {is : List Instruction}
    (hc : LoweringContext.collect a.operations = .ok c) (hf : c.Fits)
    (his : c.lowerOperations a.operations = .ok is) (localCount : ℕ) :
    fromStreamFrame ⟨1, a.space, c.dictionary, localCount, is⟩ =
      .ok (a.operations.foldl c.decode (.new a.space)) := by
  unfold fromStreamFrame
  rw [LoweringContext.liftAll_lowerOperations hf (.of_collect hc) his]
  rfl

end ForthDB
