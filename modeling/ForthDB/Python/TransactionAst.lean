import ForthDB.Python.StreamFrame
import ForthDB.Queue.Lowering
import Mathlib.Algebra.BigOperators.Ring.List

/-!
# Lowering a transaction in Python

`TransactionAST.lower_to_sisa` of `forthdb_transaction_ast.py` packs the bytes of a frame by
itself: the counts of its tables first, then the texts without their numbers, then
instructions of sixteen bytes with opcodes of its own. An `error` is an exception.

* `TransactionAst.lowerToSisaPython`: the lowering.
* `lowerToSisaPython_ok_iff`: which transactions it lowers.
* `readFrame_lowerToSisaPython`: the decoder of the other language refuses what it returns,
  for want of the magic.
* `lowerings_agree_iff`: the two lowerings agree on what Python does not lower.
-/

namespace ForthDB

open Bytes Decode PythonStruct

/-- The sets and the symbols that the first loop collects. -/
structure PythonNames where
  slots : List String
  predicates : List String
  literals : List String
  symbols : Dict String ℕ
  localCount : ℕ

namespace PythonNames

def empty : PythonNames := ⟨[], [], [], ∅, 0⟩

variable (names : PythonNames)

/-- The body of the first loop. -/
def add : TransactionOp → Except String PythonNames
  | .allocate result =>
    if names.symbols.lookup result ≠ none then
      .error s!"ValueError: duplicate allocation for symbol '{result}'"
    else .ok { names with
      symbols := names.symbols.insert result names.localCount
      localCount := names.localCount + 1 }
  | .expectWorld _ => .ok names
  | .expectObject slot expected =>
    .ok { names with
      slots := names.slots ++ [slot]
      literals := names.literals ++ expected.literalNames }
  | .define slot subject predicate object =>
    .ok { names with
      slots := names.slots ++ [slot]
      predicates := names.predicates ++ [predicate]
      literals := names.literals ++ (subject.literalNames ++ object.literalNames) }
  | .forget slot => .ok { names with slots := names.slots ++ [slot] }
  | .reject => .ok names

/-- The first loop. -/
def collect (names : PythonNames) : List TransactionOp → Except String PythonNames
  | [] => .ok names
  | op :: ops => do
    let names ← names.add op
    collect names ops

/-! The tables are the sorted sets; a name's number is its position. -/

def slotTable : List String := distinctNames names.slots

def predicateTable : List String := distinctNames names.predicates

def literalTable : List String := distinctNames names.literals

def slotNumber (slot : String) : ℕ := names.slotTable.idxOf slot

def predicateNumber (predicate : String) : ℕ := names.predicateTable.idxOf predicate

def literalNumber (literal : String) : ℕ :=
  names.literalTable.idxOf literal + names.predicateTable.length

/-- `struct.pack("<BBHL", opcode, 0, 0, argument)` and `struct.pack("<Q", immediate)`. -/
def packInstruction (opcode argument immediate : ℕ) : Except String (List UInt8) := do
  let opcode ← pack 1 opcode
  let argument ← pack 4 argument
  let immediate ← pack 8 immediate
  pure (opcode ++ (le 1 0 ++ (le 2 0 ++ (argument ++ immediate))))

/-- `load_atom`. -/
def loadAtom : AtomRef → Except String (List UInt8)
  | .entity e => packInstruction 4 0 e.value
  | .literal l => packInstruction 4 0 (names.literalNumber l)
  | .symbol s =>
    match names.symbols.lookup s with
    | some index => packInstruction 2 index 0
    | none => .error s!"ValueError: use of undefined symbol '{s}'"

/-- The body of the second loop. -/
def packOperation : TransactionOp → Except String (List UInt8)
  | .allocate result =>
    match names.symbols.lookup result with
    | none => .error s!"KeyError: '{result}'"
    | some index => do
      let allocate ← packInstruction 0 0 0
      let store ← packInstruction 3 index 0
      pure (allocate ++ store)
  | .expectWorld expected => packInstruction 6 0xFFFFFFFF expected.value.toNat
  | .expectObject slot expected =>
    match expected with
    | .entity e => packInstruction 6 (names.slotNumber slot) e.value
    | .literal l => packInstruction 6 (names.slotNumber slot) (names.literalNumber l)
    | .symbol _ =>
      .error "ValueError: ExpectObject cannot take a dynamic symbol as expected value in SISA v1"
  | .define slot subject predicate object => do
    let subject ← names.loadAtom subject
    let predicate ← packInstruction 4 0 (names.predicateNumber predicate)
    let object ← names.loadAtom object
    let define ← packInstruction 5 (names.slotNumber slot) 0
    pure (subject ++ (predicate ++ (object ++ define)))
  | .forget slot => packInstruction 7 (names.slotNumber slot) 0
  | .reject => packInstruction 8 0 0

/-- One text of a table. -/
def packText (text : String) : Except String (List UInt8) := do
  let length ← pack 4 (utf8 text).length
  pure (length ++ utf8 text)

/-- The header and the tables. -/
def packTables (space : ℕ) : Except String (List UInt8) := do
  let space ← pack 8 space
  let slotCount ← pack 4 names.slotTable.length
  let predicateCount ← pack 4 names.predicateTable.length
  let literalCount ← pack 4 names.literalTable.length
  let localCount ← pack 4 names.localCount
  let slots ← packEach packText names.slotTable
  let predicates ← packEach packText names.predicateTable
  let literals ← packEach packText names.literalTable
  pure (le 4 1 ++ (space ++ (slotCount ++ (predicateCount ++ (literalCount ++ (localCount ++
    (slots ++ (predicates ++ literals))))))))

end PythonNames

/-- `TransactionAST.lower_to_sisa`. -/
def TransactionAst.lowerToSisaPython (a : TransactionAst) : Except String (List UInt8) := do
  let names ← PythonNames.empty.collect a.operations
  let tables ← names.packTables a.space
  let instructions ← packEach names.packOperation a.operations
  let count ← pack 4 (instructions.length / 16)
  pure (tables ++ (count ++ instructions))

/-! ## What is lowered -/

/-- The numbers of an operand fit, and its symbol is allocated. -/
def AtomRef.PythonLowers (allocated : List String) : AtomRef → Prop
  | .entity e => e.value < 2 ^ 64
  | .literal _ => True
  | .symbol s => s ∈ allocated

/-- An operation between the allocations of its transaction. -/
def TransactionOp.PythonLowers (allocated : List String) : TransactionOp → Prop
  | .expectObject _ (.symbol _) => False
  | op => ∀ x ∈ op.operands, x.PythonLowers allocated

/-- The instructions that an operation is lowered to. -/
def TransactionOp.instructionCount : TransactionOp → ℕ
  | .allocate _ => 2
  | .define _ _ _ _ => 4
  | .expectWorld _ | .expectObject _ _ | .forget _ | .reject => 1

/-- The texts of a transaction, each once. -/
def TransactionAst.texts (a : TransactionAst) (names : TransactionOp → List String) : List String :=
  distinctNames (a.operations.flatMap names)

def TransactionAst.allocated (a : TransactionAst) : List String :=
  a.operations.flatMap TransactionOp.allocated

/-- No symbol is allocated twice or used without an allocation, no slot is expected to hold one,
and every number and length fits its field. -/
structure TransactionAst.PythonLowers (a : TransactionAst) : Prop where
  once : a.allocated.Nodup
  operations : ∀ op ∈ a.operations, op.PythonLowers a.allocated
  space : a.space < 2 ^ 64
  counts : (a.texts TransactionOp.slotNames).length < 2 ^ 32 ∧
    (a.texts TransactionOp.predicateNames).length < 2 ^ 32 ∧
    (a.texts TransactionOp.literalNames).length < 2 ^ 32 ∧ a.allocated.length < 2 ^ 32
  lengths : (∀ text ∈ a.texts TransactionOp.slotNames, TextFits 4 text) ∧
    (∀ text ∈ a.texts TransactionOp.predicateNames, TextFits 4 text) ∧
    ∀ text ∈ a.texts TransactionOp.literalNames, TextFits 4 text
  instructions : (a.operations.map TransactionOp.instructionCount).sum < 2 ^ 32

section Packing

theorem except_bind_ok_iff {α β : Type} {x : Except String α} {f : α → Except String β} {b : β} :
    (x >>= f) = .ok b ↔ ∃ a, x = .ok a ∧ f a = .ok b := by
  cases x with
  | error e => simp [bind, Except.bind]
  | ok a => simp [bind, Except.bind]

theorem pack_ok_iff {k n : ℕ} {bytes : List UInt8} :
    pack k n = .ok bytes ↔ n < 256 ^ k ∧ bytes = le k n := by
  unfold pack
  split
  · rename_i h
    simp [h, eq_comm]
  · rename_i h
    simp [h]

/-- What a loop packs, when each round does. -/
theorem packEach_ok_iff {α : Type} {encode : α → Except String (List UInt8)} (weight : α → ℕ)
    {wanted : α → Prop} {as : List α}
    (h : ∀ a ∈ as, ((∃ bytes, encode a = .ok bytes) ↔ wanted a) ∧
      ∀ bytes, encode a = .ok bytes → bytes.length = weight a) :
    ((∃ bytes, packEach encode as = .ok bytes) ↔ ∀ a ∈ as, wanted a) ∧
      ∀ bytes, packEach encode as = .ok bytes → bytes.length = (as.map weight).sum := by
  induction as with
  | nil =>
    refine ⟨by simp [packEach], fun bytes hbytes => ?_⟩
    obtain rfl := Except.ok.inj hbytes
    rfl
  | cons a as ih =>
    obtain ⟨hone, hweight⟩ := h a (by simp)
    obtain ⟨hrest, hsum⟩ := ih fun b hb => h b (List.mem_cons_of_mem _ hb)
    constructor
    · rw [List.forall_mem_cons, ← hone, ← hrest]
      simp only [packEach, except_bind_ok_iff, pure, Except.pure, Except.ok.injEq]
      constructor
      · rintro ⟨bytes, first, hfirst, others, hothers, -⟩
        exact ⟨⟨first, hfirst⟩, others, hothers⟩
      · rintro ⟨⟨first, hfirst⟩, others, hothers⟩
        exact ⟨_, first, hfirst, others, hothers, rfl⟩
    · intro bytes hbytes
      simp only [packEach, except_bind_ok_iff, pure, Except.pure, Except.ok.injEq] at hbytes
      obtain ⟨first, hfirst, others, hothers, rfl⟩ := hbytes
      rw [List.length_append, hweight first hfirst, hsum others hothers, List.map_cons,
        List.sum_cons]

end Packing

namespace PythonNames

variable {names : PythonNames}

theorem packInstruction_ok_iff {opcode argument immediate : ℕ} {bytes : List UInt8} :
    packInstruction opcode argument immediate = .ok bytes ↔
      (opcode < 2 ^ 8 ∧ argument < 2 ^ 32 ∧ immediate < 2 ^ 64) ∧
        bytes = le 1 opcode ++ (le 1 0 ++ (le 2 0 ++ (le 4 argument ++ le 8 immediate))) := by
  unfold packInstruction
  simp only [except_bind_ok_iff, pack_ok_iff, pure, Except.pure, Except.ok.injEq]
  constructor
  · rintro ⟨_, ⟨h1, rfl⟩, _, ⟨h2, rfl⟩, _, ⟨h3, rfl⟩, rfl⟩
    exact ⟨⟨h1, h2, h3⟩, rfl⟩
  · rintro ⟨⟨h1, h2, h3⟩, rfl⟩
    exact ⟨_, ⟨h1, rfl⟩, _, ⟨h2, rfl⟩, _, ⟨h3, rfl⟩, rfl⟩

/-- An instruction is packed to sixteen bytes. -/
theorem length_packInstruction {opcode argument immediate : ℕ} {bytes : List UInt8}
    (h : packInstruction opcode argument immediate = .ok bytes) : bytes.length = 16 := by
  obtain ⟨-, rfl⟩ := packInstruction_ok_iff.1 h
  simp

/-- The loop has collected the names of some operations. -/
structure Collected (names : PythonNames) (ops : List TransactionOp) : Prop where
  slots : names.slots = ops.flatMap TransactionOp.slotNames
  predicates : names.predicates = ops.flatMap TransactionOp.predicateNames
  literals : names.literals = ops.flatMap TransactionOp.literalNames
  symbols : ∀ s, names.symbols.lookup s ≠ none ↔ s ∈ ops.flatMap TransactionOp.allocated
  symbols_lt : ∀ s i, names.symbols.lookup s = some i → i < names.localCount
  localCount : names.localCount = (ops.flatMap TransactionOp.allocated).length
  once : (ops.flatMap TransactionOp.allocated).Nodup

theorem empty_collected : empty.Collected [] where
  slots := rfl
  predicates := rfl
  literals := rfl
  symbols s := by simp [empty]
  symbols_lt s i h := by simp [empty] at h
  localCount := rfl
  once := List.nodup_nil

/-- An operation that allocates nothing adds its names. -/
theorem Collected.quiet {done : List TransactionOp} (h : names.Collected done) (op : TransactionOp)
    (hop : op.allocated = []) :
    Collected { names with
      slots := names.slots ++ op.slotNames
      predicates := names.predicates ++ op.predicateNames
      literals := names.literals ++ op.literalNames } (done ++ [op]) := by
  have hallocated : (done ++ [op]).flatMap TransactionOp.allocated =
      done.flatMap TransactionOp.allocated := by
    simp [hop]
  refine ⟨?_, ?_, ?_, ?_, h.symbols_lt, ?_, ?_⟩
  · simp [h.slots]
  · simp [h.predicates]
  · simp [h.literals]
  · rw [hallocated]; exact h.symbols
  · rw [hallocated]; exact h.localCount
  · rw [hallocated]; exact h.once

/-- An allocation adds its symbol, numbered by the allocations before it. -/
theorem Collected.allocate {done : List TransactionOp} (h : names.Collected done) {result : String}
    (hnew : names.symbols.lookup result = none) :
    Collected { names with
      symbols := names.symbols.insert result names.localCount
      localCount := names.localCount + 1 } (done ++ [.allocate result]) := by
  have hallocated : (done ++ [TransactionOp.allocate result]).flatMap TransactionOp.allocated =
      done.flatMap TransactionOp.allocated ++ [result] := by
    simp [TransactionOp.allocated]
  have hfresh : result ∉ done.flatMap TransactionOp.allocated := by
    rw [← h.symbols, not_not]
    exact hnew
  refine ⟨?_, ?_, ?_, fun s => ?_, fun s i hi => ?_, ?_, ?_⟩
  · simp [h.slots, TransactionOp.slotNames]
  · simp [h.predicates, TransactionOp.predicateNames]
  · simp [h.literals, TransactionOp.literalNames, TransactionOp.operands]
  · rw [hallocated, List.mem_append, List.mem_singleton]
    by_cases hs : s = result
    · subst hs
      simp
    · rw [AList.lookup_insert_ne hs, h.symbols]
      simp [hs]
  · by_cases hs : s = result
    · subst hs
      rw [AList.lookup_insert, Option.some.injEq] at hi
      simp only
      omega
    · rw [AList.lookup_insert_ne hs] at hi
      have hlt := h.symbols_lt s i hi
      simp only
      omega
  · rw [hallocated, List.length_append, List.length_singleton, h.localCount]
  · rw [hallocated, List.nodup_append]
    refine ⟨h.once, List.nodup_singleton _, fun x hx y hy hxy => hfresh ?_⟩
    rw [← List.mem_singleton.1 hy, ← hxy]
    exact hx

/-- **One operation** is collected, unless it allocates a symbol again. -/
theorem Collected.add {done : List TransactionOp} (h : names.Collected done) (op : TransactionOp) :
    (∃ names', names.add op = .ok names' ∧ names'.Collected (done ++ [op])) ∨
      (∃ e, names.add op = .error e) ∧
        ¬ ((done ++ [op]).flatMap TransactionOp.allocated).Nodup := by
  cases op with
  | allocate result =>
    by_cases hr : names.symbols.lookup result = none
    · exact .inl ⟨_, if_neg (not_not.2 hr), h.allocate hr⟩
    · refine .inr ⟨⟨_, if_pos hr⟩, fun hnodup => ?_⟩
      have hold := (h.symbols result).1 hr
      rw [List.flatMap_append, List.nodup_append] at hnodup
      exact hnodup.2.2 result hold result (by simp [TransactionOp.allocated]) rfl
  | expectWorld expected =>
    have hquiet := h.quiet (.expectWorld expected) rfl
    simp only [TransactionOp.slotNames, TransactionOp.predicateNames, TransactionOp.literalNames,
      TransactionOp.operands, List.flatMap_nil, List.append_nil] at hquiet
    exact .inl ⟨_, rfl, hquiet⟩
  | expectObject slot expected =>
    have hquiet := h.quiet (.expectObject slot expected) rfl
    simp only [TransactionOp.slotNames, TransactionOp.predicateNames, TransactionOp.literalNames,
      TransactionOp.operands, List.flatMap_cons, List.flatMap_nil, List.append_nil] at hquiet
    exact .inl ⟨_, rfl, hquiet⟩
  | define slot subject predicate object =>
    have hquiet := h.quiet (.define slot subject predicate object) rfl
    simp only [TransactionOp.slotNames, TransactionOp.predicateNames, TransactionOp.literalNames,
      TransactionOp.operands, List.flatMap_cons, List.flatMap_nil, List.append_nil] at hquiet
    exact .inl ⟨_, rfl, hquiet⟩
  | forget slot =>
    have hquiet := h.quiet (.forget slot) rfl
    simp only [TransactionOp.slotNames, TransactionOp.predicateNames, TransactionOp.literalNames,
      TransactionOp.operands, List.flatMap_nil, List.append_nil] at hquiet
    exact .inl ⟨_, rfl, hquiet⟩
  | reject =>
    have hquiet := h.quiet .reject rfl
    simp only [TransactionOp.slotNames, TransactionOp.predicateNames, TransactionOp.literalNames,
      TransactionOp.operands, List.flatMap_nil, List.append_nil] at hquiet
    exact .inl ⟨_, rfl, hquiet⟩

/-- **The first loop** collects the operations if no symbol is allocated twice. -/
theorem Collected.collect {done : List TransactionOp} (h : names.Collected done)
    (ops : List TransactionOp) :
    (∃ names', names.collect ops = .ok names' ∧ names'.Collected (done ++ ops)) ∨
      (∃ e, names.collect ops = .error e) ∧
        ¬ ((done ++ ops).flatMap TransactionOp.allocated).Nodup := by
  induction ops generalizing names done with
  | nil => exact .inl ⟨names, rfl, by rwa [List.append_nil]⟩
  | cons op ops ih =>
    unfold PythonNames.collect
    rcases h.add op with ⟨names₁, hadd, h₁⟩ | ⟨⟨e, hadd⟩, htwice⟩
    · rw [hadd]
      have hrest := ih h₁
      rwa [List.append_assoc] at hrest
    · rw [hadd]
      refine .inr ⟨⟨e, rfl⟩, fun hnodup => htwice ?_⟩
      rw [List.append_cons, List.flatMap_append] at hnodup
      exact (List.nodup_append.1 hnodup).1

/-! ## The second loop -/

theorem idxOf_lt {table : List String} (h : table.length < 2 ^ 32) (name : String) :
    table.idxOf name < 2 ^ 32 := lt_of_le_of_lt List.idxOf_le_length h

/-- The tables and the locals fit their counts. -/
structure Fits (names : PythonNames) : Prop where
  slots : names.slotTable.length < 2 ^ 32
  predicates : names.predicateTable.length < 2 ^ 32
  literals : names.literalTable.length < 2 ^ 32
  locals : names.localCount < 2 ^ 32

theorem Fits.literalNumber_lt (h : names.Fits) (literal : String) :
    names.literalNumber literal < 2 ^ 64 := by
  have hindex := idxOf_lt h.literals literal
  have hpredicates := h.predicates
  unfold literalNumber
  omega

theorem Fits.predicateNumber_lt (h : names.Fits) (predicate : String) :
    names.predicateNumber predicate < 2 ^ 64 :=
  lt_trans (idxOf_lt h.predicates predicate) (by decide)

/-- An instruction whose numbers fit is packed. -/
theorem packInstruction_some {opcode argument immediate : ℕ} (hopcode : opcode < 2 ^ 8)
    (hargument : argument < 2 ^ 32) (himmediate : immediate < 2 ^ 64) :
    ∃ bytes, packInstruction opcode argument immediate = .ok bytes :=
  ⟨_, packInstruction_ok_iff.2 ⟨⟨hopcode, hargument, himmediate⟩, rfl⟩⟩

/-- **An operand** is packed if its number fits and its symbol is allocated. -/
theorem Collected.loadAtom {ops : List TransactionOp} (h : names.Collected ops) (hf : names.Fits)
    (x : AtomRef) : ((∃ bytes, names.loadAtom x = .ok bytes) ↔
      x.PythonLowers (ops.flatMap TransactionOp.allocated)) ∧
      ∀ bytes, names.loadAtom x = .ok bytes → bytes.length = 16 := by
  cases x with
  | entity e =>
    refine ⟨?_, fun bytes hbytes => length_packInstruction hbytes⟩
    simp only [PythonNames.loadAtom, packInstruction_ok_iff, AtomRef.PythonLowers]
    constructor
    · rintro ⟨bytes, ⟨-, -, hlt⟩, -⟩
      exact hlt
    · exact fun hlt => ⟨_, ⟨by decide, by decide, hlt⟩, rfl⟩
  | literal l =>
    refine ⟨iff_of_true ?_ trivial, fun bytes hbytes => length_packInstruction hbytes⟩
    exact packInstruction_some (by decide) (by decide) (hf.literalNumber_lt l)
  | symbol s =>
    simp only [PythonNames.loadAtom, AtomRef.PythonLowers, ← h.symbols]
    cases hs : names.symbols.lookup s with
    | none => simp
    | some index =>
      have hindex := h.symbols_lt s index hs
      have hlocals := hf.locals
      simp only [ne_eq, reduceCtorEq, not_false_eq_true, iff_true]
      exact ⟨packInstruction_some (by decide) (by omega) (by decide),
        fun bytes hbytes => length_packInstruction hbytes⟩

/-- **An operation** is packed if its operands are, sixteen bytes for each of its instructions. -/
theorem Collected.packOperation {ops : List TransactionOp} (h : names.Collected ops) (hf : names.Fits)
    {op : TransactionOp} (hop : op ∈ ops) : ((∃ bytes, names.packOperation op = .ok bytes) ↔
      op.PythonLowers (ops.flatMap TransactionOp.allocated)) ∧
      ∀ bytes, names.packOperation op = .ok bytes → bytes.length = 16 * op.instructionCount := by
  have hslot : ∀ slot, names.slotNumber slot < 2 ^ 32 := idxOf_lt hf.slots
  have hlocals := hf.locals
  cases op with
  | allocate result =>
    have hallocated : names.symbols.lookup result ≠ none :=
      (h.symbols result).2 (List.mem_flatMap.2 ⟨_, hop, by simp [TransactionOp.allocated]⟩)
    obtain ⟨index, hindex⟩ := Option.ne_none_iff_exists'.1 hallocated
    have hlt := h.symbols_lt result index hindex
    simp only [PythonNames.packOperation, hindex, except_bind_ok_iff, pure, Except.pure,
      Except.ok.injEq]
    constructor
    · refine iff_of_true ?_ (by simp [TransactionOp.PythonLowers, TransactionOp.operands])
      obtain ⟨allocate, hallocate⟩ := packInstruction_some (show 0 < 2 ^ 8 by decide)
        (show 0 < 2 ^ 32 by decide) (show 0 < 2 ^ 64 by decide)
      obtain ⟨store, hstore⟩ := packInstruction_some (show 3 < 2 ^ 8 by decide)
        (show index < 2 ^ 32 by omega) (show 0 < 2 ^ 64 by decide)
      exact ⟨_, allocate, hallocate, store, hstore, rfl⟩
    · rintro bytes ⟨allocate, hallocate, store, hstore, rfl⟩
      rw [List.length_append, length_packInstruction hallocate, length_packInstruction hstore]
      rfl
  | expectWorld expected =>
    refine ⟨iff_of_true ?_ (by simp [TransactionOp.PythonLowers, TransactionOp.operands]),
      fun bytes hbytes => length_packInstruction hbytes⟩
    exact packInstruction_some (by decide) (by decide) (UInt64.toNat_lt _)
  | expectObject slot expected =>
    cases expected with
    | entity e =>
      refine ⟨?_, fun bytes hbytes => length_packInstruction hbytes⟩
      simp only [PythonNames.packOperation, packInstruction_ok_iff, TransactionOp.PythonLowers,
        TransactionOp.operands, List.forall_mem_singleton, AtomRef.PythonLowers]
      constructor
      · rintro ⟨bytes, ⟨-, -, hlt⟩, -⟩
        exact hlt
      · exact fun hlt => ⟨_, ⟨by decide, hslot slot, hlt⟩, rfl⟩
    | literal l =>
      refine ⟨iff_of_true ?_ (by simp [TransactionOp.PythonLowers, TransactionOp.operands,
        AtomRef.PythonLowers]), fun bytes hbytes => length_packInstruction hbytes⟩
      exact packInstruction_some (by decide) (hslot slot) (hf.literalNumber_lt l)
    | symbol s => simp [PythonNames.packOperation, TransactionOp.PythonLowers]
  | define slot subject predicate object =>
    obtain ⟨hsubject, hsubjectLength⟩ := h.loadAtom hf subject
    obtain ⟨hobject, hobjectLength⟩ := h.loadAtom hf object
    obtain ⟨predicateBytes, hpredicate⟩ := packInstruction_some (show 4 < 2 ^ 8 by decide)
      (show 0 < 2 ^ 32 by decide) (hf.predicateNumber_lt predicate)
    obtain ⟨defineBytes, hdefine⟩ := packInstruction_some (show 5 < 2 ^ 8 by decide) (hslot slot)
      (show 0 < 2 ^ 64 by decide)
    simp only [PythonNames.packOperation, except_bind_ok_iff, pure, Except.pure, Except.ok.injEq]
    constructor
    · simp only [TransactionOp.PythonLowers, TransactionOp.operands, List.forall_mem_cons,
        List.not_mem_nil, false_implies, implies_true, and_true, ← hsubject, ← hobject]
      constructor
      · rintro ⟨bytes, s, hs, -, -, o, ho, -⟩
        exact ⟨⟨s, hs⟩, o, ho⟩
      · rintro ⟨⟨s, hs⟩, o, ho⟩
        exact ⟨_, s, hs, predicateBytes, hpredicate, o, ho, defineBytes, hdefine, rfl⟩
    · rintro bytes ⟨s, hs, p, hp, o, ho, d, hd, rfl⟩
      simp only [List.length_append, hsubjectLength s hs, length_packInstruction hp,
        hobjectLength o ho, length_packInstruction hd, TransactionOp.instructionCount]
  | forget slot =>
    refine ⟨iff_of_true ?_ (by simp [TransactionOp.PythonLowers, TransactionOp.operands]),
      fun bytes hbytes => length_packInstruction hbytes⟩
    exact packInstruction_some (by decide) (hslot slot) (by decide)
  | reject =>
    refine ⟨iff_of_true ?_ (by simp [TransactionOp.PythonLowers, TransactionOp.operands]),
      fun bytes hbytes => length_packInstruction hbytes⟩
    exact packInstruction_some (by decide) (by decide) (by decide)

/-- The texts of a table are packed if their lengths fit. -/
theorem packTexts_iff (table : List String) :
    (∃ bytes, packEach packText table = .ok bytes) ↔ ∀ text ∈ table, TextFits 4 text := by
  refine (packEach_ok_iff (fun text => 4 + (utf8 text).length) fun text _ => ⟨?_, ?_⟩).1
  · simp only [packText, except_bind_ok_iff, pack_ok_iff, pure, Except.pure, Except.ok.injEq]
    constructor
    · rintro ⟨bytes, length, ⟨hlt, -⟩, -⟩
      exact hlt
    · exact fun hlt => ⟨_, _, ⟨hlt, rfl⟩, rfl⟩
  · intro bytes hbytes
    simp only [packText, except_bind_ok_iff, pack_ok_iff, pure, Except.pure,
      Except.ok.injEq] at hbytes
    obtain ⟨length, ⟨-, rfl⟩, rfl⟩ := hbytes
    simp

/-- **The header and the tables** are packed if their numbers and lengths fit. -/
theorem packTables_iff (names : PythonNames) (space : ℕ) : (∃ bytes, names.packTables space = .ok bytes) ↔
    space < 2 ^ 64 ∧ names.Fits ∧ (∀ text ∈ names.slotTable, TextFits 4 text) ∧
      (∀ text ∈ names.predicateTable, TextFits 4 text) ∧
      ∀ text ∈ names.literalTable, TextFits 4 text := by
  rw [← packTexts_iff, ← packTexts_iff, ← packTexts_iff]
  simp only [packTables, except_bind_ok_iff, pack_ok_iff, pure, Except.pure, Except.ok.injEq]
  constructor
  · rintro ⟨bytes, _, ⟨h1, -⟩, _, ⟨h2, -⟩, _, ⟨h3, -⟩, _, ⟨h4, -⟩, _, ⟨h5, -⟩, s, hs, p, hp, l, hl, -⟩
    exact ⟨h1, ⟨h2, h3, h4, h5⟩, ⟨s, hs⟩, ⟨p, hp⟩, l, hl⟩
  · rintro ⟨h1, ⟨h2, h3, h4, h5⟩, ⟨s, hs⟩, ⟨p, hp⟩, l, hl⟩
    exact ⟨_, _, ⟨h1, rfl⟩, _, ⟨h2, rfl⟩, _, ⟨h3, rfl⟩, _, ⟨h4, rfl⟩, _, ⟨h5, rfl⟩, s, hs, p, hp,
      l, hl, rfl⟩

/-- What is packed begins with the version. -/
theorem packTables_version {space : ℕ} {bytes : List UInt8}
    (h : names.packTables space = .ok bytes) : ∃ rest, bytes = le 4 1 ++ rest := by
  simp only [packTables, except_bind_ok_iff, pure, Except.pure, Except.ok.injEq] at h
  obtain ⟨_, -, _, -, _, -, _, -, _, -, _, -, _, -, _, -, rfl⟩ := h
  exact ⟨_, rfl⟩

end PythonNames

/-! ## Agreement -/

/-- **What Python lowers**. -/
theorem TransactionAst.lowerToSisaPython_ok_iff (a : TransactionAst) :
    (∃ bytes, a.lowerToSisaPython = .ok bytes) ↔ a.PythonLowers := by
  unfold TransactionAst.lowerToSisaPython
  rcases PythonNames.empty_collected.collect a.operations with
    ⟨names, hcollect, hnames⟩ | ⟨⟨e, hcollect⟩, htwice⟩
  · rw [List.nil_append] at hnames
    have hslots : names.slotTable = a.texts TransactionOp.slotNames := congrArg _ hnames.slots
    have hpredicates : names.predicateTable = a.texts TransactionOp.predicateNames :=
      congrArg _ hnames.predicates
    have hliterals : names.literalTable = a.texts TransactionOp.literalNames :=
      congrArg _ hnames.literals
    have hlocals : names.localCount = a.allocated.length := hnames.localCount
    have htables := names.packTables_iff a.space
    rw [hslots, hpredicates, hliterals] at htables
    rw [hcollect]
    simp only [except_bind_ok_iff, Except.ok.injEq, exists_eq_left', pack_ok_iff, pure, Except.pure]
    constructor
    · rintro ⟨bytes, tables, ht, instructions, hi, _, ⟨hcount, -⟩, -⟩
      obtain ⟨hspace, hfits, htexts⟩ := htables.1 ⟨tables, ht⟩
      obtain ⟨hpacked, hlength⟩ := packEach_ok_iff _ fun op hop => hnames.packOperation hfits hop
      rw [hlength instructions hi] at hcount
      refine ⟨hnames.once, hpacked.1 ⟨instructions, hi⟩, hspace, ?_, htexts, ?_⟩
      · obtain ⟨h1, h2, h3, h4⟩ := hfits
        rw [hslots] at h1
        rw [hpredicates] at h2
        rw [hliterals] at h3
        rw [hlocals] at h4
        exact ⟨h1, h2, h3, h4⟩
      · rw [List.sum_map_mul_left, Nat.mul_div_cancel_left _ (by decide)] at hcount
        exact hcount
    · intro h
      obtain ⟨h1, h2, h3, h4⟩ := h.counts
      have hfits : names.Fits :=
        ⟨by rw [hslots]; exact h1, by rw [hpredicates]; exact h2, by rw [hliterals]; exact h3,
          by rw [hlocals]; exact h4⟩
      obtain ⟨hpacked, hlength⟩ := packEach_ok_iff _ fun op hop => hnames.packOperation hfits hop
      obtain ⟨tables, ht⟩ := htables.2 ⟨h.space, hfits, h.lengths⟩
      obtain ⟨instructions, hi⟩ := hpacked.2 h.operations
      refine ⟨_, tables, ht, instructions, hi, _, ⟨?_, rfl⟩, rfl⟩
      rw [hlength instructions hi, List.sum_map_mul_left, Nat.mul_div_cancel_left _ (by decide)]
      exact h.instructions
  · rw [hcollect]
    refine iff_of_false ?_ fun h => htwice ?_
    · rintro ⟨bytes, hbytes⟩
      cases hbytes
    · rw [List.nil_append]
      exact h.once

/-- **The decoder of the other language** refuses what Python lowers a transaction to: it does
not begin with the magic. -/
theorem readFrame_lowerToSisaPython {a : TransactionAst} {bytes : List UInt8}
    (h : a.lowerToSisaPython = .ok bytes) (pos : ℕ) :
    ∃ e, Isa.readFrame ⟨bytes, pos⟩ = .error e := by
  unfold TransactionAst.lowerToSisaPython at h
  simp only [except_bind_ok_iff, pure, Except.pure, Except.ok.injEq] at h
  obtain ⟨names, -, tables, htables, instructions, -, count, -, rfl⟩ := h
  obtain ⟨rest, rfl⟩ := PythonNames.packTables_version htables
  have hmagic : ∃ e, Isa.readMagic ⟨le 4 1 ++ rest ++ (count ++ instructions), pos⟩ = .error e := by
    have hread := reads_take (fun _ _ => "failed to read stream magic: failed to fill whole buffer")
      (le 4 1) (rest ++ (count ++ instructions)) pos
    rw [length_le] at hread
    unfold Isa.readMagic
    rw [bind_apply, List.append_assoc, hread]
    simp only
    rw [if_neg (by decide +kernel)]
    exact ⟨_, rfl⟩
  obtain ⟨e, hmagic⟩ := hmagic
  refine ⟨e, ?_⟩
  unfold Isa.readFrame
  rw [bind_apply, hmagic]

/-- The two lowerings agree on a transaction: what Python returns is accepted by the decoder, and
decodes to the frame of the other lowering. -/
def TransactionAst.LoweringsAgree (a : TransactionAst) : Prop :=
  ∀ bytes, a.lowerToSisaPython = .ok bytes →
    ∃ frame c, Isa.readFrame ⟨bytes, 0⟩ = .ok (frame, c) ∧ a.lowerToSisa = .ok frame

/-- **The two lowerings agree** exactly on the transactions that Python does not lower. -/
theorem lowerings_agree_iff (a : TransactionAst) : a.LoweringsAgree ↔ ¬ a.PythonLowers := by
  rw [← a.lowerToSisaPython_ok_iff]
  constructor
  · rintro hagree ⟨bytes, hbytes⟩
    obtain ⟨frame, c, hread, -⟩ := hagree bytes hbytes
    obtain ⟨e, herror⟩ := readFrame_lowerToSisaPython hbytes 0
    rw [hread] at herror
    cases herror
  · intro hnone bytes hbytes
    exact absurd ⟨bytes, hbytes⟩ hnone

/-- The empty transaction is lowered apart. -/
theorem lowerings_differ_empty : ¬ (⟨42, []⟩ : TransactionAst).LoweringsAgree := by
  intro hagree
  have hok : (⟨42, []⟩ : TransactionAst).lowerToSisaPython.isOk = true := by decide +kernel
  cases hbytes : (⟨42, []⟩ : TransactionAst).lowerToSisaPython with
  | error e => rw [hbytes] at hok; cases hok
  | ok bytes =>
    obtain ⟨frame, c, hread, -⟩ := hagree bytes hbytes
    obtain ⟨e, herror⟩ := readFrame_lowerToSisaPython hbytes 0
    rw [hread] at herror
    cases herror

end ForthDB
