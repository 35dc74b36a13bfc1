import ForthDB.Vm.Trial
import ForthDB.World.Operation

/-!
# Programs of operations

* `Lowers token decode ops instructions`: the instructions are the operations, their
  slots and facts written as tokens and cells.
* `Fits w slots ops`: the arenas of `w` have room for the operations.
* `run_lowered`: a lowered program runs to its end exactly when it fits, and then
  does to the stacks what the operations mean; otherwise the process panics.
* `execute_lowered`: the same for a whole trial on a workspace at rest.
-/

namespace ForthDB

/-- The instructions of operations, under a numbering of slots and a reading of cells. -/
inductive Lowers (token : SlotId → Option ℕ) (decode : ℕ → ℕ → ℕ → Option Fact) :
    List Operation → List Instruction → Prop
  | nil : Lowers token decode [] []
  | allocate {ops : List Operation} {is : List Instruction} (e : EntityId) :
      Lowers token decode ops is →
      Lowers token decode (.allocateEntity e :: ops) (.allocateDiscard :: is)
  | define {ops : List Operation} {is : List Instruction} {slot : SlotId} {fact : Fact}
      {t s p o : ℕ} : token slot = some t → decode s p o = some fact →
      Lowers token decode ops is →
      Lowers token decode (.define slot fact :: ops)
        (.push s :: .push p :: .push o :: .define t :: is)
  | forget {ops : List Operation} {is : List Instruction} {slot : SlotId} {t : ℕ} :
      token slot = some t → Lowers token decode ops is →
      Lowers token decode (.forget slot :: ops) (.forget t :: is)

theorem Lowers.mono {token token' : SlotId → Option ℕ} {decode decode' : ℕ → ℕ → ℕ → Option Fact}
    {ops : List Operation} {is : List Instruction} (h : Lowers token decode ops is)
    (ht : ∀ k t, token k = some t → token' k = some t)
    (hd : ∀ s p o f, decode s p o = some f → decode' s p o = some f) :
    Lowers token' decode' ops is := by
  induction h with
  | nil => exact .nil
  | allocate e _ ih => exact .allocate e ih
  | define hs hf _ ih => exact .define (ht _ _ hs) (hd _ _ _ _ hf) ih
  | forget hs _ ih => exact .forget (ht _ _ hs) ih

/-- The index deltas that operations cost. -/
def indexCost (m : SlotStacks) : List Operation → ℕ
  | [] => 0
  | .allocateEntity _ :: ops => indexCost m ops
  | .define slot fact :: ops => pushCost m slot + indexCost (m.push slot fact) ops
  | .forget slot :: ops => popCost m slot + indexCost (m.pop slot) ops

theorem indexCost_append (m : SlotStacks) (xs ys : List Operation) :
    indexCost m (xs ++ ys) = indexCost m xs + indexCost (xs.foldl SlotStacks.perform m) ys := by
  induction xs generalizing m with
  | nil => simp [indexCost]
  | cons x xs ih =>
    cases x <;> simp [indexCost, ih, SlotStacks.perform, Nat.add_assoc]

/-- The number of log records that operations append. -/
abbrev recordsOf (ops : List Operation) : ℕ := (ops.map Operation.records).sum

/-- The arenas have room for the records and the index deltas of the operations. -/
def Workspace.Fits (w : Workspace) (m : SlotStacks) (ops : List Operation) : Prop :=
  w.records.length + recordsOf ops ≤ noReference ∧
    w.indexDeltas.length + indexCost m ops ≤ noReference

instance (w : Workspace) (m : SlotStacks) (ops : List Operation) : Decidable (w.Fits m ops) :=
  inferInstanceAs (Decidable (_ ∧ _))

/-- A workspace in the middle of a trial stands for an abstract state. -/
structure Running (token : SlotId → Option ℕ) (decode : ℕ → ℕ → ℕ → Option Fact) (frontier : ℕ)
    (w : Workspace) (a : WorldState) : Prop where
  trial : Trial token decode frontier w a.slots
  next : w.nextEntity = a.next
  records : w.deltaCount = a.records
  stack : w.stackPointer = w.frameBase
  stack_le : w.frameBase + 3 ≤ w.stack.length

namespace Workspace

/-- The workspace with three cells written from the stack pointer on. -/
def withCells (w : Workspace) (s p o : ℕ) : Workspace :=
  { w with
    stack := ((w.stack.set w.stackPointer s).set (w.stackPointer + 1) p).set
      (w.stackPointer + 2) o }

/-- Three pushes and a define: the stack pointer comes back, the cells stay. -/
theorem run_define (w : Workspace) (hs : w.stackPointer = w.frameBase)
    (hl : w.frameBase + 3 ≤ w.stack.length) (frontier s p o t : ℕ) (rest : List Instruction) :
    w.run frontier (.push s :: .push p :: .push o :: .define t :: rest) =
      match (w.withCells s p o).define t s p o frontier with
      | .ok w' => w'.run frontier rest
      | .error (.rejected error) =>
        .ok (.rejected error, { w.withCells s p o with stackPointer := w.stackPointer + 3 })
      | .error (.panicked message) => .error message := by
  have h0 : w.stackPointer ≠ w.stack.length := by omega
  have h1 : w.stackPointer + 1 ≠ w.stack.length := by omega
  have h2 : w.stackPointer + 2 ≠ w.stack.length := by omega
  have hlt0 : w.stackPointer < w.stack.length := by omega
  have hlt1 : w.stackPointer + 1 < w.stack.length := by omega
  have hlt2 : w.stackPointer + 2 < w.stack.length := by omega
  simp only [run, executeInstruction, Instruction.push, Instruction.define, push, h0, h1, h2,
    if_false, List.length_set]
  simp only [pop, bind, Except.bind, ← hs]
  simp only [show ¬ w.stackPointer + 3 ≤ w.stackPointer by omega,
    show ¬ w.stackPointer + 2 ≤ w.stackPointer by omega,
    show ¬ w.stackPointer + 1 ≤ w.stackPointer by omega, if_false, Nat.add_sub_cancel,
    show w.stackPointer + 3 - 1 = w.stackPointer + 2 by omega,
    show w.stackPointer + 2 - 1 = w.stackPointer + 1 by omega]
  have e2 : (((w.stack.set w.stackPointer s).set (w.stackPointer + 1) p).set
      (w.stackPointer + 2) o).getD (w.stackPointer + 2) 0 = o := by
    simp [List.getD_eq_getElem?_getD, hlt2]
  have e1 : (((w.stack.set w.stackPointer s).set (w.stackPointer + 1) p).set
      (w.stackPointer + 2) o).getD (w.stackPointer + 1) 0 = p := by
    simp [List.getD_eq_getElem?_getD, hlt1]
  have e0 : (((w.stack.set w.stackPointer s).set (w.stackPointer + 1) p).set
      (w.stackPointer + 2) o).getD w.stackPointer 0 = s := by
    simp [List.getD_eq_getElem?_getD, hlt0]
  rw [e2, e1, e0]
  simp only [withCells, ← hs] <;> rfl

/-- A program without locals reserves nothing. -/
theorem executeInstructions_zero (w : Workspace) (h : w.stackPointer ≤ w.stack.length)
    (is : List Instruction) :
    w.executeInstructions 0 is =
      (run { w with frameBase := w.stackPointer } w.deltas.length is).map fun
        | (.accepted, w') => (.accepted, w'.accept w.checkpoint)
        | (.rejected error, w') => (.rejected error, w'.rollback w.checkpoint) := by
  have hlt : ¬ w.stackPointer > w.stack.length := not_lt.2 h
  unfold executeInstructions reserve
  simp only [Nat.add_zero, if_neg hlt]
  rfl

theorem run_forget (w : Workspace) (frontier t : ℕ) (rest : List Instruction) :
    w.run frontier (.forget t :: rest) =
      match w.forget t frontier with
      | .ok w' => w'.run frontier rest
      | .error (.rejected error) => .ok (.rejected error, w)
      | .error (.panicked message) => .error message := rfl

/-- Whether an instruction appends a log record. -/
def appendsRecord (i : Instruction) : Bool :=
  match i.opcode with
  | .define | .forget => true
  | _ => false

theorem appendReferenceIndexes_records {w w' : Workspace} {ref : Option ℕ} {added : Bool}
    (h : w.appendReferenceIndexes ref added = .ok w') : w'.records = w.records := by
  unfold appendReferenceIndexes at h
  cases ref with
  | none => cases h; rfl
  | some index =>
    simp only [bind, Except.bind] at h
    split at h
    · cases h
    rw [appendFactIndexes_eq] at h
    split at h
    · cases h; rfl
    · cases h

theorem appendRecord_records {w w' : Workspace} {r : FactRecord} (h : w.appendRecord r = .ok w') :
    w'.records = w.records ++ [r] ∧ w.records.length < noReference := by
  unfold appendRecord at h
  by_cases hlt : w.records.length < noReference
  swap
  · rw [arenaPush_of_ge hlt] at h; cases h
  rw [arenaPush_of_lt hlt] at h
  simp only [bind, Except.bind] at h
  split at h
  · cases h
  unfold appendIndexTransition at h
  split at h
  · simp only [bind, Except.bind] at h
    split at h
    · cases h
    · rename_i w₁ hw₁
      rw [appendReferenceIndexes_records h, appendReferenceIndexes_records hw₁]
      exact ⟨rfl, hlt⟩
  · cases h; exact ⟨rfl, hlt⟩

theorem push_records {w w' : Workspace} {v : ℕ} (h : w.push v = .ok w') :
    w'.records = w.records := by
  unfold push at h
  split at h
  · cases h
  · cases h; rfl

theorem pop_records {w : Workspace} {p : ℕ × Workspace} (h : w.pop = .ok p) :
    p.2.records = w.records := by
  unfold pop at h
  split at h
  · cases h
  · cases h; rfl

/-- **One instruction** appends the records it is charged for, within the arena. -/
theorem executeInstruction_records {w w' : Workspace} {i : Instruction} {frontier : ℕ}
    (h : w.executeInstruction i frontier = .ok w') :
    w'.records.length = w.records.length + (if appendsRecord i then 1 else 0) ∧
      (w.records.length ≤ noReference → w'.records.length ≤ noReference) := by
  have hsame : w'.records = w.records → appendsRecord i = false →
      w'.records.length = w.records.length + (if appendsRecord i then 1 else 0) ∧
        (w.records.length ≤ noReference → w'.records.length ≤ noReference) := by
    intro he hn
    rw [he, hn]
    exact ⟨rfl, id⟩
  obtain ⟨opcode, argument, immediate⟩ := i
  cases opcode with
  | expectObject =>
    refine hsame ?_ rfl
    simp only [executeInstruction] at h
    split at h
    · split at h <;> cases h
      rfl
    · simp only [bind, Except.bind] at h
      split at h
      · cases h
      split at h
      · split at h <;> cases h
        rfl
      · cases h
  | allocate =>
    simp only [executeInstruction] at h
    have hrec := push_records h
    exact hsame hrec rfl
  | allocateDiscard => cases h; exact hsame rfl rfl
  | loadLocal =>
    refine hsame ?_ rfl
    simp only [executeInstruction, bind, Except.bind] at h
    split at h
    · cases h
    · exact push_records h
  | storeLocal =>
    refine hsame ?_ rfl
    simp only [executeInstruction, bind, Except.bind] at h
    split at h
    · cases h
    rename_i p hp
    unfold storeLocal at h
    split at h
    · cases h
    · cases h; exact pop_records hp
  | pushCell => exact hsame (push_records h) rfl
  | define =>
    simp only [executeInstruction, bind, Except.bind] at h
    split at h
    · cases h
    rename_i p₁ hp₁
    split at h
    · cases h
    rename_i p₂ hp₂
    split at h
    · cases h
    rename_i p₃ hp₃
    unfold define at h
    simp only [bind, Except.bind] at h
    split at h
    · cases h
    have hrec := appendRecord_records h
    rw [pop_records hp₃, pop_records hp₂, pop_records hp₁] at hrec
    have hlt := hrec.2
    rw [hrec.1, List.length_append, List.length_singleton]
    exact ⟨rfl, fun _ => hlt⟩
  | forget =>
    simp only [executeInstruction] at h
    unfold forget at h
    have hrec : w'.records.length = w.records.length + 1 ∧ w.records.length < noReference := by
      cases hp : w.resolveTrialHead argument frontier with
      | error e => simp [hp, bind, Except.bind] at h
      | ok previous =>
        simp only [hp, bind, Except.bind] at h
        have hlast : ∀ {r : FactRecord}, w.appendRecord r = .ok w' →
            w'.records.length = w.records.length + 1 ∧ w.records.length < noReference := by
          intro r hr
          have hrec := appendRecord_records hr
          rw [hrec.1]
          exact ⟨by simp, hrec.2⟩
        cases previous with
        | none => exact hlast h
        | some index =>
          cases hr : w.record index with
          | error e => simp [hr, Except.map] at h
          | ok r => simp only [hr, Except.map] at h; exact hlast h
    have hlt := hrec.2
    exact ⟨hrec.1, fun _ => by omega⟩
  | reject => cases h

/-- **An accepted run** appends the records it is charged for, within the arena. -/
theorem run_records {w w' : Workspace} {is : List Instruction} {frontier : ℕ}
    (h : w.run frontier is = .ok (.accepted, w')) :
    w'.records.length = w.records.length + is.countP appendsRecord ∧
      (w.records.length ≤ noReference → w'.records.length ≤ noReference) := by
  induction is generalizing w with
  | nil => cases h; exact ⟨rfl, id⟩
  | cons i is ih =>
    unfold run at h
    split at h
    · rename_i w₁ hw₁
      have h₁ := executeInstruction_records hw₁
      have h₂ := ih h
      rw [List.countP_cons]
      exact ⟨by omega, fun hle => h₂.2 (h₁.2 hle)⟩
    · cases h
    · cases h

end Workspace

namespace Running

variable {token : SlotId → Option ℕ} {decode : ℕ → ℕ → ℕ → Option Fact} {frontier : ℕ}
  {w : Workspace} {a b : WorldState}

/-- Stale cells do not matter. -/
theorem withCells (h : Running token decode frontier w a) (s p o : ℕ) :
    Running token decode frontier (w.withCells s p o) a :=
  ⟨⟨h.trial.linked, h.trial.token_lt, h.trial.token_inj, h.trial.named, h.trial.frontier_le,
    h.trial.track, h.trial.deltas_le, h.trial.records_le, h.trial.indexes_le⟩,
    h.next, h.records, h.stack, by
      have := h.stack_le
      simpa [Workspace.withCells] using this⟩

theorem withRecord (h : Running token decode frontier w a) {r : FactRecord} {m : SlotStacks}
    {cost : ℕ} (hg : w.Grown (w.withRecord r) 1 cost)
    (ht : Trial token decode frontier (w.withRecord r) m) :
    Running token decode frontier (w.withRecord r)
      { a with slots := m, records := a.records + 1 } :=
  ⟨ht, h.next, by rw [hg.deltas, h.records], h.stack, h.stack_le⟩

end Running

/-- Room for a list, seen before and after its first part. -/
theorem fits_append {w w' : Workspace} {a b : WorldState} {xs ys : List Operation}
    (hb : a.applyAll xs = some b) (hr : w'.records.length = w.records.length + recordsOf xs)
    (hi : w'.indexDeltas.length = w.indexDeltas.length + indexCost a.slots xs) :
    w.Fits a.slots (xs ++ ys) ↔ w'.Fits b.slots ys := by
  unfold Workspace.Fits
  rw [hr, hi, indexCost_append, ← WorldState.applyAll_slots hb]
  simp only [recordsOf, List.map_append, List.sum_append]
  omega

theorem Workspace.Fits.left {w : Workspace} {m : SlotStacks} {xs ys : List Operation}
    (h : w.Fits m (xs ++ ys)) : w.Fits m xs := by
  have h1 := h.1
  have h2 := h.2
  rw [indexCost_append] at h2
  simp only [recordsOf, List.map_append, List.sum_append] at h1
  exact ⟨by unfold recordsOf; omega, by omega⟩

theorem roomFor_of_fits_define {w : Workspace} {m : SlotStacks} {slot : SlotId} {fact : Fact}
    {ops : List Operation} (h : w.Fits m (.define slot fact :: ops)) :
    w.RoomFor (pushCost m slot) := by
  have h1 := h.1
  have h2 := h.2
  simp only [recordsOf, List.map_cons, List.sum_cons, Operation.records, indexCost] at h1 h2
  exact ⟨by omega, by omega⟩

theorem roomFor_of_fits_forget {w : Workspace} {m : SlotStacks} {slot : SlotId}
    {ops : List Operation} (h : w.Fits m (.forget slot :: ops)) : w.RoomFor (popCost m slot) := by
  have h1 := h.1
  have h2 := h.2
  simp only [recordsOf, List.map_cons, List.sum_cons, Operation.records, indexCost] at h1 h2
  exact ⟨by omega, by omega⟩

/-- Room for a tail, seen before and after the operation at the head. -/
theorem fits_iff_of_grown {w w' : Workspace} (m m' : SlotStacks) (op : Operation)
    (ops : List Operation) {cost : ℕ} (hg : w.Grown w' op.records cost)
    (hc : indexCost m (op :: ops) = cost + indexCost m' ops) :
    w.Fits m (op :: ops) ↔ w'.Fits m' ops := by
  unfold Workspace.Fits
  rw [hg.records, hg.indexDeltas, hc]
  simp only [recordsOf, List.map_cons, List.sum_cons]
  omega

variable {token : SlotId → Option ℕ} {decode : ℕ → ℕ → ℕ → Option Fact} {frontier : ℕ}

/-- **A lowered program** runs to its end exactly when it fits. -/
theorem run_lowered {ops : List Operation} {is : List Instruction} (hl : Lowers token decode ops is)
    {w : Workspace} {a b : WorldState} (h : Running token decode frontier w a)
    (hb : a.applyAll ops = some b) :
    (w.Fits a.slots ops ∧ ∃ w', w.run frontier is = .ok (.accepted, w') ∧
      Running token decode frontier w' b ∧
      w.Grown w' (recordsOf ops) (indexCost a.slots ops)) ∨
    (¬ w.Fits a.slots ops ∧ ∃ message, w.run frontier is = .error message) := by
  induction hl generalizing w a with
  | nil =>
    cases hb
    refine .inl ⟨⟨?_, ?_⟩, w, rfl, h, ⟨rfl, rfl, rfl, rfl, rfl, rfl, rfl⟩⟩
    · exact h.trial.records_le
    · exact h.trial.indexes_le
  | @allocate ops is e hl ih =>
    simp only [WorldState.applyAll, WorldState.apply, Option.bind_eq_some_iff] at hb
    obtain ⟨c, hc, hb⟩ := hb
    split at hc
    swap
    · cases hc
    cases hc
    have h' : Running token decode frontier { w with nextEntity := w.nextEntity + 1 }
        { a with next := a.next + 1 } :=
      ⟨⟨h.trial.linked, h.trial.token_lt, h.trial.token_inj, h.trial.named, h.trial.frontier_le,
        h.trial.track, h.trial.deltas_le, h.trial.records_le, h.trial.indexes_le⟩,
        by simp [h.next], h.records, h.stack, h.stack_le⟩
    have hg : w.Grown { w with nextEntity := w.nextEntity + 1 } 0 0 :=
      ⟨rfl, rfl, rfl, rfl, rfl, rfl, rfl⟩
    have hfits := fits_iff_of_grown a.slots a.slots (.allocateEntity e) ops hg (by simp [indexCost])
    have hrec : recordsOf (.allocateEntity e :: ops) = 0 + recordsOf ops := rfl
    have hcost : indexCost a.slots (.allocateEntity e :: ops) = 0 + indexCost a.slots ops := by
      simp [indexCost]
    rw [hfits, hrec, hcost]
    rcases ih h' hb with ⟨hf, w', hr, hrun, hg'⟩ | ⟨hf, message, hr⟩
    · exact .inl ⟨hf, w', hr, hrun, hg.trans hg'⟩
    · exact .inr ⟨hf, message, hr⟩
  | @define ops is slot fact t s p o ht hd hl ih =>
    simp only [WorldState.applyAll, WorldState.apply, Option.bind_some] at hb
    rw [Workspace.run_define w h.stack h.stack_le]
    have h₁ := h.withCells s p o
    have hg₁ : w.Grown (w.withCells s p o) 0 0 := by
      refine ⟨rfl, rfl, rfl, rfl, rfl, rfl, ?_⟩
      simp [Workspace.withCells]
    rcases h₁.trial.define_trial ht hd with ⟨hroom, hw, hg, htrial⟩ | ⟨hroom, hw⟩
    · rw [hw]
      have hg₂ := hg₁.trans hg
      simp only [Nat.zero_add] at hg₂
      have hfits := fits_iff_of_grown a.slots (a.slots.push slot fact) (.define slot fact) ops hg₂ rfl
      rw [hfits]
      have hrec : recordsOf (.define slot fact :: ops) = 1 + recordsOf ops := rfl
      have hcost : indexCost a.slots (.define slot fact :: ops) =
        pushCost a.slots slot + indexCost (a.slots.push slot fact) ops := rfl
      rw [hrec, hcost]
      rcases ih (h₁.withRecord hg htrial) hb with ⟨hf, w', hr, hrun, hg'⟩ | ⟨hf, message, hr⟩
      · exact .inl ⟨hf, w', hr, hrun, hg₂.trans hg'⟩
      · exact .inr ⟨hf, message, hr⟩
    · rw [hw]
      exact .inr ⟨fun hf => hroom (roomFor_of_fits_define hf), _, rfl⟩
  | @forget ops is slot t ht hl ih =>
    simp only [WorldState.applyAll, WorldState.apply, Option.bind_some] at hb
    rw [Workspace.run_forget]
    rcases h.trial.forget_trial ht with ⟨hroom, hw, hg, htrial⟩ | ⟨hroom, hw⟩
    · rw [hw]
      have hfits := fits_iff_of_grown a.slots (a.slots.pop slot) (.forget slot) ops hg rfl
      rw [hfits]
      have hrec : recordsOf (.forget slot :: ops) = 1 + recordsOf ops := rfl
      have hcost : indexCost a.slots (.forget slot :: ops) =
        popCost a.slots slot + indexCost (a.slots.pop slot) ops := rfl
      rw [hrec, hcost]
      rcases ih (h.withRecord hg htrial) hb with ⟨hf, w', hr, hrun, hg'⟩ | ⟨hf, message, hr⟩
      · exact .inl ⟨hf, w', hr, hrun, hg.trans hg'⟩
      · exact .inr ⟨hf, message, hr⟩
    · rw [hw]
      exact .inr ⟨fun hf => hroom (roomFor_of_fits_forget hf), _, rfl⟩

/-- A workspace between trials that stands for an abstract state. -/
structure AtRest (token : SlotId → Option ℕ) (decode : ℕ → ℕ → ℕ → Option Fact) (w : Workspace)
    (a : WorldState) : Prop where
  trial : Trial token decode w.deltas.length w a.slots
  next : w.nextEntity = a.next
  records : w.deltaCount = a.records
  stack : w.stackPointer = 0
  frameBase : w.frameBase = 0
  stack_le : 3 ≤ w.stack.length

/-- **A trial of a lowered program** on a workspace at rest. -/
theorem execute_lowered {ops : List Operation} {is : List Instruction}
    (hl : Lowers token decode ops is) {w : Workspace} {a b : WorldState}
    (h : AtRest token decode w a) (hb : a.applyAll ops = some b) :
    (w.Fits a.slots ops ∧ ∃ w', w.executeInstructions 0 is = .ok (.accepted, w') ∧
      AtRest token decode w' b ∧
      w'.records.length = w.records.length + recordsOf ops ∧
      w'.indexDeltas.length = w.indexDeltas.length + indexCost a.slots ops ∧
      w'.acceptedHeads.length = w.acceptedHeads.length) ∨
    (¬ w.Fits a.slots ops ∧ ∃ message, w.executeInstructions 0 is = .error message) := by
  have hrun : Running token decode w.deltas.length { w with frameBase := w.stackPointer } a :=
    ⟨h.trial.restart _, h.next, h.records, rfl, by
      have := h.stack_le
      simpa [h.stack] using this⟩
  rw [Workspace.executeInstructions_zero w (by rw [h.stack]; exact Nat.zero_le _)]
  rcases run_lowered hl hrun hb with ⟨hf, w', hr, hrun', hg⟩ | ⟨hf, message, hr⟩
  · refine .inl ⟨hf, w'.accept w.checkpoint, by rw [hr]; rfl, ?_, hg.records, hg.indexDeltas, ?_⟩
    · have ht : Trial token decode w.checkpoint.deltaFrontier w' b.slots := hrun'.trial
      refine ⟨ht.accept_trial, hrun'.next, hrun'.records, h.stack, h.frameBase, ?_⟩
      have := h.stack_le
      rw [show (w'.accept w.checkpoint).stack = w'.stack from rfl, hg.stack]
      exact this
    · rw [Workspace.accept_heads_length, hg.heads]
  · exact .inr ⟨hf, message, by rw [hr]; rfl⟩

end ForthDB
