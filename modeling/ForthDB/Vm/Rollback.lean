import ForthDB.Vm.Program

/-!
# What any program leaves of a workspace

No assumption is made on the program here.

* `Workspace.Appended w w'`: `w'` is `w` with more in its arenas and other cells on its
  stack.
* `executeInstruction_appended`, `run_appended`: every instruction and every run only
  appends, and counts its allocations.
* `executeInstructions_rejected`: **a rejected program is rolled back** to the same arenas,
  heads and allocator, whatever its locals.
* `run_live`: an accepted program names only slots that have a head;
  `run_unexpected`: its expectations can be left out.
-/

namespace ForthDB

namespace Workspace

/-- `w'` is `w` with more in its arenas. -/
structure Appended (w w' : Workspace) : Prop where
  records : w.records <+: w'.records
  deltas : w.deltas <+: w'.deltas
  indexDeltas : w.indexDeltas <+: w'.indexDeltas
  heads : w'.acceptedHeads = w.acceptedHeads
  track : w'.trackIndexes = w.trackIndexes
  offset : w'.historicalDeltaOffset = w.historicalDeltaOffset
  stack : w'.stack.length = w.stack.length
  frameBase : w'.frameBase = w.frameBase
  hash : w'.semanticHash = w.semanticHash

variable {w w' w'' : Workspace}

theorem Appended.refl (w : Workspace) : Appended w w :=
  ⟨List.prefix_rfl, List.prefix_rfl, List.prefix_rfl, rfl, rfl, rfl, rfl, rfl, rfl⟩

theorem Appended.trans (h : Appended w w') (h' : Appended w' w'') : Appended w w'' :=
  ⟨h.records.trans h'.records, h.deltas.trans h'.deltas, h.indexDeltas.trans h'.indexDeltas,
    h'.heads.trans h.heads, h'.track.trans h.track, h'.offset.trans h.offset,
    h'.stack.trans h.stack, h'.frameBase.trans h.frameBase, h'.hash.trans h.hash⟩

theorem arenaPush_ok {α : Type} {arena arena' : List α} {value : α}
    (h : arenaPush arena value = .ok arena') : arena' = arena ++ [value] := by
  unfold arenaPush at h
  split at h
  · exact (Except.ok.inj h).symm
  · cases h

/-- What a cell operation leaves alone. -/
theorem push_appended {value : ℕ} (h : w.push value = .ok w') :
    Appended w w' ∧ w'.nextEntity = w.nextEntity := by
  unfold push at h
  split at h
  · cases h
  obtain rfl := Except.ok.inj h
  exact ⟨⟨List.prefix_rfl, List.prefix_rfl, List.prefix_rfl, rfl, rfl, rfl, List.length_set, rfl,
    rfl⟩, rfl⟩

theorem pop_appended {p : ℕ × Workspace} (h : w.pop = .ok p) :
    Appended w p.2 ∧ p.2.nextEntity = w.nextEntity := by
  unfold pop at h
  split at h
  · cases h
  obtain rfl := Except.ok.inj h
  exact ⟨⟨List.prefix_rfl, List.prefix_rfl, List.prefix_rfl, rfl, rfl, rfl, rfl, rfl, rfl⟩, rfl⟩

theorem appendFactIndexes_appended {fact : FactRecord} {index : ℕ} {added : Bool}
    (h : w.appendFactIndexes fact index added = .ok w') :
    Appended w w' ∧ w'.nextEntity = w.nextEntity := by
  rw [appendFactIndexes_eq] at h
  split at h
  · obtain rfl := Except.ok.inj h
    exact ⟨⟨List.prefix_rfl, List.prefix_rfl, List.prefix_append _ _, rfl, rfl, rfl, rfl, rfl,
      rfl⟩, rfl⟩
  · cases h

theorem appendReferenceIndexes_appended {reference : Option ℕ} {added : Bool}
    (h : w.appendReferenceIndexes reference added = .ok w') :
    Appended w w' ∧ w'.nextEntity = w.nextEntity := by
  unfold appendReferenceIndexes at h
  cases reference with
  | none =>
    obtain rfl := Except.ok.inj h
    exact ⟨.refl _, rfl⟩
  | some index =>
    simp only [bind, Except.bind] at h
    split at h
    · cases h
    · exact appendFactIndexes_appended h

theorem appendRecord_appended {r : FactRecord} (h : w.appendRecord r = .ok w') :
    Appended w w' ∧ w'.nextEntity = w.nextEntity := by
  unfold appendRecord at h
  simp only [bind, Except.bind] at h
  split at h
  · cases h
  rename_i records hrecords
  split at h
  · cases h
  rename_i deltas hdeltas
  rw [arenaPush_ok hrecords, arenaPush_ok hdeltas] at h
  have h₁ : Appended w { w with
      records := w.records ++ [r]
      deltas := w.deltas ++ [⟨r.slot, r.previousVisible, r.resultingVisible⟩] } :=
    ⟨List.prefix_append _ _, List.prefix_append _ _, List.prefix_rfl, rfl, rfl, rfl, rfl, rfl, rfl⟩
  unfold appendIndexTransition at h
  split at h
  · simp only [bind, Except.bind] at h
    split at h
    · cases h
    rename_i w₂ hw₂
    obtain ⟨h₂, n₂⟩ := appendReferenceIndexes_appended hw₂
    obtain ⟨h₃, n₃⟩ := appendReferenceIndexes_appended h
    exact ⟨h₁.trans (h₂.trans h₃), n₃.trans n₂⟩
  · obtain rfl := Except.ok.inj h
    exact ⟨h₁, rfl⟩

/-- A change of a workspace that has nothing to do with its arenas. -/
structure ArenaBlind (f : Workspace → Workspace) : Prop where
  records : ∀ w, (f w).records = w.records
  deltas : ∀ w, (f w).deltas = w.deltas
  indexDeltas : ∀ w, (f w).indexDeltas = w.indexDeltas
  track : ∀ w, (f w).trackIndexes = w.trackIndexes
  update : ∀ (w : Workspace) records deltas indexDeltas,
    f { w with records := records, deltas := deltas, indexDeltas := indexDeltas } =
      { f w with records := records, deltas := deltas, indexDeltas := indexDeltas }

namespace ArenaBlind

variable {f : Workspace → Workspace} {t frontier : ℕ}

theorem record (hf : ArenaBlind f) (w : Workspace) (index : ℕ) :
    (f w).record index = w.record index := by
  unfold Workspace.record
  rw [hf.records]

theorem update_indexDeltas (hf : ArenaBlind f) (w : Workspace) (ds : List IndexDelta) :
    f { w with indexDeltas := ds } = { f w with indexDeltas := ds } :=
  (hf.update w w.records w.deltas ds).trans (by rw [← hf.records w, ← hf.deltas w])

theorem update_records (hf : ArenaBlind f) (w : Workspace) (rs : List FactRecord)
    (ds : List SlotDelta) :
    f { w with records := rs, deltas := ds } = { f w with records := rs, deltas := ds } :=
  (hf.update w rs ds w.indexDeltas).trans (by rw [← hf.indexDeltas w])

theorem appendReferenceIndexes (hf : ArenaBlind f) (w : Workspace) (reference : Option ℕ)
    (added : Bool) : (f w).appendReferenceIndexes reference added =
      (w.appendReferenceIndexes reference added).map f := by
  cases reference with
  | none => rfl
  | some index =>
    unfold Workspace.appendReferenceIndexes
    simp only [hf.record, bind, Except.bind]
    cases w.record index with
    | error stop => rfl
    | ok fact =>
      simp only [appendFactIndexes_eq, hf.indexDeltas]
      split
      · have hup := hf.update_indexDeltas w (w.indexDeltas ++ factIndexes fact index added)
        exact congrArg Except.ok hup.symm
      · rfl

/-- **Appending a record** commutes with it. -/
theorem appendRecord (hf : ArenaBlind f) (w : Workspace) (r : FactRecord) :
    (f w).appendRecord r = (w.appendRecord r).map f := by
  unfold Workspace.appendRecord
  simp only [hf.records, hf.deltas, bind, Except.bind]
  cases arenaPush w.records r with
  | error stop => rfl
  | ok records =>
    simp only
    cases arenaPush w.deltas ⟨r.slot, r.previousVisible, r.resultingVisible⟩ with
    | error stop => rfl
    | ok deltas =>
      simp only [← hf.update_records]
      unfold Workspace.appendIndexTransition
      rw [hf.track]
      split
      · simp only [hf.appendReferenceIndexes, bind, Except.bind]
        cases Workspace.appendReferenceIndexes { w with records := records, deltas := deltas }
            r.previousVisible false with
        | error stop => rfl
        | ok w₁ => exact hf.appendReferenceIndexes w₁ r.resultingVisible true
      · rfl

theorem define (hf : ArenaBlind f) {w : Workspace}
    (hhead : (f w).resolveTrialHead t frontier = w.resolveTrialHead t frontier) {s p o : ℕ} :
    (f w).define t s p o frontier = (w.define t s p o frontier).map f := by
  unfold Workspace.define
  simp only [hhead, hf.records, bind, Except.bind]
  cases w.resolveTrialHead t frontier with
  | error stop => rfl
  | ok previous => exact hf.appendRecord w _

theorem forget (hf : ArenaBlind f) {w : Workspace}
    (hhead : (f w).resolveTrialHead t frontier = w.resolveTrialHead t frontier) :
    (f w).forget t frontier = (w.forget t frontier).map f := by
  unfold Workspace.forget
  simp only [hhead, hf.record, bind, Except.bind]
  cases w.resolveTrialHead t frontier with
  | error stop => rfl
  | ok previous =>
    cases previous with
    | none => exact hf.appendRecord w _
    | some index =>
      simp only
      cases w.record index with
      | error stop => rfl
      | ok fact => exact hf.appendRecord w _

end ArenaBlind

/-- The cell of the stack at an index. -/
def cell (w : Workspace) (index : ℕ) : ℕ := w.stack.getD index 0

/-- A definition pops its three operands and appends a record. -/
theorem executeInstruction_define (w : Workspace) (t immediate frontier : ℕ) :
    w.executeInstruction ⟨.define, t, immediate⟩ frontier =
      if w.stackPointer < w.frameBase + 3 then .error (.rejected .stackUnderflow)
      else { w with stackPointer := w.stackPointer - 3 }.define t (w.cell (w.stackPointer - 3))
        (w.cell (w.stackPointer - 2)) (w.cell (w.stackPointer - 1)) frontier := by
  unfold executeInstruction
  simp only [bind, Except.bind, pop]
  by_cases h₁ : w.stackPointer ≤ w.frameBase
  · simp [h₁, show w.stackPointer < w.frameBase + 3 by omega]
  by_cases h₂ : w.stackPointer - 1 ≤ w.frameBase
  · simp [h₁, h₂, show w.stackPointer < w.frameBase + 3 by omega]
  by_cases h₃ : w.stackPointer - 1 - 1 ≤ w.frameBase
  · simp [h₁, h₂, h₃, show w.stackPointer < w.frameBase + 3 by omega]
  · simp only [h₁, h₂, h₃, if_false, show ¬ w.stackPointer < w.frameBase + 3 by omega]
    rfl

/-- A slot whose head can be resolved has one. -/
theorem lt_of_resolveTrialHead {t frontier : ℕ} {head : Option ℕ}
    (h : w.resolveTrialHead t frontier = .ok head) : t < w.acceptedHeads.length := by
  unfold resolveTrialHead acceptedHead at h
  cases hh : w.acceptedHeads[t]? with
  | none => rw [hh] at h; cases h
  | some x => exact (List.getElem?_eq_some_iff.1 hh).1

/-- Whether an instruction allocates an entity. -/
def allocates (i : Instruction) : Bool :=
  match i.opcode with
  | .allocate | .allocateDiscard => true
  | _ => false

/-- **One instruction** only appends, counts its allocation, and needs a head for its slot. -/
theorem executeInstruction_appended {i : Instruction} {frontier : ℕ}
    (h : w.executeInstruction i frontier = .ok w') :
    Appended w w' ∧ w'.nextEntity = w.nextEntity + (if allocates i then 1 else 0) ∧
      (appendsRecord i = true → i.argument < w.acceptedHeads.length) ∧
      (i.opcode = .expectObject → w' = w) := by
  obtain ⟨opcode, argument, immediate⟩ := i
  cases opcode with
  | expectObject =>
    have hsame : w' = w := by
      simp only [executeInstruction] at h
      split at h
      · split at h <;> cases h
        rfl
      · simp only [bind, Except.bind] at h
        split at h
        · cases h
        split at h
        · split at h <;> cases h
          rfl
        · cases h
    subst hsame
    exact ⟨.refl _, rfl, fun hr => (by cases hr), fun _ => rfl⟩
  | allocate =>
    simp only [executeInstruction] at h
    obtain ⟨h₁, n₁⟩ := push_appended h
    refine ⟨⟨h₁.records, h₁.deltas, h₁.indexDeltas, h₁.heads, h₁.track, h₁.offset, h₁.stack,
      h₁.frameBase, h₁.hash⟩, n₁, fun hr => (by cases hr), fun he => (by cases he)⟩
  | allocateDiscard =>
    obtain rfl := Except.ok.inj h
    exact ⟨⟨List.prefix_rfl, List.prefix_rfl, List.prefix_rfl, rfl, rfl, rfl, rfl, rfl, rfl⟩, rfl,
      fun hr => (by cases hr), fun he => (by cases he)⟩
  | loadLocal =>
    simp only [executeInstruction, bind, Except.bind] at h
    split at h
    · cases h
    obtain ⟨h₁, n₁⟩ := push_appended h
    exact ⟨h₁, n₁, fun hr => (by cases hr), fun he => (by cases he)⟩
  | storeLocal =>
    simp only [executeInstruction, bind, Except.bind] at h
    split at h
    · cases h
    rename_i p hp
    obtain ⟨h₁, n₁⟩ := pop_appended hp
    unfold storeLocal at h
    split at h
    · cases h
    obtain rfl := Except.ok.inj h
    refine ⟨h₁.trans ⟨List.prefix_rfl, List.prefix_rfl, List.prefix_rfl, rfl, rfl, rfl,
      List.length_set, rfl, rfl⟩, n₁, fun hr => (by cases hr), fun he => (by cases he)⟩
  | pushCell =>
    obtain ⟨h₁, n₁⟩ := push_appended h
    exact ⟨h₁, n₁, fun hr => (by cases hr), fun he => (by cases he)⟩
  | define =>
    simp only [executeInstruction, bind, Except.bind] at h
    split at h
    · cases h
    rename_i p₁ hp₁
    split at h
    · cases h
    rename_i p₂ hp₂
    split at h
    · cases h
    rename_i p₃ hp₃
    obtain ⟨h₁, n₁⟩ := pop_appended hp₁
    obtain ⟨h₂, n₂⟩ := pop_appended hp₂
    obtain ⟨h₃, n₃⟩ := pop_appended hp₃
    have h' := h₁.trans (h₂.trans h₃)
    unfold define at h
    simp only [bind, Except.bind] at h
    split at h
    · cases h
    rename_i head hhead
    obtain ⟨h₄, n₄⟩ := appendRecord_appended h
    refine ⟨h'.trans h₄, ?_, fun _ => ?_, fun he => (by cases he)⟩
    · rw [n₄, n₃, n₂, n₁]; rfl
    · rw [← h'.heads]
      exact lt_of_resolveTrialHead hhead
  | forget =>
    simp only [executeInstruction] at h
    unfold forget at h
    simp only [bind, Except.bind] at h
    split at h
    · cases h
    rename_i head hhead
    obtain ⟨r, hr⟩ : ∃ r, w.appendRecord r = .ok w' := by
      cases head with
      | none => exact ⟨_, h⟩
      | some index =>
        cases hrec : w.record index with
        | error e => simp only [hrec, Except.map] at h; cases h
        | ok r => simp only [hrec, Except.map] at h; exact ⟨_, h⟩
    obtain ⟨h₁, n₁⟩ := appendRecord_appended hr
    exact ⟨h₁, n₁, fun _ => lt_of_resolveTrialHead hhead, fun he => (by cases he)⟩
  | reject => cases h

/-- **A run** only appends, whatever its outcome. -/
theorem run_appended {is : List Instruction} {frontier : ℕ} {outcome : ExecutionOutcome}
    (h : w.run frontier is = .ok (outcome, w')) : Appended w w' := by
  induction is generalizing w with
  | nil => cases h; exact .refl _
  | cons i is ih =>
    unfold run at h
    split at h
    · rename_i w₁ hw₁
      exact (executeInstruction_appended hw₁).1.trans (ih h)
    · cases h; exact .refl _
    · cases h

/-- **An accepted run** counts its allocations and names only slots that have a head. -/
theorem run_live {is : List Instruction} {frontier : ℕ}
    (h : w.run frontier is = .ok (.accepted, w')) :
    w'.nextEntity = w.nextEntity + is.countP allocates ∧
      ∀ i ∈ is, appendsRecord i = true → i.argument < w.acceptedHeads.length := by
  induction is generalizing w with
  | nil => cases h; exact ⟨rfl, by simp⟩
  | cons i is ih =>
    unfold run at h
    split at h
    · rename_i w₁ hw₁
      obtain ⟨h₁, n₁, l₁, -⟩ := executeInstruction_appended hw₁
      obtain ⟨n₂, l₂⟩ := ih h
      refine ⟨?_, ?_⟩
      · rw [n₂, n₁, List.countP_cons]
        omega
      · intro j hj hr
        rcases List.mem_cons.1 hj with rfl | hj
        · exact l₁ hr
        · rw [← h₁.heads]
          exact l₂ j hj hr
    · cases h
    · cases h

/-- An accepted run meets no `reject`. -/
theorem run_noReject {is : List Instruction} {frontier : ℕ}
    (h : w.run frontier is = .ok (.accepted, w')) : ∀ i ∈ is, i.opcode ≠ .reject := by
  induction is generalizing w with
  | nil => simp
  | cons i is ih =>
    unfold run at h
    split at h
    · rename_i w₁ hw₁
      rw [List.forall_mem_cons]
      refine ⟨fun hr => ?_, ih h⟩
      obtain ⟨opcode, argument, immediate⟩ := i
      obtain rfl : opcode = .reject := hr
      cases hw₁
    · cases h
    · cases h

/-- The instructions other than expectations. -/
def effects (is : List Instruction) : List Instruction :=
  is.filter fun i => i.opcode ≠ .expectObject

/-- **The expectations of an accepted run** can be left out. -/
theorem run_unexpected {is : List Instruction} {frontier : ℕ}
    (h : w.run frontier is = .ok (.accepted, w')) :
    w.run frontier (effects is) = .ok (.accepted, w') := by
  induction is generalizing w with
  | nil => exact h
  | cons i is ih =>
    unfold run at h
    split at h
    · rename_i w₁ hw₁
      have h₂ := ih h
      unfold effects at h₂ ⊢
      by_cases he : i.opcode = .expectObject
      · obtain rfl := (executeInstruction_appended hw₁).2.2.2 he
        rw [List.filter_cons_of_neg (by simpa using he)]
        exact h₂
      · rw [List.filter_cons_of_pos (by simpa using he)]
        unfold run
        rw [hw₁]
        exact h₂
    · cases h
    · cases h

/-- The frame a program starts in. -/
def framed (w : Workspace) (locals : ℕ) : Workspace :=
  { w with frameBase := w.stackPointer, stackPointer := w.stackPointer + locals }

/-- How the end of a run is settled. -/
def settle (c : TrialCheckpoint) (end_ : ExecutionOutcome × Workspace) :
    ExecutionOutcome × Workspace :=
  match end_ with
  | (.accepted, w) => (.accepted, w.accept c)
  | (.rejected error, w) => (.rejected error, w.rollback c)

/-- An execution is a run in its frame, once its locals are reserved. -/
theorem executeInstructions_eq (w : Workspace) (locals : ℕ) (is : List Instruction) :
    w.executeInstructions locals is =
      if w.stackPointer + locals > w.stack.length then .ok (.rejected .stackOverflow, w)
      else ((w.framed locals).run w.deltas.length is).map (settle w.checkpoint) := by
  unfold executeInstructions reserve
  by_cases hroom : w.stackPointer + locals > w.stack.length
  · simp [hroom, rollback, checkpoint]
  · simp only [if_neg hroom]
    congr 1

/-- The run behind an execution that is not refused for want of a stack. -/
theorem executeInstructions_run {is : List Instruction} {outcome : ExecutionOutcome}
    (hs : w.stackPointer ≤ w.stack.length)
    (h : w.executeInstructions 0 is = .ok (outcome, w')) :
    ∃ w₁, run { w with frameBase := w.stackPointer } w.deltas.length is = .ok (outcome, w₁) ∧
      (outcome = .accepted → w' = w₁.accept w.checkpoint) ∧
      (outcome ≠ .accepted → w' = w₁.rollback w.checkpoint) := by
  rw [executeInstructions_zero w hs] at h
  cases hr : run { w with frameBase := w.stackPointer } w.deltas.length is with
  | error e => rw [hr] at h; cases h
  | ok p =>
    obtain ⟨o, w₁⟩ := p
    rw [hr] at h
    cases o with
    | accepted =>
      cases h
      exact ⟨w₁, rfl, fun _ => rfl, fun hne => absurd rfl hne⟩
    | rejected e =>
      cases h
      exact ⟨w₁, rfl, (fun hne => nomatch hne), fun _ => rfl⟩

/-- **An accepted program** is as accepted without its expectations. -/
theorem executeInstructions_unexpected {is : List Instruction}
    (hs : w.stackPointer ≤ w.stack.length)
    (h : w.executeInstructions 0 is = .ok (.accepted, w')) :
    w.executeInstructions 0 (effects is) = .ok (.accepted, w') := by
  obtain ⟨w₁, hr, hw, -⟩ := executeInstructions_run hs h
  rw [executeInstructions_zero w hs, run_unexpected hr, hw rfl]
  rfl

/-- The run behind an accepted program. -/
theorem executeInstructions_accepted {locals : ℕ} {is : List Instruction}
    (h : w.executeInstructions locals is = .ok (.accepted, w')) :
    ∃ w₁, (w.framed locals).run w.deltas.length is = .ok (.accepted, w₁) ∧
      w' = w₁.accept w.checkpoint := by
  rw [executeInstructions_eq] at h
  split at h
  · cases h
  cases hrun : (w.framed locals).run w.deltas.length is with
  | error message => rw [hrun] at h; cases h
  | ok p =>
    obtain ⟨outcome, w₁⟩ := p
    rw [hrun] at h
    cases outcome with
    | rejected e => cases h
    | accepted =>
      cases h
      exact ⟨w₁, rfl, rfl⟩

/-- **A rejected program** leaves the arenas, the heads and the allocator as they were. -/
theorem executeInstructions_rejected {locals : ℕ} {is : List Instruction} {e : ExecError}
    (h : w.executeInstructions locals is = .ok (.rejected e, w')) :
    w' = { w with stack := w'.stack } ∧ w'.stack.length = w.stack.length := by
  rw [executeInstructions_eq] at h
  split at h
  · cases h
    exact ⟨rfl, rfl⟩
  cases hrun : (w.framed locals).run w.deltas.length is with
  | error message => rw [hrun] at h; cases h
  | ok p =>
    obtain ⟨outcome, w₁⟩ := p
    have ha := run_appended hrun
    rw [hrun] at h
    cases outcome with
    | accepted => cases h
    | rejected e' =>
      cases h
      have hrec : w₁.records.take w.records.length = w.records :=
        (List.prefix_iff_eq_take.1 ha.records).symm
      have hdel : w₁.deltas.take w.deltas.length = w.deltas :=
        (List.prefix_iff_eq_take.1 ha.deltas).symm
      have hidx : w₁.indexDeltas.take w.indexDeltas.length = w.indexDeltas :=
        (List.prefix_iff_eq_take.1 ha.indexDeltas).symm
      refine ⟨?_, ha.stack⟩
      unfold rollback checkpoint
      simp only [hrec, hdel, hidx]
      obtain ⟨-, -, -, hheads, htrack, hoff, -, -, hhash⟩ := ha
      simp only [framed] at hheads htrack hoff hhash
      rw [hheads, htrack, hoff, hhash]

end Workspace

end ForthDB
