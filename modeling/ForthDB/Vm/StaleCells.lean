import ForthDB.Vm.Acceptance

/-!
# What a rejected program leaves on the stack

`rollback` restores the pointers, the arenas and the allocator, not the cells above the
stack pointer, and `reserve` hands those cells out as the locals of the next program.

* `RootedWorkspace`: a workspace with the roots it has published.
* `Untainted`: no definition of a run takes an operand from a stale cell, directly or
  through copies.
* `executeInstruction_differs`, `run_differs`: two workspaces that differ in stale cells run
  an untainted program alike.
* `run_tainted`: they end an accepted tainted run with different records.
* `rejected_leaves_no_trace`: **when a rejected program leaves no trace** on the next one.
-/

namespace ForthDB

/-- `WorldRoot`. -/
structure WorldRoot where
  parent : Option ℕ
  version : ℕ
  recordFrontier : ℕ
  slotDeltaFrontier : ℕ
  indexDeltaFrontier : ℕ
  allocatorHead : ℕ
  worldId : UInt64
deriving DecidableEq, Repr

/-- A workspace with its published roots. -/
structure RootedWorkspace where
  workspace : Workspace
  roots : List WorldRoot
  lastRoot : Option ℕ
  version : ℕ
deriving DecidableEq, Repr

namespace RootedWorkspace

variable (r : RootedWorkspace)

def execute (program : IntentProgram) : Except String (ExecutionOutcome × RootedWorkspace) :=
  (r.workspace.execute program).map fun (outcome, w) => (outcome, { r with workspace := w })

/-- The record frontier of the last root: an `error` is a panic of `PodArena::get`. -/
def previousRecordFrontier : Except String ℕ :=
  match r.lastRoot with
  | none => .ok 0
  | some index =>
    match r.roots[index]? with
    | some root => .ok root.recordFrontier
    | none => .error "record reference beyond active frontier"

/-- `publish_epoch`: an `error` is a panic. -/
def publishEpoch : Except String (Option WorldRoot × RootedWorkspace) := do
  let previousRecordFrontier ← r.previousRecordFrontier
  if r.workspace.records.length = previousRecordFrontier then pure (none, r)
  else
    let version := r.version + 1
    let root : WorldRoot :=
      { parent := r.lastRoot
        version := version
        recordFrontier := r.workspace.records.length
        slotDeltaFrontier := r.workspace.deltas.length
        indexDeltaFrontier := r.workspace.indexDeltas.length
        allocatorHead := r.workspace.nextEntity
        worldId := r.workspace.semanticHash }
    if r.roots.length < noReference then
      pure (some root, { r with
        roots := r.roots ++ [root], lastRoot := some r.roots.length, version := version })
    else .error "Phase 1 arena exhausted u32 references"

/-- Everything but the stack cells. -/
def visible : RootedWorkspace := { r with workspace := { r.workspace with stack := [] } }

/-- What a caller sees of an execution: the verdict and the visible state after it. -/
def observe (result : Except String (ExecutionOutcome × RootedWorkspace)) :
    Except String (ExecutionOutcome × RootedWorkspace) :=
  result.map fun (outcome, r) => (outcome, r.visible)

/-- What is visible decides what is published. -/
theorem publishEpoch_visible :
    r.visible.publishEpoch = r.publishEpoch.map fun (root, r) => (root, r.visible) := by
  unfold publishEpoch
  have hfrontier : r.visible.previousRecordFrontier = r.previousRecordFrontier := rfl
  rw [hfrontier]
  cases r.previousRecordFrontier with
  | error message => rfl
  | ok frontier =>
    simp only [bind, Except.bind, visible]
    by_cases hsame : r.workspace.records.length = frontier
    · simp only [hsame, ↓reduceIte]
      rfl
    · simp only [hsame, ↓reduceIte]
      by_cases hroom : r.roots.length < noReference
      · simp only [hroom, ↓reduceIte]
        rfl
      · simp only [hroom, ↓reduceIte]
        rfl

end RootedWorkspace

namespace Workspace

variable {w w' v : Workspace} {frontier : ℕ}

/-! ## Stale cells -/

/-- Which cells are stale after an instruction: a copy is as stale as its source. -/
def staleAfter (w : Workspace) (stale : ℕ → Bool) (i : Instruction) : ℕ → Bool :=
  match i.opcode with
  | .allocate | .pushCell => Function.update stale w.stackPointer false
  | .loadLocal => Function.update stale w.stackPointer (stale (w.frameBase + i.argument))
  | .storeLocal =>
    Function.update stale (w.frameBase + i.argument) (stale (w.stackPointer - 1))
  | _ => stale

/-- Whether an instruction defines a fact from a stale cell. -/
def definesStale (w : Workspace) (stale : ℕ → Bool) (i : Instruction) : Bool :=
  match i.opcode with
  | .define =>
    stale (w.stackPointer - 1) || stale (w.stackPointer - 2) || stale (w.stackPointer - 3)
  | _ => false

/-- No definition of a run takes an operand from a stale cell. -/
def Untainted (w : Workspace) (frontier : ℕ) (stale : ℕ → Bool) : List Instruction → Prop
  | [] => True
  | i :: rest =>
    w.definesStale stale i = false ∧
      match w.executeInstruction i frontier with
      | .ok w' => Untainted w' frontier (w.staleAfter stale i) rest
      | .error _ => True

instance decidableUntainted (w : Workspace) (frontier : ℕ) (stale : ℕ → Bool) :
    (is : List Instruction) → Decidable (w.Untainted frontier stale is)
  | [] => .isTrue trivial
  | i :: rest =>
    have : Decidable (match w.executeInstruction i frontier with
        | .ok w' => Untainted w' frontier (w.staleAfter stale i) rest
        | .error _ => True) :=
      match w.executeInstruction i frontier with
      | .ok w' => decidableUntainted w' frontier (w.staleAfter stale i) rest
      | .error _ => .isTrue trivial
    inferInstanceAs (Decidable (_ ∧ _))

/-- `v` is `w` with other cells: exactly the stale ones differ. -/
structure Differs (stale : ℕ → Bool) (w v : Workspace) : Prop where
  same : v = { w with stack := v.stack }
  length : v.stack.length = w.stack.length
  pointer : w.stackPointer ≤ w.stack.length
  cells : ∀ k, stale k = true ↔ w.cell k ≠ v.cell k

theorem Differs.cell_eq {stale : ℕ → Bool} (h : Differs stale w v) {k : ℕ}
    (hk : stale k = false) : v.cell k = w.cell k := by
  by_contra hne
  have ht := (h.cells k).2 (Ne.symm hne)
  rw [hk] at ht
  cases ht

theorem arenaBlind_stack (stack : List ℕ) : ArenaBlind fun w => { w with stack := stack } :=
  ⟨fun _ => rfl, fun _ => rfl, fun _ => rfl, fun _ => rfl, fun _ _ _ _ => rfl⟩

theorem define_stack (w : Workspace) (stack : List ℕ) (t s p o frontier : ℕ) :
    { w with stack := stack }.define t s p o frontier =
      (w.define t s p o frontier).map fun w' => { w' with stack := stack } :=
  (arenaBlind_stack stack).define (w := w) rfl

theorem forget_stack (w : Workspace) (stack : List ℕ) (t frontier : ℕ) :
    { w with stack := stack }.forget t frontier =
      (w.forget t frontier).map fun w' => { w' with stack := stack } :=
  (arenaBlind_stack stack).forget (w := w) rfl

/-- Writing the same cell of both stacks keeps the marks exact. -/
theorem Differs.write {stale : ℕ → Bool} (h : Differs stale w v) {k x y : ℕ} {mark : Bool}
    (hk : k < w.stack.length) (hmark : mark = true ↔ x ≠ y) {stackPointer : ℕ}
    (hsp : stackPointer ≤ w.stack.length) :
    Differs (Function.update stale k mark)
      { w with stack := w.stack.set k x, stackPointer := stackPointer }
      { v with stack := v.stack.set k y, stackPointer := stackPointer } := by
  obtain ⟨hv, hlen, -, hcells⟩ := h
  refine ⟨?_, by simp [hlen], by simpa using hsp, fun j => ?_⟩
  · rw [hv]
  · have hkv : k < v.stack.length := by omega
    have hj := hcells j
    unfold cell at hj ⊢
    simp only [List.getD_eq_getElem?_getD] at hj ⊢
    rcases eq_or_ne j k with rfl | hne
    · rw [Function.update_self, List.getElem?_set_self hk, List.getElem?_set_self hkv]
      exact hmark
    · rw [Function.update_of_ne hne, List.getElem?_set_ne (Ne.symm hne),
        List.getElem?_set_ne (Ne.symm hne)]
      exact hj

/-- An instruction that leaves the stacks alone keeps the marks. -/
theorem Differs.mapped {stale : ℕ → Bool} (h : Differs stale w v) {u : Workspace}
    (hw : u.stack = w.stack) (hsp : u.stackPointer ≤ w.stackPointer) :
    Differs stale u { u with stack := v.stack } := by
  refine ⟨rfl, ?_, ?_, fun k => ?_⟩
  · rw [hw]
    exact h.length
  · rw [hw]
    exact hsp.trans h.pointer
  · have hk := h.cells k
    unfold cell at hk ⊢
    rw [hw]
    exact hk

theorem appendRecord_keeps_stack {r : FactRecord} (h : w.appendRecord r = .ok w') :
    w'.stack = w.stack := by
  have hsame : w.appendRecord r = (w.appendRecord r).map fun w' => { w' with stack := w.stack } :=
    (arenaBlind_stack w.stack).appendRecord w r
  rw [h] at hsame
  have hw' : w' = { w' with stack := w.stack } := Except.ok.inj hsame
  rw [hw']

/-- Two results that agree up to cells. -/
def SameUpTo (stale : ℕ → Bool) : Except Stop Workspace → Except Stop Workspace → Prop
  | .ok w, .ok v => Differs stale w v
  | .error stop, .error stop' => stop = stop'
  | _, _ => False

theorem Differs.push {stale : ℕ → Bool} (h : Differs stale w v) {x y : ℕ} {mark : Bool}
    (hmark : mark = true ↔ x ≠ y) :
    SameUpTo (Function.update stale w.stackPointer mark) (w.push x) (v.push y) := by
  have hv : v.stackPointer = w.stackPointer := by rw [h.same]
  have hsp := h.pointer
  unfold Workspace.push
  simp only [hv, h.length]
  by_cases hfull : w.stackPointer = w.stack.length
  · rw [if_pos hfull, if_pos hfull]
    rfl
  · rw [if_neg hfull, if_neg hfull]
    have hlt : w.stackPointer < w.stack.length := by omega
    exact h.write hlt hmark hlt

/-- **One instruction** that defines nothing from a stale cell. -/
theorem executeInstruction_differs {stale : ℕ → Bool} (h : Differs stale w v) (frontier : ℕ)
    {i : Instruction} (hi : w.definesStale stale i = false) :
    SameUpTo (w.staleAfter stale i) (w.executeInstruction i frontier)
      (v.executeInstruction i frontier) := by
  have hv := h.same
  have hsp : v.stackPointer = w.stackPointer := by rw [hv]
  have hbase : v.frameBase = w.frameBase := by rw [hv]
  have hnext : v.nextEntity = w.nextEntity := by rw [hv]
  have hpointer := h.pointer
  obtain ⟨opcode, argument, immediate⟩ := i
  cases opcode with
  | expectObject =>
    have hobject : v.resolveTrialObject argument frontier = w.resolveTrialObject argument frontier := by
      rw [hv]
      rfl
    have hhash : v.semanticHash = w.semanticHash := by rw [hv]
    simp only [executeInstruction, bind, Except.bind, hobject, hhash]
    split
    · split
      · rfl
      · exact h
    · cases w.resolveTrialObject argument frontier with
      | error stop => rfl
      | ok object =>
        cases object with
        | none => rfl
        | some actual =>
          simp only
          split
          · exact h
          · rfl
  | allocate =>
    have hd := h.mapped (u := { w with nextEntity := w.nextEntity + 1 }) rfl le_rfl
    simp only [executeInstruction, hnext]
    rw [hv]
    exact hd.push (by simp)
  | allocateDiscard =>
    simp only [executeInstruction]
    rw [hv]
    exact h.mapped (u := { w with nextEntity := w.nextEntity + 1 }) rfl le_rfl
  | loadLocal =>
    simp only [executeInstruction, bind, Except.bind, loadLocal, hsp, hbase]
    by_cases hout : w.frameBase + argument ≥ w.stackPointer
    · rw [if_pos hout, if_pos hout]
      rfl
    · rw [if_neg hout, if_neg hout]
      exact h.push (h.cells _)
  | storeLocal =>
    simp only [executeInstruction, bind, Except.bind, pop, storeLocal, hsp, hbase]
    by_cases hempty : w.stackPointer ≤ w.frameBase
    · rw [if_pos hempty, if_pos hempty]
      rfl
    rw [if_neg hempty, if_neg hempty]
    simp only
    by_cases hout : w.frameBase + argument ≥ w.stackPointer - 1
    · rw [if_pos hout, if_pos hout]
      rfl
    · rw [if_neg hout, if_neg hout]
      have hlt : w.frameBase + argument < w.stack.length := by omega
      have hle : w.stackPointer - 1 ≤ w.stack.length := by omega
      have hw := h.write hlt (h.cells (w.stackPointer - 1)) hle
      rw [hbase] at hw
      exact hw
  | pushCell => exact h.push (by simp)
  | define =>
    -- the operands agree, for none of them is stale
    simp only [definesStale, Bool.or_eq_false_iff] at hi
    obtain ⟨⟨h₁, h₂⟩, h₃⟩ := hi
    rw [executeInstruction_define, executeInstruction_define, hsp, hbase, h.cell_eq h₁,
      h.cell_eq h₂, h.cell_eq h₃]
    by_cases hunder : w.stackPointer < w.frameBase + 3
    · rw [if_pos hunder, if_pos hunder]
      rfl
    rw [if_neg hunder, if_neg hunder]
    have hpopped := define_stack { w with stackPointer := w.stackPointer - 3 } v.stack argument
      (w.cell (w.stackPointer - 3)) (w.cell (w.stackPointer - 2)) (w.cell (w.stackPointer - 1))
      frontier
    rw [hv]
    refine Eq.subst (motive := fun result => SameUpTo _ _ result) hpopped.symm ?_
    cases hw : define { w with stackPointer := w.stackPointer - 3 } argument
        (w.cell (w.stackPointer - 3)) (w.cell (w.stackPointer - 2)) (w.cell (w.stackPointer - 1))
        frontier with
    | error stop => rfl
    | ok w₁ =>
      obtain ⟨r, hr⟩ := define_appends hw
      have hstack : w₁.stack = w.stack := by
        rw [appendRecord_keeps_stack hr]
      have hpopped : w₁.stackPointer = w.stackPointer - 3 := by
        rw [appendRecord_stackPointer hr]
      exact h.mapped hstack (by omega)
  | forget =>
    simp only [executeInstruction]
    rw [hv, forget_stack w v.stack]
    cases hw : w.forget argument frontier with
    | error stop => rfl
    | ok w₁ =>
      obtain ⟨r, hr⟩ := forget_appends hw
      refine h.mapped (appendRecord_keeps_stack hr) ?_
      rw [appendRecord_stackPointer hr]
  | reject => rfl

/-- **A run** that defines nothing from a stale cell ends alike. -/
theorem run_differs {stale : ℕ → Bool} (h : Differs stale w v) {is : List Instruction}
    (hu : w.Untainted frontier stale is) :
    (∃ outcome w' v' stale', w.run frontier is = .ok (outcome, w') ∧
        v.run frontier is = .ok (outcome, v') ∧ Differs stale' w' v') ∨
      ∃ message, w.run frontier is = .error message ∧ v.run frontier is = .error message := by
  induction is generalizing w v stale with
  | nil => exact .inl ⟨_, _, _, _, rfl, rfl, h⟩
  | cons i is ih =>
    obtain ⟨hi, hrest⟩ := hu
    have hstep := executeInstruction_differs h frontier hi
    unfold run
    cases hw : w.executeInstruction i frontier with
    | error stop =>
      cases hv : v.executeInstruction i frontier with
      | ok v₁ =>
        rw [hw, hv] at hstep
        exact hstep.elim
      | error stop' =>
        rw [hw, hv] at hstep
        obtain rfl : stop = stop' := hstep
        cases stop with
        | rejected error => exact .inl ⟨_, _, _, _, rfl, rfl, h⟩
        | panicked message => exact .inr ⟨_, rfl, rfl⟩
    | ok w₁ =>
      cases hv : v.executeInstruction i frontier with
      | error stop =>
        rw [hw, hv] at hstep
        exact hstep.elim
      | ok v₁ =>
        rw [hw, hv] at hstep
        rw [hw] at hrest
        exact ih hstep hrest

/-- **A definition from a stale cell** appends different records. -/
theorem executeInstruction_tainted {stale : ℕ → Bool} (h : Differs stale w v) {i : Instruction}
    (hi : w.definesStale stale i = true) {w₁ v₁ : Workspace}
    (hw : w.executeInstruction i frontier = .ok w₁) (hv : v.executeInstruction i frontier = .ok v₁) :
    w₁.records.length = v₁.records.length ∧ w₁.records ≠ v₁.records := by
  obtain ⟨opcode, argument, immediate⟩ := i
  have hlen := (executeInstruction_records hw).1
  have hlen' := (executeInstruction_records hv).1
  have hrecords : v.records = w.records := by rw [h.same]
  refine ⟨by rw [hlen, hlen', hrecords], fun heq => ?_⟩
  cases opcode with
  | define =>
    have hsp : v.stackPointer = w.stackPointer := by rw [h.same]
    have hlast : ∀ {u u₁ : Workspace},
        u.executeInstruction ⟨.define, argument, immediate⟩ frontier = .ok u₁ →
        ∃ r, u₁.records = u.records ++ [r] ∧ r.subject = u.cell (u.stackPointer - 3) ∧
          r.predicate = u.cell (u.stackPointer - 2) ∧ r.object = u.cell (u.stackPointer - 1) := by
      intro u u₁ hu
      rw [executeInstruction_define] at hu
      split at hu
      · cases hu
      unfold define at hu
      simp only [bind, Except.bind] at hu
      split at hu
      · cases hu
      · exact ⟨_, (appendRecord_records hu).1, rfl, rfl, rfl⟩
    obtain ⟨r, hr, hs, hp, ho⟩ := hlast hw
    obtain ⟨r', hr', hs', hp', ho'⟩ := hlast hv
    rw [hr, hr', hrecords, List.append_cancel_left_eq, List.cons.injEq] at heq
    obtain ⟨rfl, -⟩ := heq
    rw [hsp] at hs' hp' ho'
    -- one of the three operands is stale, so it differs
    simp only [definesStale, Bool.or_eq_true] at hi
    rcases hi with (hi | hi) | hi
    · exact (h.cells _).1 hi (ho.symm.trans ho')
    · exact (h.cells _).1 hi (hp.symm.trans hp')
    · exact (h.cells _).1 hi (hs.symm.trans hs')
  | _ => cases hi

/-- **An accepted run** that is tainted ends with other records. -/
theorem run_tainted {stale : ℕ → Bool} (h : Differs stale w v) {is : List Instruction}
    (hu : ¬ w.Untainted frontier stale is) {w' v' : Workspace}
    (hw : w.run frontier is = .ok (.accepted, w')) (hv : v.run frontier is = .ok (.accepted, v')) :
    w'.records ≠ v'.records := by
  induction is generalizing w v stale with
  | nil => exact absurd trivial hu
  | cons i is ih =>
    unfold run at hw hv
    cases hw₁ : w.executeInstruction i frontier with
    | error stop => rw [hw₁] at hw; cases stop <;> cases hw
    | ok w₁ =>
      cases hv₁ : v.executeInstruction i frontier with
      | error stop => rw [hv₁] at hv; cases stop <;> cases hv
      | ok v₁ =>
        rw [hw₁] at hw
        rw [hv₁] at hv
        cases hi : w.definesStale stale i with
        | true =>
          obtain ⟨hlen, hne⟩ := executeInstruction_tainted h hi hw₁ hv₁
          have hpre := (run_appended hw).records
          have hpre' := (run_appended hv).records
          intro heq
          rw [heq] at hpre
          exact hne ((List.prefix_of_prefix_length_le hpre hpre' hlen.le).eq_of_length hlen)
        | false =>
          have hstep := executeInstruction_differs h frontier hi
          rw [hw₁, hv₁] at hstep
          refine ih hstep (fun hrest => hu ⟨hi, ?_⟩) hw hv
          rw [hw₁]
          exact hrest

/-- The cells that hold something else in `w'`. -/
def changedCells (w w' : Workspace) : ℕ → Bool := fun k => w.cell k ≠ w'.cell k

/-- A program whose locals fit defines nothing from the cells that differ in `w'`. -/
def CleanAfter (w w' : Workspace) (program : IntentProgram) : Prop :=
  w.stackPointer + program.localCount ≤ w.stack.length →
    (w.framed program.localCount).Untainted w.deltas.length (w.changedCells w')
      program.instructions

instance (w w' : Workspace) (program : IntentProgram) : Decidable (w.CleanAfter w' program) :=
  inferInstanceAs (Decidable (_ → _))

/-- Both workspaces start a program in frames that differ in the changed cells. -/
theorem framed_differs (hsame : w' = { w with stack := w'.stack })
    (hlen : w'.stack.length = w.stack.length) {locals : ℕ}
    (hroom : w.stackPointer + locals ≤ w.stack.length) :
    Differs (w.changedCells w') (w.framed locals) (w'.framed locals) := by
  refine ⟨?_, hlen, hroom, fun k => ?_⟩
  · rw [hsame]
    rfl
  · simp only [changedCells, decide_eq_true_eq]
    rfl

/-- Everything but the stack cells. -/
def visible (w : Workspace) : Workspace := { w with stack := [] }

/-- The settled ends of runs that differ in cells look the same. -/
theorem settle_visible {stale : ℕ → Bool} (h : Differs stale w v) (c : TrialCheckpoint)
    (outcome : ExecutionOutcome) :
    (settle c (outcome, v)).1 = (settle c (outcome, w)).1 ∧
      (settle c (outcome, v)).2.visible = (settle c (outcome, w)).2.visible := by
  rw [h.same]
  cases outcome <;> exact ⟨rfl, rfl⟩

end Workspace

namespace RootedWorkspace

open Workspace

variable {r r' r'' : RootedWorkspace} {P Q : IntentProgram} {e : ExecError}

/-- What an execution shows, from the run behind it. -/
theorem observe_execute (r : RootedWorkspace) (Q : IntentProgram) :
    observe (r.execute Q) =
      if r.workspace.stackPointer + Q.localCount > r.workspace.stack.length then
        .ok (.rejected .stackOverflow, r.visible)
      else (((r.workspace.framed Q.localCount).run r.workspace.deltas.length
          Q.instructions).map (settle r.workspace.checkpoint)).map
        fun (outcome, w) => (outcome, { r with workspace := w.visible }) := by
  unfold observe execute Workspace.execute
  rw [executeInstructions_eq]
  split
  · rfl
  · cases (r.workspace.framed Q.localCount).run r.workspace.deltas.length Q.instructions <;> rfl

/-- A rejected program changes stack cells only. -/
theorem execute_rejected (h : r.execute P = .ok (.rejected e, r')) :
    r' = { r with workspace := { r.workspace with stack := r'.workspace.stack } } ∧
      r'.workspace.stack.length = r.workspace.stack.length := by
  unfold execute Workspace.execute at h
  cases hw : r.workspace.executeInstructions P.localCount P.instructions with
  | error message => rw [hw] at h; cases h
  | ok p =>
    obtain ⟨outcome, w⟩ := p
    rw [hw] at h
    cases h
    obtain ⟨hsame, hlen⟩ := executeInstructions_rejected hw
    exact ⟨by rw [← hsame], hlen⟩

/-- **A clean program** shows the same after a rejected one. -/
theorem observe_of_clean (h : r.execute P = .ok (.rejected e, r'))
    (hclean : r.workspace.CleanAfter r'.workspace Q) :
    observe (r'.execute Q) = observe (r.execute Q) := by
  obtain ⟨hr, hlen⟩ := execute_rejected h
  have hw : r'.workspace = { r.workspace with stack := r'.workspace.stack } := by rw [hr]
  have hsp : r'.workspace.stackPointer = r.workspace.stackPointer := by rw [hw]
  have hdeltas : r'.workspace.deltas = r.workspace.deltas := by rw [hw]
  have hcheckpoint : r'.workspace.checkpoint = r.workspace.checkpoint := by rw [hw]; rfl
  have hvisible : ∀ w : Workspace, ({ r' with workspace := w } : RootedWorkspace) =
      { r with workspace := w } := by
    intro w
    rw [hr]
  rw [observe_execute, observe_execute, hsp, hlen, hdeltas, hcheckpoint]
  by_cases hroom : r.workspace.stackPointer + Q.localCount > r.workspace.stack.length
  · rw [if_pos hroom, if_pos hroom]
    rw [hr]
    rfl
  rw [if_neg hroom, if_neg hroom]
  have hfits : r.workspace.stackPointer + Q.localCount ≤ r.workspace.stack.length := by omega
  have hd := framed_differs hw hlen hfits
  rcases run_differs hd (hclean hfits) with ⟨outcome, w₁, v₁, stale, hrun, hrun', hend⟩ |
    ⟨message, hrun, hrun'⟩
  · obtain ⟨hfst, hsnd⟩ := settle_visible hend r.workspace.checkpoint outcome
    rw [hrun, hrun']
    simp only [Except.map, hfst, hsnd, hvisible]
  · rw [hrun, hrun']
    rfl

/-- **A tainted program** that is accepted shows something else after the rejected one. -/
theorem clean_of_observe (h : r.execute P = .ok (.rejected e, r'))
    (hQ : r.execute Q = .ok (.accepted, r''))
    (hsame : observe (r'.execute Q) = observe (r.execute Q)) :
    r.workspace.CleanAfter r'.workspace Q := by
  obtain ⟨hr, hlen⟩ := execute_rejected h
  have hw : r'.workspace = { r.workspace with stack := r'.workspace.stack } := by rw [hr]
  have hsp : r'.workspace.stackPointer = r.workspace.stackPointer := by rw [hw]
  have hdeltas : r'.workspace.deltas = r.workspace.deltas := by rw [hw]
  intro hfits
  by_contra htainted
  have hroom : ¬ r.workspace.stackPointer + Q.localCount > r.workspace.stack.length := by omega
  have hobserved : ∃ r₁, observe (r.execute Q) = .ok (.accepted, r₁) := ⟨_, by rw [hQ]; rfl⟩
  rw [← hsame] at hobserved
  rw [observe_execute, observe_execute, hsp, hlen, hdeltas, if_neg hroom, if_neg hroom] at hsame
  obtain ⟨r₁, hr₁⟩ := hobserved
  rw [observe_execute, hsp, hlen, hdeltas, if_neg hroom] at hr₁
  rw [hr₁] at hsame
  have haccepted : ∀ {r : RootedWorkspace} {w : Workspace} {frontier : ℕ} {c : TrialCheckpoint},
      .ok (.accepted, r₁) = (((w.run frontier Q.instructions).map (settle c)).map
        fun (outcome, w) => (outcome, ({ r with workspace := w.visible } : RootedWorkspace))) →
      ∃ w₁, w.run frontier Q.instructions = .ok (.accepted, w₁) ∧
        r₁.workspace.records = w₁.records := by
    intro r w frontier c hend
    cases hrun : w.run frontier Q.instructions with
    | error message => rw [hrun] at hend; cases hend
    | ok p =>
      obtain ⟨outcome, w₁⟩ := p
      rw [hrun] at hend
      cases outcome with
      | accepted =>
        cases hend
        exact ⟨w₁, rfl, rfl⟩
      | rejected error => cases hend
  obtain ⟨w₁, hrun, hrec⟩ := haccepted hsame
  obtain ⟨v₁, hrun', hrec'⟩ := haccepted hr₁.symm
  exact run_tainted (framed_differs hw hlen hfits) htainted hrun hrun' (hrec.symm.trans hrec')

/-- **When a rejected program leaves no trace.** A program shows the same after it as without
it where it defines nothing from a changed cell; for an accepted program, only there. -/
theorem rejected_leaves_no_trace (h : r.execute P = .ok (.rejected e, r')) :
    (r.workspace.CleanAfter r'.workspace Q →
        observe (r'.execute Q) = observe (r.execute Q)) ∧
      ∀ r'', r.execute Q = .ok (.accepted, r'') →
        (observe (r'.execute Q) = observe (r.execute Q) ↔
          r.workspace.CleanAfter r'.workspace Q) :=
  ⟨observe_of_clean h, fun _ hQ => ⟨clean_of_observe h hQ, observe_of_clean h⟩⟩

/-- A fresh workspace that has published nothing. -/
def fresh (slotCount stackCapacity : ℕ) : RootedWorkspace :=
  ⟨.withIndexesFrom 1 slotCount stackCapacity, [], none, 0⟩

/-- It names an entity in its local, then rejects. -/
def namesThenRejects : IntentProgram :=
  ⟨1, [.allocate, .storeLocal 0, .loadLocal 0, .push 7, .push 99, .define 0, .reject]⟩

/-- It names an entity in its local and defines a fact about it. -/
def namesThenDefines : IntentProgram :=
  ⟨1, [.allocate, .storeLocal 0, .loadLocal 0, .push 7, .push 100, .define 0]⟩

/-- It defines a fact about its local, which it has not stored. -/
def definesUnstored : IntentProgram :=
  ⟨1, [.loadLocal 0, .push 7, .push 100, .define 0]⟩

/-- The fresh workspace after the rejected program. -/
def afterRejection : RootedWorkspace :=
  match (fresh 4 16).execute namesThenRejects with
  | .ok (_, r) => r
  | .error _ => fresh 4 16

theorem rejected_leaves_no_trace_stored :
    observe (afterRejection.execute namesThenDefines) =
      observe ((fresh 4 16).execute namesThenDefines) := by
  have hP : (fresh 4 16).execute namesThenRejects =
      .ok (.rejected .explicitRejection, afterRejection) := by decide +kernel
  have hclean : (fresh 4 16).workspace.CleanAfter afterRejection.workspace namesThenDefines := by
    decide +kernel
  exact (rejected_leaves_no_trace hP).1 hclean

/-- **An unstored local** shows what the rejected program had in it. -/
theorem unstored_local_shows_rejected :
    (fresh 4 16).execute namesThenRejects = .ok (.rejected .explicitRejection, afterRejection) ∧
      observe (afterRejection.execute definesUnstored) ≠
        observe ((fresh 4 16).execute definesUnstored) := by
  refine ⟨by decide +kernel, fun hsame => ?_⟩
  have hsubjects := congrArg (fun result => result.toOption.map fun p =>
    p.2.workspace.records.map FactRecord.subject) hsame
  revert hsubjects
  decide +kernel

end RootedWorkspace

end ForthDB
