import ForthDB.Vm.Names
import ForthDB.Vm.Rollback

/-!
# Compiled operations are never rejected

* `Unguarded n is`: a program of allocations, definitions and forgets of slots below `n`.
* `run_unguarded`: such a program can be stopped by a full arena only, whatever the cells.
* `compileOperations_unguarded`: operations compile to such programs, in any number and
  with any names.
* `compiled_never_rejected`: **the machine never rejects a compiled list of operations.**
-/

namespace ForthDB

/-- A program without expectations, whose definitions bring their own cells. -/
inductive Unguarded (n : ℕ) : List Instruction → Prop
  | nil : Unguarded n []
  | allocate {is : List Instruction} : Unguarded n is → Unguarded n (.allocateDiscard :: is)
  | define {is : List Instruction} {s p o t : ℕ} : t < n → Unguarded n is →
      Unguarded n (.push s :: .push p :: .push o :: .define t :: is)
  | forget {is : List Instruction} {t : ℕ} : t < n → Unguarded n is →
      Unguarded n (.forget t :: is)

namespace Unguarded

variable {n n' : ℕ} {is js : List Instruction}

theorem mono (h : Unguarded n is) (hn : n ≤ n') : Unguarded n' is := by
  induction h with
  | nil => exact .nil
  | allocate _ ih => exact .allocate ih
  | define ht _ ih => exact .define (ht.trans_le hn) ih
  | forget ht _ ih => exact .forget (ht.trans_le hn) ih

theorem append (h : Unguarded n is) (h' : Unguarded n js) : Unguarded n (is ++ js) := by
  induction h with
  | nil => exact h'
  | allocate _ ih => exact .allocate ih
  | define ht _ ih => exact .define ht ih
  | forget ht _ ih => exact .forget ht ih

end Unguarded

namespace Workspace

variable {w w' : Workspace} {stop : Stop} {t frontier : ℕ}

theorem arenaPush_panics {α : Type} {arena : List α} {value : α}
    (h : arenaPush arena value = .error stop) : stop = arenaFull := by
  unfold arenaPush at h
  split at h
  · cases h
  · exact (Except.error.inj h).symm

theorem record_panics {index : ℕ} (h : w.record index = .error stop) :
    ∃ message, stop = .panicked message := by
  unfold record at h
  split at h
  · cases h
  · exact ⟨_, (Except.error.inj h).symm⟩

theorem appendReferenceIndexes_panics {reference : Option ℕ} {added : Bool}
    (h : w.appendReferenceIndexes reference added = .error stop) :
    ∃ message, stop = .panicked message := by
  unfold appendReferenceIndexes at h
  cases reference with
  | none => cases h
  | some index =>
    cases hr : w.record index with
    | error e =>
      simp only [hr, bind, Except.bind] at h
      obtain rfl := Except.error.inj h
      exact record_panics hr
    | ok fact =>
      simp only [hr, bind, Except.bind] at h
      rw [appendFactIndexes_eq] at h
      split at h
      · cases h
      · exact ⟨_, (Except.error.inj h).symm⟩

/-- A record that cannot be appended panics. -/
theorem appendRecord_panics {r : FactRecord} (h : w.appendRecord r = .error stop) :
    ∃ message, stop = .panicked message := by
  unfold appendRecord at h
  simp only [bind, Except.bind] at h
  split at h
  · rename_i hr
    obtain rfl := Except.error.inj h
    exact ⟨_, arenaPush_panics hr⟩
  split at h
  · rename_i hr
    obtain rfl := Except.error.inj h
    exact ⟨_, arenaPush_panics hr⟩
  unfold appendIndexTransition at h
  split at h
  · simp only [bind, Except.bind] at h
    split at h
    · rename_i hr
      obtain rfl := Except.error.inj h
      exact appendReferenceIndexes_panics hr
    · exact appendReferenceIndexes_panics h
  · cases h

theorem define_panics (ht : t < w.acceptedHeads.length) {s p o : ℕ}
    (h : w.define t s p o frontier = .error stop) : ∃ message, stop = .panicked message := by
  unfold define at h
  rw [resolveTrialHead_eq ht] at h
  exact appendRecord_panics h

theorem forget_panics (ht : t < w.acceptedHeads.length) (h : w.forget t frontier = .error stop) :
    ∃ message, stop = .panicked message := by
  unfold forget at h
  rw [resolveTrialHead_eq ht] at h
  simp only [bind, Except.bind] at h
  cases hp : w.trialHead frontier t with
  | none => rw [hp] at h; exact appendRecord_panics h
  | some index =>
    rw [hp] at h
    cases hr : w.record index with
    | error e =>
      simp only [hr, Except.map] at h
      obtain rfl := Except.error.inj h
      exact record_panics hr
    | ok r =>
      simp only [hr, Except.map] at h
      exact appendRecord_panics h

/-- The stack is empty and has room for a definition. -/
structure Clear (w : Workspace) : Prop where
  stack : w.stackPointer = w.frameBase
  stack_le : w.frameBase + 3 ≤ w.stack.length

theorem appendReferenceIndexes_stackPointer {reference : Option ℕ} {added : Bool}
    (h : w.appendReferenceIndexes reference added = .ok w') : w'.stackPointer = w.stackPointer := by
  unfold appendReferenceIndexes at h
  cases reference with
  | none => cases h; rfl
  | some index =>
    simp only [bind, Except.bind] at h
    split at h
    · cases h
    · rw [appendFactIndexes_eq] at h
      split at h
      · cases h; rfl
      · cases h

theorem appendRecord_stackPointer {r : FactRecord} (h : w.appendRecord r = .ok w') :
    w'.stackPointer = w.stackPointer := by
  unfold appendRecord at h
  simp only [bind, Except.bind] at h
  split at h
  · cases h
  split at h
  · cases h
  unfold appendIndexTransition at h
  split at h
  · simp only [bind, Except.bind] at h
    split at h
    · cases h
    · rename_i hr
      rw [appendReferenceIndexes_stackPointer h, appendReferenceIndexes_stackPointer hr]
  · cases h; rfl

theorem Clear.appendRecord (hc : w.Clear) {r : FactRecord} (h : w.appendRecord r = .ok w') :
    w'.Clear ∧ w'.acceptedHeads = w.acceptedHeads := by
  have ha := (appendRecord_appended h).1
  refine ⟨⟨?_, ?_⟩, ha.heads⟩
  · rw [appendRecord_stackPointer h, ha.frameBase]
    exact hc.stack
  · rw [ha.stack, ha.frameBase]
    exact hc.stack_le

theorem define_appends {s p o : ℕ} (h : w.define t s p o frontier = .ok w') :
    ∃ r, w.appendRecord r = .ok w' := by
  unfold define at h
  simp only [bind, Except.bind] at h
  split at h
  · cases h
  · exact ⟨_, h⟩

theorem forget_appends (h : w.forget t frontier = .ok w') : ∃ r, w.appendRecord r = .ok w' := by
  unfold forget at h
  simp only [bind, Except.bind] at h
  split at h
  · cases h
  · rename_i head _
    cases head with
    | none => exact ⟨_, h⟩
    | some index =>
      cases hr : w.record index with
      | error e => simp only [hr, Except.map] at h; cases h
      | ok r => simp only [hr, Except.map] at h; exact ⟨_, h⟩

/-- **An unguarded program** is never rejected. -/
theorem run_unguarded {n : ℕ} {is : List Instruction} (hi : Unguarded n is) (hc : w.Clear)
    (hn : n = w.acceptedHeads.length) (e : ExecError) : w.run frontier is ≠ .ok (.rejected e, w') := by
  induction hi generalizing w with
  | nil => intro h; cases h
  | allocate _ ih =>
    unfold run
    exact ih (w := { w with nextEntity := w.nextEntity + 1 }) ⟨hc.stack, hc.stack_le⟩ hn
  | @define is s p o t ht _ ih =>
    rw [run_define w hc.stack hc.stack_le]
    have hcells : (w.withCells s p o).Clear := ⟨hc.stack, by simpa [withCells] using hc.stack_le⟩
    have ht' : t < (w.withCells s p o).acceptedHeads.length := hn ▸ ht
    cases hd : (w.withCells s p o).define t s p o frontier with
    | ok w₁ =>
      obtain ⟨r, hr⟩ := define_appends hd
      obtain ⟨hc₁, hh₁⟩ := hcells.appendRecord hr
      exact ih hc₁ (by rw [hh₁]; exact hn)
    | error stop =>
      obtain ⟨message, rfl⟩ := define_panics ht' hd
      intro h
      cases h
  | @forget is t ht _ ih =>
    rw [run_forget]
    cases hf : w.forget t frontier with
    | ok w₁ =>
      obtain ⟨r, hr⟩ := forget_appends hf
      obtain ⟨hc₁, hh₁⟩ := hc.appendRecord hr
      exact ih hc₁ (by rw [hh₁]; exact hn)
    | error stop =>
      obtain ⟨message, rfl⟩ := forget_panics (hn ▸ ht) hf
      intro h
      cases h

end Workspace

namespace VmEpochMaterializer

open Workspace

/-- Every slot that has a token has a head. -/
structure SlotsLive (m : VmEpochMaterializer) : Prop where
  fresh : ∀ slot t, m.slots.lookup slot = some t → t < m.workspace.acceptedHeads.length
  frozen : ∀ slot t, (m.mappedBase.bind fun b => b.slotToken slot) = some t →
    t < m.workspace.acceptedHeads.length

variable {m m' : VmEpochMaterializer}

/-- **A slot's token** has a head, whatever has been interned before. -/
theorem SlotsLive.slotToken (h : m.SlotsLive) (slot : SlotId) :
    (m.slotToken slot).2.SlotsLive ∧
      (m.slotToken slot).1 < (m.slotToken slot).2.workspace.acceptedHeads.length ∧
      m.workspace.acceptedHeads.length ≤ (m.slotToken slot).2.workspace.acceptedHeads.length ∧
      (m.slotToken slot).2.workspace =
        { m.workspace with acceptedHeads := (m.slotToken slot).2.workspace.acceptedHeads } := by
  unfold VmEpochMaterializer.slotToken
  cases hl : m.slots.lookup slot with
  | some t => exact ⟨h, h.fresh slot t hl, le_rfl, rfl⟩
  | none =>
    cases hb : m.mappedBase.bind fun base => base.slotToken slot with
    | some t => exact ⟨h, h.frozen slot t hb, le_rfl, rfl⟩
    | none =>
      simp only
      set slots : Dict SlotId ℕ := m.slots.insert slot ((m.baseSlotCount + m.slots.size) % 2 ^ 32)
        with hslots
      obtain ⟨he1, -, he3⟩ := ensureSlotCount_eq m.workspace (m.baseSlotCount + slots.size)
      have hsize : slots.size = m.slots.size + 1 := Dict.size_insert_new hl _
      -- the token may have wrapped, but never beyond the heads
      have htoken : (m.baseSlotCount + m.slots.size) % 2 ^ 32 <
          (m.workspace.ensureSlotCount (m.baseSlotCount + slots.size)).acceptedHeads.length := by
        rw [he3, hsize]
        have := Nat.mod_le (m.baseSlotCount + m.slots.size) (2 ^ 32)
        omega
      have hgrow : m.workspace.acceptedHeads.length ≤
          (m.workspace.ensureSlotCount (m.baseSlotCount + slots.size)).acceptedHeads.length := by
        rw [he3]
        exact le_max_left _ _
      refine ⟨⟨?_, ?_⟩, htoken, hgrow, he1⟩
      · intro slot' t ht
        by_cases hs : slot' = slot
        · rw [hs, hslots, AList.lookup_insert] at ht
          obtain rfl := Option.some.inj ht
          exact htoken
        · rw [hslots, AList.lookup_insert_ne hs] at ht
          exact (h.fresh slot' t ht).trans_le hgrow
      · intro slot' t ht
        exact (h.frozen slot' t ht).trans_le hgrow

/-- Interning other names does not touch the slots. -/
theorem SlotsLive.congr (h : m.SlotsLive) (hs : m'.slots = m.slots)
    (hb : m'.mappedBase = m.mappedBase) (hw : m'.workspace = m.workspace) : m'.SlotsLive :=
  ⟨by rw [hs, hw]; exact h.fresh, by rw [hb, hw]; exact h.frozen⟩

theorem predicateCell_same (m : VmEpochMaterializer) (p : Predicate) :
    (m.predicateCell p).2.slots = m.slots ∧ (m.predicateCell p).2.mappedBase = m.mappedBase ∧
      (m.predicateCell p).2.workspace = m.workspace := by
  unfold predicateCell
  split
  · exact ⟨rfl, rfl, rfl⟩
  · split <;> exact ⟨rfl, rfl, rfl⟩

theorem atomCell_same (m : VmEpochMaterializer) (a : Atom) :
    (m.atomCell a).2.slots = m.slots ∧ (m.atomCell a).2.mappedBase = m.mappedBase ∧
      (m.atomCell a).2.workspace = m.workspace := by
  cases a with
  | entity e =>
    simp only [atomCell]
    split <;> exact ⟨rfl, rfl, rfl⟩
  | literal l =>
    simp only [atomCell]
    split
    · exact ⟨rfl, rfl, rfl⟩
    · split
      · exact ⟨rfl, rfl, rfl⟩
      · split <;> exact ⟨rfl, rfl, rfl⟩

/-- **One operation** compiles to an unguarded program. -/
theorem SlotsLive.compileOperation (h : m.SlotsLive) (op : Operation) :
    (m.compileOperation op).2.SlotsLive ∧
      m.workspace.acceptedHeads.length ≤
        (m.compileOperation op).2.workspace.acceptedHeads.length ∧
      (m.compileOperation op).2.workspace = { m.workspace with
        acceptedHeads := (m.compileOperation op).2.workspace.acceptedHeads } ∧
      ∀ is, (m.compileOperation op).1 = .ok is →
        Unguarded (m.compileOperation op).2.workspace.acceptedHeads.length is := by
  cases op with
  | allocateEntity e =>
    simp only [VmEpochMaterializer.compileOperation]
    split
    · exact ⟨h, le_rfl, rfl, fun is hc => (by cases hc)⟩
    · refine ⟨h, le_rfl, rfl, fun is hc => ?_⟩
      obtain rfl := Except.ok.inj hc
      exact .allocate .nil
  | forget slot =>
    obtain ⟨h₁, ht, hg, hw⟩ := h.slotToken slot
    refine ⟨h₁, hg, hw, fun is hc => ?_⟩
    obtain rfl := Except.ok.inj hc
    exact .forget ht .nil
  | define slot fact =>
    simp only [VmEpochMaterializer.compileOperation]
    obtain ⟨h₁, ht, hg, hw⟩ := h.slotToken slot
    generalize m.slotToken slot = r₁ at h₁ ht hg hw ⊢
    obtain ⟨t, m₁⟩ := r₁
    simp only at h₁ ht hg hw ⊢
    obtain ⟨hs₂, hb₂, hw₂⟩ := atomCell_same m₁ fact.subject
    generalize m₁.atomCell fact.subject = r₂ at hs₂ hb₂ hw₂ ⊢
    obtain ⟨c₂, m₂⟩ := r₂
    have h₂ := h₁.congr hs₂ hb₂ hw₂
    simp only at hw₂ h₂
    cases c₂ with
    | error e => exact ⟨h₂, by rw [hw₂]; exact hg, by rw [hw₂]; exact hw, fun is hc => (by cases hc)⟩
    | ok s =>
      simp only
      obtain ⟨hs₃, hb₃, hw₃⟩ := predicateCell_same m₂ fact.predicate
      generalize m₂.predicateCell fact.predicate = r₃ at hs₃ hb₃ hw₃ ⊢
      obtain ⟨p, m₃⟩ := r₃
      have h₃ := h₂.congr hs₃ hb₃ hw₃
      simp only at hw₃ h₃ ⊢
      obtain ⟨hs₄, hb₄, hw₄⟩ := atomCell_same m₃ fact.object
      generalize m₃.atomCell fact.object = r₄ at hs₄ hb₄ hw₄ ⊢
      obtain ⟨c₄, m₄⟩ := r₄
      have h₄ := h₃.congr hs₄ hb₄ hw₄
      simp only at hw₄ h₄
      have hall : m₄.workspace = m₁.workspace := hw₄.trans (hw₃.trans hw₂)
      cases c₄ with
      | error e =>
        exact ⟨h₄, by rw [hall]; exact hg, by rw [hall]; exact hw, fun is hc => (by cases hc)⟩
      | ok o =>
        refine ⟨h₄, by rw [hall]; exact hg, by rw [hall]; exact hw, fun is hc => ?_⟩
        obtain rfl := Except.ok.inj hc
        exact .define (by rw [hall]; exact ht) .nil

/-- **Operations** compile to an unguarded program. -/
theorem SlotsLive.compileOperations (h : m.SlotsLive) (ops : List Operation) :
    (m.compileOperations ops).2.SlotsLive ∧
      m.workspace.acceptedHeads.length ≤
        (m.compileOperations ops).2.workspace.acceptedHeads.length ∧
      (m.compileOperations ops).2.workspace = { m.workspace with
        acceptedHeads := (m.compileOperations ops).2.workspace.acceptedHeads } ∧
      ∀ is, (m.compileOperations ops).1 = .ok is →
        Unguarded (m.compileOperations ops).2.workspace.acceptedHeads.length is := by
  induction ops generalizing m with
  | nil =>
    refine ⟨h, le_rfl, rfl, fun is hc => ?_⟩
    obtain rfl := Except.ok.inj hc
    exact .nil
  | cons op ops ih =>
    obtain ⟨h₁, hg₁, hw₁, hu₁⟩ := h.compileOperation op
    unfold VmEpochMaterializer.compileOperations
    generalize m.compileOperation op = r₁ at h₁ hg₁ hw₁ hu₁ ⊢
    obtain ⟨c₁, m₁⟩ := r₁
    cases c₁ with
    | error e => exact ⟨h₁, hg₁, hw₁, fun is hc => (by cases hc)⟩
    | ok js =>
      simp only at h₁ hg₁ hw₁ hu₁ ⊢
      obtain ⟨h₂, hg₂, hw₂, hu₂⟩ := ih h₁
      generalize m₁.compileOperations ops = r₂ at h₂ hg₂ hw₂ hu₂ ⊢
      obtain ⟨c₂, m₂⟩ := r₂
      simp only at h₂ hg₂ hw₂ hu₂
      have hw : m₂.workspace = { m.workspace with acceptedHeads := m₂.workspace.acceptedHeads } := by
        rw [hw₂, hw₁]
      cases c₂ with
      | error e => exact ⟨h₂, hg₁.trans hg₂, hw, fun is hc => (by cases hc)⟩
      | ok ks =>
        refine ⟨h₂, hg₁.trans hg₂, hw, fun is hc => ?_⟩
        obtain rfl := Except.ok.inj hc
        exact ((hu₁ js rfl).mono hg₂).append (hu₂ ks rfl)

/-- **A compiled list of operations** is never rejected: it runs to its end, or an arena is
full. -/
theorem compiled_never_rejected (h : m.SlotsLive) (hs : m.workspace.stackPointer = 0)
    (hl : 3 ≤ m.workspace.stack.length) {ops : List Operation} {is : List Instruction}
    (hc : m.compileOperations ops = (.ok is, m')) (e : ExecError) (w : Workspace) :
    m'.workspace.executeInstructions 0 is ≠ .ok (.rejected e, w) := by
  obtain ⟨-, -, hw, hu⟩ := h.compileOperations ops
  rw [hc] at hw hu
  simp only at hw hu
  have hsp : m'.workspace.stackPointer = 0 := by rw [hw]; exact hs
  have hlen : 3 ≤ m'.workspace.stack.length := by rw [hw]; exact hl
  intro hx
  have hle : m'.workspace.stackPointer ≤ m'.workspace.stack.length := by omega
  obtain ⟨w₁, hrun, -⟩ := executeInstructions_run hle hx
  have hclear : ({ m'.workspace with frameBase := m'.workspace.stackPointer } : Workspace).Clear :=
    ⟨rfl, by simp only; omega⟩
  exact run_unguarded (hu is rfl) hclear rfl e hrun

end VmEpochMaterializer

end ForthDB
