import ForthDB.Queue.StreamCodec

/-!
# What lifting returns

Whatever frame is lifted, the intent that comes back has only temporaries of its own and
entity ids below the literal cells (`fromStreamFrame_liftable`). So an intent that survives
lowering is one that `QueuedIntent.Liftable` describes.
-/

namespace ForthDB

open Decode

namespace Isa

/-- A decoded instruction's argument is a `u32`. -/
theorem argument_lt {inst : Instruction} {c c' : Cursor}
    (h : readInstruction c = .ok (inst, c')) : inst.argument < 2 ^ 32 := by
  obtain ⟨byte, c₁, -, h⟩ := bind_ok h
  obtain ⟨argument, c₂, harg, h⟩ := bind_ok h
  obtain ⟨immediate, c₃, -, h⟩ := bind_ok h
  obtain ⟨opcode, c₄, -, h⟩ := bind_ok h
  cases h
  exact number_lt harg

theorem arguments_lt {frame : InstructionStreamFrame} {c c' : Cursor}
    (h : readFrame c = .ok (frame, c')) :
    ∀ inst ∈ frame.instructions, inst.argument < 2 ^ 32 := by
  obtain ⟨_, c₁, -, h⟩ := bind_ok h
  obtain ⟨version, c₂, -, h⟩ := bind_ok h
  obtain ⟨space, c₃, -, h⟩ := bind_ok h
  obtain ⟨slots, c₄, -, h⟩ := bind_ok h
  obtain ⟨predicates, c₅, -, h⟩ := bind_ok h
  obtain ⟨literals, c₆, -, h⟩ := bind_ok h
  obtain ⟨localCount, c₇, -, h⟩ := bind_ok h
  obtain ⟨instructions, c₈, hinsts, h⟩ := bind_ok h
  cases h
  obtain ⟨count, c₉, -, htimes⟩ := bind_ok hinsts
  intro inst hi
  obtain ⟨d, d', hd⟩ := mem_of_times htimes inst hi
  exact argument_lt hd

end Isa

namespace StreamDictionary

variable {d : StreamDictionary}

/-- A stack value that lifting in a namespace can leave. -/
def StackVal.Lifted (space : ℕ) : StackVal → Prop
  | .atom a => a.Liftable space
  | .cellVal _ => True

theorem liftAtom_liftable {v : StackVal} {space : ℕ} (h : StackVal.Lifted space v) :
    (d.liftAtom v).Liftable space := by
  cases v with
  | atom a => exact h
  | cellVal c =>
    unfold liftAtom
    simp only
    split
    · assumption
    · split <;> trivial

theorem liftExpectedAtom_inVmRange {v : StackVal} {space : ℕ} (h : StackVal.Lifted space v) :
    (d.liftExpectedAtom v).InVmRange := by
  have hv := liftAtom_liftable (d := d) h
  unfold liftExpectedAtom
  split
  · rename_i e he
    rw [he] at hv
    exact hv
  · trivial
  · exact (by decide : (0 : ℕ) < literalBase)

/-- The intent so far is liftable, and so is what lies on the stack. -/
def Lifted (space : ℕ) (s : QueuedIntent × List StackVal) : Prop :=
  s.1.space = space ∧ s.1.Liftable ∧ ∀ v ∈ s.2, StackVal.Lifted space v

theorem liftable_snoc_operation {i : QueuedIntent} (h : i.Liftable) (op : IntentOperation)
    (hop : op.Liftable i.space) {n : ℕ} :
    QueuedIntent.Liftable { i with nextTemporary := n, operations := i.operations ++ [op] } := by
  refine ⟨h.preconditions, fun o ho => ?_⟩
  rcases List.mem_append.1 ho with ho | ho
  · exact h.operations o ho
  · rw [List.mem_singleton.1 ho]
    exact hop

theorem liftable_snoc_precondition {i : QueuedIntent} (h : i.Liftable) (p : IntentPrecondition)
    (hp : p.Liftable) :
    QueuedIntent.Liftable { i with preconditions := i.preconditions ++ [p] } := by
  refine ⟨fun q hq => ?_, h.operations⟩
  rcases List.mem_append.1 hq with hq | hq
  · exact h.preconditions q hq
  · rw [List.mem_singleton.1 hq]
    exact hp

/-- **One instruction** keeps what was lifted liftable. -/
theorem liftInstruction_lifted {space : ℕ} {s s' : QueuedIntent × List StackVal}
    {inst : Instruction} (hs : Lifted space s) (harg : inst.argument < 2 ^ 32)
    (h : d.liftInstruction s inst = .ok s') : Lifted space s' := by
  obtain ⟨i, stack⟩ := s
  obtain ⟨hspace, hi, hstack⟩ := hs
  simp only at hspace hi hstack
  unfold liftInstruction at h
  split at h
  -- allocations append an operation of the intent's own
  · cases h
    exact ⟨hspace, liftable_snoc_operation hi (.allocateEntity _) trivial, hstack⟩
  · cases h
    exact ⟨hspace, liftable_snoc_operation hi (.allocateEntity _) trivial, hstack⟩
  · cases h
    exact ⟨hspace, hi, List.forall_mem_cons.2 ⟨trivial, hstack⟩⟩
  · cases h
    exact ⟨hspace, hi, List.forall_mem_cons.2 ⟨⟨hspace, harg⟩, hstack⟩⟩
  · -- define
    split at h
    · rename_i object predicate subject rest heq
      simp only at heq
      simp only [heq, List.forall_mem_cons] at hstack
      obtain ⟨hobject, -, hsubject, hrest⟩ := hstack
      cases hslot : d.slotOf inst.argument with
      | error e => rw [hslot] at h; cases h
      | ok slot =>
        rw [hslot] at h
        cases h
        rw [← hspace] at hobject hsubject
        exact ⟨hspace, liftable_snoc_operation hi (.define slot _)
          ⟨liftAtom_liftable hsubject, liftAtom_liftable hobject⟩, hrest⟩
    · cases h
      exact ⟨hspace, hi, hstack⟩
  · -- forget
    cases hslot : d.slotOf inst.argument with
    | error e => rw [hslot] at h; cases h
    | ok slot =>
      rw [hslot] at h
      cases h
      exact ⟨hspace, liftable_snoc_operation hi (.forget slot) trivial, hstack⟩
  · -- expectations
    split at h
    · cases h
      exact ⟨hspace, liftable_snoc_precondition hi (.expectedWorld _) trivial, hstack⟩
    · cases hslot : d.slotOf inst.argument with
      | error e => rw [hslot] at h; cases h
      | ok slot =>
        rw [hslot] at h
        simp only [bind, Except.bind] at h
        split at h
        · cases h
          exact ⟨hspace, liftable_snoc_precondition hi (.expectedSlot slot none) trivial, hstack⟩
        · split at h
          · rename_i object predicate subject rest
            simp only [List.forall_mem_cons] at hstack
            obtain ⟨hobject, -, hsubject, hrest⟩ := hstack
            cases h
            exact ⟨hspace, liftable_snoc_precondition hi (.expectedSlot slot (some _))
              ⟨liftExpectedAtom_inVmRange hsubject, liftExpectedAtom_inVmRange hobject⟩, hrest⟩
          · cases h
            exact ⟨hspace, hi, hstack⟩
  · cases h
    exact ⟨hspace, hi, hstack⟩
  · cases h
    exact ⟨hspace, hi, hstack⟩

theorem liftAll_lifted {space : ℕ} {s s' : QueuedIntent × List StackVal}
    {insts : List Instruction} (hs : Lifted space s) (harg : ∀ inst ∈ insts, inst.argument < 2 ^ 32)
    (h : d.liftAll s insts = .ok s') : Lifted space s' := by
  induction insts generalizing s with
  | nil => cases h; exact hs
  | cons inst insts ih =>
    rw [List.forall_mem_cons] at harg
    unfold liftAll at h
    cases hone : d.liftInstruction s inst with
    | error e => rw [hone] at h; cases h
    | ok t =>
      rw [hone] at h
      exact ih (liftInstruction_lifted hs harg.1 hone) harg.2 h

end StreamDictionary

/-- **Whatever is lifted is liftable.** -/
theorem fromStreamFrame_liftable {frame : InstructionStreamFrame} {i : QueuedIntent}
    (harg : ∀ inst ∈ frame.instructions, inst.argument < 2 ^ 32)
    (h : fromStreamFrame frame = .ok i) : i.Liftable := by
  unfold fromStreamFrame at h
  cases hall : frame.dictionary.liftAll (.new frame.space, []) frame.instructions with
  | error e => rw [hall] at h; cases h
  | ok s =>
    rw [hall] at h
    cases h
    have hnew : StreamDictionary.Lifted frame.space (QueuedIntent.new frame.space, []) := by
      refine ⟨rfl, ⟨?_, ?_⟩, ?_⟩ <;> intro x hx <;> cases hx
    exact (StreamDictionary.liftAll_lifted hnew harg hall).2.1

end ForthDB
