import ForthDB.Queue.PublishedWorlds
import ForthDB.Vm.Acceptance

/-!
# Frames that a materializer catches up with

A materializer applies the frames that others committed. A reset replaces its workspace
and keeps its dictionaries, so that a slot it knows may have no head; the next new slot
gives all of them one.

* `Headed`: the workspace has no head, or one for every known slot.
* `applyCommitted_ok_iff`: a committed frame is applied exactly when its slots have heads
  once it is compiled and the arenas have room for it.
* `Stranded`: the workspace has no heads, and the first frame that names a slot names only
  known ones.
* `Follows.synchronizeTo_ok_iff`: **synchronizing succeeds exactly when the materializer is
  not stranded and the arenas have room**.
-/

namespace ForthDB

open Workspace

/-- The shadows of operations cost as many index deltas. -/
theorem indexCost_shadow (m : SlotStacks) (ops : List Operation) :
    indexCost (m.map fun _ => shadowFact) (ops.map Operation.shadow) = indexCost m ops := by
  induction ops generalizing m with
  | nil => rfl
  | cons op ops ih =>
    cases op with
    | allocateEntity e => exact ih m
    | define slot fact =>
      have hrest := ih (m.push slot fact)
      have hcost : pushCost (m.map fun _ => shadowFact) slot = pushCost m slot := by
        simp [pushCost]
      simp only [List.map_cons, Operation.shadow, indexCost, hcost]
      rw [← hrest, StackMap.map_push]
    | forget slot =>
      have hrest := ih (m.pop slot)
      have hcost : popCost (m.map fun _ => shadowFact) slot = popCost m slot := by
        simp only [popCost, StackMap.stack_map, ← List.map_tail, List.map_eq_nil_iff]
      simp only [List.map_cons, Operation.shadow, indexCost, hcost]
      rw [← hrest, StackMap.map_pop]

theorem recordsOf_shadow (ops : List Operation) :
    recordsOf (ops.map Operation.shadow) = recordsOf ops := by
  unfold recordsOf
  rw [List.map_map]
  refine congrArg List.sum (List.map_congr_left fun op _ => ?_)
  cases op <;> rfl

theorem Workspace.fits_shadow (w : Workspace) (a : WorldState) (ops : List Operation) :
    w.Fits a.shadow.slots (ops.map Operation.shadow) ↔ w.Fits a.slots ops := by
  unfold Workspace.Fits WorldState.shadow
  rw [recordsOf_shadow, indexCost_shadow]

/-- A program names a slot if its operations do. -/
theorem Lowers.exists_record {token : SlotId → Option ℕ} {decode : ℕ → ℕ → ℕ → Option Fact}
    {ops : List Operation} {is : List Instruction} (h : Lowers token decode ops is)
    (hops : ops.flatMap Operation.slots ≠ []) : ∃ i ∈ is, appendsRecord i = true := by
  induction h with
  | nil => exact absurd rfl hops
  | allocate e _ ih =>
    obtain ⟨i, hi, hr⟩ := ih hops
    exact ⟨i, List.mem_cons_of_mem _ hi, hr⟩
  | @define ops is slot fact t s p o _ _ _ _ => exact ⟨.define t, by simp, rfl⟩
  | @forget ops is slot t _ _ _ => exact ⟨.forget t, by simp, rfl⟩

/-- The slots of a program are those of its operations. -/
theorem Lowers.slot_of_record {token : SlotId → Option ℕ} {decode : ℕ → ℕ → ℕ → Option Fact}
    {ops : List Operation} {is : List Instruction} (h : Lowers token decode ops is) :
    ∀ i ∈ is, appendsRecord i = true →
      ∃ k ∈ ops.flatMap Operation.slots, token k = some i.argument := by
  induction h with
  | nil => exact fun i hi => (nomatch hi)
  | allocate e _ ih =>
    rintro i (_ | ⟨_, hi⟩) hr
    · cases hr
    · exact ih i hi hr
  | @define ops is slot fact t s p o hs hf hl ih =>
    intro i hi hr
    simp only [List.mem_cons] at hi
    rcases hi with rfl | rfl | rfl | rfl | hi
    · cases hr
    · cases hr
    · cases hr
    · exact ⟨slot, by simp [Operation.slots], hs⟩
    · obtain ⟨k, hk, ht⟩ := ih i hi hr
      exact ⟨k, List.mem_append_right _ hk, ht⟩
  | @forget ops is slot t hs hl ih =>
    rintro i (_ | ⟨_, hi⟩) hr
    · exact ⟨slot, by simp [Operation.slots], hs⟩
    · obtain ⟨k, hk, ht⟩ := ih i hi hr
      exact ⟨k, List.mem_append_right _ hk, ht⟩

namespace VmEpochMaterializer

variable {m m' : VmEpochMaterializer}

/-! ## Heads -/

/-- The workspace has a head for every interned slot. -/
def Covered (m : VmEpochMaterializer) : Prop := m.slots.size ≤ m.workspace.acceptedHeads.length

/-- The workspace has no head, or one for every interned slot. -/
def Headed (m : VmEpochMaterializer) : Prop := m.workspace.acceptedHeads = [] ∨ m.Covered

theorem Covered.congr (h : m.Covered) (hs : m'.slots = m.slots)
    (hw : m'.workspace.acceptedHeads.length = m.workspace.acceptedHeads.length) : m'.Covered := by
  unfold Covered
  rw [hs, hw]
  exact h

theorem Headed.congr (h : m.Headed) (hs : m'.slots = m.slots)
    (hw : m'.workspace.acceptedHeads.length = m.workspace.acceptedHeads.length) : m'.Headed := by
  rcases h with h | h
  · refine .inl (List.length_eq_zero_iff.1 ?_)
    rw [hw, h]
    rfl
  · exact .inr (h.congr hs hw)

/-- Interning slots one behind the other. -/
def internSlots (m : VmEpochMaterializer) (ks : List SlotId) : VmEpochMaterializer :=
  ks.foldl (fun m k => (m.slotToken k).2) m

/-- **A slot** keeps its token, or gets one with a head for every slot. -/
theorem slotToken_cases (m : VmEpochMaterializer) (hm : m.mappedBase = none) (k : SlotId) :
    (m.slots.lookup k ≠ none ∧ (m.slotToken k).2 = m) ∨
    (m.slots.lookup k = none ∧ (m.slotToken k).2.Covered ∧
      (m.slotToken k).2.workspace.acceptedHeads ≠ [] ∧ (m.slotToken k).2.mappedBase = none ∧
      (m.slotToken k).2.literalValues = m.literalValues ∧
      ∀ k', m.slots.lookup k' ≠ none → (m.slotToken k).2.slots.lookup k' ≠ none) := by
  unfold slotToken
  cases hl : m.slots.lookup k with
  | some t => exact .inl ⟨by simp, rfl⟩
  | none =>
    rw [hm]
    simp only [Option.bind_none]
    refine .inr ⟨trivial, ?_⟩
    set slots : Dict SlotId ℕ := m.slots.insert k ((m.baseSlotCount + m.slots.size) % 2 ^ 32)
      with hslots
    have hsize : slots.size = m.slots.size + 1 := Dict.size_insert_new hl _
    obtain ⟨-, -, hlen⟩ := ensureSlotCount_eq m.workspace (m.baseSlotCount + slots.size)
    refine ⟨?_, fun hnil => ?_, trivial, trivial, fun k' hk' => ?_⟩
    · show slots.size ≤ _
      rw [hlen]
      omega
    · rw [hnil, List.length_nil] at hlen
      omega
    · simp only [hslots]
      by_cases hkk : k' = k
      · rw [hkk, AList.lookup_insert]
        simp
      · rw [AList.lookup_insert_ne hkk]
        exact hk'

theorem Headed.slotToken (h : m.Headed) (hm : m.mappedBase = none) (k : SlotId) :
    (m.slotToken k).2.Headed := by
  rcases m.slotToken_cases hm k with ⟨-, hsame⟩ | ⟨-, hcov, -⟩
  · rw [hsame]
    exact h
  · exact .inr hcov

theorem mappedBase_slotToken (m : VmEpochMaterializer) (k : SlotId) :
    (m.slotToken k).2.mappedBase = m.mappedBase := by
  unfold VmEpochMaterializer.slotToken
  split
  · rfl
  · split <;> rfl

/-- Known slots are interned already. -/
theorem internSlots_known {ks : List SlotId} (h : ∀ k ∈ ks, m.slots.lookup k ≠ none) :
    m.internSlots ks = m := by
  induction ks with
  | nil => rfl
  | cons k ks ih =>
    rw [List.forall_mem_cons] at h
    have hsame : (m.slotToken k).2 = m := by
      unfold slotToken
      cases hl : m.slots.lookup k with
      | none => exact absurd hl h.1
      | some t => rfl
    show (m.slotToken k).2.internSlots ks = m
    rw [hsame]
    exact ih h.2

theorem internSlots_headed (h : m.Headed) (hm : m.mappedBase = none) (ks : List SlotId) :
    (m.internSlots ks).Headed := by
  induction ks generalizing m with
  | nil => exact h
  | cons k ks ih => exact ih (h.slotToken hm k) ((mappedBase_slotToken m k).trans hm)

/-- Heads that are there stay there. -/
theorem internSlots_nonempty (hm : m.mappedBase = none) (ks : List SlotId)
    (h : m.workspace.acceptedHeads ≠ []) : (m.internSlots ks).workspace.acceptedHeads ≠ [] := by
  induction ks generalizing m with
  | nil => exact h
  | cons k ks ih =>
    refine ih ((mappedBase_slotToken m k).trans hm) ?_
    show (m.slotToken k).2.workspace.acceptedHeads ≠ []
    rcases m.slotToken_cases hm k with ⟨-, hsame⟩ | ⟨-, -, hne, -⟩
    · rw [hsame]
      exact h
    · exact hne

/-- **A new slot** gives heads to all. -/
theorem internSlots_new (hm : m.mappedBase = none) {ks : List SlotId}
    (h : ∃ k ∈ ks, m.slots.lookup k = none) : (m.internSlots ks).workspace.acceptedHeads ≠ [] := by
  induction ks generalizing m with
  | nil =>
    obtain ⟨k, hk, -⟩ := h
    cases hk
  | cons k ks ih =>
    show ((m.slotToken k).2.internSlots ks).workspace.acceptedHeads ≠ []
    rcases m.slotToken_cases hm k with ⟨hknown, hsame⟩ | ⟨-, -, hne, hm', -⟩
    · rw [hsame]
      obtain ⟨k', hk', hnew⟩ := h
      rcases List.mem_cons.1 hk' with rfl | hk'
      · exact absurd hnew hknown
      · exact ih hm ⟨k', hk', hnew⟩
    · exact internSlots_nonempty hm' ks hne

/-- What an operation does to the slots. -/
theorem compileOperation_interns (m : VmEpochMaterializer) (op : Operation) :
    (m.compileOperation op).2.bare = (m.internSlots op.slots).bare := by
  cases op with
  | allocateEntity e =>
    simp only [compileOperation]
    split <;> rfl
  | forget slot => rfl
  | define slot fact =>
    simp only [compileOperation]
    show _ = (m.slotToken slot).2.bare
    generalize m.slotToken slot = r₁
    obtain ⟨t, m₁⟩ := r₁
    have hb₂ := atomCell_bare m₁ fact.subject
    generalize m₁.atomCell fact.subject = r₂ at hb₂ ⊢
    obtain ⟨c₂, m₂⟩ := r₂
    cases c₂ with
    | error e => exact hb₂
    | ok s =>
      simp only
      have hb₃ := predicateCell_bare m₂ fact.predicate
      generalize m₂.predicateCell fact.predicate = r₃ at hb₃ ⊢
      obtain ⟨p, m₃⟩ := r₃
      have hb₄ := atomCell_bare m₃ fact.object
      simp only at hb₂ hb₃ hb₄ ⊢
      generalize m₃.atomCell fact.object = r₄ at hb₄ ⊢
      obtain ⟨c₄, m₄⟩ := r₄
      have hall : m₄.bare = m₁.bare := hb₄.trans (hb₃.trans hb₂)
      cases c₄ with
      | error e => exact hall
      | ok o => exact hall

theorem of_bare_eq (hb : m'.bare = m.bare) :
    m'.slots = m.slots ∧ m'.workspace = m.workspace ∧ m'.mappedBase = m.mappedBase := by
  have hs : m'.bare.slots = m.bare.slots := by rw [hb]
  have hw : m'.bare.workspace = m.bare.workspace := by rw [hb]
  have hm : m'.bare.mappedBase = m.bare.mappedBase := by rw [hb]
  exact ⟨hs, hw, hm⟩

theorem Headed.of_bare (h : m.Headed) (hb : m'.bare = m.bare) : m'.Headed := by
  obtain ⟨hs, hw, -⟩ := of_bare_eq hb
  exact h.congr hs (by rw [hw])

theorem mappedBase_internSlots (m : VmEpochMaterializer) (ks : List SlotId) :
    (m.internSlots ks).mappedBase = m.mappedBase := by
  induction ks generalizing m with
  | nil => rfl
  | cons k ks ih => exact (ih _).trans (mappedBase_slotToken m k)

/-- **Compiling** keeps a head for every slot, whether it succeeds or not. -/
theorem compileOperations_headed (h : m.Headed) (hm : m.mappedBase = none) (ops : List Operation) :
    (m.compileOperations ops).2.Headed ∧ (m.compileOperations ops).2.mappedBase = none := by
  induction ops generalizing m with
  | nil => exact ⟨h, hm⟩
  | cons op ops ih =>
    have hb := m.compileOperation_interns op
    have h₁ : (m.compileOperation op).2.Headed := (internSlots_headed h hm op.slots).of_bare hb
    have hm₁ : (m.compileOperation op).2.mappedBase = none := by
      rw [(of_bare_eq hb).2.2, mappedBase_internSlots, hm]
    unfold compileOperations
    generalize m.compileOperation op = r at h₁ hm₁ ⊢
    obtain ⟨c, m₁⟩ := r
    cases c with
    | error e => exact ⟨h₁, hm₁⟩
    | ok is =>
      have hrest := ih h₁ hm₁
      simp only at hrest ⊢
      generalize m₁.compileOperations ops = r at hrest ⊢
      obtain ⟨c, m₂⟩ := r
      cases c with
      | error e => exact hrest
      | ok js => exact hrest

theorem internSlots_bare (m : VmEpochMaterializer) (ks : List SlotId) :
    m.bare.internSlots ks = (m.internSlots ks).bare := by
  induction ks generalizing m with
  | nil => rfl
  | cons k ks ih =>
    show (m.bare.slotToken k).2.internSlots ks = _
    rw [slotToken_bare]
    exact ih _

theorem internSlots_append (m : VmEpochMaterializer) (xs ys : List SlotId) :
    m.internSlots (xs ++ ys) = (m.internSlots xs).internSlots ys := List.foldl_append

/-- What operations that compile do to the slots. -/
theorem compileOperations_interns {ops : List Operation} {is : List Instruction}
    (h : (m.compileOperations ops).1 = .ok is) :
    (m.compileOperations ops).2.bare = (m.internSlots (ops.flatMap Operation.slots)).bare := by
  induction ops generalizing m is with
  | nil => rfl
  | cons op ops ih =>
    have hb := m.compileOperation_interns op
    unfold compileOperations at h ⊢
    generalize m.compileOperation op = r at h hb ⊢
    obtain ⟨c, m₁⟩ := r
    cases c with
    | error e => cases h
    | ok js =>
      simp only at h hb ⊢
      have hrest : ∀ ks, (m₁.compileOperations ops).1 = .ok ks →
          (m₁.compileOperations ops).2.bare = (m₁.internSlots (ops.flatMap Operation.slots)).bare :=
        fun ks hk => ih hk
      generalize m₁.compileOperations ops = r at h hrest ⊢
      obtain ⟨c, m₂⟩ := r
      cases c with
      | error e => cases h
      | ok ks =>
        simp only at hrest ⊢
        rw [hrest ks rfl, ← internSlots_bare, hb, internSlots_bare, List.flatMap_cons,
          internSlots_append]

/-! ## Cells -/

/-- There are cells for more literals. -/
def LiteralRoom (m : VmEpochMaterializer) (n : ℕ) : Prop :=
  m.baseLiteralCount + m.literalValues.length + n ≤ 2 ^ 63

theorem LiteralRoom.mono {n k : ℕ} (h : m.LiteralRoom (n + k)) (hm : m'.mappedBase = m.mappedBase)
    (hl : m'.literalValues.length ≤ m.literalValues.length + n) : m'.LiteralRoom k := by
  unfold LiteralRoom baseLiteralCount at h ⊢
  rw [hm]
  omega

theorem atomCell_succeeds {a : Atom} (ha : a.InVmRange) (hroom : m.LiteralRoom 1) :
    (∃ c, (m.atomCell a).1 = .ok c) ∧
      (m.atomCell a).2.literalValues.length ≤ m.literalValues.length + 1 := by
  cases a with
  | entity e =>
    have he : e.value < literalBase := ha
    simp [atomCell, he]
  | literal l =>
    have hcell : literalBase + (m.baseLiteralCount + m.literalValues.length) < 2 ^ 64 := by
      unfold LiteralRoom at hroom
      unfold literalBase
      omega
    simp only [atomCell]
    split
    · exact ⟨⟨_, rfl⟩, Nat.le_succ _⟩
    · split
      · exact ⟨⟨_, rfl⟩, Nat.le_succ _⟩
      · rw [if_pos hcell]
        exact ⟨⟨_, rfl⟩, by simp⟩

theorem literalValues_slotToken (m : VmEpochMaterializer) (k : SlotId) :
    (m.slotToken k).2.literalValues = m.literalValues := by
  unfold VmEpochMaterializer.slotToken
  split
  · rfl
  · split <;> rfl

theorem literalValues_predicateCell (m : VmEpochMaterializer) (p : Predicate) :
    (m.predicateCell p).2.literalValues = m.literalValues := by
  unfold VmEpochMaterializer.predicateCell
  split
  · rfl
  · split <;> rfl

/-- **An operation in range** compiles. -/
theorem compileOperation_succeeds {op : Operation} (ho : op.InVmRange) (hroom : m.LiteralRoom 2) :
    (∃ is, (m.compileOperation op).1 = .ok is) ∧
      (m.compileOperation op).2.literalValues.length ≤ m.literalValues.length + 2 := by
  cases op with
  | allocateEntity e =>
    have he : ¬ e.value ≥ literalBase := not_le.2 ho
    simp [compileOperation, he]
  | forget slot =>
    refine ⟨⟨_, rfl⟩, ?_⟩
    show (m.slotToken slot).2.literalValues.length ≤ _
    rw [literalValues_slotToken]
    exact Nat.le_add_right _ _
  | define slot fact =>
    simp only [compileOperation]
    have hl₁ := literalValues_slotToken m slot
    have hm₁ := mappedBase_slotToken m slot
    generalize m.slotToken slot = r₁ at hl₁ hm₁ ⊢
    obtain ⟨t, m₁⟩ := r₁
    simp only at hl₁ hm₁ ⊢
    have hroom₁ : m₁.LiteralRoom (1 + 1) := hroom.mono (n := 0) hm₁ (by rw [hl₁]; omega)
    obtain ⟨⟨s, hs⟩, hl₂⟩ := atomCell_succeeds ho.1 (hroom₁.mono (n := 1) (k := 1) rfl (by omega))
    have hm₂ := (atomCell_same m₁ fact.subject).2.1
    generalize m₁.atomCell fact.subject = r₂ at hs hl₂ hm₂ ⊢
    obtain ⟨c₂, m₂⟩ := r₂
    simp only at hs hl₂ hm₂
    subst hs
    simp only
    have hroom₂ : m₂.LiteralRoom 1 := hroom₁.mono hm₂ hl₂
    have hl₃ := literalValues_predicateCell m₂ fact.predicate
    have hm₃ := (predicateCell_same m₂ fact.predicate).2.1
    generalize m₂.predicateCell fact.predicate = r₃ at hl₃ hm₃ ⊢
    obtain ⟨p, m₃⟩ := r₃
    simp only at hl₃ hm₃ ⊢
    have hroom₃ : m₃.LiteralRoom 1 := hroom₂.mono (n := 0) hm₃ (by rw [hl₃]; omega)
    obtain ⟨⟨o, ho⟩, hl₄⟩ := atomCell_succeeds ho.2 hroom₃
    generalize m₃.atomCell fact.object = r₄ at ho hl₄ ⊢
    obtain ⟨c₄, m₄⟩ := r₄
    simp only at ho hl₄
    subst ho
    refine ⟨⟨_, rfl⟩, ?_⟩
    simp only
    rw [hl₃] at hl₄
    rw [hl₁] at hl₂
    omega

/-- **Operations in range** compile. -/
theorem compileOperations_succeeds {ops : List Operation} (ho : ∀ op ∈ ops, op.InVmRange) {n : ℕ}
    (hroom : m.LiteralRoom (2 * ops.length + n)) :
    (∃ is, (m.compileOperations ops).1 = .ok is) ∧ (m.compileOperations ops).2.LiteralRoom n := by
  induction ops generalizing m with
  | nil =>
    refine ⟨⟨[], rfl⟩, ?_⟩
    show m.LiteralRoom n
    simpa using hroom
  | cons op ops ih =>
    rw [List.forall_mem_cons] at ho
    have hsplit : m.LiteralRoom (2 + (2 * ops.length + n)) := by
      have hsum : 2 + (2 * ops.length + n) = 2 * (op :: ops).length + n := by
        rw [List.length_cons]
        omega
      rw [hsum]
      exact hroom
    have htwo : m.LiteralRoom 2 := by
      unfold LiteralRoom at hsplit ⊢
      omega
    obtain ⟨⟨is, his⟩, hl⟩ := compileOperation_succeeds ho.1 htwo
    have hm : (m.compileOperation op).2.mappedBase = m.mappedBase := by
      rw [(of_bare_eq (m.compileOperation_interns op)).2.2, mappedBase_internSlots]
    unfold compileOperations
    generalize m.compileOperation op = r at his hl hm ⊢
    obtain ⟨c, m₁⟩ := r
    simp only at his hl hm
    subst his
    simp only
    obtain ⟨⟨js, hjs⟩, hrest⟩ := ih ho.2 (hsplit.mono hm hl)
    generalize m₁.compileOperations ops = r at hjs hrest ⊢
    obtain ⟨c, m₂⟩ := r
    simp only at hjs hrest
    subst hjs
    exact ⟨⟨_, rfl⟩, hrest⟩

/-! ## Frames -/

variable {names : List SlotId} {U : Finset SlotId} {a b : WorldState} {ops : List Operation}

/-- What applying committed operations leaves. -/
structure Committed (m m' : VmEpochMaterializer) (a : WorldState) (ops : List Operation) : Prop where
  slots : m'.slots = (m.internSlots (ops.flatMap Operation.slots)).slots
  heads : m'.workspace.acceptedHeads.length =
    (m.internSlots (ops.flatMap Operation.slots)).workspace.acceptedHeads.length
  records : m'.workspace.records.length = m.workspace.records.length + recordsOf ops
  indexDeltas : m'.workspace.indexDeltas.length = m.workspace.indexDeltas.length + indexCost a.slots ops

/-- A program whose slots have heads is applied exactly when it fits. -/
theorem Shaped.apply_live (h : m.Shaped .none names a) (hb : a.applyAll ops = some b)
    {is : List Instruction} (hl : Lowers (token .none m) shadowDecode (ops.map Operation.shadow) is)
    (hlive : ∀ i ∈ is, appendsRecord i = true → i.argument < m.workspace.acceptedHeads.length) :
    (m.workspace.Fits a.slots ops ∧ ∃ w, m.workspace.executeInstructions 0 is = .ok (.accepted, w) ∧
      w.records.length = m.workspace.records.length + recordsOf ops ∧
      w.indexDeltas.length = m.workspace.indexDeltas.length + indexCost a.slots ops ∧
      w.acceptedHeads.length = m.workspace.acceptedHeads.length) ∨
    (¬ m.workspace.Fits a.slots ops ∧ ∃ message,
      m.workspace.executeInstructions 0 is = .error message) := by
  have hlow := hl.live hlive
  have hrec := recordsOf_shadow ops
  have hidx : indexCost a.shadow.slots (ops.map Operation.shadow) = indexCost a.slots ops :=
    indexCost_shadow a.slots ops
  rcases execute_lowered hlow h.rest (WorldState.applyAll_shadow hb) with
    ⟨hfit, w, hw, -, hr, hi, hheads⟩ | ⟨hfit, hpanic⟩
  · rw [hrec] at hr
    rw [hidx] at hi
    exact .inl ⟨(Workspace.fits_shadow _ a ops).1 hfit, w, hw, hr, hi, hheads⟩
  · exact .inr ⟨fun hf => hfit ((Workspace.fits_shadow _ a ops).2 hf), hpanic⟩

/-- The slots of a program have heads, when every interned slot has one. -/
theorem Shaped.live (h : m.Shaped .none names a) (hcov : m.Covered) {is : List Instruction}
    (hl : Lowers (token .none m) shadowDecode (ops.map Operation.shadow) is) :
    ∀ i ∈ is, appendsRecord i = true → i.argument < m.workspace.acceptedHeads.length := by
  intro i hi hr
  obtain ⟨k, -, ht⟩ := hl.slot_of_record i hi hr
  have hlt : i.argument < 0 + FrozenNames.none.slots.count + names.length :=
    Vocabulary.token_lt h.slots.slots ht
  have hsize : m.slots.size = names.length := h.slots.slots_size
  have hcount : FrozenNames.none.slots.count = 0 := rfl
  unfold Covered at hcov
  omega

/-- A program that names a slot is not accepted on a workspace without heads. -/
theorem not_accepted (hstack : m.workspace.stackPointer ≤ m.workspace.stack.length)
    (hnil : m.workspace.acceptedHeads = []) {is : List Instruction}
    (hi : ∃ i ∈ is, appendsRecord i = true) (w : Workspace) :
    m.workspace.executeInstructions 0 is ≠ .ok (.accepted, w) := by
  intro hw
  obtain ⟨i, hi, hr⟩ := hi
  obtain ⟨w₁, hrun, -⟩ := executeInstructions_run hstack hw
  have hlt := (run_live hrun).2 i hi hr
  rw [show ({ m.workspace with frameBase := m.workspace.stackPointer } : Workspace).acceptedHeads =
    [] from hnil] at hlt
  exact absurd hlt (Nat.not_lt_zero _)

theorem slots_shadow (ops : List Operation) :
    (ops.map Operation.shadow).flatMap Operation.slots = ops.flatMap Operation.slots := by
  rw [List.flatMap_map]
  refine List.flatMap_congr fun op _ => ?_
  cases op <;> rfl

/-- **Committed operations** are applied exactly when their slots have heads once they are
compiled, and the arenas have room. -/
theorem applyCommitted_ok_iff (h : m.Shaped .none names a) (hm : m.mappedBase = none)
    (hheaded : m.Headed) (hU : ∀ k ∈ names, k ∈ U) (hbase : Supply .none U)
    (hb : a.applyAll ops = some b) (hops : ∀ op ∈ ops, ∀ k ∈ op.slots, k ∈ U)
    (hrange : ∀ op ∈ ops, op.InVmRange) {n : ℕ} (hroom : m.LiteralRoom (2 * ops.length + n)) :
    ((∃ m', m.applyCommitted ops = .ok m') ↔
      (ops.flatMap Operation.slots ≠ [] →
        (m.internSlots (ops.flatMap Operation.slots)).workspace.acceptedHeads ≠ []) ∧
      m.workspace.Fits a.slots ops) ∧
    ∀ m', m.applyCommitted ops = .ok m' → Committed m m' a ops ∧ m'.mappedBase = none ∧
      m'.LiteralRoom n := by
  obtain ⟨⟨is, his⟩, hroom₁⟩ := compileOperations_succeeds hrange hroom
  obtain ⟨names', hd, he, hl, -⟩ := compileOperations_shape h.slots hbase hU hops
  have hinterns := compileOperations_interns his
  have hlow := hl is his
  have hheaded₁ := internSlots_headed hheaded hm (ops.flatMap Operation.slots)
  have hmapped := (mappedBase_internSlots m (ops.flatMap Operation.slots)).trans hm
  unfold applyCommitted
  generalize m.compileOperations ops = r at his hroom₁ hd he hinterns hlow ⊢
  obtain ⟨c, m₁⟩ := r
  simp only at his hroom₁ hd he hinterns hlow
  subst his
  simp only
  obtain ⟨hslots, hwork, hbase₁⟩ := of_bare_eq hinterns
  have h₁ := h.extend hd he
  have hw₁ : m₁.workspace = { m.workspace with acceptedHeads := m₁.workspace.acceptedHeads } :=
    he.workspace
  have hfits : m₁.workspace.Fits a.slots ops ↔ m.workspace.Fits a.slots ops := by
    unfold Workspace.Fits
    rw [hw₁]
  generalize hks : ops.flatMap Operation.slots = ks at hslots hwork hheaded₁ hmapped ⊢
  by_cases hdead : ks ≠ [] ∧ (m.internSlots ks).workspace.acceptedHeads = []
  · -- the program names a slot, and the workspace has no head
    have hnil : m₁.workspace.acceptedHeads = [] := by
      rw [hwork]
      exact hdead.2
    have hnamed : ∃ i ∈ is, appendsRecord i = true := hlow.exists_record (by
      rw [slots_shadow, hks]
      exact hdead.1)
    have hnot := not_accepted h₁.stack_le hnil hnamed
    refine ⟨iff_of_false ?_ fun hc => hc.1 hdead.1 hdead.2, ?_⟩
    · rintro ⟨m', hm'⟩
      split at hm'
      · cases hm'
      · rename_i w hw
        exact hnot w hw
      · cases hm'
    · intro m' hm'
      split at hm'
      · cases hm'
      · rename_i w hw
        exact absurd hw (hnot w)
      · cases hm'
  · have hheads : ks ≠ [] → (m.internSlots ks).workspace.acceptedHeads ≠ [] := fun hne hnil =>
      hdead ⟨hne, hnil⟩
    have hlive : ∀ i ∈ is, appendsRecord i = true →
        i.argument < m₁.workspace.acceptedHeads.length := by
      intro i hi hr
      obtain ⟨k, hk, -⟩ := hlow.slot_of_record i hi hr
      rw [slots_shadow, hks] at hk
      have hne : ks ≠ [] := fun hnil => by rw [hnil] at hk; cases hk
      have hcov : (m.internSlots ks).Covered := hheaded₁.resolve_left (hheads hne)
      exact h₁.live (hcov.congr hslots (by rw [hwork])) hlow i hi hr
    rcases h₁.apply_live hb hlow hlive with ⟨hfit, w, hw, hrec, hidx, hlen⟩ | ⟨hfit, message, hw⟩
    · rw [hw]
      refine ⟨iff_of_true ⟨_, rfl⟩ ⟨hheads, hfits.1 hfit⟩, ?_⟩
      rintro m' hm'
      cases hm'
      refine ⟨⟨by rw [hks]; exact hslots, ?_, ?_, ?_⟩, hbase₁.trans (by rw [hks]; exact hmapped),
        hroom₁⟩
      · rw [hks, ← hwork]
        exact hlen
      · rw [show m.workspace.records = m₁.workspace.records by rw [hw₁]]
        exact hrec
      · rw [show m.workspace.indexDeltas = m₁.workspace.indexDeltas by rw [hw₁]]
        exact hidx
    · rw [hw]
      refine ⟨iff_of_false ?_ fun hc => hfit (hfits.2 hc.2), ?_⟩
      · rintro ⟨m', hm'⟩
        cases hm'
      · rintro m' hm'
        cases hm'

/-! ## Synchronizing -/

/-- The slots that a frame names. -/
def namedSlots (f : CommitFrame) : List SlotId := f.operations.flatMap Operation.slots

/-- The first of the frames that names a slot names only known ones. -/
def OnlyKnown (slots : Dict SlotId ℕ) : List CommitFrame → Prop
  | [] => False
  | f :: fs =>
    if namedSlots f = [] then OnlyKnown slots fs else ∀ k ∈ namedSlots f, slots.lookup k ≠ none

/-- What a frame that was applied leaves for those behind it. -/
theorem Committed.onlyKnown {f : CommitFrame} {fs : List CommitFrame}
    (h : Committed m m' a f.operations)
    (hlive : namedSlots f ≠ [] → (m.internSlots (namedSlots f)).workspace.acceptedHeads ≠ []) :
    (m'.workspace.acceptedHeads = [] ∧ OnlyKnown m'.slots fs) ↔
      (m.workspace.acceptedHeads = [] ∧ OnlyKnown m.slots (f :: fs)) := by
  have hlen : m'.workspace.acceptedHeads = [] ↔
      (m.internSlots (namedSlots f)).workspace.acceptedHeads = [] := by
    rw [← List.length_eq_zero_iff, ← List.length_eq_zero_iff]
    exact Eq.congr_left h.heads
  by_cases hnone : namedSlots f = []
  · have hslots : m'.slots = m.slots := by
      rw [h.slots]
      exact congrArg (fun ks => (m.internSlots ks).slots) hnone
    rw [hlen, hslots, OnlyKnown, if_pos hnone, hnone]
    rfl
  · -- the slots that it named have heads now; had it known them all, they would not
    refine iff_of_false (fun hc => hlive hnone (hlen.1 hc.1)) fun hc => ?_
    rw [OnlyKnown, if_neg hnone] at hc
    refine hlive hnone ?_
    rw [internSlots_known hc.2]
    exact hc.1

/-- A frame that cannot be applied for want of heads. -/
theorem onlyKnown_of_dead {f : CommitFrame} {fs : List CommitFrame} (hm : m.mappedBase = none)
    (hdead : ¬ (namedSlots f ≠ [] →
      (m.internSlots (namedSlots f)).workspace.acceptedHeads ≠ [])) :
    m.workspace.acceptedHeads = [] ∧ OnlyKnown m.slots (f :: fs) := by
  rw [Classical.not_imp, not_not] at hdead
  obtain ⟨hne, hnil⟩ := hdead
  refine ⟨?_, ?_⟩
  · by_contra hheads
    exact internSlots_nonempty hm _ hheads hnil
  · rw [OnlyKnown, if_neg hne]
    exact fun k hk hnew => internSlots_new hm ⟨k, hk, hnew⟩ hnil

/-- **Frames that are synchronized**: all of them are applied exactly when the workspace has heads
or gets some in time, and the arenas have room. -/
theorem synchronizeFrames_ok_iff (xs : List CommitFrame) {gs : List CommitFrame} {c : WorldState}
    (hn : Numbered (xs ++ gs)) (ha : WorldState.genesis.applyAll (operationsOf (xs ++ gs)) = some a)
    (hslots : ∀ op ∈ operationsOf (xs ++ gs), ∀ k ∈ op.slots, k ∈ U) (hle : xs.length ≤ m.version)
    (hv : m.version ≤ (xs ++ gs).length)
    (hc : WorldState.genesis.applyAll (operationsOf ((xs ++ gs).take m.version)) = some c)
    (h : m.Shaped .none names c) (hm : m.mappedBase = none) (hheaded : m.Headed)
    (hU : ∀ k ∈ names, k ∈ U) (hbase : Supply .none U)
    (hrange : ∀ op ∈ operationsOf ((xs ++ gs).drop m.version), op.InVmRange)
    (hroom : m.LiteralRoom (2 * (operationsOf ((xs ++ gs).drop m.version)).length)) :
    (∃ m', m.synchronizeFrames gs = .ok m') ↔
      ¬ (m.workspace.acceptedHeads = [] ∧ OnlyKnown m.slots ((xs ++ gs).drop m.version)) ∧
      m.workspace.Fits c.slots (operationsOf ((xs ++ gs).drop m.version)) := by
  induction gs generalizing m names c xs with
  | nil =>
    have hdrop : (xs ++ []).drop m.version = [] := by
      rw [List.append_nil]
      exact List.drop_of_length_le hle
    rw [hdrop]
    refine iff_of_true ⟨m, rfl⟩ ⟨fun hs => hs.2, ?_, ?_⟩
    · exact h.rest.trial.records_le
    · exact h.rest.trial.indexes_le
  | cons g gs ih =>
    have happ : xs ++ g :: gs = (xs ++ [g]) ++ gs := by simp
    have hlen : (xs ++ [g]).length = xs.length + 1 := by simp
    have hg := hn.parentVersion_eq
    simp only [synchronizeFrames, synchronizeFrame, hg]
    by_cases hnew : xs.length + 1 > m.version
    · -- the next frame is new: the materializer is exactly behind `xs`
      have hver : m.version = xs.length := by omega
      have hdrop : (xs ++ g :: gs).drop m.version = g :: gs := by rw [hver, List.drop_left]
      have hrest : ((xs ++ [g]) ++ gs).drop (xs.length + 1) = gs := by rw [← hlen, List.drop_left]
      rw [hdrop] at hrange hroom ⊢
      rw [hver, List.take_left] at hc
      obtain ⟨b, hb⟩ : ∃ b, c.applyAll g.operations = some b := by
        rw [operationsOf, List.flatMap_append, WorldState.applyAll_append, hc, Option.bind_some,
          List.flatMap_cons, WorldState.applyAll_append] at ha
        cases hb : c.applyAll g.operations with
        | none => rw [hb] at ha; cases ha
        | some b => exact ⟨b, rfl⟩
      have hgops : ∀ op ∈ g.operations, ∀ k ∈ op.slots, k ∈ U := fun op hop =>
        hslots op (List.mem_flatMap.2 ⟨g, by simp, hop⟩)
      have hops : operationsOf (g :: gs) = g.operations ++ operationsOf gs := List.flatMap_cons
      have hsplit : m.LiteralRoom (2 * g.operations.length + 2 * (operationsOf gs).length) := by
        rw [hops, List.length_append, Nat.mul_add] at hroom
        exact hroom
      rw [hops, List.forall_mem_append] at hrange
      rw [if_pos hnew, hops]
      obtain ⟨hiff, hok⟩ := applyCommitted_ok_iff h hm hheaded hU hbase hb hgops hrange.1 hsplit
      cases hcommit : m.applyCommitted g.operations with
      | error halt =>
        refine iff_of_false ?_ fun hc => ?_
        · rintro ⟨m', hm'⟩
          cases hm'
        · refine hc.1 (onlyKnown_of_dead hm fun hlive => ?_)
          obtain ⟨m', hm'⟩ := hiff.2 ⟨hlive, hc.2.left⟩
          cases hcommit.symm.trans hm'
      | ok m₂ =>
        obtain ⟨hcom, hm₂, hroom₂⟩ := hok m₂ hcommit
        have hlive := (hiff.1 ⟨m₂, hcommit⟩).1
        obtain ⟨names₂, h₂, hU₂⟩ := applyCommitted_shape h hU hbase hb hgops hcommit
        have hheaded₂ : m₂.Headed :=
          (internSlots_headed hheaded hm (namedSlots g)).congr hcom.slots hcom.heads
        have hfits : m.workspace.Fits c.slots (g.operations ++ operationsOf gs) ↔
            m₂.workspace.Fits b.slots (operationsOf gs) :=
          fits_append hb hcom.records hcom.indexDeltas
        have hb' : WorldState.genesis.applyAll
            (operationsOf (((xs ++ [g]) ++ gs).take (xs.length + 1))) = some b := by
          rw [List.take_left' hlen, operationsOf, List.flatMap_append, WorldState.applyAll_append,
            hc, Option.bind_some, List.flatMap_singleton]
          exact hb
        rw [happ] at hn ha hslots
        have hnext := ih (m := { m₂ with version := xs.length + 1 }) (xs ++ [g]) hn ha hslots
          (by simp) (by simp) hb' (h₂.withVersion _) hm₂ (hheaded₂.congr rfl rfl) hU₂
          (by rw [hrest]; exact hrange.2) (by rw [hrest]; exact hroom₂)
        rw [hrest] at hnext
        rw [hfits, ← hcom.onlyKnown hlive]
        exact hnext
    · -- the frame was applied before
      rw [if_neg hnew]
      rw [happ] at hn ha hslots hv hc hrange hroom ⊢
      exact ih (xs ++ [g]) hn ha hslots (by omega) hv hc h hm hheaded hU hrange hroom

/-- Whether synchronizing to a world starts with a new workspace. -/
def Resets (m : VmEpochMaterializer) (w : World) : Prop := m.version = 0 ∧ w.version > 0

instance (w : World) : Decidable (m.Resets w) := inferInstanceAs (Decidable (_ ∧ _))

/-- The workspace that the frames are applied to. -/
def syncWorkspace (m : VmEpochMaterializer) (w : World) : Workspace :=
  if m.Resets w then .withIndexesFrom 1 0 32 else m.workspace

/-- The workspace has no heads, and the first of the frames behind the materializer that names a
slot names only slots that the materializer knows. -/
def Stranded (m : VmEpochMaterializer) (w : World) : Prop :=
  (m.syncWorkspace w).acceptedHeads = [] ∧
    ∃ fs, w.frames = .ok fs ∧ OnlyKnown m.slots (fs.drop m.version)

/-- The arenas have room for the frames behind the materializer. -/
def ArenasFit (m : VmEpochMaterializer) (w : World) : Prop :=
  ∃ fs, w.frames = .ok fs ∧
    (m.syncWorkspace w).Fits ((operationsOf (fs.take m.version)).foldl SlotStacks.perform .empty)
      (operationsOf (fs.drop m.version))

variable {w : World} {fs : List CommitFrame}

/-- **Synchronizing** succeeds exactly when the materializer is not stranded and the arenas have
room. -/
theorem Follows.synchronizeTo_ok_iff (h : Follows .none m fs) (hm : m.mappedBase = none)
    (hheaded : m.Headed) (hw : w.Replays fs a) (hv : w.version = fs.length) (hn : Numbered fs)
    (hslots : ∀ op ∈ operationsOf fs, ∀ k ∈ op.slots, k ∈ U)
    (hknown : ∀ k, m.slots.lookup k ≠ none → k ∈ U) (hbase : Supply .none U)
    (hrange : ∀ op ∈ operationsOf (fs.drop m.version), op.InVmRange)
    (hroom : m.LiteralRoom (2 * (operationsOf (fs.drop m.version)).length)) :
    (∃ m', m.synchronizeTo w = .ok m') ↔ ¬ m.Stranded w ∧ m.ArenasFit w := by
  obtain ⟨hle, names, hd, hs⟩ := h
  have ha := hw.chained.applyAll
  have hU : ∀ k ∈ names, k ∈ U := fun k hk => hknown k fun hnone =>
    hd.slots.not_mem_of_none hnone hk
  have hstranded : m.Stranded w ↔
      (m.syncWorkspace w).acceptedHeads = [] ∧ OnlyKnown m.slots (fs.drop m.version) := by
    unfold Stranded
    rw [hw.frames]
    simp
  have hfit : m.ArenasFit w ↔ (m.syncWorkspace w).Fits
      ((operationsOf (fs.take m.version)).foldl SlotStacks.perform .empty)
      (operationsOf (fs.drop m.version)) := by
    unfold ArenasFit
    rw [hw.frames]
    simp
  rw [hstranded, hfit]
  unfold synchronizeTo
  rw [hw.frames, if_neg (by omega)]
  by_cases heq : m.version = w.version
  · -- nothing to apply
    have hdrop : fs.drop m.version = [] := List.drop_of_length_le (by omega)
    have hkeeps : ¬ m.Resets w := fun hr => by
      have h0 := hr.1
      have hpos := hr.2
      omega
    rw [if_pos heq, hdrop]
    obtain ⟨hzero, hne⟩ | ⟨c, hc, hshape⟩ := hs
    · have hpos := List.length_pos_of_ne_nil hne
      omega
    · refine iff_of_true ⟨m, rfl⟩ ⟨fun hc => hc.2, ?_⟩
      unfold syncWorkspace
      rw [if_neg hkeeps]
      exact ⟨hshape.rest.trial.records_le, hshape.rest.trial.indexes_le⟩
  rw [if_neg heq]
  simp only
  by_cases hreset : m.Resets w
  · have hzero : m.version = 0 := hreset.1
    have hwork : m.syncWorkspace w = .withIndexesFrom 1 0 32 := by
      unfold syncWorkspace
      rw [if_pos hreset]
    have hmat : (if m.version = 0 ∧ w.version > 0 then
        { m with workspace := Workspace.withIndexesFrom 1 0 32 } else m) =
        { m with workspace := Workspace.withIndexesFrom 1 0 32 } := if_pos hreset
    have hempty : (operationsOf (fs.take m.version)).foldl SlotStacks.perform .empty =
        WorldState.genesis.slots := by
      rw [hzero]
      rfl
    rw [hwork, hmat, hempty]
    exact synchronizeFrames_ok_iff [] hn ha hslots (Nat.zero_le _) hle
      (by simp only [hzero]; rfl) (hd.shaped 1) hm (.inl rfl) hU hbase hrange hroom
  · obtain ⟨hzero, hne⟩ | ⟨c, hc, hshape⟩ := hs
    · refine absurd ⟨hzero, ?_⟩ hreset
      rw [hv]
      exact List.length_pos_of_ne_nil hne
    have hwork : m.syncWorkspace w = m.workspace := by
      unfold syncWorkspace
      rw [if_neg hreset]
    have hmat : (if m.version = 0 ∧ w.version > 0 then
        { m with workspace := Workspace.withIndexesFrom 1 0 32 } else m) = m := if_neg hreset
    have hstate : (operationsOf (fs.take m.version)).foldl SlotStacks.perform .empty = c.slots :=
      (WorldState.applyAll_slots hc).symm
    rw [hwork, hmat, hstate]
    exact synchronizeFrames_ok_iff [] hn ha hslots (Nat.zero_le _) hle hc hshape hm hheaded hU hbase
      hrange hroom

end VmEpochMaterializer

end ForthDB
