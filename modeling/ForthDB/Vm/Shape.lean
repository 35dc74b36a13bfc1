import ForthDB.Vm.Simulation
import ForthDB.Vm.TrialSimulation

/-!
# The shape of a materializer's workspace

How many records there are, how deep each slot's stack is and what the allocator says does
not depend on the facts. Here every fact is replaced by one shadow, so that the numbers of
predicates and literals play no part.

* `WorldState.shadow`: the state with shadows for facts; `applyAll_shadow`: operations act
  on shadows as on facts.
* `m.Shaped base names a`: the workspace of `m` has the shape of the state `a`, whatever its
  predicates and literals.
* `Shaped.execute`, `Shaped.reject`: an accepted program keeps it for the successor state, a
  rejected one for the same.
* `compileOperations_shape`: operations compile to their shadows.
-/

namespace ForthDB

open Workspace

/-- The fact that stands in for every fact. -/
def shadowFact : Fact := ⟨.entity ⟨0⟩, ⟨""⟩, .entity ⟨0⟩⟩

/-- Every three cells read as the shadow. -/
def shadowDecode : ℕ → ℕ → ℕ → Option Fact := fun _ _ _ => some shadowFact

def Operation.shadow : Operation → Operation
  | .define slot _ => .define slot shadowFact
  | .allocateEntity e => .allocateEntity e
  | .forget slot => .forget slot

/-- The state with shadows for facts. -/
def WorldState.shadow (a : WorldState) : WorldState :=
  { a with slots := a.slots.map fun _ => shadowFact }

theorem WorldState.apply_shadow {a b : WorldState} {op : Operation} (h : a.apply op = some b) :
    a.shadow.apply op.shadow = some b.shadow := by
  cases op with
  | allocateEntity e =>
    simp only [apply] at h
    split at h
    · rename_i he
      cases h
      simp only [Operation.shadow, apply]
      rw [if_pos (show e.value = a.shadow.next from he)]
      rfl
    · cases h
  | define slot fact =>
    cases h
    simp only [Operation.shadow, apply, shadow, StackMap.map_push]
  | forget slot =>
    cases h
    simp only [Operation.shadow, apply, shadow, StackMap.map_pop]

theorem WorldState.applyAll_shadow {a b : WorldState} {ops : List Operation}
    (h : a.applyAll ops = some b) : a.shadow.applyAll (ops.map Operation.shadow) = some b.shadow := by
  induction ops generalizing a with
  | nil =>
    cases h
    rfl
  | cons op ops ih =>
    simp only [applyAll, Option.bind_eq_some_iff] at h
    obtain ⟨c, hc, hb⟩ := h
    simp only [List.map_cons, applyAll, apply_shadow hc, Option.bind_some]
    exact ih hb

/-- A workspace that stands for a state has its shape. -/
theorem AtRest.shadow {token : SlotId → Option ℕ} {decode : ℕ → ℕ → ℕ → Option Fact}
    {w : Workspace} {a : WorldState} (h : AtRest token decode w a) :
    AtRest token shadowDecode w a.shadow := by
  obtain ⟨ht, hn, hr, hs, hf, hl⟩ := h
  refine ⟨⟨fun k => (ht.linked k).map (fun _ => shadowFact) ?_, ht.token_lt, ht.token_inj, ht.named,
    ht.frontier_le, ht.track, ht.deltas_le, ht.records_le, ht.indexes_le⟩, hn, hr, hs, hf, hl⟩
  intro i f prev hi
  unfold recordNode at hi ⊢
  cases hrec : w.records[i]? with
  | none => rw [hrec] at hi; cases hi
  | some r =>
    rw [hrec] at hi
    simp only [Option.bind_some, Option.map_eq_some_iff, Prod.mk.injEq] at hi
    obtain ⟨f', -, -, rfl⟩ := hi
    rfl

namespace VmEpochMaterializer

/-- The materializer without its predicates and literals. -/
def bare (m : VmEpochMaterializer) : VmEpochMaterializer :=
  { m with predicates := ∅, predicateValues := [], literals := ∅, literalValues := [] }

variable {base : FrozenNames} {names : List SlotId} {m m' : VmEpochMaterializer}
  {a b : WorldState}

theorem Dictionaries.bare (h : Dictionaries base names m) : Dictionaries base names m.bare :=
  ⟨h.below, h.slots, h.slots_size, Vocabulary.coherent_nil, rfl, Vocabulary.coherent_nil⟩

/-- The workspace has the shape of a state. -/
structure Shaped (base : FrozenNames) (names : List SlotId) (m : VmEpochMaterializer)
    (a : WorldState) : Prop where
  slots : Dictionaries base names m.bare
  rest : AtRest (liveToken base m) shadowDecode m.workspace a.shadow

theorem Stands.shaped (h : m.Stands base names a) : m.Shaped base names a :=
  ⟨h.dictionaries.bare, h.rest.shadow⟩

namespace Shaped

theorem nextEntity (h : m.Shaped base names a) : m.workspace.nextEntity = a.next := h.rest.next

theorem deltaCount (h : m.Shaped base names a) : m.workspace.deltaCount = a.records :=
  h.rest.records

theorem activeSlotCount (h : m.Shaped base names a) : m.workspace.activeSlotCount = a.slots.size := by
  rw [h.rest.trial.activeSlotCount_eq]
  rfl

theorem stack_le (h : m.Shaped base names a) :
    m.workspace.stackPointer ≤ m.workspace.stack.length := by
  rw [h.rest.stack]
  exact Nat.zero_le _

/-- More slots, and any other predicates and literals. -/
theorem extend {names' : List SlotId} (h : m.Shaped base names a)
    (hd : Dictionaries base names' m'.bare) (he : Extends base m.bare m'.bare) :
    m'.Shaped base names' a := by
  have hw : m'.workspace = { m.workspace with acceptedHeads := m'.workspace.acceptedHeads } :=
    he.workspace
  refine ⟨hd, ⟨?_, ?_, ?_, ?_, ?_, ?_⟩⟩
  · refine h.rest.trial.extend hw he.heads ?_ ?_ ?_ fun s p o f hf => hf
    · intro k t hk
      obtain ⟨ht, hlt⟩ := liveToken_eq_some.1 hk
      exact liveToken_eq_some.2 ⟨he.token k t ht, hlt.trans_le he.grows⟩
    · intro k t hk
      exact (liveToken_eq_some.1 hk).2
    · intro k k' t hk hk'
      exact hd.token_inj (liveToken_eq_some.1 hk).1 (liveToken_eq_some.1 hk').1
  · rw [hw]; exact h.rest.next
  · rw [hw]; exact h.rest.records
  · rw [hw]; exact h.rest.stack
  · rw [hw]; exact h.rest.frameBase
  · rw [hw]; exact h.rest.stack_le

/-- **An accepted program** leads to the shape of the state that its operations lead to. -/
theorem execute (h : m.Shaped base names a) {ops : List Operation} {is : List Instruction}
    (hl : Lowers (token base m) shadowDecode (ops.map Operation.shadow) (effects is))
    (hb : a.applyAll ops = some b) {w : Workspace}
    (hw : m.workspace.executeInstructions 0 is = .ok (.accepted, w)) :
    { m with workspace := w }.Shaped base names b :=
  ⟨h.slots.withWorkspace w, h.rest.execute_live hl (WorldState.applyAll_shadow hb) hw⟩

/-- **A rejected program** leaves the shape as it was. -/
theorem reject (h : m.Shaped base names a) {is : List Instruction} {e : ExecError} {w : Workspace}
    (hw : m.workspace.executeInstructions 0 is = .ok (.rejected e, w)) :
    { m with workspace := w }.Shaped base names a := by
  obtain ⟨hstack, hlen⟩ := executeInstructions_rejected hw
  refine ⟨h.slots.withWorkspace w, ?_⟩
  have htok : liveToken base { m with workspace := w } = liveToken base m := by
    funext k
    unfold liveToken
    rw [hstack]
    rfl
  rw [htok]
  exact h.rest.withStack hstack hlen

/-- The same slots and the same workspace. -/
theorem congr (h : m.Shaped base names a) (hd : Dictionaries base names m'.bare)
    (hw : m'.workspace = m.workspace) (hs : m'.slots.lookup = m.slots.lookup) :
    m'.Shaped base names a := by
  refine ⟨hd, ?_⟩
  have htok : liveToken base m' = liveToken base m := by
    funext k
    unfold liveToken token
    rw [hs, hw]
  rw [htok, hw]
  exact h.rest

end Shaped

/-- **A new workspace** has the shape of an empty state, whatever the slots. -/
theorem Dictionaries.shaped (h : Dictionaries base names m.bare) (nextEntity : ℕ) :
    { m with workspace := .withIndexesFrom nextEntity 0 32 }.Shaped base names
      ⟨.empty, 0, nextEntity⟩ :=
  ⟨h.withWorkspace _, (h.stands nextEntity).rest.shadow⟩

/-- Interning slots does not look at predicates and literals. -/
theorem slotToken_bare (m : VmEpochMaterializer) (slot : SlotId) :
    m.bare.slotToken slot = ((m.slotToken slot).1, (m.slotToken slot).2.bare) := by
  unfold slotToken bare baseSlotCount
  simp only
  cases m.slots.lookup slot with
  | some t => rfl
  | none =>
    simp only
    cases m.mappedBase.bind fun b => b.slotToken slot <;> rfl

theorem predicateCell_bare (m : VmEpochMaterializer) (p : Predicate) :
    (m.predicateCell p).2.bare = m.bare := by
  unfold predicateCell
  split
  · rfl
  · split <;> rfl

theorem atomCell_bare (m : VmEpochMaterializer) (a : Atom) : (m.atomCell a).2.bare = m.bare := by
  cases a with
  | entity e =>
    simp only [atomCell]
    split <;> rfl
  | literal l =>
    simp only [atomCell]
    split
    · rfl
    · split
      · rfl
      · split <;> rfl

/-- A supply of slots, the frozen ones among them, with a token for each. -/
structure Supply (base : FrozenNames) (U : Finset SlotId) : Prop where
  within : Vocabulary.Within base.slots U
  card_le : U.card ≤ 2 ^ 32

/-- The frozen slots are as many as the table counts. -/
theorem Dictionaries.supply (h : Dictionaries base names m.bare) {U : Finset SlotId}
    (hU : U.card ≤ 2 ^ 32)
    (hf : ∀ k, (m.mappedBase.bind fun b => b.slotToken k) ≠ none → k ∈ U) : Supply base U := by
  refine ⟨?_, hU⟩
  have hfind : ∀ k, base.slots.find k ≠ none → k ∈ U := fun k hk => hf k (by
    rw [← h.slotFind] at hk
    exact hk)
  obtain ⟨hbelow, -⟩ := h
  generalize m.bare.mappedBase = mb at hbelow
  cases hbelow with
  | none => exact ⟨∅, Finset.empty_subset _, rfl, by simp⟩
  | image s hs =>
    have hmem : ∀ k ∈ (s.slots.map SlotId.mk).toFinset,
        (FrozenNames.ofImage s hs).slots.find k ≠ none := by
      intro k hk
      rw [List.mem_toFinset, List.mem_map] at hk
      obtain ⟨v, hv, rfl⟩ := hk
      obtain ⟨i, hi⟩ := List.getElem?_of_mem hv
      have : SortedTable.lookup s.slots v = some i := (SortedTable.lookup_iff hs.slots).2 hi
      simp [FrozenNames.ofImage, frozenStrings, this]
    refine ⟨(s.slots.map SlotId.mk).toFinset, fun k hk => hfind k (hmem k hk), ?_, hmem⟩
    have hslots : s.slots.Nodup := hs.slots.imp fun hlt => ne_of_lt hlt
    have hnodup : (s.slots.map SlotId.mk).Nodup := hslots.map fun v v' hv => SlotId.mk.inj hv
    rw [List.toFinset_card_of_nodup hnodup, List.length_map]
    rfl

/-- **A slot gets its token**, within a supply of names. -/
theorem slotToken_shape (h : Dictionaries base names m.bare) {slot : SlotId} {U : Finset SlotId}
    (hbase : Supply base U) (hU : ∀ k ∈ names, k ∈ U) (hs : slot ∈ U) :
    ∃ names', Dictionaries base names' (m.slotToken slot).2.bare ∧
      Extends base m.bare (m.slotToken slot).2.bare ∧
      token base (m.slotToken slot).2 slot = some (m.slotToken slot).1 ∧ ∀ k ∈ names', k ∈ U := by
  obtain ⟨names', h', he, ht, hn, -, -⟩ := slotToken_spec h slot fun hnew hfree =>
    (h.slots.room hbase.within hU hs hnew hfree).trans_le hbase.card_le
  rw [slotToken_bare] at h' he ht
  refine ⟨names', h', he, ht, ?_⟩
  rcases hn with rfl | rfl
  · exact hU
  · intro k hk
    rcases List.mem_append.1 hk with hk | hk
    · exact hU k hk
    · rw [List.mem_singleton.1 hk]
      exact hs

/-- **One operation** compiles to its shadow, if it compiles. -/
theorem compileOperation_shape (h : Dictionaries base names m.bare) (op : Operation)
    {U : Finset SlotId} (hbase : Supply base U) (hU : ∀ k ∈ names, k ∈ U)
    (hop : ∀ k ∈ op.slots, k ∈ U) :
    ∃ names', Dictionaries base names' (m.compileOperation op).2.bare ∧
      Extends base m.bare (m.compileOperation op).2.bare ∧
      (∀ is, (m.compileOperation op).1 = .ok is →
        Lowers (token base (m.compileOperation op).2) shadowDecode [op.shadow] is) ∧
      ∀ k ∈ names', k ∈ U := by
  cases op with
  | allocateEntity e =>
    refine ⟨names, ?_⟩
    simp only [compileOperation]
    split
    · exact ⟨h, .refl _ _, fun is hc => (by cases hc), hU⟩
    · refine ⟨h, .refl _ _, fun is hc => ?_, hU⟩
      obtain rfl := Except.ok.inj hc
      exact .allocate e .nil
  | forget slot =>
    obtain ⟨names', h₁, e₁, ht, hU₁⟩ :=
      slotToken_shape h hbase hU (hop slot (by simp [Operation.slots]))
    refine ⟨names', h₁, e₁, fun is hc => ?_, hU₁⟩
    obtain rfl := Except.ok.inj hc
    exact .forget ht .nil
  | define slot fact =>
    obtain ⟨names', h₁, e₁, ht, hU₁⟩ :=
      slotToken_shape h hbase hU (hop slot (by simp [Operation.slots]))
    simp only [compileOperation]
    generalize m.slotToken slot = r₁ at h₁ e₁ ht ⊢
    obtain ⟨t, m₁⟩ := r₁
    simp only at h₁ e₁ ht ⊢
    have hb₂ := atomCell_bare m₁ fact.subject
    generalize m₁.atomCell fact.subject = r₂ at hb₂ ⊢
    obtain ⟨c₂, m₂⟩ := r₂
    simp only at hb₂
    refine ⟨names', ?_⟩
    cases c₂ with
    | error e =>
      simp only
      rw [hb₂]
      exact ⟨h₁, e₁, fun is hc => (by cases hc), hU₁⟩
    | ok s =>
      simp only
      have hb₃ := predicateCell_bare m₂ fact.predicate
      generalize m₂.predicateCell fact.predicate = r₃ at hb₃ ⊢
      obtain ⟨p, m₃⟩ := r₃
      simp only at hb₃ ⊢
      have hb₄ := atomCell_bare m₃ fact.object
      generalize m₃.atomCell fact.object = r₄ at hb₄ ⊢
      obtain ⟨c₄, m₄⟩ := r₄
      have hb : m₄.bare = m₁.bare := hb₄.trans (hb₃.trans hb₂)
      cases c₄ with
      | error e =>
        simp only
        rw [hb]
        exact ⟨h₁, e₁, fun is hc => (by cases hc), hU₁⟩
      | ok o =>
        simp only
        rw [hb]
        refine ⟨h₁, e₁, fun is hc => ?_, hU₁⟩
        obtain rfl := Except.ok.inj hc
        have ht' : token base m₄ slot = some t := by
          have : token base m₄.bare slot = token base m₁.bare slot := by rw [hb]
          exact this.trans ht
        exact .define ht' rfl .nil

/-- **Operations compile to their shadows**, if they compile. -/
theorem compileOperations_shape (h : Dictionaries base names m.bare) {ops : List Operation}
    {U : Finset SlotId} (hbase : Supply base U) (hU : ∀ k ∈ names, k ∈ U)
    (hops : ∀ op ∈ ops, ∀ k ∈ op.slots, k ∈ U) :
    ∃ names', Dictionaries base names' (m.compileOperations ops).2.bare ∧
      Extends base m.bare (m.compileOperations ops).2.bare ∧
      (∀ is, (m.compileOperations ops).1 = .ok is →
        Lowers (token base (m.compileOperations ops).2) shadowDecode (ops.map Operation.shadow) is) ∧
      ∀ k ∈ names', k ∈ U := by
  induction ops generalizing m names with
  | nil =>
    refine ⟨names, h, .refl _ _, fun is hc => ?_, hU⟩
    obtain rfl := Except.ok.inj hc
    exact .nil
  | cons op ops ih =>
    rw [List.forall_mem_cons] at hops
    obtain ⟨names₁, h₁, e₁, l₁, hU₁⟩ := compileOperation_shape h op hbase hU hops.1
    unfold compileOperations
    generalize m.compileOperation op = r₁ at h₁ e₁ l₁ ⊢
    obtain ⟨c₁, m₁⟩ := r₁
    cases c₁ with
    | error e => exact ⟨names₁, h₁, e₁, fun is hc => (by cases hc), hU₁⟩
    | ok js =>
      simp only at h₁ e₁ l₁ ⊢
      obtain ⟨names₂, h₂, e₂, l₂, hU₂⟩ := ih h₁ hU₁ hops.2
      generalize m₁.compileOperations ops = r₂ at h₂ e₂ l₂ ⊢
      obtain ⟨c₂, m₂⟩ := r₂
      simp only at h₂ e₂ l₂
      cases c₂ with
      | error e => exact ⟨names₂, h₂, e₁.trans e₂, fun is hc => (by cases hc), hU₂⟩
      | ok ks =>
        refine ⟨names₂, h₂, e₁.trans e₂, fun is hc => ?_, hU₂⟩
        obtain rfl := Except.ok.inj hc
        have htok : ∀ k t, token base m₁ k = some t → token base m₂ k = some t := e₂.token
        exact lowers_append ((l₁ js rfl).mono htok fun s p o f hf => hf) (l₂ ks rfl)

end VmEpochMaterializer

end ForthDB
