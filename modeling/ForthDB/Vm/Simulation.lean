import ForthDB.Vm.Standing

/-!
# The materializer plans the abstract epoch

* `m.Holds base names a`: the materializer `m` between epochs stands for the abstract
  state `a`.
* `Tight`: its dictionaries are no larger than its arenas, as long as every program
  it compiled was accepted.
* `intent_spec`: **one intent** is decided as the abstract epoch decides it, unless its
  operations leave the range of atom cells or the room of the arenas; then the
  materialization halts.
* `deriveVmEpoch_iff`: the same for an epoch.
-/

namespace ForthDB

namespace VmEpochMaterializer

variable {base : FrozenNames} {names : List SlotId} {m m' : VmEpochMaterializer}
  {a b : WorldState}

/-- The materializer stands for an abstract state. -/
structure Holds (base : FrozenNames) (names : List SlotId) (m : VmEpochMaterializer)
    (a : WorldState) : Prop where
  tables : Tables base names m
  rest : AtRest (token base m) m.factFromCells m.workspace a

/-- The dictionaries are no larger than the arenas. -/
structure Tight (base : FrozenNames) (names : List SlotId) (m : VmEpochMaterializer) : Prop where
  slots : base.slots.count + names.length ≤ m.workspace.records.length
  frozen : base.literals.count ≤ 2 ^ 32
  literals : m.literalValues.length ≤ 2 * m.workspace.records.length

theorem new_holds (nextEntity : ℕ) : (new nextEntity).Holds .none [] ⟨.empty, 0, nextEntity⟩ := by
  refine ⟨tables_new nextEntity, ⟨⟨?_, ?_, ?_, ?_, le_rfl, rfl, le_rfl, ?_, ?_⟩, rfl, rfl, rfl, rfl, ?_⟩⟩
  · intro slot; exact Chain.nil
  · intro k t hk; cases hk
  · intro k k' t hk; cases hk
  · intro t i hi
    rw [Workspace.trialHead_rest] at hi
    simp [new, Workspace.withIndexesFrom] at hi
  · exact Nat.zero_le _
  · exact Nat.zero_le _
  · simp [new, Workspace.withIndexesFrom]

theorem new_tight (nextEntity : ℕ) : Tight .none [] (new nextEntity) :=
  ⟨le_rfl, Nat.zero_le _, Nat.zero_le _⟩

/-- A materializer with a head for every slot. -/
theorem Holds.stands (h : m.Holds base names a) : m.Stands base names a := by
  refine ⟨h.tables.toDictionaries, ?_⟩
  have htok : liveToken base m = token base m := by
    funext k
    unfold liveToken
    cases ht : token base m k with
    | none => rfl
    | some t => simp [h.tables.token_lt ht]
  rw [htok]
  exact h.rest

/-- **Readers see the top of the stack.** -/
theorem Holds.resolveFact_eq (h : m.Holds base names a) (slot : SlotId) :
    m.resolveFact slot = .ok (a.slots.top slot) := h.stands.resolveFact_eq slot

theorem Holds.checkPreconditions_eq (h : m.Holds base names a) (id : WorldId)
    (ps : List IntentPrecondition) :
    m.checkPreconditions id ps = .ok (ForthDB.checkPreconditions id a.slots.top ps) :=
  checkPreconditionsBy_eq h.resolveFact_eq id ps

/-- Operations that the materializer can carry out: cells for their entities, room for
their records. -/
def Feasible (m : VmEpochMaterializer) (a : WorldState) (ops : List Operation) : Prop :=
  (∀ op ∈ ops, op.InVmRange) ∧ m.workspace.Fits a.slots ops

/-- Names that were interned keep a materializer in its state. -/
theorem Holds.extend {names' : List SlotId} (h : m.Holds base names a)
    (ht : Tables base names' m') (he : Extends base m m') : m'.Holds base names' a := by
  refine ⟨ht, ⟨?_, ?_, ?_, ?_, ?_, ?_⟩⟩
  · exact h.rest.trial.extend he.workspace he.heads he.token (fun k t hk => ht.token_lt hk)
      (fun k k' t hk hk' => ht.token_inj hk hk') fun s p o f hf => he.fact hf
  · rw [he.workspace]; exact h.rest.next
  · rw [he.workspace]; exact h.rest.records
  · rw [he.workspace]; exact h.rest.stack
  · rw [he.workspace]; exact h.rest.frameBase
  · rw [he.workspace]; exact h.rest.stack_le

/-- **Compile and execute**: feasible operations are carried out. -/
theorem Holds.execute_ok {n : ℕ} {ops : List Operation} (h : m.Holds base names a)
    (hroom : NameRoom base names m (recordsOf ops + n)) (hf : m.Feasible a ops)
    (hb : a.applyAll ops = some b) :
    ∃ is m₁ w names', m.compileOperations ops = (.ok is, m₁) ∧
      m₁.workspace.executeInstructions 0 is = .ok (.accepted, w) ∧
      { m₁ with workspace := w }.Holds base names' b ∧
      w.records.length = m.workspace.records.length + recordsOf ops ∧
      w.indexDeltas.length = m.workspace.indexDeltas.length + indexCost a.slots ops ∧
      names'.length ≤ names.length + recordsOf ops ∧
      m₁.literalValues.length ≤ m.literalValues.length + 2 * recordsOf ops ∧
      Extends base m m₁ := by
  obtain ⟨is, m₁, names', hc, ht, he, hl, hn, hv⟩ := compileOperations_ok hf.1 h.tables hroom
  have h₁ := h.extend ht he
  have hfits : m₁.workspace.Fits a.slots ops := by
    have := hf.2
    unfold Workspace.Fits at this ⊢
    rw [he.workspace]
    exact this
  rcases execute_lowered hl h₁.rest hb with ⟨-, w, hw, hrest, hrec, hidx, hheads⟩ | ⟨hno, -⟩
  swap
  · exact absurd hfits hno
  have hrec₁ : m₁.workspace.records = m.workspace.records := by rw [he.workspace]
  have hidx₁ : m₁.workspace.indexDeltas = m.workspace.indexDeltas := by rw [he.workspace]
  have hmodel : Tables base names' { m₁ with workspace := w } :=
    ⟨ht.toDictionaries.withWorkspace w, by
      rw [show ({ m₁ with workspace := w } : VmEpochMaterializer).workspace = w from rfl, hheads]
      exact ht.heads⟩
  refine ⟨is, m₁, w, names', hc, hw, ⟨hmodel, hrest⟩, ?_, ?_, hn, hv, he⟩
  · rw [hrec, hrec₁]
  · rw [hidx, hidx₁]

/-- **Operations that are not feasible** halt the materialization, one way or the other. -/
theorem Holds.execute_halts {ops : List Operation} (h : m.Holds base names a)
    (hroom : m.workspace.records.length + recordsOf ops ≤ noReference →
      NameRoom base names m (recordsOf ops)) (hf : ¬ m.Feasible a ops)
    (hb : a.applyAll ops = some b) {is : List Instruction} (hc : m.compileOperations ops = (.ok is, m'))
    (w : Workspace) : m'.workspace.executeInstructions 0 is ≠ .ok (.accepted, w) := by
  intro hw
  obtain ⟨hin, hcount, hrec⟩ := compileOperations_inRange hc
  have hfits : ¬ m.workspace.Fits a.slots ops := fun h' => hf ⟨hin, h'⟩
  by_cases hlt : m.workspace.records.length + recordsOf ops ≤ noReference
  · obtain ⟨is', m₁, names', hc', ht, he, hl, -, -⟩ := compileOperations_ok hin h.tables (n := 0)
      (by simpa using hroom hlt)
    rw [hc] at hc'
    cases hc'
    have h₁ := h.extend ht he
    rcases execute_lowered hl h₁.rest hb with ⟨hfits', -⟩ | ⟨-, message, hw'⟩
    · unfold Workspace.Fits at hfits hfits'
      rw [he.workspace] at hfits'
      exact hfits hfits'
    · rw [hw] at hw'
      cases hw'
  · -- too many records for the arena
    have hstack : m'.workspace.stackPointer ≤ m'.workspace.stack.length := by
      by_contra hgt
      unfold Workspace.executeInstructions Workspace.reserve at hw
      simp only [Nat.add_zero] at hw
      rw [if_pos (not_le.1 hgt)] at hw
      cases hw
    rw [Workspace.executeInstructions_zero _ hstack] at hw
    cases hr : Workspace.run { m'.workspace with frameBase := m'.workspace.stackPointer }
        m'.workspace.deltas.length is with
    | error e => rw [hr] at hw; cases hw
    | ok p =>
      rw [hr] at hw
      obtain ⟨outcome, w'⟩ := p
      cases outcome with
      | rejected e => cases hw
      | accepted =>
        have := Workspace.run_records hr
        simp only [hcount, hrec] at this
        have := this.2 h.rest.trial.records_le
        omega

theorem Tight.nameRoom {ops : List Operation} (h : Tight base names m)
    (hr : m.workspace.records.length + recordsOf ops ≤ noReference) :
    NameRoom base names m (recordsOf ops) := by
  have h1 := h.slots
  have h2 := h.frozen
  have h3 := h.literals
  unfold noReference at hr
  exact ⟨by omega, by omega⟩

/-- Compiling and executing operations keeps the dictionaries within the arenas. -/
theorem Tight.grow {names' : List SlotId} {ops : List Operation} {w : Workspace}
    (h : Tight base names m)
    (hr : w.records.length = m.workspace.records.length + recordsOf ops)
    (hn : names'.length ≤ names.length + recordsOf ops)
    (hl : m'.literalValues.length ≤ m.literalValues.length + 2 * recordsOf ops) :
    Tight base names' { m' with workspace := w } := by
  have h1 := h.slots
  have h3 := h.literals
  refine ⟨?_, h.frozen, ?_⟩
  · simp only [hr]
    omega
  · simp only [hr]
    omega

/-- The loop of `derive_vm_epoch` stands for an abstract epoch. -/
structure EpochRun.Holds (base : FrozenNames) (names : List SlotId) (r : EpochRun)
    (s : EpochState) : Prop where
  materializer : r.materializer.Holds base names s.state
  tight : Tight base names r.materializer
  id : r.predecessorId = s.id
  version : r.predecessorVersion = s.version
  operations : r.operations = s.operations

/-- **One intent** is decided as in the abstract epoch, or halts the materialization. -/
theorem EpochRun.intent_spec {r : EpochRun} {s : EpochState} (h : r.Holds base names s)
    (i : QueuedIntent) :
    ∃ ops, (s.intent i).2.operations = s.operations ++ ops ∧
      s.state.applyAll ops = some (s.intent i).2.state ∧
      ((r.materializer.Feasible s.state ops ∧ ∃ r' names', r.intent i = .ok ((s.intent i).1, r') ∧
          r'.Holds base names' (s.intent i).2 ∧
          r'.materializer.workspace.records.length =
            r.materializer.workspace.records.length + recordsOf ops ∧
          r'.materializer.workspace.indexDeltas.length =
            r.materializer.workspace.indexDeltas.length + indexCost s.state.slots ops) ∨
        (¬ r.materializer.Feasible s.state ops ∧ ∃ halt, r.intent i = .error halt)) := by
  have hnext : r.materializer.workspace.nextEntity = s.state.next := h.materializer.rest.next
  have hnothing : r.materializer.Feasible s.state [] :=
    ⟨by simp, h.materializer.rest.trial.records_le, h.materializer.rest.trial.indexes_le⟩
  unfold EpochRun.intent EpochState.intent WorldState.decide
  rw [h.materializer.checkPreconditions_eq, h.id, hnext]
  cases hc : ForthDB.checkPreconditions s.id s.state.slots.top i.preconditions with
  | error e => exact ⟨[], by simp, rfl, .inl ⟨hnothing, r, names, rfl, h, rfl, rfl⟩⟩
  | ok u =>
    simp only
    cases hr : resolveOperationsFrom s.state.next i.space i.operations with
    | error e => exact ⟨[], by simp, rfl, .inl ⟨hnothing, r, names, rfl, h, rfl, rfl⟩⟩
    | ok p =>
      obtain ⟨ops, entities⟩ := p
      obtain ⟨b, hb⟩ := applyAll_of_resolved hr rfl
      refine ⟨ops, by simp, by simp [hb], ?_⟩
      by_cases hf : r.materializer.Feasible s.state ops
      · left
        obtain ⟨is, m₁, w, names', hcomp, hw, hm, hrec, hidx, hn, hl, he⟩ :=
          h.materializer.execute_ok (n := 0) (h.tight.nameRoom hf.2.1) hf hb
        simp only [hcomp, hw, hb, Option.getD_some]
        refine ⟨hf, _, names', rfl, ⟨hm, h.tight.grow hrec hn hl, ?_, ?_, ?_⟩, hrec, hidx⟩
        · have hwn : w.nextEntity = b.next := hm.rest.next
          simp only [h.version, hwn]
        · simp only [h.version]
        · simp only [h.operations]
      · right
        refine ⟨hf, ?_⟩
        simp only
        cases hcomp : r.materializer.compileOperations ops with
        | mk c m₁ =>
          cases c with
          | error e => exact ⟨_, rfl⟩
          | ok is =>
            simp only
            cases hw : m₁.workspace.executeInstructions 0 is with
            | error e => exact ⟨_, rfl⟩
            | ok q =>
              obtain ⟨outcome, w⟩ := q
              cases outcome with
              | rejected e => exact ⟨_, rfl⟩
              | accepted =>
                exact absurd hw (h.materializer.execute_halts
                  (fun hle => h.tight.nameRoom hle) hf hb hcomp w)

/-- **A list of intents** is decided as in the abstract epoch, or halts the materialization. -/
theorem EpochRun.intents_spec {r : EpochRun} {s : EpochState} (h : r.Holds base names s)
    (is : List QueuedIntent) :
    ∃ ops, (s.intents is).2.operations = s.operations ++ ops ∧
      s.state.applyAll ops = some (s.intents is).2.state ∧
      ((r.materializer.Feasible s.state ops ∧ ∃ r' names',
          r.intents is = .ok ((s.intents is).1, r') ∧ r'.Holds base names' (s.intents is).2) ∨
        (¬ r.materializer.Feasible s.state ops ∧ ∃ halt, r.intents is = .error halt)) := by
  induction is generalizing r s names with
  | nil =>
    refine ⟨[], by simp [EpochState.intents], rfl, .inl ⟨⟨by simp, ?_⟩, r, names, rfl, h⟩⟩
    exact ⟨h.materializer.rest.trial.records_le, h.materializer.rest.trial.indexes_le⟩
  | cons i is ih =>
    obtain ⟨xs, hxs, hbx, hi⟩ := EpochRun.intent_spec h i
    rcases hi with ⟨hfx, r₁, names₁, hr₁, h₁, hrec, hidx⟩ | ⟨hfx, halt, hr₁⟩
    · obtain ⟨ys, hys, hby, hrest⟩ := ih h₁
      refine ⟨xs ++ ys, ?_, ?_, ?_⟩
      · simp only [EpochState.intents, hys, hxs, List.append_assoc]
      · rw [WorldState.applyAll_append, hbx]
        exact hby
      -- what is left to do is feasible after the first intent exactly when the whole is before it
      have hiff : r.materializer.Feasible s.state (xs ++ ys) ↔
          r₁.materializer.Feasible (s.intent i).2.state ys := by
        unfold Feasible
        rw [fits_append hbx hrec hidx]
        constructor
        · rintro ⟨hin, hfit⟩
          exact ⟨fun op hop => hin op (List.mem_append_right _ hop), hfit⟩
        · rintro ⟨hin, hfit⟩
          refine ⟨fun op hop => ?_, hfit⟩
          rcases List.mem_append.1 hop with hop | hop
          · exact hfx.1 op hop
          · exact hin op hop
      simp only [EpochRun.intents, EpochState.intents, hr₁]
      rcases hrest with ⟨hfy, r', names', hr', h'⟩ | ⟨hfy, halt, hr'⟩
      · exact .inl ⟨hiff.2 hfy, r', names', by rw [hr'], h'⟩
      · exact .inr ⟨fun hf => hfy (hiff.1 hf), halt, by rw [hr']⟩
    · -- the first intent halts, whatever the rest would do
      obtain ⟨ys, hys, hby⟩ : ∃ ys, (s.intents (i :: is)).2.operations = s.operations ++ (xs ++ ys) ∧
          s.state.applyAll (xs ++ ys) = some (s.intents (i :: is)).2.state := by
        obtain ⟨ys, hys, hby⟩ := EpochState.intents_operations (s.intent i).2 is
        refine ⟨ys, ?_, ?_⟩
        · simp only [EpochState.intents, hys, hxs, List.append_assoc]
        · rw [WorldState.applyAll_append, hbx]
          exact hby
      refine ⟨xs ++ ys, hys, hby, .inr ⟨?_, halt, by simp only [EpochRun.intents, hr₁]⟩⟩
      rintro ⟨hin, hfit⟩
      exact hfx ⟨fun op hop => hin op (List.mem_append_left _ hop), hfit.left⟩

/-- **The materializer plans the abstract epoch** exactly when its operations are feasible. -/
theorem deriveVmEpoch_spec (h : m.Holds base names a) (ht : Tight base names m) {w : World}
    (hn : a.next = w.nextEntity) (is : List QueuedIntent) :
    (m.Feasible a ((EpochState.start w a).intents is).2.operations ∧
      ∃ m' names', m.deriveVmEpoch w is = .ok (.assemble w ((EpochState.start w a).intents is).1
          (World.fromVmEpoch w ((EpochState.start w a).intents is).2.operations
            ((EpochState.start w a).intents is).2.state.next
            ((EpochState.start w a).intents is).2.state.slots.size
            ((EpochState.start w a).intents is).2.state.records), m') ∧
        m'.Holds base names' ((EpochState.start w a).intents is).2.state ∧
        Tight base names' m') ∨
    (¬ m.Feasible a ((EpochState.start w a).intents is).2.operations ∧
      ∃ halt, m.deriveVmEpoch w is = .error halt) := by
  have h0 : EpochRun.Holds base names
      { materializer := m, predecessorId := w.id, predecessorVersion := w.version,
        operations := [] } (EpochState.start w a) := ⟨h, ht, rfl, rfl, rfl⟩
  obtain ⟨ops, hops, hb, hi⟩ := EpochRun.intents_spec h0 is
  have hops' : ((EpochState.start w a).intents is).2.operations = ops := by
    rw [hops]; rfl
  rw [hops']
  unfold deriveVmEpoch
  have hnext : ¬ m.workspace.nextEntity ≠ w.nextEntity := by
    rw [h.rest.next, hn]; simp
  simp only [if_neg hnext]
  rcases hi with ⟨hf, r', names', hr', h'⟩ | ⟨hf, halt, hr'⟩
  · left
    refine ⟨hf, r'.materializer, names', ?_, h'.materializer, h'.tight⟩
    rw [hr']
    simp only [h'.operations, hops', h'.materializer.rest.next, h'.materializer.rest.records,
      h'.materializer.rest.trial.activeSlotCount_eq]
  · exact .inr ⟨hf, halt, by rw [hr']⟩

end VmEpochMaterializer

end ForthDB
