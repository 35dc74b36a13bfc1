import ForthDB.Vm.Acceptance
import ForthDB.Vm.TrialShape

/-!
# What accepted programs allocate

Whatever a materializer has interned and whatever its arenas hold, an accepted program moves the
allocator by its allocations, and these are the ones of the operations that it was compiled from.

* `Leads n ops n'`: the allocations of `ops` follow on from `n` and end before `n'`.
* `EpochRun.intents_leads`, `MixedRun.intents_leads`: the operations of an epoch lead from the
  allocator of the materializer before it to that behind it.
-/

namespace ForthDB

/-- The operations allocate consecutively, from `n` up to `n'`. -/
def Leads (n : ℕ) (ops : List Operation) (n' : ℕ) : Prop :=
  ∀ a : WorldState, a.next = n → ∃ b, a.applyAll ops = some b ∧ b.next = n'

namespace Leads

variable {n n' n'' : ℕ} {xs ys : List Operation}

theorem nil (n : ℕ) : Leads n [] n := fun a ha => ⟨a, rfl, ha⟩

theorem append (h : Leads n xs n') (h' : Leads n' ys n'') : Leads n (xs ++ ys) n'' := by
  intro a ha
  obtain ⟨b, hb, hbn⟩ := h a ha
  obtain ⟨c, hc, hcn⟩ := h' b hbn
  exact ⟨c, by rw [WorldState.applyAll_append, hb, Option.bind_some, hc], hcn⟩

/-- One state that operations apply to speaks for all of its allocator. -/
theorem of_applyAll {a b : WorldState} (h : a.applyAll xs = some b) : Leads a.next xs b.next :=
  fun _ hc => WorldState.applyAll_next hc.symm h

end Leads

/-- Whether an operation allocates. -/
def Operation.allocates : Operation → Bool
  | .allocateEntity _ => true
  | .define _ _ => false
  | .forget _ => false

theorem WorldState.apply_allocates {a b : WorldState} {op : Operation} (h : a.apply op = some b) :
    b.next = a.next + if op.allocates then 1 else 0 := by
  cases op with
  | allocateEntity e =>
    simp only [apply] at h
    split at h <;> cases h
    rfl
  | define slot fact =>
    cases h
    rfl
  | forget slot =>
    cases h
    rfl

theorem WorldState.applyAll_allocates {a b : WorldState} {ops : List Operation}
    (h : a.applyAll ops = some b) : b.next = a.next + ops.countP Operation.allocates := by
  induction ops generalizing a with
  | nil =>
    cases h
    rfl
  | cons op ops ih =>
    simp only [applyAll, Option.bind_eq_some_iff] at h
    obtain ⟨c, hc, hb⟩ := h
    rw [ih hb, apply_allocates hc, List.countP_cons]
    omega

/-- Operations that apply at all lead up by their allocations. -/
theorem Leads.count {n n' : ℕ} {ops : List Operation} (h : Leads n ops n') :
    n' = n + ops.countP Operation.allocates := by
  obtain ⟨b, hb, hbn⟩ := h ⟨.empty, 0, n⟩ rfl
  rw [← hbn, WorldState.applyAll_allocates hb]

/-- Resolved operations allocate from the allocator they were resolved behind. -/
theorem leads_of_resolved {n space : ℕ} {ops : List IntentOperation} {os : List Operation}
    {entities : EntityMap} (h : resolveOperationsFrom n space ops = .ok (os, entities)) :
    Leads n os (n + os.countP Operation.allocates) := by
  obtain ⟨b, hb⟩ := applyAll_of_resolved h (a := ⟨.empty, 0, n⟩) rfl
  have hleads := Leads.of_applyAll hb
  rw [WorldState.applyAll_allocates hb] at hleads
  exact hleads

open Workspace

/-- **An accepted program** moves the allocator by its allocations. -/
theorem executeInstructions_allocates {w w' : Workspace} {n : ℕ} {is : List Instruction}
    (h : w.executeInstructions n is = .ok (.accepted, w')) :
    w'.nextEntity = w.nextEntity + is.countP allocates := by
  unfold executeInstructions at h
  simp only at h
  split at h
  · cases h
  · rename_i w₁ hreserve
    have hnext : w₁.nextEntity = w.nextEntity := by
      unfold reserve at hreserve
      split at hreserve <;> cases hreserve
      rfl
    cases hrun : w₁.run w.checkpoint.deltaFrontier is with
    | error message =>
      rw [hrun] at h
      cases h
    | ok r =>
      obtain ⟨outcome, w₂⟩ := r
      rw [hrun] at h
      cases outcome with
      | rejected error => cases h
      | accepted =>
        cases h
        rw [Workspace.accept_nextEntity, (run_live hrun).1, hnext]

namespace VmEpochMaterializer

variable {m m' : VmEpochMaterializer}

theorem nextEntity_slotToken (m : VmEpochMaterializer) (slot : SlotId) :
    (m.slotToken slot).2.workspace.nextEntity = m.workspace.nextEntity := by
  unfold slotToken
  split
  · rfl
  · split
    · rfl
    · unfold ensureSlotCount
      simp only
      split <;> rfl

/-- **One operation** compiles to as many allocations as it makes. -/
theorem compileOperation_allocates (m : VmEpochMaterializer) (op : Operation) :
    (m.compileOperation op).2.workspace.nextEntity = m.workspace.nextEntity ∧
      ∀ is, (m.compileOperation op).1 = .ok is →
        is.countP allocates = if op.allocates then 1 else 0 := by
  cases op with
  | allocateEntity e =>
    simp only [compileOperation]
    split
    · exact ⟨rfl, fun is hc => (by cases hc)⟩
    · refine ⟨rfl, fun is hc => ?_⟩
      obtain rfl := Except.ok.inj hc
      rfl
  | forget slot =>
    refine ⟨nextEntity_slotToken m slot, fun is hc => ?_⟩
    obtain rfl := Except.ok.inj hc
    rfl
  | define slot fact =>
    simp only [compileOperation]
    have hslot := nextEntity_slotToken m slot
    generalize m.slotToken slot = r₁ at hslot ⊢
    obtain ⟨t, m₁⟩ := r₁
    simp only at hslot ⊢
    obtain ⟨-, -, hsubject⟩ := atomCell_same m₁ fact.subject
    generalize m₁.atomCell fact.subject = r₂ at hsubject ⊢
    obtain ⟨c₂, m₂⟩ := r₂
    simp only at hsubject ⊢
    cases c₂ with
    | error e => exact ⟨by rw [hsubject]; exact hslot, fun is hc => (by cases hc)⟩
    | ok s =>
      obtain ⟨-, -, hpredicate⟩ := predicateCell_same m₂ fact.predicate
      simp only
      generalize m₂.predicateCell fact.predicate = r₃ at hpredicate ⊢
      obtain ⟨p, m₃⟩ := r₃
      simp only at hpredicate ⊢
      obtain ⟨-, -, hobject⟩ := atomCell_same m₃ fact.object
      generalize m₃.atomCell fact.object = r₄ at hobject ⊢
      obtain ⟨c₄, m₄⟩ := r₄
      simp only at hobject ⊢
      have hall : m₄.workspace.nextEntity = m.workspace.nextEntity := by
        rw [hobject, hpredicate, hsubject, hslot]
      cases c₄ with
      | error e => exact ⟨hall, fun is hc => (by cases hc)⟩
      | ok o =>
        refine ⟨hall, fun is hc => ?_⟩
        obtain rfl := Except.ok.inj hc
        rfl

theorem compileOperations_allocates (m : VmEpochMaterializer) (ops : List Operation) :
    (m.compileOperations ops).2.workspace.nextEntity = m.workspace.nextEntity ∧
      ∀ is, (m.compileOperations ops).1 = .ok is →
        is.countP allocates = ops.countP Operation.allocates := by
  induction ops generalizing m with
  | nil =>
    refine ⟨rfl, fun is hc => ?_⟩
    obtain rfl := Except.ok.inj hc
    rfl
  | cons op ops ih =>
    obtain ⟨hone, hcount⟩ := compileOperation_allocates m op
    unfold compileOperations
    generalize m.compileOperation op = r₁ at hone hcount ⊢
    obtain ⟨c₁, m₁⟩ := r₁
    simp only at hone hcount
    cases c₁ with
    | error e => exact ⟨hone, fun is hc => (by cases hc)⟩
    | ok js =>
      simp only
      obtain ⟨hrest, hcounts⟩ := ih m₁
      generalize m₁.compileOperations ops = r₂ at hrest hcounts ⊢
      obtain ⟨c₂, m₂⟩ := r₂
      simp only at hrest hcounts
      cases c₂ with
      | error e => exact ⟨hrest.trans hone, fun is hc => (by cases hc)⟩
      | ok ks =>
        refine ⟨hrest.trans hone, fun is hc => ?_⟩
        obtain rfl := Except.ok.inj hc
        rw [List.countP_append, List.countP_cons, hcount js rfl, hcounts ks rfl]
        exact Nat.add_comm _ _

/-- What an epoch has accepted so far leads from the allocator before it. -/
def EpochRun.LeadsFrom (n : ℕ) (r : EpochRun) : Prop :=
  Leads n r.operations r.materializer.workspace.nextEntity

theorem EpochRun.intent_leads {n : ℕ} {r r' : EpochRun} {i : QueuedIntent} {d : Decision}
    (h : r.LeadsFrom n) (hi : r.intent i = .ok (d, r')) : r'.LeadsFrom n := by
  unfold EpochRun.intent at hi
  split at hi
  · cases hi
  · cases hi
    exact h
  · split at hi
    · cases hi
      exact h
    · rename_i ops entities hops
      obtain ⟨hnext, hcount⟩ := compileOperations_allocates r.materializer ops
      split at hi
      · cases hi
      · rename_i is m₁ hcompile
        rw [hcompile] at hnext hcount
        split at hi
        · cases hi
        · rename_i w hw
          cases hi
          have hmoved := executeInstructions_allocates hw
          rw [hcount is rfl, hnext] at hmoved
          have hresolved := leads_of_resolved hops
          rw [← hmoved] at hresolved
          exact h.append hresolved
        · cases hi

/-- **The operations of an epoch** lead to the allocator behind it. -/
theorem EpochRun.intents_leads {n : ℕ} {r r' : EpochRun} {is : List QueuedIntent}
    {ds : List Decision} (h : r.LeadsFrom n) (hi : r.intents is = .ok (ds, r')) :
    r'.LeadsFrom n := by
  induction is generalizing r ds with
  | nil =>
    cases hi
    exact h
  | cons i is ih =>
    unfold EpochRun.intents at hi
    split at hi
    · cases hi
    · rename_i d r₁ hone
      split at hi
      · cases hi
      · rename_i ds' r₂ hrest
        cases hi
        exact ih (EpochRun.intent_leads h hone) hrest

end VmEpochMaterializer

namespace SemanticCompiler

variable {c c' c'' : SemanticCompiler}

theorem nextEntity_slotToken (t : TrialVocabulary) (slot : SlotId) :
    (t.slotToken slot).2.materializer.workspace.nextEntity =
      t.materializer.workspace.nextEntity := by
  unfold TrialVocabulary.slotToken
  split
  · rfl
  · split
    · rfl
    · split
      · rfl
      · unfold ensureSlotCount
        simp only
        split <;> rfl

/-- The compiler behind some operations, their program, and what they are committed as. -/
structure Emits (c c' : SemanticCompiler) (ops : List TransactionOp)
    (synthesize : Dict String ℕ → Except String (List Operation)) (is : List Instruction) :
    Prop where
  next : c'.next = c.next + is.countP allocates
  allocator : c'.trial.materializer.workspace.nextEntity =
    c.trial.materializer.workspace.nextEntity
  bound : ∀ s x, c.bindings.lookup s = some x → c'.bindings.lookup s = some x
  binds : Binds c c' ops
  synthesized : ∀ temps, Bound c'.bindings temps →
    ∃ os, synthesize temps = .ok os ∧ Leads c.next os c'.next

/-- An operation that allocates nothing. -/
theorem Emits.plain {op : TransactionOp} {is : List Instruction}
    (hallocator : c'.trial.materializer.workspace.nextEntity =
      c.trial.materializer.workspace.nextEntity)
    (hlocal : c'.localEntityCount = c.localEntityCount) (hbindings : c'.bindings = c.bindings)
    (hassign : ∀ temps n rest, assignTemps temps n (op :: rest) = assignTemps temps n rest)
    (hcount : is.countP allocates = 0)
    (hsynthesized : ∀ temps, Bound c.bindings temps →
      ∃ os, op.synthesize temps = .ok os ∧ ∀ n, Leads n os n) :
    Emits c c' [op] op.synthesize is := by
  have hnext : c'.next = c.next := by
    unfold SemanticCompiler.next
    rw [hallocator, hlocal]
  refine ⟨?_, hallocator, fun s x hx => ?_, binds_nothing hbindings hnext hassign,
    fun temps htemps => ?_⟩
  · rw [hnext, hcount]
    rfl
  · rw [hbindings]
    exact hx
  · rw [hbindings] at htemps
    obtain ⟨os, hos, hleads⟩ := hsynthesized temps htemps
    exact ⟨os, hos, by rw [hnext]; exact hleads _⟩

/-- What an operand leaves alone. -/
theorem allocator_of_atomCell {x : AtomRef} {r : Except String ℕ} (h : c.atomCell x = .ok (r, c')) :
    c'.trial.materializer.workspace = c.trial.materializer.workspace := by
  obtain ⟨hbare, -⟩ := atomCell_shape h
  have hworkspace := congrArg (fun t : TrialVocabulary => t.materializer.workspace) hbare
  exact hworkspace

theorem allocator_of_predicateCell (t : TrialVocabulary) (p : Predicate) :
    (t.predicateCell p).2.materializer.workspace = t.materializer.workspace := by
  have hworkspace := congrArg (fun t : TrialVocabulary => t.materializer.workspace)
    (TrialVocabulary.predicateCell_bare t p)
  exact hworkspace

/-- Compiling leaves the allocator alone, whether it fails or not. -/
theorem allocator_of_operation {op : TransactionOp} {r : Except String (List Instruction)}
    (h : c.operation op = .ok (r, c')) : c'.trial.materializer.workspace.nextEntity =
      c.trial.materializer.workspace.nextEntity := by
  cases op with
  | allocate result =>
    simp only [operation] at h
    split at h
    · cases h
      rfl
    · split at h <;> cases h <;> rfl
  | expectWorld expected =>
    cases h
    rfl
  | reject =>
    cases h
    rfl
  | forget slot =>
    cases h
    exact nextEntity_slotToken _ _
  | expectObject slot expected =>
    simp only [operation] at h
    have hslot := nextEntity_slotToken c.trial ⟨slot⟩
    generalize c.trial.slotToken ⟨slot⟩ = p at h hslot
    obtain ⟨token, trial⟩ := p
    simp only at h hslot
    split at h
    · cases h
    all_goals
      rename_i c₂ hc₂
      cases h
      rw [allocator_of_atomCell hc₂]
      exact hslot
  | define slot subject predicate object =>
    simp only [operation] at h
    have hslot := nextEntity_slotToken c.trial ⟨slot⟩
    generalize c.trial.slotToken ⟨slot⟩ = p at h hslot
    obtain ⟨token, trial⟩ := p
    simp only at h hslot
    split at h
    · cases h
    · rename_i c₂ hc₂
      cases h
      rw [allocator_of_atomCell hc₂]
      exact hslot
    rename_i subjectCell c₂ hc₂
    have hw₂ := allocator_of_atomCell hc₂
    have hw₃ := allocator_of_predicateCell c₂.trial ⟨predicate⟩
    generalize c₂.trial.predicateCell ⟨predicate⟩ = p at hw₃ h
    obtain ⟨predicateCell, trial₃⟩ := p
    simp only at hw₃ h
    split at h
    · cases h
    all_goals
      rename_i c₄ hc₄
      cases h
      rw [allocator_of_atomCell hc₄, hw₃, hw₂]
      exact hslot

theorem allocator_of_operations {ops : List TransactionOp} {r : Except String (List Instruction)}
    (h : c.operations ops = .ok (r, c')) : c'.trial.materializer.workspace.nextEntity =
      c.trial.materializer.workspace.nextEntity := by
  induction ops generalizing c r with
  | nil =>
    cases h
    rfl
  | cons op ops ih =>
    simp only [operations] at h
    split at h
    · cases h
    · rename_i c₁ hc₁
      cases h
      exact allocator_of_operation hc₁
    · rename_i js c₁ hc₁
      have hone := allocator_of_operation hc₁
      split at h
      · cases h
      · rename_i c₂ hc₂
        cases h
        exact (ih hc₂).trans hone
      · rename_i ks c₂ hc₂
        cases h
        exact (ih hc₂).trans hone

/-- **One operation** emits as many allocations as it is committed as. -/
theorem operation_emits {op : TransactionOp} {is : List Instruction}
    (h : c.operation op = .ok (.ok is, c')) : Emits c c' [op] op.synthesize is := by
  have hallocator := allocator_of_operation h
  cases op with
  | allocate result =>
    simp only [operation] at h
    split at h
    · cases h
    · rename_i hnew
      split at h
      · cases h
      · cases h
        have hnew' : c.bindings.lookup result = none := by simpa using hnew
        refine ⟨rfl, rfl, fun s x hs => ?_, fun temps hb =>
          ⟨temps.insert result c.next, fun s x hs => ?_, fun rest => rfl⟩, fun temps hb => ?_⟩
        · have hne : s ≠ result := by
            rintro rfl
            rw [hnew'] at hs
            cases hs
          rw [AList.lookup_insert_ne hne]
          exact hs
        · by_cases he : s = result
          · subst he
            rw [AList.lookup_insert] at hs ⊢
            rw [← Option.some.inj hs]
            rfl
          · rw [AList.lookup_insert_ne he] at hs ⊢
            exact hb s x hs
        · -- the symbol is bound to the next entity, and stays so
          have hentity := hb result _ (AList.lookup_insert _)
          refine ⟨[.allocateEntity ⟨c.next⟩], ?_, fun a ha => ⟨{ a with next := a.next + 1 }, ?_, ?_⟩⟩
          · simp only [TransactionOp.synthesize, tempEntity, hentity]
            rfl
          · simp only [WorldState.applyAll, WorldState.apply, if_pos ha.symm, Option.bind_some]
          · rw [ha]
            unfold SemanticCompiler.next
            simp only
            omega
  | expectWorld expected =>
    cases h
    exact .plain rfl rfl rfl (fun _ _ _ => rfl) rfl fun temps _ => ⟨[], rfl, .nil⟩
  | reject =>
    cases h
    exact .plain rfl rfl rfl (fun _ _ _ => rfl) rfl fun temps _ => ⟨[], rfl, .nil⟩
  | forget slot =>
    cases h
    refine .plain hallocator rfl rfl (fun _ _ _ => rfl) rfl fun temps _ =>
      ⟨[.forget ⟨slot⟩], rfl, fun n a ha => ⟨_, rfl, ha⟩⟩
  | expectObject slot expected =>
    simp only [operation] at h
    generalize c.trial.slotToken ⟨slot⟩ = p at h
    obtain ⟨token, trial⟩ := p
    simp only at h
    split at h
    · cases h
    · cases h
    · rename_i cell c₂ hcell
      cases h
      obtain ⟨-, hbindings, hlocal, -⟩ := atomCell_shape hcell
      exact .plain hallocator hlocal hbindings (fun _ _ _ => rfl) rfl fun temps _ =>
        ⟨[], rfl, .nil⟩
  | define slot subject predicate object =>
    simp only [operation] at h
    generalize c.trial.slotToken ⟨slot⟩ = p at h
    obtain ⟨token, trial⟩ := p
    simp only at h
    split at h
    · cases h
    · cases h
    rename_i subjectCell c₂ hc₂
    obtain ⟨-, hs₂, hl₂, hr₂⟩ := atomCell_shape hc₂
    generalize c₂.trial.predicateCell ⟨predicate⟩ = p at h
    obtain ⟨predicateCell, trial₃⟩ := p
    simp only at h
    split at h
    · cases h
    · cases h
    rename_i objectCell c₄ hc₄
    cases h
    obtain ⟨-, hs₄, hl₄, hr₄⟩ := atomCell_shape hc₄
    refine .plain hallocator (hl₄.trans hl₂) (hs₄.trans hs₂) (fun _ _ _ => rfl) rfl
      fun temps hb => ?_
    obtain ⟨s, hs⟩ := hr₂ _ rfl temps hb
    obtain ⟨o, ho⟩ := hr₄ _ rfl temps (by rw [← hs₂] at hb; exact hb)
    refine ⟨[.define ⟨slot⟩ ⟨s, ⟨predicate⟩, o⟩], ?_, fun n a ha => ⟨_, rfl, ha⟩⟩
    simp only [TransactionOp.synthesize, hs, ho, bind, Except.bind, pure, Except.pure]

/-- **A semantic program** emits as many allocations as it is committed as. -/
theorem operations_emits {ops : List TransactionOp} {is : List Instruction}
    (h : c.operations ops = .ok (.ok is, c')) :
    Emits c c' ops (fun temps => synthesizeOperations temps ops) is := by
  induction ops generalizing c is with
  | nil =>
    cases h
    exact ⟨rfl, rfl, fun _ _ hs => hs, fun temps hb => ⟨temps, hb, fun _ => rfl⟩,
      fun temps _ => ⟨[], rfl, .nil _⟩⟩
  | cons op ops ih =>
    simp only [operations] at h
    split at h
    · cases h
    · cases h
    rename_i js c₁ hc₁
    have hone := operation_emits hc₁
    split at h
    · cases h
    · cases h
    rename_i ks c₂ hc₂
    cases h
    have hrest := ih hc₂
    refine ⟨?_, hrest.allocator.trans hone.allocator,
      fun s x hx => hrest.bound s x (hone.bound s x hx), hone.binds.append hrest.binds,
      fun temps htemps => ?_⟩
    · rw [hrest.next, hone.next, List.countP_append, Nat.add_assoc]
    · obtain ⟨os, hos, hleads⟩ := hone.synthesized temps (htemps.mono hrest.bound)
      obtain ⟨ps, hps, hleads'⟩ := hrest.synthesized temps htemps
      refine ⟨os ++ ps, ?_, hleads.append hleads'⟩
      simp only [synthesizeOperations, hos, hps, bind, Except.bind, pure, Except.pure]

end SemanticCompiler

namespace MixedRun

/-- What a mixed epoch has accepted so far leads from the allocator before it. -/
def LeadsFrom (n : ℕ) (s : MixedRun) : Prop :=
  Leads n s.operations s.materializer.workspace.nextEntity

variable {n : ℕ} {s s' : MixedRun}

/-- Behind a refusal the allocator is where it was. -/
theorem LeadsFrom.refused (h : s.LeadsFrom n) {m : VmEpochMaterializer}
    (hm : m.workspace.nextEntity = s.materializer.workspace.nextEntity) :
    LeadsFrom n { s with materializer := m } := by
  unfold LeadsFrom
  rw [hm]
  exact h

/-- A rejected program is rolled back to the allocator it began with. -/
theorem nextEntity_of_rejected {w w' : Workspace} {k : ℕ} {is : List Instruction} {e : ExecError}
    (h : w.executeInstructions k is = .ok (.rejected e, w')) : w'.nextEntity = w.nextEntity := by
  unfold executeInstructions at h
  simp only at h
  split at h
  · cases h
    rfl
  · rename_i w₁ hreserve
    cases hrun : w₁.run w.checkpoint.deltaFrontier is with
    | error message =>
      rw [hrun] at h
      cases h
    | ok r =>
      obtain ⟨outcome, w₂⟩ := r
      rw [hrun] at h
      cases outcome with
      | accepted => cases h
      | rejected error =>
        cases h
        rfl

theorem executeQueued_leads (h : s.LeadsFrom n) {ops : List Operation} {entities : EntityMap}
    (hops : Leads s.materializer.workspace.nextEntity ops
      (s.materializer.workspace.nextEntity + ops.countP Operation.allocates)) {d : MixedDecision}
    (hs : s.executeQueued ops entities = .ok (d, s')) : s'.LeadsFrom n := by
  obtain ⟨hnext, hcount⟩ := VmEpochMaterializer.compileOperations_allocates s.materializer ops
  unfold executeQueued at hs
  split at hs
  · rename_i e m hcompile
    rw [hcompile] at hnext
    cases hs
    exact h.refused hnext
  · rename_i is m hcompile
    rw [hcompile] at hnext hcount
    split at hs
    · cases hs
    · rename_i w hw
      cases hs
      have hmoved := executeInstructions_allocates hw
      rw [hcount is rfl, hnext] at hmoved
      rw [← hmoved] at hops
      exact h.append hops
    · rename_i e w hw
      cases hs
      exact h.refused ((nextEntity_of_rejected hw).trans hnext)

theorem executeSemantic_leads (h : s.LeadsFrom n) {intent : SemanticIntent} {d : MixedDecision}
    (hs : s.executeSemantic intent = .ok (d, s')) : s'.LeadsFrom n := by
  unfold executeSemantic at hs
  simp only [TrialVocabulary.compileSemanticTrial] at hs
  split at hs
  · cases hs
  · rename_i e c hc
    cases hs
    exact h.refused (SemanticCompiler.allocator_of_operations hc)
  · rename_i is c hc
    have hallocator := SemanticCompiler.allocator_of_operations hc
    split at hs
    · cases hs
    · rename_i w hw
      have hemits := SemanticCompiler.operations_emits hc
      -- the temporaries are what the compiler has bound
      obtain ⟨temps, hbound, hassign⟩ := hemits.binds ∅ fun s x hx => by simp at hx
      have hassign₀ := hassign []
      rw [List.append_nil] at hassign₀
      obtain ⟨os, hos, hleads⟩ := hemits.synthesized temps hbound
      have hstart : SemanticCompiler.next ⟨.new s.materializer, ∅, 0⟩ =
          s.materializer.workspace.nextEntity := rfl
      have hsynthesized : intent.synthesized s.materializer.workspace.nextEntity = .ok os := by
        unfold SemanticIntent.synthesized
        rw [← hstart, hassign₀]
        exact hos
      rw [hsynthesized] at hs
      cases hs
      have hmoved := executeInstructions_allocates hw
      rw [hallocator] at hmoved
      rw [hemits.next, hstart] at hleads
      have hsame : (TrialVocabulary.new s.materializer).materializer.workspace.nextEntity =
          s.materializer.workspace.nextEntity := rfl
      rw [hsame] at hmoved
      rw [← hmoved] at hleads
      exact h.append hleads
    · rename_i e w hw
      cases hs
      exact h.refused ((nextEntity_of_rejected hw).trans hallocator)

theorem intent_leads (h : s.LeadsFrom n) {base : World} {kernel : ForthDb} {vs : List Validator}
    {i : ControllerIntent} {d : MixedDecision} (hs : s.intent base kernel vs i = .ok (d, s')) :
    s'.LeadsFrom n := by
  cases i with
  | queued q =>
    simp only [MixedRun.intent, MixedRun.queued] at hs
    split at hs
    · cases hs
    · cases hs
      exact h
    · rename_i ops entities hresolve
      have hops : resolveOperationsFrom s.materializer.workspace.nextEntity q.space
          q.operations = .ok (ops, entities) := by
        unfold resolveQueued at hresolve
        split at hresolve
        · cases hresolve
        · cases hresolve
        · exact Except.ok.inj hresolve
      have hleads := leads_of_resolved hops
      split at hs
      · split at hs
        · cases hs
          exact h
        · split at hs
          · cases hs
            exact h
          · exact executeQueued_leads h hleads hs
      · exact executeQueued_leads h hleads hs
  | semantic i =>
    simp only [MixedRun.intent, MixedRun.semantic] at hs
    split at hs
    · split at hs
      · cases hs
      · split at hs
        · cases hs
          exact h
        · split at hs
          · cases hs
            exact h
          · exact executeSemantic_leads h hs
    · exact executeSemantic_leads h hs

/-- **The operations of a mixed epoch** lead to the allocator behind it. -/
theorem intents_leads (h : s.LeadsFrom n) {base : World} {kernel : ForthDb} {vs : List Validator}
    {is : List ControllerIntent} {ds : List MixedDecision}
    (hs : s.intents base kernel vs is = .ok (ds, s')) : s'.LeadsFrom n := by
  induction is generalizing s ds with
  | nil =>
    cases hs
    exact h
  | cons i is ih =>
    unfold MixedRun.intents at hs
    split at hs
    · cases hs
    · rename_i d s₁ hone
      split at hs
      · cases hs
      · rename_i ds' s₂ hrest
        cases hs
        exact ih (intent_leads h hone) hrest

end MixedRun

end ForthDB
