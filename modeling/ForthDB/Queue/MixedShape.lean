import ForthDB.Vm.TrialShape
import ForthDB.World.History

/-!
# What a mixed epoch publishes

A mixed epoch reads the allocator and the counts of its successor off the workspace. They
are those of the state that its operations lead to, as long as the tokens of slots do not
wrap around.

* `intents_shape`: the loop moves the shape of the workspace as its operations move the
  state.
* `synchronizeTo_shape`: synchronizing reaches the shape of the head.
* `materializeMixed_holds`: **the tail of a mixed epoch holds its history**.
-/

namespace ForthDB

open Workspace VmEpochMaterializer

def IntentOperation.slots : IntentOperation → List SlotId
  | .allocateEntity _ => []
  | .define slot _ | .forget slot => [slot]

/-- The slots that an intent names in its operations. -/
def ControllerIntent.slots : ControllerIntent → List SlotId
  | .queued intent => intent.operations.flatMap IntentOperation.slots
  | .semantic intent => intent.ast.operations.flatMap TransactionOp.slots

/-- What an intent resolves to names its slots. -/
theorem slots_of_resolveOperations {space n : ℕ} {entities entities' : EntityMap}
    {ops : List IntentOperation} {os : List Operation}
    (h : resolveOperations space n entities ops = .ok (os, entities')) :
    os.flatMap Operation.slots = ops.flatMap IntentOperation.slots := by
  induction ops generalizing n entities os with
  | nil => cases h; rfl
  | cons op ops ih =>
    cases op with
    | allocateEntity temporary =>
      simp only [resolveOperations] at h
      split at h
      · cases h
      cases hr : resolveOperations space (n + 1) (entities.insert temporary ⟨n⟩) ops with
      | error e => rw [hr] at h; cases h
      | ok p =>
        rw [hr] at h
        cases h
        have hrest := ih hr
        exact hrest
    | define slot fact =>
      simp only [resolveOperations] at h
      cases hf : fact.resolve space entities with
      | error e => rw [hf] at h; cases h
      | ok f =>
        rw [hf] at h
        cases hr : resolveOperations space n entities ops with
        | error e => simp only [bind, Except.bind, hr] at h; cases h
        | ok p =>
          simp only [bind, Except.bind, hr] at h
          cases h
          exact congrArg (slot :: ·) (ih hr)
    | forget slot =>
      simp only [resolveOperations] at h
      cases hr : resolveOperations space n entities ops with
      | error e => simp only [bind, Except.bind, hr] at h; cases h
      | ok p =>
        simp only [bind, Except.bind, hr] at h
        cases h
        exact congrArg (slot :: ·) (ih hr)

namespace MixedRun

variable {base : FrozenNames} {U : Finset SlotId} {names : List SlotId} {s s' s'' : MixedRun}
  {a b c : WorldState} {accepted accepted' : Bool}

theorem Moves.trans (h : Moves base U s a accepted s' b) (h' : Moves base U s' b accepted' s'' c) :
    Moves base U s a (accepted || accepted') s'' c := by
  obtain ⟨xs, hxs, hb, hsx, hx⟩ := h.operations
  obtain ⟨ys, hys, hc, hsy, hy⟩ := h'.operations
  refine ⟨⟨xs ++ ys, by rw [hys, hxs, List.append_assoc], ?_, ?_, ?_⟩, h'.shaped⟩
  · rw [WorldState.applyAll_append, hb]
    exact hc
  · intro op hop
    rcases List.mem_append.1 hop with hop | hop
    · exact hsx op hop
    · exact hsy op hop
  · intro hor
    rw [Bool.or_eq_false_iff] at hor
    rw [hx hor.1, hy hor.2]
    rfl

theorem executeQueued_shape (h : s.materializer.Shaped base names a) (hU : ∀ k ∈ names, k ∈ U)
    (hbase : Supply base U) {ops : List Operation} (hb : a.applyAll ops = some b)
    (hops : ∀ op ∈ ops, ∀ k ∈ op.slots, k ∈ U) {entities : EntityMap} {d : MixedDecision}
    (hs : s.executeQueued ops entities = .ok (d, s')) : ∃ c, Moves base U s a d.isAccepted s' c := by
  obtain ⟨names', hd, he, hl, hU'⟩ := compileOperations_shape h.slots hbase hU hops
  unfold executeQueued at hs
  generalize s.materializer.compileOperations ops = r at hd he hl hs
  obtain ⟨r, m⟩ := r
  simp only at hd he hl hs
  have hm := h.extend hd he
  cases r with
  | error e =>
    cases hs
    exact ⟨a, .refused hm hU'⟩
  | ok is =>
    simp only at hs
    split at hs
    · cases hs
    · rename_i w hw
      cases hs
      refine ⟨b, .accepted (hm.execute ?_ hb hw) hU' hb hops⟩
      rw [(hl is rfl).effects_eq]
      exact hl is rfl
    · rename_i e w hw
      cases hs
      exact ⟨a, .refused (hm.reject hw) hU'⟩

/-- A refusal that touches nothing. -/
theorem Moves.unchanged (h : s.materializer.Shaped base names a) (hU : ∀ k ∈ names, k ∈ U) :
    Moves base U s a false s a := .refused h hU

variable {w : World} {kernel : ForthDb} {validators : List Validator}

/-- **One intent** moves the shape as its operations move the state. -/
theorem intent_shape (h : s.materializer.Shaped base names a) (hU : ∀ k ∈ names, k ∈ U)
    (hbase : Supply base U) {intent : ControllerIntent} (hi : ∀ k ∈ intent.slots, k ∈ U)
    {d : MixedDecision} (hs : s.intent w kernel validators intent = .ok (d, s')) :
    ∃ b, Moves base U s a d.isAccepted s' b := by
  cases intent with
  | queued intent =>
    simp only [MixedRun.intent, queued] at hs
    split at hs
    · cases hs
    · cases hs
      exact ⟨a, .unchanged h hU⟩
    rename_i ops entities hr
    have hres : resolveOperationsFrom s.materializer.workspace.nextEntity intent.space
        intent.operations = .ok (ops, entities) := by
      unfold resolveQueued at hr
      split at hr
      · cases hr
      · cases hr
      · exact Except.ok.inj hr
    obtain ⟨b, hb⟩ := applyAll_of_resolved hres h.nextEntity.symm
    have hops : ∀ op ∈ ops, ∀ k ∈ op.slots, k ∈ U := by
      intro op hop k hk
      refine hi k ?_
      unfold ControllerIntent.slots
      simp only
      rw [← slots_of_resolveOperations hres]
      exact List.mem_flatMap.2 ⟨op, hop, hk⟩
    split at hs
    · split at hs
      · cases hs
        exact ⟨a, .unchanged h hU⟩
      · split at hs
        · cases hs
          exact ⟨a, .unchanged h hU⟩
        · exact executeQueued_shape h hU hbase hb hops hs
    · exact executeQueued_shape h hU hbase hb hops hs
  | semantic intent =>
    have hops : ∀ op ∈ intent.ast.operations, ∀ k ∈ op.slots, k ∈ U := fun op hop k hk =>
      hi k (List.mem_flatMap.2 ⟨op, hop, hk⟩)
    simp only [MixedRun.intent, semantic] at hs
    split at hs
    · split at hs
      · cases hs
      · split at hs
        · cases hs
          exact ⟨a, .unchanged h hU⟩
        · split at hs
          · cases hs
            exact ⟨a, .unchanged h hU⟩
          · exact executeSemantic_shape h hU hbase hops hs
    · exact executeSemantic_shape h hU hbase hops hs

/-- **The intents of an epoch** move the shape as their operations move the state. -/
theorem intents_shape (h : s.materializer.Shaped base names a) (hU : ∀ k ∈ names, k ∈ U)
    (hbase : Supply base U) {intents : List ControllerIntent}
    (hi : ∀ i ∈ intents, ∀ k ∈ i.slots, k ∈ U) {ds : List MixedDecision}
    (hs : s.intents w kernel validators intents = .ok (ds, s')) :
    ∃ b, Moves base U s a (ds.any MixedDecision.isAccepted) s' b := by
  induction intents generalizing s names a ds with
  | nil =>
    cases hs
    exact ⟨a, .unchanged h hU⟩
  | cons i rest ih =>
    rw [List.forall_mem_cons] at hi
    simp only [intents] at hs
    split at hs
    · cases hs
    rename_i d s₁ hd
    split at hs
    · cases hs
    rename_i ds' s₂ hds
    cases hs
    obtain ⟨b, hmove⟩ := intent_shape h hU hbase hi.1 hd
    obtain ⟨names', hshape, hU'⟩ := hmove.shaped
    obtain ⟨c, hmoves⟩ := ih hshape hU' hi.2 hds
    exact ⟨c, by rw [List.any_cons]; exact hmove.trans hmoves⟩

end MixedRun

namespace VmEpochMaterializer

variable {base : FrozenNames} {U : Finset SlotId} {names : List SlotId}
  {m m' : VmEpochMaterializer} {w : World} {fs : List CommitFrame} {a b : WorldState}

/-- **The tail of a mixed epoch** holds its history, and the materializer has its shape. -/
theorem materializeMixed_holds (h : m.Shaped base names a) (hU : ∀ k ∈ names, k ∈ U)
    (hbase : Supply base U) (hw : w.Holds fs a) {intents : List ControllerIntent}
    (hi : ∀ i ∈ intents, ∀ k ∈ i.slots, k ∈ U) {vs : List Validator} {plan : MixedEpochPlan}
    (hm : m.materializeMixed w intents vs = .ok (plan, m')) :
    ∃ b names', plan.tail.Holds (fs ++ plan.frames) b ∧ m'.Shaped base names' b ∧
      (∀ k ∈ names', k ∈ U) ∧ (∀ op ∈ operationsOf plan.frames, ∀ k ∈ op.slots, k ∈ U) ∧
      (plan.frames = [] ∧ plan.tail = w ∨ ∃ ops, plan.frames = [(World.fromVmEpoch w ops b.next
        b.slots.size b.records).2] ∧ plan.tail =
          (World.fromVmEpoch w ops b.next b.slots.size b.records).1) := by
  unfold materializeMixed at hm
  split at hm
  · cases hm
  split at hm
  · cases hm
  rename_i k _ ds s hs
  cases hm
  have h₀ : (m.startMixed w).materializer.Shaped base names a := h
  obtain ⟨b, ⟨ops, hops, hb, hslots, hnone⟩, names', hshape, hU'⟩ :=
    MixedRun.intents_shape h₀ hU hbase hi hs
  have hops' : s.operations = ops := hops
  refine ⟨b, names', ?_⟩
  simp only [hops', hshape.nextEntity, hshape.activeSlotCount, hshape.deltaCount]
  unfold MixedEpochPlan.assemble
  by_cases hacc : ds.any MixedDecision.isAccepted = true
  · rw [if_pos hacc]
    refine ⟨World.fromVmEpoch_holds hw hb, hshape, hU', ?_, .inr ⟨ops, rfl, rfl⟩⟩
    rw [operationsOf, List.flatMap_singleton]
    exact hslots
  · rw [if_neg hacc]
    obtain rfl := hnone (by simpa using hacc)
    cases hb
    exact ⟨by rw [List.append_nil]; exact hw, hshape, hU', by simp, .inl ⟨rfl, rfl⟩⟩

/-- **Committed operations** move the shape as they move the state. -/
theorem applyCommitted_shape (h : m.Shaped base names a) (hU : ∀ k ∈ names, k ∈ U)
    (hbase : Supply base U) {ops : List Operation} (hb : a.applyAll ops = some b)
    (hops : ∀ op ∈ ops, ∀ k ∈ op.slots, k ∈ U) (hm : m.applyCommitted ops = .ok m') :
    ∃ names', m'.Shaped base names' b ∧ ∀ k ∈ names', k ∈ U := by
  obtain ⟨names', hd, he, hl, hU'⟩ := compileOperations_shape h.slots hbase hU hops
  unfold applyCommitted at hm
  generalize m.compileOperations ops = r at hd he hl hm
  obtain ⟨r, m₁⟩ := r
  cases r with
  | error e => cases hm
  | ok is =>
    simp only at hd he hl hm
    have hm₁ := h.extend hd he
    cases hw : m₁.workspace.executeInstructions 0 is with
    | error e => rw [hw] at hm; cases hm
    | ok q =>
      obtain ⟨outcome, w⟩ := q
      rw [hw] at hm
      cases outcome with
      | rejected e => cases hm
      | accepted =>
        obtain rfl := Except.ok.inj hm
        refine ⟨names', hm₁.execute ?_ hb hw, hU'⟩
        rw [(hl is rfl).effects_eq]
        exact hl is rfl

/-- The version of a materializer plays no part in its shape. -/
theorem Shaped.withVersion (h : m.Shaped base names a) (version : ℕ) :
    { m with version := version }.Shaped base names a :=
  h.congr ⟨h.slots.below, h.slots.slots, h.slots.slots_size, h.slots.predicates,
    h.slots.predicates_size, h.slots.literals⟩ rfl rfl

/-- The frames are numbered by the versions they start from. -/
def Numbered (fs : List CommitFrame) : Prop :=
  fs.map CommitFrame.parentVersion = List.range fs.length

theorem numbered_snoc {f : CommitFrame} (h : Numbered fs) (hf : f.parentVersion = fs.length) :
    Numbered (fs ++ [f]) := by
  unfold Numbered at h ⊢
  rw [List.map_append, h, List.length_append, List.length_singleton, List.range_succ]
  simp [hf]

theorem Numbered.parentVersion_eq {xs gs : List CommitFrame} {g : CommitFrame}
    (h : Numbered (xs ++ g :: gs)) : g.parentVersion = xs.length := by
  unfold Numbered at h
  have h₁ := congrArg (fun l : List ℕ => l[xs.length]?) h
  simpa using h₁

/-- **Frames that are synchronized** bring the shape to the end of the history. Behind the
first frames `xs` the materializer is not behind them. -/
theorem synchronizeFrames_shape (xs : List CommitFrame) {gs : List CommitFrame} {c : WorldState}
    (hn : Numbered (xs ++ gs)) (ha : WorldState.genesis.applyAll (operationsOf (xs ++ gs)) = some a)
    (hslots : ∀ op ∈ operationsOf (xs ++ gs), ∀ k ∈ op.slots, k ∈ U) (hle : xs.length ≤ m.version)
    (hv : m.version ≤ (xs ++ gs).length)
    (hc : WorldState.genesis.applyAll (operationsOf ((xs ++ gs).take m.version)) = some c)
    (h : m.Shaped base names c) (hU : ∀ k ∈ names, k ∈ U) (hbase : Supply base U)
    (hm : m.synchronizeFrames gs = .ok m') :
    ∃ names', m'.Shaped base names' a ∧ (∀ k ∈ names', k ∈ U) := by
  induction gs generalizing m names c xs with
  | nil =>
    cases hm
    rw [List.append_nil] at hv hc ha
    rw [List.take_of_length_le hle, ha] at hc
    rw [Option.some.inj hc]
    exact ⟨names, h, hU⟩
  | cons g gs ih =>
    simp only [synchronizeFrames] at hm
    split at hm
    · cases hm
    rename_i m₁ hm₁
    have happ : xs ++ g :: gs = (xs ++ [g]) ++ gs := by simp
    have hlen : (xs ++ [g]).length = xs.length + 1 := by simp
    have hg := hn.parentVersion_eq
    rw [happ] at hn ha hslots hv hc
    simp only [synchronizeFrame, hg] at hm₁
    split at hm₁
    · -- the next frame is new: the materializer is exactly behind `xs`
      rename_i hnew
      have hver : m.version = xs.length := by omega
      cases hcommit : m.applyCommitted g.operations with
      | error e => rw [hcommit] at hm₁; cases hm₁
      | ok m₂ =>
        rw [hcommit] at hm₁
        cases hm₁
        rw [hver, List.append_assoc, List.take_left] at hc
        obtain ⟨b, hb⟩ : ∃ b, c.applyAll g.operations = some b := by
          rw [operationsOf, List.append_assoc, List.flatMap_append, WorldState.applyAll_append, hc,
            Option.bind_some, List.singleton_append, List.flatMap_cons,
            WorldState.applyAll_append] at ha
          cases hb : c.applyAll g.operations with
          | none => rw [hb] at ha; cases ha
          | some b => exact ⟨b, rfl⟩
        have hgslots : ∀ op ∈ g.operations, ∀ k ∈ op.slots, k ∈ U := fun op hop =>
          hslots op (List.mem_flatMap.2 ⟨g, by simp, hop⟩)
        obtain ⟨names₂, h₂, hU₂⟩ := applyCommitted_shape h hU hbase hb hgslots hcommit
        refine ih (xs ++ [g]) hn ha hslots (by simp) ?_ ?_ (h₂.withVersion _) hU₂ hm
        · rw [List.length_append, hlen]
          exact Nat.le_add_right _ _
        · rw [List.take_left' hlen, operationsOf, List.flatMap_append, WorldState.applyAll_append,
            hc, Option.bind_some, List.flatMap_singleton]
          exact hb
    · cases hm₁
      exact ih (xs ++ [g]) hn ha hslots (by omega) hv hc h hU hm

/-- A materializer that was carried along with a history: it has the shape of the state after
as many frames as its version says, or is still to be reset. -/
structure Follows (base : FrozenNames) (m : VmEpochMaterializer) (fs : List CommitFrame) :
    Prop where
  version_le : m.version ≤ fs.length
  shaped : ∃ names, Dictionaries base names m.bare ∧
    (m.version = 0 ∧ fs ≠ [] ∨ ∃ c,
      WorldState.genesis.applyAll (operationsOf (fs.take m.version)) = some c ∧
        m.Shaped base names c)

/-- A longer history leaves the materializer where it was. -/
theorem Follows.append (h : Follows base m fs) (gs : List CommitFrame) :
    Follows base m (fs ++ gs) := by
  obtain ⟨hle, names, hd, hs⟩ := h
  refine ⟨?_, names, hd, ?_⟩
  · rw [List.length_append]
    omega
  · rw [List.take_append_of_le_length hle]
    rcases hs with ⟨hv, hne⟩ | hs
    · exact .inl ⟨hv, by simp [hne]⟩
    · exact .inr hs

/-- **Synchronizing** brings the shape to the head. -/
theorem synchronizeTo_shape (h : Follows base m fs) (hw : w.Replays fs a)
    (hv : w.version = fs.length) (hn : Numbered fs)
    (hslots : ∀ op ∈ operationsOf fs, ∀ k ∈ op.slots, k ∈ U)
    (hknown : ∀ k, m.slots.lookup k ≠ none → k ∈ U) (hbase : Supply base U)
    (hm : m.synchronizeTo w = .ok m') :
    ∃ names', m'.Shaped base names' a ∧ ∀ k ∈ names', k ∈ U := by
  obtain ⟨hle, names, hd, hs⟩ := h
  have ha := hw.chained.applyAll
  have hU : ∀ k ∈ names, k ∈ U := fun k hk => hknown k fun hnone =>
    hd.slots.not_mem_of_none hnone hk
  unfold synchronizeTo at hm
  rw [hw.frames, hv] at hm
  split at hm
  · cases hm
  split at hm
  · -- nothing to do: the materializer has the shape of the head
    rename_i heq
    cases hm
    rcases hs with ⟨hzero, hne⟩ | ⟨c, hc, hshape⟩
    · exact absurd (List.length_eq_zero_iff.1 (heq.symm.trans hzero)) hne
    · rw [List.take_of_length_le heq.ge, ha] at hc
      rw [Option.some.inj hc]
      exact ⟨names, hshape, hU⟩
  simp only at hm
  split at hm
  · -- the reset: a new workspace has the shape of genesis
    rename_i hzero
    have h₀ := hd.shaped 1
    have hz : { m with workspace := Workspace.withIndexesFrom 1 0 32 }.version = 0 := hzero.1
    generalize { m with workspace := Workspace.withIndexesFrom 1 0 32 } = m₀ at h₀ hz hm
    refine synchronizeFrames_shape [] hn ha hslots (Nat.zero_le _) ?_ ?_ h₀ hU hbase hm
    · omega
    · rw [hz]
      rfl
  · rename_i hzero
    rcases hs with ⟨hz, hne⟩ | ⟨c, hc, hshape⟩
    · exact absurd ⟨hz, List.length_pos_of_ne_nil hne⟩ hzero
    · exact synchronizeFrames_shape [] hn ha hslots (Nat.zero_le _) hle hc hshape hU hbase hm

end VmEpochMaterializer

end ForthDB
