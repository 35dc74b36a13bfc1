import ForthDB.Queue.DurablePlanning
import ForthDB.Snapshot.Capture

/-!
# When a materialization returns a plan

`Reachable w m a`: an engine can come to plan an epoch on the world `w` with the
materializer `m`, which stands for the state `a`. The admission engine starts from
genesis or from a written image and keeps one materializer; the file-backed engine
makes a new one for each epoch.

* `Reachable.ready`: every reachable materializer stands for its state.
* `materialize_answers_iff`: an epoch without validators is answered, each intent by
  one outcome, exactly when what it accepts can be carried out. Otherwise the
  materialization halts as a whole.
-/

namespace ForthDB

/-- What an engine can come to plan on: a world, a materializer, and the state that the
materializer stands for. -/
inductive Reachable : World → VmEpochMaterializer → WorldState → Prop
  | genesis : Reachable .genesis (.new World.genesis.nextEntity) .genesis
  | durable {w : World} : Published w → Reachable w (.new w.nextEntity) (bareState w)
  | epoch {w : World} {m m' : VmEpochMaterializer} {a b : WorldState} {is : List QueuedIntent}
      {vs : List Validator} {plan : EpochPlan} {usedVm : Bool} : Reachable w m a →
      m.materialize w is vs = .ok ((plan, usedVm), m') →
      a.applyAll (operationsOf plan.frames) = some b → Reachable plan.tail m' b
  | mapped {w : World} {m m' : VmEpochMaterializer} {a : WorldState} {fs : List CommitFrame}
      {p : VmQueryProjection} {journal : List UInt8} {n : ℕ} {s : MmapVmSnapshot} :
      Reachable w m a → w.frames = .ok fs → w.vmQuery = .ok p →
      MmapVmSnapshot.create journal n w p = .ok s → VmEpochMaterializer.fromMmap s = .ok m' →
      Reachable (.fromMmap s) m'
        ⟨(operationsOf fs).foldl SlotStacks.perform .empty, w.recordCount, w.nextEntity⟩

/-- What a plan does to the state of its base. -/
theorem EpochPlan.assemble_cases (base : World) (ds : List Decision) (succ : World × CommitFrame) :
    (ds.any Decision.isAccepted = true ∧ (EpochPlan.assemble base ds succ).tail = succ.1 ∧
        (EpochPlan.assemble base ds succ).frames = [succ.2]) ∨
      (ds.any Decision.isAccepted = false ∧ (EpochPlan.assemble base ds succ).tail = base ∧
        (EpochPlan.assemble base ds succ).frames = []) := by
  unfold EpochPlan.assemble
  split
  · rename_i h; exact .inl ⟨h, rfl, rfl⟩
  · rename_i h; exact .inr ⟨by simpa using h, rfl, rfl⟩

/-- Operations that run from an allocator lead any state with it to the same allocator. -/
theorem applyAll_of_applyOperations {s s' : ForthDb × ℕ} {ops : List Operation}
    (h : applyOperations s ops = .ok s') {a : WorldState} (ha : a.next = s.2) :
    ∃ b, a.applyAll ops = some b ∧ b.next = s'.2 := by
  induction ops generalizing s a with
  | nil => cases h; exact ⟨a, rfl, ha⟩
  | cons op ops ih =>
    simp only [applyOperations] at h
    cases hop : applyOperation s op with
    | error e => rw [hop] at h; cases h
    | ok t =>
      rw [hop] at h
      cases op with
      | allocateEntity e =>
        simp only [applyOperation] at hop
        split at hop
        · cases hop
        rename_i he
        split at hop
        · cases hop
        obtain rfl := Except.ok.inj hop
        push Not at he
        obtain ⟨b, hb, hn⟩ := ih h (a := { a with next := a.next + 1 }) (by simp [ha])
        refine ⟨b, ?_, hn⟩
        simp only [WorldState.applyAll, WorldState.apply, he, ha, if_true, Option.bind_some]
        rw [ha] at hb
        exact hb
      | define slot fact =>
        obtain rfl := Except.ok.inj hop
        obtain ⟨b, hb, hn⟩ := ih h (a := { a with
          slots := a.slots.push slot fact, records := a.records + 1 }) ha
        exact ⟨b, hb, hn⟩
      | forget slot =>
        obtain rfl := Except.ok.inj hop
        obtain ⟨b, hb, hn⟩ := ih h (a := { a with
          slots := a.slots.pop slot, records := a.records + 1 }) ha
        exact ⟨b, hb, hn⟩

/-- The allocator of an epoch's workspace is where its operations lead. -/
def EpochWorkspace.Allocates (s : EpochWorkspace) (n : ℕ) : Prop :=
  ∀ a : WorldState, a.next = n → ∃ b, a.applyAll s.operations = some b ∧ b.next = s.nextEntity

theorem EpochWorkspace.intent_allocates {s : EpochWorkspace} {n : ℕ} (h : s.Allocates n)
    (vs : List Validator) (i : QueuedIntent) : (s.intent vs i).2.Allocates n := by
  unfold EpochWorkspace.intent
  simp only [bind, Except.bind, pure, Except.pure]
  cases ForthDB.checkPreconditions s.predecessorId s.kernel.resolve i.preconditions with
  | error e => exact h
  | ok u =>
    simp only
    cases resolveOperationsFrom s.nextEntity i.space i.operations with
    | error e => exact h
    | ok p =>
      obtain ⟨ops, entities⟩ := p
      simp only
      cases hc : CandidateWorld.constructFromState s.predecessorId s.predecessorVersion
        s.nextEntity s.operationCount s.kernel ops with
      | error e => exact h
      | ok c =>
        simp only [Except.mapError]
        cases runValidators c vs with
        | error e => exact h
        | ok u =>
          intro a ha
          obtain ⟨b, hb, hn⟩ := h a ha
          have hrun : applyOperations (s.kernel, s.nextEntity) ops = .ok (c.kernel, c.nextEntity) ∧
              c.operations = ops := by
            unfold CandidateWorld.constructFromState at hc
            split at hc
            · cases hc
            rename_i k n' hk
            split at hc
            · cases hc
            obtain rfl := Except.ok.inj hc
            exact ⟨hk, rfl⟩
          obtain ⟨b', hb', hn'⟩ := applyAll_of_applyOperations hrun.1 hn
          refine ⟨b', ?_, hn'⟩
          show a.applyAll (s.operations ++ c.operations) = some b'
          rw [hrun.2, WorldState.applyAll_append, hb]
          exact hb'

theorem EpochWorkspace.intents_allocates {s : EpochWorkspace} {n : ℕ} (h : s.Allocates n)
    (vs : List Validator) (is : List QueuedIntent) : (s.intents vs is).2.Allocates n := by
  induction is generalizing s with
  | nil => exact h
  | cons i is ih => exact ih (EpochWorkspace.intent_allocates h vs i)

/-- The tail of a validated plan allocates where the frames of the plan lead. -/
theorem deriveEpochWorld_next {w : World} {is : List QueuedIntent} {vs : List Validator}
    {plan : EpochPlan} (h : deriveEpochWorld w is vs = .ok plan) {a : WorldState}
    (ha : w.nextEntity = a.next) :
    (plan.frames = [] ∨ ∃ f, plan.frames = [f]) ∧
      ∃ b, a.applyAll (operationsOf plan.frames) = some b ∧ plan.tail.nextEntity = b.next := by
  unfold deriveEpochWorld at h
  cases hk : w.kernel with
  | error e => rw [hk] at h; cases h
  | ok k =>
    rw [hk] at h
    obtain rfl := Except.ok.inj h
    simp only
    have h0 : (EpochWorkspace.start w k).Allocates w.nextEntity := fun c hc => ⟨c, rfl, hc⟩
    obtain ⟨b, hb, hn⟩ := EpochWorkspace.intents_allocates h0 vs is a ha.symm
    rcases EpochPlan.assemble_cases w ((EpochWorkspace.start w k).intents vs is).1 _ with
      ⟨-, ht, hf⟩ | ⟨-, ht, hf⟩
    · rw [ht, hf]
      refine ⟨.inr ⟨_, rfl⟩, b, ?_, hn.symm⟩
      rw [operationsOf, List.flatMap_singleton]
      exact hb
    · rw [ht, hf]
      exact ⟨.inl rfl, a, rfl, ha⟩

namespace VmEpochMaterializer

/-- A materializer that an engine can plan with, for the state `a` of a world. -/
structure Ready (w : World) (m : VmEpochMaterializer) (a : WorldState) : Prop where
  next : a.next = w.nextEntity
  holds : ∃ base names, m.Holds base names a ∧ Tight base names m

/-- **Committed operations** carry a materializer to the state they lead to. -/
theorem applyCommitted_holds {base : FrozenNames} {names : List SlotId}
    {m m' : VmEpochMaterializer} {a b : WorldState} (h : m.Holds base names a)
    (ht : Tight base names m) {ops : List Operation} (hb : a.applyAll ops = some b)
    (hm : m.applyCommitted ops = .ok m') :
    ∃ names', m'.Holds base names' b ∧ Tight base names' m' := by
  unfold applyCommitted at hm
  cases hc : m.compileOperations ops with
  | mk r m₁ =>
    rw [hc] at hm
    cases r with
    | error e => cases hm
    | ok is =>
      simp only at hm
      cases hw : m₁.workspace.executeInstructions 0 is with
      | error e => rw [hw] at hm; cases hm
      | ok q =>
        obtain ⟨outcome, w⟩ := q
        rw [hw] at hm
        cases outcome with
        | rejected e => cases hm
        | accepted =>
          obtain rfl := Except.ok.inj hm
          have hf : m.Feasible a ops := by
            by_contra hno
            exact h.execute_halts (fun hle => ht.nameRoom hle) hno hb hc w hw
          obtain ⟨is', m₂, w', names', hc', hw', hm', hrec, -, hn, hv, -⟩ :=
            h.execute_ok (n := 0) (ht.nameRoom hf.2.1) hf hb
          rw [hc] at hc'
          cases hc'
          rw [hw] at hw'
          cases hw'
          exact ⟨names', hm', ht.grow hrec hn hv⟩

theorem Ready.validated {w : World} {m m' : VmEpochMaterializer} {a b : WorldState}
    (h : Ready w m a) {is : List QueuedIntent} {vs : List Validator} {plan : EpochPlan}
    (hp : deriveEpochWorld w is vs = .ok plan) (hb : a.applyAll (operationsOf plan.frames) = some b)
    (hm : m' = m ∧ plan.frames = [] ∨
      ∃ f, plan.frames = [f] ∧ m.applyCommitted f.operations = .ok m') : Ready plan.tail m' b := by
  obtain ⟨-, c, hc, hn⟩ := deriveEpochWorld_next hp h.next.symm
  rw [hb] at hc
  obtain rfl := Option.some.inj hc
  refine ⟨hn.symm, ?_⟩
  obtain ⟨base, names, hh, ht⟩ := h.holds
  rcases hm with ⟨rfl, hf⟩ | ⟨f, hf, hm⟩
  · rw [hf] at hb
    cases hb
    exact ⟨base, names, hh, ht⟩
  · rw [hf, operationsOf, List.flatMap_singleton] at hb
    obtain ⟨names', hh', ht'⟩ := applyCommitted_holds hh ht hb hm
    exact ⟨base, names', hh', ht'⟩

/-- **An epoch** leaves the materializer ready for its tail. -/
theorem Ready.materialize {w : World} {m m' : VmEpochMaterializer} {a b : WorldState}
    (h : Ready w m a) {is : List QueuedIntent} {vs : List Validator} {plan : EpochPlan}
    {usedVm : Bool} (hm : m.materialize w is vs = .ok ((plan, usedVm), m'))
    (hb : a.applyAll (operationsOf plan.frames) = some b) : Ready plan.tail m' b := by
  unfold VmEpochMaterializer.materialize at hm
  by_cases hvs : vs ≠ []
  · rw [if_pos hvs] at hm
    cases hd : deriveEpochWorld w is vs with
    | error e => simp only [hd] at hm; cases hm
    | ok q =>
      simp only [hd] at hm
      rcases (deriveEpochWorld_next hd h.next.symm).1 with hf | ⟨f, hf⟩
      · rw [hf] at hm
        cases hm
        exact h.validated hd hb (.inl ⟨rfl, hf⟩)
      · rw [hf] at hm
        simp only [List.head?_cons] at hm
        cases hc : m.applyCommitted f.operations with
        | error e => rw [hc] at hm; cases hm
        | ok m₁ =>
          rw [hc] at hm
          cases hm
          exact h.validated hd hb (.inr ⟨f, hf, hc⟩)
  · rw [if_neg hvs] at hm
    obtain ⟨base, names, hh, ht⟩ := h.holds
    rcases deriveVmEpoch_spec hh ht h.next is with ⟨-, m₁, names', hd, hh', ht'⟩ | ⟨-, halt, hd⟩
    swap
    · rw [hd] at hm; cases hm
    rw [hd] at hm
    cases hm
    obtain ⟨ops, hops, hs⟩ := EpochState.intents_operations (EpochState.start w a) is
    rcases EpochPlan.assemble_cases w ((EpochState.start w a).intents is).1 (World.fromVmEpoch w
        ((EpochState.start w a).intents is).2.operations
        ((EpochState.start w a).intents is).2.state.next
        ((EpochState.start w a).intents is).2.state.slots.size
        ((EpochState.start w a).intents is).2.state.records) with ⟨-, hta, hf⟩ | ⟨hno, hta, hf⟩
    · rw [hf, operationsOf, List.flatMap_singleton] at hb
      have hb' : a.applyAll ((EpochState.start w a).intents is).2.operations = some b := hb
      rw [hops] at hb'
      have hbs : (EpochState.start w a).state.applyAll ops = some b := hb'
      rw [hs] at hbs
      obtain rfl := Option.some.inj hbs
      rw [hta]
      exact ⟨rfl, base, names', hh', ht'⟩
    · rw [hf] at hb
      cases hb
      have hsame := (EpochState.intents_of_rejected (EpochState.intents_rejected.1 hno)).2
      rw [hsame] at hh'
      rw [hta]
      exact ⟨h.next, base, names', hh', ht'⟩

/-- **A written image** loads into a materializer that is ready for its world. -/
theorem Ready.mapped {w : World} {fs : List CommitFrame} {p : VmQueryProjection}
    {journal : List UInt8} {n : ℕ} {s : MmapVmSnapshot} {m : VmEpochMaterializer}
    (hf : w.frames = .ok fs) (hp : w.vmQuery = .ok p)
    (hs : MmapVmSnapshot.create journal n w p = .ok s) (hm : fromMmap s = .ok m) :
    Ready (.fromMmap s) m
      ⟨(operationsOf fs).foldl SlotStacks.perform .empty, w.recordCount, w.nextEntity⟩ := by
  obtain ⟨hmapped, -, records, heads, frames, history, -, -, -, hparts⟩ := MmapVmSnapshot.create_ok hs
  have hproj : p = .fromFrames fs := by
    unfold World.vmQuery at hp
    cases hw : w.mapped with
    | some t =>
      rw [hw] at hp
      obtain rfl := Except.ok.inj hp
      cases hmapped
    | none =>
      simp only [hw] at hp
      split at hp
      · cases hp
      · rw [hf] at hp
        exact (Except.ok.inj hp).symm
  have hlinks : s.Links ((operationsOf fs).foldl SlotStacks.perform .empty) := by
    refine MmapVmSnapshot.create_links hs ?_
    rw [hproj]
    exact VmQueryProjection.fromFrames_projects fs
  have hnext : s.nextEntity = w.nextEntity := by rw [hparts]; rfl
  have hcount : s.recordCount = w.recordCount := by rw [hparts]; rfl
  rw [hlinks.fromMmap_eq] at hm
  split at hm
  · cases hm
  obtain rfl := Except.ok.inj hm
  exact ⟨hnext.symm, _, [], MmapVmSnapshot.Links.materializer_holds (a := ⟨_, _, _⟩) hlinks hnext
    hcount, hlinks.materializer_tight⟩

end VmEpochMaterializer

/-- **Every reachable materializer stands for its state.** -/
theorem Reachable.ready {w : World} {m : VmEpochMaterializer} {a : WorldState}
    (h : Reachable w m a) : m.Ready w a := by
  induction h with
  | genesis =>
    exact ⟨rfl, .none, [], VmEpochMaterializer.new_holds 1, VmEpochMaterializer.new_tight 1⟩
  | durable _ =>
    exact ⟨rfl, .none, [], VmEpochMaterializer.new_holds _, VmEpochMaterializer.new_tight _⟩
  | epoch _ hm hb ih => exact ih.materialize hm hb
  | mapped _ hf hp hs hm _ => exact VmEpochMaterializer.Ready.mapped hf hp hs hm

/-- A materialization that returns a plan with one outcome for each intent, in order. -/
def Answers (w : World) (m : VmEpochMaterializer) (is : List QueuedIntent) : Prop :=
  ∃ plan usedVm m', m.materialize w is [] = .ok ((plan, usedVm), m') ∧
    plan.outcomes.map (fun outcome => outcome.decision.1) = List.range is.length

theorem map_fst_positioned (ds : List Decision) :
    (positioned ds).map Prod.fst = List.range ds.length := by
  unfold positioned
  rw [List.map_map, List.range_eq_range']
  exact List.zipIdx_map_snd 0 ds

/-- **When an epoch is answered**: exactly when the operations of the intents it accepts name
entities that have a cell, and fit the arenas. -/
theorem materialize_answers_iff {w : World} {m : VmEpochMaterializer} {a : WorldState}
    (h : Reachable w m a) (is : List QueuedIntent) :
    Answers w m is ↔ m.Feasible a ((EpochState.start w a).intents is).2.operations := by
  obtain ⟨base, names, hh, ht⟩ := h.ready.holds
  unfold Answers VmEpochMaterializer.materialize
  simp only [ne_eq, not_true_eq_false, if_false]
  rcases VmEpochMaterializer.deriveVmEpoch_spec hh ht h.ready.next is with
    ⟨hf, m', names', hd, -⟩ | ⟨hf, halt, hd⟩
  · refine iff_of_true ⟨_, true, m', by rw [hd]; rfl, ?_⟩ hf
    set plan := EpochPlan.assemble w ((EpochState.start w a).intents is).1 _ with hplan
    have hsum : plan.summary.decisions = positioned ((EpochState.start w a).intents is).1 := by
      rw [hplan, summary_assemble]
      split <;> rfl
    have hmap : plan.outcomes.map (fun outcome => outcome.decision.1) =
        plan.summary.decisions.map Prod.fst := by
      unfold EpochPlan.summary
      rw [List.map_map]
      rfl
    rw [hmap, hsum, map_fst_positioned, EpochState.length_intents]
  · refine iff_of_false ?_ hf
    rintro ⟨plan, usedVm, m', hm, -⟩
    rw [hd] at hm
    cases hm

/-- An intent that defines a slot over two literals. -/
def definesText : QueuedIntent :=
  (QueuedIntent.new 0).define ⟨"s"⟩ ⟨.literal ⟨"x"⟩, ⟨"p"⟩, .literal ⟨"y"⟩⟩

/-- An intent that names an entity in the range of literal cells. -/
def definesHighEntity : QueuedIntent :=
  (QueuedIntent.new 0).define ⟨"t"⟩ ⟨.entity ⟨2 ^ 63⟩, ⟨"p"⟩, .literal ⟨"y"⟩⟩

/-- The first epoch of an engine is answered. -/
theorem materialize_answers_genesis :
    Answers .genesis (.new World.genesis.nextEntity) [definesText] :=
  (materialize_answers_iff .genesis [definesText]).2 (by
    unfold VmEpochMaterializer.Feasible
    decide +kernel)

/-- **One intent stops its epoch**: a valid intent gets no outcome next to one that names an
entity from 2^63 on. -/
theorem high_entity_stops_epoch :
    Reachable .genesis (.new World.genesis.nextEntity) .genesis ∧
      ((VmEpochMaterializer.new World.genesis.nextEntity).materialize .genesis
        [definesText, definesHighEntity] []).map (fun _ => ()) =
          .error (.error "entity identifier overlaps the VM literal namespace") ∧
      ¬ Answers .genesis (.new World.genesis.nextEntity) [definesText, definesHighEntity] := by
  have h : ((VmEpochMaterializer.new World.genesis.nextEntity).materialize .genesis
      [definesText, definesHighEntity] []).map (fun _ => ()) =
        .error (.error "entity identifier overlaps the VM literal namespace") := by
    decide +kernel
  refine ⟨.genesis, h, ?_⟩
  rintro ⟨plan, usedVm, m', hm, -⟩
  rw [hm] at h
  cases h

end ForthDB
