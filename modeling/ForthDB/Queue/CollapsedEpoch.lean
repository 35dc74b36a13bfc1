import ForthDB.Queue.DerivedEpoch
import ForthDB.Queue.Materialization

/-!
# One collapsed epoch and its frame-per-intent form

`derive_epoch` threads a chain of worlds, one for each accepted intent;
`derive_epoch_world` threads one kernel under the ids and versions that such a chain
would have. `EpochWorkspace.Follows` is the simulation between a world of the chain and
the workspace, and one intent keeps it (`Follows.intent`).

* `World.Coherent w`: the kernel of `w` exists and its slots resolve as the readers of `w`
  do. An eager world has it by definition, every other because it replays its frames.
* `collapsed_epoch_eq`: the two forms decide, show the validators and end in the same.
-/

namespace ForthDB

/-- The kernel of a world answers like its readers. -/
def World.Coherent (w : World) : Prop :=
  ∃ k, w.kernel = .ok k ∧ ∀ slot, w.resolve slot = .ok (k.resolve slot)

theorem World.Eager.coherent {w : World} (h : w.Eager) : w.Coherent := by
  obtain ⟨k, hk⟩ := h
  refine ⟨k, ?_, fun slot => ?_⟩
  · unfold World.kernel; rw [hk]
  · unfold World.resolve; rw [hk]

theorem World.Replays.coherent {w : World} {fs : List CommitFrame} {a : WorldState}
    (h : w.Replays fs a) : w.Coherent := by
  obtain ⟨k, hk, hs⟩ := h.kernel
  refine ⟨k, hk, fun slot => ?_⟩
  rw [h.resolve, ForthDb.resolve_eq hs.kernel]

/-- **Every world of a file-backed database is coherent.** -/
theorem Published.coherent {w : World} (h : Published w) : w.Coherent := by
  obtain ⟨a, ha⟩ := h.plain
  exact ha.replays.coherent

/-! ## The candidates that the validators see -/

/-- `derive_intent` up to the validators. -/
def World.intentCandidate (predecessor : World) (intent : QueuedIntent) :
    Except String (Except IntentRejection (CandidateWorld × EntityMap)) :=
  match predecessor.checkPreconditions intent.preconditions with
  | .error message => .error message
  | .ok (.error error) => .ok (.error error)
  | .ok (.ok ()) =>
    match resolveOperationsFrom predecessor.nextEntity intent.space intent.operations with
    | .error error => .ok (.error error)
    | .ok (operations, entities) =>
      (CandidateWorld.construct predecessor operations).map fun candidate =>
        (candidate.mapError .candidate).map fun candidate => (candidate, entities)

/-- One pass of `derive_epoch_world` up to the validators. -/
def EpochWorkspace.candidate (s : EpochWorkspace) (intent : QueuedIntent) :
    Except IntentRejection (CandidateWorld × EntityMap) := do
  checkPreconditions s.predecessorId s.kernel.resolve intent.preconditions
  let (operations, entities) ← resolveOperationsFrom s.nextEntity intent.space intent.operations
  let candidate ← (CandidateWorld.constructFromState s.predecessorId s.predecessorVersion
    s.nextEntity s.operationCount s.kernel operations).mapError .candidate
  pure (candidate, entities)

/-- The candidates that `derive_epoch` shows to its validators, one for each intent that
reaches them. -/
def World.shown (predecessor : World) (validators : List Validator) :
    List QueuedIntent → Except String (List CandidateWorld)
  | [] => .ok []
  | intent :: rest => do
    let reached ← predecessor.intentCandidate intent
    let derived ← deriveIntent predecessor intent validators
    let next := match derived with
      | .ok (world, _, _) => world
      | .error _ => predecessor
    let shown ← shown next validators rest
    pure ((reached.toOption.map Prod.fst).toList ++ shown)

/-- The candidates that `derive_epoch_world` shows to its validators. -/
def EpochWorkspace.shown (s : EpochWorkspace) (validators : List Validator) :
    List QueuedIntent → List CandidateWorld
  | [] => []
  | intent :: rest =>
    ((s.candidate intent).toOption.map Prod.fst).toList ++
      shown (s.intent validators intent).2 validators rest

/-- What the validators say about the candidate of an intent. -/
def validated (reached : Except IntentRejection (CandidateWorld × EntityMap))
    (validators : List Validator) : Except IntentRejection (CandidateWorld × EntityMap) :=
  match reached with
  | .error error => .error error
  | .ok (candidate, entities) =>
    match runValidators candidate validators with
    | .ok () => .ok (candidate, entities)
    | .error message => .error (.validation message)

theorem deriveIntent_eq {w : World} {i : QueuedIntent}
    {reached : Except IntentRejection (CandidateWorld × EntityMap)}
    (h : w.intentCandidate i = .ok reached) (vs : List Validator) :
    deriveIntent w i vs = .ok ((validated reached vs).map fun (candidate, entities) =>
      (candidate.intoWorld candidate.commitFrame w.history, candidate.commitFrame, entities)) := by
  unfold World.intentCandidate at h
  unfold deriveIntent
  cases hc : w.checkPreconditions i.preconditions with
  | error message => rw [hc] at h; cases h
  | ok checked =>
    rw [hc] at h
    cases checked with
    | error e =>
      cases h
      rfl
    | ok checked =>
      cases hr : resolveOperationsFrom w.nextEntity i.space i.operations with
      | error e =>
        simp only [hr] at h ⊢
        cases h
        rfl
      | ok resolved =>
        obtain ⟨operations, entities⟩ := resolved
        simp only [hr] at h ⊢
        cases hcon : CandidateWorld.construct w operations with
        | error message => rw [hcon] at h; cases h
        | ok candidate =>
          rw [hcon] at h
          cases h
          cases candidate with
          | error e => rfl
          | ok candidate =>
            simp only [Except.mapError, Except.map, validated]
            cases runValidators candidate vs <;> rfl

namespace EpochWorkspace

/-- The workspace after a candidate is accepted. -/
def accept (s : EpochWorkspace) (candidate : CandidateWorld) : EpochWorkspace where
  predecessorId := candidate.id
  predecessorVersion := candidate.version
  nextEntity := candidate.nextEntity
  operationCount := candidate.baseOperationCount + candidate.operations.length
  kernel := candidate.kernel
  operations := s.operations ++ candidate.operations

theorem intent_eq (s : EpochWorkspace) (vs : List Validator) (i : QueuedIntent) :
    s.intent vs i = match validated (s.candidate i) vs with
      | .error error => (.error error, s)
      | .ok (candidate, entities) => (.ok entities, s.accept candidate) := by
  unfold EpochWorkspace.intent EpochWorkspace.candidate validated
  simp only [bind, Except.bind, pure, Except.pure]
  cases checkPreconditions s.predecessorId s.kernel.resolve i.preconditions with
  | error e => rfl
  | ok u =>
    simp only
    cases resolveOperationsFrom s.nextEntity i.space i.operations with
    | error e => rfl
    | ok p =>
      obtain ⟨ops, entities⟩ := p
      simp only
      cases CandidateWorld.constructFromState s.predecessorId s.predecessorVersion
        s.nextEntity s.operationCount s.kernel ops with
      | error e => rfl
      | ok candidate =>
        simp only [Except.mapError]
        cases runValidators candidate vs <;> rfl

/-- A candidate continues the count of its workspace. -/
theorem candidate_count {s : EpochWorkspace} {i : QueuedIntent} {candidate : CandidateWorld}
    {entities : EntityMap} (h : s.candidate i = .ok (candidate, entities)) :
    candidate.baseOperationCount = s.operationCount := by
  unfold EpochWorkspace.candidate at h
  simp only [bind, Except.bind, pure, Except.pure] at h
  split at h
  · cases h
  split at h
  · cases h
  split at h
  · cases h
  rename_i hcon
  cases h
  cases hc : CandidateWorld.constructFromState _ _ _ _ _ _ with
  | error e => rw [hc] at hcon; cases hcon
  | ok c =>
    rw [hc] at hcon
    cases hcon
    obtain ⟨k, n, -, -, rfl⟩ := CandidateWorld.constructFromState_eq hc
    rfl

theorem of_validated {reached : Except IntentRejection (CandidateWorld × EntityMap)}
    {vs : List Validator} {p : CandidateWorld × EntityMap} (h : validated reached vs = .ok p) :
    reached = .ok p := by
  unfold validated at h
  split at h
  · cases h
  · split at h
    · exact h
    · cases h

/-- The workspace stands at a world of the chain. -/
structure Follows (s : EpochWorkspace) (w : World) : Prop where
  id : w.id = s.predecessorId
  version : w.version = s.predecessorVersion
  nextEntity : w.nextEntity = s.nextEntity
  operationCount : w.operationCount = s.operationCount
  kernel : w.kernel = .ok s.kernel
  resolve : ∀ slot, w.resolve slot = .ok (s.kernel.resolve slot)

variable {s : EpochWorkspace} {w : World}

/-- The preconditions read the same predecessor. -/
theorem Follows.checkPreconditions (h : s.Follows w) (ps : List IntentPrecondition) :
    w.checkPreconditions ps = .ok (checkPreconditions s.predecessorId s.kernel.resolve ps) := by
  induction ps with
  | nil => rfl
  | cons p ps ih =>
    cases p with
    | expectedWorld expected =>
      simp only [World.checkPreconditions, ForthDB.checkPreconditions, h.id]
      split
      · rfl
      · exact ih
    | expectedSlot slot expected =>
      simp only [World.checkPreconditions, ForthDB.checkPreconditions, h.resolve]
      split
      · rfl
      · exact ih

/-- **The validators see the same candidate.** -/
theorem Follows.candidate (h : s.Follows w) (i : QueuedIntent) :
    w.intentCandidate i = .ok (s.candidate i) := by
  unfold World.intentCandidate EpochWorkspace.candidate CandidateWorld.construct
  rw [h.checkPreconditions, h.kernel, h.id, h.version, h.nextEntity, h.operationCount]
  simp only [bind, Except.bind]
  cases ForthDB.checkPreconditions s.predecessorId s.kernel.resolve i.preconditions with
  | error e => rfl
  | ok u =>
    simp only
    cases resolveOperationsFrom s.nextEntity i.space i.operations with
    | error e => rfl
    | ok p =>
      simp only [Except.map]
      cases CandidateWorld.constructFromState s.predecessorId s.predecessorVersion
        s.nextEntity s.operationCount s.kernel p.1 <;> rfl

/-- An accepted candidate leads both to the same place. -/
theorem follows_accept (s : EpochWorkspace) (candidate : CandidateWorld)
    (history : List CommitFrame) :
    (s.accept candidate).Follows (candidate.intoWorld candidate.commitFrame history) :=
  ⟨rfl, rfl, rfl, rfl, rfl, fun _ => rfl⟩

/-- The world of the chain that a workspace stands at after it accepted something. -/
structure Materialized (s : EpochWorkspace) (w : World) : Prop where
  follows : s.Follows w
  kernel : w.eagerKernel = some s.kernel
  active : w.activeSlotCount = s.kernel.activeSlotCount
  records : w.recordCount = s.kernel.recordCount

/-- Where the chain stands once some intents are decided: at its base while nothing is
accepted, and then at the world of the last accepted candidate. -/
structure Reaches (s : EpochWorkspace) (decisions : List Decision) (s' : EpochWorkspace)
    (w tail : World) (frames : List CommitFrame) : Prop where
  follows : s'.Follows tail
  operations : s'.operations = s.operations ++ operationsOf frames
  operationCount : s'.operationCount = s.operationCount + (operationsOf frames).length
  accepted : decisions.any Decision.isAccepted = true → frames ≠ [] ∧ s'.Materialized tail
  rejected : decisions.any Decision.isAccepted = false → frames = [] ∧ tail = w ∧ s' = s

/-- **A run of intents** keeps the workspace at the world of the chain. -/
theorem Follows.intents (h : s.Follows w) (vs : List Validator) (is : List QueuedIntent) (n : ℕ) :
    ∃ tail outcomes frames, deriveEpochFrom w n vs is = .ok (tail, outcomes, frames) ∧
      outcomes.map EpochOutcome.decision =
        ((s.intents vs is).1.zipIdx n).map (fun (decision, position) => (position, decision)) ∧
      w.shown vs is = .ok (s.shown vs is) ∧
      Reaches s (s.intents vs is).1 (s.intents vs is).2 w tail frames := by
  induction is generalizing s w n with
  | nil =>
    refine ⟨w, [], [], rfl, rfl, rfl, h, ?_, rfl, ?_, ?_⟩
    · simp [EpochWorkspace.intents]
    · simp [EpochWorkspace.intents]
    · intro _
      exact ⟨rfl, rfl, rfl⟩
  | cons i is ih =>
    have hreached := h.candidate i
    have hderive := deriveIntent_eq hreached vs
    have hintent := s.intent_eq vs i
    unfold deriveEpochFrom World.shown EpochWorkspace.shown EpochWorkspace.intents
    rw [hderive, hreached]
    cases hv : validated (s.candidate i) vs with
    | error e =>
      rw [hv] at hintent
      simp only at hintent
      obtain ⟨tail, outcomes, frames, hfrom, hout, hshown, hreach⟩ := ih h (n + 1)
      simp only [hintent, Except.map, hfrom, bind, Except.bind, hshown]
      refine ⟨tail, _, frames, rfl, ?_, rfl, hreach.follows, hreach.operations,
        hreach.operationCount, ?_, ?_⟩
      · simp only [List.map_cons, hout, List.zipIdx_cons]
        rfl
      · intro hany
        exact hreach.accepted (by simpa [Decision.isAccepted, Except.toBool] using hany)
      · intro hany
        exact hreach.rejected (by simpa [Decision.isAccepted, Except.toBool] using hany)
    | ok p =>
      obtain ⟨candidate, entities⟩ := p
      rw [hv] at hintent
      simp only at hintent
      obtain ⟨tail, outcomes, frames, hfrom, hout, hshown, hreach⟩ :=
        ih (follows_accept s candidate w.history) (n + 1)
      simp only [hintent, Except.map, hfrom, bind, Except.bind, hshown]
      refine ⟨tail, _, candidate.commitFrame :: frames, rfl, ?_, rfl, hreach.follows, ?_, ?_,
        ?_, ?_⟩
      · simp only [List.map_cons, hout, List.zipIdx_cons]
        rfl
      · rw [hreach.operations]
        show s.operations ++ candidate.operations ++ operationsOf frames = _
        rw [List.append_assoc]
        rfl
      · rw [hreach.operationCount]
        show candidate.baseOperationCount + candidate.operations.length + _ = _
        rw [candidate_count (of_validated hv), Nat.add_assoc, ← List.length_append]
        rfl
      · intro _
        refine ⟨by simp, ?_⟩
        -- later rejections leave the chain at this candidate
        cases hany : ((s.accept candidate).intents vs is).1.any Decision.isAccepted with
        | true => exact (hreach.accepted hany).2
        | false =>
          obtain ⟨-, htail, hsame⟩ := hreach.rejected hany
          rw [htail, hsame]
          exact ⟨follows_accept s candidate w.history, rfl, rfl, rfl⟩
      · intro hany
        simp [Decision.isAccepted, Except.toBool] at hany

/-- The world and the frame that the workspace of an epoch is collapsed to. -/
def collapsed (s : EpochWorkspace) (base : World) : World × CommitFrame :=
  let candidate : CandidateWorld := {
    baseWorld := base.id
    baseVersion := base.version
    id := calculateWorldId base.id (base.version + 1) s.nextEntity s.operations
    version := base.version + 1
    nextEntity := s.nextEntity
    baseOperationCount := base.operationCount
    operations := s.operations
    kernel := s.kernel }
  (candidate.intoWorld candidate.commitFrame base.history, candidate.commitFrame)

end EpochWorkspace

/-- The single frame of a collapsed epoch, or none if the epoch accepted nothing. -/
def collapse (base : World) (nextEntity : ℕ) (frames : List CommitFrame) : List CommitFrame :=
  if frames = [] then [] else [{
    parentWorld := base.id
    resultingWorld := calculateWorldId base.id (base.version + 1) nextEntity (operationsOf frames)
    parentVersion := base.version
    resultingVersion := base.version + 1
    resultingAllocator := nextEntity
    operations := operationsOf frames }]

/-- The plan `epoch` of `derive_epoch_world` is the plan `chain` of `derive_epoch`, collapsed. -/
structure EpochPlan.Collapses (chain epoch : EpochPlan) : Prop where
  decisions : epoch.outcomes.map EpochOutcome.decision = chain.outcomes.map EpochOutcome.decision
  resolve : ∀ slot, epoch.tail.resolve slot = chain.tail.resolve slot
  definitions : ∀ slot, epoch.tail.definitions slot = chain.tail.definitions slot
  nextEntity : epoch.tail.nextEntity = chain.tail.nextEntity
  operationCount : epoch.tail.operationCount = chain.tail.operationCount
  recordCount : epoch.tail.recordCount = chain.tail.recordCount
  activeSlotCount : epoch.tail.activeSlotCount = chain.tail.activeSlotCount
  frames : epoch.frames = collapse chain.base chain.tail.nextEntity chain.frames

/-- Both forms of an epoch plan it, show its validators the same candidates, and agree. -/
def CollapsesOn (base : World) (intents : List QueuedIntent) (validators : List Validator) : Prop :=
  ∃ kernel chain epoch, base.kernel = .ok kernel ∧
    deriveEpoch base intents validators = .ok chain ∧
    deriveEpochWorld base intents validators = .ok epoch ∧
    base.shown validators intents =
      .ok ((EpochWorkspace.start base kernel).shown validators intents) ∧
    chain.Collapses epoch

/-- **One collapsed epoch equals its frame-per-intent form.** On every base whose kernel
answers like its readers, `derive_epoch` and `derive_epoch_world` accept and reject the
same intents, for the same reasons and with the same entities; they show the validators
the same candidates in the same order; and their tails agree on every slot, its
definitions and all counts. The frame of the one holds the operations of the frames of
the other, in their order. -/
theorem collapsed_epoch_eq {base : World} (h : base.Coherent) (intents : List QueuedIntent)
    (validators : List Validator) : CollapsesOn base intents validators := by
  obtain ⟨kernel, hkernel, hresolve⟩ := h
  have hstart : (EpochWorkspace.start base kernel).Follows base :=
    ⟨rfl, rfl, rfl, rfl, hkernel, hresolve⟩
  obtain ⟨tail, outcomes, frames, hfrom, hout, hshown, hreach⟩ :=
    hstart.intents validators intents 0
  set run := (EpochWorkspace.start base kernel).intents validators intents with hrun
  have hchain : deriveEpoch base intents validators = .ok ⟨base, tail, outcomes, frames⟩ := by
    unfold deriveEpoch
    rw [hfrom]
    rfl
  have hepoch : deriveEpochWorld base intents validators =
      .ok (.assemble base run.1 (run.2.collapsed base)) := by
    unfold deriveEpochWorld
    rw [hkernel]
    rfl
  have hdecisions : (EpochPlan.assemble base run.1 (run.2.collapsed base)).outcomes.map
      EpochOutcome.decision = outcomes.map EpochOutcome.decision := by
    have hsummary := congrArg PlanSummary.decisions
      (summary_assemble base run.1 (run.2.collapsed base))
    rw [hout]
    refine hsummary.trans ?_
    split <;> rfl
  have hoperations : run.2.operations = operationsOf frames := hreach.operations
  refine ⟨kernel, _, _, hkernel, hchain, hepoch, hshown, ?_⟩
  generalize hplan : EpochPlan.assemble base run.1 (run.2.collapsed base) = epoch at hdecisions
  unfold EpochPlan.assemble at hplan
  cases hany : run.1.any Decision.isAccepted with
  | false =>
    obtain ⟨hframes, htail, -⟩ := hreach.rejected hany
    rw [hany] at hplan
    subst hplan hframes htail
    exact ⟨hdecisions, fun _ => rfl, fun _ => rfl, rfl, rfl, rfl, rfl, rfl⟩
  | true =>
    obtain ⟨hframes, hfollows, heager, hactive, hrecords⟩ := hreach.accepted hany
    rw [hany] at hplan
    subst hplan
    refine ⟨hdecisions, ?_, ?_, ?_, ?_, ?_, ?_, ?_⟩
    · intro slot
      rw [hfollows.resolve]
      rfl
    · intro slot
      show run.2.kernel.definitions slot = _
      unfold World.definitions
      rw [heager]
    · exact hfollows.nextEntity.symm
    · show base.operationCount + run.2.operations.length = tail.operationCount
      rw [hfollows.operationCount, hreach.operationCount, hoperations]
      rfl
    · exact hrecords.symm
    · exact hactive.symm
    · unfold collapse
      rw [if_neg hframes, hfollows.nextEntity, ← hoperations]
      rfl

/-- A validator that refuses candidates which allocate no entity. -/
def requiresEntity : Validator := fun candidate =>
  if candidate.operations.any fun op => match op with
    | .allocateEntity _ => true
    | _ => false
  then .ok () else .error "no entity"

theorem collapsed_epoch_eq_genesis :
    CollapsesOn .genesis [(QueuedIntent.new 0).entity, definesText,
      ((QueuedIntent.new 1).expectAbsent ⟨"s"⟩).entity] [requiresEntity] :=
  collapsed_epoch_eq (World.Eager.coherent ⟨.new, rfl⟩) _ _

/-- An intent that only asks for the value of a slot. -/
def QueuedIntent.asks (slot : SlotId) (expected : Option Fact) : QueuedIntent :=
  ⟨0, 0, [.expectedSlot slot expected], []⟩

/-- The workspace does not refuse an intent that asks for what its kernel resolves. -/
theorem EpochWorkspace.asks_ne (s : EpochWorkspace) (slot : SlotId) (actual : Option Fact) :
    (s.intent [] (.asks slot (s.kernel.resolve slot))).1 ≠
      .error (.slotPrecondition slot (s.kernel.resolve slot) actual) := by
  rw [s.intent_eq]
  have hcandidate : s.candidate (.asks slot (s.kernel.resolve slot)) =
      ((CandidateWorld.constructFromState s.predecessorId s.predecessorVersion s.nextEntity
        s.operationCount s.kernel []).mapError .candidate).map fun c => (c, ∅) := by
    unfold EpochWorkspace.candidate QueuedIntent.asks
    simp only [ForthDB.checkPreconditions, ne_eq, not_true_eq_false, if_false, bind, Except.bind,
      resolveOperationsFrom, resolveOperations]
    cases CandidateWorld.constructFromState s.predecessorId s.predecessorVersion s.nextEntity
      s.operationCount s.kernel [] <;> rfl
  rw [hcandidate]
  cases CandidateWorld.constructFromState s.predecessorId s.predecessorVersion s.nextEntity
    s.operationCount s.kernel [] with
  | error e =>
    simp only [Except.mapError, Except.map, validated]
    intro h
    cases h
  | ok c =>
    simp only [Except.mapError, Except.map, validated, runValidators]
    intro h
    cases h

/-- **The base has to be coherent**: an intent can ask for the value of any slot. -/
theorem coherent_of_collapses {base : World} (h : ∀ intents, CollapsesOn base intents []) :
    base.Coherent := by
  obtain ⟨kernel, -, -, hkernel, -⟩ := h []
  refine ⟨kernel, hkernel, fun slot => ?_⟩
  obtain ⟨k, chain, epoch, hk, hchain, hepoch, -, hcollapses⟩ :=
    h [.asks slot (kernel.resolve slot)]
  obtain rfl := Except.ok.inj (hkernel.symm.trans hk)
  unfold deriveEpoch deriveEpochFrom deriveIntent at hchain
  simp only [QueuedIntent.asks, World.checkPreconditions] at hchain
  cases hslot : base.resolve slot with
  | error message =>
    rw [hslot] at hchain
    cases hchain
  | ok actual =>
    by_cases hactual : actual = kernel.resolve slot
    · rw [hactual]
    · exfalso
      rw [hslot] at hchain
      simp only [if_pos hactual, deriveEpochFrom, Except.map] at hchain
      obtain rfl := Except.ok.inj hchain
      have hdecisions := hcollapses.decisions
      have hepoch' : deriveEpochWorld base [.asks slot (kernel.resolve slot)] [] =
          .ok (.assemble base [((EpochWorkspace.start base kernel).intent []
            (.asks slot (kernel.resolve slot))).1] (((EpochWorkspace.start base kernel).intent []
            (.asks slot (kernel.resolve slot))).2.collapsed base)) := by
        unfold deriveEpochWorld
        rw [hkernel]
        rfl
      obtain rfl := Except.ok.inj (hepoch'.symm.trans hepoch)
      rw [show ∀ p : EpochPlan, p.outcomes.map EpochOutcome.decision = p.summary.decisions from
        fun _ => rfl, summary_assemble] at hdecisions
      refine (EpochWorkspace.start base kernel).asks_ne slot actual ?_
      show ((EpochWorkspace.start base kernel).intent [] (.asks slot (kernel.resolve slot))).1 =
        .error (.slotPrecondition slot (kernel.resolve slot) actual)
      split at hdecisions
      · simpa [positioned, EpochOutcome.decision] using hdecisions
      · simpa [positioned, EpochOutcome.decision] using hdecisions

end ForthDB
