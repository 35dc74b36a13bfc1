import ForthDB.Journal.EpochCodec
import ForthDB.Queue.Materialization

/-!
# Live epochs and replayed ones

The admission worker materializes an epoch from the intents it was given, a restart
from the intents that the journal gives back. `EpochMaterializer` is what both keep
between epochs.

* `replayResults_eq_live`: the same intents give the same results, epoch by epoch.
* `journal_replays_live`: **a run whose epochs the journal keeps is replayed as it ran**,
  with either materializer and any validators.
* `foreign_temporary_replayed`: an intent that uses a temporary of another intent is
  rejected live and accepted by the replay.
-/

namespace ForthDB

inductive AdmissionMaterializer
  | world
  | tokenVm
deriving DecidableEq, Repr

inductive EpochMaterializer
  | world
  | tokenVm (vm : VmEpochMaterializer)

/-- One epoch: what `materialize` and the loop of `replay_epochs` share. -/
def EpochMaterializer.materialize (m : EpochMaterializer) (base : World)
    (intents : List QueuedIntent) (validators : List Validator) :
    Except Halt (EpochPlan × EpochMaterializer) :=
  match m with
  | .world =>
    match deriveEpochWorld base intents validators with
    | .ok plan => .ok (plan, .world)
    | .error message => .error (.panic message)
  | .tokenVm vm =>
    (vm.materialize base intents validators).map fun ((plan, _), vm) => (plan, .tokenVm vm)

/-- The head world and the materializer beside it. -/
abbrev EngineState : Type := World × EpochMaterializer

/-- Where `replay_epochs` starts: at an image, or at genesis. -/
def startEngine (snapshot : Option MmapVmSnapshot) (kind : AdmissionMaterializer) :
    Except Halt EngineState :=
  let world := (snapshot.map World.fromMmap).getD .genesis
  match kind with
  | .world => .ok (world, .world)
  | .tokenVm =>
    match snapshot with
    | some snapshot =>
      match VmEpochMaterializer.fromMmap snapshot with
      | .ok vm => .ok (world, .tokenVm vm)
      | .error message => .error (.error message)
    | none => .ok (world, .tokenVm (.new world.nextEntity))

/-- One epoch of the loop of `replay_epochs`. -/
def replayEpoch (validators : List Validator) (s : EngineState) (intents : List QueuedIntent) :
    Except Halt (EpochPlan × EngineState) :=
  match s.2.materialize s.1 intents validators with
  | .ok (plan, m) => .ok (plan, plan.tail, m)
  | .error halt => .error halt

/-- One epoch of the worker: an empty plan publishes nothing. -/
def liveEpoch (validators : List Validator) (s : EngineState) (intents : List QueuedIntent) :
    Except Halt (EpochPlan × EngineState) :=
  match s.2.materialize s.1 intents validators with
  | .ok (plan, m) => .ok (plan, if plan.frames = [] then s.1 else plan.tail, m)
  | .error halt => .error halt

/-- `replay_epochs`. -/
def replayEpochs (snapshot : Option MmapVmSnapshot) (epochs : List (List QueuedIntent))
    (validators : List Validator) (kind : AdmissionMaterializer) : Except Halt EngineState :=
  match startEngine snapshot kind with
  | .error halt => .error halt
  | .ok s => go s epochs
where
  go (s : EngineState) : List (List QueuedIntent) → Except Halt EngineState
    | [] => .ok s
    | intents :: rest =>
      match replayEpoch validators s intents with
      | .ok (_, s) => go s rest
      | .error halt => .error halt

/-- What each epoch of a run returns: its plan and the world behind it, up to the first halt. -/
def resultsFrom (step : EngineState → List QueuedIntent → Except Halt (EpochPlan × EngineState)) :
    EngineState → List (List QueuedIntent) → List (Except Halt (EpochPlan × World))
  | _, [] => []
  | s, intents :: rest =>
    match step s intents with
    | .ok (plan, s') => .ok (plan, s'.1) :: resultsFrom step s' rest
    | .error halt => [.error halt]

/-- The results of a run from genesis. -/
def resultsOf
    (step : List Validator → EngineState → List QueuedIntent → Except Halt (EpochPlan × EngineState))
    (kind : AdmissionMaterializer) (validators : List Validator)
    (epochs : List (List QueuedIntent)) : List (Except Halt (EpochPlan × World)) :=
  match startEngine none kind with
  | .ok s => resultsFrom (step validators) s epochs
  | .error halt => [.error halt]

/-- The intents that the journal gives back for some epochs. -/
def decodeEpochs : List EpochBatch → Except String (List (List QueuedIntent))
  | [] => .ok []
  | batch :: rest =>
    match Journal.decodeEpochPayload (Journal.encodeEpochPayload batch) with
    | .error e => .error e
    | .ok (_, intents) => (decodeEpochs rest).map (intents :: ·)

/-- The journal of a run replays as the run was live. -/
def JournalReplays (kind : AdmissionMaterializer) (validators : List Validator)
    (epochs : List EpochBatch) : Prop :=
  ∃ decoded, decodeEpochs epochs = .ok decoded ∧
    resultsOf replayEpoch kind validators decoded =
      resultsOf liveEpoch kind validators (epochs.map EpochBatch.intents)

/-- A plan is one of `derive_epoch_world`, or one of the machine without validators. -/
theorem EpochMaterializer.materialize_cases {m m' : EpochMaterializer} {base : World}
    {is : List QueuedIntent} {vs : List Validator} {plan : EpochPlan}
    (h : m.materialize base is vs = .ok (plan, m')) :
    deriveEpochWorld base is vs = .ok plan ∨
      vs = [] ∧ ∃ vm vm', m = .tokenVm vm ∧ vm.deriveVmEpoch base is = .ok (plan, vm') := by
  cases m with
  | world =>
    left
    simp only [materialize] at h
    cases hd : deriveEpochWorld base is vs with
    | error e => rw [hd] at h; cases h
    | ok q => rw [hd] at h; cases h; rfl
  | tokenVm vm =>
    simp only [materialize] at h
    cases hv : vm.materialize base is vs with
    | error e => rw [hv] at h; cases h
    | ok q =>
      obtain ⟨⟨q, usedVm⟩, vm'⟩ := q
      rw [hv] at h
      cases h
      unfold VmEpochMaterializer.materialize at hv
      split at hv
      · left
        cases hd : deriveEpochWorld base is vs with
        | error e => rw [hd] at hv; cases hv
        | ok p =>
          rw [hd] at hv
          simp only at hv
          cases hh : p.frames.head? with
          | none => rw [hh] at hv; cases hv; rfl
          | some f =>
            rw [hh] at hv
            simp only at hv
            cases ha : vm.applyCommitted f.operations with
            | error e => rw [ha] at hv; cases hv
            | ok vm₁ => rw [ha] at hv; cases hv; rfl
      · rename_i hvs
        right
        refine ⟨not_not.1 hvs, vm, ?_⟩
        cases hd : vm.deriveVmEpoch base is with
        | error e => rw [hd] at hv; cases hv
        | ok p =>
          rw [hd] at hv
          cases hv
          exact ⟨p.2, rfl, rfl⟩

/-- A plan without frames keeps its base. -/
theorem EpochMaterializer.tail_of_no_frames {m m' : EpochMaterializer} {base : World}
    {is : List QueuedIntent} {vs : List Validator} {plan : EpochPlan}
    (h : m.materialize base is vs = .ok (plan, m')) (hf : plan.frames = []) : plan.tail = base := by
  have hkeep : ∀ ds succ, plan = EpochPlan.assemble base ds succ → plan.tail = base := by
    rintro ds succ rfl
    rcases EpochPlan.assemble_cases base ds succ with ⟨-, -, hf'⟩ | ⟨-, ht, -⟩
    · rw [hf'] at hf; cases hf
    · exact ht
  rcases materialize_cases h with hd | ⟨-, vm, vm', -, hv⟩
  · unfold deriveEpochWorld at hd
    cases hk : base.kernel with
    | error e => rw [hk] at hd; cases hd
    | ok k =>
      rw [hk] at hd
      exact hkeep _ _ (Except.ok.inj hd).symm
  · unfold VmEpochMaterializer.deriveVmEpoch at hv
    simp only at hv
    split at hv
    · cases hv
    · split at hv
      · cases hv
      · cases hv
        exact hkeep _ _ rfl

/-- **One epoch** is replayed as it was live. -/
theorem replayEpoch_eq_live (vs : List Validator) (s : EngineState) (is : List QueuedIntent) :
    replayEpoch vs s is = liveEpoch vs s is := by
  unfold replayEpoch liveEpoch
  cases h : s.2.materialize s.1 is vs with
  | error halt => rfl
  | ok q =>
    obtain ⟨plan, m⟩ := q
    by_cases hf : plan.frames = []
    · simp only [if_pos hf, EpochMaterializer.tail_of_no_frames h hf]
    · simp only [if_neg hf]

/-- **The same intents give the same results.** -/
theorem replayResults_eq_live (kind : AdmissionMaterializer) (vs : List Validator)
    (epochs : List (List QueuedIntent)) :
    resultsOf replayEpoch kind vs epochs = resultsOf liveEpoch kind vs epochs := by
  have hstep : replayEpoch vs = liveEpoch vs := by
    funext s is
    exact replayEpoch_eq_live vs s is
  unfold resultsOf
  rw [hstep]

/-- **Epochs that the journal keeps** are given back as they were. -/
theorem decodeEpochs_keeps {epochs : List EpochBatch} (hb : ∀ e ∈ epochs, e.id < 2 ^ 64 ∧
      ∀ i ∈ e.intents, i.Built ∧ i.space < 2 ^ 64) (hk : ∀ e ∈ epochs, Journal.Keeps e) :
    decodeEpochs epochs = .ok (epochs.map EpochBatch.intents) := by
  induction epochs with
  | nil => rfl
  | cons e epochs ih =>
    rw [List.forall_mem_cons] at hb hk
    unfold decodeEpochs
    rw [Journal.decodeEpochPayload_encode hb.1.1 hb.1.2 hk.1]
    simp only
    rw [ih hb.2 hk.2]
    rfl

/-- **A run whose epochs the journal keeps** is replayed, epoch by epoch, as it was live. -/
theorem journal_replays_live {epochs : List EpochBatch} (hb : ∀ e ∈ epochs, e.id < 2 ^ 64 ∧
      ∀ i ∈ e.intents, i.Built ∧ i.space < 2 ^ 64) (hk : ∀ e ∈ epochs, Journal.Keeps e)
    (kind : AdmissionMaterializer) (vs : List Validator) : JournalReplays kind vs epochs :=
  ⟨_, decodeEpochs_keeps hb hk, replayResults_eq_live kind vs _⟩

/-- An epoch whose intent names its own temporary. -/
def ownTemporaryEpoch : EpochBatch where
  id := 1
  intents := [(QueuedIntent.new 1).entity.define ⟨"s"⟩
    ⟨.temporary ⟨1, 0⟩, ⟨"p"⟩, .literal ⟨"y"⟩⟩]

/-- A run whose intent names its own temporary is replayed as it ran. -/
theorem own_temporary_replayed : JournalReplays .tokenVm [] [ownTemporaryEpoch] :=
  journal_replays_live (by
    intro e he
    obtain rfl := List.mem_singleton.1 he
    refine ⟨by decide, fun i hi => ?_⟩
    obtain rfl := List.mem_singleton.1 hi
    exact ⟨.define _ _ (.entity (.new 1) (by decide)), by decide⟩) (by
    intro e he
    obtain rfl := List.mem_singleton.1 he
    refine ⟨fun i hi => ?_, by decide +kernel⟩
    obtain rfl := List.mem_singleton.1 hi
    refine ⟨fun p hp => (List.not_mem_nil hp).elim, fun op hop => ?_⟩
    simp only [QueuedIntent.define, QueuedIntent.entity, QueuedIntent.new, List.nil_append,
      List.cons_append, List.mem_cons, List.not_mem_nil, or_false] at hop
    rcases hop with rfl | rfl
    · trivial
    · exact ⟨⟨rfl, by decide⟩, trivial⟩) .tokenVm []

/-- An epoch whose intent names a temporary of another one. -/
def foreignTemporaryEpoch : EpochBatch where
  id := 1
  intents := [(QueuedIntent.new 1).entity.define ⟨"s"⟩
    ⟨.temporary ⟨2, 0⟩, ⟨"p"⟩, .literal ⟨"y"⟩⟩]

/-- Whether each epoch of a run accepted each of its intents. -/
def acceptances (results : List (Except Halt (EpochPlan × World))) : List (Option (List Bool)) :=
  results.map fun result =>
    result.toOption.map fun r => r.1.outcomes.map fun o => o.decision.2.isAccepted

/-- **A foreign temporary is replayed as an own one**: the intent is rejected live and accepted
after a restart. -/
theorem foreign_temporary_replayed :
    (∀ i ∈ foreignTemporaryEpoch.intents, i.Built ∧ i.space < 2 ^ 64) ∧
      acceptances (resultsOf liveEpoch .tokenVm [] [foreignTemporaryEpoch.intents]) =
        [some [false]] ∧
      (decodeEpochs [foreignTemporaryEpoch]).map
        (fun decoded => acceptances (resultsOf replayEpoch .tokenVm [] decoded)) =
          .ok [some [true]] ∧
      ¬ JournalReplays .tokenVm [] [foreignTemporaryEpoch] := by
  have hlive : acceptances (resultsOf liveEpoch .tokenVm [] [foreignTemporaryEpoch.intents]) =
      [some [false]] := by decide +kernel
  have hreplay : (decodeEpochs [foreignTemporaryEpoch]).map
      (fun decoded => acceptances (resultsOf replayEpoch .tokenVm [] decoded)) =
        .ok [some [true]] := by decide +kernel
  refine ⟨fun i hi => ?_, hlive, hreplay, ?_⟩
  · obtain rfl := List.mem_singleton.1 hi
    exact ⟨.define _ _ (.entity (.new 1) (by decide)), by decide⟩
  · rintro ⟨decoded, hd, heq⟩
    rw [hd] at hreplay
    have hr : acceptances (resultsOf replayEpoch .tokenVm [] decoded) = [some [true]] :=
      Except.ok.inj hreplay
    rw [heq] at hr
    have hr' : acceptances (resultsOf liveEpoch .tokenVm [] [foreignTemporaryEpoch.intents]) =
      [some [true]] := hr
    rw [hlive] at hr'
    revert hr'
    decide

end ForthDB
