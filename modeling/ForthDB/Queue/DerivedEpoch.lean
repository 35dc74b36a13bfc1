import ForthDB.Queue.MixedEpoch

/-!
# Chains of worlds

`derive_epoch` decides queued intents in order and gives every accepted one a world and a
frame of its own. `Database::commit_queued_epoch` publishes the last of them.

* `Succeeds w f w'`: `w'` is the world of a candidate on `w`, with the frame `f`.
* `Descends w fs w'`: a chain of successions.
* `deriveEpoch_descends`: a plan of `derive_epoch` descends from its base.
* `reconstruct_descends`: `reconstruct` follows every chain, to the very same world.
-/

namespace ForthDB

/-- `check_preconditions`: the outer `error` is the panic of `World::resolve`. -/
def World.checkPreconditions (predecessor : World) :
    List IntentPrecondition → Except String (Except IntentRejection Unit)
  | [] => .ok (.ok ())
  | .expectedWorld expected :: rest =>
    if expected ≠ predecessor.id then .ok (.error (.worldPrecondition expected predecessor.id))
    else checkPreconditions predecessor rest
  | .expectedSlot slot expected :: rest =>
    match predecessor.resolve slot with
    | .error message => .error message
    | .ok actual =>
      if actual ≠ expected then .ok (.error (.slotPrecondition slot expected actual))
      else checkPreconditions predecessor rest

/-- `derive_intent`. -/
def deriveIntent (predecessor : World) (intent : QueuedIntent) (validators : List Validator) :
    Except String (Except IntentRejection (World × CommitFrame × EntityMap)) :=
  match predecessor.checkPreconditions intent.preconditions with
  | .error message => .error message
  | .ok (.error error) => .ok (.error error)
  | .ok (.ok ()) =>
    match resolveOperationsFrom predecessor.nextEntity intent.space intent.operations with
    | .error error => .ok (.error error)
    | .ok (operations, entities) =>
      match CandidateWorld.construct predecessor operations with
      | .error message => .error message
      | .ok (.error error) => .ok (.error (.candidate error))
      | .ok (.ok candidate) =>
        match runValidators candidate validators with
        | .error message => .ok (.error (.validation message))
        | .ok () =>
          let frame := candidate.commitFrame
          .ok (.ok (candidate.intoWorld frame predecessor.history, frame, entities))

/-- The loop of `derive_epoch`: the last predecessor, the outcomes and the frames. -/
def deriveEpochFrom (predecessor : World) (position : ℕ) (validators : List Validator) :
    List QueuedIntent → Except String (World × List EpochOutcome × List CommitFrame)
  | [] => .ok (predecessor, [], [])
  | intent :: rest =>
    match deriveIntent predecessor intent validators with
    | .error message => .error message
    | .ok (.ok (world, frame, entities)) =>
      (deriveEpochFrom world (position + 1) validators rest).map fun (tail, outcomes, frames) =>
        (tail, .accepted ⟨position, world, frame, entities⟩ :: outcomes, frame :: frames)
    | .ok (.error error) =>
      (deriveEpochFrom predecessor (position + 1) validators rest).map
        fun (tail, outcomes, frames) => (tail, .rejected ⟨position, error⟩ :: outcomes, frames)

/-- `derive_epoch`. -/
def deriveEpoch (base : World) (intents : List QueuedIntent) (validators : List Validator) :
    Except String EpochPlan :=
  (deriveEpochFrom base 0 validators intents).map fun (tail, outcomes, frames) =>
    { base := base, tail := tail, outcomes := outcomes, frames := frames }

/-- `commit_queued_epoch`. -/
def Database.commitQueuedEpoch (d : Database) (intents : List QueuedIntent) :
    Except String (EpochPlan × Database) :=
  match deriveEpoch d.current intents d.validators with
  | .error message => .error message
  | .ok plan =>
    if plan.frames = [] then .ok (plan, d)
    else .ok (plan, { d with store := d.store ++ plan.frames, current := plan.tail })

/-- `w'` is the world of a candidate on `w`, published with the frame `f`. -/
def Succeeds (w : World) (f : CommitFrame) (w' : World) : Prop :=
  ∃ ops c, CandidateWorld.construct w ops = .ok (.ok c) ∧ f = c.commitFrame ∧
    w' = c.intoWorld f w.history

/-- A chain of successions. -/
inductive Descends : World → List CommitFrame → World → Prop
  | refl (w : World) : Descends w [] w
  | cons {w w' w'' : World} {f : CommitFrame} {fs : List CommitFrame} :
      Succeeds w f w' → Descends w' fs w'' → Descends w (f :: fs) w''

theorem Descends.single {w w' : World} {f : CommitFrame} (h : Succeeds w f w') :
    Descends w [f] w' := .cons h (.refl w')

/-- A chain without successions stays where it is. -/
theorem Descends.eq_of_nil {w w' : World} (h : Descends w [] w') : w' = w := by
  cases h with
  | refl => rfl

/-- An accepted intent leads to a successor of its predecessor. -/
theorem deriveIntent_succeeds {w w' : World} {i : QueuedIntent} {vs : List Validator}
    {f : CommitFrame} {es : EntityMap} (h : deriveIntent w i vs = .ok (.ok (w', f, es))) :
    Succeeds w f w' := by
  unfold deriveIntent at h
  split at h
  · cases h
  · cases h
  · split at h
    · cases h
    · rename_i ops es' hops
      split at h
      · cases h
      · cases h
      · rename_i c hc
        split at h
        · cases h
        · cases h
          exact ⟨ops, c, hc, rfl, rfl⟩

theorem deriveEpochFrom_descends {vs : List Validator} {is : List QueuedIntent} {w tail : World}
    {n : ℕ} {os : List EpochOutcome} {fs : List CommitFrame}
    (h : deriveEpochFrom w n vs is = .ok (tail, os, fs)) : Descends w fs tail := by
  induction is generalizing w n os fs with
  | nil => cases h; exact .refl _
  | cons i is ih =>
    simp only [deriveEpochFrom] at h
    split at h
    · cases h
    · rename_i w' f es hi
      cases hr : deriveEpochFrom w' (n + 1) vs is with
      | error e => rw [hr] at h; cases h
      | ok r =>
        rw [hr] at h
        cases h
        exact .cons (deriveIntent_succeeds hi) (ih hr)
    · rename_i e hi
      cases hr : deriveEpochFrom w (n + 1) vs is with
      | error e => rw [hr] at h; cases h
      | ok r =>
        rw [hr] at h
        cases h
        exact ih hr

/-- **A plan of `derive_epoch`** is a chain from its base to its tail. -/
theorem deriveEpoch_descends {w : World} {is : List QueuedIntent} {vs : List Validator}
    {plan : EpochPlan} (h : deriveEpoch w is vs = .ok plan) :
    Descends w plan.frames plan.tail := by
  unfold deriveEpoch at h
  cases hr : deriveEpochFrom w 0 vs is with
  | error e => rw [hr] at h; cases h
  | ok r =>
    rw [hr] at h
    cases h
    exact deriveEpochFrom_descends hr

/-- A queued epoch publishes the chain of its plan. -/
theorem Database.commitQueuedEpoch_descends {d d' : Database} {is : List QueuedIntent}
    {plan : EpochPlan} (h : d.commitQueuedEpoch is = .ok (plan, d')) :
    Descends d.current plan.frames d'.current ∧ d'.store = d.store ++ plan.frames ∧
      d'.validators = d.validators := by
  unfold commitQueuedEpoch at h
  cases hp : deriveEpoch d.current is d.validators with
  | error e => rw [hp] at h; cases h
  | ok plan' =>
    rw [hp] at h
    have hd := deriveEpoch_descends hp
    simp only at h
    split at h
    · rename_i hf
      cases h
      rw [hf] at hd ⊢
      rw [List.append_nil]
      exact ⟨.refl _, rfl, rfl⟩
    · cases h
      exact ⟨hd, rfl, rfl⟩

/-- What a candidate is made of. -/
theorem CandidateWorld.constructFromState_eq {id : WorldId} {v n oc : ℕ} {k : ForthDb}
    {ops : List Operation} {c : CandidateWorld}
    (h : constructFromState id v n oc k ops = .ok c) :
    ∃ k' n', applyOperations (k, n) ops = .ok (k', n') ∧ k'.validate = .ok () ∧
      c = { baseWorld := id, baseVersion := v, id := calculateWorldId id (v + 1) n' ops,
            version := v + 1, nextEntity := n', baseOperationCount := oc, operations := ops,
            kernel := k' } := by
  unfold constructFromState at h
  split at h
  · cases h
  · rename_i k' n' hk
    split at h
    · cases h
    · rename_i hv
      exact ⟨k', n', hk, hv, (Except.ok.inj h).symm⟩

/-- Whether a world answers from a kernel of its own. -/
def World.Eager (w : World) : Prop := ∃ k, w.eagerKernel = some k

namespace World.Eager

variable {w w' : World} {f : CommitFrame}

theorem of_succeeds (h : Succeeds w f w') : w'.Eager := by
  obtain ⟨ops, c, -, -, rfl⟩ := h
  exact ⟨c.kernel, rfl⟩

theorem construct_total (h : w.Eager) (ops : List Operation) :
    ∃ r, CandidateWorld.construct w ops = .ok r := by
  obtain ⟨k, hk⟩ := h
  unfold CandidateWorld.construct World.kernel
  rw [hk]
  exact ⟨_, rfl⟩

theorem checkPreconditions_total (h : w.Eager) (ps : List IntentPrecondition) :
    ∃ r, w.checkPreconditions ps = .ok r := by
  obtain ⟨k, hk⟩ := h
  have hres : ∀ slot, w.resolve slot = .ok (k.resolve slot) := fun slot => by
    unfold World.resolve
    rw [hk]
  induction ps with
  | nil => exact ⟨_, rfl⟩
  | cons p ps ih =>
    cases p with
    | expectedWorld expected =>
      simp only [World.checkPreconditions]
      split
      · exact ⟨_, rfl⟩
      · exact ih
    | expectedSlot slot expected =>
      simp only [World.checkPreconditions, hres]
      split
      · exact ⟨_, rfl⟩
      · exact ih

theorem deriveIntent_total (h : w.Eager) (i : QueuedIntent) (vs : List Validator) :
    ∃ r, deriveIntent w i vs = .ok r := by
  obtain ⟨r, hr⟩ := h.checkPreconditions_total i.preconditions
  unfold deriveIntent
  rw [hr]
  rcases r with e | u
  · exact ⟨_, rfl⟩
  cases resolveOperationsFrom w.nextEntity i.space i.operations with
  | error e => exact ⟨_, rfl⟩
  | ok p =>
    obtain ⟨c, hc⟩ := h.construct_total p.1
    simp only [hc]
    rcases c with e | c
    · exact ⟨_, rfl⟩
    · simp only
      cases runValidators c vs <;> exact ⟨_, rfl⟩

theorem deriveEpochFrom_total (h : w.Eager) (n : ℕ) (vs : List Validator) (is : List QueuedIntent) :
    ∃ r, deriveEpochFrom w n vs is = .ok r := by
  induction is generalizing w n with
  | nil => exact ⟨_, rfl⟩
  | cons i is ih =>
    obtain ⟨r, hr⟩ := h.deriveIntent_total i vs
    simp only [deriveEpochFrom, hr]
    rcases r with e | ⟨w', f, es⟩
    · obtain ⟨r, hr⟩ := ih h (n + 1)
      exact ⟨_, by rw [hr]; rfl⟩
    · obtain ⟨r, hr'⟩ := ih (.of_succeeds (deriveIntent_succeeds hr)) (n + 1)
      exact ⟨_, by simp only [hr']; rfl⟩

/-- An eager base never makes `derive_epoch` panic. -/
theorem deriveEpoch_total (h : w.Eager) (is : List QueuedIntent) (vs : List Validator) :
    ∃ plan, deriveEpoch w is vs = .ok plan := by
  obtain ⟨r, hr⟩ := h.deriveEpochFrom_total 0 vs is
  exact ⟨_, by rw [deriveEpoch, hr]; rfl⟩

end World.Eager

namespace World

variable {w w' : World} {f : CommitFrame} {fs gs : List CommitFrame}

/-- A reconstructed world is what `reconstructFrom` built, with its kernel. -/
theorem reconstruct_eq (h : reconstruct fs = .ok w) :
    ∃ s, reconstructFrom (genesis, .new) fs = .ok s ∧ w = { s.1 with eagerKernel := some s.2 } := by
  unfold reconstruct at h
  cases hs : reconstructFrom (genesis, .new) fs with
  | error e => rw [hs] at h; cases h
  | ok s =>
    rw [hs] at h
    exact ⟨s, rfl, (Except.ok.inj h).symm⟩

theorem reconstruct_eager (h : reconstruct fs = .ok w) : w.Eager := by
  obtain ⟨s, -, rfl⟩ := reconstruct_eq h
  exact ⟨s.2, rfl⟩

/-- The frame of a candidate on what `reconstruct` has built. -/
theorem reconstructStep_candidate {s : World × ForthDb} {ops : List Operation}
    {c : CandidateWorld} (hc : CandidateWorld.constructFromState s.1.id s.1.version s.1.nextEntity
      s.1.operationCount s.2 ops = .ok c) :
    reconstructStep s c.commitFrame =
      .ok ({ c.intoWorld c.commitFrame s.1.history with eagerKernel := none }, c.kernel) := by
  obtain ⟨k, n, hk, hv, rfl⟩ := CandidateWorld.constructFromState_eq hc
  simp [reconstructStep, CandidateWorld.commitFrame, CandidateWorld.intoWorld, hk, hv]

/-- **One succession** is what `reconstruct` makes of one more frame. -/
theorem reconstruct_succeeds (h : reconstruct fs = .ok w) (hs : Succeeds w f w') :
    reconstruct (fs ++ [f]) = .ok w' := by
  obtain ⟨s, hfrom, rfl⟩ := reconstruct_eq h
  obtain ⟨ops, c, hc, rfl, rfl⟩ := hs
  have hstep := reconstructStep_candidate (Except.ok.inj hc)
  unfold reconstruct
  rw [reconstructFrom_append, hfrom]
  simp only [reconstructFrom, hstep]
  rfl

/-- **A chain** is what `reconstruct` makes of its frames. -/
theorem reconstruct_descends (h : reconstruct fs = .ok w) (hd : Descends w gs w') :
    reconstruct (fs ++ gs) = .ok w' := by
  induction hd generalizing fs with
  | refl w => rwa [List.append_nil]
  | @cons w w' w'' f gs hs _ ih =>
    rw [List.append_cons]
    exact ih (reconstruct_succeeds h hs)

end World

end ForthDB
