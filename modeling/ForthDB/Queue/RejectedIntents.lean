import ForthDB.Lib.Trials
import ForthDB.Queue.CollapsedEpoch

/-!
# Epochs without their rejected intents

Each of the three planners tries the intents in turn, and what it rejects leaves its evolving
predecessor as it was: the world of `derive_epoch`, the workspace of `derive_epoch_world`, and the
materializer of `derive_vm_epoch`, which compiles nothing of a rejected intent.

* `EpochPlan.withoutRejected`: the intents that a plan does not reject.
* `EpochPlan.Unchanged`: a plan with the same worlds and frames, all of whose intents are accepted.
* `deriveEpochFrom_eq`, `EpochWorkspace.intents_eq`, `EpochRun.intents_eq`: the planners are loops
  of trials.
-/

namespace ForthDB

def EpochOutcome.accepted? : EpochOutcome → Option AcceptedIntent
  | .accepted intent => some intent
  | .rejected _ => none

def EpochOutcome.rejected? : EpochOutcome → Option RejectedIntent
  | .accepted _ => none
  | .rejected intent => some intent

/-- An intent whose position is not rejected. -/
def keptAt (rejected : List ℕ) (entry : QueuedIntent × ℕ) : Option QueuedIntent :=
  if entry.2 ∈ rejected then none else some entry.1

namespace EpochPlan

variable (plan : EpochPlan) (intents : List QueuedIntent) (plan' : EpochPlan)

/-- The positions that a plan rejects. -/
def rejectedPositions : List ℕ :=
  (plan.outcomes.filterMap EpochOutcome.rejected?).map RejectedIntent.position

/-- The intents without those that a plan rejects. -/
def withoutRejected : List QueuedIntent :=
  intents.zipIdx.filterMap (keptAt plan.rejectedPositions)

/-- The accepted intents of a plan, counted anew. -/
def recounted : List EpochOutcome :=
  (plan.outcomes.filterMap EpochOutcome.accepted?).zipIdx.map fun (intent, position) =>
    .accepted { intent with position := position }

/-- A plan of the same worlds and frames for the intents that are kept, all of them accepted. -/
structure Unchanged (kept : List QueuedIntent) : Prop where
  answered : plan'.outcomes.length = kept.length
  base : plan'.base = plan.base
  tail : plan'.tail = plan.tail
  frames : plan'.frames = plan.frames
  outcomes : plan'.outcomes = plan.recounted

end EpochPlan

/-! ## Outcomes of decisions -/

/-- What a trial of `derive_epoch` comes to. -/
abbrev Verdict : Type := Except IntentRejection (World × CommitFrame × EntityMap)

/-- The outcomes of verdicts, at their positions. -/
def verdictOutcomes (position : ℕ) (verdicts : List Verdict) : List EpochOutcome :=
  (verdicts.zipIdx position).map fun
    | (.ok (world, frame, entities), position) => .accepted ⟨position, world, frame, entities⟩
    | (.error error, position) => .rejected ⟨position, error⟩

theorem length_verdictOutcomes (n : ℕ) (vs : List Verdict) :
    (verdictOutcomes n vs).length = vs.length := by
  unfold verdictOutcomes
  rw [List.length_map, List.length_zipIdx]

theorem verdictOutcomes_ok (n : ℕ) (p : World × CommitFrame × EntityMap) (vs : List Verdict) :
    verdictOutcomes n (.ok p :: vs) =
      .accepted ⟨n, p.1, p.2.1, p.2.2⟩ :: verdictOutcomes (n + 1) vs := rfl

theorem verdictOutcomes_error (n : ℕ) (e : IntentRejection) (vs : List Verdict) :
    verdictOutcomes n (.error e :: vs) = .rejected ⟨n, e⟩ :: verdictOutcomes (n + 1) vs := rfl

/-- The positions of the rejected verdicts. -/
abbrev rejectedFrom (position : ℕ) (verdicts : List Verdict) : List ℕ :=
  ((verdictOutcomes position verdicts).filterMap EpochOutcome.rejected?).map RejectedIntent.position

/-- Positions count on from the first. -/
theorem le_of_mem_rejectedFrom {n : ℕ} {vs : List Verdict} {k : ℕ} (h : k ∈ rejectedFrom n vs) :
    n ≤ k := by
  induction vs generalizing n with
  | nil => exact absurd h List.not_mem_nil
  | cons v vs ih =>
    cases v with
    | ok p => exact (Nat.le_succ n).trans (ih h)
    | error e =>
      rcases List.mem_cons.1 h with rfl | h
      · exact le_rfl
      · exact (Nat.le_succ n).trans (ih h)

/-- The intents that verdicts keep are those at the positions that are not rejected. -/
theorem survivors_eq {is : List QueuedIntent} {vs : List Verdict} (hlength : vs.length = is.length)
    (n : ℕ) (passed : List ℕ) (hpassed : ∀ k ∈ passed, k < n) :
    (is.zipIdx n).filterMap (keptAt (passed ++ rejectedFrom n vs)) = Trials.survivors is vs := by
  induction is generalizing n vs passed with
  | nil =>
    cases vs with
    | nil => rfl
    | cons v vs => exact absurd hlength (Nat.succ_ne_zero _)
  | cons i is ih =>
    cases vs with
    | nil => exact absurd hlength.symm (Nat.succ_ne_zero _)
    | cons v vs =>
      have hrest : vs.length = is.length := Nat.succ.inj hlength
      rw [List.zipIdx_cons, List.filterMap_cons]
      cases v with
      | ok p =>
        have hpositions : rejectedFrom n (.ok p :: vs) = rejectedFrom (n + 1) vs := rfl
        have hkeep : n ∉ passed ++ rejectedFrom (n + 1) vs := by
          intro hmem
          rcases List.mem_append.1 hmem with hmem | hmem
          · exact absurd (hpassed n hmem) (lt_irrefl n)
          · have hle := le_of_mem_rejectedFrom hmem
            omega
        have hkept : keptAt (passed ++ rejectedFrom (n + 1) vs) (i, n) = some i := if_neg hkeep
        have hnext := ih hrest (n + 1) passed fun k hk => (hpassed k hk).trans (Nat.lt_succ_self n)
        rw [hpositions, hkept, hnext]
        rfl
      | error e =>
        -- the positions that follow do not meet this one
        have hpositions : passed ++ rejectedFrom n (.error e :: vs) =
            (passed ++ [n]) ++ rejectedFrom (n + 1) vs := List.append_cons _ _ _
        have hdrop : n ∈ (passed ++ [n]) ++ rejectedFrom (n + 1) vs :=
          List.mem_append_left _ (List.mem_append_right _ (List.mem_singleton.2 rfl))
        have hdropped : keptAt ((passed ++ [n]) ++ rejectedFrom (n + 1) vs) (i, n) = none :=
          if_pos hdrop
        have hnext := ih hrest (n + 1) (passed ++ [n]) fun k hk => by
          rcases List.mem_append.1 hk with hk | hk
          · exact (hpassed k hk).trans (Nat.lt_succ_self n)
          · rw [List.mem_singleton.1 hk]
            exact Nat.lt_succ_self n
        rw [hpositions, hdropped]
        exact hnext

/-- The accepted outcomes, counted anew, are those of the accepted verdicts. -/
theorem recounted_eq (n k : ℕ) (vs : List Verdict) :
    (((verdictOutcomes n vs).filterMap EpochOutcome.accepted?).zipIdx k).map
      (fun (intent, position) => EpochOutcome.accepted { intent with position := position }) =
      verdictOutcomes k (vs.filter Except.toBool) := by
  induction vs generalizing n k with
  | nil => rfl
  | cons v vs ih =>
    cases v with
    | ok p => exact congrArg _ (ih (n + 1) (k + 1))
    | error e => exact ih (n + 1) k

section Plans

variable {plan plan' : EpochPlan} {is : List QueuedIntent} {vs : List Verdict}

/-- What verdicts keep is what the plan keeps. -/
theorem EpochPlan.withoutRejected_eq (h : plan.outcomes = verdictOutcomes 0 vs)
    (hlength : vs.length = is.length) :
    plan.withoutRejected is = Trials.survivors is vs := by
  have hsurvivors := survivors_eq hlength 0 [] fun k hk => absurd hk List.not_mem_nil
  rw [List.nil_append] at hsurvivors
  unfold EpochPlan.withoutRejected EpochPlan.rejectedPositions
  rw [h]
  exact hsurvivors

theorem EpochPlan.recounted_of (h : plan.outcomes = verdictOutcomes 0 vs) :
    plan.recounted = verdictOutcomes 0 (vs.filter Except.toBool) := by
  unfold EpochPlan.recounted
  rw [h]
  exact recounted_eq 0 0 vs

end Plans

/-! ## The chain of `derive_epoch` -/

/-- One trial of `derive_epoch`. -/
def chainStep (validators : List Validator) (predecessor : World) (intent : QueuedIntent) :
    Except String (Verdict × World) :=
  (deriveIntent predecessor intent validators).map fun
    | .ok (world, frame, entities) => (.ok (world, frame, entities), world)
    | .error error => (.error error, predecessor)

theorem chainStep_quiet (vs : List Validator) : Trials.Quiet (chainStep vs) := by
  intro w i e w' h
  unfold chainStep at h
  cases hi : deriveIntent w i vs with
  | error message =>
    rw [hi] at h
    cases h
  | ok r =>
    rw [hi] at h
    cases r with
    | ok p => cases h
    | error e' =>
      cases h
      rfl

/-- The frames of verdicts. -/
def verdictFrames (verdicts : List Verdict) : List CommitFrame :=
  verdicts.filterMap fun
    | .ok (_, frame, _) => some frame
    | .error _ => none

theorem verdictFrames_filter (vs : List Verdict) :
    verdictFrames (vs.filter Except.toBool) = verdictFrames vs := by
  induction vs with
  | nil => rfl
  | cons v vs ih =>
    cases v with
    | ok p => exact congrArg (p.2.1 :: ·) ih
    | error e => exact ih

/-- **`derive_epoch` is a loop of trials** on its predecessor. -/
theorem deriveEpochFrom_eq (w : World) (n : ℕ) (vs : List Validator) (is : List QueuedIntent) :
    deriveEpochFrom w n vs is = (Trials.run (chainStep vs) w is).map fun (verdicts, tail) =>
      (tail, verdictOutcomes n verdicts, verdictFrames verdicts) := by
  induction is generalizing w n with
  | nil => rfl
  | cons i is ih =>
    unfold deriveEpochFrom Trials.run
    cases hi : deriveIntent w i vs with
    | error message =>
      have hstep : chainStep vs w i = .error message := by
        unfold chainStep
        rw [hi]
        rfl
      rw [hstep]
      rfl
    | ok r =>
      cases r with
      | ok p =>
        obtain ⟨w', f, es⟩ := p
        have hstep : chainStep vs w i = .ok (.ok (w', f, es), w') := by
          unfold chainStep
          rw [hi]
          rfl
        simp only [hstep, ih w' (n + 1)]
        cases Trials.run (chainStep vs) w' is <;> rfl
      | error e =>
        have hstep : chainStep vs w i = .ok (.error e, w) := by
          unfold chainStep
          rw [hi]
          rfl
        simp only [hstep, ih w (n + 1)]
        cases Trials.run (chainStep vs) w is <;> rfl

/-- A plan of `derive_epoch` does not show what it rejects. -/
theorem deriveEpoch_unchanged {base : World} {is : List QueuedIntent} {vs : List Validator}
    {plan : EpochPlan} (h : deriveEpoch base is vs = .ok plan) :
    ∃ plan', deriveEpoch base (plan.withoutRejected is) vs = .ok plan' ∧
      plan.Unchanged plan' (plan.withoutRejected is) := by
  unfold deriveEpoch at h ⊢
  rw [deriveEpochFrom_eq] at h
  cases hrun : Trials.run (chainStep vs) base is with
  | error message =>
    rw [hrun] at h
    cases h
  | ok r =>
    obtain ⟨verdicts, tail⟩ := r
    rw [hrun] at h
    obtain rfl := Except.ok.inj h
    have hsurvivors := Trials.run_survivors (chainStep_quiet vs) hrun
    rw [EpochPlan.withoutRejected_eq rfl (Trials.length_run hrun), deriveEpochFrom_eq, hsurvivors]
    refine ⟨_, rfl, ?_, rfl, rfl, verdictFrames_filter verdicts, ?_⟩
    · exact (length_verdictOutcomes 0 _).trans (Trials.length_run hsurvivors)
    exact (EpochPlan.recounted_of rfl).symm

/-! ## Epochs of one world -/

/-- The verdicts of an epoch whose accepted intents share a world. -/
def verdictsIn (world : World) (frame : CommitFrame) (decisions : List Decision) : List Verdict :=
  decisions.map fun decision => decision.map fun entities => (world, frame, entities)

theorem outcomesOf_eq (world : World) (frame : CommitFrame) (ds : List Decision) :
    outcomesOf world frame ds = verdictOutcomes 0 (verdictsIn world frame ds) := by
  unfold outcomesOf verdictOutcomes verdictsIn
  rw [List.zipIdx_map, List.map_map]
  refine List.map_congr_left fun x _ => ?_
  obtain ⟨d, n⟩ := x
  cases d <;> rfl

/-- Where nothing is accepted the world does not matter. -/
theorem rejectionsOf_eq (world : World) (frame : CommitFrame) {ds : List Decision}
    (h : ds.any Decision.isAccepted = false) :
    rejectionsOf ds = verdictOutcomes 0 (verdictsIn world frame ds) := by
  rw [← outcomesOf_eq]
  unfold rejectionsOf outcomesOf
  rw [← List.filterMap_eq_map]
  refine List.filterMap_congr fun x hx => ?_
  obtain ⟨d, n⟩ := x
  cases d with
  | error e => rfl
  | ok es =>
    have haccepted := List.any_eq_false.1 h _ (List.fst_mem_of_mem_zipIdx hx)
    exact absurd rfl haccepted

theorem verdictsIn_filter (world : World) (frame : CommitFrame) (ds : List Decision) :
    verdictsIn world frame (ds.filter Except.toBool) =
      (verdictsIn world frame ds).filter Except.toBool := by
  induction ds with
  | nil => rfl
  | cons d ds ih =>
    cases d with
    | ok es => exact congrArg _ ih
    | error e => exact ih

theorem survivors_verdictsIn (world : World) (frame : CommitFrame) (is : List QueuedIntent)
    (ds : List Decision) :
    Trials.survivors is (verdictsIn world frame ds) = Trials.survivors is ds := by
  induction is generalizing ds with
  | nil => rfl
  | cons i is ih =>
    cases ds with
    | nil => rfl
    | cons d ds =>
      cases d with
      | ok es => exact congrArg _ (ih ds)
      | error e => exact ih ds

/-- The outcomes of an assembled plan. -/
theorem EpochPlan.assemble_outcomes (base : World) (ds : List Decision)
    (successor : World × CommitFrame) :
    (EpochPlan.assemble base ds successor).outcomes =
      verdictOutcomes 0 (verdictsIn successor.1 successor.2 ds) := by
  unfold EpochPlan.assemble
  split
  · exact outcomesOf_eq successor.1 successor.2 ds
  · rename_i hnone
    exact rejectionsOf_eq successor.1 successor.2 (Bool.eq_false_iff.2 hnone)

/-- Leaving out the rejections does not change what is assembled. -/
theorem EpochPlan.assemble_unchanged (base : World) (ds : List Decision)
    (successor : World × CommitFrame) {kept : List QueuedIntent}
    (hkept : (ds.filter Except.toBool).length = kept.length) :
    (EpochPlan.assemble base ds successor).Unchanged
      (EpochPlan.assemble base (ds.filter Except.toBool) successor) kept := by
  have hany : (ds.filter Except.toBool).any Decision.isAccepted = ds.any Decision.isAccepted := by
    rw [List.any_filter]
    refine congrArg _ (funext fun d => ?_)
    exact Bool.and_self _
  have houtcomes : (EpochPlan.assemble base (ds.filter Except.toBool) successor).outcomes =
      (EpochPlan.assemble base ds successor).recounted := by
    rw [EpochPlan.assemble_outcomes, verdictsIn_filter]
    exact (EpochPlan.recounted_of (EpochPlan.assemble_outcomes base ds successor)).symm
  refine ⟨?_, ?_, ?_, ?_, houtcomes⟩
  · rw [EpochPlan.assemble_outcomes, length_verdictOutcomes]
    unfold verdictsIn
    rw [List.length_map]
    exact hkept
  all_goals
    unfold EpochPlan.assemble
    rw [hany]
    split <;> rfl

theorem EpochPlan.assemble_withoutRejected (base : World) {ds : List Decision}
    (successor : World × CommitFrame) {is : List QueuedIntent} (hlength : ds.length = is.length) :
    (EpochPlan.assemble base ds successor).withoutRejected is = Trials.survivors is ds := by
  rw [EpochPlan.withoutRejected_eq (EpochPlan.assemble_outcomes base ds successor),
    survivors_verdictsIn]
  unfold verdictsIn
  rw [List.length_map]
  exact hlength

/-- One trial of `derive_epoch_world`. -/
def EpochWorkspace.trial (validators : List Validator) (s : EpochWorkspace)
    (intent : QueuedIntent) : Except String (Decision × EpochWorkspace) :=
  .ok (s.intent validators intent)

theorem EpochWorkspace.trial_quiet (vs : List Validator) :
    Trials.Quiet (EpochWorkspace.trial vs) := by
  intro s i e s' h
  unfold EpochWorkspace.trial at h
  rw [EpochWorkspace.intent_eq] at h
  split at h
  · cases h
    rfl
  · cases h

/-- **`derive_epoch_world` is a loop of trials** on its workspace. -/
theorem EpochWorkspace.intents_eq (s : EpochWorkspace) (vs : List Validator)
    (is : List QueuedIntent) :
    Trials.run (EpochWorkspace.trial vs) s is = .ok (s.intents vs is) := by
  induction is generalizing s with
  | nil => rfl
  | cons i is ih =>
    have hstep : EpochWorkspace.trial vs s i = .ok (s.intent vs i) := rfl
    unfold Trials.run EpochWorkspace.intents
    simp only [hstep, ih]

/-- A plan of `derive_epoch_world` does not show what it rejects. -/
theorem deriveEpochWorld_unchanged {base : World} {is : List QueuedIntent} {vs : List Validator}
    {plan : EpochPlan} (h : deriveEpochWorld base is vs = .ok plan) :
    ∃ plan', deriveEpochWorld base (plan.withoutRejected is) vs = .ok plan' ∧
      plan.Unchanged plan' (plan.withoutRejected is) := by
  unfold deriveEpochWorld at h ⊢
  cases hkernel : base.kernel with
  | error message =>
    rw [hkernel] at h
    cases h
  | ok kernel =>
    rw [hkernel] at h
    obtain rfl := Except.ok.inj h
    have hrun := EpochWorkspace.intents_eq (EpochWorkspace.start base kernel) vs is
    have hsurvivors := Trials.run_survivors (EpochWorkspace.trial_quiet vs) hrun
    have hkept := Trials.length_run hsurvivors
    rw [EpochWorkspace.intents_eq] at hsurvivors
    refine ⟨_, rfl, ?_⟩
    simp only
    rw [EpochPlan.assemble_withoutRejected base _ (Trials.length_run hrun),
      Except.ok.inj hsurvivors]
    exact EpochPlan.assemble_unchanged base _ _ hkept

namespace VmEpochMaterializer

theorem EpochRun.intent_quiet : Trials.Quiet EpochRun.intent := by
  intro s i e s' h
  unfold EpochRun.intent at h
  split at h
  · cases h
  · cases h
    rfl
  · split at h
    · cases h
      rfl
    · split at h
      · cases h
      · split at h <;> cases h

/-- **`derive_vm_epoch` is a loop of trials** on its materializer. -/
theorem EpochRun.intents_eq (s : EpochRun) (is : List QueuedIntent) :
    Trials.run EpochRun.intent s is = s.intents is := by
  induction is generalizing s with
  | nil => rfl
  | cons i is ih =>
    unfold Trials.run EpochRun.intents
    cases s.intent i with
    | error halt => rfl
    | ok r =>
      obtain ⟨d, s'⟩ := r
      simp only [ih s']
      cases s'.intents is <;> rfl

/-- A plan of `derive_vm_epoch` does not show what it rejects, and neither does the materializer. -/
theorem deriveVmEpoch_unchanged {m m' : VmEpochMaterializer} {base : World}
    {is : List QueuedIntent} {plan : EpochPlan} (h : m.deriveVmEpoch base is = .ok (plan, m')) :
    ∃ plan', m.deriveVmEpoch base (plan.withoutRejected is) = .ok (plan', m') ∧
      plan.Unchanged plan' (plan.withoutRejected is) := by
  unfold deriveVmEpoch at h ⊢
  simp only at h ⊢
  split at h
  · cases h
  · rename_i hnext
    rw [if_neg hnext]
    rw [← EpochRun.intents_eq] at h
    split at h
    · cases h
    · rename_i ds s hrun
      cases h
      have hsurvivors := Trials.run_survivors EpochRun.intent_quiet hrun
      have hkept := Trials.length_run hsurvivors
      rw [EpochRun.intents_eq] at hsurvivors
      rw [EpochPlan.assemble_withoutRejected base _ (Trials.length_run hrun), hsurvivors]
      exact ⟨_, rfl, EpochPlan.assemble_unchanged base ds _ hkept⟩

end VmEpochMaterializer

/-- **Rejected intents are invisible.** Without the intents that were rejected, each of the
planners derives the same worlds and frames for the others, and accepts them all. -/
theorem rejected_invisible (base : World) (intents : List QueuedIntent)
    (validators : List Validator) :
    (∀ plan, deriveEpoch base intents validators = .ok plan →
      ∃ plan', deriveEpoch base (plan.withoutRejected intents) validators = .ok plan' ∧
        plan.Unchanged plan' (plan.withoutRejected intents)) ∧
    (∀ plan, deriveEpochWorld base intents validators = .ok plan →
      ∃ plan', deriveEpochWorld base (plan.withoutRejected intents) validators = .ok plan' ∧
        plan.Unchanged plan' (plan.withoutRejected intents)) ∧
    ∀ (m m' : VmEpochMaterializer) (plan : EpochPlan),
      m.deriveVmEpoch base intents = .ok (plan, m') →
        ∃ plan', m.deriveVmEpoch base (plan.withoutRejected intents) = .ok (plan', m') ∧
          plan.Unchanged plan' (plan.withoutRejected intents) := by
  refine ⟨fun plan h => ?_, fun plan h => ?_, fun m m' plan h => ?_⟩
  · exact deriveEpoch_unchanged h
  · exact deriveEpochWorld_unchanged h
  · exact VmEpochMaterializer.deriveVmEpoch_unchanged h

end ForthDB
