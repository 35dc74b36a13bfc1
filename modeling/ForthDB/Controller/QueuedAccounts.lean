import ForthDB.Controller.QueuedSteps
import Mathlib.Tactic.IntervalCases

/-!
# The accounts of the in-memory controller

`submit` counts an intent, and raises `in_flight`, in front of a `try_send` that barriers can
make fail; the worker overwrites `in_flight`.

* `Depth`, `Depth.moves`: what stands behind `queue_depth` in every run.
* `Accounts`, `Accounts.moves`: what stands behind `submitted` and `in_flight` as long as no send
  fails behind a reservation and no commit panics.
* `queued_accounts`: **the depth is within the capacity in every run, and the accounts are right
  in every run in which no such step is taken.**
-/

namespace ForthDB.Controller.Queued

open Threads

variable {capacity : ℕ} {policy : BatchPolicy} {intents : ℕ → ControllerIntent}

/-! ## Where calls are -/

/-- The places behind a reservation that still holds. -/
def CallPlace.reserves : CallPlace → Bool
  | .submitCount => true
  | .submitRaise => true
  | .submitSend => true
  | .submitRelease _ => true
  | _ => false

/-- The places of an intent that is counted and not sent. -/
def CallPlace.counts : CallPlace → Bool
  | .submitRaise => true
  | .submitSend => true
  | _ => false

/-- The places behind a send that failed. -/
def CallPlace.failed : CallPlace → Bool
  | .submitRelease _ => true
  | .submitLower _ => true
  | _ => false

/-- No call of `submit` or `flush` is at such a place. -/
def CallPlace.resting : CallPlace → Bool
  | .idle => true
  | .ticket => true
  | .ticketDrop => true
  | .join => true
  | .returned _ => true
  | _ => false

/-- A kind of places, of calls. -/
def AtCalls (kind : CallPlace → Bool) : (i : Thread) → Place i → Prop
  | .call _, p => kind p = true
  | _, _ => False

def Action.isRelease : Action → Bool
  | .release => true
  | _ => false

def Action.isCount : Action → Bool
  | .count _ => true
  | _ => false

/-- A reserved intent cannot be sent. -/
def SendFails (capacity : ℕ) (s : System) : Thread → Prop
  | .call id => s.place (.call id) = CallPlace.submitSend ∧
      (s.shared.exited = true ∨ capacity ≤ s.shared.queue.length)
  | _ => False

/-- `commit_mixed_epoch` does not return. -/
def CommitPanics (intents : ℕ → ControllerIntent) (s : System) : Thread → Prop
  | .worker => ∃ batch message, (s.place .worker).stage = .committing batch ∧
      s.shared.database.commitMixedEpoch (batch.map intents) (s.place .worker).materializer =
        .error message
  | _ => False

/-- No call of `submit` or `flush` is under way, the channel is empty, and the worker waits or is
gone. -/
structure Quiescent (s : System) : Prop where
  calls : ∀ id, CallPlace.resting (s.place (.call id)) = true
  queue : s.shared.queue = []
  todo : (s.place .worker).todo = []
  worker : (s.place .worker).stage = .exited ∨
    (s.place .worker).stage = .gathering ∧ (s.place .worker).sealer.gathering = .waiting ∧
      (s.place .worker).pending = []

/-! ## The worker by itself -/

/-- What the worker keeps in its own hands. -/
structure WorkerSound (w : Worker) : Prop where
  reachable : .unreachable ∉ w.todo
  stores : ∀ value, .storeInFlight value ∈ w.todo → value = 0
  committing : ∀ batch, w.stage = .committing batch →
    ∃ reason, w.sealer.gathering = .sealed batch reason
  idle : w.todo ≠ [] → w.stage = .gathering
  full : w.sealer.gathering ≠ .waiting → w.sealer.gathering.batch ≠ []

/-- What the worker does about one answer. -/
def answerActions (answer : ℕ × TicketReply × Bool) : List Action :=
  [.send answer.1 answer.2.1, .count answer.2.2, .resolve answer.1]

/-- All of them, and what `process_batch` ends with. -/
def answering (answers : List (ℕ × TicketReply × Bool)) : List Action :=
  answers.flatMap answerActions ++ [.addEpoch, .storeInFlight 0]

/-- **The completions of a batch** answer its intents one by one, with what is routed to them. -/
theorem completions_eq {batch : List ℕ} {plan : MixedEpochPlan} {head : World}
    (h : List.Forall₂ (Routed head) (batch.map intents) plan.outcomes) :
    ∃ answers : List (ℕ × TicketReply × Bool), answers.map Prod.fst = batch ∧
      List.Forall₂ (fun answer o => route (intents answer.1) o = some answer.2) answers
        plan.outcomes ∧
      (∀ answer ∈ answers, ∀ w, answer.2.1.world? = some w → w = head) ∧
      completions intents batch plan = answering answers := by
  unfold completions answering
  rw [List.forall₂_map_left_iff] at h
  generalize plan.outcomes = os at h ⊢
  induction h with
  | nil => exact ⟨[], rfl, .nil, fun answer hmem => absurd hmem List.not_mem_nil, rfl⟩
  | @cons call outcome batch os hrouted _ ih =>
    obtain ⟨answers, hbatch, hroutes, hworlds, hactions⟩ := ih
    obtain ⟨reply, accepted, hroute, hworld⟩ := hrouted
    refine ⟨(call, reply, accepted) :: answers, ?_, .cons hroute hroutes, ?_, ?_⟩
    · rw [List.map_cons, hbatch]
    · rw [List.forall_mem_cons]
      exact ⟨hworld, hworlds⟩
    · rw [List.zip_cons_cons, List.flatMap_cons, List.append_assoc, hactions, List.flatMap_cons,
        List.append_assoc]
      simp only [routeActions, hroute, answerActions]

/-- An access of a completion is one of these. -/
theorem mem_completions {answers : List (ℕ × TicketReply × Bool)} {action : Action}
    (h : action ∈ answering answers) :
    (∃ call reply, action = .send call reply) ∨ (∃ accepted, action = .count accepted) ∨
      (∃ call, action = .resolve call) ∨ action = .addEpoch ∨ action = .storeInFlight 0 := by
  rcases List.mem_append.1 h with h | h
  · obtain ⟨answer, -, hin⟩ := List.mem_flatMap.1 h
    simp only [answerActions, List.mem_cons, List.not_mem_nil, or_false] at hin
    rcases hin with rfl | rfl | rfl
    · exact .inl ⟨_, _, rfl⟩
    · exact .inr (.inl ⟨_, rfl⟩)
    · exact .inr (.inr (.inl ⟨_, rfl⟩))
  · simp only [List.mem_cons, List.not_mem_nil, or_false] at h
    exact .inr (.inr (.inr h))

/-- Every answer is counted once. -/
theorem countP_isCount_completions (answers : List (ℕ × TicketReply × Bool)) :
    (answering answers).countP Action.isCount =
      answers.length := by
  induction answers with
  | nil => rfl
  | cons answer answers ih =>
    have hone : (answerActions answer).countP Action.isCount = 1 := rfl
    unfold answering at ih ⊢
    rw [List.flatMap_cons, List.append_assoc, List.countP_append, hone, ih, List.length_cons]
    omega

/-- No reservation is released in a completion. -/
theorem countP_isRelease_completions (answers : List (ℕ × TicketReply × Bool)) :
    (answering answers).countP Action.isRelease = 0 := by
  rw [List.countP_eq_zero]
  intro action haction
  rcases mem_completions haction with ⟨_, _, rfl⟩ | ⟨_, rfl⟩ | ⟨_, rfl⟩ | rfl | rfl <;>
    exact fun h => nomatch h

/-- What `take` leaves to do. -/
theorem mem_claim {call : ℕ} {action : Action} (h : action ∈ [.release, .addClaimed, .claim call]) :
    action = .release ∨ action = .addClaimed ∨ action = .claim call := by
  simpa using h

/-- **The worker's steps keep its hands in order.** -/
theorem WorkerSound.moves {a a' : Shared} {w w' : Worker} (h : WorkerSound w)
    (hm : WorkerMoves intents a w a' w') : WorkerSound w' := by
  cases hm with
  | @act action todo htodo hreach =>
    have hsub : ∀ x ∈ todo, x ∈ w.todo := fun x hx => by
      rw [htodo]
      exact List.mem_cons_of_mem _ hx
    have hgathering := h.idle (by rw [htodo]; exact List.cons_ne_nil _ _)
    exact ⟨fun hu => h.reachable (hsub _ hu), fun v hv => h.stores v (hsub _ hv), h.committing,
      fun _ => hgathering, h.full⟩
  | mismatch htodo => exact ⟨List.not_mem_nil, fun v hv => absurd hv List.not_mem_nil,
      fun batch hb => (nomatch hb), fun hne => absurd rfl hne, h.full⟩
  | answerPending htodo hstage hidle hpending =>
    exact ⟨h.reachable, h.stores, h.committing, h.idle, h.full⟩
  | answer htodo hstage hidle hpending hqueue => exact h
  | take htodo hstage hqueue hpending hsealer =>
    refine ⟨fun hu => ?_, fun v hv => ?_, fun batch hb => ?_, fun _ => hstage, fun _ => ?_⟩
    · rcases mem_claim hu with hu | hu | hu <;> cases hu
    · rcases mem_claim hv with hv | hv | hv <;> cases hv
    · have hb' : w.stage = .committing batch := hb
      rw [hstage] at hb'
      cases hb'
    · rw [hsealer.batch]
      exact List.append_ne_nil_of_right_ne_nil _ (List.cons_ne_nil _ _)
  | defer htodo hstage hbusy hqueue hsealer hcloser =>
    refine ⟨h.reachable, h.stores, fun batch hb => ?_, h.idle, fun _ => ?_⟩
    · have hb' : w.stage = .committing batch := hb
      rw [hstage] at hb'
      cases hb'
    · rw [hsealer.batch]
      exact h.full hbusy
  | observe htodo hstage hbusy hsealer hcloser =>
    refine ⟨h.reachable, h.stores, fun batch hb => ?_, h.idle, fun _ => ?_⟩
    · have hb' : w.stage = .committing batch := hb
      rw [hstage] at hb'
      cases hb'
    · rw [hsealer.batch]
      exact h.full hbusy
  | @process batch reason htodo hstage hsealed =>
    refine ⟨h.reachable, h.stores, fun batch' hb => ?_, fun hne => absurd htodo hne, h.full⟩
    cases hb
    exact ⟨reason, hsealed⟩
  | commit htodo hstage hplan =>
    obtain ⟨answers, -, -, -, hactions⟩ :=
      completions_eq (Database.commitMixedEpoch_answers hplan)
    refine ⟨fun hu => ?_, fun v hv => ?_, fun batch hb => (nomatch hb), fun _ => rfl,
      fun hne => absurd rfl hne⟩
    · rw [hactions] at hu
      rcases mem_completions hu with ⟨_, _, hu⟩ | ⟨_, hu⟩ | ⟨_, hu⟩ | hu | hu <;> cases hu
    · rw [hactions] at hv
      rcases mem_completions hv with ⟨_, _, hv⟩ | ⟨_, hv⟩ | ⟨_, hv⟩ | hv | hv <;> cases hv
      rfl
  | panic htodo hstage hplan => exact ⟨List.not_mem_nil, fun v hv => absurd hv List.not_mem_nil,
      fun batch hb => (nomatch hb), fun hne => absurd rfl hne, h.full⟩
  | leave htodo hstage hidle hpending hqueue hsender =>
    exact ⟨h.reachable, h.stores, fun batch hb => (nomatch hb), fun hne => absurd htodo hne, h.full⟩

/-- No access of the worker is one it cannot get through. -/
theorem WorkerSound.no_mismatch {w : Worker} (h : WorkerSound w) {todo : List Action}
    (htodo : w.todo = .unreachable :: todo) : False :=
  h.reachable (by rw [htodo]; exact List.mem_cons_self)

/-- The worker is about to panic in `commit_mixed_epoch`. -/
def Panicking (intents : ℕ → ControllerIntent) (a : Shared) (w : Worker) : Prop :=
  ∃ batch message, w.stage = .committing batch ∧
    a.database.commitMixedEpoch (batch.map intents) w.materializer = .error message

/-- A batch that is committed is the one that was gathered. -/
theorem WorkerSound.batch {w : Worker} (h : WorkerSound w) {batch : List ℕ}
    (hstage : w.stage = .committing batch) : w.sealer.gathering.batch = batch := by
  obtain ⟨reason, hsealed⟩ := h.committing batch hstage
  rw [hsealed]
  rfl

/-! ## What the worker does to the accounts -/

/-- The reservations in the channel and in the worker's hands. -/
def reservedBy (a : Shared) (w : Worker) : ℕ :=
  (intentsOf a.queue).length + w.todo.countP Action.isRelease

/-- The intents in the channel and in the worker's hands that are not counted yet. -/
def openIntents (a : Shared) (w : Worker) : ℕ :=
  (intentsOf a.queue).length + w.sealer.gathering.batch.length + w.todo.countP Action.isCount

/-- The worker has an intent before it, or will store 0. -/
def Busy (a : Shared) (w : Worker) : Prop :=
  intentsOf a.queue ≠ [] ∨ w.sealer.gathering ≠ .waiting ∨ .storeInFlight 0 ∈ w.todo

theorem perform_depth (a : Shared) (action : Action) :
    (a.perform action).queueDepth = a.queueDepth - if action.isRelease then 1 else 0 := by
  cases action with
  | release => rfl
  | send call reply =>
    unfold Shared.perform Shared.deliver
    simp only
    split <;> exact (sub_zero _).symm
  | count accepted => cases accepted <;> exact (sub_zero _).symm
  | _ => exact (sub_zero _).symm

theorem perform_counts (a : Shared) (action : Action) :
    (a.perform action).accepted + (a.perform action).rejected =
      a.accepted + a.rejected + if action.isCount then 1 else 0 := by
  cases action with
  | send call reply =>
    unfold Shared.perform Shared.deliver
    simp only
    split <;> rfl
  | count accepted =>
    cases accepted with
    | true => exact (Nat.add_right_comm _ _ _).symm
    | false => rfl
  | _ => rfl

section Worker

variable {a a' : Shared} {w w' : Worker}

/-- **The worker lowers the depth** with what it takes out of the channel, and loses reservations
only when it panics. -/
theorem WorkerMoves.depth (hm : WorkerMoves intents a w a' w') (h : WorkerSound w) :
    a'.queueDepth ≤ a.queueDepth ∧ ∃ lost : ℕ,
      a'.queueDepth - reservedBy a' w' = a.queueDepth - reservedBy a w + lost ∧
      (lost = 0 ∨ Panicking intents a w) := by
  unfold reservedBy
  cases hm with
  | @act action todo htodo hreach =>
    rw [htodo, List.countP_cons, perform_depth, (perform_same a action).1]
    simp only
    split
    · exact ⟨by omega, 0, by omega, .inl rfl⟩
    · exact ⟨by omega, 0, by omega, .inl rfl⟩
  | mismatch htodo => exact (h.no_mismatch htodo).elim
  | answerPending htodo hstage hidle hpending => exact ⟨le_rfl, 0, (Int.add_zero _).symm, .inl rfl⟩
  | answer htodo hstage hidle hpending hqueue =>
    refine ⟨le_rfl, 0, ?_, .inl rfl⟩
    rw [hqueue, intentsOf_barrier]
    exact (Int.add_zero _).symm
  | @take call queue sealer htodo hstage hqueue hpending hsealer =>
    have hone : List.countP Action.isRelease [.release, .addClaimed, .claim call] = 1 := rfl
    refine ⟨le_rfl, 0, ?_, .inl rfl⟩
    rw [hqueue, htodo, intentsOf_intent, List.length_cons, List.countP_nil]
    simp only [hone]
    omega
  | defer htodo hstage hbusy hqueue hsealer hcloser =>
    refine ⟨le_rfl, 0, ?_, .inl rfl⟩
    rw [hqueue, intentsOf_barrier]
    exact (Int.add_zero _).symm
  | observe htodo hstage hbusy hsealer hcloser => exact ⟨le_rfl, 0, (Int.add_zero _).symm, .inl rfl⟩
  | process htodo hstage hsealed => exact ⟨le_rfl, 0, (Int.add_zero _).symm, .inl rfl⟩
  | commit htodo hstage hplan =>
    obtain ⟨answers, -, -, -, hactions⟩ :=
      completions_eq (Database.commitMixedEpoch_answers hplan)
    refine ⟨le_rfl, 0, ?_, .inl rfl⟩
    simp only [hactions, countP_isRelease_completions, htodo, List.countP_nil]
    omega
  | panic htodo hstage hplan =>
    refine ⟨le_rfl, (intentsOf a.queue).length, ?_, .inr ⟨_, _, hstage, hplan⟩⟩
    simp only [panicked, htodo, List.countP_nil, intentsOf, List.filterMap_nil, List.length_nil]
    omega
  | leave htodo hstage hidle hpending hqueue hsender => exact ⟨le_rfl, 0, (Int.add_zero _).symm, .inl rfl⟩

/-- **The worker counts** each intent that it has taken once. -/
theorem WorkerMoves.accounts (hm : WorkerMoves intents a w a' w') (h : WorkerSound w)
    (hno : ¬ Panicking intents a w) :
    a'.submitted = a.submitted ∧
      a'.accepted + a'.rejected + openIntents a' w' = a.accepted + a.rejected + openIntents a w := by
  unfold openIntents
  cases hm with
  | @act action todo htodo hreach =>
    obtain ⟨hqueue, -, hsubmitted, -⟩ := perform_same a action
    refine ⟨hsubmitted, ?_⟩
    rw [htodo, List.countP_cons, perform_counts, hqueue]
    simp only
    omega
  | mismatch htodo => exact (h.no_mismatch htodo).elim
  | answerPending htodo hstage hidle hpending => exact ⟨rfl, rfl⟩
  | answer htodo hstage hidle hpending hqueue =>
    refine ⟨rfl, ?_⟩
    rw [hqueue, intentsOf_barrier]
  | @take call queue sealer htodo hstage hqueue hpending hsealer =>
    have hnone : List.countP Action.isCount [.release, .addClaimed, .claim call] = 0 := rfl
    refine ⟨rfl, ?_⟩
    rw [hqueue, htodo, intentsOf_intent, List.length_cons, List.countP_nil]
    simp only [hnone, hsealer.batch, List.length_append, List.length_singleton]
    omega
  | defer htodo hstage hbusy hqueue hsealer hcloser =>
    refine ⟨rfl, ?_⟩
    rw [hqueue, intentsOf_barrier]
    simp only [hsealer.batch]
  | observe htodo hstage hbusy hsealer hcloser =>
    refine ⟨rfl, ?_⟩
    simp only [hsealer.batch]
  | process htodo hstage hsealed => exact ⟨rfl, rfl⟩
  | @commit batch plan database materializer htodo hstage hplan =>
    obtain ⟨answers, hbatch, -, -, hactions⟩ :=
      completions_eq (Database.commitMixedEpoch_answers hplan)
    have hlength : answers.length = batch.length := by rw [← hbatch, List.length_map]
    refine ⟨rfl, ?_⟩
    rw [h.batch hstage, htodo, List.countP_nil, ← hlength]
    simp only [hactions, countP_isCount_completions, Gathering.batch, List.length_nil]
    omega
  | panic htodo hstage hplan => exact absurd ⟨_, _, hstage, hplan⟩ hno
  | leave htodo hstage hidle hpending hqueue hsender => exact ⟨rfl, rfl⟩

/-- **`in_flight` behind a step of the worker** is 0, or the worker has something before it, or
nothing has changed. -/
theorem WorkerMoves.inFlight (hm : WorkerMoves intents a w a' w') (h : WorkerSound w)
    (hno : ¬ Panicking intents a w) (hnonneg : 0 ≤ a.inFlight) :
    0 ≤ a'.inFlight ∧
      (a'.inFlight = 0 ∨ Busy a' w' ∨ (a'.inFlight = a.inFlight ∧ ¬ Busy a w)) := by
  cases hm with
  | @act action todo htodo hreach =>
    by_cases hstore : action = .storeInFlight 0
    · subst hstore
      exact ⟨le_rfl, .inl rfl⟩
    · have hsame : (a.perform action).inFlight = a.inFlight := by
        cases action with
        | storeInFlight value =>
          have hvalue := h.stores value (by rw [htodo]; exact List.mem_cons_self)
          exact absurd (by rw [hvalue]) hstore
        | send call reply =>
          unfold Shared.perform Shared.deliver
          simp only
          split <;> rfl
        | count accepted => cases accepted <;> rfl
        | _ => rfl
      rw [hsame]
      refine ⟨hnonneg, ?_⟩
      by_cases hbusy : Busy a w
      · refine .inr (.inl ?_)
        rcases hbusy with hqueue | hgather | hmem
        · refine .inl ?_
          rw [(perform_same a action).1]
          exact hqueue
        · exact .inr (.inl hgather)
        · rw [htodo] at hmem
          rcases List.mem_cons.1 hmem with hhead | htail
          · exact absurd hhead.symm hstore
          · exact .inr (.inr htail)
      · exact .inr (.inr ⟨rfl, hbusy⟩)
  | mismatch htodo => exact (h.no_mismatch htodo).elim
  | answerPending htodo hstage hidle hpending =>
    refine ⟨hnonneg, ?_⟩
    by_cases hbusy : Busy a w
    · exact .inr (.inl hbusy)
    · exact .inr (.inr ⟨rfl, hbusy⟩)
  | answer htodo hstage hidle hpending hqueue =>
    refine ⟨hnonneg, ?_⟩
    by_cases hbusy : Busy a w
    · refine .inr (.inl ?_)
      unfold Busy at hbusy ⊢
      rw [hqueue, intentsOf_barrier] at hbusy
      exact hbusy
    · exact .inr (.inr ⟨rfl, hbusy⟩)
  | take htodo hstage hqueue hpending hsealer =>
    exact ⟨hnonneg, .inr (.inl (.inr (.inl hsealer.busy)))⟩
  | defer htodo hstage hbusy hqueue hsealer hcloser =>
    exact ⟨hnonneg, .inr (.inl (.inr (.inl hsealer.busy)))⟩
  | observe htodo hstage hbusy hsealer hcloser =>
    exact ⟨hnonneg, .inr (.inl (.inr (.inl hsealer.busy)))⟩
  | process htodo hstage hsealed =>
    refine ⟨Int.natCast_nonneg _, .inr (.inl (.inr (.inl ?_)))⟩
    rw [hsealed]
    exact fun hidle => nomatch hidle
  | commit htodo hstage hplan =>
    refine ⟨hnonneg, .inr (.inl (.inr (.inr ?_)))⟩
    unfold completions
    simp
  | panic htodo hstage hplan => exact absurd ⟨_, _, hstage, hplan⟩ hno
  | leave htodo hstage hidle hpending hqueue hsender =>
    refine ⟨hnonneg, .inr (.inr ⟨rfl, fun hbusy => ?_⟩)⟩
    rcases hbusy with hintents | hgather | hmem
    · rw [hqueue] at hintents
      exact hintents rfl
    · exact hgather hidle
    · rw [htodo] at hmem
      exact List.not_mem_nil hmem

/-- A worker that is gone without a panic had nothing before it. -/
theorem WorkerMoves.gone (hm : WorkerMoves intents a w a' w') (h : WorkerSound w)
    (hno : ¬ Panicking intents a w)
    (hgone : w.stage = .exited → w.sealer.gathering = .waiting) :
    w'.stage = .exited → w'.sealer.gathering = .waiting := by
  cases hm with
  | act htodo hreach => exact hgone
  | mismatch htodo => exact (h.no_mismatch htodo).elim
  | answerPending htodo hstage hidle hpending => exact hgone
  | answer htodo hstage hidle hpending hqueue => exact hgone
  | take htodo hstage hqueue hpending hsealer =>
    intro hexited
    have hexited' : w.stage = .exited := hexited
    rw [hstage] at hexited'
    cases hexited'
  | defer htodo hstage hbusy hqueue hsealer hcloser =>
    intro hexited
    have hexited' : w.stage = .exited := hexited
    rw [hstage] at hexited'
    cases hexited'
  | observe htodo hstage hbusy hsealer hcloser =>
    intro hexited
    have hexited' : w.stage = .exited := hexited
    rw [hstage] at hexited'
    cases hexited'
  | process htodo hstage hsealed => exact fun hexited => nomatch hexited
  | commit htodo hstage hplan => exact fun hexited => nomatch hexited
  | panic htodo hstage hplan => exact absurd ⟨_, _, hstage, hplan⟩ hno
  | leave htodo hstage hidle hpending hqueue hsender => exact fun _ => hidle

end Worker

/-! ## Every step -/

/-- What `queue_depth` consists of: the reservations of calls, of the channel, in the worker's hands,
and those that were lost in a panic. -/
def Depth (capacity lost : ℕ) (s : System) : Prop :=
  ∃ n : ℕ, Census (AtCalls CallPlace.reserves) s n ∧
    s.shared.queueDepth = n + reservedBy s.shared (s.place .worker) + lost ∧
    s.shared.queueDepth ≤ capacity

/-- What stands behind the accounts while no step goes wrong. -/
structure Accounts (capacity : ℕ) (s : System) : Prop where
  depth : Depth capacity 0 s
  submitted : ∃ n : ℕ, Census (AtCalls CallPlace.counts) s n ∧
    s.shared.submitted =
      s.shared.accepted + s.shared.rejected + openIntents s.shared (s.place .worker) + n
  nonneg : 0 ≤ s.shared.inFlight
  settled : s.shared.inFlight = 0 ∨ (∃ id, s.place (.call id) = CallPlace.submitSend) ∨
    Busy s.shared (s.place .worker)
  gone : (s.place .worker).stage = .exited → (s.place .worker).sealer.gathering = .waiting
  calls : ∀ id, CallPlace.failed (s.place (.call id)) = false

section Moves

variable {s t : System} {i : Thread} {lost : ℕ}

@[simp] theorem worker_of_call (id : ℕ) (a : Shared) (p : CallPlace) :
    (s.move (.call id) a p).place .worker = s.place .worker :=
  place_move_ne s (show Thread.worker ≠ .call id from fun h => nomatch h) a p

@[simp] theorem worker_of_user (a : Shared) (p : Unit) :
    (s.move .user a p).place .worker = s.place .worker :=
  place_move_ne s (show Thread.worker ≠ .user from fun h => nomatch h) a p

theorem call_of_worker (id : ℕ) (a : Shared) (w : Worker) :
    (s.move .worker a w).place (.call id) = s.place (.call id) :=
  place_move_ne s (show Thread.call id ≠ .worker from fun h => nomatch h) a w

theorem call_of_user (id : ℕ) (a : Shared) (p : Unit) :
    (s.move .user a p).place (.call id) = s.place (.call id) :=
  place_move_ne s (show Thread.call id ≠ .user from fun h => nomatch h) a p

/-- **The worker's hands stay in order.** -/
theorem worker_sound (hm : s.Moves (step capacity policy intents) i t)
    (h : WorkerSound (s.place .worker)) : WorkerSound (t.place .worker) := by
  obtain ⟨c, a, p, hstep, rfl⟩ := hm
  cases i with
  | worker =>
    rw [place_move_self]
    exact h.moves (workerStep_cases hstep)
  | user =>
    rw [worker_of_user]
    exact h
  | call id =>
    rw [worker_of_call]
    exact h

/-- **One step and the depth**: reservations are lost in a panic only. -/
theorem Depth.moves (h : Depth capacity lost s) (hw : WorkerSound (s.place .worker))
    (hm : s.Moves (step capacity policy intents) i t) :
    ∃ lost', Depth capacity lost' t ∧ (lost' = lost ∨ CommitPanics intents s i) := by
  obtain ⟨c, a, p, hstep, rfl⟩ := hm
  obtain ⟨n, hn, hdepth, hle⟩ := h
  cases i with
  | worker =>
    have hmoves := workerStep_cases hstep
    obtain ⟨hlower, more, heq, hmore⟩ := hmoves.depth hw
    refine ⟨lost + more, ⟨n, hn.stay Iff.rfl, ?_, hlower.trans hle⟩, ?_⟩
    · rw [shared_move, place_move_self]
      push_cast
      omega
    · rcases hmore with rfl | hpanic
      · exact .inl rfl
      · exact .inr hpanic
  | user =>
    obtain ⟨a', ha, hnext⟩ := Option.map_eq_some_iff.1 hstep
    cases hnext
    obtain ⟨database, published, -, rfl⟩ := userStep_cases ha
    refine ⟨lost, ⟨n, hn.stay Iff.rfl, ?_, hle⟩, .inl rfl⟩
    rw [shared_move, worker_of_user]
    exact hdepth
  | call id =>
    refine ⟨lost, ?_, .inl rfl⟩
    unfold Depth
    rw [shared_move, worker_of_call]
    have hmoves := callStep_cases hstep
    generalize hplace : s.place (.call id) = q at hmoves
    -- a reservation begins and ends with a place of its call, or goes into the channel
    have hbefore : AtCalls CallPlace.reserves (.call id) (s.place (.call id)) ↔ q.reserves = true := by
      rw [hplace]
      exact Iff.rfl
    unfold reservedBy at hdepth ⊢
    cases hmoves with
    | reserve hroom =>
      refine ⟨n + 1, hn.enter (fun hat => nomatch hbefore.1 hat) rfl, ?_, ?_⟩
      · simp only
        push_cast
        omega
      · simp only
        omega
    | count => exact ⟨n, hn.stay (hbefore.trans (iff_of_true rfl rfl)), hdepth, hle⟩
    | raise => exact ⟨n, hn.stay (hbefore.trans (iff_of_true rfl rfl)), hdepth, hle⟩
    | send halive hroom =>
      obtain ⟨m, rfl, hm⟩ := hn.leave (hbefore.2 rfl)
        (fun hat : CallPlace.reserves .ticket = true => nomatch hat)
      refine ⟨m, hm, ?_, hle⟩
      simp only [Shared.giveBack, intentsOf_append, List.length_append]
      push_cast at hdepth ⊢
      rw [hdepth]
      simp
      omega
    | refuse hfails hout => exact ⟨n, hn.stay (hbefore.trans (iff_of_true rfl rfl)), hdepth, hle⟩
    | @release outcome =>
      obtain ⟨m, rfl, hm⟩ := hn.leave (hbefore.2 rfl)
        (fun hat : CallPlace.reserves (.submitLower outcome) = true => nomatch hat)
      refine ⟨m, hm, ?_, ?_⟩
      · simp only
        push_cast at hdepth ⊢
        omega
      · simp only
        omega
    | lower hbeside hp =>
      obtain ⟨_, _, _, _, _, _, -, rfl⟩ := hbeside
      refine ⟨n, hn.stay (hbefore.trans (iff_of_false (fun h => nomatch h) fun hat => ?_)), hdepth, hle⟩
      rcases hp with rfl | rfl <;> exact nomatch hat
    | barrier halive hroom =>
      refine ⟨n, hn.stay (hbefore.trans (iff_of_false (fun h => nomatch h) (fun h => nomatch h))), ?_, hle⟩
      simp only [intentsOf_append, List.length_append]
      exact hdepth
    | flushed hdone =>
      exact ⟨n, hn.stay (hbefore.trans (iff_of_false (fun h => nomatch h) (fun h => nomatch h))),
        hdepth, hle⟩
    | @beside a' q q' ha hq hq' hafter =>
      obtain ⟨_, _, _, _, _, _, -, rfl⟩ := ha
      have haside : ∀ x : CallPlace, x.aside = true → ¬ x.reserves = true := by
        intro x hx hr
        cases x <;> simp only [CallPlace.aside, CallPlace.reserves, reduceCtorEq] at hx hr
      exact ⟨n, hn.stay (hbefore.trans (iff_of_false (haside q hq) (haside p hq'))), hdepth, hle⟩

/-- **One step and the accounts**: they are kept unless a reserved intent cannot be sent or a commit
panics. -/
theorem Accounts.moves (h : Accounts capacity s) (hw : WorkerSound (s.place .worker))
    (hm : s.Moves (step capacity policy intents) i t) (hsend : ¬ SendFails capacity s i)
    (hcommit : ¬ CommitPanics intents s i) : Accounts capacity t := by
  have hdepth : Depth capacity 0 t := by
    obtain ⟨lost, hlost, rfl | hpanic⟩ := h.depth.moves hw hm
    · exact hlost
    · exact absurd hpanic hcommit
  obtain ⟨c, a, p, hstep, rfl⟩ := hm
  obtain ⟨n, hn, hsubmitted⟩ := h.submitted
  cases i with
  | worker =>
    have hmoves := workerStep_cases hstep
    obtain ⟨hsame, haccounts⟩ := hmoves.accounts hw hcommit
    obtain ⟨hnonneg, hsettled⟩ := hmoves.inFlight hw hcommit h.nonneg
    refine ⟨hdepth, ⟨n, hn.stay Iff.rfl, ?_⟩, hnonneg, ?_, ?_, fun id => ?_⟩
    · rw [shared_move, place_move_self]
      omega
    · rw [shared_move, place_move_self]
      simp only [call_of_worker]
      rcases hsettled with hzero | hbusy | ⟨hinFlight, hidle⟩
      · exact .inl hzero
      · exact .inr (.inr hbusy)
      · rw [hinFlight]
        rcases h.settled with hzero | hwaiting | hbusy
        · exact .inl hzero
        · exact .inr (.inl hwaiting)
        · exact absurd hbusy hidle
    · rw [place_move_self]
      exact hmoves.gone hw hcommit h.gone
    · rw [call_of_worker]
      exact h.calls id
  | user =>
    obtain ⟨a', ha, hnext⟩ := Option.map_eq_some_iff.1 hstep
    cases hnext
    obtain ⟨database, published, -, rfl⟩ := userStep_cases ha
    refine ⟨hdepth, ⟨n, hn.stay Iff.rfl, ?_⟩, h.nonneg, ?_, ?_, fun id => ?_⟩
    · rw [shared_move, worker_of_user]
      exact hsubmitted
    · rw [shared_move, worker_of_user]
      simp only [call_of_user]
      exact h.settled
    · rw [worker_of_user]
      exact h.gone
    · rw [call_of_user]
      exact h.calls id
  | call id =>
    have hmoves := callStep_cases hstep
    generalize hplace : s.place (.call id) = q at hmoves
    have hbefore : AtCalls CallPlace.counts (.call id) (s.place (.call id)) ↔ q.counts = true := by
      rw [hplace]
      exact Iff.rfl
    have hcalls : CallPlace.failed p = false →
        ∀ j, CallPlace.failed ((s.move (.call id) a p).place (.call j)) = false := by
      intro hp j
      by_cases hj : j = id
      · subst hj
        rw [place_move_self]
        exact hp
      · rw [place_move_ne s (fun heq => hj (Thread.call.inj heq))]
        exact h.calls j
    have hothers : q ≠ .submitSend → (∃ j, s.place (.call j) = CallPlace.submitSend) →
        ∃ j, (s.move (.call id) a p).place (.call j) = CallPlace.submitSend := by
      rintro hq ⟨j, hj⟩
      refine ⟨j, ?_⟩
      have hne : Thread.call j ≠ .call id := by
        intro heq
        obtain rfl := Thread.call.inj heq
        exact hq (hplace.symm.trans hj)
      rw [place_move_ne s hne]
      exact hj
    have hfailed := h.calls id
    rw [hplace] at hfailed
    suffices hkept : (∃ k : ℕ, Census (AtCalls CallPlace.counts) (s.move (.call id) a p) k ∧
        a.submitted = a.accepted + a.rejected + openIntents a (s.place .worker) + k) ∧
        0 ≤ a.inFlight ∧ CallPlace.failed p = false ∧ (a.inFlight = 0 ∨
          (∃ j, (s.move (.call id) a p).place (.call j) = CallPlace.submitSend) ∨
          Busy a (s.place .worker)) by
      obtain ⟨hcount, hnonneg, hp, hsettled⟩ := hkept
      refine ⟨hdepth, ?_, hnonneg, ?_, ?_, hcalls hp⟩
      · rw [shared_move, worker_of_call]
        exact hcount
      · rw [shared_move, worker_of_call]
        exact hsettled
      · rw [worker_of_call]
        exact h.gone
    have hnonneg := h.nonneg
    cases hmoves with
    | reserve hroom =>
      refine ⟨⟨n, hn.stay (hbefore.trans (iff_of_false Bool.false_ne_true Bool.false_ne_true)),
        hsubmitted⟩, hnonneg, rfl, ?_⟩
      exact h.settled.imp_right (Or.imp_left (hothers (fun hq => nomatch hq)))
    | count =>
      refine ⟨⟨n + 1, hn.enter (fun hat => nomatch hbefore.1 hat) rfl, ?_⟩, hnonneg, rfl, ?_⟩
      · show s.shared.submitted + 1 = _
        rw [hsubmitted]
        exact Nat.add_assoc _ _ _
      · exact h.settled.imp_right (Or.imp_left (hothers (fun hq => nomatch hq)))
    | raise =>
      refine ⟨⟨n, hn.stay (hbefore.trans (iff_of_true rfl rfl)), hsubmitted⟩, ?_, rfl, ?_⟩
      · simp only
        omega
      · exact .inr (.inl ⟨id, place_move_self _ _ _ _⟩)
    | send halive hroom =>
      obtain ⟨m, rfl, hm⟩ := hn.leave (hbefore.2 rfl)
        (fun hat : CallPlace.counts .ticket = true => nomatch hat)
      refine ⟨⟨m, hm, ?_⟩, hnonneg, rfl, .inr (.inr (.inl ?_))⟩
      · show s.shared.submitted = _
        rw [hsubmitted]
        simp only [openIntents, Shared.giveBack, intentsOf_append, List.length_append]
        simp
        omega
      · simp [Shared.giveBack, intentsOf_append]
    | refuse hfails hout => exact absurd ⟨hplace, hfails⟩ hsend
    | release => cases hfailed
    | lower hbeside hp => cases hfailed
    | barrier halive hroom =>
      refine ⟨⟨n, hn.stay (hbefore.trans (iff_of_false Bool.false_ne_true Bool.false_ne_true)), ?_⟩,
        hnonneg, rfl, ?_⟩
      · show s.shared.submitted = _
        rw [hsubmitted]
        simp [openIntents, intentsOf_append]
      · refine h.settled.imp_right (Or.imp (hothers (fun hq => nomatch hq)) fun hbusy => ?_)
        unfold Busy at hbusy ⊢
        simpa [intentsOf_append] using hbusy
    | flushed hdone =>
      refine ⟨⟨n, hn.stay (hbefore.trans (iff_of_false Bool.false_ne_true Bool.false_ne_true)),
        hsubmitted⟩, hnonneg, rfl, ?_⟩
      exact h.settled.imp_right (Or.imp_left (hothers (fun hq => nomatch hq)))
    | @beside a' q q' ha hq hq' hafter =>
      obtain ⟨_, _, _, _, _, _, -, rfl⟩ := ha
      have haside : ∀ x : CallPlace, x.aside = true →
          ¬ x.counts = true ∧ x.failed = false ∧ x ≠ .submitSend := by
        intro x hx
        cases x <;> simp only [CallPlace.aside, reduceCtorEq] at hx <;>
          exact ⟨Bool.false_ne_true, rfl, fun heq => nomatch heq⟩
      refine ⟨⟨n, hn.stay (hbefore.trans (iff_of_false (haside q hq).1 (haside p hq').1)),
        hsubmitted⟩, hnonneg, (haside p hq').2.1, ?_⟩
      exact h.settled.imp_right (Or.imp_left (hothers (haside q hq).2.2))

end Moves

/-- **The accounts of a state at rest.** -/
theorem Accounts.quiescent {s : System} (h : Accounts capacity s) (hq : Quiescent s) :
    s.shared.submitted = s.shared.accepted + s.shared.rejected ∧ s.shared.inFlight = 0 ∧
      s.shared.queueDepth = 0 := by
  have hwaiting : (s.place .worker).sealer.gathering = .waiting := by
    rcases hq.worker with hgone | ⟨-, hwaiting, -⟩
    · exact h.gone hgone
    · exact hwaiting
  have hresting : ∀ kind : CallPlace → Bool, (∀ p, kind p = true → CallPlace.resting p = false) →
      ∀ i, ¬ AtCalls kind i (s.place i) := by
    intro kind hkind i hi
    cases i with
    | worker => exact hi
    | user => exact hi
    | call id =>
      have hrest := hq.calls id
      rw [hkind _ hi] at hrest
      cases hrest
  obtain ⟨n, hn, hdepth, -⟩ := h.depth
  obtain ⟨k, hk, hsubmitted⟩ := h.submitted
  have hn0 := hn.eq_zero (hresting _ fun p hp => by cases p <;> first | rfl | cases hp)
  have hk0 := hk.eq_zero (hresting _ fun p hp => by cases p <;> first | rfl | cases hp)
  refine ⟨?_, ?_, ?_⟩
  · rw [hsubmitted, hk0]
    unfold openIntents
    rw [hq.queue, hq.todo, hwaiting]
    rfl
  · rcases h.settled with hzero | ⟨id, hsend⟩ | hbusy
    · exact hzero
    · have hrest := hq.calls id
      rw [hsend] at hrest
      cases hrest
    · rcases hbusy with hqueue | hgather | htodo
      · rw [hq.queue] at hqueue
        exact absurd rfl hqueue
      · exact absurd hwaiting hgather
      · rw [hq.todo] at htodo
        exact absurd htodo List.not_mem_nil
  · rw [hdepth, hn0]
    unfold reservedBy
    rw [hq.queue, hq.todo]
    rfl

/-! ## Every run -/

/-- A step in which a reserved intent can be sent and a commit returns. -/
def Orderly (capacity : ℕ) (intents : ℕ → ControllerIntent) (s : System) (i : Thread)
    (_ : System) : Prop :=
  ¬ SendFails capacity s i ∧ ¬ CommitPanics intents s i

/-- What every step keeps. -/
def DepthKept (capacity : ℕ) (s : System) : Prop :=
  WorkerSound (s.place .worker) ∧ ∃ lost, Depth capacity lost s

/-- What every orderly step keeps. -/
def AccountsKept (capacity : ℕ) (s : System) : Prop :=
  WorkerSound (s.place .worker) ∧ Accounts capacity s

theorem DepthKept.moves {s t : System} {i : Thread} (h : DepthKept capacity s)
    (hm : s.Moves (step capacity policy intents) i t) : DepthKept capacity t := by
  obtain ⟨hsound, lost, hdepth⟩ := h
  obtain ⟨lost', hdepth', -⟩ := hdepth.moves hsound hm
  exact ⟨worker_sound hm hsound, lost', hdepth'⟩

theorem AccountsKept.moves {s t : System} {i : Thread} (h : AccountsKept capacity s)
    (hm : s.Moves (step capacity policy intents) i t) (ho : Orderly capacity intents s i t) :
    AccountsKept capacity t :=
  ⟨worker_sound hm h.1, h.2.moves h.1 hm ho.1 ho.2⟩

theorem workerSound_initial (policy : BatchPolicy) (database : Database) :
    WorkerSound ((initial policy database).place .worker) :=
  ⟨List.not_mem_nil, fun value hv => absurd hv List.not_mem_nil, fun batch hb => (nomatch hb),
    fun hne => absurd rfl hne, fun hne => absurd rfl hne⟩

theorem depth_initial (capacity : ℕ) (policy : BatchPolicy) (database : Database) :
    Depth capacity 0 (initial policy database) := by
  refine ⟨0, Census.of_none fun i => ?_, rfl, Int.natCast_nonneg capacity⟩
  cases i with
  | worker => exact fun h => h
  | user => exact fun h => h
  | call id => exact Bool.false_ne_true

theorem accounts_initial (capacity : ℕ) (policy : BatchPolicy) (database : Database) :
    Accounts capacity (initial policy database) := by
  refine ⟨depth_initial capacity policy database, ⟨0, Census.of_none fun i => ?_, rfl⟩, le_rfl,
    .inl rfl, fun h => (nomatch h), fun id => rfl⟩
  cases i with
  | worker => exact fun h => h
  | user => exact fun h => h
  | call id => exact Bool.false_ne_true

/-- A barrier occupies the only slot of the channel while an intent is submitted that has a
reservation, and the worker ends a batch between the two accesses to `in_flight`. -/
def barrierInTheWay : List (Thread × Choice) :=
  [(.call 0, .submit), (.call 0, .go), (.call 0, .go), (.call 0, .go), (.call 0, .go)] ++
  -- the worker claims the intent and commits it, and has yet to store 0
  List.replicate 10 (.worker, .go) ++
  [(.call 1, .flush), (.call 1, .go), (.call 2, .submit), (.call 2, .go), (.call 2, .go),
    (.call 2, .go), (.worker, .go), (.call 2, .go), (.call 2, .go), (.call 2, .go), (.call 2, .go),
    (.worker, .go), (.call 1, .go)]

end ForthDB.Controller.Queued
