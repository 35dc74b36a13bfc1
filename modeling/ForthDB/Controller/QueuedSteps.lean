import ForthDB.Controller.Queued
import Mathlib.Data.List.Flatten

/-!
# Steps of the in-memory controller

* `Database.commitMixedEpoch_answers`: a mixed epoch that is committed answers every intent, in
  order and in its own kind, and what it accepts is in the head that it publishes.
* `WorkerMoves`, `workerStep_cases`: what one step of the worker can do.
* `CallMoves`, `callStep_cases`: what one step of a call can do.
-/

namespace ForthDB

open Controller.Queued

/-- A decision about an intent of its kind. -/
def MixedDecision.Answers : ControllerIntent → MixedDecision → Prop
  | .queued _, .queued _ => True
  | .semantic _, .semantic _ => True
  | _, _ => False

namespace MixedRun

variable {s s' : MixedRun} {base : World} {kernel : ForthDb} {vs : List Validator}
  {d : MixedDecision}

theorem executeQueued_answers {operations : List Operation} {entities : EntityMap}
    {intent : QueuedIntent} (h : s.executeQueued operations entities = .ok (d, s')) :
    d.Answers (.queued intent) := by
  unfold executeQueued at h
  split at h
  · cases h
    trivial
  · split at h <;> cases h <;> trivial

theorem queued_answers {intent : QueuedIntent} (h : s.queued base kernel vs intent = .ok (d, s')) :
    d.Answers (.queued intent) := by
  unfold queued at h
  split at h
  · cases h
  · cases h
    trivial
  · split at h
    · split at h
      · cases h
        trivial
      · split at h
        · cases h
          trivial
        · exact executeQueued_answers h
    · exact executeQueued_answers h

theorem executeSemantic_answers {intent : SemanticIntent}
    (h : s.executeSemantic intent = .ok (d, s')) : d.Answers (.semantic intent) := by
  unfold executeSemantic at h
  simp only at h
  split at h
  · cases h
  · cases h
    trivial
  · split at h
    · cases h
    · split at h
      · cases h
      · cases h
        trivial
    · cases h
      trivial

theorem semantic_answers {intent : SemanticIntent}
    (h : s.semantic base kernel vs intent = .ok (d, s')) : d.Answers (.semantic intent) := by
  unfold semantic at h
  split at h
  · split at h
    · cases h
    · split at h
      · cases h
        trivial
      · split at h
        · cases h
          trivial
        · exact executeSemantic_answers h
  · exact executeSemantic_answers h

/-- **The loop decides every intent**, in its own kind. -/
theorem intents_answers {is : List ControllerIntent} {ds : List MixedDecision}
    (h : s.intents base kernel vs is = .ok (ds, s')) :
    List.Forall₂ (fun i d => MixedDecision.Answers i d) is ds := by
  induction is generalizing s ds with
  | nil =>
    cases h
    exact .nil
  | cons i is ih =>
    unfold intents at h
    cases hi : s.intent base kernel vs i with
    | error message =>
      rw [hi] at h
      cases h
    | ok r =>
      obtain ⟨decision, s₁⟩ := r
      rw [hi] at h
      simp only at h
      have hkind : decision.Answers i := by
        cases i with
        | queued intent => exact queued_answers hi
        | semantic intent => exact semantic_answers hi
      cases hr : s₁.intents base kernel vs is with
      | error message =>
        rw [hr] at h
        cases h
      | ok r =>
        obtain ⟨rest, s₂⟩ := r
        rw [hr] at h
        cases h
        exact .cons hkind (ih hr)

end MixedRun

/-- An outcome that is routed to the ticket of its intent; what it accepts is in `head`. -/
def Routed (head : World) (i : ControllerIntent) (o : MixedEpochOutcome) : Prop :=
  ∃ reply accepted, route i o = some (reply, accepted) ∧ ∀ w, reply.world? = some w → w = head

theorem routed_outcomesOf (world : World) (frame : CommitFrame) {is : List ControllerIntent}
    {ds : List MixedDecision} (h : List.Forall₂ (fun i d => MixedDecision.Answers i d) is ds) :
    List.Forall₂ (Routed world) is (mixedOutcomesOf world frame ds) := by
  unfold mixedOutcomesOf
  generalize 0 = position
  induction h generalizing position with
  | nil => exact .nil
  | @cons i d is ds hkind _ ih =>
    rw [List.zipIdx_cons, List.map_cons]
    refine .cons ?_ (ih (position + 1))
    rcases i with i | i <;> rcases d with (e | a) | (e | a) <;> first | exact hkind.elim | skip
    · exact ⟨_, _, rfl, fun w hw => nomatch hw⟩
    · exact ⟨_, _, rfl, fun w hw => (Option.some.inj hw).symm⟩
    · exact ⟨_, _, rfl, fun w hw => nomatch hw⟩
    · exact ⟨_, _, rfl, fun w hw => (Option.some.inj hw).symm⟩

/-- An epoch that accepts nothing rejects every intent. -/
theorem routed_rejectionsOf (world : World) {is : List ControllerIntent}
    {ds : List MixedDecision} (h : List.Forall₂ (fun i d => MixedDecision.Answers i d) is ds)
    (hno : ds.any MixedDecision.isAccepted = false) :
    List.Forall₂ (Routed world) is (mixedRejectionsOf ds) := by
  unfold mixedRejectionsOf
  generalize 0 = position
  induction h generalizing position with
  | nil => exact .nil
  | @cons i d is ds hkind _ ih =>
    rw [List.any_cons, Bool.or_eq_false_iff] at hno
    have hrest := ih hno.2 (position + 1)
    rw [List.zipIdx_cons]
    rcases i with i | i <;> rcases d with (e | a) | (e | a) <;>
      first | exact hkind.elim | exact (Bool.noConfusion hno.1) | skip
    · exact .cons ⟨_, _, rfl, fun w hw => nomatch hw⟩ hrest
    · exact .cons ⟨_, _, rfl, fun w hw => nomatch hw⟩ hrest

/-- **A mixed epoch that is committed** answers every intent, and what it accepts is in the head. -/
theorem Database.commitMixedEpoch_answers {d d' : Database} {is : List ControllerIntent}
    {m m' : VmEpochMaterializer} {plan : MixedEpochPlan}
    (h : d.commitMixedEpoch is m = .ok (plan, d', m')) :
    List.Forall₂ (Routed d'.current) is plan.outcomes := by
  unfold Database.commitMixedEpoch at h
  split at h
  · cases h
  · cases h
  · split at h
    · cases h
    · rename_i m₁ hsync plan' m₂ hplan
      cases h
      unfold VmEpochMaterializer.materializeMixed at hplan
      split at hplan
      · cases hplan
      · simp only at hplan
        split at hplan
        · cases hplan
        · rename_i kernel hkernel ds s hrun
          cases hplan
          have hkinds := MixedRun.intents_answers hrun
          unfold MixedEpochPlan.assemble
          cases hany : ds.any MixedDecision.isAccepted with
          | true => exact routed_outcomesOf _ _ hkinds
          | false => exact routed_rejectionsOf _ hkinds hany

namespace Controller.Queued

variable {policy : BatchPolicy} {intents : ℕ → ControllerIntent} {choice : Choice}
  {a a' : Shared} {w w' : Worker}

@[simp] theorem intentsOf_intent (call : ℕ) (queue : List Command) :
    intentsOf (.intent call :: queue) = call :: intentsOf queue := rfl

@[simp] theorem intentsOf_barrier (call : ℕ) (queue : List Command) :
    intentsOf (.barrier call :: queue) = intentsOf queue := rfl

theorem intentsOf_append (xs ys : List Command) :
    intentsOf (xs ++ ys) = intentsOf xs ++ intentsOf ys := List.filterMap_append

/-- What the worker does to the channel, the database and the records of both: nothing, between
two batches. -/
theorem perform_same (a : Shared) (action : Action) :
    (a.perform action).queue = a.queue ∧ (a.perform action).exited = a.exited ∧
      (a.perform action).submitted = a.submitted ∧ (a.perform action).sent = a.sent ∧
      (a.perform action).flushed = a.flushed ∧ (a.perform action).decided = a.decided ∧
      (a.perform action).published = a.published ∧ (a.perform action).database = a.database := by
  cases action with
  | send call reply =>
    unfold Shared.perform Shared.deliver
    simp only
    split <;> exact ⟨rfl, rfl, rfl, rfl, rfl, rfl, rfl, rfl⟩
  | count accepted => cases accepted <;> exact ⟨rfl, rfl, rfl, rfl, rfl, rfl, rfl, rfl⟩
  | _ => exact ⟨rfl, rfl, rfl, rfl, rfl, rfl, rfl, rfl⟩

/-- What a step of the worker does. Between its accesses it gathers a batch, commits one or is
gone. -/
inductive WorkerMoves (intents : ℕ → ControllerIntent) (a : Shared) (w : Worker) :
    Shared → Worker → Prop
  | act {action : Action} {todo : List Action} (htodo : w.todo = action :: todo)
      (hreach : action ≠ .unreachable) :
      WorkerMoves intents a w (a.perform action) { w with todo := todo }
  | mismatch {todo : List Action} (htodo : w.todo = .unreachable :: todo) :
      WorkerMoves intents a w (panicked a w).1 (panicked a w).2
  | answerPending {call : ℕ} {pending : List ℕ} (htodo : w.todo = []) (hstage : w.stage = .gathering)
      (hidle : w.sealer.gathering = .waiting) (hpending : w.pending = call :: pending) :
      WorkerMoves intents a w { a with flushed := a.flushed ++ [call] }
        { w with pending := pending }
  | answer {call : ℕ} {queue : List Command} (htodo : w.todo = []) (hstage : w.stage = .gathering)
      (hidle : w.sealer.gathering = .waiting) (hpending : w.pending = [])
      (hqueue : a.queue = .barrier call :: queue) :
      WorkerMoves intents a w { a with queue := queue, flushed := a.flushed ++ [call] } w
  | take {call : ℕ} {queue : List Command} {sealer : Sealer ℕ} (htodo : w.todo = [])
      (hstage : w.stage = .gathering) (hqueue : a.queue = .intent call :: queue)
      (hpending : w.sealer.gathering = .waiting → w.pending = [])
      (hsealer : sealer.Gathers (w.sealer.gathering.batch ++ [call])) :
      WorkerMoves intents a w { a with queue := queue }
        { w with sealer := sealer, todo := [.release, .addClaimed, .claim call] }
  | defer {call : ℕ} {queue : List Command} {sealer : Sealer ℕ} (htodo : w.todo = [])
      (hstage : w.stage = .gathering) (hbusy : w.sealer.gathering ≠ .waiting)
      (hqueue : a.queue = .barrier call :: queue)
      (hsealer : sealer.Gathers w.sealer.gathering.batch)
      (hcloser : sealer.gathering.distance < w.sealer.gathering.distance) :
      WorkerMoves intents a w { a with queue := queue }
        { w with sealer := sealer, pending := w.pending ++ [call] }
  | observe {sealer : Sealer ℕ} (htodo : w.todo = []) (hstage : w.stage = .gathering)
      (hbusy : w.sealer.gathering ≠ .waiting)
      (hsealer : sealer.Gathers w.sealer.gathering.batch)
      (hcloser : sealer.gathering.distance < w.sealer.gathering.distance) :
      WorkerMoves intents a w a { w with sealer := sealer }
  | process {batch : List ℕ} {reason : BatchSealReason} (htodo : w.todo = [])
      (hstage : w.stage = .gathering) (hsealed : w.sealer.gathering = .sealed batch reason) :
      WorkerMoves intents a w { a with inFlight := batch.length }
        { w with stage := .committing batch }
  | commit {batch : List ℕ} {plan : MixedEpochPlan} {database : Database}
      {materializer : VmEpochMaterializer} (htodo : w.todo = []) (hstage : w.stage = .committing batch)
      (hplan : a.database.commitMixedEpoch (batch.map intents) w.materializer =
        .ok (plan, database, materializer)) :
      WorkerMoves intents a w
        { a with
          database := database, decided := a.decided ++ [(batch, plan)],
          published := a.published ++ [database.current] }
        { w with
          materializer := materializer, sealer := { w.sealer with gathering := .waiting },
          todo := completions intents batch plan, stage := .gathering }
  | panic {batch : List ℕ} {message : String} (htodo : w.todo = [])
      (hstage : w.stage = .committing batch)
      (hplan : a.database.commitMixedEpoch (batch.map intents) w.materializer = .error message) :
      WorkerMoves intents a w (panicked a w).1 (panicked a w).2
  | leave (htodo : w.todo = []) (hstage : w.stage = .gathering)
      (hidle : w.sealer.gathering = .waiting) (hpending : w.pending = []) (hqueue : a.queue = [])
      (hsender : a.sender = false) :
      WorkerMoves intents a w { a with exited := true } { w with stage := .exited }

theorem look_ne_processed (choice : Choice) (queue : List Command) :
    (look choice queue).1 ≠ .processed := by
  unfold look
  split <;> exact fun h => nomatch h

/-- A look at the channel takes its first command, or nothing. -/
theorem look_cases (choice : Choice) (queue : List Command) :
    (∃ call rest, queue = .intent call :: rest ∧ look choice queue = (.intent call, rest)) ∨
    (∃ call rest, queue = .barrier call :: rest ∧ look choice queue = (.barrier, rest)) ∨
    ((look choice queue).2 = queue ∧ setAside queue (look choice queue).1 = [] ∧
      claimActions (look choice queue).1 = [] ∧ ∀ call, (look choice queue).1 ≠ .intent call) := by
  unfold look
  split
  · exact .inr (.inr ⟨rfl, rfl, rfl, fun _ h => nomatch h⟩)
  · exact .inr (.inr ⟨rfl, rfl, rfl, fun _ h => nomatch h⟩)
  · exact .inl ⟨_, _, rfl, rfl⟩
  · exact .inr (.inl ⟨_, _, rfl, rfl⟩)
  · exact .inr (.inr ⟨rfl, rfl, rfl, fun _ h => nomatch h⟩)
  · exact .inr (.inr ⟨rfl, rfl, rfl, fun _ h => nomatch h⟩)

/-- A reception in the middle of a batch. -/
theorem gather_cases {g : Gathering ℕ} (htodo : w.todo = []) (hstage : w.stage = .gathering)
    (hg : w.sealer.gathering = g) (hbusy : g ≠ .waiting)
    (h : (w.sealer.receive policy .queued g (look choice a.queue).1).map
      (fun sealer => (({ a with queue := (look choice a.queue).2 } : Shared),
        ({ w with
          sealer := sealer
          pending := w.pending ++ setAside a.queue (look choice a.queue).1
          todo := claimActions (look choice a.queue).1 } : Worker))) = some (a', w')) :
    WorkerMoves intents a w a' w' := by
  subst hg
  obtain ⟨sealer, hsealer, hnext⟩ := Option.map_eq_some_iff.1 h
  have hprocessed := look_ne_processed choice a.queue
  rcases look_cases choice a.queue with ⟨call, rest, hqueue, hlook⟩ | ⟨call, rest, hqueue, hlook⟩ |
    ⟨hqueue, haside, hclaim, hintent⟩
  · rw [hlook] at hsealer hnext
    cases hnext
    have hmove : WorkerMoves intents a w _ _ := .take htodo hstage hqueue
      (fun hidle => absurd hidle hbusy) (Sealer.receive_intent hsealer)
    simpa [setAside, claimActions] using hmove
  · rw [hlook] at hsealer hnext
    cases hnext
    obtain ⟨hkeep, hcloser⟩ :=
      Sealer.receive_other hsealer hbusy (fun _ h => nomatch h) (fun h => nomatch h)
    have hmove : WorkerMoves intents a w _ _ := .defer htodo hstage hbusy hqueue hkeep hcloser
    rw [hqueue]
    simpa [setAside, claimActions, htodo] using hmove
  · obtain ⟨hkeep, hcloser⟩ := Sealer.receive_other hsealer hbusy hintent hprocessed
    rw [hqueue, haside, hclaim] at hnext
    cases hnext
    have hmove : WorkerMoves intents a w _ _ := .observe htodo hstage hbusy hkeep hcloser
    simpa [htodo] using hmove

/-- **The worker's steps.** -/
theorem workerStep_cases (h : workerStep policy intents choice a w = some (a', w')) :
    WorkerMoves intents a w a' w' := by
  unfold workerStep at h
  split at h
  · rename_i todo htodo
    cases h
    exact .mismatch htodo
  · rename_i action todo hreach htodo
    cases h
    exact .act htodo hreach
  · rename_i htodo
    split at h
    · rename_i hstage
      unfold gatherStep at h
      cases hg : w.sealer.gathering with
      | waiting =>
        rw [hg] at h
        simp only at h
        split at h
        · rename_i call pending hpending
          cases h
          exact .answerPending htodo hstage hg hpending
        · rename_i hpending
          split at h
          · rename_i call queue hqueue
            cases h
            exact .answer htodo hstage hg hpending hqueue
          · rename_i call queue hqueue
            obtain ⟨sealer, hsealer, hnext⟩ := Option.map_eq_some_iff.1 h
            cases hnext
            refine .take htodo hstage hqueue (fun _ => hpending) ?_
            rw [hg]
            exact Sealer.receive_intent hsealer
          · rename_i hqueue
            split at h
            · cases h
            · rename_i hsender
              cases h
              exact .leave htodo hstage hg hpending hqueue (Bool.eq_false_iff.2 hsender)
      | sealed batch reason =>
        rw [hg] at h
        cases h
        exact .process htodo hstage hg
      | draining batch =>
        rw [hg] at h
        exact gather_cases htodo hstage hg (fun hidle => nomatch hidle) h
      | probing batch =>
        rw [hg] at h
        exact gather_cases htodo hstage hg (fun hidle => nomatch hidle) h
      | refilling batch =>
        rw [hg] at h
        exact gather_cases htodo hstage hg (fun hidle => nomatch hidle) h
    · rename_i batch hstage
      have hnext := Option.some.inj h
      unfold commitStep at hnext
      split at hnext
      · rename_i message hplan
        cases hnext
        exact .panic htodo hstage hplan
      · rename_i plan database materializer hplan
        cases hnext
        exact .commit htodo hstage hplan
    · cases h

/-- A step that touches neither the channel nor the accounts. -/
def Shared.Beside (a a' : Shared) : Prop :=
  ∃ sender borrows backpressured abandonedTickets abandoned deaf, a.deaf ⊆ deaf ∧ a' = { a with
    sender := sender, borrows := borrows, backpressured := backpressured,
    abandonedTickets := abandonedTickets, abandoned := abandoned, deaf := deaf }

/-- The places without a part in the accounts. -/
def CallPlace.aside : CallPlace → Bool
  | .submitCount => false
  | .submitRaise => false
  | .submitSend => false
  | .submitRelease _ => false
  | .submitLower _ => false
  | .returned .flushed => false
  | _ => true

/-- The places behind a send that succeeded. -/
def CallPlace.after : CallPlace → Bool
  | .ticket => true
  | .ticketDrop => true
  | .returned .answered => true
  | .returned .abandoned => true
  | _ => false

/-- What a step of the call `id` does. -/
inductive CallMoves (capacity id : ℕ) (a : Shared) : CallPlace → Shared → CallPlace → Prop
  | reserve (hroom : a.queueDepth < capacity) :
      CallMoves capacity id a .submitReserve { a with queueDepth := a.queueDepth + 1 } .submitCount
  | count : CallMoves capacity id a .submitCount { a with submitted := a.submitted + 1 } .submitRaise
  | raise : CallMoves capacity id a .submitRaise { a with inFlight := a.inFlight + 1 } .submitSend
  | send (halive : a.exited = false) (hroom : a.queue.length < capacity) :
      CallMoves capacity id a .submitSend
        { a.giveBack with queue := a.queue ++ [.intent id], sent := a.sent ++ [.intent id] } .ticket
  | refuse {outcome : Outcome} (hfails : a.exited = true ∨ capacity ≤ a.queue.length)
      (hout : outcome = .closed ∨ outcome = .full) :
      CallMoves capacity id a .submitSend a (.submitRelease outcome)
  | release {outcome : Outcome} :
      CallMoves capacity id a (.submitRelease outcome) { a with queueDepth := a.queueDepth - 1 }
        (.submitLower outcome)
  | lower {outcome : Outcome} {a' : Shared} {p : CallPlace}
      (hbeside : Shared.Beside { a with inFlight := a.inFlight - 1 } a')
      (hp : p = .submitBackpressured ∨ p = .returned outcome) :
      CallMoves capacity id a (.submitLower outcome) a' p
  | barrier (halive : a.exited = false) (hroom : a.queue.length < capacity) :
      CallMoves capacity id a .flushSend
        { a with queue := a.queue ++ [.barrier id], sent := a.sent ++ [.barrier id] } .flushWait
  | flushed (hdone : id ∈ a.flushed) :
      CallMoves capacity id a .flushWait a.giveBack (.returned .flushed)
  | beside {a' : Shared} {p p' : CallPlace} (ha : a.Beside a') (hp : p.aside = true)
      (hp' : p'.aside = true) (hafter : p.after = p'.after) :
      CallMoves capacity id a p a' p'

/-- **The steps of a call.** -/
theorem callStep_cases {capacity id : ℕ} {p p' : CallPlace}
    (h : callStep capacity id choice a p = some (a', p')) : CallMoves capacity id a p a' p' := by
  cases p with
  | idle =>
    unfold callStep at h
    cases choice <;> simp only [reduceCtorEq] at h
    · split at h <;> cases h <;> exact .beside ⟨_, _, _, _, _, _, fun _ h => h, rfl⟩ rfl rfl rfl
    · split at h <;> cases h <;> exact .beside ⟨_, _, _, _, _, _, fun _ h => h, rfl⟩ rfl rfl rfl
    · split at h <;> cases h
      exact .beside ⟨_, _, _, _, _, _, fun _ h => h, rfl⟩ rfl rfl rfl
  | submitReserve =>
    unfold callStep at h
    simp only at h
    split at h
    · cases h
      exact .beside ⟨_, _, _, _, _, _, fun _ h => h, rfl⟩ rfl rfl rfl
    · rename_i hroom
      cases h
      exact .reserve (not_le.1 hroom)
  | submitCount =>
    cases h
    exact .count
  | submitRaise =>
    cases h
    exact .raise
  | submitSend =>
    unfold callStep at h
    simp only at h
    split at h
    · rename_i hexited
      cases h
      exact .refuse (.inl hexited) (.inl rfl)
    · rename_i halive
      split at h
      · rename_i hroom
        cases h
        exact .send (Bool.eq_false_iff.2 halive) hroom
      · rename_i hfull
        cases h
        exact .refuse (.inr (not_lt.1 hfull)) (.inr rfl)
  | submitRelease outcome =>
    cases h
    exact .release
  | submitLower outcome =>
    unfold callStep at h
    simp only at h
    split at h
    · cases h
      exact .lower ⟨_, _, _, _, _, _, fun _ h => h, rfl⟩ (.inl rfl)
    · cases h
      exact .lower ⟨_, _, _, _, _, _, fun _ h => h, rfl⟩ (.inr rfl)
  | submitBackpressured =>
    cases h
    exact .beside ⟨_, _, _, _, _, _, fun _ h => h, rfl⟩ rfl rfl rfl
  | ticket =>
    unfold callStep at h
    cases choice <;> simp only [reduceCtorEq] at h
    · split at h
      · cases h
        exact .beside ⟨_, _, _, _, _, _, fun _ h => h, rfl⟩ rfl rfl rfl
      · split at h <;> cases h
        exact .beside ⟨_, _, _, _, _, _, fun _ h => h, rfl⟩ rfl rfl rfl
    · cases h
      exact .beside ⟨_, _, _, _, _, _, fun _ h => h, rfl⟩ rfl rfl rfl
  | ticketDrop =>
    unfold callStep at h
    cases choice <;> simp only [reduceCtorEq] at h
    cases h
    exact .beside ⟨_, _, _, _, _, _, List.subset_append_left _ _, rfl⟩ rfl rfl rfl
  | flushSend =>
    unfold callStep at h
    simp only at h
    split at h
    · cases h
      exact .beside ⟨_, _, _, _, _, _, fun _ h => h, rfl⟩ rfl rfl rfl
    · rename_i halive
      split at h
      · rename_i hroom
        cases h
        exact .barrier (Bool.eq_false_iff.2 halive) hroom
      · cases h
  | flushWait =>
    unfold callStep at h
    simp only at h
    split at h
    · rename_i hdone
      cases h
      exact .flushed hdone
    · split at h <;> cases h
      exact .beside ⟨_, _, _, _, _, _, fun _ h => h, rfl⟩ rfl rfl rfl
  | join =>
    unfold callStep at h
    simp only at h
    split at h <;> cases h
    exact .beside ⟨_, _, _, _, _, _, fun _ h => h, rfl⟩ rfl rfl rfl
  | returned outcome => cases h

/-- What another user does to the database. -/
inductive Outside (d : Database) : Database → Prop
  | commit {transaction : Transaction} {d' : Database} (h : d.commit transaction = .ok (.ok d')) :
      Outside d d'
  | register (validator : Validator) : Outside d (d.registerValidator validator)

/-- Another user's step changes the database only. -/
theorem userStep_cases (h : userStep choice a = some a') :
    ∃ database published, Outside a.database database ∧
      a' = { a with database := database, published := a.published ++ published } := by
  unfold userStep at h
  cases choice <;> simp only [reduceCtorEq] at h
  · split at h
    · rename_i hcommit
      cases h
      exact ⟨_, _, .commit hcommit, rfl⟩
    · cases h
  · cases h
    exact ⟨_, [], .register _, by rw [List.append_nil]⟩

end Controller.Queued

end ForthDB
