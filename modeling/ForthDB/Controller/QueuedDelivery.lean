import ForthDB.Controller.QueuedAccounts

/-!
# Delivery in the in-memory controller

The channel is first in, first out, the worker claims in its order, and outcomes go to tickets by
their positions. The invariant follows every intent from the channel to its batch and its reply.

* `Applied`: the batches that were committed and what they made of the database.
* `Ledger`, `Ledger.worker`, `Ledger.call`: what is in the channel, in the worker's hands and
  behind it.
* `Delivered`: what is promised to the users of the controller.
-/

namespace ForthDB.Controller.Queued

open Threads

variable {capacity : ℕ} {policy : BatchPolicy} {intents : ℕ → ControllerIntent} {start : Database}

/-- The replies that an action sends. -/
def Action.send? : Action → Option (ℕ × TicketReply)
  | .send call reply => some (call, reply)
  | _ => none

abbrev sendsOf (actions : List Action) : List (ℕ × TicketReply) := actions.filterMap Action.send?

/-- The replies of a batch: to every call what its outcome is routed to. -/
def repliesOf (intents : ℕ → ControllerIntent) (decided : List ℕ × MixedEpochPlan) :
    List (ℕ × TicketReply) :=
  (decided.1.zip decided.2.outcomes).filterMap fun (call, outcome) =>
    (route (intents call) outcome).map fun answer => (call, answer.1)

/-- The batches are committed in turn; between them others use the database. -/
inductive Applied (intents : ℕ → ControllerIntent) (start : Database) :
    List (List ℕ × MixedEpochPlan) → Database → VmEpochMaterializer → Prop
  | start : Applied intents start [] start (.new 1)
  | epoch {decided : List (List ℕ × MixedEpochPlan)} {d d' : Database} {m m' : VmEpochMaterializer}
      {batch : List ℕ} {plan : MixedEpochPlan} (h : Applied intents start decided d m)
      (hplan : d.commitMixedEpoch (batch.map intents) m = .ok (plan, d', m')) :
      Applied intents start (decided ++ [(batch, plan)]) d' m'
  | outside {decided : List (List ℕ × MixedEpochPlan)} {d d' : Database} {m : VmEpochMaterializer}
      (h : Applied intents start decided d m) (hd : Outside d d') :
      Applied intents start decided d' m

/-- The calls of the batches that were committed. -/
abbrev committed (a : Shared) : List ℕ := a.decided.flatMap Prod.fst

/-- What is in the channel, in the worker's hands and behind it. -/
structure Ledger (intents : ℕ → ControllerIntent) (start : Database) (a : Shared) (w : Worker) :
    Prop where
  /-- What the worker has taken is committed or in the batch, in the order of the channel. -/
  taken : ∃ taken, a.sent = taken ++ a.queue ∧
    intentsOf taken = committed a ++ w.sealer.gathering.batch ∧
    ∀ call ∈ w.pending, .barrier call ∈ taken
  nodup : (intentsOf a.sent).Nodup
  applied : Applied intents start a.decided a.database w.materializer
  calls : ∀ x ∈ a.decided, (repliesOf intents x).map Prod.fst = x.1
  answers : a.answered ++ sendsOf w.todo = a.decided.flatMap (repliesOf intents)
  worlds : ∀ x ∈ a.answered ++ sendsOf w.todo, ∀ world, x.2.world? = some world →
    world ∈ a.published
  received : ∀ x ∈ a.answered, x.1 ∈ a.deaf ∨ x ∈ a.replies
  own : ∀ x ∈ a.replies, x ∈ a.answered
  resolved : ∀ call ∈ committed a, a.phase call = .resolved ∨ .resolve call ∈ w.todo
  claims : ∀ call, .claim call ∈ w.todo → call ∈ w.sealer.gathering.batch
  flushed : ∀ call ∈ a.flushed, ∃ xs ys, a.sent = xs ++ .barrier call :: ys ∧
    ∀ k ∈ intentsOf xs, k ∈ committed a ∧ a.phase k = .resolved ∧ k ∈ a.answered.map Prod.fst
  gone : a.exited = true ↔ w.stage = .exited
  rest : w.stage = .exited → a.queue = [] ∧ w.sealer.gathering.batch = [] ∧ w.todo = []

section Worker

variable {a a' : Shared} {w w' : Worker}

theorem sendsOf_answering (answers : List (ℕ × TicketReply × Bool)) :
    sendsOf (answering answers) = answers.map fun answer => (answer.1, answer.2.1) := by
  unfold answering
  induction answers with
  | nil => rfl
  | cons answer answers ih =>
    have hone : sendsOf (answerActions answer) = [(answer.1, answer.2.1)] := rfl
    rw [List.flatMap_cons, List.append_assoc, sendsOf, List.filterMap_append]
    exact congrArg₂ _ hone ih

/-- **The completions of a batch** send every call of the batch what its outcome is routed to. -/
theorem sendsOf_completions {batch : List ℕ} {plan : MixedEpochPlan} {head : World}
    (h : List.Forall₂ (Routed head) (batch.map intents) plan.outcomes) :
    sendsOf (completions intents batch plan) = repliesOf intents (batch, plan) ∧
      (repliesOf intents (batch, plan)).map Prod.fst = batch ∧
      (∀ x ∈ repliesOf intents (batch, plan), ∀ world, x.2.world? = some world → world = head) ∧
      ∀ call ∈ batch, .resolve call ∈ completions intents batch plan := by
  obtain ⟨answers, hbatch, hroutes, hworlds, hactions⟩ := completions_eq h
  have hreplies : repliesOf intents (batch, plan) =
      answers.map fun answer => (answer.1, answer.2.1) := by
    unfold repliesOf
    rw [← hbatch]
    generalize plan.outcomes = os at hroutes
    clear hworlds hactions hbatch h
    induction hroutes with
    | nil => rfl
    | @cons answer o answers os hroute _ ih =>
      simp only [List.map_cons, List.zip_cons_cons, List.filterMap_cons, hroute, Option.map_some]
      exact congrArg _ ih
  rw [hreplies, hactions]
  refine ⟨sendsOf_answering answers, ?_, ?_, ?_⟩
  · rw [List.map_map]
    exact hbatch
  · intro x hx
    obtain ⟨answer, hanswer, rfl⟩ := List.mem_map.1 hx
    exact hworlds answer hanswer
  · intro call hcall
    rw [← hbatch] at hcall
    obtain ⟨answer, hanswer, rfl⟩ := List.mem_map.1 hcall
    refine List.mem_append_left _ (List.mem_flatMap.2 ⟨answer, hanswer, ?_⟩)
    simp [answerActions]

/-- An intent that was committed is not in the batch. -/
theorem Ledger.apart (h : Ledger intents start a w) {call : ℕ} (hc : call ∈ committed a) :
    call ∉ w.sealer.gathering.batch := by
  obtain ⟨taken, hsent, htaken, -⟩ := h.taken
  have hnodup := h.nodup
  rw [hsent, intentsOf_append, htaken, List.append_assoc] at hnodup
  intro hbatch
  exact (List.nodup_append.1 hnodup).2.2 call hc call (List.mem_append_left _ hbatch) rfl

/-- Behind its accesses the worker has answered every call that was committed. -/
theorem Ledger.answered_calls (h : Ledger intents start a w) (htodo : w.todo = []) :
    a.answered.map Prod.fst = committed a := by
  have hanswers := h.answers
  rw [htodo] at hanswers
  have hall : a.answered = a.decided.flatMap (repliesOf intents) := by
    rw [← hanswers]
    exact (List.append_nil _).symm
  rw [hall, List.map_flatMap]
  exact List.flatMap_congr h.calls

/-- An access of the worker sends at most one reply, and what it sends is received if the ticket
still listens. -/
theorem perform_replies (a : Shared) (action : Action) :
    (a.perform action).answered = a.answered ++ action.send?.toList ∧
      (a.perform action).deaf = a.deaf ∧ a.replies ⊆ (a.perform action).replies ∧
      (∀ x ∈ action.send?, x.1 ∈ a.deaf ∨ x ∈ (a.perform action).replies) ∧
      ∀ x ∈ (a.perform action).replies, x ∈ a.replies ∨ action.send? = some x := by
  have hsilent : ∀ a' : Shared, a'.answered = a.answered → a'.deaf = a.deaf →
      a'.replies = a.replies → a'.answered = a.answered ++ (none : Option (ℕ × TicketReply)).toList ∧
        a'.deaf = a.deaf ∧ a.replies ⊆ a'.replies ∧
        (∀ x ∈ (none : Option (ℕ × TicketReply)), x.1 ∈ a.deaf ∨ x ∈ a'.replies) ∧
        ∀ x ∈ a'.replies, x ∈ a.replies ∨ (none : Option (ℕ × TicketReply)) = some x := by
    intro a' hanswered hdeaf hreplies
    refine ⟨?_, hdeaf, ?_, fun x hx => (nomatch hx), fun x hx => ?_⟩
    · rw [hanswered]
      exact (List.append_nil _).symm
    · rw [hreplies]
      exact fun _ hx => hx
    · rw [hreplies] at hx
      exact .inl hx
  cases action with
  | send call reply =>
    unfold Shared.perform Shared.deliver
    simp only
    split
    · rename_i hdeaf
      refine ⟨rfl, rfl, fun _ hx => hx, fun x hx => ?_, fun x hx => .inl hx⟩
      cases hx
      exact .inl hdeaf
    · refine ⟨rfl, rfl, List.subset_append_left _ _, fun x hx => ?_, fun x hx => ?_⟩
      · cases hx
        exact .inr (List.mem_append_right _ (List.mem_singleton.2 rfl))
      · rcases List.mem_append.1 hx with hx | hx
        · exact .inl hx
        · exact .inr (congrArg some (List.mem_singleton.1 hx).symm)
  | count accepted => cases accepted <;> exact hsilent _ rfl rfl rfl
  | _ => exact hsilent _ rfl rfl rfl

/-- An access of the worker changes the phase of one ticket. -/
theorem perform_phase (a : Shared) (action : Action) (k : ℕ) :
    (a.perform action).phase k = a.phase k ∨ action = .claim k ∨
      (action = .resolve k ∧ (a.perform action).phase k = .resolved) := by
  cases action with
  | send call reply =>
    unfold Shared.perform Shared.deliver
    simp only
    split <;> exact .inl rfl
  | count accepted => cases accepted <;> exact .inl rfl
  | claim call =>
    by_cases hk : k = call
    · exact .inr (.inl (congrArg _ hk.symm))
    · exact .inl (Function.update_of_ne hk _ _)
  | resolve call =>
    by_cases hk : k = call
    · subst hk
      exact .inr (.inr ⟨rfl, Function.update_self _ _ _⟩)
    · exact .inl (Function.update_of_ne hk _ _)
  | _ => exact .inl rfl

/-- One access of the worker. -/
theorem Ledger.act (h : Ledger intents start a w) {action : Action} {todo : List Action}
    (htodo : w.todo = action :: todo) :
    Ledger intents start (a.perform action) { w with todo := todo } := by
  obtain ⟨hqueue, hexited, -, hsent, hflushed, hdecided, hpublished, hdatabase⟩ :=
    perform_same a action
  obtain ⟨hanswered, hdeaf, hreplies, hsend, hown⟩ := perform_replies a action
  have hcommitted : committed (a.perform action) = committed a := by
    unfold committed
    rw [hdecided]
  have hsends : sendsOf w.todo = action.send?.toList ++ sendsOf todo := by
    rw [htodo, sendsOf, List.filterMap_cons]
    cases action.send? <;> rfl
  have hall : (a.perform action).answered ++ sendsOf todo = a.answered ++ sendsOf w.todo := by
    rw [hanswered, hsends, List.append_assoc]
  -- a claim is of an intent in the batch, which is not committed
  have hphase : ∀ k ∈ committed a, a.phase k = .resolved →
      (a.perform action).phase k = .resolved := by
    intro k hk hp
    rcases perform_phase a action k with hsame | hclaim | ⟨-, hresolved⟩
    · rw [hsame]
      exact hp
    · exact absurd (h.claims k (by rw [htodo, hclaim]; exact List.mem_cons_self)) (h.apart hk)
    · exact hresolved
  refine ⟨?_, ?_, ?_, ?_, ?_, ?_, ?_, ?_, ?_, ?_, ?_, ?_, ?_⟩
  · rw [hsent, hqueue, hcommitted]
    exact h.taken
  · rw [hsent]
    exact h.nodup
  · rw [hdecided, hdatabase]
    exact h.applied
  · rw [hdecided]
    exact h.calls
  · rw [hdecided, hall]
    exact h.answers
  · rw [hall, hpublished]
    exact h.worlds
  · intro x hx
    rw [hanswered] at hx
    rw [hdeaf]
    rcases List.mem_append.1 hx with hx | hx
    · exact (h.received x hx).imp_right fun hin => hreplies hin
    · exact hsend x (Option.mem_toList.1 hx)
  · intro x hx
    rw [hanswered]
    rcases hown x hx with hold | hnew
    · exact List.mem_append_left _ (h.own x hold)
    · exact List.mem_append_right _ (Option.mem_toList.2 hnew)
  · intro call hcall
    rw [hcommitted] at hcall
    rcases h.resolved call hcall with hp | hmem
    · exact .inl (hphase call hcall hp)
    · rw [htodo] at hmem
      rcases List.mem_cons.1 hmem with hhead | htail
      · refine .inl ?_
        rw [← hhead]
        exact Function.update_self _ _ _
      · exact .inr htail
  · intro call hcall
    exact h.claims call (by rw [htodo]; exact List.mem_cons_of_mem _ hcall)
  · intro call hcall
    rw [hflushed] at hcall
    obtain ⟨xs, ys, hsplit, hxs⟩ := h.flushed call hcall
    rw [hsent, hcommitted, hanswered]
    refine ⟨xs, ys, hsplit, fun k hk => ?_⟩
    obtain ⟨hc, hp, ha⟩ := hxs k hk
    exact ⟨hc, hphase k hc hp, List.map_subset _ (List.subset_append_left _ _) ha⟩
  · rw [hexited]
    exact h.gone
  · intro hstage
    have hnil := (h.rest hstage).2.2
    rw [htodo] at hnil
    cases hnil

/-- **A barrier is answered** when everything in front of it is resolved. -/
theorem Ledger.settled (h : Ledger intents start a w) (htodo : w.todo = []) {call : ℕ}
    {xs ys : List Command} (hsent : a.sent = xs ++ .barrier call :: ys)
    (hxs : ∀ k ∈ intentsOf xs, k ∈ committed a) :
    ∃ xs ys, a.sent = xs ++ .barrier call :: ys ∧
      ∀ k ∈ intentsOf xs, k ∈ committed a ∧ a.phase k = .resolved ∧
        k ∈ a.answered.map Prod.fst := by
  refine ⟨xs, ys, hsent, fun k hk => ?_⟩
  have hc := hxs k hk
  refine ⟨hc, ?_, ?_⟩
  · rcases h.resolved k hc with hp | hmem
    · exact hp
    · rw [htodo] at hmem
      exact absurd hmem List.not_mem_nil
  · rw [h.answered_calls htodo]
    exact hc

/-- Another flush that was answered. -/
theorem Ledger.flushed_more (h : Ledger intents start a w) {call : ℕ}
    (hnew : ∃ xs ys, a.sent = xs ++ .barrier call :: ys ∧
      ∀ k ∈ intentsOf xs, k ∈ committed a ∧ a.phase k = .resolved ∧
        k ∈ a.answered.map Prod.fst) :
    ∀ c ∈ a.flushed ++ [call], ∃ xs ys, a.sent = xs ++ .barrier c :: ys ∧
      ∀ k ∈ intentsOf xs, k ∈ committed a ∧ a.phase k = .resolved ∧
        k ∈ a.answered.map Prod.fst := by
  intro c hc
  rcases List.mem_append.1 hc with hc | hc
  · exact h.flushed c hc
  · rw [List.mem_singleton.1 hc]
    exact hnew

/-- **A batch is committed.** -/
theorem Ledger.commit (h : Ledger intents start a w) {batch : List ℕ} {plan : MixedEpochPlan}
    {database : Database} {materializer : VmEpochMaterializer} (htodo : w.todo = [])
    (hbatch : w.sealer.gathering.batch = batch) (hstage : w.stage ≠ .exited)
    (hplan : a.database.commitMixedEpoch (batch.map intents) w.materializer =
      .ok (plan, database, materializer)) :
    Ledger intents start
      { a with
        database := database, decided := a.decided ++ [(batch, plan)],
        published := a.published ++ [database.current] }
      { w with
        materializer := materializer, sealer := { w.sealer with gathering := .waiting },
        todo := completions intents batch plan, stage := .gathering } := by
  obtain ⟨hsends, hcalls, hworlds, hresolve⟩ :=
    sendsOf_completions (Database.commitMixedEpoch_answers hplan)
  obtain ⟨taken, hsent, htaken, hpending⟩ := h.taken
  have hanswers := h.answers
  have hold := h.worlds
  rw [htodo] at hanswers hold
  have hnil : ∀ xs : List (ℕ × TicketReply), xs ++ sendsOf [] = xs := List.append_nil
  rw [hnil] at hanswers hold
  refine ⟨⟨taken, hsent, ?_, hpending⟩, h.nodup, h.applied.epoch hplan, ?_, ?_, ?_, h.received,
    h.own, ?_, ?_, ?_, ⟨fun hexited => absurd (h.gone.1 hexited) hstage, fun hgone => nomatch hgone⟩,
    fun hgone => nomatch hgone⟩
  · simp only [committed, List.flatMap_append, List.flatMap_singleton, Gathering.batch,
      List.append_nil]
    rw [htaken, hbatch]
  · intro x hx
    rcases List.mem_append.1 hx with hx | hx
    · exact h.calls x hx
    · rw [List.mem_singleton.1 hx]
      exact hcalls
  · simp only [List.flatMap_append, List.flatMap_singleton]
    rw [hsends, hanswers]
  · intro x hx world hworld
    rcases List.mem_append.1 hx with hx | hx
    · exact List.mem_append_left _ (hold x hx world hworld)
    · refine List.mem_append_right _ (List.mem_singleton.2 ?_)
      simp only [hsends] at hx
      exact hworlds x hx world hworld
  · intro call hcall
    simp only [committed, List.flatMap_append, List.flatMap_singleton, List.mem_append] at hcall
    rcases hcall with hcall | hcall
    · refine .inl ?_
      rcases h.resolved call hcall with hp | hmem
      · exact hp
      · rw [htodo] at hmem
        exact absurd hmem List.not_mem_nil
    · exact .inr (hresolve call hcall)
  · intro call hcall
    obtain ⟨answers, -, -, -, hactions⟩ :=
      completions_eq (Database.commitMixedEpoch_answers hplan)
    simp only [hactions] at hcall
    rcases mem_completions hcall with ⟨_, _, hc⟩ | ⟨_, hc⟩ | ⟨_, hc⟩ | hc | hc <;> cases hc
  · intro call hcall
    have hcommitted : committed a ⊆ (a.decided ++ [(batch, plan)]).flatMap Prod.fst := by
      rw [List.flatMap_append]
      exact List.subset_append_left _ _
    obtain ⟨xs, ys, hsplit, hxs⟩ := h.flushed call hcall
    exact ⟨xs, ys, hsplit, fun k hk => ⟨hcommitted (hxs k hk).1, (hxs k hk).2⟩⟩

/-- **A step of the worker** keeps the ledger. -/
theorem Ledger.worker (h : Ledger intents start a w) (hs : WorkerSound w)
    (hm : WorkerMoves intents a w a' w') (hno : ¬ Panicking intents a w) :
    Ledger intents start a' w' := by
  obtain ⟨taken, hsent, htaken, hpend⟩ := h.taken
  cases hm with
  | act htodo hreach => exact h.act htodo
  | mismatch htodo => exact (hs.no_mismatch htodo).elim
  | @answerPending call pending htodo hstage hidle hpending =>
    rw [hpending, List.forall_mem_cons] at hpend
    obtain ⟨xs, ys, hxs⟩ := List.append_of_mem hpend.1
    have hbehind : a.sent = xs ++ .barrier call :: (ys ++ a.queue) := by
      rw [hsent, hxs, List.append_assoc, List.cons_append]
    have hcommitted : ∀ k ∈ intentsOf xs, k ∈ committed a := by
      intro k hk
      have hin : k ∈ intentsOf taken := by
        rw [hxs, intentsOf_append]
        exact List.mem_append_left _ hk
      rw [htaken, hidle] at hin
      simpa [Gathering.batch] using hin
    exact ⟨⟨taken, hsent, htaken, hpend.2⟩, h.nodup, h.applied, h.calls, h.answers, h.worlds,
      h.received, h.own, h.resolved, h.claims, h.flushed_more (h.settled htodo hbehind hcommitted),
      h.gone, h.rest⟩
  | @answer call queue htodo hstage hidle hpending hqueue =>
    have hbehind : a.sent = taken ++ .barrier call :: queue := by rw [hsent, hqueue]
    have hcommitted : ∀ k ∈ intentsOf taken, k ∈ committed a := by
      intro k hk
      rw [htaken, hidle] at hk
      simpa [Gathering.batch] using hk
    refine ⟨⟨taken ++ [.barrier call], ?_, ?_, ?_⟩, h.nodup, h.applied, h.calls, h.answers, h.worlds,
      h.received, h.own, h.resolved, h.claims, h.flushed_more (h.settled htodo hbehind hcommitted),
      h.gone, fun hgone => ?_⟩
    · rw [hbehind, List.append_assoc]
      rfl
    · rw [intentsOf_append, htaken]
      exact List.append_nil _
    · rw [hpending]
      exact fun _ hmem => absurd hmem List.not_mem_nil
    · rw [hstage] at hgone
      cases hgone
  | @take call queue sealer htodo hstage hqueue hpending hsealer =>
    refine ⟨⟨taken ++ [.intent call], ?_, ?_, fun b hb => ?_⟩, h.nodup, h.applied, h.calls, ?_, ?_,
      h.received, h.own, fun k hk => ?_, fun k hk => ?_, h.flushed, h.gone, fun hgone => ?_⟩
    · rw [hsent, hqueue, List.append_assoc]
      rfl
    · rw [intentsOf_append, htaken, List.append_assoc]
      exact congrArg _ hsealer.batch.symm
    · exact List.mem_append_left _ (hpend b hb)
    · have hanswers := h.answers
      rw [htodo] at hanswers
      exact hanswers
    · have hworlds := h.worlds
      rw [htodo] at hworlds
      exact hworlds
    · rcases h.resolved k hk with hp | hmem
      · exact .inl hp
      · rw [htodo] at hmem
        exact absurd hmem List.not_mem_nil
    · rcases mem_claim hk with hc | hc | hc <;> cases hc
      rw [hsealer.batch]
      exact List.mem_append_right _ (List.mem_singleton.2 rfl)
    · have hgone' : w.stage = .exited := hgone
      rw [hstage] at hgone'
      cases hgone'
  | @defer call queue sealer htodo hstage hbusy hqueue hsealer hcloser =>
    refine ⟨⟨taken ++ [.barrier call], ?_, ?_, fun b hb => ?_⟩, h.nodup, h.applied, h.calls,
      h.answers, h.worlds, h.received, h.own, h.resolved, fun k hk => ?_, h.flushed, h.gone,
      fun hgone => ?_⟩
    · rw [hsent, hqueue, List.append_assoc]
      rfl
    · rw [intentsOf_append, htaken]
      simp only [hsealer.batch]
      exact List.append_nil _
    · rcases List.mem_append.1 hb with hb | hb
      · exact List.mem_append_left _ (hpend b hb)
      · rw [List.mem_singleton.1 hb]
        exact List.mem_append_right _ (List.mem_singleton.2 rfl)
    · rw [hsealer.batch]
      exact h.claims k hk
    · have hgone' : w.stage = .exited := hgone
      rw [hstage] at hgone'
      cases hgone'
  | observe htodo hstage hbusy hsealer hcloser =>
    refine ⟨⟨taken, hsent, ?_, hpend⟩, h.nodup, h.applied, h.calls, h.answers, h.worlds,
      h.received, h.own, h.resolved, fun k hk => ?_, h.flushed, h.gone, fun hgone => ?_⟩
    · rw [htaken, hsealer.batch]
    · rw [hsealer.batch]
      exact h.claims k hk
    · have hgone' : w.stage = .exited := hgone
      rw [hstage] at hgone'
      cases hgone'
  | process htodo hstage hsealed =>
    refine ⟨⟨taken, hsent, htaken, hpend⟩, h.nodup, h.applied, h.calls, h.answers, h.worlds,
      h.received, h.own, h.resolved, h.claims, h.flushed,
      ⟨fun hexited => ?_, fun hgone => (by cases hgone)⟩, fun hgone => (by cases hgone)⟩
    have hgone := h.gone.1 hexited
    rw [hstage] at hgone
    cases hgone
  | commit htodo hstage hplan =>
    exact h.commit htodo (hs.batch hstage) (by rw [hstage]; exact fun hgone => (by cases hgone)) hplan
  | panic htodo hstage hplan => exact absurd ⟨_, _, hstage, hplan⟩ hno
  | leave htodo hstage hidle hpending hqueue hsender =>
    refine ⟨⟨taken, hsent, htaken, hpend⟩, h.nodup, h.applied, h.calls, h.answers, h.worlds,
      h.received, h.own, h.resolved, h.claims, h.flushed, ⟨fun _ => rfl, fun _ => rfl⟩,
      fun _ => ⟨hqueue, ?_, htodo⟩⟩
    rw [hidle]
    rfl

/-- A command that the channel takes. -/
theorem Ledger.send (h : Ledger intents start a w) (halive : a.exited = false) {command : Command}
    (hnew : ∀ call ∈ command.intent?, call ∉ intentsOf a.sent) (borrows : ℕ) :
    Ledger intents start
      { a with
        borrows := borrows, queue := a.queue ++ [command], sent := a.sent ++ [command] } w := by
  obtain ⟨taken, hsent, htaken, hpending⟩ := h.taken
  refine ⟨⟨taken, ?_, htaken, hpending⟩, ?_, h.applied, h.calls, h.answers, h.worlds, h.received,
    h.own, h.resolved, h.claims, fun call hcall => ?_, h.gone, fun hgone => ?_⟩
  · simp only [hsent, List.append_assoc]
  · rw [intentsOf_append]
    have hone : intentsOf [command] = command.intent?.toList := by
      rw [intentsOf, List.filterMap_cons]
      cases command.intent? <;> rfl
    rw [hone]
    refine List.nodup_append.2 ⟨h.nodup, ?_, fun x hx y hy hxy => ?_⟩
    · cases command.intent? with
      | none => exact List.nodup_nil
      | some call => exact List.nodup_singleton call
    · rw [hxy] at hx
      exact hnew y (Option.mem_toList.1 hy) hx
  · obtain ⟨xs, ys, hsplit, hxs⟩ := h.flushed call hcall
    refine ⟨xs, ys ++ [command], ?_, hxs⟩
    simp only [hsplit, List.append_assoc, List.cons_append]
  · have hexited := h.gone.2 hgone
    rw [halive] at hexited
    cases hexited

/-- **A step of a call** keeps the ledger. -/
theorem Ledger.call (h : Ledger intents start a w) {id : ℕ} {p p' : CallPlace}
    (hm : CallMoves capacity id a p a' p') (hfresh : p = .submitSend → id ∉ intentsOf a.sent) :
    Ledger intents start a' w := by
  cases hm with
  | send halive hroom =>
    refine h.send halive (fun call hcall => ?_) _
    cases hcall
    exact hfresh rfl
  | barrier halive hroom => exact h.send halive (fun call hcall => by cases hcall) _
  | @lower outcome a' p hbeside hp =>
    obtain ⟨_, _, _, _, _, _, hdeaf, rfl⟩ := hbeside
    exact ⟨h.taken, h.nodup, h.applied, h.calls, h.answers, h.worlds,
      fun x hx => (h.received x hx).imp_left fun hin => hdeaf hin, h.own, h.resolved, h.claims,
      h.flushed, h.gone, h.rest⟩
  | @beside a' p p' ha hp hp' hafter =>
    obtain ⟨_, _, _, _, _, _, hdeaf, rfl⟩ := ha
    exact ⟨h.taken, h.nodup, h.applied, h.calls, h.answers, h.worlds,
      fun x hx => (h.received x hx).imp_left fun hin => hdeaf hin, h.own, h.resolved, h.claims,
      h.flushed, h.gone, h.rest⟩
  | _ =>
    exact ⟨h.taken, h.nodup, h.applied, h.calls, h.answers, h.worlds, h.received, h.own,
      h.resolved, h.claims, h.flushed, h.gone, h.rest⟩

/-- The worker sends no commands, and takes no answer to a barrier back. -/
theorem WorkerMoves.channel (hm : WorkerMoves intents a w a' w') :
    a'.sent = a.sent ∧ a.flushed ⊆ a'.flushed := by
  cases hm with
  | act htodo hreach =>
    obtain ⟨-, -, -, hsent, hflushed, -⟩ := perform_same a _
    exact ⟨hsent, by rw [hflushed]; exact fun _ h => h⟩
  | answerPending htodo hstage hidle hpending => exact ⟨rfl, List.subset_append_left _ _⟩
  | answer htodo hstage hidle hpending hqueue => exact ⟨rfl, List.subset_append_left _ _⟩
  | _ => exact ⟨rfl, fun _ h => h⟩

/-- A command in the channel, an access to make or a batch to decide: the worker can go on. -/
theorem worker_goes_on (hs : WorkerSound w) (hstage : w.stage ≠ .exited) :
    (a.queue = [] ∧ w.todo = [] ∧ w.pending = [] ∧ w.sealer.gathering = .waiting ∧
      a.sender = true) ∨
      ∃ choice a' w', workerStep policy intents choice a w = some (a', w') := by
  unfold workerStep
  cases htodo : w.todo with
  | cons action todo =>
    refine .inr ⟨.go, ?_⟩
    cases action <;> exact ⟨_, _, rfl⟩
  | nil =>
    cases hw : w.stage with
    | exited => exact absurd hw hstage
    | committing batch => exact .inr ⟨.go, _, _, rfl⟩
    | gathering =>
      simp only
      unfold gatherStep
      cases hg : w.sealer.gathering with
      | waiting =>
        cases hpending : w.pending with
        | cons call pending => exact .inr ⟨.go, _, _, rfl⟩
        | nil =>
          cases hqueue : a.queue with
          | nil =>
            cases hsender : a.sender with
            | true => exact .inl ⟨rfl, trivial, rfl, rfl, rfl⟩
            | false => exact .inr ⟨.go, _, _, rfl⟩
          | cons command queue =>
            cases command with
            | barrier call => exact .inr ⟨.go, _, _, rfl⟩
            | intent call => exact .inr ⟨.go, _, _, rfl⟩
      | sealed batch reason => exact .inr ⟨.go, _, _, rfl⟩
      | probing batch => exact .inr ⟨.late, _, _, rfl⟩
      | draining batch =>
        refine .inr ⟨.go, ?_⟩
        unfold look
        cases hqueue : a.queue with
        | nil => exact ⟨_, _, rfl⟩
        | cons command queue => cases command <;> exact ⟨_, _, rfl⟩
      | refilling batch =>
        refine .inr ⟨.go, ?_⟩
        unfold look
        cases hqueue : a.queue with
        | nil => exact ⟨_, _, rfl⟩
        | cons command queue => cases command <;> exact ⟨_, _, rfl⟩

end Worker

/-! ## Every run -/

/-- A send that failed returns `Full` or `Closed`. -/
def CallPlace.Refused : CallPlace → Prop
  | .submitRelease outcome => outcome = .closed ∨ outcome = .full
  | .submitLower outcome => outcome = .closed ∨ outcome = .full
  | _ => True

/-- What every step keeps in which no commit panics. -/
structure DeliveryKept (intents : ℕ → ControllerIntent) (start : Database) (s : System) : Prop where
  sound : WorkerSound (s.place .worker)
  ledger : Ledger intents start s.shared (s.place .worker)
  sent : ∀ id ∈ intentsOf s.shared.sent, CallPlace.after (s.place (.call id)) = true
  flushed : ∀ id, s.place (.call id) = CallPlace.returned .flushed → id ∈ s.shared.flushed
  refused : ∀ id, CallPlace.Refused (s.place (.call id))

section Moves

variable {s t : System} {i : Thread}

/-- What a call does to the records of the channel. -/
theorem CallMoves.channel {a a' : Shared} {id : ℕ} {p p' : CallPlace}
    (hm : CallMoves capacity id a p a' p') (hrefused : CallPlace.Refused p) :
    (a'.flushed = a.flushed) ∧ CallPlace.Refused p' ∧
      (p' = .returned .flushed → id ∈ a.flushed) ∧
      ((intentsOf a'.sent = intentsOf a.sent ∧ p.after = p'.after) ∨
        (intentsOf a'.sent = intentsOf a.sent ++ [id] ∧ p = .submitSend ∧ p'.after = true)) := by
  cases hm with
  | reserve hroom => exact ⟨rfl, trivial, fun h => (nomatch h), .inl ⟨rfl, rfl⟩⟩
  | count => exact ⟨rfl, trivial, fun h => (nomatch h), .inl ⟨rfl, rfl⟩⟩
  | raise => exact ⟨rfl, trivial, fun h => (nomatch h), .inl ⟨rfl, rfl⟩⟩
  | send halive hroom =>
    exact ⟨rfl, trivial, fun h => (nomatch h), .inr ⟨intentsOf_append _ _, rfl, rfl⟩⟩
  | refuse hfails hout => exact ⟨rfl, hout, fun h => (nomatch h), .inl ⟨rfl, rfl⟩⟩
  | release => exact ⟨rfl, hrefused, fun h => (nomatch h), .inl ⟨rfl, rfl⟩⟩
  | @lower outcome a' p hbeside hp =>
    obtain ⟨_, _, _, _, _, _, -, rfl⟩ := hbeside
    rcases hp with rfl | rfl
    · exact ⟨rfl, trivial, fun h => (nomatch h), .inl ⟨rfl, rfl⟩⟩
    · rcases hrefused with rfl | rfl
      · exact ⟨rfl, trivial, fun h => (nomatch h), .inl ⟨rfl, rfl⟩⟩
      · exact ⟨rfl, trivial, fun h => (nomatch h), .inl ⟨rfl, rfl⟩⟩
  | barrier halive hroom =>
    refine ⟨rfl, trivial, fun h => (nomatch h), .inl ⟨?_, rfl⟩⟩
    simp
  | flushed hdone => exact ⟨rfl, trivial, fun _ => hdone, .inl ⟨rfl, rfl⟩⟩
  | @beside a' p p' ha hp hp' hafter =>
    obtain ⟨_, _, _, _, _, _, -, rfl⟩ := ha
    refine ⟨rfl, ?_, fun h => ?_, .inl ⟨rfl, hafter⟩⟩
    · cases p' <;> simp only [CallPlace.aside, reduceCtorEq] at hp' <;> trivial
    · rw [h] at hp'
      cases hp'

/-- **One step** keeps the delivery. -/
theorem DeliveryKept.moves (h : DeliveryKept intents start s)
    (hm : s.Moves (step capacity policy intents) i t) (hcommit : ¬ CommitPanics intents s i) :
    DeliveryKept intents start t := by
  have hsound := worker_sound hm h.sound
  obtain ⟨c, a, p, hstep, rfl⟩ := hm
  cases i with
  | worker =>
    have hmoves := workerStep_cases hstep
    obtain ⟨hsent, hflushed⟩ := hmoves.channel
    refine ⟨hsound, ?_, fun id hid => ?_, fun id hid => ?_, fun id => ?_⟩
    · rw [shared_move, place_move_self]
      exact h.ledger.worker h.sound hmoves hcommit
    · rw [shared_move, hsent] at hid
      rw [call_of_worker]
      exact h.sent id hid
    · rw [call_of_worker] at hid
      exact hflushed (h.flushed id hid)
    · rw [call_of_worker]
      exact h.refused id
  | user =>
    obtain ⟨a', ha, hnext⟩ := Option.map_eq_some_iff.1 hstep
    cases hnext
    obtain ⟨database, published, houtside, rfl⟩ := userStep_cases ha
    refine ⟨hsound, ?_, fun id hid => ?_, fun id hid => ?_, fun id => ?_⟩
    · rw [shared_move, worker_of_user]
      have hl := h.ledger
      exact ⟨hl.taken, hl.nodup, hl.applied.outside houtside, hl.calls, hl.answers,
        fun x hx world hworld => List.mem_append_left _ (hl.worlds x hx world hworld),
        hl.received, hl.own, hl.resolved, hl.claims, hl.flushed, hl.gone, hl.rest⟩
    · rw [call_of_user]
      exact h.sent id hid
    · rw [call_of_user] at hid
      exact h.flushed id hid
    · rw [call_of_user]
      exact h.refused id
  | call id =>
    have hmoves := callStep_cases hstep
    have hfresh : s.place (.call id) = CallPlace.submitSend → id ∉ intentsOf s.shared.sent := by
      intro hplace hid
      have hafter := h.sent id hid
      rw [hplace] at hafter
      cases hafter
    obtain ⟨hflushed, hrefused, hdone, hsent⟩ := hmoves.channel (h.refused id)
    have hother : ∀ j, j ≠ id → (s.move (.call id) a p).place (.call j) = s.place (.call j) :=
      fun j hj => place_move_ne s (fun heq => hj (Thread.call.inj heq)) a p
    refine ⟨hsound, ?_, fun j hj => ?_, fun j hj => ?_, fun j => ?_⟩
    · rw [shared_move, worker_of_call]
      exact h.ledger.call hmoves hfresh
    · rw [shared_move] at hj
      by_cases hjid : j = id
      · subst hjid
        rw [place_move_self]
        rcases hsent with ⟨hsame, hafter⟩ | ⟨-, -, hafter⟩
        · rw [← hafter]
          rw [hsame] at hj
          exact h.sent j hj
        · exact hafter
      · rw [hother j hjid]
        rcases hsent with ⟨hsame, -⟩ | ⟨hmore, -, -⟩
        · rw [hsame] at hj
          exact h.sent j hj
        · rw [hmore] at hj
          rcases List.mem_append.1 hj with hj | hj
          · exact h.sent j hj
          · exact absurd (List.mem_singleton.1 hj) hjid
    · rw [shared_move, hflushed]
      by_cases hjid : j = id
      · subst hjid
        rw [place_move_self] at hj
        exact hdone hj
      · rw [hother j hjid] at hj
        exact h.flushed j hj
    · by_cases hjid : j = id
      · subst hjid
        rw [place_move_self]
        exact hrefused
      · rw [hother j hjid]
        exact h.refused j

end Moves

/-! ## The worker comes to rest -/

/-- How much the worker has before it: a command of the channel weighs more than what it makes of
the batch and of the accesses, and an intent of the batch more than its answer. -/
def burden (a : Shared) (w : Worker) : ℕ :=
  20 * a.queue.length + 10 * w.sealer.gathering.batch.length + 2 * w.pending.length +
    w.todo.length + w.sealer.gathering.distance +
    match w.stage with
    | .gathering => 2
    | .committing _ => 1
    | .exited => 0

theorem length_answering (answers : List (ℕ × TicketReply × Bool)) :
    (answering answers).length = 3 * answers.length + 2 := by
  induction answers with
  | nil => rfl
  | cons answer answers ih =>
    unfold answering at ih ⊢
    rw [List.flatMap_cons, List.append_assoc, List.length_append, ih, List.length_cons]
    have hthree : (answerActions answer).length = 3 := rfl
    omega

/-- **Every step of the worker** takes something off its burden. A batch is sealed with an intent
in it. -/
theorem WorkerMoves.lighter {a a' : Shared} {w w' : Worker} (hm : WorkerMoves intents a w a' w')
    (hs : WorkerSound w) : burden a' w' < burden a w := by
  unfold burden
  cases hm with
  | @act action todo htodo hreach =>
    rw [(perform_same a action).1, htodo]
    simp only [List.length_cons]
    omega
  | mismatch htodo => exact (hs.no_mismatch htodo).elim
  | answerPending htodo hstage hidle hpending =>
    rw [hpending]
    simp only [List.length_cons]
    omega
  | answer htodo hstage hidle hpending hqueue =>
    rw [hqueue]
    simp only [List.length_cons]
    omega
  | @take call queue sealer htodo hstage hqueue hpending hsealer =>
    have hle := sealer.gathering.distance_le
    rw [hqueue, htodo]
    simp only [hsealer.batch, List.length_append, List.length_cons, List.length_nil]
    omega
  | defer htodo hstage hbusy hqueue hsealer hcloser =>
    rw [hqueue]
    simp only [hsealer.batch, List.length_append, List.length_cons, List.length_nil]
    omega
  | observe htodo hstage hbusy hsealer hcloser =>
    simp only [hsealer.batch]
    omega
  | process htodo hstage hsealed =>
    simp only [hstage]
    omega
  | @commit batch plan database materializer htodo hstage hplan =>
    obtain ⟨answers, hbatch, -, -, hactions⟩ :=
      completions_eq (Database.commitMixedEpoch_answers hplan)
    obtain ⟨reason, hsealed⟩ := hs.committing batch hstage
    have hlength : answers.length = batch.length := by rw [← hbatch, List.length_map]
    have hpos : batch ≠ [] := by
      have hne := hs.full (by rw [hsealed]; exact fun h => nomatch h)
      rw [hsealed] at hne
      exact hne
    have hone := List.length_pos_iff.2 hpos
    simp only [hsealed, hstage, htodo, hactions, length_answering, hlength, Gathering.batch,
      Gathering.distance, List.length_nil]
    omega
  | panic htodo hstage hplan =>
    simp only [panicked, hstage, htodo, List.length_nil]
    omega
  | leave htodo hstage hidle hpending hqueue hsender =>
    simp only [hstage]
    omega

/-- Every intent that was sent is committed, answered and resolved. -/
def AllResolved (s : System) : Prop :=
  committed s.shared = intentsOf s.shared.sent ∧
    ∀ call ∈ intentsOf s.shared.sent, s.shared.phase call = .resolved ∧
      call ∈ s.shared.answered.map Prod.fst

/-- With nothing before the worker everything is resolved. -/
theorem DeliveryKept.allResolved {s : System} (h : DeliveryKept intents start s)
    (hqueue : s.shared.queue = []) (htodo : (s.place .worker).todo = [])
    (hbatch : (s.place .worker).sealer.gathering.batch = []) : AllResolved s := by
  obtain ⟨taken, hsent, htaken, -⟩ := h.ledger.taken
  have hall : committed s.shared = intentsOf s.shared.sent := by
    rw [hqueue, List.append_nil] at hsent
    rw [hbatch, List.append_nil] at htaken
    rw [hsent, htaken]
  refine ⟨hall, fun call hcall => ?_⟩
  rw [← hall] at hcall
  refine ⟨?_, ?_⟩
  · rcases h.ledger.resolved call hcall with hp | hmem
    · exact hp
    · rw [htodo] at hmem
      exact absurd hmem List.not_mem_nil
  · rw [h.ledger.answered_calls htodo]
    exact hcall

/-- **The worker comes to rest**: by its own steps alone it resolves everything that was sent, or
comes to a commit that panics. -/
theorem DeliveryKept.comes_to_rest {s : System} (h : DeliveryKept intents start s) :
    ∃ t, Run (step capacity policy intents) (fun _ i _ => i = .worker) s t ∧
      t.shared.sent = s.shared.sent ∧ (AllResolved t ∨ CommitPanics intents t .worker) := by
  induction hburden : burden s.shared (s.place .worker) using Nat.strong_induction_on
    generalizing s with
  | _ n ih =>
    by_cases hpanic : CommitPanics intents s .worker
    · exact ⟨s, .refl s, rfl, .inr hpanic⟩
    by_cases hstage : (s.place .worker).stage = .exited
    · obtain ⟨hqueue, hbatch, htodo⟩ := h.ledger.rest hstage
      exact ⟨s, .refl s, rfl, .inl (h.allResolved hqueue htodo hbatch)⟩
    rcases worker_goes_on h.sound hstage with
      ⟨hqueue, htodo, -, hidle, -⟩ | ⟨choice, a', w', hstep⟩
    · refine ⟨s, .refl s, rfl, .inl (h.allResolved hqueue htodo ?_)⟩
      rw [hidle]
      rfl
    · have hmoves : s.Moves (step capacity policy intents) .worker (s.move .worker a' w') :=
        ⟨choice, a', w', hstep, rfl⟩
      have hworker := workerStep_cases hstep
      have hlighter : burden (s.move .worker a' w').shared ((s.move .worker a' w').place .worker) < n := by
        rw [shared_move, place_move_self, ← hburden]
        exact hworker.lighter h.sound
      obtain ⟨t, hrun, hsent, hend⟩ := ih _ hlighter (h.moves hmoves hpanic) rfl
      exact ⟨t, (Run.single hmoves rfl).trans hrun, hsent.trans hworker.channel.1, hend⟩

/-! ## Tickets that are dropped -/

/-- What is shared where no ticket was dropped. -/
def Shared.kept (a : Shared) : Shared :=
  { a with
    abandonedTickets := 0, completionDeliveryFailures := 0, abandoned := [], deaf := [],
    replies := a.answered }

/-- A ticket that is not dropped. -/
def CallPlace.kept : CallPlace → CallPlace
  | .ticketDrop => .ticket
  | .returned .abandoned => .ticket
  | p => p

/-- The system where no ticket was dropped. -/
def undropped (s : System) : System where
  shared := s.shared.kept
  place := fun
    | .worker => s.place .worker
    | .user => s.place .user
    | .call id => CallPlace.kept (s.place (.call id))

theorem undropped_move_worker (s : System) (a : Shared) (w : Worker) :
    undropped (s.move .worker a w) = (undropped s).move .worker a.kept w := by
  unfold undropped move
  congr 1
  funext i
  cases i with
  | worker => simp
  | user => simp
  | call id => simp

theorem undropped_move_user (s : System) (a : Shared) (p : Unit) :
    undropped (s.move .user a p) = (undropped s).move .user a.kept p := by
  unfold undropped move
  congr 1
  funext i
  cases i with
  | worker => simp
  | user => simp
  | call id => simp

theorem undropped_move_call (s : System) (id : ℕ) (a : Shared) (p : CallPlace) :
    undropped (s.move (.call id) a p) = (undropped s).move (.call id) a.kept p.kept := by
  unfold undropped move
  congr 1
  funext i
  cases i with
  | worker => simp
  | user => simp
  | call j =>
    by_cases hj : j = id
    · subst hj
      simp
    · have hne : Thread.call j ≠ .call id := fun heq => hj (Thread.call.inj heq)
      simp [Function.update_of_ne hne]

theorem perform_kept (a : Shared) (action : Action) :
    (a.perform action).kept = a.kept.perform action := by
  cases action with
  | send call reply =>
    unfold Shared.perform Shared.deliver Shared.kept
    simp only [List.not_mem_nil, ↓reduceIte]
    split <;> rfl
  | count accepted => cases accepted <;> rfl
  | _ => rfl

theorem gatherStep_kept (choice : Choice) (a : Shared) (w : Worker) :
    gatherStep policy choice a.kept w =
      (gatherStep policy choice a w).map fun next => (next.1.kept, next.2) := by
  unfold gatherStep
  cases w.sealer.gathering with
  | waiting =>
    cases w.pending with
    | cons call pending => rfl
    | nil =>
      have hqueue : a.kept.queue = a.queue := rfl
      rw [hqueue]
      cases a.queue with
      | nil =>
        have hsender : a.kept.sender = a.sender := rfl
        simp only [hsender]
        split <;> rfl
      | cons command queue =>
        cases command with
        | barrier call => rfl
        | intent call => rfl
  | sealed batch reason => rfl
  | draining batch =>
    simp only [Option.map_map]
    rfl
  | probing batch =>
    simp only [Option.map_map]
    rfl
  | refilling batch =>
    simp only [Option.map_map]
    rfl

/-- **The worker does not notice** that a ticket is dropped. -/
theorem workerStep_kept {choice : Choice} {a a' : Shared} {w w' : Worker}
    (h : workerStep policy intents choice a w = some (a', w')) :
    workerStep policy intents choice a.kept w = some (a'.kept, w') := by
  unfold workerStep at h ⊢
  split at h
  · cases h
    rfl
  · cases h
    rw [perform_kept]
  · split at h
    · rw [gatherStep_kept, h]
      rfl
    · have hnext := Option.some.inj h
      refine congrArg some ?_
      unfold commitStep at hnext ⊢
      have hdatabase : a.kept.database = a.database := rfl
      rw [hdatabase]
      split at hnext <;> cases hnext <;> rfl
    · cases h

theorem userStep_kept {choice : Choice} {a a' : Shared} (h : userStep choice a = some a') :
    userStep choice a.kept = some a'.kept := by
  have hdatabase : a.kept.database = a.database := rfl
  unfold userStep at h ⊢
  cases choice <;> simp only [reduceCtorEq] at h ⊢
  · rw [hdatabase]
    split at h <;> cases h
    rfl
  · cases h
    rfl

/-- A choice that is made alike twice. -/
theorem ite_follows {c : Prop} [Decidable c] {x y x' y' : Option (Shared × CallPlace)}
    {r r' : Shared × CallPlace} (h : (if c then x else y) = some r)
    (hx : x = some r → x' = some r') (hy : y = some r → y' = some r') :
    (if c then x' else y') = some r' := by
  split at h
  · rename_i hc
    rw [if_pos hc]
    exact hx h
  · rename_i hc
    rw [if_neg hc]
    exact hy h

/-- **A step of a call** drops a ticket, or is one where no ticket is dropped. -/
theorem callStep_kept {id : ℕ} {choice : Choice} {a a' : Shared} {p p' : CallPlace}
    (h : callStep capacity id choice a p = some (a', p')) (hown : ∀ x ∈ a.replies, x ∈ a.answered)
    (hrefused : CallPlace.Refused p) :
    (a'.kept = a.kept ∧ p'.kept = p.kept) ∨
      callStep capacity id choice a.kept p.kept = some (a'.kept, p'.kept) := by
  have hsender : a.kept.sender = a.sender := rfl
  have hborrows : a.kept.borrows = a.borrows := rfl
  have hdepth : a.kept.queueDepth = a.queueDepth := rfl
  have hexited : a.kept.exited = a.exited := rfl
  have hqueue : a.kept.queue = a.queue := rfl
  have hflushed : a.kept.flushed = a.flushed := rfl
  cases p with
  | idle =>
    refine .inr ?_
    unfold callStep at h ⊢
    simp only [CallPlace.kept, hsender, hborrows]
    cases choice <;> simp only [reduceCtorEq] at h ⊢
    · refine ite_follows h (fun hx => ?_) fun hy => ?_
      · cases hx
        rfl
      · cases hy
        rfl
    · refine ite_follows h (fun hx => ?_) fun hy => ?_
      · cases hx
        rfl
      · cases hy
        rfl
    · refine ite_follows h (fun hx => ?_) fun hy => (nomatch hy)
      cases hx
      rfl
  | submitReserve =>
    refine .inr ?_
    unfold callStep at h ⊢
    simp only [CallPlace.kept, hdepth] at h ⊢
    refine ite_follows h (fun hx => ?_) fun hy => ?_
    · cases hx
      rfl
    · cases hy
      rfl
  | submitCount =>
    cases h
    exact .inr rfl
  | submitRaise =>
    cases h
    exact .inr rfl
  | submitSend =>
    refine .inr ?_
    unfold callStep at h ⊢
    simp only [CallPlace.kept, hexited, hqueue] at h ⊢
    refine ite_follows h (fun hx => ?_) fun hy => ite_follows hy (fun hx => ?_) fun hy => ?_
    · cases hx
      rfl
    · cases hx
      rfl
    · cases hy
      rfl
  | submitRelease outcome =>
    cases h
    exact .inr rfl
  | submitLower outcome =>
    refine .inr ?_
    unfold callStep at h ⊢
    rcases hrefused with rfl | rfl <;> cases h <;> rfl
  | submitBackpressured =>
    cases h
    exact .inr rfl
  | ticket =>
    unfold callStep at h
    cases choice <;> simp only [reduceCtorEq] at h
    · split at h
      · rename_i hsome
        cases h
        refine .inr ?_
        have hanswered : (a.kept.replies.lookup id).isSome = true := by
          rw [List.lookup_isSome_iff] at hsome ⊢
          obtain ⟨x, hx, hid⟩ := hsome
          exact ⟨x, hown x hx, hid⟩
        unfold callStep
        simp only [CallPlace.kept, hanswered, ↓reduceIte]
      · split at h <;> cases h
        exact .inl ⟨rfl, rfl⟩
    · cases h
      exact .inl ⟨rfl, rfl⟩
  | ticketDrop =>
    unfold callStep at h
    cases choice <;> simp only [reduceCtorEq] at h
    cases h
    exact .inl ⟨rfl, rfl⟩
  | flushSend =>
    refine .inr ?_
    unfold callStep at h ⊢
    simp only [CallPlace.kept, hexited, hqueue] at h ⊢
    refine ite_follows h (fun hx => ?_) fun hy => ite_follows hy (fun hx => ?_)
      fun hy => (nomatch hy)
    · cases hx
      rfl
    · cases hx
      rfl
  | flushWait =>
    refine .inr ?_
    unfold callStep at h ⊢
    simp only [CallPlace.kept, hexited, hflushed] at h ⊢
    refine ite_follows h (fun hx => ?_) fun hy => ite_follows hy (fun hx => ?_)
      fun hy => (nomatch hy)
    · cases hx
      rfl
    · cases hx
      rfl
  | join =>
    refine .inr ?_
    unfold callStep at h ⊢
    simp only [CallPlace.kept, hexited] at h ⊢
    refine ite_follows h (fun hx => ?_) fun hy => (nomatch hy)
    cases hx
    rfl
  | returned outcome => cases h

/-- No commit panics. -/
def Returns (intents : ℕ → ControllerIntent) (s : System) (i : Thread) (_ : System) : Prop :=
  ¬ CommitPanics intents s i

/-- No commit panics and no ticket is dropped. -/
def Patient (intents : ℕ → ControllerIntent) (s : System) (i : Thread) (t : System) : Prop :=
  Returns intents s i t ∧ t.shared.abandoned = []

/-- **One step where no ticket is dropped**, or none. -/
theorem undropped_moves {s t : System} {i : Thread} (h : DeliveryKept intents start s)
    (hm : s.Moves (step capacity policy intents) i t) :
    undropped t = undropped s ∨
      (undropped s).Moves (step capacity policy intents) i (undropped t) := by
  obtain ⟨c, a, p, hstep, rfl⟩ := hm
  cases i with
  | worker =>
    refine .inr ⟨c, a.kept, p, workerStep_kept hstep, undropped_move_worker s a p⟩
  | user =>
    obtain ⟨a', ha, hnext⟩ := Option.map_eq_some_iff.1 hstep
    obtain ⟨rfl, hplace⟩ := Prod.mk.inj hnext
    refine .inr ⟨c, a'.kept, p, ?_, undropped_move_user s a' p⟩
    exact Option.map_eq_some_iff.2 ⟨_, userStep_kept ha, congrArg _ hplace⟩
  | call id =>
    rcases callStep_kept hstep h.ledger.own (h.refused id) with ⟨hshared, hplace⟩ | hkept
    · refine .inl ?_
      rw [undropped_move_call, hshared, hplace]
      have hself : (undropped s).place (.call id) = CallPlace.kept (s.place (.call id)) := rfl
      unfold move
      rw [← hself, Function.update_eq_self]
      rfl
    · exact .inr ⟨c, a.kept, CallPlace.kept p, hkept, undropped_move_call s id a p⟩

theorem undropped_initial (policy : BatchPolicy) (start : Database) :
    undropped (initial policy start) = initial policy start := by
  unfold undropped initial
  congr 1

theorem deliveryKept_initial (intents : ℕ → ControllerIntent) (policy : BatchPolicy)
    (start : Database) : DeliveryKept intents start (initial policy start) := by
  refine ⟨workerSound_initial policy start, ?_, fun id hid => absurd hid List.not_mem_nil,
    fun id hid => (nomatch hid), fun id => trivial⟩
  refine ⟨⟨[], rfl, rfl, fun _ hmem => absurd hmem List.not_mem_nil⟩, List.nodup_nil, .start,
    fun _ hmem => absurd hmem List.not_mem_nil, rfl, fun _ hmem => absurd hmem List.not_mem_nil,
    fun _ hmem => absurd hmem List.not_mem_nil, fun _ hmem => absurd hmem List.not_mem_nil,
    fun _ hmem => absurd hmem List.not_mem_nil, fun _ hmem => absurd hmem List.not_mem_nil,
    fun _ hmem => absurd hmem List.not_mem_nil, ⟨fun h => (nomatch h), fun h => (nomatch h)⟩,
    fun h => (nomatch h)⟩

/-- **A run in which tickets are dropped** is one in which they are not, as far as everything else
is concerned. -/
theorem undropped_run {s : System}
    (h : Run (step capacity policy intents) (Returns intents) (initial policy start) s) :
    DeliveryKept intents start s ∧
      Run (step capacity policy intents) (Patient intents) (initial policy start) (undropped s) := by
  induction h with
  | refl =>
    rw [undropped_initial]
    exact ⟨deliveryKept_initial intents policy start, .refl _⟩
  | @tail t u i _ hmoves hreturns ih =>
    obtain ⟨hkept, hrun⟩ := ih
    refine ⟨hkept.moves hmoves hreturns, ?_⟩
    rcases undropped_moves hkept hmoves with hsame | hnext
    · rw [hsame]
      exact hrun
    · refine hrun.tail hnext ⟨?_, rfl⟩
      cases i with
      | worker => exact hreturns
      | user => exact fun hpanic => hpanic
      | call id => exact fun hpanic => hpanic

/-! ## What the users of the controller are promised -/

/-- What is promised in a state of a run. -/
structure Delivered (capacity : ℕ) (policy : BatchPolicy) (intents : ℕ → ControllerIntent)
    (start : Database) (s : System) : Prop where
  /-- Every intent that the channel took is in one batch that was committed, in the batch that is
  gathered, or in the channel still, in the order of the channel. -/
  inOrder : intentsOf s.shared.sent = committed s.shared ++
    (s.place .worker).sealer.gathering.batch ++ intentsOf s.shared.queue
  once : (intentsOf s.shared.sent).Nodup
  /-- The call of an intent that the channel took went on with a ticket. -/
  admitted : ∀ id, id ∈ intentsOf s.shared.sent → CallPlace.after (s.place (.call id)) = true
  /-- The database is what the batches make of it, in their order. -/
  history : Applied intents start s.shared.decided s.shared.database
    (s.place .worker).materializer
  /-- A ticket is told the outcome at the position of its intent. -/
  own : ∀ call reply, (call, reply) ∈ s.shared.replies →
    ∃ (batch : List ℕ) (plan : MixedEpochPlan) (position : ℕ) (outcome : MixedEpochOutcome)
      (accepted : Bool), (batch, plan) ∈ s.shared.decided ∧
      batch[position]? = some call ∧ plan.outcomes[position]? = some outcome ∧
      route (intents call) outcome = some (reply, accepted)
  single : (s.shared.answered.map Prod.fst).Nodup
  heard : ∀ x ∈ s.shared.answered, x.1 ∈ s.shared.deaf ∨ x ∈ s.shared.replies
  /-- What a ticket is told is accepted is in a head that was published. -/
  published : ∀ call reply world, (call, reply) ∈ s.shared.replies →
    reply.world? = some world → world ∈ s.shared.published
  /-- A flush that returned `Ok` did so behind every intent sent before it. -/
  flush : ∀ id, s.place (.call id) = CallPlace.returned .flushed →
    ∃ before behind, s.shared.sent = before ++ .barrier id :: behind ∧
      ∀ call ∈ intentsOf before, s.shared.phase call = .resolved ∧
        call ∈ s.shared.answered.map Prod.fst
  /-- The worker goes on until everything is resolved. -/
  rest : ∃ t, Run (step capacity policy intents) (fun _ i _ => i = .worker) s t ∧
    t.shared.sent = s.shared.sent ∧ (AllResolved t ∨ CommitPanics intents t .worker)

/-- The reply to a call is what the outcome at its position is routed to. -/
theorem exists_of_mem_repliesOf {decided : List ℕ × MixedEpochPlan} {call : ℕ}
    {reply : TicketReply} (h : (call, reply) ∈ repliesOf intents decided) :
    ∃ (position : ℕ) (outcome : MixedEpochOutcome) (accepted : Bool),
      decided.1[position]? = some call ∧ decided.2.outcomes[position]? = some outcome ∧
        route (intents call) outcome = some (reply, accepted) := by
  unfold repliesOf at h
  obtain ⟨⟨k, outcome⟩, hmem, hroute⟩ := List.mem_filterMap.1 h
  obtain ⟨⟨reply', accepted⟩, hanswer, heq⟩ := Option.map_eq_some_iff.1 hroute
  obtain ⟨rfl, rfl⟩ := Prod.mk.inj heq
  obtain ⟨position, hposition⟩ := List.mem_iff_getElem?.1 hmem
  obtain ⟨hcall, houtcome⟩ := List.getElem?_zip_eq_some.1 hposition
  exact ⟨position, outcome, accepted, hcall, houtcome, hanswer⟩

/-- The replies that were sent are those of the batches, as far as the worker has come. -/
theorem Ledger.answered_of_mem {a : Shared} {w : Worker} (h : Ledger intents start a w)
    {x : ℕ × TicketReply} (hx : x ∈ a.answered) : x ∈ a.decided.flatMap (repliesOf intents) := by
  rw [← h.answers]
  exact List.mem_append_left _ hx

/-- No call is answered twice. -/
theorem Ledger.nodup_answered {a : Shared} {w : Worker} (h : Ledger intents start a w) :
    (a.answered.map Prod.fst).Nodup := by
  obtain ⟨taken, hsent, htaken, -⟩ := h.taken
  have hcommitted : (a.answered ++ sendsOf w.todo).map Prod.fst = committed a := by
    rw [h.answers, List.map_flatMap]
    exact List.flatMap_congr h.calls
  have hnodup := h.nodup
  rw [hsent, intentsOf_append, htaken, List.append_assoc, ← hcommitted, List.map_append,
    List.append_assoc] at hnodup
  exact (List.nodup_append.1 hnodup).1

/-- **What the invariant promises.** -/
theorem DeliveryKept.delivered {s : System} (h : DeliveryKept intents start s) :
    Delivered capacity policy intents start s := by
  have hledger := h.ledger
  refine ⟨?_, hledger.nodup, h.sent, hledger.applied, ?_, hledger.nodup_answered,
    hledger.received, ?_, ?_, h.comes_to_rest⟩
  · obtain ⟨taken, hsent, htaken, -⟩ := hledger.taken
    rw [hsent, intentsOf_append, htaken]
  · intro call reply hreply
    have hanswered := hledger.answered_of_mem (hledger.own _ hreply)
    obtain ⟨⟨batch, plan⟩, hdecided, hmem⟩ := List.mem_flatMap.1 hanswered
    obtain ⟨position, outcome, accepted, hcall, houtcome, hroute⟩ := exists_of_mem_repliesOf hmem
    exact ⟨batch, plan, position, outcome, accepted, hdecided, hcall, houtcome, hroute⟩
  · intro call reply world hreply hworld
    exact hledger.worlds _ (List.mem_append_left _ (hledger.own _ hreply)) world hworld
  · intro id hplace
    obtain ⟨before, behind, hsent, hbefore⟩ := hledger.flushed id (h.flushed id hplace)
    exact ⟨before, behind, hsent, fun call hcall => (hbefore call hcall).2⟩

/-- A call submits its intent, another one sends a barrier, and the first drops its ticket. -/
def droppedTicket : List (Thread × Choice) :=
  List.replicate 5 (.call 0, .submit) ++ [(.call 1, .flush), (.call 1, .go)] ++
    List.replicate 2 (.call 0, .abandon)

end ForthDB.Controller.Queued
