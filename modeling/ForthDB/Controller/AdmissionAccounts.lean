import ForthDB.Controller.Admission
import Mathlib.Data.List.Flatten

/-!
# The accounts of the admission worker

* `Accounts`: what was sent is what was claimed, in its order, and what is still in the
  worker's hands and in the channel; each ticket of an epoch has one reply on each of its
  channels, or is in the worker's hands.
* `Accounts.worker`: a step of the worker keeps them.
-/

namespace ForthDB

/-- The loop of `derive_vm_epoch` decides every intent. -/
theorem VmEpochMaterializer.EpochRun.length_intents {s s' : EpochRun} {is : List QueuedIntent}
    {ds : List Decision} (h : s.intents is = .ok (ds, s')) : ds.length = is.length := by
  induction is generalizing s ds with
  | nil => cases h; rfl
  | cons i is ih =>
    unfold EpochRun.intents at h
    cases hi : s.intent i with
    | error e => rw [hi] at h; cases h
    | ok r =>
      obtain ⟨d, s₁⟩ := r
      rw [hi] at h
      simp only at h
      cases hr : s₁.intents is with
      | error e => rw [hr] at h; cases h
      | ok r =>
        rw [hr] at h
        cases h
        exact congrArg (· + 1) (ih hr)

/-- **A materialized epoch** decides every intent. -/
theorem EpochMaterializer.materialize_decided {m m' : EpochMaterializer} {base : World}
    {is : List QueuedIntent} {vs : List Validator} {plan : EpochPlan}
    (h : m.materialize base is vs = .ok (plan, m')) : plan.Decided base is := by
  rcases EpochMaterializer.materialize_cases h with hd | ⟨-, vm, vm', -, hd⟩
  · unfold deriveEpochWorld at hd
    cases hk : base.kernel with
    | error e => rw [hk] at hd; cases hd
    | ok k =>
      rw [hk] at hd
      cases hd
      exact ⟨_, _, rfl, EpochWorkspace.length_intents _ vs is⟩
  · unfold VmEpochMaterializer.deriveVmEpoch at hd
    simp only at hd
    split at hd
    · cases hd
    · split at hd
      · cases hd
      · rename_i ds s hrun
        cases hd
        exact ⟨_, _, rfl, VmEpochMaterializer.EpochRun.length_intents hrun⟩

namespace Controller.Admission

variable {maxBatch maxUnapplied : ℕ} {intents : Ticket → QueuedIntent}

/-- The tickets of commands. -/
def tickets (commands : List Command) : List Ticket := commands.flatMap Command.tickets

/-- The tickets of epochs. -/
def stagedOf (epochs : List StagedEpoch) : List Ticket := epochs.flatMap (·.staged)

@[simp] theorem tickets_append (xs ys : List Command) :
    tickets (xs ++ ys) = tickets xs ++ tickets ys := List.flatMap_append

@[simp] theorem tickets_singleton (c : Command) : tickets [c] = c.tickets := by simp [tickets]

@[simp] theorem stagedOf_append (xs ys : List StagedEpoch) :
    stagedOf (xs ++ ys) = stagedOf xs ++ stagedOf ys := List.flatMap_append

@[simp] theorem stagedOf_cons (e : StagedEpoch) (es : List StagedEpoch) :
    stagedOf (e :: es) = e.staged ++ stagedOf es := List.flatMap_cons

@[simp] theorem stagedOf_nil : stagedOf [] = [] := rfl

/-- The tickets that are told whether they are admitted. -/
def admissionsOf (messages : List Message) : List Ticket :=
  messages.filterMap fun
    | .admission ticket _ => some ticket
    | .outcome _ _ => none

/-- The tickets that are told their outcome. -/
def outcomesOf (messages : List Message) : List Ticket :=
  messages.filterMap fun
    | .admission _ _ => none
    | .outcome ticket _ => some ticket

@[simp] theorem admissionsOf_append (xs ys : List Message) :
    admissionsOf (xs ++ ys) = admissionsOf xs ++ admissionsOf ys := List.filterMap_append

@[simp] theorem outcomesOf_append (xs ys : List Message) :
    outcomesOf (xs ++ ys) = outcomesOf xs ++ outcomesOf ys := List.filterMap_append

@[simp] theorem admissionsOf_nil : admissionsOf [] = [] := rfl

@[simp] theorem outcomesOf_nil : outcomesOf [] = [] := rfl

@[simp] theorem admissionsOf_notify (e : StagedEpoch) :
    admissionsOf (notifyAdmitted e) = e.staged := by
  unfold admissionsOf notifyAdmitted
  rw [List.filterMap_map]
  show (e.staged.zipIdx.filterMap fun x => some x.1) = e.staged
  rw [List.filterMap_eq_map', List.zipIdx_map_fst]

@[simp] theorem outcomesOf_notify (e : StagedEpoch) : outcomesOf (notifyAdmitted e) = [] := by
  unfold outcomesOf notifyAdmitted
  rw [List.filterMap_map, List.filterMap_eq_nil_iff]
  exact fun _ _ => rfl

@[simp] theorem admissionsOf_failBatch (e : StagedEpoch) (error : String) :
    admissionsOf (failBatch e error) = e.staged := by
  obtain ⟨id, staged⟩ := e
  unfold admissionsOf failBatch
  induction staged with
  | nil => rfl
  | cons t ts ih => exact congrArg (t :: ·) ih

@[simp] theorem outcomesOf_failBatch (e : StagedEpoch) (error : String) :
    outcomesOf (failBatch e error) = e.staged := by
  obtain ⟨id, staged⟩ := e
  unfold outcomesOf failBatch
  induction staged with
  | nil => rfl
  | cons t ts ih => exact congrArg (t :: ·) ih

@[simp] theorem admissionsOf_failOutcomes (e : StagedEpoch) (error : String) :
    admissionsOf (failOutcomes e error) = [] := by
  unfold admissionsOf failOutcomes
  rw [List.filterMap_map, List.filterMap_eq_nil_iff]
  exact fun _ _ => rfl

@[simp] theorem outcomesOf_failOutcomes (e : StagedEpoch) (error : String) :
    outcomesOf (failOutcomes e error) = e.staged := by
  unfold outcomesOf failOutcomes
  rw [List.filterMap_map]
  exact List.filterMap_some

@[simp] theorem admissionsOf_backlog (es : List StagedEpoch) (error : String) :
    admissionsOf (es.flatMap (failOutcomes · error)) = [] := by
  induction es with
  | nil => rfl
  | cons e es ih => simpa using ih

@[simp] theorem outcomesOf_backlog (es : List StagedEpoch) (error : String) :
    outcomesOf (es.flatMap (failOutcomes · error)) = stagedOf es := by
  induction es with
  | nil => rfl
  | cons e es ih => simpa using ih

@[simp] theorem admissionsOf_route (e : StagedEpoch) (plan : EpochPlan) :
    admissionsOf (routeOutcomes e plan) = [] := by
  unfold admissionsOf routeOutcomes
  rw [List.filterMap_map, List.filterMap_eq_nil_iff]
  rintro ⟨⟨t, o⟩, i⟩ -
  cases o <;> rfl

/-- **Every ticket of a materialized epoch** is told its outcome. -/
theorem outcomesOf_route {e : StagedEpoch} {plan : EpochPlan}
    (h : plan.outcomes.length = e.staged.length) : outcomesOf (routeOutcomes e plan) = e.staged := by
  have hsome : outcomesOf (routeOutcomes e plan) =
      ((e.staged.zip plan.outcomes).zipIdx.map fun x => x.1.1) := by
    unfold outcomesOf routeOutcomes
    rw [List.filterMap_map, ← List.filterMap_eq_map]
    refine List.filterMap_congr ?_
    rintro ⟨⟨t, o⟩, i⟩ -
    cases o <;> rfl
  have hfst : ((e.staged.zip plan.outcomes).zipIdx.map fun x => x.1.1) =
      ((e.staged.zip plan.outcomes).zipIdx.map Prod.fst).map Prod.fst := by
    rw [List.map_map]
    rfl
  rw [hsome, hfst, List.zipIdx_map_fst, List.map_fst_zip h.ge]

/-! ## What the worker has in its hands -/

namespace Phase

/-- The tickets that are claimed for an epoch that has no number yet. -/
@[simp] def batch : Phase → List Ticket
  | .claim _ tickets | .submit _ tickets => tickets
  | .deliver _ next => next.batch
  | _ => []

/-- The epoch that is in flight. -/
@[simp] def inFlight : Phase → Option PendingAdmission
  | .complete pending => some pending
  | .materialize _ successor | .publish _ _ successor => successor
  | .applied successor | .abandon successor _ => successor
  | .deliver _ next => next.inFlight
  | _ => none

/-- The epoch that was taken from the backlog. -/
@[simp] def durable : Phase → List StagedEpoch
  | .claim (.beside e) _ | .submit (.beside e) _ | .materialize e _ | .publish e _ _ => [e]
  | .deliver _ next => next.durable
  | _ => []

/-- The replies that are under way. -/
@[simp] def messages : Phase → List Message
  | .deliver ms next => ms ++ next.messages
  | _ => []

/-- The worker has not failed. -/
@[simp] def Running : Phase → Prop
  | .abandon _ _ | .returned | .close | .done => False
  | .deliver _ next => next.Running
  | _ => True

/-- The worker writes no more. -/
@[simp] def Ends : Phase → Prop
  | .returned | .close | .done => True
  | .deliver _ next => next.Ends
  | _ => False

/-- The channel is gone. -/
@[simp] def Gone : Phase → Prop
  | .close | .done => True
  | .deliver _ next => next.Gone
  | _ => False

/-- The worker collects a batch. -/
@[simp] def Claiming : Phase → Prop
  | .claim _ _ => True
  | .deliver _ next => next.Claiming
  | _ => False

/-- The tickets of the epoch in flight. -/
def flight (p : Phase) : List StagedEpoch := p.inFlight.toList.map (·.batch)

end Phase

/-- What was claimed, written, materialized and answered so far, from the epoch `first` on. -/
structure Accounts (first : ℕ) (a : Shared) (w : Worker) (p : Phase) : Prop where
  sent : ¬ p.Gone → ∃ taken, a.sent = taken ++ w.pending ++ a.queue ∧
    tickets taken = stagedOf a.attempted ++ p.batch ∧
    ∀ call, w.barrier = some call → .barrier call ∈ taken
  pending : ∀ c ∈ w.pending, ∀ t, c ≠ .intent t
  claiming : p.Claiming → w.pending = []
  ids : a.attempted.map StagedEpoch.id = List.range' first a.attempted.length
  nextEpoch : w.nextEpoch = first + a.attempted.length
  flying : ¬ p.Ends → a.attempted = a.written ++ p.flight
  written : a.written <+: a.attempted
  materialised : a.materialised.map Prod.fst <+: a.written
  running : p.Running → a.written = a.materialised.map Prod.fst ++ p.durable ++ w.backlog
  admitted : a.admissions.map Prod.fst ++ admissionsOf p.messages ++ stagedOf p.flight =
    stagedOf a.attempted
  answered : (a.outcomes.map Prod.fst ++ outcomesOf p.messages ++
    stagedOf (p.durable ++ w.backlog ++ p.flight)).Perm (stagedOf a.attempted)

section Accounts

variable {first : ℕ} {a a' : Shared} {w w' : Worker} {p p' : Phase}

/-- The channel side of the accounts, between phases with the same epochs and replies. -/
theorem Accounts.channel (h : Accounts first a w p) {queue pending : List Command}
    {barrier : Option ℕ}
    (hsent : ¬ p'.Gone → ∃ taken, a.sent = taken ++ pending ++ queue ∧
      tickets taken = stagedOf a.attempted ++ p'.batch ∧
      ∀ call, barrier = some call → .barrier call ∈ taken)
    (hpending : ∀ c ∈ pending, ∀ t, c ≠ .intent t) (hclaiming : p'.Claiming → pending = [])
    (hflight : p'.inFlight = p.inFlight) (hdurable : p'.durable = p.durable)
    (hmessages : p'.messages = p.messages) (hrunning : p'.Running → p.Running)
    (hends : p.Ends → p'.Ends) :
    Accounts first { a with queue := queue } { w with pending := pending, barrier := barrier } p' where
  sent := hsent
  pending := hpending
  claiming := hclaiming
  ids := h.ids
  nextEpoch := h.nextEpoch
  flying := fun he => by
    unfold Phase.flight
    rw [hflight]
    exact h.flying fun hp => he (hends hp)
  written := h.written
  materialised := h.materialised
  running := fun hr => by rw [hdurable]; exact h.running (hrunning hr)
  admitted := by
    unfold Phase.flight
    rw [hmessages, hflight]
    exact h.admitted
  answered := by
    unfold Phase.flight
    rw [hmessages, hflight, hdurable]
    exact h.answered

/-- The phase does not matter but for what the worker has in its hands. -/
theorem Accounts.phase (h : Accounts first a w p) (hbatch : p'.batch = p.batch)
    (hflight : p'.inFlight = p.inFlight) (hdurable : p'.durable = p.durable)
    (hmessages : p'.messages = p.messages) (hrunning : p'.Running → p.Running)
    (hends : p.Ends → p'.Ends) (hgone : p.Gone → p'.Gone) (hclaiming : p'.Claiming → w.pending = []) :
    Accounts first a w p' :=
  h.channel (fun hg => by rw [hbatch]; exact h.sent fun hp => hg (hgone hp)) h.pending hclaiming
    hflight hdurable hmessages hrunning hends

/-- What `nextCommand` gives. -/
theorem nextCommand_cases {waits : Bool} {o : Option Command}
    (h : nextCommand waits a w = some (o, a', w')) :
    (o = none ∧ a' = a ∧ ∃ b, w' = { w with disconnected := b }) ∨
    (∃ c pending, o = some c ∧ w.pending = c :: pending ∧ a' = a ∧ w' = { w with pending := pending }) ∨
    (∃ c queue, o = some c ∧ w.pending = [] ∧ a.queue = c :: queue ∧ a' = { a with queue := queue } ∧
      w' = w) := by
  unfold nextCommand at h
  split at h
  · rename_i c pending hp
    cases h
    exact .inr (.inl ⟨c, pending, rfl, hp, rfl, rfl⟩)
  · rename_i hp
    split at h
    · rename_i c queue hq
      cases h
      exact .inr (.inr ⟨c, queue, rfl, hp, hq, rfl, rfl⟩)
    · split at h
      · cases h
        exact .inl ⟨rfl, rfl, true, rfl⟩
      · split at h
        · cases h
        · cases h
          exact .inl ⟨rfl, rfl, w.disconnected, rfl⟩

/-- The flag of a lost channel is not accounted. -/
theorem Accounts.disconnected (h : Accounts first a w p) (b : Bool) :
    Accounts first a { w with disconnected := b } p :=
  ⟨h.sent, h.pending, h.claiming, h.ids, h.nextEpoch, h.flying, h.written, h.materialised,
    h.running, h.admitted, h.answered⟩

/-- **The worker takes a command** where it looked for one. -/
theorem Accounts.dispatch (purpose : Purpose) (h : Accounts first a w purpose.without)
    {waits : Bool} {c : Command} (hc : nextCommand waits a w = some (some c, a', w')) :
    Accounts first a' (dispatch purpose w' c).1 (dispatch purpose w' c).2 := by
  have hwithout : purpose.without.batch = [] ∧ purpose.without.inFlight = none ∧
      purpose.without.messages = [] ∧ ¬ purpose.without.Gone ∧ ¬ purpose.without.Ends ∧
      purpose.without.Running := by
    cases purpose <;> simp [Purpose.without]
  obtain ⟨hbatch, hflight, hmessages, hgone, hends, hrunning⟩ := hwithout
  obtain ⟨taken, hsent, htaken, hbarrier⟩ := h.sent hgone
  rw [hbatch, List.append_nil] at htaken
  -- what the worker took, and what is left of the rest
  have hnext : ∃ pending queue, { a with queue := queue } = a' ∧ { w with pending := pending } = w' ∧
      a.sent = (taken ++ [c]) ++ pending ++ queue ∧
      (∀ x ∈ pending, ∀ t, x ≠ .intent t) ∧ (∀ t, c = .intent t → pending = []) := by
    rcases nextCommand_cases hc with ⟨ho, -⟩ | ⟨c', pending, ho, hp, ha, rfl⟩ |
        ⟨c', queue, ho, hp, hq, rfl, hw⟩
    · cases ho
    · cases ho
      refine ⟨pending, a.queue, ha.symm, rfl, by simp [hsent, hp], fun x hx => ?_, fun t ht => ?_⟩
      · exact h.pending x (by rw [hp]; exact List.mem_cons_of_mem _ hx)
      · exact absurd ht (h.pending c (by rw [hp]; exact List.mem_cons_self) t)
    · cases ho
      exact ⟨[], queue, rfl, by rw [hw, ← hp], by simp [hsent, hp, hq], by simp, fun _ _ => rfl⟩
  obtain ⟨pending, queue, rfl, rfl, hsent', hpending, hclear⟩ := hnext
  have htickets : tickets (taken ++ [c]) = stagedOf a.attempted ++ c.tickets := by
    rw [tickets_append, tickets_singleton, htaken]
  have hset : ∀ call, w.barrier = some call → .barrier call ∈ taken ++ [c] := fun call hb =>
    List.mem_append_left _ (hbarrier call hb)
  cases c with
  | barrier call =>
    refine h.channel (fun _ => ⟨_, hsent', htickets.trans (congrArg _ hbatch.symm), fun b hb => ?_⟩)
      hpending (fun hcl => ?_) rfl rfl rfl id id
    · cases hb
      exact List.mem_append_right _ List.mem_cons_self
    · cases purpose <;> exact hcl.elim
  | intent t =>
    refine h.channel (fun _ => ⟨_, hsent', htickets, hset⟩) hpending (fun _ => hclear t rfl)
      hflight.symm ?_ hmessages.symm (fun _ => hrunning) fun he => (hends he).elim
    cases purpose <;> rfl
  | epoch ts =>
    refine h.channel (fun _ => ⟨_, hsent', htickets, hset⟩) hpending (fun hcl => hcl.elim)
      hflight.symm ?_ hmessages.symm (fun _ => hrunning) fun he => (hends he).elim
    cases purpose <;> rfl

/-- What was written and materialized, and where its tickets are. What was sent and what was
handed to the journal stays. -/
theorem Accounts.settle (h : Accounts first a w p)
    (hchannel : a'.sent = a.sent ∧ a'.queue = a.queue ∧ a'.attempted = a.attempted)
    (hworker : w'.pending = w.pending ∧ w'.barrier = w.barrier ∧ w'.nextEpoch = w.nextEpoch)
    (hplace : p'.batch = p.batch ∧ ¬ p.Gone ∧ ¬ p'.Claiming)
    (hflying : ¬ p'.Ends → a.attempted = a'.written ++ p'.flight)
    (hwritten : a'.written <+: a.attempted)
    (hmaterialised : a'.materialised.map Prod.fst <+: a'.written)
    (hrunning : p'.Running → a'.written = a'.materialised.map Prod.fst ++ p'.durable ++ w'.backlog)
    (hadmitted : a'.admissions.map Prod.fst ++ admissionsOf p'.messages ++ stagedOf p'.flight =
      a.admissions.map Prod.fst ++ admissionsOf p.messages ++ stagedOf p.flight)
    (hanswered : (a'.outcomes.map Prod.fst ++ outcomesOf p'.messages ++
      stagedOf (p'.durable ++ w'.backlog ++ p'.flight)).Perm (a.outcomes.map Prod.fst ++
        outcomesOf p.messages ++ stagedOf (p.durable ++ w.backlog ++ p.flight))) :
    Accounts first a' w' p' := by
  obtain ⟨hsent, hqueue, hattempted⟩ := hchannel
  obtain ⟨hpending, hbarrier, hnext⟩ := hworker
  obtain ⟨hbatch, hgone, hclaiming⟩ := hplace
  constructor
  · intro _
    rw [hsent, hqueue, hattempted, hpending, hbarrier, hbatch]
    exact h.sent hgone
  · rw [hpending]
    exact h.pending
  · exact fun hc => (hclaiming hc).elim
  · rw [hattempted]
    exact h.ids
  · rw [hattempted, hnext]
    exact h.nextEpoch
  · rw [hattempted]
    exact hflying
  · rw [hattempted]
    exact hwritten
  · exact hmaterialised
  · exact hrunning
  · rw [hattempted, hadmitted]
    exact h.admitted
  · rw [hattempted]
    exact hanswered.trans h.answered

/-- **The inner loop.** -/
theorem Accounts.fill (h : Accounts first a w .fill)
    (hs : workerStep maxBatch maxUnapplied intents a w .fill = some (a', w', p')) :
    Accounts first a' w' p' := by
  have hpop : Accounts first a w .pop :=
    h.phase rfl rfl rfl rfl id id id fun hc => hc.elim
  simp only [workerStep] at hs
  split at hs
  · split at hs
    · cases hs
    · rename_i hnext
      cases hs
      rcases nextCommand_cases hnext with ⟨-, rfl, b, rfl⟩ | ⟨_, _, ho, -⟩ | ⟨_, _, ho, -⟩
      · exact hpop.disconnected b
      · cases ho
      · cases ho
    · rename_i hnext
      have hdone := Accounts.dispatch .fill hpop hnext
      simp only [Option.some.injEq, Prod.mk.injEq] at hs
      obtain ⟨rfl, hd⟩ := hs
      rw [hd] at hdone
      exact hdone
  · cases hs
    exact hpop

/-- **The loop of `claim_batch`.** It stops at the first command that is no intent. -/
theorem Accounts.claim {purpose : Purpose} {batch : List Ticket}
    (h : Accounts first a w (.claim purpose batch))
    (hs : workerStep maxBatch maxUnapplied intents a w (.claim purpose batch) = some (a', w', p')) :
    Accounts first a' w' p' := by
  have hsubmit : Accounts first a w (.submit purpose batch) := by
    refine h.phase rfl rfl ?_ rfl id id id fun hc => hc.elim
    cases purpose <;> rfl
  obtain ⟨taken, hsent, htaken, hbarrier⟩ := h.sent (by simp)
  have hpending := h.claiming trivial
  rw [hpending, List.append_nil] at hsent
  simp only [workerStep] at hs
  split at hs
  · split at hs
    · rename_i t queue hq
      cases hs
      refine h.channel (fun _ => ⟨taken ++ [.intent t], ?_, ?_, fun b hb => ?_⟩) h.pending
        (fun _ => hpending) rfl ?_ rfl id id
      · rw [hpending, hsent, hq]
        simp
      · rw [tickets_append, tickets_singleton, htaken]
        simp
      · exact List.mem_append_left _ (hbarrier b hb)
      · cases purpose <;> rfl
    · rename_i c queue hc hq
      cases hs
      refine hsubmit.channel (fun _ => ⟨taken, ?_, htaken, hbarrier⟩) ?_ (fun hcl => hcl.elim)
        rfl rfl rfl id id
      · rw [hpending, hsent, hq]
        simp
      · intro x hx t ht
        rw [hpending] at hx
        obtain rfl := List.mem_singleton.1 hx
        exact hc t ht
    · cases hs
      exact hsubmit
  · cases hs
    exact hsubmit

/-- What `submit_admission` leaves. -/
theorem submitAdmission_cases (intents : Ticket → QueuedIntent) (w : Worker) (e : StagedEpoch) :
    (∃ io, submitAdmission intents w e = (.ok ⟨e, w.fileLen⟩, { w with io := io })) ∨
    ∃ error io, submitAdmission intents w e = (.error error, { w with io := io }) := by
  unfold submitAdmission
  split
  · exact .inl ⟨_, rfl⟩
  · exact .inr ⟨_, _, rfl⟩

/-- What `complete_admission` leaves. -/
theorem completeAdmission_cases (intents : Ticket → QueuedIntent) (w : Worker)
    (pending : PendingAdmission) :
    (∃ io fileLen, completeAdmission intents w pending =
      (.ok (), { w with io := io, fileLen := fileLen })) ∨
    ∃ error io, completeAdmission intents w pending = (.error error, { w with io := io }) := by
  unfold completeAdmission
  simp only
  split
  · exact .inl ⟨_, _, rfl⟩
  · split
    · exact .inr ⟨_, _, rfl⟩
    · exact .inr ⟨_, _, rfl⟩

/-- **An epoch is numbered** and handed to the journal. -/
theorem Accounts.attempt {purpose : Purpose} {staged : List Ticket} {io : EpochFileIo}
    {backlog : List StagedEpoch} (h : Accounts first a w (.submit purpose staged))
    (hplace : p'.batch = [] ∧ ¬ p'.Gone ∧ ¬ p'.Claiming)
    (hflying : ¬ p'.Ends → p'.flight = [⟨w.nextEpoch, staged⟩])
    (hrunning : p'.Running → p'.durable = purpose.without.durable ∧ backlog = w.backlog)
    (hadmitted : admissionsOf p'.messages ++ stagedOf p'.flight = staged)
    (hanswered : (outcomesOf p'.messages ++ stagedOf (p'.durable ++ backlog ++ p'.flight)).Perm
      (stagedOf (purpose.without.durable ++ w.backlog) ++ staged)) :
    Accounts first { a with attempted := a.attempted ++ [⟨w.nextEpoch, staged⟩] }
      { w with nextEpoch := w.nextEpoch + 1, io := io, backlog := backlog } p' := by
  obtain ⟨hbatch, hgone, hclaiming⟩ := hplace
  have hdurable : (Phase.submit purpose staged).durable = purpose.without.durable := by
    cases purpose <;> rfl
  -- nothing was in flight, so that everything was written
  have hall : a.attempted = a.written := by simpa [Phase.flight] using h.flying (by simp)
  have hadm : a.admissions.map Prod.fst = stagedOf a.attempted := by
    simpa [Phase.flight] using h.admitted
  have hans : (a.outcomes.map Prod.fst ++ stagedOf (purpose.without.durable ++ w.backlog)).Perm
      (stagedOf a.attempted) := by
    have hthen := h.answered
    rw [hdurable] at hthen
    simpa [Phase.flight] using hthen
  have hnew : stagedOf (a.attempted ++ [⟨w.nextEpoch, staged⟩]) = stagedOf a.attempted ++ staged := by
    simp
  constructor
  · intro _
    obtain ⟨taken, hsent, htaken, hbarrier⟩ := h.sent (by simp)
    refine ⟨taken, hsent, ?_, hbarrier⟩
    rw [hbatch, htaken, hnew, List.append_nil]
    rfl
  · exact h.pending
  · exact fun hc => (hclaiming hc).elim
  · show (a.attempted ++ [_]).map StagedEpoch.id = _
    rw [List.map_append, h.ids, List.length_append, List.length_singleton, List.range'_1_concat,
      h.nextEpoch]
    rfl
  · show w.nextEpoch + 1 = _
    rw [h.nextEpoch, List.length_append, List.length_singleton, Nat.add_assoc]
  · intro he
    rw [hflying he, ← hall]
  · exact h.written.trans (List.prefix_append _ _)
  · exact h.materialised
  · intro hr
    obtain ⟨hd, hb⟩ := hrunning hr
    have hwas := h.running trivial
    rw [hdurable] at hwas
    rw [hd, hwas]
    simp only [hb]
  · show a.admissions.map Prod.fst ++ _ ++ _ = stagedOf (a.attempted ++ [_])
    rw [List.append_assoc, hadmitted, hadm, hnew]
  · show (a.outcomes.map Prod.fst ++ _ ++ _).Perm (stagedOf (a.attempted ++ [_]))
    rw [List.append_assoc, hnew]
    refine (hanswered.append_left _).trans ?_
    rw [← List.append_assoc]
    exact hans.append_right staged

theorem Accounts.submit {purpose : Purpose} {staged : List Ticket}
    (h : Accounts first a w (.submit purpose staged))
    (hs : workerStep maxBatch maxUnapplied intents a w (.submit purpose staged) = some (a', w', p')) :
    Accounts first a' w' p' := by
  simp only [workerStep] at hs
  rcases submitAdmission_cases intents { w with nextEpoch := w.nextEpoch + 1 }
      ⟨w.nextEpoch, staged⟩ with ⟨io, hsub⟩ | ⟨error, io, hsub⟩
  · rw [hsub] at hs
    cases purpose with
    | fill =>
      cases hs
      exact h.attempt (by simp) (by simp [Phase.flight]) (by simp [Purpose.without])
        (by simp [Phase.flight]) (by simp [Phase.flight, Purpose.without])
    | beside durable =>
      cases hs
      exact h.attempt (by simp) (by simp [Phase.flight]) (by simp [Purpose.without])
        (by simp [Phase.flight]) (by simp [Phase.flight, Purpose.without])
  · have hcomm : (staged ++ stagedOf (purpose.without.durable ++ w.backlog)).Perm
        (stagedOf (purpose.without.durable ++ w.backlog) ++ staged) := List.perm_append_comm
    rw [hsub] at hs
    cases purpose with
    | fill =>
      cases hs
      exact h.attempt (by simp) (by simp) (by simp) (by simp [Phase.flight, failBacklog])
        (by simpa [Phase.flight, failBacklog, Purpose.without] using hcomm)
    | beside durable =>
      cases hs
      exact h.attempt (by simp) (by simp) (by simp) (by simp [Phase.flight, failBacklog])
        (by simpa [Phase.flight, failBacklog, Purpose.without] using hcomm)

theorem Accounts.complete {pending : PendingAdmission} (h : Accounts first a w (.complete pending))
    (hs : workerStep maxBatch maxUnapplied intents a w (.complete pending) = some (a', w', p')) :
    Accounts first a' w' p' := by
  have hflying : a.attempted = a.written ++ [pending.batch] := h.flying (by simp)
  have hrun : a.written = a.materialised.map Prod.fst ++ w.backlog := by
    simpa using h.running trivial
  simp only [workerStep] at hs
  rcases completeAdmission_cases intents w pending with ⟨io, fileLen, hcom⟩ |
      ⟨error, io, hcom⟩
  · rw [hcom] at hs
    cases hs
    refine h.settle ⟨rfl, rfl, rfl⟩ ⟨rfl, rfl, rfl⟩ (by simp) (fun _ => ?_) ?_ ?_ (fun _ => ?_)
      (by simp [Phase.flight]) (by simp [Phase.flight])
    · simpa [Phase.flight] using hflying
    · rw [hflying]
    · exact h.materialised.trans (List.prefix_append _ _)
    · show a.written ++ _ = _
      rw [hrun]
      simp
  · rw [hcom] at hs
    cases hs
    refine h.settle ⟨rfl, rfl, rfl⟩ ⟨rfl, rfl, rfl⟩ (by simp) (by simp) h.written h.materialised
      (by simp) (by simp [Phase.flight, failBacklog]) ?_
    have hcomm := (List.perm_append_comm : (pending.batch.staged ++ stagedOf w.backlog).Perm _)
    simpa [Phase.flight, failBacklog] using hcomm.append_left (a.outcomes.map Prod.fst)

/-- **The oldest durable epoch** is taken from the backlog; without one, the barrier is
answered. -/
theorem Accounts.pop (h : Accounts first a w .pop)
    (hs : workerStep maxBatch maxUnapplied intents a w .pop = some (a', w', p')) :
    Accounts first a' w' p' := by
  simp only [workerStep] at hs
  split at hs
  · rename_i durable backlog hb
    -- the epoch in the worker's hand
    have htaken : Accounts first a { w with backlog := backlog } (.materialize durable none) := by
      refine h.settle ⟨rfl, rfl, rfl⟩ ⟨rfl, rfl, rfl⟩ (by simp) (fun _ => ?_) h.written h.materialised
        (fun _ => ?_) (by simp [Phase.flight]) (by simp [Phase.flight, hb])
      · simpa [Phase.flight] using h.flying (by simp)
      · have hrun := h.running trivial
        rw [hb] at hrun
        simpa using hrun
    split at hs
    · split at hs
      · cases hs
      · rename_i hnext
        cases hs
        rcases nextCommand_cases hnext with ⟨-, rfl, b, rfl⟩ | ⟨_, _, ho, -⟩ | ⟨_, _, ho, -⟩
        · exact htaken.disconnected b
        · cases ho
        · cases ho
      · rename_i hnext
        have hdone := Accounts.dispatch (.beside durable) htaken hnext
        simp only [Option.some.injEq, Prod.mk.injEq] at hs
        obtain ⟨rfl, hd⟩ := hs
        rw [hd] at hdone
        exact hdone
    · cases hs
      exact htaken
  · rename_i hb
    split at hs
    · rename_i call hbar
      cases hs
      have hfill : Accounts first a { w with barrier := none } .fill :=
        h.channel (fun hg => by
          obtain ⟨taken, hsent, htaken, -⟩ := h.sent hg
          exact ⟨taken, hsent, htaken, fun _ hc => (by cases hc)⟩) h.pending (fun hc => hc.elim)
          rfl rfl rfl id id
      exact ⟨hfill.sent, hfill.pending, hfill.claiming, hfill.ids, hfill.nextEpoch, hfill.flying,
        hfill.written, hfill.materialised, hfill.running, hfill.admitted, hfill.answered⟩
    · split at hs
      · cases hs
        exact h.phase rfl rfl rfl rfl (fun hr => hr.elim) (fun he => he.elim) id fun hc => hc.elim
      · cases hs
        exact h.phase rfl rfl rfl rfl id id id fun hc => hc.elim

/-- **An epoch is materialized**: its tickets have their outcomes. -/
theorem Accounts.route {durable : StagedEpoch} {successor : Option PendingAdmission}
    {plan : EpochPlan} {m : EpochMaterializer} {current : World} {published : List World}
    (h : Accounts first a w p) (hp : p = .materialize durable successor ∨
      p = .publish durable plan successor)
    (hlength : plan.outcomes.length = durable.staged.length) :
    Accounts first
      { a with
        current := current
        published := published
        materialised := a.materialised ++ [(durable, plan)] }
      { w with materializer := m } (.deliver (routeOutcomes durable plan) (.applied successor)) := by
  have hphase : p.batch = [] ∧ ¬ p.Gone ∧ ¬ p.Ends ∧ p.Running ∧ p.messages = [] ∧
      p.inFlight = successor ∧ p.durable = [durable] := by
    rcases hp with rfl | rfl <;> simp
  obtain ⟨hbatch, hgone, hends, hrunning, hmessages, hflight, hdurable⟩ := hphase
  have hrun := h.running hrunning
  rw [hdurable] at hrun
  have hroute := outcomesOf_route hlength
  refine h.settle ⟨rfl, rfl, rfl⟩ ⟨rfl, rfl, rfl⟩ ⟨by simp [hbatch], hgone, by simp⟩ (fun _ => ?_)
    h.written ?_ (fun _ => ?_) ?_ ?_
  · have hfly := h.flying hends
    unfold Phase.flight at hfly ⊢
    rw [hflight] at hfly
    exact hfly
  · show (a.materialised ++ [_]).map Prod.fst <+: a.written
    rw [hrun, List.map_append]
    exact List.prefix_append _ _
  · rw [hrun]
    simp
  · simp [Phase.flight, hflight, hmessages]
  · simp only [Phase.flight, Phase.messages, Phase.durable, Phase.inFlight, hmessages, hdurable,
      hflight, hroute, List.append_nil, stagedOf_append, stagedOf_cons, stagedOf_nil,
      outcomesOf_nil, List.nil_append, List.append_assoc]
    exact List.Perm.refl _

/-- The count of applied epochs is not accounted. -/
theorem Accounts.applied {successor : Option PendingAdmission}
    (h : Accounts first a w (.applied successor))
    (hs : workerStep maxBatch maxUnapplied intents a w (.applied successor) = some (a', w', p')) :
    Accounts first a' w' p' := by
  cases hs
  have hafter : Accounts first a w (afterMaterialize successor) := by
    cases successor with
    | none => exact h.phase rfl rfl rfl rfl id id id fun hc => hc.elim
    | some pending => exact h.phase rfl rfl rfl rfl id id id fun hc => hc.elim
  exact ⟨hafter.sent, hafter.pending, hafter.claiming, hafter.ids, hafter.nextEpoch, hafter.flying,
    hafter.written, hafter.materialised, hafter.running, hafter.admitted, hafter.answered⟩

theorem Accounts.materialize {durable : StagedEpoch} {successor : Option PendingAdmission}
    (h : Accounts first a w (.materialize durable successor))
    (hs : workerStep maxBatch maxUnapplied intents a w (.materialize durable successor) =
      some (a', w', p')) : Accounts first a' w' p' := by
  simp only [workerStep] at hs
  split at hs
  · rename_i plan m hm
    have hlength : plan.outcomes.length = durable.staged.length := by
      rw [(EpochMaterializer.materialize_decided hm).outcomes.1, List.length_map]
    split at hs
    · cases hs
      exact h.route (.inl rfl) hlength
    · cases hs
      refine h.settle ⟨rfl, rfl, rfl⟩ ⟨rfl, rfl, rfl⟩ (by simp) (fun _ => ?_) h.written
        h.materialised (fun _ => h.running trivial) (by simp [Phase.flight]) (by simp [Phase.flight])
      simpa [Phase.flight] using h.flying (by simp)
  · rename_i halt hm
    cases hs
    refine h.settle ⟨rfl, rfl, rfl⟩ ⟨rfl, rfl, rfl⟩ (by simp) (fun _ => ?_) h.written h.materialised
      (fun hr => hr.elim) (by simp [Phase.flight]) (by simp [Phase.flight])
    simpa [Phase.flight] using h.flying (by simp)

theorem Accounts.publish {durable : StagedEpoch} {successor : Option PendingAdmission}
    {plan : EpochPlan} (h : Accounts first a w (.publish durable plan successor))
    (hlength : plan.outcomes.length = durable.staged.length)
    (hs : workerStep maxBatch maxUnapplied intents a w (.publish durable plan successor) =
      some (a', w', p')) : Accounts first a' w' p' := by
  cases hs
  exact h.route (.inr rfl) hlength

/-- **After a failed materialization** the successor is completed, and its tickets fail. -/
theorem Accounts.abandon {successor : Option PendingAdmission} {error : String}
    (h : Accounts first a w (.abandon successor error))
    (hs : workerStep maxBatch maxUnapplied intents a w (.abandon successor error) =
      some (a', w', p')) : Accounts first a' w' p' := by
  cases successor with
  | none =>
    cases hs
    refine h.settle ⟨rfl, rfl, rfl⟩ ⟨rfl, rfl, rfl⟩ (by simp) (by simp) h.written h.materialised
      (by simp) (by simp [Phase.flight, failBacklog]) (by simp [Phase.flight, failBacklog])
  | some pending =>
    have hflying : a.attempted = a.written ++ [pending.batch] := h.flying (by simp)
    have hcomm := (List.perm_append_comm : (pending.batch.staged ++ stagedOf w.backlog).Perm _)
    simp only [workerStep] at hs
    rcases completeAdmission_cases intents w pending with ⟨io, fileLen, hcom⟩ |
        ⟨failure, io, hcom⟩
    · rw [hcom] at hs
      cases hs
      refine h.settle ⟨rfl, rfl, rfl⟩ ⟨rfl, rfl, rfl⟩ (by simp) (by simp) (by rw [hflying])
        (h.materialised.trans (List.prefix_append _ _)) (by simp) (by simp [Phase.flight, failBacklog]) ?_
      simpa [Phase.flight, failBacklog] using hcomm.append_left (a.outcomes.map Prod.fst)
    · rw [hcom] at hs
      cases hs
      refine h.settle ⟨rfl, rfl, rfl⟩ ⟨rfl, rfl, rfl⟩ (by simp) (by simp) h.written h.materialised
        (by simp) (by simp [Phase.flight, failBacklog]) ?_
      simpa [Phase.flight, failBacklog] using hcomm.append_left (a.outcomes.map Prod.fst)

/-- **A reply is sent.** -/
theorem Accounts.deliver {messages : List Message} {next : Phase}
    (h : Accounts first a w (.deliver messages next))
    (hs : workerStep maxBatch maxUnapplied intents a w (.deliver messages next) =
      some (a', w', p')) : Accounts first a' w' p' := by
  cases messages with
  | nil =>
    cases hs
    exact h.phase rfl rfl rfl rfl id id id h.claiming
  | cons message messages =>
    cases message with
    | admission ticket result =>
      cases hs
      exact ⟨h.sent, h.pending, h.claiming, h.ids, h.nextEpoch, h.flying, h.written, h.materialised,
        h.running, by simpa [admissionsOf, Phase.flight] using h.admitted, h.answered⟩
    | outcome ticket outcome =>
      cases hs
      exact ⟨h.sent, h.pending, h.claiming, h.ids, h.nextEpoch, h.flying, h.written, h.materialised,
        h.running, h.admitted, by simpa [outcomesOf, Phase.flight] using h.answered⟩

/-- The worker's thread leaves, and what the channel holds is dropped. -/
theorem Accounts.leave (h : Accounts first a w .returned)
    (hs : workerStep maxBatch maxUnapplied intents a w .returned = some (a', w', p')) :
    Accounts first a' w' p' := by
  cases hs
  exact ⟨fun hg => (hg trivial).elim, h.pending, fun hc => hc.elim, h.ids, h.nextEpoch,
    fun he => (he trivial).elim, h.written, h.materialised, fun hr => hr.elim, h.admitted, h.answered⟩

theorem Accounts.close (h : Accounts first a w .close)
    (hs : workerStep maxBatch maxUnapplied intents a w .close = some (a', w', p')) :
    Accounts first a' w' p' := by
  cases hs
  exact ⟨fun hg => (hg trivial).elim, h.pending, fun hc => hc.elim, h.ids, h.nextEpoch,
    fun he => (he trivial).elim, h.written, h.materialised, fun hr => hr.elim, h.admitted, h.answered⟩

/-- **A step of the worker** keeps the accounts. -/
theorem Accounts.worker (h : Accounts first a w p)
    (hlength : ∀ durable plan successor, p = .publish durable plan successor →
      plan.outcomes.length = durable.staged.length)
    (hs : workerStep maxBatch maxUnapplied intents a w p = some (a', w', p')) :
    Accounts first a' w' p' := by
  cases p with
  | fill => exact h.fill hs
  | claim purpose batch => exact h.claim hs
  | submit purpose staged => exact h.submit hs
  | complete pending => exact h.complete hs
  | pop => exact h.pop hs
  | materialize durable successor => exact h.materialize hs
  | publish durable plan successor => exact h.publish (hlength _ _ _ rfl) hs
  | applied successor => exact h.applied hs
  | abandon successor error => exact h.abandon hs
  | deliver messages next => exact h.deliver hs
  | returned => exact h.leave hs
  | close => exact h.close hs
  | done =>
    rw [workerStep_done] at hs
    cases hs

end Accounts

end Controller.Admission

end ForthDB
