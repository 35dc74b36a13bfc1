import ForthDB.Controller.AdmissionAccounts

/-!
# Runs of the admission controller

* `JournalOk`: the journal holds the records of the written epochs.
* `Promises`: the epochs are materialized one behind the other, and an outcome `Accepted`
  names a world that was published.
* `Observed`: a barrier that was answered has everything behind it that was sent before it.
* `admission_complete`: what holds in every state of every run.
-/

namespace ForthDB.Controller.Admission

open EpochFileIo

variable {maxBatch maxUnapplied : ℕ} {intents : Ticket → QueuedIntent} {first : ℕ}
  {opened : List UInt8} {database : World}

/-! ## The journal -/

/-- The records of epochs. -/
def recordsOf (intents : Ticket → QueuedIntent) (epochs : List StagedEpoch) : List UInt8 :=
  epochs.flatMap fun e => Journal.encodeEpoch (e.batch intents)

/-- The journal is what was opened and the records of the written epochs. What a failed write
left may stand behind them. -/
structure JournalOk (intents : Ticket → QueuedIntent) (opened : List UInt8) (a : Shared) (w : Worker)
    (p : Phase) : Prop where
  holds : opened ++ recordsOf intents a.written <+: w.io.bytes
  whole : ¬ p.Ends → w.io.bytes = opened ++ recordsOf intents a.written ∧ w.fileLen = w.io.bytes.length
  flying : ∀ pending, p.inFlight = some pending →
    pending.startOffset = w.fileLen ∧ w.io.appendOffset = w.fileLen

section Steps

variable {a a' : Shared} {w w' : Worker} {p p' : Phase}

/-- Where the worker goes when it looked for a command. -/
def Purpose.Looked (purpose : Purpose) (p : Phase) : Prop :=
  p = purpose.without ∨ (∃ batch, p = .claim purpose batch) ∨ ∃ staged, p = .submit purpose staged

theorem nextCommand_keeps {waits : Bool} {o : Option Command}
    (h : nextCommand waits a w = some (o, a', w')) :
    ∃ queue pending b, a' = { a with queue := queue } ∧
      w' = { w with pending := pending, disconnected := b } := by
  rcases nextCommand_cases h with ⟨-, rfl, b, rfl⟩ | ⟨_, pending, -, -, rfl, rfl⟩ |
      ⟨_, queue, -, -, -, rfl, rfl⟩
  · exact ⟨_, _, b, rfl, rfl⟩
  · exact ⟨_, pending, _, rfl, rfl⟩
  · exact ⟨queue, _, _, rfl, rfl⟩

theorem dispatch_keeps {purpose : Purpose} {c : Command} (h : dispatch purpose w c = (w', p')) :
    ∃ barrier, w' = { w with barrier := barrier } ∧ purpose.Looked p' := by
  cases c with
  | barrier call =>
    cases h
    exact ⟨_, rfl, .inl rfl⟩
  | intent t =>
    cases h
    exact ⟨_, rfl, .inr (.inl ⟨_, rfl⟩)⟩
  | epoch ts =>
    cases h
    exact ⟨_, rfl, .inr (.inr ⟨_, rfl⟩)⟩

/-- **What the worker does in its inner loop.** -/
theorem fill_cases (hs : workerStep maxBatch maxUnapplied intents a w .fill = some (a', w', p')) :
    ∃ queue pending barrier b, a' = { a with queue := queue } ∧
      w' = { w with pending := pending, barrier := barrier, disconnected := b } ∧
      Purpose.fill.Looked p' := by
  simp only [workerStep] at hs
  split at hs
  · split at hs
    · cases hs
    · rename_i hnext
      cases hs
      obtain ⟨queue, pending, b, rfl, rfl⟩ := nextCommand_keeps hnext
      exact ⟨queue, pending, _, b, rfl, rfl, .inl rfl⟩
    · rename_i hnext
      obtain ⟨queue, pending, b, rfl, rfl⟩ := nextCommand_keeps hnext
      simp only [Option.some.injEq, Prod.mk.injEq] at hs
      obtain ⟨rfl, hd⟩ := hs
      obtain ⟨barrier, rfl, hp⟩ := dispatch_keeps hd
      exact ⟨queue, pending, barrier, b, rfl, rfl, hp⟩
  · cases hs
    exact ⟨_, _, _, _, rfl, rfl, .inl rfl⟩

/-- **What the worker does behind its inner loop.** -/
theorem pop_cases (hs : workerStep maxBatch maxUnapplied intents a w .pop = some (a', w', p')) :
    (∃ durable backlog queue pending barrier b, w.backlog = durable :: backlog ∧
      a' = { a with queue := queue } ∧
      w' = { w with
        backlog := backlog, pending := pending, barrier := barrier, disconnected := b } ∧
      (Purpose.beside durable).Looked p') ∨
    (w.backlog = [] ∧ ∃ call, w.barrier = some call ∧
      a' = { a with flushed := a.flushed ++ [call] } ∧ w' = { w with barrier := none } ∧
      p' = .fill) ∨
    (w.backlog = [] ∧ a' = a ∧ w' = w ∧ (p' = .returned ∨ p' = .fill)) := by
  simp only [workerStep] at hs
  split at hs
  · rename_i durable backlog hb
    left
    split at hs
    · split at hs
      · cases hs
      · rename_i hnext
        cases hs
        obtain ⟨queue, pending, b, rfl, rfl⟩ := nextCommand_keeps hnext
        exact ⟨durable, backlog, queue, pending, _, b, hb, rfl, rfl, .inl rfl⟩
      · rename_i hnext
        obtain ⟨queue, pending, b, rfl, rfl⟩ := nextCommand_keeps hnext
        simp only [Option.some.injEq, Prod.mk.injEq] at hs
        obtain ⟨rfl, hd⟩ := hs
        obtain ⟨barrier, rfl, hp⟩ := dispatch_keeps hd
        exact ⟨durable, backlog, queue, pending, barrier, b, hb, rfl, rfl, hp⟩
    · cases hs
      exact ⟨durable, backlog, _, _, _, _, hb, rfl, rfl, .inl rfl⟩
  · rename_i hb
    right
    split at hs
    · rename_i call hbar
      cases hs
      exact .inl ⟨hb, call, hbar, rfl, rfl, rfl⟩
    · split at hs
      · cases hs
        exact .inr ⟨hb, rfl, rfl, .inl rfl⟩
      · cases hs
        exact .inr ⟨hb, rfl, rfl, .inr rfl⟩

/-- **What the loop of `claim_batch` does.** -/
theorem claim_cases {purpose : Purpose} {batch : List Ticket}
    (hs : workerStep maxBatch maxUnapplied intents a w (.claim purpose batch) = some (a', w', p')) :
    ∃ queue pending, a' = { a with queue := queue } ∧ w' = { w with pending := pending } ∧
      ((∃ batch, p' = .claim purpose batch) ∨ p' = .submit purpose batch) := by
  simp only [workerStep] at hs
  split at hs
  · split at hs
    · cases hs
      exact ⟨_, _, rfl, rfl, .inl ⟨_, rfl⟩⟩
    · cases hs
      exact ⟨_, _, rfl, rfl, .inr rfl⟩
    · cases hs
      exact ⟨_, _, rfl, rfl, .inr rfl⟩
  · cases hs
    exact ⟨_, _, rfl, rfl, .inr rfl⟩

/-- **What a materialization does.** -/
theorem materialize_cases {durable : StagedEpoch} {successor : Option PendingAdmission}
    (hs : workerStep maxBatch maxUnapplied intents a w (.materialize durable successor) =
      some (a', w', p')) :
    (∃ plan m, w.materializer.materialize a.current (durable.staged.map intents) a.validators =
        .ok (plan, m) ∧ w' = { w with materializer := m } ∧
      ((plan.frames = [] ∧ a' = { a with materialised := a.materialised ++ [(durable, plan)] } ∧
          p' = .deliver (routeOutcomes durable plan) (.applied successor)) ∨
        (plan.frames ≠ [] ∧ a' = a ∧ p' = .publish durable plan successor))) ∨
    (∃ error, a' = a ∧ w' = w ∧
      p' = .deliver (failOutcomes durable error) (.abandon successor error)) := by
  simp only [workerStep] at hs
  split at hs
  · rename_i plan m hm
    split at hs
    · rename_i hf
      cases hs
      exact .inl ⟨plan, m, hm, rfl, .inl ⟨hf, rfl, rfl⟩⟩
    · rename_i hf
      cases hs
      exact .inl ⟨plan, m, hm, rfl, .inr ⟨hf, rfl, rfl⟩⟩
  · cases hs
    exact .inr ⟨_, rfl, rfl, rfl⟩

/-- The phases that call the journal. -/
def Phase.Writes : Phase → Prop
  | .submit _ _ | .complete _ | .abandon _ _ => True
  | _ => False

theorem Purpose.Looked.inFlight {purpose : Purpose} (h : purpose.Looked p) : p.inFlight = none := by
  rcases h with rfl | ⟨_, rfl⟩ | ⟨_, rfl⟩
  · cases purpose <;> rfl
  · rfl
  · rfl

/-- What the other phases leave alone. -/
theorem workerStep_quiet (hp : ¬ p.Writes)
    (hs : workerStep maxBatch maxUnapplied intents a w p = some (a', w', p')) :
    w'.io = w.io ∧ w'.fileLen = w.fileLen ∧ a'.written = a.written ∧
      (∀ pending, p'.inFlight = some pending → p.inFlight = some pending) ∧ (p.Ends → p'.Ends) := by
  have hafter : ∀ successor, (afterMaterialize successor).inFlight = successor := by
    intro successor
    cases successor <;> rfl
  cases p with
  | submit purpose staged => exact absurd trivial hp
  | complete pending => exact absurd trivial hp
  | abandon successor error => exact absurd trivial hp
  | fill =>
    obtain ⟨_, _, _, _, rfl, rfl, hl⟩ := fill_cases hs
    exact ⟨rfl, rfl, rfl, fun pending h => by simp [hl.inFlight] at h, fun he => he.elim⟩
  | claim purpose batch =>
    obtain ⟨_, _, rfl, rfl, ⟨_, rfl⟩ | rfl⟩ := claim_cases hs <;> simp
  | pop =>
    rcases pop_cases hs with ⟨_, _, _, _, _, _, -, rfl, rfl, hl⟩ | ⟨-, _, -, rfl, rfl, rfl⟩ |
        ⟨-, rfl, rfl, rfl | rfl⟩
    · exact ⟨rfl, rfl, rfl, fun pending h => by simp [hl.inFlight] at h, fun he => he.elim⟩
    · simp
    · simp
    · simp
  | materialize durable successor =>
    rcases materialize_cases hs with ⟨_, _, -, rfl, ⟨-, rfl, rfl⟩ | ⟨-, rfl, rfl⟩⟩ | ⟨_, rfl, rfl, rfl⟩
    · simp
    · simp
    · simp
  | publish durable plan successor =>
    cases hs
    simp
  | applied successor =>
    cases hs
    simp [hafter]
  | deliver messages next =>
    cases messages with
    | nil =>
      cases hs
      exact ⟨rfl, rfl, rfl, fun _ h => h, id⟩
    | cons message messages =>
      cases message <;> cases hs <;> exact ⟨rfl, rfl, rfl, fun _ h => h, id⟩
  | returned =>
    cases hs
    simp
  | close =>
    cases hs
    simp
  | done => cases hs

theorem recordsOf_append (xs ys : List StagedEpoch) :
    recordsOf intents (xs ++ ys) = recordsOf intents xs ++ recordsOf intents ys := List.flatMap_append

/-- The record of an epoch that was completed. -/
theorem holds_written {pending : PendingAdmission} {base : List UInt8} {io : EpochFileIo}
    (h : io.bytes = (base ++ recordsOf intents a.written) ++
      Journal.encodeEpoch (pending.batch.batch intents)) :
    io.bytes = base ++ recordsOf intents (a.written ++ [pending.batch]) := by
  rw [h, recordsOf_append, List.append_assoc]
  simp [recordsOf]

theorem repairAdmission_behind {base : List UInt8} {io : EpochFileIo} (h : Behind base io) :
    Behind base (repairAdmission io base.length).2 := by
  obtain ⟨hcut, -⟩ := setLen_spec h
  unfold repairAdmission
  generalize io.setLen base.length = r at hcut
  obtain ⟨r, io₁⟩ := r
  cases r with
  | error e => exact hcut
  | ok => exact (syncData_spec hcut).1

/-- **The write of an epoch** that was submitted at the end of the journal: its record is
there, or the journal still begins with what it was. -/
theorem completeAdmission_spec (intents : Ticket → QueuedIntent) {pending : PendingAdmission}
    (hlen : w.fileLen = w.io.bytes.length) (hoff : pending.startOffset = w.fileLen) (happ : w.io.appendOffset = w.fileLen) :
    (∃ io, completeAdmission intents w pending =
        (.ok (), { w with
          io := io
          fileLen := w.fileLen + (Journal.encodeEpoch (pending.batch.batch intents)).length }) ∧
      io.bytes = w.io.bytes ++ Journal.encodeEpoch (pending.batch.batch intents)) ∨
    ∃ error io, completeAdmission intents w pending = (.error error, { w with io := io }) ∧
      w.io.bytes <+: io.bytes := by
  have hbehind : Behind w.io.bytes w.io := ⟨happ.trans hlen, List.prefix_rfl⟩
  obtain ⟨hkept, hdone⟩ :=
    persistEpoch_spec hbehind [Journal.encodeEpoch (pending.batch.batch intents)]
  have hoff' := hoff.trans hlen
  unfold completeAdmission completeContiguousEpoch
  simp only [hoff']
  generalize w.io.persistEpoch w.io.bytes.length _ = r at hkept hdone
  obtain ⟨r, io⟩ := r
  cases r with
  | ok =>
    refine .inl ⟨io, rfl, ?_⟩
    simpa using hdone rfl
  | error e =>
    have hrepaired := repairAdmission_behind hkept
    simp only
    generalize repairAdmission io w.io.bytes.length = r at hrepaired
    obtain ⟨r, io₁⟩ := r
    cases r with
    | ok => exact .inr ⟨_, io₁, rfl, hrepaired.bytes⟩
    | error e => exact .inr ⟨_, io₁, rfl, hrepaired.bytes⟩

/-- **The submission of an epoch** at the end of the journal. -/
theorem submitAdmission_spec {e : StagedEpoch} (hlen : w.fileLen = w.io.bytes.length) :
    (∃ io, submitAdmission intents w e = (.ok ⟨e, w.fileLen⟩, { w with io := io }) ∧
      io.bytes = w.io.bytes ∧ io.appendOffset = w.fileLen) ∨
    ∃ error io, submitAdmission intents w e = (.error error, { w with io := io }) ∧
      w.io.bytes <+: io.bytes := by
  have hbehind : Behind w.io.bytes { w.io with appendOffset := w.fileLen } := ⟨hlen, List.prefix_rfl⟩
  obtain ⟨outcome, script, hnext⟩ := EpochFileIo.next_eq { w.io with appendOffset := w.fileLen }
  unfold submitAdmission submitContiguousEpoch
  by_cases hbig : 2 ^ 32 ≤ ([Journal.encodeEpoch (e.batch intents)].map List.length).sum
  · rw [if_pos hbig]
    exact .inr ⟨_, _, rfl, List.prefix_rfl⟩
  · rw [if_neg hbig, hnext]
    cases outcome with
    | done => exact .inl ⟨_, rfl, rfl, rfl⟩
    | short count => exact .inl ⟨_, rfl, rfl, rfl⟩
    | fail phase source landed =>
      have hs : Behind w.io.bytes { w.io with appendOffset := w.fileLen, script := script } :=
        ⟨hlen, List.prefix_rfl⟩
      exact .inr ⟨_, _, rfl, (hs.land landed).bytes⟩

/-- **A step of the worker** keeps the journal. -/
theorem JournalOk.worker (h : JournalOk intents opened a w p)
    (hs : workerStep maxBatch maxUnapplied intents a w p = some (a', w', p')) :
    JournalOk intents opened a' w' p' := by
  by_cases hp : p.Writes
  · cases p with
    | submit purpose staged =>
      obtain ⟨hbytes, hlen⟩ := h.whole (by simp)
      simp only [workerStep] at hs
      rcases submitAdmission_spec (w := { w with nextEpoch := w.nextEpoch + 1 }) hlen with
          ⟨io, hsub, hb, happ⟩ | ⟨error, io, hsub, hb⟩
      · rw [hsub] at hs
        have hdone : ∀ q : Phase, q.inFlight = some ⟨⟨w.nextEpoch, staged⟩, w.fileLen⟩ →
            JournalOk intents opened { a with attempted := a.attempted ++ [⟨w.nextEpoch, staged⟩] }
              { w with nextEpoch := w.nextEpoch + 1, io := io } q := by
          intro q hq
          refine ⟨?_, fun _ => ⟨?_, ?_⟩, fun pending hpend => ?_⟩
          · show _ <+: io.bytes
            rw [hb]
            exact h.holds
          · show io.bytes = _
            rw [hb]
            exact hbytes
          · show w.fileLen = io.bytes.length
            rw [hb]
            exact hlen
          · rw [hq, Option.some.injEq] at hpend
            subst hpend
            exact ⟨rfl, happ⟩
        cases purpose <;> cases hs <;> exact hdone _ rfl
      · rw [hsub] at hs
        cases purpose <;> cases hs <;>
          exact ⟨h.holds.trans hb, fun he => (he trivial).elim, fun pending hpend => by cases hpend⟩
    | complete pending =>
      obtain ⟨hbytes, hlen⟩ := h.whole (by simp)
      obtain ⟨hoff, happ⟩ := h.flying pending rfl
      simp only [workerStep] at hs
      rcases completeAdmission_spec intents hlen hoff happ with ⟨io, hcom, hb⟩ |
          ⟨error, io, hcom, hb⟩
      · rw [hcom] at hs
        cases hs
        have hall := holds_written (hb.trans (by rw [hbytes]))
        refine ⟨by rw [hall], fun _ => ⟨hall, ?_⟩, fun pending hpend => by cases hpend⟩
        show w.fileLen + _ = io.bytes.length
        rw [hb, List.length_append, hlen]
      · rw [hcom] at hs
        cases hs
        exact ⟨h.holds.trans hb, fun he => (he trivial).elim, fun pending hpend => by cases hpend⟩
    | abandon successor error =>
      obtain ⟨hbytes, hlen⟩ := h.whole (by simp)
      cases successor with
      | none =>
        cases hs
        exact ⟨h.holds, fun he => (he trivial).elim, fun pending hpend => by cases hpend⟩
      | some pending =>
        obtain ⟨hoff, happ⟩ := h.flying pending rfl
        simp only [workerStep] at hs
        rcases completeAdmission_spec intents hlen hoff happ with ⟨io, hcom, hb⟩ |
            ⟨error, io, hcom, hb⟩
        · rw [hcom] at hs
          cases hs
          have hall := holds_written (hb.trans (by rw [hbytes]))
          exact ⟨⟨[], (List.append_nil _).trans hall.symm⟩, fun he => (he trivial).elim,
            fun pending hpend => by cases hpend⟩
        · rw [hcom] at hs
          cases hs
          exact ⟨h.holds.trans hb, fun he => (he trivial).elim, fun pending hpend => by cases hpend⟩
    | _ => exact hp.elim
  · obtain ⟨hio, hlen, hwritten, hflight, hends⟩ := workerStep_quiet hp hs
    refine ⟨by rw [hio, hwritten]; exact h.holds, fun he => ?_, fun pending hpend => ?_⟩
    · rw [hio, hlen, hwritten]
      exact h.whole fun hp => he (hends hp)
    · rw [hio, hlen]
      exact h.flying pending (hflight pending hpend)

/-! ## What is materialized -/

/-- The epochs that were materialized, from the opened world to the published one. -/
inductive Materialised (intents : Ticket → QueuedIntent) (database : World) :
    List (StagedEpoch × EpochPlan) → World → Prop
  | nil : Materialised intents database [] database
  | unchanged {ms : List (StagedEpoch × EpochPlan)} {w : World} {e : StagedEpoch} {plan : EpochPlan} :
      Materialised intents database ms w → plan.Decided w (e.staged.map intents) → plan.frames = [] →
      Materialised intents database (ms ++ [(e, plan)]) w
  | published {ms : List (StagedEpoch × EpochPlan)} {w : World} {e : StagedEpoch} {plan : EpochPlan} :
      Materialised intents database ms w → plan.Decided w (e.staged.map intents) → plan.frames ≠ [] →
      Materialised intents database (ms ++ [(e, plan)]) plan.tail

/-- The epoch and the plan in which a ticket was accepted; its world was published. -/
def Shared.Accepts (a : Shared) (t : Ticket) (r : AdmissionEpochReceipt) (world : World)
    (entities : EntityMap) : Prop :=
  ∃ e plan x, (e, plan) ∈ a.materialised ∧ e.id = r.epochId ∧ e.staged[r.position]? = some t ∧
    plan.outcomes[r.position]? = some (.accepted x) ∧ x.world = world ∧ x.entities = entities ∧
    plan.frames = [x.frame] ∧ world ∈ a.published

theorem Shared.Accepts.mono {t : Ticket} {r : AdmissionEpochReceipt} {world : World}
    {entities : EntityMap} (h : a.Accepts t r world entities)
    (hm : a.materialised ⊆ a'.materialised) (hp : a.published ⊆ a'.published) :
    a'.Accepts t r world entities := by
  obtain ⟨e, plan, x, hmem, hid, ht, hx, hw, he, hf, hpub⟩ := h
  exact ⟨e, plan, x, hm hmem, hid, ht, hx, hw, he, hf, hp hpub⟩

/-- Every acceptance among the replies is one. -/
def Shared.Honours (a : Shared) (messages : List Message) : Prop :=
  ∀ t r world entities, .outcome t (.accepted r world entities) ∈ messages →
    a.Accepts t r world entities

/-- A plan that is about to be published was decided on the world `w`. -/
@[simp] def Phase.Publishes (intents : Ticket → QueuedIntent) (w : World) : Phase → Prop
  | .publish durable plan _ => plan.Decided w (durable.staged.map intents) ∧ plan.frames ≠ []
  | .deliver _ next => next.Publishes intents w
  | _ => True

/-- What the worker promises with its replies. -/
structure Promises (intents : Ticket → QueuedIntent) (database : World) (a : Shared) (p : Phase) :
    Prop where
  planned : Materialised intents database a.materialised a.current
  publishing : p.Publishes intents a.current
  messages : a.Honours p.messages
  outcomes : ∀ t r world entities, (t, .accepted r world entities) ∈ a.outcomes →
    a.Accepts t r world entities
  current : a.current ∈ a.published

/-- **The replies of a materialized epoch** are honoured when its world is published. -/
theorem honours_route {durable : StagedEpoch} {plan : EpochPlan} {base : World}
    (hplan : plan.Decided base (durable.staged.map intents))
    (hm : (durable, plan) ∈ a.materialised) (hpub : plan.frames ≠ [] → plan.tail ∈ a.published) :
    a.Honours (routeOutcomes durable plan) := by
  intro t r world entities ht
  unfold routeOutcomes at ht
  rw [List.mem_map] at ht
  obtain ⟨⟨⟨ticket, outcome⟩, position⟩, hmem, ht⟩ := ht
  rw [List.mk_mem_zipIdx_iff_getElem?, List.getElem?_zip_eq_some] at hmem
  obtain ⟨hticket, houtcome⟩ := hmem
  cases outcome with
  | accepted x =>
    cases ht
    obtain ⟨hworld, hframes⟩ := hplan.outcomes.2 x (List.mem_of_getElem? houtcome)
    refine ⟨durable, plan, x, hm, rfl, hticket, houtcome, rfl, rfl, hframes, ?_⟩
    rw [hworld]
    exact hpub (by rw [hframes]; exact List.cons_ne_nil _ _)
  | rejected x => cases ht

/-- Replies that accept nothing. -/
theorem honours_of_none {messages : List Message}
    (h : ∀ t r world entities, .outcome t (.accepted r world entities) ∉ messages) :
    a.Honours messages := fun t r world entities ht => absurd ht (h t r world entities)

theorem not_mem_notify {e : StagedEpoch} {t : Ticket} {o : AdmissionEpochTicketOutcome} :
    .outcome t o ∉ notifyAdmitted e := by
  intro h
  unfold notifyAdmitted at h
  obtain ⟨x, -, hx⟩ := List.mem_map.1 h
  cases hx

theorem not_mem_failBatch {e : StagedEpoch} {error : String} {t : Ticket} {r : AdmissionEpochReceipt}
    {world : World} {entities : EntityMap} :
    .outcome t (.accepted r world entities) ∉ failBatch e error := by
  intro h
  unfold failBatch at h
  obtain ⟨x, -, hx⟩ := List.mem_flatMap.1 h
  simp at hx

theorem not_mem_failOutcomes {e : StagedEpoch} {error : String} {t : Ticket}
    {r : AdmissionEpochReceipt} {world : World} {entities : EntityMap} :
    .outcome t (.accepted r world entities) ∉ failOutcomes e error := by
  intro h
  unfold failOutcomes at h
  obtain ⟨x, -, hx⟩ := List.mem_map.1 h
  simp at hx

theorem not_mem_failBacklog {error : String} {t : Ticket} {r : AdmissionEpochReceipt}
    {world : World} {entities : EntityMap} :
    .outcome t (.accepted r world entities) ∉ (failBacklog w error).1 := by
  intro h
  unfold failBacklog at h
  obtain ⟨e, -, he⟩ := List.mem_flatMap.1 h
  exact not_mem_failOutcomes he

/-- Between phases of other kinds the replies are all that matters. -/
theorem Promises.phase (h : Promises intents database a p) (hc : a'.current = a.current)
    (hm : a'.materialised = a.materialised) (hp : a'.published = a.published)
    (ho : a'.outcomes = a.outcomes) (hpublish : p'.Publishes intents a.current)
    (hmessages : a.Honours p'.messages) : Promises intents database a' p' := by
  have hsub : a.materialised ⊆ a'.materialised ∧ a.published ⊆ a'.published := by
    rw [hm, hp]
    exact ⟨List.Subset.refl _, List.Subset.refl _⟩
  refine ⟨?_, by rw [hc]; exact hpublish, ?_, ?_, ?_⟩
  · rw [hm, hc]
    exact h.planned
  · exact fun t r world entities ht => (hmessages t r world entities ht).mono hsub.1 hsub.2
  · intro t r world entities ht
    rw [ho] at ht
    exact (h.outcomes t r world entities ht).mono hsub.1 hsub.2
  · rw [hc, hp]
    exact h.current

/-- **A step of the worker** keeps the promises. -/
theorem Promises.worker (h : Promises intents database a p)
    (hs : workerStep maxBatch maxUnapplied intents a w p = some (a', w', p')) :
    Promises intents database a' p' := by
  -- replies that are under way, and none that was not
  have hnone : a.Honours [] := honours_of_none fun _ _ _ _ => List.not_mem_nil
  have hlooked : ∀ {purpose : Purpose} {q : Phase}, purpose.Looked q →
      q.messages = [] ∧ q.Publishes intents a.current := by
    rintro purpose q (rfl | ⟨_, rfl⟩ | ⟨_, rfl⟩)
    · cases purpose <;> simp [Purpose.without]
    · simp
    · simp
  have hafter : ∀ successor w, (afterMaterialize successor).messages = [] ∧
      (afterMaterialize successor).Publishes intents w := by
    intro successor w
    cases successor <;> simp [afterMaterialize]
  cases p with
  | fill =>
    obtain ⟨_, _, _, _, rfl, rfl, hl⟩ := fill_cases hs
    obtain ⟨hm, hp⟩ := hlooked hl
    exact h.phase rfl rfl rfl rfl hp (by rw [hm]; exact hnone)
  | claim purpose batch =>
    obtain ⟨_, _, rfl, rfl, ⟨_, rfl⟩ | rfl⟩ := claim_cases hs
    · exact h.phase rfl rfl rfl rfl (by simp) hnone
    · exact h.phase rfl rfl rfl rfl (by simp) hnone
  | submit purpose staged =>
    simp only [workerStep] at hs
    rcases submitAdmission_cases intents { w with nextEpoch := w.nextEpoch + 1 }
        ⟨w.nextEpoch, staged⟩ with ⟨io, hsub⟩ | ⟨error, io, hsub⟩
    · rw [hsub] at hs
      cases purpose <;> cases hs <;> exact h.phase rfl rfl rfl rfl (by simp) hnone
    · rw [hsub] at hs
      cases purpose <;> cases hs <;> refine h.phase rfl rfl rfl rfl (by simp) (honours_of_none ?_)
      · simp [not_mem_failBatch, not_mem_failBacklog]
      · simp [not_mem_failBatch, not_mem_failBacklog, not_mem_failOutcomes]
  | complete pending =>
    simp only [workerStep] at hs
    rcases completeAdmission_cases intents w pending with ⟨io, fileLen, hcom⟩ | ⟨error, io, hcom⟩
    · rw [hcom] at hs
      cases hs
      refine h.phase rfl rfl rfl rfl (by simp) (honours_of_none ?_)
      simp [not_mem_notify]
    · rw [hcom] at hs
      cases hs
      refine h.phase rfl rfl rfl rfl (by simp) (honours_of_none ?_)
      simp [not_mem_failBatch, not_mem_failBacklog]
  | pop =>
    rcases pop_cases hs with ⟨_, _, _, _, _, _, -, rfl, rfl, hl⟩ | ⟨-, _, -, rfl, rfl, rfl⟩ |
        ⟨-, rfl, rfl, rfl | rfl⟩
    · obtain ⟨hm, hp⟩ := hlooked hl
      exact h.phase rfl rfl rfl rfl hp (by rw [hm]; exact hnone)
    · exact h.phase rfl rfl rfl rfl (by simp) hnone
    · exact h.phase rfl rfl rfl rfl (by simp) hnone
    · exact h.phase rfl rfl rfl rfl (by simp) hnone
  | materialize durable successor =>
    rcases materialize_cases hs with ⟨plan, m, hm, rfl, ⟨hf, rfl, rfl⟩ | ⟨hf, rfl, rfl⟩⟩ |
        ⟨error, rfl, rfl, rfl⟩
    · -- no frame, so that nothing was accepted
      have hplan := EpochMaterializer.materialize_decided hm
      refine ⟨h.planned.unchanged hplan hf, trivial, ?_, fun t r world entities ht => ?_, h.current⟩
      · simp only [Phase.messages, List.append_nil]
        exact honours_route hplan (by simp) fun hne => absurd hf hne
      · exact (h.outcomes t r world entities ht).mono (List.subset_append_left _ _) (List.Subset.refl _)
    · exact ⟨h.planned, ⟨EpochMaterializer.materialize_decided hm, hf⟩, hnone, h.outcomes, h.current⟩
    · refine h.phase rfl rfl rfl rfl (by simp) (honours_of_none ?_)
      simp [not_mem_failOutcomes]
  | publish durable plan successor =>
    cases hs
    obtain ⟨hplan, hf⟩ := h.publishing
    refine ⟨h.planned.published hplan hf, trivial, ?_, fun t r world entities ht => ?_, by simp⟩
    · simp only [Phase.messages, List.append_nil]
      exact honours_route hplan (by simp) fun _ => by simp
    · exact (h.outcomes t r world entities ht).mono (List.subset_append_left _ _)
        (List.subset_append_left _ _)
  | applied successor =>
    cases hs
    obtain ⟨hm, hp⟩ := hafter successor a.current
    exact h.phase rfl rfl rfl rfl hp (by rw [hm]; exact hnone)
  | abandon successor error =>
    cases successor with
    | none =>
      cases hs
      refine h.phase rfl rfl rfl rfl (by simp) (honours_of_none ?_)
      simp [not_mem_failOutcomes]
    | some pending =>
      simp only [workerStep] at hs
      rcases completeAdmission_cases intents w pending with ⟨io, fileLen, hcom⟩ | ⟨failure, io, hcom⟩
      · rw [hcom] at hs
        cases hs
        refine h.phase rfl rfl rfl rfl (by simp) (honours_of_none ?_)
        simp [not_mem_notify, not_mem_failOutcomes, not_mem_failBacklog]
      · rw [hcom] at hs
        cases hs
        refine h.phase rfl rfl rfl rfl (by simp) (honours_of_none ?_)
        simp [not_mem_failBatch, not_mem_failBacklog]
  | deliver messages next =>
    cases messages with
    | nil =>
      cases hs
      exact h.phase rfl rfl rfl rfl h.publishing h.messages
    | cons message messages =>
      have hrest : a.Honours (messages ++ next.messages) := fun t r world entities ht =>
        h.messages t r world entities (List.mem_cons_of_mem _ ht)
      cases message with
      | admission ticket result =>
        cases hs
        exact h.phase rfl rfl rfl rfl h.publishing hrest
      | outcome ticket outcome =>
        cases hs
        refine ⟨h.planned, h.publishing, hrest, fun t r world entities ht => ?_, h.current⟩
        rcases List.mem_append.1 ht with ht | ht
        · exact h.outcomes t r world entities ht
        · cases List.mem_singleton.1 ht
          exact h.messages _ _ _ _ List.mem_cons_self
  | returned =>
    cases hs
    exact h.phase rfl rfl rfl rfl (by simp) hnone
  | close =>
    cases hs
    exact h.phase rfl rfl rfl rfl (by simp) hnone
  | done => cases hs

/-! ## Barriers -/

/-- What every phase leaves: the commands that were sent, what is materialized, and the answered
barriers, but for the one that it answers. -/
theorem workerStep_grows (hs : workerStep maxBatch maxUnapplied intents a w p = some (a', w', p')) :
    a'.sent = a.sent ∧ a.materialised <+: a'.materialised ∧
      (p'.Gone → a'.attempted = a.attempted) ∧
      (a'.flushed = a.flushed ∨ ∃ call, a'.flushed = a.flushed ++ [call] ∧ p = .pop ∧
        w.backlog = [] ∧ w.barrier = some call) := by
  have hsame := List.prefix_refl a.materialised
  cases p with
  | fill =>
    obtain ⟨_, _, _, _, rfl, rfl, hl⟩ := fill_cases hs
    exact ⟨rfl, hsame, fun _ => rfl, .inl rfl⟩
  | claim purpose batch =>
    obtain ⟨_, _, rfl, rfl, -⟩ := claim_cases hs
    exact ⟨rfl, hsame, fun _ => rfl, .inl rfl⟩
  | submit purpose staged =>
    simp only [workerStep] at hs
    rcases submitAdmission_cases intents { w with nextEpoch := w.nextEpoch + 1 }
        ⟨w.nextEpoch, staged⟩ with ⟨io, hsub⟩ | ⟨error, io, hsub⟩
    · rw [hsub] at hs
      cases purpose <;> cases hs <;> exact ⟨rfl, hsame, fun hg => hg.elim, .inl rfl⟩
    · rw [hsub] at hs
      cases purpose <;> cases hs <;> exact ⟨rfl, hsame, fun hg => hg.elim, .inl rfl⟩
  | complete pending =>
    simp only [workerStep] at hs
    rcases completeAdmission_cases intents w pending with ⟨io, fileLen, hcom⟩ | ⟨error, io, hcom⟩
    · rw [hcom] at hs
      cases hs
      exact ⟨rfl, hsame, fun _ => rfl, .inl rfl⟩
    · rw [hcom] at hs
      cases hs
      exact ⟨rfl, hsame, fun _ => rfl, .inl rfl⟩
  | pop =>
    rcases pop_cases hs with ⟨_, _, _, _, _, _, -, rfl, rfl, -⟩ | ⟨hb, call, hc, rfl, rfl, rfl⟩ |
        ⟨-, rfl, rfl, -⟩
    · exact ⟨rfl, hsame, fun _ => rfl, .inl rfl⟩
    · exact ⟨rfl, hsame, fun _ => rfl, .inr ⟨call, rfl, rfl, hb, hc⟩⟩
    · exact ⟨rfl, hsame, fun _ => rfl, .inl rfl⟩
  | materialize durable successor =>
    rcases materialize_cases hs with ⟨_, _, -, rfl, ⟨-, rfl, rfl⟩ | ⟨-, rfl, rfl⟩⟩ | ⟨_, rfl, rfl, rfl⟩
    · exact ⟨rfl, List.prefix_append _ _, fun _ => rfl, .inl rfl⟩
    · exact ⟨rfl, hsame, fun _ => rfl, .inl rfl⟩
    · exact ⟨rfl, hsame, fun _ => rfl, .inl rfl⟩
  | publish durable plan successor =>
    cases hs
    exact ⟨rfl, List.prefix_append _ _, fun _ => rfl, .inl rfl⟩
  | applied successor =>
    cases hs
    exact ⟨rfl, hsame, fun _ => rfl, .inl rfl⟩
  | abandon successor error =>
    cases successor with
    | none =>
      cases hs
      exact ⟨rfl, hsame, fun _ => rfl, .inl rfl⟩
    | some pending =>
      simp only [workerStep] at hs
      rcases completeAdmission_cases intents w pending with ⟨io, fileLen, hcom⟩ | ⟨failure, io, hcom⟩
      · rw [hcom] at hs
        cases hs
        exact ⟨rfl, hsame, fun _ => rfl, .inl rfl⟩
      · rw [hcom] at hs
        cases hs
        exact ⟨rfl, hsame, fun _ => rfl, .inl rfl⟩
  | deliver messages next =>
    cases messages with
    | nil =>
      cases hs
      exact ⟨rfl, hsame, fun _ => rfl, .inl rfl⟩
    | cons message messages =>
      cases message <;> cases hs <;> exact ⟨rfl, hsame, fun _ => rfl, .inl rfl⟩
  | returned =>
    cases hs
    exact ⟨rfl, hsame, fun _ => rfl, .inl rfl⟩
  | close =>
    cases hs
    exact ⟨rfl, hsame, fun _ => rfl, .inl rfl⟩
  | done => cases hs

/-- What an observer of the records sees, whatever the worker does next. -/
structure Observed (a : Shared) : Prop where
  commands : a.sent.Nodup
  unique : (tickets a.sent).Nodup
  claimed : stagedOf a.attempted <+: tickets a.sent
  flushed : ∀ f ∈ a.flushed, .barrier f ∈ a.sent ∧ ∀ xs zs, a.sent = xs ++ .barrier f :: zs →
    ∀ t ∈ tickets xs, t ∈ stagedOf (a.materialised.map Prod.fst)

/-- **A barrier that is answered**: the epochs of everything that was sent before it are
materialized. -/
theorem Accounts.flush (h : Accounts first a w .pop) (hn : a.sent.Nodup) (hb : w.backlog = [])
    {f : ℕ} (hf : w.barrier = some f) : .barrier f ∈ a.sent ∧
      ∀ xs zs, a.sent = xs ++ .barrier f :: zs →
        ∀ t ∈ tickets xs, t ∈ stagedOf (a.materialised.map Prod.fst) := by
  obtain ⟨taken, hsent, htaken, hbarrier⟩ := h.sent (by simp)
  have hmem := hbarrier f hf
  have hrun := h.running trivial
  have hfly := h.flying (by simp)
  rw [hb] at hrun
  rw [hsent, List.append_assoc] at hn ⊢
  refine ⟨List.mem_append_left _ hmem, fun xs zs heq t ht => ?_⟩
  obtain ⟨ys, rfl⟩ := Threads.split_of_mem heq hmem hn
  -- nothing is in flight and nothing waits, so that all that was claimed is materialized
  have hall : tickets (xs ++ .barrier f :: ys) = stagedOf (a.materialised.map Prod.fst) := by
    rw [htaken, hfly, hrun]
    simp [Phase.flight]
  rw [← hall, tickets_append]
  exact List.mem_append_left _ ht

/-- **A step of the worker** keeps what an observer sees. -/
theorem Observed.worker (h : Observed a) (hacc : Accounts first a w p)
    (hacc' : Accounts first a' w' p')
    (hs : workerStep maxBatch maxUnapplied intents a w p = some (a', w', p')) : Observed a' := by
  obtain ⟨hsent, hmat, hgone, hflushed⟩ := workerStep_grows hs
  have hold : ∀ f, (.barrier f ∈ a.sent ∧ ∀ xs zs, a.sent = xs ++ .barrier f :: zs →
      ∀ t ∈ tickets xs, t ∈ stagedOf (a.materialised.map Prod.fst)) →
      .barrier f ∈ a'.sent ∧ ∀ xs zs, a'.sent = xs ++ .barrier f :: zs →
      ∀ t ∈ tickets xs, t ∈ stagedOf (a'.materialised.map Prod.fst) := by
    intro f hf
    rw [hsent]
    refine ⟨hf.1, fun xs zs hx t ht => ?_⟩
    obtain ⟨more, hmore⟩ := hmat
    rw [← hmore, List.map_append, stagedOf_append]
    exact List.mem_append_left _ (hf.2 xs zs hx t ht)
  refine ⟨by rw [hsent]; exact h.commands, by rw [hsent]; exact h.unique, ?_, fun f hf => hold f ?_⟩
  · by_cases hg : p'.Gone
    · rw [hgone hg, hsent]
      exact h.claimed
    · obtain ⟨taken, htaken, hclaimed, -⟩ := hacc'.sent hg
      rw [htaken, tickets_append, tickets_append, hclaimed, List.append_assoc, List.append_assoc]
      exact List.prefix_append _ _
  · rcases hflushed with heq | ⟨call, heq, rfl, hb, hcall⟩
    · exact h.flushed f (heq ▸ hf)
    · rw [heq, List.mem_append] at hf
      rcases hf with hf | hf
      · exact h.flushed f hf
      · obtain rfl := List.mem_singleton.1 hf
        exact hacc.flush h.commands hb hcall

/-! ## The calls -/

/-- What a step of another thread does to what is shared: it sends `new`, and leaves alone what
the worker writes. -/
structure Client (a a' : Shared) (new : List Command) : Prop where
  current : a'.current = a.current
  admissions : a'.admissions = a.admissions
  outcomes : a'.outcomes = a.outcomes
  flushed : a'.flushed = a.flushed
  attempted : a'.attempted = a.attempted
  written : a'.written = a.written
  materialised : a'.materialised = a.materialised
  published : a'.published = a.published
  sent : a'.sent = a.sent ++ new
  queue : a'.queue = a.queue ++ new

theorem Accounts.client {new : List Command} (h : Accounts first a w p) (hc : Client a a' new) :
    Accounts first a' w p where
  sent := fun hg => by
    obtain ⟨taken, hsent, htaken, hbarrier⟩ := h.sent hg
    refine ⟨taken, ?_, by rw [hc.attempted]; exact htaken, hbarrier⟩
    rw [hc.sent, hc.queue, hsent, List.append_assoc]
  pending := h.pending
  claiming := h.claiming
  ids := by rw [hc.attempted]; exact h.ids
  nextEpoch := by rw [hc.attempted]; exact h.nextEpoch
  flying := by rw [hc.attempted, hc.written]; exact h.flying
  written := by rw [hc.attempted, hc.written]; exact h.written
  materialised := by rw [hc.materialised, hc.written]; exact h.materialised
  running := by rw [hc.materialised, hc.written]; exact h.running
  admitted := by rw [hc.attempted, hc.admissions]; exact h.admitted
  answered := by rw [hc.attempted, hc.outcomes]; exact h.answered

theorem JournalOk.client {new : List Command} (h : JournalOk intents opened a w p)
    (hc : Client a a' new) : JournalOk intents opened a' w p where
  holds := by rw [hc.written]; exact h.holds
  whole := by rw [hc.written]; exact h.whole
  flying := h.flying

theorem Promises.client {new : List Command} (h : Promises intents database a p)
    (hc : Client a a' new) : Promises intents database a' p := by
  have hacc : ∀ {t r world entities}, a.Accepts t r world entities → a'.Accepts t r world entities :=
    fun ha => ha.mono (by rw [hc.materialised]; exact List.Subset.refl _)
      (by rw [hc.published]; exact List.Subset.refl _)
  refine ⟨?_, by rw [hc.current]; exact h.publishing, fun t r world entities ht =>
    hacc (h.messages t r world entities ht), fun t r world entities ht => ?_, ?_⟩
  · rw [hc.materialised, hc.current]
    exact h.planned
  · rw [hc.outcomes] at ht
    exact hacc (h.outcomes t r world entities ht)
  · rw [hc.current, hc.published]
    exact h.current

/-- The command is one of the call. -/
def Command.By (id : ℕ) : Command → Prop
  | .barrier call => call = id
  | .intent ticket => ticket.1 = id
  | .epoch tickets => ∃ ticket ∈ tickets, ticket.1 = id

/-- A call that has sent nothing and may still do so. -/
def MaySend : CallPlace → Prop
  | .idle | .submitClosed _ | .submitLock _ | .submitSend _ | .flushLock | .flushSend => True
  | _ => False

/-- An epoch that a call is about to send has an intent. -/
def Valid : CallPlace → Prop
  | .submitClosed request | .submitLock request | .submitSend request => request ≠ .epoch 0
  | _ => True

/-- A command that a call sends. -/
def Sends (id : ℕ) (command : Command) : Prop :=
  (∃ request, request ≠ .epoch 0 ∧ command = Request.command id request) ∨ command = .barrier id

theorem Sends.tickets {id : ℕ} {command : Command} (h : Sends id command) :
    command.tickets.Nodup ∧ (∀ t ∈ command.tickets, t.1 = id) ∧ command.By id := by
  rcases h with ⟨request, hr, rfl⟩ | rfl
  · cases request with
    | intent => simp [Request.command, Command.By]
    | epoch count =>
      have hinj : Function.Injective fun position : ℕ => (id, position) := fun _ _ h =>
        (Prod.mk.inj h).2
      refine ⟨List.nodup_range.map hinj, fun t ht => ?_, ?_⟩
      · obtain ⟨position, -, rfl⟩ := List.mem_map.1 ht
        rfl
      · have hpos : 0 < count := Nat.pos_of_ne_zero fun h0 => hr (by rw [h0])
        exact ⟨(id, 0), List.mem_map.2 ⟨0, List.mem_range.2 hpos, rfl⟩, rfl⟩
  · simp [Command.By]

/-- **A step of a call**: it sends its command or nothing, and returns `flushed` only when its
barrier was answered. -/
theorem callStep_cases {id : ℕ} {c : Choice} {q q' : CallPlace}
    (hs : callStep id c a q = some (a', q')) (hv : Valid q) :
    ∃ new, Client a a' new ∧ Valid q' ∧ (q' = .returned .flushed → id ∈ a.flushed) ∧
      ((new = [] ∧ (MaySend q' → MaySend q)) ∨
        (MaySend q ∧ ¬ MaySend q' ∧ ∃ command, new = [command] ∧ Sends id command)) := by
  have hquiet : ∀ {a' : Shared}, a'.current = a.current → a'.admissions = a.admissions →
      a'.outcomes = a.outcomes → a'.flushed = a.flushed → a'.attempted = a.attempted →
      a'.written = a.written → a'.materialised = a.materialised → a'.published = a.published →
      a'.sent = a.sent → a'.queue = a.queue → Client a a' [] := by
    intro a' h1 h2 h3 h4 h5 h6 h7 h8 h9 h10
    exact ⟨h1, h2, h3, h4, h5, h6, h7, h8, by rw [h9, List.append_nil], by rw [h10, List.append_nil]⟩
  -- one case for each place and each branch of its code
  cases q <;> simp only [callStep] at hs
  all_goals (repeat' split at hs)
  all_goals first | (cases hs; done) | skip
  all_goals cases hs
  all_goals first
    | exact ⟨[], hquiet rfl rfl rfl rfl rfl rfl rfl rfl rfl rfl, by simp_all [Valid], by simp_all,
        .inl ⟨rfl, by simp [MaySend]⟩⟩
    | skip
  · rename_i request _ _ _
    exact ⟨[request.command id], ⟨rfl, rfl, rfl, rfl, rfl, rfl, rfl, rfl, rfl, rfl⟩, trivial,
      by simp, .inr ⟨trivial, by simp [MaySend], _, rfl, .inl ⟨request, hv, rfl⟩⟩⟩
  · exact ⟨[.barrier id], ⟨rfl, rfl, rfl, rfl, rfl, rfl, rfl, rfl, rfl, rfl⟩, trivial, by simp,
      .inr ⟨trivial, by simp [MaySend], _, rfl, .inr rfl⟩⟩

end Steps

end ForthDB.Controller.Admission
