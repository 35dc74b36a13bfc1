import ForthDB.Controller.AdmissionRuns
import ForthDB.Journal.Recovery

/-!
# The admission controller is complete

What holds in every state of every run of a controller, whatever its threads and its I/O do:
`Complete`. `admission_complete` proves it and the rule of `flush`.
-/

namespace ForthDB.Controller.Admission

variable {maxBatch maxUnapplied : ℕ} {intents : Ticket → QueuedIntent} {first : ℕ}
  {opened : List UInt8} {database : World}

/-- What the worker knows. -/
structure WorkerOk (intents : Ticket → QueuedIntent) (database : World) (opened : List UInt8)
    (first : ℕ) (a : Shared) (w : Worker) (p : Phase) : Prop where
  observed : Observed a
  accounts : Accounts first a w p
  journal : JournalOk intents opened a w p
  promises : Promises intents database a p
  rest : p.Ends → w.backlog = []

section Worker

variable {a a' : Shared} {w w' : Worker} {p p' : Phase}

/-- Nothing waits behind the worker when it ends. -/
theorem rest_worker (h : p.Ends → w.backlog = [])
    (hs : workerStep maxBatch maxUnapplied intents a w p = some (a', w', p')) :
    p'.Ends → w'.backlog = [] := by
  have hlooked : ∀ {purpose : Purpose} {q : Phase}, purpose.Looked q → ¬ q.Ends := by
    rintro purpose q (rfl | ⟨_, rfl⟩ | ⟨_, rfl⟩)
    · cases purpose <;> simp [Purpose.without]
    · simp
    · simp
  intro he
  cases p with
  | fill =>
    obtain ⟨_, _, _, _, rfl, rfl, hl⟩ := fill_cases hs
    exact absurd he (hlooked hl)
  | claim purpose batch =>
    obtain ⟨_, _, rfl, rfl, ⟨_, rfl⟩ | rfl⟩ := claim_cases hs
    · exact he.elim
    · exact he.elim
  | submit purpose staged =>
    simp only [workerStep] at hs
    rcases submitAdmission_cases intents { w with nextEpoch := w.nextEpoch + 1 }
        ⟨w.nextEpoch, staged⟩ with ⟨io, hsub⟩ | ⟨error, io, hsub⟩
    · rw [hsub] at hs
      cases purpose <;> cases hs <;> exact he.elim
    · rw [hsub] at hs
      cases purpose <;> cases hs <;> rfl
  | complete pending =>
    simp only [workerStep] at hs
    rcases completeAdmission_cases intents w pending with ⟨io, fileLen, hcom⟩ | ⟨error, io, hcom⟩
    · rw [hcom] at hs
      cases hs
      exact he.elim
    · rw [hcom] at hs
      cases hs
      rfl
  | pop =>
    rcases pop_cases hs with ⟨_, _, _, _, _, _, -, rfl, rfl, hl⟩ | ⟨hb, _, -, rfl, rfl, rfl⟩ |
        ⟨hb, rfl, rfl, -⟩
    · exact absurd he (hlooked hl)
    · exact hb
    · exact hb
  | materialize durable successor =>
    rcases materialize_cases hs with ⟨_, _, -, rfl, ⟨-, rfl, rfl⟩ | ⟨-, rfl, rfl⟩⟩ | ⟨_, rfl, rfl, rfl⟩
    · exact he.elim
    · exact he.elim
    · exact he.elim
  | publish durable plan successor =>
    cases hs
    exact he.elim
  | applied successor =>
    cases hs
    cases successor <;> exact he.elim
  | abandon successor error =>
    cases successor with
    | none =>
      cases hs
      rfl
    | some pending =>
      simp only [workerStep] at hs
      rcases completeAdmission_cases intents w pending with ⟨io, fileLen, hcom⟩ | ⟨failure, io, hcom⟩
      · rw [hcom] at hs
        cases hs
        rfl
      · rw [hcom] at hs
        cases hs
        rfl
  | deliver messages next =>
    cases messages with
    | nil =>
      cases hs
      exact h he
    | cons message messages =>
      cases message <;> cases hs <;> exact h he
  | returned =>
    cases hs
    exact h trivial
  | close =>
    cases hs
    exact h trivial
  | done => cases hs

/-- **A step of the worker** keeps what it knows. -/
theorem WorkerOk.step (h : WorkerOk intents database opened first a w p)
    (hs : workerStep maxBatch maxUnapplied intents a w p = some (a', w', p')) :
    WorkerOk intents database opened first a' w' p' := by
  have hlength : ∀ durable plan successor, p = .publish durable plan successor →
      plan.outcomes.length = durable.staged.length := by
    rintro durable plan successor rfl
    obtain ⟨hplan, -⟩ := h.promises.publishing
    rw [hplan.outcomes.1, List.length_map]
  have hacc := h.accounts.worker hlength hs
  exact ⟨h.observed.worker h.accounts hacc hs, hacc, h.journal.worker hs, h.promises.worker hs,
    rest_worker h.rest hs⟩

theorem WorkerOk.client {new : List Command} (h : WorkerOk intents database opened first a w p)
    (hc : Client a a' new) (hobs : Observed a') : WorkerOk intents database opened first a' w p :=
  ⟨hobs, h.accounts.client hc, h.journal.client hc, h.promises.client hc, h.rest⟩

/-- Only a receive that waits blocks the worker. -/
theorem nextCommand_waits {waits : Bool} (h : nextCommand waits a w = none) : waits = true := by
  unfold nextCommand at h
  repeat' split at h
  all_goals first | (cases h; done) | skip
  assumption

/-- The worker is stuck only when it waits for a command or is done; then it owes nothing. -/
theorem WorkerOk.waits (h : WorkerOk intents database opened first a w p)
    (hs : workerStep maxBatch maxUnapplied intents a w p = none) :
    p.messages = [] ∧ p.flight = [] ∧ p.durable ++ w.backlog = [] := by
  cases p with
  | fill =>
    simp only [workerStep] at hs
    split at hs
    · split at hs
      · rename_i hnext
        refine ⟨rfl, rfl, ?_⟩
        simpa using nextCommand_waits hnext
      · cases hs
      · cases hs
    · cases hs
  | done => exact ⟨rfl, rfl, h.rest trivial⟩
  | claim purpose batch =>
    simp only [workerStep] at hs
    repeat' split at hs
    all_goals cases hs
  | submit purpose staged =>
    simp only [workerStep] at hs
    repeat' split at hs
    all_goals cases hs
  | complete pending =>
    simp only [workerStep] at hs
    split at hs <;> cases hs
  | pop =>
    simp only [workerStep] at hs
    split at hs
    · split at hs
      · split at hs
        · rename_i hnext
          cases nextCommand_waits hnext
        · cases hs
        · cases hs
      · cases hs
    · split at hs
      · cases hs
      · split at hs <;> cases hs
  | materialize durable successor =>
    simp only [workerStep] at hs
    repeat' split at hs
    all_goals cases hs
  | publish durable plan successor => cases hs
  | applied successor => cases hs
  | abandon successor error =>
    cases successor with
    | none => cases hs
    | some pending =>
      simp only [workerStep] at hs
      split at hs <;> cases hs
  | deliver messages next =>
    cases messages with
    | nil => cases hs
    | cons message messages => cases message <;> cases hs
  | returned => cases hs
  | close => cases hs

end Worker

/-! ## All threads -/

/-- What a call knows of the channel and of its own reply. -/
structure CallOk (id : ℕ) (a : Shared) (q : CallPlace) : Prop where
  valid : Valid q
  fresh : MaySend q → ∀ c ∈ a.sent, ¬ c.By id
  flushed : q = .returned .flushed → id ∈ a.flushed

/-- What every thread knows at its place. -/
def ok (intents : Ticket → QueuedIntent) (database : World) (opened : List UInt8) (first : ℕ) :
    (i : Thread) → Shared → Place i → Prop
  | .worker, a, p => WorkerOk intents database opened first a p.1 p.2
  | .call id, a, p => CallOk id a p
  | .registrar, _, _ => True

theorem CallOk.mono {id : ℕ} {a a' : Shared} {q : CallPlace} (h : CallOk id a q)
    {new : List Command} (hsent : a'.sent = a.sent ++ new) (hflushed : a.flushed ⊆ a'.flushed)
    (hnew : ∀ c ∈ new, ¬ c.By id) : CallOk id a' q where
  valid := h.valid
  fresh := by
    intro hq c hc
    rw [hsent, List.mem_append] at hc
    rcases hc with hc | hc
    · exact h.fresh hq c hc
    · exact hnew c hc
  flushed := fun hq => hflushed (h.flushed hq)

/-- A command of a call is of no other call. -/
theorem Sends.by_eq {id id' : ℕ} {c : Command} (h : Sends id c) (h' : c.By id') : id' = id := by
  obtain ⟨-, hall, -⟩ := h.tickets
  rcases h with ⟨request, -, rfl⟩ | rfl
  · cases request with
    | intent => exact h'.symm
    | epoch count =>
      obtain ⟨t, ht, rfl⟩ := h'
      exact hall t ht
  · exact h'.symm

/-- **A call that sends its command** keeps what an observer sees. -/
theorem Observed.client {a a' : Shared} {new : List Command} (h : Observed a)
    (hc : Client a a' new) (hcommands : a'.sent.Nodup) (hunique : (tickets a'.sent).Nodup) :
    Observed a' := by
  refine ⟨hcommands, hunique, ?_, fun f hf => ?_⟩
  · rw [hc.attempted, hc.sent, tickets_append]
    exact h.claimed.trans (List.prefix_append _ _)
  · rw [hc.flushed] at hf
    obtain ⟨hmem, hbefore⟩ := h.flushed f hf
    rw [hc.sent] at hcommands ⊢
    refine ⟨List.mem_append_left _ hmem, fun xs zs heq t ht => ?_⟩
    obtain ⟨ys, hys⟩ := Threads.split_of_mem heq hmem hcommands
    rw [hc.materialised]
    exact hbefore xs ys hys t ht

/-- **One step of any thread** keeps what every thread knows, and what was sent. -/
theorem ok_moves {s t : System} {i : Thread} (h : s.Annotated (ok intents database opened first))
    (hs : s.Moves (step maxBatch maxUnapplied intents) i t) :
    t.Annotated (ok intents database opened first) ∧ s.shared.sent <+: t.shared.sent := by
  obtain ⟨c, a, p, hstep, rfl⟩ := hs
  have hworker : WorkerOk intents database opened first s.shared (s.place .worker).1
      (s.place .worker).2 := h .worker
  cases i with
  | worker =>
    obtain ⟨w', p'⟩ := p
    have hstep' : workerStep maxBatch maxUnapplied intents s.shared (s.place .worker).1
        (s.place .worker).2 = some (a, w', p') := hstep
    obtain ⟨hsent, -, -, hflushed⟩ := workerStep_grows hstep'
    have hsub : s.shared.flushed ⊆ a.flushed := by
      rcases hflushed with heq | ⟨call, heq, -⟩
      · rw [heq]; exact List.Subset.refl _
      · rw [heq]; exact List.subset_append_left _ _
    refine ⟨Threads.Annotated.moves (hworker.step hstep') fun j hj => ?_, by simp [hsent]⟩
    cases j with
    | worker => exact absurd rfl hj
    | registrar => trivial
    | call id =>
      have hcall : CallOk id s.shared (s.place (.call id)) := h (.call id)
      exact hcall.mono (by rw [hsent, List.append_nil]) hsub (by simp)
  | registrar =>
    simp only [step, registrarStep] at hstep
    split at hstep
    · cases hstep
      rename_i validator
      have hclient : Client s.shared
          { s.shared with validators := s.shared.validators ++ [validator] } [] :=
        ⟨rfl, rfl, rfl, rfl, rfl, rfl, rfl, rfl, by simp, by simp⟩
      refine ⟨Threads.Annotated.moves trivial fun j hj => ?_, List.prefix_refl _⟩
      cases j with
      | worker =>
        exact hworker.client hclient (hworker.observed.client hclient hworker.observed.commands
          hworker.observed.unique)
      | registrar => exact absurd rfl hj
      | call id =>
        have hcall : CallOk id s.shared (s.place (.call id)) := h (.call id)
        exact hcall.mono hclient.sent (List.Subset.refl _) (by simp)
    · cases hstep
  | call id =>
    have hcall : CallOk id s.shared (s.place (.call id)) := h (.call id)
    obtain ⟨new, hclient, hvalid, hflush, hcases⟩ := callStep_cases hstep hcall.valid
    -- what the call sends is new, and of this call only
    have hnew : ∀ x ∈ new, Sends id x ∧ MaySend (s.place (.call id)) := by
      rcases hcases with ⟨rfl, -⟩ | ⟨hmay, -, command, rfl, hsends⟩
      · simp
      · intro x hx
        obtain rfl := List.mem_singleton.1 hx
        exact ⟨hsends, hmay⟩
    have hcommands : a.sent.Nodup := by
      rw [hclient.sent, List.nodup_append]
      refine ⟨hworker.observed.commands, ?_, fun x hx y hy hxy => ?_⟩
      · rcases hcases with ⟨rfl, -⟩ | ⟨-, -, command, rfl, -⟩ <;> simp
      · obtain ⟨hsends, hmay⟩ := hnew y hy
        exact hcall.fresh hmay x hx (hxy ▸ hsends.tickets.2.2)
    have hunique : (tickets a.sent).Nodup := by
      rw [hclient.sent, tickets_append, List.nodup_append]
      refine ⟨hworker.observed.unique, ?_, fun x hx y hy hxy => ?_⟩
      · rcases hcases with ⟨rfl, -⟩ | ⟨-, -, command, rfl, hsends⟩
        · exact List.nodup_nil
        · rw [tickets_singleton]
          exact hsends.tickets.1
      · subst hxy
        obtain ⟨command, hcommand, hx'⟩ := List.mem_flatMap.1 hx
        obtain ⟨command', hcommand', hy'⟩ := List.mem_flatMap.1 hy
        obtain ⟨hsends, hmay⟩ := hnew command' hcommand'
        refine hcall.fresh hmay command hcommand ?_
        have hid := hsends.tickets.2.1 x hy'
        cases command with
        | barrier call => cases hx'
        | intent ticket =>
          obtain rfl := List.mem_singleton.1 hx'
          exact hid
        | epoch ts => exact ⟨x, hx', hid⟩
    have hown : CallOk id a p := by
      refine ⟨hvalid, fun hp x hx => ?_, fun hp => by rw [hclient.flushed]; exact hflush hp⟩
      rcases hcases with ⟨rfl, hmay⟩ | ⟨-, hmay, -⟩
      · rw [hclient.sent, List.append_nil] at hx
        exact hcall.fresh (hmay hp) x hx
      · exact absurd hp hmay
    refine ⟨Threads.Annotated.moves hown fun j hj => ?_, by simp [hclient.sent]⟩
    cases j with
    | worker => exact hworker.client hclient (hworker.observed.client hclient hcommands hunique)
    | registrar => trivial
    | call id' =>
      have hother : CallOk id' s.shared (s.place (.call id')) := h (.call id')
      refine hother.mono hclient.sent (by rw [hclient.flushed]; exact List.Subset.refl _)
        fun x hx hby => hj ?_
      rw [(hnew x hx).1.by_eq hby]

/-- The runs of an admission controller. -/
abbrev Run (maxBatch maxUnapplied : ℕ) (intents : Ticket → QueuedIntent) : System → System → Prop :=
  Threads.Run (step maxBatch maxUnapplied intents) fun _ _ _ => True

theorem ok_run {s t : System} (h : Run maxBatch maxUnapplied intents s t)
    (hs : s.Annotated (ok intents database opened first)) :
    t.Annotated (ok intents database opened first) ∧ s.shared.sent <+: t.shared.sent := by
  induction h with
  | refl => exact ⟨hs, List.prefix_refl _⟩
  | tail _ hmoves _ ih =>
    obtain ⟨hok, hsent⟩ := ok_moves ih.1 hmoves
    exact ⟨hok, ih.2.trans hsent⟩

theorem initial_ok (engine : EngineState) (validators : List Validator) (io : EpochFileIo)
    (epochs : ℕ) : (initial engine validators io epochs).Annotated
      (ok intents engine.1 io.bytes (epochs + 1)) := by
  intro i
  cases i with
  | registrar => trivial
  | worker =>
    refine ⟨⟨List.nodup_nil, List.nodup_nil, List.prefix_refl _, fun f hf => (by cases hf)⟩, ?_, ?_,
      ?_, fun he => he.elim⟩
    · exact ⟨fun _ => ⟨[], rfl, rfl, fun _ hc => (by cases hc)⟩, fun c hc => (by cases hc),
        fun hc => hc.elim, rfl, rfl, fun _ => rfl, List.prefix_refl _, List.prefix_refl _,
        fun _ => rfl, rfl, .refl _⟩
    · refine ⟨?_, fun _ => ⟨?_, rfl⟩, fun pending hp => (by cases hp)⟩
      · simp [initial, recordsOf]
      · simp [initial, recordsOf]
    · exact ⟨.nil, trivial, fun t r w e ht => (by cases ht), fun t r w e ht => (by cases ht),
        List.mem_singleton.2 rfl⟩
  | call id =>
    exact ⟨trivial, fun _ c hc => (by cases hc), fun hq => (by cases hq)⟩

/-- What an admission controller promises in every state. -/
structure Complete (maxBatch maxUnapplied : ℕ) (intents : Ticket → QueuedIntent) (database : World)
    (opened : List UInt8) (first : ℕ) (a : Shared) (w : Worker) (p : Phase) : Prop where
  /-- Epochs are numbered one behind the other. -/
  numbered : a.attempted.map StagedEpoch.id = List.range' first a.attempted.length
  /-- What the worker took from the channel is in the epochs or in the batch that it collects, in
  the order in which it was sent, and nothing is sent twice. -/
  claimed : (¬ p.Gone → ∃ taken, a.sent = taken ++ w.pending ++ a.queue ∧
      tickets taken = stagedOf a.attempted ++ p.batch) ∧
    stagedOf a.attempted <+: tickets a.sent ∧ (tickets a.sent).Nodup
  /-- They are written in their order, and the journal holds their records behind what it had. -/
  written : a.written <+: a.attempted ∧ opened ++ recordsOf intents a.written <+: w.io.bytes
  /-- They are materialized in their order, each on the world that was published before it. -/
  materialised : a.materialised.map Prod.fst <+: a.written ∧
    Materialised intents database a.materialised a.current
  /-- No intent has a second admission result or a second outcome, and only intents of an epoch have
  one. -/
  once : (a.admissions.map Prod.fst).Nodup ∧ (a.outcomes.map Prod.fst).Nodup ∧
    (∀ t ∈ a.admissions.map Prod.fst, t ∈ stagedOf a.attempted) ∧
    ∀ t ∈ a.outcomes.map Prod.fst, t ∈ stagedOf a.attempted
  /-- The worker can go on until every intent of an epoch has both. -/
  answered : workerStep maxBatch maxUnapplied intents a w p = none →
    ∀ t ∈ stagedOf a.attempted, t ∈ a.admissions.map Prod.fst ∧ t ∈ a.outcomes.map Prod.fst
  /-- The world of an accepted intent is published. -/
  accepted : ∀ t r world entities, (t, .accepted r world entities) ∈ a.outcomes →
    a.Accepts t r world entities
  /-- Everything that was sent before an answered barrier is materialized. -/
  flushed : ∀ f ∈ a.flushed, ∀ xs zs, a.sent = xs ++ .barrier f :: zs →
    ∀ t ∈ tickets xs, t ∈ stagedOf (a.materialised.map Prod.fst)

theorem WorkerOk.complete {a : Shared} {w : Worker} {p : Phase}
    (h : WorkerOk intents database opened first a w p) :
    Complete maxBatch maxUnapplied intents database opened first a w p := by
  have hobs := h.observed
  have hacc := h.accounts
  have hprom := h.promises
  have hattempted : (stagedOf a.attempted).Nodup := hobs.claimed.sublist.nodup hobs.unique
  have hadmitted := hacc.admitted
  have hanswered := hacc.answered
  refine ⟨hacc.ids, ⟨fun hg => ?_, hobs.claimed, hobs.unique⟩, ⟨hacc.written, h.journal.holds⟩,
    ⟨hacc.materialised, hprom.planned⟩, ?_, fun hwait => ?_, hprom.outcomes,
    fun f hf => (hobs.flushed f hf).2⟩
  · obtain ⟨taken, hsent, htaken, -⟩ := hacc.sent hg
    exact ⟨taken, hsent, htaken⟩
  · have hadm : (a.admissions.map Prod.fst).Sublist (stagedOf a.attempted) := by
      rw [← hadmitted, List.append_assoc]
      exact List.sublist_append_left _ _
    have hout := (hanswered.nodup_iff.2 hattempted)
    rw [List.append_assoc] at hout
    refine ⟨hadm.nodup hattempted, (List.sublist_append_left _ _).nodup hout,
      fun t ht => hadm.subset ht, fun t ht => hanswered.mem_iff.1 ?_⟩
    rw [List.append_assoc]
    exact List.mem_append_left _ ht
  · obtain ⟨hmessages, hflight, hrest⟩ := h.waits hwait
    rw [hmessages, hflight] at hadmitted
    rw [hmessages, hflight, hrest] at hanswered
    intro t ht
    refine ⟨?_, ?_⟩
    · rw [← hadmitted] at ht
      simpa using ht
    · simpa using hanswered.mem_iff.2 ht

/-- **The admission controller is complete.** In every state `t` of every run of its threads,
with any failure of its I/O, what `Complete` says holds; and a `flush` that started in a state
`s` returns only when everything that was sent by then is materialized. -/
theorem admission_complete {engine : EngineState} {validators : List Validator} {io : EpochFileIo}
    {epochs : ℕ} {s t : System}
    (hs : Run maxBatch maxUnapplied intents (initial engine validators io epochs) s)
    (ht : Run maxBatch maxUnapplied intents s t) :
    Complete maxBatch maxUnapplied intents engine.1 io.bytes (epochs + 1) t.shared
      (t.place .worker).1 (t.place .worker).2 ∧
    ∀ f, s.place (.call f) = CallPlace.idle → t.place (.call f) = CallPlace.returned .flushed →
      ∀ u ∈ tickets s.shared.sent, u ∈ stagedOf (t.shared.materialised.map Prod.fst) := by
  obtain ⟨hsok, -⟩ := ok_run hs (initial_ok engine validators io epochs)
  obtain ⟨htok, new, hnew⟩ := ok_run ht hsok
  have hworker : WorkerOk intents engine.1 io.bytes (epochs + 1) t.shared (t.place .worker).1
      (t.place .worker).2 := htok .worker
  refine ⟨hworker.complete, fun f hidle hflushed u hu => ?_⟩
  have hf : CallOk f s.shared (s.place (.call f)) := hsok (.call f)
  have hf' : CallOk f t.shared (t.place (.call f)) := htok (.call f)
  -- the barrier was sent behind everything that was sent in `s`
  obtain ⟨hmem, hbefore⟩ := hworker.observed.flushed f (hf'.flushed hflushed)
  have hfresh : .barrier f ∉ s.shared.sent := fun hin =>
    hf.fresh (by rw [hidle]; trivial) _ hin rfl
  rw [← hnew, List.mem_append] at hmem
  obtain ⟨xs, zs, rfl⟩ := List.append_of_mem (hmem.resolve_left hfresh)
  refine hbefore (s.shared.sent ++ xs) zs (by rw [← hnew, List.append_assoc]) u ?_
  rw [tickets_append]
  exact List.mem_append_left _ hu

/-- An intent that defines a slot, whatever call submits it. -/
def definesSlot (_ : Ticket) : QueuedIntent :=
  (QueuedIntent.new 0).define ⟨"s"⟩ ⟨.literal ⟨"x"⟩, ⟨"p"⟩, .literal ⟨"y"⟩⟩

/-- A controller on a journal that holds its header. -/
def onNewJournal : System :=
  initial (.genesis, .world) [] ⟨Journal.journalHeader, 0, [], true⟩ 0

/-- A call submits an intent. -/
def submitting : List (Thread × Choice) :=
  (.call 0, .submit) :: List.replicate 3 (.call 0, .go)

/-- Another call flushes, and the worker runs until it waits. -/
def flushing : List (Thread × Choice) :=
  (.call 1, .flush) :: List.replicate 2 (.call 1, .go) ++ List.replicate 15 (.worker, .go) ++
    [(.call 1, .go)]

/-- A ticket is materialized and a flush behind it returns. -/
theorem admission_complete_flushed :
    ∃ s t, Run 8 1 definesSlot onNewJournal s ∧ Run 8 1 definesSlot s t ∧
      Complete 8 1 definesSlot .genesis Journal.journalHeader 1 t.shared (t.place .worker).1
        (t.place .worker).2 ∧
      tickets s.shared.sent = [(0, 0)] ∧
      (0, 0) ∈ stagedOf (t.shared.materialised.map Prod.fst) := by
  cases hs : Threads.follow (step 8 1 definesSlot) onNewJournal submitting with
  | none =>
    have h : (Threads.follow (step 8 1 definesSlot) onNewJournal submitting).isSome = true := by
      decide +kernel
    rw [hs] at h
    cases h
  | some s =>
    cases ht : Threads.follow (step 8 1 definesSlot) s flushing with
    | none =>
      have h : ((Threads.follow (step 8 1 definesSlot) onNewJournal submitting).bind fun s =>
          Threads.follow (step 8 1 definesSlot) s flushing).isSome = true := by
        decide +kernel
      rw [hs] at h
      simp only [Option.bind_some, ht] at h
      cases h
    | some t =>
      have hplaces : ((Threads.follow (step 8 1 definesSlot) onNewJournal submitting).map fun s =>
          decide (tickets s.shared.sent = [(0, 0)] ∧ s.place (.call 1) = CallPlace.idle)) =
            some true := by
        decide +kernel
      have hends : ((Threads.follow (step 8 1 definesSlot) onNewJournal submitting).bind fun s =>
          (Threads.follow (step 8 1 definesSlot) s flushing).map fun t =>
            decide (t.place (.call 1) = CallPlace.returned .flushed)) = some true := by
        decide +kernel
      simp only [hs, ht, Option.map_some, Option.bind_some, Option.some.injEq,
        decide_eq_true_eq] at hplaces hends
      have hrun : Run 8 1 definesSlot
          (initial (.genesis, .world) [] ⟨Journal.journalHeader, 0, [], true⟩ 0) s :=
        Threads.run_of_schedule hs
      have hrun' : Run 8 1 definesSlot s t := Threads.run_of_schedule ht
      obtain ⟨hcomplete, hflush⟩ := admission_complete hrun hrun'
      refine ⟨s, t, hrun, hrun', hcomplete, hplaces.1, hflush 1 hplaces.2 hends (0, 0) ?_⟩
      rw [hplaces.1]
      exact List.mem_singleton.2 rfl

end ForthDB.Controller.Admission
