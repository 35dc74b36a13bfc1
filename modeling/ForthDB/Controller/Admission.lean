import ForthDB.Controller.Tickets
import ForthDB.Journal.Replay
import ForthDB.Lib.Interleaving
import ForthDB.Store.RingEpoch

/-!
# The admission controller

The threads of an `AdmissionEpochController`: its worker, any number of calls of `submit`,
`submit_epoch`, `flush` and `shutdown`, and the registration of validators. The worker
writes an epoch of intents to the journal before it materializes it; the next epoch may
be in flight while it does. An atomic step is one access to what the threads share, one
reply, or one half of a write.

The I/O follows a script. A ticket is named by its call and its position in it, and
`intents` says what is submitted for it. What the worker keeps for itself is a `Worker`.

`sent`, `attempted`, `written`, `materialised` and `published` record what happened and
decide nothing.
-/

namespace ForthDB.Controller.Admission

/-- A staged intent with its two reply channels. -/
abbrev Ticket : Type := ℕ × ℕ

inductive Command
  | intent (ticket : Ticket)
  | epoch (tickets : List Ticket)
  | barrier (call : ℕ)
deriving DecidableEq, Repr

/-- The tickets that a command carries. -/
@[simp] def Command.tickets : Command → List Ticket
  | .intent ticket => [ticket]
  | .epoch tickets => tickets
  | .barrier _ => []

/-- `EpochBatch`, of tickets. -/
structure StagedEpoch where
  id : ℕ
  staged : List Ticket
deriving DecidableEq, Repr

/-- The epoch as the journal encodes it. -/
def StagedEpoch.batch (intents : Ticket → QueuedIntent) (e : StagedEpoch) : EpochBatch :=
  ⟨e.id, e.staged.map intents⟩

structure PendingAdmission where
  batch : StagedEpoch
  startOffset : ℕ
deriving DecidableEq, Repr

structure AdmissionEpochReceipt where
  epochId : ℕ
  position : ℕ
deriving DecidableEq, Repr

inductive AdmissionEpochTicketOutcome
  | accepted (receipt : AdmissionEpochReceipt) (world : World) (entities : EntityMap)
  | rejected (receipt : AdmissionEpochReceipt) (error : DurableTicketRejection)
  | failed (message : String)

/-- A reply on one of the two channels of a ticket. -/
inductive Message
  | admission (ticket : Ticket) (result : Except String AdmissionEpochReceipt)
  | outcome (ticket : Ticket) (outcome : AdmissionEpochTicketOutcome)

/-- `notify_admitted`. -/
def notifyAdmitted (e : StagedEpoch) : List Message :=
  e.staged.zipIdx.map fun (ticket, position) => .admission ticket (.ok ⟨e.id, position⟩)

/-- `fail_batch`. -/
def failBatch (e : StagedEpoch) (error : String) : List Message :=
  e.staged.flatMap fun ticket => [.admission ticket (.error error), .outcome ticket (.failed error)]

/-- `fail_outcomes`. -/
def failOutcomes (e : StagedEpoch) (error : String) : List Message :=
  e.staged.map fun ticket => .outcome ticket (.failed error)

/-- The replies at the end of `materialize`. -/
def routeOutcomes (e : StagedEpoch) (plan : EpochPlan) : List Message :=
  (e.staged.zip plan.outcomes).zipIdx.map fun
    | ((ticket, .accepted accepted), position) =>
      .outcome ticket (.accepted ⟨e.id, position⟩ accepted.world accepted.entities)
    | ((ticket, .rejected rejected), position) =>
      .outcome ticket (.rejected ⟨e.id, position⟩ (.fromIntent rejected.error))

/-- What the threads share. The lock of the sender is held by a call, or free. -/
structure Shared where
  senderLock : Option ℕ
  sender : Bool
  queue : List Command
  /-- The worker is gone and the receiver with it. -/
  exited : Bool
  closed : Bool
  current : World
  validators : List Validator
  /-- `metrics.durable_epochs` and `metrics.applied_epochs`. -/
  durableEpochs : ℕ
  appliedEpochs : ℕ
  admissions : List (Ticket × Except String AdmissionEpochReceipt)
  outcomes : List (Ticket × AdmissionEpochTicketOutcome)
  /-- The barriers that were answered `Ok`. -/
  flushed : List ℕ
  /-- Every command that the channel took. -/
  sent : List Command
  /-- The epochs in the order in which they were handed to the journal. -/
  attempted : List StagedEpoch
  written : List StagedEpoch
  materialised : List (StagedEpoch × EpochPlan)
  /-- Every world that was the current one. -/
  published : List World

/-- What `run_worker` keeps for itself. -/
structure Worker where
  io : EpochFileIo
  fileLen : ℕ
  nextEpoch : ℕ
  materializer : EpochMaterializer
  pending : List Command
  backlog : List StagedEpoch
  barrier : Option ℕ
  disconnected : Bool

/-- What an epoch is claimed for: to fill the backlog, or to be in flight while the epoch
`durable` is materialized. -/
inductive Purpose
  | fill
  | beside (durable : StagedEpoch)
deriving DecidableEq

/-- Where `run_worker` is. -/
inductive Phase
  | fill
  | claim (purpose : Purpose) (batch : List Ticket)
  | submit (purpose : Purpose) (staged : List Ticket)
  | complete (pending : PendingAdmission)
  | pop
  | materialize (durable : StagedEpoch) (successor : Option PendingAdmission)
  | publish (durable : StagedEpoch) (plan : EpochPlan) (successor : Option PendingAdmission)
  | applied (successor : Option PendingAdmission)
  | abandon (successor : Option PendingAdmission) (error : String)
  | deliver (messages : List Message) (next : Phase)
  | returned
  | close
  | done

/-- Where the worker goes when no epoch was claimed. -/
def Purpose.without : Purpose → Phase
  | .fill => .pop
  | .beside durable => .materialize durable none

/-- The rest of a turn of the loop of `run_worker`, behind `materialize`. -/
def afterMaterialize : Option PendingAdmission → Phase
  | none => .fill
  | some pending => .complete pending

/-- Take the next command: one that was set aside, or one of the channel. `none` waits, as
`recv` does; `try_recv` does not. -/
def nextCommand (waits : Bool) (a : Shared) (w : Worker) :
    Option (Option Command × Shared × Worker) :=
  match w.pending with
  | command :: pending => some (some command, a, { w with pending := pending })
  | [] =>
    match a.queue with
    | command :: queue => some (some command, { a with queue := queue }, w)
    | [] =>
      if a.sender = false then some (none, a, { w with disconnected := true })
      else if waits then none
      else some (none, a, w)

/-- What the worker does with a command. -/
def dispatch (purpose : Purpose) (w : Worker) : Command → Worker × Phase
  | .barrier call => ({ w with barrier := some call }, purpose.without)
  | .intent ticket => (w, .claim purpose [ticket])
  | .epoch tickets => (w, .submit purpose tickets)

/-- `fail_durable_backlog`. -/
def failBacklog (w : Worker) (error : String) : List Message × Worker :=
  (w.backlog.flatMap (failOutcomes · error), { w with backlog := [] })

section Journal

variable (intents : Ticket → QueuedIntent)

/-- `submit_admission`. The write touches nothing in front of its offset. -/
def submitAdmission (w : Worker) (e : StagedEpoch) : Except String PendingAdmission × Worker :=
  match { w.io with appendOffset := w.fileLen }.submitContiguousEpoch
    [Journal.encodeEpoch (e.batch intents)] with
  | (.ok (), io) => (.ok ⟨e, w.fileLen⟩, { w with io := io })
  | (.error (phase, error), io) =>
    (.error s!"admission submission failed during {phase.debug}: {error}", { w with io := io })

/-- The repair in `complete_admission`. -/
def repairAdmission (io : EpochFileIo) (startOffset : ℕ) : Except String Unit × EpochFileIo :=
  match io.setLen startOffset with
  | (.error e, io) => (.error e, io)
  | (.ok (), io) => io.syncData

/-- `complete_admission`. -/
def completeAdmission (w : Worker) (p : PendingAdmission) : Except String Unit × Worker :=
  let record := Journal.encodeEpoch (p.batch.batch intents)
  match w.io.completeContiguousEpoch p.startOffset [record] with
  | (.ok (), io) => (.ok (), { w with io := io, fileLen := w.fileLen + record.length })
  | (.error (phase, error), io) =>
    match repairAdmission io p.startOffset with
    | (.ok (), io) =>
      (.error s!"admission failed during {phase.debug} and was repaired: {error}",
        { w with io := io })
    | (.error repair, io) =>
      (.error s!"admission failed during {phase.debug}: {error}; repair failed: {repair}",
        { w with io := io })

end Journal

/-- The text of the halt of a materializer. -/
def haltText : Halt → String
  | .error message => message
  | .panic message => "semantic materializer panicked after durable admission: " ++ message

section Steps

variable (maxBatch maxUnapplied : ℕ) (intents : Ticket → QueuedIntent)

/-- `run_worker` and what it calls. -/
def workerStep (a : Shared) (w : Worker) : Phase → Option (Shared × Worker × Phase)
  | .fill =>
    if w.backlog.length < maxUnapplied ∧ w.barrier = none ∧ w.disconnected = false then
      match nextCommand w.backlog.isEmpty a w with
      | none => none
      | some (none, a, w) => some (a, w, .pop)
      | some (some command, a, w) => some (a, dispatch .fill w command)
    else some (a, w, .pop)
  -- the loop of `claim_batch`
  | .claim purpose batch =>
    if batch.length < maxBatch then
      match a.queue with
      | .intent ticket :: queue =>
        some ({ a with queue := queue }, w, .claim purpose (batch ++ [ticket]))
      | command :: queue =>
        some ({ a with queue := queue }, { w with pending := w.pending ++ [command] },
          .submit purpose batch)
      | [] => some (a, w, .submit purpose batch)
    else some (a, w, .submit purpose batch)
  | .submit purpose staged =>
    let epoch : StagedEpoch := ⟨w.nextEpoch, staged⟩
    let a := { a with attempted := a.attempted ++ [epoch] }
    match submitAdmission intents { w with nextEpoch := w.nextEpoch + 1 } epoch with
    | (.ok pending, w) =>
      match purpose with
      | .fill => some (a, w, .complete pending)
      | .beside durable => some (a, w, .materialize durable (some pending))
    | (.error error, w) =>
      let (backlog, w) := failBacklog w error
      match purpose with
      | .fill => some (a, w, .deliver (failBatch epoch error ++ backlog) .returned)
      | .beside durable =>
        some (a, w, .deliver (failBatch epoch error ++ failOutcomes durable error ++ backlog) .returned)
  | .complete pending =>
    match completeAdmission intents w pending with
    | (.ok (), w) =>
      some ({ a with written := a.written ++ [pending.batch], durableEpochs := a.durableEpochs + 1 },
        { w with backlog := w.backlog ++ [pending.batch] },
        .deliver (notifyAdmitted pending.batch) .fill)
    | (.error error, w) =>
      let (backlog, w) := failBacklog w error
      some (a, w, .deliver (failBatch pending.batch error ++ backlog) .returned)
  -- behind the inner loop
  | .pop =>
    match w.backlog with
    | durable :: backlog =>
      let w := { w with backlog := backlog }
      if w.barrier = none ∧ w.disconnected = false ∧ backlog.length < maxUnapplied then
        match nextCommand false a w with
        | none => none
        | some (none, a, w) => some (a, w, .materialize durable none)
        | some (some command, a, w) => some (a, dispatch (.beside durable) w command)
      else some (a, w, .materialize durable none)
    | [] =>
      match w.barrier with
      | some call =>
        some ({ a with flushed := a.flushed ++ [call] }, { w with barrier := none }, .fill)
      | none => if w.disconnected then some (a, w, .returned) else some (a, w, .fill)
  | .materialize durable successor =>
    match w.materializer.materialize a.current (durable.staged.map intents) a.validators with
    | .ok (plan, m) =>
      let w := { w with materializer := m }
      if plan.frames = [] then
        some ({ a with materialised := a.materialised ++ [(durable, plan)] }, w,
          .deliver (routeOutcomes durable plan) (.applied successor))
      else some (a, w, .publish durable plan successor)
    | .error halt =>
      some (a, w, .deliver (failOutcomes durable (haltText halt)) (.abandon successor (haltText halt)))
  | .publish durable plan successor =>
    some ({ a with
      current := plan.tail
      published := a.published ++ [plan.tail]
      materialised := a.materialised ++ [(durable, plan)] }, w,
      .deliver (routeOutcomes durable plan) (.applied successor))
  | .applied successor =>
    some ({ a with appliedEpochs := a.appliedEpochs + 1 }, w, afterMaterialize successor)
  | .abandon none error =>
    let (backlog, w) := failBacklog w error
    some (a, w, .deliver backlog .returned)
  | .abandon (some pending) error =>
    match completeAdmission intents w pending with
    | (.ok (), w) =>
      let (backlog, w) := failBacklog w error
      some ({ a with written := a.written ++ [pending.batch], durableEpochs := a.durableEpochs + 1 }, w,
        .deliver (notifyAdmitted pending.batch ++ failOutcomes pending.batch error ++ backlog) .returned)
    | (.error failure, w) =>
      let (backlog, w) := failBacklog w error
      some (a, w, .deliver (failBatch pending.batch failure ++ backlog) .returned)
  | .deliver (.admission ticket result :: messages) next =>
    some ({ a with admissions := a.admissions ++ [(ticket, result)] }, w, .deliver messages next)
  | .deliver (.outcome ticket outcome :: messages) next =>
    some ({ a with outcomes := a.outcomes ++ [(ticket, outcome)] }, w, .deliver messages next)
  | .deliver [] next => some (a, w, next)
  | .returned => some ({ a with exited := true, queue := [] }, w, .close)
  | .close => some ({ a with closed := true }, w, .done)
  | .done => none

theorem workerStep_done (a : Shared) (w : Worker) :
    workerStep maxBatch maxUnapplied intents a w .done = none := by
  simp only [workerStep]

end Steps

/-- What a call of `submit` or `submit_epoch` sends: one intent, or some. -/
inductive Request
  | intent
  | epoch (count : ℕ)
deriving DecidableEq

def Request.command (id : ℕ) : Request → Command
  | .intent => .intent (id, 0)
  | .epoch count => .epoch ((List.range count).map fun position => (id, position))

/-- What a call returns. -/
inductive Outcome
  | tickets
  | full
  | closed
  | flushed
  | stopped
  | shutDown
deriving DecidableEq, Repr

inductive CallPlace
  | idle
  | submitClosed (request : Request)
  | submitLock (request : Request)
  | submitSend (request : Request)
  | flushLock
  | flushSend
  | flushWait
  | shutdownTake
  | shutdownJoin
  | returned (outcome : Outcome)
deriving DecidableEq

/-- How a step resolves what the code leaves open. -/
inductive Choice
  | go
  | submit
  | submitEpoch (count : ℕ)
  | flush
  | shutdown
  | full
  | register (validator : Validator)

/-- `submit`, `submit_epoch`, `flush` and `shutdown`, as the call `id`. A `flush` holds the lock
of the sender until it returns. -/
def callStep (id : ℕ) (choice : Choice) (a : Shared) : CallPlace → Option (Shared × CallPlace)
  | .idle =>
    match choice with
    | .submit => some (a, .submitClosed .intent)
    | .submitEpoch 0 => some (a, .returned .tickets)
    | .submitEpoch (count + 1) => some (a, .submitClosed (.epoch (count + 1)))
    | .flush => some (a, .flushLock)
    | .shutdown => some (a, .shutdownTake)
    | _ => none
  | .submitClosed request =>
    if a.closed then some (a, .returned .closed) else some (a, .submitLock request)
  | .submitLock request =>
    if a.senderLock = none then
      if a.sender then some ({ a with senderLock := some id }, .submitSend request)
      else some (a, .returned .closed)
    else none
  | .submitSend request =>
    match choice with
    | .full => some ({ a with senderLock := none }, .returned .full)
    | _ =>
      if a.exited then some ({ a with senderLock := none }, .returned .closed)
      else
        some ({ a with
          senderLock := none
          queue := a.queue ++ [request.command id]
          sent := a.sent ++ [request.command id] }, .returned .tickets)
  | .flushLock =>
    if a.senderLock = none then
      if a.sender then some ({ a with senderLock := some id }, .flushSend)
      else some (a, .returned .stopped)
    else none
  | .flushSend =>
    if a.exited then some ({ a with senderLock := none }, .returned .stopped)
    else
      some ({ a with queue := a.queue ++ [.barrier id], sent := a.sent ++ [.barrier id] }, .flushWait)
  | .flushWait =>
    if id ∈ a.flushed then some ({ a with senderLock := none }, .returned .flushed)
    else if a.exited then some ({ a with senderLock := none }, .returned .stopped)
    else none
  | .shutdownTake =>
    if a.senderLock = none then some ({ a with sender := false }, .shutdownJoin) else none
  | .shutdownJoin =>
    if a.exited then some ({ a with closed := true }, .returned .shutDown) else none
  | .returned _ => none

inductive Thread
  | worker
  | registrar
  | call (id : ℕ)
deriving DecidableEq

abbrev Place : Thread → Type
  | .worker => Worker × Phase
  | .registrar => Unit
  | .call _ => CallPlace

/-- `register_validator`. -/
def registrarStep (choice : Choice) (a : Shared) (place : Unit) : Option (Shared × Unit) :=
  match choice with
  | .register validator => some ({ a with validators := a.validators ++ [validator] }, place)
  | _ => none

def step (maxBatch maxUnapplied : ℕ) (intents : Ticket → QueuedIntent) :
    (i : Thread) → Choice → Shared → Place i → Option (Shared × Place i)
  | .worker, _, a, p => workerStep maxBatch maxUnapplied intents a p.1 p.2
  | .registrar, choice, a, p => registrarStep choice a p
  | .call id, choice, a, p => callStep id choice a p

/-- A controller with all its threads. -/
abbrev System : Type := Threads Thread Shared Place

/-- A controller that was opened on a journal of `epochs` epochs: the world and the materializer
are those of the replay. -/
def initial (engine : EngineState) (validators : List Validator) (io : EpochFileIo) (epochs : ℕ) :
    System where
  shared := {
    senderLock := none
    sender := true
    queue := []
    exited := false
    closed := false
    current := engine.1
    validators := validators
    durableEpochs := epochs
    appliedEpochs := epochs
    admissions := []
    outcomes := []
    flushed := []
    sent := []
    attempted := []
    written := []
    materialised := []
    published := [engine.1] }
  place := fun
    | .worker => ({
        io := io
        fileLen := io.bytes.length
        nextEpoch := epochs + 1
        materializer := engine.2
        pending := []
        backlog := []
        barrier := none
        disconnected := false }, .fill)
    | .registrar => ()
    | .call _ => CallPlace.idle

end ForthDB.Controller.Admission
