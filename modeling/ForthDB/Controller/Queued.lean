import ForthDB.Controller.Batching
import ForthDB.Controller.Tickets
import ForthDB.Lib.Interleaving
import ForthDB.Queue.MixedEpoch

/-!
# The in-memory controller

The threads of a `QueuedIntentController`: its worker, any number of calls of `submit`,
`submit_semantic`, `flush` and of the destructor, and whoever else uses the database. An
atomic step is one access to a counter, to the channel, to a ticket or to the database; a
mixed epoch is committed under the database's lock, in one step.

A ticket is named by the call that submitted it, and `intents` says what a call submits.
The counters that only describe the traffic (depths, widths, waits, reasons) are left out.
`queueDepth` and `inFlight` are the counters in front of the reduction to 64 bits, so that
one that has wrapped is negative.

`sent`, `decided`, `answered` and `published` record what happened and decide nothing.
-/

namespace ForthDB.Controller.Queued

/-- `ControllerCommand`, by the call that sent it. -/
inductive Command
  | intent (call : ℕ)
  | barrier (call : ℕ)
deriving DecidableEq, Repr

/-- The calls whose intents are among some commands. -/
def Command.intent? : Command → Option ℕ
  | .intent call => some call
  | .barrier _ => none

abbrev intentsOf (commands : List Command) : List ℕ := commands.filterMap Command.intent?

inductive TicketPhase
  | queued
  | claimed
  | resolved
deriving DecidableEq, Repr

/-- `TicketOutcome` and `SemanticTicketOutcome`. The rejections of queued intents carry what those
of the file controller do. -/
inductive TicketReply
  | accepted (world : World) (entities : EntityMap)
  | rejected (rejection : DurableTicketRejection)
  | semanticAccepted (world : World) (bindings : SemanticBindings)
  | semanticRejected (error : SemanticTicketRejection)

/-- The world of a reply that accepts. -/
def TicketReply.world? : TicketReply → Option World
  | .accepted world _ => some world
  | .semanticAccepted world _ => some world
  | _ => none

/-- An access of the worker to what the threads share. -/
inductive Action
  /-- `release_ingress`. -/
  | release
  | addClaimed
  /-- `lifecycle.claim`. -/
  | claim (call : ℕ)
  | send (call : ℕ) (reply : TicketReply)
  /-- `accepted.fetch_add` or `rejected.fetch_add`. -/
  | count (accepted : Bool)
  /-- `lifecycle.resolve`. -/
  | resolve (call : ℕ)
  | addEpoch
  | storeInFlight (value : ℕ)
  /-- The completion and the outcome are not of one kind. -/
  | unreachable

/-- What the threads share. -/
structure Shared where
  queue : List Command
  /-- The controller still holds the sender. -/
  sender : Bool
  /-- How many calls borrow the controller. -/
  borrows : ℕ
  /-- The worker is gone and the receiver with it. -/
  exited : Bool
  database : Database
  submitted : ℕ
  backpressured : ℕ
  claimed : ℕ
  accepted : ℕ
  rejected : ℕ
  epochs : ℕ
  abandonedTickets : ℕ
  completionDeliveryFailures : ℕ
  queueDepth : ℤ
  inFlight : ℤ
  phase : ℕ → TicketPhase
  abandoned : List ℕ
  /-- The tickets whose receivers are gone. -/
  deaf : List ℕ
  /-- What is in the receivers of the tickets. -/
  replies : List (ℕ × TicketReply)
  /-- The barriers that were answered. -/
  flushed : List ℕ
  /-- Every command that the channel took. -/
  sent : List Command
  /-- Every batch that was committed, with its plan. -/
  decided : List (List ℕ × MixedEpochPlan)
  /-- Every reply that the worker sent, received or not. -/
  answered : List (ℕ × TicketReply)
  /-- Every world that was the head. -/
  published : List World

/-- `tx.send` of a reply; a failure is counted. -/
def Shared.deliver (a : Shared) (call : ℕ) (reply : TicketReply) : Shared :=
  let a := { a with answered := a.answered ++ [(call, reply)] }
  if call ∈ a.deaf then { a with completionDeliveryFailures := a.completionDeliveryFailures + 1 }
  else { a with replies := a.replies ++ [(call, reply)] }

def Shared.perform (a : Shared) : Action → Shared
  | .release => { a with queueDepth := a.queueDepth - 1 }
  | .addClaimed => { a with claimed := a.claimed + 1 }
  | .claim call => { a with phase := Function.update a.phase call .claimed }
  | .send call reply => a.deliver call reply
  | .count true => { a with accepted := a.accepted + 1 }
  | .count false => { a with rejected := a.rejected + 1 }
  | .resolve call => { a with phase := Function.update a.phase call .resolved }
  | .addEpoch => { a with epochs := a.epochs + 1 }
  | .storeInFlight value => { a with inFlight := value }
  | .unreachable => a

inductive Stage
  /-- At the top of the loop, or gathering a batch. -/
  | gathering
  /-- In `process_batch`, in front of `commit_mixed_epoch`. -/
  | committing (batch : List ℕ)
  | exited
deriving DecidableEq, Repr

/-- What `run_worker` keeps for itself. Only barriers are set aside. -/
structure Worker where
  materializer : VmEpochMaterializer
  pending : List ℕ
  sealer : Sealer ℕ
  /-- The accesses that come first. -/
  todo : List Action
  stage : Stage

/-- How a step resolves what the code leaves open. -/
inductive Choice
  | go
  | submit
  | flush
  | drop
  | wait
  | abandon
  | deadline
  | late
  | quiet (slow : Bool)
  | commit (transaction : Transaction)
  | register (validator : Validator)

/-- What the worker meets while it gathers, and the channel behind it. -/
def look (choice : Choice) (queue : List Command) : Reception ℕ × List Command :=
  match choice, queue with
  | .deadline, queue => (.deadline, queue)
  | .late, queue => (.late, queue)
  | _, .intent call :: queue => (.intent call, queue)
  | _, .barrier _ :: queue => (.barrier, queue)
  | .quiet slow, [] => (.quiet slow, [])
  | _, [] => (.empty, [])

/-- `claim`. -/
def claimActions : Reception ℕ → List Action
  | .intent call => [.release, .addClaimed, .claim call]
  | _ => []

/-- A barrier that ended a loop is set aside. -/
def setAside (queue : List Command) : Reception ℕ → List ℕ
  | .barrier =>
    match queue with
    | .barrier call :: _ => [call]
    | _ => []
  | _ => []

/-- The reply to one intent, and how it is counted. -/
def route : ControllerIntent → MixedEpochOutcome → Option (TicketReply × Bool)
  | .queued _, .queuedAccepted accepted => some (.accepted accepted.world accepted.entities, true)
  | .queued _, .queuedRejected rejected => some (.rejected (.fromIntent rejected.error), false)
  | .semantic _, .semanticAccepted accepted =>
    some (.semanticAccepted accepted.world accepted.bindings, true)
  | .semantic _, .semanticRejected rejected => some (.semanticRejected rejected.error, false)
  | _, _ => none

section Steps

variable (capacity : ℕ) (policy : BatchPolicy) (intents : ℕ → ControllerIntent)

/-- The loop of `process_batch` over one completion and its outcome. -/
def routeActions (call : ℕ) (outcome : MixedEpochOutcome) : List Action :=
  match route (intents call) outcome with
  | some (reply, accepted) => [.send call reply, .count accepted, .resolve call]
  | none => [.unreachable]

/-- `process_batch` behind `commit_mixed_epoch`. -/
def completions (batch : List ℕ) (plan : MixedEpochPlan) : List Action :=
  (batch.zip plan.outcomes).flatMap (fun (call, outcome) => routeActions intents call outcome) ++
    [.addEpoch, .storeInFlight 0]

/-- The worker panics: the receiver and what it has not taken are gone. -/
def panicked (a : Shared) (w : Worker) : Shared × Worker :=
  ({ a with exited := true, queue := [] }, { w with todo := [], stage := .exited })

/-- The loop of `run_worker` up to `process_batch`. -/
def gatherStep (choice : Choice) (a : Shared) (w : Worker) : Option (Shared × Worker) :=
  match w.sealer.gathering with
  | .waiting =>
    match w.pending with
    | call :: pending => some ({ a with flushed := a.flushed ++ [call] }, { w with pending := pending })
    | [] =>
      match a.queue with
      | .barrier call :: queue =>
        some ({ a with queue := queue, flushed := a.flushed ++ [call] }, w)
      | .intent call :: queue =>
        (w.sealer.receive policy .queued .waiting (.intent call)).map fun sealer =>
          ({ a with queue := queue },
            { w with sealer := sealer, todo := claimActions (.intent call) })
      | [] =>
        if a.sender then none
        else some ({ a with exited := true }, { w with stage := .exited })
  | .sealed batch _ => some ({ a with inFlight := batch.length }, { w with stage := .committing batch })
  | gathering =>
    let (reception, queue) := look choice a.queue
    (w.sealer.receive policy .queued gathering reception).map fun sealer =>
      ({ a with queue := queue },
        { w with
          sealer := sealer
          pending := w.pending ++ setAside a.queue reception
          todo := claimActions reception })

/-- `commit_mixed_epoch` in `process_batch`. -/
def commitStep (batch : List ℕ) (a : Shared) (w : Worker) : Shared × Worker :=
  match a.database.commitMixedEpoch (batch.map intents) w.materializer with
  | .error _ => panicked a w
  | .ok (plan, database, materializer) =>
    ({ a with
      database := database
      decided := a.decided ++ [(batch, plan)]
      published := a.published ++ [database.current] },
    { w with
      materializer := materializer
      sealer := { w.sealer with gathering := .waiting }
      todo := completions intents batch plan
      stage := .gathering })

/-- `run_worker` and what it calls. -/
def workerStep (choice : Choice) (a : Shared) (w : Worker) : Option (Shared × Worker) :=
  match w.todo with
  | .unreachable :: _ => some (panicked a w)
  | action :: todo => some (a.perform action, { w with todo := todo })
  | [] =>
    match w.stage with
    | .gathering => gatherStep policy choice a w
    | .committing batch => some (commitStep intents batch a w)
    | .exited => none

/-- What a call returns. -/
inductive Outcome
  | full
  | closed
  | flushed
  | stopped
  | answered
  | abandoned
  | dropped
deriving DecidableEq, Repr

inductive CallPlace
  | idle
  | submitReserve
  | submitCount
  | submitRaise
  | submitSend
  | submitRelease (outcome : Outcome)
  | submitLower (outcome : Outcome)
  | submitBackpressured
  /-- `submit` has returned a ticket. -/
  | ticket
  /-- The destructor of the ticket has set `abandoned`. -/
  | ticketDrop
  | flushSend
  | flushWait
  | join
  | returned (outcome : Outcome)
deriving DecidableEq, Repr

/-- The end of a call that borrows the controller. -/
def Shared.giveBack (a : Shared) : Shared := { a with borrows := a.borrows - 1 }

/-- `submit`, `submit_semantic`, `flush` and the destructors, as the call `id`. -/
def callStep (id : ℕ) (choice : Choice) (a : Shared) : CallPlace → Option (Shared × CallPlace)
  | .idle =>
    match choice with
    | .submit =>
      if a.sender then some ({ a with borrows := a.borrows + 1 }, .submitReserve)
      else some (a, .returned .closed)
    | .flush =>
      if a.sender then some ({ a with borrows := a.borrows + 1 }, .flushSend)
      else some (a, .returned .stopped)
    -- the destructor needs the controller for itself
    | .drop => if a.sender ∧ a.borrows = 0 then some ({ a with sender := false }, .join) else none
    | _ => none
  -- `reserve_ingress`
  | .submitReserve =>
    if capacity ≤ a.queueDepth then some (a, .submitBackpressured)
    else some ({ a with queueDepth := a.queueDepth + 1 }, .submitCount)
  | .submitCount => some ({ a with submitted := a.submitted + 1 }, .submitRaise)
  | .submitRaise => some ({ a with inFlight := a.inFlight + 1 }, .submitSend)
  -- `try_send`
  | .submitSend =>
    if a.exited then some (a, .submitRelease .closed)
    else if a.queue.length < capacity then
      some ({ a.giveBack with
        queue := a.queue ++ [.intent id], sent := a.sent ++ [.intent id] }, .ticket)
    else some (a, .submitRelease .full)
  | .submitRelease outcome => some ({ a with queueDepth := a.queueDepth - 1 }, .submitLower outcome)
  | .submitLower outcome =>
    let a := { a with inFlight := a.inFlight - 1 }
    if outcome = .full then some (a, .submitBackpressured) else some (a.giveBack, .returned outcome)
  | .submitBackpressured =>
    some ({ a.giveBack with backpressured := a.backpressured + 1 }, .returned .full)
  | .ticket =>
    match choice with
    | .wait =>
      if (a.replies.lookup id).isSome then some (a, .returned .answered)
      else if a.exited then
        some ({ a with
          abandoned := a.abandoned ++ [id], abandonedTickets := a.abandonedTickets + 1 }, .ticketDrop)
      else none
    | .abandon =>
      some ({ a with
        abandoned := a.abandoned ++ [id], abandonedTickets := a.abandonedTickets + 1 }, .ticketDrop)
    | _ => none
  | .ticketDrop =>
    match choice with
    | .abandon => some ({ a with deaf := a.deaf ++ [id] }, .returned .abandoned)
    | _ => none
  -- `send` waits for room
  | .flushSend =>
    if a.exited then some (a.giveBack, .returned .stopped)
    else if a.queue.length < capacity then
      some ({ a with queue := a.queue ++ [.barrier id], sent := a.sent ++ [.barrier id] }, .flushWait)
    else none
  | .flushWait =>
    if id ∈ a.flushed then some (a.giveBack, .returned .flushed)
    else if a.exited then some (a.giveBack, .returned .stopped)
    else none
  | .join => if a.exited then some (a, .returned .dropped) else none
  | .returned _ => none

/-- Another user of the database. -/
def userStep (choice : Choice) (a : Shared) : Option Shared :=
  match choice with
  | .commit transaction =>
    match a.database.commit transaction with
    | .ok (.ok database) =>
      some { a with database := database, published := a.published ++ [database.current] }
    | _ => none
  | .register validator => some { a with database := a.database.registerValidator validator }
  | _ => none

end Steps

inductive Thread
  | worker
  | user
  | call (id : ℕ)
deriving DecidableEq

abbrev Place : Thread → Type
  | .worker => Worker
  | .user => Unit
  | .call _ => CallPlace

def step (capacity : ℕ) (policy : BatchPolicy) (intents : ℕ → ControllerIntent) :
    (i : Thread) → Choice → Shared → Place i → Option (Shared × Place i)
  | .worker, choice, a, w => workerStep policy intents choice a w
  | .user, choice, a, p => (userStep choice a).map fun a => (a, p)
  | .call id, choice, a, p => callStep capacity id choice a p

/-- A controller with all its threads. -/
abbrev System : Type := Threads Thread Shared Place

/-- `QueuedIntentController::new` on a database. -/
def initial (policy : BatchPolicy) (database : Database) : System where
  shared := {
    queue := []
    sender := true
    borrows := 0
    exited := false
    database := database
    submitted := 0
    backpressured := 0
    claimed := 0
    accepted := 0
    rejected := 0
    epochs := 0
    abandonedTickets := 0
    completionDeliveryFailures := 0
    queueDepth := 0
    inFlight := 0
    phase := fun _ => .queued
    abandoned := []
    deaf := []
    replies := []
    flushed := []
    sent := []
    decided := []
    answered := []
    published := [database.current] }
  place := fun
    | .worker => ({
        materializer := .new 1
        pending := []
        sealer := .new policy
        todo := []
        stage := .gathering } : Worker)
    | .user => ()
    | .call _ => CallPlace.idle

end ForthDB.Controller.Queued
