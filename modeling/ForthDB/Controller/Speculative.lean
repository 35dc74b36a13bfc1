import ForthDB.Controller.Lifecycle
import ForthDB.Controller.Tickets
import ForthDB.Queue.DurablePlanning
import ForthDB.Store.RingEpoch

/-!
# The speculative controller

The worker of `new_speculative` plans the successor of an epoch while the epoch's write is
in flight. Openers and calls are those of the lifecycle, but a `flush` returns what the
worker answered. An atomic step of the worker is one access to what it shares: the state,
the channel, the published world, a reply. It holds the lock of the store from preparing
an epoch to finishing it and the commit lock throughout a pipeline, so only the worker
acts on the store and publishes.

What the I/O does is the script of the store's I/O. The calls to `submit` are told apart
by their ids, and `intents` says what each of them submits.

`sent`, `claimed` and `settled` record what happened and decide nothing.
-/

namespace ForthDB

namespace Controller.Speculative

/-- `PreparedDurableBatch`: the calls whose intents it holds, and their plan. -/
structure PreparedDurableBatch where
  source : List ℕ
  plan : EpochPlan

/-- `derive_prepared_batch`: an `error` is the panic it caught. -/
def derivePreparedBatch (intents : ℕ → QueuedIntent) (source : List ℕ) (base : World)
    (validators : List Validator) : Except (List ℕ × String) PreparedDurableBatch :=
  match durablePlan base (source.map intents) validators with
  | .ok plan => .ok ⟨source, plan⟩
  | .error message => .error (source, "speculative epoch derivation failed: " ++ message)

/-- `route_success`. -/
def routeSuccess (p : PreparedDurableBatch) : List (ℕ × DurableTicketOutcome) :=
  (p.source.zip p.plan.outcomes).map fun
    | (call, .accepted accepted) =>
      (call, .accepted accepted.world accepted.frame accepted.entities)
    | (call, .rejected rejected) => (call, .rejected (.fromIntent rejected.error))

/-- `route_failure`. -/
def routeFailure (p : PreparedDurableBatch) (error : FileEpochStoreError) :
    List (ℕ × DurableTicketOutcome) :=
  (p.source.zip p.plan.outcomes).map fun
    | (call, .accepted _) => (call, .durabilityFailed (toString error))
    | (call, .rejected rejected) => (call, .rejected (.fromIntent rejected.error))

/-- `route_stopped` of `finish_stopped_batch`. -/
def routeStopped (source : List ℕ) (reason : String) : List (ℕ × DurableTicketOutcome) :=
  source.map fun call => (call, .stopped (.workerFailed reason))

/-- What the threads share. -/
structure Shared where
  control : Controller.Shared
  validators : List Validator
  current : World
  store : FileEpochStore
  /-- The replies to tickets, in the order they were sent. -/
  answers : List (ℕ × DurableTicketOutcome)
  /-- The replies to barriers: whether they were `Ok`. -/
  flushed : List (ℕ × Bool)
  /-- Every command that the channel took. -/
  sent : List Command
  /-- The calls in the order in which the worker claimed their intents. -/
  claimed : List ℕ
  /-- The epochs that were published or have failed, and which. -/
  settled : List (PreparedDurableBatch × Bool)

/-- What a batch is claimed for: to start a pipeline, to continue it behind an epoch without
frames, or to be planned while an epoch is in flight. -/
inductive Stage
  | first
  | afterEmpty (validators : List Validator)
  | inFlight (prepared : PreparedDurableBatch) (file : PreparedFileEpoch)
      (validators : List Validator)

/-- The successor that was claimed while an epoch was in flight. -/
abbrev Successor : Type := Option (Except (List ℕ × String) PreparedDurableBatch)

inductive DrainReason
  | shutdown
  | workerFailed (message : String)
deriving DecidableEq, Repr

/-- The worker between two accesses; `pending` is what it has set aside. -/
inductive SpeculativePlace
  | recv (pending : List Command)
  | check (command : Command) (pending : List Command)
  | reason (command : Command) (pending : List Command)
  | successor (stage : Stage) (pending : List Command)
  | claim (stage : Stage) (batch : List ℕ) (pending : List Command)
  | derive (stage : Stage) (batch : List ℕ) (pending : List Command)
  | prepare (prepared : PreparedDurableBatch) (validators : List Validator)
      (pending : List Command)
  | submit (prepared : PreparedDurableBatch) (file : PreparedFileEpoch)
      (validators : List Validator) (pending : List Command)
  | complete (prepared : PreparedDurableBatch) (file : PreparedFileEpoch) (successor : Successor)
      (validators : List Validator) (pending : List Command)
  | publish (prepared : PreparedDurableBatch) (successor : Successor)
      (validators : List Validator) (pending : List Command)
  | settle (successor : Successor) (persisted : Bool) (validators : List Validator)
      (pending : List Command)
  | deliver (answers : List (ℕ × DurableTicketOutcome)) (next : SpeculativePlace)
  | poison (reason : String) (pending : List Command)
  | state (reason : String) (pending : List Command)
  | poisonStore (reason : String) (pending : List Command)
  | takeSender (reason : String) (pending : List Command)
  | drain (reason : DrainReason) (commands : List Command)
  | exitRead
  | exitPoison
  | exitState
  | exitStore
  | exitReadAgain
  | exitClose
  | finish
  | done

/-- The command at the head of the channel is taken. -/
def Shared.take (a : Shared) (queue : List Command) : Shared :=
  { a with control := { a.control with queue := queue } }

/-- `claim`, of the intent at the head of the channel or set aside. -/
def Shared.claim (a : Shared) (call : ℕ) : Shared := { a with claimed := a.claimed ++ [call] }

/-- Where the worker goes when it found no successor. -/
def Stage.alone (pending : List Command) : Stage → SpeculativePlace
  | .first | .afterEmpty _ => .recv pending
  | .inFlight p file vs => .complete p file none vs pending

/-- Where the worker goes with a batch that was derived on the published world. -/
def start (derived : Except (List ℕ × String) PreparedDurableBatch) (validators : List Validator)
    (pending : List Command) : SpeculativePlace :=
  match derived with
  | .ok p => .prepare p validators pending
  | .error (source, reason) => .deliver (routeStopped source reason) (.poison reason pending)

/-- `reject_command`. -/
def Shared.reject (a : Shared) (reason : DrainReason) : Command → Shared
  | .intent call => { a with answers := a.answers ++ [(call, .stopped (match reason with
      | .shutdown => .shutdownBeforeClaim
      | .workerFailed message => .workerFailed message))] }
  | .barrier call => { a with flushed := a.flushed ++ [(call, false)] }

/-- `publish_and_route_success`, up to its replies. -/
def Shared.publish (a : Shared) (p : PreparedDurableBatch) : Shared :=
  { a with current := p.plan.tail, settled := a.settled ++ [(p, true)] }

/-- An epoch has failed and left the store as `store`. -/
def Shared.fail (a : Shared) (store : FileEpochStore) (p : PreparedDurableBatch) : Shared :=
  { a with store := store, settled := a.settled ++ [(p, false)] }

/-- The reason of a worker that returns while the state is `Running`. -/
def exitReason : String := "speculative durability worker exited while controller was running"

section Worker

variable (maxBatch : ℕ) (intents : ℕ → QueuedIntent)

/-- `run_speculative_io_uring_worker` and what it calls. -/
def workerStep (a : Shared) : SpeculativePlace → Option (Shared × SpeculativePlace)
  | .recv (command :: pending) => some (a, .check command pending)
  | .recv [] =>
    match a.control.queue with
    | command :: queue => some (a.take queue, .check command [])
    | [] => if a.control.sender = false ∧ a.control.clones = 0 then some (a, .exitRead) else none
  | .check command pending =>
    match a.control.state with
    | .draining | .closed => some (a, .drain .shutdown (command :: pending))
    | .poisoned => some (a, .reason command pending)
    | .starting | .running =>
      match command with
      | .intent call => some (a.claim call, .claim .first [call] pending)
      | .barrier call => some ({ a with flushed := a.flushed ++ [(call, true)] }, .recv pending)
  | .reason command pending =>
    some (a, .drain (.workerFailed (a.control.poisonReason.getD "durable controller is poisoned"))
      (command :: pending))
  -- `try_claim_successor_batch`
  | .successor stage pending =>
    if a.control.state ≠ .running then some (a, stage.alone pending)
    else match a.control.queue with
      | .intent call :: queue => some ((a.take queue).claim call, .claim stage [call] pending)
      | .barrier call :: queue => some (a.take queue, stage.alone (pending ++ [.barrier call]))
      | [] => some (a, stage.alone pending)
  -- the loop of `claim_batch`
  | .claim stage batch pending =>
    if batch.length < maxBatch ∧ a.control.state = .running then
      match a.control.queue with
      | .intent call :: queue =>
        some ((a.take queue).claim call, .claim stage (batch ++ [call]) pending)
      | .barrier call :: queue =>
        some (a.take queue, .derive stage batch (pending ++ [.barrier call]))
      | [] => some (a, .derive stage batch pending)
    else some (a, .derive stage batch pending)
  -- a pipeline reads the validators once, when it starts
  | .derive .first batch pending =>
    some (a, start (derivePreparedBatch intents batch a.current a.validators) a.validators pending)
  | .derive (.afterEmpty vs) batch pending =>
    some (a, start (derivePreparedBatch intents batch a.current vs) vs pending)
  | .derive (.inFlight p file vs) batch pending =>
    some (a, .complete p file (some (derivePreparedBatch intents batch p.plan.tail vs)) vs pending)
  | .prepare p vs pending =>
    if p.plan.frames = [] then
      some (a.publish p, .deliver (routeSuccess p) (.successor (.afterEmpty vs) pending))
    else match a.store.prepareEpoch p.plan.frames with
      | (.error e, store) => some (a.fail store p, .deliver (routeFailure p e) (.recv pending))
      | (.ok file, store) => some ({ a with store := store }, .submit p file vs pending)
  | .submit p file vs pending =>
    match a.store.io.submitContiguousEpoch file.records with
    | (.ok (), io) =>
      some ({ a with store := { a.store with io := io } }, .successor (.inFlight p file vs) pending)
    | (.error e, io) =>
      match { a.store with io := io }.finishPreparedEpoch file (.error e) with
      -- `unreachable!`
      | (.ok (), _) => none
      | (.error e, store) => some (a.fail store p, .deliver (routeFailure p e) (.recv pending))
  | .complete p file successor vs pending =>
    match a.store.io.completeContiguousEpoch file.checkpoint.startOffset file.records with
    | (result, io) =>
      match { a.store with io := io }.finishPreparedEpoch file result with
      | (.ok (), store) => some ({ a with store := store }, .publish p successor vs pending)
      | (.error e, store) =>
        some (a.fail store p, .deliver (routeFailure p e) (.settle successor false vs pending))
  | .publish p successor vs pending =>
    some (a.publish p, .deliver (routeSuccess p) (.settle successor true vs pending))
  | .settle none _ _ pending => some (a, .recv pending)
  | .settle (some (.ok p)) true vs pending => some (a, .prepare p vs pending)
  | .settle (some (.ok p)) false vs pending =>
    some (a, start (derivePreparedBatch intents p.source a.current vs) vs pending)
  | .settle (some (.error (source, reason))) _ vs pending =>
    some (a, start (.error (source, reason)) vs pending)
  | .deliver (answer :: answers) next =>
    some ({ a with answers := a.answers ++ [answer] }, .deliver answers next)
  | .deliver [] next => some (a, next)
  | .poison reason pending =>
    some ({ a with control := { a.control with poisonReason := some reason } },
      .state reason pending)
  | .state reason pending =>
    some ({ a with control := { a.control with state := .poisoned } }, .poisonStore reason pending)
  | .poisonStore reason pending =>
    some ({ a with store := a.store.poisonExternal reason }, .takeSender reason pending)
  | .takeSender reason pending =>
    if a.control.senderLock = none then
      some ({ a with control := { a.control with sender := false } },
        .drain (.workerFailed reason) pending)
    else none
  | .drain reason (command :: commands) => some (a.reject reason command, .drain reason commands)
  | .drain reason [] =>
    match a.control.queue with
    | command :: queue => some (a.take queue, .drain reason [command])
    | [] => some (a, .exitRead)
  | .exitRead =>
    if a.control.state = .running then some (a, .exitPoison) else some (a, .exitReadAgain)
  | .exitPoison =>
    some ({ a with control := { a.control with poisonReason := some exitReason } }, .exitState)
  | .exitState =>
    some ({ a with control := { a.control with state := .poisoned } }, .exitStore)
  | .exitStore =>
    some ({ a with store := a.store.poisonExternal exitReason }, .finish)
  | .exitReadAgain =>
    if a.control.state = .draining then some (a, .exitClose) else some (a, .finish)
  | .exitClose => some ({ a with control := { a.control with state := .closed } }, .finish)
  | .finish =>
    some ({ a with control := { a.control with exit := some .returned, queue := [] } }, .done)
  | .done => none

theorem workerStep_done (a : Shared) : workerStep maxBatch intents a .done = none := by
  simp only [workerStep]

end Worker

/-- A step of a call on the lifecycle, with what it put into the channel. -/
def lift (id : ℕ) (choice : Controller.Choice) (a : Shared) (p : CallPlace) :
    Option (Shared × CallPlace) :=
  (Controller.callStep id choice a.control p).map fun (control, p) =>
    ({ a with control := control, sent := a.sent ++ control.queue.drop a.control.queue.length }, p)

/-- `submit`, `flush` and `shutdown_internal`. A `flush` returns what the worker answered, or
`stopped` once its reply channel is gone. -/
def callStep (id : ℕ) (choice : Controller.Choice) (a : Shared) :
    CallPlace → Option (Shared × CallPlace)
  | .flushWait =>
    match a.flushed.lookup id with
    | some true => lift id .go a .flushWait
    | some false => lift id .stop a .flushWait
    | none => if a.control.exit = none then none else lift id .stop a .flushWait
  | p => lift id choice a p

inductive Thread
  | opener
  | worker
  | registrar
  | call (id : ℕ)
deriving DecidableEq

abbrev Place : Thread → Type
  | .opener => OpenerPlace
  | .worker => SpeculativePlace
  | .registrar => Unit
  | .call _ => CallPlace

/-- How a step of a client resolves what the code leaves open. -/
inductive Choice
  | call (choice : Controller.Choice)
  | register (validator : Validator)

/-- `register_validator`, by any client of the database. -/
def registrarStep (choice : Choice) (a : Shared) (place : Unit) : Option (Shared × Unit) :=
  match choice with
  | .register validator => some ({ a with validators := a.validators ++ [validator] }, place)
  | .call _ => none

def step (maxBatch : ℕ) (intents : ℕ → QueuedIntent) :
    (i : Thread) → Choice → Shared → Place i → Option (Shared × Place i)
  | .opener, _, a, p =>
    (Controller.openerStep .go a.control p).map fun (control, p) =>
      ({ a with control := control }, p)
  | .worker, _, a, p => workerStep maxBatch intents a p
  | .registrar, choice, a, p => registrarStep choice a p
  | .call id, .call choice, a, p => callStep id choice a p
  | .call _, .register _, _, _ => none

/-- A controller with all its threads. -/
abbrev System : Type := Threads Thread Shared Place

/-- `new_speculative` on a database: the worker is spawned and the controller not yet returned. -/
def initial (database : World) (store : FileEpochStore) (validators : List Validator) : System where
  shared := {
    control := Controller.initial.shared
    validators := validators
    current := database
    store := store
    answers := []
    flushed := []
    sent := []
    claimed := []
    settled := [] }
  place := fun
    | .opener => OpenerPlace.spawned
    | .worker => SpeculativePlace.recv []
    | .registrar => ()
    | .call _ => CallPlace.idle

end Controller.Speculative

end ForthDB
