import ForthDB.Lib.Interleaving

/-!
# The lifecycle of the durable controller

The threads of a `DurableQueuedIntentController`: the one that opens it, its worker, and
any number of calls of `submit`, `flush` and `shutdown`. An atomic step is one access to
the lifecycle state, to the poison reason, to the channel or to one of the two locks.
What a step leaves open is a choice: how many intents a batch claims, and whether its
epoch succeeds, fails or panics. Tickets, the store and the metrics do not decide the
lifecycle and are not modelled here.

The worker of the speculative controller has the same lifecycle; it claims again while
an epoch is processed.
-/

namespace ForthDB.Controller

inductive DurableControllerState
  | starting
  | running
  | draining
  | closed
  | poisoned
deriving DecidableEq, Repr

/-- `DurableControllerCommand`, by the call that sent it. -/
inductive Command
  | intent (call : ℕ)
  | barrier (call : ℕ)
deriving DecidableEq, Repr

/-- What `join` returns. -/
inductive WorkerExit
  | returned
  | panicked
deriving DecidableEq, Repr

/-- What the threads share. A lock is held by a call, or free. -/
structure Shared where
  state : DurableControllerState
  poisonReason : Option String
  senderLock : Option ℕ
  /-- The mutex of the ingress sender holds `Some`. -/
  sender : Bool
  /-- The clones of the sender that `flush` calls hold. -/
  clones : ℕ
  shutdownLock : Option ℕ
  /-- The join handle is still there. -/
  handle : Bool
  queue : List Command
  /-- Set when the worker is gone and the receiver with it. -/
  exit : Option WorkerExit
  /-- `new` has returned. -/
  opened : Bool
deriving DecidableEq

inductive OpenerPlace
  | spawned
  | opened
deriving DecidableEq

/-- The worker between two accesses; a list is what it has set aside in `pending`. -/
inductive WorkerPlace
  | recv (pending : List Command)
  | check (command : Command) (pending : List Command)
  | claim (pending : List Command)
  | process (pending : List Command)
  | poison (reason : String) (pending : List Command)
  | store (pending : List Command)
  | takeSender (pending : List Command)
  | drain (pending : List Command)
  | exitRead
  | exitPoison
  | exitStore
  | exitReadAgain
  | exitClose
  | finish
  | done
deriving DecidableEq

/-- What a call returns. -/
inductive Outcome
  | ticket
  | full
  | closed
  | poisoned
  | flushed
  | stopped
  | report
deriving DecidableEq, Repr

inductive CallPlace
  | idle
  | submitLock
  | submitRead
  | submitSend
  | submitPoison
  | submitStore
  | flushLock
  | flushRead
  | flushSend
  | flushWait
  | shutdownLock
  | shutdownRead
  | shutdownDrain
  | shutdownTake
  | shutdownJoin
  | shutdownPoison
  | shutdownStore
  | shutdownReadAgain
  | shutdownClose
  | shutdownRelease
  | returned (outcome : Outcome)
deriving DecidableEq

/-- How a step resolves what the code leaves open. -/
inductive Choice
  | go
  | submit
  | flush
  | shutdown
  | full
  | stop
  | fail (reason : String)
  | panic
deriving DecidableEq

inductive Thread
  | opener
  | worker
  | call (id : ℕ)
deriving DecidableEq

abbrev Place : Thread → Type
  | .opener => OpenerPlace
  | .worker => WorkerPlace
  | .call _ => CallPlace

/-- `new_with_runner` after the worker is spawned. -/
def openerStep (_ : Choice) (a : Shared) : OpenerPlace → Option (Shared × OpenerPlace)
  | .spawned => some ({ a with state := .running, opened := true }, .opened)
  | .opened => none

/-- `run_durable_worker` and its loop. -/
def workerStep (choice : Choice) (a : Shared) : WorkerPlace → Option (Shared × WorkerPlace)
  | .recv (command :: pending) => some (a, .check command pending)
  | .recv [] =>
    match a.queue with
    | command :: queue => some ({ a with queue := queue }, .check command [])
    | [] => if a.sender = false ∧ a.clones = 0 then some (a, .exitRead) else none
  | .check command pending =>
    match choice with
    | .panic => some (a, .poison "durable worker panicked outside epoch boundary" [])
    | _ =>
      match a.state with
      | .draining | .closed | .poisoned => some (a, .drain pending)
      | .starting | .running =>
        match command with
        | .intent _ => some (a, .claim pending)
        | .barrier _ => some (a, .recv pending)
  | .claim pending =>
    match choice with
    | .panic => some (a, .poison "durable worker panicked outside epoch boundary" [])
    | .stop => some (a, .process pending)
    | _ =>
      if a.state ≠ .running then some (a, .process pending)
      else match a.queue with
        | .intent _ :: queue => some ({ a with queue := queue }, .claim pending)
        | .barrier call :: queue =>
          some ({ a with queue := queue }, .process (pending ++ [.barrier call]))
        | [] => some (a, .process pending)
  | .process pending =>
    match choice with
    | .panic => some (a, .poison "durable worker panicked outside epoch boundary" [])
    | .fail reason => some (a, .poison reason pending)
    | .submit => some (a, .claim pending)
    | _ => some (a, .recv pending)
  | .poison reason pending => some ({ a with poisonReason := some reason }, .store pending)
  | .store pending => some ({ a with state := .poisoned }, .takeSender pending)
  | .takeSender pending =>
    if a.senderLock = none then some ({ a with sender := false }, .drain pending) else none
  | .drain (_ :: pending) => some (a, .drain pending)
  | .drain [] =>
    match choice with
    | .panic => some (a, .poison "durable worker panicked outside epoch boundary" [])
    | _ =>
      match a.queue with
      | _ :: queue => some ({ a with queue := queue }, .drain [])
      | [] => some (a, .exitRead)
  | .exitRead =>
    match choice with
    | .panic => some ({ a with exit := some .panicked, queue := [] }, .done)
    | _ => if a.state = .running then some (a, .exitPoison) else some (a, .exitReadAgain)
  | .exitPoison =>
    some ({ a with poisonReason := some "durable worker exited while controller was running" },
      .exitStore)
  | .exitStore => some ({ a with state := .poisoned }, .finish)
  | .exitReadAgain => if a.state = .draining then some (a, .exitClose) else some (a, .finish)
  | .exitClose => some ({ a with state := .closed }, .finish)
  | .finish => some ({ a with exit := some .returned, queue := [] }, .done)
  | .done => none

/-- `submit`, `flush` and `shutdown_internal`, as the call `id`. -/
def callStep (id : ℕ) (choice : Choice) (a : Shared) : CallPlace → Option (Shared × CallPlace)
  | .idle =>
    if a.opened then
      match choice with
      | .submit => some (a, .submitLock)
      | .flush => some (a, .flushLock)
      | .shutdown => some (a, .shutdownLock)
      | _ => none
    else none
  | .submitLock =>
    if a.senderLock = none then some ({ a with senderLock := some id }, .submitRead) else none
  | .submitRead =>
    match a.state with
    | .poisoned => some ({ a with senderLock := none }, .returned .poisoned)
    | .running =>
      if a.sender then some (a, .submitSend)
      else some ({ a with senderLock := none }, .returned .closed)
    | .starting | .draining | .closed =>
      some ({ a with senderLock := none }, .returned .closed)
  | .submitSend =>
    match choice with
    | .full => some ({ a with senderLock := none }, .returned .full)
    | _ =>
      if a.exit = none then
        some ({ a with queue := a.queue ++ [.intent id], senderLock := none }, .returned .ticket)
      else some (a, .submitPoison)
  | .submitPoison =>
    some ({ a with
      poisonReason := some "durable worker command channel disconnected unexpectedly" },
      .submitStore)
  | .submitStore =>
    some ({ a with state := .poisoned, senderLock := none }, .returned .poisoned)
  | .flushLock =>
    if a.senderLock = none then some ({ a with senderLock := some id }, .flushRead) else none
  | .flushRead =>
    if a.state = .running ∧ a.sender then
      some ({ a with senderLock := none, clones := a.clones + 1 }, .flushSend)
    else some ({ a with senderLock := none }, .returned .stopped)
  | .flushSend =>
    if a.exit = none then some ({ a with queue := a.queue ++ [.barrier id] }, .flushWait)
    else some ({ a with clones := a.clones - 1 }, .returned .stopped)
  | .flushWait =>
    match choice with
    | .stop => some ({ a with clones := a.clones - 1 }, .returned .stopped)
    | _ => some ({ a with clones := a.clones - 1 }, .returned .flushed)
  | .shutdownLock =>
    if a.shutdownLock = none then some ({ a with shutdownLock := some id }, .shutdownRead)
    else none
  | .shutdownRead =>
    match a.state with
    | .starting | .running => some (a, .shutdownDrain)
    | .draining | .closed | .poisoned => some (a, .shutdownTake)
  | .shutdownDrain => some ({ a with state := .draining }, .shutdownTake)
  | .shutdownTake =>
    if a.senderLock = none then some ({ a with sender := false }, .shutdownJoin) else none
  | .shutdownJoin =>
    if a.handle then
      match a.exit with
      | some .returned => some ({ a with handle := false }, .shutdownReadAgain)
      | some .panicked => some ({ a with handle := false }, .shutdownPoison)
      | none => none
    else some (a, .shutdownReadAgain)
  | .shutdownPoison =>
    some ({ a with poisonReason := some "durable worker join observed panic" }, .shutdownStore)
  | .shutdownStore => some ({ a with state := .poisoned }, .shutdownReadAgain)
  | .shutdownReadAgain =>
    if a.state = .draining then some (a, .shutdownClose) else some (a, .shutdownRelease)
  | .shutdownClose => some ({ a with state := .closed }, .shutdownRelease)
  | .shutdownRelease => some ({ a with shutdownLock := none }, .returned .report)
  | .returned _ => none

def step : (i : Thread) → Choice → Shared → Place i → Option (Shared × Place i)
  | .opener => openerStep
  | .worker => workerStep
  | .call id => callStep id

/-- A controller with all its threads. -/
abbrev System : Type := Threads Thread Shared Place

/-- The worker is spawned and the controller not yet returned. -/
def initial : System where
  shared := {
    state := .starting
    poisonReason := none
    senderLock := none
    sender := true
    clones := 0
    shutdownLock := none
    handle := true
    queue := []
    exit := none
    opened := false }
  place := fun
    | .opener => OpenerPlace.spawned
    | .worker => WorkerPlace.recv []
    | .call _ => CallPlace.idle

end ForthDB.Controller
