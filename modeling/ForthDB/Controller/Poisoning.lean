import ForthDB.Controller.Lifecycle

/-!
# Poisoning is absorbing where no shutdown overtakes it

`shutdown_internal` reads the state and writes `Draining` later. A poisoning between the
two is overwritten, and the controller closes as if nothing had happened
(`poisoning_overwritten`). Every other pair of a read and a later write is safe: the
worker and the shutdown write `Closed` where nobody else is left to poison.

* `Keeps i a a'`: what a step of thread `i` can do to the shared state.
* `ok`: what each thread knows at its place. `annotated_run`: it holds throughout a run.
* `poisoned_absorbing`: in a run in which no poisoning falls between the read and the
  write of a shutdown, a poisoned controller stays poisoned and admits nothing.
-/

namespace ForthDB.Controller

/-- What a step of thread `i` can do to what is shared. -/
structure Keeps (i : Thread) (a a' : Shared) : Prop where
  opener : a.opened = false → i = .opener ∧ a'.opened = true
  opened : a.opened = true → a'.opened = true
  exit : a.exit ≠ none → a'.exit ≠ none
  exits : a.exit = none → a'.exit ≠ none → i = .worker
  sender : a.sender = false → a'.sender = false
  taken : a.sender = true → a'.sender = false → a.senderLock = none
  senderLock : ∀ id, i ≠ .call id → a.senderLock = some id → a'.senderLock = some id
  shutdownLock : ∀ id, i ≠ .call id → a.shutdownLock = some id → a'.shutdownLock = some id
  handle : a'.handle = false → a.handle = false ∨ a.exit ≠ none
  poisoned : a.state = .poisoned → a'.state = .poisoned
  poisons : a.state ≠ .poisoned → a'.state = .poisoned → (i = .worker ∧ a.exit = none) ∨
    ∃ id, i = .call id ∧ a.exit ≠ none ∧
      ((a.senderLock = some id ∧ a.sender = true) ∨ a.shutdownLock = some id)

def openerOk (a : Shared) : OpenerPlace → Prop
  | .spawned => a.opened = false ∧ a.state = .starting
  | .opened => a.opened = true

def workerOk (a : Shared) : WorkerPlace → Prop
  | .recv pending =>
    a.exit = none ∧ (a.opened = false → pending = [] ∧ a.queue = [] ∧ a.sender = true)
  | .exitClose => a.exit = none ∧ a.opened = true ∧ a.state ≠ .poisoned
  | .done => a.exit ≠ none ∧ a.opened = true
  | _ => a.exit = none ∧ a.opened = true

def callOk (id : ℕ) (a : Shared) : CallPlace → Prop
  | .idle => True
  | .submitRead | .flushRead => a.opened = true ∧ a.senderLock = some id
  | .submitSend => a.opened = true ∧ a.senderLock = some id ∧ a.sender = true
  | .submitPoison | .submitStore =>
    a.opened = true ∧ a.senderLock = some id ∧ a.sender = true ∧ a.exit ≠ none
  | .shutdownRead | .shutdownTake | .shutdownRelease =>
    a.opened = true ∧ a.shutdownLock = some id
  | .shutdownDrain => a.opened = true ∧ a.shutdownLock = some id ∧ a.state ≠ .poisoned
  | .shutdownJoin => a.opened = true ∧ a.shutdownLock = some id ∧ a.sender = false
  | .shutdownPoison | .shutdownStore | .shutdownReadAgain =>
    a.opened = true ∧ a.shutdownLock = some id ∧ a.sender = false ∧ a.exit ≠ none
  | .shutdownClose =>
    a.opened = true ∧ a.shutdownLock = some id ∧ a.sender = false ∧ a.exit ≠ none ∧
      a.state ≠ .poisoned
  | _ => a.opened = true

/-- What a thread knows of the shared state at its place. The worker also answers for its
own join handle. -/
def ok : (i : Thread) → Shared → Place i → Prop
  | .opener, a, p => openerOk a p
  | .worker, a, p => (a.handle = false → a.exit ≠ none) ∧ workerOk a p
  | .call id, a, p => callOk id a p

theorem initial_annotated : initial.Annotated ok := by
  intro i
  cases i with
  | opener => exact ⟨rfl, rfl⟩
  | worker => exact ⟨fun h => Bool.noConfusion h, rfl, fun _ => ⟨rfl, rfl, rfl⟩⟩
  | call id => exact trivial

theorem openerStep_keeps {c : Choice} {a a' : Shared} {p p' : OpenerPlace} (h : openerOk a p)
    (hs : openerStep c a p = some (a', p')) : Keeps .opener a a' ∧ openerOk a' p' := by
  cases p with
  | spawned =>
    obtain ⟨h1, h2⟩ := h
    cases hs
    refine ⟨?_, rfl⟩
    constructor <;> simp_all
  | opened => cases hs

/-- **A step of the worker.** It writes `Closed` only where it read `Draining` as the last
thread that can still poison. -/
theorem workerStep_keeps {c : Choice} {a a' : Shared} {p p' : WorkerPlace}
    (hh : a.handle = false → a.exit ≠ none) (h : workerOk a p)
    (hs : workerStep c a p = some (a', p')) :
    Keeps .worker a a' ∧ (a'.handle = false → a'.exit ≠ none) ∧ workerOk a' p' := by
  -- one case for each place and each branch of its code
  cases p <;> simp only [workerStep] at hs <;> simp only [workerOk] at h
  all_goals (repeat' split at hs)
  all_goals first | (cases hs; done) | skip
  all_goals cases hs
  all_goals (refine ⟨⟨?_, ?_, ?_, ?_, ?_, ?_, ?_, ?_, ?_, ?_, ?_⟩, ?_, ?_⟩ <;> simp_all [workerOk])

/-- **A step of a call.** It poisons only while it holds a lock, after the worker is gone. -/
theorem callStep_keeps {id : ℕ} {c : Choice} {a a' : Shared} {p p' : CallPlace}
    (hh : a.handle = false → a.exit ≠ none) (h : callOk id a p)
    (hs : callStep id c a p = some (a', p')) : Keeps (.call id) a a' ∧ callOk id a' p' := by
  cases p <;> simp only [callStep] at hs <;> simp only [callOk] at h
  all_goals (repeat' split at hs)
  all_goals first | (cases hs; done) | skip
  all_goals cases hs
  all_goals (refine ⟨⟨?_, ?_, ?_, ?_, ?_, ?_, ?_, ?_, ?_, ?_, ?_⟩, ?_⟩ <;> simp_all [callOk])

/-- A thread stands between the read and the write of a shutdown. -/
def Overtakes (i : Thread) (s : System) : Prop :=
  ∃ id, i ≠ .call id ∧ s.place (.call id) = CallPlace.shutdownDrain

/-- A step does not poison while another thread stands between the read of a `Starting` or
`Running` state in `shutdown_internal` and its write of `Draining`. -/
def Clear (s : System) (i : Thread) (s' : System) : Prop :=
  s.shared.state ≠ .poisoned → s'.shared.state = .poisoned → ¬ Overtakes i s

theorem openerOk_stable {i : Thread} {a a' : Shared} {p : OpenerPlace} (h : openerOk a p)
    (hk : Keeps i a a') (hi : Thread.opener ≠ i) : openerOk a' p := by
  cases p with
  | spawned => exact absurd (hk.opener h.1).1.symm hi
  | opened => exact hk.opened h

/-- While the worker runs, only the worker poisons. -/
theorem Keeps.unpoisoned_of_running {i : Thread} {a a' : Shared} (hk : Keeps i a a')
    (hi : Thread.worker ≠ i) (hexit : a.exit = none) (h : a.state ≠ .poisoned) :
    a'.state ≠ .poisoned := by
  intro hpoisoned
  rcases hk.poisons h hpoisoned with ⟨h1, -⟩ | ⟨id, -, h1, -⟩
  · exact hi h1.symm
  · exact h1 hexit

/-- Once the worker is gone and the sender taken, only the shutdown that holds its lock
can poison. -/
theorem Keeps.unpoisoned_of_taken {i : Thread} {id : ℕ} {a a' : Shared} (hk : Keeps i a a')
    (hi : Thread.call id ≠ i) (hlock : a.shutdownLock = some id) (hsender : a.sender = false)
    (hexit : a.exit ≠ none) (h : a.state ≠ .poisoned) : a'.state ≠ .poisoned := by
  intro hpoisoned
  rcases hk.poisons h hpoisoned with ⟨-, h1⟩ | ⟨id', rfl, -, ⟨-, h1⟩ | h1⟩
  · exact hexit h1
  · rw [hsender] at h1
    cases h1
  · rw [hlock] at h1
    cases h1
    exact hi rfl

theorem workerOk_stable {i : Thread} {a a' : Shared} {p : WorkerPlace} (h : workerOk a p)
    (hk : Keeps i a a') (hi : Thread.worker ≠ i) : workerOk a' p := by
  have hexit : a.exit = none → a'.exit = none := by
    intro hnone
    by_contra hsome
    exact hi (hk.exits hnone hsome).symm
  have hstate := hk.unpoisoned_of_running hi
  have hopened := hk.opened
  have hopener := hk.opener
  have hgone := hk.exit
  cases p <;> simp only [workerOk] at h ⊢
  all_goals grind

theorem callOk_stable {id : ℕ} {i : Thread} {a a' : Shared} {p : CallPlace} (h : callOk id a p)
    (hk : Keeps i a a') (hi : Thread.call id ≠ i)
    (hclear : p = .shutdownDrain → a.state ≠ .poisoned → a'.state ≠ .poisoned) :
    callOk id a' p := by
  have hstate := hk.unpoisoned_of_taken hi
  have hopened := hk.opened
  have hlock := hk.shutdownLock id hi.symm
  have hsender := hk.senderLock id hi.symm
  have htaken := hk.taken
  have hgone := hk.exit
  have hno := hk.sender
  cases p <;> simp only [callOk] at h ⊢
  all_goals grind

/-- **One step** that no shutdown overtakes keeps what every thread knows, and a poisoned
controller stays poisoned. -/
theorem annotated_moves {s t : System} {i : Thread} (h : s.Annotated ok) (hs : s.Moves step i t)
    (hclear : Clear s i t) :
    t.Annotated ok ∧ (s.shared.state = .poisoned → t.shared.state = .poisoned) := by
  obtain ⟨c, a, p, hstep, rfl⟩ := hs
  have hhandle := (h .worker).1
  have hkeeps : Keeps i s.shared a ∧ ok i a p := by
    cases i with
    | opener => exact openerStep_keeps (c := c) (h .opener) hstep
    | worker =>
      obtain ⟨hk, hok⟩ := workerStep_keeps hhandle (h .worker).2 hstep
      exact ⟨hk, hok⟩
    | call id => exact callStep_keeps hhandle (h (.call id)) hstep
  obtain ⟨hk, hok⟩ := hkeeps
  refine ⟨Threads.Annotated.moves hok fun j hj => ?_, hk.poisoned⟩
  cases j with
  | opener => exact openerOk_stable (h .opener) hk hj
  | worker =>
    refine ⟨fun hgone => ?_, workerOk_stable (h .worker).2 hk hj⟩
    rcases hk.handle hgone with hgone | hexit
    · exact hk.exit (hhandle hgone)
    · exact hk.exit hexit
  | call id =>
    refine callOk_stable (h (.call id)) hk hj fun hplace hstate hpoisoned => ?_
    exact hclear hstate hpoisoned ⟨id, hj.symm, hplace⟩

theorem annotated_run {s : System} (h : Threads.Run step Clear initial s) : s.Annotated ok :=
  h.invariant (fun _ _ _ hok hs hclear => (annotated_moves hok hs hclear).1) initial_annotated

/-- A call that got past the check of the state, and was not refused. -/
def CallPlace.Admitted : CallPlace → Prop
  | .submitSend | .flushSend | .flushWait => True
  | .returned .ticket | .returned .flushed => True
  | _ => False

/-- A poisoned controller admits no call. -/
theorem callStep_refused {id : ℕ} {c : Choice} {a a' : Shared} {p p' : CallPlace}
    (hp : a.state = .poisoned) (h : ¬ p.Admitted) (hs : callStep id c a p = some (a', p')) :
    ¬ p'.Admitted := by
  cases p <;> simp only [callStep, hp] at hs <;> simp only [CallPlace.Admitted] at h
  all_goals (repeat' split at hs)
  all_goals first | (cases hs; done) | skip
  all_goals simp_all [CallPlace.Admitted]
  all_goals (obtain ⟨-, rfl⟩ := hs; simp)

/-- The controller is poisoned, and the calls that were idle in `s` are not admitted. -/
def Refusing (s t : System) : Prop :=
  t.Annotated ok ∧ t.shared.state = .poisoned ∧
    ∀ id, s.place (.call id) = CallPlace.idle → ¬ CallPlace.Admitted (t.place (.call id))

theorem Refusing.moves {s t u : System} {i : Thread} (h : Refusing s t) (hmoves : t.Moves step i u)
    (hclear : Clear t i u) : Refusing s u := by
  obtain ⟨hok, hstate, hrefused⟩ := h
  obtain ⟨hok', hstays⟩ := annotated_moves hok hmoves hclear
  refine ⟨hok', hstays hstate, fun id hidle => ?_⟩
  obtain ⟨c, a, p, hstep, rfl⟩ := hmoves
  by_cases hi : Thread.call id = i
  · subst hi
    rw [Threads.place_move_self]
    exact callStep_refused hstate (hrefused id hidle) hstep
  · rw [Threads.place_move_ne _ hi]
    exact hrefused id hidle

/-- **Poisoning is absorbing** in every run in which no poisoning falls between the read and
the write of a shutdown: a poisoned controller stays poisoned, and no call of `submit` or
`flush` that starts later is admitted. -/
theorem poisoned_absorbing {s t : System} (hs : Threads.Run step Clear initial s)
    (hp : s.shared.state = .poisoned) (ht : Threads.Run step Clear s t) :
    t.shared.state = .poisoned ∧
      ∀ id, s.place (.call id) = CallPlace.idle → ¬ CallPlace.Admitted (t.place (.call id)) := by
  have hrefusing : Refusing s t := by
    refine ht.invariant (fun _ _ _ h hmoves hclear => h.moves hmoves hclear)
      ⟨annotated_run hs, hp, fun id hidle => ?_⟩
    rw [hidle]
    exact fun h => h
  exact hrefusing.2

/-! ## Schedules -/

/-- A call of `shutdown` that has not returned. -/
def CallPlace.ShutsDown : CallPlace → Prop
  | .shutdownLock | .shutdownRead | .shutdownDrain | .shutdownTake | .shutdownJoin
  | .shutdownPoison | .shutdownStore | .shutdownReadAgain | .shutdownClose
  | .shutdownRelease => True
  | _ => False

theorem callStep_unshut {id : ℕ} {c : Choice} {a a' : Shared} {p p' : CallPlace}
    (hc : c ≠ .shutdown) (h : ¬ p.ShutsDown) (hs : callStep id c a p = some (a', p')) :
    ¬ p'.ShutsDown := by
  cases p <;> simp only [callStep] at hs <;> simp only [CallPlace.ShutsDown] at h
  all_goals (repeat' split at hs)
  all_goals simp_all [CallPlace.ShutsDown]
  all_goals (obtain ⟨-, rfl⟩ := hs; simp)

/-- A schedule without a shutdown is clear. -/
theorem clear_of_no_shutdown {s t : System} {schedule : List (Thread × Choice)}
    (h : Threads.follow step s schedule = some t) (hs : ∀ e ∈ schedule, e.2 ≠ .shutdown)
    (hidle : ∀ id, ¬ CallPlace.ShutsDown (s.place (.call id))) :
    Threads.Run step Clear s t ∧ ∀ id, ¬ CallPlace.ShutsDown (t.place (.call id)) := by
  refine Threads.run_of_follow
    (fun u => ∀ id, ¬ CallPlace.ShutsDown (u.place (.call id))) h
    (fun u i c a p hmem hu hstep => ?_) hidle
  refine ⟨?_, fun id => ?_⟩
  · rintro - - ⟨id, -, hplace⟩
    apply hu id
    rw [hplace]
    trivial
  · by_cases hi : Thread.call id = i
    · subst hi
      rw [Threads.place_move_self]
      exact callStep_unshut (hs _ hmem) (hu id) hstep
    · rw [Threads.place_move_ne _ hi]
      exact hu id

/-- The controller opens, an intent is submitted, and its epoch fails and poisons. -/
def failingEpoch : List (Thread × Choice) :=
  [(.opener, .go), (.call 0, .submit), (.call 0, .go), (.call 0, .go), (.call 0, .go),
    (.worker, .go), (.worker, .go), (.worker, .stop),
    (.worker, .fail "durable epoch worker failed"), (.worker, .go), (.worker, .go)]

/-- A later submission. -/
def lateSubmission : List (Thread × Choice) := [(.call 1, .submit), (.call 1, .go), (.call 1, .go)]

/-- A submission after the poisoning is refused. -/
theorem poisoned_absorbing_failingEpoch :
    ∃ s t : System, Threads.follow step initial failingEpoch = some s ∧
      Threads.follow step s lateSubmission = some t ∧ t.shared.state = .poisoned ∧
      ∀ id, s.place (.call id) = CallPlace.idle → ¬ CallPlace.Admitted (t.place (.call id)) := by
  have hpoisoned : (Threads.follow step initial failingEpoch).map (fun s => s.shared.state) =
      some .poisoned := by decide
  have hlate : (Threads.follow step initial (failingEpoch ++ lateSubmission)).isSome := by decide
  have hidle : ∀ id, ¬ CallPlace.ShutsDown (initial.place (.call id)) := fun _ h => h
  cases hs : Threads.follow step initial failingEpoch with
  | none => rw [hs] at hpoisoned; cases hpoisoned
  | some s =>
    rw [hs, Option.map_some, Option.some.injEq] at hpoisoned
    rw [Threads.follow_append, hs, Option.bind_some] at hlate
    obtain ⟨t, ht⟩ := Option.isSome_iff_exists.1 hlate
    obtain ⟨hrun, hunshut⟩ := clear_of_no_shutdown hs (by decide) hidle
    obtain ⟨hrun', -⟩ := clear_of_no_shutdown ht (by decide) hunshut
    exact ⟨s, t, rfl, ht, poisoned_absorbing hrun hpoisoned hrun'⟩

/-- The epoch fails while a shutdown stands between its read and its write. -/
def overtakingShutdown : List (Thread × Choice) :=
  [(.opener, .go), (.call 0, .submit), (.call 0, .go), (.call 0, .go), (.call 0, .go),
    (.worker, .go), (.worker, .go), (.worker, .stop), (.call 1, .shutdown), (.call 1, .go),
    (.call 1, .go), (.worker, .fail "durable epoch worker failed"), (.worker, .go),
    (.worker, .go)]

/-- The shutdown writes, and the worker exits as if it had been drained. -/
def closing : List (Thread × Choice) :=
  [(.worker, .go), (.worker, .go), (.worker, .go), (.worker, .go), (.worker, .go)]

/-- **A poisoning is overwritten**: the controller is poisoned, then draining, then closed. -/
theorem poisoning_overwritten :
    ∃ s t u : System, Threads.Run step (fun _ _ _ => True) initial s ∧
      s.shared.state = .poisoned ∧
      Threads.Run step (fun _ _ _ => True) s t ∧ t.shared.state = .draining ∧
      Threads.Run step (fun _ _ _ => True) t u ∧ u.shared.state = .closed := by
  have h1 : (Threads.follow step initial overtakingShutdown).map (fun s => s.shared.state) =
      some .poisoned := by decide
  have h2 : (Threads.follow step initial (overtakingShutdown ++ [(.call 1, .go)])).map
      (fun s => s.shared.state) = some .draining := by decide
  have h3 : (Threads.follow step initial (overtakingShutdown ++ ((.call 1, .go) :: closing))).map
      (fun s => s.shared.state) = some .closed := by decide
  cases hs : Threads.follow step initial overtakingShutdown with
  | none => rw [hs] at h1; cases h1
  | some s =>
    rw [hs, Option.map_some, Option.some.injEq] at h1
    rw [Threads.follow_append, hs, Option.bind_some] at h2
    rw [List.append_cons, Threads.follow_append, Threads.follow_append, hs,
      Option.bind_some] at h3
    cases ht : Threads.follow step s [(.call 1, .go)] with
    | none => rw [ht] at h2; cases h2
    | some t =>
      rw [ht, Option.map_some, Option.some.injEq] at h2
      rw [ht, Option.bind_some] at h3
      cases hu : Threads.follow step t closing with
      | none => rw [hu] at h3; cases h3
      | some u =>
        rw [hu, Option.map_some, Option.some.injEq] at h3
        exact ⟨s, t, u, Threads.run_of_schedule hs, h1, Threads.run_of_schedule ht, h2,
          Threads.run_of_schedule hu, h3⟩

end ForthDB.Controller
