import ForthDB.Controller.AdmissionSafety
import ForthDB.Queue.Materialization

/-!
# The window of the admission controller

At most `max_unapplied_epochs` epochs are to be durable and not applied. The worker looks
at the length of its backlog, which an epoch has left when it is materialized.

* `Windowed`: the bound.
* `Counted`: how far the counters are apart at every place of the worker.
* `Overfills`: the worker is about to complete the successor of an epoch that failed, and
  its backlog is full but for the place of that epoch.
* `windowed_run`: a run without such a step keeps the bound, and such a step breaks it.
-/

namespace ForthDB.Controller.Admission

variable {maxBatch maxUnapplied : ℕ} {intents : Ticket → QueuedIntent}

/-- The applied epochs are durable, and at most `max_unapplied_epochs` durable ones are not
applied. -/
structure Windowed (maxUnapplied : ℕ) (a : Shared) : Prop where
  applied : a.appliedEpochs ≤ a.durableEpochs
  lag : a.durableEpochs - a.appliedEpochs ≤ maxUnapplied

namespace Phase

/-- Epochs that are durable, not applied and not in the backlog. -/
@[simp] def held : Phase → ℕ
  | .claim (.beside _) _ | .submit (.beside _) _ | .materialize _ _ | .publish _ _ _ | .applied _
  | .abandon _ _ => 1
  | .deliver _ next => next.held
  | _ => 0

/-- Places that the worker keeps free in the backlog. -/
@[simp] def kept : Phase → ℕ
  | .claim _ _ | .submit _ _ | .complete _ | .materialize _ _ | .publish _ _ _ | .applied _
  | .abandon _ _ => 1
  | .deliver _ next => next.kept
  | _ => 0

theorem held_le_kept (p : Phase) : p.held ≤ p.kept := by
  induction p with
  | claim purpose batch => cases purpose <;> simp
  | submit purpose staged => cases purpose <;> simp
  | deliver messages next ih => exact ih
  | _ => simp

end Phase

/-- The counters at a place of the worker. -/
structure Counted (maxUnapplied : ℕ) (a : Shared) (w : Worker) (p : Phase) : Prop where
  windowed : Windowed maxUnapplied a
  lag : ¬ p.Ends → a.durableEpochs = a.appliedEpochs + p.held + w.backlog.length
  room : ¬ p.Ends → p.kept + w.backlog.length ≤ maxUnapplied

/-- The worker is about to complete a successor whose predecessor failed, its write succeeds, and
the backlog has only the place of the predecessor. -/
def Overfills (maxUnapplied : ℕ) (intents : Ticket → QueuedIntent) (w : Worker) : Phase → Prop
  | .abandon (some pending) _ =>
    maxUnapplied = w.backlog.length + 1 ∧
      (w.io.completeContiguousEpoch pending.startOffset
        [Journal.encodeEpoch (pending.batch.batch intents)]).1 = .ok ()
  | _ => False

section Steps

variable {a a' : Shared} {w w' : Worker} {p p' : Phase}

/-- The counters of a worker that goes on. -/
theorem Counted.intro (hlag : a.durableEpochs = a.appliedEpochs + p.held + w.backlog.length)
    (hroom : p.kept + w.backlog.length ≤ maxUnapplied) : Counted maxUnapplied a w p := by
  have hle := p.held_le_kept
  exact ⟨⟨by omega, by omega⟩, fun _ => hlag, fun _ => hroom⟩

/-- The counters of a worker that ends. -/
theorem Counted.ends (hwindowed : Windowed maxUnapplied a) (hp : p.Ends) :
    Counted maxUnapplied a w p :=
  ⟨hwindowed, fun he => absurd hp he, fun he => absurd hp he⟩

theorem Windowed.congr (h : Windowed maxUnapplied a) (hdurable : a'.durableEpochs = a.durableEpochs)
    (happlied : a'.appliedEpochs = a.appliedEpochs) : Windowed maxUnapplied a' := by
  refine ⟨?_, ?_⟩
  · rw [hdurable, happlied]
    exact h.applied
  · rw [hdurable, happlied]
    exact h.lag

/-- The counters and the backlog decide it. -/
theorem Counted.congr (h : Counted maxUnapplied a w p) (hdurable : a'.durableEpochs = a.durableEpochs)
    (happlied : a'.appliedEpochs = a.appliedEpochs) (hbacklog : w'.backlog = w.backlog)
    (hheld : p'.held = p.held) (hkept : p'.kept = p.kept) (hends : p.Ends → p'.Ends) :
    Counted maxUnapplied a' w' p' where
  windowed := h.windowed.congr hdurable happlied
  lag := fun he => by
    rw [hdurable, happlied, hbacklog, hheld]
    exact h.lag fun hp => he (hends hp)
  room := fun he => by
    rw [hbacklog, hkept]
    exact h.room fun hp => he (hends hp)

/-- An epoch is claimed into the backlog only when it has a place for it. -/
theorem fill_room (hs : workerStep maxBatch maxUnapplied intents a w .fill = some (a', w', p'))
    (hp : p' ≠ .pop) : w.backlog.length < maxUnapplied := by
  simp only [workerStep] at hs
  split at hs
  · rename_i hroom
    exact hroom.1
  · cases hs
    exact absurd rfl hp

/-- How the counters stand when the worker has looked for a command. -/
theorem Purpose.Looked.counted {purpose : Purpose} (hl : purpose.Looked p)
    (hlag : a.durableEpochs = a.appliedEpochs + purpose.without.held + w.backlog.length)
    (hroom : purpose.without.kept + w.backlog.length ≤ maxUnapplied)
    (hplace : p ≠ purpose.without → w.backlog.length < maxUnapplied) :
    Counted maxUnapplied a w p := by
  rcases hl with rfl | ⟨batch, rfl⟩ | ⟨staged, rfl⟩
  · exact .intro hlag hroom
  · have hfree := hplace (by cases purpose <;> simp [Purpose.without])
    refine .intro ?_ (by simp only [Phase.kept]; omega)
    cases purpose <;> exact hlag
  · have hfree := hplace (by cases purpose <;> simp [Purpose.without])
    refine .intro ?_ (by simp only [Phase.kept]; omega)
    cases purpose <;> exact hlag

/-- **The write of a successor whose predecessor failed** breaks the bound if and only if it
overfills. -/
theorem Counted.abandon {pending : PendingAdmission} {error : String}
    (h : Counted maxUnapplied a w (.abandon (some pending) error))
    (hs : workerStep maxBatch maxUnapplied intents a w (.abandon (some pending) error) =
      some (a', w', p')) :
    p'.Ends ∧ (Windowed maxUnapplied a' ↔
      ¬ Overfills maxUnapplied intents w (.abandon (some pending) error)) := by
  have hlag := h.lag (by simp)
  have hroom := h.room (by simp)
  simp only [Phase.held, Phase.kept] at hlag hroom
  simp only [workerStep, completeAdmission] at hs
  simp only [Overfills]
  split at hs
  · rename_i hcom
    split at hcom
    · rename_i io hio
      cases hcom
      cases hs
      refine ⟨trivial, ⟨fun hw hover => ?_, fun hover => ⟨?_, ?_⟩⟩⟩
      · have hbound := hw.lag
        simp only at hbound
        omega
      · simp only
        omega
      · have hplace : maxUnapplied ≠ w.backlog.length + 1 := fun heq => hover ⟨heq, by rw [hio]⟩
        simp only
        omega
    · split at hcom <;> cases hcom
  · rename_i hcom
    split at hcom
    · cases hcom
    · rename_i failure io hio
      have hfailed : (w.io.completeContiguousEpoch pending.startOffset
          [Journal.encodeEpoch (pending.batch.batch intents)]).1 ≠ .ok () := by
        rw [hio]
        simp
      cases hs
      exact ⟨trivial, fun _ hover => hfailed hover.2, fun _ => h.windowed.congr rfl rfl⟩

/-- **A step of the worker** keeps the counters, if it does not overfill. -/
theorem Counted.worker (h : Counted maxUnapplied a w p)
    (hover : ¬ Overfills maxUnapplied intents w p)
    (hs : workerStep maxBatch maxUnapplied intents a w p = some (a', w', p')) :
    Counted maxUnapplied a' w' p' := by
  cases p with
  | fill =>
    have hlag := h.lag (by simp)
    have hroom := h.room (by simp)
    have hplace := fill_room hs
    obtain ⟨_, _, _, _, rfl, rfl, hl⟩ := fill_cases hs
    exact hl.counted hlag hroom hplace
  | claim purpose batch =>
    obtain ⟨_, _, rfl, rfl, ⟨_, rfl⟩ | rfl⟩ := claim_cases hs
    · exact h.congr rfl rfl rfl (by cases purpose <;> rfl) rfl id
    · exact h.congr rfl rfl rfl (by cases purpose <;> rfl) rfl id
  | submit purpose staged =>
    simp only [workerStep] at hs
    rcases submitAdmission_cases intents { w with nextEpoch := w.nextEpoch + 1 }
        ⟨w.nextEpoch, staged⟩ with ⟨io, hsub⟩ | ⟨error, io, hsub⟩
    · rw [hsub] at hs
      cases purpose <;> cases hs <;> exact h.congr rfl rfl rfl rfl rfl id
    · rw [hsub] at hs
      cases purpose <;> cases hs <;> exact .ends (h.windowed.congr rfl rfl) trivial
  | complete pending =>
    have hlag := h.lag (by simp)
    have hroom := h.room (by simp)
    simp only [Phase.held, Phase.kept] at hlag hroom
    simp only [workerStep] at hs
    rcases completeAdmission_cases intents w pending with ⟨io, fileLen, hcom⟩ | ⟨error, io, hcom⟩
    · rw [hcom] at hs
      cases hs
      refine .intro ?_ ?_
      · simp only [Phase.held, List.length_append, List.length_singleton]
        omega
      · simp only [Phase.kept, List.length_append, List.length_singleton]
        omega
    · rw [hcom] at hs
      cases hs
      exact .ends (h.windowed.congr rfl rfl) trivial
  | pop =>
    have hlag := h.lag (by simp)
    have hroom := h.room (by simp)
    simp only [Phase.held, Phase.kept] at hlag hroom
    rcases pop_cases hs with ⟨durable, backlog, _, _, _, _, hb, rfl, rfl, hl⟩ |
        ⟨hb, _, -, rfl, rfl, rfl⟩ | ⟨hb, rfl, rfl, rfl | rfl⟩
    · -- the popped epoch leaves its place in the backlog free
      rw [hb, List.length_cons] at hlag hroom
      refine hl.counted ?_ ?_ fun _ => ?_
      · simp only [Purpose.without, Phase.held]
        omega
      · simp only [Purpose.without, Phase.kept]
        omega
      · simp only
        omega
    · exact h.congr rfl rfl rfl rfl rfl id
    · exact .ends h.windowed trivial
    · exact h.congr rfl rfl rfl rfl rfl id
  | materialize durable successor =>
    rcases materialize_cases hs with ⟨_, _, -, rfl, ⟨-, rfl, rfl⟩ | ⟨-, rfl, rfl⟩⟩ | ⟨_, rfl, rfl, rfl⟩
    · exact h.congr rfl rfl rfl rfl rfl id
    · exact h.congr rfl rfl rfl rfl rfl id
    · exact h.congr rfl rfl rfl rfl rfl id
  | publish durable plan successor =>
    cases hs
    exact h.congr rfl rfl rfl rfl rfl id
  | applied successor =>
    have hlag := h.lag (by simp)
    have hroom := h.room (by simp)
    simp only [Phase.held, Phase.kept] at hlag hroom
    cases hs
    cases successor with
    | none =>
      refine .intro ?_ ?_
      · simp only [afterMaterialize, Phase.held]
        omega
      · simp only [afterMaterialize, Phase.kept]
        omega
    | some pending =>
      refine .intro ?_ ?_
      · simp only [afterMaterialize, Phase.held]
        omega
      · simp only [afterMaterialize, Phase.kept]
        omega
  | abandon successor error =>
    cases successor with
    | none =>
      cases hs
      exact .ends h.windowed trivial
    | some pending =>
      obtain ⟨hends, hiff⟩ := h.abandon hs
      exact .ends (hiff.2 hover) hends
  | deliver messages next =>
    cases messages with
    | nil =>
      cases hs
      exact h.congr rfl rfl rfl rfl rfl id
    | cons message messages =>
      cases message <;> cases hs <;> exact h.congr rfl rfl rfl rfl rfl id
  | returned =>
    cases hs
    exact .ends (h.windowed.congr rfl rfl) trivial
  | close =>
    cases hs
    exact .ends (h.windowed.congr rfl rfl) trivial
  | done => cases hs

/-- Only the worker counts. -/
theorem callStep_counters {id : ℕ} {c : Choice} {q q' : CallPlace}
    (hs : callStep id c a q = some (a', q')) :
    a'.durableEpochs = a.durableEpochs ∧ a'.appliedEpochs = a.appliedEpochs := by
  cases q <;> simp only [callStep] at hs
  all_goals (repeat' split at hs)
  all_goals first | (cases hs; done) | skip
  all_goals cases hs
  all_goals exact ⟨rfl, rfl⟩

end Steps

/-! ## Runs -/

/-- A step of the worker does not overfill. -/
def KeepsRoom (maxUnapplied : ℕ) (intents : Ticket → QueuedIntent) (s : System) (i : Thread)
    (_ : System) : Prop :=
  i = .worker → ¬ Overfills maxUnapplied intents (s.place .worker).1 (s.place .worker).2

/-- The counters, at the place where the worker is. -/
def CountedIn (maxUnapplied : ℕ) (s : System) : Prop :=
  Counted maxUnapplied s.shared (s.place .worker).1 (s.place .worker).2

variable {s t : System} {i : Thread}

/-- **One step of any thread** keeps the counters, if it does not overfill. -/
theorem CountedIn.moves (h : CountedIn maxUnapplied s)
    (hs : s.Moves (step maxBatch maxUnapplied intents) i t)
    (hroom : KeepsRoom maxUnapplied intents s i t) : CountedIn maxUnapplied t := by
  obtain ⟨c, a, p, hstep, rfl⟩ := hs
  cases i with
  | worker =>
    obtain ⟨w', p'⟩ := p
    have hkept : Counted maxUnapplied a w' p' := h.worker (hroom rfl) hstep
    simpa [CountedIn] using hkept
  | registrar =>
    simp only [step, registrarStep] at hstep
    split at hstep
    · rename_i validator
      cases hstep
      have hkept : CountedIn maxUnapplied
          ⟨{ s.shared with validators := s.shared.validators ++ [validator] }, s.place⟩ :=
        h.congr rfl rfl rfl rfl rfl fun he => he
      simpa [CountedIn, Threads.place_move_ne] using hkept
    · cases hstep
  | call id =>
    obtain ⟨hdurable, happlied⟩ := callStep_counters hstep
    have hkept : CountedIn maxUnapplied ⟨a, s.place⟩ :=
      h.congr hdurable happlied rfl rfl rfl fun he => he
    simpa [CountedIn, Threads.place_move_ne] using hkept

/-- **A step** leaves the bound if and only if it does not overfill. -/
theorem CountedIn.windowed_iff (h : CountedIn maxUnapplied s)
    (hs : s.Moves (step maxBatch maxUnapplied intents) i t) :
    Windowed maxUnapplied t.shared ↔ KeepsRoom maxUnapplied intents s i t := by
  refine ⟨fun hw hi hover => ?_, fun hroom => (h.moves hs hroom).windowed⟩
  subst hi
  obtain ⟨c, a, p, hstep, rfl⟩ := hs
  obtain ⟨w', p'⟩ := p
  have hstep' : workerStep maxBatch maxUnapplied intents s.shared (s.place .worker).1
      (s.place .worker).2 = some (a, w', p') := hstep
  unfold CountedIn at h
  generalize (s.place .worker).2 = p at h hover hstep'
  cases p with
  | abandon successor error =>
    cases successor with
    | none => exact hover
    | some pending => exact (h.abandon hstep').2.1 hw hover
  | _ => exact hover

theorem initial_counted (engine : EngineState) (validators : List Validator) (io : EpochFileIo)
    (epochs : ℕ) : CountedIn maxUnapplied (initial engine validators io epochs) :=
  .intro rfl (Nat.zero_le _)

/-- The runs of a controller whose worker never overfills. -/
abbrev RoomyRun (maxBatch maxUnapplied : ℕ) (intents : Ticket → QueuedIntent) :
    System → System → Prop :=
  Threads.Run (step maxBatch maxUnapplied intents) (KeepsRoom maxUnapplied intents)

theorem counted_run (h : RoomyRun maxBatch maxUnapplied intents s t)
    (hs : CountedIn maxUnapplied s) : CountedIn maxUnapplied t :=
  h.invariant (fun _ _ _ hc hm hr => hc.moves hm hr) hs

/-- **The bounded window.** In every run in which the worker never overfills, every state is
within the window; and a step behind such a run leaves it if and only if it overfills. -/
theorem windowed_run (engine : EngineState) (validators : List Validator) (io : EpochFileIo)
    (epochs : ℕ) :
    (∀ s, RoomyRun maxBatch maxUnapplied intents (initial engine validators io epochs) s →
      Windowed maxUnapplied s.shared) ∧
    ∀ s i t, RoomyRun maxBatch maxUnapplied intents (initial engine validators io epochs) s →
      s.Moves (step maxBatch maxUnapplied intents) i t →
      (Windowed maxUnapplied t.shared ↔ KeepsRoom maxUnapplied intents s i t) :=
  ⟨fun _ hs => (counted_run hs (initial_counted engine validators io epochs)).windowed,
    fun _ _ _ hs hm => (counted_run hs (initial_counted engine validators io epochs)).windowed_iff hm⟩

/-- The intents of two calls: that of the first cannot be materialized by the VM. -/
def highThenText : Ticket → QueuedIntent
  | (0, _) => definesHighEntity
  | _ => definesText

/-- A VM controller on a journal that holds its header. -/
def onNewVmJournal : System :=
  initial (.genesis, .tokenVm (.new World.genesis.nextEntity)) [] ⟨Journal.journalHeader, 0, [], true⟩ 0

/-- Two calls submit, and the worker runs until it has completed the second epoch. -/
def overfilling : List (Thread × Choice) :=
  (.call 0, .submit) :: List.replicate 3 (.call 0, .go) ++
    (.call 1, .submit) :: List.replicate 3 (.call 1, .go) ++ List.replicate 14 (.worker, .go)

/-- **Two durable epochs in a window of one**: the first fails while the second is in flight. -/
theorem failed_epoch_overfills :
    ∃ t, Run 1 1 highThenText onNewVmJournal t ∧ t.shared.durableEpochs = 2 ∧
      t.shared.appliedEpochs = 0 ∧ ¬ Windowed 1 t.shared := by
  have hcounts : ((Threads.follow (step 1 1 highThenText) onNewVmJournal overfilling).map fun t =>
      (t.shared.durableEpochs, t.shared.appliedEpochs)) = some (2, 0) := by
    decide +kernel
  cases ht : Threads.follow (step 1 1 highThenText) onNewVmJournal overfilling with
  | none =>
    rw [ht] at hcounts
    cases hcounts
  | some t =>
    rw [ht] at hcounts
    simp only [Option.map_some, Option.some.injEq, Prod.mk.injEq] at hcounts
    obtain ⟨hdurable, happlied⟩ := hcounts
    refine ⟨t, Threads.run_of_schedule ht, hdurable, happlied, fun hw => ?_⟩
    have hlag := hw.lag
    rw [hdurable, happlied] at hlag
    exact absurd hlag (by decide)

end ForthDB.Controller.Admission
