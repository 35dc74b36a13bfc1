import ForthDB.Queue.DerivedEpoch

/-!
# Clients of one database

Clients of a `Database` begin transactions, stage operations and publish by `commit` or
`commit_queued_epoch`. Both hold `commit_lock` from the head they read to the head they
write, and everything in between is a step of its own: readers, transactions and
validators come and go between the steps. The store's answer to a strict append is the
environment's choice; a refused append leaves its frames as they were.

* `SharedDatabase.step`: one step of one client. `commit_alone` and `queuedEpoch_alone`:
  a call that nobody interrupts is `Database.commit` or `Database.commitQueuedEpoch`.
* `Finished.Sound`: what a call that returned may have changed.
* `strict_database_safe`: **every interleaving is safe.**
-/

namespace ForthDB

/-- What a client does to a transaction of its own. -/
inductive StagedOperation
  | entity
  | define (slot : SlotId) (fact : Fact)
  | forget (slot : SlotId)

def Transaction.stage (t : Transaction) : StagedOperation → Transaction
  | .entity => t.entity.2
  | .define slot fact => t.define slot fact
  | .forget slot => t.forget slot

/-- The calls that take `commit_lock`. -/
inductive Call
  | commit (transaction : Transaction)
  | queuedEpoch (intents : List QueuedIntent)

/-- How a call returns. The store's own errors have the type `ε`. -/
inductive Outcome (ε : Type)
  | committed (world : World)
  | refused (error : CommitError)
  | storeFailed (error : ε)
  | epoch (plan : EpochPlan)
  | panicked (message : String)

/-- Where the holder of `commit_lock` stands. -/
inductive Phase (ε : Type)
  | locked
  | validating (candidate : CandidateWorld) (current : World)
  | appending (candidate : CandidateWorld) (current : World)
  | planning (base : World) (intents : List QueuedIntent)
  | storing (plan : EpochPlan)
  | publishing (world : World) (outcome : Outcome ε)

/-- The holder of `commit_lock`, with the database as the lock showed it. -/
structure Holder (ε : Type) where
  call : Call
  opened : Database
  phase : Phase ε

/-- A call that returned, with the database at its lock and at its return. -/
structure Finished (ε : Type) where
  call : Call
  outcome : Outcome ε
  opened : Database
  closed : Database

structure SharedDatabase (ε : Type) where
  database : Database
  transactions : List Transaction
  snapshots : List World
  holder : Option (Holder ε)
  finished : List (Finished ε)

inductive ClientEvent (ε : Type)
  | begin
  | stage (i : ℕ) (operation : StagedOperation)
  | snapshot
  | registerValidator (validator : Validator)
  | commit (i : ℕ)
  | commitQueuedEpoch (intents : List QueuedIntent)
  /-- The holder's next step; `answer` is what the store says if it is an append. -/
  | advance (answer : Except ε Unit)

variable {ε : Type}

/-- One step under `commit_lock`: the database behind it, and the next phase or the outcome. -/
def Holder.advance (h : Holder ε) (d : Database) (answer : Except ε Unit) :
    Database × (Phase ε ⊕ Outcome ε) :=
  match h.phase, h.call with
  | .locked, .commit t =>
    if t.base.id ≠ d.current.id then
      (d, .inr (.refused (.staleTransaction t.base.id d.current.id)))
    else match t.candidate with
      | .error message => (d, .inr (.panicked message))
      | .ok (.error error) => (d, .inr (.refused (.candidate error)))
      | .ok (.ok candidate) => (d, .inl (.validating candidate d.current))
  | .validating candidate current, _ =>
    match runValidators candidate d.validators with
    | .error message => (d, .inr (.refused (.validation message)))
    | .ok () => (d, .inl (.appending candidate current))
  | .appending candidate current, _ =>
    match answer with
    | .error error => (d, .inr (.storeFailed error))
    | .ok () =>
      let world := candidate.intoWorld candidate.commitFrame current.history
      ({ d with store := d.store ++ [candidate.commitFrame] },
        .inl (.publishing world (.committed world)))
  | .locked, .queuedEpoch intents => (d, .inl (.planning d.current intents))
  | .planning base intents, _ =>
    match deriveEpoch base intents d.validators with
    | .error message => (d, .inr (.panicked message))
    | .ok plan => if plan.frames = [] then (d, .inr (.epoch plan)) else (d, .inl (.storing plan))
  | .storing plan, _ =>
    ({ d with store := d.store ++ plan.frames }, .inl (.publishing plan.tail (.epoch plan)))
  | .publishing world outcome, _ => ({ d with current := world }, .inr outcome)

namespace SharedDatabase

/-- `Database::new` on a store whose frames reconstruct to `world`. -/
def start (frames : List CommitFrame) (world : World) : SharedDatabase ε where
  database := ⟨world, frames, []⟩
  transactions := []
  snapshots := []
  holder := none
  finished := []

variable (s : SharedDatabase ε)

/-- A call takes `commit_lock`, unless it is held. -/
def lock (call : Call) : SharedDatabase ε :=
  { s with holder := some ⟨call, s.database, .locked⟩ }

/-- One step of one client. What cannot happen yet changes nothing. -/
def step : ClientEvent ε → SharedDatabase ε
  | .begin => { s with transactions := s.transactions ++ [s.database.begin] }
  | .stage i operation => { s with transactions := s.transactions.modify i (·.stage operation) }
  | .snapshot => { s with snapshots := s.snapshots ++ [s.database.current] }
  | .registerValidator validator => { s with database := s.database.registerValidator validator }
  | .commit i =>
    match s.holder, s.transactions[i]? with
    | none, some t => { s with transactions := s.transactions.eraseIdx i }.lock (.commit t)
    | _, _ => s
  | .commitQueuedEpoch intents =>
    match s.holder with
    | none => s.lock (.queuedEpoch intents)
    | some _ => s
  | .advance answer =>
    match s.holder with
    | none => s
    | some h =>
      match h.advance s.database answer with
      | (d, .inl phase) => { s with database := d, holder := some { h with phase := phase } }
      | (d, .inr outcome) =>
        { s with
          database := d
          holder := none
          finished := s.finished ++ [⟨h.call, outcome, h.opened, d⟩] }

def run (events : List (ClientEvent ε)) : SharedDatabase ε := events.foldl step s

theorem run_append (xs ys : List (ClientEvent ε)) : s.run (xs ++ ys) = (s.run xs).run ys := by
  simp [run]

/-- **A strict commit that nobody interrupts** is `Database.commit`. -/
theorem commit_alone {i : ℕ} {t : Transaction} (hh : s.holder = none)
    (ht : s.transactions[i]? = some t) :
    (s.run (.commit i :: List.replicate 4 (.advance (.ok ())))).database =
      match s.database.commit t with
      | .ok (.ok d) => d
      | _ => s.database := by
  unfold Database.commit
  by_cases hid : t.base.id = s.database.current.id
  · rcases hc : t.candidate with message | error | c
    · simp [run, step, lock, hh, ht, Holder.advance, hid, hc]
    · simp [run, step, lock, hh, ht, Holder.advance, hid, hc]
    · cases hv : runValidators c s.database.validators with
      | error message => simp [run, step, lock, hh, ht, Holder.advance, hid, hc, hv]
      | ok u => simp [run, step, lock, hh, ht, Holder.advance, hid, hc, hv]
  · simp [run, step, lock, hh, ht, Holder.advance, hid]

/-- **A queued epoch that nobody interrupts** is `Database.commitQueuedEpoch`. -/
theorem queuedEpoch_alone {intents : List QueuedIntent} (hh : s.holder = none) :
    (s.run (.commitQueuedEpoch intents :: List.replicate 4 (.advance (.ok ())))).database =
      match s.database.commitQueuedEpoch intents with
      | .ok (_, d) => d
      | .error _ => s.database := by
  unfold Database.commitQueuedEpoch
  cases hp : deriveEpoch s.database.current intents s.database.validators with
  | error message => simp [run, step, lock, hh, Holder.advance, hp]
  | ok plan =>
    by_cases hf : plan.frames = []
    · simp [run, step, lock, hh, Holder.advance, hp, hf]
    · simp [run, step, lock, hh, Holder.advance, hp, hf]

end SharedDatabase

/-! ## What the steps keep -/

/-- The ids that a history has published, genesis first. -/
def worldIds (fs : List CommitFrame) : List WorldId :=
  .genesis :: fs.map CommitFrame.resultingWorld

/-- The world that some first frames of the store reconstruct to. -/
def Past (store : List CommitFrame) (w : World) : Prop :=
  ∃ n ≤ store.length, World.reconstruct (store.take n) = .ok w

/-- The store and the head that it reconstructs to. -/
def Database.Settled (d : Database) : Prop := World.reconstruct d.store = .ok d.current

section Past

variable {store fs gs : List CommitFrame} {w w' : World}

theorem Past.append (h : Past store w) (added : List CommitFrame) : Past (store ++ added) w := by
  obtain ⟨n, hn, hw⟩ := h
  refine ⟨n, by rw [List.length_append]; omega, ?_⟩
  rwa [List.take_append_of_le_length hn]

theorem past_of_reconstruct (h : World.reconstruct store = .ok w) : Past store w :=
  ⟨store.length, le_rfl, by rwa [List.take_length]⟩

theorem Chained.last_id {id : WorldId} {v : ℕ} {a : WorldState} (h : Chained fs id v a) :
    (worldIds fs)[fs.length]? = some id := by
  cases h with
  | nil => rfl
  | snoc => simp [worldIds]

/-- The id of a reconstructed world is the last one its history published. -/
theorem worldIds_reconstruct (h : World.reconstruct fs = .ok w) :
    (worldIds fs)[fs.length]? = some w.id := by
  obtain ⟨a, ha, -⟩ := World.reconstruct_holds h
  exact ha.chained.last_id

theorem worldIds_take {n : ℕ} (hn : n ≤ store.length) :
    (worldIds (store.take n))[n]? = (worldIds store)[n]? := by
  cases n with
  | zero => rfl
  | succ n => simp [worldIds]

/-- Ids that do not collide name one world of the history. -/
theorem Past.eq_head (hids : (worldIds store).Nodup) (hp : Past store w)
    (hh : World.reconstruct store = .ok w') (hid : w.id = w'.id) : w = w' := by
  obtain ⟨n, hn, hw⟩ := hp
  have h1 := worldIds_reconstruct hw
  rw [List.length_take_of_le hn, worldIds_take hn, hid] at h1
  have h2 := worldIds_reconstruct hh
  have hlt : n < (worldIds store).length := by simp [worldIds]; omega
  have hn' : n = store.length := (List.getElem?_inj hlt hids).1 (h1.trans h2.symm)
  rw [hn', List.take_length, hh] at hw
  exact (Except.ok.inj hw).symm

theorem nodup_of_append (h : (worldIds (fs ++ gs)).Nodup) : (worldIds fs).Nodup := by
  refine List.Nodup.sublist ?_ h
  simp [worldIds]

end Past

/-- The store and the head are the same. -/
def Database.SameHead (d e : Database) : Prop := d.store = e.store ∧ d.current = e.current

/-- What the outcome of a call says that the call published. -/
def Outcome.Publishes (call : Call) (base : World) (added : List CommitFrame) (w : World) :
    Outcome ε → Prop
  | .committed world =>
    ∃ t f, call = .commit t ∧ t.base = base ∧ world = w ∧ added = [f]
  | .epoch plan => ∃ is, call = .queuedEpoch is ∧ plan.frames = added ∧ plan.tail = w
  | _ => False

/-- What the holder knows in a phase: nothing has changed since its lock, until its frames
are stored. -/
def Phase.Sound (call : Call) (opened d : Database) : Phase ε → Prop
  | .locked => opened.SameHead d ∧ d.Settled
  | .validating candidate current | .appending candidate current =>
    opened.SameHead d ∧ d.Settled ∧ current = d.current ∧ ∃ t, call = .commit t ∧
      t.base = current ∧ CandidateWorld.construct current t.operations = .ok (.ok candidate)
  | .planning base is =>
    opened.SameHead d ∧ d.Settled ∧ base = d.current ∧ call = .queuedEpoch is
  | .storing plan =>
    opened.SameHead d ∧ d.Settled ∧ Descends d.current plan.frames plan.tail ∧
      ∃ is, call = .queuedEpoch is
  | .publishing world outcome =>
    opened.current = d.current ∧ opened.Settled ∧ ∃ added, d.store = opened.store ++ added ∧
      Descends opened.current added world ∧
      outcome.Publishes call opened.current added world

/-- What a call that returned may have changed. -/
def Finished.Sound (f : Finished ε) : Prop :=
  match f.outcome with
  | .committed world =>
    ∃ t frame, f.call = .commit t ∧ t.base = f.opened.current ∧
      f.closed.store = f.opened.store ++ [frame] ∧ f.closed.current = world
  | .epoch plan =>
    (∃ is, f.call = .queuedEpoch is) ∧ f.closed.store = f.opened.store ++ plan.frames ∧
      f.closed.current = plan.tail
  | .refused _ | .storeFailed _ =>
    f.closed.store = f.opened.store ∧ f.closed.current = f.opened.current
  | .panicked _ => False

namespace Phase.Sound

variable {call : Call} {opened d : Database} {phase : Phase ε}

/-- The head is what the lock showed, and the store has only grown. -/
theorem opened_settled (h : phase.Sound call opened d) :
    opened.Settled ∧ opened.current = d.current ∧ opened.store <+: d.store := by
  have same : opened.SameHead d → d.Settled →
      opened.Settled ∧ opened.current = d.current ∧ opened.store <+: d.store := by
    rintro ⟨hs, hc⟩ hd
    unfold Database.Settled at hd ⊢
    rw [hs, hc]
    exact ⟨hd, rfl, List.prefix_rfl⟩
  cases phase with
  | locked => exact same h.1 h.2
  | validating => exact same h.1 h.2.1
  | appending => exact same h.1 h.2.1
  | planning => exact same h.1 h.2.1
  | storing => exact same h.1 h.2.1
  | publishing world outcome =>
    obtain ⟨hc, ho, added, hs, -⟩ := h
    exact ⟨ho, hc, added, hs.symm⟩

/-- Validators that are registered meanwhile do not matter. -/
theorem registerValidator (h : phase.Sound call opened d) (v : Validator) :
    phase.Sound call opened (d.registerValidator v) := by
  cases phase <;> exact h

end Phase.Sound

/-- What a step under the lock achieves. -/
def Progress (call : Call) (opened d : Database) : Database × (Phase ε ⊕ Outcome ε) → Prop
  | (d', .inl phase) => phase.Sound call opened d' ∧ d.store <+: d'.store
  | (d', .inr outcome) =>
    d'.Settled ∧ Finished.Sound ⟨call, outcome, opened, d'⟩ ∧ d.store <+: d'.store

/-- **One step under the lock.** -/
theorem Holder.advance_sound {h : Holder ε} {d : Database}
    (hs : h.phase.Sound h.call h.opened d)
    (hp : ∀ t, h.call = .commit t → Past d.store t.base) (hids : (worldIds d.store).Nodup)
    (answer : Except ε Unit) : Progress h.call h.opened d (h.advance d answer) := by
  obtain ⟨call, opened, phase⟩ := h
  simp only at hs hp ⊢
  cases phase with
  | locked =>
    obtain ⟨hsame, hd⟩ := hs
    cases call with
    | commit t =>
      simp only [advance]
      split
      · exact ⟨hd, ⟨hsame.1.symm, hsame.2.symm⟩, List.prefix_rfl⟩
      · rename_i hid
        have hbase : t.base = d.current := (hp t rfl).eq_head hids hd (not_not.1 hid)
        obtain ⟨r, hr⟩ := (World.reconstruct_eager hd).construct_total t.operations
        have hcand : t.candidate = .ok r := by
          unfold Transaction.candidate
          rw [hbase, hr]
        rw [hcand]
        rcases r with error | candidate
        · exact ⟨hd, ⟨hsame.1.symm, hsame.2.symm⟩, List.prefix_rfl⟩
        · exact ⟨⟨hsame, hd, rfl, t, rfl, hbase, hr⟩, List.prefix_rfl⟩
    | queuedEpoch is => exact ⟨⟨hsame, hd, rfl, rfl⟩, List.prefix_rfl⟩
  | validating candidate current =>
    obtain ⟨hsame, hd, hcur, hc⟩ := hs
    simp only [advance]
    cases runValidators candidate d.validators with
    | error message => exact ⟨hd, ⟨hsame.1.symm, hsame.2.symm⟩, List.prefix_rfl⟩
    | ok u => exact ⟨⟨hsame, hd, hcur, hc⟩, List.prefix_rfl⟩
  | appending candidate current =>
    obtain ⟨hsame, hd, rfl, t, rfl, hbase, hc⟩ := hs
    simp only [advance]
    cases answer with
    | error error => exact ⟨hd, ⟨hsame.1.symm, hsame.2.symm⟩, List.prefix_rfl⟩
    | ok u =>
      have hnext : Succeeds d.current candidate.commitFrame
          (candidate.intoWorld candidate.commitFrame d.current.history) :=
        ⟨t.operations, candidate, hc, rfl, rfl⟩
      refine ⟨⟨hsame.2, ?_, [candidate.commitFrame], ?_, ?_, t, candidate.commitFrame, rfl,
        ?_, rfl, rfl⟩, List.prefix_append _ _⟩
      · unfold Database.Settled
        rw [hsame.1, hsame.2]
        exact hd
      · rw [hsame.1]
      · rw [hsame.2]
        exact .single hnext
      · rw [hbase, hsame.2]
  | planning base is =>
    obtain ⟨hsame, hd, rfl, rfl⟩ := hs
    obtain ⟨plan, hplan⟩ := (World.reconstruct_eager hd).deriveEpoch_total is d.validators
    have hdesc := deriveEpoch_descends hplan
    simp only [advance, hplan]
    split
    · rename_i hf
      rw [hf] at hdesc
      refine ⟨hd, ⟨⟨is, rfl⟩, ?_, ?_⟩, List.prefix_rfl⟩
      · rw [hf, List.append_nil]
        exact hsame.1.symm
      · generalize plan.tail = tail at hdesc
        cases hdesc
        rfl
    · exact ⟨⟨hsame, hd, hdesc, is, rfl⟩, List.prefix_rfl⟩
  | storing plan =>
    obtain ⟨hsame, hd, hdesc, is, rfl⟩ := hs
    refine ⟨⟨hsame.2, ?_, plan.frames, ?_, ?_, is, rfl, rfl, rfl⟩, List.prefix_append _ _⟩
    · unfold Database.Settled
      rw [hsame.1, hsame.2]
      exact hd
    · rw [hsame.1]
    · rw [hsame.2]
      exact hdesc
  | publishing world outcome =>
    obtain ⟨hcur, ho, added, hstore, hdesc, hout⟩ := hs
    refine ⟨?_, ?_, List.prefix_rfl⟩
    · show World.reconstruct d.store = .ok world
      rw [hstore]
      exact World.reconstruct_descends ho hdesc
    · cases outcome with
      | committed w =>
        obtain ⟨t, f, rfl, hbase, rfl, rfl⟩ := hout
        exact ⟨t, f, rfl, hbase, hstore, rfl⟩
      | epoch plan =>
        obtain ⟨is, rfl, rfl, rfl⟩ := hout
        exact ⟨⟨is, rfl⟩, hstore, rfl⟩
      | refused error => exact hout.elim
      | storeFailed error => exact hout.elim
      | panicked message => exact hout.elim

namespace SharedDatabase

/-- The database as the holder's lock showed it, or as it is when nobody holds the lock. -/
def settled (s : SharedDatabase ε) : Database :=
  match s.holder with
  | none => s.database
  | some h => h.opened

/-- What every step keeps. -/
structure Inv (s : SharedDatabase ε) : Prop where
  free : s.holder = none → s.database.Settled
  held : ∀ h, s.holder = some h → h.phase.Sound h.call h.opened s.database ∧
    ∀ t, h.call = .commit t → Past s.database.store t.base
  transactions : ∀ t ∈ s.transactions, Past s.database.store t.base
  snapshots : ∀ w ∈ s.snapshots, Past s.database.store w
  finished : ∀ f ∈ s.finished, f.opened.Settled ∧ f.closed.Settled ∧ f.Sound
  order : s.finished.Pairwise fun f g => f.closed.store <+: g.opened.store
  last : ∀ f ∈ s.finished, f.closed.store <+: s.settled.store

variable {s : SharedDatabase ε}

theorem Inv.settled (h : s.Inv) : s.settled.Settled ∧ s.settled.current = s.database.current ∧
    s.settled.store <+: s.database.store := by
  unfold SharedDatabase.settled
  cases hh : s.holder with
  | none => exact ⟨h.free hh, rfl, List.prefix_rfl⟩
  | some holder => exact (h.held holder hh).1.opened_settled

theorem Inv.past_current (h : s.Inv) : Past s.database.store s.database.current := by
  obtain ⟨hd, hc, added, hs⟩ := h.settled
  rw [← hc, ← hs]
  exact (past_of_reconstruct hd).append added

theorem inv_start {fs : List CommitFrame} {w : World} (h : World.reconstruct fs = .ok w) :
    (start fs w : SharedDatabase ε).Inv where
  free _ := h
  held := by
    intro holder hh
    cases hh
  transactions := List.forall_mem_nil _
  snapshots := List.forall_mem_nil _
  finished := List.forall_mem_nil _
  order := .nil
  last := List.forall_mem_nil _

/-- Taking the lock. -/
theorem Inv.lock (h : s.Inv) (hh : s.holder = none) (call : Call)
    (hp : ∀ t, call = .commit t → Past s.database.store t.base) : (s.lock call).Inv where
  free := nofun
  held := by
    rintro _ ⟨⟩
    exact ⟨⟨⟨rfl, rfl⟩, h.free hh⟩, hp⟩
  transactions := h.transactions
  snapshots := h.snapshots
  finished := h.finished
  order := h.order
  last f hf := by
    have := h.last f hf
    rwa [SharedDatabase.settled, hh] at this

theorem Transaction.stage_base (t : Transaction) (op : StagedOperation) :
    (t.stage op).base = t.base := by
  cases op <;> rfl

/-- A step that leaves the lock alone. -/
theorem Inv.of_free {s' : SharedDatabase ε} (h : s.Inv) (hstore : s'.database.store = s.database.store)
    (hcur : s'.database.current = s.database.current) (hh : s'.holder = s.holder)
    (hf : s'.finished = s.finished)
    (hheld : ∀ h, s.holder = some h → h.phase.Sound h.call h.opened s.database →
      h.phase.Sound h.call h.opened s'.database)
    (ht : ∀ t ∈ s'.transactions, Past s.database.store t.base)
    (hw : ∀ w ∈ s'.snapshots, Past s.database.store w) : s'.Inv where
  free hn := by
    have := h.free (hh ▸ hn)
    unfold Database.Settled at *
    rwa [hstore, hcur]
  held holder he := by
    rw [hh] at he
    rw [hstore]
    exact ⟨hheld holder he (h.held holder he).1, (h.held holder he).2⟩
  transactions := by rwa [hstore]
  snapshots := by rwa [hstore]
  finished := by rw [hf]; exact h.finished
  order := by rw [hf]; exact h.order
  last := by
    have hlast := h.last
    rw [hf]
    unfold SharedDatabase.settled at *
    rw [hh]
    cases hc : s.holder with
    | none => rw [hc] at hlast; simpa only [hstore] using hlast
    | some holder => rw [hc] at hlast; exact hlast

/-- **The holder's step** keeps the invariant. -/
theorem Inv.advance (h : s.Inv) (hids : (worldIds s.database.store).Nodup)
    (answer : Except ε Unit) : (s.step (.advance answer)).Inv := by
  simp only [step]
  cases hh : s.holder with
  | none => exact h
  | some holder =>
    obtain ⟨hphase, hpast⟩ := h.held holder hh
    have hprog := Holder.advance_sound hphase hpast hids answer
    have hlast := h.last
    rw [SharedDatabase.settled, hh] at hlast
    simp only at hlast ⊢
    generalize holder.advance s.database answer = next at hprog
    obtain ⟨d, phase | outcome⟩ := next
    · obtain ⟨hsound, added, hadded⟩ := hprog
      have grow : ∀ {w}, Past s.database.store w → Past d.store w := fun hw => by
        rw [← hadded]
        exact hw.append added
      exact {
        free := nofun
        held := by
          rintro _ ⟨⟩
          exact ⟨hsound, fun t ht => grow (hpast t ht)⟩
        transactions := fun t ht => grow (h.transactions t ht)
        snapshots := fun w hw => grow (h.snapshots w hw)
        finished := h.finished
        order := h.order
        last := hlast }
    · obtain ⟨hd, hsound, added, hadded⟩ := hprog
      have grow : ∀ {w}, Past s.database.store w → Past d.store w := fun hw => by
        rw [← hadded]
        exact hw.append added
      have hopened := hphase.opened_settled
      exact {
        free := fun _ => hd
        held := by
          intro holder hh
          cases hh
        transactions := fun t ht => grow (h.transactions t ht)
        snapshots := fun w hw => grow (h.snapshots w hw)
        finished := by
          intro f hf
          rcases List.mem_append.1 hf with hf | hf
          · exact h.finished f hf
          · obtain rfl := List.mem_singleton.1 hf
            exact ⟨hopened.1, hd, hsound⟩
        order := by
          refine List.pairwise_append.2 ⟨h.order, List.pairwise_singleton _ _, ?_⟩
          intro f hf g hg
          obtain rfl := List.mem_singleton.1 hg
          exact hlast f hf
        last := by
          intro f hf
          rcases List.mem_append.1 hf with hf | hf
          · exact (hlast f hf).trans (hopened.2.2.trans ⟨added, hadded⟩)
          · obtain rfl := List.mem_singleton.1 hf
            exact List.prefix_rfl }

/-- **One step** of any client keeps the invariant. -/
theorem Inv.step (h : s.Inv) (hids : (worldIds s.database.store).Nodup) (e : ClientEvent ε) :
    (s.step e).Inv := by
  cases e with
  | begin =>
    refine h.of_free rfl rfl rfl rfl (fun _ _ hs => hs) (fun t ht => ?_) h.snapshots
    rcases List.mem_append.1 ht with ht | ht
    · exact h.transactions t ht
    · obtain rfl := List.mem_singleton.1 ht
      exact h.past_current
  | stage i op =>
    refine h.of_free rfl rfl rfl rfl (fun _ _ hs => hs) (fun t ht => ?_) h.snapshots
    obtain ⟨j, hj⟩ := List.mem_iff_getElem?.1 ht
    obtain ⟨u, hu, rfl⟩ : ∃ u, s.transactions[j]? = some u ∧ (if i = j then u.stage op else u) = t := by
      have hj : (s.transactions.modify i (·.stage op))[j]? = some t := hj
      rw [List.getElem?_modify] at hj
      exact Option.map_eq_some_iff.1 hj
    have hbase : (if i = j then u.stage op else u).base = u.base := by
      split
      · exact Transaction.stage_base u op
      · rfl
    rw [hbase]
    exact h.transactions u (List.mem_of_getElem? hu)
  | snapshot =>
    refine h.of_free rfl rfl rfl rfl (fun _ _ hs => hs) h.transactions (fun w hw => ?_)
    rcases List.mem_append.1 hw with hw | hw
    · exact h.snapshots w hw
    · obtain rfl := List.mem_singleton.1 hw
      exact h.past_current
  | registerValidator v =>
    exact h.of_free rfl rfl rfl rfl (fun _ _ hs => hs.registerValidator v) h.transactions h.snapshots
  | commit i =>
    simp only [SharedDatabase.step]
    split
    · rename_i t hh ht
      have hmem := List.mem_of_getElem? ht
      have h' : ({ s with transactions := s.transactions.eraseIdx i } : SharedDatabase ε).Inv :=
        h.of_free rfl rfl rfl rfl (fun _ _ hs => hs)
          (fun t ht => h.transactions t (List.mem_of_mem_eraseIdx ht)) h.snapshots
      refine h'.lock hh _ ?_
      rintro _ ⟨⟩
      exact h.transactions t hmem
    · exact h
  | commitQueuedEpoch is =>
    simp only [SharedDatabase.step]
    cases hh : s.holder with
    | none => exact h.lock hh _ nofun
    | some holder => exact h
  | advance answer => exact h.advance hids answer

/-! ## Whole runs -/

theorem Holder.advance_prefix (h : Holder ε) (d : Database) (answer : Except ε Unit) :
    d.store <+: (h.advance d answer).1.store := by
  unfold Holder.advance
  split
  · split
    · exact List.prefix_rfl
    · split <;> exact List.prefix_rfl
  · split <;> exact List.prefix_rfl
  · split
    · exact List.prefix_rfl
    · exact List.prefix_append _ _
  · exact List.prefix_rfl
  · split
    · exact List.prefix_rfl
    · split <;> exact List.prefix_rfl
  · exact List.prefix_append _ _
  · exact List.prefix_rfl

/-- A step only adds frames and snapshots. -/
theorem step_prefix (s : SharedDatabase ε) (e : ClientEvent ε) :
    s.database.store <+: (s.step e).database.store ∧ s.snapshots <+: (s.step e).snapshots := by
  cases e with
  | begin => exact ⟨List.prefix_rfl, List.prefix_rfl⟩
  | stage => exact ⟨List.prefix_rfl, List.prefix_rfl⟩
  | snapshot => exact ⟨List.prefix_rfl, List.prefix_append _ _⟩
  | registerValidator => exact ⟨List.prefix_rfl, List.prefix_rfl⟩
  | commit i =>
    simp only [step]
    split <;> exact ⟨List.prefix_rfl, List.prefix_rfl⟩
  | commitQueuedEpoch is =>
    simp only [step]
    split <;> exact ⟨List.prefix_rfl, List.prefix_rfl⟩
  | advance answer =>
    simp only [step]
    split
    · exact ⟨List.prefix_rfl, List.prefix_rfl⟩
    · rename_i h _
      have hp := Holder.advance_prefix h s.database answer
      split <;> rename_i hn <;> rw [hn] at hp <;> exact ⟨hp, List.prefix_rfl⟩

theorem run_prefix (s : SharedDatabase ε) (es : List (ClientEvent ε)) :
    s.database.store <+: (s.run es).database.store ∧ s.snapshots <+: (s.run es).snapshots := by
  induction es generalizing s with
  | nil => exact ⟨List.prefix_rfl, List.prefix_rfl⟩
  | cons e es ih =>
    obtain ⟨h1, h2⟩ := s.step_prefix e
    obtain ⟨h3, h4⟩ := ih (s.step e)
    exact ⟨h1.trans h3, h2.trans h4⟩

/-- **A run** keeps the invariant. -/
theorem Inv.run (h : s.Inv) (es : List (ClientEvent ε))
    (hids : (worldIds (s.run es).database.store).Nodup) : (s.run es).Inv := by
  induction es generalizing s with
  | nil => exact h
  | cons e es ih =>
    obtain ⟨added, hadded⟩ := (s.run_prefix (e :: es)).1
    rw [← hadded] at hids
    refine ih (h.step (nodup_of_append hids) e) ?_
    rw [hadded] at hids
    exact hids

/-- Whether the frames of the holder are stored and its world is not yet the head. -/
def Publishing (s : SharedDatabase ε) (w : World) : Prop :=
  ∃ h o, s.holder = some h ∧ h.phase = .publishing w o

/-- A database whose history is one chain with the head at its end, whose failed calls
changed nothing, and which never committed twice on one base. -/
structure Safe (s : SharedDatabase ε) : Prop where
  chained : ∃ id v a, Chained s.database.store id v a
  head : (∀ w, ¬ s.Publishing w) → World.reconstruct s.database.store = .ok s.database.current
  next : ∀ w, s.Publishing w → World.reconstruct s.database.store = .ok w
  finished : ∀ f ∈ s.finished, f.opened.Settled ∧ f.closed.Settled ∧ f.Sound
  bases : s.finished.Pairwise fun f g => ∀ t u w w',
    f.call = .commit t → f.outcome = .committed w → g.call = .commit u →
      g.outcome = .committed w' → t.base.id ≠ u.base.id

/-- Two commits that succeed one after the other have different bases. -/
theorem bases_ne {store : List CommitFrame} (hids : (worldIds store).Nodup) {f g : Finished ε}
    (hf : f.opened.Settled) (hfs : f.Sound) (hg : g.opened.Settled) (hgs : g.Sound)
    (hfg : f.closed.store <+: g.opened.store) (hlast : g.opened.store <+: store)
    {t u : Transaction} {w w' : World} (hft : f.call = .commit t) (hfw : f.outcome = .committed w)
    (hgu : g.call = .commit u) (hgw : g.outcome = .committed w') : t.base.id ≠ u.base.id := by
  unfold Finished.Sound at hfs hgs
  rw [hfw] at hfs
  rw [hgw] at hgs
  obtain ⟨t', frame, ht', hbase, hclosed, -⟩ := hfs
  obtain ⟨u', frame', hu', hbase', -, -⟩ := hgs
  rw [hft] at ht'
  rw [hgu] at hu'
  cases ht'
  cases hu'
  rw [hbase, hbase']
  -- the bases are the ids at two positions of one history
  have hat : ∀ {d : Database}, d.Settled → d.store <+: store →
      (worldIds store)[d.store.length]? = some d.current.id := by
    rintro d hd ⟨rest, rfl⟩
    rw [← worldIds_reconstruct hd, ← worldIds_take (n := d.store.length) (by simp),
      List.take_left]
  have hlen : f.opened.store.length < g.opened.store.length := by
    have := hfg.length_le
    rw [hclosed, List.length_append, List.length_singleton] at this
    omega
  have hle := hlast.length_le
  have hfo : f.opened.store <+: store := by
    rw [hclosed] at hfg
    exact (List.prefix_append _ _).trans (hfg.trans hlast)
  intro hid
  have heq : (worldIds store)[f.opened.store.length]? = (worldIds store)[g.opened.store.length]? := by
    rw [hat hf hfo, hat hg hlast, hid]
  have hlt : f.opened.store.length < (worldIds store).length := by simp [worldIds]; omega
  have := (List.getElem?_inj hlt hids).1 heq
  omega

theorem Inv.safe (h : s.Inv) (hids : (worldIds s.database.store).Nodup) : s.Safe := by
  have hnext : ∀ w, s.Publishing w → World.reconstruct s.database.store = .ok w := by
    rintro w ⟨holder, o, hh, hphase⟩
    obtain ⟨hsound, -⟩ := h.held holder hh
    rw [hphase] at hsound
    obtain ⟨-, ho, added, hstore, hdesc, -⟩ := hsound
    rw [hstore]
    exact World.reconstruct_descends ho hdesc
  have hhead : (∀ w, ¬ s.Publishing w) →
      World.reconstruct s.database.store = .ok s.database.current := by
    intro hno
    cases hh : s.holder with
    | none => exact h.free hh
    | some holder =>
      obtain ⟨hsound, -⟩ := h.held holder hh
      cases hphase : holder.phase with
      | publishing w o => exact absurd ⟨holder, o, hh, hphase⟩ (hno w)
      | locked => rw [hphase] at hsound; exact hsound.2
      | validating => rw [hphase] at hsound; exact hsound.2.1
      | appending => rw [hphase] at hsound; exact hsound.2.1
      | planning => rw [hphase] at hsound; exact hsound.2.1
      | storing => rw [hphase] at hsound; exact hsound.2.1
  refine ⟨?_, hhead, hnext, h.finished, ?_⟩
  · by_cases hp : ∃ w, s.Publishing w
    · obtain ⟨w, hw⟩ := hp
      exact World.reconstruct_iff.1 ⟨w, hnext w hw⟩
    · exact World.reconstruct_iff.1 ⟨_, hhead (not_exists.1 hp)⟩
  · refine h.order.imp_of_mem fun {f g} hf hg hfg t u w w' hft hfw hgu hgw => ?_
    obtain ⟨hfo, -, hfs⟩ := h.finished f hf
    obtain ⟨hgo, hgc, hgs⟩ := h.finished g hg
    have hgp : g.opened.store <+: g.closed.store := by
      unfold Finished.Sound at hgs
      rw [hgw] at hgs
      obtain ⟨-, frame, -, -, hclosed, -⟩ := hgs
      exact ⟨[frame], hclosed.symm⟩
    exact bases_ne hids hfo hfs hgo hgs hfg (hgp.trans ((h.last g hg).trans h.settled.2.2))
      hft hfw hgu hgw

end SharedDatabase

open SharedDatabase

/-- **Every interleaving is safe**, and every world that a reader was given is what the frames
that were published then reconstruct to. -/
theorem strict_database_safe {frames : List CommitFrame} {world : World}
    (h : World.reconstruct frames = .ok world) (before after : List (ClientEvent ε))
    (hids : (worldIds ((start frames world).run (before ++ after)).database.store).Nodup) :
    ((start frames world).run (before ++ after)).Safe ∧
      ((start frames world).run before).snapshots <+:
        ((start frames world).run (before ++ after)).snapshots ∧
      ∀ w ∈ ((start frames world).run before).database.current ::
          ((start frames world).run before).snapshots,
        ∃ n ≤ ((start frames world).run before).database.store.length,
          World.reconstruct
            (((start frames world).run (before ++ after)).database.store.take n) = .ok w := by
  have hinv := (inv_start h).run (before ++ after) hids
  rw [run_append] at hids hinv ⊢
  generalize hmid : (start frames world).run before = mid at hids hinv ⊢
  obtain ⟨⟨added, hadded⟩, hsnap⟩ := mid.run_prefix after
  have hids' : (worldIds mid.database.store).Nodup := by
    rw [← hadded] at hids
    exact nodup_of_append hids
  have hmidInv : mid.Inv := by
    rw [← hmid] at hids' ⊢
    exact (inv_start h).run before hids'
  refine ⟨hinv.safe hids, hsnap, fun w hw => ?_⟩
  have hpast : Past mid.database.store w := by
    rcases List.mem_cons.1 hw with rfl | hw
    · exact hmidInv.past_current
    · exact hmidInv.snapshots w hw
  obtain ⟨n, hn, hw⟩ := hpast
  refine ⟨n, hn, ?_⟩
  rw [← hadded, List.take_append_of_le_length hn]
  exact hw

/-- Two transactions begin on genesis, a reader takes it, and the first transaction commits. -/
def firstOfTwo : List (ClientEvent String) :=
  [.begin, .begin, .stage 0 .entity, .snapshot, .commit 0] ++ List.replicate 4 (.advance (.ok ()))

theorem strict_database_safe_rivals :
    ((start [] .genesis).run (firstOfTwo ++ [.commit 0, .advance (.ok ())])).Safe ∧
      ((start [] .genesis).run firstOfTwo).snapshots <+:
        ((start [] .genesis).run (firstOfTwo ++ [.commit 0, .advance (.ok ())])).snapshots :=
  have h := strict_database_safe (show World.reconstruct [] = .ok .genesis from rfl) firstOfTwo
    [.commit 0, .advance (.ok ())] (by decide +kernel)
  ⟨h.1, h.2.1⟩

end ForthDB
