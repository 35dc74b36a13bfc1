import ForthDB.Journal.Resumed

/-!
# An engine that is started again

An admission engine writes each epoch to its journal before it applies it. It may die between the
two, or in the middle of a record; when it is opened again it recovers the journal, from an image of
its world if one was written of the whole journal, and from genesis otherwise.

* `AdmissionEngine`: the engine with its two files. `SteadyEngine`: one that never stops.
* `Twinned.epochs`: twins answer a run of epochs alike.
* `recoverJournal_torn`: recovery of a journal behind which a record was cut.
* `Shadows`: what an engine keeps beside one that never stops. `Shadows.restart`: it dies and is
  opened again. `Shadows.step`: one event.
* `restarts_invisible`: **restarts and images are invisible**: the clients are answered as by an
  engine that never stopped, and the world it publishes is its world.
-/

namespace ForthDB

open Bytes VmEpochMaterializer

/-- What the clients of an epoch learn: decisions, frames, the tail and its allocator. -/
def EpochPlan.answer (plan : EpochPlan) : PlanSummary × ℕ := (plan.summary, plan.tail.nextEntity)

/-- Some epochs of the worker, one after the other. -/
def liveEpochs (validators : List Validator) :
    EngineState → List (List QueuedIntent) → Except Halt (List EpochPlan × EngineState)
  | s, [] => .ok ([], s)
  | s, intents :: rest =>
    match liveEpoch validators s intents with
    | .error halt => .error halt
    | .ok (plan, s) =>
      match liveEpochs validators s rest with
      | .error halt => .error halt
      | .ok (plans, s) => .ok (plan :: plans, s)

/-- A run of epochs is its first epoch, and the run of the others. -/
theorem liveEpochs_cons {validators : List Validator} {s s₁ : EngineState} {is : List QueuedIntent}
    {es : List (List QueuedIntent)} {plans : List EpochPlan} :
    liveEpochs validators s (is :: es) = .ok (plans, s₁) ↔
      ∃ plan s₂ rest, liveEpoch validators s is = .ok (plan, s₂) ∧
        liveEpochs validators s₂ es = .ok (rest, s₁) ∧ plans = plan :: rest := by
  rw [liveEpochs]
  constructor
  · intro h
    cases hone : liveEpoch validators s is with
    | error halt =>
      simp only [hone] at h
      cases h
    | ok q =>
      obtain ⟨plan, s₂⟩ := q
      simp only [hone] at h
      cases hrest : liveEpochs validators s₂ es with
      | error halt =>
        simp only [hrest] at h
        cases h
      | ok q =>
        obtain ⟨rest, s₃⟩ := q
        simp only [hrest] at h
        obtain ⟨rfl, rfl⟩ := Prod.mk.inj (Except.ok.inj h)
        exact ⟨plan, s₂, rest, rfl, hrest, rfl⟩
  · rintro ⟨plan, s₂, rest, hone, hrest, rfl⟩
    simp only [hone, hrest]

/-- What the worker holds: its state, and the durable epochs that it has not applied. -/
structure EpochWorker where
  state : EngineState
  backlog : List (List QueuedIntent)

namespace EpochWorker

/-- One turn of the worker. -/
def applyNext (w : EpochWorker) : Except Halt (List (PlanSummary × ℕ) × EpochWorker) :=
  match w.backlog with
  | [] => .ok ([], w)
  | intents :: rest =>
    match liveEpoch [] w.state intents with
    | .error halt => .error halt
    | .ok (plan, state) => .ok ([plan.answer], ⟨state, rest⟩)

/-- `flush`: the barrier waits for all durable epochs. -/
def flush (w : EpochWorker) : Except Halt (List (PlanSummary × ℕ) × EpochWorker) :=
  match liveEpochs [] w.state w.backlog with
  | .error halt => .error halt
  | .ok (plans, state) => .ok (plans.map EpochPlan.answer, ⟨state, []⟩)

end EpochWorker

/-- What happens to an engine. In a `restart` it dies when the first `written` bytes of the record
of `intents` are in the journal, and is opened again. -/
inductive AdmissionEvent
  | submitEpoch (intents : List QueuedIntent)
  | apply
  | writeMmapSnapshot
  | restart (written : ℕ) (intents : List QueuedIntent)

/-- What stops an engine, or keeps it from being opened. -/
inductive AdmissionFailure
  | halted (halt : Halt)
  | unopened (error : AdmissionEpochOpenError)
  | tooLong

/-- An admission engine with the token VM and no validators, its journal and the image beside it. -/
structure AdmissionEngine where
  journal : List UInt8
  image : Option (List UInt8)
  durableEpochs : ℕ
  worker : EpochWorker

namespace AdmissionEngine

/-- `AdmissionEpochController::open_vm`. -/
def openVm (journal : List UInt8) (image : Option (List UInt8)) :
    Except AdmissionFailure AdmissionEngine :=
  let journal := if journal = [] then Journal.journalHeader else journal
  let snapshot := image.bind fun mapping =>
    (MappedFile.openImage mapping journal).toOption.map MappedFile.view
  match Journal.recoverJournal snapshot journal with
  | .error error => .error (.unopened error)
  | .ok recovered =>
    match replayEpochs recovered.snapshot recovered.epochs [] .tokenVm with
    | .error halt => .error (.halted halt)
    | .ok state => .ok ⟨recovered.bytes, image, recovered.totalEpochs, ⟨state, []⟩⟩

/-- The record of the next epoch. -/
def record (e : AdmissionEngine) (intents : List QueuedIntent) : List UInt8 :=
  Journal.encodeEpoch ⟨e.durableEpochs + 1, intents⟩

/-- The file that `write_mmap_snapshot` leaves behind its `flush`. -/
def imageFile (e : AdmissionEngine) : Option (List UInt8) :=
  match e.worker.state.1.vmQuery with
  | .error _ => e.image
  | .ok projection =>
    match MmapVmSnapshot.create e.journal e.durableEpochs e.worker.state.1 projection with
    | .error _ => e.image
    | .ok snapshot => some (snapshot.toFile e.journal)

def step (e : AdmissionEngine) :
    AdmissionEvent → Except AdmissionFailure (List (PlanSummary × ℕ) × AdmissionEngine)
  | .submitEpoch intents =>
    if 2 ^ 32 ≤ (e.record intents).length then .error .tooLong
    else .ok ([], { e with
      journal := e.journal ++ e.record intents
      durableEpochs := e.durableEpochs + 1
      worker := ⟨e.worker.state, e.worker.backlog ++ [intents]⟩ })
  | .apply =>
    match e.worker.applyNext with
    | .error halt => .error (.halted halt)
    | .ok (answers, worker) => .ok (answers, { e with worker := worker })
  | .writeMmapSnapshot =>
    match e.worker.flush with
    | .error halt => .error (.halted halt)
    | .ok (answers, worker) =>
      let e := { e with worker := worker }
      .ok (answers, { e with image := e.imageFile })
  | .restart written intents =>
    match openVm (e.journal ++ (e.record intents).take written) e.image with
    | .error failure => .error failure
    | .ok e => .ok ([], e)

def run (e : AdmissionEngine) :
    List AdmissionEvent → Except AdmissionFailure (List (List (PlanSummary × ℕ)) × AdmissionEngine)
  | [] => .ok ([], e)
  | event :: events =>
    match e.step event with
    | .error failure => .error failure
    | .ok (answers, e) =>
      match e.run events with
      | .error failure => .error failure
      | .ok (rest, e) => .ok (answers :: rest, e)

end AdmissionEngine

/-- An engine that never stops and has no files: what dies with the other one it goes on with. -/
structure SteadyEngine where
  epochs : List (List QueuedIntent)
  worker : EpochWorker

namespace SteadyEngine

def new : SteadyEngine := ⟨[], ⟨(.genesis, .tokenVm (.new World.genesis.nextEntity)), []⟩⟩

/-- The epoch of a record that is whole. -/
def kept (e : SteadyEngine) (written : ℕ) (intents : List QueuedIntent) : List (List QueuedIntent) :=
  if (Journal.encodeEpoch ⟨e.epochs.length + 1, intents⟩).length ≤ written then [intents] else []

def step (e : SteadyEngine) : AdmissionEvent → Except Halt (List (PlanSummary × ℕ) × SteadyEngine)
  | .submitEpoch intents =>
    .ok ([], ⟨e.epochs ++ [intents], ⟨e.worker.state, e.worker.backlog ++ [intents]⟩⟩)
  | .apply =>
    match e.worker.applyNext with
    | .error halt => .error halt
    | .ok (answers, worker) => .ok (answers, ⟨e.epochs, worker⟩)
  | .writeMmapSnapshot =>
    match e.worker.flush with
    | .error halt => .error halt
    | .ok (answers, worker) => .ok (answers, ⟨e.epochs, worker⟩)
  | .restart written intents =>
    let kept := e.kept written intents
    match (⟨e.worker.state, e.worker.backlog ++ kept⟩ : EpochWorker).flush with
    | .error halt => .error halt
    | .ok (_, worker) => .ok ([], ⟨e.epochs ++ kept, worker⟩)

def run (e : SteadyEngine) :
    List AdmissionEvent → Except Halt (List (List (PlanSummary × ℕ)) × SteadyEngine)
  | [] => .ok ([], e)
  | event :: events =>
    match e.step event with
    | .error halt => .error halt
    | .ok (answers, e) =>
      match e.run events with
      | .error halt => .error halt
      | .ok (rest, e) => .ok (answers :: rest, e)

end SteadyEngine

/-! ## Twins over a run -/

/-- Two engines of which the first replayed its history, and the second is its twin. -/
def Twinned (s t : EngineState) : Prop :=
  ∃ w m v m' fs a, s = (w, .tokenVm m) ∧ t = (v, .tokenVm m') ∧ Twins w m v m' fs a

/-- Without validators the worker derives its epochs with the machine. -/
theorem liveEpoch_tokenVm (w : World) (m : VmEpochMaterializer) (is : List QueuedIntent) :
    liveEpoch [] (w, .tokenVm m) is =
      (m.deriveVmEpoch w is).map fun q => (q.1, q.1.tail, EpochMaterializer.tokenVm q.2) := by
  rw [← replayEpoch_eq_live]
  unfold replayEpoch EpochMaterializer.materialize VmEpochMaterializer.materialize
  simp only [ne_eq, not_true_eq_false, if_false]
  cases m.deriveVmEpoch w is <;> rfl

namespace Twinned

variable {s t s₁ : EngineState}

theorem alike (h : Twinned s t) : s.1.Alike t.1 := by
  obtain ⟨w, m, v, m', fs, a, rfl, rfl, htwins⟩ := h
  exact htwins.alike

theorem refl (h : Twinned s t) : Twinned s s := by
  obtain ⟨w, m, v, m', fs, a, rfl, rfl, htwins⟩ := h
  obtain ⟨names, hkept⟩ := htwins.kept
  exact ⟨w, m, w, m, fs, a, rfl, rfl, .refl hkept⟩

theorem genesis : Twinned SteadyEngine.new.worker.state SteadyEngine.new.worker.state := by
  have hkept : VmKept .genesis (.new World.genesis.nextEntity) [] .genesis [] :=
    ⟨World.genesis_holds, new_holds 1, new_tight 1, rfl, rfl⟩
  exact ⟨_, _, _, _, _, _, rfl, rfl, .refl hkept⟩

/-- **One epoch** is answered alike. -/
theorem epoch (h : Twinned s t) {is : List QueuedIntent} {plan : EpochPlan}
    (hl : liveEpoch [] s is = .ok (plan, s₁)) :
    ∃ plan' t₁, liveEpoch [] t is = .ok (plan', t₁) ∧ plan'.answer = plan.answer ∧
      Twinned s₁ t₁ := by
  obtain ⟨w, m, v, m', fs, a, rfl, rfl, htwins⟩ := h
  rw [liveEpoch_tokenVm] at hl
  cases hd : m.deriveVmEpoch w is with
  | error halt =>
    rw [hd] at hl
    cases hl
  | ok q =>
    obtain ⟨q, m₁⟩ := q
    rw [hd] at hl
    obtain ⟨rfl, rfl⟩ := Prod.mk.inj (Except.ok.inj hl)
    obtain ⟨plan', m₁', hd', hagrees, b, htwins'⟩ := htwins.epoch hd
    refine ⟨plan', (plan'.tail, .tokenVm m₁'), ?_, ?_, ?_⟩
    · rw [liveEpoch_tokenVm, hd']
      rfl
    · exact (Prod.ext hagrees.summary hagrees.nextEntity).symm
    · exact ⟨_, _, _, _, _, _, rfl, rfl, htwins'⟩

/-- **A run of epochs** is answered alike. -/
theorem epochs (h : Twinned s t) {es : List (List QueuedIntent)} {plans : List EpochPlan}
    (hl : liveEpochs [] s es = .ok (plans, s₁)) :
    ∃ plans' t₁, liveEpochs [] t es = .ok (plans', t₁) ∧
      plans'.map EpochPlan.answer = plans.map EpochPlan.answer ∧ Twinned s₁ t₁ := by
  induction es generalizing s t plans with
  | nil =>
    obtain ⟨rfl, rfl⟩ := Prod.mk.inj (Except.ok.inj hl)
    exact ⟨[], t, rfl, rfl, h⟩
  | cons is es ih =>
    obtain ⟨plan, s₂, rest, hone, hrest, rfl⟩ := liveEpochs_cons.1 hl
    obtain ⟨plan', t₂, hone', hanswer, h₂⟩ := h.epoch hone
    obtain ⟨rest', t₃, hrest', hanswers, h₃⟩ := ih h₂ hrest
    refine ⟨plan' :: rest', t₃, ?_, ?_, h₃⟩
    · exact liveEpochs_cons.2 ⟨plan', t₂, rest', hone', hrest', rfl⟩
    · rw [List.map_cons, List.map_cons, hanswer, hanswers]

end Twinned

/-- Epochs behind epochs. -/
theorem liveEpochs_append {s s₁ s₂ : EngineState} {es es' : List (List QueuedIntent)}
    {plans plans' : List EpochPlan} (h : liveEpochs [] s es = .ok (plans, s₁))
    (h' : liveEpochs [] s₁ es' = .ok (plans', s₂)) :
    liveEpochs [] s (es ++ es') = .ok (plans ++ plans', s₂) := by
  induction es generalizing s plans with
  | nil =>
    obtain ⟨rfl, rfl⟩ := Prod.mk.inj (Except.ok.inj h)
    exact h'
  | cons is es ih =>
    obtain ⟨plan, s₃, rest, hone, hrest, rfl⟩ := liveEpochs_cons.1 h
    exact liveEpochs_cons.2 ⟨plan, s₃, rest ++ plans', hone, ih hrest, rfl⟩

theorem go_live {es : List (List QueuedIntent)} {plans : List EpochPlan} {s s₁ : EngineState}
    (h : liveEpochs [] s es = .ok (plans, s₁)) : replayEpochs.go [] s es = .ok s₁ := by
  induction es generalizing s plans with
  | nil =>
    obtain ⟨-, rfl⟩ := Prod.mk.inj (Except.ok.inj h)
    rfl
  | cons is es ih =>
    obtain ⟨plan, s₂, rest, hone, hrest, -⟩ := liveEpochs_cons.1 h
    unfold replayEpochs.go
    rw [replayEpoch_eq_live, hone]
    exact ih hrest

/-- **A replay** ends where the worker does. -/
theorem replayEpochs_live {es : List (List QueuedIntent)} {plans : List EpochPlan} {s₁ : EngineState}
    (h : liveEpochs [] SteadyEngine.new.worker.state es = .ok (plans, s₁)) :
    replayEpochs none es [] .tokenVm = .ok s₁ := go_live h

/-! ## Recovery -/

/-- Intents that the journal gives back as they were: their numbers and records fit their fields. -/
def FitsJournal (is : List QueuedIntent) : Prop :=
  (∀ i ∈ is, i.Built ∧ i.space < 2 ^ 64 ∧ i.Liftable) ∧
    (Journal.encodeEpochPayload ⟨0, is⟩).length ≤ Journal.epochFormat.limit

theorem length_encodeEpochPayload (n : ℕ) (is : List QueuedIntent) :
    (Journal.encodeEpochPayload ⟨n, is⟩).length = (Journal.encodeEpochPayload ⟨0, is⟩).length := by
  unfold Journal.encodeEpochPayload
  simp only [List.length_append, length_le]

namespace FitsJournal

variable {is : List QueuedIntent} {epochs : List (List QueuedIntent)}

theorem recoverable (h : FitsJournal is) (n : ℕ) : Journal.Recoverable ⟨n, is⟩ := by
  refine ⟨fun i hi => (h.1 i hi).2.2, ?_⟩
  rw [length_encodeEpochPayload]
  exact h.2

theorem length_record (h : FitsJournal is) (n : ℕ) :
    (Journal.encodeEpoch ⟨n, is⟩).length < 2 ^ 32 := by
  have hle := h.2
  have hlimit : Journal.epochFormat.limit = 64 * 1024 * 1024 := rfl
  unfold Journal.encodeEpoch
  rw [RecordLog.length_encode, length_encodeEpochPayload]
  omega

theorem numbered_mem {first : ℕ} {batch : EpochBatch} (h : batch ∈ Journal.numbered first epochs) :
    batch.intents ∈ epochs := by
  induction epochs generalizing first with
  | nil => cases h
  | cons e es ih =>
    rcases List.mem_cons.1 h with rfl | h
    · exact List.mem_cons_self
    · exact List.mem_cons_of_mem _ (ih h)

theorem recoverables (h : ∀ is ∈ epochs, FitsJournal is) {first : ℕ} :
    ∀ batch ∈ Journal.numbered first epochs, Journal.Recoverable batch := fun batch hb =>
  (h _ (numbered_mem hb)).recoverable batch.id

theorem admitted (h : ∀ is ∈ epochs, FitsJournal is)
    (hcount : 1 + epochs.length ≤ 2 ^ 64) : Journal.Admitted 1 epochs := by
  refine ⟨hcount, ?_, ?_⟩
  · intro is his i hi
    exact ⟨((h is his).1 i hi).1, ((h is his).1 i hi).2.1⟩
  · intro batch hb
    exact (h _ (numbered_mem hb)).length_record batch.id

end FitsJournal

namespace Journal

variable {epochs : List (List QueuedIntent)}

theorem length_journalOf (epochs : List (List QueuedIntent)) :
    (journalOf epochs).length = 16 + (recordsOf 1 epochs).length := by
  rw [journalOf, List.length_append, length_journalHeader]

/-- One more epoch is one more record. -/
theorem journalOf_snoc (epochs : List (List QueuedIntent)) (is : List QueuedIntent) :
    journalOf (epochs ++ [is]) = journalOf epochs ++ encodeEpoch ⟨epochs.length + 1, is⟩ := by
  have hnumbered : ∀ first, numbered first (epochs ++ [is]) =
      numbered first epochs ++ [⟨first + epochs.length, is⟩] := by
    induction epochs with
    | nil => exact fun first => rfl
    | cons e es ih =>
      intro first
      rw [List.cons_append, numbered, ih, numbered, List.length_cons, List.cons_append,
        Nat.add_assoc, Nat.add_comm 1]
  unfold journalOf recordsOf
  rw [hnumbered, List.flatMap_append, List.flatMap_singleton, List.append_assoc, Nat.add_comm 1]

theorem journalOf_mono {done : List (List QueuedIntent)} (h : done <+: epochs) :
    journalOf done <+: journalOf epochs := by
  obtain ⟨rest, rfl⟩ := h
  induction rest using List.reverseRecOn with
  | nil => rw [List.append_nil]
  | append_singleton rest is ih =>
    rw [← List.append_assoc, journalOf_snoc]
    exact ih.trans (List.prefix_append _ _)

/-- Every epoch has a record of its own. -/
theorem count_le_journalOf (epochs : List (List QueuedIntent)) :
    16 + 24 * epochs.length ≤ (journalOf epochs).length := by
  induction epochs using List.reverseRecOn with
  | nil => exact (length_journalOf []).ge
  | append_singleton epochs is ih =>
    rw [journalOf_snoc, List.length_append, List.length_append, List.length_singleton, encodeEpoch,
      RecordLog.length_encode]
    omega

/-- Journals of one length, of which one is a part of the other, are of the same epochs. -/
theorem eq_of_length {done : List (List QueuedIntent)} (h : done <+: epochs)
    (hlength : (journalOf epochs).length ≤ (journalOf done).length) : done = epochs := by
  obtain ⟨rest, rfl⟩ := h
  induction rest using List.reverseRecOn with
  | nil => rw [List.append_nil]
  | append_singleton rest is _ =>
    exfalso
    have hle := (journalOf_mono (List.prefix_append done rest)).length_le
    rw [← List.append_assoc, journalOf_snoc, List.length_append, encodeEpoch,
      RecordLog.length_encode] at hlength
    omega

/-- **A journal behind which a record was cut** is recovered without that record. -/
theorem recoverJournal_torn (hfits : ∀ is ∈ epochs, FitsJournal is)
    (hcount : 1 + epochs.length ≤ 2 ^ 64) {torn : List UInt8} (htorn : RecordLog.Torn epochFormat torn)
    {image : Option MmapVmSnapshot}
    (himage : ∀ s, image = some s → s.journalOffset ≠ (journalOf epochs ++ torn).length) :
    recoverJournal image (journalOf epochs ++ torn) = .ok {
      bytes := journalOf epochs, epochs := epochs, fileLen := (journalOf epochs).length,
      totalEpochs := epochs.length, snapshot := none } := by
  have hpayloads : ∀ p ∈ payloadsOf 1 epochs, p.length ≤ epochFormat.limit := by
    intro p hp
    obtain ⟨batch, hbatch, rfl⟩ := List.mem_map.1 hp
    exact (FitsJournal.recoverables hfits batch hbatch).2
  have haccept := acceptAll_epochs [] (FitsJournal.admitted hfits hcount)
    (FitsJournal.recoverables hfits) 16
  rw [List.length_nil, Nat.zero_add, List.nil_append, ← length_journalOf] at haccept
  have hsplit : journalOf epochs ++ torn = journalHeader ++ (recordsOf 1 epochs ++ torn) := by
    rw [journalOf, List.append_assoc]
  have hscan : RecordLog.scanLog epochFormat acceptEpoch damagedEpoch
      (journalOf epochs ++ torn).length [] 16 (recordsOf 1 epochs ++ torn) =
        .ok (epochs, (journalOf epochs).length) := by
    rw [recordsOf_eq]
    refine RecordLog.scanLog_cut hpayloads htorn haccept ?_
    have hlength : (journalHeader ++ (recordsOf 1 epochs ++ torn)).length =
        journalHeader.length + (recordsOf 1 epochs ++ torn).length := List.length_append
    rw [← recordsOf_eq, hsplit, hlength]
    omega
  rw [hsplit] at himage hscan ⊢
  rw [recoverJournal_header himage, hscan]
  simp only
  congr 2
  rw [← hsplit]
  split
  · exact List.take_left' rfl
  · rename_i hwhole
    have hnil : torn.length = 0 := by
      have hlength := not_not.1 hwhole
      rw [List.length_append] at hlength
      omega
    rw [List.length_eq_zero_iff.1 hnil, List.append_nil]

/-- **An image of the whole journal** stands for its epochs. -/
theorem recoverJournal_image {s : MmapVmSnapshot}
    (hs : s.journalOffset = (journalOf epochs).length) :
    recoverJournal (some s) (journalOf epochs) = .ok {
      bytes := journalOf epochs, epochs := [], fileLen := (journalOf epochs).length,
      totalEpochs := s.epochCount, snapshot := some s } := by
  have hlength := length_journalOf epochs
  have hne : journalOf epochs ≠ [] := by
    intro hempty
    rw [hempty, List.length_nil] at hlength
    omega
  have hmagic : (journalOf epochs).take 8 = utf8 "FTHADM01" := by
    rw [journalOf, List.take_append_of_le_length (by decide)]
    decide
  have hversion : ofLe (((journalOf epochs).drop 8).take 4) = 1 := by
    rw [journalOf, List.drop_append_of_le_length (by decide),
      List.take_append_of_le_length (by decide)]
    decide
  have hfound : ((some s).filter fun snapshot => snapshot.journalOffset = (journalOf epochs).length) =
      some s := by
    simp only [Option.filter, hs, decide_true, if_true]
  have hok : ¬ ((journalOf epochs).length < 16 ∨ (journalOf epochs).take 8 ≠ utf8 "FTHADM01") := by
    rw [hmagic, not_or]
    exact ⟨by omega, fun hbad => hbad rfl⟩
  unfold recoverJournal
  simp only [if_neg hne]
  rw [if_neg hok, if_neg (fun hbad => hbad hversion), hfound]

end Journal

/-! ## Beside an engine that never stops -/

instance : DecidablePred World.InRange := fun w =>
  decidable_of_iff (w.version < 2 ^ 64 ∧ w.nextEntity < 2 ^ 64 ∧ w.operationCount < 2 ^ 64 ∧
    w.activeSlotCount < 2 ^ 64 ∧ w.recordCount < 2 ^ 64)
    ⟨fun h => ⟨h.1, h.2.1, h.2.2.1, h.2.2.2.1, h.2.2.2.2⟩, fun h => ⟨h.1, h.2, h.3, h.4, h.5⟩⟩

/-- The counters, texts and offsets of an engine fit the words of the code. -/
def SteadyEngine.InRange (e : SteadyEngine) : Prop :=
  e.worker.state.1.InRange ∧
    (∀ f ∈ (e.worker.state.1.frames.toOption).getD [], f.InRange) ∧
    (Journal.journalOf e.epochs).length < 2 ^ 64

instance : DecidablePred SteadyEngine.InRange := fun _ => inferInstanceAs (Decidable (_ ∧ _))

/-- An engine stays in range behind each of some events. -/
def SteadyEngine.StaysInRange (e : SteadyEngine) : List AdmissionEvent → Prop
  | [] => True
  | event :: events =>
    ∀ q ∈ (e.step event).toOption, q.2.InRange ∧ q.2.StaysInRange events

instance SteadyEngine.decidableStaysInRange : ∀ (e : SteadyEngine) (events : List AdmissionEvent),
    Decidable (e.StaysInRange events)
  | _, [] => .isTrue trivial
  | e, event :: events =>
    haveI (e : SteadyEngine) : Decidable (e.StaysInRange events) := decidableStaysInRange e events
    inferInstanceAs (Decidable (∀ q ∈ (e.step event).toOption,
      q.2.InRange ∧ q.2.StaysInRange events))

/-- The epochs of an event fit the journal. -/
def AdmissionEvent.Fits : AdmissionEvent → Prop
  | .submitEpoch intents => FitsJournal intents
  | .restart _ intents => FitsJournal intents
  | _ => True

/-- An image that was written of the journal of the epochs `done`. -/
structure ImageOf (done : List (List QueuedIntent)) (mapping : List UInt8) (s : MmapVmSnapshot) :
    Prop where
  sound : s.Sound (Journal.journalOf done)
  file : mapping = s.toFile (Journal.journalOf done)
  epochCount : s.epochCount = done.length
  loads : fromMmap s = .ok s.materializer
  twinned : ∃ plans t, liveEpochs [] SteadyEngine.new.worker.state done = .ok (plans, t) ∧
    Twinned t (.fromMmap s, .tokenVm s.materializer)

/-- What an engine keeps beside one that never stops. -/
structure Shadows (spec : SteadyEngine) (e : AdmissionEngine) : Prop where
  state : Twinned spec.worker.state e.worker.state
  backlog : e.worker.backlog = spec.worker.backlog
  journal : e.journal = Journal.journalOf spec.epochs
  durable : e.durableEpochs = spec.epochs.length
  fits : ∀ is ∈ spec.epochs, FitsJournal is
  replayed : ∃ done plans, spec.epochs = done ++ spec.worker.backlog ∧
    liveEpochs [] SteadyEngine.new.worker.state done = .ok (plans, spec.worker.state)
  image : ∀ mapping, e.image = some mapping → ∃ done s, done <+: spec.epochs ∧ ImageOf done mapping s

namespace EpochWorker

variable {w w₁ v : EpochWorker} {answers : List (PlanSummary × ℕ)}

theorem applyNext_ok (h : w.applyNext = .ok (answers, w₁)) :
    (w.backlog = [] ∧ answers = [] ∧ w₁ = w) ∨
      ∃ is plan, w.backlog = is :: w₁.backlog ∧ liveEpoch [] w.state is = .ok (plan, w₁.state) ∧
        answers = [plan.answer] := by
  unfold applyNext at h
  cases hw : w.backlog with
  | nil =>
    simp only [hw] at h
    obtain ⟨rfl, rfl⟩ := Prod.mk.inj (Except.ok.inj h)
    exact .inl ⟨rfl, rfl, rfl⟩
  | cons is rest =>
    simp only [hw] at h
    cases hl : liveEpoch [] w.state is with
    | error halt =>
      simp only [hl] at h
      cases h
    | ok q =>
      obtain ⟨plan, state⟩ := q
      simp only [hl] at h
      obtain ⟨rfl, rfl⟩ := Prod.mk.inj (Except.ok.inj h)
      exact .inr ⟨is, plan, rfl, hl, rfl⟩

theorem applyNext_twinned (h : Twinned w.state v.state) (hb : v.backlog = w.backlog)
    (ha : w.applyNext = .ok (answers, w₁)) :
    ∃ v₁, v.applyNext = .ok (answers, v₁) ∧ Twinned w₁.state v₁.state ∧ v₁.backlog = w₁.backlog := by
  obtain ⟨hw, rfl, rfl⟩ | ⟨is, plan, hw, hl, rfl⟩ := applyNext_ok ha
  · refine ⟨v, ?_, h, hb⟩
    unfold applyNext
    simp only [hb, hw]
  · obtain ⟨plan', state', hl', hanswer, htwinned⟩ := h.epoch hl
    refine ⟨⟨state', w₁.backlog⟩, ?_, htwinned, rfl⟩
    unfold applyNext
    simp only [hb, hw, hl', hanswer]

theorem flush_ok (h : w.flush = .ok (answers, w₁)) : ∃ plans,
    liveEpochs [] w.state w.backlog = .ok (plans, w₁.state) ∧ w₁.backlog = [] ∧
      answers = plans.map EpochPlan.answer := by
  unfold flush at h
  cases hl : liveEpochs [] w.state w.backlog with
  | error halt =>
    simp only [hl] at h
    cases h
  | ok q =>
    obtain ⟨plans, state⟩ := q
    simp only [hl] at h
    obtain ⟨rfl, rfl⟩ := Prod.mk.inj (Except.ok.inj h)
    exact ⟨plans, rfl, rfl, rfl⟩

theorem flush_twinned (h : Twinned w.state v.state) (hb : v.backlog = w.backlog)
    (hf : w.flush = .ok (answers, w₁)) :
    ∃ v₁, v.flush = .ok (answers, v₁) ∧ Twinned w₁.state v₁.state ∧ v₁.backlog = [] := by
  obtain ⟨plans, hl, -, rfl⟩ := flush_ok hf
  obtain ⟨plans', state', hl', hanswers, htwinned⟩ := h.epochs hl
  refine ⟨⟨state', []⟩, ?_, htwinned, rfl⟩
  unfold flush
  rw [hb, hl']
  simp only [hanswers]

end EpochWorker

namespace AdmissionEngine

variable {e : AdmissionEngine} {mapping : List UInt8}

/-- The image beside the journal is the one that was there, or one of this world. -/
theorem imageFile_ok (h : e.imageFile = some mapping) :
    e.image = some mapping ∨ ∃ p s, e.worker.state.1.vmQuery = .ok p ∧
      MmapVmSnapshot.create e.journal e.durableEpochs e.worker.state.1 p = .ok s ∧
        mapping = s.toFile e.journal := by
  unfold imageFile at h
  cases hp : e.worker.state.1.vmQuery with
  | error message =>
    simp only [hp] at h
    exact .inl h
  | ok p =>
    simp only [hp] at h
    cases hcreate : MmapVmSnapshot.create e.journal e.durableEpochs e.worker.state.1 p with
    | error message =>
      simp only [hcreate] at h
      exact .inl h
    | ok s =>
      simp only [hcreate] at h
      exact .inr ⟨p, s, rfl, hcreate, (Option.some.inj h).symm⟩

theorem openVm_ok {journal : List UInt8} {image : Option (List UInt8)}
    {found : Option MmapVmSnapshot} {recovered : RecoveredJournal} {state : EngineState}
    (hne : journal ≠ [])
    (hfound : (image.bind fun mapping =>
      (MappedFile.openImage mapping journal).toOption.map MappedFile.view) = found)
    (hrecovered : Journal.recoverJournal found journal = .ok recovered)
    (hreplay : replayEpochs recovered.snapshot recovered.epochs [] .tokenVm = .ok state) :
    openVm journal image = .ok ⟨recovered.bytes, image, recovered.totalEpochs, ⟨state, []⟩⟩ := by
  unfold openVm
  simp only [if_neg hne, hfound, hrecovered, hreplay]

end AdmissionEngine

namespace ImageOf

variable {done epochs : List (List QueuedIntent)} {mapping torn : List UInt8} {s : MmapVmSnapshot}

theorem replay (h : ImageOf done mapping s) :
    replayEpochs (some s) [] [] .tokenVm = .ok (.fromMmap s, .tokenVm s.materializer) := by
  unfold replayEpochs startEngine
  simp only [h.loads]
  rfl

/-- An image that is used stands for the whole journal, and no record was cut behind it. -/
theorem whole (h : ImageOf done mapping s) (hdone : done <+: epochs)
    (hoffset : s.journalOffset = (Journal.journalOf epochs ++ torn).length) :
    done = epochs ∧ torn = [] := by
  have hlength : (Journal.journalOf done).length = (Journal.journalOf epochs).length + torn.length := by
    rw [← h.sound.offset.1, hoffset, List.length_append]
  have heq : done = epochs := Journal.eq_of_length hdone (by omega)
  subst heq
  exact ⟨rfl, List.length_eq_zero_iff.1 (by omega)⟩

end ImageOf

namespace Shadows

variable {spec spec₁ : SteadyEngine} {e : AdmissionEngine} {answers : List (PlanSummary × ℕ)}

theorem submitEpoch (h : Shadows spec e) {intents : List QueuedIntent} (hfits : FitsJournal intents)
    (hs : spec.step (.submitEpoch intents) = .ok (answers, spec₁)) :
    ∃ e₁, e.step (.submitEpoch intents) = .ok (answers, e₁) ∧ Shadows spec₁ e₁ := by
  obtain ⟨rfl, rfl⟩ := Prod.mk.inj (Except.ok.inj hs)
  have hrecord : ¬ 2 ^ 32 ≤ (e.record intents).length := not_le.2 (hfits.length_record _)
  obtain ⟨done, plans, hepochs, hlive⟩ := h.replayed
  refine ⟨_, if_neg hrecord, ?_⟩
  constructor
  · exact h.state
  · show e.worker.backlog ++ [intents] = spec.worker.backlog ++ [intents]
    rw [h.backlog]
  · show e.journal ++ e.record intents = Journal.journalOf (spec.epochs ++ [intents])
    rw [Journal.journalOf_snoc, h.journal, AdmissionEngine.record, h.durable]
  · show e.durableEpochs + 1 = (spec.epochs ++ [intents]).length
    rw [h.durable, List.length_append, List.length_singleton]
  · intro is his
    rcases List.mem_append.1 his with his | his
    · exact h.fits is his
    · exact List.mem_singleton.1 his ▸ hfits
  · refine ⟨done, plans, ?_, hlive⟩
    show spec.epochs ++ [intents] = done ++ (spec.worker.backlog ++ [intents])
    rw [hepochs, List.append_assoc]
  · intro mapping hmapping
    obtain ⟨old, s, hpre, himage⟩ := h.image mapping hmapping
    exact ⟨old, s, hpre.trans (List.prefix_append _ _), himage⟩

theorem apply (h : Shadows spec e) (hs : spec.step .apply = .ok (answers, spec₁)) :
    ∃ e₁, e.step .apply = .ok (answers, e₁) ∧ Shadows spec₁ e₁ := by
  unfold SteadyEngine.step at hs
  cases ha : spec.worker.applyNext with
  | error halt =>
    simp only [ha] at hs
    cases hs
  | ok q =>
    obtain ⟨replies, worker⟩ := q
    simp only [ha] at hs
    obtain ⟨rfl, rfl⟩ := Prod.mk.inj (Except.ok.inj hs)
    obtain ⟨worker', ha', hstate, hbacklog⟩ := EpochWorker.applyNext_twinned h.state h.backlog ha
    refine ⟨{ e with worker := worker' }, ?_, hstate, hbacklog, h.journal, h.durable, h.fits, ?_,
      h.image⟩
    · unfold AdmissionEngine.step
      simp only [ha']
    · obtain ⟨done, plans, hepochs, hlive⟩ := h.replayed
      obtain ⟨-, -, rfl⟩ | ⟨is, plan, hw, hl, -⟩ := EpochWorker.applyNext_ok ha
      · exact ⟨done, plans, hepochs, hlive⟩
      · have hone : liveEpochs [] spec.worker.state [is] = .ok ([plan], worker.state) :=
          liveEpochs_cons.2 ⟨plan, worker.state, [], hl, rfl, rfl⟩
        refine ⟨done ++ [is], plans ++ [plan], ?_, liveEpochs_append hlive hone⟩
        show spec.epochs = done ++ [is] ++ worker.backlog
        rw [hepochs, hw, List.append_assoc]
        rfl

/-- A flushed engine has replayed all its epochs. -/
theorem flushed (h : Shadows spec e) {worker : EpochWorker} {replies : List (PlanSummary × ℕ)}
    {more : List (List QueuedIntent)}
    (hf : (⟨spec.worker.state, spec.worker.backlog ++ more⟩ : EpochWorker).flush =
      .ok (replies, worker)) :
    worker.backlog = [] ∧ ∃ plans,
      liveEpochs [] SteadyEngine.new.worker.state (spec.epochs ++ more) =
        .ok (plans, worker.state) := by
  obtain ⟨plans, hl, hnil, -⟩ := EpochWorker.flush_ok hf
  obtain ⟨done, before, hepochs, hlive⟩ := h.replayed
  refine ⟨hnil, before ++ plans, ?_⟩
  rw [hepochs, List.append_assoc]
  exact liveEpochs_append hlive hl

theorem writeMmapSnapshot (h : Shadows spec e)
    (hs : spec.step .writeMmapSnapshot = .ok (answers, spec₁)) (hrange : spec₁.InRange) :
    ∃ e₁, e.step .writeMmapSnapshot = .ok (answers, e₁) ∧ Shadows spec₁ e₁ := by
  unfold SteadyEngine.step at hs
  cases hf : spec.worker.flush with
  | error halt =>
    simp only [hf] at hs
    cases hs
  | ok q =>
    obtain ⟨replies, worker⟩ := q
    simp only [hf] at hs
    obtain ⟨rfl, rfl⟩ := Prod.mk.inj (Except.ok.inj hs)
    obtain ⟨worker', hf', hstate, hbacklog⟩ := EpochWorker.flush_twinned h.state h.backlog hf
    have hflush : (⟨spec.worker.state, spec.worker.backlog ++ []⟩ : EpochWorker).flush =
        .ok (replies, worker) := by
      rw [List.append_nil]
      exact hf
    obtain ⟨hnil, plans, hlive⟩ := h.flushed hflush
    rw [List.append_nil] at hlive
    refine ⟨{ e with worker := worker', image := ({ e with worker := worker' } : AdmissionEngine).imageFile },
      ?_, hstate, hbacklog.trans hnil.symm, h.journal, h.durable, h.fits, ?_, ?_⟩
    · unfold AdmissionEngine.step
      simp only [hf']
    · refine ⟨spec.epochs, plans, ?_, hlive⟩
      show spec.epochs = spec.epochs ++ worker.backlog
      rw [hnil, List.append_nil]
    · intro mapping hmapping
      obtain himage | ⟨p, s, hp, hcreate, rfl⟩ := AdmissionEngine.imageFile_ok hmapping
      · exact h.image mapping himage
      · rw [h.journal, h.durable] at hcreate
        obtain ⟨w, m, v, m', fs, a, hw, hv, htwins⟩ := hstate
        obtain ⟨hcounters, hframes, hjournal⟩ := hrange
        simp only [hw] at hcounters hframes
        obtain ⟨names, hkept⟩ := htwins.kept
        rw [hkept.world.frames] at hframes
        have hcount := Journal.count_le_journalOf spec.epochs
        have hjournal : (Journal.journalOf spec.epochs).length < 2 ^ 64 := hjournal
        simp only [hv] at hp hcreate
        obtain ⟨hsound, hepochs, hloads, htwins'⟩ := htwins.resumed hcounters
          hframes hp hcreate (by omega) (by omega) hjournal
        refine ⟨spec.epochs, s, List.prefix_rfl, hsound, ?_, hepochs, hloads, plans, worker.state,
          hlive, ?_⟩
        · show s.toFile e.journal = s.toFile (Journal.journalOf spec.epochs)
          rw [h.journal]
        · exact ⟨_, _, _, _, _, _, hw, rfl, htwins'⟩

/-- The journal of a dead engine: whole records, and the front of one. -/
theorem cut (h : Shadows spec e) {written : ℕ} {intents : List QueuedIntent}
    (hfits : FitsJournal intents) :
    ∃ torn, RecordLog.Torn Journal.epochFormat torn ∧
      e.journal ++ (e.record intents).take written =
        Journal.journalOf (spec.epochs ++ spec.kept written intents) ++ torn := by
  have hrecord : e.record intents = Journal.encodeEpoch ⟨spec.epochs.length + 1, intents⟩ := by
    rw [AdmissionEngine.record, h.durable]
  unfold SteadyEngine.kept
  rw [hrecord, h.journal]
  split
  · rename_i hwhole
    refine ⟨[], .inl rfl, ?_⟩
    rw [List.take_of_length_le hwhole, Journal.journalOf_snoc, List.append_nil]
  · rename_i hshort
    refine ⟨(Journal.encodeEpoch ⟨spec.epochs.length + 1, intents⟩).take written, ?_, by
      rw [List.append_nil]⟩
    have hlimit := (hfits.recoverable (spec.epochs.length + 1)).2
    unfold Journal.encodeEpoch at hshort ⊢
    rw [RecordLog.length_encode] at hshort
    exact RecordLog.torn_encode_take hlimit (by omega)

theorem kept_fits (h : Shadows spec e) (written : ℕ) {intents : List QueuedIntent}
    (hfits : FitsJournal intents) :
    ∀ is ∈ spec.epochs ++ spec.kept written intents, FitsJournal is := by
  intro is his
  rcases List.mem_append.1 his with his | his
  · exact h.fits is his
  · unfold SteadyEngine.kept at his
    split at his
    · exact List.mem_singleton.1 his ▸ hfits
    · cases his

/-- What the image opens as, beside a journal that has grown. -/
theorem opened (h : Shadows spec e) {journal : List UInt8} {s : MmapVmSnapshot}
    (hpre : Journal.journalOf spec.epochs <+: journal)
    (hs : (e.image.bind fun mapping =>
      (MappedFile.openImage mapping journal).toOption.map MappedFile.view) = some s) :
    ∃ done mapping, done <+: spec.epochs ∧ ImageOf done mapping s := by
  obtain ⟨mapping, himage, hopen⟩ := Option.bind_eq_some_iff.1 hs
  obtain ⟨done, s', hdone, himageOf⟩ := h.image mapping himage
  have hlonger : Journal.journalOf done <+: journal := (Journal.journalOf_mono hdone).trans hpre
  rw [himageOf.file, himageOf.sound.open_toFile hlonger] at hopen
  have hview : (s'.mapped (Journal.journalOf done)).view = s := Option.some.inj hopen
  rw [himageOf.sound.view_mapped] at hview
  subst hview
  exact ⟨done, mapping, hdone, himageOf⟩

theorem restart (h : Shadows spec e) {written : ℕ} {intents : List QueuedIntent}
    (hfits : FitsJournal intents) (hs : spec.step (.restart written intents) = .ok (answers, spec₁))
    (hrange : spec₁.InRange) :
    ∃ e₁, e.step (.restart written intents) = .ok (answers, e₁) ∧ Shadows spec₁ e₁ := by
  unfold SteadyEngine.step at hs
  simp only at hs
  cases hf : (⟨spec.worker.state, spec.worker.backlog ++ spec.kept written intents⟩ :
      EpochWorker).flush with
  | error halt =>
    simp only [hf] at hs
    cases hs
  | ok q =>
    obtain ⟨replies, worker⟩ := q
    simp only [hf] at hs
    obtain ⟨rfl, rfl⟩ := Prod.mk.inj (Except.ok.inj hs)
    obtain ⟨hnil, plans, hlive⟩ := h.flushed hf
    obtain ⟨torn, htorn, hjournal⟩ := @cut spec e h written intents hfits
    have hfitsAll := h.kept_fits written hfits
    have hpre : spec.epochs <+: spec.epochs ++ spec.kept written intents :=
      List.prefix_append _ _
    obtain ⟨-, -, hlength⟩ := hrange
    simp only at hlength
    generalize hall : spec.epochs ++ spec.kept written intents = epochs at *
    have hcount := Journal.count_le_journalOf epochs
    have hne : Journal.journalOf epochs ++ torn ≠ [] := by
      intro hempty
      have hzero := congrArg List.length hempty
      rw [List.length_append, List.length_nil] at hzero
      omega
    have hgrown : Journal.journalOf spec.epochs <+: Journal.journalOf epochs ++ torn :=
      (Journal.journalOf_mono hpre).trans (List.prefix_append _ _)
    have himages : ∀ mapping, e.image = some mapping →
        ∃ done s, done <+: epochs ∧ ImageOf done mapping s := by
      intro mapping hmapping
      obtain ⟨done, s, hdone, himageOf⟩ := h.image mapping hmapping
      exact ⟨done, s, hdone.trans hpre, himageOf⟩
    have hreplayed : ∃ done plans, epochs = done ++ worker.backlog ∧
        liveEpochs [] SteadyEngine.new.worker.state done = .ok (plans, worker.state) :=
      ⟨epochs, plans, by rw [hnil, List.append_nil], hlive⟩
    unfold AdmissionEngine.step
    simp only [hjournal]
    by_cases hused : ∃ s, (e.image.bind fun mapping => (MappedFile.openImage mapping
        (Journal.journalOf epochs ++ torn)).toOption.map MappedFile.view) = some s ∧
        s.journalOffset = (Journal.journalOf epochs ++ torn).length
    · -- the image stands for the whole journal: the machine goes on from it
      obtain ⟨s, hfound, hoffset⟩ := hused
      obtain ⟨done, mapping, hdone, himageOf⟩ := h.opened hgrown hfound
      obtain ⟨rfl, rfl⟩ := himageOf.whole (hdone.trans hpre) hoffset
      obtain ⟨plans', t, hlive', htwinned⟩ := himageOf.twinned
      rw [hlive] at hlive'
      obtain ⟨-, rfl⟩ := Prod.mk.inj (Except.ok.inj hlive')
      rw [List.append_nil] at hoffset hne hfound ⊢
      have hopened := AdmissionEngine.openVm_ok hne hfound (Journal.recoverJournal_image hoffset)
        himageOf.replay
      simp only [hopened]
      exact ⟨_, rfl, htwinned, hnil.symm, rfl, himageOf.epochCount, hfitsAll, hreplayed, himages⟩
    · -- no image is used: the whole records are replayed from genesis
      have hscan := @Journal.recoverJournal_torn epochs hfitsAll (by omega) torn htorn _
        fun s hs hoffset => hused ⟨s, hs, hoffset⟩
      have hopened := AdmissionEngine.openVm_ok hne rfl hscan (replayEpochs_live hlive)
      obtain ⟨plans', t, -, -, htwinned⟩ := Twinned.genesis.epochs hlive
      simp only [hopened]
      exact ⟨_, rfl, htwinned.refl, hnil.symm, rfl, rfl, hfitsAll, hreplayed, himages⟩

/-- **One event.** -/
theorem step (h : Shadows spec e) {event : AdmissionEvent} (hfits : event.Fits)
    (hs : spec.step event = .ok (answers, spec₁)) (hrange : spec₁.InRange) :
    ∃ e₁, e.step event = .ok (answers, e₁) ∧ Shadows spec₁ e₁ := by
  cases event with
  | submitEpoch intents => exact h.submitEpoch hfits hs
  | apply => exact h.apply hs
  | writeMmapSnapshot => exact h.writeMmapSnapshot hs hrange
  | restart written intents => exact h.restart hfits hs hrange

/-- **A run.** -/
theorem run (h : Shadows spec e) {events : List AdmissionEvent} {replies : List (List (PlanSummary × ℕ))}
    (hfits : ∀ event ∈ events, event.Fits) (hrange : spec.StaysInRange events)
    (hs : spec.run events = .ok (replies, spec₁)) :
    ∃ e₁, e.run events = .ok (replies, e₁) ∧ Shadows spec₁ e₁ := by
  induction events generalizing spec e replies with
  | nil =>
    obtain ⟨rfl, rfl⟩ := Prod.mk.inj (Except.ok.inj hs)
    exact ⟨e, rfl, h⟩
  | cons event events ih =>
    unfold SteadyEngine.run at hs
    unfold SteadyEngine.StaysInRange at hrange
    rw [List.forall_mem_cons] at hfits
    cases hone : spec.step event with
    | error halt =>
      simp only [hone] at hs
      cases hs
    | ok q =>
      obtain ⟨first, spec₂⟩ := q
      simp only [hone] at hs
      have hstays := hrange _ (by rw [hone]; exact rfl)
      cases hrest : spec₂.run events with
      | error halt =>
        simp only [hrest] at hs
        cases hs
      | ok q =>
        obtain ⟨rest, spec₃⟩ := q
        simp only [hrest] at hs
        obtain ⟨rfl, rfl⟩ := Prod.mk.inj (Except.ok.inj hs)
        obtain ⟨e₂, hone', h₂⟩ := h.step hfits.1 hone hstays.1
        obtain ⟨e₃, hrest', h₃⟩ := ih h₂ hfits.2 hstays.2 hrest
        refine ⟨e₃, ?_, h₃⟩
        unfold AdmissionEngine.run
        simp only [hone', hrest']

end Shadows

/-- A new engine. -/
theorem openVm_new : ∃ e, AdmissionEngine.openVm [] none = .ok e ∧ Shadows .new e := by
  have hempty : Journal.journalOf [] = Journal.journalHeader := List.append_nil _
  have hscan := @Journal.recoverJournal_torn [] (fun is his => (List.not_mem_nil his).elim)
    (by decide) [] (.inl rfl) none (fun s hs => by cases hs)
  rw [List.append_nil] at hscan
  refine ⟨⟨Journal.journalOf [], none, 0, SteadyEngine.new.worker⟩, ?_, ?_⟩
  · unfold AdmissionEngine.openVm
    simp only [if_true, Option.bind_none]
    rw [← hempty, hscan]
    rfl
  · exact ⟨.genesis, rfl, rfl, rfl, fun is his => (List.not_mem_nil his).elim, ⟨[], [], rfl, rfl⟩,
      fun mapping hmapping => by cases hmapping⟩

/-- **Restarts and images are invisible.** Whatever is admitted, applied, written and cut off, the
clients are answered as by an engine that never stopped, and the engine stands at its world. -/
theorem restarts_invisible {events : List AdmissionEvent} {replies : List (List (PlanSummary × ℕ))}
    {spec : SteadyEngine} (hfits : ∀ event ∈ events, event.Fits)
    (hrange : SteadyEngine.new.StaysInRange events)
    (hs : SteadyEngine.new.run events = .ok (replies, spec)) :
    ∃ e₀ e, AdmissionEngine.openVm [] none = .ok e₀ ∧ e₀.run events = .ok (replies, e) ∧
      spec.worker.state.1.Alike e.worker.state.1 ∧ e.worker.backlog = spec.worker.backlog ∧
      e.journal = Journal.journalOf spec.epochs := by
  obtain ⟨e₀, hopen, h₀⟩ := openVm_new
  obtain ⟨e, hrun, h⟩ := h₀.run hfits hrange hs
  exact ⟨e₀, e, hopen, hrun, h.state.alike, h.backlog, h.journal⟩

/-- An engine that is opened on an image, and dies in the record of a second epoch and behind it. -/
def diesTwice : List AdmissionEvent :=
  [.submitEpoch [definesText], .writeMmapSnapshot, .restart 0 [], .restart 40 [allocatesOne],
    .restart 200 [allocatesOne], .submitEpoch [definesText], .apply]

/-- An engine that died twice answers as if it had not. -/
theorem restarts_invisible_diesTwice : ∃ replies spec e₀ e,
    SteadyEngine.new.run diesTwice = .ok (replies, spec) ∧ spec.epochs.length = 3 ∧
      AdmissionEngine.openVm [] none = .ok e₀ ∧ e₀.run diesTwice = .ok (replies, e) ∧
      spec.worker.state.1.Alike e.worker.state.1 := by
  have hcount : (SteadyEngine.new.run diesTwice).toOption.map (fun q => q.2.epochs.length) =
      some 3 := by decide +kernel
  have hdefines : FitsJournal [definesText] := by
    refine ⟨fun i hi => ?_, by decide +kernel⟩
    obtain rfl := List.mem_singleton.1 hi
    refine ⟨.define _ _ (.new 0), by decide, fun p hp => (List.not_mem_nil hp).elim, ?_⟩
    intro op hop
    obtain rfl := List.mem_singleton.1 hop
    exact ⟨trivial, trivial⟩
  have hallocates : FitsJournal [allocatesOne] := by
    refine ⟨fun i hi => ?_, by decide +kernel⟩
    obtain rfl := List.mem_singleton.1 hi
    refine ⟨.entity (.new 0) (by decide), by decide, fun p hp => (List.not_mem_nil hp).elim, ?_⟩
    intro op hop
    obtain rfl := List.mem_singleton.1 hop
    trivial
  have hnothing : FitsJournal [] := ⟨fun i hi => (List.not_mem_nil hi).elim, by decide +kernel⟩
  have hfits : ∀ event ∈ diesTwice, event.Fits := by
    unfold diesTwice
    simp only [List.forall_mem_cons, AdmissionEvent.Fits, hdefines, hallocates, hnothing,
      List.not_mem_nil, IsEmpty.forall_iff, implies_true, and_self]
  cases hrun : SteadyEngine.new.run diesTwice with
  | error halt =>
    rw [hrun] at hcount
    cases hcount
  | ok q =>
    obtain ⟨replies, spec⟩ := q
    rw [hrun] at hcount
    obtain ⟨e₀, e, hopen, hsame, halike, -⟩ := restarts_invisible hfits (by decide +kernel) hrun
    exact ⟨replies, spec, e₀, e, rfl, Option.some.inj hcount, hopen, hsame, halike⟩

end ForthDB
