import ForthDB.Python.Executor

/-!
# Transactions on the Python kernel

`AtomicForthDB` of `forthdb_atomic.py`: writes are staged beside the database, and a commit applies
them to a clone that takes the place of the live state. The clone copies the log and the heads and
builds its indexes anew.

* `PythonForthDb.clone`, `applyOperations`, `commitOperations`: an `error` is an exception.
* `Refines.clone`, `Refines.applyOperations`: what a clone holds, and a batch on it.
* `AtomicSession.atomic_refines`: **every run is a run of batches that are applied at once**.
-/

namespace ForthDB

/-- `DefineOp` and `ForgetOp`. -/
inductive StoreOperation
  | define (slot : SlotId) (fact : Fact)
  | forget (slot : SlotId)
deriving DecidableEq

namespace PythonForthDb

/-- `CurrentView(store)`, with `add` of each record in turn. -/
def rebuild (store : LegacyDefinitionStore) :
    LegacyCurrentView → List ℕ → Except String LegacyCurrentView
  | view, [] => .ok view
  | view, recordId :: recordIds => do
    let view ← view.addRecord store recordId
    rebuild store view recordIds

/-- `_clone`, and `_clone_kernel` of `forthdb_world.py`. -/
def clone (k : PythonForthDb) : Except String PythonForthDb := do
  let view ← rebuild k.store .default k.store.headValues
  pure { k with view := view }

def applyOperation (k : PythonForthDb) : StoreOperation → Except String (Record × PythonForthDb)
  | .define slot fact => k.define slot fact
  | .forget slot => k.forget slot

/-- `_apply_operations` of `forthdb_world.py`, and the loop of `_commit_operations`. -/
def applyOperations : PythonForthDb → List StoreOperation →
    Except String (List Record × PythonForthDb)
  | k, [] => .ok ([], k)
  | k, operation :: operations => do
    let (record, k) ← k.applyOperation operation
    let (records, k) ← applyOperations k operations
    pure (record :: records, k)

def validate (k : PythonForthDb) : Except String Unit :=
  if k.store.activeRecordIds ≠ k.view.indexed then
    .error "Current-view indexes do not match active slot heads"
  else .ok ()

/-- `_commit_operations`: the records, and the state that is published. -/
def commitOperations (k : PythonForthDb) (operations : List StoreOperation)
    (failBeforePublish : Bool) : Except String (List Record × PythonForthDb) := do
  let shadow ← k.clone
  let (committed, shadow) ← shadow.applyOperations operations
  shadow.validate
  if failBeforePublish then .error "Injected failure before atomic publish"
  else pure (committed, shadow)

end PythonForthDb

/-! ## Sessions -/

structure AtomicTransaction where
  operations : List StoreOperation
  closed : Bool

/-- The database, and the transactions that its clients hold. -/
structure AtomicSession where
  db : PythonForthDb
  transactions : List AtomicTransaction

inductive AtomicEvent
  | entity
  | define (slot : SlotId) (fact : Fact)
  | forget (slot : SlotId)
  | transaction
  | stage (handle : ℕ) (operation : StoreOperation)
  | rollback (handle : ℕ)
  | commit (handle : ℕ) (failBeforePublish : Bool)

inductive AtomicAnswer
  | entity (entity : EntityId)
  | records (records : List Record)
  | handle (handle : ℕ)
  | done
  | raised (error : String)
deriving DecidableEq

namespace AtomicTransaction

def closedError : String := "Transaction is already closed"

/-- A method that begins with `_require_open`. -/
def whenOpen {α : Type} (transactions : List AtomicTransaction) (handle : ℕ)
    (otherwise : String → α) (body : AtomicTransaction → α) : α :=
  match transactions[handle]? with
  | none => otherwise "no such transaction"
  | some tx => if tx.closed then otherwise closedError else body tx

end AtomicTransaction

namespace AtomicSession

open AtomicTransaction

def new : AtomicSession := ⟨.new, []⟩

/-- A write of the database itself, outside any transaction. -/
def write (s : AtomicSession) (result : Except String (Record × PythonForthDb)) :
    AtomicAnswer × AtomicSession :=
  match result with
  | .error e => (.raised e, s)
  | .ok (record, db) => (.records [record], { s with db := db })

/-- One call of a client. A call that raises leaves the database as it was. -/
def step (s : AtomicSession) : AtomicEvent → AtomicAnswer × AtomicSession
  | .entity => (.entity s.db.entity.1, { s with db := s.db.entity.2 })
  | .define slot fact => s.write (s.db.define slot fact)
  | .forget slot => s.write (s.db.forget slot)
  | .transaction =>
    (.handle s.transactions.length, { s with transactions := s.transactions ++ [⟨[], false⟩] })
  | .stage handle operation =>
    whenOpen s.transactions handle (fun e => (.raised e, s)) fun tx =>
      (.done, { s with
        transactions := s.transactions.set handle ⟨tx.operations ++ [operation], false⟩ })
  | .rollback handle =>
    whenOpen s.transactions handle (fun e => (.raised e, s)) fun _ =>
      (.done, { s with transactions := s.transactions.set handle ⟨[], true⟩ })
  | .commit handle failBeforePublish =>
    whenOpen s.transactions handle (fun e => (.raised e, s)) fun tx =>
      let transactions := s.transactions.set handle ⟨tx.operations, true⟩
      match s.db.commitOperations tx.operations failBeforePublish with
      | .error e => (.raised e, { s with transactions := transactions })
      | .ok (records, db) => (.records records, ⟨db, transactions⟩)

/-- The calls of a run, in order, with their answers. -/
def run (s : AtomicSession) : List AtomicEvent → List AtomicAnswer × AtomicSession
  | [] => ([], s)
  | event :: events =>
    let (answer, s) := s.step event
    let (answers, s) := s.run events
    (answer :: answers, s)

end AtomicSession

/-! ## What a session is for -/

/-- A kernel whose batches happen at once. -/
structure AtomicSpec where
  kernel : ForthDb
  transactions : List AtomicTransaction

def ForthDb.applyStore (k : ForthDb) : StoreOperation → ForthDb
  | .define slot fact => k.define slot fact
  | .forget slot => k.forget slot

/-- A batch, on the kernel of `forthdb-core`. -/
def ForthDb.applyBatch (k : ForthDb) (operations : List StoreOperation) : ForthDb :=
  operations.foldl ForthDb.applyStore k

namespace AtomicSpec

open AtomicTransaction

def new : AtomicSpec := ⟨.new, []⟩

/-- The kernel after a batch, and the records that it appended. -/
def publish (s : AtomicSpec) (operations : List StoreOperation) : AtomicAnswer × AtomicSpec :=
  let kernel := s.kernel.applyBatch operations
  (.records (kernel.store.log.drop s.kernel.store.log.length), { s with kernel := kernel })

def step (s : AtomicSpec) : AtomicEvent → AtomicAnswer × AtomicSpec
  | .entity => (.entity s.kernel.entity.1, { s with kernel := s.kernel.entity.2 })
  | .define slot fact => s.publish [.define slot fact]
  | .forget slot => s.publish [.forget slot]
  | .transaction =>
    (.handle s.transactions.length, { s with transactions := s.transactions ++ [⟨[], false⟩] })
  | .stage handle operation =>
    whenOpen s.transactions handle (fun e => (.raised e, s)) fun tx =>
      (.done, { s with
        transactions := s.transactions.set handle ⟨tx.operations ++ [operation], false⟩ })
  | .rollback handle =>
    whenOpen s.transactions handle (fun e => (.raised e, s)) fun _ =>
      (.done, { s with transactions := s.transactions.set handle ⟨[], true⟩ })
  | .commit handle failBeforePublish =>
    whenOpen s.transactions handle (fun e => (.raised e, s)) fun tx =>
      let closed := { s with transactions := s.transactions.set handle ⟨tx.operations, true⟩ }
      if failBeforePublish then (.raised "Injected failure before atomic publish", closed)
      else closed.publish tx.operations

def run (s : AtomicSpec) : List AtomicEvent → List AtomicAnswer × AtomicSpec
  | [] => ([], s)
  | event :: events =>
    let (answer, s) := s.step event
    let (answers, s) := s.run events
    (answer :: answers, s)

end AtomicSpec

/-! ## Batches -/

namespace PythonForthDb

variable {s : PythonForthDb} {k : ForthDb}

/-- **A view that is built anew** indexes the records that were added. -/
theorem rebuild_exact {store : LegacyDefinitionStore} (hs : store.log = k.store.log)
    {recordIds : List ℕ} (hids : ∀ i ∈ recordIds, ∃ slot, IsDefinition k.store.log slot i)
    {v : LegacyCurrentView} {active : Finset ℕ} (h : v.lookups.Exact k.factOf active) :
    ∃ v', rebuild store v recordIds = .ok v' ∧
      v'.lookups.Exact k.factOf (active ∪ recordIds.toFinset) := by
  induction recordIds generalizing v active with
  | nil => exact ⟨v, rfl, by simpa using h⟩
  | cons i recordIds ih =>
    obtain ⟨slot, hdef⟩ := hids i List.mem_cons_self
    obtain ⟨fact, hfact⟩ := ForthDb.IsDefinition.factOf hdef
    obtain ⟨v₁, hadd, hexact⟩ := LegacyCurrentView.add_exact h hs hfact
    obtain ⟨v₂, hrest, hexact'⟩ := ih (fun j hj => hids j (List.mem_cons_of_mem _ hj)) hexact
    have hunion : insert i active ∪ recordIds.toFinset = active ∪ (i :: recordIds).toFinset := by
      ext j
      simp only [List.toFinset_cons, Finset.mem_union, Finset.mem_insert]
      tauto
    rw [hunion] at hexact'
    refine ⟨v₂, ?_, hexact'⟩
    unfold rebuild
    rw [LegacyCurrentView.addRecord_eq hs hdef, hadd]
    exact hrest

/-- **A clone** holds what the original holds. -/
theorem Refines.clone (h : s.Refines k) (hk : k.Sound) :
    ∃ s', s.clone = .ok s' ∧ s'.Refines k ∧ s'.store = s.store := by
  have hheads : ∀ i ∈ s.store.headValues, ∃ slot, IsDefinition k.store.log slot i := by
    intro i hi
    have hactive : i ∈ k.active := by
      rw [← LegacyForthDb.Refines.activeRecordIds_eq h]
      exact List.mem_toFinset.2 hi
    obtain ⟨slot, hslot⟩ := ForthDb.mem_active.1 hactive
    exact ⟨slot, hk.heads slot i hslot⟩
  have hlog : s.store.log = k.store.log := h.store.log
  obtain ⟨v, hv, hexact⟩ := rebuild_exact hlog hheads LegacyCurrentView.default_exact
  have hactive : ∅ ∪ s.store.headValues.toFinset = k.active := by
    rw [Finset.empty_union]
    exact LegacyForthDb.Refines.activeRecordIds_eq h
  rw [hactive] at hexact
  refine ⟨{ s with view := v }, ?_, ⟨h.store, hexact, h.nextEntity⟩, rfl⟩
  unfold PythonForthDb.clone
  rw [hv]
  rfl

theorem Refines.applyOperation (h : s.Refines k) (hk : k.Sound) (operation : StoreOperation) :
    ∃ r s', s.applyOperation operation = .ok (r, s') ∧ s'.Refines (k.applyStore operation) ∧
      s'.store.log = s.store.log ++ [r] := by
  cases operation with
  | define slot fact =>
    obtain ⟨r, s', hok, hrefines, -, -, hlog, -⟩ := h.define hk slot fact
    exact ⟨r, s', hok, hrefines, hlog⟩
  | forget slot =>
    obtain ⟨r, s', hok, hrefines, -, -, hlog, -⟩ := h.forget hk slot
    exact ⟨r, s', hok, hrefines, hlog⟩

theorem applyStore_sound (hk : k.Sound) (operation : StoreOperation) :
    (k.applyStore operation).Sound := by
  cases operation with
  | define slot fact => exact ForthDb.define_sound hk slot fact
  | forget slot => exact ForthDb.forget_sound hk slot

theorem applyBatch_sound (hk : k.Sound) (operations : List StoreOperation) :
    (k.applyBatch operations).Sound := by
  induction operations generalizing k with
  | nil => exact hk
  | cons operation operations ih => exact ih (applyStore_sound hk operation)

/-- **A batch** raises nothing, and appends one record for each operation. -/
theorem Refines.applyOperations (h : s.Refines k) (hk : k.Sound)
    (operations : List StoreOperation) :
    ∃ records s', s.applyOperations operations = .ok (records, s') ∧
      s'.Refines (k.applyBatch operations) ∧ s'.store.log = s.store.log ++ records := by
  induction operations generalizing s k with
  | nil => exact ⟨[], s, rfl, h, (List.append_nil _).symm⟩
  | cons operation operations ih =>
    obtain ⟨r, s₁, hok, hrefines, hlog⟩ := h.applyOperation hk operation
    obtain ⟨records, s₂, hrest, hrefines', hlog'⟩ := ih hrefines (applyStore_sound hk operation)
    refine ⟨r :: records, s₂, ?_, hrefines', by rw [hlog', hlog, List.append_assoc]; rfl⟩
    unfold PythonForthDb.applyOperations
    rw [hok]
    simp only [bind, Except.bind]
    rw [hrest]
    rfl

theorem Refines.validate (h : s.Refines k) (hk : k.Sound) : s.validate = .ok () := by
  have hactive : s.store.activeRecordIds = k.active := LegacyForthDb.Refines.activeRecordIds_eq h
  have hindexed : s.view.indexed = k.active := LegacyForthDb.Refines.indexed_eq h hk
  unfold PythonForthDb.validate
  rw [hactive, hindexed, if_neg (not_not.2 rfl)]

/-- **A commit** publishes the whole batch, or nothing. -/
theorem Refines.commitOperations (h : s.Refines k) (hk : k.Sound)
    (operations : List StoreOperation) (failBeforePublish : Bool) :
    (failBeforePublish = true ∧ s.commitOperations operations failBeforePublish =
      .error "Injected failure before atomic publish") ∨
    failBeforePublish = false ∧ ∃ records s',
      s.commitOperations operations failBeforePublish = .ok (records, s') ∧
      s'.Refines (k.applyBatch operations) ∧ s'.store.log = s.store.log ++ records := by
  obtain ⟨shadow, hclone, hshadow, hstore⟩ := h.clone hk
  obtain ⟨records, s', hok, hrefines, hlog⟩ := hshadow.applyOperations hk operations
  have hvalid := hrefines.validate (applyBatch_sound hk operations)
  rw [hstore] at hlog
  unfold PythonForthDb.commitOperations
  rw [hclone]
  simp only [bind, Except.bind, hok, hvalid]
  cases failBeforePublish with
  | true => exact .inl ⟨rfl, rfl⟩
  | false => exact .inr ⟨rfl, records, s', rfl, hrefines, hlog⟩

end PythonForthDb

/-! ## Runs -/

namespace AtomicSession

open AtomicTransaction

/-- The session holds what its specification holds. -/
structure Agrees (s : AtomicSession) (spec : AtomicSpec) : Prop where
  db : s.db.Refines spec.kernel
  sound : spec.kernel.Sound
  transactions : s.transactions = spec.transactions

theorem new_agrees : new.Agrees .new :=
  ⟨PythonForthDb.new_refines, ForthDb.new_sound, rfl⟩

/-- A batch that the database has applied is the published one. -/
theorem Agrees.publish {s : AtomicSession} {spec : AtomicSpec} (h : s.Agrees spec)
    {operations : List StoreOperation} {records : List Record} {db : PythonForthDb}
    (hdb : db.Refines (spec.kernel.applyBatch operations))
    (hlog : db.store.log = s.db.store.log ++ records) {transactions : List AtomicTransaction} :
    AtomicAnswer.records records =
        (({ spec with transactions := transactions } : AtomicSpec).publish operations).1 ∧
      (⟨db, transactions⟩ : AtomicSession).Agrees
        (({ spec with transactions := transactions } : AtomicSpec).publish operations).2 := by
  refine ⟨?_, hdb, PythonForthDb.applyBatch_sound h.sound operations, rfl⟩
  have hold : s.db.store.log = spec.kernel.store.log := h.db.store.log
  have hnew : db.store.log = (spec.kernel.applyBatch operations).store.log := hdb.store.log
  unfold AtomicSpec.publish
  simp only
  rw [← hnew, hlog, hold, List.drop_left]

/-- A write of the database is a batch of one. -/
theorem Agrees.write {s : AtomicSession} {spec : AtomicSpec} (h : s.Agrees spec)
    (operation : StoreOperation) :
    (s.write (s.db.applyOperation operation)).1 = (spec.publish [operation]).1 ∧
      (s.write (s.db.applyOperation operation)).2.Agrees (spec.publish [operation]).2 := by
  obtain ⟨r, db, hok, hrefines, hlog⟩ := h.db.applyOperation h.sound operation
  have hpublish := @Agrees.publish _ _ h [operation] _ _ hrefines hlog spec.transactions
  unfold AtomicSession.write
  rw [hok, h.transactions]
  exact hpublish

/-- The same answer, and what is behind it. -/
def Alike (x : AtomicAnswer × AtomicSession) (y : AtomicAnswer × AtomicSpec) : Prop :=
  x.1 = y.1 ∧ x.2.Agrees y.2

theorem whenOpen_alike (transactions : List AtomicTransaction) (handle : ℕ)
    {otherwise : String → AtomicAnswer × AtomicSession}
    {otherwise' : String → AtomicAnswer × AtomicSpec}
    {body : AtomicTransaction → AtomicAnswer × AtomicSession}
    {body' : AtomicTransaction → AtomicAnswer × AtomicSpec}
    (hother : ∀ e, Alike (otherwise e) (otherwise' e)) (hbody : ∀ tx, Alike (body tx) (body' tx)) :
    Alike (whenOpen transactions handle otherwise body)
      (whenOpen transactions handle otherwise' body') := by
  unfold whenOpen
  cases transactions[handle]? with
  | none => exact hother _
  | some tx =>
    simp only
    by_cases hclosed : tx.closed = true
    · rw [if_pos hclosed, if_pos hclosed]
      exact hother _
    · rw [if_neg hclosed, if_neg hclosed]
      exact hbody tx

/-- **One call** answers as specified. -/
theorem Agrees.step {s : AtomicSession} {spec : AtomicSpec} (h : s.Agrees spec)
    (event : AtomicEvent) : Alike (s.step event) (spec.step event) := by
  have hother : ∀ e, Alike (.raised e, s) (.raised e, spec) := fun e => ⟨rfl, h⟩
  have hwrite := h.write
  obtain ⟨hdb, hsound, htx⟩ := h
  obtain ⟨db, transactions⟩ := s
  obtain ⟨kernel, transactions'⟩ := spec
  obtain rfl : transactions = transactions' := htx
  cases event with
  | entity =>
    obtain ⟨hentity, hrefines⟩ := hdb.entity
    exact ⟨congrArg _ hentity, hrefines, ForthDb.entity_sound hsound, rfl⟩
  | define slot fact => exact hwrite (.define slot fact)
  | forget slot => exact hwrite (.forget slot)
  | transaction => exact ⟨rfl, hdb, hsound, rfl⟩
  | stage handle operation =>
    exact whenOpen_alike transactions handle hother fun tx => ⟨rfl, hdb, hsound, rfl⟩
  | rollback handle =>
    exact whenOpen_alike transactions handle hother fun tx => ⟨rfl, hdb, hsound, rfl⟩
  | commit handle failBeforePublish =>
    refine whenOpen_alike transactions handle hother fun tx => ?_
    rcases hdb.commitOperations hsound tx.operations failBeforePublish with
      ⟨rfl, herror⟩ | ⟨rfl, records, db', hok, hrefines, hlog⟩
    · simp only [herror]
      exact ⟨rfl, hdb, hsound, rfl⟩
    · simp only [hok]
      exact Agrees.publish ⟨hdb, hsound, rfl⟩ hrefines hlog

/-- **A run** answers as specified. -/
theorem Agrees.run {s : AtomicSession} {spec : AtomicSpec} (h : s.Agrees spec)
    (events : List AtomicEvent) :
    (s.run events).1 = (spec.run events).1 ∧ (s.run events).2.Agrees (spec.run events).2 := by
  induction events generalizing s spec with
  | nil => exact ⟨rfl, h⟩
  | cons event events ih =>
    obtain ⟨hanswer, hnext⟩ := h.step event
    obtain ⟨hanswers, hlast⟩ := ih hnext
    exact ⟨congrArg₂ List.cons hanswer hanswers, hlast⟩

/-- **Transactions are atomic.** For every order of calls by any number of clients, the answers are
those of a kernel on which a committed batch happens at once and every other call on a transaction
happens not at all; the database holds the log, the heads and the allocator of that kernel, and its
indexes are exact. -/
theorem atomic_refines (events : List AtomicEvent) :
    (new.run events).1 = (AtomicSpec.new.run events).1 ∧
      (new.run events).2.db.Refines (AtomicSpec.new.run events).2.kernel ∧
      (new.run events).2.transactions = (AtomicSpec.new.run events).2.transactions := by
  obtain ⟨hanswers, hlast⟩ := new_agrees.run events
  exact ⟨hanswers, hlast.db, hlast.transactions⟩

/-- What is staged is seen after the commit, and a batch that fails is not. -/
example : (AtomicSpec.new.run
    [.transaction, .transaction, .stage 0 (.define ⟨"a"⟩ ⟨.entity ⟨1⟩, ⟨"p"⟩, .entity ⟨2⟩⟩),
      .stage 1 (.forget ⟨"a"⟩), .commit 0 true, .commit 0 false, .commit 1 false]).1.drop 4 =
    [.raised "Injected failure before atomic publish", .raised "Transaction is already closed",
      .records [⟨0, .forget, ⟨"a"⟩, none, none, none⟩]] := by
  decide +kernel

end AtomicSession

end ForthDB
