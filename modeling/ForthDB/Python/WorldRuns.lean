import Mathlib.Data.List.GetD
import ForthDB.Python.WorldStore

/-!
# Runs of the committed-world store

Clients begin transactions, stage operations in any order, and commit or roll back; the process may
die behind the `fsync` of a commit, and a database may be opened again. In the specification a
committed transaction happens at once, on the newest world.

* `WorldSession.step`, `WorldSession.run`: the calls and their answers.
* `WorldSpec`: the worlds that were committed, oldest first. Nothing is written to a file.
* `WorldSession.serializable`: **every run answers as specified**: stale writers abort, and nothing
  that was committed is lost.
* `WorldSession.recover_take`: **a file cut at any byte is recovered to the world of its last whole
  frame**.
-/

namespace ForthDB

/-! ## Sessions -/

inductive WorldEvent
  | transaction
  | entity (handle : ℕ)
  | stage (handle : ℕ) (operation : StoreOperation)
  | require (handle : ℕ) (validator : WorldValidator)
  | snapshot (handle : ℕ)
  | rollback (handle : ℕ)
  | commit (handle : ℕ)
  | resolve (slot : SlotId)
  /-- The process dies in a commit, behind the `fsync`, and the database is opened again. -/
  | crash (handle : ℕ)
  | reopen

inductive WorldAnswer
  | handle (handle : ℕ)
  | entity (entity : EntityId)
  | done
  | world (version : ℕ) (digest : String)
  | receipt (receipt : CommitReceipt)
  | fact (fact : Option Fact)
  | raised (error : WorldError)

/-- `_require_open`, before the body of a method. -/
def requireOpen {τ α : Type} (closed : τ → Bool) (transactions : List τ) (handle : ℕ)
    (otherwise : WorldError → α) (body : τ → α) : α :=
  match transactions[handle]? with
  | none => otherwise (.raised "no such transaction")
  | some tx => if closed tx then otherwise .transactionClosed else body tx

/-- `rollback`. -/
def WorldTransaction.rollback (tx : WorldTransaction) : WorldTransaction :=
  { tx with operations := [], validators := [], closed := true }

/-- The database, and the transactions that its clients hold. -/
structure WorldSession where
  db : WorldDb
  transactions : List WorldTransaction

namespace WorldSession

def new : WorldSession := ⟨⟨[], genesisWorld⟩, []⟩

/-- What a client sees of a commit. -/
def commitAnswer (result : WorldResult CommitReceipt) : WorldAnswer :=
  match result with
  | .error e => .raised e
  | .ok receipt => .receipt receipt

/-- A new process, which holds no transaction. -/
def reopen (db : WorldDb) : WorldAnswer × WorldSession :=
  match WorldDb.open db.path with
  | .error e => (.raised e, ⟨db, []⟩)
  | .ok db => (.world db.world.version db.world.digest, ⟨db, []⟩)

/-- `snapshot` of a transaction. -/
def preview (tx : WorldTransaction) : WorldAnswer :=
  match tx.candidate with
  | .error e => .raised e
  | .ok (candidate, _) => .world (tx.base.version + 1) (worldDigest candidate.authority)

def resolveAnswer (result : Except String (Option Fact)) : WorldAnswer :=
  match result with
  | .error e => .raised (.raised e)
  | .ok fact => .fact fact

def step (s : WorldSession) : WorldEvent → WorldAnswer × WorldSession
  | .transaction =>
    (.handle s.transactions.length,
      { s with transactions := s.transactions ++ [s.db.world.transaction] })
  | .entity handle =>
    requireOpen WorldTransaction.closed s.transactions handle (fun e => (.raised e, s)) fun tx =>
      (.entity ⟨tx.nextEntity⟩, { s with
        transactions := s.transactions.set handle { tx with nextEntity := tx.nextEntity + 1 } })
  | .stage handle operation =>
    requireOpen WorldTransaction.closed s.transactions handle (fun e => (.raised e, s)) fun tx =>
      (.done, { s with transactions :=
        s.transactions.set handle { tx with operations := tx.operations ++ [operation] } })
  | .require handle validator =>
    requireOpen WorldTransaction.closed s.transactions handle (fun e => (.raised e, s)) fun tx =>
      (.done, { s with transactions :=
        s.transactions.set handle { tx with validators := tx.validators ++ [validator] } })
  | .snapshot handle =>
    requireOpen WorldTransaction.closed s.transactions handle (fun e => (.raised e, s)) fun tx =>
      (preview tx, s)
  | .rollback handle =>
    requireOpen WorldTransaction.closed s.transactions handle (fun e => (.raised e, s)) fun tx =>
      (.done, { s with transactions := s.transactions.set handle tx.rollback })
  | .commit handle =>
    requireOpen WorldTransaction.closed s.transactions handle (fun e => (.raised e, s)) fun tx =>
      let (result, db) := s.db.commit tx false
      (commitAnswer result,
        { db := db, transactions := s.transactions.set handle { tx with closed := true } })
  | .resolve slot => (resolveAnswer (s.db.world.kernel.resolve slot), s)
  | .crash handle =>
    requireOpen WorldTransaction.closed s.transactions handle (fun e => (.raised e, s)) fun tx =>
      reopen (s.db.commit tx true).2
  | .reopen => reopen s.db

/-- The calls of a run, in order, with their answers. -/
def run (s : WorldSession) : List WorldEvent → List WorldAnswer × WorldSession
  | [] => ([], s)
  | event :: events =>
    let (answer, s) := s.step event
    let (answers, s) := s.run events
    (answer :: answers, s)

end WorldSession

/-! ## What a session is for -/

structure SpecTransaction where
  base : ℕ
  operations : List StoreOperation
  validators : List WorldValidator
  nextEntity : ℕ
  closed : Bool

/-- The committed worlds, oldest first, and the transactions on them. -/
structure WorldSpec where
  worlds : List ForthDb
  transactions : List SpecTransaction

namespace WorldSpec

def new : WorldSpec := ⟨[.new], []⟩

variable (s : WorldSpec)

/-- The number of committed transactions. -/
def version : ℕ := s.worlds.length - 1

def kernelAt (version : ℕ) : ForthDb := s.worlds.getD version .new

def digestAt (version : ℕ) : String :=
  if version = 0 then genesisDigest else worldDigest (s.kernelAt version).authority

/-- The world that a transaction leads to from its base. -/
def target (tx : SpecTransaction) : ForthDb :=
  (s.kernelAt tx.base).replay tx.operations tx.nextEntity

/-- A commit on the newest world happens at once; any other is refused. -/
def commit (tx : SpecTransaction) : WorldResult CommitReceipt × WorldSpec :=
  match checkValidators (s.target tx).authority tx.validators with
  | .error e => (.error e, s)
  | .ok _ =>
    if tx.base ≠ s.version then (.error (.conflict tx.base s.version), s)
    else
      (.ok { version := s.version + 1, parentDigest := s.digestAt s.version,
             worldDigest := worldDigest (s.target tx).authority,
             operationCount := tx.operations.length,
             records := (s.target tx).store.log.drop (s.kernelAt tx.base).store.log.length },
        { s with worlds := s.worlds ++ [s.target tx] })

def preview (tx : SpecTransaction) : WorldAnswer :=
  match checkValidators (s.target tx).authority tx.validators with
  | .error e => .raised e
  | .ok _ => .world (tx.base + 1) (worldDigest (s.target tx).authority)

/-- Opening the database again keeps every world, and no transaction. -/
def reopen : WorldAnswer × WorldSpec :=
  (.world s.version (s.digestAt s.version), { s with transactions := [] })

def step : WorldEvent → WorldAnswer × WorldSpec
  | .transaction =>
    (.handle s.transactions.length, { s with transactions := s.transactions ++
      [⟨s.version, [], [], (s.kernelAt s.version).nextEntity, false⟩] })
  | .entity handle =>
    requireOpen SpecTransaction.closed s.transactions handle (fun e => (.raised e, s)) fun tx =>
      (.entity ⟨tx.nextEntity⟩, { s with
        transactions := s.transactions.set handle { tx with nextEntity := tx.nextEntity + 1 } })
  | .stage handle operation =>
    requireOpen SpecTransaction.closed s.transactions handle (fun e => (.raised e, s)) fun tx =>
      (.done, { s with transactions :=
        s.transactions.set handle { tx with operations := tx.operations ++ [operation] } })
  | .require handle validator =>
    requireOpen SpecTransaction.closed s.transactions handle (fun e => (.raised e, s)) fun tx =>
      (.done, { s with transactions :=
        s.transactions.set handle { tx with validators := tx.validators ++ [validator] } })
  | .snapshot handle =>
    requireOpen SpecTransaction.closed s.transactions handle (fun e => (.raised e, s)) fun tx =>
      (s.preview tx, s)
  | .rollback handle =>
    requireOpen SpecTransaction.closed s.transactions handle (fun e => (.raised e, s)) fun tx =>
      (.done, { s with transactions :=
        s.transactions.set handle { tx with operations := [], validators := [], closed := true } })
  | .commit handle =>
    requireOpen SpecTransaction.closed s.transactions handle (fun e => (.raised e, s)) fun tx =>
      let (result, s') := s.commit tx
      (WorldSession.commitAnswer result,
        { s' with transactions := s.transactions.set handle { tx with closed := true } })
  | .resolve slot => (.fact ((s.kernelAt s.version).resolve slot), s)
  | .crash handle =>
    requireOpen SpecTransaction.closed s.transactions handle (fun e => (.raised e, s)) fun tx =>
      (s.commit tx).2.reopen
  | .reopen => s.reopen

def run (s : WorldSpec) : List WorldEvent → List WorldAnswer × WorldSpec
  | [] => ([], s)
  | event :: events =>
    let (answer, s) := s.step event
    let (answers, s) := s.run events
    (answer :: answers, s)

end WorldSpec

/-! ## Commits -/

namespace WorldDb

variable {db : WorldDb} {tx : WorldTransaction} {candidate : PythonForthDb} {records : List Record}

theorem commit_refused {e : WorldError} (h : tx.candidate = .error e) (failAfterFsync : Bool) :
    db.commit tx failAfterFsync = (.error e, db) := by
  unfold commit
  rw [h]

theorem commit_stale (h : tx.candidate = .ok (candidate, records))
    (hbase : db.world.version ≠ tx.base.version) (failAfterFsync : Bool) :
    db.commit tx failAfterFsync =
      (.error (.conflict tx.base.version db.world.version), db) := by
  unfold commit
  rw [h]
  simp only
  rw [if_pos (.inl hbase)]

/-- A commit on the world that it began from. -/
theorem commit_current (h : tx.candidate = .ok (candidate, records)) (hbase : tx.base = db.world) :
    db.commit tx false =
        (.ok { version := db.world.version + 1, parentDigest := db.world.digest,
               worldDigest := worldDigest candidate.authority,
               operationCount := tx.operations.length, records := records },
          ⟨db.path ++ frameBytes (commitPayload db.world tx.operations candidate),
            ⟨db.world.version + 1, worldDigest candidate.authority, candidate⟩⟩) ∧
      (db.commit tx true).2.path =
        db.path ++ frameBytes (commitPayload db.world tx.operations candidate) := by
  have hcurrent : ¬ (db.world.version ≠ tx.base.version ∨ db.world.digest ≠ tx.base.digest) := by
    rw [hbase]
    simp
  unfold commit
  rw [h]
  simp only
  rw [if_neg hcurrent, if_neg hcurrent]
  exact ⟨rfl, rfl⟩

/-- A commit writes one frame, or nothing. -/
theorem commit_path (db : WorldDb) (tx : WorldTransaction) (failAfterFsync : Bool) :
    (db.commit tx failAfterFsync).2.path = db.path ∨
      ∃ candidate, (db.commit tx failAfterFsync).2.path =
        db.path ++ frameBytes (commitPayload db.world tx.operations candidate) := by
  unfold commit
  cases tx.candidate with
  | error e => exact .inl rfl
  | ok r =>
    simp only
    split_ifs
    · exact .inl rfl
    · exact .inr ⟨_, rfl⟩
    · exact .inr ⟨_, rfl⟩

theorem commit_grows (db : WorldDb) (tx : WorldTransaction) (failAfterFsync : Bool) :
    db.path <+: (db.commit tx failAfterFsync).2.path := by
  rcases db.commit_path tx failAfterFsync with h | ⟨candidate, h⟩
  · rw [h]
  · rw [h]
    exact List.prefix_append _ _

end WorldDb

namespace WorldSpec

variable {spec : WorldSpec} {tx : SpecTransaction}

theorem commit_refused {e : WorldError}
    (h : checkValidators (spec.target tx).authority tx.validators = .error e) :
    spec.commit tx = (.error e, spec) := by
  unfold commit
  rw [h]

theorem commit_stale (h : checkValidators (spec.target tx).authority tx.validators = .ok ())
    (hbase : tx.base ≠ spec.version) :
    spec.commit tx = (.error (.conflict tx.base spec.version), spec) := by
  unfold commit
  rw [h]
  simp only
  rw [if_pos hbase]

theorem commit_current (h : checkValidators (spec.target tx).authority tx.validators = .ok ())
    (hbase : tx.base = spec.version) :
    spec.commit tx =
      (.ok { version := spec.version + 1, parentDigest := spec.digestAt spec.version,
             worldDigest := worldDigest (spec.target tx).authority,
             operationCount := tx.operations.length,
             records := (spec.target tx).store.log.drop (spec.kernelAt tx.base).store.log.length },
        { spec with worlds := spec.worlds ++ [spec.target tx] }) := by
  unfold commit
  rw [h]
  simp only
  rw [if_neg (not_not_intro hbase)]

end WorldSpec

/-! ## Agreement -/

/-- A world of the specification. -/
structure WorldSpec.IsWorld (spec : WorldSpec) (world : CommittedWorld) : Prop where
  version : world.version < spec.worlds.length
  digest : world.digest = spec.digestAt world.version
  kernel : world.kernel.Refines (spec.kernelAt world.version)

def WorldTransaction.abstract (tx : WorldTransaction) : SpecTransaction :=
  ⟨tx.base.version, tx.operations, tx.validators, tx.nextEntity, tx.closed⟩

/-- A transaction begins at a world of the specification. -/
structure WorldSpec.IsBase (spec : WorldSpec) (tx : WorldTransaction) : Prop where
  world : spec.IsWorld tx.base
  nextEntity : (spec.kernelAt tx.base.version).nextEntity ≤ tx.nextEntity

/-- The frames of a file, and the worlds that they lead to. -/
structure WorldSpec.Holds (spec : WorldSpec) (db : WorldDb)
    (chain : List (List UInt8 × CommittedWorld)) : Prop where
  accepted : SealedLog.Chain worldSealing acceptCommit genesisWorld chain
  path : db.path = SealedLog.encodeAll worldSealing chain
  newest : SealedLog.last genesisWorld chain = db.world
  worlds : ∀ k ≤ chain.length, (SealedLog.last genesisWorld (chain.take k)).version = k ∧
    spec.IsWorld (SealedLog.last genesisWorld (chain.take k))

/-- The session holds what its specification holds. -/
structure WorldSession.Agrees (s : WorldSession) (spec : WorldSpec) : Prop where
  current : spec.worlds.length = s.db.world.version + 1
  world : spec.IsWorld s.db.world
  sound : ∀ k ∈ spec.worlds, k.Sound
  transactions : spec.transactions = s.transactions.map WorldTransaction.abstract
  bases : ∀ tx ∈ s.transactions, spec.IsBase tx
  fresh : ∀ tx ∈ s.transactions, tx.base.version = s.db.world.version → tx.base = s.db.world
  file : ∃ chain, spec.Holds s.db chain

namespace WorldSpec

variable {spec : WorldSpec}

theorem kernelAt_sound (h : ∀ k ∈ spec.worlds, k.Sound) {version : ℕ}
    (hv : version < spec.worlds.length) : (spec.kernelAt version).Sound := by
  apply h
  unfold kernelAt
  rw [List.getD_eq_getElem _ _ hv]
  exact List.getElem_mem hv

/-- A commit keeps the worlds that are there. -/
theorem IsWorld.append {world : CommittedWorld} (h : spec.IsWorld world) (k : ForthDb)
    (transactions : List SpecTransaction) :
    (⟨spec.worlds ++ [k], transactions⟩ : WorldSpec).IsWorld world := by
  have hkernel : (⟨spec.worlds ++ [k], transactions⟩ : WorldSpec).kernelAt world.version =
      spec.kernelAt world.version := List.getD_append _ _ _ _ h.version
  refine ⟨?_, ?_, ?_⟩
  · rw [List.length_append]
    exact Nat.lt_add_right _ h.version
  · unfold digestAt
    rw [hkernel]
    exact h.digest
  · rw [hkernel]
    exact h.kernel

theorem IsBase.append {tx : WorldTransaction} (h : spec.IsBase tx) (k : ForthDb)
    (transactions : List SpecTransaction) :
    (⟨spec.worlds ++ [k], transactions⟩ : WorldSpec).IsBase tx := by
  have hkernel : (⟨spec.worlds ++ [k], transactions⟩ : WorldSpec).kernelAt tx.base.version =
      spec.kernelAt tx.base.version := List.getD_append _ _ _ _ h.world.version
  refine ⟨h.world.append k transactions, ?_⟩
  rw [hkernel]
  exact h.nextEntity

/-- **A commit adds one frame** to the file. -/
theorem Holds.append {db : WorldDb} {chain : List (List UInt8 × CommittedWorld)}
    (h : spec.Holds db chain) {k : ForthDb} {transactions : List SpecTransaction}
    {payload : List UInt8} {world : CommittedWorld}
    (hlimit : payload.length < worldSealing.limit)
    (haccept : ∀ start, acceptCommit db.world start payload = .ok world)
    (hversion : world.version = chain.length + 1)
    (hworld : (⟨spec.worlds ++ [k], transactions⟩ : WorldSpec).IsWorld world) :
    (⟨spec.worlds ++ [k], transactions⟩ : WorldSpec).Holds
      ⟨db.path ++ frameBytes payload, world⟩ (chain ++ [(payload, world)]) := by
  refine ⟨h.accepted.append hlimit (by rw [h.newest]; exact haccept), ?_,
    SealedLog.last_append _ _ _, ?_⟩
  · unfold SealedLog.encodeAll
    rw [List.flatMap_append, List.flatMap_singleton, h.path]
    rfl
  · intro n hn
    rw [List.length_append, List.length_singleton] at hn
    rcases Nat.lt_or_ge n (chain.length + 1) with hold | hnew
    · rw [List.take_append_of_le_length (by omega)]
      obtain ⟨hold', hworld'⟩ := h.worlds n (by omega)
      exact ⟨hold', hworld'.append k transactions⟩
    · have hall : (chain ++ [(payload, world)]).take n = chain ++ [(payload, world)] := by
        apply List.take_of_length_le
        rw [List.length_append, List.length_singleton]
        omega
      rw [hall, SealedLog.last_append]
      exact ⟨by rw [hversion]; omega, hworld⟩

/-- The number of frames is the version. -/
theorem Holds.length {db : WorldDb} {chain : List (List UInt8 × CommittedWorld)}
    (h : spec.Holds db chain) : chain.length = db.world.version := by
  obtain ⟨hversion, -⟩ := h.worlds chain.length le_rfl
  rw [List.take_length, h.newest] at hversion
  exact hversion.symm

/-- **A file that was cut** is recovered to the world of its last whole frame. -/
theorem Holds.recover_cut {db : WorldDb} {chain : List (List UInt8 × CommittedWorld)}
    (h : spec.Holds db chain) (n : ℕ) :
    recover (db.path.take n) =
      .ok (SealedLog.last genesisWorld (chain.take (SealedLog.whole worldSealing n chain))) := by
  unfold recover
  rw [h.path]
  exact SealedLog.readLog_cut h.accepted n (Nat.lt_succ_self _) 0

theorem Holds.recover {db : WorldDb} {chain : List (List UInt8 × CommittedWorld)}
    (h : spec.Holds db chain) : recover db.path = .ok db.world := by
  unfold ForthDB.recover
  rw [h.path, ← h.newest]
  exact SealedLog.readLog_all h.accepted (Nat.lt_succ_self _) 0

end WorldSpec

namespace WorldSession

variable {s : WorldSession} {spec : WorldSpec}

theorem Agrees.version (h : s.Agrees spec) : spec.version = s.db.world.version := by
  have hcurrent := h.current
  unfold WorldSpec.version
  omega

theorem new_agrees : new.Agrees .new := by
  have hworld : WorldSpec.new.IsWorld genesisWorld := ⟨Nat.one_pos, rfl, PythonForthDb.new_refines⟩
  refine ⟨rfl, hworld, ?_, rfl, ?_, ?_, [], trivial, rfl, rfl, ?_⟩
  · intro k hk
    obtain rfl := List.mem_singleton.1 hk
    exact ForthDb.new_sound
  · intro tx htx
    cases htx
  · intro tx htx
    cases htx
  · intro k hk
    obtain rfl : k = 0 := Nat.le_zero.1 hk
    exact ⟨rfl, hworld⟩

/-- The same answer, and what is behind it. -/
def Alike (x : WorldAnswer × WorldSession) (y : WorldAnswer × WorldSpec) : Prop :=
  x.1 = y.1 ∧ x.2.Agrees y.2

/-- A call on a transaction that is open on both sides, or on neither. -/
theorem Agrees.requireOpen (h : s.Agrees spec) (handle : ℕ)
    {body : WorldTransaction → WorldAnswer × WorldSession}
    {body' : SpecTransaction → WorldAnswer × WorldSpec}
    (hfits : (ForthDB.requireOpen WorldTransaction.closed s.transactions handle
      (fun e => (.raised e, s)) body).2.db.path.length < 2 ^ 63)
    (hbody : ∀ tx ∈ s.transactions, (body tx).2.db.path.length < 2 ^ 63 →
      Alike (body tx) (body' tx.abstract)) :
    Alike
      (ForthDB.requireOpen WorldTransaction.closed s.transactions handle (fun e => (.raised e, s))
        body)
      (ForthDB.requireOpen SpecTransaction.closed spec.transactions handle
        (fun e => (.raised e, spec)) body') := by
  unfold ForthDB.requireOpen at hfits ⊢
  rw [h.transactions, List.getElem?_map]
  cases htx : s.transactions[handle]? with
  | none => exact ⟨rfl, h⟩
  | some tx =>
    rw [htx] at hfits
    simp only [Option.map_some] at hfits ⊢
    by_cases hclosed : tx.closed = true
    · have hclosed' : tx.abstract.closed = true := hclosed
      rw [if_pos hclosed, if_pos hclosed']
      exact ⟨rfl, h⟩
    · have hclosed' : ¬ tx.abstract.closed = true := hclosed
      rw [if_neg hclosed] at hfits
      rw [if_neg hclosed, if_neg hclosed']
      exact hbody tx (List.mem_of_getElem? htx) hfits

/-- **A call that changes one transaction**, and neither its base nor the database. -/
theorem Agrees.set (h : s.Agrees spec) (handle : ℕ) {old tx : WorldTransaction}
    (hold : old ∈ s.transactions) (hbase : tx.base = old.base)
    (hnext : old.nextEntity ≤ tx.nextEntity) :
    ({ s with transactions := s.transactions.set handle tx } : WorldSession).Agrees
      { spec with transactions := spec.transactions.set handle tx.abstract } := by
  refine ⟨h.current, ⟨h.world.version, h.world.digest, h.world.kernel⟩, h.sound, ?_, ?_, ?_, ?_⟩
  · simp only [h.transactions, List.map_set]
  · intro other hother
    rcases List.mem_or_eq_of_mem_set hother with hmem | rfl
    · obtain ⟨⟨hversion, hdigest, hkernel⟩, hnext'⟩ := h.bases other hmem
      exact ⟨⟨hversion, hdigest, hkernel⟩, hnext'⟩
    · obtain ⟨⟨hversion, hdigest, hkernel⟩, hnext'⟩ := h.bases old hold
      rw [← hbase] at hversion hdigest hkernel hnext'
      exact ⟨⟨hversion, hdigest, hkernel⟩, hnext'.trans hnext⟩
  · intro other hother hcurrent
    rcases List.mem_or_eq_of_mem_set hother with hmem | rfl
    · exact h.fresh other hmem hcurrent
    · rw [hbase] at hcurrent ⊢
      exact h.fresh old hold hcurrent
  · obtain ⟨chain, hchain, hpath, hlast, hworlds⟩ := h.file
    refine ⟨chain, hchain, hpath, hlast, ?_⟩
    intro k hk
    obtain ⟨hk', hversion, hdigest, hkernel⟩ := hworlds k hk
    exact ⟨hk', hversion, hdigest, hkernel⟩

/-- The candidate of a transaction is the target of its specification. -/
theorem Agrees.candidate (h : s.Agrees spec) {tx : WorldTransaction} (htx : spec.IsBase tx) :
    ∃ candidate,
      tx.candidate = (checkValidators (spec.target tx.abstract).authority tx.validators).map
        (fun _ => (candidate, (spec.target tx.abstract).store.log.drop
          (spec.kernelAt tx.base.version).store.log.length)) ∧
      ReplaysTo tx.base tx.operations tx.nextEntity
        ((spec.target tx.abstract).store.log.drop
          (spec.kernelAt tx.base.version).store.log.length) candidate ∧
      candidate.Refines (spec.target tx.abstract) := by
  have hsound := WorldSpec.kernelAt_sound h.sound htx.world.version
  obtain ⟨candidate, records, hcandidate, hreplays, hrefines, hlog⟩ :=
    WorldTransaction.candidate_spec htx.world.kernel hsound htx.nextEntity
  have hrecords : (spec.target tx.abstract).store.log.drop
      (spec.kernelAt tx.base.version).store.log.length = records := by
    have hnew : candidate.store.log = (spec.target tx.abstract).store.log := hrefines.store.log
    have hold : tx.base.kernel.store.log = (spec.kernelAt tx.base.version).store.log :=
      htx.world.kernel.store.log
    rw [← hnew, hlog, hold, List.drop_left]
  have hauthority := hrefines.authority_eq
  refine ⟨candidate, ?_, ?_, hrefines⟩
  · rw [hrecords, hcandidate, hauthority]
    rfl
  · rw [hrecords]
    exact hreplays

/-- What a commit publishes is the next world of the specification. -/
theorem Agrees.publish (h : s.Agrees spec) {tx : WorldTransaction} (hbase : spec.IsBase tx)
    (hworld : tx.base = s.db.world) {records : List Record} {candidate : PythonForthDb}
    (hreplays : ReplaysTo tx.base tx.operations tx.nextEntity records candidate)
    (hrefines : candidate.Refines (spec.target tx.abstract))
    (hfits : (s.db.path ++ frameBytes (commitPayload s.db.world tx.operations candidate)).length <
      2 ^ 63) :
    (⟨⟨s.db.path ++ frameBytes (commitPayload s.db.world tx.operations candidate),
        ⟨s.db.world.version + 1, worldDigest candidate.authority, candidate⟩⟩,
        s.transactions⟩ : WorldSession).Agrees
      { spec with worlds := spec.worlds ++ [spec.target tx.abstract] } := by
  have hcurrent := h.current
  obtain ⟨chain, hchain⟩ := h.file
  have hsound : (spec.target tx.abstract).Sound := by
    have hkernel := WorldSpec.kernelAt_sound h.sound hbase.world.version
    exact ForthDb.replay_sound hkernel tx.operations tx.nextEntity
  -- the target is the world behind the newest one
  have hlast : (⟨spec.worlds ++ [spec.target tx.abstract], spec.transactions⟩ : WorldSpec).kernelAt
      (s.db.world.version + 1) = spec.target tx.abstract := by
    unfold WorldSpec.kernelAt
    rw [← hcurrent, List.getD_append_right _ _ _ _ le_rfl, Nat.sub_self]
    rfl
  have hnew : (⟨spec.worlds ++ [spec.target tx.abstract], spec.transactions⟩ : WorldSpec).IsWorld
      ⟨s.db.world.version + 1, worldDigest candidate.authority, candidate⟩ := by
    refine ⟨?_, ?_, ?_⟩
    · rw [List.length_append, List.length_singleton]
      simp only
      omega
    · unfold WorldSpec.digestAt
      rw [if_neg (Nat.succ_ne_zero _), hlast, hrefines.authority_eq]
    · rw [hlast]
      exact hrefines
  have hlimit : (commitPayload s.db.world tx.operations candidate).length < worldSealing.limit := by
    have hframe : (frameBytes (commitPayload s.db.world tx.operations candidate)).length = _ :=
      SealedLog.length_encode _
    rw [List.length_append, hframe] at hfits
    change _ < 2 ^ 63
    omega
  rw [hworld] at hreplays
  refine ⟨?_, hnew, ?_, h.transactions, ?_, ?_, _, hchain.append hlimit
    (acceptCommit_commitPayload hreplays) (by rw [hchain.length]) hnew⟩
  · rw [List.length_append, List.length_singleton, hcurrent]
  · intro k hk
    rcases List.mem_append.1 hk with hold | hk
    · exact h.sound k hold
    · obtain rfl := List.mem_singleton.1 hk
      exact hsound
  · intro other hother
    exact (h.bases other hother).append _ _
  · intro other hother hversion
    -- no transaction began at the new world
    have hold := (h.bases other hother).world.version
    simp only at hversion
    omega

/-- **A commit** publishes the target on the newest world, or leaves everything as it was. -/
theorem Agrees.commit (h : s.Agrees spec) {tx : WorldTransaction} (htx : tx ∈ s.transactions) :
    (∃ e, spec.commit tx.abstract = (.error e, spec) ∧
      ∀ failAfterFsync, s.db.commit tx failAfterFsync = (.error e, s.db)) ∨
    ∃ receipt world payload spec',
      spec.commit tx.abstract = (.ok receipt, spec') ∧ spec'.transactions = spec.transactions ∧
      s.db.commit tx false = (.ok receipt, ⟨s.db.path ++ frameBytes payload, world⟩) ∧
      (s.db.commit tx true).2.path = s.db.path ++ frameBytes payload ∧
      ((s.db.path ++ frameBytes payload).length < 2 ^ 63 →
        (⟨⟨s.db.path ++ frameBytes payload, world⟩, s.transactions⟩ : WorldSession).Agrees spec') := by
  have hbase := h.bases tx htx
  obtain ⟨candidate, hcandidate, hreplays, hrefines⟩ := h.candidate hbase
  have hversion := h.version
  cases hvalid : checkValidators (spec.target tx.abstract).authority tx.validators with
  | error e =>
    rw [hvalid] at hcandidate
    exact .inl ⟨e, WorldSpec.commit_refused hvalid, WorldDb.commit_refused hcandidate⟩
  | ok _ =>
    rw [hvalid] at hcandidate
    by_cases hcurrent : tx.base.version = s.db.world.version
    · -- nothing was committed since the transaction began
      have hworld := h.fresh tx htx hcurrent
      obtain ⟨hdone, hcrash⟩ := WorldDb.commit_current hcandidate hworld
      have hspec : spec.commit tx.abstract =
          (.ok { version := s.db.world.version + 1, parentDigest := s.db.world.digest,
                 worldDigest := worldDigest candidate.authority,
                 operationCount := tx.operations.length,
                 records := (spec.target tx.abstract).store.log.drop
                   (spec.kernelAt tx.base.version).store.log.length },
            { spec with worlds := spec.worlds ++ [spec.target tx.abstract] }) := by
        rw [WorldSpec.commit_current hvalid (hcurrent.trans hversion.symm), hversion,
          h.world.digest, hrefines.authority_eq]
        rfl
      refine .inr ⟨_, _, _, _, hspec, rfl, hdone, hcrash, ?_⟩
      intro hfits
      exact h.publish hbase hworld hreplays hrefines hfits
    · have hstale : s.db.world.version ≠ tx.base.version := fun heq => hcurrent heq.symm
      have hspec := WorldSpec.commit_stale hvalid (fun heq => hcurrent (heq.trans hversion))
      rw [hversion] at hspec
      exact .inl ⟨_, hspec, WorldDb.commit_stale hcandidate hstale⟩

/-! ## Steps -/

theorem reopen_of_open {db db' : WorldDb} (h : WorldDb.open db.path = .ok db') :
    WorldSession.reopen db = (.world db'.world.version db'.world.digest, ⟨db', []⟩) := by
  unfold WorldSession.reopen
  rw [h]

/-- Recovery does not write. -/
theorem reopen_path (db : WorldDb) : (WorldSession.reopen db).2.db.path = db.path := by
  unfold WorldSession.reopen WorldDb.open
  cases recover db.path with
  | error e => rfl
  | ok world => rfl

theorem Agrees.opens (h : s.Agrees spec) : WorldDb.open s.db.path = .ok s.db := by
  obtain ⟨chain, hchain⟩ := h.file
  unfold WorldDb.open
  rw [hchain.recover]
  rfl

/-- **A database that is opened again** holds the world that it held. -/
theorem Agrees.reopen (h : s.Agrees spec) : Alike (WorldSession.reopen s.db) spec.reopen := by
  obtain ⟨chain, hchain⟩ := h.file
  have hversion := h.version
  rw [reopen_of_open h.opens]
  refine ⟨?_, h.current, ⟨h.world.version, h.world.digest, h.world.kernel⟩, h.sound, rfl, ?_, ?_,
    chain, hchain.accepted, hchain.path, hchain.newest, ?_⟩
  · unfold WorldSpec.reopen
    rw [hversion, h.world.digest]
  · intro tx htx
    cases htx
  · intro tx htx
    cases htx
  · intro k hk
    obtain ⟨hk', hversion, hdigest, hkernel⟩ := hchain.worlds k hk
    exact ⟨hk', hversion, hdigest, hkernel⟩

/-- A transaction begins at the newest world. -/
theorem Agrees.transaction (h : s.Agrees spec) : Alike (s.step .transaction) (spec.step .transaction) := by
  have hversion := h.version
  obtain ⟨chain, hchain⟩ := h.file
  have hnext : (spec.kernelAt s.db.world.version).nextEntity = s.db.world.kernel.nextEntity :=
    h.world.kernel.nextEntity.symm
  have habstract : s.db.world.transaction.abstract =
      ⟨spec.version, [], [], (spec.kernelAt spec.version).nextEntity, false⟩ := by
    rw [hversion, hnext]
    rfl
  refine ⟨?_, h.current, ⟨h.world.version, h.world.digest, h.world.kernel⟩, h.sound, ?_, ?_, ?_,
    chain, hchain.accepted, hchain.path, hchain.newest, ?_⟩
  · unfold step WorldSpec.step
    rw [h.transactions, List.length_map]
  · unfold step WorldSpec.step
    rw [List.map_append, List.map_singleton, habstract, h.transactions]
  · intro tx htx
    rcases List.mem_append.1 htx with hold | htx
    · obtain ⟨⟨hversion, hdigest, hkernel⟩, hnext⟩ := h.bases tx hold
      exact ⟨⟨hversion, hdigest, hkernel⟩, hnext⟩
    · obtain rfl := List.mem_singleton.1 htx
      exact ⟨⟨h.world.version, h.world.digest, h.world.kernel⟩, hnext.le⟩
  · intro tx htx hcurrent
    rcases List.mem_append.1 htx with hold | htx
    · exact h.fresh tx hold hcurrent
    · obtain rfl := List.mem_singleton.1 htx
      rfl
  · intro k hk
    obtain ⟨hk', hversion, hdigest, hkernel⟩ := hchain.worlds k hk
    exact ⟨hk', hversion, hdigest, hkernel⟩

theorem Agrees.preview (h : s.Agrees spec) {tx : WorldTransaction} (htx : tx ∈ s.transactions) :
    WorldSession.preview tx = spec.preview tx.abstract := by
  obtain ⟨candidate, hcandidate, -, hrefines⟩ := h.candidate (h.bases tx htx)
  have hvalidators : tx.abstract.validators = tx.validators := rfl
  unfold WorldSession.preview WorldSpec.preview
  rw [hcandidate, hvalidators]
  cases checkValidators (spec.target tx.abstract).authority tx.validators with
  | error e => rfl
  | ok _ =>
    simp only [Except.map]
    rw [hrefines.authority_eq]
    rfl

theorem Agrees.commitStep (h : s.Agrees spec) (handle : ℕ) {tx : WorldTransaction}
    (htx : tx ∈ s.transactions) (hfits : (s.db.commit tx false).2.path.length < 2 ^ 63) :
    Alike
      (commitAnswer (s.db.commit tx false).1,
        { db := (s.db.commit tx false).2
          transactions := s.transactions.set handle { tx with closed := true } })
      (commitAnswer (spec.commit tx.abstract).1,
        { (spec.commit tx.abstract).2 with
          transactions := spec.transactions.set handle { tx.abstract with closed := true } }) := by
  rcases h.commit htx with ⟨e, hspec, herror⟩ |
    ⟨receipt, world, payload, spec', hspec, hsame, hdone, -, hagrees⟩
  · rw [hspec, herror]
    exact ⟨rfl, h.set handle htx rfl le_rfl⟩
  · rw [hdone] at hfits
    rw [hspec, hdone, ← hsame]
    exact ⟨rfl, (hagrees hfits).set handle htx rfl le_rfl⟩

theorem Agrees.crashStep (h : s.Agrees spec) {tx : WorldTransaction} (htx : tx ∈ s.transactions)
    (hfits : (s.db.commit tx true).2.path.length < 2 ^ 63) :
    Alike (WorldSession.reopen (s.db.commit tx true).2) (spec.commit tx.abstract).2.reopen := by
  rcases h.commit htx with ⟨e, hspec, herror⟩ |
    ⟨receipt, world, payload, spec', hspec, -, -, hcrash, hagrees⟩
  · rw [hspec, herror]
    exact h.reopen
  · -- the frame is there, and the world that it leads to is recovered
    rw [hcrash] at hfits
    have hnew := hagrees hfits
    have hopen : WorldDb.open (s.db.commit tx true).2.path =
        .ok ⟨s.db.path ++ frameBytes payload, world⟩ := by
      rw [hcrash]
      exact hnew.opens
    have halike := hnew.reopen
    rw [reopen_of_open hnew.opens] at halike
    rw [reopen_of_open hopen, hspec]
    exact halike

/-- **One call** answers as specified. -/
theorem Agrees.step (h : s.Agrees spec) (event : WorldEvent)
    (hfits : (s.step event).2.db.path.length < 2 ^ 63) :
    Alike (s.step event) (spec.step event) := by
  cases event with
  | transaction => exact h.transaction
  | entity handle =>
    refine h.requireOpen handle hfits fun tx htx _ => ⟨rfl, ?_⟩
    exact h.set handle htx rfl (Nat.le_succ _)
  | stage handle operation =>
    refine h.requireOpen handle hfits fun tx htx _ => ⟨rfl, ?_⟩
    exact h.set handle htx rfl le_rfl
  | require handle validator =>
    refine h.requireOpen handle hfits fun tx htx _ => ⟨rfl, ?_⟩
    exact h.set handle htx rfl le_rfl
  | snapshot handle =>
    refine h.requireOpen handle hfits fun tx htx _ => ⟨?_, h⟩
    exact h.preview htx
  | rollback handle =>
    refine h.requireOpen handle hfits fun tx htx _ => ⟨rfl, ?_⟩
    exact h.set handle htx rfl le_rfl
  | commit handle =>
    refine h.requireOpen handle hfits fun tx htx hfits => ?_
    exact h.commitStep handle htx hfits
  | resolve slot =>
    have hsound := WorldSpec.kernelAt_sound h.sound h.world.version
    have hresolve : s.db.world.kernel.resolve slot =
        .ok ((spec.kernelAt spec.version).resolve slot) := by
      rw [h.version]
      exact h.world.kernel.resolve hsound slot
    have hanswer : resolveAnswer (s.db.world.kernel.resolve slot) =
        .fact ((spec.kernelAt spec.version).resolve slot) := by
      rw [hresolve]
      rfl
    exact ⟨hanswer, h⟩
  | crash handle =>
    refine h.requireOpen handle hfits fun tx htx hfits => ?_
    apply h.crashStep htx
    rwa [reopen_path] at hfits
  | reopen => exact h.reopen

/-! ## Runs -/

/-- **The file only grows**, by whole frames at its end. -/
theorem step_grows (s : WorldSession) (event : WorldEvent) : s.db.path <+: (s.step event).2.db.path := by
  have hsame : ∀ (handle : ℕ) {body : WorldTransaction → WorldAnswer × WorldSession},
      (∀ tx, s.db.path <+: (body tx).2.db.path) →
        s.db.path <+: (ForthDB.requireOpen WorldTransaction.closed s.transactions handle
          (fun e => (.raised e, s)) body).2.db.path := by
    intro handle body hbody
    unfold ForthDB.requireOpen
    cases s.transactions[handle]? with
    | none => exact List.prefix_rfl
    | some tx =>
      simp only
      by_cases hclosed : tx.closed = true
      · rw [if_pos hclosed]
      · rw [if_neg hclosed]
        exact hbody tx
  cases event with
  | transaction => exact List.prefix_rfl
  | entity handle => exact hsame handle fun tx => List.prefix_rfl
  | stage handle operation => exact hsame handle fun tx => List.prefix_rfl
  | require handle validator => exact hsame handle fun tx => List.prefix_rfl
  | snapshot handle => exact hsame handle fun tx => List.prefix_rfl
  | rollback handle => exact hsame handle fun tx => List.prefix_rfl
  | commit handle => exact hsame handle fun tx => WorldDb.commit_grows _ _ _
  | resolve slot => exact List.prefix_rfl
  | crash handle =>
    refine hsame handle fun tx => ?_
    rw [reopen_path]
    exact WorldDb.commit_grows _ _ _
  | reopen =>
    change s.db.path <+: (WorldSession.reopen s.db).2.db.path
    rw [reopen_path]

theorem run_grows (s : WorldSession) (events : List WorldEvent) :
    s.db.path <+: (s.run events).2.db.path := by
  induction events generalizing s with
  | nil => exact List.prefix_rfl
  | cons event events ih => exact (s.step_grows event).trans (ih (s.step event).2)

theorem run_append (s : WorldSession) (events later : List WorldEvent) :
    (s.run (events ++ later)).2 = ((s.run events).2.run later).2 := by
  induction events generalizing s with
  | nil => rfl
  | cons event events ih => exact ih (s.step event).2

/-- **A run** answers as specified. -/
theorem Agrees.run (h : s.Agrees spec) (events : List WorldEvent)
    (hfits : (s.run events).2.db.path.length < 2 ^ 63) :
    (s.run events).1 = (spec.run events).1 ∧ (s.run events).2.Agrees (spec.run events).2 := by
  induction events generalizing s spec with
  | nil => exact ⟨rfl, h⟩
  | cons event events ih =>
    have hgrows := ((s.step event).2.run_grows events).length_le
    obtain ⟨hanswer, hnext⟩ := h.step event (lt_of_le_of_lt hgrows hfits)
    obtain ⟨hanswers, hlast⟩ := ih hnext hfits
    exact ⟨congrArg₂ List.cons hanswer hanswers, hlast⟩

/-- **Transactions are serial.** For every order of calls by any number of clients, on a file whose
length fits in a signed word, the answers are those of a database on which every committed
transaction happens at once on the newest world, and every other transaction happens not at all;
crashes behind an `fsync` and openings of the file are among the calls. The published world is the
newest one of that database. -/
theorem serializable (events : List WorldEvent)
    (hfits : (new.run events).2.db.path.length < 2 ^ 63) :
    (new.run events).1 = (WorldSpec.new.run events).1 ∧
      (new.run events).2.db.world.version = (WorldSpec.new.run events).2.version ∧
      (WorldSpec.new.run events).2.IsWorld (new.run events).2.db.world := by
  obtain ⟨hanswers, hlast⟩ := new_agrees.run events hfits
  exact ⟨hanswers, hlast.version.symm, hlast.world⟩

/-- Two writers, of whom the second is stale, and a crash. -/
theorem serializable_stale :
    (new.run [.transaction, .transaction, .commit 0, .commit 1, .crash 1, .reopen]).1 =
        (WorldSpec.new.run [.transaction, .transaction, .commit 0, .commit 1, .crash 1, .reopen]).1 :=
  (serializable [.transaction, .transaction, .commit 0, .commit 1, .crash 1, .reopen]
    (by decide +kernel)).1

/-- **A cut file is recovered to its last whole frame.** Whatever happens after some calls, and
wherever the file is cut then, recovery raises nothing and finds a world that was committed; a cut
behind the bytes of the first calls finds their world or a later one, and a cut at these bytes finds
the very world that was published. -/
theorem recover_take (events later : List WorldEvent)
    (hfits : (new.run (events ++ later)).2.db.path.length < 2 ^ 63) (n : ℕ) :
    ∃ world, recover ((new.run (events ++ later)).2.db.path.take n) = .ok world ∧
      (WorldSpec.new.run (events ++ later)).2.IsWorld world ∧
      ((new.run events).2.db.path.length ≤ n →
        (new.run events).2.db.world.version ≤ world.version) ∧
      (n = (new.run events).2.db.path.length → world = (new.run events).2.db.world) := by
  have hprefix : (new.run events).2.db.path <+: (new.run (events ++ later)).2.db.path := by
    rw [run_append]
    exact run_grows _ later
  obtain ⟨-, hlast⟩ := new_agrees.run (events ++ later) hfits
  obtain ⟨-, hthen⟩ := new_agrees.run events (lt_of_le_of_lt hprefix.length_le hfits)
  obtain ⟨chain, hchain⟩ := hlast.file
  obtain ⟨chain', hchain'⟩ := hthen.file
  have hwhole := fun m => hchain.worlds _ (SealedLog.whole_le (f := worldSealing) m chain)
  -- the cut at the end of the first calls
  have hthere := hchain.recover_cut (new.run events).2.db.path.length
  rw [← List.prefix_iff_eq_take.1 hprefix, hchain'.recover] at hthere
  have hworld := Except.ok.inj hthere
  refine ⟨_, hchain.recover_cut n, (hwhole n).2, ?_, ?_⟩
  · intro hn
    rw [hworld, (hwhole _).1, (hwhole n).1]
    exact SealedLog.whole_mono hn chain
  · rintro rfl
    exact hworld.symm

/-- A file with two frames, cut in the second one. -/
theorem recover_take_torn : ∃ world,
    recover ((new.run ([.transaction, .commit 0] ++
      [.transaction, .commit 1])).2.db.path.take 400) = .ok world ∧ 1 ≤ world.version := by
  obtain ⟨world, hworld, -, hversion, -⟩ := recover_take [.transaction, .commit 0]
    [.transaction, .commit 1] (by decide +kernel) 400
  have hone : (new.run [.transaction, .commit 0]).2.db.world.version = 1 := by decide +kernel
  have hlen : (new.run [.transaction, .commit 0]).2.db.path.length ≤ 400 := by decide +kernel
  rw [hone] at hversion
  exact ⟨world, hworld, hversion hlen⟩

end WorldSession

end ForthDB
