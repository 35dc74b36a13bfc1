import ForthDB.Lib.Json
import ForthDB.Lib.SealedLog
import ForthDB.Lib.Sha256
import ForthDB.Python.Atomic

/-!
# The committed-world store

`CommittedWorldDB` of `forthdb_world.py`: a file of sealed frames, one for each committed
transaction, and the world that they lead to. A transaction is a candidate successor of one world;
its frame holds the operations, and digests of the world before and of the world after.

* `Authority`: what the world digest covers, and what a validator reads.
* `WorldTransaction.candidate`, `WorldDb.commit`, `recover`: an `error` is an exception.
* `acceptCommit_commitPayload`: **a committed frame is replayed to the very world that was
  published**.
-/

namespace ForthDB

open Bytes

/-- What the rest of a kernel is derived from. -/
structure Authority where
  log : List Record
  head : Dict SlotId ℕ
  nextEntity : ℕ

def PythonForthDb.authority (k : PythonForthDb) : Authority := ⟨k.store.log, k.store.head, k.nextEntity⟩

def ForthDb.authority (k : ForthDb) : Authority := ⟨k.store.log, k.store.head, k.nextEntity⟩

/-- The exceptions of the store. `corruption` shows a value at the end of some messages. -/
inductive WorldError
  | transactionClosed
  | conflict (base current : ℕ)
  | violation (message : String)
  | corruption (message : String) (shown : Option Json)
  | raised (message : String)

abbrev WorldResult (α : Type) : Type := Except WorldError α

/-- An exception of the kernel. -/
def raise {α : Type} (result : Except String α) : WorldResult α := result.mapError .raised

def logCorruption {α : Type} (message : String) : WorldResult α := .error (.corruption message none)

/-! ## Values -/

/-- `isinstance(value, str)`. -/
def asStr : Option Json → Option String
  | some (.string value) => some value
  | _ => none

/-- `isinstance(value, int)`; a `bool` is one. -/
def asInt : Option Json → Option ℤ
  | some (.int value) => some value
  | some (.bool value) => some (if value then 1 else 0)
  | _ => none

/-- `isinstance(value, Mapping)`. -/
def asMapping : Option Json → Option Json
  | some (.object entries) => some (.object entries)
  | _ => none

/-- `isinstance(value, list)`. -/
def asList : Option Json → Option (List Json)
  | some (.array items) => some items
  | _ => none

def encodeAtom : Atom → Json
  | .entity entity => .object [("type", .string "entity"), ("value", .int entity.value)]
  | .literal literal => .object [("type", .string "literal"), ("value", .string literal.value)]

/-- `_decode_atom`. A negative entity has no counterpart here. -/
def decodeAtom (value : Json) : WorldResult Atom :=
  let invalid : WorldResult Atom := .error (.corruption "Invalid atom: " (some value))
  let kind := asStr (value.get "type")
  let raw := value.get "value"
  if kind = some "entity" then
    match asInt raw with
    | some n => if 0 ≤ n then .ok (.entity ⟨n.toNat⟩) else invalid
    | none => invalid
  else if kind = some "literal" then
    match asStr raw with
    | some text => .ok (.literal ⟨text⟩)
    | none => invalid
  else invalid

def encodeFact (fact : Fact) : Json :=
  .object [("subject", encodeAtom fact.subject), ("predicate", .string fact.predicate.value),
    ("object", encodeAtom fact.object)]

def decodeFact (value : Json) : WorldResult Fact :=
  match asMapping (value.get "subject"), asStr (value.get "predicate"),
      asMapping (value.get "object") with
  | some subject, some predicate, some object => do
    let subject ← decodeAtom subject
    let object ← decodeAtom object
    pure { subject := subject, predicate := ⟨predicate⟩, object := object }
  | _, _, _ => .error (.corruption "Invalid fact: " (some value))

def encodeOperation (version ordinal : ℕ) : StoreOperation → Json
  | .define slot fact =>
    .object [("kind", .string "define"), ("slot", .string slot.value),
      ("definition_id", .string s!"{version}:{ordinal}"), ("fact", encodeFact fact)]
  | .forget slot => .object [("kind", .string "forget"), ("slot", .string slot.value)]

def decodeOperation (value : Json) : WorldResult StoreOperation :=
  match asStr (value.get "slot") with
  | none => .error (.corruption "Invalid operation slot: " (some value))
  | some slot =>
    let kind := asStr (value.get "kind")
    if kind = some "define" then
      match asMapping (value.get "fact") with
      | none => .error (.corruption "Invalid define operation: " (some value))
      | some fact => (decodeFact fact).map (.define ⟨slot⟩)
    else if kind = some "forget" then .ok (.forget ⟨slot⟩)
    else .error (.corruption "Invalid operation kind: " (some value))

def canonicalBytes (value : Json) : List UInt8 := utf8 (String.ofList value.dumps)

def optionalId : Option ℕ → Json
  | none => .null
  | some id => .int id

def RecordKind.text : RecordKind → String
  | .define => "define"
  | .forget => "forget"

def projectRecord (record : Record) : Json :=
  .object [("id", .int record.id), ("kind", .string record.kind.text),
    ("slot", .string record.slot.value), ("fact", (record.fact.map encodeFact).getD .null),
    ("previous_head", optionalId record.previousHead),
    ("resulting_head", optionalId record.resultingHead)]

def worldProjection (a : Authority) : Json :=
  .object [("next_entity", .int a.nextEntity), ("records", .array (a.log.map projectRecord)),
    ("heads", .object ((Dict.sorted SlotId.value a.head).map fun e => (e.1.value, .int e.2)))]

def worldDigest (a : Authority) : String := Sha256.hexdigest (canonicalBytes (worldProjection a))

/-! ## Frames -/

/-- `b"FDB1"`. -/
def worldMagic : List UInt8 := [0x46, 0x44, 0x42, 0x31]

theorem worldMagic_length : worldMagic.length = 4 := rfl

/-- The length of a `read` has to fit in a signed word. -/
theorem worldLimit_le : 2 ^ 63 ≤ 256 ^ 8 := by norm_num

def worldSealing : SealedLog.Sealing where
  magic := worldMagic
  digest := Sha256.digest
  width := 32
  limit := 2 ^ 63
  magic_length := worldMagic_length
  digest_length := Sha256.length_digest
  limit_le := worldLimit_le

def frameBytes (payload : List UInt8) : List UInt8 := SealedLog.encode worldSealing payload

def genesisDigest : String := Sha256.hexdigest (utf8 "forthdb committed-world genesis v1")

structure CommittedWorld where
  version : ℕ
  digest : String
  kernel : PythonForthDb

def genesisWorld : CommittedWorld := ⟨0, genesisDigest, .new⟩

def encodeOperations (version : ℕ) (operations : List StoreOperation) : List Json :=
  operations.zipIdx.map fun entry => encodeOperation version entry.2 entry.1

/-- The payload of the frame that leads from `current` to `candidate`. -/
def commitPayload (current : CommittedWorld) (operations : List StoreOperation)
    (candidate : PythonForthDb) : List UInt8 :=
  let version := current.version + 1
  canonicalBytes (.object [("format", .int 1), ("version", .int version),
    ("parent_digest", .string current.digest),
    ("operations", .array (encodeOperations version operations)),
    ("next_entity", .int candidate.nextEntity),
    ("world_digest", .string (worldDigest candidate.authority))])

/-! ## Transactions -/

/-- A validator reads a candidate, and raises or accepts it. -/
abbrev WorldValidator : Type := Authority → Except String Unit

structure WorldTransaction where
  base : CommittedWorld
  operations : List StoreOperation
  validators : List WorldValidator
  nextEntity : ℕ
  closed : Bool

def CommittedWorld.transaction (world : CommittedWorld) : WorldTransaction :=
  ⟨world, [], [], world.kernel.nextEntity, false⟩

def checkValidators (a : Authority) : List WorldValidator → WorldResult Unit
  | [] => .ok ()
  | validator :: validators =>
    match validator a with
    | .error message => .error (.violation message)
    | .ok _ => checkValidators a validators

/-- `_candidate`. -/
def WorldTransaction.candidate (tx : WorldTransaction) :
    WorldResult (PythonForthDb × List Record) := do
  let clone ← raise tx.base.kernel.clone
  let (records, candidate) ←
    raise ({ clone with nextEntity := tx.nextEntity }.applyOperations tx.operations)
  raise candidate.validate
  let preValidationDigest := worldDigest candidate.authority
  checkValidators candidate.authority tx.validators
  raise candidate.validate
  if worldDigest candidate.authority ≠ preValidationDigest then
    .error (.violation "Constraint validators must be read-only")
  else pure (candidate, records)

structure CommitReceipt where
  version : ℕ
  parentDigest : String
  worldDigest : String
  operationCount : ℕ
  records : List Record

/-- The bytes of the file, and the world that is published. -/
structure WorldDb where
  path : List UInt8
  world : CommittedWorld

/-- `_commit`. -/
def WorldDb.commit (db : WorldDb) (tx : WorldTransaction) (failAfterFsync : Bool) :
    WorldResult CommitReceipt × WorldDb :=
  match tx.candidate with
  | .error e => (.error e, db)
  | .ok (candidate, records) =>
    let current := db.world
    if current.version ≠ tx.base.version ∨ current.digest ≠ tx.base.digest then
      (.error (.conflict tx.base.version current.version), db)
    else
      let digest := worldDigest candidate.authority
      let path := db.path ++ frameBytes (commitPayload current tx.operations candidate)
      if failAfterFsync then
        (.error (.raised "Injected crash after fsync and before publication"),
          { db with path := path })
      else
        (.ok { version := current.version + 1, parentDigest := current.digest,
               worldDigest := digest, operationCount := tx.operations.length, records := records },
          ⟨path, current.version + 1, digest, candidate⟩)

/-! ## Recovery -/

/-- `value == n`, on the numbers that are written. -/
def equalsInt (value : Option Json) (n : ℕ) : Prop := asInt value = some (n : ℤ)

instance (value : Option Json) (n : ℕ) : Decidable (equalsInt value n) :=
  inferInstanceAs (Decidable (_ = _))

def decodeOperations (version : ℕ) : List Json → WorldResult (List StoreOperation)
  | [] => .ok []
  | raw :: rest =>
    match asMapping (some raw) with
    | none => logCorruption s!"Invalid operation at commit {version}"
    | some value => do
      let operation ← decodeOperation value
      let operations ← decodeOperations version rest
      pure (operation :: operations)

/-- The object in a payload. -/
def parseFrame (start : ℕ) (payload : List UInt8) : WorldResult Json :=
  match (ofUtf8 payload).bind fun text => Json.loads text.toList with
  | none => logCorruption s!"Invalid frame payload at byte {start}"
  | some value =>
    match asMapping (some value) with
    | none => logCorruption s!"Frame is not an object at byte {start}"
    | some frame => .ok frame

/-- The fields of a frame that are checked before its operations are replayed. -/
def checkFrame (world : CommittedWorld) (start : ℕ) (frame : Json) : WorldResult (List Json) :=
  let version := world.version + 1
  if ¬ equalsInt (frame.get "format") 1 then logCorruption s!"Unsupported frame format at byte {start}"
  else if ¬ equalsInt (frame.get "version") version then
    .error (.corruption s!"Expected commit version {version}, got "
      (some ((frame.get "version").getD .null)))
  else if asStr (frame.get "parent_digest") ≠ some world.digest then
    logCorruption s!"Parent digest mismatch at commit {version}"
  else
    match asList (frame.get "operations") with
    | none => logCorruption s!"Invalid operations at commit {version}"
    | some operations => .ok operations

/-- The allocator that a frame declares. -/
def declaredAllocator (version : ℕ) (candidate : PythonForthDb) (frame : Json) : WorldResult ℕ :=
  match asInt (frame.get "next_entity") with
  | none => logCorruption s!"Invalid entity allocator at commit {version}"
  | some n =>
    if n < candidate.nextEntity then logCorruption s!"Invalid entity allocator at commit {version}"
    else .ok n.toNat

/-- One turn of the loop of `_recover`, on a frame that is whole. -/
def acceptCommit (world : CommittedWorld) (start : ℕ) (payload : List UInt8) :
    WorldResult CommittedWorld := do
  let version := world.version + 1
  let frame ← parseFrame start payload
  let raw ← checkFrame world start frame
  let operations ← decodeOperations version raw
  let clone ← raise world.kernel.clone
  let (_, candidate) ← raise (clone.applyOperations operations)
  let nextEntity ← declaredAllocator version candidate frame
  let candidate := { candidate with nextEntity := nextEntity }
  raise candidate.validate
  let digest := worldDigest candidate.authority
  if asStr (frame.get "world_digest") ≠ some digest then
    logCorruption s!"World digest mismatch at commit {version}"
  else pure ⟨version, digest, candidate⟩

def frameDamage (start : ℕ) : SealedLog.Damage → WorldError
  | .magic => .corruption s!"Invalid frame magic at byte {start}" none
  | .oversized => .raised "cannot fit 'int' into an index-sized integer"
  | .length => .corruption s!"Frame length mismatch at byte {start}" none
  | .digest => .corruption s!"Frame checksum mismatch at byte {start}" none

/-- `_recover`. -/
def recover (path : List UInt8) : WorldResult CommittedWorld :=
  SealedLog.readLog worldSealing acceptCommit frameDamage (path.length + 1) genesisWorld 0 path

/-- `CommittedWorldDB(path)`. -/
def WorldDb.open (path : List UInt8) : WorldResult WorldDb := (recover path).map (⟨path, ·⟩)


/-! ## What is written is read back -/

section ReadBack

open Json

variable {fields : List (String × Json)}

@[simp] theorem sortKeys_string (value : String) : sortKeys (.string value) = .string value := by
  rw [sortKeys]

@[simp] theorem sortKeys_int (value : ℤ) : sortKeys (.int value) = .int value := by rw [sortKeys]

/-- The fields of an object that was written. -/
theorem get_written (h : Printable (.object fields)) (key : String) :
    (sortKeys (.object fields)).get key = (fields.lookup key).map sortKeys := by
  rw [get_sortKeys h]
  rfl

theorem asMapping_sortKeys :
    asMapping (some (sortKeys (.object fields))) = some (sortKeys (.object fields)) := by
  rw [sortKeys]
  rfl

theorem printable_atom (atom : Atom) : Printable (encodeAtom atom) := by
  cases atom with
  | entity entity =>
    refine .object (by simp) ?_
    simp only [List.forall_mem_cons, List.not_mem_nil, false_implies, implies_true, and_true]
    exact ⟨.string _, .int _⟩
  | literal literal =>
    refine .object (by simp) ?_
    simp only [List.forall_mem_cons, List.not_mem_nil, false_implies, implies_true, and_true]
    exact ⟨.string _, .string _⟩

theorem printable_fact (fact : Fact) : Printable (encodeFact fact) := by
  refine .object (by simp) ?_
  simp only [List.forall_mem_cons, List.not_mem_nil, false_implies, implies_true, and_true]
  exact ⟨printable_atom _, .string _, printable_atom _⟩

theorem printable_operation (version ordinal : ℕ) (operation : StoreOperation) :
    Printable (encodeOperation version ordinal operation) := by
  cases operation with
  | define slot fact =>
    refine .object (by simp) ?_
    simp only [List.forall_mem_cons, List.not_mem_nil, false_implies, implies_true, and_true]
    exact ⟨.string _, .string _, .string _, printable_fact fact⟩
  | forget slot =>
    refine .object (by simp) ?_
    simp only [List.forall_mem_cons, List.not_mem_nil, false_implies, implies_true, and_true]
    exact ⟨.string _, .string _⟩

theorem asMapping_atom (atom : Atom) :
    asMapping (some (sortKeys (encodeAtom atom))) = some (sortKeys (encodeAtom atom)) := by
  cases atom with
  | entity entity => exact asMapping_sortKeys
  | literal literal => exact asMapping_sortKeys

theorem decodeAtom_encodeAtom (atom : Atom) : decodeAtom (sortKeys (encodeAtom atom)) = .ok atom := by
  have hprint := printable_atom atom
  unfold decodeAtom
  cases atom with
  | entity entity =>
    unfold encodeAtom at hprint ⊢
    rw [get_written hprint, get_written hprint]
    simp [asStr, asInt, List.lookup_cons]
  | literal literal =>
    unfold encodeAtom at hprint ⊢
    rw [get_written hprint, get_written hprint]
    simp [asStr, List.lookup_cons]

theorem decodeFact_encodeFact (fact : Fact) : decodeFact (sortKeys (encodeFact fact)) = .ok fact := by
  have hprint := printable_fact fact
  have hsubject := asMapping_atom fact.subject
  have hobject := asMapping_atom fact.object
  unfold encodeFact at hprint
  have hfields : (sortKeys (encodeFact fact)).get "subject" = some (sortKeys (encodeAtom fact.subject)) ∧
      (sortKeys (encodeFact fact)).get "predicate" = some (.string fact.predicate.value) ∧
      (sortKeys (encodeFact fact)).get "object" = some (sortKeys (encodeAtom fact.object)) := by
    unfold encodeFact
    rw [get_written hprint, get_written hprint, get_written hprint]
    simp [List.lookup_cons]
  obtain ⟨h₁, h₂, h₃⟩ := hfields
  unfold decodeFact
  simp only [h₁, h₂, h₃, hsubject, hobject, asStr, decodeAtom_encodeAtom]
  rfl

/-- **An operation** is read back; the identity of its definition is not needed. -/
theorem decodeOperation_encodeOperation (version ordinal : ℕ) (operation : StoreOperation) :
    decodeOperation (sortKeys (encodeOperation version ordinal operation)) = .ok operation := by
  have hprint := printable_operation version ordinal operation
  unfold decodeOperation
  cases operation with
  | define slot fact =>
    have hfact : asMapping (some (sortKeys (encodeFact fact))) = some (sortKeys (encodeFact fact)) :=
      asMapping_sortKeys
    unfold encodeOperation at hprint ⊢
    rw [get_written hprint, get_written hprint, get_written hprint]
    simp only [List.lookup_cons, Option.map_some, sortKeys_string, asStr, hfact, decodeFact_encodeFact,
      String.reduceBEq, if_true]
    rfl
  | forget slot =>
    unfold encodeOperation at hprint ⊢
    rw [get_written hprint, get_written hprint]
    simp [List.lookup_cons, asStr]

theorem decodeOperations_zipIdx (version : ℕ) (operations : List StoreOperation) (ordinal : ℕ) :
    decodeOperations version ((operations.zipIdx ordinal).map fun entry =>
      sortKeys (encodeOperation version entry.2 entry.1)) = .ok operations := by
  induction operations generalizing ordinal with
  | nil => rfl
  | cons operation operations ih =>
    have hobject : asMapping (some (sortKeys (encodeOperation version ordinal operation))) =
        some (sortKeys (encodeOperation version ordinal operation)) := by
      cases operation with
      | define slot fact => exact asMapping_sortKeys
      | forget slot => exact asMapping_sortKeys
    rw [List.zipIdx_cons, List.map_cons]
    simp only [decodeOperations, hobject, decodeOperation_encodeOperation, bind, Except.bind, ih]
    rfl

/-- **An object** is read back from its bytes. -/
theorem parseFrame_canonicalBytes (h : Printable (.object fields)) (start : ℕ) :
    parseFrame start (canonicalBytes (.object fields)) = .ok (sortKeys (.object fields)) := by
  unfold parseFrame canonicalBytes
  simp only [ofUtf8_utf8, Option.bind_some, String.toList_ofList, loads_dumps h, asMapping_sortKeys]

end ReadBack

/-! ## Replay -/

namespace PythonForthDb

theorem applyOperation_nextEntity (k : PythonForthDb) (n : ℕ) (operation : StoreOperation) :
    { k with nextEntity := n }.applyOperation operation =
      (k.applyOperation operation).map fun r => (r.1, { r.2 with nextEntity := n }) := by
  have hhead : ∀ slot, { k with nextEntity := n }.removeHead slot = k.removeHead slot := fun _ => rfl
  cases operation with
  | define slot fact =>
    unfold applyOperation
    simp only [define, hhead]
    cases k.removeHead slot with
    | error e => rfl
    | ok view =>
      simp only [bind, Except.bind]
      cases view.addRecord (k.store.appendDefine slot fact).2
          (k.store.appendDefine slot fact).1.1 with
      | error e => rfl
      | ok view' => rfl
  | forget slot =>
    unfold applyOperation
    simp only [forget, hhead]
    cases k.removeHead slot with
    | error e => rfl
    | ok view =>
      simp only [bind, Except.bind]
      cases k.store.appendForgetRecord slot with
      | error e => rfl
      | ok r =>
        obtain ⟨⟨record, revealed⟩, store⟩ := r
        cases revealed with
        | none => rfl
        | some i =>
          simp only
          cases view.addRecord store i with
          | error e => rfl
          | ok view' => rfl

/-- The allocator takes no part in a batch. -/
theorem applyOperations_nextEntity (k : PythonForthDb) (n : ℕ) (operations : List StoreOperation) :
    { k with nextEntity := n }.applyOperations operations =
      (k.applyOperations operations).map fun r => (r.1, { r.2 with nextEntity := n }) := by
  induction operations generalizing k with
  | nil => rfl
  | cons operation operations ih =>
    have hstep := k.applyOperation_nextEntity n operation
    unfold applyOperations
    rw [hstep]
    cases k.applyOperation operation with
    | error e => rfl
    | ok r =>
      have hrest := ih r.2
      simp only [Except.map, bind, Except.bind] at hrest ⊢
      rw [hrest]
      cases r.2.applyOperations operations with
      | error e => rfl
      | ok r' => rfl

end PythonForthDb

/-- The candidate of a transaction whose base is `world`. -/
structure ReplaysTo (world : CommittedWorld) (operations : List StoreOperation) (n : ℕ)
    (records : List Record) (candidate : PythonForthDb) : Prop where
  applied : ∃ clone batch, world.kernel.clone = .ok clone ∧
    clone.applyOperations operations = .ok (records, batch) ∧
    candidate = { batch with nextEntity := n } ∧ batch.nextEntity ≤ n
  valid : candidate.validate = .ok ()

section Replay

open Json

variable {world : CommittedWorld} {operations : List StoreOperation} {n : ℕ}
  {records : List Record} {candidate : PythonForthDb}

/-- The fields of a frame. -/
def commitFields (world : CommittedWorld) (operations : List StoreOperation)
    (candidate : PythonForthDb) : List (String × Json) :=
  [("format", .int 1), ("version", .int (world.version + 1 : ℕ)),
    ("parent_digest", .string world.digest),
    ("operations", .array (encodeOperations (world.version + 1) operations)),
    ("next_entity", .int candidate.nextEntity),
    ("world_digest", .string (worldDigest candidate.authority))]

theorem commitPayload_eq : commitPayload world operations candidate =
    canonicalBytes (.object (commitFields world operations candidate)) := rfl

theorem commitFields_printable : Printable (.object (commitFields world operations candidate)) := by
  refine .object (by simp [commitFields]) ?_
  simp only [commitFields, List.forall_mem_cons, List.not_mem_nil, false_implies, implies_true,
    and_true]
  refine ⟨.int _, .int _, .string _, .array ?_, .int _, .string _⟩
  intro item hitem
  obtain ⟨entry, -, rfl⟩ := List.mem_map.1 hitem
  exact printable_operation _ _ _

theorem checkFrame_ok {start : ℕ} {frame : Json} {raw : List Json}
    (hformat : equalsInt (frame.get "format") 1)
    (hversion : equalsInt (frame.get "version") (world.version + 1))
    (hparent : asStr (frame.get "parent_digest") = some world.digest)
    (hoperations : asList (frame.get "operations") = some raw) :
    checkFrame world start frame = .ok raw := by
  unfold checkFrame
  simp only
  rw [if_neg (not_not_intro hformat), if_neg (not_not_intro hversion),
    if_neg (not_not_intro hparent), hoperations]

/-- **What a frame says** when it is read: it extends `world`, and holds the operations, the
allocator and the digest of the candidate. -/
theorem commitPayload_reads (start : ℕ) :
    ∃ frame raw, parseFrame start (commitPayload world operations candidate) = .ok frame ∧
      checkFrame world start frame = .ok raw ∧
      decodeOperations (world.version + 1) raw = .ok operations ∧
      asInt (frame.get "next_entity") = some (candidate.nextEntity : ℤ) ∧
      asStr (frame.get "world_digest") = some (worldDigest candidate.authority) := by
  have hprint := @commitFields_printable world operations candidate
  have hget := get_written hprint
  generalize hframe : sortKeys (.object (commitFields world operations candidate)) = frame at hget
  have hformat : frame.get "format" = some (.int 1) := by
    rw [hget, ← sortKeys_int]
    rfl
  have hversion : frame.get "version" = some (.int (world.version + 1 : ℕ)) := by
    rw [hget, ← sortKeys_int]
    rfl
  have hparent : frame.get "parent_digest" = some (.string world.digest) := by
    rw [hget, ← sortKeys_string]
    rfl
  have hoperations : frame.get "operations" =
      some (.array ((encodeOperations (world.version + 1) operations).map sortKeys)) := by
    rw [hget, ← sortItems_eq, ← sortKeys]
    rfl
  have hnext : frame.get "next_entity" = some (.int candidate.nextEntity) := by
    rw [hget, ← sortKeys_int]
    rfl
  have hdigest : frame.get "world_digest" = some (.string (worldDigest candidate.authority)) := by
    rw [hget, ← sortKeys_string]
    rfl
  refine ⟨frame, (encodeOperations (world.version + 1) operations).map sortKeys, ?_, ?_, ?_, ?_, ?_⟩
  · rw [commitPayload_eq, parseFrame_canonicalBytes hprint, hframe]
  · apply checkFrame_ok
    · rw [hformat]
      rfl
    · rw [hversion]
      rfl
    · rw [hparent]
      rfl
    · rw [hoperations]
      rfl
  · unfold encodeOperations
    rw [List.map_map]
    exact decodeOperations_zipIdx _ operations 0
  · rw [hnext]
    rfl
  · rw [hdigest]
    rfl

/-- **A committed frame** is replayed to the very world that was published. -/
theorem acceptCommit_commitPayload (h : ReplaysTo world operations n records candidate) (start : ℕ) :
    acceptCommit world start (commitPayload world operations candidate) =
      .ok ⟨world.version + 1, worldDigest candidate.authority, candidate⟩ := by
  obtain ⟨⟨clone, batch, hclone, hbatch, rfl, hn⟩, hvalid⟩ := h
  obtain ⟨frame, raw, hparse, hcheck, hdecode, hnext, hdigest⟩ :=
    @commitPayload_reads world operations { batch with nextEntity := n } start
  have hallocator : declaredAllocator (world.version + 1) batch frame = .ok n := by
    unfold declaredAllocator
    rw [hnext]
    simp only
    rw [if_neg (by omega), Int.toNat_natCast]
  unfold acceptCommit
  simp only [hparse, hcheck, hdecode, hclone, hbatch, hallocator, hvalid, hdigest, bind, Except.bind,
    raise, Except.mapError, ne_eq, not_true_eq_false, if_false]
  rfl

end Replay

/-! ## Candidates -/

/-- A batch on the kernel of `forthdb-core`, with the allocator that a transaction has reached. -/
def ForthDb.replay (k : ForthDb) (operations : List StoreOperation) (n : ℕ) : ForthDb :=
  { k.applyBatch operations with nextEntity := n }

theorem ForthDb.applyBatch_nextEntity (k : ForthDb) (operations : List StoreOperation) :
    (k.applyBatch operations).nextEntity = k.nextEntity := by
  induction operations generalizing k with
  | nil => rfl
  | cons operation operations ih =>
    have hstep : (k.applyStore operation).nextEntity = k.nextEntity := by
      cases operation with
      | define slot fact => exact ForthDb.define_nextEntity slot fact
      | forget slot => exact ForthDb.forget_nextEntity slot
    exact (ih (k.applyStore operation)).trans hstep

theorem ForthDb.replay_sound {k : ForthDb} (h : k.Sound) (operations : List StoreOperation) (n : ℕ) :
    (k.replay operations n).Sound := by
  obtain ⟨hids, hheads, hprevious⟩ := PythonForthDb.applyBatch_sound h operations
  exact ⟨hids, hheads, hprevious⟩

/-- The kernels agree on what the world digest covers. -/
theorem PythonForthDb.Refines.authority_eq {s : PythonForthDb} {k : ForthDb} (h : s.Refines k) :
    s.authority = k.authority := by
  have hlog : s.store.log = k.store.log := h.store.log
  have hhead : s.store.head = k.store.head := h.store.head
  have hnext : s.nextEntity = k.nextEntity := h.nextEntity
  unfold PythonForthDb.authority ForthDb.authority
  rw [hlog, hhead, hnext]

/-- **A candidate** is the batch on a clone of the base, unless a validator refuses it. -/
theorem WorldTransaction.candidate_spec {tx : WorldTransaction} {k : ForthDb}
    (h : tx.base.kernel.Refines k) (hk : k.Sound) (hn : k.nextEntity ≤ tx.nextEntity) :
    ∃ candidate records,
      tx.candidate =
        (checkValidators candidate.authority tx.validators).map (fun _ => (candidate, records)) ∧
      ReplaysTo tx.base tx.operations tx.nextEntity records candidate ∧
      candidate.Refines (k.replay tx.operations tx.nextEntity) ∧
      candidate.store.log = tx.base.kernel.store.log ++ records := by
  obtain ⟨clone, hclone, hrefines, hstore⟩ := h.clone hk
  obtain ⟨records, batch, hbatch, hrefines', hlog⟩ := hrefines.applyOperations hk tx.operations
  have hnext : batch.nextEntity = k.nextEntity :=
    hrefines'.nextEntity.trans (k.applyBatch_nextEntity tx.operations)
  have hvalid := hrefines'.validate (PythonForthDb.applyBatch_sound hk tx.operations)
  have hvalid' : ({ batch with nextEntity := tx.nextEntity } : PythonForthDb).validate = .ok () :=
    hvalid
  refine ⟨{ batch with nextEntity := tx.nextEntity }, records, ?_,
    ⟨⟨clone, batch, hclone, hbatch, rfl, by omega⟩, hvalid'⟩,
    ⟨hrefines'.store, hrefines'.view, rfl⟩, by rw [← hstore]; exact hlog⟩
  have happly := clone.applyOperations_nextEntity tx.nextEntity tx.operations
  rw [hbatch] at happly
  unfold WorldTransaction.candidate
  simp only [hclone, happly, raise, Except.mapError, Except.map, bind, Except.bind, hvalid']
  cases checkValidators _ tx.validators with
  | error e => rfl
  | ok _ =>
    simp only [ne_eq, not_true_eq_false, if_false]
    rfl

end ForthDB
