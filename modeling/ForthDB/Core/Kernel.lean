import ForthDB.Core.Types

/-!
# The kernel

`ForthDb` of `forthdb-core`: an append-only log of definitions and forgets, the
current head of each slot, and the entity allocator. The seven query indexes of
`SharedCurrentView` are not modelled here; its activity signature is, because
`validate` compares it with the store's.
-/

namespace ForthDB

inductive RecordKind
  | define
  | forget
deriving DecidableEq, Repr

/-- One immutable log record; a record id is its position in the log. -/
structure Record where
  id : ℕ
  kind : RecordKind
  slot : SlotId
  fact : Option Fact
  previousHead : Option ℕ
  resultingHead : Option ℕ
deriving DecidableEq, Repr

/-- `record_token`: the mixing function behind the activity signature. -/
def recordToken (recordId : ℕ) : UInt64 :=
  let value := UInt64.ofNat recordId + 0x9e3779b97f4a7c15
  let value := (value ^^^ (value >>> 30)) * 0xbf58476d1ce4e5b9
  let value := (value ^^^ (value >>> 27)) * 0x94d049bb133111eb
  value ^^^ (value >>> 31)

structure ActiveSignature where
  count : ℕ
  xor : UInt64
  sum : UInt64
deriving DecidableEq, Repr

namespace ActiveSignature

def zero : ActiveSignature := ⟨0, 0, 0⟩

def add (s : ActiveSignature) (recordId : ℕ) : ActiveSignature :=
  ⟨s.count + 1, s.xor ^^^ recordToken recordId, s.sum + recordToken recordId⟩

def remove (s : ActiveSignature) (recordId : ℕ) : ActiveSignature :=
  ⟨s.count - 1, s.xor ^^^ recordToken recordId, s.sum - recordToken recordId⟩

end ActiveSignature

/-- `SharedDefinitionStore`. -/
structure DefinitionStore where
  log : List Record
  head : Dict SlotId ℕ
  activeSignature : ActiveSignature

namespace DefinitionStore

def empty : DefinitionStore := ⟨[], ∅, .zero⟩

def replaceHead (s : DefinitionStore) (slot : SlotId) (newHead : Option ℕ) : DefinitionStore :=
  let signature := match s.head.lookup slot with
    | some previous => s.activeSignature.remove previous
    | none => s.activeSignature
  match newHead with
  | some recordId =>
    { s with head := s.head.insert slot recordId, activeSignature := signature.add recordId }
  | none => { s with head := s.head.erase slot, activeSignature := signature }

def appendDefine (s : DefinitionStore) (slot : SlotId) (fact : Fact) : ℕ × DefinitionStore :=
  let previousHead := s.head.lookup slot
  let recordId := s.log.length
  let record : Record :=
    { id := recordId, kind := .define, slot := slot, fact := some fact,
      previousHead := previousHead, resultingHead := some recordId }
  (recordId, { s with log := s.log ++ [record] }.replaceHead slot (some recordId))

def appendForget (s : DefinitionStore) (slot : SlotId) : (ℕ × Option ℕ) × DefinitionStore :=
  let current := s.head.lookup slot
  let revealed := current.bind fun recordId => s.log[recordId]?.bind Record.previousHead
  let recordId := s.log.length
  let record : Record :=
    { id := recordId, kind := .forget, slot := slot, fact := none,
      previousHead := current, resultingHead := revealed }
  ((recordId, revealed), { s with log := s.log ++ [record] }.replaceHead slot revealed)

def resolveRecord (s : DefinitionStore) (slot : SlotId) : Option Record :=
  (s.head.lookup slot).bind fun recordId => s.log[recordId]?

def activeSlotCount (s : DefinitionStore) : ℕ := s.head.size

def recordCount (s : DefinitionStore) : ℕ := s.log.length

def validateFast (s : DefinitionStore) : Except String Unit :=
  if s.head.size ≠ s.activeSignature.count then
    .error "active-head count does not match tracked signature"
  else if s.activeSignature.count > s.log.length then
    .error "active-head count exceeds record count"
  else .ok ()

end DefinitionStore

/-- The kernel: store, activity signature of the view, allocator. -/
structure ForthDb where
  store : DefinitionStore
  viewSignature : ActiveSignature
  nextEntity : ℕ

namespace ForthDb

/-- `ForthDb::new`. -/
def new : ForthDb := ⟨.empty, .zero, 1⟩

/-- `ForthDb::entity`: the allocated entity and the kernel after it. -/
def entity (k : ForthDb) : EntityId × ForthDb :=
  (⟨k.nextEntity⟩, { k with nextEntity := k.nextEntity + 1 })

def define (k : ForthDb) (slot : SlotId) (fact : Fact) : ForthDb :=
  let oldHead := k.store.head.lookup slot
  let (recordId, store) := k.store.appendDefine slot fact
  let viewSignature := match oldHead with
    | some old => (k.viewSignature.remove old).add recordId
    | none => k.viewSignature.add recordId
  { k with store := store, viewSignature := viewSignature }

def forget (k : ForthDb) (slot : SlotId) : ForthDb :=
  let oldHead := k.store.head.lookup slot
  let ((_, revealed), store) := k.store.appendForget slot
  let viewSignature := match oldHead, revealed with
    | some old, some new => (k.viewSignature.remove old).add new
    | some old, none => k.viewSignature.remove old
    | none, some new => k.viewSignature.add new
    | none, none => k.viewSignature
  { k with store := store, viewSignature := viewSignature }

def resolve (k : ForthDb) (slot : SlotId) : Option Fact :=
  (k.store.resolveRecord slot).bind Record.fact

def activeSlotCount (k : ForthDb) : ℕ := k.store.activeSlotCount

def recordCount (k : ForthDb) : ℕ := k.store.recordCount

def validate (k : ForthDb) : Except String Unit := do
  k.store.validateFast
  if k.viewSignature ≠ k.store.activeSignature then
    .error "current indexes do not match active slot signature"
  else .ok ()

end ForthDb

end ForthDB
