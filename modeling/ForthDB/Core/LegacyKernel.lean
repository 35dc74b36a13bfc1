import ForthDB.Core.SharedKernel

/-!
# The legacy kernel

`ForthDb` of `lib.rs`, published as `LegacyForthDb`: plain vectors and hash maps, an
index update that removes the old head before the append, and a `validate` that audits
all heads and one index.
-/

namespace ForthDB

structure LegacyDefinitionStore where
  log : List Record
  head : Dict SlotId ℕ
  slotHistory : Dict SlotId (List ℕ)

namespace LegacyDefinitionStore

def default : LegacyDefinitionStore := ⟨[], ∅, ∅⟩

variable (s : LegacyDefinitionStore)

def record (recordId : ℕ) : Except String Record :=
  match s.log[recordId]? with
  | some record => .ok record
  | none => .error "index out of bounds"

/-- The push behind `entry(slot).or_default()`. -/
def pushHistory (slot : SlotId) (recordId : ℕ) : Dict SlotId (List ℕ) :=
  s.slotHistory.insert slot ((s.slotHistory.lookup slot).getD [] ++ [recordId])

def appendDefine (slot : SlotId) (fact : Fact) : (ℕ × Option ℕ) × LegacyDefinitionStore :=
  let previousHead := s.head.lookup slot
  let recordId := s.log.length
  let record : Record :=
    { id := recordId, kind := .define, slot := slot, fact := some fact,
      previousHead := previousHead, resultingHead := some recordId }
  ((recordId, previousHead),
    { log := s.log ++ [record]
      slotHistory := s.pushHistory slot recordId
      head := s.head.insert slot recordId })

def appendForget (slot : SlotId) :
    Except String ((ℕ × Option ℕ × Option ℕ) × LegacyDefinitionStore) := do
  let current := s.head.lookup slot
  let revealed ← match current with
    | some recordId => (s.record recordId).map Record.previousHead
    | none => pure none
  let recordId := s.log.length
  let record : Record :=
    { id := recordId, kind := .forget, slot := slot, fact := none,
      previousHead := current, resultingHead := revealed }
  pure ((recordId, current, revealed),
    { log := s.log ++ [record]
      slotHistory := s.pushHistory slot recordId
      head := match revealed with
        | some revealed => s.head.insert slot revealed
        | none => s.head.erase slot })

def resolveRecord (slot : SlotId) : Except String (Option Record) :=
  match s.head.lookup slot with
  | some recordId => (s.record recordId).map some
  | none => .ok none

def definitions (slot : SlotId) : Except String (List Record) :=
  definitionsFrom s.record s.log.length (s.head.lookup slot)

def history (slot : SlotId) : Except String (List Record) :=
  fetchRecords s.record ((s.slotHistory.lookup slot).getD [])

def activeSlotCount : ℕ := s.head.size

def recordCount : ℕ := s.log.length

/-- The values of `head`. -/
def headValues : List ℕ := s.head.entries.map Sigma.snd

/-- `active_record_ids`. -/
def activeRecordIds : Finset ℕ := s.headValues.toFinset

end LegacyDefinitionStore

/-- Sets of records by key. -/
abbrev LegacyIndex (κ : Type) : Type := Dict κ (Finset ℕ)

namespace LegacyIndex

variable {κ : Type} [DecidableEq κ] (index : LegacyIndex κ)

/-- `insert_index`. -/
def insertIndex (key : κ) (recordId : ℕ) : LegacyIndex κ :=
  AList.insert key (insert recordId ((index.lookup key).getD ∅)) index

/-- `remove_index`. -/
def removeIndex (key : κ) (recordId : ℕ) : LegacyIndex κ :=
  match index.lookup key with
  | some bucket =>
    if bucket.erase recordId = ∅ then index.erase key
    else AList.insert key (bucket.erase recordId) index
  | none => index

end LegacyIndex

structure LegacyCurrentView where
  bySubject : LegacyIndex Atom
  byPredicate : LegacyIndex Predicate
  byObject : LegacyIndex Atom
  bySubjectPredicate : LegacyIndex (Atom × Predicate)
  bySubjectObject : LegacyIndex (Atom × Atom)
  byPredicateObject : LegacyIndex (Predicate × Atom)
  byExact : LegacyIndex Fact

namespace LegacyCurrentView

def default : LegacyCurrentView := ⟨∅, ∅, ∅, ∅, ∅, ∅, ∅⟩

variable (v : LegacyCurrentView) (store : LegacyDefinitionStore)

/-- The fact of a record, or the panic of `expect`. -/
def factOf (recordId : ℕ) (message : String) : Except String Fact := do
  match (← store.record recordId).fact with
  | some fact => pure fact
  | none => .error message

def add (recordId : ℕ) : Except String LegacyCurrentView := do
  let fact ← factOf store recordId "only definitions enter the current view"
  pure {
    bySubject := v.bySubject.insertIndex fact.subject recordId
    byPredicate := v.byPredicate.insertIndex fact.predicate recordId
    byObject := v.byObject.insertIndex fact.object recordId
    bySubjectPredicate := v.bySubjectPredicate.insertIndex (fact.subject, fact.predicate) recordId
    bySubjectObject := v.bySubjectObject.insertIndex (fact.subject, fact.object) recordId
    byPredicateObject := v.byPredicateObject.insertIndex (fact.predicate, fact.object) recordId
    byExact := v.byExact.insertIndex fact recordId }

def remove (recordId : ℕ) : Except String LegacyCurrentView := do
  let fact ← factOf store recordId "current definitions have facts"
  pure {
    bySubject := v.bySubject.removeIndex fact.subject recordId
    byPredicate := v.byPredicate.removeIndex fact.predicate recordId
    byObject := v.byObject.removeIndex fact.object recordId
    bySubjectPredicate := v.bySubjectPredicate.removeIndex (fact.subject, fact.predicate) recordId
    bySubjectObject := v.bySubjectObject.removeIndex (fact.subject, fact.object) recordId
    byPredicateObject := v.byPredicateObject.removeIndex (fact.predicate, fact.object) recordId
    byExact := v.byExact.removeIndex fact recordId }

def candidates (pattern : Pattern) (binding : Binding) : List ℕ :=
  match resolvedAtom pattern.subject binding, resolvedPredicate pattern.predicate binding,
    resolvedAtom pattern.object binding with
  | some subject, some predicate, some object =>
    ((v.byExact.lookup ⟨subject, predicate, object⟩).getD ∅).sort
  | some subject, some predicate, none =>
    ((v.bySubjectPredicate.lookup (subject, predicate)).getD ∅).sort
  | some subject, none, some object => ((v.bySubjectObject.lookup (subject, object)).getD ∅).sort
  | none, some predicate, some object =>
    ((v.byPredicateObject.lookup (predicate, object)).getD ∅).sort
  | some subject, none, none => ((v.bySubject.lookup subject).getD ∅).sort
  | none, some predicate, none => ((v.byPredicate.lookup predicate).getD ∅).sort
  | none, none, some object => ((v.byObject.lookup object).getD ∅).sort
  | none, none, none => store.activeRecordIds.sort

/-- The records of an index. -/
def indexed : Finset ℕ :=
  (v.bySubjectPredicate.entries.flatMap fun entry => entry.2.sort).toFinset

def validate : Except String Unit :=
  if store.activeRecordIds ≠ v.indexed then
    .error "current indexes do not match active slot heads"
  else .ok ()

end LegacyCurrentView

structure LegacyForthDb where
  store : LegacyDefinitionStore
  view : LegacyCurrentView
  nextEntity : ℕ

namespace LegacyForthDb

def new : LegacyForthDb := ⟨.default, .default, 1⟩

variable (k : LegacyForthDb)

def entity : EntityId × LegacyForthDb :=
  (⟨k.nextEntity⟩, { k with nextEntity := k.nextEntity + 1 })

/-- The view without the head of a slot, the first step of `define` and `forget`. -/
def removeHead (slot : SlotId) : Except String LegacyCurrentView :=
  match k.store.head.lookup slot with
  | some oldHead => k.view.remove k.store oldHead
  | none => .ok k.view

def define (slot : SlotId) (fact : Fact) : Except String (ℕ × LegacyForthDb) := do
  let view ← k.removeHead slot
  let ((recordId, _), store) := k.store.appendDefine slot fact
  let view ← view.add store recordId
  pure (recordId, { k with store := store, view := view })

def forget (slot : SlotId) : Except String (ℕ × LegacyForthDb) := do
  let view ← k.removeHead slot
  let ((recordId, _, revealed), store) ← k.store.appendForget slot
  let view ← match revealed with
    | some revealed => view.add store revealed
    | none => pure view
  pure (recordId, { k with store := store, view := view })

def resolve (slot : SlotId) : Except String (Option Fact) :=
  (k.store.resolveRecord slot).map fun record => record.bind Record.fact

def definitions (slot : SlotId) : Except String (List Fact) :=
  (k.store.definitions slot).map fun records => records.filterMap Record.fact

def history (slot : SlotId) : Except String (List Record) := k.store.history slot

def activeSlotCount : ℕ := k.store.activeSlotCount

def recordCount : ℕ := k.store.recordCount

def source : QuerySource ℕ where
  candidateCount pattern binding := (k.view.candidates k.store pattern binding).length
  candidates := k.view.candidates k.store
  visit := visitRecord k.store.record

def query (patterns : List Pattern) (options : QueryOptions) : Except String QueryResult :=
  k.source.query patterns options

/-- The check of all heads in `validate`. -/
def checkHeads (store : LegacyDefinitionStore) : List ℕ → Except String Unit
  | [] => .ok ()
  | recordId :: recordIds => do
    let record ← store.record recordId
    if record.kind ≠ .define ∨ record.fact = none then
      .error "slot heads must be definition records"
    else checkHeads store recordIds

def validate : Except String Unit := do
  checkHeads k.store k.store.headValues
  k.view.validate k.store

end LegacyForthDb

end ForthDB
