import ForthDB.Core.Containers
import ForthDB.Core.Kernel
import ForthDB.Core.Query
import Mathlib.Data.Finset.Sort

/-!
# The shared kernel with its indexes

`ForthDb` of `shared_db_v2.rs` as it is built: the definition store over a chunked log
and two sharded maps, and the seven sharded indexes of `SharedCurrentView`. An `error`
is a panic: an index out of bounds, or an `expect`.
-/

namespace ForthDB

/-- One node of a slot's history, linked to the node before it. -/
inductive SlotHistoryNode
  | mk (recordId : ℕ) (previous : Option SlotHistoryNode)

/-- The loop of `history` before it is reversed. -/
def SlotHistoryNode.ids : SlotHistoryNode → List ℕ
  | .mk recordId none => [recordId]
  | .mk recordId (some previous) => recordId :: previous.ids

/-- The records behind some ids. -/
def fetchRecords (record : ℕ → Except String Record) : List ℕ → Except String (List Record)
  | [] => .ok []
  | recordId :: recordIds => do
    let found ← record recordId
    let rest ← fetchRecords record recordIds
    pure (found :: rest)

/-- The loop of `definitions` along the previous heads. -/
def definitionsFrom (record : ℕ → Except String Record) :
    ℕ → Option ℕ → Except String (List Record)
  | _, none => .ok []
  | 0, some _ => .error "out of fuel"
  | fuel + 1, some current => do
    let found ← record current
    let rest ← definitionsFrom record fuel found.previousHead
    pure (found :: rest)

/-- The body of the loop over the candidates in `walk_query`, on a record of the log. -/
def visitRecord (record : ℕ → Except String Record) (pattern : Pattern) (binding : Binding)
    (recordId : ℕ) : Except String (Option (Binding × SlotId)) := do
  let found ← record recordId
  match found.fact with
  | none => .error "indexed records are definitions"
  | some fact => pure ((unifyPattern pattern fact binding).map fun binding => (binding, found.slot))

structure SharedDefinitionStore where
  log : ChunkedLog Record
  head : ShardedMap SlotId ℕ 4096
  slotHistory : ShardedMap SlotId SlotHistoryNode 1024
  activeSignature : ActiveSignature

namespace SharedDefinitionStore

def default : SharedDefinitionStore := ⟨.default, .default, .default, .zero⟩

variable (s : SharedDefinitionStore)

def record (recordId : ℕ) : Except String Record :=
  match s.log.get recordId with
  | some record => .ok record
  | none => .error "index out of bounds"

def appendSlotHistory (slot : SlotId) (recordId : ℕ) : SharedDefinitionStore :=
  { s with slotHistory := (s.slotHistory.insert slot (.mk recordId (s.slotHistory.get slot))).2 }

def replaceHead (slot : SlotId) (newHead : Option ℕ) : SharedDefinitionStore :=
  let signature := match s.head.get slot with
    | some previous => s.activeSignature.remove previous
    | none => s.activeSignature
  match newHead with
  | some recordId =>
    { s with head := (s.head.insert slot recordId).2, activeSignature := signature.add recordId }
  | none => { s with head := (s.head.remove slot).2, activeSignature := signature }

def appendDefine (slot : SlotId) (fact : Fact) : ℕ × SharedDefinitionStore :=
  let previousHead := s.head.get slot
  let recordId := s.log.len
  let log := (s.log.push {
    id := recordId, kind := .define, slot := slot, fact := some fact,
    previousHead := previousHead, resultingHead := some recordId }).2
  (recordId,
    ({ s with log := log }.appendSlotHistory slot recordId).replaceHead slot (some recordId))

def appendForget (slot : SlotId) : Except String ((ℕ × Option ℕ) × SharedDefinitionStore) := do
  let current := s.head.get slot
  let revealed ← match current with
    | some recordId => (s.record recordId).map Record.previousHead
    | none => pure none
  let recordId := s.log.len
  let log := (s.log.push {
    id := recordId, kind := .forget, slot := slot, fact := none,
    previousHead := current, resultingHead := revealed }).2
  pure ((recordId, revealed),
    ({ s with log := log }.appendSlotHistory slot recordId).replaceHead slot revealed)

def resolveRecord (slot : SlotId) : Except String (Option Record) :=
  match s.head.get slot with
  | some recordId => (s.record recordId).map some
  | none => .ok none

def definitions (slot : SlotId) : Except String (List Record) :=
  definitionsFrom s.record s.log.len (s.head.get slot)

def history (slot : SlotId) : Except String (List Record) :=
  fetchRecords s.record (((s.slotHistory.get slot).map SlotHistoryNode.ids).getD []).reverse

def activeSlotCount : ℕ := s.head.len

def recordCount : ℕ := s.log.len

def validateFast : Except String Unit :=
  if s.head.len ≠ s.activeSignature.count then
    .error "active-head count does not match tracked signature"
  else if s.activeSignature.count > s.log.len then
    .error "active-head count exceeds record count"
  else .ok ()

/-- `active_record_ids`. -/
def activeRecordIds : Finset ℕ := s.head.values.toFinset

/-- The first loop of `validate_full`. -/
def checkHeads : List ℕ → Except String Unit
  | [] => .ok ()
  | recordId :: recordIds => do
    let record ← s.record recordId
    if record.kind ≠ .define ∨ record.fact = none then
      .error "slot heads must be definition records"
    else checkHeads recordIds

def validateFull : Except String Unit := do
  s.checkHeads s.head.values
  if s.head.values.foldl ActiveSignature.add .zero ≠ s.activeSignature then
    .error "active-head signature does not match full audit"
  else .ok ()

end SharedDefinitionStore

/-! ## The indexes -/

/-- `Index`, sets of records by key. -/
abbrev SharedIndex (κ : Type) : Type := ShardedMap κ (Finset ℕ) 4096

namespace SharedIndex

variable {κ : Type} [DecidableEq κ] [HashBytes κ] (index : SharedIndex κ)

/-- `insert_index`. -/
def insertIndex (key : κ) (recordId : ℕ) : SharedIndex κ :=
  match index.get key with
  | some _ => index.modify key fun bucket => insert recordId bucket
  | none => (index.insert key {recordId}).2

/-- `remove_index`. -/
def removeIndex (key : κ) (recordId : ℕ) : SharedIndex κ :=
  match index.get key with
  | some bucket =>
    let index := index.modify key fun bucket => bucket.erase recordId
    if bucket.erase recordId = ∅ then (index.remove key).2 else index
  | none => index

/-- `replace_index`. -/
def replaceIndex (key : κ) (oldRecordId newRecordId : ℕ) : SharedIndex κ :=
  index.modify key fun bucket => insert newRecordId (bucket.erase oldRecordId)

/-- One index in `replace`: the two records may have one key or two. -/
def moveIndex (oldKey newKey : κ) (oldRecordId newRecordId : ℕ) : SharedIndex κ :=
  if oldKey = newKey then index.replaceIndex oldKey oldRecordId newRecordId
  else (index.removeIndex oldKey oldRecordId).insertIndex newKey newRecordId

end SharedIndex

structure SharedCurrentView where
  bySubject : SharedIndex Atom
  byPredicate : SharedIndex Predicate
  byObject : SharedIndex Atom
  bySubjectPredicate : SharedIndex (Atom × Predicate)
  bySubjectObject : SharedIndex (Atom × Atom)
  byPredicateObject : SharedIndex (Predicate × Atom)
  byExact : SharedIndex Fact
  activeSignature : ActiveSignature

namespace SharedCurrentView

def default : SharedCurrentView :=
  ⟨.default, .default, .default, .default, .default, .default, .default, .zero⟩

variable (v : SharedCurrentView) (store : SharedDefinitionStore)

/-- The fact of a record, or the panic of `expect`. -/
def factOf (recordId : ℕ) (message : String) : Except String Fact := do
  match (← store.record recordId).fact with
  | some fact => pure fact
  | none => .error message

def add (recordId : ℕ) : Except String SharedCurrentView := do
  let fact ← factOf store recordId "only definitions enter the current view"
  pure {
    bySubject := v.bySubject.insertIndex fact.subject recordId
    byPredicate := v.byPredicate.insertIndex fact.predicate recordId
    byObject := v.byObject.insertIndex fact.object recordId
    bySubjectPredicate := v.bySubjectPredicate.insertIndex (fact.subject, fact.predicate) recordId
    bySubjectObject := v.bySubjectObject.insertIndex (fact.subject, fact.object) recordId
    byPredicateObject := v.byPredicateObject.insertIndex (fact.predicate, fact.object) recordId
    byExact := v.byExact.insertIndex fact recordId
    activeSignature := v.activeSignature.add recordId }

def remove (recordId : ℕ) : Except String SharedCurrentView := do
  let fact ← factOf store recordId "current definitions have facts"
  pure {
    bySubject := v.bySubject.removeIndex fact.subject recordId
    byPredicate := v.byPredicate.removeIndex fact.predicate recordId
    byObject := v.byObject.removeIndex fact.object recordId
    bySubjectPredicate := v.bySubjectPredicate.removeIndex (fact.subject, fact.predicate) recordId
    bySubjectObject := v.bySubjectObject.removeIndex (fact.subject, fact.object) recordId
    byPredicateObject := v.byPredicateObject.removeIndex (fact.predicate, fact.object) recordId
    byExact := v.byExact.removeIndex fact recordId
    activeSignature := v.activeSignature.remove recordId }

def replace (oldRecordId newRecordId : ℕ) : Except String SharedCurrentView := do
  let oldFact ← factOf store oldRecordId "current definitions have facts"
  let newFact ← factOf store newRecordId "new definitions have facts"
  pure {
    bySubject := v.bySubject.moveIndex oldFact.subject newFact.subject oldRecordId newRecordId
    byPredicate :=
      v.byPredicate.moveIndex oldFact.predicate newFact.predicate oldRecordId newRecordId
    byObject := v.byObject.moveIndex oldFact.object newFact.object oldRecordId newRecordId
    bySubjectPredicate := v.bySubjectPredicate.moveIndex (oldFact.subject, oldFact.predicate)
      (newFact.subject, newFact.predicate) oldRecordId newRecordId
    bySubjectObject := v.bySubjectObject.moveIndex (oldFact.subject, oldFact.object)
      (newFact.subject, newFact.object) oldRecordId newRecordId
    byPredicateObject := v.byPredicateObject.moveIndex (oldFact.predicate, oldFact.object)
      (newFact.predicate, newFact.object) oldRecordId newRecordId
    byExact := v.byExact.moveIndex oldFact newFact oldRecordId newRecordId
    activeSignature := (v.activeSignature.remove oldRecordId).add newRecordId }

def candidates (pattern : Pattern) (binding : Binding) : List ℕ :=
  match resolvedAtom pattern.subject binding, resolvedPredicate pattern.predicate binding,
    resolvedAtom pattern.object binding with
  | some subject, some predicate, some object =>
    ((v.byExact.get ⟨subject, predicate, object⟩).getD ∅).sort
  | some subject, some predicate, none =>
    ((v.bySubjectPredicate.get (subject, predicate)).getD ∅).sort
  | some subject, none, some object => ((v.bySubjectObject.get (subject, object)).getD ∅).sort
  | none, some predicate, some object =>
    ((v.byPredicateObject.get (predicate, object)).getD ∅).sort
  | some subject, none, none => ((v.bySubject.get subject).getD ∅).sort
  | none, some predicate, none => ((v.byPredicate.get predicate).getD ∅).sort
  | none, none, some object => ((v.byObject.get object).getD ∅).sort
  | none, none, none => store.activeRecordIds.sort

def validateFast : Except String Unit :=
  if v.activeSignature ≠ store.activeSignature then
    .error "current indexes do not match active slot signature"
  else .ok ()

/-- The records of an index. -/
def indexed : Finset ℕ := (v.bySubjectPredicate.values.flatMap fun bucket => bucket.sort).toFinset

def validateFull : Except String Unit :=
  if store.activeRecordIds ≠ v.indexed then
    .error "current indexes do not match active slot heads"
  else if v.indexed.sort.foldl ActiveSignature.add .zero ≠ v.activeSignature then
    .error "current-index signature does not match full audit"
  else .ok ()

end SharedCurrentView

/-! ## The kernel -/

structure SharedForthDb where
  store : SharedDefinitionStore
  view : SharedCurrentView
  nextEntity : ℕ

namespace SharedForthDb

def new : SharedForthDb := ⟨.default, .default, 1⟩

variable (k : SharedForthDb)

def entity : EntityId × SharedForthDb :=
  (⟨k.nextEntity⟩, { k with nextEntity := k.nextEntity + 1 })

def define (slot : SlotId) (fact : Fact) : Except String (ℕ × SharedForthDb) := do
  let oldHead := k.store.head.get slot
  let (recordId, store) := k.store.appendDefine slot fact
  let view ← match oldHead with
    | some oldHead => k.view.replace store oldHead recordId
    | none => k.view.add store recordId
  pure (recordId, { k with store := store, view := view })

def forget (slot : SlotId) : Except String (ℕ × SharedForthDb) := do
  let oldHead := k.store.head.get slot
  let ((recordId, revealed), store) ← k.store.appendForget slot
  let view ← match oldHead, revealed with
    | some oldHead, some revealed => k.view.replace store oldHead revealed
    | some oldHead, none => k.view.remove store oldHead
    | none, some revealed => k.view.add store revealed
    | none, none => pure k.view
  pure (recordId, { k with store := store, view := view })

def resolve (slot : SlotId) : Except String (Option Fact) :=
  (k.store.resolveRecord slot).map fun record => record.bind Record.fact

def definitions (slot : SlotId) : Except String (List Fact) :=
  (k.store.definitions slot).map fun records => records.filterMap Record.fact

def history (slot : SlotId) : Except String (List Record) := k.store.history slot

def activeSlotCount : ℕ := k.store.activeSlotCount

def recordCount : ℕ := k.store.recordCount

def source : QuerySource ℕ where
  candidateCount pattern binding := (k.view.candidates k.store pattern binding).length
  candidates := k.view.candidates k.store
  visit := visitRecord k.store.record

def query (patterns : List Pattern) (options : QueryOptions) : Except String QueryResult :=
  k.source.query patterns options

def validate : Except String Unit := do
  k.store.validateFast
  k.view.validateFast k.store

def validateFull : Except String Unit := do
  k.store.validateFull
  k.view.validateFull k.store

end SharedForthDb

end ForthDB
