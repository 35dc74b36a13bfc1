import ForthDB.Core.KernelParity

/-!
# The Python kernel

`ForthDB` of `forthdb_kernel.py`. Its log, heads, histories and indexes are laid out as those of
the legacy kernel; it differs in its errors. A record that enters the view has to be a definition,
and a record that leaves it has to be in every index.

* `PythonForthDb.define`, `PythonForthDb.forget`, `PythonForthDb.resolve`: an `error` is an
  exception.
* `Reaches s k`: `s` and the kernel `k` of `forthdb-core` come from the same operations.
* `Reaches.refines`: **a kernel that has been reached raises none** (`Refines.define`,
  `Refines.forget`), and holds the log, the heads and the allocator of `k`.
-/

namespace ForthDB

/-- `remove` on one index: the key and the record have to be there. -/
def LegacyIndex.removeEntry {κ : Type} [DecidableEq κ] (index : LegacyIndex κ) (key : κ)
    (recordId : ℕ) : Except String (LegacyIndex κ) :=
  match index.lookup key with
  | some bucket =>
    if recordId ∈ bucket then .ok (index.removeIndex key recordId)
    else .error s!"KeyError: {recordId}"
  | none => .error s!"KeyError: {recordId}"

/-- `DefinitionStore.append_forget`. -/
def LegacyDefinitionStore.appendForgetRecord (s : LegacyDefinitionStore) (slot : SlotId) :
    Except String ((Record × Option ℕ) × LegacyDefinitionStore) :=
  let recordId := s.log.length
  match s.head.lookup slot with
  | none =>
    let record : Record :=
      { id := recordId, kind := .forget, slot := slot, fact := none,
        previousHead := none, resultingHead := none }
    .ok ((record, none),
      { s with log := s.log ++ [record], slotHistory := s.pushHistory slot recordId })
  | some current => do
    let revealed := (← s.record current).previousHead
    let record : Record :=
      { id := recordId, kind := .forget, slot := slot, fact := none,
        previousHead := some current, resultingHead := revealed }
    pure ((record, revealed),
      { log := s.log ++ [record]
        slotHistory := s.pushHistory slot recordId
        head := match revealed with
          | some revealed => s.head.insert slot revealed
          | none => s.head.erase slot })

namespace LegacyCurrentView

variable (v : LegacyCurrentView) (store : LegacyDefinitionStore)

/-- `CurrentView.add`. -/
def addRecord (recordId : ℕ) : Except String LegacyCurrentView := do
  let record ← store.record recordId
  if record.kind ≠ .define ∨ record.fact = none then
    .error "Only definition records can enter the current view"
  else v.add store recordId

/-- `CurrentView.remove`. -/
def removeRecord (recordId : ℕ) : Except String LegacyCurrentView := do
  let fact ← factOf store recordId "Record has no fact"
  let bySubject ← v.bySubject.removeEntry fact.subject recordId
  let byPredicate ← v.byPredicate.removeEntry fact.predicate recordId
  let byObject ← v.byObject.removeEntry fact.object recordId
  let bySubjectPredicate ← v.bySubjectPredicate.removeEntry (fact.subject, fact.predicate) recordId
  let bySubjectObject ← v.bySubjectObject.removeEntry (fact.subject, fact.object) recordId
  let byPredicateObject ← v.byPredicateObject.removeEntry (fact.predicate, fact.object) recordId
  let byExact ← v.byExact.removeEntry fact recordId
  pure {
    bySubject := bySubject
    byPredicate := byPredicate
    byObject := byObject
    bySubjectPredicate := bySubjectPredicate
    bySubjectObject := bySubjectObject
    byPredicateObject := byPredicateObject
    byExact := byExact }

end LegacyCurrentView

structure PythonForthDb where
  store : LegacyDefinitionStore
  view : LegacyCurrentView
  nextEntity : ℕ

namespace PythonForthDb

def new : PythonForthDb := ⟨.default, .default, 1⟩

variable (k : PythonForthDb)

def entity : EntityId × PythonForthDb :=
  (⟨k.nextEntity⟩, { k with nextEntity := k.nextEntity + 1 })

/-- The view without the head of a slot. -/
def removeHead (slot : SlotId) : Except String LegacyCurrentView :=
  match k.store.head.lookup slot with
  | some oldHead => k.view.removeRecord k.store oldHead
  | none => .ok k.view

def define (slot : SlotId) (fact : Fact) : Except String (Record × PythonForthDb) := do
  let view ← k.removeHead slot
  let ((recordId, previousHead), store) := k.store.appendDefine slot fact
  let view ← view.addRecord store recordId
  pure ({ id := recordId, kind := .define, slot := slot, fact := some fact,
          previousHead := previousHead, resultingHead := some recordId },
    { k with store := store, view := view })

def forget (slot : SlotId) : Except String (Record × PythonForthDb) := do
  let view ← k.removeHead slot
  let ((record, revealed), store) ← k.store.appendForgetRecord slot
  let view ← match revealed with
    | some revealed => view.addRecord store revealed
    | none => pure view
  pure (record, { k with store := store, view := view })

def resolve (slot : SlotId) : Except String (Option Fact) :=
  (k.store.resolveRecord slot).map fun record => record.bind Record.fact

/-- The same data as a legacy kernel. -/
def asLegacy : LegacyForthDb := ⟨k.store, k.view, k.nextEntity⟩

end PythonForthDb

/-! ## What is in the view can leave it -/

theorem LegacyIndex.removeEntry_eq {κ : Type} [DecidableEq κ] {index : LegacyIndex κ}
    {keyOf : ℕ → Option κ} {active : Finset ℕ} {i : ℕ} {key : κ}
    (h : IndexBy index.lookup keyOf active) (hi : keyOf i = some key) (hactive : i ∈ active) :
    index.removeEntry key i = .ok (index.removeIndex key i) := by
  have hmem : i ∈ bucketOf keyOf active key := mem_bucketOf.2 ⟨hactive, hi⟩
  have hlookup : index.lookup key = some (bucketOf keyOf active key) :=
    (h key).trans (keptBucket_of_mem hmem)
  unfold removeEntry
  simp only [hlookup, if_pos hmem]

namespace LegacyCurrentView

variable {v : LegacyCurrentView} {active : Finset ℕ} {store : LegacyDefinitionStore} {k : ForthDb}
  {i : ℕ} {fact : Fact}

/-- A record in the view leaves it as it leaves the legacy view. -/
theorem removeRecord_eq (h : v.lookups.Exact k.factOf active) (hs : store.log = k.store.log)
    (hi : k.factOf i = some fact) (hactive : i ∈ active) :
    v.removeRecord store i = v.remove store i := by
  have hfact : factOf store i "Record has no fact" = .ok fact := factOf_eq hs hi _
  have hfact' : factOf store i "current definitions have facts" = .ok fact := factOf_eq hs hi _
  unfold removeRecord remove
  rw [hfact, hfact']
  simp only [bind, Except.bind]
  rw [LegacyIndex.removeEntry_eq h.bySubject (by rw [hi]; rfl) hactive,
    LegacyIndex.removeEntry_eq h.byPredicate (by rw [hi]; rfl) hactive,
    LegacyIndex.removeEntry_eq h.byObject (by rw [hi]; rfl) hactive,
    LegacyIndex.removeEntry_eq h.bySubjectPredicate (by rw [hi]; rfl) hactive,
    LegacyIndex.removeEntry_eq h.bySubjectObject (by rw [hi]; rfl) hactive,
    LegacyIndex.removeEntry_eq h.byPredicateObject (by rw [hi]; rfl) hactive,
    LegacyIndex.removeEntry_eq h.byExact hi hactive]

/-- A definition enters the view as it enters the legacy view. -/
theorem addRecord_eq {slot : SlotId} (hs : store.log = k.store.log)
    (hi : IsDefinition k.store.log slot i) : v.addRecord store i = v.add store i := by
  obtain ⟨r, f, hr, hkind, -, hfact⟩ := hi
  have hrecord : store.record i = .ok r := by
    unfold LegacyDefinitionStore.record
    rw [hs, hr]
  unfold addRecord
  rw [hrecord]
  simp only [bind, Except.bind, hkind, hfact, ne_eq, not_true_eq_false, reduceCtorEq, or_self,
    if_false]

end LegacyCurrentView

namespace PythonForthDb

variable {s s' : PythonForthDb} {k : ForthDb}

/-- The Python kernel holds the log, the heads and the allocator of `k`. -/
def Refines (s : PythonForthDb) (k : ForthDb) : Prop := s.asLegacy.Refines k

theorem new_refines : new.Refines .new := LegacyForthDb.new_refines

theorem Refines.entity (h : s.Refines k) :
    s.entity.1 = k.entity.1 ∧ s.entity.2.Refines k.entity.2 := LegacyForthDb.Refines.entity h

theorem removeHead_eq (h : s.Refines k) (hk : k.Sound) (slot : SlotId) :
    s.removeHead slot = s.asLegacy.removeHead slot := by
  unfold removeHead LegacyForthDb.removeHead
  have hhead : s.asLegacy.store.head = k.store.head := h.store.head
  change (match s.asLegacy.store.head.lookup slot with
    | some oldHead => s.view.removeRecord s.store oldHead
    | none => .ok s.view) = _
  rw [hhead]
  cases hold : k.store.head.lookup slot with
  | none => rfl
  | some old =>
    obtain ⟨fact, hfact⟩ := hk.head_fact hold
    exact LegacyCurrentView.removeRecord_eq h.view h.store.log hfact
      (ForthDb.head_mem_active hold)

/-- **A define** raises nothing and appends one record. -/
theorem Refines.define (h : s.Refines k) (hk : k.Sound) (slot : SlotId) (fact : Fact) :
    ∃ r s', s.define slot fact = .ok (r, s') ∧ s'.Refines (k.define slot fact) ∧
      r.kind = .define ∧ r.slot = slot ∧ s'.store.log = s.store.log ++ [r] ∧
      s'.nextEntity = s.nextEntity := by
  have hhead := removeHead_eq h hk slot
  obtain ⟨s', hs', hrefines⟩ := LegacyForthDb.Refines.define h hk slot fact
  have hlast : IsDefinition (k.define slot fact).store.log slot s.store.log.length := by
    have hlog : s.store.log = k.store.log := h.store.log
    rw [ForthDb.define_log, hlog]
    exact ⟨_, fact, List.getElem?_concat_length, rfl, rfl, rfl⟩
  have hstore : (s.store.appendDefine slot fact).2.log = (k.define slot fact).store.log := by
    have hlog : s.store.log = k.store.log := h.store.log
    have hheads : s.store.head = k.store.head := h.store.head
    rw [ForthDb.define_log]
    unfold LegacyDefinitionStore.appendDefine
    simp only [hlog, hheads]
  unfold LegacyForthDb.define at hs'
  unfold PythonForthDb.define
  rw [hhead]
  simp only [bind, Except.bind] at hs' ⊢
  cases hview : s.asLegacy.removeHead slot with
  | error e => rw [hview] at hs'; cases hs'
  | ok view =>
    rw [hview] at hs'
    have hadd : view.addRecord (s.store.appendDefine slot fact).2
        (s.store.appendDefine slot fact).1.1 =
        view.add (s.asLegacy.store.appendDefine slot fact).2
          (s.asLegacy.store.appendDefine slot fact).1.1 :=
      LegacyCurrentView.addRecord_eq hstore hlast
    simp only at hs' ⊢
    rw [hadd]
    cases hview' : view.add (s.asLegacy.store.appendDefine slot fact).2
        (s.asLegacy.store.appendDefine slot fact).1.1 with
    | error e => rw [hview'] at hs'; cases hs'
    | ok view' =>
      rw [hview'] at hs'
      obtain ⟨-, rfl⟩ := Prod.mk.inj (Except.ok.inj hs')
      exact ⟨_, _, rfl, hrefines, rfl, rfl, rfl, rfl⟩

/-- **A forget** raises nothing and appends one record. -/
theorem Refines.forget (h : s.Refines k) (hk : k.Sound) (slot : SlotId) :
    ∃ r s', s.forget slot = .ok (r, s') ∧ s'.Refines (k.forget slot) ∧
      r.kind = .forget ∧ r.slot = slot ∧ s'.store.log = s.store.log ++ [r] ∧
      s'.nextEntity = s.nextEntity := by
  have hhead := removeHead_eq h hk slot
  have hlog : s.store.log = k.store.log := h.store.log
  have hheads : s.store.head = k.store.head := h.store.head
  obtain ⟨s', hs', hrefines⟩ := LegacyForthDb.Refines.forget h hk slot
  unfold LegacyForthDb.forget LegacyDefinitionStore.appendForget at hs'
  unfold PythonForthDb.forget LegacyDefinitionStore.appendForgetRecord
  rw [hhead]
  simp only [bind, Except.bind] at hs' ⊢
  cases hview : s.asLegacy.removeHead slot with
  | error e => rw [hview] at hs'; cases hs'
  | ok view =>
    rw [hview] at hs'
    simp only at hs' ⊢
    rw [show s.asLegacy.store = s.store from rfl] at hs'
    cases hold : s.store.head.lookup slot with
    | none =>
      -- an empty slot keeps its heads
      rw [hold] at hs'
      have herase : s.store.head.erase slot = s.store.head := Dict.erase_absent hold
      simp only [pure, Except.pure, herase] at hs' ⊢
      obtain ⟨-, rfl⟩ := Prod.mk.inj (Except.ok.inj hs')
      exact ⟨_, _, rfl, hrefines, rfl, rfl, rfl, rfl⟩
    | some current =>
      rw [hold] at hs'
      simp only at hs' ⊢
      cases hrecord : s.store.record current with
      | error e => rw [hrecord] at hs'; cases hs'
      | ok r =>
        rw [hrecord] at hs'
        simp only [Except.map, pure, Except.pure] at hs' ⊢
        cases hrev : r.previousHead with
        | none =>
          rw [hrev] at hs'
          obtain ⟨-, rfl⟩ := Prod.mk.inj (Except.ok.inj hs')
          exact ⟨_, _, rfl, hrefines, rfl, rfl, rfl, rfl⟩
        | some revealed =>
          rw [hrev] at hs'
          simp only at hs' ⊢
          -- the revealed head is a definition of the log before the forget
          have hr : k.store.log[current]? = some r := by
            unfold LegacyDefinitionStore.record at hrecord
            rw [hlog] at hrecord
            cases hget : k.store.log[current]? with
            | none => rw [hget] at hrecord; cases hrecord
            | some r' => rw [hget] at hrecord; cases hrecord; rfl
          have hrevealed : k.revealed slot = some revealed := by
            unfold ForthDb.revealed
            rw [← hheads, hold, Option.bind_some, hr, Option.bind_some, hrev]
          obtain ⟨-, -, -, hdef⟩ := hk.revealed_spec hrevealed
          have hafter : (k.forget slot).store.log = s.store.log ++
              [{ id := s.store.log.length, kind := .forget, slot := slot, fact := none,
                 previousHead := some current, resultingHead := some revealed }] := by
            rw [ForthDb.forget_log, hrevealed, ← hheads, hold, ← hlog]
          have hdef' : IsDefinition (k.forget slot).store.log slot revealed := by
            rw [ForthDb.forget_log]
            exact hdef.append _
          rw [LegacyCurrentView.addRecord_eq hafter.symm hdef']
          cases hview' : view.add
              { log := s.store.log ++
                  [{ id := s.store.log.length, kind := .forget, slot := slot, fact := none,
                     previousHead := some current, resultingHead := some revealed }]
                head := s.store.head.insert slot revealed
                slotHistory := s.store.pushHistory slot s.store.log.length } revealed with
          | error e => rw [hview'] at hs'; cases hs'
          | ok view' =>
            rw [hview'] at hs'
            obtain ⟨-, rfl⟩ := Prod.mk.inj (Except.ok.inj hs')
            exact ⟨_, _, rfl, hrefines, rfl, rfl, rfl, rfl⟩

theorem Refines.resolve (h : s.Refines k) (hk : k.Sound) (slot : SlotId) :
    s.resolve slot = .ok (k.resolve slot) := by
  have hobserve := congrArg (fun o => o.resolve slot) (LegacyForthDb.Refines.observe_eq h hk)
  exact hobserve

/-- The Python kernel and the kernel of `forthdb-core` after the same operations. -/
inductive Reaches : PythonForthDb → ForthDb → Prop
  | new : Reaches .new .new
  | entity {s : PythonForthDb} {k : ForthDb} : Reaches s k → Reaches s.entity.2 k.entity.2
  | define {s s' : PythonForthDb} {k : ForthDb} {slot : SlotId} {fact : Fact} {r : Record} :
      Reaches s k → s.define slot fact = .ok (r, s') → Reaches s' (k.define slot fact)
  | forget {s s' : PythonForthDb} {k : ForthDb} {slot : SlotId} {r : Record} :
      Reaches s k → s.forget slot = .ok (r, s') → Reaches s' (k.forget slot)

/-- **Every kernel that has been reached** holds what the kernel of `forthdb-core` holds. -/
theorem Reaches.refines (h : Reaches s k) : s.Refines k ∧ k.Sound := by
  induction h with
  | new => exact ⟨new_refines, ForthDb.new_sound⟩
  | entity _ ih => exact ⟨ih.1.entity.2, ForthDb.entity_sound ih.2⟩
  | @define s s' k slot fact r _ hs' ih =>
    obtain ⟨r', s'', hs'', hrefines, -⟩ := ih.1.define ih.2 slot fact
    rw [hs''] at hs'
    obtain ⟨-, rfl⟩ := Prod.mk.inj (Except.ok.inj hs')
    exact ⟨hrefines, ForthDb.define_sound ih.2 slot fact⟩
  | @forget s s' k slot r _ hs' ih =>
    obtain ⟨r', s'', hs'', hrefines, -⟩ := ih.1.forget ih.2 slot
    rw [hs''] at hs'
    obtain ⟨-, rfl⟩ := Prod.mk.inj (Except.ok.inj hs')
    exact ⟨hrefines, ForthDb.forget_sound ih.2 slot⟩

end PythonForthDb

end ForthDB
