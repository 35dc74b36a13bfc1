import ForthDB.Snapshot.Entries

/-!
# The candidates of a pattern in an opened image

`candidates` and `candidate_count` resolve the bound positions of a pattern to cells through
the string tables of the file, choose one of its three index sections, and halve it twice:
for the key, and for the key with its last component incremented.

* `Pattern.Admits`: a fact agrees with the bound positions of a pattern.
* `Resolved.Selects`: a cell agrees with a resolved position; `resolvedAtomCell_selects`.
* `indexRange_eq`: the range of a key in a sorted section.
* `Captures.candidates_perm`: the candidates are the active records whose cells are selected.
* `candidates_mapped`: the readers of the file enumerate the candidates of the image.
* `mapped_candidates_exact`: **the candidates of a written image that is opened are its active
  records that agree with the pattern**, each once.
-/

namespace ForthDB

open Bytes

/-! ## What a pattern admits -/

/-- An atom agrees with a position: it is its constant, or what its variable is bound to. -/
def Term.Admits (term : Term) (binding : Binding) (atom : Atom) : Prop :=
  match term with
  | .atom constant => atom = constant
  | .var v => ∀ value, binding.get v.name = some value → value = .ofAtom atom

def PredicateTerm.Admits (term : PredicateTerm) (binding : Binding) (predicate : Predicate) : Prop :=
  match term with
  | .predicate constant => predicate = constant
  | .var v => ∀ value, binding.get v.name = some value → value = .predicate predicate

/-- A fact agrees with all bound positions. -/
def Pattern.Admits (pattern : Pattern) (binding : Binding) (fact : Fact) : Prop :=
  pattern.subject.Admits binding fact.subject ∧
    pattern.predicate.Admits binding fact.predicate ∧ pattern.object.Admits binding fact.object

/-- A cell agrees with a resolved position. -/
def Resolved.Selects (position : Resolved) (cell : ℕ) : Prop :=
  match position with
  | .unbound => True
  | .missing => False
  | .value c => cell = c

instance (position : Resolved) : DecidablePred position.Selects := fun cell =>
  match position with
  | .unbound => isTrue trivial
  | .missing => isFalse id
  | .value c => inferInstanceAs (Decidable (cell = c))

/-- A resolved position leaves room for its successor. -/
def Resolved.Bounded (position : Resolved) : Prop := ∀ c, position = .value c → c < cellMax

/-! ## The readers of the file -/

namespace MappedFile

variable (m : MappedFile)

def predicateToken (predicate : Predicate) : Option ℕ :=
  m.predicates.lookup m.mapping predicate.value

def literalToken (literal : Literal) : Option ℕ := m.literals.lookup m.mapping literal.value

def literalValue (token : ℕ) : Option Literal :=
  (m.literals.value m.mapping token).toOption.map Literal.mk

def predicateValue (token : ℕ) : Option Predicate :=
  (m.predicates.value m.mapping token).toOption.map Predicate.mk

def atomValue (cell : ℕ) : Except String Atom :=
  if cell < literalBase then .ok (.entity ⟨cell⟩)
  else match m.literalValue (cell - literalBase) with
    | some literal => .ok (.literal literal)
    | none => .error "mapped literal token is invalid"

def fact (index : ℕ) : Except String Fact :=
  if index < m.retainedRecordCount then do
    let record ← m.record index
    let subject ← m.atomValue record.subject
    let predicate ← match m.predicateValue record.predicate with
      | some predicate => pure predicate
      | none => .error "mapped predicate token is invalid"
    let object ← m.atomValue record.object
    pure ⟨subject, predicate, object⟩
  else .error "mapped fact cache index is out of range"

def atomCellForQuery : Atom → Resolved
  | .entity e => if e.value < literalBase then .value e.value else .missing
  | .literal l =>
    match m.literalToken l with
    | some token => .value (literalBase + token)
    | none => .missing

def resolvedAtomCell (term : Term) (binding : Binding) : Resolved :=
  match term with
  | .atom atom => m.atomCellForQuery atom
  | .var v =>
    match binding.get v.name with
    | some value => (value.asAtom.map m.atomCellForQuery).getD .missing
    | none => .unbound

/-- The cell of a predicate's token. -/
def predicateCellForQuery (predicate : Predicate) : Resolved :=
  match m.predicateToken predicate with
  | some token => .value token
  | none => .missing

def resolvedPredicateCell (term : PredicateTerm) (binding : Binding) : Resolved :=
  match term with
  | .predicate predicate => m.predicateCellForQuery predicate
  | .var v =>
    match binding.get v.name with
    | some value => (value.asPredicate.map m.predicateCellForQuery).getD .missing
    | none => .unbound

def candidateSpec (pattern : Pattern) (binding : Binding) : CandidateSpec :=
  MmapVmSnapshot.specOf (m.resolvedAtomCell pattern.subject binding)
    (m.resolvedPredicateCell pattern.predicate binding)
    (m.resolvedAtomCell pattern.object binding)

/-- The loop of `lower_bound`: an `error` is the panic of `expect`. -/
def lowerBoundFrom (name : IndexSection) (key : List ℕ) (length : ℕ) :
    ℕ → ℕ → ℕ → Except String ℕ
  | 0, low, _ => .ok low
  | fuel + 1, low, high =>
    if low < high then
      let middle := low + (high - low) / 2
      match m.indexEntry name middle with
      | .error e => .error s!"validated index: {e}"
      | .ok entry =>
        if entry.key.take length < key.take length then
          lowerBoundFrom name key length fuel (middle + 1) high
        else lowerBoundFrom name key length fuel low middle
    else .ok low

def lowerBound (name : IndexSection) (key : List ℕ) (length count : ℕ) : Except String ℕ :=
  m.lowerBoundFrom name key length count 0 count

def indexRange (name : IndexSection) (key : List ℕ) (length : ℕ) : Except String (ℕ × ℕ) := do
  let count := m.indexCount name
  let lower ← m.lowerBound name key length count
  if length = 0 then pure (0, count)
  else
    let position := length - 1
    if key.getD position 0 = cellMax then pure (lower, count)
    else
      let upper ← m.lowerBound name (key.set position (key.getD position 0 + 1)) length count
      pure (lower, upper)

def candidateCount (pattern : Pattern) (binding : Binding) : Except String ℕ :=
  match m.candidateSpec pattern binding with
  | .all => .ok m.activeSlotCount
  | .range name key length =>
    (m.indexRange name key length).map fun range => range.2 - range.1
  | .empty => .ok 0

def candidates (pattern : Pattern) (binding : Binding) : Except String (List ℕ) :=
  match m.candidateSpec pattern binding with
  | .all =>
    .ok ((List.range m.activeSlotCount).filterMap fun index => (m.activeRecord index).toOption)
  | .range name key length =>
    (m.indexRange name key length).map fun range =>
      ((List.range' range.1 (range.2 - range.1)).filterMap fun index =>
        (m.indexEntry name index).toOption).map IndexEntry.record
  | .empty => .ok []

/-- A record is the newest of a slot. -/
def Active (index : ℕ) : Prop := ∃ token < m.slots.len, m.head token = .ok (some index)

/-- A record with its slot and its fact. -/
def entry (index : ℕ) : Except String ProjectedFact := do
  let record ← m.record index
  let slot ← m.slots.value m.mapping record.slot
  let fact ← m.fact index
  pure ⟨record.originalId, ⟨slot⟩, fact⟩

end MappedFile

/-! ## The range of a key -/

/-- **The range of a key** in a sorted section: the entries whose keys begin as it does. -/
theorem indexRange_eq {entries : List IndexEntry}
    (hs : entries.Pairwise fun e e' => e.key ≤ e'.key) {key : List ℕ} (hkey : key.length = 3)
    (hbound : ∀ c ∈ key, c < cellMax) {length : ℕ}
    (hlength : length = 1 ∨ length = 2 ∨ length = 3) :
    ∃ start stop, indexRange entries key length = (start, stop) ∧ start ≤ stop ∧
      stop ≤ entries.length ∧
      (entries.drop start).take (stop - start) =
        entries.filter fun e => e.key.take length = key.take length := by
  set next := key.set (length - 1) (key.getD (length - 1) 0 + 1) with hnext
  have hbelow : ∀ e : IndexEntry, decide (e.key.take length < key.take length) = true ↔
      e.key.take length < key.take length := fun e => decide_eq_true_iff
  have hupto : ∀ e : IndexEntry, decide (e.key.take length < next.take length) = true ↔
      e.key.take length ≤ key.take length := fun e => by
    rw [decide_eq_true_iff]
    exact take_lt_succ e.length_key hkey hlength
  obtain ⟨start, stop, hstart, hstop, hle, hlen, hslice⟩ :=
    SortedTable.range_of_key hs length (key.take length) hbelow hupto
  refine ⟨start, stop, ?_, hle, hlen, hslice⟩
  have hlast : key.getD (length - 1) 0 ≠ cellMax := by
    have hlt : length - 1 < key.length := by omega
    rw [List.getD_eq_getElem?_getD, List.getElem?_eq_getElem hlt]
    exact ne_of_lt (hbound _ (List.getElem_mem hlt))
  unfold indexRange lowerBound
  simp only
  rw [if_neg (by omega), if_neg hlast, hstart, ← hnext, hstop]

/-- What the choice of a section says about the cells of a record. -/
theorem specOf_selects {subject predicate object : Resolved} (hsubject : subject.Bounded)
    (hpredicate : predicate.Bounded) (hobject : object.Bounded) :
    match MmapVmSnapshot.specOf subject predicate object with
    | .all => ∀ r : MappedRecord, subject.Selects r.subject ∧ predicate.Selects r.predicate ∧
        object.Selects r.object
    | .empty => ∀ r : MappedRecord, ¬ (subject.Selects r.subject ∧
        predicate.Selects r.predicate ∧ object.Selects r.object)
    | .range name key length => key.length = 3 ∧ (∀ c ∈ key, c < cellMax) ∧
        (length = 1 ∨ length = 2 ∨ length = 3) ∧
        ∀ (r : MappedRecord) (i : ℕ), (name.entryOf r i).key.take length = key.take length ↔
          subject.Selects r.subject ∧ predicate.Selects r.predicate ∧ object.Selects r.object := by
  have hzero : 0 < cellMax := by decide
  cases subject with
  | missing => simp [MmapVmSnapshot.specOf, Resolved.Selects]
  | unbound =>
    cases predicate with
    | missing => simp [MmapVmSnapshot.specOf, Resolved.Selects]
    | unbound =>
      cases object with
      | missing => simp [MmapVmSnapshot.specOf, Resolved.Selects]
      | unbound => simp [MmapVmSnapshot.specOf, Resolved.Selects]
      | value o =>
        have ho := hobject o rfl
        simp [MmapVmSnapshot.specOf, Resolved.Selects, IndexSection.entryOf, IndexEntry.key, ho, hzero]
    | value p =>
      have hp := hpredicate p rfl
      cases object with
      | missing => simp [MmapVmSnapshot.specOf, Resolved.Selects]
      | unbound =>
        simp [MmapVmSnapshot.specOf, Resolved.Selects, IndexSection.entryOf, IndexEntry.key, hp, hzero]
      | value o =>
        have ho := hobject o rfl
        simp [MmapVmSnapshot.specOf, Resolved.Selects, IndexSection.entryOf, IndexEntry.key, hp, ho,
          hzero]
  | value x =>
    have hx := hsubject x rfl
    cases predicate with
    | missing => cases object <;> simp [MmapVmSnapshot.specOf, Resolved.Selects]
    | unbound =>
      cases object with
      | missing => simp [MmapVmSnapshot.specOf, Resolved.Selects]
      | unbound =>
        simp [MmapVmSnapshot.specOf, Resolved.Selects, IndexSection.entryOf, IndexEntry.key, hx, hzero]
      | value o =>
        have ho := hobject o rfl
        simp [MmapVmSnapshot.specOf, Resolved.Selects, IndexSection.entryOf, IndexEntry.key, hx, ho,
          hzero, and_comm]
    | value p =>
      have hp := hpredicate p rfl
      cases object with
      | missing => simp [MmapVmSnapshot.specOf, Resolved.Selects]
      | unbound =>
        simp [MmapVmSnapshot.specOf, Resolved.Selects, IndexSection.entryOf, IndexEntry.key, hx, hp,
          hzero]
      | value o =>
        have ho := hobject o rfl
        simp [MmapVmSnapshot.specOf, Resolved.Selects, IndexSection.entryOf, IndexEntry.key, hx, hp,
          ho]

namespace MmapVmSnapshot

variable {s : MmapVmSnapshot} {journal : List UInt8}

/-! ## Resolved positions -/

/-- **A constant** is resolved to the cell that stands for it, if a table has one. -/
theorem atomCellForQuery_selects (h : s.NamesSorted) {cell : ℕ} {atom : Atom}
    (hatom : s.tables.atom cell = some atom) (constant : Atom) :
    (s.atomCellForQuery constant).Selects cell ↔ atom = constant := by
  unfold ImageNames.atom at hatom
  by_cases hcell : cell < literalBase
  · rw [if_pos hcell, Option.some.injEq] at hatom
    subst hatom
    cases constant with
    | entity e =>
      obtain ⟨n⟩ := e
      unfold atomCellForQuery
      simp only
      split
      · simp [Resolved.Selects]
      · rename_i hge
        simp only [Resolved.Selects, false_iff, Atom.entity.injEq, EntityId.mk.injEq]
        omega
    | literal l =>
      unfold atomCellForQuery
      simp only
      cases hl : s.literalToken l with
      | none => simp [Resolved.Selects]
      | some token =>
        simp only [Resolved.Selects, reduceCtorEq, iff_false]
        omega
  · rw [if_neg hcell] at hatom
    obtain ⟨text, htext, rfl⟩ := Option.map_eq_some_iff.1 hatom
    cases constant with
    | entity e =>
      unfold atomCellForQuery
      simp only
      split
      · simp only [Resolved.Selects, reduceCtorEq, iff_false]
        omega
      · simp [Resolved.Selects]
    | literal l =>
      obtain ⟨value⟩ := l
      unfold atomCellForQuery literalToken
      simp only
      cases hl : SortedTable.lookup s.literals value with
      | none =>
        simp only [Resolved.Selects, false_iff, Atom.literal.injEq, Literal.mk.injEq]
        rintro rfl
        have hfound := (SortedTable.lookup_iff h.literals).2 htext
        rw [hl] at hfound
        cases hfound
      | some token =>
        have htoken := (SortedTable.lookup_iff h.literals).1 hl
        simp only [Resolved.Selects, Atom.literal.injEq, Literal.mk.injEq]
        constructor
        · intro heq
          rw [heq, Nat.add_sub_cancel_left] at htext
          exact Option.some.inj (htext.symm.trans htoken)
        · rintro rfl
          have hposition := SortedTable.position_inj h.literals htext htoken
          omega

theorem predicateCellForQuery_selects (h : s.NamesSorted) {token : ℕ} {predicate : Predicate}
    (hpredicate : s.predicates[token]? = some predicate.value) (constant : Predicate) :
    (s.predicateCellForQuery constant).Selects token ↔ predicate = constant := by
  obtain ⟨name⟩ := predicate
  obtain ⟨value⟩ := constant
  unfold predicateCellForQuery MmapVmSnapshot.predicateToken
  simp only at hpredicate ⊢
  cases hl : SortedTable.lookup s.predicates value with
  | none =>
    simp only [Resolved.Selects, false_iff, Predicate.mk.injEq]
    rintro rfl
    have hfound := (SortedTable.lookup_iff h.predicates).2 hpredicate
    rw [hl] at hfound
    cases hfound
  | some t =>
    have htoken := (SortedTable.lookup_iff h.predicates).1 hl
    simp only [Resolved.Selects, Predicate.mk.injEq]
    constructor
    · rintro rfl
      exact Option.some.inj (hpredicate.symm.trans htoken)
    · rintro rfl
      exact SortedTable.position_inj h.predicates hpredicate htoken

/-- **A position** selects the cells whose atoms it admits. -/
theorem resolvedAtomCell_selects (h : s.NamesSorted) {cell : ℕ} {atom : Atom}
    (hatom : s.tables.atom cell = some atom) (term : Term) (binding : Binding) :
    (s.resolvedAtomCell term binding).Selects cell ↔ term.Admits binding atom := by
  cases term with
  | atom constant => exact atomCellForQuery_selects h hatom constant
  | var v =>
    unfold resolvedAtomCell Term.Admits
    cases hb : binding.get v.name with
    | none => simp [hb, Resolved.Selects]
    | some value =>
      simp only [hb, Option.some.injEq, forall_eq']
      cases value with
      | entity e =>
        simp only [BoundValue.asAtom, Option.map_some, Option.getD_some]
        rw [atomCellForQuery_selects h hatom]
        cases atom <;> simp [BoundValue.ofAtom, eq_comm]
      | literal l =>
        simp only [BoundValue.asAtom, Option.map_some, Option.getD_some]
        rw [atomCellForQuery_selects h hatom]
        cases atom <;> simp [BoundValue.ofAtom, eq_comm]
      | predicate p =>
        cases atom <;> simp [BoundValue.asAtom, BoundValue.ofAtom, Resolved.Selects]

theorem resolvedPredicateCell_selects (h : s.NamesSorted) {token : ℕ} {predicate : Predicate}
    (hpredicate : s.predicates[token]? = some predicate.value) (term : PredicateTerm)
    (binding : Binding) :
    (s.resolvedPredicateCell term binding).Selects token ↔ term.Admits binding predicate := by
  cases term with
  | predicate constant => exact predicateCellForQuery_selects h hpredicate constant
  | var v =>
    unfold resolvedPredicateCell PredicateTerm.Admits
    cases hb : binding.get v.name with
    | none => simp [hb, Resolved.Selects]
    | some value =>
      simp only [hb, Option.some.injEq, forall_eq']
      cases value with
      | entity e => simp [BoundValue.asPredicate, Resolved.Selects]
      | literal l => simp [BoundValue.asPredicate, Resolved.Selects]
      | predicate p =>
        simp only [BoundValue.asPredicate, Option.map_some, Option.getD_some]
        rw [predicateCellForQuery_selects h hpredicate]
        simp [eq_comm]

theorem atomCellForQuery_bounded (hliterals : s.literals.length < 2 ^ 32) (atom : Atom) :
    (s.atomCellForQuery atom).Bounded := by
  have hbase : literalBase = 2 ^ 63 := rfl
  have hmax : cellMax = 2 ^ 64 - 1 := rfl
  intro c hc
  cases atom with
  | entity e =>
    simp only [atomCellForQuery] at hc
    split at hc
    · cases hc
      omega
    · cases hc
  | literal l =>
    simp only [atomCellForQuery] at hc
    split at hc
    · rename_i token ht
      cases hc
      have hlt := (List.getElem?_eq_some_iff.1 (SortedTable.lookup_sound ht)).1
      omega
    · cases hc

theorem resolvedAtomCell_bounded (hliterals : s.literals.length < 2 ^ 32) (term : Term)
    (binding : Binding) : (s.resolvedAtomCell term binding).Bounded := by
  cases term with
  | atom atom => exact atomCellForQuery_bounded hliterals atom
  | var v =>
    unfold resolvedAtomCell
    cases hb : binding.get v.name with
    | none => simp [hb, Resolved.Bounded]
    | some value =>
      simp only [hb]
      cases value.asAtom with
      | none => simp [Resolved.Bounded]
      | some atom => exact atomCellForQuery_bounded hliterals atom

theorem predicateCellForQuery_bounded (hpredicates : s.predicates.length < 2 ^ 32)
    (predicate : Predicate) : (s.predicateCellForQuery predicate).Bounded := by
  have hmax : cellMax = 2 ^ 64 - 1 := rfl
  intro c hc
  unfold predicateCellForQuery at hc
  split at hc
  · rename_i token ht
    cases hc
    have hlt := (List.getElem?_eq_some_iff.1 (SortedTable.lookup_sound ht)).1
    omega
  · cases hc

theorem resolvedPredicateCell_bounded (hpredicates : s.predicates.length < 2 ^ 32)
    (term : PredicateTerm) (binding : Binding) :
    (s.resolvedPredicateCell term binding).Bounded := by
  cases term with
  | predicate predicate => exact predicateCellForQuery_bounded hpredicates predicate
  | var v =>
    unfold resolvedPredicateCell
    cases hb : binding.get v.name with
    | none => simp [hb, Resolved.Bounded]
    | some value =>
      simp only [hb]
      cases value.asPredicate with
      | none => simp [Resolved.Bounded]
      | some predicate => exact predicateCellForQuery_bounded hpredicates predicate

/-! ## The candidates of an image -/

/-- The cells of a record are selected by the positions of a pattern. -/
def Matches (s : MmapVmSnapshot) (pattern : Pattern) (binding : Binding) (r : MappedRecord) : Prop :=
  (s.resolvedAtomCell pattern.subject binding).Selects r.subject ∧
    (s.resolvedPredicateCell pattern.predicate binding).Selects r.predicate ∧
    (s.resolvedAtomCell pattern.object binding).Selects r.object

instance (s : MmapVmSnapshot) (pattern : Pattern) (binding : Binding) :
    DecidablePred (s.Matches pattern binding) :=
  fun _ => inferInstanceAs (Decidable (_ ∧ _ ∧ _))

/-- The active records whose cells are selected. -/
def matching (s : MmapVmSnapshot) (pattern : Pattern) (binding : Binding) : List ℕ :=
  s.active.filter fun i => s.records[i]?.any fun r => decide (s.Matches pattern binding r)

/-- The records of some entries of an index section. -/
theorem filter_indexSection {records : List MappedRecord} {active : List ℕ}
    (hactive : ∀ i ∈ active, ∃ r, records[i]? = some r) (name : IndexSection)
    {test : IndexEntry → Bool} {wanted : MappedRecord → Bool}
    (htest : ∀ r i, test (name.entryOf r i) = wanted r) :
    (((indexSection records active name.entryOf).filter test).map IndexEntry.record).Perm
      (active.filter fun i => records[i]?.any wanted) := by
  have hperm := List.perm_insertionSort (IndexEntry.Before records)
    (active.filterMap fun i => records[i]?.map fun r => name.entryOf r i)
  refine ((hperm.filter test).map IndexEntry.record).trans (.of_eq ?_)
  clear hperm
  have hrecord : ∀ r i, (name.entryOf r i).record = i := by
    intro r i
    cases name <;> rfl
  induction active with
  | nil => rfl
  | cons i active ih =>
    obtain ⟨r, hr⟩ := hactive i (by simp)
    have ih := ih fun j hj => hactive j (List.mem_cons_of_mem _ hj)
    rw [List.filterMap_cons, hr]
    simp only [Option.map_some]
    by_cases hw : wanted r = true
    · rw [List.filter_cons_of_pos (by rw [htest]; exact hw), List.map_cons, hrecord,
        List.filter_cons_of_pos (by rw [hr]; exact hw), ih]
    · rw [List.filter_cons_of_neg (by rw [htest]; exact hw),
        List.filter_cons_of_neg (by rw [hr]; exact hw), ih]

/-- **The candidates of a sound image** are its matching records, and `candidate_count` counts
them. -/
theorem Captures.candidates_perm {m : VmQueryProjection.EntryStacks} (h : s.Captures m)
    (hsound : s.Sound journal) (pattern : Pattern) (binding : Binding) :
    (s.candidates pattern binding).Perm (s.matching pattern binding) ∧
      s.candidateCount pattern binding = (s.candidates pattern binding).length := by
  have hliterals := (hsound.table_lt .literals rfl).1
  have hpredicates := (hsound.table_lt .predicates rfl).1
  have hspec := specOf_selects (resolvedAtomCell_bounded hliterals pattern.subject binding)
    (resolvedPredicateCell_bounded hpredicates pattern.predicate binding)
    (resolvedAtomCell_bounded hliterals pattern.object binding)
  unfold candidates candidateCount candidateSpec
  cases hs : specOf (s.resolvedAtomCell pattern.subject binding)
      (s.resolvedPredicateCell pattern.predicate binding)
      (s.resolvedAtomCell pattern.object binding) with
  | all =>
    rw [hs] at hspec
    simp only
    rw [hsound.active_length, SortedTable.filterMap_range]
    refine ⟨.of_eq (Eq.symm ?_), rfl⟩
    refine List.filter_eq_self.2 fun i hi => ?_
    obtain ⟨r, hr⟩ := h.active_record hi
    rw [hr, Option.any_some, decide_eq_true_iff]
    exact hspec r
  | empty =>
    rw [hs] at hspec
    simp only
    refine ⟨.of_eq (Eq.symm ?_), rfl⟩
    refine List.filter_eq_nil_iff.2 fun i hi => ?_
    obtain ⟨r, hr⟩ := h.active_record hi
    rw [hr, Option.any_some, decide_eq_true_iff]
    exact hspec r
  | range name key length =>
    rw [hs] at hspec
    obtain ⟨hkey, hbound, hlength, hselects⟩ := hspec
    obtain ⟨start, stop, hrange, hle, hstop, hslice⟩ :=
      indexRange_eq (hsound.index_sorted name) hkey hbound hlength
    simp only [hrange]
    rw [SortedTable.filterMap_range']
    constructor
    · rw [hslice, h.index]
      refine filter_indexSection (fun i hi => h.active_record hi) name fun r i => ?_
      rw [decide_eq_decide]
      exact hselects r i
    · rw [List.length_map, List.length_take, List.length_drop]
      omega

/-! ## The candidates of the file -/

theorem Sound.literalToken_mapped (h : s.Sound journal) (literal : Literal) :
    (s.mapped journal).literalToken literal = s.literalToken literal :=
  h.literals_holds.lookup_eq literal.value

theorem Sound.predicateToken_mapped (h : s.Sound journal) (predicate : Predicate) :
    (s.mapped journal).predicateToken predicate = s.predicateToken predicate :=
  h.predicates_holds.lookup_eq predicate.value

theorem Sound.candidateSpec_mapped (h : s.Sound journal) (pattern : Pattern) (binding : Binding) :
    (s.mapped journal).candidateSpec pattern binding = s.candidateSpec pattern binding := by
  have hatom : (s.mapped journal).atomCellForQuery = s.atomCellForQuery := by
    funext atom
    cases atom with
    | entity e => rfl
    | literal l =>
      cases ht : s.literalToken l <;>
        simp only [MappedFile.atomCellForQuery, atomCellForQuery, h.literalToken_mapped, ht]
  have hpredicate : (s.mapped journal).predicateCellForQuery = s.predicateCellForQuery := by
    funext predicate
    cases ht : s.predicateToken predicate <;>
      simp only [MappedFile.predicateCellForQuery, predicateCellForQuery, h.predicateToken_mapped, ht]
  have hterm : ∀ term, (s.mapped journal).resolvedAtomCell term binding =
      s.resolvedAtomCell term binding := by
    intro term
    cases term with
    | atom atom => exact congrFun hatom atom
    | var v =>
      cases hv : binding.get v.name <;>
        simp only [MappedFile.resolvedAtomCell, resolvedAtomCell, hv, hatom]
  have hpredicateTerm : (s.mapped journal).resolvedPredicateCell pattern.predicate binding =
      s.resolvedPredicateCell pattern.predicate binding := by
    cases pattern.predicate with
    | predicate predicate => exact congrFun hpredicate predicate
    | var v =>
      cases hv : binding.get v.name <;>
        simp only [MappedFile.resolvedPredicateCell, resolvedPredicateCell, hv, hpredicate]
  unfold MappedFile.candidateSpec candidateSpec
  rw [hterm, hterm, hpredicateTerm]

/-- The halving loop reads the section as the list. -/
theorem Sound.lowerBoundFrom_mapped (h : s.Sound journal) (name : IndexSection) (key : List ℕ)
    (length : ℕ) {fuel low high : ℕ} (hhigh : high ≤ (s.indexEntries name).length) :
    (s.mapped journal).lowerBoundFrom name key length fuel low high =
      .ok (SortedTable.partitionPoint (fun e => decide (e.key.take length < key.take length))
        (s.indexEntries name) fuel low high) := by
  induction fuel generalizing low high with
  | zero => rfl
  | succ fuel ih =>
    unfold MappedFile.lowerBoundFrom SortedTable.partitionPoint
    by_cases hlt : low < high
    · rw [if_pos hlt, if_pos hlt]
      have hmiddle : low + (high - low) / 2 < (s.indexEntries name).length := by omega
      have hget := List.getElem?_eq_getElem hmiddle
      simp only [h.indexEntry_eq name hget, hget, Option.any_some, decide_eq_true_eq]
      split
      · exact ih hhigh
      · exact ih (by omega)
    · rw [if_neg hlt, if_neg hlt]

theorem Sound.indexRange_mapped (h : s.Sound journal) (name : IndexSection) (key : List ℕ)
    (length : ℕ) : (s.mapped journal).indexRange name key length =
      .ok (ForthDB.indexRange (s.indexEntries name) key length) := by
  unfold MappedFile.indexRange MappedFile.lowerBound ForthDB.indexRange ForthDB.lowerBound
  simp only [indexCount_mapped, h.lowerBoundFrom_mapped name _ _ le_rfl, bind, Except.bind, pure,
    Except.pure]
  split
  · rfl
  · split <;> rfl

/-- **The readers of the file** count and enumerate the candidates of the image. -/
theorem Captures.candidates_mapped {m : VmQueryProjection.EntryStacks} (hm : s.Captures m)
    (h : s.Sound journal) (pattern : Pattern) (binding : Binding) :
    (s.mapped journal).candidates pattern binding = .ok (s.candidates pattern binding) ∧
      (s.mapped journal).candidateCount pattern binding = .ok (s.candidateCount pattern binding) := by
  unfold MappedFile.candidates MappedFile.candidateCount candidates candidateCount
  rw [h.candidateSpec_mapped]
  cases hs : s.candidateSpec pattern binding with
  | all =>
    refine ⟨congrArg Except.ok (List.filterMap_congr fun k hk => ?_), rfl⟩
    have hlt : k < s.active.length := by
      rw [← h.active_length]
      exact List.mem_range.1 hk
    rw [List.getElem?_eq_getElem hlt, h.activeRecord_eq (List.getElem?_eq_getElem hlt)]
    rfl
  | empty => exact ⟨rfl, rfl⟩
  | range name key length =>
    simp only
    rw [h.indexRange_mapped]
    refine ⟨congrArg (fun l => Except.ok (List.map IndexEntry.record l)) ?_, rfl⟩
    refine List.filterMap_congr fun k hk => ?_
    -- the positions of a range lie within the section
    have hlt : k < (s.indexEntries name).length := by
      have hliterals := (h.table_lt .literals rfl).1
      have hpredicates := (h.table_lt .predicates rfl).1
      have hspec := specOf_selects (resolvedAtomCell_bounded hliterals pattern.subject binding)
        (resolvedPredicateCell_bounded hpredicates pattern.predicate binding)
        (resolvedAtomCell_bounded hliterals pattern.object binding)
      unfold candidateSpec at hs
      rw [hs] at hspec
      obtain ⟨hkey, hbound, hlength, -⟩ := hspec
      obtain ⟨start, stop, hrange, hle, hstop, -⟩ :=
        indexRange_eq (h.index_sorted name) hkey hbound hlength
      rw [hrange, List.mem_range'_1] at hk
      simp only at hk
      omega
    rw [List.getElem?_eq_getElem hlt, h.indexEntry_eq name (List.getElem?_eq_getElem hlt)]
    rfl

theorem toOption_eq_some {α : Type} {x : Except String α} {a : α} : x.toOption = some a ↔ x = .ok a := by
  cases x <;> simp [Except.toOption]

theorem Sound.atomValue_mapped (h : s.Sound journal) {cell : ℕ} {atom : Atom} :
    (s.mapped journal).atomValue cell = .ok atom ↔ s.tables.atom cell = some atom := by
  unfold MappedFile.atomValue MappedFile.literalValue ImageNames.atom
  split
  · simp
  · have hvalue : ((s.mapped journal).literals.value (s.mapped journal).mapping
        (cell - literalBase)).toOption = s.literals[cell - literalBase]? := by
      ext text
      rw [toOption_eq_some, h.literals_holds.value]
    rw [hvalue]
    show _ ↔ s.literals[cell - literalBase]?.map _ = some atom
    cases s.literals[cell - literalBase]? with
    | none => simp
    | some text => simp

/-- **The fact of a record** is read through the tables. -/
theorem Sound.fact_mapped (h : s.Sound journal) {i : ℕ} {f : Fact} :
    (s.mapped journal).fact i = .ok f ↔ ∃ r, s.records[i]? = some r ∧
      s.tables.fact r.subject r.predicate r.object = some f := by
  unfold MappedFile.fact
  rw [retainedRecordCount_mapped]
  by_cases hi : i < s.records.length
  · rw [if_pos hi, h.record_eq (List.getElem?_eq_getElem hi), List.getElem?_eq_getElem hi]
    have hpredicate : (s.mapped journal).predicateValue s.records[i].predicate =
        s.predicates[s.records[i].predicate]?.map Predicate.mk := by
      unfold MappedFile.predicateValue
      congr 1
      ext text
      rw [toOption_eq_some, h.predicates_holds.value]
    constructor
    · intro hf
      simp only [bind, Except.bind, hpredicate] at hf
      split at hf
      · cases hf
      rename_i subject hsubject
      cases hp : s.predicates[s.records[i].predicate]? with
      | none => simp only [hp, Option.map_none] at hf; cases hf
      | some predicate =>
        simp only [hp, Option.map_some, pure, Except.pure] at hf
        split at hf
        · cases hf
        rename_i object hobject
        obtain rfl := Except.ok.inj hf
        refine ⟨_, rfl, ?_⟩
        unfold ImageNames.fact
        rw [h.atomValue_mapped.1 hsubject, h.atomValue_mapped.1 hobject,
          show s.tables.predicates[s.records[i].predicate]? = some predicate from hp]
        rfl
    · rintro ⟨r, hr, hf⟩
      cases hr
      obtain ⟨hsubject, hp, hobject⟩ := ImageNames.fact_some hf
      have hp : s.predicates[s.records[i].predicate]? = some f.predicate.value := hp
      simp only [bind, Except.bind, h.atomValue_mapped.2 hsubject, h.atomValue_mapped.2 hobject,
        hpredicate, hp, Option.map_some, pure, Except.pure]
  · rw [if_neg hi, List.getElem?_eq_none (not_lt.1 hi)]
    simp

/-- **The entry of a record**, as the readers of the file see it. -/
theorem Sound.entry_mapped (h : s.Sound journal) {i : ℕ} {e : ProjectedFact} :
    (s.mapped journal).entry i = .ok e ↔ ∃ r, s.records[i]? = some r ∧ s.tables.entry r = some e := by
  unfold MappedFile.entry
  by_cases hi : i < s.records.length
  · have hget := List.getElem?_eq_getElem hi
    rw [h.record_eq hget, hget]
    constructor
    · intro he
      simp only [bind, Except.bind, pure, Except.pure] at he
      split at he
      · cases he
      rename_i slot hslot
      split at he
      · cases he
      rename_i fact hfact
      obtain rfl := Except.ok.inj he
      obtain ⟨r, hr, hf⟩ := h.fact_mapped.1 hfact
      rw [hget, Option.some.injEq] at hr
      subst hr
      have hslot := (h.slots_holds.value _ _).1 hslot
      refine ⟨_, rfl, ?_⟩
      unfold ImageNames.entry
      rw [hf, show s.tables.slots[s.records[i].slot]? = some slot from hslot]
      rfl
    · rintro ⟨r, hr, he⟩
      cases hr
      obtain ⟨hid, hslot, hf⟩ := ImageNames.entry_some he
      have hslot := (h.slots_holds.value _ _).2 hslot
      have hfact := h.fact_mapped.2 ⟨_, hget, hf⟩
      simp only [bind, Except.bind, hslot, hfact, pure, Except.pure, ← hid]
  · constructor
    · intro he
      have hfact : (s.mapped journal).fact i = .error "mapped fact cache index is out of range" := by
        unfold MappedFile.fact
        rw [retainedRecordCount_mapped, if_neg hi]
      rw [hfact] at he
      simp only [bind, Except.bind] at he
      split at he
      · cases he
      split at he
      · cases he
      · cases he
    · rintro ⟨r, hr, -⟩
      exact absurd (List.getElem?_eq_some_iff.1 hr).1 hi

theorem Captures.active_mapped {m : VmQueryProjection.EntryStacks} (hm : s.Captures m)
    (h : s.Sound journal) {i : ℕ} : (s.mapped journal).Active i ↔ i ∈ s.active := by
  rw [hm.mem_active]
  unfold MappedFile.Active
  rw [h.slots_holds.len, ← h.heads_length]
  constructor
  · rintro ⟨t, ht, hhead⟩
    have hget := List.getElem?_eq_getElem ht
    rw [h.head_eq hget] at hhead
    exact ⟨t, by rw [hget]; exact congrArg some (Except.ok.inj hhead)⟩
  · rintro ⟨t, ht⟩
    exact ⟨t, (List.getElem?_eq_some_iff.1 ht).1, h.head_eq ht⟩

/-- **The active records are the active entries** of the projection, one record for each. -/
theorem Captures.active_entries {m : VmQueryProjection.EntryStacks} (hm : s.Captures m) {k : ℕ}
    (hfiled : VmQueryProjection.Filed m k) (h : s.Sound journal) {p : VmQueryProjection}
    (hl : VmQueryProjection.Lists p.definitions m) :
    (∀ i, (s.mapped journal).Active i → ∃ e ∈ p.active, (s.mapped journal).entry i = .ok e) ∧
      ∀ e ∈ p.active, ∃! i, (s.mapped journal).Active i ∧ (s.mapped journal).entry i = .ok e := by
  constructor
  · intro i hi
    obtain ⟨t, ht⟩ := hm.mem_active.1 ((hm.active_mapped h).1 hi)
    obtain ⟨r, slot, e, hr, -, -, htop, hentry⟩ := hm.head_entry ht
    exact ⟨e, (VmQueryProjection.mem_active_iff hl).2 ⟨⟨slot⟩, htop⟩,
      h.entry_mapped.2 ⟨r, hr, hentry⟩⟩
  · intro e he
    obtain ⟨slot, htop⟩ := (VmQueryProjection.mem_active_iff hl).1 he
    -- the head of the slot carries the newest entry
    have hchain := hm.linked.top_eq slot
    rw [htop] at hchain
    obtain ⟨i, hi, hnode⟩ := Option.bind_eq_some_iff.1 hchain.symm
    obtain ⟨⟨e', previous⟩, hvalue, rfl⟩ := Option.map_eq_some_iff.1 hnode
    obtain ⟨r, hr, hmap⟩ := Option.bind_eq_some_iff.1 hvalue
    obtain ⟨e'', hentry, hpair⟩ := Option.map_eq_some_iff.1 hmap
    obtain ⟨rfl, -⟩ := Prod.mk.inj hpair
    obtain ⟨t, -, hjoin⟩ := Option.bind_eq_some_iff.1 hi
    have hactive : i ∈ s.active := hm.mem_active.2 ⟨t, Option.join_eq_some_iff.1 hjoin⟩
    refine ⟨i, ⟨(hm.active_mapped h).2 hactive, h.entry_mapped.2 ⟨r, hr, hentry⟩⟩, ?_⟩
    -- another head with the entry is the head of the entry's slot
    rintro j ⟨hj, hje⟩
    obtain ⟨t', ht'⟩ := hm.mem_active.1 ((hm.active_mapped h).1 hj)
    obtain ⟨r', slot', e', hr', -, hhead, htop', hentry'⟩ := hm.head_entry ht'
    obtain ⟨q, hq, hqe⟩ := h.entry_mapped.1 hje
    rw [hr', Option.some.injEq] at hq
    subst hq
    rw [hentry', Option.some.injEq] at hqe
    subst hqe
    have hown := (hfiled slot e' (List.mem_of_mem_head? htop)).1
    have hown' := (hfiled ⟨slot'⟩ e' (List.mem_of_mem_head? htop')).1
    rw [← hown', hown, hi] at hhead
    exact (Option.some.inj hhead).symm

end MmapVmSnapshot

/-! ## The search of an opened image -/

/-- **Mapped candidate search is exact.** For every image that was written of a world and is
opened: its active records carry the active entries of the world's query view, one record for
each; for every pattern and binding, the candidates are the active records whose facts agree
with all bound positions, each once, and `candidate_count` is their number; and in each string
table `lookup` finds exactly the stored texts, at the indexes where `value` reads them. -/
theorem mapped_candidates_exact {w : World} {p : VmQueryProjection} {journal current : List UInt8}
    {n : ℕ} {s : MmapVmSnapshot} {m : MappedFile} (hw : w.InRange) (hn : n < 2 ^ 64)
    (hjournal : journal.length < 2 ^ 64) (hp : w.vmQuery = .ok p)
    (hs : MmapVmSnapshot.create journal n w p = .ok s)
    (hm : MappedFile.openImage (s.toFile journal) current = .ok m) :
    ((∀ i, m.Active i → ∃ e ∈ p.active, m.entry i = .ok e) ∧
      ∀ e ∈ p.active, ∃! i, m.Active i ∧ m.entry i = .ok e) ∧
    (∀ pattern binding, ∃ records, m.candidates pattern binding = .ok records ∧ records.Nodup ∧
      m.candidateCount pattern binding = .ok records.length ∧
      ∀ i, i ∈ records ↔
        m.Active i ∧ ∃ fact, m.fact i = .ok fact ∧ pattern.Admits binding fact) ∧
    ∀ t values, (t, values) ∈ [(m.slots, p.names.slots), (m.predicates, p.names.predicates),
        (m.literals, p.names.literals)] →
      (∀ text i, t.lookup m.mapping text = some i ↔ t.value m.mapping i = .ok text) ∧
      ∀ text, (∃ i, t.lookup m.mapping text = some i) ↔ text ∈ values := by
  obtain ⟨hformed, entries, k, hl, hfiled, hcaptures⟩ :=
    MmapVmSnapshot.create_formed hs hp hw hn hjournal
  obtain ⟨hsound, rfl⟩ := hformed.opened hm
  have htables : s.tables = p.names := by
    obtain ⟨-, -, records, heads, frames, history, -, -, -, hparts⟩ := MmapVmSnapshot.create_ok hs
    rw [hparts]
    rfl
  refine ⟨hcaptures.active_entries hfiled hsound hl, ?_, ?_⟩
  · intro pattern binding
    obtain ⟨hcandidates, hcount⟩ := hcaptures.candidates_mapped hsound pattern binding
    obtain ⟨hperm, hlength⟩ := hcaptures.candidates_perm hsound pattern binding
    refine ⟨_, hcandidates, ?_, by rw [hcount, hlength], ?_⟩
    · exact hperm.nodup_iff.2 ((hcaptures.active_nodup hfiled).filter _)
    · intro i
      rw [hperm.mem_iff, hcaptures.active_mapped hsound]
      unfold MmapVmSnapshot.matching
      rw [List.mem_filter]
      apply and_congr_right
      intro hi
      obtain ⟨r, hr⟩ := hcaptures.active_record hi
      obtain ⟨slot, e, -, hentry⟩ := hcaptures.made r (List.mem_of_getElem? hr)
      obtain ⟨-, -, hfact⟩ := ImageNames.entry_some hentry
      obtain ⟨hsubject, hpredicate, hobject⟩ := ImageNames.fact_some hfact
      have hmatches : s.Matches pattern binding r ↔ pattern.Admits binding e.fact := by
        unfold MmapVmSnapshot.Matches Pattern.Admits
        rw [MmapVmSnapshot.resolvedAtomCell_selects hsound.names hsubject,
          MmapVmSnapshot.resolvedPredicateCell_selects hsound.names hpredicate,
          MmapVmSnapshot.resolvedAtomCell_selects hsound.names hobject]
      rw [hr, Option.any_some, decide_eq_true_iff, hmatches]
      constructor
      · exact fun hadmits => ⟨e.fact, hsound.fact_mapped.2 ⟨r, hr, hfact⟩, hadmits⟩
      · rintro ⟨fact, hread, hadmits⟩
        obtain ⟨q, hq, hqf⟩ := hsound.fact_mapped.1 hread
        rw [hr, Option.some.injEq] at hq
        subst hq
        rw [hfact, Option.some.injEq] at hqf
        rw [hqf]
        exact hadmits
  · have hone : ∀ (t : StringTable) (values : List String), t.Holds (s.mapped journal).mapping values →
        (∀ text i, t.lookup (s.mapped journal).mapping text = some i ↔
          t.value (s.mapped journal).mapping i = .ok text) ∧
        ∀ text, (∃ i, t.lookup (s.mapped journal).mapping text = some i) ↔ text ∈ values := by
      intro t values hholds
      refine ⟨fun text i => hholds.lookup_iff, fun text => ?_⟩
      simp only [hholds.lookup_iff, hholds.value]
      exact List.mem_iff_getElem?.symm
    intro t values hmem
    rw [← htables] at hmem
    simp only [List.mem_cons, Prod.mk.injEq, List.not_mem_nil, or_false] at hmem
    rcases hmem with ⟨rfl, rfl⟩ | ⟨rfl, rfl⟩ | ⟨rfl, rfl⟩
    · exact hone _ _ hsound.slots_holds
    · exact hone _ _ hsound.predicates_holds
    · exact hone _ _ hsound.literals_holds

/-- The image of a world's query view, opened for the same journal. -/
def World.reopened (w : World) (journal : List UInt8) (n : ℕ) :
    Except String (VmQueryProjection × MmapVmSnapshot × MappedFile) := do
  let p ← w.vmQuery
  let s ← MmapVmSnapshot.create journal n w p
  let m ← MappedFile.openImage (s.toFile journal) journal
  pure (p, s, m)

theorem mapped_candidates_exact_redefined :
    ∃ w p s m, World.reconstruct [.redefined] = .ok w ∧ w.reopened (utf8 "FTHQJ001 16 byte") 1 = .ok (p, s, m) ∧
      ((∀ i, m.Active i → ∃ e ∈ p.active, m.entry i = .ok e) ∧
        ∀ e ∈ p.active, ∃! i, m.Active i ∧ m.entry i = .ok e) ∧
      (∀ pattern binding, ∃ records, m.candidates pattern binding = .ok records ∧ records.Nodup ∧
        m.candidateCount pattern binding = .ok records.length ∧
        ∀ i, i ∈ records ↔
          m.Active i ∧ ∃ fact, m.fact i = .ok fact ∧ pattern.Admits binding fact) ∧
      ∀ t values, (t, values) ∈ [(m.slots, p.names.slots), (m.predicates, p.names.predicates),
          (m.literals, p.names.literals)] →
        (∀ text i, t.lookup m.mapping text = some i ↔ t.value m.mapping i = .ok text) ∧
        ∀ text, (∃ i, t.lookup m.mapping text = some i) ↔ text ∈ values := by
  have hok : ((World.reconstruct [.redefined]).toOption.any fun w =>
      (w.reopened (utf8 "FTHQJ001 16 byte") 1).isOk && decide (w.version < 2 ^ 64 ∧
        w.nextEntity < 2 ^ 64 ∧ w.operationCount < 2 ^ 64 ∧ w.activeSlotCount < 2 ^ 64 ∧
        w.recordCount < 2 ^ 64)) = true := by decide +kernel
  cases hw : World.reconstruct [.redefined] with
  | error e => rw [hw] at hok; cases hok
  | ok w =>
    rw [hw] at hok
    simp only [Except.toOption, Option.any_some, Bool.and_eq_true, decide_eq_true_eq] at hok
    obtain ⟨hopened, h1, h2, h3, h4, h5⟩ := hok
    cases hr : w.reopened (utf8 "FTHQJ001 16 byte") 1 with
    | error e => rw [hr] at hopened; cases hopened
    | ok parts =>
      obtain ⟨p, s, m⟩ := parts
      have hr' := hr
      unfold World.reopened at hr'
      simp only [bind, Except.bind, pure, Except.pure] at hr'
      split at hr'
      · cases hr'
      rename_i p' hp
      split at hr'
      · cases hr'
      rename_i s' hs
      split at hr'
      · cases hr'
      rename_i m' hm
      cases hr'
      exact ⟨w, p, s, m, rfl, hr, mapped_candidates_exact ⟨h1, h2, h3, h4, h5⟩ (by decide)
        (by decide +kernel) hp hs hm⟩

end ForthDB
