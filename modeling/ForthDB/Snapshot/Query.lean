import ForthDB.Core.Query
import ForthDB.Snapshot.Image

/-!
# Queries of an image

`MmapVmSnapshot::query`: a pattern is resolved to cells, and its candidates are a range of
one of the three sorted sections, or all active records. The walk is the one that the
other engines share; it unifies the decoded cells of a record.
-/

namespace ForthDB

/-- What a position of a pattern is resolved to. -/
inductive Resolved
  | unbound
  | missing
  | value (cell : ℕ)
deriving DecidableEq

/-- The sorted sections of an image. -/
inductive IndexSection
  | spo
  | pos
  | osp
deriving DecidableEq

inductive CandidateSpec
  | all
  | empty
  | range (index : IndexSection) (key : List ℕ) (length : ℕ)
deriving DecidableEq

/-- `u64::MAX`. -/
def cellMax : ℕ := 2 ^ 64 - 1

def IndexEntry.key (e : IndexEntry) : List ℕ := [e.first, e.second, e.third]

/-- `lower_bound`. Its loop stays below the number of entries, where none is missing. -/
def lowerBound (entries : List IndexEntry) (key : List ℕ) (length : ℕ) : ℕ :=
  SortedTable.partitionPoint (fun entry => entry.key.take length < key.take length) entries
    entries.length 0 entries.length

/-- `index_range`. -/
def indexRange (entries : List IndexEntry) (key : List ℕ) (length : ℕ) : ℕ × ℕ :=
  let count := entries.length
  let lower := lowerBound entries key length
  if length = 0 then (0, count)
  else
    let position := length - 1
    if key.getD position 0 = cellMax then (lower, count)
    else (lower, lowerBound entries (key.set position (key.getD position 0 + 1)) length)

namespace MmapVmSnapshot

variable (s : MmapVmSnapshot)

def indexEntries : IndexSection → List IndexEntry
  | .spo => s.spo
  | .pos => s.pos
  | .osp => s.osp

def atomCellForQuery : Atom → Resolved
  | .entity e => if e.value < literalBase then .value e.value else .missing
  | .literal l =>
    match s.literalToken l with
    | some token => .value (literalBase + token)
    | none => .missing

def resolvedAtomCell (term : Term) (binding : Binding) : Resolved :=
  match term with
  | .atom atom => s.atomCellForQuery atom
  | .var v =>
    match binding.get v.name with
    | some value => (value.asAtom.map s.atomCellForQuery).getD .missing
    | none => .unbound

/-- The cell of a predicate's token. -/
def predicateCellForQuery (predicate : Predicate) : Resolved :=
  match s.predicateToken predicate with
  | some token => .value token
  | none => .missing

def resolvedPredicateCell (term : PredicateTerm) (binding : Binding) : Resolved :=
  match term with
  | .predicate predicate => s.predicateCellForQuery predicate
  | .var v =>
    match binding.get v.name with
    | some value => (value.asPredicate.map s.predicateCellForQuery).getD .missing
    | none => .unbound

/-- `candidate_spec` on the three resolved positions. -/
def specOf : Resolved → Resolved → Resolved → CandidateSpec
  | .missing, _, _ => .empty
  | _, .missing, _ => .empty
  | _, _, .missing => .empty
  | .value subject, .value predicate, .value object => .range .spo [subject, predicate, object] 3
  | .value subject, .value predicate, .unbound => .range .spo [subject, predicate, 0] 2
  | .value subject, .unbound, .value object => .range .osp [object, subject, 0] 2
  | .unbound, .value predicate, .value object => .range .pos [predicate, object, 0] 2
  | .value subject, .unbound, .unbound => .range .spo [subject, 0, 0] 1
  | .unbound, .value predicate, .unbound => .range .pos [predicate, 0, 0] 1
  | .unbound, .unbound, .value object => .range .osp [object, 0, 0] 1
  | .unbound, .unbound, .unbound => .all

def candidateSpec (pattern : Pattern) (binding : Binding) : CandidateSpec :=
  specOf (s.resolvedAtomCell pattern.subject binding)
    (s.resolvedPredicateCell pattern.predicate binding)
    (s.resolvedAtomCell pattern.object binding)

def candidateCount (pattern : Pattern) (binding : Binding) : ℕ :=
  match s.candidateSpec pattern binding with
  | .all => s.activeSlotCount
  | .range index key length =>
    let (start, stop) := indexRange (s.indexEntries index) key length
    stop - start
  | .empty => 0

def candidates (pattern : Pattern) (binding : Binding) : List ℕ :=
  match s.candidateSpec pattern binding with
  | .all => (List.range s.activeSlotCount).filterMap fun index => s.active[index]?
  | .range index key length =>
    let entries := s.indexEntries index
    let (start, stop) := indexRange entries key length
    ((List.range' start (stop - start)).filterMap fun index => entries[index]?).map
      IndexEntry.record
  | .empty => []

/-- `unify_term` on a cell. -/
def unifyTermCell (term : Term) (cell : ℕ) (binding : Binding) : Option Binding :=
  match s.atomValue cell with
  | .ok atom => unifyTerm term (.ofAtom atom) binding
  | .error _ => none

/-- `unify_predicate` on a token. -/
def unifyPredicateToken (term : PredicateTerm) (token : ℕ) (binding : Binding) : Option Binding :=
  match s.predicateValue token with
  | some predicate => unifyPredicate term (.predicate predicate) binding
  | none => none

def unify (pattern : Pattern) (record : MappedRecord) (binding : Binding) : Option Binding := do
  let binding ← s.unifyTermCell pattern.subject record.subject binding
  let binding ← s.unifyPredicateToken pattern.predicate record.predicate binding
  s.unifyTermCell pattern.object record.object binding

/-- The body of the loop over the candidates in `walk_query`. -/
def visit (pattern : Pattern) (binding : Binding) (record : ℕ) :
    Except String (Option (Binding × SlotId)) :=
  match s.records[record]? with
  | none => .ok none
  | some value =>
    match s.unify pattern value binding with
    | none => .ok none
    | some binding =>
      match s.slots[value.slot]? with
      | some slot => .ok (some (binding, ⟨slot⟩))
      | none => .error "validated slot token"

def source : QuerySource ℕ where
  candidateCount := s.candidateCount
  candidates := s.candidates
  visit := s.visit

def query (patterns : List Pattern) (options : QueryOptions) : Except String QueryResult :=
  s.source.query patterns options

end MmapVmSnapshot

/-! ## A range of a sorted section -/

theorem IndexEntry.length_key (e : IndexEntry) : e.key.length = 3 := rfl

/-- Below the successor of a key means not above the key. -/
theorem take_lt_succ {xs key : List ℕ} {length : ℕ} (hxs : xs.length = 3) (hkey : key.length = 3)
    (hlength : length = 1 ∨ length = 2 ∨ length = 3) :
    xs.take length < (key.set (length - 1) (key.getD (length - 1) 0 + 1)).take length ↔
      xs.take length ≤ key.take length := by
  obtain ⟨x, y, z, rfl⟩ := List.length_eq_three.1 hxs
  obtain ⟨a, b, c, rfl⟩ := List.length_eq_three.1 hkey
  rw [← not_lt]
  rcases hlength with rfl | rfl | rfl <;>
    simp [List.cons_lt_cons_iff] <;> omega

end ForthDB
