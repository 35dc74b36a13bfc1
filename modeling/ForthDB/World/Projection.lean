import ForthDB.Core.KernelReaders
import ForthDB.Lib.Grouping
import ForthDB.Snapshot.Query
import ForthDB.World.World

/-!
# The readers of a projection

`VmQueryProjection` next to its stacks: the active entries in the order of their records,
the seven indexes of their positions, and the walk over the candidates that an index
gives. The source fills the active entries and the indexes when it builds the stacks.

* `Lists d m`: the projected stacks are those of `m`, oldest first. `project_lists`: one
  operation keeps it.
* `candidates_eq`: the candidates of a pattern are the positions of the active entries
  that agree with its bound positions, in ascending order.
-/

namespace ForthDB

/-- The indexes of `VmQueryProjection`: positions of active entries by parts of their facts. -/
structure ProjectionIndexes where
  bySubject : Dict Atom (List ℕ)
  byPredicate : Dict Predicate (List ℕ)
  byObject : Dict Atom (List ℕ)
  bySubjectPredicate : Dict (Atom × Predicate) (List ℕ)
  bySubjectObject : Dict (Atom × Atom) (List ℕ)
  byPredicateObject : Dict (Predicate × Atom) (List ℕ)
  byExact : Dict Fact (List ℕ)

namespace ProjectionIndexes

def empty : ProjectionIndexes := ⟨∅, ∅, ∅, ∅, ∅, ∅, ∅⟩

/-- The body of the loop over the active entries. -/
def push (x : ProjectionIndexes) (entry : ProjectedFact × ℕ) : ProjectionIndexes :=
  let fact := entry.1.fact
  let index := entry.2
  { bySubject := x.bySubject.pushTo fact.subject index
    byPredicate := x.byPredicate.pushTo fact.predicate index
    byObject := x.byObject.pushTo fact.object index
    bySubjectPredicate := x.bySubjectPredicate.pushTo (fact.subject, fact.predicate) index
    bySubjectObject := x.bySubjectObject.pushTo (fact.subject, fact.object) index
    byPredicateObject := x.byPredicateObject.pushTo (fact.predicate, fact.object) index
    byExact := x.byExact.pushTo fact index }

/-- `candidates`, where `count` is the number of active entries. -/
def candidates (x : ProjectionIndexes) (count : ℕ) (pattern : Pattern) (binding : Binding) :
    List ℕ :=
  match resolvedAtom pattern.subject binding, resolvedPredicate pattern.predicate binding,
    resolvedAtom pattern.object binding with
  | some subject, some predicate, some object => x.byExact.group ⟨subject, predicate, object⟩
  | some subject, some predicate, none => x.bySubjectPredicate.group (subject, predicate)
  | some subject, none, some object => x.bySubjectObject.group (subject, object)
  | none, some predicate, some object => x.byPredicateObject.group (predicate, object)
  | some subject, none, none => x.bySubject.group subject
  | none, some predicate, none => x.byPredicate.group predicate
  | none, none, some object => x.byObject.group object
  | none, none, none => List.range count

/-- The indexes hold the positions of the entries seen so far. -/
structure Index (x : ProjectionIndexes) (entries : List (ProjectedFact × ℕ)) : Prop where
  bySubject : x.bySubject.Groups (fun e => e.1.fact.subject) Prod.snd entries
  byPredicate : x.byPredicate.Groups (fun e => e.1.fact.predicate) Prod.snd entries
  byObject : x.byObject.Groups (fun e => e.1.fact.object) Prod.snd entries
  bySubjectPredicate : x.bySubjectPredicate.Groups
    (fun e => (e.1.fact.subject, e.1.fact.predicate)) Prod.snd entries
  bySubjectObject : x.bySubjectObject.Groups
    (fun e => (e.1.fact.subject, e.1.fact.object)) Prod.snd entries
  byPredicateObject : x.byPredicateObject.Groups
    (fun e => (e.1.fact.predicate, e.1.fact.object)) Prod.snd entries
  byExact : x.byExact.Groups (fun e => e.1.fact) Prod.snd entries

variable {x : ProjectionIndexes} {entries : List (ProjectedFact × ℕ)}

theorem empty_index : empty.Index [] :=
  ⟨Dict.groups_nil, Dict.groups_nil, Dict.groups_nil, Dict.groups_nil, Dict.groups_nil,
    Dict.groups_nil, Dict.groups_nil⟩

theorem Index.push (h : x.Index entries) (entry : ProjectedFact × ℕ) :
    (x.push entry).Index (entries ++ [entry]) where
  bySubject := h.bySubject.push entry
  byPredicate := h.byPredicate.push entry
  byObject := h.byObject.push entry
  bySubjectPredicate := h.bySubjectPredicate.push entry
  bySubjectObject := h.bySubjectObject.push entry
  byPredicateObject := h.byPredicateObject.push entry
  byExact := h.byExact.push entry

theorem Index.pushAll (h : x.Index entries) (more : List (ProjectedFact × ℕ)) :
    (more.foldl ProjectionIndexes.push x).Index (entries ++ more) := by
  induction more generalizing x entries with
  | nil => rwa [List.append_nil]
  | cons entry more ih =>
    have := ih (h.push entry)
    rwa [List.append_assoc] at this

/-- A bucket of facts with a key that says as much as the bound positions. -/
theorem groups_agreeing {κ : Type} [DecidableEq κ] {d : Dict κ (List ℕ)} (key : Fact → κ)
    (h : d.Groups (fun e : ProjectedFact × ℕ => key e.1.fact) Prod.snd entries) {k : κ}
    {subject : Option Atom} {predicate : Option Predicate} {object : Option Atom}
    (hkey : ∀ f, key f = k ↔ ForthDb.Agrees subject predicate object f) :
    d.group k =
      (entries.filter fun e => ForthDb.Agrees subject predicate object e.1.fact).map Prod.snd := by
  rw [h k]
  congr 1
  refine List.filter_congr fun e _ => ?_
  rw [decide_eq_decide]
  exact hkey e.1.fact

/-- **The candidates that the indexes give** are the positions of the entries that agree. -/
theorem Index.candidates_eq {active : List ProjectedFact} (h : x.Index active.zipIdx)
    (pattern : Pattern) (binding : Binding) :
    x.candidates active.length pattern binding =
      (active.zipIdx.filter fun e => ForthDb.Agrees (resolvedAtom pattern.subject binding)
        (resolvedPredicate pattern.predicate binding) (resolvedAtom pattern.object binding)
        e.1.fact).map Prod.snd := by
  unfold candidates
  cases resolvedAtom pattern.subject binding <;>
    cases resolvedPredicate pattern.predicate binding <;>
    cases resolvedAtom pattern.object binding <;> simp only
  case none.none.none =>
    have hall : (active.zipIdx.filter fun e => ForthDb.Agrees none none none e.1.fact) =
        active.zipIdx := by
      refine List.filter_eq_self.2 fun e _ => ?_
      simp [ForthDb.Agrees]
    rw [hall, List.zipIdx_map_snd, List.range_eq_range']
  case none.none.some =>
    exact groups_agreeing Fact.object h.byObject fun f => by simp [ForthDb.Agrees]
  case none.some.none =>
    exact groups_agreeing Fact.predicate h.byPredicate fun f => by simp [ForthDb.Agrees]
  case none.some.some =>
    exact groups_agreeing (fun f => (f.predicate, f.object)) h.byPredicateObject
      fun f => by simp [ForthDb.Agrees]
  case some.none.none =>
    exact groups_agreeing Fact.subject h.bySubject fun f => by simp [ForthDb.Agrees]
  case some.none.some =>
    exact groups_agreeing (fun f => (f.subject, f.object)) h.bySubjectObject
      fun f => by simp [ForthDb.Agrees]
  case some.some.none =>
    exact groups_agreeing (fun f => (f.subject, f.predicate)) h.bySubjectPredicate
      fun f => by simp [ForthDb.Agrees]
  case some.some.some =>
    refine groups_agreeing id h.byExact ?_
    rintro ⟨s, p, o⟩
    simp [ForthDb.Agrees]

end ProjectionIndexes

namespace VmQueryProjection

variable (p : VmQueryProjection)

/-- The newest entry of each slot, in the order of the record ids. -/
def active : List ProjectedFact :=
  (p.definitions.entries.filterMap fun e => e.2.getLast?).insertionSort
    fun x y => x.recordId ≤ y.recordId

def indexes : ProjectionIndexes := p.active.zipIdx.foldl ProjectionIndexes.push .empty

/-- `definitions`, newest first. -/
def definitionsOf (slot : SlotId) : List Fact :=
  match p.mapped with
  | some mapped => mapped.definitions slot
  | none => ((p.definitions.lookup slot).getD []).reverse.map ProjectedFact.fact

def candidates (pattern : Pattern) (binding : Binding) : List ℕ :=
  p.indexes.candidates p.active.length pattern binding

/-- The body of the loop over the candidates in `walk_query`. -/
def visit (pattern : Pattern) (binding : Binding) (index : ℕ) :
    Except String (Option (Binding × SlotId)) :=
  match p.active[index]? with
  | some entry =>
    .ok ((unifyPattern pattern entry.fact binding).map fun binding => (binding, entry.slot))
  | none => .error "index out of bounds"

def source : QuerySource ℕ where
  candidateCount pattern binding := (p.candidates pattern binding).length
  candidates := p.candidates
  visit := p.visit

def query (patterns : List Pattern) (options : QueryOptions) : Except String QueryResult :=
  match p.mapped with
  | some mapped => mapped.query patterns options
  | none => p.source.query patterns options

theorem candidates_eq (pattern : Pattern) (binding : Binding) :
    p.candidates pattern binding =
      (p.active.zipIdx.filter fun e => ForthDb.Agrees (resolvedAtom pattern.subject binding)
        (resolvedPredicate pattern.predicate binding) (resolvedAtom pattern.object binding)
        e.1.fact).map Prod.snd := by
  have h := ProjectionIndexes.empty_index.pushAll p.active.zipIdx
  rw [List.nil_append] at h
  exact h.candidates_eq pattern binding

/-! ## The projected stacks -/

/-- The stacks of entries, newest first. -/
abbrev EntryStacks : Type := StackMap SlotId ProjectedFact

/-- The map of the projection holds exactly the nonempty stacks, oldest first. -/
structure Lists (d : Definitions) (m : EntryStacks) : Prop where
  stack : ∀ slot, (d.lookup slot).getD [] = (m.stack slot).reverse
  nonempty : ∀ slot, d.lookup slot ≠ some []

/-- What an operation at a record id does to the stacks. -/
def perform (m : EntryStacks) (recordId : ℕ) : Operation → EntryStacks
  | .allocateEntity _ => m
  | .define slot fact => m.push slot ⟨recordId, slot, fact⟩
  | .forget slot => m.pop slot

theorem lists_empty : Lists ∅ .empty := ⟨fun _ => rfl, fun _ => by simp⟩

/-- **One operation** is projected as it acts on the stacks. -/
theorem project_lists {s : Definitions × ℕ} {m : EntryStacks} (h : Lists s.1 m) (op : Operation) :
    Lists (project s op).1 (perform m s.2 op) := by
  cases op with
  | allocateEntity e => exact h
  | define slot fact =>
    refine ⟨fun slot' => ?_, fun slot' => ?_⟩
    · by_cases hs : slot' = slot
      · subst hs; simp [project, perform, h.stack]
      · simp [project, perform, hs, StackMap.stack_push_ne _ _ hs, h.stack]
    · by_cases hs : slot' = slot
      · subst hs; simp [project]
      · simpa [project, hs] using h.nonempty slot'
  | forget slot =>
    have hs := h.stack slot
    show Lists _ (m.pop slot)
    cases hl : s.1.lookup slot with
    | none =>
      have hp : project s (.forget slot) = (s.1, s.2 + 1) := by simp only [project, hl]
      rw [hp]
      rw [hl] at hs
      have hnil : m.stack slot = [] := by simpa using hs.symm
      exact ⟨fun slot' => by simpa [StackMap.pop_of_nil hnil] using h.stack slot', h.nonempty⟩
    | some stack =>
      rw [hl] at hs
      have htail : (m.stack slot).tail.reverse = stack.dropLast := by
        have : stack = (m.stack slot).reverse := hs
        rw [this]
        cases m.stack slot <;> simp
      by_cases hd : stack.dropLast = []
      · have hp : project s (.forget slot) = (s.1.erase slot, s.2 + 1) := by
          simp only [project, hl, if_pos hd]
        rw [hp]
        refine ⟨fun slot' => ?_, fun slot' => ?_⟩
        · by_cases hs' : slot' = slot
          · subst hs'
            rw [hd] at htail
            simp [htail]
          · simp [hs', StackMap.stack_pop_ne _ hs', h.stack]
        · by_cases hs' : slot' = slot
          · subst hs'; simp
          · simpa [hs'] using h.nonempty slot'
      · have hp : project s (.forget slot) = (s.1.insert slot stack.dropLast, s.2 + 1) := by
          simp only [project, hl, if_neg hd]
        rw [hp]
        refine ⟨fun slot' => ?_, fun slot' => ?_⟩
        · by_cases hs' : slot' = slot
          · subst hs'; simp [htail]
          · simp [hs', StackMap.stack_pop_ne _ hs', h.stack]
        · by_cases hs' : slot' = slot
          · subst hs'; simpa using hd
          · simpa [hs'] using h.nonempty slot'

end VmQueryProjection

/-- `World::definitions`. -/
def World.definitions (w : World) (slot : SlotId) : Except String (List Fact) :=
  match w.eagerKernel with
  | some kernel => kernel.definitions slot
  | none => w.vmQuery.map fun projection => projection.definitionsOf slot

end ForthDB
