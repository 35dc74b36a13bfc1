import ForthDB.Core.Types
import Mathlib.Data.List.Lex
import Mathlib.Data.List.Sort
import Mathlib.Data.Prod.Lex
import Mathlib.Data.String.Basic

/-!
# Queries

Patterns, bindings and the query walk. Four engines of the repository answer queries
with the same functions over their own candidates; `QuerySource` is what differs
between them, and `query` is what they share.

* `Renames.query_eq`: two sources that enumerate the same candidates under other names give
  the same result.
* `Visits.query_ok`: a query panics only where the visit of a candidate does.
-/

namespace ForthDB

structure Variable where
  name : String
  valid : name ≠ "" ∧ name.toList.head? ≠ some '?'
deriving DecidableEq

inductive Term
  | atom (atom : Atom)
  | var (name : Variable)
deriving DecidableEq

inductive PredicateTerm
  | predicate (predicate : Predicate)
  | var (name : Variable)
deriving DecidableEq

structure Pattern where
  subject : Term
  predicate : PredicateTerm
  object : Term
deriving DecidableEq

inductive BoundValue
  | entity (entity : EntityId)
  | literal (literal : Literal)
  | predicate (predicate : Predicate)
deriving DecidableEq, Repr

namespace BoundValue

/-- `From<Atom>`. -/
def ofAtom : Atom → BoundValue
  | .entity e => .entity e
  | .literal l => .literal l

def asAtom : BoundValue → Option Atom
  | .entity e => some (.entity e)
  | .literal l => some (.literal l)
  | .predicate _ => none

def asPredicate : BoundValue → Option Predicate
  | .predicate p => some p
  | .entity _ | .literal _ => none

@[simp] theorem asAtom_ofAtom (a : Atom) : (ofAtom a).asAtom = some a := by cases a <;> rfl

@[simp] theorem asPredicate_ofAtom (a : Atom) : (ofAtom a).asPredicate = none := by
  cases a <;> rfl

/-- The derived order: by variant, then by content. -/
def rank : BoundValue → ℕ ×ₗ ℕ ×ₗ String
  | .entity e => toLex (0, toLex (e.value, ""))
  | .literal l => toLex (1, toLex (0, l.value))
  | .predicate p => toLex (2, toLex (0, p.value))

theorem rank_injective : Function.Injective rank := by
  rintro (⟨⟨⟩⟩ | ⟨⟨⟩⟩ | ⟨⟨⟩⟩) (⟨⟨⟩⟩ | ⟨⟨⟩⟩ | ⟨⟨⟩⟩) h <;> simp_all [rank]

instance : LinearOrder BoundValue := LinearOrder.lift' rank rank_injective

end BoundValue

/-- A `BTreeMap` from variable names: its entries in ascending order. -/
structure Binding where
  entries : List (String × BoundValue)
  sorted : entries.Pairwise fun x y => x.1 < y.1
deriving DecidableEq

namespace Binding

def new : Binding := ⟨[], .nil⟩

def get (b : Binding) (name : String) : Option BoundValue := b.entries.lookup name

/-- The entries after `insert`. -/
def insertEntry (name : String) (value : BoundValue) :
    List (String × BoundValue) → List (String × BoundValue)
  | [] => [(name, value)]
  | entry :: rest =>
    if name < entry.1 then (name, value) :: entry :: rest
    else if name = entry.1 then (name, value) :: rest
    else entry :: insertEntry name value rest

theorem mem_insertEntry {name : String} {value : BoundValue}
    {entries : List (String × BoundValue)} {x : String × BoundValue}
    (h : x ∈ insertEntry name value entries) : x = (name, value) ∨ x ∈ entries := by
  induction entries with
  | nil => exact .inl (by simpa [insertEntry] using h)
  | cons entry rest ih =>
    unfold insertEntry at h
    split at h
    · simpa using h
    · split at h
      · rcases List.mem_cons.1 h with h | h
        · exact .inl h
        · exact .inr (List.mem_cons_of_mem _ h)
      · rcases List.mem_cons.1 h with h | h
        · exact .inr (h ▸ List.mem_cons_self)
        · rcases ih h with h | h
          · exact .inl h
          · exact .inr (List.mem_cons_of_mem _ h)

theorem insertEntry_sorted (name : String) (value : BoundValue)
    {entries : List (String × BoundValue)} (h : entries.Pairwise fun x y => x.1 < y.1) :
    (insertEntry name value entries).Pairwise fun x y => x.1 < y.1 := by
  induction entries with
  | nil => exact List.pairwise_singleton _ _
  | cons entry rest ih =>
    obtain ⟨hfirst, hrest⟩ := List.pairwise_cons.1 h
    unfold insertEntry
    split
    · rename_i hlt
      refine List.pairwise_cons.2 ⟨?_, h⟩
      intro y hy
      rcases List.mem_cons.1 hy with rfl | hy
      · exact hlt
      · exact lt_trans hlt (hfirst y hy)
    · rename_i hge
      split
      · rename_i heq
        subst heq
        exact List.pairwise_cons.2 ⟨hfirst, hrest⟩
      · rename_i hne
        refine List.pairwise_cons.2 ⟨?_, ih hrest⟩
        intro y hy
        rcases mem_insertEntry hy with rfl | hy
        · exact lt_of_le_of_ne (not_lt.1 hge) (Ne.symm hne)
        · exact hfirst y hy

def insert (b : Binding) (name : String) (value : BoundValue) : Binding :=
  ⟨insertEntry name value b.entries, insertEntry_sorted name value b.sorted⟩

end Binding

/-! ## Unification -/

def resolvedAtom (term : Term) (binding : Binding) : Option Atom :=
  match term with
  | .atom atom => some atom
  | .var v => (binding.get v.name).bind BoundValue.asAtom

def resolvedPredicate (term : PredicateTerm) (binding : Binding) : Option Predicate :=
  match term with
  | .predicate predicate => some predicate
  | .var v => (binding.get v.name).bind BoundValue.asPredicate

def unifyVariable (v : Variable) (value : BoundValue) (binding : Binding) : Option Binding :=
  match binding.get v.name with
  | some existing => if existing = value then some binding else none
  | none => some (binding.insert v.name value)

def unifyTerm (term : Term) (value : BoundValue) (binding : Binding) : Option Binding :=
  match term with
  | .atom atom => if value.asAtom = some atom then some binding else none
  | .var v => unifyVariable v value binding

def unifyPredicate (term : PredicateTerm) (value : BoundValue) (binding : Binding) :
    Option Binding :=
  match term with
  | .predicate predicate => if value.asPredicate = some predicate then some binding else none
  | .var v => unifyVariable v value binding

def unifyPattern (pattern : Pattern) (fact : Fact) (binding : Binding) : Option Binding := do
  let binding ← unifyTerm pattern.subject (.ofAtom fact.subject) binding
  let binding ← unifyPredicate pattern.predicate (.predicate fact.predicate) binding
  unifyTerm pattern.object (.ofAtom fact.object) binding

/-! ## The walk -/

structure QueryOptions where
  optimize : Bool
  distinct : Bool
  includeProvenance : Bool
  limit : Option ℕ
deriving DecidableEq

structure QueryMetrics where
  candidateFacts : ℕ
  bindingsEmitted : ℕ
deriving DecidableEq

structure QueryFrame where
  binding : Binding
  provenance : List SlotId
deriving DecidableEq

structure QueryRow where
  binding : Binding
  provenance : List SlotId
deriving DecidableEq

structure QueryResult where
  rows : List QueryRow
  chosenFirstPath : List Pattern
  metrics : QueryMetrics
deriving DecidableEq

/-- What an engine provides to the walk: the number of candidates of a pattern, the
candidates themselves, and the binding and the slot that one of them yields. An `error`
is a panic. -/
structure QuerySource (ι : Type) where
  candidateCount : Pattern → Binding → ℕ
  candidates : Pattern → Binding → List ι
  visit : Pattern → Binding → ι → Except String (Option (Binding × SlotId))

/-- The mutable arguments of `walk_query`. -/
structure WalkState where
  output : List QueryFrame
  firstPath : List Pattern
  metrics : QueryMetrics

/-- The loop over the candidates: `true` stops the walk. -/
def visitAll {ι : Type} (visit : ι → Except String (Option (Binding × SlotId)))
    (provenance : List SlotId) (walk : QueryFrame → WalkState → Except String (Bool × WalkState)) :
    List ι → WalkState → Except String (Bool × WalkState)
  | [], state => .ok (false, state)
  | candidate :: candidates, state =>
    match visit candidate with
    | .error e => .error e
    | .ok none => visitAll visit provenance walk candidates state
    | .ok (some (binding, slot)) =>
      let metrics :=
        { state.metrics with bindingsEmitted := state.metrics.bindingsEmitted + 1 }
      match walk ⟨binding, provenance ++ [slot]⟩ { state with metrics := metrics } with
      | .error e => .error e
      | .ok (true, state) => .ok (true, state)
      | .ok (false, state) => visitAll visit provenance walk candidates state

/-- The first of the least values. -/
def minimumIndex (values : List ℕ) : ℕ := values.idxOf (values.min?.getD 0)

namespace QuerySource

variable {ι : Type} (source : QuerySource ι)

def chosenIndex (options : QueryOptions) (remaining : List Pattern) (binding : Binding) : ℕ :=
  if options.optimize then
    minimumIndex (remaining.map fun pattern => source.candidateCount pattern binding)
  else 0

/-- `walk_query`. The first argument is the number of the remaining patterns. -/
def walkQuery (options : QueryOptions) :
    ℕ → QueryFrame → List Pattern → ℕ → WalkState → Except String (Bool × WalkState)
  | 0, frame, _, _, state =>
    let output := state.output ++ [frame]
    .ok (options.limit.any fun limit => limit ≤ output.length, { state with output := output })
  | count + 1, frame, remaining, depth, state =>
    let chosenIndex := source.chosenIndex options remaining frame.binding
    match remaining[chosenIndex]? with
    | none => .error "index out of bounds"
    | some chosen =>
      let rest := remaining.eraseIdx chosenIndex
      let candidates := source.candidates chosen frame.binding
      let state :=
        { state with
          firstPath :=
            if depth = state.firstPath.length then state.firstPath ++ [chosen]
            else state.firstPath
          metrics :=
            { state.metrics with
              candidateFacts := state.metrics.candidateFacts + candidates.length } }
      visitAll (source.visit chosen frame.binding) frame.provenance
        (fun frame => walkQuery options count frame rest (depth + 1)) candidates state

end QuerySource

/-- `retain` with a set of the bindings seen before. -/
def retainDistinct (seen : List Binding) : List QueryFrame → List QueryFrame
  | [] => []
  | frame :: frames =>
    if frame.binding ∈ seen then retainDistinct seen frames
    else frame :: retainDistinct (frame.binding :: seen) frames

/-- What `sort_by` compares: the bindings, then the texts of the provenance. -/
def QueryFrame.rank (frame : QueryFrame) : List (String ×ₗ BoundValue) ×ₗ List String :=
  toLex (frame.binding.entries.map toLex, frame.provenance.map SlotId.value)

def sortFrames (frames : List QueryFrame) : List QueryFrame :=
  frames.insertionSort fun left right => left.rank ≤ right.rank

/-- What follows the walk: the rows of the frames found. -/
def finishRows (options : QueryOptions) (output : List QueryFrame) : List QueryRow :=
  (sortFrames (if options.distinct then retainDistinct [] output else output)).map fun frame =>
    { binding := frame.binding
      provenance := if options.includeProvenance then frame.provenance else [] }

namespace QuerySource

variable {ι : Type} (source : QuerySource ι)

/-- `query`. -/
def query (patterns : List Pattern) (options : QueryOptions) : Except String QueryResult := do
  let (_, state) ← source.walkQuery options patterns.length ⟨.new, []⟩ patterns 0 ⟨[], [], ⟨0, 0⟩⟩
  pure {
    rows := finishRows options state.output
    chosenFirstPath := state.firstPath
    metrics := state.metrics }

end QuerySource

/-! ## Sources that agree -/

theorem visitAll_map {ι κ : Type} (f : ι → κ)
    {visit : ι → Except String (Option (Binding × SlotId))}
    {visit' : κ → Except String (Option (Binding × SlotId))} (provenance : List SlotId)
    (walk : QueryFrame → WalkState → Except String (Bool × WalkState)) {candidates : List ι}
    (h : ∀ i ∈ candidates, visit' (f i) = visit i) (state : WalkState) :
    visitAll visit' provenance walk (candidates.map f) state =
      visitAll visit provenance walk candidates state := by
  induction candidates generalizing state with
  | nil => rfl
  | cons i candidates ih =>
    have ih' := ih fun j hj => h j (List.mem_cons_of_mem _ hj)
    rw [List.map_cons]
    unfold visitAll
    rw [h i List.mem_cons_self]
    simp only [ih']

theorem visitAll_ok {ι : Type} {visit : ι → Except String (Option (Binding × SlotId))}
    {provenance : List SlotId}
    {walk : QueryFrame → WalkState → Except String (Bool × WalkState)} {candidates : List ι}
    (hvisit : ∀ i ∈ candidates, ∃ found, visit i = .ok found)
    (hwalk : ∀ frame state, ∃ result, walk frame state = .ok result) (state : WalkState) :
    ∃ result, visitAll visit provenance walk candidates state = .ok result := by
  induction candidates generalizing state with
  | nil => exact ⟨_, rfl⟩
  | cons i candidates ih =>
    have ih' := ih fun j hj => hvisit j (List.mem_cons_of_mem _ hj)
    obtain ⟨found, hfound⟩ := hvisit i List.mem_cons_self
    unfold visitAll
    rw [hfound]
    rcases found with _ | ⟨binding, slot⟩
    · exact ih' state
    · simp only
      obtain ⟨⟨stop, state'⟩, hresult⟩ := hwalk ⟨binding, provenance ++ [slot]⟩
        { state with
          metrics := { state.metrics with bindingsEmitted := state.metrics.bindingsEmitted + 1 } }
      rw [hresult]
      cases stop with
      | true => exact ⟨_, rfl⟩
      | false => exact ih' state'

theorem minimumIndex_lt (values : List ℕ) (h : values ≠ []) :
    minimumIndex values < values.length := by
  unfold minimumIndex
  obtain ⟨v, hv⟩ := Option.ne_none_iff_exists'.1 (mt List.min?_eq_none_iff.1 h)
  rw [hv, Option.getD_some]
  exact List.idxOf_lt_length_of_mem (List.min?_mem hv)

namespace QuerySource

variable {ι κ : Type} {source : QuerySource ι} {source' : QuerySource κ}

theorem chosenIndex_lt (source : QuerySource ι) (options : QueryOptions) {remaining : List Pattern} (h : remaining ≠ [])
    (binding : Binding) : source.chosenIndex options remaining binding < remaining.length := by
  unfold chosenIndex
  split
  · have := minimumIndex_lt (remaining.map fun p => source.candidateCount p binding)
      (by simpa using h)
    simpa using this
  · exact List.length_pos_iff.2 h

/-- The sources enumerate the same candidates under other names. -/
structure Renames (source : QuerySource ι) (source' : QuerySource κ) (f : ι → κ) : Prop where
  count : ∀ pattern binding,
    source'.candidateCount pattern binding = source.candidateCount pattern binding
  candidates : ∀ pattern binding,
    source'.candidates pattern binding = (source.candidates pattern binding).map f
  visit : ∀ pattern binding, ∀ i ∈ source.candidates pattern binding,
    source'.visit pattern binding (f i) = source.visit pattern binding i

theorem Renames.walkQuery_eq {f : ι → κ} (h : source.Renames source' f) (options : QueryOptions)
    (count : ℕ) (frame : QueryFrame) (remaining : List Pattern) (depth : ℕ) (state : WalkState) :
    source'.walkQuery options count frame remaining depth state =
      source.walkQuery options count frame remaining depth state := by
  induction count generalizing frame remaining depth state with
  | zero => rfl
  | succ count ih =>
    have hindex : source'.chosenIndex options remaining frame.binding =
        source.chosenIndex options remaining frame.binding := by
      unfold chosenIndex
      simp only [h.count]
    unfold walkQuery
    rw [hindex]
    cases hchosen : remaining[source.chosenIndex options remaining frame.binding]? with
    | none => simp only [hchosen]
    | some chosen =>
      simp only [hchosen, h.candidates, List.length_map]
      rw [visitAll_map f frame.provenance _ (h.visit chosen frame.binding)]
      congr 1
      funext frame' state'
      exact ih frame' _ _ _

/-- **Sources that enumerate the same candidates give the same result.** -/
theorem Renames.query_eq {f : ι → κ} (h : source.Renames source' f) (patterns : List Pattern)
    (options : QueryOptions) : source'.query patterns options = source.query patterns options := by
  unfold query
  rw [h.walkQuery_eq]

/-- The visit of a candidate does not panic. -/
def Visits (source : QuerySource ι) : Prop :=
  ∀ pattern binding, ∀ i ∈ source.candidates pattern binding,
    ∃ found, source.visit pattern binding i = .ok found

theorem Visits.walkQuery_ok (h : source.Visits) (options : QueryOptions) (count : ℕ)
    (frame : QueryFrame) (remaining : List Pattern) (hcount : remaining.length = count)
    (depth : ℕ) (state : WalkState) :
    ∃ result, source.walkQuery options count frame remaining depth state = .ok result := by
  induction count generalizing frame remaining depth state with
  | zero => exact ⟨_, rfl⟩
  | succ count ih =>
    have hne : remaining ≠ [] := by
      rintro rfl
      simp at hcount
    have hlt := chosenIndex_lt source options hne frame.binding
    unfold walkQuery
    simp only [List.getElem?_eq_getElem hlt]
    refine visitAll_ok (h _ frame.binding) (fun frame' state' => ?_) _
    refine ih frame' _ ?_ _ state'
    rw [List.length_eraseIdx_of_lt hlt]
    omega

/-- **A query panics only where the visit of a candidate does.** -/
theorem Visits.query_ok (h : source.Visits) (patterns : List Pattern) (options : QueryOptions) :
    ∃ result, source.query patterns options = .ok result := by
  obtain ⟨⟨stop, state⟩, hwalk⟩ :=
    h.walkQuery_ok options patterns.length ⟨.new, []⟩ patterns rfl 0 ⟨[], [], ⟨0, 0⟩⟩
  unfold query
  rw [hwalk]
  exact ⟨_, rfl⟩

end QuerySource

end ForthDB
