import ForthDB.Core.QueryLimits
import ForthDB.Python.Kernel

/-!
# The Python query executor

`QueryExecutor` of `forthdb_kernel.py`. It walks the patterns as `walk_query` of `forthdb-core`
does, over the indexes of its own kernel. Three things are its own: `candidates` asserts the kind
of each bound term, a binding keeps the order in which its variables were bound, and rows are
sorted by the texts of their values.

* `resolveTerm`, `unify`, `candidateIds`, `walk`, `execute`: an `error` is an exception.
* `query_parity`: **a query that returns gives the rows of `forthdb-core`**, with its provenance,
  path and metrics, in the same order where the texts of the entities compare as the entities; it
  raises only if a variable is used both as a predicate and as an atom.
-/

namespace ForthDB

/-! ## Bindings -/

/-- A `dict` from variable names, in the order of insertion. -/
structure BindingDict where
  entries : List (String × BoundValue)
  nodup : (entries.map Prod.fst).Nodup
deriving DecidableEq

namespace BindingDict

def empty : BindingDict := ⟨[], .nil⟩

def get (b : BindingDict) (name : String) : Option BoundValue := b.entries.lookup name

theorem mem_of_get {b : BindingDict} {name : String} {value : BoundValue}
    (h : b.get name = some value) : (name, value) ∈ b.entries := by
  obtain ⟨l₁, l₂, hl, -⟩ := List.lookup_eq_some_iff.1 h
  rw [hl]
  simp

theorem notMem_of_get {b : BindingDict} {name : String} (h : b.get name = none) :
    name ∉ b.entries.map Prod.fst := by
  intro hmem
  obtain ⟨⟨name', value⟩, he, rfl⟩ := List.mem_map.1 hmem
  have hne := List.lookup_eq_none_iff.1 h _ he
  simp at hne

/-- `extended[term.name] = value`, on a name that is not bound. -/
def extend (b : BindingDict) (name : String) (value : BoundValue) (h : b.get name = none) :
    BindingDict :=
  ⟨b.entries ++ [(name, value)], by
    have hfresh := notMem_of_get h
    rw [List.map_append, List.nodup_append]
    refine ⟨b.nodup, List.nodup_singleton _, ?_⟩
    intro x hx y hy
    rw [List.map_singleton, List.mem_singleton] at hy
    intro hxy
    rw [hxy, hy] at hx
    exact hfresh hx⟩

end BindingDict

/-- A term of a pattern, whatever its position. -/
abbrev AnyTerm : Type := BoundValue ⊕ Variable

def Term.any : Term → AnyTerm
  | .atom a => .inl (.ofAtom a)
  | .var v => .inr v

def PredicateTerm.any : PredicateTerm → AnyTerm
  | .predicate p => .inl (.predicate p)
  | .var v => .inr v

namespace QueryExecutor

/-- `resolve_term`. The result is `none` for a `Variable`. -/
def resolveTerm (term : AnyTerm) (binding : BindingDict) : Option BoundValue :=
  match term with
  | .inl value => some value
  | .inr v => binding.get v.name

def unify (term : AnyTerm) (value : BoundValue) (binding : BindingDict) : Option BindingDict :=
  match term with
  | .inl term => if term = value then some binding else none
  | .inr v =>
    match h : binding.get v.name with
    | some existing => if existing = value then some binding else none
    | none => some (binding.extend v.name value h)

/-- `assert isinstance(value, (EntityId, Literal))`. -/
def assertAtom (value : BoundValue) : Except String Atom :=
  match value.asAtom with
  | some atom => .ok atom
  | none => .error "AssertionError"

/-- `assert isinstance(value, Predicate)`. -/
def assertPredicate (value : BoundValue) : Except String Predicate :=
  match value.asPredicate with
  | some predicate => .ok predicate
  | none => .error "AssertionError"

end QueryExecutor

open QueryExecutor

/-- `CurrentView.candidates`. -/
def LegacyCurrentView.candidateIds (v : LegacyCurrentView) (store : LegacyDefinitionStore)
    (pattern : Pattern) (binding : BindingDict) : Except String (List ℕ) :=
  match resolveTerm pattern.subject.any binding, resolveTerm pattern.predicate.any binding,
    resolveTerm pattern.object.any binding with
  | some subject, some predicate, some object => do
    let subject ← assertAtom subject
    let predicate ← assertPredicate predicate
    let object ← assertAtom object
    pure ((v.byExact.lookup ⟨subject, predicate, object⟩).getD ∅).sort
  | some subject, some predicate, none => do
    let subject ← assertAtom subject
    let predicate ← assertPredicate predicate
    pure ((v.bySubjectPredicate.lookup (subject, predicate)).getD ∅).sort
  | some subject, none, some object => do
    let subject ← assertAtom subject
    let object ← assertAtom object
    pure ((v.bySubjectObject.lookup (subject, object)).getD ∅).sort
  | none, some predicate, some object => do
    let predicate ← assertPredicate predicate
    let object ← assertAtom object
    pure ((v.byPredicateObject.lookup (predicate, object)).getD ∅).sort
  | some subject, none, none => do
    let subject ← assertAtom subject
    pure ((v.bySubject.lookup subject).getD ∅).sort
  | none, some predicate, none => do
    let predicate ← assertPredicate predicate
    pure ((v.byPredicate.lookup predicate).getD ∅).sort
  | none, none, some object => do
    let object ← assertAtom object
    pure ((v.byObject.lookup object).getD ∅).sort
  | none, none, none => pure store.activeRecordIds.sort

/-! ## The walk -/

namespace QueryExecutor

def strAtom : Atom → String
  | .entity e => s!"Entity_{e.value}"
  | .literal l => l.value

def strTerm : Term → String
  | .atom atom => strAtom atom
  | .var v => s!"?{v.name}"

def strPredicateTerm : PredicateTerm → String
  | .predicate predicate => predicate.value
  | .var v => s!"?{v.name}"

def patternKey (pattern : Pattern) : String :=
  s!"{strTerm pattern.subject} {strPredicateTerm pattern.predicate} {strTerm pattern.object}"

/-- The metrics, with the counts by pattern. -/
structure Metrics where
  total : QueryMetrics
  candidatesByPattern : Dict String ℕ
  emittedByPattern : Dict String ℕ

/-- `counts[key] += count` on a `defaultdict(int)`. -/
def addTo (counts : Dict String ℕ) (key : String) (count : ℕ) : Dict String ℕ :=
  counts.insert key ((counts.lookup key).getD 0 + count)

def Metrics.addCandidates (m : Metrics) (key : String) (count : ℕ) : Metrics :=
  { m with
    total := { m.total with candidateFacts := m.total.candidateFacts + count }
    candidatesByPattern := addTo m.candidatesByPattern key count }

def Metrics.addEmitted (m : Metrics) (key : String) : Metrics :=
  { m with
    total := { m.total with bindingsEmitted := m.total.bindingsEmitted + 1 }
    emittedByPattern := addTo m.emittedByPattern key 1 }

structure Frame where
  binding : BindingDict
  provenance : List SlotId

/-- The variables that `walk` writes. -/
structure State where
  output : List Frame
  firstPath : List Pattern
  metrics : Metrics

def unifyPattern (pattern : Pattern) (fact : Fact) (binding : BindingDict) :
    Option BindingDict := do
  let binding ← unify pattern.subject.any (.ofAtom fact.subject) binding
  let binding ← unify pattern.predicate.any (.predicate fact.predicate) binding
  unify pattern.object.any (.ofAtom fact.object) binding

/-- The loop of `walk` over `_match`: `true` stops the walk. -/
def matchAll (record : ℕ → Except String Record) (pattern : Pattern) (frame : Frame)
    (walk : Frame → State → Except String (Bool × State)) :
    List ℕ → State → Except String (Bool × State)
  | [], state => .ok (false, state)
  | recordId :: recordIds, state =>
    match record recordId with
    | .error e => .error e
    | .ok found =>
      match found.fact with
      | none => matchAll record pattern frame walk recordIds state
      | some fact =>
        match unifyPattern pattern fact frame.binding with
        | none => matchAll record pattern frame walk recordIds state
        | some binding =>
          let metrics := state.metrics.addEmitted (patternKey pattern)
          match walk ⟨binding, frame.provenance ++ [found.slot]⟩
              { state with metrics := metrics } with
          | .error e => .error e
          | .ok (true, state) => .ok (true, state)
          | .ok (false, state) => matchAll record pattern frame walk recordIds state

section

variable (v : LegacyCurrentView) (store : LegacyDefinitionStore)

/-- The lengths that the planner compares. -/
def counts (binding : BindingDict) : List Pattern → Except String (List ℕ)
  | [] => .ok []
  | pattern :: patterns => do
    let candidateIds ← v.candidateIds store pattern binding
    let rest ← counts binding patterns
    pure (candidateIds.length :: rest)

/-- The pattern to match next. -/
def chosen (options : QueryOptions) (remaining : List Pattern) (binding : BindingDict) :
    Except String (Option Pattern) :=
  if options.optimize then do
    let lengths ← counts v store binding remaining
    pure remaining[minimumIndex lengths]?
  else .ok remaining[0]?

/-- `walk`. The first argument is the number of the remaining patterns. -/
def walk (options : QueryOptions) :
    ℕ → Frame → List Pattern → ℕ → State → Except String (Bool × State)
  | 0, frame, _, _, state =>
    let output := state.output ++ [frame]
    .ok (options.limit.any fun limit => limit ≤ output.length, { state with output := output })
  | count + 1, frame, remaining, depth, state =>
    match chosen v store options remaining frame.binding with
    | .error e => .error e
    | .ok none => .error "IndexError"
    | .ok (some chosen) =>
      let firstPath :=
        if depth = state.firstPath.length then state.firstPath ++ [chosen] else state.firstPath
      match v.candidateIds store chosen frame.binding with
      | .error e => .error e
      | .ok candidateIds =>
        let metrics := state.metrics.addCandidates (patternKey chosen) candidateIds.length
        matchAll store.record chosen frame
          (fun frame => walk options count frame (remaining.erase chosen) (depth + 1))
          candidateIds { state with firstPath := firstPath, metrics := metrics }

end

/-! ## The rows -/

def boundKey : BoundValue → String ×ₗ String
  | .entity e => toLex ("entity", toString e.value)
  | .literal l => toLex ("literal", l.value)
  | .predicate p => toLex ("predicate", p.value)

abbrev BindingKey : Type := List (String ×ₗ String ×ₗ String)

def bindingKey (binding : BindingDict) : BindingKey :=
  (binding.entries.map fun e => toLex (e.1, boundKey e.2)).insertionSort (· ≤ ·)

/-- The frames with a key that no frame before has. -/
def dedupe (seen : List BindingKey) : List Frame → List Frame
  | [] => []
  | frame :: frames =>
    if bindingKey frame.binding ∈ seen then dedupe seen frames
    else frame :: dedupe (bindingKey frame.binding :: seen) frames

/-- The key of the sort. -/
def Frame.key (frame : Frame) : BindingKey ×ₗ List String :=
  toLex (bindingKey frame.binding, frame.provenance.map SlotId.value)

structure Row where
  binding : BindingDict
  provenance : List SlotId

structure Result where
  rows : List Row
  chosenFirstPath : List Pattern
  metrics : Metrics

def rowsOf (options : QueryOptions) (output : List Frame) : List Row :=
  ((if options.distinct then dedupe [] output else output).insertionSort
      fun left right => left.key ≤ right.key).map fun frame =>
    { binding := frame.binding
      provenance := if options.includeProvenance then frame.provenance else [] }

def execute (v : LegacyCurrentView) (store : LegacyDefinitionStore) (patterns : List Pattern)
    (options : QueryOptions) : Except String Result := do
  let (_, state) ← walk v store options patterns.length ⟨.empty, []⟩ patterns 0
    ⟨[], [], ⟨⟨0, 0⟩, ∅, ∅⟩⟩
  pure {
    rows := rowsOf options state.output
    chosenFirstPath := state.firstPath
    metrics := state.metrics }

end QueryExecutor

def PythonForthDb.query (k : PythonForthDb) (patterns : List Pattern) (options : QueryOptions) :
    Except String QueryExecutor.Result :=
  execute k.view k.store patterns options

/-! ## Bindings as those of `forthdb-core` -/

namespace BindingDict

/-- The same binding as a `BTreeMap`. -/
def toBinding (b : BindingDict) : Binding :=
  b.entries.foldl (fun binding entry => binding.insert entry.1 entry.2) .new

theorem get_foldl {entries : List (String × BoundValue)} (h : (entries.map Prod.fst).Nodup)
    (binding : Binding) (name : String) :
    (entries.foldl (fun binding entry => binding.insert entry.1 entry.2) binding).get name =
      (entries.lookup name).or (binding.get name) := by
  induction entries generalizing binding with
  | nil => rfl
  | cons entry entries ih =>
    obtain ⟨k, value⟩ := entry
    rw [List.map_cons, List.nodup_cons] at h
    have ih' := ih h.2 (binding.insert k value)
    rw [List.foldl_cons, ih', Binding.get_insert, List.lookup_cons]
    by_cases hk : name = k
    · -- the names behind it are others
      subst hk
      have hnone : entries.lookup name = none := by
        rw [List.lookup_eq_none_iff]
        intro e he
        have hmem : e.1 ∈ entries.map Prod.fst := List.mem_map_of_mem he
        have hne : name ≠ e.1 := fun heq => h.1 (heq ▸ hmem)
        simpa using hne
      simp [hnone]
    · have hb : (name == k) = false := by simpa using hk
      simp [hk, hb]

theorem get_toBinding (b : BindingDict) (name : String) : b.toBinding.get name = b.get name := by
  have h := get_foldl b.nodup .new name
  rw [show Binding.new.get name = none from rfl, Option.or_none] at h
  exact h

theorem toBinding_extend (b : BindingDict) {name : String} (value : BoundValue)
    (h : b.get name = none) : (b.extend name value h).toBinding = b.toBinding.insert name value := by
  unfold toBinding extend
  rw [List.foldl_append]
  rfl

/-- The entries in ascending order of the names. -/
theorem entries_perm (b : BindingDict) : b.entries.Perm b.toBinding.entries := by
  have hnodup : b.entries.Nodup := List.Nodup.of_map _ b.nodup
  have hsorted : b.toBinding.entries.Nodup :=
    b.toBinding.sorted.imp fun {x y} (hlt : x.1 < y.1) heq => absurd (heq ▸ hlt) (lt_irrefl _)
  refine (List.perm_ext_iff_of_nodup hnodup hsorted).2 fun e => ?_
  obtain ⟨name, value⟩ := e
  rw [Binding.mem_entries, get_toBinding]
  refine ⟨fun he => ?_, mem_of_get⟩
  cases hget : b.get name with
  | none => exact absurd (List.mem_map_of_mem he) (notMem_of_get hget)
  | some value' =>
    have hsame := List.inj_on_of_nodup_map b.nodup he (mem_of_get hget) rfl
    rw [(Prod.mk.inj hsame).2]

end BindingDict

namespace QueryExecutor

theorem unifyVariable_toBinding (v : Variable) (value : BoundValue) (b : BindingDict) :
    (unify (.inr v) value b).map BindingDict.toBinding = unifyVariable v value b.toBinding := by
  unfold unify unifyVariable
  simp only
  split
  · rename_i existing h
    have hget : b.toBinding.get v.name = some existing := (b.get_toBinding v.name).trans h
    rw [hget]
    simp only
    split <;> rfl
  · rename_i h
    have hget : b.toBinding.get v.name = none := (b.get_toBinding v.name).trans h
    rw [hget]
    simp only [Option.map_some, BindingDict.toBinding_extend]

theorem unifyTerm_toBinding (term : Term) (value : BoundValue) (b : BindingDict) :
    (unify term.any value b).map BindingDict.toBinding = unifyTerm term value b.toBinding := by
  cases term with
  | var v => exact unifyVariable_toBinding v value b
  | atom a =>
    have hiff : BoundValue.ofAtom a = value ↔ value.asAtom = some a := by
      cases a <;> cases value <;> simp [BoundValue.ofAtom, BoundValue.asAtom, eq_comm]
    simp only [Term.any, unify, unifyTerm, hiff]
    split <;> rfl

theorem unifyPredicate_toBinding (term : PredicateTerm) (value : BoundValue) (b : BindingDict) :
    (unify term.any value b).map BindingDict.toBinding =
      unifyPredicate term value b.toBinding := by
  cases term with
  | var v => exact unifyVariable_toBinding v value b
  | predicate p =>
    have hiff : BoundValue.predicate p = value ↔ value.asPredicate = some p := by
      cases value <;> simp [BoundValue.asPredicate, eq_comm]
    simp only [PredicateTerm.any, unify, unifyPredicate, hiff]
    split <;> rfl

/-- **A pattern is unified** as by `forthdb-core`. -/
theorem unifyPattern_toBinding (pattern : Pattern) (fact : Fact) (b : BindingDict) :
    (unifyPattern pattern fact b).map BindingDict.toBinding =
      ForthDB.unifyPattern pattern fact b.toBinding := by
  unfold unifyPattern ForthDB.unifyPattern
  simp only [bind]
  rw [← unifyTerm_toBinding]
  cases unify pattern.subject.any (.ofAtom fact.subject) b with
  | none => rfl
  | some b₁ =>
    simp only [Option.bind_some, Option.map_some]
    rw [← unifyPredicate_toBinding]
    cases unify pattern.predicate.any (.predicate fact.predicate) b₁ with
    | none => rfl
    | some b₂ =>
      simp only [Option.bind_some, Option.map_some]
      exact unifyTerm_toBinding pattern.object _ b₂

/-! ## Candidates -/

theorem resolvedAtom_toBinding (term : Term) (b : BindingDict) :
    resolvedAtom term b.toBinding = (resolveTerm term.any b).bind BoundValue.asAtom := by
  cases term with
  | atom a => simp [resolvedAtom, resolveTerm, Term.any]
  | var v => simp only [resolvedAtom, resolveTerm, Term.any, b.get_toBinding]

theorem resolvedPredicate_toBinding (term : PredicateTerm) (b : BindingDict) :
    resolvedPredicate term b.toBinding =
      (resolveTerm term.any b).bind BoundValue.asPredicate := by
  cases term with
  | predicate p => rfl
  | var v => simp only [resolvedPredicate, resolveTerm, PredicateTerm.any, b.get_toBinding]

theorem assertAtom_some {value : BoundValue} {a : Atom} (h : value.asAtom = some a) :
    assertAtom value = .ok a := by
  unfold assertAtom
  rw [h]

theorem assertAtom_none {value : BoundValue} (h : value.asAtom = none) :
    assertAtom value = .error "AssertionError" := by
  unfold assertAtom
  rw [h]

theorem assertPredicate_some {value : BoundValue} {p : Predicate}
    (h : value.asPredicate = some p) : assertPredicate value = .ok p := by
  unfold assertPredicate
  rw [h]

theorem assertPredicate_none {value : BoundValue} (h : value.asPredicate = none) :
    assertPredicate value = .error "AssertionError" := by
  unfold assertPredicate
  rw [h]

/-- A known position of a pattern is misplaced if its value is of another kind. -/
theorem misplaced_of_atom {term : Term} {b : BindingDict} {value : BoundValue}
    (h : resolveTerm term.any b = some value) (hnone : value.asAtom = none) :
    ∃ v, term = .var v ∧ b.toBinding.get v.name = some value := by
  cases term with
  | atom a =>
    obtain rfl := Option.some.inj h
    simp at hnone
  | var v => exact ⟨v, rfl, (b.get_toBinding v.name).trans h⟩

theorem misplaced_of_predicate {term : PredicateTerm} {b : BindingDict} {value : BoundValue}
    (h : resolveTerm term.any b = some value) (hnone : value.asPredicate = none) :
    ∃ v, term = .var v ∧ b.toBinding.get v.name = some value := by
  cases term with
  | predicate p =>
    obtain rfl := Option.some.inj h
    cases hnone
  | var v => exact ⟨v, rfl, (b.get_toBinding v.name).trans h⟩

/-- **The candidates** are those of `forthdb-core`, or a variable is misplaced. -/
theorem candidateIds_spec (v : LegacyCurrentView) (store : LegacyDefinitionStore)
    (pattern : Pattern) (b : BindingDict) :
    v.candidateIds store pattern b = .ok (v.candidates store pattern b.toBinding) ∨
      v.candidateIds store pattern b = .error "AssertionError" ∧
        Misplaced pattern b.toBinding := by
  unfold LegacyCurrentView.candidateIds LegacyCurrentView.candidates
  rw [resolvedAtom_toBinding, resolvedPredicate_toBinding, resolvedAtom_toBinding]
  have hsubject : ∀ value, resolveTerm pattern.subject.any b = some value →
      value.asAtom = none → Misplaced pattern b.toBinding := by
    intro value h hnone
    obtain ⟨u, hu, hget⟩ := misplaced_of_atom h hnone
    exact .inl ⟨u, value, hu, hget, hnone⟩
  have hpredicate : ∀ value, resolveTerm pattern.predicate.any b = some value →
      value.asPredicate = none → Misplaced pattern b.toBinding := by
    intro value h hnone
    obtain ⟨u, hu, hget⟩ := misplaced_of_predicate h hnone
    exact .inr (.inl ⟨u, value, hu, hget, hnone⟩)
  have hobject : ∀ value, resolveTerm pattern.object.any b = some value →
      value.asAtom = none → Misplaced pattern b.toBinding := by
    intro value h hnone
    obtain ⟨u, hu, hget⟩ := misplaced_of_atom h hnone
    exact .inr (.inr ⟨u, value, hu, hget, hnone⟩)
  -- every known position is asserted, so one of another kind is an exception in every case
  rcases hs : resolveTerm pattern.subject.any b with _ | s <;>
    rcases hp : resolveTerm pattern.predicate.any b with _ | p <;>
    rcases ho : resolveTerm pattern.object.any b with _ | o <;>
    simp only [Option.bind_none, Option.bind_some]
  · exact .inl rfl
  · rcases ho' : o.asAtom with _ | object
    · exact .inr ⟨by rw [assertAtom_none ho']; rfl, hobject o ho ho'⟩
    · exact .inl (by rw [assertAtom_some ho']; rfl)
  · rcases hp' : p.asPredicate with _ | predicate
    · exact .inr ⟨by rw [assertPredicate_none hp']; rfl, hpredicate p hp hp'⟩
    · exact .inl (by rw [assertPredicate_some hp']; rfl)
  · rcases hp' : p.asPredicate with _ | predicate
    · exact .inr ⟨by rw [assertPredicate_none hp']; rfl, hpredicate p hp hp'⟩
    rcases ho' : o.asAtom with _ | object
    · exact .inr ⟨by rw [assertPredicate_some hp', assertAtom_none ho']; rfl, hobject o ho ho'⟩
    · exact .inl (by rw [assertPredicate_some hp', assertAtom_some ho']; rfl)
  · rcases hs' : s.asAtom with _ | subject
    · exact .inr ⟨by rw [assertAtom_none hs']; rfl, hsubject s hs hs'⟩
    · exact .inl (by rw [assertAtom_some hs']; rfl)
  · rcases hs' : s.asAtom with _ | subject
    · exact .inr ⟨by rw [assertAtom_none hs']; rfl, hsubject s hs hs'⟩
    rcases ho' : o.asAtom with _ | object
    · exact .inr ⟨by rw [assertAtom_some hs', assertAtom_none ho']; rfl, hobject o ho ho'⟩
    · exact .inl (by rw [assertAtom_some hs', assertAtom_some ho']; rfl)
  · rcases hs' : s.asAtom with _ | subject
    · exact .inr ⟨by rw [assertAtom_none hs']; rfl, hsubject s hs hs'⟩
    rcases hp' : p.asPredicate with _ | predicate
    · exact .inr ⟨by rw [assertAtom_some hs', assertPredicate_none hp']; rfl,
        hpredicate p hp hp'⟩
    · exact .inl (by rw [assertAtom_some hs', assertPredicate_some hp']; rfl)
  · rcases hs' : s.asAtom with _ | subject
    · exact .inr ⟨by rw [assertAtom_none hs']; rfl, hsubject s hs hs'⟩
    rcases hp' : p.asPredicate with _ | predicate
    · exact .inr ⟨by rw [assertAtom_some hs', assertPredicate_none hp']; rfl,
        hpredicate p hp hp'⟩
    rcases ho' : o.asAtom with _ | object
    · exact .inr ⟨by rw [assertAtom_some hs', assertPredicate_some hp', assertAtom_none ho']; rfl,
        hobject o ho ho'⟩
    · exact .inl (by rw [assertAtom_some hs', assertPredicate_some hp', assertAtom_some ho']; rfl)

/-! ## Variables used in one kind of position -/

/-- No variable is both a predicate and a subject or an object. -/
def Separated (patterns : List Pattern) : Prop :=
  ∀ p ∈ patterns, ∀ u, p.predicate = .var u → ∀ q ∈ patterns, ∀ v,
    q.subject = .var v ∨ q.object = .var v → u.name ≠ v.name

/-- No variable of the patterns is bound to a value of the wrong kind. -/
def Kinded (patterns : List Pattern) (b : Binding) : Prop := ∀ p ∈ patterns, ¬Misplaced p b

theorem kinded_new (patterns : List Pattern) : Kinded patterns .new := by
  intro p _ h
  rcases h with ⟨v, x, -, hx, -⟩ | ⟨v, x, -, hx, -⟩ | ⟨v, x, -, hx, -⟩ <;> cases hx

/-- A variable that a pattern binds gets a value of the kind of its position. -/
theorem Separated.atom_bound {patterns : List Pattern} (hsep : Separated patterns)
    {p q : Pattern} (hp : p ∈ patterns) (hq : q ∈ patterns) {fact : Fact} {c : Binding}
    (hmatches : Matches p fact c) {v : Variable} (hv : q.subject = .var v ∨ q.object = .var v)
    (hname : p.Names v.name) {x : BoundValue} (hx : c.get v.name = some x) : x.asAtom ≠ none := by
  obtain ⟨hsubject, -, hobject⟩ := hmatches
  rcases hname with ⟨u, hu, hun⟩ | ⟨u, hu, hun⟩ | ⟨u, hu, hun⟩
  · rw [hu] at hsubject
    have hget : c.get u.name = some (.ofAtom fact.subject) := hsubject
    rw [hun, hx] at hget
    simp [Option.some.inj hget]
  · exact absurd hun (hsep p hp u hu q hq v hv)
  · rw [hu] at hobject
    have hget : c.get u.name = some (.ofAtom fact.object) := hobject
    rw [hun, hx] at hget
    simp [Option.some.inj hget]

theorem Separated.predicate_bound {patterns : List Pattern} (hsep : Separated patterns)
    {p q : Pattern} (hp : p ∈ patterns) (hq : q ∈ patterns) {fact : Fact} {c : Binding}
    (hmatches : Matches p fact c) {v : Variable} (hv : q.predicate = .var v)
    (hname : p.Names v.name) {x : BoundValue} (hx : c.get v.name = some x) :
    x.asPredicate ≠ none := by
  rcases hname with ⟨u, hu, hun⟩ | ⟨u, hu, hun⟩ | ⟨u, hu, hun⟩
  · exact absurd hun.symm (hsep q hq v hv p hp u (.inl hu))
  · have hpredicate := hmatches.predicate
    rw [hu] at hpredicate
    have hget : c.get u.name = some (.predicate fact.predicate) := hpredicate
    rw [hun, hx] at hget
    simp [Option.some.inj hget, BoundValue.asPredicate]
  · exact absurd hun.symm (hsep q hq v hv p hp u (.inr hu))

/-- **Unification keeps the kinds.** -/
theorem Separated.kinded {patterns : List Pattern} (hsep : Separated patterns) {p : Pattern}
    (hp : p ∈ patterns) {fact : Fact} {b c : Binding} (hb : Kinded patterns b)
    (h : ForthDB.unifyPattern p fact b = some c) : Kinded patterns c := by
  obtain ⟨hext, hmatches⟩ := unifyPattern_spec h
  -- a bound name was bound before, or the pattern binds it
  have hold : ∀ name x, c.get name = some x → b.get name = some x ∨ p.Names name := by
    intro name x hx
    have hbound := @unifyPattern_bound _ _ _ _ h name (by rw [hx]; exact Option.some_ne_none _)
    rcases hbound with hbound | hbound
    · obtain ⟨y, hy⟩ := Option.ne_none_iff_exists'.1 hbound
      have hyx := hext name y hy
      rw [hx] at hyx
      exact .inl (by rw [hy, Option.some.inj hyx])
    · exact .inr hbound
  intro q hq hmis
  rcases hmis with ⟨v, x, hv, hx, hn⟩ | ⟨v, x, hv, hx, hn⟩ | ⟨v, x, hv, hx, hn⟩
  · rcases hold _ _ hx with hx' | hname
    · exact hb q hq (.inl ⟨v, x, hv, hx', hn⟩)
    · exact hsep.atom_bound hp hq hmatches (.inl hv) hname hx hn
  · rcases hold _ _ hx with hx' | hname
    · exact hb q hq (.inr (.inl ⟨v, x, hv, hx', hn⟩))
    · exact hsep.predicate_bound hp hq hmatches hv hname hx hn
  · rcases hold _ _ hx with hx' | hname
    · exact hb q hq (.inr (.inr ⟨v, x, hv, hx', hn⟩))
    · exact hsep.atom_bound hp hq hmatches (.inr hv) hname hx hn

/-! ## The walk as that of `forthdb-core` -/

def Frame.toFrame (frame : Frame) : QueryFrame := ⟨frame.binding.toBinding, frame.provenance⟩

def State.toWalk (state : State) : WalkState :=
  ⟨state.output.map Frame.toFrame, state.firstPath, state.metrics.total⟩

/-- The walks end alike, or this one raises because a variable is used in both positions. -/
def Parallels (patterns : List Pattern) (result : Except String (Bool × State))
    (result' : Except String (Bool × WalkState)) : Prop :=
  (∃ stop state, result = .ok (stop, state) ∧ result' = .ok (stop, state.toWalk)) ∨
    result = .error "AssertionError" ∧ ¬Separated patterns

theorem visitRecord_ok {record : ℕ → Except String Record} {pattern : Pattern} {b : Binding}
    {i : ℕ} (h : ∃ result, visitRecord record pattern b i = .ok result) :
    ∃ found fact, record i = .ok found ∧ found.fact = some fact ∧
      visitRecord record pattern b i =
        .ok ((ForthDB.unifyPattern pattern fact b).map fun c => (c, found.slot)) := by
  obtain ⟨result, h⟩ := h
  unfold visitRecord at h ⊢
  cases hi : record i with
  | error e => rw [hi] at h; cases h
  | ok found =>
    rw [hi] at h
    cases hfact : found.fact with
    | none => simp [bind, Except.bind, hfact] at h
    | some fact => exact ⟨found, fact, rfl, hfact, by simp [bind, Except.bind, hfact, pure, Except.pure]⟩

section

variable {patterns : List Pattern}

theorem matchAll_parallels {record : ℕ → Except String Record} {pattern : Pattern}
    {frame : Frame} {walk : Frame → State → Except String (Bool × State)}
    {walk' : QueryFrame → WalkState → Except String (Bool × WalkState)} {recordIds : List ℕ}
    (hvisit : ∀ i ∈ recordIds, ∃ result,
      visitRecord record pattern frame.binding.toBinding i = .ok result)
    (hwalk : ∀ fact c, unifyPattern pattern fact frame.binding = some c →
      ∀ provenance state, Parallels patterns (walk ⟨c, provenance⟩ state)
        (walk' ⟨c.toBinding, provenance⟩ state.toWalk)) (state : State) :
    Parallels patterns (matchAll record pattern frame walk recordIds state)
      (visitAll (visitRecord record pattern frame.binding.toBinding) frame.provenance walk'
        recordIds state.toWalk) := by
  induction recordIds generalizing state with
  | nil => exact .inl ⟨false, state, rfl, rfl⟩
  | cons i recordIds ih =>
    have ih' := ih fun j hj => hvisit j (List.mem_cons_of_mem _ hj)
    obtain ⟨found, fact, hfound, hfact, hvisited⟩ := visitRecord_ok (hvisit i List.mem_cons_self)
    have hunify := unifyPattern_toBinding pattern fact frame.binding
    unfold matchAll visitAll
    rw [hfound, hvisited]
    simp only [hfact]
    cases hc : unifyPattern pattern fact frame.binding with
    | none =>
      rw [hc] at hunify
      rw [← hunify]
      exact ih' state
    | some c =>
      rw [hc] at hunify
      rw [← hunify]
      simp only [Option.map_some]
      set state₁ : State :=
        { state with metrics := state.metrics.addEmitted (patternKey pattern) } with hstate₁
      have hnext := hwalk fact c hc (frame.provenance ++ [found.slot]) state₁
      rcases hnext with ⟨stop, state₂, hok, hok'⟩ | ⟨herror, hsep⟩
      · have hwalk' : walk' ⟨c.toBinding, frame.provenance ++ [found.slot]⟩
            { state.toWalk with
              metrics := { state.toWalk.metrics with
                bindingsEmitted := state.toWalk.metrics.bindingsEmitted + 1 } } =
            .ok (stop, state₂.toWalk) := hok'
        rw [hok, hwalk']
        cases stop with
        | true => exact .inl ⟨true, state₂, rfl, rfl⟩
        | false => exact ih' state₂
      · rw [herror]
        exact .inr ⟨rfl, hsep⟩

variable {k : LegacyForthDb}

theorem counts_spec (b : BindingDict) (remaining : List Pattern) :
    counts k.view k.store b remaining =
        .ok (remaining.map fun p => k.source.candidateCount p b.toBinding) ∨
      counts k.view k.store b remaining = .error "AssertionError" ∧
        ∃ p ∈ remaining, Misplaced p b.toBinding := by
  induction remaining with
  | nil => exact .inl rfl
  | cons p remaining ih =>
    unfold counts
    rcases candidateIds_spec k.view k.store p b with hids | ⟨hids, hmis⟩
    · rw [hids]
      rcases ih with hrest | ⟨hrest, q, hq, hmis⟩
      · rw [hrest]
        exact .inl rfl
      · rw [hrest]
        exact .inr ⟨rfl, q, List.mem_cons_of_mem _ hq, hmis⟩
    · rw [hids]
      exact .inr ⟨rfl, p, List.mem_cons_self, hmis⟩

theorem chosen_spec (options : QueryOptions) (remaining : List Pattern) (b : BindingDict) :
    chosen k.view k.store options remaining b =
        .ok remaining[k.source.chosenIndex options remaining b.toBinding]? ∨
      chosen k.view k.store options remaining b = .error "AssertionError" ∧
        ∃ p ∈ remaining, Misplaced p b.toBinding := by
  unfold chosen QuerySource.chosenIndex
  by_cases ho : options.optimize = true
  · rw [if_pos ho, if_pos ho]
    rcases counts_spec (k := k) b remaining with hcounts | ⟨hcounts, hmis⟩
    · rw [hcounts]
      exact .inl rfl
    · rw [hcounts]
      exact .inr ⟨rfl, hmis⟩
  · rw [if_neg ho, if_neg ho]
    exact .inl rfl

/-- The first of the least values belongs to the first pattern that is equal to its own. -/
theorem idxOf_of_least {f : Pattern → ℕ} {least : ℕ} {remaining : List Pattern} {p : Pattern}
    (h : remaining[(remaining.map f).idxOf least]? = some p) :
    remaining.idxOf p = (remaining.map f).idxOf least := by
  induction remaining with
  | nil => simp at h
  | cons q remaining ih =>
    rw [List.map_cons] at h ⊢
    by_cases hq : f q = least
    · rw [hq, List.idxOf_cons_self] at h ⊢
      obtain rfl := Option.some.inj h
      exact List.idxOf_cons_self
    · rw [List.idxOf_cons_ne _ hq] at h ⊢
      rw [List.getElem?_cons_succ] at h
      have hp : f p = least := by
        obtain ⟨hlt, hget⟩ := List.getElem?_eq_some_iff.1 h
        have hmap : (remaining.map f).idxOf least < (remaining.map f).length := by
          rw [List.length_map]; exact hlt
        have hat := List.getElem_idxOf hmap
        rw [List.getElem_map, hget] at hat
        exact hat
      have hne : q ≠ p := fun heq => hq (heq ▸ hp)
      rw [List.idxOf_cons_ne _ hne, ih h]

/-- `rest.remove(chosen)` removes the pattern at the chosen index. -/
theorem erase_chosen (source : QuerySource ℕ) (options : QueryOptions) {remaining : List Pattern}
    {b : Binding} {p : Pattern} (h : remaining[source.chosenIndex options remaining b]? = some p) :
    remaining.erase p = remaining.eraseIdx (source.chosenIndex options remaining b) := by
  refine List.erase_eq_eraseIdx_of_idxOf ?_
  unfold QuerySource.chosenIndex at h ⊢
  by_cases ho : options.optimize = true
  · rw [if_pos ho] at h ⊢
    exact idxOf_of_least h
  · rw [if_neg ho] at h ⊢
    cases remaining with
    | nil => simp at h
    | cons q remaining =>
      obtain rfl := Option.some.inj h
      exact List.idxOf_cons_self

/-- **The walk** is the walk of `forthdb-core`, step by step. -/
theorem walk_parallels (hvisits : k.source.Visits) (options : QueryOptions) (count : ℕ)
    (frame : Frame) (remaining : List Pattern) (hcount : remaining.length = count)
    (hsub : ∀ p ∈ remaining, p ∈ patterns)
    (hkinded : Separated patterns → Kinded patterns frame.binding.toBinding) (depth : ℕ)
    (state : State) :
    Parallels patterns (walk k.view k.store options count frame remaining depth state)
      (k.source.walkQuery options count frame.toFrame remaining depth state.toWalk) := by
  induction count generalizing frame remaining depth state with
  | zero =>
    refine .inl ⟨_, _, rfl, ?_⟩
    unfold QuerySource.walkQuery State.toWalk
    simp only [List.map_append, List.map_cons, List.map_nil, List.length_append, List.length_map,
      List.length_singleton]
  | succ count ih =>
    have hne : remaining ≠ [] := by
      rintro rfl
      simp at hcount
    have hraises : (∃ p ∈ remaining, Misplaced p frame.binding.toBinding) →
        ¬Separated patterns := by
      rintro ⟨p, hp, hmis⟩ hsep
      exact hkinded hsep p (hsub p hp) hmis
    unfold walk QuerySource.walkQuery
    have hlt := QuerySource.chosenIndex_lt k.source options hne frame.binding.toBinding
    rcases chosen_spec (k := k) options remaining frame.binding with hchosen | ⟨herror, hmis⟩
    · set index := k.source.chosenIndex options remaining frame.binding.toBinding with hindex
      have hat : remaining[index]? = some remaining[index] := List.getElem?_eq_getElem hlt
      have herase : remaining.erase remaining[index] = remaining.eraseIdx index :=
        erase_chosen k.source options (b := frame.binding.toBinding) hat
      rw [hchosen, hat]
      simp only
      rw [show k.source.chosenIndex options remaining frame.toFrame.binding = index from rfl, hat]
      simp only
      have hmem : remaining[index] ∈ remaining := List.getElem_mem hlt
      rcases candidateIds_spec k.view k.store remaining[index] frame.binding with
        hids | ⟨hids, hmis⟩
      · rw [hids]
        simp only
        refine matchAll_parallels (hvisits _ _) (fun fact c hc provenance state' => ?_) _
        have hunify := unifyPattern_toBinding remaining[index] fact frame.binding
        rw [hc] at hunify
        rw [herase]
        refine ih ⟨c, provenance⟩ _ ?_ (fun p hp => hsub p (List.mem_of_mem_eraseIdx hp)) ?_ _ _
        · rw [List.length_eraseIdx_of_lt hlt]; omega
        · intro hsep
          exact hsep.kinded (hsub _ hmem) (hkinded hsep) hunify.symm
      · rw [hids]
        exact .inr ⟨rfl, hraises ⟨_, hmem, hmis⟩⟩
    · rw [herror]
      exact .inr ⟨rfl, hraises hmis⟩

end

/-! ## The rows -/

theorem boundKey_injective : Function.Injective boundKey := by
  have hdigits : ∀ m n : ℕ, toString m = toString n → m = n := by
    intro m n h
    have hlist : Nat.toDigits 10 m = Nat.toDigits 10 n := by
      rw [← Nat.toList_repr, ← Nat.toList_repr, ← Nat.toString_eq_repr, h, Nat.toString_eq_repr]
    rw [← @Nat.ofDigitChars_ten_toDigits m, hlist, Nat.ofDigitChars_ten_toDigits]
  -- the kind of a value is spelled out in its key
  have hentity : "entity" ≠ "literal" ∧ "entity" ≠ "predicate" ∧ "literal" ≠ "predicate" := by decide
  intro x y h
  have hkey := Prod.mk.inj (toLex_inj.1 h)
  rcases x with ⟨⟨m⟩⟩ | ⟨⟨s⟩⟩ | ⟨⟨s⟩⟩ <;> rcases y with ⟨⟨n⟩⟩ | ⟨⟨t⟩⟩ | ⟨⟨t⟩⟩
  case entity.entity => rw [hdigits m n hkey.2]
  case literal.literal => exact congrArg _ (congrArg _ hkey.2)
  case predicate.predicate => exact congrArg _ (congrArg _ hkey.2)
  case entity.literal => exact absurd hkey.1 hentity.1
  case entity.predicate => exact absurd hkey.1 hentity.2.1
  case literal.entity => exact absurd hkey.1.symm hentity.1
  case literal.predicate => exact absurd hkey.1 hentity.2.2
  case predicate.entity => exact absurd hkey.1.symm hentity.2.1
  case predicate.literal => exact absurd hkey.1.symm hentity.2.2

/-- The key of a binding of `forthdb-core`. -/
def keyOf (b : Binding) : BindingKey := b.entries.map fun e => toLex (e.1, boundKey e.2)

theorem keyOf_injective : Function.Injective keyOf := by
  intro b c h
  have hentry : Function.Injective fun e : String × BoundValue =>
      (toLex (e.1, boundKey e.2) : String ×ₗ String ×ₗ String) := by
    rintro ⟨n, v⟩ ⟨n', v'⟩ he
    obtain ⟨hn, hv⟩ := Prod.mk.inj (toLex.injective he)
    obtain rfl : n = n' := hn
    obtain rfl : v = v' := boundKey_injective hv
    rfl
  have hentries : b.entries = c.entries := List.map_injective_iff.2 hentry h
  cases b
  cases c
  cases hentries
  rfl

/-- The key of a binding does not depend on the order of its variables. -/
theorem bindingKey_eq (b : BindingDict) : bindingKey b = keyOf b.toBinding := by
  have hsorted : (keyOf b.toBinding).Pairwise (· ≤ ·) := by
    unfold keyOf
    rw [List.pairwise_map]
    refine b.toBinding.sorted.imp fun {x y} hlt => le_of_lt ?_
    exact Prod.Lex.lt_iff.2 (.inl hlt)
  have hperm : (bindingKey b).Perm (keyOf b.toBinding) :=
    (List.perm_insertionSort _ _).trans (b.entries_perm.map _)
  exact hperm.eq_of_pairwise (fun x y _ _ hxy hyx => le_antisymm hxy hyx)
    (List.pairwise_insertionSort _ _) hsorted

/-- **Duplicates** are those of `forthdb-core`. -/
theorem dedupe_toFrame (seen : List Binding) (frames : List Frame) :
    (dedupe (seen.map keyOf) frames).map Frame.toFrame =
      retainDistinct seen (frames.map Frame.toFrame) := by
  induction frames generalizing seen with
  | nil => rfl
  | cons frame frames ih =>
    have hiff : bindingKey frame.binding ∈ seen.map keyOf ↔ frame.binding.toBinding ∈ seen := by
      rw [bindingKey_eq, List.mem_map_of_injective keyOf_injective]
    rw [List.map_cons]
    unfold dedupe retainDistinct
    simp only [hiff]
    rw [show frame.toFrame.binding = frame.binding.toBinding from rfl]
    by_cases hseen : frame.binding.toBinding ∈ seen
    · rw [if_pos hseen, if_pos hseen, ih]
    · rw [if_neg hseen, if_neg hseen, List.map_cons, bindingKey_eq]
      congr 1
      exact ih (frame.binding.toBinding :: seen)

def Row.toRow (row : Row) : QueryRow := ⟨row.binding.toBinding, row.provenance⟩

/-- The entities that the rows bind compare as their texts. -/
def TextOrdered (rows : List Row) : Prop :=
  ∀ r ∈ rows, ∀ r' ∈ rows, ∀ n n' e e', (n, .entity e) ∈ r.binding.entries →
    (n', .entity e') ∈ r'.binding.entries →
    (toString e.value < toString e'.value ↔ e.value < e'.value)

theorem boundKey_lt {x y : BoundValue}
    (h : ∀ e e', x = .entity e → y = .entity e' →
      (toString e.value < toString e'.value ↔ e.value < e'.value)) :
    boundKey x < boundKey y ↔ x < y := by
  rw [show x < y ↔ x.rank < y.rank from Iff.rfl]
  have hel : "entity" < "literal" := by decide
  have hep : "entity" < "predicate" := by decide
  have hlp : "literal" < "predicate" := by decide
  have hne : "entity" ≠ "literal" ∧ "entity" ≠ "predicate" ∧ "literal" ≠ "predicate" := by decide
  obtain ⟨hne₁, hne₂, hne₃⟩ := hne
  rcases x with e | l | p <;> rcases y with e' | l' | p' <;>
    simp only [boundKey, BoundValue.rank, Prod.Lex.lt_iff, ofLex_toLex, lt_irrefl, false_or,
      true_and, hel, hep, hlp, hel.not_gt, hep.not_gt, hlp.not_gt, hne₁, hne₂, hne₃, hne₁.symm,
      hne₂.symm, hne₃.symm, false_and, or_false, and_false]
  · exact h e e' rfl rfl
  all_goals simp

/-- Keys compare as the bindings, where their values do. -/
theorem keys_lt {l l' : List (String × BoundValue)}
    (h : ∀ e ∈ l, ∀ e' ∈ l', boundKey e.2 < boundKey e'.2 ↔ e.2 < e'.2) :
    ((l.map fun e => toLex (e.1, boundKey e.2) : BindingKey) <
        l'.map fun e => toLex (e.1, boundKey e.2)) ↔
      (l.map toLex : List (String ×ₗ BoundValue)) < l'.map toLex := by
  induction l generalizing l' with
  | nil =>
    cases l' with
    | nil => simp
    | cons e' l' => simp
  | cons e l ih =>
    cases l' with
    | nil => simp
    | cons e' l' =>
      have ih' := ih fun x hx y hy => h x (List.mem_cons_of_mem _ hx) y (List.mem_cons_of_mem _ hy)
      have hhead := h e List.mem_cons_self e' List.mem_cons_self
      have hkey : boundKey e.2 = boundKey e'.2 ↔ e.2 = e'.2 := boundKey_injective.eq_iff
      simp only [List.map_cons, List.cons_lt_cons_iff, ih', Prod.Lex.lt_iff, ofLex_toLex, hhead,
        EmbeddingLike.apply_eq_iff_eq, Prod.ext_iff, hkey]

theorem key_le {frame frame' : Frame}
    (h : ∀ e ∈ frame.binding.entries, ∀ e' ∈ frame'.binding.entries,
      boundKey e.2 < boundKey e'.2 ↔ e.2 < e'.2) :
    frame.key ≤ frame'.key ↔ frame.toFrame.rank ≤ frame'.toFrame.rank := by
  have hlt : bindingKey frame.binding < bindingKey frame'.binding ↔
      (frame.binding.toBinding.entries.map toLex : List (String ×ₗ BoundValue)) <
        frame'.binding.toBinding.entries.map toLex := by
    rw [bindingKey_eq, bindingKey_eq]
    refine keys_lt fun e he e' he' => ?_
    exact h e (frame.binding.entries_perm.mem_iff.2 he) e'
      (frame'.binding.entries_perm.mem_iff.2 he')
  have heq : bindingKey frame.binding = bindingKey frame'.binding ↔
      (frame.binding.toBinding.entries.map toLex : List (String ×ₗ BoundValue)) =
        frame'.binding.toBinding.entries.map toLex := by
    rw [bindingKey_eq, bindingKey_eq, keyOf_injective.eq_iff]
    constructor
    · intro hb
      rw [hb]
    · intro hentries
      have hsame : frame.binding.toBinding.entries = frame'.binding.toBinding.entries :=
        List.map_injective_iff.2 toLex.injective hentries
      exact Binding.ext_get fun name => by unfold Binding.get; rw [hsame]
  unfold Frame.key QueryFrame.rank
  rw [Prod.Lex.le_iff, Prod.Lex.le_iff]
  simp only [ofLex_toLex]
  exact or_congr hlt (and_congr heq Iff.rfl)

/-- **The rows** are those of `forthdb-core`, sorted by their texts. -/
theorem rowsOf_toRow (options : QueryOptions) (output : List Frame) :
    ((rowsOf options output).map Row.toRow).Perm
        (finishRows options (output.map Frame.toFrame)) ∧
      (TextOrdered (rowsOf options output) →
        (rowsOf options output).map Row.toRow =
          finishRows options (output.map Frame.toFrame)) := by
  set kept : List Frame := if options.distinct then dedupe [] output else output with hkept
  have hframes : kept.map Frame.toFrame =
      if options.distinct then retainDistinct [] (output.map Frame.toFrame)
      else output.map Frame.toFrame := by
    rw [hkept]
    by_cases hd : options.distinct = true
    · rw [if_pos hd, if_pos hd]
      exact dedupe_toFrame [] output
    · rw [if_neg hd, if_neg hd]
  have hrows : (rowsOf options output).map Row.toRow =
      ((kept.insertionSort fun left right => left.key ≤ right.key).map Frame.toFrame).map
        fun frame => (⟨frame.binding, if options.includeProvenance then frame.provenance else []⟩ :
          QueryRow) := by
    unfold rowsOf
    rw [List.map_map, List.map_map]
    rfl
  unfold finishRows sortFrames
  rw [hrows, ← hframes]
  refine ⟨?_, fun htext => ?_⟩
  · refine List.Perm.map _ (((List.perm_insertionSort _ _).map _).trans ?_)
    exact (List.perm_insertionSort _ _).symm
  · congr 1
    refine List.map_insertionSort _ _ _ _ fun frame hframe frame' hframe' => key_le ?_
    -- a frame that is kept gives a row with its binding
    have hrow : ∀ f ∈ kept, ∃ row ∈ rowsOf options output, row.binding = f.binding := by
      intro f hf
      refine ⟨_, List.mem_map_of_mem ((List.mem_insertionSort _).2 hf), rfl⟩
    obtain ⟨row, hmem, hb⟩ := hrow frame hframe
    obtain ⟨row', hmem', hb'⟩ := hrow frame' hframe'
    rintro ⟨n, x⟩ he ⟨n', y⟩ he'
    refine boundKey_lt fun e e' hx hy => ?_
    refine htext row hmem row' hmem' n n' e e' ?_ ?_
    · rw [hb, ← show x = .entity e from hx]; exact he
    · rw [hb', ← show y = .entity e' from hy]; exact he'

end QueryExecutor

namespace PythonForthDb

/-- **Queries agree.** On kernels after the same operations a query returns the rows of
`forthdb-core`, in their order where the texts of the bound entities compare as the entities, with
the same path and metrics; or it raises, and then a variable is used both as a predicate and as a
subject or an object. -/
theorem query_parity {s : PythonForthDb} {k : ForthDb} (h : Reaches s k) (patterns : List Pattern)
    (options : QueryOptions) :
    (∃ r r', s.query patterns options = .ok r ∧ k.query patterns options = .ok r' ∧
      (r.rows.map Row.toRow).Perm r'.rows ∧
      (TextOrdered r.rows → r.rows.map Row.toRow = r'.rows) ∧
      r.chosenFirstPath = r'.chosenFirstPath ∧ r.metrics.total = r'.metrics) ∨
    s.query patterns options = .error "AssertionError" ∧ ¬Separated patterns := by
  obtain ⟨hrefines, hk⟩ := h.refines
  have hsource : s.asLegacy.source = k.source := LegacyForthDb.Refines.source_eq hrefines hk
  have hvisits : s.asLegacy.source.Visits := hsource ▸ hk.visits
  have hwalk := walk_parallels hvisits options patterns.length ⟨.empty, []⟩
    patterns rfl (fun p hp => hp) (fun _ => kinded_new patterns) 0 ⟨[], [], ⟨⟨0, 0⟩, ∅, ∅⟩⟩
  unfold query execute ForthDb.query QuerySource.query
  rw [← hsource]
  rcases hwalk with ⟨stop, state, hok, hok'⟩ | ⟨herror, hsep⟩
  · have hok₁ : walk s.view s.store options patterns.length ⟨.empty, []⟩ patterns 0
        ⟨[], [], ⟨⟨0, 0⟩, ∅, ∅⟩⟩ = .ok (stop, state) := hok
    have hok₂ : s.asLegacy.source.walkQuery options patterns.length ⟨.new, []⟩ patterns 0
        ⟨[], [], ⟨0, 0⟩⟩ = .ok (stop, state.toWalk) := hok'
    obtain ⟨hperm, htext⟩ := rowsOf_toRow options state.output
    rw [hok₁, hok₂]
    exact .inl ⟨_, _, rfl, rfl, hperm, htext, rfl, rfl⟩
  · have herror₁ : walk s.view s.store options patterns.length ⟨.empty, []⟩ patterns 0
        ⟨[], [], ⟨⟨0, 0⟩, ∅, ∅⟩⟩ = .error "AssertionError" := herror
    rw [herror₁]
    exact .inr ⟨rfl, hsep⟩

/-- A fact that a query finds by its object. -/
theorem query_parity_found : ∃ s : PythonForthDb, ∃ r,
    new.define ⟨"a"⟩ ⟨.entity ⟨9⟩, ⟨"p"⟩, .entity ⟨10⟩⟩ = .ok r ∧ s = r.2 ∧
      ∃ result, s.query [⟨.var ⟨"x", by decide⟩, .predicate ⟨"p"⟩, .atom (.entity ⟨10⟩)⟩]
        ⟨true, true, true, none⟩ = .ok result ∧
      result.rows.map Row.toRow =
        [⟨⟨[("x", .entity ⟨9⟩)], List.pairwise_singleton _ _⟩, [⟨"a"⟩]⟩] := by
  obtain ⟨r, s, hs, -⟩ := Refines.define new_refines ForthDb.new_sound ⟨"a"⟩
    ⟨.entity ⟨9⟩, ⟨"p"⟩, .entity ⟨10⟩⟩
  refine ⟨s, (r, s), hs, rfl, ?_⟩
  rcases query_parity (.define .new hs)
      [⟨.var ⟨"x", by decide⟩, .predicate ⟨"p"⟩, .atom (.entity ⟨10⟩)⟩]
      ⟨true, true, true, none⟩ with ⟨result, result', hok, hok', hperm, -⟩ | ⟨-, hsep⟩
  · refine ⟨result, hok, ?_⟩
    have hrows : (ForthDb.query (ForthDb.new.define ⟨"a"⟩ ⟨.entity ⟨9⟩, ⟨"p"⟩, .entity ⟨10⟩⟩)
        [⟨.var ⟨"x", by decide⟩, .predicate ⟨"p"⟩, .atom (.entity ⟨10⟩)⟩]
        ⟨true, true, true, none⟩).map QueryResult.rows =
      .ok [⟨⟨[("x", .entity ⟨9⟩)], List.pairwise_singleton _ _⟩, [⟨"a"⟩]⟩] := by
      decide +kernel
    rw [hok'] at hrows
    rw [Except.ok.inj hrows] at hperm
    exact List.perm_singleton.1 hperm
  · refine absurd ?_ hsep
    intro p hp u hu
    rw [List.mem_singleton] at hp
    rw [hp] at hu
    cases hu

end PythonForthDb

end ForthDB
