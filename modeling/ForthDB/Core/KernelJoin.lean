import ForthDB.Core.KernelClones
import ForthDB.Core.NaiveJoin

/-!
# What the kernel's queries answer

* `activeFacts`: the entries of a kernel, one for each slot that resolves.
* `query_eq_join`: **a query answers the naive join** of its patterns over them.
-/

namespace ForthDB

/-- The slot and the fact of a record that defines one. -/
def entryOf (record : ℕ → Except String Record) (i : ℕ) : Option (SlotId × Fact) :=
  match record i with
  | .ok found => found.fact.map fun fact => (found.slot, fact)
  | .error _ => none

/-- The entries of the active records, in ascending order. -/
def SharedForthDb.activeFacts (s : SharedForthDb) : List (SlotId × Fact) :=
  s.store.activeRecordIds.sort.filterMap (entryOf s.store.record)

/-- An atom that a term denotes is the one that it resolves to. -/
theorem resolvedAtom_agrees {term : Term} {a : Atom} {b c : Binding} (hext : b.Extends c)
    (hd : term.Denotes a c) : ∀ a' ∈ resolvedAtom term b, a = a' := by
  intro a' ha'
  cases term with
  | atom a₀ =>
    obtain rfl : a₀ = a' := Option.some.inj ha'
    exact hd
  | var v =>
    obtain ⟨value, hvalue, hatom⟩ := Option.bind_eq_some_iff.1 ha'
    have heq : value = .ofAtom a := Option.some.inj ((hext _ _ hvalue).symm.trans hd)
    rw [heq, BoundValue.asAtom_ofAtom] at hatom
    exact Option.some.inj hatom

theorem resolvedPredicate_agrees {term : PredicateTerm} {q : Predicate} {b c : Binding}
    (hext : b.Extends c) (hd : term.Denotes q c) : ∀ q' ∈ resolvedPredicate term b, q = q' := by
  intro q' hq'
  cases term with
  | predicate q₀ =>
    obtain rfl : q₀ = q' := Option.some.inj hq'
    exact hd
  | var v =>
    obtain ⟨value, hvalue, hpred⟩ := Option.bind_eq_some_iff.1 hq'
    have heq : value = .predicate q := Option.some.inj ((hext _ _ hvalue).symm.trans hd)
    rw [heq] at hpred
    exact Option.some.inj hpred

namespace ForthDb

variable {k : ForthDb}

/-- A fact that unifies with a pattern agrees with its bound positions. -/
theorem agrees_of_unify {p : Pattern} {fact : Fact} {b c : Binding}
    (h : unifyPattern p fact b = some c) :
    Agrees (resolvedAtom p.subject b) (resolvedPredicate p.predicate b) (resolvedAtom p.object b)
      fact := by
  obtain ⟨hext, hm⟩ := unifyPattern_spec h
  exact ⟨resolvedAtom_agrees hext hm.subject, resolvedPredicate_agrees hext hm.predicate,
    resolvedAtom_agrees hext hm.object⟩

/-- The record at the head of a slot. -/
theorem Sound.entryOf_head (h : k.Sound) {slot : SlotId} {i : ℕ}
    (hslot : k.store.head.lookup slot = some i) :
    ∃ fact, entryOf k.record i = some (slot, fact) ∧ k.factOf i = some fact ∧
      k.resolve slot = some fact ∧ ∀ p b, k.source.found p b i =
        (unifyPattern p fact b).map fun c => (c, slot) := by
  obtain ⟨r, f, hr, -, rfl, hf⟩ := h.heads slot i hslot
  have hrecord : k.record i = .ok r := by
    unfold record
    rw [hr]
  refine ⟨f, ?_, ?_, ?_, fun p b => ?_⟩
  · unfold entryOf
    rw [hrecord]
    simp only [hf, Option.map_some]
  · simp [factOf, hr, hf]
  · simp [resolve, DefinitionStore.resolveRecord, hslot, hr, hf]
  · unfold QuerySource.found source visitRecord
    simp only [hrecord, bind, Except.bind, hf]
    rfl

/-- **The candidates that unify** are the active facts that unify. -/
theorem Sound.covers (h : k.Sound) : k.source.Covers (k.active.sort.filterMap (entryOf k.record)) := by
  intro p b
  rw [List.filterMap_filterMap]
  have hall : ∀ i ∈ k.active.sort, k.source.found p b i = (entryOf k.record i).bind fun e =>
      (unifyPattern p e.2 b).map fun c => (c, e.1) := by
    intro i hi
    obtain ⟨slot, hslot⟩ := mem_active.1 ((Finset.mem_sort _).1 hi)
    obtain ⟨fact, he, -, -, hfound⟩ := h.entryOf_head hslot
    rw [hfound, he]
    rfl
  rw [← List.filterMap_congr hall]
  -- a record that is no candidate does not unify
  have hperm : (k.source.candidates p b).Perm (k.active.sort.filter fun i =>
      i ∈ k.source.candidates p b) := by
    have hcandidates : (k.candidates p b).Nodup := by
      unfold candidates
      exact Finset.sort_nodup _ _
    have hactive : k.active.sort.Nodup := Finset.sort_nodup _ _
    refine (List.perm_ext_iff_of_nodup hcandidates (hactive.filter _)).2 fun i => ?_
    rw [List.mem_filter, decide_eq_true_eq]
    refine ⟨fun hi => ⟨?_, hi⟩, And.right⟩
    have hfilter := (Finset.mem_sort _).1 (show i ∈ k.candidates p b from hi)
    exact (Finset.mem_sort _).2 (Finset.mem_filter.1 hfilter).1
  refine (hperm.filterMap _).trans (List.Perm.of_eq ?_)
  rw [List.filterMap_filter]
  refine List.filterMap_congr fun i hi => ?_
  have hactive := (Finset.mem_sort _).1 hi
  split
  · rfl
  · rename_i hnot
    obtain ⟨slot, hslot⟩ := mem_active.1 hactive
    obtain ⟨fact, -, hfact, -, hfound⟩ := h.entryOf_head hslot
    cases hunify : unifyPattern p fact b with
    | none => rw [hfound, hunify]; rfl
    | some c =>
      have hcandidate : i ∈ k.candidates p b :=
        (Finset.mem_sort _).2
          (Finset.mem_filter.2 ⟨hactive, fact, hfact, agrees_of_unify hunify⟩)
      exact absurd (decide_eq_true hcandidate) hnot

/-- Each slot has one entry. -/
theorem Sound.nodup_entries (h : k.Sound) :
    ((k.active.sort.filterMap (entryOf k.record)).map Prod.fst).Nodup := by
  have hnodup : k.active.sort.Nodup := Finset.sort_nodup _ _
  rw [List.Nodup, List.pairwise_map, List.pairwise_filterMap]
  refine List.Pairwise.imp_of_mem (fun {i j} hi hj hne e he f hf heq => hne ?_) hnodup
  obtain ⟨slot, hslot⟩ := mem_active.1 ((Finset.mem_sort _).1 hi)
  obtain ⟨slot', hslot'⟩ := mem_active.1 ((Finset.mem_sort _).1 hj)
  obtain ⟨fact, hentry, -⟩ := h.entryOf_head hslot
  obtain ⟨fact', hentry', -⟩ := h.entryOf_head hslot'
  rw [hentry, Option.some_inj] at he
  rw [hentry', Option.some_inj] at hf
  subst he hf
  obtain rfl : slot = slot' := heq
  exact Option.some.inj (hslot.symm.trans hslot')

end ForthDb

/-! ## The shared kernel -/

/-- Every event leaves kernels that keep a sound log. -/
theorem shared_run (events : List KernelEvent) :
    ∃ returned kernels, sharedApi.run [.new] events = .ok (returned, kernels) ∧
      ∀ s ∈ kernels, ∃ k : ForthDb, s.Refines k ∧ k.Sound := by
  obtain ⟨returned, kernels, legacy, hrun, -, hstep⟩ := run_inStep events (.cons new_inStep .nil)
  refine ⟨returned, kernels, hrun, fun s hs => ?_⟩
  obtain ⟨i, hi⟩ := List.mem_iff_getElem?.1 hs
  rcases forall₂_getElem? hstep i with ⟨hnone, -⟩ | ⟨s', l, hs', -, k, m, hk, -, hsound, -⟩
  · rw [hnone] at hi
    cases hi
  · obtain rfl := Option.some.inj (hs'.symm.trans hi)
    exact ⟨k, hk, hsound⟩

theorem SharedForthDb.Refines.activeFacts_eq {s : SharedForthDb} {k : ForthDb} (h : s.Refines k) :
    s.activeFacts = k.active.sort.filterMap (entryOf k.record) := by
  unfold activeFacts
  rw [h.activeRecordIds_eq, h.record_eq]

/-- **The active facts** are those that the slots resolve to. -/
theorem SharedForthDb.Refines.mem_activeFacts {s : SharedForthDb} {k : ForthDb} (h : s.Refines k)
    (hk : k.Sound) {slot : SlotId} {fact : Fact} :
    (slot, fact) ∈ s.activeFacts ↔ s.resolve slot = .ok (some fact) := by
  have hresolve : s.resolve slot = .ok (k.resolve slot) := by
    rw [← hk.resolve_record h.record_eq slot]
    unfold resolve SharedDefinitionStore.resolveRecord
    cases hs : k.store.head.lookup slot <;> simp only [h.store.head.get_eq, hs]
  rw [h.activeFacts_eq, hresolve, List.mem_filterMap, Except.ok.injEq]
  constructor
  · rintro ⟨i, hi, he⟩
    obtain ⟨slot', hslot'⟩ := ForthDb.mem_active.1 ((Finset.mem_sort _).1 hi)
    obtain ⟨fact', he', -, hres, -⟩ := hk.entryOf_head hslot'
    obtain ⟨rfl, rfl⟩ := Prod.mk.inj (Option.some.inj (he'.symm.trans he))
    exact hres
  · intro hres
    cases hhead : k.store.head.lookup slot with
    | none => simp [ForthDb.resolve, DefinitionStore.resolveRecord, hhead] at hres
    | some i =>
      obtain ⟨fact', he, -, hres', -⟩ := hk.entryOf_head hhead
      obtain rfl := Option.some.inj (hres'.symm.trans hres)
      exact ⟨i, (Finset.mem_sort _).2 (ForthDb.mem_active.2 ⟨slot, hhead⟩), he⟩

/-- The rows of a query without a limit. -/
theorem SharedForthDb.Refines.query_rows {s : SharedForthDb} {k : ForthDb} (h : s.Refines k)
    (hk : k.Sound) (patterns : List Pattern) (options : QueryOptions) :
    ∃ result, s.query patterns options = .ok result ∧ result.rows = finishRows options
      (keptFrames options.limit (s.source.allSolutions patterns options)) := by
  have hvisits : s.source.Visits := by
    rw [h.source_eq hk]
    exact hk.visits
  exact hvisits.query_rows patterns options

theorem SharedForthDb.Refines.covers {s : SharedForthDb} {k : ForthDb} (h : s.Refines k)
    (hk : k.Sound) : s.source.Covers s.activeFacts := by
  rw [h.source_eq hk, h.activeFacts_eq]
  exact hk.covers

/-- The queries of a kernel without a limit answer the naive join. -/
structure SharedForthDb.AnswersJoin (s : SharedForthDb) (patterns : List Pattern)
    (optimize includeProvenance : Bool) : Prop where
  /-- The active facts are those that the slots resolve to, -/
  facts : ∀ slot fact, (slot, fact) ∈ s.activeFacts ↔ s.resolve slot = .ok (some fact)
  /-- one for each slot. -/
  slots : (s.activeFacts.map Prod.fst).Nodup
  /-- A choice is an active fact for each pattern. -/
  choices : ∀ chosen, chosen ∈ choices s.activeFacts patterns.length ↔
    chosen.length = patterns.length ∧ ∀ e ∈ chosen, e ∈ s.activeFacts
  /-- It has at most one joint binding, with the variables of the patterns. -/
  joins : ∀ chosen ∈ ForthDB.choices s.activeFacts patterns.length, ∀ b,
    joinBinding patterns chosen = some b ↔ Joins patterns chosen b
  /-- A query has one row for each choice with a joint binding. -/
  rows : ∃ result, s.query patterns ⟨optimize, false, includeProvenance, none⟩ = .ok result ∧
    (result.rows.map fun row => (row.binding, (row.provenance : Multiset SlotId))).Perm
      ((ForthDB.choices s.activeFacts patterns.length).filterMap fun chosen =>
        (joinBinding patterns chosen).map fun b =>
          (b, if includeProvenance then (chosen.map Prod.fst : Multiset SlotId) else 0))
  /-- With `distinct` it has each joint binding once. -/
  distinct : ∃ result, s.query patterns ⟨optimize, true, includeProvenance, none⟩ = .ok result ∧
    (result.rows.map QueryRow.binding).Nodup ∧
    ∀ b, b ∈ result.rows.map QueryRow.binding ↔
      ∃ chosen ∈ ForthDB.choices s.activeFacts patterns.length, Joins patterns chosen b
  /-- The order of the patterns and the plan do not matter to the bindings. -/
  plan : ∀ patterns' optimize' distinct includeProvenance', patterns'.Perm patterns →
    ∃ result result', s.query patterns ⟨optimize, distinct, includeProvenance, none⟩ = .ok result ∧
      s.query patterns' ⟨optimize', distinct, includeProvenance', none⟩ = .ok result' ∧
      result'.rows.map QueryRow.binding = result.rows.map QueryRow.binding

theorem SharedForthDb.Refines.answersJoin {s : SharedForthDb} {k : ForthDb} (h : s.Refines k)
    (hk : k.Sound) (patterns : List Pattern) (optimize includeProvenance : Bool) :
    s.AnswersJoin patterns optimize includeProvenance := by
  have hcovers := h.covers hk
  have hjoins : ∀ chosen ∈ choices s.activeFacts patterns.length, ∀ b,
      joinBinding patterns chosen = some b ↔ Joins patterns chosen b := fun chosen hmem b =>
    joinBinding_iff (mem_choices.1 hmem).1
  refine ⟨fun slot fact => h.mem_activeFacts hk, ?_, fun chosen => mem_choices, hjoins, ?_, ?_, ?_⟩
  · rw [h.activeFacts_eq]
    exact hk.nodup_entries
  · obtain ⟨result, hquery, hrows⟩ :=
      h.query_rows hk patterns ⟨optimize, false, includeProvenance, none⟩
    refine ⟨result, hquery, ?_⟩
    rw [hrows]
    refine (finishRows_keys _ _).trans ?_
    have hkeys := (hcovers.allSolutions_eq patterns ⟨optimize, false, includeProvenance, none⟩).map
      fun x : Binding × Multiset SlotId => (x.1, if includeProvenance then x.2 else 0)
    refine hkeys.trans (List.Perm.of_eq ?_)
    rw [List.map_filterMap]
    refine List.filterMap_congr fun chosen _ => ?_
    cases joinBinding patterns chosen <;> rfl
  · obtain ⟨result, hquery, hrows⟩ :=
      h.query_rows hk patterns ⟨optimize, true, includeProvenance, none⟩
    refine ⟨result, hquery, ?_⟩
    rw [hrows]
    have hperm := finishRows_bindings ⟨optimize, true, includeProvenance, none⟩
      (s.source.allSolutions patterns ⟨optimize, true, includeProvenance, none⟩)
    obtain ⟨hnodup, hmem⟩ := retainDistinct_bindings
      (s.source.allSolutions patterns ⟨optimize, true, includeProvenance, none⟩)
    refine ⟨hperm.nodup_iff.2 hnodup, fun b => hperm.mem_iff.trans ((hmem b).trans ?_)⟩
    rw [(hcovers.bindings_eq patterns _).mem_iff, List.mem_filterMap]
    exact exists_congr fun chosen => and_congr_right fun hchosen => hjoins chosen hchosen b
  · intro patterns' optimize' distinct includeProvenance' hperm
    obtain ⟨result, hquery, hrows⟩ :=
      h.query_rows hk patterns ⟨optimize, distinct, includeProvenance, none⟩
    obtain ⟨result', hquery', hrows'⟩ :=
      h.query_rows hk patterns' ⟨optimize', distinct, includeProvenance', none⟩
    refine ⟨result, result', hquery, hquery', ?_⟩
    rw [hrows, hrows']
    refine finishRows_bindings_eq (keptRows_perm rfl ?_)
    exact hcovers.bindings_perm hperm _ _

/-- **A query answers the naive join** in every kernel that allocations, defines, forgets and
clones reach, for all patterns. -/
theorem query_eq_join (events : List KernelEvent) :
    ∃ returned kernels, sharedApi.run [.new] events = .ok (returned, kernels) ∧
      ∀ s ∈ kernels, ∀ patterns optimize includeProvenance,
        s.AnswersJoin patterns optimize includeProvenance := by
  obtain ⟨returned, kernels, hrun, hall⟩ := shared_run events
  refine ⟨returned, kernels, hrun, fun s hs patterns optimize includeProvenance => ?_⟩
  obtain ⟨k, h, hk⟩ := hall s hs
  exact h.answersJoin hk patterns optimize includeProvenance

end ForthDB
