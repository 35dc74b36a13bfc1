import ForthDB.Core.KernelReaders
import ForthDB.Core.LegacyKernel
import ForthDB.Lib.Buckets

/-!
# Both kernels index the active records

The seven lookups of a view, and what it means that they index the active records of a
log: `IndexLookups.Exact`. Then the candidates of a view are the candidates of the log
(`Exact.candidates_eq`).

* `SharedIndex.Keeps`: a sharded index keeps the active records by a key, through every
  index operation, `moveIndex` with one key or two included.
* `LegacyIndex` alike, over a plain map.
-/

namespace ForthDB

/-- The lookups of a view. -/
structure IndexLookups where
  bySubject : Atom → Option (Finset ℕ)
  byPredicate : Predicate → Option (Finset ℕ)
  byObject : Atom → Option (Finset ℕ)
  bySubjectPredicate : Atom × Predicate → Option (Finset ℕ)
  bySubjectObject : Atom × Atom → Option (Finset ℕ)
  byPredicateObject : Predicate × Atom → Option (Finset ℕ)
  byExact : Fact → Option (Finset ℕ)

namespace IndexLookups

/-- The lookups index the records `active` by the parts of their facts. -/
structure Exact (lookups : IndexLookups) (factOf : ℕ → Option Fact) (active : Finset ℕ) :
    Prop where
  bySubject : IndexBy lookups.bySubject (fun i => (factOf i).map Fact.subject) active
  byPredicate : IndexBy lookups.byPredicate (fun i => (factOf i).map Fact.predicate) active
  byObject : IndexBy lookups.byObject (fun i => (factOf i).map Fact.object) active
  bySubjectPredicate :
    IndexBy lookups.bySubjectPredicate (fun i => (factOf i).map fun f => (f.subject, f.predicate))
      active
  bySubjectObject :
    IndexBy lookups.bySubjectObject (fun i => (factOf i).map fun f => (f.subject, f.object)) active
  byPredicateObject :
    IndexBy lookups.byPredicateObject (fun i => (factOf i).map fun f => (f.predicate, f.object))
      active
  byExact : IndexBy lookups.byExact factOf active

/-- The candidates of a view with these lookups. -/
def candidates (lookups : IndexLookups) (active : Finset ℕ) (pattern : Pattern)
    (binding : Binding) : List ℕ :=
  match resolvedAtom pattern.subject binding, resolvedPredicate pattern.predicate binding,
    resolvedAtom pattern.object binding with
  | some subject, some predicate, some object =>
    ((lookups.byExact ⟨subject, predicate, object⟩).getD ∅).sort
  | some subject, some predicate, none =>
    ((lookups.bySubjectPredicate (subject, predicate)).getD ∅).sort
  | some subject, none, some object => ((lookups.bySubjectObject (subject, object)).getD ∅).sort
  | none, some predicate, some object =>
    ((lookups.byPredicateObject (predicate, object)).getD ∅).sort
  | some subject, none, none => ((lookups.bySubject subject).getD ∅).sort
  | none, some predicate, none => ((lookups.byPredicate predicate).getD ∅).sort
  | none, none, some object => ((lookups.byObject object).getD ∅).sort
  | none, none, none => active.sort

variable {lookups : IndexLookups} {factOf factOf' : ℕ → Option Fact} {active : Finset ℕ}

theorem Exact.congr (h : lookups.Exact factOf active) (hfact : ∀ i ∈ active, factOf' i = factOf i) :
    lookups.Exact factOf' active where
  bySubject := h.bySubject.congr fun i hi => by rw [hfact i hi]
  byPredicate := h.byPredicate.congr fun i hi => by rw [hfact i hi]
  byObject := h.byObject.congr fun i hi => by rw [hfact i hi]
  bySubjectPredicate := h.bySubjectPredicate.congr fun i hi => by rw [hfact i hi]
  bySubjectObject := h.bySubjectObject.congr fun i hi => by rw [hfact i hi]
  byPredicateObject := h.byPredicateObject.congr fun i hi => by rw [hfact i hi]
  byExact := h.byExact.congr hfact

/-- A bucket of facts with a key that says as much as the bound positions. -/
theorem bucketOf_eq {κ : Type} [DecidableEq κ] {key : Fact → κ} {k : κ} {subject : Option Atom}
    {predicate : Option Predicate} {object : Option Atom}
    (hkey : ∀ f, key f = k ↔ ForthDb.Agrees subject predicate object f) :
    bucketOf (fun i => (factOf i).map key) active k =
      active.filter fun i => ∃ fact ∈ factOf i, ForthDb.Agrees subject predicate object fact := by
  refine Finset.filter_congr fun i _ => ?_
  rw [Option.map_eq_some_iff]
  exact exists_congr fun f => and_congr_right fun _ => hkey f

/-- **The candidates of an exact view are the active records that agree.** -/
theorem Exact.candidates_eq {k : ForthDb} (h : lookups.Exact k.factOf k.active) (hk : k.Sound)
    (pattern : Pattern) (binding : Binding) :
    lookups.candidates k.active pattern binding = k.candidates pattern binding := by
  unfold candidates ForthDb.candidates
  cases resolvedAtom pattern.subject binding <;>
    cases resolvedPredicate pattern.predicate binding <;>
    cases resolvedAtom pattern.object binding <;> simp only
  case none.none.none =>
    congr 1
    refine (Finset.filter_true_of_mem fun i hi => ?_).symm
    obtain ⟨fact, hfact⟩ := hk.factOf_active hi
    exact ⟨fact, hfact, by simp [ForthDb.Agrees]⟩
  case none.none.some =>
    rw [h.byObject.getD_eq, bucketOf_eq]
    intro f
    simp [ForthDb.Agrees]
  case none.some.none =>
    rw [h.byPredicate.getD_eq, bucketOf_eq]
    intro f
    simp [ForthDb.Agrees]
  case none.some.some =>
    rw [h.byPredicateObject.getD_eq, bucketOf_eq]
    intro f
    simp [ForthDb.Agrees]
  case some.none.none =>
    rw [h.bySubject.getD_eq, bucketOf_eq]
    intro f
    simp [ForthDb.Agrees]
  case some.none.some =>
    rw [h.bySubjectObject.getD_eq, bucketOf_eq]
    intro f
    simp [ForthDb.Agrees]
  case some.some.none =>
    rw [h.bySubjectPredicate.getD_eq, bucketOf_eq]
    intro f
    simp [ForthDb.Agrees]
  case some.some.some subject predicate object =>
    have hb : bucketOf k.factOf k.active ⟨subject, predicate, object⟩ =
        bucketOf (fun i => (k.factOf i).map id) k.active ⟨subject, predicate, object⟩ := by
      simp
    rw [h.byExact.getD_eq, hb, bucketOf_eq]
    rintro ⟨s, p, o⟩
    simp [ForthDb.Agrees]

end IndexLookups

/-! ## Plain indexes -/

namespace LegacyIndex

variable {κ : Type} [DecidableEq κ] {index : LegacyIndex κ} {keyOf : ℕ → Option κ}
  {active : Finset ℕ} {i : ℕ} {k : κ}

theorem insertIndex_keeps (h : IndexBy index.lookup keyOf active) (hi : keyOf i = some k) :
    IndexBy (index.insertIndex k i).lookup keyOf (insert i active) := by
  refine h.add hi ?_ fun k' hk => ?_
  · exact AList.lookup_insert _
  · exact AList.lookup_insert_ne hk

theorem removeIndex_keeps (h : IndexBy index.lookup keyOf active) (hi : keyOf i = some k) :
    IndexBy (index.removeIndex k i).lookup keyOf (active.erase i) := by
  refine h.remove hi ?_ fun k' hk => ?_
  · unfold removeIndex
    cases hl : index.lookup k with
    | none => exact hl
    | some bucket =>
      simp only [Option.bind_some, keptBucket]
      split
      · exact AList.lookup_erase _ _
      · exact AList.lookup_insert _
  · unfold removeIndex
    cases index.lookup k with
    | none => rfl
    | some bucket =>
      simp only
      split
      · exact AList.lookup_erase_ne hk
      · exact AList.lookup_insert_ne hk

end LegacyIndex

/-! ## Sharded indexes -/

namespace SharedIndex

variable {κ : Type} [DecidableEq κ] [HashBytes κ] {index : SharedIndex κ} {keyOf : ℕ → Option κ}
  {active : Finset ℕ} {i j : ℕ} {k : κ}

/-- The sharded map is the index of the active records. -/
def Keeps (index : SharedIndex κ) (keyOf : ℕ → Option κ) (active : Finset ℕ) : Prop :=
  ∃ d : Dict κ (Finset ℕ), index.Represents d ∧ IndexBy d.lookup keyOf active

theorem default_keeps : Keeps (.default : SharedIndex κ) keyOf ∅ :=
  ⟨∅, ShardedMap.default_represents, IndexBy.empty⟩

theorem Keeps.indexBy (h : index.Keeps keyOf active) : IndexBy index.get keyOf active := by
  obtain ⟨d, hd, hi⟩ := h
  intro k
  exact (hd.get_eq k).trans (hi k)

theorem Keeps.insertIndex (h : index.Keeps keyOf active) (hi : keyOf i = some k) :
    (index.insertIndex k i).Keeps keyOf (insert i active) := by
  obtain ⟨d, hd, hb⟩ := h
  unfold SharedIndex.insertIndex
  rw [hd.get_eq]
  cases hl : d.lookup k with
  | none =>
    refine ⟨_, (hd.insert k {i}).2, hb.add hi ?_ fun k' hk => AList.lookup_insert_ne hk⟩
    rw [hl, AList.lookup_insert]
    rfl
  | some bucket =>
    refine ⟨_, hd.modify hl _, hb.add hi ?_ fun k' hk => AList.lookup_insert_ne hk⟩
    rw [hl, AList.lookup_insert]
    rfl

theorem Keeps.removeIndex (h : index.Keeps keyOf active) (hi : keyOf i = some k) :
    (index.removeIndex k i).Keeps keyOf (active.erase i) := by
  obtain ⟨d, hd, hb⟩ := h
  unfold SharedIndex.removeIndex
  rw [hd.get_eq]
  cases hl : d.lookup k with
  | none =>
    refine ⟨d, hd, hb.remove hi ?_ fun k' _ => rfl⟩
    rw [hl]
    rfl
  | some bucket =>
    have hmodify := hd.modify hl fun bucket => bucket.erase i
    simp only
    split
    · rename_i hempty
      refine ⟨_, (hmodify.remove k).2, hb.remove hi ?_ fun k' hk => ?_⟩
      · rw [hl, AList.lookup_erase, Option.bind_some, keptBucket, if_pos hempty]
      · rw [AList.lookup_erase_ne hk, AList.lookup_insert_ne hk]
    · rename_i hempty
      refine ⟨_, hmodify, hb.remove hi ?_ fun k' hk => AList.lookup_insert_ne hk⟩
      rw [hl, AList.lookup_insert, Option.bind_some, keptBucket, if_neg hempty]

theorem Keeps.replaceIndex (h : index.Keeps keyOf active) (hi : keyOf i = some k)
    (hj : keyOf j = some k) (hactive : i ∈ active) :
    (index.replaceIndex k i j).Keeps keyOf (insert j (active.erase i)) := by
  obtain ⟨d, hd, hb⟩ := h
  have hl : d.lookup k = some (bucketOf keyOf active k) :=
    (hb k).trans (keptBucket_of_mem (mem_bucketOf.2 ⟨hactive, hi⟩))
  refine ⟨_, hd.modify hl fun bucket => insert j (bucket.erase i),
    hb.replace hi hj hactive ?_ fun k' hk => AList.lookup_insert_ne hk⟩
  rw [hl, AList.lookup_insert]
  rfl

theorem Keeps.moveIndex {k' : κ} (h : index.Keeps keyOf active) (hi : keyOf i = some k)
    (hj : keyOf j = some k') (hactive : i ∈ active) :
    (index.moveIndex k k' i j).Keeps keyOf (insert j (active.erase i)) := by
  unfold SharedIndex.moveIndex
  split
  · rename_i heq
    subst heq
    exact h.replaceIndex hi hj hactive
  · exact (h.removeIndex hi).insertIndex hj

theorem Keeps.congr {keyOf' : ℕ → Option κ} (h : index.Keeps keyOf active)
    (hkey : ∀ i ∈ active, keyOf' i = keyOf i) : index.Keeps keyOf' active := by
  obtain ⟨d, hd, hb⟩ := h
  exact ⟨d, hd, hb.congr hkey⟩

end SharedIndex

end ForthDB
