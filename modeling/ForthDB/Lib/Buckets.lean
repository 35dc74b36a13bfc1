import Mathlib.Data.Finset.Basic
import Mathlib.Data.Finset.Filter
import Mathlib.Data.Finset.Sort
import Mathlib.Tactic.Common

/-!
# Indexes of a set by a key

An index keeps, for each key, the nonempty set of those active identifiers that carry
the key. `IndexBy find keyOf active` says that `find` is this index. It is kept by
adding an identifier (`add`), by removing one together with a bucket that becomes empty
(`remove`), and by replacing one by another of the same key (`replace`).
-/

variable {ι κ : Type} [DecidableEq ι] [DecidableEq κ]

/-- A bucket that holds nothing is not kept. -/
def keptBucket (bucket : Finset ι) : Option (Finset ι) := if bucket = ∅ then none else some bucket

@[simp] theorem keptBucket_getD (bucket : Finset ι) : (keptBucket bucket).getD ∅ = bucket := by
  unfold keptBucket
  split
  · rename_i h; rw [h]; rfl
  · rfl

theorem keptBucket_of_mem {bucket : Finset ι} {i : ι} (h : i ∈ bucket) :
    keptBucket bucket = some bucket :=
  if_neg (Finset.ne_empty_of_mem h)

/-- The active identifiers that carry the key `k`. -/
def bucketOf (keyOf : ι → Option κ) (active : Finset ι) (k : κ) : Finset ι :=
  active.filter fun i => keyOf i = some k

/-- `find` is the index of the active identifiers by their keys. -/
def IndexBy (find : κ → Option (Finset ι)) (keyOf : ι → Option κ) (active : Finset ι) : Prop :=
  ∀ k, find k = keptBucket (bucketOf keyOf active k)

variable {find find' : κ → Option (Finset ι)} {keyOf keyOf' : ι → Option κ} {active : Finset ι}

/-- A part of a set, listed in ascending order. -/
theorem sort_filter {α : Type} [LinearOrder α] (s : Finset α) (p : α → Prop) [DecidablePred p] :
    (s.filter p).sort = s.sort.filter p := by
  refine List.Perm.eq_of_pairwise (fun _ _ _ _ => le_antisymm) (Finset.pairwise_sort _ _)
    ((Finset.pairwise_sort s _).filter _) ?_
  refine (List.perm_ext_iff_of_nodup (Finset.sort_nodup _ _)
    ((Finset.sort_nodup s _).filter _)).2 fun x => ?_
  rw [Finset.mem_sort, Finset.mem_filter, List.mem_filter, Finset.mem_sort, decide_eq_true_iff]

omit [DecidableEq ι] in
theorem mem_bucketOf {i : ι} {k : κ} :
    i ∈ bucketOf keyOf active k ↔ i ∈ active ∧ keyOf i = some k := Finset.mem_filter

namespace IndexBy

theorem empty : IndexBy (fun _ : κ => none) keyOf (∅ : Finset ι) := fun _ => rfl

theorem getD_eq (h : IndexBy find keyOf active) (k : κ) :
    (find k).getD ∅ = bucketOf keyOf active k := by
  rw [h k, keptBucket_getD]

/-- Only the keys of the active identifiers count. -/
theorem congr (h : IndexBy find keyOf active) (hkey : ∀ i ∈ active, keyOf' i = keyOf i) :
    IndexBy find keyOf' active := by
  intro k
  rw [h k]
  congr 1
  refine Finset.filter_congr fun i hi => ?_
  rw [hkey i hi]

theorem add (h : IndexBy find keyOf active) {i : ι} {k : κ} (hi : keyOf i = some k)
    (hself : find' k = some (insert i ((find k).getD ∅)))
    (hother : ∀ k', k' ≠ k → find' k' = find k') : IndexBy find' keyOf (insert i active) := by
  intro k'
  by_cases hk : k' = k
  · subst hk
    have hb : bucketOf keyOf (insert i active) k' = insert i (bucketOf keyOf active k') := by
      unfold bucketOf
      rw [Finset.filter_insert, if_pos hi]
    rw [hself, h.getD_eq, hb, keptBucket_of_mem (Finset.mem_insert_self _ _)]
  · have hb : bucketOf keyOf (insert i active) k' = bucketOf keyOf active k' := by
      unfold bucketOf
      rw [Finset.filter_insert, if_neg]
      rw [hi]
      exact fun he => hk (Option.some_inj.1 he).symm
    rw [hother k' hk, h k', hb]

theorem remove (h : IndexBy find keyOf active) {i : ι} {k : κ} (hi : keyOf i = some k)
    (hself : find' k = (find k).bind fun bucket => keptBucket (bucket.erase i))
    (hother : ∀ k', k' ≠ k → find' k' = find k') : IndexBy find' keyOf (active.erase i) := by
  intro k'
  have hb : bucketOf keyOf (active.erase i) k' = (bucketOf keyOf active k').erase i := by
    unfold bucketOf
    rw [Finset.filter_erase]
  by_cases hk : k' = k
  · subst hk
    rw [hself, h k', hb]
    unfold keptBucket
    split
    · rename_i hempty
      rw [hempty]
      rfl
    · rfl
  · rw [hother k' hk, h k', hb, Finset.erase_eq_of_notMem]
    rw [mem_bucketOf, hi]
    exact fun he => hk (Option.some_inj.1 he.2).symm

theorem replace (h : IndexBy find keyOf active) {i j : ι} {k : κ} (hi : keyOf i = some k)
    (hj : keyOf j = some k) (hactive : i ∈ active)
    (hself : find' k = (find k).map fun bucket => insert j (bucket.erase i))
    (hother : ∀ k', k' ≠ k → find' k' = find k') :
    IndexBy find' keyOf (insert j (active.erase i)) := by
  have hbucket : find k = some (bucketOf keyOf active k) := by
    rw [h k, keptBucket_of_mem (mem_bucketOf.2 ⟨hactive, hi⟩)]
  -- take the old identifier out, then put the new one in
  have hremoved : IndexBy (fun k' => if k' = k then
      (find k).bind fun bucket => keptBucket (bucket.erase i) else find k') keyOf
      (active.erase i) :=
    h.remove hi (by simp) fun k' hk => by simp [hk]
  refine hremoved.add hj ?_ fun k' hk => ?_
  · rw [hself, hbucket]
    simp
  · rw [hother k' hk]
    simp [hk]

end IndexBy
