import Mathlib.Data.Finset.Card
import Mathlib.Data.List.AList
import Mathlib.Data.List.Sort
import Mathlib.Data.String.Basic

/-!
# Finite maps with unique keys

`Dict κ ν` is an association list without duplicate keys. The lemmas count its
keys: inserting a new key adds one, erasing a present key takes one away.

`sorted` lists the entries in the order of the keys' texts, `insertAll` inserts entries
one by one. `lookup_merge`, `size_merge`: inserting the entries of a map lays it over
another. `keys_sorted_eq`: a list of the keys in ascending order is the order of `sorted`.
-/

/-- A finite map with unique keys. -/
abbrev Dict (κ ν : Type) : Type := AList fun _ : κ => ν

namespace Dict

variable {κ ν : Type}

/-- The number of keys. -/
def size (m : Dict κ ν) : ℕ := m.keys.length

@[simp] theorem size_empty : size (∅ : Dict κ ν) = 0 := rfl

variable [DecidableEq κ]

theorem mem_keys (m : Dict κ ν) (k : κ) : k ∈ m.keys ↔ m.lookup k ≠ none := by
  rw [← AList.mem_keys, ← AList.lookup_isSome, Option.isSome_iff_ne_none]

theorem size_insert_new {m : Dict κ ν} {k : κ} (h : m.lookup k = none) (v : ν) :
    size (m.insert k v) = size m + 1 := by
  have hk : k ∉ m.keys := by rw [mem_keys]; simp [h]
  simp [size, List.erase_of_not_mem hk]

theorem size_insert_old {m : Dict κ ν} {k : κ} {u : ν} (h : m.lookup k = some u) (v : ν) :
    size (m.insert k v) = size m := by
  have hk : k ∈ m.keys := by rw [mem_keys]; simp [h]
  have hp : 0 < m.keys.length := List.length_pos_of_mem hk
  simp only [size, AList.keys_insert, List.length_cons, List.length_erase_of_mem hk]
  omega

theorem size_erase_old {m : Dict κ ν} {k : κ} {u : ν} (h : m.lookup k = some u) :
    size (m.erase k) + 1 = size m := by
  have hk : k ∈ m.keys := by rw [mem_keys]; simp [h]
  have hp : 0 < m.keys.length := List.length_pos_of_mem hk
  simp only [size, AList.keys_erase, List.length_erase_of_mem hk]
  omega

theorem erase_absent {m : Dict κ ν} {k : κ} (h : m.lookup k = none) : m.erase k = m :=
  AList.ext (List.kerase_of_notMem_keys (AList.lookup_eq_none.1 h))

omit [DecidableEq κ] in
theorem eq_empty_of_size {m : Dict κ ν} (h : size m = 0) : m = ∅ := by
  refine AList.ext ?_
  have hkeys : m.entries.map Sigma.fst = [] := List.length_eq_zero_iff.1 h
  exact List.map_eq_nil_iff.1 hkeys

theorem mem_entries {m : Dict κ ν} {k : κ} {v : ν} :
    (⟨k, v⟩ : Sigma fun _ : κ => ν) ∈ m.entries ↔ m.lookup k = some v :=
  AList.mem_lookup_iff.symm

theorem size_eq_card (m : Dict κ ν) : size m = m.keys.toFinset.card :=
  (List.toFinset_card_of_nodup m.keys_nodup).symm

/-- The entries, in the order of the keys' texts. -/
def sorted (text : κ → String) (d : Dict κ ν) : List (κ × ν) :=
  (d.entries.map fun e => (e.1, e.2)).insertionSort fun x y => text x.1 ≤ text y.1

/-- Insert entries one by one. -/
def insertAll (d : Dict κ ν) (entries : List (κ × ν)) : Dict κ ν :=
  entries.foldl (fun d e => d.insert e.1 e.2) d

theorem lookup_insertAll {entries : List (κ × ν)} (hn : (entries.map Prod.fst).Nodup)
    (d : Dict κ ν) (k : κ) :
    (d.insertAll entries).lookup k = (entries.lookup k).or (d.lookup k) := by
  unfold insertAll
  induction entries generalizing d with
  | nil => rfl
  | cons e entries ih =>
    obtain ⟨j, v⟩ := e
    rw [List.map_cons, List.nodup_cons] at hn
    rw [List.foldl_cons, ih hn.2]
    by_cases hk : k = j
    · subst hk
      -- a later entry would repeat the key
      have hnone : entries.lookup k = none := by
        rw [List.lookup_eq_none_iff]
        intro p hp
        have : k ≠ p.1 := by
          rintro rfl
          exact hn.1 (List.mem_map.2 ⟨p, hp, rfl⟩)
        simpa using this
      simp [hnone]
    · have hb : (k == j) = false := by simpa using hk
      simp [List.lookup_cons, hb, hk]

theorem size_insert_le (d : Dict κ ν) (k : κ) (v : ν) : size (d.insert k v) ≤ size d + 1 := by
  simp only [size, AList.keys_insert, List.length_cons]
  exact Nat.succ_le_succ List.length_erase_le

theorem size_insertAll_le (entries : List (κ × ν)) (d : Dict κ ν) :
    size (d.insertAll entries) ≤ size d + entries.length := by
  unfold insertAll
  induction entries generalizing d with
  | nil => exact le_rfl
  | cons e entries ih =>
    have hrest := ih (d.insert e.1 e.2)
    have hinsert := size_insert_le d e.1 e.2
    rw [List.foldl_cons, List.length_cons]
    omega

theorem size_insertAll {entries : List (κ × ν)} (hn : (entries.map Prod.fst).Nodup)
    {d : Dict κ ν} (hnew : ∀ e ∈ entries, d.lookup e.1 = none) :
    size (d.insertAll entries) = size d + entries.length := by
  unfold insertAll
  induction entries generalizing d with
  | nil => rfl
  | cons e entries ih =>
    rw [List.map_cons, List.nodup_cons] at hn
    rw [List.forall_mem_cons] at hnew
    rw [List.foldl_cons, ih hn.2, size_insert_new hnew.1, List.length_cons]
    · omega
    · intro x hx
      have hne : x.1 ≠ e.1 := fun h => hn.1 (h ▸ List.mem_map.2 ⟨x, hx, rfl⟩)
      rw [AList.lookup_insert_ne hne]
      exact hnew.2 x hx

variable (text : κ → String) (d : Dict κ ν)

omit [DecidableEq κ] in
theorem perm_sorted : (d.sorted text).Perm (d.entries.map fun e => (e.1, e.2)) :=
  List.perm_insertionSort _ _

omit [DecidableEq κ] in
theorem keys_sorted_perm : ((d.sorted text).map Prod.fst).Perm d.keys := by
  refine ((perm_sorted text d).map Prod.fst).trans (List.Perm.of_eq ?_)
  rw [List.map_map]
  rfl

omit [DecidableEq κ] in
theorem keys_sorted_nodup : ((d.sorted text).map Prod.fst).Nodup :=
  (keys_sorted_perm text d).nodup_iff.2 d.keys_nodup

omit [DecidableEq κ] in
theorem length_sorted : (d.sorted text).length = size d := by
  rw [size, ← (keys_sorted_perm text d).length_eq, List.length_map]

theorem mem_sorted {k : κ} {v : ν} : (k, v) ∈ d.sorted text ↔ d.lookup k = some v := by
  rw [(perm_sorted text d).mem_iff, ← Option.mem_def, AList.mem_lookup_iff, List.mem_map]
  constructor
  · rintro ⟨e, he, heq⟩
    cases heq
    exact he
  · intro h
    exact ⟨_, h, rfl⟩

theorem lookup_sorted (k : κ) : (d.sorted text).lookup k = d.lookup k := by
  have hn := keys_sorted_nodup text d
  cases hl : (d.sorted text).lookup k with
  | some v =>
    obtain ⟨xs, ys, heq, -⟩ := List.lookup_eq_some_iff.1 hl
    exact ((mem_sorted text d).1 (heq ▸ by simp)).symm
  | none =>
    rw [List.lookup_eq_none_iff] at hl
    cases hd : d.lookup k with
    | none => rfl
    | some v =>
      have := hl _ ((mem_sorted text d).2 hd)
      simp at this

/-- **Inserting the entries of a map** lays it over another. -/
theorem lookup_merge (e : Dict κ ν) (k : κ) :
    (d.insertAll (e.sorted text)).lookup k = (e.lookup k).or (d.lookup k) := by
  rw [lookup_insertAll (keys_sorted_nodup text e), lookup_sorted]

theorem size_merge {d e : Dict κ ν} (hnew : ∀ k, e.lookup k ≠ none → d.lookup k = none) :
    size (d.insertAll (e.sorted text)) = size d + size e := by
  rw [size_insertAll (keys_sorted_nodup text e), length_sorted]
  rintro ⟨k, v⟩ hk
  refine hnew k ?_
  rw [(mem_sorted text e).1 hk]
  simp

omit [DecidableEq κ] in
/-- A map is walked in ascending order of its keys. -/
theorem keys_sorted_ascending {text : κ → String} (hinj : Function.Injective text) :
    ((d.sorted text).map Prod.fst).Pairwise fun x y => text x < text y := by
  have hsorted : ((d.sorted text).map Prod.fst).Pairwise fun x y => text x ≤ text y := by
    rw [List.pairwise_map]
    exact List.pairwise_insertionSort (fun x y : κ × ν => text x.1 ≤ text y.1) _
  refine (hsorted.and (keys_sorted_nodup text d)).imp ?_
  rintro x y ⟨hle, hne⟩
  exact lt_of_le_of_ne hle fun heq => hne (hinj heq)

/-- A list of the keys is the order in which a map is walked, up to a permutation. -/
theorem keys_sorted_perm_of {ks : List κ} (hn : ks.Nodup)
    (hmem : ∀ k, k ∈ ks ↔ d.lookup k ≠ none) : ((d.sorted text).map Prod.fst).Perm ks := by
  refine (List.perm_ext_iff_of_nodup (keys_sorted_nodup text d) hn).2 fun k => ?_
  rw [(keys_sorted_perm text d).mem_iff, mem_keys, hmem]

/-- **A list of the keys in ascending order** is the order in which a map is walked. -/
theorem keys_sorted_eq {text : κ → String} (hinj : Function.Injective text) {ks : List κ}
    (hasc : ks.Pairwise fun x y => text x < text y)
    (hmem : ∀ k, k ∈ ks ↔ d.lookup k ≠ none) : (d.sorted text).map Prod.fst = ks := by
  have hks : ks.Nodup := by
    refine hasc.imp ?_
    rintro x _ h rfl
    exact lt_irrefl _ h
  have hperm := keys_sorted_perm_of text d hks hmem
  have hsorted := (keys_sorted_ascending d hinj).imp fun h => le_of_lt h
  have hks' : ks.Pairwise fun x y => text x ≤ text y := hasc.imp fun h => le_of_lt h
  exact hperm.eq_of_pairwise (fun x y _ _ hxy hyx => hinj (le_antisymm hxy hyx)) hsorted hks'

end Dict
