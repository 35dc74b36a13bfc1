import ForthDB.Core.Containers
import ForthDB.Lib.SharedTrees

/-!
# The persistent containers and their clones

`ShardedMap` and `ChunkedLog` keep every level behind an `Arc`: clones share the cells, and
`Arc::make_mut` copies a cell before a write when another live reference leads to it. Here
the containers are families of clones over one heap of cells.

* `LawfulLocalMap`: `im::HashMap` is a correct persistent map.
* `insert_view`, `remove_view`, `getMut_view`: on the cells, the operations of the map do what
  `Core.Containers` says of its value.
-/

namespace ForthDB

open SharedTree

/-! ## The map of a shard -/

/-- What the containers call of `im::HashMap`. The change is written through the reference that
`get_mut` returns. -/
class LocalMap (σ : Type) (κ ν : outParam Type) where
  default : σ
  get : σ → κ → Option ν
  insert : σ → κ → ν → σ × Option ν
  remove : σ → κ → σ × Option ν
  getMut : σ → κ → (ν → ν) → σ × Option ν
  isEmpty : σ → Bool
  iter : σ → List (κ × ν)

/-- It is a correct persistent map. -/
class LawfulLocalMap (σ : Type) (κ ν : outParam Type) [DecidableEq κ] [LocalMap σ κ ν] :
    Prop where
  get_default : ∀ key, LocalMap.get (LocalMap.default : σ) key = none
  get_insert : ∀ (shard : σ) key value key', LocalMap.get (LocalMap.insert shard key value).1 key' =
    if key' = key then some value else LocalMap.get shard key'
  insert_eq : ∀ (shard : σ) key value,
    (LocalMap.insert shard key value).2 = LocalMap.get shard key
  get_remove : ∀ (shard : σ) key key', LocalMap.get (LocalMap.remove shard key).1 key' =
    if key' = key then none else LocalMap.get shard key'
  remove_eq : ∀ (shard : σ) key, (LocalMap.remove shard key).2 = LocalMap.get shard key
  get_getMut : ∀ (shard : σ) key change key', LocalMap.get (LocalMap.getMut shard key change).1 key' =
    if key' = key then (LocalMap.get shard key).map change else LocalMap.get shard key'
  getMut_eq : ∀ (shard : σ) key change,
    (LocalMap.getMut shard key change).2 = LocalMap.get shard key
  isEmpty_iff : ∀ shard : σ, LocalMap.isEmpty shard = true ↔ ∀ key, LocalMap.get shard key = none
  mem_iter : ∀ (shard : σ) key value,
    (key, value) ∈ LocalMap.iter shard ↔ LocalMap.get shard key = some value
  nodup_iter : ∀ shard : σ, ((LocalMap.iter shard).map Prod.fst).Nodup

variable {σ κ ν τ : Type} {shards : ℕ}

/-- A finite map is one. -/
instance [DecidableEq κ] : LocalMap (Dict κ ν) κ ν where
  default := ∅
  get shard key := shard.lookup key
  insert shard key value := (shard.insert key value, shard.lookup key)
  remove shard key := (shard.erase key, shard.lookup key)
  getMut shard key change :=
    match shard.lookup key with
    | some value => (shard.insert key (change value), some value)
    | none => (shard, none)
  isEmpty shard := decide (Dict.size shard = 0)
  iter shard := shard.entries.map fun e => (e.1, e.2)

theorem LocalMap.getMut_some [DecidableEq κ] {d : Dict κ ν} {key : κ} {value : ν}
    (h : d.lookup key = some value) (change : ν → ν) :
    LocalMap.getMut d key change = (d.insert key (change value), some value) := by
  show (match d.lookup key with | some _ => _ | none => _) = _
  rw [h]

theorem LocalMap.getMut_none [DecidableEq κ] {d : Dict κ ν} {key : κ} (h : d.lookup key = none)
    (change : ν → ν) : LocalMap.getMut d key change = (d, none) := by
  show (match d.lookup key with | some _ => _ | none => _) = _
  rw [h]

instance [DecidableEq κ] : LawfulLocalMap (Dict κ ν) κ ν where
  get_default key := AList.lookup_empty key
  get_insert shard key value key' := by
    show (shard.insert key value).lookup key' = _
    by_cases hkey : key' = key
    · rw [if_pos hkey, hkey, AList.lookup_insert]
    · rw [if_neg hkey, AList.lookup_insert_ne hkey]
      rfl
  insert_eq shard key value := rfl
  get_remove shard key key' := by
    show (shard.erase key).lookup key' = _
    by_cases hkey : key' = key
    · rw [if_pos hkey, hkey, AList.lookup_erase]
    · rw [if_neg hkey, AList.lookup_erase_ne hkey]
      rfl
  remove_eq shard key := rfl
  get_getMut shard key change key' := by
    show (LocalMap.getMut shard key change).1.lookup key' =
      if key' = key then (shard.lookup key).map change else shard.lookup key'
    cases hvalue : shard.lookup key with
    | some value =>
      rw [LocalMap.getMut_some hvalue]
      by_cases hkey : key' = key
      · rw [if_pos hkey, hkey, AList.lookup_insert]
        rfl
      · rw [if_neg hkey, AList.lookup_insert_ne hkey]
    | none =>
      rw [LocalMap.getMut_none hvalue]
      by_cases hkey : key' = key
      · rw [if_pos hkey, hkey, hvalue]
        rfl
      · rw [if_neg hkey]
  getMut_eq shard key change := by
    show (LocalMap.getMut shard key change).2 = shard.lookup key
    cases hvalue : shard.lookup key with
    | some value => rw [LocalMap.getMut_some hvalue]
    | none => rw [LocalMap.getMut_none hvalue]
  isEmpty_iff shard := by
    show decide (Dict.size shard = 0) = true ↔ ∀ key, shard.lookup key = none
    rw [decide_eq_true_iff]
    constructor
    · intro hsize key
      rw [Dict.eq_empty_of_size hsize, AList.lookup_empty]
    · intro hnone
      by_contra hsize
      obtain ⟨key, hkey⟩ := List.exists_mem_of_length_pos (Nat.pos_of_ne_zero hsize)
      exact (Dict.mem_keys shard key).1 hkey (hnone key)
  mem_iter shard key value := by
    show (key, value) ∈ shard.entries.map (fun e => (e.1, e.2)) ↔ shard.lookup key = some value
    rw [List.mem_map, ← Dict.mem_entries]
    constructor
    · rintro ⟨⟨key', value'⟩, hmem, heq⟩
      cases heq
      exact hmem
    · intro hmem
      exact ⟨⟨key, value⟩, hmem, rfl⟩
  nodup_iter shard := by
    show ((shard.entries.map fun e => (e.1, e.2)).map Prod.fst).Nodup
    rw [List.map_map]
    exact shard.nodupKeys

section Stores

variable [DecidableEq κ] [LocalMap σ κ ν]

/-- A shard and a finite map answer alike. -/
def Stores (shard : σ) (d : Dict κ ν) : Prop := ∀ key, LocalMap.get shard key = d.lookup key

variable [LawfulLocalMap σ κ ν] {shard : σ} {d : Dict κ ν}

theorem Stores.isEmpty_eq (h : Stores shard d) :
    LocalMap.isEmpty shard = LocalMap.isEmpty d := by
  rw [Bool.eq_iff_iff, LawfulLocalMap.isEmpty_iff, LawfulLocalMap.isEmpty_iff]
  exact forall_congr' fun key => by rw [h key]; rfl

/-- The iterations yield the same entries. -/
theorem Stores.iter_perm (h : Stores shard d) :
    (LocalMap.iter shard).Perm (d.entries.map fun e => (e.1, e.2)) := by
  have hnodup := LawfulLocalMap.nodup_iter d
  refine (List.perm_ext_iff_of_nodup (LawfulLocalMap.nodup_iter shard).of_map hnodup.of_map).2 ?_
  intro e
  rw [show e = (e.1, e.2) from rfl, LawfulLocalMap.mem_iter, LawfulLocalMap.mem_iter, h e.1]
  rfl

end Stores

/-! ## Edits of the cells -/

section Edits

variable [LocalMap σ κ ν]

/-- What an operation of the map does at the shard of its key. `create`: missing groups and
shards are made on the way. `prune`: empty ones go behind it. -/
def shardEdit (act : σ → σ × Option ν) (create prune : Bool) : Edit σ (Option ν) where
  act := act
  create := create
  blank := LocalMap.default
  width := shardGroupSize
  prune := prune
  isEmpty := LocalMap.isEmpty

variable (σ) in
def insertEdit (key : κ) (value : ν) : Edit σ (Option ν) :=
  shardEdit (fun shard => LocalMap.insert shard key value) true false

theorem create_insertEdit (key : κ) (value : ν) : (insertEdit σ key value).create = true := rfl

variable (σ) in
def removeEdit (key : κ) : Edit σ (Option ν) :=
  shardEdit (fun shard => LocalMap.remove shard key) false true

variable (σ) in
def getMutEdit (key : κ) (change : ν → ν) : Edit σ (Option ν) :=
  shardEdit (fun shard => LocalMap.getMut shard key change) false false

variable [DecidableEq κ] [LawfulLocalMap σ κ ν]

/-- An operation that changes one entry, and returns what it was, does the same to a shard and
to a finite map. -/
theorem simulates_shardEdit {act : σ → σ × Option ν} {act' : Dict κ ν → Dict κ ν × Option ν}
    (key : κ) (entry : Option ν → Option ν)
    (hact : ∀ shard key', LocalMap.get (act shard).1 key' =
      if key' = key then entry (LocalMap.get shard key) else LocalMap.get shard key')
    (hact' : ∀ d key', LocalMap.get (act' d).1 key' =
      if key' = key then entry (LocalMap.get d key) else LocalMap.get d key')
    (hresult : ∀ shard, (act shard).2 = LocalMap.get shard key)
    (hresult' : ∀ d, (act' d).2 = LocalMap.get d key) (create prune : Bool) :
    Edit.Simulates Stores (shardEdit act create prune) (shardEdit act' create prune) where
  act shard d h := by
    have hget : ∀ key', LocalMap.get shard key' = LocalMap.get d key' := h
    refine ⟨fun key' => ?_, ?_⟩
    · rw [show (shardEdit act create prune).act shard = act shard from rfl, hact, hget, hget]
      exact (hact' d key').symm
    · exact (hresult shard).trans ((hget key).trans (hresult' d).symm)
  create := rfl
  blank key' := by
    show LocalMap.get (LocalMap.default : σ) key' = AList.lookup key' (∅ : Dict κ ν)
    rw [LawfulLocalMap.get_default, AList.lookup_empty]
  width := rfl
  prune := rfl
  isEmpty _ _ h := h.isEmpty_eq

theorem simulates_insertEdit (key : κ) (value : ν) :
    Edit.Simulates Stores (insertEdit σ key value) (insertEdit (Dict κ ν) key value) :=
  simulates_shardEdit key (fun _ => some value)
    (fun shard => LawfulLocalMap.get_insert shard key value)
    (fun d => LawfulLocalMap.get_insert d key value)
    (fun shard => LawfulLocalMap.insert_eq shard key value)
    (fun d => LawfulLocalMap.insert_eq d key value) true false

theorem simulates_removeEdit (key : κ) :
    Edit.Simulates Stores (removeEdit σ key) (removeEdit (Dict κ ν) key) :=
  simulates_shardEdit key (fun _ => none)
    (fun shard => LawfulLocalMap.get_remove shard key)
    (fun d => LawfulLocalMap.get_remove d key)
    (fun shard => LawfulLocalMap.remove_eq shard key)
    (fun d => LawfulLocalMap.remove_eq d key) false true

theorem simulates_getMutEdit (key : κ) (change : ν → ν) :
    Edit.Simulates Stores (getMutEdit σ key change) (getMutEdit (Dict κ ν) key change) :=
  simulates_shardEdit key (Option.map change)
    (fun shard => LawfulLocalMap.get_getMut shard key change)
    (fun d => LawfulLocalMap.get_getMut d key change)
    (fun shard => LawfulLocalMap.getMut_eq shard key change)
    (fun d => LawfulLocalMap.getMut_eq d key change) false false

end Edits

namespace ShardedMap

variable [DecidableEq κ] [HashBytes κ] [Sharding shards]

variable {n : ℕ}

/-- A group, as a tree. -/
def groupView (group : Vector (Option (Dict κ ν)) n) : View (Dict κ ν) 1 := .node group.toList

/-- The directory of a map, as a tree. -/
def directoryView (groups : Vector (Option (ShardGroup κ ν)) n) : View (Dict κ ν) 2 :=
  .node (groups.toList.map (Option.map groupView))

def toView (m : ShardedMap κ ν shards) : View (Dict κ ν) 2 := directoryView m.groups

variable (shards) in
/-- `directory_indices`. -/
def directoryIndices (key : κ) : List ℕ := [groupIndex shards key, localIndex shards key]

theorem getElem?_toList_join {α : Type} {n : ℕ} (xs : Vector (Option α) n) (i : Fin n) :
    xs.toList[(i : ℕ)]?.join = xs[i] := by
  rw [List.getElem?_eq_getElem (by simp), Vector.getElem_toList]
  rfl

omit [DecidableEq κ] [HashBytes κ] in
theorem directoryView_join (groups : Vector (Option (ShardGroup κ ν)) n) (g : Fin n) :
    (directoryView groups).children[(g : ℕ)]?.join = groups[g].map groupView := by
  rw [directoryView, View.children_node, List.getElem?_map, ← getElem?_toList_join]
  cases groups.toList[(g : ℕ)]? with
  | none => rfl
  | some group => rfl

omit [DecidableEq κ] [HashBytes κ] in
/-- The groups with a changed one. -/
theorem directoryView_set (groups : Vector (Option (ShardGroup κ ν)) n) (g : Fin n)
    (group : Option (ShardGroup κ ν)) :
    directoryView (groups.set g group) =
      .node ((directoryView groups).children.set g (group.map groupView)) := by
  rw [directoryView, directoryView, View.children_node, Vector.toList_set, List.map_set]

omit [DecidableEq κ] [HashBytes κ] in
theorem directoryView_place (groups : Vector (Option (ShardGroup κ ν)) n) (g : Fin n)
    (group : View (Dict κ ν) 1) :
    place (directoryView groups).children g (some group) =
      (directoryView groups).children.set g (some group) := by
  unfold place
  rw [if_pos]
  rw [directoryView, View.children_node, List.length_map, Vector.length_toList]
  exact g.isLt

theorem groupView_join (group : Vector (Option (Dict κ ν)) n) (l : Fin n) :
    (groupView group).children[(l : ℕ)]?.join = group[l] := getElem?_toList_join group l

theorem groupView_set (group : Vector (Option (Dict κ ν)) n) (l : Fin n)
    (shard : Option (Dict κ ν)) :
    groupView (group.set l shard) = .node ((groupView group).children.set l shard) :=
  Vector.toList_set ..

theorem groupView_place (group : Vector (Option (Dict κ ν)) n) (l : Fin n)
    (shard : View (Dict κ ν) 0) :
    place (groupView group).children l (some shard) =
      (groupView group).children.set l (some shard) := by
  unfold place
  rw [if_pos]
  exact l.isLt.trans_eq (Vector.length_toList ..).symm

theorem insert_view_group (group : Vector (Option (Dict κ ν)) n) (l : Fin n) (key : κ)
    (value : ν) :
    (insertEdit (Dict κ ν) key value).view 1 (groupView group) [(l : ℕ)] =
      (groupView (group.set l (some ((group[l].getD ∅).insert key value))),
        some ((group[l].getD ∅).lookup key)) := by
  have hshard := groupView_join group l
  rw [groupView_set]
  cases hl : group[l] with
  | none =>
    rw [hl] at hshard
    rw [Edit.view_none _ hshard, if_pos (create_insertEdit key value), groupView_place]
    rfl
  | some shard =>
    rw [hl] at hshard
    rw [Edit.view_some _ hshard]
    rfl

theorem insert_view (m : ShardedMap κ ν shards) (key : κ) (value : ν) :
    (insertEdit (Dict κ ν) key value).view 2 m.toView (directoryIndices shards key) =
      ((m.insert key value).2.toView, some (m.insert key value).1) := by
  have hgroup := directoryView_join m.groups (groupIndex shards key)
  unfold directoryIndices ShardedMap.insert setShard toView
  rw [directoryView_set]
  cases hg : m.groups[groupIndex shards key] with
  | none =>
    rw [hg] at hgroup
    have hblank : (insertEdit (Dict κ ν) key value).blankView 1 =
        groupView (Vector.replicate shardGroupSize (none : Option (Dict κ ν))) := by
      rw [groupView, Vector.toList_replicate]
      rfl
    rw [Edit.view_none _ hgroup, if_pos (create_insertEdit key value), hblank, insert_view_group,
      directoryView_place]
    rfl
  | some group =>
    rw [hg] at hgroup
    rw [Edit.view_some _ hgroup, insert_view_group]
    rfl

/-- The length after an insertion, by what the shard returned. -/
def insertLen (len : ℕ) : Option (Option ν) → ℕ
  | some none => len + 1
  | _ => len

def removeLen (len : ℕ) : Option (Option ν) → ℕ
  | some (some _) => len - 1
  | _ => len

theorem insertLen_eq (m : ShardedMap κ ν shards) (key : κ) (value : ν) :
    insertLen m.len (some (m.insert key value).1) = (m.insert key value).2.len := by
  have hlen : (m.insert key value).2.len =
      if (m.insert key value).1.isNone then m.len + 1 else m.len := rfl
  rw [hlen]
  cases (m.insert key value).1 with
  | none => rfl
  | some old => rfl

theorem keep_set {groups : Vector (Option (ShardGroup κ ν)) n} {g : Fin n}
    {group : ShardGroup κ ν} (hg : groups[g] = some group) :
    View.node ((directoryView groups).children.set g (some (groupView group))) =
      directoryView groups := by
  have hset : groups.set g (some group) = groups := by
    rw [← hg]
    exact Vector.set_getElem_self _
  have hview := directoryView_set groups g (some group)
  rw [hset] at hview
  exact hview.symm

theorem remove_view_group (group : Vector (Option (Dict κ ν)) n) {l : Fin n} (key : κ)
    {shard : Dict κ ν} (hl : group[l] = some shard) :
    (removeEdit (Dict κ ν) key).view 1 (groupView group) [(l : ℕ)] =
      (groupView (group.set l
        (if Dict.size (shard.erase key) = 0 then none else some (shard.erase key))),
        some (shard.lookup key)) := by
  have hshard := groupView_join group l
  rw [hl] at hshard
  have hshards : (removeEdit (Dict κ ν) key).keep true
      ((removeEdit (Dict κ ν) key).isEmptyView 0 (shard.erase key : Dict κ ν))
      (shard.erase key : Dict κ ν) =
        if Dict.size (shard.erase key) = 0 then none else some (shard.erase key) := by
    unfold Edit.keep
    by_cases hsize : Dict.size (shard.erase key) = 0
    · rw [if_pos hsize, if_pos]
      exact decide_eq_true hsize
    · rw [if_neg hsize, if_neg]
      exact fun h => hsize (of_decide_eq_true h)
  rw [groupView_set, Edit.view_some _ hshard, ← hshards]
  rfl

/-- **Removal on the cells.** -/
theorem remove_view (m : ShardedMap κ ν shards) (key : κ) :
    ((removeEdit (Dict κ ν) key).view 2 m.toView (directoryIndices shards key)).1 =
        (m.remove key).2.toView ∧
      ((removeEdit (Dict κ ν) key).view 2 m.toView (directoryIndices shards key)).2.join =
        (m.remove key).1 ∧
      removeLen m.len ((removeEdit (Dict κ ν) key).view 2 m.toView (directoryIndices shards key)).2 =
        (m.remove key).2.len := by
  have hgroup := directoryView_join m.groups (groupIndex shards key)
  unfold directoryIndices ShardedMap.remove toView
  cases hg : m.groups[groupIndex shards key] with
  | none =>
    rw [hg] at hgroup
    rw [Edit.view_none _ hgroup]
    exact ⟨rfl, rfl, rfl⟩
  | some group =>
    rw [hg] at hgroup
    rw [Edit.view_some _ hgroup]
    have hshard := groupView_join group (localIndex shards key)
    cases hl : group[localIndex shards key] with
    | none =>
      rw [hl] at hshard
      have hview : (removeEdit (Dict κ ν) key).view 1 (groupView group)
          [(localIndex shards key : ℕ)] = (groupView group, none) := by
        rw [Edit.view_none _ hshard]
        rfl
      rw [hview]
      simp only [hl]
      exact ⟨keep_set hg, rfl, rfl⟩
    | some shard =>
      rw [remove_view_group group key hl]
      simp only [hl]
      set group' := group.set (localIndex shards key)
        (if Dict.size (shard.erase key) = 0 then none else some (shard.erase key)) with hgroup'
      refine ⟨?_, rfl, ?_⟩
      · rw [directoryView_set]
        have hkeep : (removeEdit (Dict κ ν) key).keep true
            ((removeEdit (Dict κ ν) key).isEmptyView 1 (groupView group')) (groupView group') =
              (if group'.toList.all Option.isNone then none else some group').map groupView := by
          unfold Edit.keep
          by_cases hempty : group'.toList.all Option.isNone = true
          · rw [if_pos hempty, if_pos]
            · rfl
            · exact hempty
          · rw [if_neg hempty, if_neg]
            · rfl
            · exact hempty
        rw [← hkeep]
        rfl
      · cases shard.lookup key with
        | none => rfl
        | some value => rfl

/-- **A change in place on the cells.** -/
theorem getMut_view (m : ShardedMap κ ν shards) (key : κ) (change : ν → ν) :
    ((getMutEdit (Dict κ ν) key change).view 2 m.toView (directoryIndices shards key)).1 =
        (m.modify key change).toView ∧
      ((getMutEdit (Dict κ ν) key change).view 2 m.toView (directoryIndices shards key)).2.join =
        m.get key := by
  have hgroup := directoryView_join m.groups (groupIndex shards key)
  rw [get_eq_shardAt, shardAt]
  unfold directoryIndices toView
  cases hg : m.groups[groupIndex shards key] with
  | none =>
    rw [hg] at hgroup
    have hmodify : m.modify key change = m := by
      unfold ShardedMap.modify
      simp only [hg]
    rw [Edit.view_none _ hgroup, hmodify]
    exact ⟨rfl, rfl⟩
  | some group =>
    rw [hg] at hgroup
    rw [Edit.view_some _ hgroup]
    have hshard := groupView_join group (localIndex shards key)
    cases hl : group[localIndex shards key] with
    | none =>
      rw [hl] at hshard
      have hmodify : m.modify key change = m := by
        unfold ShardedMap.modify
        simp only [hg, hl]
      have hview : (getMutEdit (Dict κ ν) key change).view 1 (groupView group)
          [(localIndex shards key : ℕ)] = (groupView group, none) := by
        rw [Edit.view_none _ hshard]
        rfl
      rw [hview, hmodify, Option.bind_some, hl]
      exact ⟨keep_set hg, rfl⟩
    | some shard =>
      rw [hl] at hshard
      have hview : (getMutEdit (Dict κ ν) key change).view 1 (groupView group)
          [(localIndex shards key : ℕ)] =
            (groupView (group.set (localIndex shards key)
              (some (LocalMap.getMut shard key change).1)),
              some (LocalMap.getMut shard key change).2) := by
        rw [groupView_set, Edit.view_some _ hshard]
        rfl
      rw [hview, Option.bind_some, hl, Option.bind_some]
      cases hvalue : shard.lookup key with
      | none =>
        have hset : group.set (localIndex shards key) (some shard) = group := by
          rw [← hl]
          exact Vector.set_getElem_self _
        have hmodify : m.modify key change = m := by
          unfold ShardedMap.modify
          simp only [hg, hl, hvalue]
        rw [LocalMap.getMut_none hvalue, hset, hmodify]
        exact ⟨keep_set hg, rfl⟩
      | some value =>
        have hmodify : m.modify key change =
            { m with groups := m.setShard key group (shard.insert key (change value)) } := by
          unfold ShardedMap.modify
          simp only [hg, hl, hvalue]
        rw [LocalMap.getMut_some hvalue, hmodify, setShard, directoryView_set]
        exact ⟨rfl, rfl⟩

theorem len_modify (m : ShardedMap κ ν shards) (key : κ) (change : ν → ν) :
    (m.modify key change).len = m.len := by
  unfold ShardedMap.modify
  split
  · rfl
  · split
    · rfl
    · split <;> rfl

/-- A change in place of an entry that may be missing. -/
theorem Represents.getMut {m : ShardedMap κ ν shards} {d : Dict κ ν} (h : m.Represents d)
    (key : κ) (change : ν → ν) :
    (m.modify key change).Represents (LocalMap.getMut d key change).1 := by
  cases hvalue : d.lookup key with
  | some value =>
    rw [LocalMap.getMut_some hvalue]
    exact h.modify hvalue change
  | none =>
    have hsame := LocalMap.getMut_none hvalue change
    have hmodify : m.modify key change = m := by
      rw [← h.get_eq, get_eq_shardAt, shardAt] at hvalue
      unfold ShardedMap.modify
      cases hg : m.groups[groupIndex shards key] with
      | none => rfl
      | some group =>
        rw [hg, Option.bind_some] at hvalue
        cases hl : group[localIndex shards key] with
        | none => simp only [hl]
        | some shard =>
          rw [hl, Option.bind_some] at hvalue
          simp only [hl, hvalue]
    rw [hsame, hmodify]
    exact h

theorem leaves_groupView (group : ShardGroup κ ν) :
    (groupView group).leaves 1 = group.toList.reduceOption := by
  unfold View.leaves
  exact List.flatMap_singleton' group.toList.reduceOption

theorem leaves_toView (m : ShardedMap κ ν shards) :
    m.toView.leaves 2 = m.groups.toList.reduceOption.flatMap fun group =>
      group.toList.reduceOption := by
  unfold View.leaves toView directoryView
  rw [View.children_node, List.reduceOption_map, List.flatMap_map]
  exact List.flatMap_congr fun group _ => leaves_groupView group

theorem mem_leaves_toView {m : ShardedMap κ ν shards} {shard : Dict κ ν}
    (h : shard ∈ m.toView.leaves 2) : ∃ g l, m.shardAt g l = some shard := by
  rw [leaves_toView] at h
  obtain ⟨group, hgroup, hshard⟩ := List.mem_flatMap.1 h
  obtain ⟨g, hg, hat⟩ := List.getElem_of_mem (List.reduceOption_mem_iff.1 hgroup)
  obtain ⟨l, hl, hat'⟩ := List.getElem_of_mem (List.reduceOption_mem_iff.1 hshard)
  rw [Vector.getElem_toList] at hat hat'
  rw [Vector.length_toList] at hg hl
  refine ⟨⟨g, hg⟩, ⟨l, hl⟩, ?_⟩
  unfold shardAt
  rw [show m.groups[(⟨g, hg⟩ : Fin _)] = some group from hat]
  exact hat'

/-- A group of a pruned map is not empty. -/
theorem Pruned.group {m : ShardedMap κ ν shards} (h : m.Pruned) {w : View (Dict κ ν) 1}
    (hw : some w ∈ m.toView.children) : w.children.all Option.isNone = false := by
  rw [toView, directoryView, View.children_node] at hw
  obtain ⟨group, hgroup, hview⟩ := List.mem_map.1 hw
  obtain ⟨g, hg, hat⟩ := List.getElem_of_mem hgroup
  rw [Vector.getElem_toList] at hat
  rw [Vector.length_toList] at hg
  cases group with
  | none => cases hview
  | some group =>
    cases hview
    obtain ⟨l, hl⟩ := h.inhabited ⟨g, hg⟩ group hat
    rw [Bool.eq_false_iff]
    exact fun hall => hl ((all_isNone_iff group).1 hall l)

theorem iter_toView (m : ShardedMap κ ν shards) :
    (m.toView.leaves 2).flatMap (fun shard => shard.entries.map fun e => (e.1, e.2)) =
      m.entries := by
  rw [leaves_toView, entries, List.flatMap_assoc]

theorem leafAt_toView (m : ShardedMap κ ν shards) (key : κ) :
    m.toView.leafAt 2 (directoryIndices shards key) =
      m.shardAt (groupIndex shards key) (localIndex shards key) := by
  unfold directoryIndices View.leafAt shardAt toView
  rw [directoryView_join]
  cases m.groups[groupIndex shards key] with
  | none => rfl
  | some group =>
    unfold View.leafAt
    rw [Option.map_some, Option.bind_some, Option.bind_some, groupView_join]
    exact Option.bind_fun_some _

end ShardedMap

/-! ## The clones of a map -/

/-- What a program calls on a clone. `drop` is the end of its life. -/
inductive MapOperation (κ ν : Type)
  | insert (key : κ) (value : ν)
  | remove (key : κ)
  | get (key : κ)
  | getMut (key : κ) (change : ν → ν)
  | len
  | iter
  | clone
  | drop

structure MapEvent (κ ν : Type) where
  member : ℕ
  operation : MapOperation κ ν

inductive MapAnswer (κ ν : Type)
  | value (found : Option ν)
  | len (count : ℕ)
  | entries (entries : List (κ × ν))
  | done

/-- The clones: the reference to the root, and `len`. -/
abbrev MapClones (σ : Type) : Type := Family σ ℕ

namespace MapClones

variable [DecidableEq κ] [HashBytes κ] [Sharding shards] [LocalMap σ κ ν]

variable (shards) in
/-- `ShardedMap::default`. -/
def default : MapClones σ where
  heap :=
    { leaves := []
      branches := fun n => if n = 1 then [List.replicate (shards / shardGroupSize) none] else [] }
  members := [some (0, 0)]

variable (shards) in
/-- One call on one clone. A clone that is gone does not answer. -/
def apply (f : MapClones σ) (event : MapEvent κ ν) : MapClones σ × Option (MapAnswer κ ν) :=
  let j := event.member
  match f.members[j]?.join with
  | none => (f, none)
  | some (root, len) =>
    match event.operation with
    | .insert key value =>
      let (f, previous) := f.edit (insertEdit σ key value) 2 ShardedMap.insertLen j
        (ShardedMap.directoryIndices shards key)
      (f, previous.map fun previous => .value previous.join)
    | .remove key =>
      let (f, previous) := f.edit (removeEdit σ key) 2 ShardedMap.removeLen j
        (ShardedMap.directoryIndices shards key)
      (f, previous.map fun previous => .value previous.join)
    | .getMut key change =>
      let (f, found) := f.edit (getMutEdit σ key change) 2 (fun len _ => len) j
        (ShardedMap.directoryIndices shards key)
      (f, found.map fun found => .value found.join)
    | .get key =>
      (f, some (.value ((f.heap.leafAt 2 root (ShardedMap.directoryIndices shards key)).bind
        fun shard => LocalMap.get shard key)))
    | .len => (f, some (.len len))
    | .iter => (f, some (.entries ((f.heap.leavesBelow 2 root).flatMap LocalMap.iter)))
    | .clone => (f.clone j, some .done)
    | .drop => (f.drop j, some .done)

variable (shards) in
def run : MapClones σ → List (MapEvent κ ν) → MapClones σ × List (Option (MapAnswer κ ν))
  | f, [] => (f, [])
  | f, event :: events =>
    let (f, answer) := f.apply shards event
    let (f, answers) := run f events
    (f, answer :: answers)

/-- No clone leads to an empty shard, or to a group without shards. -/
def Pruned (f : MapClones σ) : Prop :=
  ∀ root len, some (root, len) ∈ f.members →
    (∀ shard ∈ f.heap.leavesBelow 2 root, LocalMap.isEmpty shard = false) ∧
    ∀ group, some group ∈ f.heap.children 1 root →
      (f.heap.children 0 group).all Option.isNone = false

/-- What a program can read of a clone. -/
structure Reading (κ ν : Type) where
  get : κ → Option ν
  len : ℕ
  entries : List (κ × ν)

variable (shards) in
def reading (f : MapClones σ) (j : ℕ) : Option (Reading κ ν) :=
  f.members[j]?.join.map fun (root, len) =>
    { get := fun key => (f.heap.leafAt 2 root (ShardedMap.directoryIndices shards key)).bind
        fun shard => LocalMap.get shard key
      len := len
      entries := (f.heap.leavesBelow 2 root).flatMap LocalMap.iter }

end MapClones

/-- Two answers, whatever the order of an iteration. -/
def MapAnswer.Agree : MapAnswer κ ν → MapAnswer κ ν → Prop
  | .entries es, .entries es' => es.Perm es'
  | answer, answer' => answer = answer'

/-- Finite maps, one for each clone. -/
abbrev MapModel (κ ν : Type) : Type := List (Option (Dict κ ν))

namespace MapModel

variable [DecidableEq κ]

def apply (ds : MapModel κ ν) (event : MapEvent κ ν) : MapModel κ ν × Option (MapAnswer κ ν) :=
  let j := event.member
  match ds[j]?.join with
  | none => (ds, none)
  | some d =>
    match event.operation with
    | .insert key value => (ds.set j (some (d.insert key value)), some (.value (d.lookup key)))
    | .remove key => (ds.set j (some (d.erase key)), some (.value (d.lookup key)))
    | .getMut key change =>
      (ds.set j (some (LocalMap.getMut d key change).1), some (.value (d.lookup key)))
    | .get key => (ds, some (.value (d.lookup key)))
    | .len => (ds, some (.len (Dict.size d)))
    | .iter => (ds, some (.entries (d.entries.map fun e => (e.1, e.2))))
    | .clone => (ds ++ [some d], some .done)
    | .drop => (ds.set j none, some .done)

def run : MapModel κ ν → List (MapEvent κ ν) → MapModel κ ν × List (Option (MapAnswer κ ν))
  | ds, [] => (ds, [])
  | ds, event :: events =>
    let (ds, answer) := apply ds event
    let (ds, answers) := run ds events
    (ds, answer :: answers)

end MapModel

section Refinement

variable [DecidableEq κ] [HashBytes κ] [Sharding shards] [LocalMap σ κ ν]

variable (shards) in
/-- A tree of shards, and a length, that behave as a finite map. -/
def Models (v : View σ 2 × ℕ) (d : Dict κ ν) : Prop :=
  ∃ m : ShardedMap κ ν shards, View.Rel Stores 2 v.1 m.toView ∧ v.2 = m.len ∧
    m.Represents d ∧ m.Pruned

variable {v : View σ 2 × ℕ} {d d' : Dict κ ν}

/-- An operation that does on the tree of the map what the finite map does. -/
theorem Models.edit (hv : Models shards v d) {e : Edit σ (Option ν)}
    {e' : Edit (Dict κ ν) (Option ν)} (hsim : Edit.Simulates Stores e e')
    (count : ℕ → Option (Option ν) → ℕ) {path : List ℕ} {found : Option ν}
    (hstep : ∀ m : ShardedMap κ ν shards, m.Represents d → m.Pruned →
      ∃ m' : ShardedMap κ ν shards, (e'.view 2 m.toView path).1 = m'.toView ∧
        (e'.view 2 m.toView path).2.join = found ∧
        count m.len (e'.view 2 m.toView path).2 = m'.len ∧ m'.Represents d' ∧ m'.Pruned) :
    Models shards ((e.view 2 v.1 path).1, count v.2 (e.view 2 v.1 path).2) d' ∧
      (e.view 2 v.1 path).2.join = found := by
  obtain ⟨m, hrel, hlen, hm, hpruned⟩ := hv
  obtain ⟨m', hview, hfound, hcount, hm', hpruned'⟩ := hstep m hm hpruned
  obtain ⟨hrel', hresult⟩ := hsim.view hrel path
  rw [hresult, hlen]
  rw [hview] at hrel'
  exact ⟨⟨m', hrel', hcount, hm', hpruned'⟩, hfound⟩

theorem Models.get_eq [LawfulLocalMap σ κ ν] (hv : Models shards v d) (key : κ) :
    ((v.1.leafAt 2 (ShardedMap.directoryIndices shards key)).bind
      fun shard => LocalMap.get shard key) = d.lookup key := by
  obtain ⟨m, hrel, -, hm, -⟩ := hv
  have hleaf := hrel.leafAt (ShardedMap.directoryIndices shards key)
  rw [ShardedMap.leafAt_toView] at hleaf
  rw [← hm.get_eq, ShardedMap.get_eq_shardAt]
  generalize v.1.leafAt 2 _ = shard, m.shardAt _ _ = shard' at hleaf ⊢
  cases hleaf with
  | some hstores => exact hstores key
  | none => rfl

theorem Models.iter_perm [LawfulLocalMap σ κ ν] (hv : Models shards v d) :
    ((v.1.leaves 2).flatMap LocalMap.iter).Perm (d.entries.map fun e => (e.1, e.2)) := by
  obtain ⟨m, hrel, -, hm, -⟩ := hv
  refine List.Perm.trans ?_ hm.entries_perm
  rw [← ShardedMap.iter_toView]
  have hleaves := hrel.leaves
  generalize v.1.leaves 2 = leaves, m.toView.leaves 2 = leaves' at hleaves ⊢
  induction hleaves with
  | nil => exact .refl _
  | @cons shard d shards ds hstores _ ih =>
    rw [List.flatMap_cons, List.flatMap_cons]
    exact hstores.iter_perm.append ih

theorem Models.len_eq (hv : Models shards v d) : v.2 = Dict.size d := by
  obtain ⟨m, -, hlen, hm, -⟩ := hv
  exact hlen.trans hm.len

theorem Models.insert [LawfulLocalMap σ κ ν] (hv : Models shards v d) (key : κ) (value : ν) :
    Models shards (((insertEdit σ key value).view 2 v.1 (ShardedMap.directoryIndices shards key)).1,
        ShardedMap.insertLen v.2
          ((insertEdit σ key value).view 2 v.1 (ShardedMap.directoryIndices shards key)).2)
        (d.insert key value) ∧
      ((insertEdit σ key value).view 2 v.1 (ShardedMap.directoryIndices shards key)).2.join =
        d.lookup key := by
  refine hv.edit (simulates_insertEdit key value) _ fun m hm hpruned => ?_
  obtain ⟨hfound, hrep⟩ := hm.insert key value
  rw [m.insert_view key value]
  exact ⟨_, rfl, hfound, m.insertLen_eq key value, hrep, hpruned.insert key value⟩

theorem Models.remove [LawfulLocalMap σ κ ν] (hv : Models shards v d) (key : κ) :
    Models shards (((removeEdit σ key).view 2 v.1 (ShardedMap.directoryIndices shards key)).1,
        ShardedMap.removeLen v.2
          ((removeEdit σ key).view 2 v.1 (ShardedMap.directoryIndices shards key)).2)
        (d.erase key) ∧
      ((removeEdit σ key).view 2 v.1 (ShardedMap.directoryIndices shards key)).2.join =
        d.lookup key := by
  refine hv.edit (simulates_removeEdit key) _ fun m hm hpruned => ?_
  obtain ⟨hfound, hrep⟩ := hm.remove key
  obtain ⟨hview, hjoin, hlen⟩ := m.remove_view key
  exact ⟨_, hview, hjoin.trans hfound, hlen, hrep, hpruned.remove key⟩

theorem Models.getMut [LawfulLocalMap σ κ ν] (hv : Models shards v d) (key : κ)
    (change : ν → ν) :
    Models shards (((getMutEdit σ key change).view 2 v.1 (ShardedMap.directoryIndices shards key)).1,
        v.2) (LocalMap.getMut d key change).1 ∧
      ((getMutEdit σ key change).view 2 v.1 (ShardedMap.directoryIndices shards key)).2.join =
        d.lookup key := by
  refine hv.edit (simulates_getMutEdit key change) (fun len _ => len) fun m hm hpruned => ?_
  obtain ⟨hview, hfound⟩ := m.getMut_view key change
  refine ⟨_, hview, hfound.trans (hm.get_eq key), ?_, ?_, hpruned.modify key change⟩
  · exact (m.len_modify key change).symm
  · exact hm.getMut key change

/-- **One call** does to a clone what it does to its finite map, and nothing to the others. -/
theorem MapClones.apply_step [LawfulLocalMap σ κ ν] {f : MapClones σ}
    {vs : List (Option (View σ 2 × ℕ))} {ds : MapModel κ ν} (hf : f.Holds 2 vs)
    (hds : List.Forall₂ (Option.Rel (Models shards)) vs ds) (event : MapEvent κ ν) :
    ∃ vs', (f.apply shards event).1.Holds 2 vs' ∧
      List.Forall₂ (Option.Rel (Models shards)) vs' (ds.apply event).1 ∧
      Option.Rel MapAnswer.Agree (f.apply shards event).2 (ds.apply event).2 ∧
      ∀ i, i ≠ event.member → i < vs.length → vs'[i]? = vs[i]? := by
  obtain ⟨j, operation⟩ := event
  have hjoin := forall₂_join hds j
  unfold MapClones.apply MapModel.apply
  cases hv : vs[j]?.join with
  | none =>
    rw [hv] at hjoin
    simp only [hf.gone hv, rel_none_left hjoin]
    exact ⟨vs, hf, hds, .none, fun i _ _ => rfl⟩
  | some v =>
    rw [hv] at hjoin
    obtain ⟨d, hd, hmodels⟩ := rel_some_left hjoin
    obtain ⟨root, hat, hshows⟩ := hf.member hv
    simp only [hat, hd]
    have hset (w : Option (View σ 2 × ℕ)) : ∀ i, i ≠ j → i < vs.length →
        (vs.set j w)[i]? = vs[i]? := fun i hi _ => List.getElem?_set_ne (Ne.symm hi)
    have hedit (w : View σ 2 × ℕ) (d' : Dict κ ν) (hw : Models shards w d') :
        List.Forall₂ (Option.Rel (Models shards)) (vs.set j (some w)) (ds.set j (some d')) :=
      forall₂_replace hds (fun _ _ _ h => h) (.some hw)
    cases operation with
    | insert key value =>
      obtain ⟨hholds, hresult⟩ := hf.edit (insertEdit σ key value) ShardedMap.insertLen hv
        (ShardedMap.directoryIndices shards key)
      obtain ⟨hw, hfound⟩ := hmodels.insert key value
      refine ⟨_, hholds, hedit _ _ hw, ?_, hset _⟩
      simp only [hresult, Option.map_some, hfound]
      exact .some rfl
    | remove key =>
      obtain ⟨hholds, hresult⟩ := hf.edit (removeEdit σ key) ShardedMap.removeLen hv
        (ShardedMap.directoryIndices shards key)
      obtain ⟨hw, hfound⟩ := hmodels.remove key
      refine ⟨_, hholds, hedit _ _ hw, ?_, hset _⟩
      simp only [hresult, Option.map_some, hfound]
      exact .some rfl
    | getMut key change =>
      obtain ⟨hholds, hresult⟩ := hf.edit (getMutEdit σ key change) (fun len _ => len) hv
        (ShardedMap.directoryIndices shards key)
      obtain ⟨hw, hfound⟩ := hmodels.getMut key change
      refine ⟨_, hholds, hedit _ _ hw, ?_, hset _⟩
      simp only [hresult, Option.map_some, hfound]
      exact .some rfl
    | get key =>
      refine ⟨vs, hf, hds, .some (congrArg MapAnswer.value ?_), fun i _ _ => rfl⟩
      rw [hshows.leafAt_eq]
      exact hmodels.get_eq key
    | len =>
      exact ⟨vs, hf, hds, .some (congrArg MapAnswer.len hmodels.len_eq), fun i _ _ => rfl⟩
    | iter =>
      have hperm := hmodels.iter_perm
      rw [← hshows.leaves_eq] at hperm
      exact ⟨vs, hf, hds, .some hperm, fun i _ _ => rfl⟩
    | clone =>
      refine ⟨vs ++ [some v], ?_, List.rel_append hds (.cons (.some hmodels) .nil), .some rfl,
        fun i _ hi => List.getElem?_append_left hi⟩
      have hclone := hf.clone j
      rw [hv] at hclone
      exact hclone
    | drop =>
      exact ⟨_, hf.drop j, forall₂_replace hds (fun _ _ _ h => h) .none, .some rfl, hset none⟩

/-- What a finite map says that a clone reads. -/
structure MapClones.Reading.Of (r : MapClones.Reading κ ν) (d : Dict κ ν) : Prop where
  get : ∀ key, r.get key = d.lookup key
  len : r.len = Dict.size d
  entries : r.entries.Perm (d.entries.map fun e => (e.1, e.2))

/-- A reading depends on the value of the clone only. -/
theorem MapClones.reading_eq {f : MapClones σ} {vs : List (Option (View σ 2 × ℕ))}
    (hf : f.Holds 2 vs) (j : ℕ) : f.reading shards j = vs[j]?.join.map fun v =>
      { get := fun key => (v.1.leafAt 2 (ShardedMap.directoryIndices shards key)).bind
          fun shard => LocalMap.get shard key
        len := v.2
        entries := (v.1.leaves 2).flatMap LocalMap.iter } := by
  unfold MapClones.reading
  cases hv : vs[j]?.join with
  | none =>
    rw [hf.gone hv]
    rfl
  | some v =>
    obtain ⟨root, hat, hshows⟩ := hf.member hv
    rw [hat]
    simp only [Option.map_some, hshows.leafAt_eq, hshows.leaves_eq]

theorem MapClones.reading_of [LawfulLocalMap σ κ ν] {f : MapClones σ}
    {vs : List (Option (View σ 2 × ℕ))} {ds : MapModel κ ν} (hf : f.Holds 2 vs)
    (hds : List.Forall₂ (Option.Rel (Models shards)) vs ds) (j : ℕ) :
    Option.Rel Reading.Of (f.reading shards j) ds[j]?.join := by
  rw [MapClones.reading_eq hf]
  have hjoin := forall₂_join hds j
  generalize vs[j]?.join = v, ds[j]?.join = d at hjoin ⊢
  cases hjoin with
  | some hmodels => exact .some ⟨hmodels.get_eq, hmodels.len_eq, hmodels.iter_perm⟩
  | none => exact .none

theorem Models.pruned [LawfulLocalMap σ κ ν] (hv : Models shards v d) :
    (∀ shard ∈ v.1.leaves 2, LocalMap.isEmpty shard = false) ∧
      ∀ w, some w ∈ v.1.children → w.children.all Option.isNone = false := by
  obtain ⟨m, hrel, -, -, hpruned⟩ := hv
  constructor
  · intro shard hshard
    obtain ⟨shard', hmem, hstores⟩ := exists_mem_of_forall₂ hrel.leaves hshard
    obtain ⟨g, l, hat⟩ := ShardedMap.mem_leaves_toView hmem
    rw [hstores.isEmpty_eq]
    exact decide_eq_false (hpruned.filled g l shard' hat)
  · intro w hw
    obtain ⟨w', hmem, hww'⟩ := exists_mem_of_forall₂ hrel hw
    obtain ⟨group, hgroup, hrelated⟩ := rel_some_left hww'
    rw [hgroup] at hmem
    rw [all_isNone_eq hrelated]
    exact hpruned.group hmem

theorem MapClones.pruned_of [LawfulLocalMap σ κ ν] {f : MapClones σ}
    {vs : List (Option (View σ 2 × ℕ))} {ds : MapModel κ ν} (hf : f.Holds 2 vs)
    (hds : List.Forall₂ (Option.Rel (Models shards)) vs ds) : f.Pruned := by
  intro root len hmember
  obtain ⟨v', hv', hspelled⟩ := exists_mem_of_forall₂ hf hmember
  obtain ⟨v, rfl, hshows, -⟩ := rel_some_left hspelled
  obtain ⟨d', -, hmodels⟩ := exists_mem_of_forall₂ hds hv'
  obtain ⟨d, -, hd⟩ := rel_some_left hmodels
  obtain ⟨hshards, hgroups⟩ := hd.pruned
  constructor
  · rw [hshows.leaves_eq]
    exact hshards
  · intro group hgroup
    obtain ⟨w', hmem, hrel⟩ := exists_mem_of_forall₂ hshows.children_eq hgroup
    obtain ⟨w, rfl, hw⟩ := rel_some_left hrel
    rw [all_isNone_eq hw.children_eq]
    exact hgroups w hmem

theorem MapClones.default_holds :
    ∃ v : View σ 2 × ℕ, (MapClones.default shards : MapClones σ).Holds 2 [some v] ∧
      Models shards v ∅ := by
  refine ⟨(.node (List.replicate (shards / shardGroupSize) none), 0), ?_, ?_⟩
  · exact .cons (.some ⟨⟨_, rfl, forall₂_replicate_none _ _⟩, rfl⟩) .nil
  · refine ⟨ShardedMap.default, ?_, rfl, ShardedMap.default_represents, ShardedMap.default_pruned⟩
    have hgroups : (ShardedMap.default : ShardedMap κ ν shards).toView =
        .node (List.replicate (shards / shardGroupSize) none) := by
      rw [ShardedMap.toView, ShardedMap.directoryView, ShardedMap.default, Vector.toList_replicate,
        List.map_replicate]
      rfl
    rw [hgroups]
    exact forall₂_replicate_none _ _

/-- **Any calls on any tree of clones.** -/
theorem MapClones.run_steps [LawfulLocalMap σ κ ν] {f : MapClones σ}
    {vs : List (Option (View σ 2 × ℕ))} {ds : MapModel κ ν} (hf : f.Holds 2 vs)
    (hds : List.Forall₂ (Option.Rel (Models shards)) vs ds) (events : List (MapEvent κ ν)) :
    ∃ vs', (f.run shards events).1.Holds 2 vs' ∧
      List.Forall₂ (Option.Rel (Models shards)) vs' (ds.run events).1 ∧
      List.Forall₂ (Option.Rel MapAnswer.Agree) (f.run shards events).2 (ds.run events).2 := by
  induction events generalizing f vs ds with
  | nil => exact ⟨vs, hf, hds, .nil⟩
  | cons event events ih =>
    obtain ⟨vs₁, hf₁, hds₁, hanswer, -⟩ := MapClones.apply_step hf hds event
    obtain ⟨vs₂, hf₂, hds₂, hanswers⟩ := ih hf₁ hds₁
    exact ⟨vs₂, hf₂, hds₂, .cons hanswer hanswers⟩

end Refinement

end ForthDB
