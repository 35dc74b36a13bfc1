import ForthDB.Core.Types
import Mathlib.Data.List.ReduceOption
import Mathlib.Tactic.Common

/-!
# The persistent containers of the shared kernel

`ChunkedLog` keeps a log in chunks of 1024, `ShardedMap` spreads a map over groups of 64
shards by the FNV hash of the key. `Arc::make_mut` copies what another clone shares, so
a container is the value it holds; `im::HashMap` is a finite map.

* `ChunkedLog.Lists c xs`: the chunks of `c` hold exactly `xs`. A push appends.
* `ShardedMap.Represents m d`: `m` answers like the finite map `d` and every key is
  filed in its own shard. Insertion, removal and a change in place do to `m` what they
  do to `d`; the values of the iteration are the values of `d`.
-/

namespace ForthDB

/-! ## The log -/

/-- `LOG_CHUNK_CAPACITY`. -/
def logChunkCapacity : ℕ := 1024

structure ChunkedLog (τ : Type) where
  chunks : List (List τ)
  len : ℕ

namespace ChunkedLog

variable {τ : Type}

def default : ChunkedLog τ := ⟨[], 0⟩

def chunkCount (c : ChunkedLog τ) : ℕ := c.chunks.length

/-- `get`: `none` is the panic of an index out of bounds. -/
def get (c : ChunkedLog τ) (index : ℕ) : Option τ :=
  c.chunks[index / logChunkCapacity]?.bind fun chunk => chunk[index % logChunkCapacity]?

/-- The chunks after a push. -/
def pushChunks (chunks : List (List τ)) (value : τ) : List (List τ) :=
  match chunks.getLast? with
  | some last =>
    if last.length < logChunkCapacity then chunks.dropLast ++ [last ++ [value]]
    else chunks ++ [[value]]
  | none => chunks ++ [[value]]

def push (c : ChunkedLog τ) (value : τ) : ℕ × ChunkedLog τ :=
  (c.len, ⟨pushChunks c.chunks value, c.len + 1⟩)

/-- Full chunks, and a last one that is neither empty nor too long. -/
inductive Packed : List (List τ) → Prop
  | nil : Packed []
  | last {chunk : List τ} : chunk ≠ [] → chunk.length ≤ logChunkCapacity → Packed [chunk]
  | cons {chunk : List τ} {chunks : List (List τ)} :
      chunk.length = logChunkCapacity → chunks ≠ [] → Packed chunks → Packed (chunk :: chunks)

/-- The log holds the list `xs`. -/
structure Lists (c : ChunkedLog τ) (xs : List τ) : Prop where
  packed : Packed c.chunks
  flatten : c.chunks.flatten = xs
  len : c.len = xs.length

theorem Packed.getElem? {chunks : List (List τ)} (h : Packed chunks) (index : ℕ) :
    (chunks[index / logChunkCapacity]?.bind fun chunk => chunk[index % logChunkCapacity]?) =
      chunks.flatten[index]? := by
  have hpos : 0 < logChunkCapacity := by decide
  induction h generalizing index with
  | nil => simp
  | @last chunk _ hle =>
    rcases Nat.lt_or_ge index logChunkCapacity with hlt | hge
    · simp [Nat.div_eq_of_lt hlt, Nat.mod_eq_of_lt hlt]
    · have hdiv : 1 ≤ index / logChunkCapacity := (Nat.one_le_div_iff hpos).2 hge
      rw [List.getElem?_eq_none (by simpa using hdiv)]
      simp only [List.flatten_cons, List.flatten_nil, List.append_nil, Option.bind_none]
      exact (List.getElem?_eq_none (by omega)).symm
  | @cons chunk chunks hfull _ _ ih =>
    rw [List.flatten_cons]
    rcases Nat.lt_or_ge index logChunkCapacity with hlt | hge
    · rw [Nat.div_eq_of_lt hlt, Nat.mod_eq_of_lt hlt, List.getElem?_append_left (by omega)]
      rfl
    · rw [List.getElem?_append_right (by omega), hfull, ← ih]
      have hdiv : index / logChunkCapacity = (index - logChunkCapacity) / logChunkCapacity + 1 :=
        Nat.div_eq_sub_div hpos hge
      rw [hdiv, Nat.mod_eq_sub_mod hge]
      rfl

theorem pushChunks_cons {chunk : List τ} {chunks : List (List τ)} (hne : chunks ≠ [])
    (value : τ) : pushChunks (chunk :: chunks) value = chunk :: pushChunks chunks value := by
  unfold pushChunks
  rw [List.getLast?_cons]
  cases hl : chunks.getLast? with
  | none => exact absurd (List.getLast?_eq_none_iff.1 hl) hne
  | some last =>
    simp only [Option.getD_some]
    split
    · rw [List.dropLast_cons_of_ne_nil hne]; rfl
    · rfl

theorem pushChunks_ne_nil (chunks : List (List τ)) (value : τ) : pushChunks chunks value ≠ [] := by
  unfold pushChunks
  split <;> [split; skip] <;> simp

theorem Packed.push {chunks : List (List τ)} (h : Packed chunks) (value : τ) :
    Packed (pushChunks chunks value) ∧
      (pushChunks chunks value).flatten = chunks.flatten ++ [value] := by
  have hone : Packed [[value]] := .last (by simp) (by simp [logChunkCapacity])
  induction h with
  | nil => exact ⟨hone, by simp [pushChunks]⟩
  | @last chunk hne hle =>
    rcases Nat.lt_or_ge chunk.length logChunkCapacity with hlt | hge
    · refine ⟨?_, by simp [pushChunks, hlt]⟩
      have : pushChunks [chunk] value = [chunk ++ [value]] := by simp [pushChunks, hlt]
      rw [this]
      exact .last (by simp) (by simpa [Nat.succ_le_iff] using hlt)
    · have : pushChunks [chunk] value = [chunk, [value]] := by
        simp [pushChunks, Nat.not_lt.2 hge]
      rw [this]
      exact ⟨.cons (by omega) (by simp) hone, by simp⟩
  | @cons chunk chunks hfull hne _ ih =>
    rw [pushChunks_cons hne]
    exact ⟨.cons hfull (pushChunks_ne_nil _ _) ih.1, by simp [ih.2]⟩

theorem default_lists : (default : ChunkedLog τ).Lists [] := ⟨.nil, rfl, rfl⟩

variable {c : ChunkedLog τ} {xs : List τ}

theorem Lists.get_eq (h : c.Lists xs) (index : ℕ) : c.get index = xs[index]? := by
  rw [← h.flatten]
  exact h.packed.getElem? index

/-- **A push appends** and returns the index of the new entry. -/
theorem Lists.push (h : c.Lists xs) (value : τ) :
    (c.push value).1 = xs.length ∧ (c.push value).2.Lists (xs ++ [value]) := by
  obtain ⟨hp, hf⟩ := h.packed.push value
  refine ⟨h.len, hp, ?_, ?_⟩
  · rw [← h.flatten]; exact hf
  · simp [ChunkedLog.push, h.len]

end ChunkedLog

/-! ## The map -/

/-- The bytes that `Hash::hash` writes to a hasher. -/
class HashBytes (κ : Type) where
  bytes : κ → List UInt8

/-- A `str` is hashed with a final `0xff`. -/
def hashText (text : String) : List UInt8 := Bytes.utf8 text ++ [0xff]

instance : HashBytes SlotId := ⟨fun slot => hashText slot.value⟩

instance : HashBytes Predicate := ⟨fun predicate => hashText predicate.value⟩

/-- The discriminant of an enumeration is hashed as an `isize`. -/
instance : HashBytes Atom where
  bytes
    | .entity entity => Bytes.le 8 0 ++ Bytes.le 8 entity.value
    | .literal literal => Bytes.le 8 1 ++ hashText literal.value

instance : HashBytes Fact where
  bytes fact :=
    HashBytes.bytes fact.subject ++ HashBytes.bytes fact.predicate ++ HashBytes.bytes fact.object

instance {κ κ' : Type} [HashBytes κ] [HashBytes κ'] : HashBytes (κ × κ') where
  bytes key := HashBytes.bytes key.1 ++ HashBytes.bytes key.2

/-- `SHARD_GROUP_SIZE`. -/
abbrev shardGroupSize : ℕ := 64

/-- The assertions of `ShardedMap::default` about its number of shards. -/
class Sharding (shards : ℕ) : Prop where
  pos : 0 < shards
  dvd : shardGroupSize ∣ shards

instance : Sharding 4096 := ⟨by decide, by decide⟩

instance : Sharding 1024 := ⟨by decide, by decide⟩

abbrev ShardGroup (κ ν : Type) : Type := Vector (Option (Dict κ ν)) shardGroupSize

structure ShardedMap (κ ν : Type) (shards : ℕ) where
  groups : Vector (Option (ShardGroup κ ν)) (shards / shardGroupSize)
  len : ℕ

namespace ShardedMap

variable {κ ν : Type} {shards : ℕ} [DecidableEq κ] [HashBytes κ] [Sharding shards]

def default : ShardedMap κ ν shards := ⟨Vector.replicate _ none, 0⟩

omit [DecidableEq κ] [Sharding shards] in
variable (shards) in
def shardIndex (key : κ) : ℕ := (Fnv.fnv1a (HashBytes.bytes key)).toNat &&& (shards - 1)

omit [DecidableEq κ] in
variable (shards) in
theorem shardIndex_lt (key : κ) : shardIndex shards key < shards := by
  have hpos : 0 < shards := Sharding.pos
  have hle : shardIndex shards key ≤ shards - 1 := Nat.and_le_right
  omega

omit [DecidableEq κ] in
variable (shards) in
def groupIndex (key : κ) : Fin (shards / shardGroupSize) :=
  ⟨shardIndex shards key / shardGroupSize,
    Nat.div_lt_div_of_lt_of_dvd Sharding.dvd (shardIndex_lt shards key)⟩

omit [DecidableEq κ] [Sharding shards] in
variable (shards) in
def localIndex (key : κ) : Fin shardGroupSize :=
  ⟨shardIndex shards key &&& (shardGroupSize - 1),
    lt_of_le_of_lt Nat.and_le_right (by decide)⟩

/-- `get`. -/
def get (m : ShardedMap κ ν shards) (key : κ) : Option ν := do
  let group ← m.groups[groupIndex shards key]
  let shard ← group[localIndex shards key]
  shard.lookup key

/-- Put a shard into its place. -/
def setShard (m : ShardedMap κ ν shards) (key : κ) (group : ShardGroup κ ν)
    (shard : Dict κ ν) : Vector (Option (ShardGroup κ ν)) (shards / shardGroupSize) :=
  m.groups.set (groupIndex shards key) (some (group.set (localIndex shards key) (some shard)))

/-- `get_mut` and a change of the value behind the reference. -/
def modify (m : ShardedMap κ ν shards) (key : κ) (change : ν → ν) : ShardedMap κ ν shards :=
  match m.groups[groupIndex shards key] with
  | none => m
  | some group =>
    match group[localIndex shards key] with
    | none => m
    | some shard =>
      match shard.lookup key with
      | none => m
      | some value => { m with groups := m.setShard key group (shard.insert key (change value)) }

/-- `insert`: the value it replaces and the map after it. -/
def insert (m : ShardedMap κ ν shards) (key : κ) (value : ν) :
    Option ν × ShardedMap κ ν shards :=
  let group := (m.groups[groupIndex shards key]).getD (Vector.replicate _ none)
  let shard := (group[localIndex shards key]).getD ∅
  let previous := shard.lookup key
  (previous,
    { groups := m.setShard key group (shard.insert key value)
      len := if previous.isNone then m.len + 1 else m.len })

/-- `remove`: the value it takes and the map after it. Empty shards and groups go with it. -/
def remove (m : ShardedMap κ ν shards) (key : κ) : Option ν × ShardedMap κ ν shards :=
  match m.groups[groupIndex shards key] with
  | none => (none, m)
  | some group =>
    match group[localIndex shards key] with
    | none => (none, m)
    | some shard =>
      let previous := shard.lookup key
      let rest := shard.erase key
      let group :=
        group.set (localIndex shards key) (if Dict.size rest = 0 then none else some rest)
      (previous,
        { groups := m.groups.set (groupIndex shards key)
            (if group.toList.all Option.isNone then none else some group)
          len := if previous.isSome then m.len - 1 else m.len })

/-- `iter`. -/
def entries (m : ShardedMap κ ν shards) : List (κ × ν) :=
  m.groups.toList.reduceOption.flatMap fun group =>
    group.toList.reduceOption.flatMap fun shard => shard.entries.map fun e => (e.1, e.2)

def values (m : ShardedMap κ ν shards) : List ν := m.entries.map Prod.snd

def populatedShards (m : ShardedMap κ ν shards) : ℕ :=
  ((m.groups.toList.reduceOption.flatMap Vector.toList).filter Option.isSome).length

/-- The shard at a place of the directory. -/
def shardAt (m : ShardedMap κ ν shards) (g : Fin (shards / shardGroupSize))
    (l : Fin shardGroupSize) : Option (Dict κ ν) :=
  (m.groups[g]).bind fun group => group[l]

/-- The map answers like `d`, and every key is filed in its own shard. -/
structure Represents (m : ShardedMap κ ν shards) (d : Dict κ ν) : Prop where
  get_eq : ∀ key, m.get key = d.lookup key
  len : m.len = d.size
  filed : ∀ g l shard, m.shardAt g l = some shard → ∀ key, shard.lookup key ≠ none →
    groupIndex shards key = g ∧ localIndex shards key = l

omit [DecidableEq κ] [HashBytes κ] [Sharding shards] in
theorem shardAt_default (g : Fin (shards / shardGroupSize)) (l : Fin shardGroupSize) :
    (default : ShardedMap κ ν shards).shardAt g l = none := by
  simp [shardAt, default]

theorem default_represents : (default : ShardedMap κ ν shards).Represents ∅ where
  get_eq key := by simp [get, default]
  len := rfl
  filed g l shard h := by rw [shardAt_default] at h; cases h

theorem get_eq_shardAt (m : ShardedMap κ ν shards) (key : κ) :
    m.get key = (m.shardAt (groupIndex shards key) (localIndex shards key)).bind
      fun shard => shard.lookup key := by
  unfold get shardAt
  cases m.groups[groupIndex shards key] <;> rfl

omit [DecidableEq κ] [HashBytes κ] [Sharding shards] in
theorem shardAt_set (m : ShardedMap κ ν shards) (g' : Fin (shards / shardGroupSize))
    (group : Option (ShardGroup κ ν)) (len : ℕ) (g : Fin (shards / shardGroupSize))
    (l : Fin shardGroupSize) :
    (ShardedMap.mk (m.groups.set g' group) len : ShardedMap κ ν shards).shardAt g l =
      if g' = g then group.bind fun group => group[l] else m.shardAt g l := by
  unfold shardAt
  by_cases h : g' = g
  · subst h
    simp
  · have hne : (g' : ℕ) ≠ g := fun hv => h (Fin.ext hv)
    simp [h, Vector.getElem_set_ne _ _ hne]

omit [DecidableEq κ] in
/-- Only the key's own shard changes. -/
theorem shardAt_place (m : ShardedMap κ ν shards) (key : κ) (group : ShardGroup κ ν)
    (hgroup : ∀ l, group[l] = m.shardAt (groupIndex shards key) l) (shard : Option (Dict κ ν))
    (len : ℕ) (g : Fin (shards / shardGroupSize)) (l : Fin shardGroupSize) :
    (ShardedMap.mk (m.groups.set (groupIndex shards key)
        (some (group.set (localIndex shards key) shard))) len : ShardedMap κ ν shards).shardAt g l =
      if groupIndex shards key = g ∧ localIndex shards key = l then shard else m.shardAt g l := by
  rw [shardAt_set]
  by_cases hg : groupIndex shards key = g
  · subst hg
    simp only [if_true, Option.bind_some, true_and]
    by_cases hl : localIndex shards key = l
    · subst hl
      simp
    · have hne : (localIndex shards key : ℕ) ≠ l := fun hv => hl (Fin.ext hv)
      rw [if_neg hl, ← hgroup]
      simp [Vector.getElem_set_ne _ _ hne]
  · simp [hg]

omit [DecidableEq κ] [HashBytes κ] [Sharding shards] in
theorem all_isNone_iff (group : ShardGroup κ ν) :
    group.toList.all Option.isNone = true ↔ ∀ l : Fin shardGroupSize, group[l] = none := by
  rw [List.all_eq_true]
  constructor
  · intro h l
    have := h group[l] (by simp)
    simpa using this
  · intro h x hx
    obtain ⟨i, hi, rfl⟩ := List.getElem_of_mem hx
    have := h ⟨i, by simpa using hi⟩
    simpa using this

omit [DecidableEq κ] in
/-- So it is when a group without shards goes. -/
theorem shardAt_prune (m : ShardedMap κ ν shards) (key : κ) (group : ShardGroup κ ν)
    (hgroup : ∀ l, group[l] = m.shardAt (groupIndex shards key) l) (shard : Option (Dict κ ν))
    (len : ℕ) (g : Fin (shards / shardGroupSize)) (l : Fin shardGroupSize) :
    (ShardedMap.mk (m.groups.set (groupIndex shards key)
        (if (group.set (localIndex shards key) shard).toList.all Option.isNone then none
          else some (group.set (localIndex shards key) shard))) len :
        ShardedMap κ ν shards).shardAt g l =
      if groupIndex shards key = g ∧ localIndex shards key = l then shard else m.shardAt g l := by
  set group' := group.set (localIndex shards key) shard with hgroup'
  by_cases hempty : group'.toList.all Option.isNone = true
  · have hnone := (all_isNone_iff group').1 hempty
    have hplace := shardAt_place m key group hgroup shard len g l
    rw [if_pos hempty, ← hplace, shardAt_set, shardAt_set]
    split
    · exact (hnone l).symm
    · rfl
  · rw [if_neg hempty]
    exact shardAt_place m key group hgroup shard len g l

/-- A changed shard of one key answers for that key, and for no other. -/
theorem Represents.place {m m' : ShardedMap κ ν shards} {d d' : Dict κ ν} (h : m.Represents d)
    (key : κ) (shard : Option (Dict κ ν))
    (hat : ∀ g l, m'.shardAt g l =
      if groupIndex shards key = g ∧ localIndex shards key = l then shard else m.shardAt g l)
    (hlen : m'.len = d'.size)
    (hself : (shard.bind fun shard => shard.lookup key) = d'.lookup key)
    (hother : ∀ key', key' ≠ key → d'.lookup key' = d.lookup key' ∧
      (shard.bind fun shard => shard.lookup key') =
        (m.shardAt (groupIndex shards key) (localIndex shards key)).bind
          fun shard => shard.lookup key') : m'.Represents d' where
  get_eq key' := by
    rw [get_eq_shardAt, hat]
    by_cases hk : key' = key
    · subst hk
      simpa using hself
    · obtain ⟨h1, h2⟩ := hother key' hk
      rw [h1, ← h.get_eq, get_eq_shardAt]
      split
      · rename_i hp
        rw [h2, hp.1, hp.2]
      · rfl
  len := hlen
  filed g l shard' hs key' hl := by
    rw [hat] at hs
    split at hs
    · rename_i hp
      subst hs
      obtain ⟨rfl, rfl⟩ := hp
      by_cases hk : key' = key
      · subst hk
        exact ⟨rfl, rfl⟩
      · obtain ⟨-, h2⟩ := hother key' hk
        cases hm : m.shardAt (groupIndex shards key) (localIndex shards key) with
        | none =>
          rw [hm] at h2
          exact absurd h2 hl
        | some old =>
          rw [hm] at h2
          refine h.filed _ _ old hm key' ?_
          rw [← show shard'.lookup key' = old.lookup key' from h2]
          exact hl
    · exact h.filed g l shard' hs key' hl

/-- **Insertion.** -/
theorem Represents.insert {m : ShardedMap κ ν shards} {d : Dict κ ν} (h : m.Represents d)
    (key : κ) (value : ν) :
    (m.insert key value).1 = d.lookup key ∧ (m.insert key value).2.Represents (d.insert key value) := by
  set group := (m.groups[groupIndex shards key]).getD (Vector.replicate _ none) with hgroup
  set shard := (group[localIndex shards key]).getD ∅ with hshard
  have hat : ∀ l, group[l] = m.shardAt (groupIndex shards key) l := by
    intro l
    rw [hgroup, shardAt]
    cases m.groups[groupIndex shards key] <;> simp
  have hold : ∀ key', shard.lookup key' =
      (m.shardAt (groupIndex shards key) (localIndex shards key)).bind
        fun shard => shard.lookup key' := by
    intro key'
    rw [hshard, hat]
    cases m.shardAt (groupIndex shards key) (localIndex shards key) <;> simp
  have hprevious : shard.lookup key = d.lookup key := by
    rw [hold, ← get_eq_shardAt, h.get_eq]
  refine ⟨hprevious, h.place key _ (shardAt_place m key group hat (some (shard.insert key value)) _) ?_ ?_ ?_⟩
  · show (if (shard.lookup key).isNone then m.len + 1 else m.len) = _
    rw [hprevious, h.len]
    cases hd : d.lookup key with
    | none => simp [Dict.size_insert_new hd]
    | some u => simp [Dict.size_insert_old hd]
  · simp
  · intro key' hne
    refine ⟨AList.lookup_insert_ne hne, ?_⟩
    rw [Option.bind_some, AList.lookup_insert_ne hne, hold]

/-- **Removal.** -/
theorem Represents.remove {m : ShardedMap κ ν shards} {d : Dict κ ν} (h : m.Represents d)
    (key : κ) : (m.remove key).1 = d.lookup key ∧ (m.remove key).2.Represents (d.erase key) := by
  have hget : d.lookup key =
      (m.shardAt (groupIndex shards key) (localIndex shards key)).bind
        fun shard => shard.lookup key := by
    rw [← h.get_eq, get_eq_shardAt]
  -- a key without a shard is not in the map
  have habsent (hnone : m.shardAt (groupIndex shards key) (localIndex shards key) = none) :
      none = d.lookup key ∧ m.Represents (d.erase key) := by
    rw [hnone, Option.bind_none] at hget
    rw [Dict.erase_absent hget]
    exact ⟨hget.symm, h⟩
  unfold ShardedMap.remove
  cases hg : m.groups[groupIndex shards key] with
  | none =>
    refine habsent ?_
    rw [shardAt, hg, Option.bind_none]
  | some group =>
    have hat : ∀ l, group[l] = m.shardAt (groupIndex shards key) l := by
      intro l
      rw [shardAt, hg, Option.bind_some]
    cases hl : group[localIndex shards key] with
    | none =>
      simp only [hl]
      exact habsent ((hat _).symm.trans hl)
    | some shard =>
      have hs := (hat _).symm.trans hl
      simp only [hl]
      rw [hs, Option.bind_some] at hget
      refine ⟨hget.symm, ?_⟩
      set rest : Option (Dict κ ν) :=
        if Dict.size (shard.erase key) = 0 then none else some (shard.erase key) with hrest
      have hlookup (key' : κ) :
          (rest.bind fun shard => shard.lookup key') = (shard.erase key).lookup key' := by
        rw [hrest]
        split
        · rename_i h0
          rw [Dict.eq_empty_of_size h0]
          rfl
        · rfl
      refine h.place key rest (shardAt_prune m key group hat rest _) ?_ ?_ ?_
      · rw [← hget, h.len]
        cases hd : d.lookup key with
        | none => rw [Dict.erase_absent hd]; rfl
        | some u =>
          have := Dict.size_erase_old hd
          simp only [Option.isSome_some, if_true]
          omega
      · rw [hlookup]
        simp
      · intro key' hne
        rw [hlookup, AList.lookup_erase_ne hne, AList.lookup_erase_ne hne, hs]
        exact ⟨rfl, rfl⟩

/-- **A change in place.** -/
theorem Represents.modify {m : ShardedMap κ ν shards} {d : Dict κ ν} (h : m.Represents d)
    {key : κ} {value : ν} (hvalue : d.lookup key = some value) (change : ν → ν) :
    (m.modify key change).Represents (d.insert key (change value)) := by
  have hget : (m.shardAt (groupIndex shards key) (localIndex shards key)).bind
      (fun shard => shard.lookup key) = some value := by
    rw [← get_eq_shardAt, h.get_eq, hvalue]
  obtain ⟨shard, hs, hlookup⟩ := Option.bind_eq_some_iff.1 hget
  obtain ⟨group, hg, hl⟩ := Option.bind_eq_some_iff.1 hs
  have hat : ∀ l, group[l] = m.shardAt (groupIndex shards key) l := by
    intro l
    rw [shardAt, hg, Option.bind_some]
  have hmodify : m.modify key change =
      { m with groups := m.setShard key group (shard.insert key (change value)) } := by
    unfold ShardedMap.modify
    simp only [hg, hl, hlookup]
  rw [hmodify]
  refine h.place key _ (shardAt_place m key group hat (some (shard.insert key (change value))) _) ?_ ?_ ?_
  · exact h.len.trans (Dict.size_insert_old hvalue _).symm
  · simp
  · intro key' hne
    rw [AList.lookup_insert_ne hne, Option.bind_some, AList.lookup_insert_ne hne, hs]
    exact ⟨rfl, rfl⟩

/-- No shard is empty, and no group is without shards. -/
structure Pruned (m : ShardedMap κ ν shards) : Prop where
  filled : ∀ g l shard, m.shardAt g l = some shard → Dict.size shard ≠ 0
  inhabited : ∀ (g : Fin (shards / shardGroupSize)) (group : ShardGroup κ ν),
    m.groups[g] = some group → ∃ l : Fin shardGroupSize, group[l] ≠ none

theorem default_pruned : (default : ShardedMap κ ν shards).Pruned where
  filled g l shard h := by rw [shardAt_default] at h; cases h
  inhabited g group h := by simp [default] at h

/-- A group that is put into its place keeps the map pruned, when it has a shard. -/
theorem Pruned.place {m : ShardedMap κ ν shards} (h : m.Pruned) (key : κ)
    {group : Option (ShardGroup κ ν)} {shard : Option (Dict κ ν)} {len : ℕ}
    (hat : ∀ g l, (ShardedMap.mk (m.groups.set (groupIndex shards key) group) len :
        ShardedMap κ ν shards).shardAt g l =
      if groupIndex shards key = g ∧ localIndex shards key = l then shard else m.shardAt g l)
    (hshard : ∀ d, shard = some d → Dict.size d ≠ 0)
    (hgroup : ∀ group', group = some group' → ∃ l : Fin shardGroupSize, group'[l] ≠ none) :
    (ShardedMap.mk (m.groups.set (groupIndex shards key) group) len :
      ShardedMap κ ν shards).Pruned where
  filled g l d hd := by
    rw [hat] at hd
    split at hd
    · exact hshard d hd
    · exact h.filled g l d hd
  inhabited g group' hg := by
    by_cases hself : groupIndex shards key = g
    · subst hself
      refine hgroup group' ?_
      rw [← hg]
      simp
    · have hne : (groupIndex shards key : ℕ) ≠ g := fun hv => hself (Fin.ext hv)
      refine h.inhabited g group' ?_
      rw [← hg]
      simp [Vector.getElem_set_ne _ _ hne]

omit [HashBytes κ] in
theorem size_insert_ne_zero (shard : Dict κ ν) (key : κ) (value : ν) :
    Dict.size (shard.insert key value) ≠ 0 := by
  intro h0
  have hlookup : (shard.insert key value).lookup key = some value := AList.lookup_insert shard
  rw [Dict.eq_empty_of_size h0] at hlookup
  cases hlookup

theorem Pruned.setShard {m : ShardedMap κ ν shards} (h : m.Pruned) (key : κ)
    (group : ShardGroup κ ν) (hat : ∀ l, group[l] = m.shardAt (groupIndex shards key) l)
    (shard : Dict κ ν) (value : ν) (len : ℕ) :
    (ShardedMap.mk (m.setShard key group (shard.insert key value)) len :
      ShardedMap κ ν shards).Pruned := by
  refine h.place key (shardAt_place m key group hat _ len) (fun d hd => ?_) fun group' hgroup' => ?_
  · cases hd
    exact size_insert_ne_zero shard key value
  · cases hgroup'
    exact ⟨localIndex shards key, by simp⟩

/-- **An operation leaves no empty shard and no empty group.** -/
theorem Pruned.insert {m : ShardedMap κ ν shards} (h : m.Pruned) (key : κ) (value : ν) :
    (m.insert key value).2.Pruned := by
  refine h.setShard key _ (fun l => ?_) _ value _
  rw [shardAt]
  cases m.groups[groupIndex shards key] <;> simp

theorem Pruned.modify {m : ShardedMap κ ν shards} (h : m.Pruned) (key : κ) (change : ν → ν) :
    (m.modify key change).Pruned := by
  unfold ShardedMap.modify
  cases hg : m.groups[groupIndex shards key] with
  | none => exact h
  | some group =>
    cases hl : group[localIndex shards key] with
    | none => simpa only [hl] using h
    | some shard =>
      simp only [hl]
      cases shard.lookup key with
      | none => exact h
      | some value =>
        refine h.setShard key group (fun l => ?_) shard (change value) m.len
        rw [shardAt, hg, Option.bind_some]

theorem Pruned.remove {m : ShardedMap κ ν shards} (h : m.Pruned) (key : κ) :
    (m.remove key).2.Pruned := by
  unfold ShardedMap.remove
  cases hg : m.groups[groupIndex shards key] with
  | none => exact h
  | some group =>
    cases hl : group[localIndex shards key] with
    | none => simpa only [hl] using h
    | some shard =>
      simp only [hl]
      have hat : ∀ l, group[l] = m.shardAt (groupIndex shards key) l := by
        intro l
        rw [shardAt, hg, Option.bind_some]
      generalize hrest : (if Dict.size (shard.erase key) = 0 then none
        else some (shard.erase key)) = rest
      refine h.place key (shardAt_prune m key group hat rest _) (fun d hd => ?_) fun group' hg' => ?_
      · rw [hd] at hrest
        split at hrest
        · cases hrest
        · rename_i hsize
          cases hrest
          exact hsize
      · split at hg'
        · cases hg'
        · rename_i hsome
          cases hg'
          by_contra hnone
          push Not at hnone
          exact hsome ((all_isNone_iff _).2 hnone)

omit [HashBytes κ] [Sharding shards] in
theorem mem_entries {m : ShardedMap κ ν shards} {key : κ} {value : ν} :
    (key, value) ∈ m.entries ↔
      ∃ g l shard, m.shardAt g l = some shard ∧ shard.lookup key = some value := by
  unfold entries shardAt
  simp only [List.mem_flatMap, List.reduceOption_mem_iff, List.mem_map, Prod.mk.injEq]
  constructor
  · rintro ⟨group, hgroup, shard, hshard, e, he, rfl, rfl⟩
    obtain ⟨g, hg, hg'⟩ := List.getElem_of_mem hgroup
    obtain ⟨l, hl, hl'⟩ := List.getElem_of_mem hshard
    refine ⟨⟨g, by simpa using hg⟩, ⟨l, by simpa using hl⟩, shard, ?_, Dict.mem_entries.1 he⟩
    simp only [Vector.getElem_toList] at hg' hl'
    simp [hg', hl']
  · rintro ⟨g, l, shard, hs, hlookup⟩
    obtain ⟨group, hg, hl⟩ := Option.bind_eq_some_iff.1 hs
    refine ⟨group, ?_, shard, ?_, ⟨key, value⟩, Dict.mem_entries.2 hlookup, rfl, rfl⟩
    · rw [← hg]; simp
    · rw [← hl]; simp

/-- **The iteration yields exactly the entries.** -/
theorem Represents.mem_entries {m : ShardedMap κ ν shards} {d : Dict κ ν} (h : m.Represents d)
    {key : κ} {value : ν} : (key, value) ∈ m.entries ↔ d.lookup key = some value := by
  rw [ShardedMap.mem_entries, ← h.get_eq, get_eq_shardAt]
  constructor
  · rintro ⟨g, l, shard, hs, hlookup⟩
    obtain ⟨rfl, rfl⟩ := h.filed g l shard hs key (by simp [hlookup])
    rw [hs]
    exact hlookup
  · intro hget
    obtain ⟨shard, hs, hlookup⟩ := Option.bind_eq_some_iff.1 hget
    exact ⟨_, _, shard, hs, hlookup⟩

/-- A key is iterated over once. -/
theorem Represents.nodup_entries {m : ShardedMap κ ν shards} {d : Dict κ ν} (h : m.Represents d) :
    (m.entries.map Prod.fst).Nodup := by
  have hfiled {g : Fin (shards / shardGroupSize)} {group : ShardGroup κ ν} {l : Fin shardGroupSize}
      {shard : Dict κ ν} (hg : m.groups[g] = some group) (hl : group[l] = some shard) {key : κ}
      (hkey : key ∈ shard.entries.map Sigma.fst) :
      groupIndex shards key = g ∧ localIndex shards key = l := by
    refine h.filed g l shard ?_ key ?_
    · unfold shardAt
      rw [hg]
      exact hl
    · rw [ne_eq, AList.lookup_eq_none]
      exact fun hn => hn hkey
  have hkeys : m.entries.map Prod.fst = m.groups.toList.reduceOption.flatMap fun group =>
      group.toList.reduceOption.flatMap fun shard => shard.entries.map Sigma.fst := by
    unfold entries
    simp only [List.map_flatMap, List.map_map]
    rfl
  rw [hkeys, List.nodup_flatMap]
  constructor
  · intro group hgroup
    obtain ⟨g, hg, hat⟩ := List.getElem_of_mem (List.reduceOption_mem_iff.1 hgroup)
    rw [Vector.getElem_toList] at hat
    rw [Vector.length_toList] at hg
    rw [List.nodup_flatMap]
    constructor
    · intro shard _
      exact shard.nodupKeys
    · unfold List.reduceOption
      rw [List.pairwise_filterMap, List.pairwise_iff_getElem]
      intro l l' hl hl' hlt shard hshard shard' hshard' key hkey hkey'
      rw [Vector.getElem_toList] at hshard hshard'
      rw [Vector.length_toList] at hl hl'
      have h1 := (hfiled (g := ⟨g, hg⟩) (l := ⟨l, hl⟩) hat hshard hkey).2
      have h2 := (hfiled (g := ⟨g, hg⟩) (l := ⟨l', hl'⟩) hat hshard' hkey').2
      rw [h1] at h2
      exact absurd (congrArg Fin.val h2) (Nat.ne_of_lt hlt)
  · unfold List.reduceOption
    rw [List.pairwise_filterMap, List.pairwise_iff_getElem]
    intro g g' hg hg' hlt group hgroup group' hgroup' key hkey hkey'
    rw [Vector.getElem_toList] at hgroup hgroup'
    rw [Vector.length_toList] at hg hg'
    obtain ⟨shard, hshard, hkey⟩ := List.mem_flatMap.1 hkey
    obtain ⟨shard', hshard', hkey'⟩ := List.mem_flatMap.1 hkey'
    obtain ⟨l, hl, hat⟩ := List.getElem_of_mem (List.reduceOption_mem_iff.1 hshard)
    obtain ⟨l', hl', hat'⟩ := List.getElem_of_mem (List.reduceOption_mem_iff.1 hshard')
    rw [Vector.getElem_toList] at hat hat'
    rw [Vector.length_toList] at hl hl'
    have h1 := (hfiled (g := ⟨g, hg⟩) (l := ⟨l, hl⟩) hgroup hat hkey).1
    have h2 := (hfiled (g := ⟨g', hg'⟩) (l := ⟨l', hl'⟩) hgroup' hat' hkey').1
    rw [h1] at h2
    exact absurd (congrArg Fin.val h2) (Nat.ne_of_lt hlt)

/-- The iteration yields the entries of the map in some order. -/
theorem Represents.entries_perm {m : ShardedMap κ ν shards} {d : Dict κ ν} (h : m.Represents d) :
    m.entries.Perm (d.entries.map fun e => (e.1, e.2)) := by
  refine (List.perm_ext_iff_of_nodup h.nodup_entries.of_map ?_).2 fun e => ?_
  · have hnodup : ((d.entries.map fun e => (e.1, e.2)).map Prod.fst).Nodup := by
      rw [List.map_map]
      exact d.nodupKeys
    exact hnodup.of_map
  · rw [show e = (e.1, e.2) from rfl, h.mem_entries, List.mem_map]
    constructor
    · intro hlookup
      exact ⟨⟨e.1, e.2⟩, Dict.mem_entries.2 hlookup, rfl⟩
    · rintro ⟨⟨key, value⟩, hmem, heq⟩
      cases heq
      exact Dict.mem_entries.1 hmem

end ShardedMap

end ForthDB
