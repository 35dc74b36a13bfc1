import ForthDB.Lib.Dict

/-!
# Vocabularies over a frozen table

A frozen table numbers its names `0 .. count - 1`; names met later get the numbers
that follow, in the order of their first use. Numbers are kept as cells: `start`
plus the number.

* `Coherent start base assigned values`: `assigned` gives exactly the later names
  `values` their cells, and none of them is in the frozen table.
* `token_iff`: then **reading a cell undoes writing a name**, and back.
* `Coherent.insert`: one new name; `token_insert`, `name_append`: what was numbered
  before keeps its number.
-/

/-- A table that gives each of its names one number below `count`. -/
structure FrozenTable (κ : Type) where
  count : ℕ
  find : κ → Option ℕ
  read : ℕ → Option κ
  find_iff : ∀ k i, find k = some i ↔ read i = some k
  lt_count : ∀ k i, find k = some i → i < count

namespace Vocabulary

variable {κ : Type}

/-- The table without names. -/
def noNames : FrozenTable κ := ⟨0, fun _ => none, fun _ => none, by simp, by simp⟩

variable (start : ℕ) (base : FrozenTable κ) (assigned : κ → Option ℕ) (values : List κ)

/-- The cell of a name. -/
def token (k : κ) : Option ℕ := (assigned k).or ((base.find k).map (start + ·))

/-- The name with a number. -/
def name (i : ℕ) : Option κ :=
  if i < base.count then base.read i else values[i - base.count]?

/-- The later names have the cells that follow the frozen table's. -/
structure Coherent : Prop where
  assigned_iff : ∀ k c, assigned k = some c ↔
    ∃ i, c = start + base.count + i ∧ values[i]? = some k
  fresh : ∀ k ∈ values, base.find k = none

variable {start base assigned values}

theorem coherent_nil : Coherent start base (fun _ => none) [] := ⟨by simp, by simp⟩

/-- **Reading undoes writing**, and writing reading. -/
theorem token_iff (h : Coherent start base assigned values) (k : κ) (c : ℕ) :
    token start base assigned k = some c ↔ start ≤ c ∧ name base values (c - start) = some k := by
  unfold token name
  cases ha : assigned k with
  | some c' =>
    obtain ⟨i, rfl, hi⟩ := (h.assigned_iff k c').1 ha
    simp only [Option.some_or, Option.some.injEq]
    refine ⟨?_, ?_⟩
    · rintro rfl
      refine ⟨by omega, ?_⟩
      rw [if_neg (by omega), show start + base.count + i - start - base.count = i by omega, hi]
    · rintro ⟨hle, hn⟩
      split at hn
      · -- a later name is not in the frozen table
        have := (base.find_iff k _).2 hn
        rw [h.fresh k (List.mem_of_getElem? hi)] at this
        cases this
      · have := (h.assigned_iff k (start + base.count + (c - start - base.count))).2 ⟨_, rfl, hn⟩
        rw [ha, Option.some.injEq] at this
        omega
  | none =>
    simp only [Option.none_or, Option.map_eq_some_iff]
    refine ⟨?_, ?_⟩
    · rintro ⟨i, hi, rfl⟩
      refine ⟨by omega, ?_⟩
      rw [Nat.add_sub_cancel_left, if_pos (base.lt_count k i hi)]
      exact (base.find_iff k i).1 hi
    · rintro ⟨hle, hn⟩
      split at hn
      · exact ⟨c - start, (base.find_iff k _).2 hn, by omega⟩
      · have := (h.assigned_iff k (start + base.count + (c - start - base.count))).2 ⟨_, rfl, hn⟩
        rw [ha] at this
        cases this

/-- A later name has a cell. -/
theorem Coherent.not_mem_of_none (h : Coherent start base assigned values) {k : κ}
    (hk : assigned k = none) : k ∉ values := by
  intro hm
  obtain ⟨i, hi⟩ := List.getElem?_of_mem hm
  rw [(h.assigned_iff k _).2 ⟨i, rfl, hi⟩] at hk
  cases hk

/-- No name is assigned twice. -/
theorem Coherent.nodup (h : Coherent start base assigned values) : values.Nodup := by
  rw [List.nodup_iff_injective_getElem]
  intro i j hij
  have hi := (h.assigned_iff values[i] _).2 ⟨i, rfl, List.getElem?_eq_getElem i.2⟩
  have hj := (h.assigned_iff values[j] _).2 ⟨j, rfl, List.getElem?_eq_getElem j.2⟩
  have heq : values[i] = values[j] := hij
  rw [heq, hj] at hi
  exact Fin.ext (by have := Option.some.inj hi; omega)

/-- Two names never share a cell. -/
theorem token_inj (h : Coherent start base assigned values) {k k' : κ} {c : ℕ}
    (hk : token start base assigned k = some c) (hk' : token start base assigned k' = some c) :
    k = k' := by
  have h1 := ((token_iff h k c).1 hk).2
  have h2 := ((token_iff h k' c).1 hk').2
  rw [h1] at h2
  exact Option.some.inj h2

/-- A cell lies behind the frozen table or in it. -/
theorem token_lt (h : Coherent start base assigned values) {k : κ} {c : ℕ}
    (hk : token start base assigned k = some c) : c < start + base.count + values.length := by
  unfold token at hk
  cases ha : assigned k with
  | some c' =>
    rw [ha, Option.some_or, Option.some.injEq] at hk
    obtain ⟨i, rfl, hi⟩ := (h.assigned_iff k c').1 ha
    have := (List.getElem?_eq_some_iff.1 hi).1
    omega
  | none =>
    rw [ha, Option.none_or, Option.map_eq_some_iff] at hk
    obtain ⟨i, hi, rfl⟩ := hk
    have := base.lt_count k i hi
    omega

theorem name_append {i : ℕ} {k : κ} (hn : name base values i = some k) (more : List κ) :
    name base (values ++ more) i = some k := by
  unfold name at hn ⊢
  split
  · rename_i hlt; rwa [if_pos hlt] at hn
  · rename_i hge
    rw [if_neg hge] at hn
    rw [List.getElem?_append_left (List.getElem?_eq_some_iff.1 hn).1, hn]

variable [DecidableEq κ]

/-- There is room for a new name from a finite supply. -/
theorem Coherent.length_lt_card (h : Coherent start base assigned values) {U : Finset κ}
    (hU : ∀ k ∈ values, k ∈ U) {k : κ} (hk : k ∈ U) (hnew : k ∉ values) :
    values.length < U.card := by
  have hsub : values.toFinset ⊂ U := by
    refine (Finset.ssubset_iff_of_subset fun x hx => hU x (List.mem_toFinset.1 hx)).2 ⟨k, hk, ?_⟩
    rwa [List.mem_toFinset]
  rw [← List.toFinset_card_of_nodup h.nodup]
  exact Finset.card_lt_card hsub

/-- The frozen names come from a supply. -/
def Within (base : FrozenTable κ) (U : Finset κ) : Prop :=
  ∃ frozen ⊆ U, frozen.card = base.count ∧ ∀ k ∈ frozen, base.find k ≠ none

/-- There is room for a new name from a supply that holds the frozen ones as well. -/
theorem Coherent.room (h : Coherent start base assigned values) {U : Finset κ}
    (hbase : Within base U) (hU : ∀ k ∈ values, k ∈ U) {k : κ} (hk : k ∈ U) (hnew : k ∉ values)
    (hfree : base.find k = none) : base.count + values.length < U.card := by
  obtain ⟨frozen, hsub, hcard, hfrozen⟩ := hbase
  have hdisj : Disjoint frozen values.toFinset := by
    rw [Finset.disjoint_left]
    intro x hx hx'
    exact hfrozen x hx (h.fresh x (List.mem_toFinset.1 hx'))
  have hall : frozen ∪ values.toFinset ⊂ U := by
    refine (Finset.ssubset_iff_of_subset ?_).2 ⟨k, hk, ?_⟩
    · exact Finset.union_subset hsub fun x hx => hU x (List.mem_toFinset.1 hx)
    · rw [Finset.mem_union, List.mem_toFinset, not_or]
      exact ⟨fun hf => hfrozen k hf hfree, hnew⟩
  have hlt := Finset.card_lt_card hall
  rwa [Finset.card_union_of_disjoint hdisj, hcard, List.toFinset_card_of_nodup h.nodup] at hlt

/-- **A new name** gets the next cell. -/
theorem Coherent.insert (h : Coherent start base assigned values) {k : κ} (ha : assigned k = none)
    (hb : base.find k = none) :
    Coherent start base
      (fun k' => if k' = k then some (start + base.count + values.length) else assigned k')
      (values ++ [k]) := by
  have hnew : k ∉ values := h.not_mem_of_none ha
  refine ⟨fun k' c => ?_, ?_⟩
  · by_cases hk : k' = k
    · subst hk
      rw [if_pos rfl, Option.some.injEq]
      refine ⟨?_, ?_⟩
      · rintro rfl
        exact ⟨values.length, rfl, by simp⟩
      · rintro ⟨i, rfl, hi⟩
        rcases lt_trichotomy i values.length with hlt | heq | hgt
        · rw [List.getElem?_append_left hlt] at hi
          exact absurd (List.mem_of_getElem? hi) hnew
        · rw [heq]
        · rw [List.getElem?_eq_none (by simp; omega)] at hi
          cases hi
    · rw [if_neg hk, h.assigned_iff k' c]
      refine ⟨?_, ?_⟩
      · rintro ⟨i, rfl, hi⟩
        exact ⟨i, rfl, by rw [List.getElem?_append_left (List.getElem?_eq_some_iff.1 hi).1, hi]⟩
      · rintro ⟨i, rfl, hi⟩
        refine ⟨i, rfl, ?_⟩
        rcases lt_trichotomy i values.length with hlt | heq | hgt
        · rwa [List.getElem?_append_left hlt] at hi
        · subst heq
          rw [List.getElem?_concat_length, Option.some.injEq] at hi
          exact absurd hi.symm hk
        · rw [List.getElem?_eq_none (by simp; omega)] at hi
          cases hi
  · intro k' hk'
    rcases List.mem_append.1 hk' with hm | hm
    · exact h.fresh k' hm
    · rw [List.mem_singleton.1 hm]; exact hb

theorem token_insert {k k' : κ} {c c' : ℕ} (hk : token start base assigned k' = some c)
    (ha : token start base assigned k = none) :
    token start base (fun j => if j = k then some c' else assigned j) k' = some c := by
  have hne : k' ≠ k := by
    rintro rfl
    rw [hk] at ha
    cases ha
  unfold token at hk ⊢
  simp only [if_neg hne]
  exact hk

end Vocabulary
