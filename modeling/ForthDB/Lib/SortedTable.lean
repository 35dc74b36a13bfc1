import Mathlib.Data.List.Lex
import Mathlib.Order.Basic
import Mathlib.Tactic.Common
import Mathlib.Data.List.Sort

/-!
# Strictly sorted tables

A token is a position in a strictly sorted list of values. `search` is the halving
loop over `[low, high)`; `lookup` runs it over the whole list.

* `lookup_sound`: what `lookup` finds is there, in any list.
* `lookup_iff`: in a strictly sorted list `lookup` finds exactly the value's position.
* `partitionPoint_eq`: the halving loop for a bound finds how many values lie below it.
* `slice_eq_filter`: between two such bounds stand the values that lie below one of them only.
* `range_of_key`: in a table sorted by keys, two such bounds enclose the values whose keys begin
  in one way.
-/

namespace SortedTable

variable {α : Type} [LinearOrder α]

/-- The halving loop; `fuel` bounds the number of rounds. -/
def search (values : List α) (value : α) : ℕ → ℕ → ℕ → Option ℕ
  | 0, _, _ => none
  | fuel + 1, low, high =>
    if low < high then
      let middle := low + (high - low) / 2
      match values[middle]? with
      | none => none
      | some candidate =>
        if candidate < value then search values value fuel (middle + 1) high
        else if value < candidate then search values value fuel low middle
        else some middle
    else none

def lookup (values : List α) (value : α) : Option ℕ :=
  search values value values.length 0 values.length

theorem search_sound {values : List α} {value : α} {fuel low high i : ℕ}
    (h : search values value fuel low high = some i) : values[i]? = some value := by
  induction fuel generalizing low high with
  | zero => cases h
  | succ fuel ih =>
    unfold search at h
    split at h
    case isFalse => cases h
    case isTrue hlt =>
      simp only at h
      split at h
      · cases h
      · rename_i candidate hc
        rcases lt_trichotomy candidate value with hv | hv | hv
        · rw [if_pos hv] at h; exact ih h
        · subst hv
          rw [if_neg (lt_irrefl _), if_neg (lt_irrefl _)] at h
          cases h; exact hc
        · rw [if_neg (asymm hv), if_pos hv] at h; exact ih h

theorem lookup_sound {values : List α} {value : α} {i : ℕ} (h : lookup values value = some i) :
    values[i]? = some value := search_sound h

/-- Positions of a strictly sorted list are ordered as their values. -/
theorem lt_of_value_lt {values : List α} (hs : values.Pairwise (· < ·)) {i j : ℕ} {a b : α}
    (hi : values[i]? = some a) (hj : values[j]? = some b) (h : a < b) : i < j := by
  obtain ⟨hi', rfl⟩ := List.getElem?_eq_some_iff.1 hi
  obtain ⟨hj', rfl⟩ := List.getElem?_eq_some_iff.1 hj
  rcases lt_trichotomy i j with hij | hij | hij
  · exact hij
  · subst hij; exact absurd h (lt_irrefl _)
  · exact absurd h (asymm (List.pairwise_iff_getElem.1 hs j i hj' hi' hij))

theorem position_inj {values : List α} (hs : values.Pairwise (· < ·)) {i j : ℕ} {a : α}
    (hi : values[i]? = some a) (hj : values[j]? = some a) : i = j := by
  obtain ⟨hi', rfl⟩ := List.getElem?_eq_some_iff.1 hi
  obtain ⟨hj', hji⟩ := List.getElem?_eq_some_iff.1 hj
  rcases lt_trichotomy i j with hij | hij | hij
  · exact absurd hji (ne_of_gt (List.pairwise_iff_getElem.1 hs i j hi' hj' hij))
  · exact hij
  · exact absurd hji (ne_of_lt (List.pairwise_iff_getElem.1 hs j i hj' hi' hij))

/-- The loop finds a value that lies between its bounds. -/
theorem search_complete {values : List α} (hs : values.Pairwise (· < ·)) {value : α} {i : ℕ}
    (hi : values[i]? = some value) {fuel low high : ℕ} (hl : low ≤ i) (hh : i < high)
    (hlen : high ≤ values.length) (hf : high - low ≤ fuel) :
    search values value fuel low high = some i := by
  induction fuel generalizing low high with
  | zero => omega
  | succ fuel ih =>
    unfold search
    rw [if_pos (by omega)]
    have hm : low + (high - low) / 2 < values.length := by omega
    simp only [List.getElem?_eq_getElem hm]
    have hc : values[low + (high - low) / 2]? = some values[low + (high - low) / 2] :=
      List.getElem?_eq_getElem hm
    rcases lt_trichotomy values[low + (high - low) / 2] value with hv | hv | hv
    · rw [if_pos hv]
      have := lt_of_value_lt hs hc hi hv
      exact ih (by omega) hh hlen (by omega)
    · rw [if_neg (by rw [hv]; exact lt_irrefl _), if_neg (by rw [hv]; exact lt_irrefl _)]
      rw [hv] at hc
      rw [position_inj hs hc hi]
    · rw [if_neg (asymm hv), if_pos hv]
      have := lt_of_value_lt hs hi hc hv
      exact ih hl (by omega) (by omega) (by omega)

/-- **A sorted table is searched exactly.** -/
theorem lookup_iff {values : List α} (hs : values.Pairwise (· < ·)) {value : α} {i : ℕ} :
    lookup values value = some i ↔ values[i]? = some value := by
  refine ⟨lookup_sound, fun h => ?_⟩
  have hi : i < values.length := (List.getElem?_eq_some_iff.1 h).1
  exact search_complete hs h (Nat.zero_le _) hi le_rfl (by omega)

/-! ## Bounds -/

variable {β : Type}

/-- The halving loop for the first value that is not below a bound. -/
def partitionPoint (below : β → Bool) (values : List β) : ℕ → ℕ → ℕ → ℕ
  | 0, low, _ => low
  | fuel + 1, low, high =>
    if low < high then
      let middle := low + (high - low) / 2
      if values[middle]?.any below then partitionPoint below values fuel (middle + 1) high
      else partitionPoint below values fuel low middle
    else low

/-- The loop closes in on the end of the values below the bound. -/
theorem partitionPoint_eq {below : β → Bool} {values : List β} {n : ℕ}
    (hn : ∀ i x, values[i]? = some x → (below x = true ↔ i < n)) {fuel low high : ℕ}
    (hfuel : high - low ≤ fuel) (hlow : low ≤ n) (hhigh : n ≤ high) (hle : high ≤ values.length) :
    partitionPoint below values fuel low high = n := by
  induction fuel generalizing low high with
  | zero =>
    unfold partitionPoint
    omega
  | succ fuel ih =>
    unfold partitionPoint
    by_cases hlt : low < high
    · rw [if_pos hlt]
      have hm : low + (high - low) / 2 < values.length := by omega
      have hget := List.getElem?_eq_getElem hm
      have hiff := hn _ _ hget
      simp only [hget, Option.any_some]
      by_cases hb : below values[low + (high - low) / 2] = true
      · rw [if_pos hb]
        have := hiff.1 hb
        exact ih (by omega) (by omega) hhigh hle
      · rw [if_neg hb]
        have := mt hiff.2 hb
        exact ih (by omega) hlow (by omega) (by omega)
    · rw [if_neg hlt]
      omega

/-! ## Slices -/

section Slices

variable {values : List β} {below upto : β → Bool}

/-- Where a predicate holds of a first part only, the halving loop finds its length. -/
theorem partitionPoint_countP
    (hs : values.Pairwise fun x y => below y = true → below x = true) :
    partitionPoint below values values.length 0 values.length = values.countP below := by
  have hn : ∀ i x, values[i]? = some x → (below x = true ↔ i < values.countP below) := by
    induction values with
    | nil => exact fun i x hx => nomatch hx
    | cons y values ih =>
      obtain ⟨hfirst, hrest⟩ := List.pairwise_cons.1 hs
      intro i x hx
      by_cases hy : below y = true
      · rw [List.countP_cons_of_pos hy]
        cases i with
        | zero =>
          cases hx
          exact iff_of_true hy (Nat.succ_pos _)
        | succ i =>
          rw [ih hrest i x hx]
          omega
      · have hnone : values.countP below = 0 := by
          rw [List.countP_eq_zero]
          exact fun z hz hbelow => hy (hfirst z hz hbelow)
        rw [List.countP_cons_of_neg hy, hnone]
        refine iff_of_false (fun hbelow => hy ?_) (Nat.not_lt_zero i)
        cases i with
        | zero =>
          cases hx
          exact hbelow
        | succ i => exact hfirst x (List.mem_of_getElem? hx) hbelow
  exact partitionPoint_eq hn (Nat.sub_le _ _) (Nat.zero_le _) List.countP_le_length (Nat.le_refl _)

/-- **A slice** between two bounds. -/
theorem slice_eq_filter (hb : values.Pairwise fun x y => below y = true → below x = true)
    (hu : values.Pairwise fun x y => upto y = true → upto x = true)
    (hle : ∀ x, below x = true → upto x = true) :
    (values.drop (values.countP below)).take (values.countP upto - values.countP below) =
      values.filter fun x => upto x && !below x := by
  induction values with
  | nil => rfl
  | cons y values ih =>
    obtain ⟨hbfirst, hbrest⟩ := List.pairwise_cons.1 hb
    obtain ⟨hufirst, hurest⟩ := List.pairwise_cons.1 hu
    have ih := ih hbrest hurest
    by_cases hy : below y = true
    · have hyu := hle y hy
      rw [List.countP_cons_of_pos hy, List.countP_cons_of_pos hyu, List.drop_succ_cons,
        Nat.add_sub_add_right, ih]
      simp [hy, hyu]
    · -- nothing behind `y` lies below
      have hnone : values.countP below = 0 := by
        rw [List.countP_eq_zero]
        exact fun z hz hbelow => hy (hbfirst z hz hbelow)
      rw [hnone, List.drop_zero, Nat.sub_zero] at ih
      rw [List.countP_cons_of_neg hy, hnone, List.drop_zero, Nat.sub_zero]
      by_cases hyu : upto y = true
      · rw [List.countP_cons_of_pos hyu, List.take_succ_cons, ih]
        simp [hy, hyu]
      · have hrest : values.countP upto = 0 := by
          rw [List.countP_eq_zero]
          exact fun z hz hupto => hyu (hufirst z hz hupto)
        rw [hrest, List.take_zero] at ih
        rw [List.countP_cons_of_neg hyu, hrest, List.take_zero, List.filter_cons_of_neg, ← ih]
        simp [hyu]

/-- Reading the positions of a range one by one gives the slice. -/
theorem filterMap_range' (values : List β) (start n : ℕ) :
    ((List.range' start n).filterMap fun i => values[i]?) = (values.drop start).take n := by
  induction n generalizing start with
  | zero => simp
  | succ n ih =>
    rw [List.range'_succ, List.filterMap_cons]
    by_cases hlt : start < values.length
    · rw [List.getElem?_eq_getElem hlt, List.drop_eq_getElem_cons hlt, List.take_succ_cons, ← ih]
    · rw [List.getElem?_eq_none (not_lt.1 hlt), ih, List.drop_eq_nil_of_le (by omega),
        List.drop_eq_nil_of_le (by omega)]
      simp

/-- Reading every position gives the list. -/
theorem filterMap_range (values : List β) :
    ((List.range values.length).filterMap fun i => values[i]?) = values := by
  have h := filterMap_range' values 0 values.length
  rwa [← List.range_eq_range', List.drop_zero, List.take_length] at h

end Slices

/-! ## Keys -/

/-- Cutting off keeps the order of lists. -/
theorem take_le_take {as bs : List α} (h : as ≤ bs) (n : ℕ) : as.take n ≤ bs.take n := by
  induction n generalizing as bs with
  | zero => exact le_rfl
  | succ n ih =>
    rcases h.lt_or_eq with hlt | rfl
    · cases as with
      | nil => exact not_lt.1 (List.not_lt_nil _)
      | cons a as =>
        cases bs with
        | nil => exact absurd hlt (List.not_lt_nil _)
        | cons b bs =>
          rw [List.take_succ_cons, List.take_succ_cons]
          rcases List.cons_lt_cons_iff.1 hlt with hab | ⟨rfl, hrest⟩
          · exact (List.cons_lt_cons_iff.2 (.inl hab)).le
          · exact List.cons_le_cons a (ih hrest.le)
    · exact le_rfl

/-- **The range of a key** in a table that is sorted by keys: from the first value whose key does
not begin below `first` to the last whose key does not begin above it. -/
theorem range_of_key {values : List β} {key : β → List α}
    (hs : values.Pairwise fun x y => key x ≤ key y) (n : ℕ) (first : List α) {below upto : β → Bool}
    (hbelow : ∀ x, below x = true ↔ (key x).take n < first)
    (hupto : ∀ x, upto x = true ↔ (key x).take n ≤ first) :
    ∃ start stop, partitionPoint below values values.length 0 values.length = start ∧
      partitionPoint upto values values.length 0 values.length = stop ∧ start ≤ stop ∧
      stop ≤ values.length ∧
      (values.drop start).take (stop - start) = values.filter fun x => (key x).take n = first := by
  have hbelow' : values.Pairwise fun x y => below y = true → below x = true := by
    refine hs.imp fun hle hlt => ?_
    rw [hbelow] at hlt ⊢
    exact lt_of_le_of_lt (take_le_take hle n) hlt
  have hupto' : values.Pairwise fun x y => upto y = true → upto x = true := by
    refine hs.imp fun hle hgt => ?_
    rw [hupto] at hgt ⊢
    exact (take_le_take hle n).trans hgt
  have hsub : ∀ x, below x = true → upto x = true := by
    intro x hlt
    rw [hbelow] at hlt
    rw [hupto]
    exact hlt.le
  refine ⟨values.countP below, values.countP upto, partitionPoint_countP hbelow',
    partitionPoint_countP hupto', List.countP_mono_left fun x _ => hsub x, List.countP_le_length, ?_⟩
  rw [slice_eq_filter hbelow' hupto' hsub]
  refine List.filter_congr fun x _ => ?_
  rw [Bool.eq_iff_iff, Bool.and_eq_true, hupto, Bool.not_eq_true', ← Bool.not_eq_true, hbelow,
    decide_eq_true_iff, not_lt, le_antisymm_iff]

end SortedTable
