import ForthDB.Lib.Vocabulary

/-!
# Names in another order

Names that are new to a vocabulary get their numbers in the order of their first use, and are
then kept in the order of their texts: the number of a name still reads as that name when the
name stands at the same place in both orders.

* `InPlace text news k`: as many of the new names stand before `k` as have a smaller text.
* `name_sorted_iff`: **a number still reads as its name exactly when the name is in place.**
-/

namespace Vocabulary

variable {κ τ : Type} [DecidableEq κ] [LinearOrder τ]

/-- A name that is not new, or stands behind as many new names as have a smaller text. -/
def InPlace (text : κ → τ) (news : List κ) (k : κ) : Prop :=
  k ∈ news → news.idxOf k = news.countP fun x => text x < text k

instance (text : κ → τ) (news : List κ) (k : κ) : Decidable (InPlace text news k) :=
  inferInstanceAs (Decidable (_ → _))

variable {text : κ → τ} {news sorted : List κ} {k : κ}

/-- In an ascending list a name stands behind the smaller ones. -/
theorem idxOf_ascending (h : sorted.Pairwise fun x y => text x < text y) (hk : k ∈ sorted) :
    sorted.idxOf k = sorted.countP fun x => text x < text k := by
  induction sorted with
  | nil => cases hk
  | cons x xs ih =>
    obtain ⟨hx, hxs⟩ := List.pairwise_cons.1 h
    by_cases hkx : x = k
    · subst hkx
      have hnone : xs.countP (fun y => text y < text x) = 0 := by
        rw [List.countP_eq_zero]
        intro y hy
        have hlt := hx y hy
        rw [decide_eq_true_eq]
        exact not_lt_of_gt hlt
      rw [List.idxOf_cons_self, List.countP_cons, hnone]
      simp
    · have hmem : k ∈ xs := by
        rcases List.mem_cons.1 hk with rfl | hmem
        · exact absurd rfl hkx
        · exact hmem
      have hlt : text x < text k := hx k hmem
      rw [List.idxOf_cons_ne _ hkx, List.countP_cons, ih hxs hmem]
      simp [hlt]

/-- Names that come in ascending order are in place. -/
theorem inPlace_of_ascending (h : news.Pairwise fun x y => text x < text y) (k : κ) :
    InPlace text news k := idxOf_ascending h

/-- A name stands at the same place in both orders exactly when it is in place. -/
theorem inPlace_iff (hn : news.Nodup) (hp : sorted.Perm news)
    (h : sorted.Pairwise fun x y => text x < text y) {i : ℕ} (hi : news[i]? = some k) :
    InPlace text news k ↔ sorted[i]? = some k := by
  have hmem : k ∈ news := List.mem_of_getElem? hi
  have hmem' : k ∈ sorted := hp.mem_iff.2 hmem
  obtain ⟨hlt, heq⟩ := List.getElem?_eq_some_iff.1 hi
  have hidx : news.idxOf k = i := by
    rw [← heq]
    exact hn.idxOf_getElem i hlt
  have hcount : (news.countP fun x => text x < text k) = sorted.idxOf k := by
    rw [idxOf_ascending h hmem', hp.countP_eq]
  unfold InPlace
  rw [hidx, hcount]
  constructor
  · intro hplace
    have hlt' : sorted.idxOf k < sorted.length := List.idxOf_lt_length_iff.2 hmem'
    rw [hplace hmem, List.getElem?_eq_getElem hlt', List.getElem_idxOf]
  · intro hs _
    obtain ⟨hlt', heq'⟩ := List.getElem?_eq_some_iff.1 hs
    have hidx' := (hp.nodup_iff.2 hn).idxOf_getElem i hlt'
    rw [heq'] at hidx'
    exact hidx'.symm

/-- **A number still reads as its name** exactly when the name is in place. -/
theorem name_sorted_iff {base : FrozenTable κ} {values : List κ} (hn : (values ++ news).Nodup)
    (hfresh : ∀ x ∈ values ++ news, base.find x = none) (hp : sorted.Perm news)
    (h : sorted.Pairwise fun x y => text x < text y) {i : ℕ}
    (hk : name base (values ++ news) i = some k) :
    name base (values ++ sorted) i = some k ↔ InPlace text news k := by
  unfold name at hk ⊢
  by_cases hi : i < base.count
  · rw [if_pos hi] at hk ⊢
    refine iff_of_true hk fun hmem => ?_
    have hnone := hfresh k (List.mem_append_right _ hmem)
    rw [(base.find_iff k i).2 hk] at hnone
    cases hnone
  rw [if_neg hi] at hk ⊢
  by_cases hv : i - base.count < values.length
  · rw [List.getElem?_append_left hv] at hk ⊢
    refine iff_of_true hk fun hmem => ?_
    exact absurd hmem (List.disjoint_of_nodup_append hn (List.mem_of_getElem? hk))
  · rw [List.getElem?_append_right (not_lt.1 hv)] at hk ⊢
    exact (inPlace_iff hn.of_append_right hp h hk).symm

end Vocabulary
