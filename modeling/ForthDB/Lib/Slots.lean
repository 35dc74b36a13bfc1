import Mathlib.Data.List.Basic
import Mathlib.Data.List.Perm.Basic

/-!
# Numbered slots that are filled once

Deliveries that name a slot arrive in any order; each is put into its slot, which has
to be empty. `filledFrom` lists what the slots hold. Filling an empty slot adds the
delivery to it (`filledFrom_set`), so the slots always hold what was delivered, up to
order.
-/

namespace Slots

variable {β : Type*}

/-- The filled slots with their numbers, counted from `i`. -/
def filledFrom : ℕ → List (Option β) → List (ℕ × β)
  | _, [] => []
  | i, none :: slots => filledFrom (i + 1) slots
  | i, some b :: slots => (i, b) :: filledFrom (i + 1) slots

theorem mem_filledFrom {slots : List (Option β)} {i j : ℕ} {b : β} :
    (j, b) ∈ filledFrom i slots ↔ ∃ k, j = i + k ∧ slots[k]? = some (some b) := by
  induction slots generalizing i with
  | nil => simp [filledFrom]
  | cons slot slots ih =>
    have hsplit : (∃ k, j = i + k ∧ (slot :: slots)[k]? = some (some b)) ↔
        (j = i ∧ slot = some b) ∨ ∃ k, j = i + 1 + k ∧ slots[k]? = some (some b) := by
      constructor
      · rintro ⟨k, hj, hk⟩
        cases k with
        | zero => exact .inl ⟨hj, by simpa using hk⟩
        | succ k => exact .inr ⟨k, by omega, by simpa using hk⟩
      · rintro (⟨hj, hslot⟩ | ⟨k, hj, hk⟩)
        · exact ⟨0, hj, by simp [hslot]⟩
        · exact ⟨k + 1, by omega, by simpa using hk⟩
    rw [hsplit]
    cases slot with
    | none => simp [filledFrom, ih]
    | some c => simp [filledFrom, ih, eq_comm]

theorem filledFrom_replicate (i n : ℕ) : filledFrom i (List.replicate n (none : Option β)) = [] := by
  induction n generalizing i with
  | zero => rfl
  | succ n ih => exact ih (i + 1)

/-- **Filling an empty slot** adds the delivery. -/
theorem filledFrom_set {slots : List (Option β)} {i j : ℕ} (h : slots[j]? = some none) (b : β) :
    (filledFrom i (slots.set j (some b))).Perm ((i + j, b) :: filledFrom i slots) := by
  induction slots generalizing i j with
  | nil => simp at h
  | cons slot slots ih =>
    cases j with
    | zero =>
      have hslot : slot = none := by simpa using h
      subst hslot
      exact .refl _
    | succ j =>
      have ih' := ih (i := i + 1) (j := j) (by simpa using h)
      rw [show i + 1 + j = i + (j + 1) by omega] at ih'
      cases slot with
      | none => exact ih'
      | some c => exact (ih'.cons (i, c)).trans (.swap _ _ _)

end Slots
