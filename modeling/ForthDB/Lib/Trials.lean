import Mathlib.Tactic.Common

/-!
# Trials in turn

A loop tries the elements of a list in turn on an evolving state. A trial is accepted, with a
result and the next state, or it is refused. A loop whose refusals leave the state as it was does
not notice when the refused elements are taken out.

* `Trials.run`: the loop. `Trials.Quiet`: a refusal leaves the state as it was.
* `Trials.run_survivors`: the loop on the accepted elements alone.
-/

namespace Trials

variable {σ α β ρ ε : Type}

/-- Try the elements in turn; an `error` of a step halts the loop. -/
def run (step : σ → α → Except ε (Except ρ β × σ)) : σ → List α →
    Except ε (List (Except ρ β) × σ)
  | s, [] => .ok ([], s)
  | s, a :: rest =>
    match step s a with
    | .error halt => .error halt
    | .ok (decision, s) =>
      match run step s rest with
      | .error halt => .error halt
      | .ok (decisions, s) => .ok (decision :: decisions, s)

/-- A refusal leaves the state as it was. -/
def Quiet (step : σ → α → Except ε (Except ρ β × σ)) : Prop :=
  ∀ s a r s', step s a = .ok (.error r, s') → s' = s

/-- The elements that were accepted. -/
def survivors : List α → List (Except ρ β) → List α
  | a :: as, .ok _ :: decisions => a :: survivors as decisions
  | _ :: as, .error _ :: decisions => survivors as decisions
  | _, _ => []

variable {step : σ → α → Except ε (Except ρ β × σ)} {s t : σ} {as : List α}
  {decisions : List (Except ρ β)}

theorem length_run (h : run step s as = .ok (decisions, t)) : decisions.length = as.length := by
  induction as generalizing s decisions with
  | nil =>
    cases h
    rfl
  | cons a as ih =>
    unfold run at h
    split at h
    · cases h
    · split at h
      · cases h
      · rename_i hrest
        cases h
        exact congrArg _ (ih hrest)

/-- **Without what was refused** the loop accepts everything and ends in the same state. -/
theorem run_survivors (hquiet : Quiet step) (h : run step s as = .ok (decisions, t)) :
    run step s (survivors as decisions) = .ok (decisions.filter Except.toBool, t) := by
  induction as generalizing s decisions with
  | nil =>
    cases h
    rfl
  | cons a as ih =>
    unfold run at h
    split at h
    · cases h
    · rename_i decision s' hstep
      split at h
      · cases h
      · rename_i rest t' hrest
        cases h
        cases decision with
        | ok b =>
          -- the element is tried again, on the same state
          unfold survivors run
          simp only [hstep, ih hrest]
          rfl
        | error r =>
          obtain rfl := hquiet s a r s' hstep
          exact ih hrest

end Trials
