import Mathlib.Data.Finset.Card
import Mathlib.Logic.Function.Basic
import Mathlib.Tactic.Common

/-!
# Threads that take turns on a shared state

Any number of threads, each at a place of its own code, act on one shared state. A step
is an atomic action of one thread; a choice resolves what the code leaves open.

* `Threads.Moves`: one step. `Threads.Run allowed`: a run of allowed steps.
  `run_of_follow`: a schedule that can be followed is one.
* `Run.invariant`: what allowed steps keep holds throughout a run.
* `Annotated ok`: every thread's annotation holds at its place. `Annotated.moves`: a step
  keeps it if it establishes the annotation of the thread that acts and does not disturb
  that of any other.
* `Census p n`: `n` threads are at places of a kind. A step that enters, leaves or keeps to
  such places counts up, down or not at all.
* `split_of_mem`: a queue from one thread to another keeps the order.
-/

/-- A shared state and the place of every thread. -/
structure Threads (ι σ : Type) (π : ι → Type) where
  shared : σ
  place : (i : ι) → π i

namespace Threads

variable {ι σ κ : Type} {π : ι → Type} [DecidableEq ι]

/-- Thread `i` leaves the shared state `a` and goes to the place `p`. -/
def move (s : Threads ι σ π) (i : ι) (a : σ) (p : π i) : Threads ι σ π :=
  ⟨a, Function.update s.place i p⟩

@[simp] theorem shared_move (s : Threads ι σ π) (i : ι) (a : σ) (p : π i) :
    (s.move i a p).shared = a := rfl

@[simp] theorem place_move_self (s : Threads ι σ π) (i : ι) (a : σ) (p : π i) :
    (s.move i a p).place i = p := Function.update_self _ _ _

theorem place_move_ne (s : Threads ι σ π) {i j : ι} (h : j ≠ i) (a : σ) (p : π i) :
    (s.move i a p).place j = s.place j := Function.update_of_ne h _ _

variable (code : (i : ι) → κ → σ → π i → Option (σ × π i))

/-- Thread `i` takes one step. -/
def Moves (s : Threads ι σ π) (i : ι) (s' : Threads ι σ π) : Prop :=
  ∃ c a p, code i c s.shared (s.place i) = some (a, p) ∧ s' = s.move i a p

/-- A run whose steps are all allowed. -/
inductive Run (allowed : Threads ι σ π → ι → Threads ι σ π → Prop) :
    Threads ι σ π → Threads ι σ π → Prop
  | refl (s : Threads ι σ π) : Run allowed s s
  | tail {s t u : Threads ι σ π} {i : ι} :
      Run allowed s t → t.Moves code i u → allowed t i u → Run allowed s u

variable {code} {allowed : Threads ι σ π → ι → Threads ι σ π → Prop} {s t u : Threads ι σ π}

theorem Run.trans (h : Run code allowed s t) (h' : Run code allowed t u) : Run code allowed s u := by
  induction h' with
  | refl => exact h
  | tail _ hmoves hallowed ih => exact ih.tail hmoves hallowed

theorem Run.single {i : ι} (h : s.Moves code i t) (hallowed : allowed s i t) :
    Run code allowed s t := (Run.refl s).tail h hallowed

theorem Run.mono {allowed' : Threads ι σ π → ι → Threads ι σ π → Prop}
    (h : Run code allowed s t) (hmono : ∀ s i t, allowed s i t → allowed' s i t) :
    Run code allowed' s t := by
  induction h with
  | refl => exact .refl _
  | tail _ hmoves hallowed ih => exact ih.tail hmoves (hmono _ _ _ hallowed)

/-- **What allowed steps keep** holds throughout a run. -/
theorem Run.invariant (h : Run code allowed s t) {holds : Threads ι σ π → Prop}
    (hstep : ∀ s i t, holds s → s.Moves code i t → allowed s i t → holds t) (hs : holds s) :
    holds t := by
  induction h with
  | refl => exact hs
  | tail _ hmoves hallowed ih => exact hstep _ _ _ ih hmoves hallowed

/-- Follow a schedule: threads in turn, with their choices. -/
def follow (code : (i : ι) → κ → σ → π i → Option (σ × π i)) (s : Threads ι σ π) :
    List (ι × κ) → Option (Threads ι σ π)
  | [] => some s
  | (i, c) :: rest =>
    match code i c s.shared (s.place i) with
    | some (a, p) => follow code (s.move i a p) rest
    | none => none

theorem follow_append (s : Threads ι σ π) (xs ys : List (ι × κ)) :
    follow code s (xs ++ ys) = (follow code s xs).bind fun t => follow code t ys := by
  induction xs generalizing s with
  | nil => rfl
  | cons e xs ih =>
    obtain ⟨i, c⟩ := e
    simp only [List.cons_append, follow]
    cases code i c s.shared (s.place i) with
    | none => rfl
    | some next => exact ih _

/-- A thread that a schedule does not name stays at its place. -/
theorem place_of_follow {schedule : List (ι × κ)} (h : follow code s schedule = some t) {i : ι}
    (hi : ∀ e ∈ schedule, e.1 ≠ i) : t.place i = s.place i := by
  induction schedule generalizing s with
  | nil =>
    cases h
    rfl
  | cons e rest ih =>
    obtain ⟨j, c⟩ := e
    rw [List.forall_mem_cons] at hi
    unfold follow at h
    cases hstep : code j c s.shared (s.place j) with
    | none => rw [hstep] at h; cases h
    | some next =>
      obtain ⟨a, p⟩ := next
      rw [hstep] at h
      rw [ih h hi.2]
      exact place_move_ne s (Ne.symm hi.1) a p

/-- **A schedule is a run**, of allowed steps if each of its steps is allowed where what
the schedule keeps holds. -/
theorem run_of_follow {schedule : List (ι × κ)} (holds : Threads ι σ π → Prop)
    (h : follow code s schedule = some t)
    (hkeep : ∀ u i c a p, (i, c) ∈ schedule → holds u →
      code i c u.shared (u.place i) = some (a, p) →
      allowed u i (u.move i a p) ∧ holds (u.move i a p)) (hs : holds s) :
    Run code allowed s t ∧ holds t := by
  induction schedule generalizing s with
  | nil =>
    cases h
    exact ⟨.refl _, hs⟩
  | cons e rest ih =>
    obtain ⟨i, c⟩ := e
    unfold follow at h
    cases hstep : code i c s.shared (s.place i) with
    | none => rw [hstep] at h; cases h
    | some next =>
      obtain ⟨a, p⟩ := next
      rw [hstep] at h
      obtain ⟨hallowed, hnext⟩ := hkeep s i c a p List.mem_cons_self hs hstep
      obtain ⟨hrun, ht⟩ := ih h
        (fun u i c a p hmem => hkeep u i c a p (List.mem_cons_of_mem _ hmem)) hnext
      exact ⟨(Run.single ⟨c, a, p, hstep, rfl⟩ hallowed).trans hrun, ht⟩

/-- A schedule is a run where every step is allowed. -/
theorem run_of_schedule {schedule : List (ι × κ)} (h : follow code s schedule = some t) :
    Run code (fun _ _ _ => True) s t :=
  (run_of_follow (fun _ => True) h (fun _ _ _ _ _ _ _ _ => ⟨trivial, trivial⟩) trivial).1

/-- The annotation of every thread holds at its place. -/
def Annotated (ok : (i : ι) → σ → π i → Prop) (s : Threads ι σ π) : Prop :=
  ∀ i, ok i s.shared (s.place i)

/-- **One step keeps the annotations** if the thread that acts establishes its own and
leaves those of the others undisturbed. -/
theorem Annotated.moves {ok : (i : ι) → σ → π i → Prop} {i : ι} {a : σ} {p : π i}
    (hown : ok i a p) (hothers : ∀ j, j ≠ i → ok j a (s.place j)) :
    Annotated ok (s.move i a p) := by
  intro j
  by_cases hj : j = i
  · subst hj
    simpa using hown
  · rw [place_move_ne s hj]
    exact hothers j hj

/-- `n` threads are at places of the kind `p`. -/
def Census (p : (i : ι) → π i → Prop) (s : Threads ι σ π) (n : ℕ) : Prop :=
  ∃ there : Finset ι, (∀ i, i ∈ there ↔ p i (s.place i)) ∧ there.card = n

section Census

variable {p : (i : ι) → π i → Prop} {i : ι} {a : σ} {q : π i} {n : ℕ}

omit [DecidableEq ι] in
theorem Census.of_none (h : ∀ i, ¬ p i (s.place i)) : Census p s 0 :=
  ⟨∅, fun i => by simpa using h i, rfl⟩

omit [DecidableEq ι] in
/-- Where no thread is, none is counted. -/
theorem Census.eq_zero (hn : Census p s n) (h : ∀ i, ¬ p i (s.place i)) : n = 0 := by
  obtain ⟨there, hmem, hcard⟩ := hn
  have hempty : there = ∅ := Finset.eq_empty_of_forall_notMem fun i hi => h i ((hmem i).1 hi)
  rw [← hcard, hempty, Finset.card_empty]

theorem Census.enter (hn : Census p s n) (hold : ¬ p i (s.place i)) (hnew : p i q) :
    Census p (s.move i a q) (n + 1) := by
  obtain ⟨there, hmem, hcard⟩ := hn
  refine ⟨insert i there, fun j => ?_, ?_⟩
  · rw [Finset.mem_insert]
    by_cases hj : j = i
    · subst hj
      rw [place_move_self]
      exact iff_of_true (.inl rfl) hnew
    · rw [place_move_ne s hj, hmem j]
      exact or_iff_right hj
  · rw [Finset.card_insert_of_notMem fun hi => hold ((hmem i).1 hi), hcard]

theorem Census.leave (hn : Census p s n) (hold : p i (s.place i)) (hnew : ¬ p i q) :
    ∃ m, n = m + 1 ∧ Census p (s.move i a q) m := by
  obtain ⟨there, hmem, hcard⟩ := hn
  have hi : i ∈ there := (hmem i).2 hold
  refine ⟨(there.erase i).card, ?_, there.erase i, fun j => ?_, rfl⟩
  · rw [← hcard, Finset.card_erase_add_one hi]
  · rw [Finset.mem_erase]
    by_cases hj : j = i
    · subst hj
      rw [place_move_self]
      exact iff_of_false (fun h => h.1 rfl) hnew
    · rw [place_move_ne s hj, hmem j]
      exact and_iff_right hj

theorem Census.stay (hn : Census p s n) (h : p i (s.place i) ↔ p i q) :
    Census p (s.move i a q) n := by
  obtain ⟨there, hmem, hcard⟩ := hn
  refine ⟨there, fun j => ?_, hcard⟩
  by_cases hj : j = i
  · subst hj
    rw [place_move_self, hmem j]
    exact h
  · rw [place_move_ne s hj]
    exact hmem j

end Census

/-- **First in, first out**: what was sent in front of a command that was taken was taken as
well. -/
theorem split_of_mem {α : Type} {taken queue xs zs : List α} {c : α}
    (h : taken ++ queue = xs ++ c :: zs) (hc : c ∈ taken) (hn : (taken ++ queue).Nodup) :
    ∃ ys, taken = xs ++ c :: ys := by
  rw [List.nodup_append] at hn
  rcases List.append_eq_append_iff.1 h with ⟨ys, hxs, hq⟩ | ⟨ys, htaken, hcs⟩
  · exact absurd rfl (hn.2.2 c hc c (by rw [hq]; simp))
  · cases ys with
    | nil => exact absurd rfl (hn.2.2 c hc c (by rw [List.nil_append] at hcs; simp [← hcs]))
    | cons y ys =>
      rw [List.cons_append, List.cons.injEq] at hcs
      exact ⟨ys, by rw [htaken, hcs.1]⟩

end Threads
