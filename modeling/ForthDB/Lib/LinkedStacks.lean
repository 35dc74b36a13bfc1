import Mathlib.Data.Finset.Card
import Mathlib.Logic.Function.Basic
import Mathlib.Tactic.Common

/-!
# Stacks by key, and stacks linked through an append-only arena

* `StackMap κ φ`: finitely many nonempty stacks, one for each key. `push` defines,
  `pop` reveals what was defined before, `top` resolves.
* `Chain node h fs`: from the reference `h` the arena `node` links exactly the
  values `fs`, newest first.
* `Linked node head m`: the heads of an arena link exactly the stacks of `m`. It is
  kept by a push that appends a node (`Linked.push`), by a pop that moves a head to
  its predecessor (`Linked.pop`), and when the arena only grows (`Linked.mono`).
-/

variable {κ φ : Type}

/-- Finitely many nonempty stacks, one for each key. -/
structure StackMap (κ φ : Type) where
  stack : κ → List φ
  active : Finset κ
  mem_active : ∀ k, k ∈ active ↔ stack k ≠ []

namespace StackMap

@[ext] theorem ext {m m' : StackMap κ φ} (h : ∀ k, m.stack k = m'.stack k) : m = m' := by
  obtain ⟨s, a, ha⟩ := m
  obtain ⟨s', a', ha'⟩ := m'
  obtain rfl : s = s' := funext h
  obtain rfl : a = a' := by ext k; rw [ha, ha']
  rfl

/-- No stacks. -/
def empty : StackMap κ φ := ⟨fun _ => [], ∅, by simp⟩

/-- The newest definition of `k`. -/
def top (m : StackMap κ φ) (k : κ) : Option φ := (m.stack k).head?

/-- How many keys have a definition. -/
def size (m : StackMap κ φ) : ℕ := m.active.card

@[simp] theorem stack_empty (k : κ) : (empty : StackMap κ φ).stack k = [] := rfl

@[simp] theorem top_empty (k : κ) : (empty : StackMap κ φ).top k = none := rfl

@[simp] theorem size_empty : (empty : StackMap κ φ).size = 0 := rfl

theorem top_eq_none {m : StackMap κ φ} {k : κ} : m.top k = none ↔ m.stack k = [] := by
  simp [top]

theorem eq_empty_of_size {m : StackMap κ φ} (h : m.size = 0) : m = empty := by
  ext k : 1
  have hk : k ∉ m.active := by rw [Finset.card_eq_zero.1 h]; simp
  rw [m.mem_active, not_not] at hk
  simp [hk]

variable {ψ : Type}

/-- The same stacks of other values. -/
def map (g : φ → ψ) (m : StackMap κ φ) : StackMap κ ψ where
  stack k := (m.stack k).map g
  active := m.active
  mem_active k := by rw [m.mem_active]; simp

@[simp] theorem stack_map (g : φ → ψ) (m : StackMap κ φ) (k : κ) :
    (m.map g).stack k = (m.stack k).map g := rfl

@[simp] theorem size_map (g : φ → ψ) (m : StackMap κ φ) : (m.map g).size = m.size := rfl

variable [DecidableEq κ]

/-- Define `f` on top of the stack of `k`. -/
def push (m : StackMap κ φ) (k : κ) (f : φ) : StackMap κ φ where
  stack := Function.update m.stack k (f :: m.stack k)
  active := insert k m.active
  mem_active := by
    intro k'
    by_cases h : k' = k
    · subst h; simp
    · simp [h, m.mem_active]

/-- Drop the top of the stack of `k`, if it has one. -/
def pop (m : StackMap κ φ) (k : κ) : StackMap κ φ where
  stack := Function.update m.stack k (m.stack k).tail
  active := if (m.stack k).tail = [] then m.active.erase k else m.active
  mem_active := by
    intro k'
    by_cases h : k' = k
    · subst h
      by_cases ht : (m.stack k').tail = []
      · simp [ht]
      · have hne : m.stack k' ≠ [] := fun h0 => ht (by simp [h0])
        simp [ht, m.mem_active, hne]
    · split <;> simp [h, m.mem_active]

@[simp] theorem stack_push_self (m : StackMap κ φ) (k : κ) (f : φ) :
    (m.push k f).stack k = f :: m.stack k := by simp [push]

theorem stack_push_ne (m : StackMap κ φ) {k k' : κ} (f : φ) (h : k' ≠ k) :
    (m.push k f).stack k' = m.stack k' := by simp [push, h]

@[simp] theorem stack_pop_self (m : StackMap κ φ) (k : κ) :
    (m.pop k).stack k = (m.stack k).tail := by simp [pop]

theorem stack_pop_ne (m : StackMap κ φ) {k k' : κ} (h : k' ≠ k) :
    (m.pop k).stack k' = m.stack k' := by simp [pop, h]

theorem map_push (g : φ → ψ) (m : StackMap κ φ) (k : κ) (f : φ) :
    (m.push k f).map g = (m.map g).push k (g f) := by
  ext k' : 1
  by_cases h : k' = k
  · subst h; simp
  · simp [stack_push_ne _ _ h]

theorem map_pop (g : φ → ψ) (m : StackMap κ φ) (k : κ) : (m.pop k).map g = (m.map g).pop k := by
  ext k' : 1
  by_cases h : k' = k
  · subst h; simp
  · simp [stack_pop_ne _ h]

/-- A popped empty stack leaves the map as it was. -/
theorem pop_of_nil {m : StackMap κ φ} {k : κ} (h : m.stack k = []) : m.pop k = m := by
  ext k' : 1
  by_cases hk : k' = k
  · subst hk; simp [h]
  · rw [stack_pop_ne m hk]

end StackMap

/-- From the reference `h` the arena links exactly the values `fs`, newest first. -/
inductive Chain (node : ℕ → Option (φ × Option ℕ)) : Option ℕ → List φ → Prop
  | nil : Chain node none []
  | cons {i : ℕ} {f : φ} {prev : Option ℕ} {fs : List φ} :
      node i = some (f, prev) → Chain node prev fs → Chain node (some i) (f :: fs)

namespace Chain

variable {node node' : ℕ → Option (φ × Option ℕ)} {h : Option ℕ} {fs gs : List φ}

theorem mono (hc : Chain node h fs) (hm : ∀ i x, node i = some x → node' i = some x) :
    Chain node' h fs := by
  induction hc with
  | nil => exact nil
  | cons hn _ ih => exact cons (hm _ _ hn) ih

theorem map {ψ : Type} {node' : ℕ → Option (ψ × Option ℕ)} (g : φ → ψ) (hc : Chain node h fs)
    (hm : ∀ i f prev, node i = some (f, prev) → node' i = some (g f, prev)) :
    Chain node' h (fs.map g) := by
  induction hc with
  | nil => exact nil
  | cons hn _ ih => exact cons (hm _ _ _ hn) ih

theorem det (hc : Chain node h fs) (hd : Chain node h gs) : fs = gs := by
  induction hc generalizing gs with
  | nil => cases hd; rfl
  | cons hn _ ih =>
    cases hd with
    | cons hn' hc' =>
      rw [hn] at hn'
      cases hn'
      rw [ih hc']

theorem none_iff (hc : Chain node h fs) : h = none ↔ fs = [] := by
  cases hc <;> simp

/-- The head of a chain carries its newest value. -/
theorem head?_eq (hc : Chain node h fs) : fs.head? = h.bind fun i => (node i).map Prod.fst := by
  cases hc with
  | nil => rfl
  | cons hn _ => simp [hn]

/-- The predecessor of a chain's head links its tail. -/
theorem tail (hc : Chain node h fs) : Chain node (h.bind fun i => (node i).bind Prod.snd) fs.tail := by
  cases hc with
  | nil => exact nil
  | cons hn hc => simpa [hn] using hc

/-- A reference that a chain passes links a shorter chain, so no chain passes one twice. -/
theorem references (hc : Chain node h fs) : ∃ is : List ℕ, is.length = fs.length ∧ is.Nodup ∧
    ∀ i ∈ is, ∃ gs, gs ≠ [] ∧ gs.length ≤ fs.length ∧ Chain node (some i) gs := by
  induction hc with
  | nil => exact ⟨[], rfl, .nil, by simp⟩
  | @cons i f prev fs hn hc ih =>
    obtain ⟨is, hlength, hnodup, hpass⟩ := ih
    refine ⟨i :: is, by simp [hlength], List.nodup_cons.2 ⟨?_, hnodup⟩, ?_⟩
    · -- the rest of the chain would be as long as the whole
      intro hi
      obtain ⟨gs, -, hle, hgs⟩ := hpass i hi
      have heq := (cons hn hc).det hgs
      rw [← heq, List.length_cons] at hle
      omega
    · intro j hj
      rcases List.mem_cons.1 hj with rfl | hj
      · exact ⟨f :: fs, by simp, le_rfl, cons hn hc⟩
      · obtain ⟨gs, hne, hle, hgs⟩ := hpass j hj
        exact ⟨gs, hne, by rw [List.length_cons]; omega, hgs⟩

/-- A chain through an arena of `n` nodes has at most `n` values. -/
theorem length_le (hc : Chain node h fs) {n : ℕ} (hn : ∀ i x, node i = some x → i < n) :
    fs.length ≤ n := by
  obtain ⟨is, hlength, hnodup, hpass⟩ := hc.references
  have hsub : is ⊆ List.range n := by
    intro i hi
    obtain ⟨gs, -, -, hgs⟩ := hpass i hi
    cases hgs with
    | cons hnode _ => exact List.mem_range.2 (hn _ _ hnode)
  have hle := (List.subperm_of_subset hnodup hsub).length_le
  rw [List.length_range] at hle
  omega

end Chain

/-- The heads of an arena link exactly the stacks of `m`. -/
def Linked (node : ℕ → Option (φ × Option ℕ)) (head : κ → Option ℕ) (m : StackMap κ φ) : Prop :=
  ∀ k, Chain node (head k) (m.stack k)

namespace Linked

variable {node node' : ℕ → Option (φ × Option ℕ)} {head head' : κ → Option ℕ} {m : StackMap κ φ}

theorem mono (hl : Linked node head m) (hm : ∀ i x, node i = some x → node' i = some x) :
    Linked node' head m := fun k => (hl k).mono hm

theorem top_eq (hl : Linked node head m) (k : κ) :
    m.top k = (head k).bind fun i => (node i).map Prod.fst := (hl k).head?_eq

theorem mem_active (hl : Linked node head m) (k : κ) : k ∈ m.active ↔ head k ≠ none := by
  rw [m.mem_active, Ne, Ne, (hl k).none_iff]

variable [DecidableEq κ]

/-- Appending a node and moving one head to it pushes. -/
theorem push (hl : Linked node head m) {k : κ} {f : φ} {i : ℕ}
    (hm : ∀ j x, node j = some x → node' j = some x) (hi : node' i = some (f, head k))
    (hk : head' k = some i) (hne : ∀ k', k' ≠ k → head' k' = head k') :
    Linked node' head' (m.push k f) := by
  intro k'
  by_cases h : k' = k
  · subst h
    rw [hk, StackMap.stack_push_self]
    exact Chain.cons hi ((hl k').mono hm)
  · rw [hne k' h, StackMap.stack_push_ne m f h]
    exact (hl k').mono hm

/-- Moving one head to its predecessor pops. -/
theorem pop (hl : Linked node head m) {k : κ}
    (hm : ∀ j x, node j = some x → node' j = some x)
    (hk : head' k = (head k).bind fun i => (node i).bind Prod.snd)
    (hne : ∀ k', k' ≠ k → head' k' = head k') : Linked node' head' (m.pop k) := by
  intro k'
  by_cases h : k' = k
  · subst h
    rw [hk, StackMap.stack_pop_self]
    exact (hl k').tail.mono hm
  · rw [hne k' h, StackMap.stack_pop_ne m h]
    exact (hl k').mono hm

end Linked
