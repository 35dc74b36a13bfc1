import Mathlib.Data.List.Forall2
import Mathlib.Data.List.ReduceOption
import Mathlib.Data.Option.Basic
import Mathlib.Logic.Function.Basic
import Mathlib.Tactic.Common

/-!
# Trees of shared cells

Values are kept in trees of reference-counted cells: leaves, and branches of optional
references. Clones share their cells. A writer that follows a path copies each cell that
another live reference leads to, and writes the others in place.

* `View α n`: a tree of depth `n` as a value. `h.Shows n a v`: the cells below the address
  `a` spell the value `v`.
* `Edit`: what a writer does at a leaf, and what it does about missing and emptied cells.
  `Edit.view` is the edit of a value, `Heap.edit` that of the cells.
* `edit_edited`: **the cells spell the edited value, and what any other reference leads to
  is spelled as before**.
* `Edit.Simulates`: two edits do the same to related leaves, and so to related trees.
* `Family`: several trees in one heap. `Holds f n vs`: they spell the values `vs`. An edit of one
  member is an edit of one value (`Holds.edit`), and a clone is a copy (`Holds.clone`).
-/

namespace SharedTree

/-- A tree of depth `n`, as a value. -/
def View (α : Type) : ℕ → Type
  | 0 => α
  | n + 1 => List (Option (View α n))

variable {α ρ β : Type}

/-- A leaf, as a value. -/
def View.leaf (x : α) : View α 0 := x

/-- A branch, as a value. -/
def View.node {n : ℕ} (children : List (Option (View α n))) : View α (n + 1) := children

def View.children {n : ℕ} (v : View α (n + 1)) : List (Option (View α n)) := v

@[simp] theorem View.children_node {n : ℕ} (children : List (Option (View α n))) :
    (View.node children).children = children := rfl

/-- The cells: the leaves, and the branches `n + 1` steps above them. -/
structure Heap (α : Type) where
  leaves : List α
  branches : ℕ → List (List (Option ℕ))

namespace Heap

variable (h : Heap α)

/-- The references in a branch. -/
def children (n a : ℕ) : List (Option ℕ) := (h.branches n)[a]?.getD []

def setChildren (n a : ℕ) (cs : List (Option ℕ)) : Heap α :=
  { h with branches := Function.update h.branches n ((h.branches n).set a cs) }

/-- The cells below an address spell a value. -/
def Shows : (n : ℕ) → ℕ → View α n → Prop
  | 0, a, v => h.leaves[a]? = some v
  | n + 1, a, v => ∃ cs, (h.branches n)[a]? = some cs ∧
      List.Forall₂ (Option.Rel (Shows n)) cs v.children

/-- A copy of a cell, which shares what its references lead to. -/
def copy : ℕ → ℕ → Heap α × ℕ
  | 0, a => ({ h with leaves := h.leaves ++ h.leaves[a]?.toList }, h.leaves.length)
  | n + 1, a =>
    ({ h with branches := Function.update h.branches n (h.branches n ++ (h.branches n)[a]?.toList) },
      (h.branches n).length)

/-- A cell for a writer: itself, unless one of the other live references leads to it. -/
def own (n : ℕ) (others : List ℕ) (a : ℕ) : Heap α × ℕ :=
  if a ∈ others then h.copy n a else (h, a)

/-- Every cell of the one heap is a cell of the other. -/
def Extends (h h' : Heap α) : Prop :=
  h.leaves <+: h'.leaves ∧ ∀ n, h.branches n <+: h'.branches n

/-- The two heaps have the same cells less than `n` steps above the leaves, and the same leaves. -/
def Below (n : ℕ) (h h' : Heap α) : Prop :=
  h'.leaves = h.leaves ∧ ∀ m < n, h'.branches m = h.branches m

end Heap

/-! ## Edits -/

/-- What a writer does: to the leaf, where a reference is missing, and to emptied cells. -/
structure Edit (α ρ : Type) where
  act : α → α × ρ
  /-- Make the cells of a missing path. -/
  create : Bool
  blank : α
  /-- The number of references in a new branch. -/
  width : ℕ
  /-- Drop the cells that are empty behind the edit. -/
  prune : Bool
  isEmpty : α → Bool

/-- Put an item at a position, or behind the last one. -/
def place {τ : Type} (xs : List τ) (i : ℕ) (x : τ) : List τ :=
  if i < xs.length then xs.set i x else xs ++ [x]

namespace Edit

variable (e : Edit α ρ)

def blankView : (n : ℕ) → View α n
  | 0 => e.blank
  | _ + 1 => .node (List.replicate e.width none)

def isEmptyView : (n : ℕ) → View α n → Bool
  | 0, v => e.isEmpty v
  | _ + 1, v => v.children.all Option.isNone

/-- What a branch keeps of a cell behind an edit that reached a leaf or not. -/
def keep {τ : Type} (reached empty : Bool) (cell : τ) : Option τ :=
  if reached && e.prune && empty then none else some cell

/-- The edit of a value along a path: the value behind it, and what the leaf returned, if the
path led to one. -/
def view : (n : ℕ) → View α n → List ℕ → View α n × Option ρ
  | 0, v, _ =>
    let (leaf, result) := e.act v
    (leaf, some result)
  | _ + 1, v, [] => (v, none)
  | n + 1, v, i :: rest =>
    match v.children[i]?.join with
    | some child =>
      let (child, result) := view n child rest
      (.node (v.children.set i (e.keep result.isSome (e.isEmptyView n child) child)), result)
    | none =>
      if e.create then
        let (child, result) := view n (e.blankView n) rest
        (.node (place v.children i (some child)), result)
      else (v, none)

end Edit

namespace Heap

variable (e : Edit α ρ)

def alloc : ℕ → Heap α → Heap α × ℕ
  | 0, h => ({ h with leaves := h.leaves ++ [e.blank] }, h.leaves.length)
  | n + 1, h =>
    ({ h with branches :=
        Function.update h.branches n (h.branches n ++ [List.replicate e.width none]) },
      (h.branches n).length)

def isEmptyAt (h : Heap α) : ℕ → ℕ → Bool
  | 0, a => h.leaves[a]?.any e.isEmpty
  | n + 1, a => (h.children n a).all Option.isNone

/-- The edit of the cells along a path: the address that the writer's reference leads to behind
it, and what the leaf returned. `others` are the other live references of this depth; those
one step below are the references in the cells that they lead to, and the other references
in the writer's own cell. -/
def edit : (n : ℕ) → Heap α → List ℕ → ℕ → List ℕ → Heap α × ℕ × Option ρ
  | 0, h, others, a, _ =>
    let (h, a) := h.own 0 others a
    match h.leaves[a]? with
    | some leaf =>
      let (leaf, result) := e.act leaf
      ({ h with leaves := h.leaves.set a leaf }, a, some result)
    | none => (h, a, none)
  | n + 1, h, others, a, [] =>
    let (h, a) := h.own (n + 1) others a
    (h, a, none)
  | n + 1, h, others, a, i :: rest =>
    let (h, a) := h.own (n + 1) others a
    let cs := h.children n a
    let below := (others.flatMap (h.children n)).reduceOption ++ (cs.eraseIdx i).reduceOption
    match cs[i]?.join with
    | some c =>
      let (h, c, result) := edit n h below c rest
      (h.setChildren n a (cs.set i (e.keep result.isSome (h.isEmptyAt e n c) c)), a, result)
    | none =>
      if e.create then
        let (h, c) := alloc e n h
        let (h, c, result) := edit n h below c rest
        (h.setChildren n a (place cs i (some c)), a, result)
      else (h, a, none)

end Heap

/-! ## Spelling -/

section Spelling

variable {h h' : Heap α}

theorem getElem?_of_prefix {τ : Type} {xs ys : List τ} (h : xs <+: ys) {i : ℕ} {x : τ}
    (hx : xs[i]? = some x) : ys[i]? = some x := by
  obtain ⟨rest, rfl⟩ := h
  rwa [List.getElem?_append_left (List.getElem?_eq_some_iff.1 hx).1]

/-- More cells spell what the cells spelled before. -/
theorem Heap.Shows.extends (hle : h.Extends h') {n a : ℕ} {v : View α n} (hv : h.Shows n a v) :
    h'.Shows n a v := by
  induction n generalizing a with
  | zero => exact getElem?_of_prefix hle.1 hv
  | succ n ih =>
    obtain ⟨cs, hcs, hchildren⟩ := hv
    refine ⟨cs, getElem?_of_prefix (hle.2 n) hcs, hchildren.imp fun c w hcw => ?_⟩
    cases hcw with
    | some hshows => exact .some (ih hshows)
    | none => exact .none

/-- What is spelled depends on the cells below only. -/
theorem Heap.Shows.below {n : ℕ} (hsame : h.Below n h') {a : ℕ} {v : View α n} (hv : h.Shows n a v) :
    h'.Shows n a v := by
  induction n generalizing a with
  | zero =>
    have hleaf : h.leaves[a]? = some v := hv
    show h'.leaves[a]? = some v
    rw [hsame.1, hleaf]
  | succ n ih =>
    obtain ⟨cs, hcs, hchildren⟩ := hv
    refine ⟨cs, by rw [hsame.2 n (Nat.lt_succ_self n)]; exact hcs, hchildren.imp fun c w hcw => ?_⟩
    have hless : h.Below n h' := ⟨hsame.1, fun m hm => hsame.2 m (Nat.lt_succ_of_lt hm)⟩
    cases hcw with
    | some hshows => exact .some (ih hless hshows)
    | none => exact .none

theorem below_setChildren (n a : ℕ) (cs : List (Option ℕ)) : h.Below n (h.setChildren n a cs) := by
  refine ⟨rfl, fun m hm => ?_⟩
  exact Function.update_of_ne (Nat.ne_of_lt hm) _ _

theorem extends_copy (n a : ℕ) : h.Extends (h.copy n a).1 := by
  cases n with
  | zero => exact ⟨List.prefix_append _ _, fun n => List.prefix_refl _⟩
  | succ n =>
    refine ⟨List.prefix_refl _, fun m => ?_⟩
    by_cases hm : m = n
    · subst hm
      simp only [Heap.copy, Function.update_self]
      exact List.prefix_append _ _
    · simp only [Heap.copy, Function.update_of_ne hm]
      exact List.prefix_refl _

theorem extends_refl : h.Extends h := ⟨List.prefix_refl _, fun _ => List.prefix_refl _⟩

theorem extends_own (n : ℕ) (others : List ℕ) (a : ℕ) : h.Extends (h.own n others a).1 := by
  unfold Heap.own
  split
  · exact extends_copy n a
  · exact extends_refl

/-- The branches above a copied cell stay as they are. -/
theorem branches_copy {n m : ℕ} (hm : n ≤ m) (a : ℕ) : (h.copy n a).1.branches m = h.branches m := by
  cases n with
  | zero => rfl
  | succ n => exact Function.update_of_ne (by omega) _ _

theorem branches_own {n m : ℕ} (hm : n ≤ m) (others : List ℕ) (a : ℕ) :
    (h.own n others a).1.branches m = h.branches m := by
  unfold Heap.own
  split
  · exact branches_copy hm a
  · rfl

end Spelling

/-! ## The edit of the cells -/

section Positions

variable {τ σ : Type} {R S : τ → σ → Prop} {xs : List τ} {ys : List σ} {i : ℕ} {x : τ} {y : σ}

theorem forall₂_of_mem (h : List.Forall₂ R xs ys) (hmem : ∀ c ∈ xs, ∀ w, R c w → S c w) :
    List.Forall₂ S xs ys := by
  induction h with
  | nil => exact .nil
  | @cons c w cs ws hcw _ ih =>
    exact .cons (hmem c (by simp) w hcw) (ih fun d hd => hmem d (List.mem_cons_of_mem _ hd))

/-- Related items stay so beside the one that is replaced. -/
theorem forall₂_replace (h : List.Forall₂ R xs ys) (hrest : ∀ c ∈ xs.eraseIdx i, ∀ w, R c w → S c w)
    (hxy : S x y) : List.Forall₂ S (xs.set i x) (ys.set i y) := by
  induction h generalizing i with
  | nil => exact .nil
  | @cons c w cs ws hcw hrel ih =>
    cases i with
    | zero => exact .cons hxy (forall₂_of_mem hrel hrest)
    | succ i =>
      exact .cons (hrest c (by simp) w hcw) (ih fun d hd => hrest d (List.mem_cons_of_mem _ hd))

theorem forall₂_place (h : List.Forall₂ R xs ys) (hrest : ∀ c ∈ xs.eraseIdx i, ∀ w, R c w → S c w)
    (hxy : S x y) : List.Forall₂ S (place xs i x) (place ys i y) := by
  have hlength := h.length_eq
  unfold place
  by_cases hi : i < xs.length
  · rw [if_pos hi, if_pos (by omega)]
    exact forall₂_replace h hrest hxy
  · rw [if_neg hi, if_neg (by omega)]
    rw [List.eraseIdx_of_length_le (by omega)] at hrest
    exact List.rel_append (forall₂_of_mem h hrest) (.cons hxy .nil)

/-- Related lists have related references at a position. -/
theorem forall₂_join {γ δ : Type} {Q : γ → δ → Prop} {cs : List (Option γ)} {ws : List (Option δ)}
    (h : List.Forall₂ (Option.Rel Q) cs ws) (i : ℕ) : Option.Rel Q cs[i]?.join ws[i]?.join := by
  induction h generalizing i with
  | nil => exact .none
  | @cons c w cs ws hcw _ ih =>
    cases i with
    | zero => exact hcw
    | succ i => exact ih i

theorem rel_some_left {c : τ} {w : Option σ} (h : Option.Rel R (some c) w) :
    ∃ w', w = some w' ∧ R c w' := by
  cases h with
  | some hcw => exact ⟨_, rfl, hcw⟩

theorem rel_none_left {w : Option σ} (h : Option.Rel R none w) : w = none := by
  cases h with
  | none => rfl

theorem rel_keep {ρ : Type} {α : Type} (e : Edit α ρ) {c : τ} {w : σ} (h : R c w)
    (reached empty : Bool) : Option.Rel R (e.keep reached empty c) (e.keep reached empty w) := by
  unfold Edit.keep
  split
  · exact .none
  · exact .some h

theorem forall₂_replicate_none (R : τ → σ → Prop) (k : ℕ) :
    List.Forall₂ (Option.Rel R) (List.replicate k none) (List.replicate k none) := by
  induction k with
  | zero => exact .nil
  | succ k ih => exact .cons .none ih

/-- A related list has a related item for every item. -/
theorem exists_mem_of_forall₂ (h : List.Forall₂ R xs ys) (hx : x ∈ xs) : ∃ y ∈ ys, R x y := by
  induction h with
  | nil => cases hx
  | @cons x' y' xs ys hxy _ ih =>
    cases hx with
    | head => exact ⟨y', by simp, hxy⟩
    | tail _ hx =>
      obtain ⟨y, hy, hrel⟩ := ih hx
      exact ⟨y, List.mem_cons_of_mem _ hy, hrel⟩

theorem all_isNone_eq {γ δ : Type} {Q : γ → δ → Prop} {cs : List (Option γ)}
    {ws : List (Option δ)} (h : List.Forall₂ (Option.Rel Q) cs ws) :
    cs.all Option.isNone = ws.all Option.isNone := by
  induction h with
  | nil => rfl
  | @cons c w cs ws hcw _ ih =>
    rw [List.all_cons, List.all_cons, ih]
    cases hcw with
    | some _ => rfl
    | none => rfl

end Positions

section Cells

variable {h : Heap α} {n a : ℕ} {v : View α n}

theorem Heap.Shows.ne_of_copied {b : ℕ} (hb : h.Shows n b v) : b ≠ (h.copy n a).2 := by
  cases n with
  | zero =>
    have hlt := (List.getElem?_eq_some_iff.1 (show h.leaves[b]? = some v from hb)).1
    exact Nat.ne_of_lt hlt
  | succ n =>
    obtain ⟨cs, hcs, -⟩ := hb
    exact Nat.ne_of_lt (List.getElem?_eq_some_iff.1 hcs).1

/-- A copy spells what its cell spells. -/
theorem Heap.Shows.copy (hv : h.Shows n a v) : (h.copy n a).1.Shows n (h.copy n a).2 v := by
  cases n with
  | zero =>
    obtain ⟨leaf, hleaf⟩ : ∃ leaf : α, leaf = v := ⟨v, rfl⟩
    have hat : h.leaves[a]? = some leaf := hleaf ▸ hv
    show (h.leaves ++ h.leaves[a]?.toList)[h.leaves.length]? = some v
    rw [hat, ← hleaf]
    exact List.getElem?_concat_length
  | succ n =>
    obtain ⟨cs, hcs, hchildren⟩ := hv
    refine ⟨cs, ?_, ?_⟩
    · show (Function.update h.branches n (h.branches n ++ (h.branches n)[a]?.toList) n)[
        (h.branches n).length]? = some cs
      rw [Function.update_self, hcs]
      simp
    · refine hchildren.imp fun c w hcw => ?_
      cases hcw with
      | some hshows => exact .some (hshows.extends (extends_copy (n + 1) a))
      | none => exact .none

/-- **A cell of the writer's own** spells the same, and no other live reference leads to it. -/
theorem Heap.Shows.own (hv : h.Shows n a v) (others : List ℕ) :
    (h.own n others a).1.Shows n (h.own n others a).2 v ∧
      ∀ b ∈ others, ∀ w, h.Shows n b w → b ≠ (h.own n others a).2 := by
  unfold Heap.own
  by_cases ha : a ∈ others
  · rw [if_pos ha]
    exact ⟨hv.copy, fun b _ w hw => hw.ne_of_copied⟩
  · rw [if_neg ha]
    refine ⟨hv, fun b hb w _ heq => ha ?_⟩
    rw [show b = a from heq] at hb
    exact hb

variable (e : Edit α ρ)

theorem extends_alloc : h.Extends (Heap.alloc e n h).1 := by
  cases n with
  | zero => exact ⟨List.prefix_append _ _, fun n => List.prefix_refl _⟩
  | succ n =>
    refine ⟨List.prefix_refl _, fun m => ?_⟩
    by_cases hm : m = n
    · subst hm
      simp only [Heap.alloc, Function.update_self]
      exact List.prefix_append _ _
    · simp only [Heap.alloc, Function.update_of_ne hm]
      exact List.prefix_refl _

theorem branches_alloc {m : ℕ} (hm : n ≤ m) : (Heap.alloc e n h).1.branches m = h.branches m := by
  cases n with
  | zero => rfl
  | succ n => exact Function.update_of_ne (by omega) _ _

theorem shows_alloc : (Heap.alloc e n h).1.Shows n (Heap.alloc e n h).2 (e.blankView n) := by
  cases n with
  | zero =>
    show (h.leaves ++ [e.blank])[h.leaves.length]? = some e.blank
    simp
  | succ n =>
    refine ⟨List.replicate e.width none, ?_, ?_⟩
    · show (Function.update h.branches n (h.branches n ++ [List.replicate e.width none]) n)[
        (h.branches n).length]? = _
      rw [Function.update_self]
      simp
    · exact forall₂_replicate_none _ e.width

theorem Heap.Shows.isEmpty_eq (hv : h.Shows n a v) : h.isEmptyAt e n a = e.isEmptyView n v := by
  cases n with
  | zero =>
    have hleaf : h.leaves[a]? = some v := hv
    show h.leaves[a]?.any e.isEmpty = e.isEmpty v
    rw [hleaf]
    rfl
  | succ n =>
    obtain ⟨cs, hcs, hchildren⟩ := hv
    show (h.children n a).all Option.isNone = v.children.all Option.isNone
    unfold Heap.children
    rw [hcs]
    exact all_isNone_eq hchildren

/-- A branch spells what is put into it, when the references spell it. -/
theorem shows_setChildren {h : Heap α} {n a : ℕ} (ha : a < (h.branches n).length)
    {cs : List (Option ℕ)} {v : View α (n + 1)}
    (hcs : List.Forall₂ (Option.Rel (h.Shows n)) cs v.children) :
    (h.setChildren n a cs).Shows (n + 1) a v := by
  refine ⟨cs, ?_, hcs.imp fun c w hcw => ?_⟩
  · show (Function.update h.branches n ((h.branches n).set a cs) n)[a]? = some cs
    rw [Function.update_self, List.getElem?_set_self ha]
  · cases hcw with
    | some hshows => exact .some (hshows.below (below_setChildren n a _))
    | none => exact .none

/-- **A write to one branch** leaves every other branch alone whose references still spell what
they spelled. -/
theorem Heap.Shows.frame {h h' : Heap α} {n a b : ℕ} (hsame : h'.branches n = h.branches n)
    {live : List ℕ} (hlive : ∀ c ∈ live, ∀ w, h.Shows n c w → h'.Shows n c w)
    (hb : ∀ c, some c ∈ h.children n b → c ∈ live) (hne : b ≠ a) {w : View α (n + 1)}
    (hw : h.Shows (n + 1) b w) (cs : List (Option ℕ)) :
    (h'.setChildren n a cs).Shows (n + 1) b w := by
  obtain ⟨cs', hcs', hchildren⟩ := hw
  refine ⟨cs', ?_, forall₂_of_mem hchildren fun c hc w hcw => ?_⟩
  · show (Function.update h'.branches n ((h'.branches n).set a cs) n)[b]? = some cs'
    rw [Function.update_self, hsame, List.getElem?_set_ne (Ne.symm hne), hcs']
  · cases hcw with
    | @some c w hshows =>
      refine .some ((hlive c (hb c ?_) w hshows).below (below_setChildren n a cs))
      unfold Heap.children
      rw [hcs']
      exact hc
    | none => exact .none

/-- A branch of the writer's own, written behind an edit one step below. -/
theorem branch_written {h h₁ h₂ : Heap α} {n a : ℕ} {others live : List ℕ}
    (hext : h.Extends h₁) (hne : ∀ b ∈ others, ∀ w : View α (n + 1), h.Shows (n + 1) b w → b ≠ a)
    (hown : ∀ m, n + 1 ≤ m → h₁.branches m = h.branches m)
    (habove : ∀ m, n ≤ m → h₂.branches m = h₁.branches m) (ha : a < (h₁.branches n).length)
    (hothers : ∀ b ∈ others, ∀ c, some c ∈ h₁.children n b → c ∈ live)
    (hlive : ∀ c ∈ live, ∀ w, h₁.Shows n c w → h₂.Shows n c w) {cs : List (Option ℕ)}
    {v : View α (n + 1)} (hcs : List.Forall₂ (Option.Rel (h₂.Shows n)) cs v.children) :
    (h₂.setChildren n a cs).Shows (n + 1) a v ∧
      (∀ b ∈ others, ∀ w : View α (n + 1), h.Shows (n + 1) b w →
        (h₂.setChildren n a cs).Shows (n + 1) b w) ∧
      ∀ m, n + 1 ≤ m → (h₂.setChildren n a cs).branches m = h.branches m := by
  have hsame := habove n (Nat.le_refl n)
  refine ⟨shows_setChildren (by rw [hsame]; exact ha) hcs, fun b hb w hw => ?_, fun m hm => ?_⟩
  · exact (hw.extends hext).frame hsame hlive (hothers b hb) (hne b hb w hw) cs
  · have hset : (h₂.setChildren n a cs).branches m = h₂.branches m :=
      Function.update_of_ne (by omega) _ _
    rw [hset, habove m (by omega), hown m hm]

theorem Edit.view_some (e : Edit α ρ) {n i : ℕ} {v : View α (n + 1)} {w : View α n}
    (hw : v.children[i]?.join = some w) (rest : List ℕ) : e.view (n + 1) v (i :: rest) =
      (.node (v.children.set i (e.keep (e.view n w rest).2.isSome
        (e.isEmptyView n (e.view n w rest).1) (e.view n w rest).1)), (e.view n w rest).2) := by
  rw [Edit.view, hw]

theorem Edit.view_none (e : Edit α ρ) {n i : ℕ} {v : View α (n + 1)}
    (hw : v.children[i]?.join = none) (rest : List ℕ) : e.view (n + 1) v (i :: rest) =
      if e.create then (.node (place v.children i (some (e.view n (e.blankView n) rest).1)),
        (e.view n (e.blankView n) rest).2) else (v, none) := by
  rw [Edit.view, hw]

/-- What an edit of the cells did: they spell the edited value, and what the other live references
lead to is spelled as before. -/
structure Edited (e : Edit α ρ) (n : ℕ) (h : Heap α) (others : List ℕ) (v : View α n)
    (path : List ℕ) (r : Heap α × ℕ × Option ρ) : Prop where
  shows : r.1.Shows n r.2.1 (e.view n v path).1
  result : r.2.2 = (e.view n v path).2
  frame : ∀ b ∈ others, ∀ w, h.Shows n b w → r.1.Shows n b w
  above : ∀ m, n ≤ m → r.1.branches m = h.branches m

theorem edited_leaf (e : Edit α ρ) {h : Heap α} {a : ℕ} {v : View α 0} (hv : h.Shows 0 a v)
    (others : List ℕ) (path : List ℕ) :
    Edited e 0 h others v path (Heap.edit e 0 h others a path) := by
  obtain ⟨hown, hne⟩ := hv.own others
  have hat : (h.own 0 others a).1.leaves[(h.own 0 others a).2]? = some v := hown
  have hlt := (List.getElem?_eq_some_iff.1 hat).1
  have hedit : Heap.edit e 0 h others a path =
      ({ (h.own 0 others a).1 with
          leaves := (h.own 0 others a).1.leaves.set (h.own 0 others a).2 (e.act v).1 },
        (h.own 0 others a).2, some (e.act v).2) := by
    unfold Heap.edit
    simp only [hat]
  rw [hedit]
  refine ⟨?_, rfl, fun b hb w hw => ?_, fun m _ => branches_own (Nat.zero_le m) others a⟩
  · show ((h.own 0 others a).1.leaves.set (h.own 0 others a).2 (e.act v).1)[
      (h.own 0 others a).2]? = some (e.act v).1
    exact List.getElem?_set_self hlt
  · have hkept : (h.own 0 others a).1.leaves[b]? = some w := hw.extends (extends_own 0 others a)
    show ((h.own 0 others a).1.leaves.set (h.own 0 others a).2 (e.act v).1)[b]? = some w
    rw [List.getElem?_set_ne (Ne.symm (hne b hb w hw)), hkept]

/-- **An edit of the cells is the edit of the value.** -/
theorem edit_edited (e : Edit α ρ) {n : ℕ} {h : Heap α} {a : ℕ} {v : View α n}
    (hv : h.Shows n a v) (others : List ℕ) (path : List ℕ) :
    Edited e n h others v path (Heap.edit e n h others a path) := by
  induction n generalizing h a others path with
  | zero => exact edited_leaf e hv others path
  | succ n ih =>
    obtain ⟨hown, hne⟩ := hv.own others
    have hext := extends_own (h := h) (n + 1) others a
    have habove {m : ℕ} (hm : n + 1 ≤ m) := branches_own (h := h) hm others a
    cases path with
    | nil => exact ⟨hown, rfl, fun b hb w hw => hw.extends hext, fun m hm => habove hm⟩
    | cons i rest =>
      generalize hr : h.own (n + 1) others a = r at hown hne hext habove
      obtain ⟨h₁, a₁⟩ := r
      obtain ⟨cs, hcs, hchildren⟩ := hown
      have hlt := (List.getElem?_eq_some_iff.1 hcs).1
      have hcell : h₁.children n a₁ = cs := by unfold Heap.children; rw [hcs]; rfl
      -- the live references one step below, without the one that the path takes
      set live := (others.flatMap (h₁.children n)).reduceOption ++ (cs.eraseIdx i).reduceOption
        with hlive
      have hbeside {h₂ : Heap α} (hframe : ∀ d ∈ live, ∀ w, h₁.Shows n d w → h₂.Shows n d w) :
          ∀ d ∈ cs.eraseIdx i, ∀ w, Option.Rel (h₁.Shows n) d w → Option.Rel (h₂.Shows n) d w := by
        intro d hd w hdw
        cases hdw with
        | @some d w hs =>
          have hmem : d ∈ live := List.mem_append_right _ (List.reduceOption_mem_iff.2 hd)
          exact .some (hframe d hmem w hs)
        | none => exact .none
      have hothers : ∀ b ∈ others, ∀ c, some c ∈ h₁.children n b → c ∈ live := fun b hb c hc =>
        List.mem_append_left _ (List.reduceOption_mem_iff.2 (List.mem_flatMap.2 ⟨b, hb, hc⟩))
      have hjoin := forall₂_join hchildren i
      cases hc : cs[i]?.join with
      | some c =>
        rw [hc] at hjoin
        obtain ⟨w, hw, hshows⟩ := rel_some_left hjoin
        have hE := ih hshows live rest
        have hedit : Heap.edit e (n + 1) h others a (i :: rest) =
            ((Heap.edit e n h₁ live c rest).1.setChildren n a₁ (cs.set i
              (e.keep (Heap.edit e n h₁ live c rest).2.2.isSome
                ((Heap.edit e n h₁ live c rest).1.isEmptyAt e n (Heap.edit e n h₁ live c rest).2.1)
                (Heap.edit e n h₁ live c rest).2.1)), a₁, (Heap.edit e n h₁ live c rest).2.2) := by
          rw [Heap.edit]
          simp only [hr, hcell, hc, ← hlive]
        have hview := e.view_some hw rest
        generalize Heap.edit e n h₁ live c rest = r at hE hedit
        obtain ⟨h₂, c₂, result⟩ := r
        have hkeep := rel_keep e hE.shows (e.view n w rest).2.isSome
          (e.isEmptyView n (e.view n w rest).1)
        have hset := forall₂_replace hchildren (hbeside hE.frame) hkeep
        obtain ⟨hspelled, hframe, habove'⟩ := branch_written hext hne (fun _ => habove) hE.above hlt
          hothers hE.frame hset
        have hempty : h₂.isEmptyAt e n c₂ = e.isEmptyView n (e.view n w rest).1 :=
          hE.shows.isEmpty_eq e
        have hresult : result = (e.view n w rest).2 := hE.result
        rw [hedit]
        simp only [hempty, hresult]
        exact ⟨by rw [hview]; exact hspelled, by rw [hview], hframe, habove'⟩
      | none =>
        rw [hc] at hjoin
        have hview := e.view_none (rel_none_left hjoin) rest
        by_cases hcreate : e.create = true
        · have hfresh := shows_alloc (h := h₁) (n := n) e
          have hmore := extends_alloc (h := h₁) (n := n) e
          have hup {m : ℕ} (hm : n ≤ m) := branches_alloc (h := h₁) e hm
          have hE := ih hfresh live rest
          have hedit : Heap.edit e (n + 1) h others a (i :: rest) =
              ((Heap.edit e n (Heap.alloc e n h₁).1 live (Heap.alloc e n h₁).2 rest).1.setChildren n a₁
                (place cs i (some
                  (Heap.edit e n (Heap.alloc e n h₁).1 live (Heap.alloc e n h₁).2 rest).2.1)), a₁,
                (Heap.edit e n (Heap.alloc e n h₁).1 live (Heap.alloc e n h₁).2 rest).2.2) := by
            rw [Heap.edit]
            simp only [hr, hcell, hc, ← hlive, if_pos hcreate]
          generalize Heap.edit e n (Heap.alloc e n h₁).1 live (Heap.alloc e n h₁).2 rest = r
            at hE hedit
          obtain ⟨h₂, c₂, result⟩ := r
          have hframe : ∀ d ∈ live, ∀ w, h₁.Shows n d w → h₂.Shows n d w := fun d hd w hw =>
            hE.frame d hd w (hw.extends hmore)
          have hplace := forall₂_place hchildren (hbeside hframe) (Option.Rel.some hE.shows)
          obtain ⟨hspelled, hothers', habove'⟩ := branch_written hext hne (fun _ => habove)
            (fun m hm => (hE.above m hm).trans (hup hm)) hlt hothers hframe hplace
          have hresult : result = (e.view n (e.blankView n) rest).2 := hE.result
          rw [if_pos hcreate] at hview
          rw [hedit]
          simp only [hresult]
          exact ⟨by rw [hview]; exact hspelled, by rw [hview], hothers', habove'⟩
        · have hedit : Heap.edit e (n + 1) h others a (i :: rest) = (h₁, a₁, none) := by
            rw [Heap.edit]
            simp only [hr, hcell, hc, if_neg hcreate]
          rw [hedit]
          rw [if_neg hcreate] at hview
          have hspelled : h₁.Shows (n + 1) a₁ v := ⟨cs, hcs, hchildren⟩
          exact ⟨by rw [hview]; exact hspelled, by rw [hview], fun b hb w hw => hw.extends hext,
            fun m hm => habove hm⟩

end Cells

/-! ## Reading -/

section Reading

/-- The leaf at a path. -/
def View.leafAt : (n : ℕ) → View α n → List ℕ → Option α
  | 0, v, _ => some v
  | _ + 1, _, [] => none
  | n + 1, v, i :: rest =>
    v.children[i]?.join.bind fun child => leafAt n child rest

/-- The leaves, in the order of the branches. -/
def View.leaves : (n : ℕ) → View α n → List α
  | 0, v => [v]
  | n + 1, v => v.children.reduceOption.flatMap (leaves n)

def Heap.leafAt (h : Heap α) : ℕ → ℕ → List ℕ → Option α
  | 0, a, _ => h.leaves[a]?
  | _ + 1, _, [] => none
  | n + 1, a, i :: rest => (h.children n a)[i]?.join.bind fun c => h.leafAt n c rest

def Heap.leavesBelow (h : Heap α) : ℕ → ℕ → List α
  | 0, a => h.leaves[a]?.toList
  | n + 1, a => (h.children n a).reduceOption.flatMap (h.leavesBelow n)

variable {h : Heap α} {n a : ℕ} {v : View α n}

theorem Heap.Shows.children_eq {v : View α (n + 1)} (hv : h.Shows (n + 1) a v) :
    List.Forall₂ (Option.Rel (h.Shows n)) (h.children n a) v.children := by
  obtain ⟨cs, hcs, hchildren⟩ := hv
  unfold Heap.children
  rw [hcs]
  exact hchildren

theorem Heap.Shows.leafAt_eq (hv : h.Shows n a v) (path : List ℕ) :
    h.leafAt n a path = v.leafAt n path := by
  induction n generalizing a path with
  | zero => exact hv
  | succ n ih =>
    cases path with
    | nil => rfl
    | cons i rest =>
      have hjoin := forall₂_join hv.children_eq i
      unfold Heap.leafAt View.leafAt
      generalize (h.children n a)[i]?.join = c, v.children[i]?.join = w at hjoin ⊢
      cases hjoin with
      | some hshows => exact ih hshows rest
      | none => rfl

theorem Heap.Shows.leaves_eq (hv : h.Shows n a v) : h.leavesBelow n a = v.leaves n := by
  induction n generalizing a with
  | zero =>
    have hleaf : h.leaves[a]? = some v := hv
    unfold Heap.leavesBelow View.leaves
    rw [hleaf]
    rfl
  | succ n ih =>
    have hchildren := hv.children_eq
    unfold Heap.leavesBelow View.leaves
    generalize h.children n a = cs, v.children = ws at hchildren ⊢
    clear hv
    induction hchildren with
    | nil => rfl
    | @cons c w cs ws hcw _ ih' =>
      cases hcw with
      | some hshows =>
        simp only [List.reduceOption_cons_of_some, List.flatMap_cons]
        rw [ih hshows, ih']
      | none =>
        simp only [List.reduceOption_cons_of_none]
        exact ih'

end Reading

/-! ## Related leaves -/

section Relations

variable {γ : Type} {R : α → γ → Prop}

/-- Trees of one form with related leaves. -/
def View.Rel (R : α → γ → Prop) : (n : ℕ) → View α n → View γ n → Prop
  | 0, v, w => R v w
  | n + 1, v, w => List.Forall₂ (Option.Rel (View.Rel R n)) v.children w.children

/-- The edits do the same to related leaves. -/
structure Edit.Simulates (R : α → γ → Prop) (e : Edit α ρ) (e' : Edit γ ρ) : Prop where
  act : ∀ x y, R x y → R (e.act x).1 (e'.act y).1 ∧ (e.act x).2 = (e'.act y).2
  create : e.create = e'.create
  blank : R e.blank e'.blank
  width : e.width = e'.width
  prune : e.prune = e'.prune
  isEmpty : ∀ x y, R x y → e.isEmpty x = e'.isEmpty y

variable {e : Edit α ρ} {e' : Edit γ ρ} {n : ℕ} {v : View α n} {w : View γ n}

theorem Edit.Simulates.blankView (he : Edit.Simulates R e e') (n : ℕ) :
    View.Rel R n (e.blankView n) (e'.blankView n) := by
  cases n with
  | zero => exact he.blank
  | succ n =>
    show List.Forall₂ _ (List.replicate e.width none) (List.replicate e'.width none)
    rw [he.width]
    exact forall₂_replicate_none _ e'.width

theorem Edit.Simulates.isEmptyView (he : Edit.Simulates R e e') (h : View.Rel R n v w) :
    e.isEmptyView n v = e'.isEmptyView n w := by
  cases n with
  | zero => exact he.isEmpty v w h
  | succ n => exact all_isNone_eq h

theorem Edit.Simulates.keep {τ σ : Type} {Q : τ → σ → Prop} (he : Edit.Simulates R e e') {x : τ}
    {y : σ} (h : Q x y) (reached empty : Bool) :
    Option.Rel Q (e.keep reached empty x) (e'.keep reached empty y) := by
  have hkeep : e.keep reached empty y = e'.keep reached empty y := by
    unfold Edit.keep
    rw [he.prune]
  rw [← hkeep]
  exact rel_keep e h reached empty

/-- **Related trees stay related** under the same edit. -/
theorem Edit.Simulates.view (he : Edit.Simulates R e e') (h : View.Rel R n v w) (path : List ℕ) :
    View.Rel R n (e.view n v path).1 (e'.view n w path).1 ∧
      (e.view n v path).2 = (e'.view n w path).2 := by
  induction n generalizing path with
  | zero =>
    obtain ⟨hact, hresult⟩ := he.act v w h
    exact ⟨hact, congrArg some hresult⟩
  | succ n ih =>
    cases path with
    | nil => exact ⟨h, rfl⟩
    | cons i rest =>
      have hjoin := forall₂_join h i
      have hbeside : ∀ d ∈ v.children.eraseIdx i, ∀ d', Option.Rel (View.Rel R n) d d' →
          Option.Rel (View.Rel R n) d d' := fun d _ d' hd => hd
      cases hv : v.children[i]?.join with
      | some child =>
        rw [hv] at hjoin
        obtain ⟨child', hw, hchild⟩ := rel_some_left hjoin
        obtain ⟨hrel, hresult⟩ := ih hchild rest
        rw [e.view_some hv, e'.view_some hw, hresult, he.isEmptyView hrel]
        exact ⟨forall₂_replace h hbeside (he.keep hrel _ _), rfl⟩
      | none =>
        rw [hv] at hjoin
        rw [e.view_none hv, e'.view_none (rel_none_left hjoin), he.create]
        by_cases hcreate : e'.create = true
        · rw [if_pos hcreate, if_pos hcreate]
          obtain ⟨hrel, hresult⟩ := ih (he.blankView n) rest
          exact ⟨forall₂_place h hbeside (.some hrel), hresult⟩
        · rw [if_neg hcreate, if_neg hcreate]
          exact ⟨h, rfl⟩

theorem View.Rel.leafAt (h : View.Rel R n v w) (path : List ℕ) :
    Option.Rel R (v.leafAt n path) (w.leafAt n path) := by
  induction n generalizing path with
  | zero => exact .some h
  | succ n ih =>
    cases path with
    | nil => exact .none
    | cons i rest =>
      have hjoin := forall₂_join h i
      unfold View.leafAt
      generalize v.children[i]?.join = c, w.children[i]?.join = c' at hjoin ⊢
      cases hjoin with
      | some hrel => exact ih hrel rest
      | none => exact .none

theorem View.Rel.leaves (h : View.Rel R n v w) : List.Forall₂ R (v.leaves n) (w.leaves n) := by
  induction n with
  | zero => exact .cons h .nil
  | succ n ih =>
    unfold View.leaves
    have hchildren : List.Forall₂ (Option.Rel (View.Rel R n)) v.children w.children := h
    generalize v.children = cs, w.children = cs' at hchildren ⊢
    clear h
    induction hchildren with
    | nil => exact .nil
    | @cons c c' cs cs' hc _ ih' =>
      cases hc with
      | some hrel =>
        simp only [List.reduceOption_cons_of_some, List.flatMap_cons]
        exact List.rel_append (ih hrel) ih'
      | none =>
        simp only [List.reduceOption_cons_of_none]
        exact ih'

end Relations

/-! ## Families -/

/-- Trees in one heap, each with what its owner keeps beside the reference to the root. A member
that is gone is `none`. -/
structure Family (α β : Type) where
  heap : Heap α
  members : List (Option (ℕ × β))

namespace Family

/-- The references to roots that the other members own. -/
def beside (f : Family α β) (j : ℕ) : List ℕ := (f.members.eraseIdx j).reduceOption.map Prod.fst

/-- One member edits its tree. -/
def edit (e : Edit α ρ) (n : ℕ) (count : β → Option ρ → β) (f : Family α β) (j : ℕ)
    (path : List ℕ) : Family α β × Option (Option ρ) :=
  match f.members[j]?.join with
  | some (a, b) =>
    let (h, a, result) := Heap.edit e n f.heap (f.beside j) a path
    ({ heap := h, members := f.members.set j (some (a, count b result)) }, some result)
  | none => (f, none)

/-- `Clone`: another reference to the root. -/
def clone (f : Family α β) (j : ℕ) : Family α β :=
  { f with members := f.members ++ [f.members[j]?.join] }

/-- `Drop`: the member's reference to the root goes. -/
def drop (f : Family α β) (j : ℕ) : Family α β := { f with members := f.members.set j none }

/-- The members spell the values. -/
def Holds (f : Family α β) (n : ℕ) (vs : List (Option (View α n × β))) : Prop :=
  List.Forall₂ (Option.Rel fun m v => f.heap.Shows n m.1 v.1 ∧ m.2 = v.2) f.members vs

variable {f : Family α β} {n j : ℕ} {vs : List (Option (View α n × β))}

theorem Holds.member (hf : f.Holds n vs) {v : View α n} {b : β} (hv : vs[j]?.join = some (v, b)) :
    ∃ a, f.members[j]?.join = some (a, b) ∧ f.heap.Shows n a v := by
  have hjoin := forall₂_join hf j
  rw [hv] at hjoin
  generalize f.members[j]?.join = m at hjoin ⊢
  cases hjoin with
  | @some m _ hm => exact ⟨m.1, congrArg some (Prod.ext rfl hm.2), hm.1⟩

theorem Holds.gone (hf : f.Holds n vs) (hv : vs[j]?.join = none) : f.members[j]?.join = none := by
  have hjoin := forall₂_join hf j
  rw [hv] at hjoin
  cases hm : f.members[j]?.join with
  | some m => rw [hm] at hjoin; cases hjoin
  | none => rfl

/-- **An edit of one member** is an edit of its value; the other values stay. -/
theorem Holds.edit (hf : f.Holds n vs) (e : Edit α ρ) (count : β → Option ρ → β) {v : View α n}
    {b : β} (hv : vs[j]?.join = some (v, b)) (path : List ℕ) :
    (f.edit e n count j path).1.Holds n
        (vs.set j (some ((e.view n v path).1, count b (e.view n v path).2))) ∧
      (f.edit e n count j path).2 = some (e.view n v path).2 := by
  obtain ⟨a, hat, hshows⟩ := hf.member hv
  have hE := edit_edited e hshows (f.beside j) path
  unfold Family.edit
  simp only [hat]
  refine ⟨?_, by rw [hE.result]⟩
  refine forall₂_replace hf (fun m hm w hmw => ?_) (.some ⟨hE.shows, by rw [hE.result]⟩)
  cases hmw with
  | @some m w hmw =>
    have hbeside : m.1 ∈ f.beside j := List.mem_map_of_mem (List.reduceOption_mem_iff.2 hm)
    exact .some ⟨hE.frame m.1 hbeside w.1 hmw.1, hmw.2⟩
  | none => exact .none

theorem Holds.clone (hf : f.Holds n vs) (j : ℕ) : (f.clone j).Holds n (vs ++ [vs[j]?.join]) :=
  List.rel_append hf (.cons (forall₂_join hf j) .nil)

theorem Holds.drop (hf : f.Holds n vs) (j : ℕ) : (f.drop j).Holds n (vs.set j none) :=
  forall₂_replace hf (fun _ _ _ h => h) .none

end Family

end SharedTree
