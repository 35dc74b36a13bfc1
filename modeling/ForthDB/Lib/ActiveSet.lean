import Mathlib.Algebra.BigOperators.Group.List.Basic
import Mathlib.Data.List.Induction
import Mathlib.Data.List.Nodup
import Mathlib.Data.List.Perm.Basic
import Mathlib.Data.List.Sort
import Mathlib.Logic.Function.Basic
import Mathlib.Order.Basic
import Mathlib.Tactic.Common

/-!
# The active elements behind a log of changes

Every group has at most one head. A change of a group names its head before and after; an index
follows with the removal of the one and the addition of the other, and replays its edits on a
list.

* `swapRemove`, `edit`, `replay`: the list of a reader, under edits.
* `Change`, `headsAfter`, `Legal`: the heads behind a log, and logs that tell their heads.
* `Lists heads p l`: `l` lists the active elements that satisfy `p`, each once.
* `Lists.replayed`: **replaying the edits of a legal log** keeps it, and counts.
-/

namespace ActiveSet

/-! ## Edits of a list -/

section Edits

variable {α β : Type}

/-- Take out one element and put the last one in its place. -/
def swapRemove (l : List α) (i : ℕ) : List α :=
  match l.getLast? with
  | some last => (l.set i last).dropLast
  | none => l

theorem swapRemove_perm {l : List α} {i : ℕ} (h : i < l.length) :
    (swapRemove l i).Perm (l.eraseIdx i) := by
  obtain ⟨xs, a, rest, rfl, hi⟩ : ∃ xs a rest, l = xs ++ a :: rest ∧ xs.length = i := by
    refine ⟨l.take i, l[i], l.drop (i + 1), ?_, by rw [List.length_take]; omega⟩
    rw [List.getElem_cons_drop, List.take_append_drop]
  subst hi
  have herase : (xs ++ a :: rest).eraseIdx xs.length = xs ++ rest := by
    rw [List.eraseIdx_append_of_length_le (Nat.le_refl _), Nat.sub_self, List.eraseIdx_cons_zero]
  rw [herase]
  unfold swapRemove
  rcases List.eq_nil_or_concat' rest with rfl | ⟨ys, z, rfl⟩
  · -- the element is the last one
    simp only [List.getLast?_append, List.getLast?_singleton, Option.some_or]
    rw [List.set_append_right _ _ (Nat.le_refl _), Nat.sub_self, List.set_cons_zero, List.append_nil,
      List.dropLast_concat]
  · have hlast : (xs ++ a :: (ys ++ [z])).getLast? = some z := by
      rw [← List.cons_append, ← List.append_assoc, List.getLast?_append, List.getLast?_singleton,
        Option.some_or]
    simp only [hlast]
    rw [List.set_append_right _ _ (Nat.le_refl _), Nat.sub_self, List.set_cons_zero, ← List.cons_append,
      ← List.append_assoc, List.dropLast_concat]
    refine List.Perm.append_left xs ?_
    exact (List.perm_append_singleton z ys).symm

theorem swapRemove_map (f : α → β) (l : List α) (i : ℕ) :
    (swapRemove l i).map f = swapRemove (l.map f) i := by
  unfold swapRemove
  rw [List.getLast?_map]
  cases l.getLast? with
  | none => rfl
  | some last =>
    simp only [Option.map_some]
    rw [List.map_dropLast, List.map_set]

variable {κ : Type} [DecidableEq κ]

/-- An addition, or the removal of the first element with the same key. -/
def edit (key : α → κ) (l : List α) (added : Bool) (a : α) : List α :=
  if added then l ++ [a]
  else match l.findIdx? fun b => key b = key a with
    | some i => swapRemove l i
    | none => l

/-- Keys are edited like their elements. -/
theorem edit_map (key : α → κ) (l : List α) (added : Bool) (a : α) :
    (edit key l added a).map key = edit id (l.map key) added (key a) := by
  unfold edit
  cases added with
  | true => simp only [if_true, List.map_append, List.map_cons, List.map_nil]
  | false =>
    simp only [Bool.false_eq_true, if_false, id_eq, List.findIdx?_map, Function.comp_def]
    cases l.findIdx? fun b => decide (key b = key a) with
    | none => rfl
    | some i => exact swapRemove_map key l i

/-- What is left was there or was added. -/
theorem mem_of_mem_edit {key : α → κ} {l : List α} {added : Bool} {a x : α}
    (h : x ∈ edit key l added a) : x ∈ l ∨ x = a := by
  unfold edit at h
  split at h
  · rcases List.mem_append.1 h with h | h
    · exact .inl h
    · exact .inr (List.mem_singleton.1 h)
  · split at h
    · rename_i i hi
      have hlt := (List.findIdx?_eq_some_iff_findIdx_eq.1 hi).1
      exact .inl (List.mem_of_mem_eraseIdx ((swapRemove_perm hlt).mem_iff.1 h))
    · exact .inl h

/-- **A removal** takes out the one element that it names. -/
theorem edit_removed {l : List κ} (hn : l.Nodup) (a : κ) :
    (edit id l false a).Perm (l.erase a) := by
  unfold edit
  rw [if_neg Bool.false_ne_true]
  simp only [id_eq]
  cases hi : l.findIdx? fun b => decide (b = a) with
  | none =>
    rw [List.findIdx?_eq_none_iff] at hi
    have hnot : a ∉ l := by
      intro ha
      have hfalse := hi a ha
      simp at hfalse
    rw [List.erase_of_not_mem hnot]
  | some i =>
    obtain ⟨hlt, hfind⟩ := List.findIdx?_eq_some_iff_findIdx_eq.1 hi
    have hget : l[i] = a := by
      have htrue := List.findIdx_getElem (w := by rw [hfind]; exact hlt)
      simpa [hfind] using htrue
    have herase : l.erase a = l.eraseIdx i := by
      rw [← hget, hn.erase_getElem]
    rw [herase]
    exact swapRemove_perm hlt

/-- The list behind some edits. -/
def replay (key : α → κ) (l : List α) (edits : List (Bool × α)) : List α :=
  edits.foldl (fun l e => edit key l e.1 e.2) l

theorem replay_append (key : α → κ) (l : List α) (xs ys : List (Bool × α)) :
    replay key l (xs ++ ys) = replay key (replay key l xs) ys := List.foldl_append

theorem replay_map (key : α → κ) (l : List α) (edits : List (Bool × α)) :
    (replay key l edits).map key = replay id (l.map key) (edits.map fun e => (e.1, key e.2)) := by
  unfold replay
  induction edits generalizing l with
  | nil => rfl
  | cons e edits ih =>
    rw [List.foldl_cons, ih, edit_map]
    rfl

/-- What holds of the elements and of the additions holds of what is left. -/
theorem forall_mem_replay {key : α → κ} {P : α → Prop} {l : List α} {edits : List (Bool × α)}
    (hl : ∀ a ∈ l, P a) (he : ∀ e ∈ edits, P e.2) : ∀ a ∈ replay key l edits, P a := by
  unfold replay
  induction edits generalizing l with
  | nil => exact hl
  | cons e edits ih =>
    refine ih (fun a ha => ?_) fun e' he' => he e' (List.mem_cons_of_mem e he')
    rcases mem_of_mem_edit ha with ha | rfl
    · exact hl a ha
    · exact he e List.mem_cons_self

/-- Additions less removals, from `n` on. -/
def balance (n : ℤ) (edits : List (Bool × α)) : ℤ :=
  edits.foldl (fun n e => n + if e.1 then 1 else -1) n

omit [DecidableEq κ] in
theorem balance_append (n : ℤ) (xs ys : List (Bool × α)) :
    balance n (xs ++ ys) = balance (balance n xs) ys := List.foldl_append

section Selected

variable {δ : Type} (p : δ → Bool) (added : δ → Bool)

/-- The edits that a reader takes from some deltas. -/
def selectedEdits (val : δ → α) (deltas : List δ) : List (Bool × α) :=
  deltas.filterMap fun d => if p d then some (added d, val d) else none

/-- A loop that skips what is not asked for replays the edits that are. -/
theorem foldl_selected (key : α → κ) (val : δ → α) (l : List α) (deltas : List δ) :
    deltas.foldl (fun l d => if p d then edit key l (added d) (val d) else l) l =
      replay key l (selectedEdits p added val deltas) := by
  unfold replay selectedEdits
  rw [List.foldl_filterMap]
  congr 1
  funext l d
  cases p d <;> rfl

omit [DecidableEq κ] in
/-- And one that counts counts them. -/
theorem foldl_balance (val : δ → α) (n : ℤ) (deltas : List δ) :
    deltas.foldl (fun (n : ℤ) d => if p d then n + (if added d then 1 else -1) else n) n =
      balance n (selectedEdits p added val deltas) := by
  unfold balance selectedEdits
  rw [List.foldl_filterMap]
  congr 1
  funext n d
  cases p d <;> rfl

omit [DecidableEq κ] in
/-- The keys of the edits. -/
theorem selectedEdits_map (key : α → κ) (val : δ → α) (deltas : List δ) :
    (selectedEdits p added val deltas).map (fun e => (e.1, key e.2)) =
      selectedEdits p added (fun d => key (val d)) deltas := by
  unfold selectedEdits
  rw [List.map_filterMap]
  congr 1
  funext d
  cases p d <;> rfl

end Selected

end Edits

/-! ## Logs of changes -/

variable {κ ρ : Type}

/-- A group gets another head. -/
structure Change (κ ρ : Type) where
  slot : κ
  previous : Option ρ
  resulting : Option ρ

/-- An element is active: its group has it for a head. -/
def Active (group : ρ → Option κ) (heads : κ → Option ρ) (x : ρ) : Prop :=
  ∃ k, group x = some k ∧ heads k = some x

/-- `l` lists the active elements that satisfy `p`, each once. -/
structure Lists (group : ρ → Option κ) (heads : κ → Option ρ) (p : ρ → Bool) (l : List ρ) :
    Prop where
  nodup : l.Nodup
  mem : ∀ x, x ∈ l ↔ Active group heads x ∧ p x = true

/-- Without heads nothing is active. -/
theorem lists_nil (group : ρ → Option κ) (p : ρ → Bool) :
    Lists group (fun _ => none) p [] := by
  refine ⟨List.nodup_nil, fun x => iff_of_false (nomatch ·) ?_⟩
  rintro ⟨⟨k, -, hhead⟩, -⟩
  cases hhead

section Groups

variable {κ : Type} [LinearOrder κ] {group : ρ → Option κ} {heads : κ → Option ρ}
  {p : ρ → Bool} {xs ys : List ρ} {ts us : List κ}

omit [LinearOrder κ] in
/-- What is listed has groups. -/
theorem Lists.exists_groups (hx : Lists group heads p xs) :
    ∃ ts : List κ, xs.map group = ts.map some := by
  have hsome : ∀ x ∈ xs, ∃ k, group x = some k := by
    intro x hmem
    obtain ⟨⟨k, hk, -⟩, -⟩ := (hx.mem x).1 hmem
    exact ⟨k, hk⟩
  clear hx
  induction xs with
  | nil => exact ⟨[], rfl⟩
  | cons x xs ih =>
    obtain ⟨k, hk⟩ := hsome x List.mem_cons_self
    obtain ⟨ts, hts⟩ := ih fun y hy => hsome y (List.mem_cons_of_mem x hy)
    exact ⟨k :: ts, by rw [List.map_cons, List.map_cons, hk, hts]⟩

/-- **The groups of what is listed**: each once, in order, and those whose head is listed. -/
theorem Lists.groups (hx : Lists group heads p xs) (ht : xs.map group = ts.map some) :
    (ts.insertionSort (· ≤ ·)).Pairwise (· < ·) ∧
      ∀ t, t ∈ ts.insertionSort (· ≤ ·) ↔
        ∃ x, heads t = some x ∧ group x = some t ∧ p x = true := by
  have hactive : ∀ x ∈ xs, ∀ t, group x = some t → heads t = some x := by
    intro x hx' t hgroup
    obtain ⟨⟨k, hk, hhead⟩, -⟩ := (hx.mem x).1 hx'
    obtain rfl := Option.some.inj (hk.symm.trans hgroup)
    exact hhead
  have hnodup : ts.Nodup := by
    refine List.Nodup.of_map some ?_
    rw [← ht]
    refine List.Nodup.map_on (fun x hx' y hy' heq => ?_) hx.nodup
    obtain ⟨⟨t, hgroup, hhead⟩, -⟩ := (hx.mem x).1 hx'
    have hother := hactive y hy' t (heq.symm.trans hgroup)
    exact Option.some.inj (hhead.symm.trans hother)
  have hsorted : (ts.insertionSort (· ≤ ·)).Pairwise (· ≤ ·) := List.pairwise_insertionSort _ _
  have hdistinct : (ts.insertionSort (· ≤ ·)).Pairwise (· ≠ ·) :=
    (List.perm_insertionSort _ ts).nodup_iff.2 hnodup
  refine ⟨(hsorted.and hdistinct).imp fun h => lt_of_le_of_ne h.1 h.2, fun t => ?_⟩
  have hmem : t ∈ ts ↔ some t ∈ xs.map group := by
    rw [ht, List.mem_map_of_injective (Option.some_injective κ)]
  rw [List.mem_insertionSort, hmem, List.mem_map]
  constructor
  · rintro ⟨x, hx', hgroup⟩
    exact ⟨x, hactive x hx' t hgroup, hgroup, ((hx.mem x).1 hx').2⟩
  · rintro ⟨x, hhead, hgroup, hp⟩
    exact ⟨x, (hx.mem x).2 ⟨⟨t, hgroup, hhead⟩, hp⟩, hgroup⟩

end Groups

/-- The edits of a change that concern `p`. -/
def Change.edits (c : Change κ ρ) (p : ρ → Bool) : List (Bool × ρ) :=
  ((c.previous.toList.filter p).map fun x => (false, x)) ++
    (c.resulting.toList.filter p).map fun x => (true, x)

/-- A change names the head before it, and heads of its own group. -/
structure Change.Fits (c : Change κ ρ) (group : ρ → Option κ) (heads : κ → Option ρ) : Prop where
  previous : heads c.slot = c.previous
  removed : ∀ x, c.previous = some x → group x = some c.slot
  added : ∀ x, c.resulting = some x → group x = some c.slot

variable [DecidableEq κ]

def Change.apply (c : Change κ ρ) (heads : κ → Option ρ) : κ → Option ρ :=
  Function.update heads c.slot c.resulting

/-- The heads behind a log. -/
def headsAfter (heads : κ → Option ρ) (log : List (Change κ ρ)) : κ → Option ρ :=
  log.foldl (fun heads c => c.apply heads) heads

/-- Every change of the log fits the heads before it. -/
def Legal (group : ρ → Option κ) : (κ → Option ρ) → List (Change κ ρ) → Prop
  | _, [] => True
  | heads, c :: log => c.Fits group heads ∧ Legal group (c.apply heads) log

variable {group group' : ρ → Option κ} {heads : κ → Option ρ} {p : ρ → Bool} {l : List ρ}

theorem headsAfter_append (heads : κ → Option ρ) (xs ys : List (Change κ ρ)) :
    headsAfter heads (xs ++ ys) = headsAfter (headsAfter heads xs) ys := List.foldl_append

theorem legal_append {xs ys : List (Change κ ρ)} :
    Legal group heads (xs ++ ys) ↔
      Legal group heads xs ∧ Legal group (headsAfter heads xs) ys := by
  induction xs generalizing heads with
  | nil =>
    have hnil : Legal group heads [] := trivial
    exact (and_iff_right hnil).symm
  | cons c xs ih =>
    simp only [List.cons_append, Legal, ih, and_assoc]
    rfl

/-- The head of a group is what its last change left. -/
theorem headsAfter_eq_find (log : List (Change κ ρ)) (k : κ) :
    headsAfter (fun _ => none) log k =
      (log.reverse.find? fun c => c.slot = k).bind Change.resulting := by
  induction log using List.reverseRecOn with
  | nil => rfl
  | append_singleton log c ih =>
    rw [headsAfter_append, List.reverse_append, List.reverse_singleton, List.singleton_append,
      List.find?_cons]
    change Function.update (headsAfter _ log) c.slot c.resulting k = _
    by_cases hk : c.slot = k
    · subst hk
      rw [Function.update_self, decide_eq_true rfl]
      rfl
    · rw [Function.update_of_ne fun heq => hk heq.symm, ih, decide_eq_false hk]

/-- Groups that are known stay legal when more become known. -/
theorem Legal.mono {log : List (Change κ ρ)} (h : Legal group heads log)
    (hgroup : ∀ x k, group x = some k → group' x = some k) : Legal group' heads log := by
  induction log generalizing heads with
  | nil => exact trivial
  | cons c log ih =>
    obtain ⟨hc, hlog⟩ := h
    exact ⟨⟨hc.previous, fun x hx => hgroup x _ (hc.removed x hx),
      fun x hx => hgroup x _ (hc.added x hx)⟩, ih hlog⟩

/-- Every head behind a legal log is one of its group. -/
theorem Legal.group_head {log : List (Change κ ρ)} (h : Legal group heads log)
    (hheads : ∀ k x, heads k = some x → group x = some k) :
    ∀ k x, headsAfter heads log k = some x → group x = some k := by
  induction log generalizing heads with
  | nil => exact hheads
  | cons c log ih =>
    obtain ⟨hc, hlog⟩ := h
    refine ih hlog fun k x hx => ?_
    change Function.update heads c.slot c.resulting k = some x at hx
    by_cases hk : k = c.slot
    · subst hk
      rw [Function.update_self] at hx
      exact hc.added x hx
    · rw [Function.update_of_ne hk] at hx
      exact hheads k x hx

/-- What is active behind a change: its new head, and what was active in the other groups. -/
theorem active_apply {c : Change κ ρ} (hc : c.Fits group heads) (x : ρ) :
    Active group (c.apply heads) x ↔
      c.resulting = some x ∨ group x ≠ some c.slot ∧ Active group heads x := by
  unfold Active Change.apply
  constructor
  · rintro ⟨k, hk, hhead⟩
    by_cases hslot : k = c.slot
    · subst hslot
      rw [Function.update_self] at hhead
      exact .inl hhead
    · rw [Function.update_of_ne hslot] at hhead
      refine .inr ⟨fun heq => hslot ?_, k, hk, hhead⟩
      exact Option.some.inj (hk.symm.trans heq)
  · rintro (hx | ⟨hne, k, hk, hhead⟩)
    · exact ⟨c.slot, hc.added x hx, by rw [Function.update_self]; exact hx⟩
    · refine ⟨k, hk, ?_⟩
      rw [Function.update_of_ne fun heq => hne (by rw [hk, heq])]
      exact hhead

omit [DecidableEq κ] in
/-- In the group of a change only its previous head is active. -/
theorem active_previous {c : Change κ ρ} (hc : c.Fits group heads) {x : ρ}
    (hgroup : group x = some c.slot) : Active group heads x ↔ c.previous = some x := by
  constructor
  · rintro ⟨k, hk, hhead⟩
    obtain rfl := Option.some.inj (hk.symm.trans hgroup)
    rw [← hc.previous]
    exact hhead
  · intro hx
    exact ⟨c.slot, hgroup, hc.previous.trans hx⟩

variable [DecidableEq ρ]

omit [DecidableEq κ] in
/-- The removal of a change leaves the other groups. -/
theorem Lists.removed {c : Change κ ρ} (h : Lists group heads p l) (hc : c.Fits group heads) :
    let l' := replay id l ((c.previous.toList.filter p).map fun x => (false, x))
    l'.Nodup ∧ (∀ x, x ∈ l' ↔ (group x ≠ some c.slot ∧ Active group heads x) ∧ p x = true) ∧
      balance l.length ((c.previous.toList.filter p).map fun x => (false, x)) = l'.length := by
  -- an element of the group that is listed is the previous head
  have hother : ∀ x, c.previous ≠ some x → (x ∈ l ↔
      (group x ≠ some c.slot ∧ Active group heads x) ∧ p x = true) := by
    intro x hx
    rw [h.mem]
    constructor
    · rintro ⟨hactive, hp⟩
      exact ⟨⟨fun hg => hx ((active_previous hc hg).1 hactive), hactive⟩, hp⟩
    · rintro ⟨⟨-, hactive⟩, hp⟩
      exact ⟨hactive, hp⟩
  have hnot : ∀ x, c.previous = some x →
      ¬ ((group x ≠ some c.slot ∧ Active group heads x) ∧ p x = true) := by
    rintro x hx ⟨⟨hg, -⟩, -⟩
    exact hg (hc.removed x hx)
  cases hprev : c.previous with
  | none =>
    refine ⟨h.nodup, fun x => hother x ?_, rfl⟩
    rw [hprev]
    exact nofun
  | some y =>
    by_cases hy : p y = true
    · have hmem : y ∈ l := (h.mem y).2 ⟨(active_previous hc (hc.removed y hprev)).2 hprev, hy⟩
      have hedits : ((some y).toList.filter p).map (fun x => (false, x)) = [(false, y)] := by
        simp [hy]
      have hperm : (replay id l [(false, y)]).Perm (l.erase y) := edit_removed h.nodup y
      simp only [hedits]
      refine ⟨hperm.nodup_iff.2 (h.nodup.erase y), fun x => ?_, ?_⟩
      · rw [hperm.mem_iff, h.nodup.mem_erase_iff]
        by_cases hxy : x = y
        · subst hxy
          exact iff_of_false (fun hx => hx.1 rfl) (hnot x hprev)
        · rw [and_iff_right hxy]
          refine hother x fun heq => hxy ?_
          rw [hprev] at heq
          exact (Option.some.inj heq).symm
      · have hlen := hperm.length_eq
        have hpos := List.length_pos_of_mem hmem
        rw [List.length_erase_of_mem hmem] at hlen
        simp only [balance, List.foldl_cons, List.foldl_nil, Bool.false_eq_true, if_false, hlen]
        omega
    · have hedits : ((some y).toList.filter p).map (fun x => (false, x)) = [] := by simp [hy]
      simp only [hedits]
      refine ⟨h.nodup, fun x => ?_, rfl⟩
      by_cases hxy : x = y
      · subst hxy
        exact iff_of_false (fun hx => hy ((h.mem x).1 hx).2) (hnot x hprev)
      · refine hother x fun heq => hxy ?_
        rw [hprev] at heq
        exact (Option.some.inj heq).symm

/-- **One change** keeps the list, and its edits count. -/
theorem Lists.change {c : Change κ ρ} (h : Lists group heads p l) (hc : c.Fits group heads) :
    Lists group (c.apply heads) p (replay id l (c.edits p)) ∧
      balance l.length (c.edits p) = (replay id l (c.edits p)).length := by
  obtain ⟨hnodup, hmem, hbalance⟩ := h.removed hc
  unfold Change.edits
  rw [replay_append, balance_append, hbalance]
  set l' := replay id l ((c.previous.toList.filter p).map fun x => (false, x))
  cases hres : c.resulting with
  | none =>
    refine ⟨⟨hnodup, fun x => ?_⟩, rfl⟩
    have hactive := active_apply hc x
    rw [hres] at hactive
    rw [hactive, or_iff_right nofun]
    exact hmem x
  | some z =>
    by_cases hz : p z = true
    · have hedits : ((some z).toList.filter p).map (fun x => (true, x)) = [(true, z)] := by
        simp [hz]
      have hreplay : replay id l' [(true, z)] = l' ++ [z] := rfl
      simp only [hedits]
      rw [hreplay]
      have hnew : z ∉ l' := fun hin => ((hmem z).1 hin).1.1 (hc.added z hres)
      refine ⟨⟨?_, fun x => ?_⟩, ?_⟩
      · exact List.nodup_append.2 ⟨hnodup, List.nodup_singleton z, fun a ha b hb heq => by
          rw [List.mem_singleton.1 hb] at heq
          exact hnew (heq ▸ ha)⟩
      · rw [List.mem_append, List.mem_singleton, hmem, active_apply hc, hres]
        constructor
        · rintro (⟨hx, hp⟩ | rfl)
          · exact ⟨.inr hx, hp⟩
          · exact ⟨.inl rfl, hz⟩
        · rintro ⟨heq | hx, hp⟩
          · exact .inr (Option.some.inj heq).symm
          · exact .inl ⟨hx, hp⟩
      · simp [balance]
    · have hedits : ((some z).toList.filter p).map (fun x => (true, x)) = [] := by simp [hz]
      simp only [hedits]
      refine ⟨⟨hnodup, fun x => ?_⟩, rfl⟩
      have hreplay : replay id l' [] = l' := rfl
      rw [hreplay, hmem, active_apply hc, hres]
      constructor
      · rintro ⟨hx, hp⟩
        exact ⟨.inr hx, hp⟩
      · rintro ⟨heq | hx, hp⟩
        · rw [Option.some.inj heq] at hz
          exact absurd hp hz
        · exact ⟨hx, hp⟩

/-- **Replaying the edits of a legal log** lists what is active behind it, and counts. -/
theorem Lists.replayed {log : List (Change κ ρ)} (h : Lists group heads p l)
    (hlog : Legal group heads log) :
    Lists group (headsAfter heads log) p (replay id l (log.flatMap (Change.edits · p))) ∧
      balance l.length (log.flatMap (Change.edits · p)) =
        (replay id l (log.flatMap (Change.edits · p))).length := by
  induction log generalizing heads l with
  | nil => exact ⟨h, rfl⟩
  | cons c log ih =>
    obtain ⟨hc, hrest⟩ := hlog
    obtain ⟨hlists, hcount⟩ := h.change hc
    rw [List.flatMap_cons, replay_append, balance_append, hcount]
    exact ih hlists hrest

end ActiveSet
