import ForthDB.Lib.LinkedStacks
import ForthDB.Vm.Workspace

/-!
# What a trial does to the stacks of slots

A trial extends the arenas behind its checkpoint. Seen through a numbering `token`
of keys and a reading `decode` of cells, its records link the stacks of a `StackMap`.

* `Trial token decode frontier w m`: the workspace `w`, with its trial deltas from
  `frontier` on, links exactly the stacks of `m`.
* `define_trial`, `forget_trial`: one record pushes or pops; it fails exactly when an
  arena has no room (`HasRoom`), and then by a panic.
* `accept_trial`, `rollback_eq`: an accepted trial becomes the workspace at rest, a
  rejected one leaves only stale stack cells.
-/

namespace ForthDB

open Workspace

/-- The panic of a full arena. -/
def arenaFull : Stop := .panicked "Phase 1 arena exhausted u32 references"

theorem arenaPush_of_lt {α : Type} {arena : List α} (h : arena.length < noReference) (value : α) :
    arenaPush arena value = .ok (arena ++ [value]) := if_pos h

theorem arenaPush_of_ge {α : Type} {arena : List α} (h : ¬ arena.length < noReference) (value : α) :
    arenaPush arena value = .error arenaFull := if_neg h

/-- The index deltas of one fact. -/
def factIndexes (fact : FactRecord) (record : ℕ) (added : Bool) : List IndexDelta :=
  [⟨.spo, added, fact.subject, fact.predicate, fact.object, record, fact.slot⟩,
    ⟨.pos, added, fact.predicate, fact.object, fact.subject, record, fact.slot⟩,
    ⟨.osp, added, fact.object, fact.subject, fact.predicate, record, fact.slot⟩]

/-- The index deltas of one reference. -/
def referenceIndexes (records : List FactRecord) (reference : Option ℕ) (added : Bool) :
    List IndexDelta :=
  match reference.bind fun index => records[index]?.map fun fact => (index, fact) with
  | some (index, fact) => factIndexes fact index added
  | none => []

/-- How many index deltas a reference costs. -/
def referenceCost (reference : Option ℕ) : ℕ := if reference.isSome then 3 else 0

namespace Workspace

variable {w w' : Workspace}

theorem appendFactIndexes_eq (w : Workspace) (fact : FactRecord) (record : ℕ) (added : Bool) :
    w.appendFactIndexes fact record added =
      if w.indexDeltas.length + 3 ≤ noReference then
        .ok { w with indexDeltas := w.indexDeltas ++ factIndexes fact record added }
      else .error arenaFull := by
  unfold appendFactIndexes
  by_cases h1 : w.indexDeltas.length < noReference
  · rw [arenaPush_of_lt h1]
    simp only [bind, Except.bind]
    by_cases h2 : w.indexDeltas.length + 1 < noReference
    · rw [arenaPush_of_lt (by simpa using h2)]
      simp only
      by_cases h3 : w.indexDeltas.length + 2 < noReference
      · rw [arenaPush_of_lt (by simpa using h3), if_pos (by omega)]
        simp [factIndexes, pure, Except.pure]
      · rw [arenaPush_of_ge (by simpa using h3), if_neg (by omega)]
    · rw [arenaPush_of_ge (by simpa using h2), if_neg (by omega)]
  · rw [arenaPush_of_ge h1, if_neg (by omega)]
    rfl

theorem appendReferenceIndexes_eq (w : Workspace) (hb : w.indexDeltas.length ≤ noReference)
    {reference : Option ℕ} (h : ∀ index, reference = some index → index < w.records.length)
    (added : Bool) :
    w.appendReferenceIndexes reference added =
      if w.indexDeltas.length + referenceCost reference ≤ noReference then
        .ok { w with
          indexDeltas := w.indexDeltas ++ referenceIndexes w.records reference added }
      else .error arenaFull := by
  cases reference with
  | none => simp [appendReferenceIndexes, referenceIndexes, referenceCost, hb]
  | some index =>
    have hi := h index rfl
    unfold appendReferenceIndexes record
    simp only [List.getElem?_eq_getElem hi, bind, Except.bind]
    rw [appendFactIndexes_eq]
    simp [referenceCost, referenceIndexes, hi]

/-- The index deltas of a valid reference. -/
theorem length_referenceIndexes {records : List FactRecord} {reference : Option ℕ}
    (h : ∀ index, reference = some index → index < records.length) (added : Bool) :
    (referenceIndexes records reference added).length = referenceCost reference := by
  cases reference with
  | none => rfl
  | some index =>
    simp [referenceIndexes, referenceCost, List.getElem?_eq_getElem (h index rfl), factIndexes]

/-- The workspace after one more record. -/
def withRecord (w : Workspace) (r : FactRecord) : Workspace :=
  { w with
    records := w.records ++ [r]
    deltas := w.deltas ++ [⟨r.slot, r.previousVisible, r.resultingVisible⟩]
    indexDeltas := w.indexDeltas ++
      (referenceIndexes (w.records ++ [r]) r.previousVisible false ++
        referenceIndexes (w.records ++ [r]) r.resultingVisible true) }

/-- Room for one more record in the three arenas. -/
def HasRoom (w : Workspace) (r : FactRecord) : Prop :=
  w.records.length < noReference ∧ w.deltas.length < noReference ∧
    w.indexDeltas.length + referenceCost r.previousVisible + referenceCost r.resultingVisible ≤
      noReference

instance (w : Workspace) (r : FactRecord) : Decidable (w.HasRoom r) :=
  inferInstanceAs (Decidable (_ ∧ _ ∧ _))

/-- **One record** needs room in the three arenas, and panics without. -/
theorem appendRecord_eq (w : Workspace) (ht : w.trackIndexes = true)
    (hb : w.indexDeltas.length ≤ noReference) (r : FactRecord)
    (hp : ∀ index, r.previousVisible = some index → index < w.records.length)
    (hr : ∀ index, r.resultingVisible = some index → index ≤ w.records.length) :
    w.appendRecord r = if w.HasRoom r then .ok (w.withRecord r) else .error arenaFull := by
  unfold appendRecord
  by_cases h1 : w.records.length < noReference
  swap
  · rw [arenaPush_of_ge h1, if_neg fun h => h1 h.1]
    rfl
  rw [arenaPush_of_lt h1]
  simp only [bind, Except.bind]
  by_cases h2 : w.deltas.length < noReference
  swap
  · rw [arenaPush_of_ge h2, if_neg fun h => h2 h.2.1]
  rw [arenaPush_of_lt h2]
  simp only [appendIndexTransition, ht, if_true, bind, Except.bind]
  have hp' : ∀ index, r.previousVisible = some index → index < (w.records ++ [r]).length := by
    intro index hi
    have := hp index hi
    simp only [List.length_append, List.length_singleton]; omega
  have hr' : ∀ index, r.resultingVisible = some index → index < (w.records ++ [r]).length := by
    intro index hi
    have := hr index hi
    simp only [List.length_append, List.length_singleton]; omega
  rw [appendReferenceIndexes_eq _ (by simpa using hb) hp']
  by_cases h3 : w.indexDeltas.length + referenceCost r.previousVisible ≤ noReference
  swap
  · rw [if_neg h3, if_neg fun h => h3 (le_trans (Nat.le_add_right _ _) h.2.2)]
  rw [if_pos h3]
  simp only
  rw [appendReferenceIndexes_eq _ (by
    rw [List.length_append, length_referenceIndexes hp']; exact h3) hr']
  simp only [List.length_append, length_referenceIndexes hp']
  by_cases h4 : w.indexDeltas.length + referenceCost r.previousVisible +
      referenceCost r.resultingVisible ≤ noReference
  · rw [if_pos h4, if_pos ⟨h1, h2, h4⟩]
    simp [withRecord, List.append_assoc, ht]
  · rw [if_neg h4, if_neg fun h => h4 h.2.2]

/-- The visible head of a token in a trial. -/
def trialHead (w : Workspace) (frontier t : ℕ) : Option ℕ :=
  match (w.deltas.drop frontier).reverse.find? fun delta => delta.slot = t with
  | some delta => delta.resultingVisible
  | none => w.acceptedHeads[t]?.join

theorem resolveTrialHead_eq {t : ℕ} (h : t < w.acceptedHeads.length) (frontier : ℕ) :
    w.resolveTrialHead t frontier = .ok (w.trialHead frontier t) := by
  unfold resolveTrialHead trialHead acceptedHead
  simp only [List.getElem?_eq_getElem h, bind, Except.bind]
  cases (w.deltas.drop frontier).reverse.find? fun delta => delta.slot = t <;> rfl

theorem trialHead_withRecord (r : FactRecord) {frontier : ℕ} (h : frontier ≤ w.deltas.length)
    (t : ℕ) :
    (w.withRecord r).trialHead frontier t =
      if t = r.slot then r.resultingVisible else w.trialHead frontier t := by
  unfold trialHead withRecord
  simp only [List.drop_append_of_le_length h, List.reverse_append, List.reverse_singleton,
    List.singleton_append, List.find?_cons]
  by_cases ht : t = r.slot
  · simp [ht]
  · simp [ht, Ne.symm ht]

/-- At rest the visible heads are the accepted ones. -/
theorem trialHead_rest (w : Workspace) (t : ℕ) :
    w.trialHead w.deltas.length t = w.acceptedHeads[t]?.join := by
  simp [trialHead]

end Workspace

variable {κ φ : Type}

/-- The arena of facts behind the records, as `decode` reads their cells. -/
def recordNode (decode : ℕ → ℕ → ℕ → Option φ) (records : List FactRecord) (i : ℕ) :
    Option (φ × Option ℕ) :=
  records[i]?.bind fun r =>
    (decode r.subject r.predicate r.object).map fun f => (f, r.previousVisible)

variable {decode decode' : ℕ → ℕ → ℕ → Option φ}

theorem recordNode_append {records : List FactRecord} (more : List FactRecord) {i : ℕ}
    {x : φ × Option ℕ} (h : recordNode decode records i = some x) :
    recordNode decode (records ++ more) i = some x := by
  unfold recordNode at h ⊢
  rcases lt_or_ge i records.length with hi | hi
  · rwa [List.getElem?_append_left hi]
  · rw [List.getElem?_eq_none hi] at h; cases h

theorem recordNode_lt {records : List FactRecord} {i : ℕ} {x : φ × Option ℕ}
    (h : recordNode decode records i = some x) : i < records.length := by
  unfold recordNode at h
  by_contra hi
  rw [List.getElem?_eq_none (by omega)] at h
  cases h

theorem recordNode_mono {records : List FactRecord}
    (hd : ∀ s p o f, decode s p o = some f → decode' s p o = some f) {i : ℕ} {x : φ × Option ℕ}
    (h : recordNode decode records i = some x) : recordNode decode' records i = some x := by
  unfold recordNode at h ⊢
  cases hr : records[i]? with
  | none => rw [hr] at h; cases h
  | some r =>
    rw [hr] at h
    simp only [Option.bind_some, Option.map_eq_some_iff] at h ⊢
    obtain ⟨f, hf, hx⟩ := h
    exact ⟨f, hd _ _ _ _ hf, hx⟩

/-- The workspace, with its deltas from `frontier` on as a trial, links the stacks of `m`. -/
structure Trial (token : κ → Option ℕ) (decode : ℕ → ℕ → ℕ → Option φ) (frontier : ℕ)
    (w : Workspace) (m : StackMap κ φ) : Prop where
  linked : Linked (recordNode decode w.records) (fun k => (token k).bind (w.trialHead frontier)) m
  token_lt : ∀ k t, token k = some t → t < w.acceptedHeads.length
  token_inj : ∀ k k' t, token k = some t → token k' = some t → k = k'
  named : ∀ t i, w.trialHead frontier t = some i → ∃ k, token k = some t
  frontier_le : frontier ≤ w.deltas.length
  track : w.trackIndexes = true
  deltas_le : w.deltas.length ≤ w.records.length
  records_le : w.records.length ≤ noReference
  indexes_le : w.indexDeltas.length ≤ noReference

/-- The index deltas that a definition of `k` costs. -/
def pushCost (m : StackMap κ φ) (k : κ) : ℕ := if m.stack k = [] then 3 else 6

/-- The index deltas that a forget of `k` costs. -/
def popCost (m : StackMap κ φ) (k : κ) : ℕ :=
  (if m.stack k = [] then 0 else 3) + if (m.stack k).tail = [] then 0 else 3

/-- Room for one record that costs some index deltas. -/
def Workspace.RoomFor (w : Workspace) (cost : ℕ) : Prop :=
  w.records.length + 1 ≤ noReference ∧ w.indexDeltas.length + cost ≤ noReference

instance (w : Workspace) (cost : ℕ) : Decidable (w.RoomFor cost) :=
  inferInstanceAs (Decidable (_ ∧ _))

/-- `w'` is `w` with some more records, which cost some index deltas. -/
structure Workspace.Grown (w w' : Workspace) (n cost : ℕ) : Prop where
  records : w'.records.length = w.records.length + n
  deltas : w'.deltaCount = w.deltaCount + n
  indexDeltas : w'.indexDeltas.length = w.indexDeltas.length + cost
  heads : w'.acceptedHeads = w.acceptedHeads
  stackPointer : w'.stackPointer = w.stackPointer
  frameBase : w'.frameBase = w.frameBase
  stack : w'.stack.length = w.stack.length

theorem Workspace.Grown.trans {w₁ w₂ w₃ : Workspace} {r r' c c' : ℕ} (h : w₁.Grown w₂ r c)
    (h' : w₂.Grown w₃ r' c') : w₁.Grown w₃ (r + r') (c + c') := by
  refine ⟨?_, ?_, ?_, ?_, ?_, ?_, ?_⟩
  · rw [h'.records, h.records, Nat.add_assoc]
  · rw [h'.deltas, h.deltas, Nat.add_assoc]
  · rw [h'.indexDeltas, h.indexDeltas, Nat.add_assoc]
  · rw [h'.heads, h.heads]
  · rw [h'.stackPointer, h.stackPointer]
  · rw [h'.frameBase, h.frameBase]
  · rw [h'.stack, h.stack]

namespace Trial

variable {token : κ → Option ℕ} {frontier : ℕ} {w : Workspace} {m : StackMap κ φ}

/-- A visible head names a record, and so does its predecessor. -/
theorem head_lt (h : Trial token decode frontier w m) {k : κ} {t i : ℕ} (hk : token k = some t)
    (hi : w.trialHead frontier t = some i) :
    ∃ r f, w.records[i]? = some r ∧ decode r.subject r.predicate r.object = some f ∧
      Chain (recordNode decode w.records) r.previousVisible (m.stack k).tail := by
  have hc := h.linked k
  simp only [hk, Option.bind_some, hi] at hc
  generalize m.stack k = fs at hc
  cases hc with
  | cons hn hc =>
    have hn' := hn
    unfold recordNode at hn'
    cases hr : w.records[i]? with
    | none => rw [hr] at hn'; cases hn'
    | some r =>
      rw [hr] at hn'
      simp only [Option.bind_some, Option.map_eq_some_iff, Prod.mk.injEq] at hn'
      obtain ⟨f, hf, rfl, rfl⟩ := hn'
      exact ⟨r, f, rfl, hf, hc⟩

theorem chain_lt {records : List FactRecord} {ref : Option ℕ} {fs : List φ}
    (h : Chain (recordNode decode records) ref fs) : ∀ i, ref = some i → i < records.length := by
  intro i hi
  cases h with
  | nil => cases hi
  | cons hn _ => cases hi; exact recordNode_lt hn

theorem referenceCost_eq {node : ℕ → Option (φ × Option ℕ)} {ref : Option ℕ} {fs : List φ}
    (h : Chain node ref fs) : referenceCost ref = if fs = [] then 0 else 3 := by
  cases h with
  | nil => rfl
  | cons _ _ => simp [referenceCost]

theorem withRecord_grown {r : FactRecord} {cost : ℕ}
    (hcost : referenceCost r.previousVisible + referenceCost r.resultingVisible = cost)
    (hp : ∀ i, r.previousVisible = some i → i < w.records.length)
    (hr : ∀ i, r.resultingVisible = some i → i < w.records.length + 1) :
    w.Grown (w.withRecord r) 1 cost := by
  have h1 := @Workspace.length_referenceIndexes (w.records ++ [r]) _ (fun i hi => by
    have := hp i hi
    simp only [List.length_append, List.length_singleton]; omega) false
  have h2 := @Workspace.length_referenceIndexes (w.records ++ [r]) _ (fun i hi => by
    have := hr i hi
    simp only [List.length_append, List.length_singleton]; omega) true
  refine ⟨by simp [Workspace.withRecord], ?_, ?_, rfl, rfl, rfl, rfl⟩
  · simp [Workspace.deltaCount, Workspace.withRecord, Nat.add_assoc]
  · simp only [Workspace.withRecord, List.length_append, h1, h2, hcost]

/-- One more record on the token of `k`. -/
theorem withRecord_trial [DecidableEq κ] (h : Trial token decode frontier w m) {k : κ}
    {r : FactRecord} (hk : token k = some r.slot) {m' : StackMap κ φ} {cost : ℕ}
    (hg : w.Grown (w.withRecord r) 1 cost) (hroom : w.RoomFor cost)
    (hl : Linked (recordNode decode (w.records ++ [r]))
      (fun j => (token j).bind ((w.withRecord r).trialHead frontier)) m') :
    Trial token decode frontier (w.withRecord r) m' := by
  have hrec := hg.records
  have hdel : (w.withRecord r).deltas.length = w.deltas.length + 1 := by
    simp [Workspace.withRecord]
  refine ⟨hl, h.token_lt, h.token_inj, ?_, ?_, h.track, ?_, ?_, ?_⟩
  · intro t i hi
    rw [Workspace.trialHead_withRecord r h.frontier_le] at hi
    split at hi
    · rename_i ht; exact ⟨k, by rw [hk, ht]⟩
    · exact h.named t i hi
  · have := h.frontier_le
    omega
  · have := h.deltas_le
    omega
  · have := hroom.1
    omega
  · have := hroom.2
    rw [hg.indexDeltas]; exact this

theorem hasRoom_iff (h : Trial token decode frontier w m) {r : FactRecord} {cost : ℕ}
    (hcost : referenceCost r.previousVisible + referenceCost r.resultingVisible = cost) :
    w.HasRoom r ↔ w.RoomFor cost := by
  have := h.deltas_le
  unfold Workspace.HasRoom Workspace.RoomFor
  omega

/-- The record of a definition. -/
def defined (w : Workspace) (frontier t s p o : ℕ) : FactRecord :=
  ⟨.define, t, s, p, o, w.trialHead frontier t, some w.records.length⟩

/-- **A definition pushes**, or panics for want of room. -/
theorem define_trial [DecidableEq κ] (h : Trial token decode frontier w m) {k : κ} {t : ℕ}
    (hk : token k = some t) {s p o : ℕ} {f : φ} (hd : decode s p o = some f) :
    (w.RoomFor (pushCost m k) ∧
      w.define t s p o frontier = .ok (w.withRecord (defined w frontier t s p o)) ∧
      w.Grown (w.withRecord (defined w frontier t s p o)) 1 (pushCost m k) ∧
      Trial token decode frontier (w.withRecord (defined w frontier t s p o)) (m.push k f)) ∨
    (¬ w.RoomFor (pushCost m k) ∧ w.define t s p o frontier = .error arenaFull) := by
  set r := defined w frontier t s p o with hrdef
  have hc := h.linked k
  simp only [hk, Option.bind_some] at hc
  have hp : ∀ i, r.previousVisible = some i → i < w.records.length := chain_lt hc
  have hr : ∀ i, r.resultingVisible = some i → i < w.records.length + 1 := by
    intro i hi
    have : w.records.length = i := Option.some.inj hi
    omega
  have hcost : referenceCost r.previousVisible + referenceCost r.resultingVisible =
      pushCost m k := by
    have h1 : referenceCost r.previousVisible = if m.stack k = [] then 0 else 3 :=
      referenceCost_eq hc
    have h2 : referenceCost r.resultingVisible = 3 := rfl
    rw [h1, h2]
    unfold pushCost
    split <;> rfl
  have heq : w.define t s p o frontier =
      if w.HasRoom r then .ok (w.withRecord r) else .error arenaFull := by
    unfold Workspace.define
    rw [Workspace.resolveTrialHead_eq (h.token_lt k t hk)]
    exact Workspace.appendRecord_eq w h.track h.indexes_le r hp fun i hi => by
      have := hr i hi; omega
  have hg := withRecord_grown hcost hp hr
  by_cases hroom : w.RoomFor (pushCost m k)
  · refine .inl ⟨hroom, by rw [heq, if_pos ((h.hasRoom_iff hcost).2 hroom)], hg, ?_⟩
    refine h.withRecord_trial (k := k) hk hg hroom ?_
    refine h.linked.push (i := w.records.length) (fun j x hj => recordNode_append _ hj) ?_ ?_ ?_
    · simp only [recordNode, List.getElem?_concat_length, Option.bind_some]
      rw [show decode r.subject r.predicate r.object = some f from hd]
      simp [hk, hrdef, defined]
    · simp only [hk, Option.bind_some]
      rw [Workspace.trialHead_withRecord r h.frontier_le, if_pos (show t = r.slot from rfl)]
      rfl
    · intro k' hne
      cases hk' : token k' with
      | none => rfl
      | some t' =>
        simp only [Option.bind_some]
        rw [Workspace.trialHead_withRecord r h.frontier_le, if_neg]
        rintro rfl
        exact hne (h.token_inj k' k _ hk' hk)
  · exact .inr ⟨hroom, by rw [heq, if_neg fun h' => hroom ((h.hasRoom_iff hcost).1 h')]⟩

/-- The record of a forget. -/
def forgotten (w : Workspace) (frontier t : ℕ) : FactRecord :=
  ⟨.forget, t, 0, 0, 0, w.trialHead frontier t,
    (w.trialHead frontier t).bind fun i => w.records[i]?.bind FactRecord.previousVisible⟩

/-- **A forget pops**, or panics for want of room. -/
theorem forget_trial [DecidableEq κ] (h : Trial token decode frontier w m) {k : κ} {t : ℕ}
    (hk : token k = some t) :
    (w.RoomFor (popCost m k) ∧
      w.forget t frontier = .ok (w.withRecord (forgotten w frontier t)) ∧
      w.Grown (w.withRecord (forgotten w frontier t)) 1 (popCost m k) ∧
      Trial token decode frontier (w.withRecord (forgotten w frontier t)) (m.pop k)) ∨
    (¬ w.RoomFor (popCost m k) ∧ w.forget t frontier = .error arenaFull) := by
  set r := forgotten w frontier t with hrdef
  have hc := h.linked k
  simp only [hk, Option.bind_some] at hc
  -- what the forget reveals is the predecessor in the chain
  have hprev : r.resultingVisible = (w.trialHead frontier t).bind fun i =>
      (recordNode decode w.records i).bind Prod.snd := by
    rw [hrdef]
    unfold forgotten
    simp only
    cases hi : w.trialHead frontier t with
    | none => rfl
    | some i =>
      obtain ⟨q, f, hq, hf, -⟩ := h.head_lt hk hi
      simp [recordNode, hq, hf]
  have hrev : Chain (recordNode decode w.records) r.resultingVisible (m.stack k).tail := by
    rw [hprev]; exact hc.tail
  have hp : ∀ i, r.previousVisible = some i → i < w.records.length := chain_lt hc
  have hr : ∀ i, r.resultingVisible = some i → i < w.records.length + 1 := by
    intro i hi
    have := chain_lt hrev i hi
    omega
  have hcost : referenceCost r.previousVisible + referenceCost r.resultingVisible =
      popCost m k := by
    have h1 : referenceCost r.previousVisible = if m.stack k = [] then 0 else 3 :=
      referenceCost_eq hc
    rw [h1, referenceCost_eq hrev]
    rfl
  have heq : w.forget t frontier =
      if w.HasRoom r then .ok (w.withRecord r) else .error arenaFull := by
    rw [← Workspace.appendRecord_eq w h.track h.indexes_le r hp fun i hi => by
      have := hr i hi; omega]
    unfold Workspace.forget
    rw [Workspace.resolveTrialHead_eq (h.token_lt k t hk)]
    simp only [bind, Except.bind]
    rw [hrdef]
    unfold forgotten Workspace.record
    cases hi : w.trialHead frontier t with
    | none => rfl
    | some i =>
      obtain ⟨q, f, hq, hf, -⟩ := h.head_lt hk hi
      simp [hq, Except.map]
  have hg := withRecord_grown hcost hp hr
  by_cases hroom : w.RoomFor (popCost m k)
  · refine .inl ⟨hroom, by rw [heq, if_pos ((h.hasRoom_iff hcost).2 hroom)], hg, ?_⟩
    refine h.withRecord_trial (k := k) hk hg hroom ?_
    refine h.linked.pop (fun j x hj => recordNode_append _ hj) ?_ ?_
    · simp only [hk, Option.bind_some]
      rw [Workspace.trialHead_withRecord r h.frontier_le, if_pos (show t = r.slot from rfl), hprev]
    · intro k' hne
      cases hk' : token k' with
      | none => rfl
      | some t' =>
        simp only [Option.bind_some]
        rw [Workspace.trialHead_withRecord r h.frontier_le, if_neg]
        rintro rfl
        exact hne (h.token_inj k' k _ hk' hk)
  · exact .inr ⟨hroom, by rw [heq, if_neg fun h' => hroom ((h.hasRoom_iff hcost).1 h')]⟩

end Trial

/-- Publishing deltas: the newest delta of a token decides. -/
theorem foldl_deltas (deltas : List SlotDelta) (heads : List (Option ℕ)) (t : ℕ) :
    ((deltas.foldl (fun heads delta => heads.set delta.slot delta.resultingVisible) heads)[t]?).join =
      if t < heads.length then
        match deltas.reverse.find? fun delta => delta.slot = t with
        | some delta => delta.resultingVisible
        | none => heads[t]?.join
      else none := by
  induction deltas generalizing heads with
  | nil =>
    by_cases ht : t < heads.length
    · simp [ht]
    · simp [ht]
  | cons d ds ih =>
    rw [List.foldl_cons, ih, List.length_set]
    by_cases ht : t < heads.length
    · simp only [if_pos ht, List.reverse_cons, List.find?_append]
      cases ds.reverse.find? fun delta => delta.slot = t with
      | some delta => rfl
      | none =>
        by_cases hd : d.slot = t
        · subst hd; simp [ht]
        · simp [hd, List.getElem?_set_ne hd]
    · simp only [if_neg ht]

theorem length_foldl_deltas (deltas : List SlotDelta) (heads : List (Option ℕ)) :
    (deltas.foldl (fun heads delta => heads.set delta.slot delta.resultingVisible) heads).length =
      heads.length := by
  induction deltas generalizing heads with
  | nil => rfl
  | cons d ds ih => rw [List.foldl_cons, ih, List.length_set]

namespace Workspace

variable (w : Workspace) (c : TrialCheckpoint)

@[simp] theorem accept_deltas : (w.accept c).deltas = w.deltas := rfl

@[simp] theorem accept_records : (w.accept c).records = w.records := rfl

@[simp] theorem accept_nextEntity : (w.accept c).nextEntity = w.nextEntity := rfl

theorem accept_heads_length : (w.accept c).acceptedHeads.length = w.acceptedHeads.length :=
  length_foldl_deltas _ _

/-- Accepting makes the visible heads the accepted ones. -/
theorem accept_head {t : ℕ} (ht : t < w.acceptedHeads.length) :
    (w.accept c).acceptedHeads[t]?.join = w.trialHead c.deltaFrontier t := by
  unfold accept trialHead
  simp only
  rw [foldl_deltas, if_pos ht]

theorem accept_head_ge {t : ℕ} (ht : ¬ t < w.acceptedHeads.length) :
    (w.accept c).acceptedHeads[t]?.join = none := by
  unfold accept
  simp only
  rw [foldl_deltas, if_neg ht]

end Workspace

namespace Trial

variable {token : κ → Option ℕ} {frontier : ℕ} {w : Workspace} {m : StackMap κ φ}

/-- **An accepted trial** is the new workspace at rest. -/
theorem accept_trial {c : TrialCheckpoint} (h : Trial token decode c.deltaFrontier w m) :
    Trial token decode (w.accept c).deltas.length (w.accept c) m := by
  have hhead : ∀ k t, token k = some t → (w.accept c).trialHead (w.accept c).deltas.length t =
      w.trialHead c.deltaFrontier t := by
    intro k t hk
    rw [Workspace.trialHead_rest, Workspace.accept_head w c (h.token_lt k t hk)]
  refine ⟨?_, ?_, h.token_inj, ?_, le_rfl, h.track, h.deltas_le, h.records_le, h.indexes_le⟩
  · intro k
    have hk := h.linked k
    simp only at hk ⊢
    cases ht : token k with
    | none => rw [ht] at hk; exact hk
    | some t =>
      rw [ht] at hk
      simp only [Option.bind_some] at hk ⊢
      rw [hhead k t ht]
      exact hk
  · intro k t hk
    rw [Workspace.accept_heads_length]
    exact h.token_lt k t hk
  · intro t i hi
    rw [Workspace.trialHead_rest] at hi
    by_cases ht : t < w.acceptedHeads.length
    · rw [Workspace.accept_head w c ht] at hi
      exact h.named t i hi
    · rw [Workspace.accept_head_ge w c ht] at hi
      cases hi

/-- Between trials the workspace may take its deltas as accepted. -/
theorem restart (h : Trial token decode w.deltas.length w m) (fb : ℕ) :
    Trial token decode w.deltas.length { w with frameBase := fb } m :=
  ⟨h.linked, h.token_lt, h.token_inj, h.named, le_rfl, h.track, h.deltas_le, h.records_le, h.indexes_le⟩

/-- The active heads are as many as the nonempty stacks. -/
theorem activeSlotCount_eq (h : Trial token decode w.deltas.length w m) :
    w.activeSlotCount = m.size := by
  have hhead : ∀ t, w.trialHead w.deltas.length t = w.acceptedHeads[t]?.join :=
    w.trialHead_rest
  have hcount : w.activeSlotCount = ((Finset.range w.acceptedHeads.length).filter
      fun t => (w.acceptedHeads[t]?.join).isSome).card := by
    unfold Workspace.activeSlotCount
    generalize w.acceptedHeads = heads
    induction heads using List.reverseRecOn with
    | nil => rfl
    | append_singleton hs x ih =>
      rw [List.filter_append, List.length_append, ih, List.length_append, List.length_singleton,
        Finset.range_add_one, Finset.filter_insert, List.getElem?_concat_length]
      have hsame : ((Finset.range hs.length).filter fun t => ((hs ++ [x])[t]?.join).isSome) =
          (Finset.range hs.length).filter fun t => (hs[t]?.join).isSome := by
        refine Finset.filter_congr fun t ht => ?_
        rw [List.getElem?_append_left (Finset.mem_range.1 ht)]
      rw [hsame]
      cases x with
      | none => simp
      | some i => simp
  rw [hcount]
  symm
  have htok : ∀ k ∈ m.active, ∃ t, token k = some t := by
    intro k hk
    have := (h.linked.mem_active k).1 hk
    cases ht : token k with
    | none => rw [ht] at this; exact absurd rfl this
    | some t => exact ⟨t, rfl⟩
  refine Finset.card_bij (fun k hk => (htok k hk).choose) ?_ ?_ ?_
  · intro k hk
    have ht := (htok k hk).choose_spec
    have hne := (h.linked.mem_active k).1 hk
    rw [ht, Option.bind_some, hhead] at hne
    rw [Finset.mem_filter, Finset.mem_range]
    exact ⟨h.token_lt k _ ht, Option.isSome_iff_ne_none.2 hne⟩
  · intro k hk k' hk' heq
    have h1 := (htok k hk).choose_spec
    have h2 := (htok k' hk').choose_spec
    rw [heq] at h1
    exact h.token_inj k k' _ h1 h2
  · intro t ht
    rw [Finset.mem_filter, Option.isSome_iff_exists] at ht
    obtain ⟨-, i, hi⟩ := ht
    rw [← hhead] at hi
    obtain ⟨k, hk⟩ := h.named t i hi
    have hmem : k ∈ m.active := by
      rw [h.linked.mem_active k, hk, Option.bind_some, hi]
      simp
    exact ⟨k, hmem, (Option.some.inj (hk.symm.trans (htok k hmem).choose_spec)).symm⟩

/-- Larger vocabularies keep a workspace at rest; new tokens name empty heads. -/
theorem extend {token' : κ → Option ℕ} {w' : Workspace}
    (h : Trial token decode w.deltas.length w m) (hw : w' = { w with
      acceptedHeads := w'.acceptedHeads })
    (hheads : ∀ t : ℕ, w'.acceptedHeads[t]?.join = w.acceptedHeads[t]?.join)
    (htok : ∀ k t, token k = some t → token' k = some t)
    (hlt : ∀ k t, token' k = some t → t < w'.acceptedHeads.length)
    (hinj : ∀ k k' t, token' k = some t → token' k' = some t → k = k')
    (hd : ∀ s p o f, decode s p o = some f → decode' s p o = some f) :
    Trial token' decode' w'.deltas.length w' m := by
  have hdel : w'.deltas = w.deltas := by rw [hw]
  have hrec : w'.records = w.records := by rw [hw]
  have hhead : ∀ t, w'.trialHead w'.deltas.length t = w.trialHead w.deltas.length t := by
    intro t; rw [Workspace.trialHead_rest, Workspace.trialHead_rest, hheads]
  refine ⟨?_, hlt, hinj, ?_, le_rfl, ?_, ?_, ?_, ?_⟩
  · intro k
    have hk := (h.linked.mono fun i x hx => recordNode_mono hd hx) k
    rw [hrec]
    simp only at hk ⊢
    cases ht : token k with
    | some t =>
      rw [ht] at hk
      rw [htok k t ht, Option.bind_some, hhead]
      exact hk
    | none =>
      rw [ht, Option.bind_none] at hk
      cases ht' : token' k with
      | none => exact hk
      | some t' =>
        rw [Option.bind_some, hhead]
        cases hi : w.trialHead w.deltas.length t' with
        | none => exact hk
        | some i =>
          -- a head of `t'` would have named an older key
          obtain ⟨j, hj⟩ := h.named t' i hi
          have := hinj j k t' (htok j t' hj) ht'
          subst this
          rw [ht] at hj
          cases hj
  · intro t i hi
    rw [hhead] at hi
    obtain ⟨k, hk⟩ := h.named t i hi
    exact ⟨k, htok k t hk⟩
  · rw [hw]; exact h.track
  · rw [hdel, hrec]; exact h.deltas_le
  · rw [hrec]; exact h.records_le
  · rw [hw]; exact h.indexes_le

end Trial

end ForthDB
