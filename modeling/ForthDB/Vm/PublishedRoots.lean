import ForthDB.Vm.References
import ForthDB.Vm.RootAnswers

/-!
# Published roots

* `executeInstruction_tells`: what an instruction writes about the heads it finds.
* `Indexed w frontier`: the slot deltas tell the heads, and the index deltas follow them;
  `Indexed.executeInstruction`, `Indexed.executeInstructions`: every program keeps it.
* `RootedWorkspace.perform`: the actions of a run, and the roots that they publish;
  `Kept.run`: what every run keeps.
* `published_roots_faithful`: **the answers of a published root** are those of its heads, however
  they are read, and stay.
-/

namespace ForthDB

open ActiveSet

namespace Workspace

variable {w w' u : Workspace} {frontier : ℕ}

/-! ## What an instruction writes -/

/-- Other cells and another allocator. -/
structure SameArenas (w w' : Workspace) : Prop where
  records : w'.records = w.records
  deltas : w'.deltas = w.deltas
  indexDeltas : w'.indexDeltas = w.indexDeltas
  heads : w'.acceptedHeads = w.acceptedHeads
  track : w'.trackIndexes = w.trackIndexes

theorem SameArenas.refl (w : Workspace) : SameArenas w w := ⟨rfl, rfl, rfl, rfl, rfl⟩

/-- A record names the head of its slot; it shows itself, or what that head covers. -/
structure Tells (w : Workspace) (frontier : ℕ) (r : FactRecord) : Prop where
  slot : r.slot < w.acceptedHeads.length
  previous : r.previousVisible = w.trialHead frontier r.slot
  resulting : ∀ x, r.resultingVisible = some x → x = w.records.length ∨
    ∃ head covering, w.trialHead frontier r.slot = some head ∧
      w.records[head]? = some covering ∧ covering.previousVisible = some x

theorem push_sameArenas {value : ℕ} (h : w.push value = .ok w') : SameArenas w w' := by
  unfold push at h
  split at h
  · cases h
  · obtain rfl := Except.ok.inj h
    exact ⟨rfl, rfl, rfl, rfl, rfl⟩

theorem define_tells {t s p o : ℕ} (h : w.define t s p o frontier = .ok w') :
    ∃ r, Tells w frontier r ∧ w.appendRecord r = .ok w' := by
  unfold define at h
  simp only [bind, Except.bind] at h
  split at h
  · cases h
  rename_i previous hprevious
  have ht := lt_of_resolveTrialHead hprevious
  rw [resolveTrialHead_eq ht] at hprevious
  obtain rfl := Except.ok.inj hprevious
  exact ⟨_, ⟨ht, rfl, fun x hx => .inl (Option.some.inj hx).symm⟩, h⟩

theorem forget_tells {t : ℕ} (h : w.forget t frontier = .ok w') :
    ∃ r, Tells w frontier r ∧ w.appendRecord r = .ok w' := by
  unfold forget at h
  simp only [bind, Except.bind] at h
  split at h
  · cases h
  rename_i previous hprevious
  have ht := lt_of_resolveTrialHead hprevious
  rw [resolveTrialHead_eq ht] at hprevious
  obtain rfl := Except.ok.inj hprevious
  cases hhead : w.trialHead frontier t with
  | none =>
    rw [hhead] at h
    refine ⟨_, ⟨ht, hhead.symm, fun x hx => ?_⟩, h⟩
    cases hx
  | some head =>
    rw [hhead] at h
    simp only [record] at h
    cases hcovering : w.records[head]? with
    | none =>
      simp only [hcovering, Except.map] at h
      cases h
    | some covering =>
      simp only [hcovering, Except.map] at h
      exact ⟨_, ⟨ht, hhead.symm, fun x hx => .inr ⟨head, covering, hhead, hcovering, hx⟩⟩, h⟩

/-- **One instruction** leaves the arenas, or appends one record that tells the heads. -/
theorem executeInstruction_tells {i : Instruction} (h : w.executeInstruction i frontier = .ok w') :
    SameArenas w w' ∨
      ∃ u r, SameArenas w u ∧ Tells u frontier r ∧ u.appendRecord r = .ok w' := by
  obtain ⟨opcode, argument, immediate⟩ := i
  cases opcode with
  | expectObject =>
    rw [(executeInstruction_appended h).2.2.2 rfl]
    exact .inl (.refl w)
  | allocate =>
    simp only [executeInstruction] at h
    obtain ⟨hr, hd, hi, hh, ht⟩ := push_sameArenas h
    exact .inl ⟨hr, hd, hi, hh, ht⟩
  | allocateDiscard =>
    obtain rfl := Except.ok.inj h
    exact .inl ⟨rfl, rfl, rfl, rfl, rfl⟩
  | loadLocal =>
    simp only [executeInstruction, bind, Except.bind] at h
    split at h
    · cases h
    · exact .inl (push_sameArenas h)
  | storeLocal =>
    simp only [executeInstruction, pop, storeLocal, bind, Except.bind] at h
    split at h
    · cases h
    rename_i hpop
    split at hpop
    · cases hpop
    obtain rfl := Except.ok.inj hpop
    simp only at h
    split at h
    · cases h
    obtain rfl := Except.ok.inj h
    exact .inl ⟨rfl, rfl, rfl, rfl, rfl⟩
  | pushCell => exact .inl (push_sameArenas h)
  | define =>
    rw [executeInstruction_define] at h
    split at h
    · cases h
    · obtain ⟨r, htells, happend⟩ := define_tells h
      exact .inr ⟨{ w with stackPointer := w.stackPointer - 3 }, r, ⟨rfl, rfl, rfl, rfl, rfl⟩, htells,
        happend⟩
  | forget =>
    obtain ⟨r, htells, happend⟩ := forget_tells h
    exact .inr ⟨w, r, .refl w, htells, happend⟩
  | reject => cases h

/-! ## Heads, slot deltas and index deltas -/

/-- The slot deltas tell the heads, and the index deltas follow them. -/
structure Indexed (w : Workspace) (frontier : ℕ) : Prop where
  refs : w.References frontier
  legal : Legal (slotOf w.records) (fun _ => none) (w.deltas.map SlotDelta.change)
  older : ∀ (x : ℕ) (r : FactRecord) (p : ℕ), w.records[x]? = some r →
    r.previousVisible = some p → slotOf w.records p = some r.slot
  indexes : w.indexDeltas = w.deltas.flatMap (SlotDelta.transition w.records)
  heads : ∀ t, w.trialHead frontier t = headsOf w.deltas t
  slots : ∀ d ∈ w.deltas, d.slot < w.acceptedHeads.length

namespace Indexed

theorem congr (h : w.Indexed frontier) (hs : SameArenas w w') : w'.Indexed frontier := by
  obtain ⟨hr, hd, hi, hh, ht⟩ := hs
  refine ⟨h.refs.congr hr hd hh ht hi, ?_, ?_, ?_, fun t => ?_, ?_⟩
  · rw [hr, hd]
    exact h.legal
  · rw [hr]
    exact h.older
  · rw [hi, hd, hr]
    exact h.indexes
  · have hhead := h.heads t
    unfold trialHead at hhead ⊢
    rw [hd, hh]
    exact hhead
  · rw [hd, hh]
    exact h.slots

/-- A head is a record of its slot. -/
theorem slotOf_head (h : w.Indexed frontier) {t x : ℕ} (hx : w.trialHead frontier t = some x) :
    slotOf w.records x = some t := by
  rw [h.heads] at hx
  exact h.legal.group_head (fun _ _ hnone => nomatch hnone) t x hx

/-- **One record** that tells the heads. -/
theorem appendRecord (h : w.Indexed frontier) {r : FactRecord} (htells : w.Tells frontier r)
    (happend : w.appendRecord r = .ok w') : w'.Indexed frontier := by
  have hprevious : ∀ p, r.previousVisible = some p → slotOf w.records p = some r.slot := by
    intro p hp
    rw [htells.previous] at hp
    exact h.slotOf_head hp
  -- what a head covers is a record of the same slot
  have hcovered : ∀ x, r.resultingVisible = some x → x = w.records.length ∨
      slotOf w.records x = some r.slot := by
    intro x hx
    rcases htells.resulting x hx with hnew | ⟨head, covering, hhead, hcovering, hx⟩
    · exact .inl hnew
    · have hslot := h.slotOf_head hhead
      rw [slotOf, hcovering] at hslot
      rw [h.older head covering x hcovering hx]
      exact .inr hslot
  have hlt : ∀ x t, slotOf w.records x = some t → x < w.records.length := by
    intro x t hx
    obtain ⟨fact, hfact, -⟩ := Option.map_eq_some_iff.1 hx
    exact (List.getElem?_eq_some_iff.1 hfact).1
  have hp : ∀ p, r.previousVisible = some p → p < w.records.length :=
    fun p hp => hlt p _ (hprevious p hp)
  have hr : ∀ x, r.resultingVisible = some x → x ≤ w.records.length := by
    intro x hx
    rcases hcovered x hx with hnew | hslot
    · exact hnew.le
    · exact (hlt x _ hslot).le
  rw [appendRecord_eq w h.refs.track h.refs.indexes_le r hp hr] at happend
  split at happend
  swap
  · cases happend
  rename_i hroom
  obtain rfl := Except.ok.inj happend
  have hextends : w.records <+: w.records ++ [r] := List.prefix_append _ _
  have hown : slotOf (w.records ++ [r]) w.records.length = some r.slot := by
    unfold slotOf
    rw [List.getElem?_concat_length]
    rfl
  have hfits : SlotDelta.change ⟨r.slot, r.previousVisible, r.resultingVisible⟩ |>.Fits
      (slotOf (w.records ++ [r])) (headsOf w.deltas) := by
    refine ⟨?_, fun x hx => slotOf_mono hextends (hprevious x hx), fun x hx => ?_⟩
    · rw [← h.heads]
      exact htells.previous.symm
    · rcases hcovered x hx with rfl | hslot
      · exact hown
      · exact slotOf_mono hextends hslot
  have hlegal := h.legal.mono fun x t hx => slotOf_mono hextends hx
  refine ⟨(h.refs.withRecord (n := 0) hroom hp hr).1, ?_, fun x q p hq hqp => ?_, ?_, fun t => ?_,
    fun d hd => ?_⟩
  · change Legal (slotOf (w.records ++ [r])) _ ((w.deltas ++ [_]).map SlotDelta.change)
    rw [List.map_append, legal_append]
    exact ⟨hlegal, hfits, trivial⟩
  · change (w.records ++ [r])[x]? = some q at hq
    change slotOf (w.records ++ [r]) p = some q.slot
    rcases lt_or_ge x w.records.length with hx | hx
    · rw [List.getElem?_append_left hx] at hq
      exact slotOf_mono hextends (h.older x q p hq hqp)
    · rw [List.getElem?_append_right hx] at hq
      obtain rfl : q = r := List.mem_singleton.1 (List.mem_of_getElem? hq)
      exact slotOf_mono hextends (hprevious p hqp)
  · change w.indexDeltas ++ _ = (w.deltas ++ [_]).flatMap (SlotDelta.transition (w.records ++ [r]))
    rw [List.flatMap_append, transitions_mono hextends h.legal, h.indexes]
    simp only [List.flatMap_cons, List.flatMap_nil, List.append_nil]
    rfl
  · rw [trialHead_withRecord r h.refs.frontier_le, h.heads]
    exact (headsOf_append w.deltas ⟨r.slot, r.previousVisible, r.resultingVisible⟩ t).symm
  · rcases List.mem_append.1 hd with hd | hd
    · exact h.slots d hd
    · rw [List.mem_singleton.1 hd]
      exact htells.slot

/-- **One instruction** keeps it. -/
theorem executeInstruction (h : w.Indexed frontier) {i : Instruction}
    (hw : w.executeInstruction i frontier = .ok w') : w'.Indexed frontier := by
  rcases executeInstruction_tells hw with hs | ⟨u, r, hs, htells, happend⟩
  · exact h.congr hs
  · exact (h.congr hs).appendRecord htells happend

/-- **A run** keeps it. -/
theorem run (h : w.Indexed frontier) {is : List Instruction} {outcome : ExecutionOutcome}
    (hw : w.run frontier is = .ok (outcome, w')) : w'.Indexed frontier := by
  induction is generalizing w with
  | nil =>
    cases hw
    exact h
  | cons i is ih =>
    unfold Workspace.run at hw
    split at hw
    · rename_i w₁ hw₁
      exact ih (h.executeInstruction hw₁) hw
    · cases hw
      exact h
    · cases hw

/-- An accepted trial is at rest. -/
theorem accept {c : TrialCheckpoint} (h : w.Indexed c.deltaFrontier) :
    (w.accept c).Indexed (w.accept c).deltas.length := by
  refine ⟨h.refs.accept, h.legal, h.older, h.indexes, fun t => ?_, fun d hd => ?_⟩
  · rw [trialHead_rest]
    by_cases ht : t < w.acceptedHeads.length
    · rw [accept_head w c ht]
      exact h.heads t
    · -- no delta names a slot without a head
      rw [accept_head_ge w c ht, accept_deltas, headsOf_eq_find, List.find?_eq_none.2]
      · rfl
      · intro d hd hslot
        have hlt := h.slots d (List.mem_reverse.1 hd)
        rw [of_decide_eq_true hslot] at hlt
        exact ht hlt
  · rw [accept_heads_length]
    exact h.slots d hd

/-- **A program** keeps it, accepted or rejected. -/
theorem executeInstructions (h : w.Indexed w.deltas.length) {locals : ℕ}
    {is : List Instruction} {outcome : ExecutionOutcome}
    (hw : w.executeInstructions locals is = .ok (outcome, w')) : w'.Indexed w'.deltas.length := by
  cases outcome with
  | rejected e =>
    obtain ⟨hsame, -⟩ := executeInstructions_rejected hw
    rw [hsame]
    exact h.congr ⟨rfl, rfl, rfl, rfl, rfl⟩
  | accepted =>
    obtain ⟨w₁, hrun, rfl⟩ := executeInstructions_accepted hw
    have hframed : (w.framed locals).Indexed w.deltas.length := h.congr ⟨rfl, rfl, rfl, rfl, rfl⟩
    have htrial : w₁.Indexed w.checkpoint.deltaFrontier := hframed.run hrun
    exact htrial.accept

/-- More heads, all of them empty. -/
theorem ensureSlotCount (h : w.Indexed frontier) (slotCount : ℕ) :
    (w.ensureSlotCount slotCount).Indexed frontier := by
  have hrefs := h.refs.ensureSlotCount slotCount
  unfold Workspace.ensureSlotCount at hrefs ⊢
  split
  · rename_i hless
    rw [if_pos hless] at hrefs
    refine ⟨hrefs, h.legal, h.older, h.indexes, fun t => ?_, fun d hd => ?_⟩
    · have hhead := h.heads t
      rw [← hhead]
      unfold trialHead
      have hjoin : (w.acceptedHeads ++
          List.replicate (slotCount - w.acceptedHeads.length) none)[t]?.join =
            w.acceptedHeads[t]?.join := by
        rcases lt_or_ge t w.acceptedHeads.length with ht | ht
        · rw [List.getElem?_append_left ht]
        · rw [List.getElem?_append_right ht, List.getElem?_eq_none ht, List.getElem?_replicate]
          split <;> rfl
      simp only [hjoin]
    · have hlt := h.slots d hd
      rw [List.length_append]
      omega
  · exact h

end Indexed

/-- A new workspace has no head and no delta. -/
theorem indexed_new (nextEntity slotCount stackCapacity : ℕ) :
    (withIndexesFrom nextEntity slotCount stackCapacity).Indexed 0 := by
  refine ⟨references_new _ _ _, trivial, fun x r p hx => (by cases hx), rfl, fun t => ?_,
    fun d hd => (by cases hd)⟩
  have hrest := trialHead_rest (withIndexesFrom nextEntity slotCount stackCapacity) t
  refine hrest.trans ?_
  unfold withIndexesFrom
  rw [List.getElem?_replicate]
  split <;> rfl

/-! ## The arenas only grow -/

/-- The arenas of `w'` begin with those of `w`. -/
structure Extends (w w' : Workspace) : Prop where
  records : w.records <+: w'.records
  deltas : w.deltas <+: w'.deltas
  indexDeltas : w.indexDeltas <+: w'.indexDeltas

theorem Extends.refl (w : Workspace) : Extends w w :=
  ⟨List.prefix_rfl, List.prefix_rfl, List.prefix_rfl⟩

theorem Extends.trans (h : Extends w u) (h' : Extends u w') : Extends w w' :=
  ⟨h.records.trans h'.records, h.deltas.trans h'.deltas, h.indexDeltas.trans h'.indexDeltas⟩

/-- **A program** leaves what was accepted before it, accepted or rejected. -/
theorem executeInstructions_extends {locals : ℕ} {is : List Instruction}
    {outcome : ExecutionOutcome} (h : w.executeInstructions locals is = .ok (outcome, w')) :
    Extends w w' := by
  cases outcome with
  | rejected e =>
    obtain ⟨hsame, -⟩ := executeInstructions_rejected h
    rw [hsame]
    exact ⟨List.prefix_rfl, List.prefix_rfl, List.prefix_rfl⟩
  | accepted =>
    obtain ⟨w₁, hrun, rfl⟩ := executeInstructions_accepted h
    have happended := run_appended hrun
    exact ⟨happended.records, happended.deltas, happended.indexDeltas⟩

/-- The frontiers of a root that a workspace publishes. -/
structure Publisher (w : Workspace) (root : WorldRoot) : Prop where
  indexed : w.Indexed w.deltas.length
  slots : root.slotDeltaFrontier = w.deltas.length
  indexes : root.indexDeltaFrontier = w.indexDeltas.length

theorem activeUpTo_of_extended {α : Type} {as bs : List α} (h : as <+: bs) :
    activeUpTo bs as.length = .ok as := by
  unfold activeUpTo
  rw [if_pos h.length_le, ← List.prefix_iff_eq_take.1 h]

/-- Every later workspace has the index deltas of a root. -/
theorem Publisher.activeIndexes {root : WorldRoot} (h : w.Publisher root) (hx : Extends w w') :
    activeUpTo w'.indexDeltas root.indexDeltaFrontier = .ok w.indexDeltas := by
  rw [h.indexes]
  exact activeUpTo_of_extended hx.indexDeltas

/-- What a root shows of its publisher it shows of every later workspace. -/
theorem Publisher.rooted {root : WorldRoot} (h : w.Publisher root) (hx : Extends w w') :
    Rooted w' root w.deltas := by
  refine ⟨?_, ?_, h.indexed.legal.mono fun x t ht => slotOf_mono hx.records ht⟩
  · rw [h.slots]
    exact activeUpTo_of_extended hx.deltas
  · rw [transitions_mono hx.records h.indexed.legal, ← h.indexed.indexes]
    exact h.activeIndexes hx

/-- So they have the same compact base of it. -/
theorem Publisher.compactBase_eq {root : WorldRoot} (h : w.Publisher root) (hx : Extends w w') :
    w'.compactBase root = w.compactBase root := by
  unfold compactBase
  rw [h.activeIndexes hx, h.activeIndexes (.refl w)]

/-- And the same tail up to it. -/
theorem Publisher.layeredSnapshot_eq {root : WorldRoot} (h : w.Publisher root)
    (hx : Extends w w') (base : CompactBase) :
    w'.layeredSnapshot base root = w.layeredSnapshot base root := by
  unfold layeredSnapshot
  rw [h.activeIndexes hx, h.activeIndexes (.refl w)]

end Workspace

namespace Workspace

/-- `resolve_object`: an `error` is a panic. -/
def resolveObject (w : Workspace) (slot : ℕ) : Except String (Option ℕ) :=
  match w.acceptedHeads[slot]? with
  | some (some head) => (w.recordAt head).map fun record => some record.object
  | _ => .ok none

end Workspace

/-! ## Runs -/

/-- What is done to a workspace. -/
inductive RootAction
  | execute (program : IntentProgram)
  | publishEpoch
  | ensureSlotCount (slotCount : ℕ)

/-- The roots of a run, each with the workspace that publishes it. -/
abbrev History : Type := List (WorldRoot × Workspace)

namespace RootedWorkspace

/-- A workspace that is created with indexes. -/
def withIndexesFrom (nextEntity slotCount stackCapacity : ℕ) : RootedWorkspace where
  workspace := .withIndexesFrom nextEntity slotCount stackCapacity
  roots := []
  lastRoot := none
  version := 0

/-- One action, and what it publishes: an `error` is a panic. -/
def perform (s : RootedWorkspace × History) :
    RootAction → Except String (RootedWorkspace × History)
  | .execute program => (s.1.execute program).map fun (_, r) => (r, s.2)
  | .publishEpoch => s.1.publishEpoch.map fun (root, r) =>
    (r, s.2 ++ root.toList.map fun root => (root, s.1.workspace))
  | .ensureSlotCount slotCount =>
    .ok ({ s.1 with workspace := s.1.workspace.ensureSlotCount slotCount }, s.2)

end RootedWorkspace

/-- What holds along a run. -/
structure Kept (r : RootedWorkspace) (history : History) : Prop where
  indexed : r.workspace.Indexed r.workspace.deltas.length
  publishers : ∀ e ∈ history, e.2.Publisher e.1 ∧ e.2.Extends r.workspace
  ordered : history.Pairwise fun e e' => e.2.Extends e'.2
  roots : history.map Prod.fst = r.roots

/-- Publishing appends a root of the frontiers. -/
theorem RootedWorkspace.publishEpoch_cases {r r' : RootedWorkspace} {root? : Option WorldRoot}
    (h : r.publishEpoch = .ok (root?, r')) :
    r'.workspace = r.workspace ∧ r'.roots = r.roots ++ root?.toList ∧
      ∀ root, root? = some root → root.slotDeltaFrontier = r.workspace.deltas.length ∧
        root.indexDeltaFrontier = r.workspace.indexDeltas.length := by
  unfold RootedWorkspace.publishEpoch at h
  simp only [bind, Except.bind] at h
  split at h
  · cases h
  split at h
  · cases h
    exact ⟨rfl, (List.append_nil _).symm, nofun⟩
  · split at h
    · cases h
      refine ⟨rfl, rfl, fun root hroot => ?_⟩
      obtain rfl := Option.some.inj hroot
      exact ⟨rfl, rfl⟩
    · cases h

namespace Kept

variable {r r' : RootedWorkspace} {history : History}

/-- **A program**, accepted or rejected. -/
theorem execute (h : Kept r history) {program : IntentProgram} {outcome : ExecutionOutcome}
    (hx : r.execute program = .ok (outcome, r')) : Kept r' history := by
  unfold RootedWorkspace.execute at hx
  cases hw : r.workspace.execute program with
  | error message =>
    rw [hw] at hx
    cases hx
  | ok p =>
    obtain ⟨outcome', w'⟩ := p
    rw [hw] at hx
    cases hx
    have hextends := Workspace.executeInstructions_extends hw
    refine ⟨h.indexed.executeInstructions hw, fun e he => ?_, h.ordered, h.roots⟩
    obtain ⟨hpublisher, hbefore⟩ := h.publishers e he
    exact ⟨hpublisher, hbefore.trans hextends⟩

/-- **A publication**, of a root or of none. -/
theorem publishEpoch (h : Kept r history) {root? : Option WorldRoot}
    (hp : r.publishEpoch = .ok (root?, r')) :
    Kept r' (history ++ root?.toList.map fun root => (root, r.workspace)) := by
  obtain ⟨hsame, hroots, hfrontiers⟩ := RootedWorkspace.publishEpoch_cases hp
  have hnew : ∀ e ∈ root?.toList.map fun root => (root, r.workspace),
      e.2 = r.workspace ∧ root? = some e.1 := by
    intro e he
    obtain ⟨root, hroot, rfl⟩ := List.mem_map.1 he
    exact ⟨rfl, Option.mem_toList.1 hroot⟩
  refine ⟨?_, fun e he => ?_, ?_, ?_⟩
  · rw [hsame]
    exact h.indexed
  · rw [hsame]
    rcases List.mem_append.1 he with he | he
    · exact h.publishers e he
    · obtain ⟨hw, hroot⟩ := hnew e he
      obtain ⟨hslots, hindexes⟩ := hfrontiers e.1 hroot
      rw [hw]
      exact ⟨⟨h.indexed, hslots, hindexes⟩, .refl _⟩
  · refine List.pairwise_append.2 ⟨h.ordered, ?_, fun e he e' he' => ?_⟩
    · cases root? with
      | none => exact .nil
      | some root => exact List.pairwise_singleton _ _
    · rw [(hnew e' he').1]
      exact (h.publishers e he).2
  · rw [List.map_append, h.roots, hroots, List.map_map]
    exact congrArg _ (List.map_id _)

/-- **More slots.** -/
theorem ensureSlotCount (h : Kept r history) (slotCount : ℕ) :
    Kept { r with workspace := r.workspace.ensureSlotCount slotCount } history := by
  have hgrown : r.workspace.Extends (r.workspace.ensureSlotCount slotCount) ∧
      (r.workspace.ensureSlotCount slotCount).deltas = r.workspace.deltas := by
    unfold Workspace.ensureSlotCount
    split
    · exact ⟨⟨List.prefix_rfl, List.prefix_rfl, List.prefix_rfl⟩, rfl⟩
    · exact ⟨.refl _, rfl⟩
  obtain ⟨hextends, hdeltas⟩ := hgrown
  refine ⟨?_, fun e he => ?_, h.ordered, h.roots⟩
  · simp only [hdeltas]
    exact h.indexed.ensureSlotCount slotCount
  · obtain ⟨hpublisher, hbefore⟩ := h.publishers e he
    exact ⟨hpublisher, hbefore.trans hextends⟩

/-- **Every run** keeps it. -/
theorem run {s s' : RootedWorkspace × History} (h : Kept s.1 s.2) {actions : List RootAction}
    (hrun : actions.foldlM RootedWorkspace.perform s = .ok s') : Kept s'.1 s'.2 := by
  induction actions generalizing s with
  | nil =>
    cases hrun
    exact h
  | cons action actions ih =>
    rw [List.foldlM_cons] at hrun
    cases hstep : RootedWorkspace.perform s action with
    | error message =>
      rw [hstep] at hrun
      cases hrun
    | ok s₁ =>
      rw [hstep] at hrun
      refine ih ?_ hrun
      cases action with
      | execute program =>
        simp only [RootedWorkspace.perform] at hstep
        cases hx : s.1.execute program with
        | error message =>
          rw [hx] at hstep
          cases hstep
        | ok p =>
          rw [hx] at hstep
          obtain rfl := Except.ok.inj hstep
          exact h.execute hx
      | publishEpoch =>
        simp only [RootedWorkspace.perform] at hstep
        cases hp : s.1.publishEpoch with
        | error message =>
          rw [hp] at hstep
          cases hstep
        | ok p =>
          rw [hp] at hstep
          obtain rfl := Except.ok.inj hstep
          exact h.publishEpoch hp
      | ensureSlotCount slotCount =>
        obtain rfl := Except.ok.inj hstep
        exact h.ensureSlotCount slotCount

/-- A workspace that has published nothing. -/
theorem created (nextEntity slotCount stackCapacity : ℕ) :
    Kept (.withIndexesFrom nextEntity slotCount stackCapacity) [] :=
  ⟨Workspace.indexed_new _ _ _, nofun, .nil, rfl⟩

end Kept

/-! ## What a published root answers -/

section Published

variable {r : RootedWorkspace} {history : History} {i j : ℕ} {r₁ r₂ : WorldRoot}
  {w₁ w₂ : Workspace}

/-- A later publisher has the deltas of an earlier one. -/
theorem Kept.extends (h : Kept r history) (hij : i ≤ j) (hi : history[i]? = some (r₁, w₁))
    (hj : history[j]? = some (r₂, w₂)) : w₁.Extends w₂ := by
  rcases hij.eq_or_lt with rfl | hlt
  · rw [hi] at hj
    obtain ⟨-, rfl⟩ := Prod.mk.inj (Option.some.inj hj)
    exact .refl _
  · obtain ⟨hilt, hi⟩ := List.getElem?_eq_some_iff.1 hi
    obtain ⟨hjlt, hj⟩ := List.getElem?_eq_some_iff.1 hj
    have hordered := List.pairwise_iff_getElem.1 h.ordered i j hilt hjlt hlt
    rw [hi, hj] at hordered
    exact hordered

/-- The heads of a publisher are those of its deltas. -/
theorem Workspace.Publisher.head (h : w₁.Publisher r₁) (t : ℕ) :
    w₁.acceptedHeads[t]?.join = headsOf w₁.deltas t := by
  rw [← h.indexed.heads, Workspace.trialHead_rest]

/-- The object of a slot at a root is that of its head when the root was published. -/
theorem Workspace.Publisher.resolveObjectAt {w : Workspace} (h : w₁.Publisher r₁)
    (hx : w₁.Extends w) (t : ℕ) :
    w.resolveObjectAt r₁ t = w₁.resolveObject t ∧ ∃ object, w₁.resolveObject t = .ok object := by
  have hresolve := (h.rooted hx).resolveObjectAt t
  rw [← h.head] at hresolve
  rw [hresolve]
  unfold Workspace.resolveObject
  cases hhead : w₁.acceptedHeads[t]? with
  | none => exact ⟨rfl, _, rfl⟩
  | some head =>
    cases head with
    | none => exact ⟨rfl, _, rfl⟩
    | some x =>
      -- the head is a record of the publisher, and stays where it is
      have hslot : slotOf w₁.records x = some t := by
        refine h.indexed.slotOf_head ?_
        rw [Workspace.trialHead_rest, hhead]
        rfl
      obtain ⟨fact, hfact, -⟩ := Option.map_eq_some_iff.1 hslot
      unfold Workspace.recordAt
      simp only [Option.join_some, hfact, getElem?_of_extended hx.records hfact]
      exact ⟨trivial, _, rfl⟩

/-- **Queries of published roots are faithful, and the roots are immutable.** In every run, with
the roots `r₁` and `r₂` published by the workspaces `w₁` and `w₂` on the way: the index deltas of
`r₂`, and every compact base of `r₁` with the tail up to `r₂`, give the slots of the heads of `w₂`
that the pattern asks for, as they gave when `r₂` was published. -/
theorem published_roots_faithful {nextEntity slotCount stackCapacity : ℕ}
    {actions : List RootAction}
    (hrun : actions.foldlM RootedWorkspace.perform
      (.withIndexesFrom nextEntity slotCount stackCapacity, []) = .ok (r, history))
    (hij : i ≤ j) (hi : history[i]? = some (r₁, w₁)) (hj : history[j]? = some (r₂, w₂))
    (pattern : QueryPattern) :
    ∃ base snapshot slots,
      (w₁.compactBase r₁ = .ok base ∧ r.workspace.compactBase r₁ = .ok base) ∧
      (w₂.layeredSnapshot base r₂ = .ok snapshot ∧
        r.workspace.layeredSnapshot base r₂ = .ok snapshot) ∧
      (snapshot.querySlots pattern = slots ∧ snapshot.queryCount pattern = .ok slots.length) ∧
      (w₂.querySlots r₂ pattern = .ok slots ∧ r.workspace.querySlots r₂ pattern = .ok slots) ∧
      (slots.Pairwise (· < ·) ∧ ∀ t, t ∈ slots ↔ ∃ head fact,
        w₂.acceptedHeads[t]? = some (some head) ∧ w₂.records[head]? = some fact ∧
          pattern.Holds fact) ∧
      ∀ t, r.workspace.resolveObjectAt r₂ t = w₂.resolveObject t ∧
        w₂.resolveObjectAt r₂ t = w₂.resolveObject t ∧
        ∃ object, w₂.resolveObject t = .ok object := by
  have hkept : Kept r history := (Kept.created nextEntity slotCount stackCapacity).run hrun
  obtain ⟨hpub₁, hext₁⟩ := hkept.publishers _ (List.mem_of_getElem? hi)
  obtain ⟨hpub₂, hext₂⟩ := hkept.publishers _ (List.mem_of_getElem? hj)
  have hbetween := hkept.extends hij hi hj
  -- both ways to read the slots, in the last workspace
  have hrooted₁ : Rooted r.workspace r₁ w₁.deltas := hpub₁.rooted hext₁
  have hrooted₂ : Rooted r.workspace r₂ w₂.deltas := hpub₂.rooted hext₂
  obtain ⟨base, -, hbase, -⟩ := hrooted₁.compactBase
  obtain ⟨more, hmore⟩ := hbetween.deltas
  rw [← hmore] at hrooted₂
  obtain ⟨snapshot, slots, hsnapshot, hslots, hquery, hcount⟩ := hrooted₁.layered hrooted₂ hbase pattern
  obtain ⟨slots', hslots', hquery'⟩ := hrooted₂.querySlots pattern
  obtain rfl := hslots.unique hslots'
  -- and when the root was published
  obtain ⟨slots', hslots₂, hquery₂⟩ := (hpub₂.rooted (.refl w₂)).querySlots pattern
  rw [hmore] at hslots
  obtain rfl := hslots.unique (hslots₂.mono hext₂.records hpub₂.indexed.legal)
  have hbase₁ := hpub₁.compactBase_eq hext₁
  have hsnapshot₂ := hpub₂.layeredSnapshot_eq hext₂ base
  refine ⟨base, snapshot, slots, ⟨hbase₁ ▸ hbase, hbase⟩, ⟨hsnapshot₂ ▸ hsnapshot, hsnapshot⟩,
    ⟨hquery, hcount⟩, ⟨hquery₂, hquery'⟩, ⟨hslots.sorted, fun t => ?_⟩, fun t => ?_⟩
  · rw [hslots₂.mem, ← hpub₂.head]
    constructor
    · rintro ⟨x, fact, hhead, hfact, hholds⟩
      exact ⟨x, fact, Option.join_eq_some_iff.1 hhead, hfact, hholds⟩
    · rintro ⟨x, fact, hhead, hfact, hholds⟩
      exact ⟨x, fact, Option.join_eq_some_iff.2 hhead, hfact, hholds⟩
  · obtain ⟨hlater, hobject⟩ := hpub₂.resolveObjectAt hext₂ t
    exact ⟨hlater, (hpub₂.resolveObjectAt (.refl w₂) t).1, hobject⟩

/-- Between two roots a fact is forgotten, one is defined, and a program is rejected; behind them
the forgotten slot is defined again. -/
theorem published_roots_faithful_later :
    ∃ (r : RootedWorkspace) (r₁ r₂ : WorldRoot) (w₁ w₂ : Workspace),
      [RootAction.execute ⟨0, [.push 7, .push 8, .push 9, .define 0]⟩, .publishEpoch,
        .execute ⟨0, [.push 5, .push 8, .push 9, .define 1, .forget 0]⟩,
        .execute ⟨0, [.push 5, .push 8, .push 6, .define 0, .reject]⟩, .publishEpoch,
        .execute ⟨0, [.push 4, .push 8, .push 9, .define 0]⟩].foldlM RootedWorkspace.perform
          (.withIndexesFrom 1 2 8, []) = .ok (r, [(r₁, w₁), (r₂, w₂)]) ∧
      ∃ base snapshot, r.workspace.compactBase r₁ = .ok base ∧
        r.workspace.layeredSnapshot base r₂ = .ok snapshot ∧
        snapshot.querySlots (.predicate 8) = [1] ∧ snapshot.queryCount (.predicate 8) = .ok 1 := by
  have hrun : ([RootAction.execute ⟨0, [.push 7, .push 8, .push 9, .define 0]⟩, .publishEpoch,
        .execute ⟨0, [.push 5, .push 8, .push 9, .define 1, .forget 0]⟩,
        .execute ⟨0, [.push 5, .push 8, .push 6, .define 0, .reject]⟩, .publishEpoch,
        .execute ⟨0, [.push 4, .push 8, .push 9, .define 0]⟩].foldlM RootedWorkspace.perform
          (.withIndexesFrom 1 2 8, [])).map (fun s =>
            s.2.map fun root => s.1.workspace.querySlots root.1 (.predicate 8)) =
      .ok [.ok [0], .ok [1]] := by
    decide +kernel
  revert hrun
  generalize hperform : List.foldlM RootedWorkspace.perform _ _ = result
  intro hrun
  obtain error | ⟨r, roots⟩ := result
  · cases hrun
  have hslots := Except.ok.inj hrun
  have htwo := congrArg List.length hslots
  obtain _ | ⟨⟨r₁, w₁⟩, _ | ⟨⟨r₂, w₂⟩, _ | ⟨root, roots⟩⟩⟩ := roots
  · cases htwo
  · cases htwo
  · obtain ⟨base, snapshot, slots, ⟨-, hbase⟩, ⟨-, hsnapshot⟩, ⟨hquery, hcount⟩, ⟨-, hat⟩, -⟩ :=
      published_roots_faithful hperform (Nat.zero_le 1) rfl rfl (.predicate 8)
    obtain rfl := Except.ok.inj
      (hat.symm.trans (List.cons.inj (List.cons.inj hslots).2).1)
    exact ⟨r, r₁, r₂, w₁, w₂, rfl, base, snapshot, hbase, hsnapshot, hquery, hcount⟩
  · cases htwo

end Published

end ForthDB
