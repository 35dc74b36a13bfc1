import ForthDB.Queue.TotalEpochs

/-!
# Heads that nobody names

A transaction that is refused leaves empty heads for the slots that it named. An epoch goes on
the same with them, as long as every known slot has a head of its own.

* `Workspace.padded`: a workspace with more empty heads. `executeInstructions_padded`: a
  program that names heads below them runs the same.
* `Padded m m'`: a materializer and its padded copy. `compileOperations_padded`,
  `operations_padded`: they compile alike.
* `intents_padded`: **the loop decides alike** with and without the padding.
-/

namespace ForthDB

namespace Workspace

/-- The workspace with more heads, all of them empty. -/
def padded (w : Workspace) (k : ℕ) : Workspace :=
  { w with acceptedHeads := w.acceptedHeads ++ List.replicate k none }

variable {w w' : Workspace} {k n t frontier : ℕ}

theorem arenaBlind_padded (k : ℕ) : ArenaBlind fun w => w.padded k :=
  ⟨fun _ => rfl, fun _ => rfl, fun _ => rfl, fun _ => rfl, fun _ _ _ _ => rfl⟩

/-- More slots of a padded workspace. -/
theorem ensureSlotCount_padded (w : Workspace) (k n : ℕ) :
    ∃ k', (w.padded k).ensureSlotCount n = (w.ensureSlotCount n).padded k' := by
  have hlen : (w.padded k).acceptedHeads.length = w.acceptedHeads.length + k := by
    simp [padded]
  unfold ensureSlotCount
  rw [hlen]
  by_cases hn : w.acceptedHeads.length < n
  · rw [if_pos hn]
    by_cases hk : w.acceptedHeads.length + k < n
    · rw [if_pos hk]
      refine ⟨0, ?_⟩
      unfold padded
      have hsum : n - w.acceptedHeads.length = k + (n - (w.acceptedHeads.length + k)) := by omega
      simp only [List.append_assoc, List.replicate_append_replicate, hsum, Nat.add_zero]
    · rw [if_neg hk]
      refine ⟨k - (n - w.acceptedHeads.length), ?_⟩
      unfold padded
      have hsum : k = n - w.acceptedHeads.length + (k - (n - w.acceptedHeads.length)) := by omega
      simp only [List.append_assoc, List.replicate_append_replicate, ← hsum]
  · rw [if_neg hn, if_neg (by omega)]
    exact ⟨k, rfl⟩

/-- More slots are padding. -/
theorem ensureSlotCount_pads (w : Workspace) (n : ℕ) : ∃ k, w.ensureSlotCount n = w.padded k := by
  unfold ensureSlotCount
  split
  · exact ⟨_, rfl⟩
  · refine ⟨0, ?_⟩
    unfold padded
    rw [List.replicate_zero, List.append_nil]

theorem padded_padded (w : Workspace) (k k' : ℕ) : (w.padded k).padded k' = w.padded (k + k') := by
  unfold padded
  simp only [List.append_assoc, List.replicate_append_replicate]

theorem padded_zero (w : Workspace) : w.padded 0 = w := by
  unfold padded
  rw [List.replicate_zero, List.append_nil]

/-- Whether the argument of an instruction is a slot. -/
def namesSlot (i : Instruction) : Bool :=
  match i.opcode with
  | .expectObject => i.argument ≠ Instruction.worldArgument
  | .define | .forget => true
  | _ => false

/-- The slots that a program names lie below a bound. -/
def NamesBelow (n : ℕ) (is : List Instruction) : Prop :=
  ∀ i ∈ is, namesSlot i = true → i.argument < n

theorem NamesBelow.mono {is : List Instruction} {n' : ℕ} (h : NamesBelow n is) (hn : n ≤ n') :
    NamesBelow n' is := fun i hi hs => (h i hi hs).trans_le hn

theorem NamesBelow.append {is js : List Instruction} (h : NamesBelow n is)
    (h' : NamesBelow n js) : NamesBelow n (is ++ js) := by
  intro i hi hs
  rcases List.mem_append.1 hi with hi | hi
  · exact h i hi hs
  · exact h' i hi hs

theorem resolveTrialHead_padded (ht : t < w.acceptedHeads.length) :
    (w.padded k).resolveTrialHead t frontier = w.resolveTrialHead t frontier := by
  unfold resolveTrialHead acceptedHead padded
  rw [List.getElem?_append_left ht]

/-- **One instruction** of a padded workspace. -/
theorem executeInstruction_padded {i : Instruction}
    (hi : namesSlot i = true → i.argument < w.acceptedHeads.length) :
    (w.padded k).executeInstruction i frontier =
      (w.executeInstruction i frontier).map fun w' => w'.padded k := by
  have hpush : ∀ (w : Workspace) (value : ℕ),
      (w.padded k).push value = (w.push value).map fun w' => w'.padded k := by
    intro w value
    unfold push padded
    simp only
    split <;> rfl
  obtain ⟨opcode, argument, immediate⟩ := i
  cases opcode with
  | expectObject =>
    simp only [executeInstruction]
    by_cases hworld : argument = Instruction.worldArgument
    · rw [if_pos hworld, if_pos hworld]
      have hhash : (w.padded k).semanticHash = w.semanticHash := rfl
      rw [hhash]
      split <;> rfl
    · rw [if_neg hworld, if_neg hworld]
      have ht : argument < w.acceptedHeads.length := hi (by simp [namesSlot, hworld])
      unfold resolveTrialObject
      rw [resolveTrialHead_padded ht]
      have hrecord : ∀ index, (w.padded k).record index = w.record index := fun _ => rfl
      simp only [hrecord, bind, Except.bind]
      cases w.resolveTrialHead argument frontier with
      | error stop => rfl
      | ok head =>
        cases head with
        | none => rfl
        | some index =>
          simp only
          cases w.record index with
          | error stop => rfl
          | ok r =>
            simp only [Except.map]
            split <;> rfl
  | allocate => exact hpush { w with nextEntity := w.nextEntity + 1 } w.nextEntity
  | allocateDiscard => rfl
  | loadLocal =>
    simp only [executeInstruction, bind, Except.bind]
    have hload : (w.padded k).loadLocal argument = w.loadLocal argument := rfl
    rw [hload]
    cases w.loadLocal argument with
    | error stop => rfl
    | ok value => exact hpush w value
  | storeLocal =>
    simp only [executeInstruction, pop, storeLocal, bind, Except.bind, padded]
    by_cases hempty : w.stackPointer ≤ w.frameBase
    · simp only [hempty, ↓reduceIte]
      rfl
    · simp only [hempty, ↓reduceIte]
      split <;> rfl
  | pushCell => exact hpush w immediate
  | define =>
    have ht : argument < w.acceptedHeads.length := hi rfl
    rw [executeInstruction_define, executeInstruction_define]
    by_cases hunder : w.stackPointer < w.frameBase + 3
    · rw [if_pos hunder, if_pos (show (w.padded k).stackPointer < (w.padded k).frameBase + 3 from hunder)]
      rfl
    · rw [if_neg hunder, if_neg (show ¬ (w.padded k).stackPointer < (w.padded k).frameBase + 3 from hunder)]
      exact (arenaBlind_padded k).define (w := { w with stackPointer := w.stackPointer - 3 })
        (resolveTrialHead_padded (w := { w with stackPointer := w.stackPointer - 3 }) ht)
  | forget => exact (arenaBlind_padded k).forget (resolveTrialHead_padded (hi rfl))
  | reject => rfl

/-- **A run** of a padded workspace. -/
theorem run_padded {is : List Instruction} (hi : NamesBelow w.acceptedHeads.length is) :
    (w.padded k).run frontier is =
      (w.run frontier is).map fun (outcome, w') => (outcome, w'.padded k) := by
  induction is generalizing w with
  | nil => rfl
  | cons i is ih =>
    unfold run
    rw [executeInstruction_padded (hi i List.mem_cons_self)]
    cases hw : w.executeInstruction i frontier with
    | error stop => cases stop <;> rfl
    | ok w₁ =>
      have hheads := (executeInstruction_appended hw).1.heads
      refine ih fun j hj hs => ?_
      rw [hheads]
      exact hi j (List.mem_cons_of_mem _ hj) hs

theorem appendRecord_deltas {r : FactRecord} (h : w.appendRecord r = .ok w') :
    w'.deltas = w.deltas ++ [⟨r.slot, r.previousVisible, r.resultingVisible⟩] := by
  have hreference : ∀ {u u' : Workspace} {reference : Option ℕ} {added : Bool},
      u.appendReferenceIndexes reference added = .ok u' → u'.deltas = u.deltas := by
    intro u u' reference added hu
    unfold appendReferenceIndexes at hu
    cases reference with
    | none =>
      cases hu
      rfl
    | some index =>
      simp only [bind, Except.bind] at hu
      split at hu
      · cases hu
      rw [appendFactIndexes_eq] at hu
      split at hu
      · cases hu
        rfl
      · cases hu
  unfold appendRecord at h
  simp only [bind, Except.bind] at h
  split at h
  · cases h
  split at h
  · cases h
  rename_i hdeltas
  rw [arenaPush_ok hdeltas] at h
  unfold appendIndexTransition at h
  split at h
  · simp only [bind, Except.bind] at h
    split at h
    · cases h
    · rename_i hw₁
      rw [hreference h, hreference hw₁]
  · cases h
    rfl

/-- The slot that an instruction writes is the one that it names. -/
theorem executeInstruction_deltas {i : Instruction} (h : w.executeInstruction i frontier = .ok w') :
    w'.deltas = w.deltas ∨
      ∃ d : SlotDelta, w'.deltas = w.deltas ++ [d] ∧ d.slot = i.argument ∧ namesSlot i = true := by
  have hpush : ∀ {u : Workspace} {value : ℕ}, u.push value = .ok w' → w'.deltas = u.deltas := by
    intro u value hu
    unfold push at hu
    split at hu
    · cases hu
    · cases hu
      rfl
  obtain ⟨opcode, argument, immediate⟩ := i
  cases opcode with
  | expectObject =>
    rw [(executeInstruction_appended h).2.2.2 rfl]
    exact .inl rfl
  | allocate =>
    simp only [executeInstruction] at h
    have hsame := hpush h
    exact .inl hsame
  | allocateDiscard =>
    cases h
    exact .inl rfl
  | loadLocal =>
    simp only [executeInstruction, bind, Except.bind] at h
    split at h
    · cases h
    · exact .inl (hpush h)
  | storeLocal =>
    simp only [executeInstruction, pop, storeLocal, bind, Except.bind] at h
    split at h
    · cases h
    rename_i hp
    split at h
    · cases h
    cases h
    split at hp
    · cases hp
    · cases hp
      exact .inl rfl
  | pushCell => exact .inl (hpush h)
  | define =>
    rw [executeInstruction_define] at h
    split at h
    · cases h
    unfold define at h
    simp only [bind, Except.bind] at h
    split at h
    · cases h
    · have hlast := appendRecord_deltas h
      exact .inr ⟨_, hlast, rfl, rfl⟩
  | forget =>
    simp only [executeInstruction] at h
    unfold forget at h
    simp only [bind, Except.bind] at h
    split at h
    · cases h
    rename_i previous _
    cases previous with
    | none => exact .inr ⟨_, appendRecord_deltas h, rfl, rfl⟩
    | some index =>
      cases hr : w.record index with
      | error stop =>
        simp only [hr, Except.map] at h
        cases h
      | ok r =>
        simp only [hr, Except.map] at h
        exact .inr ⟨_, appendRecord_deltas h, rfl, rfl⟩
  | reject => cases h

/-- The slots of a trial's deltas lie below a bound. -/
def DeltasBelow (n : ℕ) (w : Workspace) (frontier : ℕ) : Prop :=
  frontier ≤ w.deltas.length ∧ ∀ d ∈ w.deltas.drop frontier, d.slot < n

theorem run_deltas {is : List Instruction} {outcome : ExecutionOutcome}
    (hi : NamesBelow n is) (hd : DeltasBelow n w frontier)
    (h : w.run frontier is = .ok (outcome, w')) : DeltasBelow n w' frontier := by
  induction is generalizing w with
  | nil =>
    cases h
    exact hd
  | cons i is ih =>
    unfold run at h
    split at h
    · rename_i w₁ hw₁
      refine ih (fun j hj => hi j (List.mem_cons_of_mem _ hj)) ?_ h
      rcases executeInstruction_deltas hw₁ with hsame | ⟨d, hd', hslot, hnames⟩
      · unfold DeltasBelow
        rw [hsame]
        exact hd
      · unfold DeltasBelow
        rw [hd', List.drop_append_of_le_length hd.1]
        refine ⟨by rw [List.length_append]; exact hd.1.trans (Nat.le_add_right _ _), fun e he => ?_⟩
        rcases List.mem_append.1 he with he | he
        · exact hd.2 e he
        · rw [List.mem_singleton.1 he, hslot]
          exact hi i List.mem_cons_self hnames
    · cases h
      exact hd
    · cases h

/-- Accepting a trial writes no padding. -/
theorem accept_padded {c : TrialCheckpoint}
    (hd : DeltasBelow w.acceptedHeads.length w c.deltaFrontier) :
    (w.padded k).accept c = (w.accept c).padded k := by
  have hfold : ∀ (deltas : List SlotDelta) (heads : List (Option ℕ)),
      (∀ d ∈ deltas, d.slot < heads.length) →
      deltas.foldl (fun heads delta => heads.set delta.slot delta.resultingVisible)
          (heads ++ List.replicate k none) =
        deltas.foldl (fun heads delta => heads.set delta.slot delta.resultingVisible) heads ++
          List.replicate k none := by
    intro deltas
    induction deltas with
    | nil => exact fun _ _ => rfl
    | cons d ds ih =>
      intro heads hbelow
      rw [List.forall_mem_cons] at hbelow
      rw [List.foldl_cons, List.foldl_cons, List.set_append_left _ _ hbelow.1]
      exact ih _ (by rw [List.length_set]; exact hbelow.2)
  unfold accept padded
  simp only
  rw [hfold _ _ hd.2]

/-- **A program** of a padded workspace. -/
theorem executeInstructions_padded {is : List Instruction}
    (hi : NamesBelow w.acceptedHeads.length is) (locals : ℕ) :
    (w.padded k).executeInstructions locals is =
      (w.executeInstructions locals is).map fun (outcome, w') => (outcome, w'.padded k) := by
  have hsp : (w.padded k).stackPointer = w.stackPointer := rfl
  have hstack : (w.padded k).stack = w.stack := rfl
  have hdeltas : (w.padded k).deltas = w.deltas := rfl
  have hcheckpoint : (w.padded k).checkpoint = w.checkpoint := rfl
  have hframed : (w.padded k).framed locals = (w.framed locals).padded k := rfl
  have hi' : NamesBelow (w.framed locals).acceptedHeads.length is := hi
  rw [executeInstructions_eq, executeInstructions_eq, hsp, hstack, hdeltas, hcheckpoint, hframed,
    run_padded hi']
  split
  · rfl
  cases hrun : (w.framed locals).run w.deltas.length is with
  | error message => rfl
  | ok p =>
    obtain ⟨outcome, w₁⟩ := p
    cases outcome with
    | rejected e => rfl
    | accepted =>
      have hbelow : DeltasBelow w.acceptedHeads.length (w.framed locals) w.deltas.length :=
        ⟨le_rfl, fun d hd => by
          have hnil : (w.framed locals).deltas.drop w.deltas.length = [] := List.drop_length
          rw [hnil] at hd
          cases hd⟩
      have hend := run_deltas hi hbelow hrun
      have hheads : w₁.acceptedHeads = w.acceptedHeads := (run_appended hrun).heads
      rw [← hheads] at hend
      have hacc : (w₁.padded k).accept w.checkpoint = (w₁.accept w.checkpoint).padded k :=
        accept_padded hend
      simp only [Except.map, settle, hacc]

end Workspace

open Workspace

namespace VmEpochMaterializer

/-- The materializer with more heads, all of them empty. -/
def padded (m : VmEpochMaterializer) (k : ℕ) : VmEpochMaterializer :=
  { m with workspace := m.workspace.padded k }

variable {m m' : VmEpochMaterializer} {k : ℕ}

theorem slotToken_padded (m : VmEpochMaterializer) (k : ℕ) (slot : SlotId) :
    ∃ k', (m.padded k).slotToken slot = ((m.slotToken slot).1, (m.slotToken slot).2.padded k') := by
  unfold slotToken padded baseSlotCount
  simp only
  cases m.slots.lookup slot with
  | some token => exact ⟨k, rfl⟩
  | none =>
    simp only
    cases m.mappedBase.bind fun base => base.slotToken slot with
    | some token => exact ⟨k, rfl⟩
    | none =>
      simp only
      obtain ⟨k', hk⟩ := ensureSlotCount_padded m.workspace k
        ((m.mappedBase.map MmapVmSnapshot.slotCount).getD 0 + Dict.size (m.slots.insert slot
          (((m.mappedBase.map MmapVmSnapshot.slotCount).getD 0 + m.slots.size) % 2 ^ 32)))
      exact ⟨k', by rw [hk]⟩

theorem predicateCell_padded (m : VmEpochMaterializer) (k : ℕ) (p : Predicate) :
    (m.padded k).predicateCell p = ((m.predicateCell p).1, (m.predicateCell p).2.padded k) := by
  unfold predicateCell padded basePredicateCount
  simp only
  cases m.predicates.lookup p with
  | some cell => rfl
  | none =>
    simp only
    cases m.mappedBase.bind fun base => base.predicateToken p <;> rfl

theorem atomCell_padded (m : VmEpochMaterializer) (k : ℕ) (a : Atom) :
    (m.padded k).atomCell a = ((m.atomCell a).1, (m.atomCell a).2.padded k) := by
  cases a with
  | entity e =>
    simp only [atomCell]
    split <;> rfl
  | literal l =>
    unfold padded
    simp only [atomCell, baseLiteralCount]
    cases m.literals.lookup l with
    | some cell => rfl
    | none =>
      simp only
      cases m.mappedBase.bind fun base => base.literalToken l with
      | some token => rfl
      | none =>
        by_cases hroom : literalBase + ((m.mappedBase.map MmapVmSnapshot.literalCount).getD 0 +
            m.literalValues.length) < 2 ^ 64
        · simp only [hroom, ↓reduceIte]
        · simp only [hroom, ↓reduceIte]

/-- **One operation** compiles alike. -/
theorem compileOperation_padded (m : VmEpochMaterializer) (k : ℕ) (op : Operation) :
    ∃ k', (m.padded k).compileOperation op =
      ((m.compileOperation op).1, (m.compileOperation op).2.padded k') := by
  cases op with
  | allocateEntity e =>
    simp only [compileOperation]
    split <;> exact ⟨k, rfl⟩
  | forget slot =>
    obtain ⟨k', hk⟩ := m.slotToken_padded k slot
    simp only [compileOperation, hk]
    exact ⟨k', rfl⟩
  | define slot fact =>
    obtain ⟨k', hk⟩ := m.slotToken_padded k slot
    simp only [compileOperation, hk]
    generalize m.slotToken slot = r₁
    obtain ⟨t, m₁⟩ := r₁
    simp only [atomCell_padded]
    generalize m₁.atomCell fact.subject = r₂
    obtain ⟨c₂, m₂⟩ := r₂
    cases c₂ with
    | error e => exact ⟨k', rfl⟩
    | ok s =>
      simp only [predicateCell_padded, atomCell_padded]
      generalize m₂.predicateCell fact.predicate = r₃
      obtain ⟨p, m₃⟩ := r₃
      simp only
      generalize m₃.atomCell fact.object = r₄
      obtain ⟨c₄, m₄⟩ := r₄
      cases c₄ with
      | error e => exact ⟨k', rfl⟩
      | ok o => exact ⟨k', rfl⟩

/-- **Operations** compile alike. -/
theorem compileOperations_padded (m : VmEpochMaterializer) (k : ℕ) (ops : List Operation) :
    ∃ k', (m.padded k).compileOperations ops =
      ((m.compileOperations ops).1, (m.compileOperations ops).2.padded k') := by
  induction ops generalizing m k with
  | nil => exact ⟨k, rfl⟩
  | cons op ops ih =>
    obtain ⟨k₁, hk₁⟩ := m.compileOperation_padded k op
    unfold compileOperations
    rw [hk₁]
    generalize m.compileOperation op = r₁
    obtain ⟨c₁, m₁⟩ := r₁
    cases c₁ with
    | error e => exact ⟨k₁, rfl⟩
    | ok is =>
      obtain ⟨k₂, hk₂⟩ := ih m₁ k₁
      simp only [hk₂]
      generalize m₁.compileOperations ops = r₂
      obtain ⟨c₂, m₂⟩ := r₂
      cases c₂ with
      | error e => exact ⟨k₂, rfl⟩
      | ok js => exact ⟨k₂, rfl⟩

/-- A slot resolves alike: the padding holds no fact. -/
theorem resolveFact_padded (m : VmEpochMaterializer) (k : ℕ) (slot : SlotId) :
    (m.padded k).resolveFact slot = m.resolveFact slot := by
  have hcells : ∀ t, (m.workspace.padded k).resolveFactCells t = m.workspace.resolveFactCells t := by
    intro t
    unfold resolveFactCells Workspace.padded
    simp only
    rcases lt_or_ge t m.workspace.acceptedHeads.length with ht | ht
    · rw [List.getElem?_append_left ht]
    · rw [List.getElem?_append_right ht, List.getElem?_replicate, List.getElem?_eq_none ht]
      split <;> rename_i heq
      · split at heq <;> cases heq
      · rfl
  unfold resolveFact padded
  simp only [hcells]
  rfl

/-- A program leaves a head for every slot that has a token. -/
theorem SlotsLive.execute (h : m.SlotsLive) {is : List Instruction} {outcome : ExecutionOutcome}
    {w : Workspace} (hw : m.workspace.executeInstructions 0 is = .ok (outcome, w)) :
    { m with workspace := w }.SlotsLive := by
  have hlen := executeInstructions_heads hw
  refine ⟨fun slot t ht => ?_, fun slot t ht => ?_⟩
  · show t < w.acceptedHeads.length
    rw [hlen]
    exact h.fresh slot t ht
  · show t < w.acceptedHeads.length
    rw [hlen]
    exact h.frozen slot t ht

end VmEpochMaterializer

/-- An unguarded program names heads that are there. -/
theorem Unguarded.namesBelow {n : ℕ} {is : List Instruction} (h : Unguarded n is) :
    NamesBelow n is := by
  induction h with
  | nil => exact fun i hi => nomatch hi
  | allocate _ ih =>
    intro i hi hs
    rcases List.mem_cons.1 hi with rfl | hi
    · cases hs
    · exact ih i hi hs
  | forget ht _ ih =>
    intro i hi hs
    rcases List.mem_cons.1 hi with rfl | hi
    · exact ht
    · exact ih i hi hs
  | define ht _ ih =>
    intro i hi hs
    simp only [List.mem_cons] at hi
    rcases hi with rfl | rfl | rfl | rfl | hi
    · cases hs
    · cases hs
    · cases hs
    · exact ht
    · exact ih i hi hs

namespace TrialVocabulary

/-- The trial with more heads, all of them empty. -/
def padded (t : TrialVocabulary) (k : ℕ) : TrialVocabulary :=
  { t with materializer := t.materializer.padded k }

/-- Every slot that has a token has a head. -/
structure SlotsLive (t : TrialVocabulary) : Prop where
  materializer : t.materializer.SlotsLive
  fresh : ∀ slot token, t.slots.lookup slot = some token →
    token < t.materializer.workspace.acceptedHeads.length

variable {t t' : TrialVocabulary} {k : ℕ}

theorem slotToken_padded (t : TrialVocabulary) (k : ℕ) (slot : SlotId) :
    ∃ k', (t.padded k).slotToken slot = ((t.slotToken slot).1, (t.slotToken slot).2.padded k') := by
  unfold slotToken padded VmEpochMaterializer.padded VmEpochMaterializer.baseSlotCount
  simp only
  cases t.slots.lookup slot with
  | some token => exact ⟨k, rfl⟩
  | none =>
    simp only
    cases t.materializer.slots.lookup slot with
    | some token => exact ⟨k, rfl⟩
    | none =>
      simp only
      cases t.materializer.mappedBase.bind fun base => base.slotToken slot with
      | some token => exact ⟨k, rfl⟩
      | none =>
        simp only
        obtain ⟨k', hk⟩ := ensureSlotCount_padded t.materializer.workspace k
          ((t.materializer.mappedBase.map MmapVmSnapshot.slotCount).getD 0 +
            t.materializer.slots.size + t.slots.size + 1)
        exact ⟨k', by rw [hk]⟩

theorem predicateCell_padded (t : TrialVocabulary) (k : ℕ) (p : Predicate) :
    (t.padded k).predicateCell p = ((t.predicateCell p).1, (t.predicateCell p).2.padded k) := by
  unfold predicateCell padded VmEpochMaterializer.padded VmEpochMaterializer.basePredicateCount
  simp only
  cases t.predicates.lookup p with
  | some cell => rfl
  | none =>
    simp only
    cases t.materializer.predicates.lookup p with
    | some cell => rfl
    | none =>
      simp only
      cases t.materializer.mappedBase.bind fun base => base.predicateToken p <;> rfl

theorem literalCell_padded (t : TrialVocabulary) (k : ℕ) (l : Literal) :
    (t.padded k).literalCell l = (t.literalCell l).map fun (cell, t') => (cell, t'.padded k) := by
  unfold literalCell padded VmEpochMaterializer.padded VmEpochMaterializer.baseLiteralCount
  simp only
  cases t.literals.lookup l with
  | some cell => rfl
  | none =>
    simp only
    cases t.materializer.literals.lookup l with
    | some cell => rfl
    | none =>
      simp only
      cases t.materializer.mappedBase.bind fun base => base.literalToken l with
      | some token => rfl
      | none =>
        simp only
        split <;> rfl

/-- A trial pads the workspace for the slots that it names. -/
theorem slotToken_pads (t : TrialVocabulary) (slot : SlotId) :
    ∃ k, (t.slotToken slot).2.materializer = t.materializer.padded k := by
  have hsame : ∃ k, t.materializer = t.materializer.padded k := by
    refine ⟨0, ?_⟩
    unfold VmEpochMaterializer.padded
    rw [padded_zero]
  unfold slotToken
  split
  · exact hsame
  · split
    · exact hsame
    · split
      · exact hsame
      · simp only
        obtain ⟨k, hk⟩ := ensureSlotCount_pads t.materializer.workspace
          (t.materializer.baseSlotCount + t.materializer.slots.size + t.slots.size + 1)
        exact ⟨k, by rw [hk]; rfl⟩

/-- **A slot's token** has a head, whatever has been interned before. -/
theorem SlotsLive.slotToken (h : t.SlotsLive) (slot : SlotId) :
    (t.slotToken slot).2.SlotsLive ∧
      (t.slotToken slot).1 < (t.slotToken slot).2.materializer.workspace.acceptedHeads.length ∧
      t.materializer.workspace.acceptedHeads.length ≤
        (t.slotToken slot).2.materializer.workspace.acceptedHeads.length := by
  unfold TrialVocabulary.slotToken
  cases ht : t.slots.lookup slot with
  | some token => exact ⟨h, h.fresh slot token ht, le_rfl⟩
  | none =>
    simp only
    cases hm : t.materializer.slots.lookup slot with
    | some token => exact ⟨h, h.materializer.fresh slot token hm, le_rfl⟩
    | none =>
      simp only
      cases hb : t.materializer.mappedBase.bind fun base => base.slotToken slot with
      | some token => exact ⟨h, h.materializer.frozen slot token hb, le_rfl⟩
      | none =>
        simp only
        set total := t.materializer.baseSlotCount + t.materializer.slots.size + t.slots.size
        obtain ⟨-, -, hlen⟩ :=
          VmEpochMaterializer.ensureSlotCount_eq t.materializer.workspace (total + 1)
        have hgrow : t.materializer.workspace.acceptedHeads.length ≤
            (t.materializer.workspace.ensureSlotCount (total + 1)).acceptedHeads.length := by
          rw [hlen]
          exact le_max_left _ _
        have htoken : total % 2 ^ 32 <
            (t.materializer.workspace.ensureSlotCount (total + 1)).acceptedHeads.length := by
          rw [hlen]
          have hmod := Nat.mod_le total (2 ^ 32)
          omega
        refine ⟨⟨⟨fun slot' u hu => ?_, fun slot' u hu => ?_⟩, fun slot' u hu => ?_⟩, htoken, hgrow⟩
        · exact (h.materializer.fresh slot' u hu).trans_le hgrow
        · exact (h.materializer.frozen slot' u hu).trans_le hgrow
        · by_cases he : slot' = slot
          · rw [he, AList.lookup_insert] at hu
            rw [← Option.some.inj hu]
            exact htoken
          · rw [AList.lookup_insert_ne he] at hu
            exact (h.fresh slot' u hu).trans_le hgrow

/-- Names that are not slots. -/
theorem SlotsLive.of_bare (h : t.SlotsLive) (hb : t'.bare = t.bare) :
    t'.SlotsLive ∧ t'.materializer.workspace = t.materializer.workspace := by
  have hm : t'.bare.materializer = t.bare.materializer := by rw [hb]
  have hs : t'.slots = t.slots := (congrArg TrialVocabulary.slots hb :)
  obtain ⟨hslots, hwork, hmapped⟩ := VmEpochMaterializer.of_bare_eq hm
  refine ⟨⟨h.materializer.congr hslots hmapped hwork, fun slot u hu => ?_⟩, hwork⟩
  rw [hwork]
  rw [hs] at hu
  exact h.fresh slot u hu

theorem slotsLive_new {m : VmEpochMaterializer} (h : m.SlotsLive) : (new m).SlotsLive :=
  ⟨h, fun slot u hu => by simp [new] at hu⟩

/-- The slots of a trial that is committed. -/
theorem SlotsLive.commit (h : t.SlotsLive) : t.commit.SlotsLive := by
  refine ⟨fun slot u hu => ?_, h.materializer.frozen⟩
  have hlook : t.commit.slots.lookup slot =
      (t.slots.lookup slot).or (t.materializer.slots.lookup slot) := Dict.lookup_merge _ _ _ _
  rw [hlook] at hu
  cases ht : t.slots.lookup slot with
  | some token =>
    rw [ht] at hu
    rw [← Option.some.inj hu]
    exact h.fresh slot token ht
  | none =>
    rw [ht] at hu
    exact h.materializer.fresh slot u hu

end TrialVocabulary

namespace SemanticCompiler

/-- The compiler with more heads, all of them empty. -/
def padded (c : SemanticCompiler) (k : ℕ) : SemanticCompiler := { c with trial := c.trial.padded k }

variable {c c' : SemanticCompiler} {k : ℕ}

theorem atomCell_padded (c : SemanticCompiler) (k : ℕ) (x : AtomRef) :
    (c.padded k).atomCell x = (c.atomCell x).map fun (r, c') => (r, c'.padded k) := by
  cases x with
  | entity e => rfl
  | literal l =>
    have hl := c.trial.literalCell_padded k ⟨l⟩
    have hp : (c.padded k).trial = c.trial.padded k := rfl
    simp only [atomCell, hp, hl]
    cases c.trial.literalCell ⟨l⟩ <;> rfl
  | symbol s =>
    have hb : (c.padded k).bindings = c.bindings := rfl
    simp only [atomCell, hb]
    cases c.bindings.lookup s <;> rfl

/-- **One operation** of a transaction compiles alike. -/
theorem operation_padded (c : SemanticCompiler) (k : ℕ) (op : TransactionOp) :
    ∃ k', (c.padded k).operation op =
      (c.operation op).map fun (r, c') => (r, c'.padded k') := by
  have htrial : (c.padded k).trial = c.trial.padded k := rfl
  cases op with
  | allocate result =>
    refine ⟨k, ?_⟩
    have hb : (c.padded k).bindings = c.bindings := rfl
    have hn : (c.padded k).trial.materializer.workspace.nextEntity =
        c.trial.materializer.workspace.nextEntity := rfl
    have hl : (c.padded k).localEntityCount = c.localEntityCount := rfl
    simp only [operation, hb, hn, hl]
    split
    · rfl
    · split <;> rfl
  | expectWorld expected => exact ⟨k, rfl⟩
  | reject => exact ⟨k, rfl⟩
  | forget slot =>
    obtain ⟨k', hk⟩ := c.trial.slotToken_padded k ⟨slot⟩
    refine ⟨k', ?_⟩
    simp only [operation, htrial, hk]
    rfl
  | expectObject slot expected =>
    obtain ⟨k', hk⟩ := c.trial.slotToken_padded k ⟨slot⟩
    refine ⟨k', ?_⟩
    simp only [operation, htrial, hk]
    generalize c.trial.slotToken ⟨slot⟩ = r₁
    obtain ⟨t, trial⟩ := r₁
    have hx := atomCell_padded { c with trial := trial } k' expected
    unfold padded at hx ⊢
    simp only at hx ⊢
    rw [hx]
    cases atomCell { c with trial := trial } expected with
    | error message => rfl
    | ok r =>
      obtain ⟨r, c₂⟩ := r
      cases r <;> rfl
  | define slot subject predicate object =>
    obtain ⟨k', hk⟩ := c.trial.slotToken_padded k ⟨slot⟩
    refine ⟨k', ?_⟩
    simp only [operation, htrial, hk]
    generalize c.trial.slotToken ⟨slot⟩ = r₁
    obtain ⟨t, trial⟩ := r₁
    have hx := atomCell_padded { c with trial := trial } k' subject
    unfold padded at hx ⊢
    simp only at hx ⊢
    rw [hx]
    cases atomCell { c with trial := trial } subject with
    | error message => rfl
    | ok r =>
      obtain ⟨r, c₂⟩ := r
      cases r with
      | error e => rfl
      | ok subjectCell =>
        simp only [Except.map, TrialVocabulary.predicateCell_padded]
        generalize c₂.trial.predicateCell ⟨predicate⟩ = r₃
        obtain ⟨p, trial₃⟩ := r₃
        have hy := atomCell_padded { c₂ with trial := trial₃ } k' object
        unfold padded at hy
        simp only at hy ⊢
        rw [hy]
        cases atomCell { c₂ with trial := trial₃ } object with
        | error message => rfl
        | ok r =>
          obtain ⟨r, c₄⟩ := r
          cases r <;> rfl

/-- **A transaction** compiles alike. -/
theorem operations_padded (c : SemanticCompiler) (k : ℕ) (ops : List TransactionOp) :
    ∃ k', (c.padded k).operations ops =
      (c.operations ops).map fun (r, c') => (r, c'.padded k') := by
  induction ops generalizing c k with
  | nil => exact ⟨k, rfl⟩
  | cons op ops ih =>
    obtain ⟨k₁, hk₁⟩ := c.operation_padded k op
    simp only [operations, hk₁]
    cases c.operation op with
    | error message => exact ⟨k₁, rfl⟩
    | ok r =>
      obtain ⟨r, c₁⟩ := r
      cases r with
      | error e => exact ⟨k₁, rfl⟩
      | ok is =>
        obtain ⟨k₂, hk₂⟩ := ih c₁ k₁
        refine ⟨k₂, ?_⟩
        simp only [Except.map] at hk₂ ⊢
        rw [hk₂]
        cases c₁.operations ops with
        | error message => rfl
        | ok r =>
          obtain ⟨r, c₂⟩ := r
          cases r <;> rfl

/-- What compiling leaves of the slots: heads for all of them, and a program that names heads. -/
structure Live (c c' : SemanticCompiler) (r : Except String (List Instruction)) : Prop where
  slots : c'.trial.SlotsLive
  grows : c.trial.materializer.workspace.acceptedHeads.length ≤
    c'.trial.materializer.workspace.acceptedHeads.length
  below : ∀ is, r = .ok is →
    NamesBelow c'.trial.materializer.workspace.acceptedHeads.length is

theorem atomCell_bare {x : AtomRef} {r : Except String ℕ} (h : c.atomCell x = .ok (r, c')) :
    c'.trial.bare = c.trial.bare := (atomCell_shape h).1

/-- **One operation** of a transaction names heads that are there. -/
theorem operation_live (h : c.trial.SlotsLive) {op : TransactionOp}
    {r : Except String (List Instruction)} (ho : c.operation op = .ok (r, c')) : Live c c' r := by
  have hnone : ∀ {n : ℕ} {i : Instruction}, namesSlot i = false → NamesBelow n [i] := by
    intro n i hi j hj hs
    rw [List.mem_singleton.1 hj, hi] at hs
    cases hs
  cases op with
  | allocate result =>
    simp only [operation] at ho
    split at ho
    · cases ho
      exact ⟨h, le_rfl, fun _ hc => (by cases hc)⟩
    split at ho
    · cases ho
      exact ⟨h, le_rfl, fun _ hc => (by cases hc)⟩
    · cases ho
      refine ⟨h, le_rfl, fun is hc => ?_⟩
      obtain rfl := Except.ok.inj hc
      exact hnone rfl
  | expectWorld expected =>
    cases ho
    refine ⟨h, le_rfl, fun is hc => ?_⟩
    obtain rfl := Except.ok.inj hc
    exact fun i hi => (by cases hi)
  | reject =>
    cases ho
    refine ⟨h, le_rfl, fun is hc => ?_⟩
    obtain rfl := Except.ok.inj hc
    exact hnone rfl
  | forget slot =>
    obtain ⟨h₁, ht, hg⟩ := h.slotToken ⟨slot⟩
    cases ho
    refine ⟨h₁, hg, fun is hc => ?_⟩
    obtain rfl := Except.ok.inj hc
    intro i hi hs
    rw [List.mem_singleton.1 hi]
    exact ht
  | expectObject slot expected =>
    obtain ⟨h₁, ht, hg⟩ := h.slotToken ⟨slot⟩
    simp only [operation] at ho
    generalize c.trial.slotToken ⟨slot⟩ = p at h₁ ht hg ho
    obtain ⟨t, trial⟩ := p
    simp only at h₁ ht hg ho
    split at ho
    · cases ho
    · rename_i e c₂ hc₂
      cases ho
      obtain ⟨h₂, hw₂⟩ := h₁.of_bare (atomCell_bare hc₂)
      exact ⟨h₂, by rw [hw₂]; exact hg, fun _ hc => (by cases hc)⟩
    · rename_i cell c₂ hc₂
      cases ho
      obtain ⟨h₂, hw₂⟩ := h₁.of_bare (atomCell_bare hc₂)
      refine ⟨h₂, by rw [hw₂]; exact hg, fun is hc => ?_⟩
      obtain rfl := Except.ok.inj hc
      intro i hi hs
      rw [List.mem_singleton.1 hi, hw₂]
      exact ht
  | define slot subject predicate object =>
    obtain ⟨h₁, ht, hg⟩ := h.slotToken ⟨slot⟩
    simp only [operation] at ho
    generalize c.trial.slotToken ⟨slot⟩ = p at h₁ ht hg ho
    obtain ⟨t, trial⟩ := p
    simp only at h₁ ht hg ho
    split at ho
    · cases ho
    · rename_i e c₂ hc₂
      cases ho
      obtain ⟨h₂, hw₂⟩ := h₁.of_bare (atomCell_bare hc₂)
      exact ⟨h₂, by rw [hw₂]; exact hg, fun _ hc => (by cases hc)⟩
    rename_i subjectCell c₂ hc₂
    have hb₃ := TrialVocabulary.predicateCell_bare c₂.trial ⟨predicate⟩
    generalize c₂.trial.predicateCell ⟨predicate⟩ = p at hb₃ ho
    obtain ⟨predicateCell, trial₃⟩ := p
    simp only at hb₃ ho
    split at ho
    · cases ho
    · rename_i e c₄ hc₄
      cases ho
      obtain ⟨h₄, hw₄⟩ := h₁.of_bare
        ((atomCell_bare hc₄).trans (hb₃.trans (atomCell_bare hc₂)))
      exact ⟨h₄, by rw [hw₄]; exact hg, fun _ hc => (by cases hc)⟩
    · rename_i objectCell c₄ hc₄
      cases ho
      obtain ⟨h₄, hw₄⟩ := h₁.of_bare
        ((atomCell_bare hc₄).trans (hb₃.trans (atomCell_bare hc₂)))
      refine ⟨h₄, by rw [hw₄]; exact hg, fun is hc => ?_⟩
      obtain rfl := Except.ok.inj hc
      intro i hi hs
      simp only [List.mem_cons, List.not_mem_nil, or_false] at hi
      rcases hi with rfl | rfl | rfl | rfl
      · cases hs
      · cases hs
      · cases hs
      · rw [hw₄]
        exact ht

/-- **A transaction** names heads that are there. -/
theorem operations_live (h : c.trial.SlotsLive) {ops : List TransactionOp}
    {r : Except String (List Instruction)} (ho : c.operations ops = .ok (r, c')) : Live c c' r := by
  induction ops generalizing c r with
  | nil =>
    cases ho
    refine ⟨h, le_rfl, fun is hc => ?_⟩
    obtain rfl := Except.ok.inj hc
    exact fun i hi => (by cases hi)
  | cons op ops ih =>
    simp only [operations] at ho
    split at ho
    · cases ho
    · rename_i e c₁ hc₁
      cases ho
      obtain ⟨h₁, hg₁, -⟩ := operation_live h hc₁
      exact ⟨h₁, hg₁, fun _ hc => (by cases hc)⟩
    rename_i js c₁ hc₁
    obtain ⟨h₁, hg₁, hb₁⟩ := operation_live h hc₁
    split at ho
    · cases ho
    · rename_i e c₂ hc₂
      cases ho
      obtain ⟨h₂, hg₂, -⟩ := ih h₁ hc₂
      exact ⟨h₂, hg₁.trans hg₂, fun _ hc => (by cases hc)⟩
    · rename_i ks c₂ hc₂
      cases ho
      obtain ⟨h₂, hg₂, hb₂⟩ := ih h₁ hc₂
      refine ⟨h₂, hg₁.trans hg₂, fun is hc => ?_⟩
      obtain rfl := Except.ok.inj hc
      exact ((hb₁ js rfl).mono hg₂).append (hb₂ ks rfl)

/-- `c'` has the materializer of `c`, with more heads that are all empty. -/
def Pads (c c' : SemanticCompiler) : Prop :=
  ∃ k, c'.trial.materializer = c.trial.materializer.padded k

theorem Pads.of_same (h : c'.trial.materializer = c.trial.materializer) : Pads c c' := by
  refine ⟨0, ?_⟩
  rw [h]
  unfold VmEpochMaterializer.padded
  rw [padded_zero]

theorem Pads.trans {c'' : SemanticCompiler} (h : Pads c c') (h' : Pads c' c'') : Pads c c'' := by
  obtain ⟨k, hk⟩ := h
  obtain ⟨k', hk'⟩ := h'
  refine ⟨k + k', ?_⟩
  rw [hk', hk]
  unfold VmEpochMaterializer.padded
  rw [padded_padded]

theorem atomCell_pads {x : AtomRef} {r : Except String ℕ} (h : c.atomCell x = .ok (r, c')) :
    Pads c c' := by
  cases x with
  | entity e =>
    cases h
    exact .of_same rfl
  | literal l =>
    simp only [atomCell] at h
    cases hcell : c.trial.literalCell ⟨l⟩ with
    | error message => rw [hcell] at h; cases h
    | ok p =>
      obtain ⟨cell, trial⟩ := p
      rw [hcell] at h
      cases h
      refine .of_same ?_
      unfold TrialVocabulary.literalCell at hcell
      split at hcell
      · cases hcell
        rfl
      split at hcell
      · cases hcell
        rfl
      split at hcell
      · cases hcell
        rfl
      simp only at hcell
      split at hcell
      · cases hcell
        rfl
      · cases hcell
  | symbol s =>
    simp only [atomCell] at h
    split at h <;> cases h <;> exact .of_same rfl

theorem predicateCell_materializer (t : TrialVocabulary) (p : Predicate) :
    (t.predicateCell p).2.materializer = t.materializer := by
  unfold TrialVocabulary.predicateCell
  split
  · rfl
  · split
    · rfl
    · split <;> rfl

/-- **One operation** leaves the materializer with more heads at most. -/
theorem operation_pads {op : TransactionOp} {r : Except String (List Instruction)}
    (ho : c.operation op = .ok (r, c')) : Pads c c' := by
  cases op with
  | allocate result =>
    simp only [operation] at ho
    split at ho
    · cases ho
      exact .of_same rfl
    split at ho <;> cases ho <;> exact .of_same rfl
  | expectWorld expected =>
    cases ho
    exact .of_same rfl
  | reject =>
    cases ho
    exact .of_same rfl
  | forget slot =>
    cases ho
    exact TrialVocabulary.slotToken_pads _ _
  | expectObject slot expected =>
    have h₁ : Pads c { c with trial := (c.trial.slotToken ⟨slot⟩).2 } :=
      TrialVocabulary.slotToken_pads c.trial ⟨slot⟩
    simp only [operation] at ho
    split at ho
    · cases ho
    · rename_i e c₂ hc₂
      cases ho
      exact Pads.trans h₁ (atomCell_pads hc₂)
    · rename_i cell c₂ hc₂
      cases ho
      exact Pads.trans h₁ (atomCell_pads hc₂)
  | define slot subject predicate object =>
    have h₁ : Pads c { c with trial := (c.trial.slotToken ⟨slot⟩).2 } :=
      TrialVocabulary.slotToken_pads c.trial ⟨slot⟩
    simp only [operation] at ho
    split at ho
    · cases ho
    · rename_i e c₂ hc₂
      cases ho
      exact Pads.trans h₁ (atomCell_pads hc₂)
    rename_i subjectCell c₂ hc₂
    have h₂ : Pads c c₂ := Pads.trans h₁ (atomCell_pads hc₂)
    have h₃ := predicateCell_materializer c₂.trial ⟨predicate⟩
    generalize c₂.trial.predicateCell ⟨predicate⟩ = p at h₃ ho
    obtain ⟨predicateCell, trial₃⟩ := p
    simp only at h₃ ho
    have h₃' : Pads c₂ { c₂ with trial := trial₃ } := .of_same h₃
    split at ho
    · cases ho
    · rename_i e c₄ hc₄
      cases ho
      exact (h₂.trans h₃').trans (atomCell_pads hc₄)
    · rename_i objectCell c₄ hc₄
      cases ho
      exact (h₂.trans h₃').trans (atomCell_pads hc₄)

/-- **A transaction** that is only compiled leaves the materializer with more heads at most. -/
theorem operations_pads {ops : List TransactionOp} {r : Except String (List Instruction)}
    (ho : c.operations ops = .ok (r, c')) : Pads c c' := by
  induction ops generalizing c r with
  | nil =>
    cases ho
    exact .of_same rfl
  | cons op ops ih =>
    simp only [operations] at ho
    split at ho
    · cases ho
    · rename_i e c₁ hc₁
      cases ho
      exact operation_pads hc₁
    rename_i js c₁ hc₁
    have h₁ := operation_pads hc₁
    split at ho
    · cases ho
    · rename_i e c₂ hc₂
      cases ho
      exact h₁.trans (ih hc₂)
    · rename_i ks c₂ hc₂
      cases ho
      exact h₁.trans (ih hc₂)

end SemanticCompiler

namespace MixedRun

open VmEpochMaterializer

/-- The run with more heads, all of them empty. -/
def padded (s : MixedRun) (k : ℕ) : MixedRun := { s with materializer := s.materializer.padded k }

variable {s s' : MixedRun} {k : ℕ} {w : World} {kernel : ForthDb} {validators : List Validator}
  {d : MixedDecision}

theorem executeQueued_padded (h : s.materializer.SlotsLive) (k : ℕ) (ops : List Operation)
    (entities : EntityMap) :
    ∃ k', (s.padded k).executeQueued ops entities =
      (s.executeQueued ops entities).map fun (d, s') => (d, s'.padded k') := by
  obtain ⟨-, -, -, hunguarded⟩ := h.compileOperations ops
  obtain ⟨k', hk⟩ := s.materializer.compileOperations_padded k ops
  refine ⟨k', ?_⟩
  unfold executeQueued
  simp only [padded, hk]
  generalize s.materializer.compileOperations ops = r at hunguarded
  obtain ⟨r, m⟩ := r
  cases r with
  | error e => rfl
  | ok is =>
    have hbelow : NamesBelow m.workspace.acceptedHeads.length is := (hunguarded is rfl).namesBelow
    have hrun : (m.padded k').workspace.executeInstructions 0 is =
        (m.workspace.executeInstructions 0 is).map fun (outcome, v) => (outcome, v.padded k') :=
      executeInstructions_padded hbelow 0
    simp only [hrun]
    cases m.workspace.executeInstructions 0 is with
    | error message => rfl
    | ok p =>
      obtain ⟨outcome, v⟩ := p
      cases outcome <;> rfl

theorem executeQueued_live (h : s.materializer.SlotsLive) {ops : List Operation}
    {entities : EntityMap} (hs : s.executeQueued ops entities = .ok (d, s')) :
    s'.materializer.SlotsLive := by
  obtain ⟨hlive, -, -, -⟩ := h.compileOperations ops
  unfold executeQueued at hs
  generalize s.materializer.compileOperations ops = r at hlive hs
  obtain ⟨r, m⟩ := r
  cases r with
  | error e =>
    cases hs
    exact hlive
  | ok is =>
    simp only at hs
    split at hs
    · cases hs
    · rename_i v hv
      cases hs
      exact hlive.execute hv
    · rename_i e v hv
      cases hs
      exact hlive.execute hv

/-- **A semantic intent** is decided alike. -/
theorem executeSemantic_padded (h : s.materializer.SlotsLive) (k : ℕ) (intent : SemanticIntent) :
    ∃ k', (s.padded k).executeSemantic intent =
      (s.executeSemantic intent).map fun (d, s') => (d, s'.padded k') := by
  obtain ⟨k', hk⟩ := SemanticCompiler.operations_padded ⟨.new s.materializer, ∅, 0⟩ k
    intent.ast.operations
  have hstart : (⟨.new (s.padded k).materializer, ∅, 0⟩ : SemanticCompiler) =
      SemanticCompiler.padded ⟨.new s.materializer, ∅, 0⟩ k := rfl
  have hnext : (s.padded k).materializer.workspace.nextEntity =
      s.materializer.workspace.nextEntity := rfl
  refine ⟨k', ?_⟩
  unfold executeSemantic
  simp only [TrialVocabulary.compileSemanticTrial, hstart, hk, hnext]
  cases hc : SemanticCompiler.operations ⟨.new s.materializer, ∅, 0⟩ intent.ast.operations with
  | error message => rfl
  | ok r =>
    obtain ⟨r, c⟩ := r
    cases r with
    | error e => rfl
    | ok is =>
      have hlive := SemanticCompiler.operations_live (TrialVocabulary.slotsLive_new h) hc
      have hrun : (c.padded k').trial.materializer.workspace.executeInstructions 0 is =
          (c.trial.materializer.workspace.executeInstructions 0 is).map
            fun (outcome, v) => (outcome, v.padded k') :=
        executeInstructions_padded (hlive.below is rfl) 0
      simp only [Except.map] at hrun ⊢
      rw [hrun]
      cases c.trial.materializer.workspace.executeInstructions 0 is with
      | error message => rfl
      | ok p =>
        obtain ⟨outcome, v⟩ := p
        cases outcome with
        | rejected e => rfl
        | accepted =>
          simp only
          cases intent.synthesized s.materializer.workspace.nextEntity <;> rfl

theorem executeSemantic_live (h : s.materializer.SlotsLive) {intent : SemanticIntent}
    (hs : s.executeSemantic intent = .ok (d, s')) : s'.materializer.SlotsLive := by
  unfold executeSemantic at hs
  simp only [TrialVocabulary.compileSemanticTrial] at hs
  split at hs
  · cases hs
  · rename_i e c hc
    cases hs
    exact (SemanticCompiler.operations_live (TrialVocabulary.slotsLive_new h) hc).slots.materializer
  · rename_i is c hc
    have hlive := SemanticCompiler.operations_live (TrialVocabulary.slotsLive_new h) hc
    split at hs
    · cases hs
    · rename_i v hv
      split at hs
      · cases hs
      · cases hs
        have hlen := executeInstructions_heads hv
        refine TrialVocabulary.SlotsLive.commit ⟨hlive.slots.materializer.execute hv,
          fun slot token ht => ?_⟩
        show token < v.acceptedHeads.length
        rw [hlen]
        exact hlive.slots.fresh slot token ht
    · rename_i e v hv
      cases hs
      exact hlive.slots.materializer.execute hv

/-- What compiling the transaction of a semantic intent gives. -/
def compiled (s : MixedRun) (intent : SemanticIntent) :
    Except String (Except String (List Instruction) × SemanticCompiler) :=
  (TrialVocabulary.new s.materializer).compileSemanticTrial intent.ast.operations

/-- A transaction that does not compile where the run stands. -/
def Malformed (s : MixedRun) (intent : SemanticIntent) : Prop :=
  ∃ e c, s.compiled intent = .ok (.error e, c)

/-- **A transaction that does not compile** is rejected, and leaves more empty heads at most. -/
theorem semantic_malformed {intent : SemanticIntent} (h : s.Malformed intent)
    (hs : s.semantic w kernel validators intent = .ok (d, s')) :
    (∃ e, d = .semantic (.error e)) ∧ ∃ k, s' = s.padded k := by
  have hsame : ∃ k, s = s.padded k := by
    refine ⟨0, ?_⟩
    unfold padded VmEpochMaterializer.padded
    rw [padded_zero]
  have hexec : s.executeSemantic intent = .ok (d, s') →
      (∃ e, d = .semantic (.error e)) ∧ ∃ k, s' = s.padded k := by
    intro hs
    obtain ⟨e, c, hc⟩ := h
    obtain ⟨k, hk⟩ := SemanticCompiler.operations_pads hc
    unfold compiled at hc
    unfold executeSemantic at hs
    simp only [hc] at hs
    cases hs
    exact ⟨⟨_, rfl⟩, k, by rw [hk]; rfl⟩
  unfold semantic at hs
  split at hs
  · split at hs
    · cases hs
    · split at hs
      · cases hs
        exact ⟨⟨_, rfl⟩, hsame⟩
      · split at hs
        · cases hs
          exact ⟨⟨_, rfl⟩, hsame⟩
        · exact hexec hs
  · exact hexec hs

/-- **One intent** is decided alike. -/
theorem intent_padded (h : s.materializer.SlotsLive) (k : ℕ) (w : World) (kernel : ForthDb)
    (validators : List Validator) (i : ControllerIntent) :
    ∃ k', (s.padded k).intent w kernel validators i =
      (s.intent w kernel validators i).map fun (d, s') => (d, s'.padded k') := by
  have hcandidate : ∀ ops, (s.padded k).candidate w kernel ops = s.candidate w kernel ops :=
    fun _ => rfl
  cases i with
  | queued intent =>
    have hpre : (s.padded k).materializer.checkPreconditions (s.padded k).predecessorId
        intent.preconditions =
        s.materializer.checkPreconditions s.predecessorId intent.preconditions := by
      unfold VmEpochMaterializer.checkPreconditions
      have hres : (s.padded k).materializer.resolveFact = s.materializer.resolveFact :=
        funext fun slot => s.materializer.resolveFact_padded k slot
      rw [hres]
      rfl
    have hresolve : (s.padded k).resolveQueued intent = s.resolveQueued intent := by
      unfold resolveQueued
      rw [hpre]
      rfl
    simp only [MixedRun.intent, queued, hresolve, hcandidate]
    cases s.resolveQueued intent with
    | error message => exact ⟨k, rfl⟩
    | ok r =>
      cases r with
      | error e => exact ⟨k, rfl⟩
      | ok p =>
        obtain ⟨ops, entities⟩ := p
        obtain ⟨k', hk⟩ := executeQueued_padded h k ops entities
        simp only
        by_cases hv : validators ≠ []
        · rw [if_pos hv, if_pos hv]
          cases s.candidate w kernel ops with
          | error e => exact ⟨k, rfl⟩
          | ok candidate =>
            simp only
            cases runValidators candidate validators with
            | error message => exact ⟨k, rfl⟩
            | ok u => exact ⟨k', hk⟩
        · rw [if_neg hv, if_neg hv]
          exact ⟨k', hk⟩
  | semantic intent =>
    obtain ⟨k', hk⟩ := executeSemantic_padded h k intent
    have hsynth : intent.synthesized (s.padded k).materializer.workspace.nextEntity =
        intent.synthesized s.materializer.workspace.nextEntity := rfl
    simp only [MixedRun.intent, semantic, hsynth, hcandidate]
    by_cases hv : validators ≠ []
    · rw [if_pos hv, if_pos hv]
      cases intent.synthesized s.materializer.workspace.nextEntity with
      | error message => exact ⟨k, rfl⟩
      | ok ops =>
        simp only
        cases s.candidate w kernel ops with
        | error e => exact ⟨k, rfl⟩
        | ok candidate =>
          simp only
          cases runValidators candidate validators with
          | error message => exact ⟨k, rfl⟩
          | ok u => exact ⟨k', hk⟩
    · rw [if_neg hv, if_neg hv]
      exact ⟨k', hk⟩

/-- **One intent** leaves a head for every slot that has a token. -/
theorem intent_live (h : s.materializer.SlotsLive) {i : ControllerIntent}
    (hs : s.intent w kernel validators i = .ok (d, s')) : s'.materializer.SlotsLive := by
  cases i with
  | queued intent =>
    simp only [MixedRun.intent, queued] at hs
    split at hs
    · cases hs
    · cases hs
      exact h
    split at hs
    · split at hs
      · cases hs
        exact h
      · split at hs
        · cases hs
          exact h
        · exact executeQueued_live h hs
    · exact executeQueued_live h hs
  | semantic intent =>
    simp only [MixedRun.intent, semantic] at hs
    split at hs
    · split at hs
      · cases hs
      · split at hs
        · cases hs
          exact h
        · split at hs
          · cases hs
            exact h
          · exact executeSemantic_live h hs
    · exact executeSemantic_live h hs

/-- **The loop** decides alike. -/
theorem intents_padded (h : s.materializer.SlotsLive) (k : ℕ) (w : World) (kernel : ForthDb)
    (validators : List Validator) (is : List ControllerIntent) :
    ∃ k', (s.padded k).intents w kernel validators is =
      (s.intents w kernel validators is).map fun (ds, s') => (ds, s'.padded k') := by
  induction is generalizing s k with
  | nil => exact ⟨k, rfl⟩
  | cons i rest ih =>
    obtain ⟨k₁, hk₁⟩ := intent_padded h k w kernel validators i
    simp only [intents, hk₁]
    cases hi : s.intent w kernel validators i with
    | error message => exact ⟨k, rfl⟩
    | ok r =>
      obtain ⟨d, s₁⟩ := r
      obtain ⟨k₂, hk₂⟩ := ih (intent_live h hi) k₁
      refine ⟨k₂, ?_⟩
      simp only [Except.map] at hk₂ ⊢
      rw [hk₂]
      cases s₁.intents w kernel validators rest <;> rfl

theorem intents_live (h : s.materializer.SlotsLive) {is : List ControllerIntent}
    {ds : List MixedDecision} (hs : s.intents w kernel validators is = .ok (ds, s')) :
    s'.materializer.SlotsLive := by
  induction is generalizing s ds with
  | nil =>
    cases hs
    exact h
  | cons i rest ih =>
    simp only [intents] at hs
    split at hs
    · cases hs
    rename_i d s₁ hd
    split at hs
    · cases hs
    rename_i ds' s₂ hds
    cases hs
    exact ih (intent_live h hd) hds

/-- The loop over a list in two parts. -/
theorem intents_append {xs : List ControllerIntent} {ds : List MixedDecision}
    (hs : s.intents w kernel validators xs = .ok (ds, s')) (ys : List ControllerIntent) :
    s.intents w kernel validators (xs ++ ys) =
      (s'.intents w kernel validators ys).map fun (es, t) => (ds ++ es, t) := by
  induction xs generalizing s ds with
  | nil =>
    cases hs
    rw [List.nil_append]
    cases s'.intents w kernel validators ys <;> rfl
  | cons i rest ih =>
    simp only [intents] at hs
    split at hs
    · cases hs
    rename_i d s₁ hd
    split at hs
    · cases hs
    rename_i ds' s₂ hds
    cases hs
    simp only [List.cons_append, intents, hd, ih hds]
    cases s'.intents w kernel validators ys <;> rfl

end MixedRun

end ForthDB
