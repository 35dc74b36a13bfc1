import ForthDB.Vm.Rollback

/-!
# Programs that cannot panic

The machine panics on a reference that names no record and on a full arena only.

* `References w frontier`: every visible head and every predecessor names a record.
* `Room w n`: there is room for `n` more records, whatever they reveal.
* `EndsIf R x P`: `x` panics only where `R` fails, and leads to `P` otherwise.
* `executeInstruction_safe`, `run_safe`: an instruction and a run keep both.
* `executeInstructions_safe`: **a program with room for its records does not panic**, and
  leaves valid references whatever its verdict.
-/

namespace ForthDB

/-- A computation that panics only where `R` fails, and leads to `P` otherwise. -/
def EndsIf {α : Type} (R : Prop) (x : Except String α) (P : α → Prop) : Prop :=
  (∃ a, x = .ok a ∧ P a) ∨ ¬ R ∧ ∃ message, x = .error message

theorem EndsIf.ok {α : Type} {R : Prop} {a : α} {P : α → Prop} (h : P a) :
    EndsIf R (.ok a) P := .inl ⟨a, rfl, h⟩

theorem EndsIf.panic {α : Type} {R : Prop} {P : α → Prop} (h : ¬ R) (message : String) :
    EndsIf R (.error message) P := .inr ⟨h, message, rfl⟩

theorem EndsIf.total {α : Type} {R : Prop} {x : Except String α} {P : α → Prop}
    (h : EndsIf R x P) (hR : R) : ∃ a, x = .ok a ∧ P a :=
  h.resolve_right fun hx => hx.1 hR

theorem EndsIf.of_ok {α : Type} {R : Prop} {x : Except String α} {P : α → Prop} {a : α}
    (h : EndsIf R x P) (hx : x = .ok a) : P a := by
  rcases h with ⟨b, hb, hP⟩ | ⟨-, message, hm⟩
  · cases hb.symm.trans hx
    exact hP
  · cases hm.symm.trans hx

namespace Workspace

/-- Every visible head and every predecessor names a record, in a trial that began behind the
first `frontier` deltas. -/
structure References (w : Workspace) (frontier : ℕ) : Prop where
  heads : ∀ t h, w.trialHead frontier t = some h → h < w.records.length
  previous : ∀ r ∈ w.records, ∀ p, r.previousVisible = some p → p < w.records.length
  frontier_le : frontier ≤ w.deltas.length
  track : w.trackIndexes = true
  deltas_le : w.deltas.length ≤ w.records.length
  indexes_le : w.indexDeltas.length ≤ noReference

/-- Room for some more records, each with the most index deltas that it can cost. -/
def Room (w : Workspace) (n : ℕ) : Prop :=
  w.records.length + n ≤ noReference ∧ w.indexDeltas.length + 6 * n ≤ noReference

instance (w : Workspace) (n : ℕ) : Decidable (w.Room n) := inferInstanceAs (Decidable (_ ∧ _))

variable {w w' : Workspace} {frontier n : ℕ} {R : Prop}

theorem Room.mono {k : ℕ} (h : w.Room n) (hk : k ≤ n) : w.Room k := by
  obtain ⟨hrecords, hindexes⟩ := h
  exact ⟨by omega, by omega⟩

/-- Other cells, another allocator and another frame. -/
theorem References.congr (h : w.References frontier) (hr : w'.records = w.records)
    (hd : w'.deltas = w.deltas) (hh : w'.acceptedHeads = w.acceptedHeads)
    (ht : w'.trackIndexes = w.trackIndexes) (hi : w'.indexDeltas = w.indexDeltas) :
    w'.References frontier := by
  have hhead : ∀ t, w'.trialHead frontier t = w.trialHead frontier t := by
    intro t
    unfold trialHead
    rw [hd, hh]
  refine ⟨fun t i ht => ?_, ?_, ?_, ?_, ?_, ?_⟩
  · rw [hr]
    exact h.heads t i (by rw [← hhead]; exact ht)
  · rw [hr]
    exact h.previous
  · rw [hd]
    exact h.frontier_le
  · rw [ht]
    exact h.track
  · rw [hr, hd]
    exact h.deltas_le
  · rw [hi]
    exact h.indexes_le

theorem Room.congr (h : w.Room n) (hr : w'.records = w.records)
    (hi : w'.indexDeltas = w.indexDeltas) : w'.Room n := by
  unfold Room
  rw [hr, hi]
  exact h

theorem referenceCost_le (reference : Option ℕ) : referenceCost reference ≤ 3 := by
  unfold referenceCost
  split <;> omega

/-- **A record** with valid references leaves valid references. -/
theorem References.withRecord (h : w.References frontier) {r : FactRecord} (hhas : w.HasRoom r)
    (hp : ∀ p, r.previousVisible = some p → p < w.records.length)
    (hr : ∀ p, r.resultingVisible = some p → p ≤ w.records.length) :
    (w.withRecord r).References frontier ∧ (w.Room (n + 1) → (w.withRecord r).Room n) := by
  obtain ⟨-, -, hindexes⟩ := hhas
  have hlen : (w.withRecord r).records.length = w.records.length + 1 := by
    simp [Workspace.withRecord]
  have hdlen : (w.withRecord r).deltas.length = w.deltas.length + 1 := by
    simp [Workspace.withRecord]
  have hmem : ∀ r' ∈ (w.withRecord r).records, r' ∈ w.records ∨ r' = r := by
    intro r' hr'
    simpa [Workspace.withRecord] using hr'
  have hprev : (referenceIndexes (w.records ++ [r]) r.previousVisible false).length =
      referenceCost r.previousVisible := length_referenceIndexes (fun p hp' => by
    have hlt := hp p hp'
    simp only [List.length_append, List.length_singleton]
    omega) false
  have hres : (referenceIndexes (w.records ++ [r]) r.resultingVisible true).length =
      referenceCost r.resultingVisible := length_referenceIndexes (fun p hp' => by
    have hle := hr p hp'
    simp only [List.length_append, List.length_singleton]
    omega) true
  have hidx : (w.withRecord r).indexDeltas.length = w.indexDeltas.length +
      (referenceCost r.previousVisible + referenceCost r.resultingVisible) := by
    simp only [Workspace.withRecord, List.length_append, hprev, hres]
  refine ⟨⟨fun t i hi => ?_, fun r' hr' p hp' => ?_, ?_, h.track, ?_, ?_⟩, fun hroom => ?_⟩
  · rw [trialHead_withRecord r h.frontier_le] at hi
    split at hi
    · have hle := hr i hi
      omega
    · have hlt := h.heads t i hi
      omega
  · rcases hmem r' hr' with hold | rfl
    · have hlt := h.previous r' hold p hp'
      omega
    · have hlt := hp p hp'
      omega
  · have hle := h.frontier_le
    omega
  · have hle := h.deltas_le
    omega
  · omega
  · -- the index deltas of a record cost at most six
    obtain ⟨hrecords, hroom⟩ := hroom
    have hcost := referenceCost_le r.previousVisible
    have hcost' := referenceCost_le r.resultingVisible
    exact ⟨by omega, by omega⟩

/-- What an instruction may lead to: valid references, and room for `n` more records where `R`
says that there was room for its own. -/
def Safe (frontier : ℕ) (R : Prop) (n : ℕ) : Except Stop Workspace → Prop
  | .ok w => w.References frontier ∧ (R → w.Room n)
  | .error (.rejected _) => True
  | .error (.panicked _) => ¬ R

theorem push_safe (h : w.References frontier) (hroom : R → w.Room n) (value : ℕ) :
    Safe frontier R n (w.push value) := by
  unfold push
  split
  · trivial
  · exact ⟨h.congr rfl rfl rfl rfl rfl, fun hR => (hroom hR).congr rfl rfl⟩

theorem appendRecord_safe (h : w.References frontier) (hroom : R → w.Room (n + 1))
    {r : FactRecord} (hp : ∀ p, r.previousVisible = some p → p < w.records.length)
    (hr : ∀ p, r.resultingVisible = some p → p ≤ w.records.length) :
    Safe frontier R n (w.appendRecord r) := by
  rw [appendRecord_eq w h.track h.indexes_le r hp hr]
  split
  · rename_i hhas
    obtain ⟨hrefs, hleft⟩ := h.withRecord (n := n) hhas hp hr
    exact ⟨hrefs, fun hR => hleft (hroom hR)⟩
  · rename_i hfull
    intro hR
    obtain ⟨hrecords, hindexes⟩ := hroom hR
    have hcost := referenceCost_le r.previousVisible
    have hcost' := referenceCost_le r.resultingVisible
    have hdeltas := h.deltas_le
    exact hfull ⟨by omega, by omega, by omega⟩

theorem define_safe (h : w.References frontier) (hroom : R → w.Room (n + 1)) (t s p o : ℕ) :
    Safe frontier R n (w.define t s p o frontier) := by
  unfold define
  by_cases ht : t < w.acceptedHeads.length
  · rw [resolveTrialHead_eq ht]
    exact appendRecord_safe h hroom (fun i hi => h.heads t i hi)
      (fun i hi => (Option.some.inj hi).ge)
  · unfold resolveTrialHead acceptedHead
    rw [List.getElem?_eq_none (by omega)]
    trivial

theorem forget_safe (h : w.References frontier) (hroom : R → w.Room (n + 1)) (t : ℕ) :
    Safe frontier R n (w.forget t frontier) := by
  unfold forget
  by_cases ht : t < w.acceptedHeads.length
  · rw [resolveTrialHead_eq ht]
    simp only [bind, Except.bind]
    cases hhead : w.trialHead frontier t with
    | none => exact appendRecord_safe h hroom (fun i hi => nomatch hi) (fun i hi => nomatch hi)
    | some index =>
      have hlt := h.heads t index hhead
      have hrecord : w.record index = .ok w.records[index] := by
        unfold record
        rw [List.getElem?_eq_getElem hlt]
      simp only [hrecord, Except.map]
      refine appendRecord_safe h hroom (fun i hi => ?_) (fun i hi => ?_)
      · rw [← Option.some.inj hi]
        exact hlt
      · exact (h.previous _ (List.getElem_mem hlt) i hi).le
  · unfold resolveTrialHead acceptedHead
    rw [List.getElem?_eq_none (by omega)]
    trivial

/-- **One instruction** keeps the references valid, and does not panic with room for its record. -/
theorem executeInstruction_safe (h : w.References frontier) {i : Instruction}
    (hroom : R → w.Room (n + if appendsRecord i then 1 else 0)) :
    Safe frontier R n (w.executeInstruction i frontier) := by
  obtain ⟨opcode, argument, immediate⟩ := i
  cases opcode with
  | expectObject =>
    simp only [executeInstruction]
    split
    · split
      · trivial
      · exact ⟨h, hroom⟩
    · unfold resolveTrialObject
      by_cases ht : argument < w.acceptedHeads.length
      · rw [resolveTrialHead_eq ht]
        simp only [bind, Except.bind]
        cases hhead : w.trialHead frontier argument with
        | none => trivial
        | some index =>
          have hlt := h.heads argument index hhead
          simp only [record, List.getElem?_eq_getElem hlt, Except.map]
          split
          · exact ⟨h, hroom⟩
          · trivial
      · unfold resolveTrialHead acceptedHead
        rw [List.getElem?_eq_none (by omega)]
        trivial
  | allocate =>
    have h₁ : ({ w with nextEntity := w.nextEntity + 1 } : Workspace).References frontier :=
      h.congr rfl rfl rfl rfl rfl
    have hroom₁ : R → ({ w with nextEntity := w.nextEntity + 1 } : Workspace).Room n :=
      fun hR => (hroom hR).congr rfl rfl
    exact push_safe h₁ hroom₁ _
  | allocateDiscard => exact ⟨h.congr rfl rfl rfl rfl rfl, fun hR => (hroom hR).congr rfl rfl⟩
  | loadLocal =>
    simp only [executeInstruction, loadLocal, bind, Except.bind]
    split
    · rename_i stop hstop
      split at hstop
      · cases hstop
        trivial
      · cases hstop
    · exact push_safe h hroom _
  | storeLocal =>
    simp only [executeInstruction, pop, storeLocal, bind, Except.bind]
    by_cases hempty : w.stackPointer ≤ w.frameBase
    · rw [if_pos hempty]
      trivial
    rw [if_neg hempty]
    simp only
    split
    · trivial
    · exact ⟨h.congr rfl rfl rfl rfl rfl, fun hR => (hroom hR).congr rfl rfl⟩
  | pushCell => exact push_safe h hroom _
  | define =>
    simp only [executeInstruction, pop, bind, Except.bind]
    by_cases h₁ : w.stackPointer ≤ w.frameBase
    · simp only [if_pos h₁]
      trivial
    by_cases h₂ : w.stackPointer - 1 ≤ w.frameBase
    · simp only [if_neg h₁, if_pos h₂]
      trivial
    by_cases h₃ : w.stackPointer - 1 - 1 ≤ w.frameBase
    · simp only [if_neg h₁, if_neg h₂, if_pos h₃]
      trivial
    simp only [if_neg h₁, if_neg h₂, if_neg h₃]
    refine define_safe ?_ ?_ _ _ _ _
    · exact h.congr rfl rfl rfl rfl rfl
    · exact fun hR => (hroom hR).congr rfl rfl
  | forget => exact forget_safe h hroom _
  | reject => trivial

/-- **A run** keeps the references valid, and does not panic with room for its records. -/
theorem run_safe (h : w.References frontier) {is : List Instruction}
    (hroom : R → w.Room (n + is.countP appendsRecord)) :
    EndsIf R (w.run frontier is) fun p =>
      p.1 = .accepted → p.2.References frontier ∧ (R → p.2.Room n) := by
  induction is generalizing w with
  | nil => exact .ok fun _ => ⟨h, hroom⟩
  | cons i is ih =>
    rw [List.countP_cons, ← Nat.add_assoc] at hroom
    have hstep := executeInstruction_safe h hroom
    unfold run
    cases hw : w.executeInstruction i frontier with
    | ok w₁ =>
      rw [hw] at hstep
      exact ih hstep.1 hstep.2
    | error stop =>
      rw [hw] at hstep
      cases stop with
      | rejected e => exact .ok fun ha => (by cases ha)
      | panicked message => exact .panic hstep message

/-- What an accepted trial shows becomes what is accepted. -/
theorem References.accept {c : TrialCheckpoint} (h : w.References c.deltaFrontier) :
    (w.accept c).References (w.accept c).deltas.length := by
  refine ⟨fun t i hi => ?_, h.previous, le_rfl, h.track, h.deltas_le, h.indexes_le⟩
  rw [trialHead_rest] at hi
  by_cases ht : t < w.acceptedHeads.length
  · rw [accept_head w c ht] at hi
    exact h.heads t i hi
  · rw [accept_head_ge w c ht] at hi
    cases hi

/-- **A program** keeps the references valid, and does not panic with room for its records. -/
theorem executeInstructions_safe (h : w.References w.deltas.length) {is : List Instruction}
    (hroom : R → w.Room (n + is.countP appendsRecord)) (locals : ℕ) :
    EndsIf R (w.executeInstructions locals is) fun p =>
      p.2.References p.2.deltas.length ∧ (R → p.2.Room n) := by
  have hframed : (w.framed locals).References w.deltas.length := h.congr rfl rfl rfl rfl rfl
  have hroom' : R → (w.framed locals).Room (n + is.countP appendsRecord) :=
    fun hR => (hroom hR).congr rfl rfl
  have hless : R → w.Room n := fun hR => (hroom hR).mono (Nat.le_add_right _ _)
  rw [executeInstructions_eq]
  by_cases hfull : w.stackPointer + locals > w.stack.length
  · rw [if_pos hfull]
    exact .ok ⟨h, hless⟩
  rw [if_neg hfull]
  rcases run_safe hframed hroom' with ⟨⟨outcome, w₁⟩, hrun, haccepted⟩ | ⟨hR, message, hrun⟩
  swap
  · rw [hrun]
    exact .panic hR message
  rw [hrun]
  cases outcome with
  | accepted =>
    obtain ⟨hrefs, hleft⟩ := haccepted rfl
    have hc : w₁.References w.checkpoint.deltaFrontier := hrefs
    exact .ok ⟨hc.accept, fun hR => (hleft hR).congr rfl rfl⟩
  | rejected e =>
    have hx : w.executeInstructions locals is = .ok (.rejected e, w₁.rollback w.checkpoint) := by
      rw [executeInstructions_eq, if_neg hfull, hrun]
      rfl
    obtain ⟨hsame, -⟩ := executeInstructions_rejected hx
    refine .ok ⟨?_, fun hR => ?_⟩
    · simp only [settle]
      rw [hsame]
      exact h.congr rfl rfl rfl rfl rfl
    · simp only [settle]
      rw [hsame]
      exact (hless hR).congr rfl rfl

/-- A new workspace refers to nothing. -/
theorem references_new (nextEntity slotCount stackCapacity : ℕ) :
    (withIndexesFrom nextEntity slotCount stackCapacity).References 0 := by
  refine ⟨fun t i hi => ?_, fun r hr => (nomatch hr), le_rfl, rfl, le_rfl, Nat.zero_le _⟩
  have hnone : (withIndexesFrom nextEntity slotCount stackCapacity).trialHead 0 t = none := by
    unfold trialHead withIndexesFrom
    simp only [List.drop_nil, List.reverse_nil, List.find?_nil, List.getElem?_replicate]
    split <;> rfl
  rw [hnone] at hi
  cases hi

/-- More heads, all of them empty. -/
theorem References.ensureSlotCount (h : w.References frontier) (slotCount : ℕ) :
    (w.ensureSlotCount slotCount).References frontier := by
  unfold Workspace.ensureSlotCount
  split
  · refine ⟨fun t i hi => h.heads t i ?_, h.previous, h.frontier_le, h.track, h.deltas_le,
      h.indexes_le⟩
    unfold trialHead at hi ⊢
    simp only at hi ⊢
    cases hf : (w.deltas.drop frontier).reverse.find? fun delta => delta.slot = t with
    | some delta =>
      rw [hf] at hi
      exact hi
    | none =>
      rw [hf] at hi
      simp only at hi ⊢
      rcases lt_or_ge t w.acceptedHeads.length with ht | ht
      · rw [List.getElem?_append_left ht] at hi
        exact hi
      · rw [List.getElem?_append_right ht, List.getElem?_replicate] at hi
        split at hi <;> cases hi
  · exact h

/-- Valid references resolve. -/
theorem References.resolveFactCells (h : w.References w.deltas.length) (t : ℕ) :
    ∃ cells, w.resolveFactCells t = .ok cells := by
  unfold Workspace.resolveFactCells
  cases hh : w.acceptedHeads[t]? with
  | none => exact ⟨_, rfl⟩
  | some head =>
    cases head with
    | none => exact ⟨_, rfl⟩
    | some i =>
      have hlt : i < w.records.length := h.heads t i (by rw [trialHead_rest, hh]; rfl)
      simp only [List.getElem?_eq_getElem hlt]
      exact ⟨_, rfl⟩

end Workspace

end ForthDB
