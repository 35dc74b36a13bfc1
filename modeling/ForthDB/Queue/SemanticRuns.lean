import ForthDB.Queue.Evaluation
import ForthDB.Vm.References
import ForthDB.Vm.TrialSimulation

/-!
# Programs of transactions

The program of a transaction runs as the transaction is evaluated: an expectation compares cells,
and cells are compared as the atoms they stand for.

* `Performs base m`: the instructions are the operations of a transaction, their slots, operands
  and facts written as tokens and cells of the materializer `m`.
* `Performs.run`: **a program accepts exactly when the evaluation of its transaction does**, and
  then leads to the same state, if every slot that it names has a head; otherwise it is rejected.
* `Performs.execute`: the same for a whole trial on the workspace of `m`.
-/

namespace ForthDB

open Workspace VmEpochMaterializer

/-- The instructions of a transaction's operations, and the bindings behind them. The allocator
stands at `n`. -/
inductive Performs (base : FrozenNames) (m : VmEpochMaterializer) :
    Dict String EntityId → ℕ → List TransactionOp → List Instruction → Dict String EntityId → Prop
  | nil {b : Dict String EntityId} {n : ℕ} : Performs base m b n [] [] b
  | allocate {b b' : Dict String EntityId} {n : ℕ} {ops : List TransactionOp}
      {is : List Instruction} {result : String} : b.lookup result = none →
      Performs base m (b.insert result ⟨n⟩) (n + 1) ops is b' →
      Performs base m b n (.allocate result :: ops) (.allocateDiscard :: is) b'
  | expectObject {b b' : Dict String EntityId} {n t c : ℕ} {ops : List TransactionOp}
      {is : List Instruction} {slot : String} {expected : AtomRef} {atom : Atom} :
      token base m ⟨slot⟩ = some t → t ≠ Instruction.worldArgument →
      expected.evaluate b = some atom → m.atomFromCell c = some atom →
      Performs base m b n ops is b' →
      Performs base m b n (.expectObject slot expected :: ops) (.expectObject t c :: is) b'
  | define {b b' : Dict String EntityId} {n t s p o : ℕ} {ops : List TransactionOp}
      {is : List Instruction} {slot predicate : String} {subject object : AtomRef} {x y : Atom} :
      token base m ⟨slot⟩ = some t → subject.evaluate b = some x → object.evaluate b = some y →
      m.factFromCells s p o = some ⟨x, ⟨predicate⟩, y⟩ → Performs base m b n ops is b' →
      Performs base m b n (.define slot subject predicate object :: ops)
        (.push s :: .push p :: .push o :: .define t :: is) b'
  | forget {b b' : Dict String EntityId} {n t : ℕ} {ops : List TransactionOp}
      {is : List Instruction} {slot : String} : token base m ⟨slot⟩ = some t →
      Performs base m b n ops is b' →
      Performs base m b n (.forget slot :: ops) (.forget t :: is) b'
  | reject {b b' : Dict String EntityId} {n : ℕ} {ops : List TransactionOp}
      {is : List Instruction} : Performs base m b n ops is b' →
      Performs base m b n (.reject :: ops) (.reject :: is) b'

variable {base : FrozenNames} {names : List SlotId} {m m' : VmEpochMaterializer}
  {b b' : Dict String EntityId} {n frontier : ℕ} {ops : List TransactionOp}
  {is : List Instruction} {w : Workspace}

/-- What is known stays known. -/
theorem Performs.mono (h : Performs base m b n ops is b') (he : Extends base m m') :
    Performs base m' b n ops is b' := by
  induction h with
  | nil => exact .nil
  | allocate hnew _ ih => exact .allocate hnew ih
  | expectObject ht hworld hx hc _ ih =>
    exact .expectObject (he.token _ _ ht) hworld hx (he.atom _ _ hc) ih
  | define ht hx hy hf _ ih => exact .define (he.token _ _ ht) hx hy (he.fact hf) ih
  | forget ht _ ih => exact .forget (he.token _ _ ht) ih
  | reject _ ih => exact .reject ih

/-- Every slot that the operations name has a token. -/
theorem Performs.token_ne (h : Performs base m b n ops is b') :
    ∀ op ∈ ops, ∀ k ∈ op.slots, token base m k ≠ none := by
  have hslot : ∀ {k : SlotId} {t : ℕ} {slot : String}, token base m ⟨slot⟩ = some t →
      k ∈ [SlotId.mk slot] → token base m k ≠ none := by
    intro k t slot ht hk
    rw [List.mem_singleton.1 hk, ht]
    exact Option.some_ne_none t
  induction h with
  | nil => exact fun op hop => nomatch hop
  | allocate _ _ ih => exact List.forall_mem_cons.2 ⟨fun k hk => (nomatch hk), ih⟩
  | expectObject ht _ _ _ _ ih => exact List.forall_mem_cons.2 ⟨fun k hk => hslot ht hk, ih⟩
  | define ht _ _ _ _ ih => exact List.forall_mem_cons.2 ⟨fun k hk => hslot ht hk, ih⟩
  | forget ht _ ih => exact List.forall_mem_cons.2 ⟨fun k hk => hslot ht hk, ih⟩
  | reject _ ih => exact List.forall_mem_cons.2 ⟨fun k hk => (nomatch hk), ih⟩

/-- A cell stands for one atom, and an atom has one cell. -/
theorem VmEpochMaterializer.Dictionaries.atomFromCell_inj (h : Dictionaries base names m)
    {c d : ℕ} {x : Atom} (hc : m.atomFromCell c = some x) (hd : m.atomFromCell d = some x) :
    c = d := by
  have hread : ∀ {e : ℕ}, m.atomFromCell e = some x →
      match x with
      | .entity i => e = i.value
      | .literal l => Vocabulary.token literalBase base.literals m.literals.lookup l = some e := by
    intro e he
    rw [h.atomFromCell_eq] at he
    by_cases hlt : e < literalBase
    · rw [if_pos hlt] at he
      cases he
      rfl
    · rw [if_neg hlt] at he
      obtain ⟨l, hl, rfl⟩ := Option.map_eq_some_iff.1 he
      exact (Vocabulary.token_iff h.literals l e).2 ⟨not_lt.1 hlt, hl⟩
  have hc' := hread hc
  have hd' := hread hd
  cases x with
  | entity i => exact hc'.trans hd'.symm
  | literal l => exact Option.some.inj (hc'.symm.trans hd')

/-- The last cell of a fact is that of its object. -/
theorem VmEpochMaterializer.factFromCells_object {s p o : ℕ} {f : Fact}
    (h : m.factFromCells s p o = some f) : m.atomFromCell o = some f.object := by
  simp only [factFromCells, bind, Option.bind_eq_some_iff, pure, Option.some.injEq] at h
  obtain ⟨subject, -, predicate, -, object, ho, rfl⟩ := h
  exact ho

namespace Workspace

/-- A token without a head. -/
theorem resolveTrialHead_invalid {t : ℕ} (h : ¬ t < w.acceptedHeads.length) (frontier : ℕ) :
    w.resolveTrialHead t frontier = .error (.rejected .invalidSlot) := by
  unfold resolveTrialHead acceptedHead
  rw [List.getElem?_eq_none (not_lt.1 h)]
  rfl

theorem Grown.refl (w : Workspace) : w.Grown w 0 0 := ⟨rfl, rfl, rfl, rfl, rfl, rfl, rfl⟩

theorem Room.of_grown {k r cost : ℕ} {w' : Workspace} (h : w.Room (k + r)) (hg : w.Grown w' r cost)
    (hcost : cost ≤ 6 * r) : w'.Room k := by
  obtain ⟨hrecords, hindexes⟩ := h
  have hr := hg.records
  have hi := hg.indexDeltas
  exact ⟨by omega, by omega⟩

theorem Room.roomFor {k cost : ℕ} (h : w.Room (k + 1)) (hcost : cost ≤ 6) : w.RoomFor cost := by
  obtain ⟨hrecords, hindexes⟩ := h
  exact ⟨by omega, by omega⟩

end Workspace

theorem pushCost_le {κ φ : Type} (a : StackMap κ φ) (k : κ) : pushCost a k ≤ 6 := by
  unfold pushCost
  split <;> omega

theorem popCost_le {κ φ : Type} (a : StackMap κ φ) (k : κ) : popCost a k ≤ 6 := by
  unfold popCost
  split <;> split <;> omega

namespace Running

variable {tok : SlotId → Option ℕ} {decode : ℕ → ℕ → ℕ → Option Fact} {a : WorldState}
  {slot : SlotId} {t k : ℕ}

/-- **A definition** of a slot that has a head. -/
theorem define (h : Running tok decode frontier w a) (ht : tok slot = some t) {s p o : ℕ}
    {fact : Fact} (hf : decode s p o = some fact) (hroom : w.Room (k + 1))
    (rest : List Instruction) :
    ∃ w' cost, w.run frontier (.push s :: .push p :: .push o :: .define t :: rest) =
        w'.run frontier rest ∧
      Running tok decode frontier w'
        { a with slots := a.slots.push slot fact, records := a.records + 1 } ∧
      w'.Room k ∧ w.Grown w' 1 cost := by
  have h₁ := h.withCells s p o
  have hg₁ : w.Grown (w.withCells s p o) 0 0 := by
    refine ⟨rfl, rfl, rfl, rfl, rfl, rfl, ?_⟩
    simp [Workspace.withCells]
  have hfits : (w.withCells s p o).RoomFor (pushCost a.slots slot) :=
    Room.roomFor (w := w.withCells s p o) hroom (pushCost_le _ _)
  rw [Workspace.run_define w h.stack h.stack_le]
  rcases h₁.trial.define_trial ht hf with ⟨-, hw, hg, htrial⟩ | ⟨hno, -⟩
  swap
  · exact absurd hfits hno
  rw [hw]
  have hg₂ := hg₁.trans hg
  rw [Nat.zero_add] at hg₂
  exact ⟨_, _, rfl, h₁.withRecord hg htrial,
    hroom.of_grown hg₂ (by rw [Nat.zero_add]; exact pushCost_le _ _), hg₂⟩

/-- **A forget** of a slot that has a head. -/
theorem forget (h : Running tok decode frontier w a) (ht : tok slot = some t)
    (hroom : w.Room (k + 1)) (rest : List Instruction) :
    ∃ w' cost, w.run frontier (.forget t :: rest) = w'.run frontier rest ∧
      Running tok decode frontier w'
        { a with slots := a.slots.pop slot, records := a.records + 1 } ∧
      w'.Room k ∧ w.Grown w' 1 cost := by
  rw [Workspace.run_forget]
  rcases h.trial.forget_trial ht with ⟨-, hw, hg, htrial⟩ | ⟨hno, -⟩
  · rw [hw]
    exact ⟨_, _, rfl, h.withRecord hg htrial, hroom.of_grown hg (popCost_le _ _), hg⟩
  · exact absurd (hroom.roomFor (popCost_le _ _)) hno

/-- **An allocation.** -/
theorem allocate (h : Running tok decode frontier w a) :
    Running tok decode frontier { w with nextEntity := w.nextEntity + 1 }
      { a with next := a.next + 1 } :=
  ⟨⟨h.trial.linked, h.trial.token_lt, h.trial.token_inj, h.trial.named, h.trial.frontier_le,
    h.trial.track, h.trial.deltas_le, h.trial.records_le, h.trial.indexes_le⟩,
    by simp [h.next], h.records, h.stack, h.stack_le⟩

/-- **The object of a slot** that has a head, as a cell. -/
theorem resolveTrialObject (h : Running tok decode frontier w a) (ht : tok slot = some t) :
    (a.slots.top slot = none ∧ w.resolveTrialObject t frontier = .ok none) ∨
    ∃ fact s p o, a.slots.top slot = some fact ∧ decode s p o = some fact ∧
      w.resolveTrialObject t frontier = .ok (some o) := by
  have htop := h.trial.linked.top_eq slot
  unfold Workspace.resolveTrialObject
  rw [Workspace.resolveTrialHead_eq (h.trial.token_lt slot t ht)]
  rw [ht, Option.bind_some] at htop
  cases hi : w.trialHead frontier t with
  | none =>
    rw [hi] at htop
    exact .inl ⟨htop, rfl⟩
  | some i =>
    obtain ⟨r, fact, hr, hf, -⟩ := h.trial.head_lt ht hi
    refine .inr ⟨fact, _, _, _, ?_, hf, ?_⟩
    · rw [htop, hi]
      simp [recordNode, hr, hf]
    · simp only [bind, Except.bind, record, hr]
      rfl

end Running

/-- Whether every slot that the operations name has a head. -/
def SlotsHeaded (base : FrozenNames) (m : VmEpochMaterializer) (ops : List TransactionOp) : Prop :=
  ∀ op ∈ ops, ∀ k ∈ op.slots, (liveToken base m k).isSome

/-- How a run of a transaction's program ends: as its evaluation does, unless a slot has no head. -/
inductive EndsAsEvaluated (base : FrozenNames) (m : VmEpochMaterializer) (predecessor : WorldId)
    (s : Evaluation) (ops : List TransactionOp) (b' : Dict String EntityId) (frontier : ℕ)
    (w : Workspace) (is : List Instruction) : Prop
  | accepted {w' : Workspace} {s' : Evaluation} {r cost : ℕ} :
    w.run frontier is = .ok (.accepted, w') → evaluateAll predecessor s ops = some s' →
    Running (liveToken base m) m.factFromCells frontier w' s'.state → s'.bindings = b' →
    SlotsHeaded base m ops → w.Grown w' r cost →
    EndsAsEvaluated base m predecessor s ops b' frontier w is
  | rejected {error : ExecError} {w' : Workspace} :
    w.run frontier is = .ok (.rejected error, w') →
    (evaluateAll predecessor s ops = none ∨ ¬ SlotsHeaded base m ops) →
    EndsAsEvaluated base m predecessor s ops b' frontier w is

namespace EndsAsEvaluated

variable {predecessor : WorldId} {s s₁ : Evaluation} {op : TransactionOp} {w₁ : Workspace}
  {js : List Instruction}

/-- One operation in front of a program. -/
theorem cons {r cost : ℕ} (h : EndsAsEvaluated base m predecessor s₁ ops b' frontier w₁ is)
    (hrun : w.run frontier js = w₁.run frontier is) (hop : op.evaluate predecessor s = some s₁)
    (hheaded : ∀ k ∈ op.slots, (liveToken base m k).isSome) (hg : w.Grown w₁ r cost) :
    EndsAsEvaluated base m predecessor s (op :: ops) b' frontier w js := by
  have heval : evaluateAll predecessor s (op :: ops) = evaluateAll predecessor s₁ ops := by
    simp only [evaluateAll, hop, Option.bind_some]
  cases h with
  | accepted hw' hs' hrest hb hslots hg' =>
    refine .accepted (hrun.trans hw') (heval.trans hs') hrest hb (fun x hx => ?_) (hg.trans hg')
    rcases List.mem_cons.1 hx with rfl | hx
    · exact hheaded
    · exact hslots x hx
  | rejected hw' hno =>
    rw [← heval] at hno
    refine .rejected (hrun.trans hw') (hno.imp_right fun hno hall => hno fun x hx => ?_)
    exact hall x (List.mem_cons_of_mem _ hx)

/-- An operation at which the run is rejected. -/
theorem stop {error : ExecError} {w' : Workspace}
    (hrun : w.run frontier js = .ok (.rejected error, w'))
    (hop : op.evaluate predecessor s = none ∨ ∃ k ∈ op.slots, liveToken base m k = none) :
    EndsAsEvaluated base m predecessor s (op :: ops) b' frontier w js := by
  refine .rejected hrun ?_
  rcases hop with hop | ⟨k, hk, hnone⟩
  · left
    simp only [evaluateAll, hop, Option.bind_none]
  · right
    intro hall
    have hsome := hall op List.mem_cons_self k hk
    rw [hnone] at hsome
    cases hsome

end EndsAsEvaluated

/-- An expectation compares cells. -/
theorem Workspace.run_expectObject {t : ℕ} (hworld : t ≠ Instruction.worldArgument)
    (w : Workspace) (frontier c : ℕ) (rest : List Instruction) :
    w.run frontier (.expectObject t c :: rest) =
      match w.resolveTrialObject t frontier with
      | .ok (some actual) =>
        if actual = c then w.run frontier rest else .ok (.rejected .expectedValueMismatch, w)
      | .ok none => .ok (.rejected .missingExpectedValue, w)
      | .error (.rejected error) => .ok (.rejected error, w)
      | .error (.panicked message) => .error message := by
  have hstep : w.executeInstruction (.expectObject t c) frontier =
      w.resolveTrialObject t frontier >>= fun actual =>
        actual.elim (.error (.rejected .missingExpectedValue)) fun actual =>
          if actual = c then pure w else .error (.rejected .expectedValueMismatch) := by
    refine (if_neg hworld).trans ?_
    congr 1
    funext actual
    cases actual <;> rfl
  simp only [Workspace.run, hstep]
  cases w.resolveTrialObject t frontier with
  | error stop => cases stop <;> rfl
  | ok actual =>
    cases actual with
    | none => rfl
    | some actual =>
      simp only [bind, Except.bind, Option.elim_some]
      by_cases heq : actual = c
      · simp only [if_pos heq]
        rfl
      · simp only [if_neg heq]

/-- A token either has a head or is refused. -/
theorem VmEpochMaterializer.liveToken_or {k : SlotId} {t : ℕ} (ht : token base m k = some t) :
    liveToken base m k = some t ∨
      liveToken base m k = none ∧ ¬ t < m.workspace.acceptedHeads.length := by
  by_cases hlt : t < m.workspace.acceptedHeads.length
  · exact .inl (liveToken_eq_some.2 ⟨ht, hlt⟩)
  · refine .inr ⟨?_, hlt⟩
    rw [Option.eq_none_iff_forall_ne_some]
    intro t' ht'
    obtain ⟨htok, hlt'⟩ := liveToken_eq_some.1 ht'
    rw [ht] at htok
    obtain rfl := Option.some.inj htok
    exact hlt hlt'

/-- **A program** runs as its transaction is evaluated. -/
theorem Performs.run (h : Performs base m b n ops is b') (hd : Dictionaries base names m)
    (predecessor : WorldId) {s : Evaluation}
    (hheads : w.acceptedHeads.length = m.workspace.acceptedHeads.length)
    (hrun : Running (liveToken base m) m.factFromCells frontier w s.state)
    (hb : s.bindings = b) (hn : s.state.next = n) (hroom : w.Room ops.length) :
    EndsAsEvaluated base m predecessor s ops b' frontier w is := by
  induction h generalizing w s with
  | nil =>
    exact .accepted rfl rfl hrun hb (fun _ hop => (by cases hop)) (.refl w)
  | @allocate b b' n ops is result hnew h ih =>
    subst hb hn
    have hop : (TransactionOp.allocate result).evaluate predecessor s =
        some ⟨{ s.state with next := s.state.next + 1 },
          s.bindings.insert result ⟨s.state.next⟩,
          s.operations ++ [.allocateEntity ⟨s.state.next⟩]⟩ := by
      simp [TransactionOp.evaluate, hnew, Evaluation.commit, WorldState.apply]
    have hg : w.Grown { w with nextEntity := w.nextEntity + 1 } 0 0 :=
      ⟨rfl, rfl, rfl, rfl, rfl, rfl, rfl⟩
    have hroom' : Room { w with nextEntity := w.nextEntity + 1 } ops.length :=
      hroom.mono (Nat.le_succ _)
    exact (ih (s := ⟨_, _, _⟩) (w := { w with nextEntity := w.nextEntity + 1 }) hheads hrun.allocate
      rfl rfl hroom').cons rfl hop (fun k hk => (by cases hk)) hg
  | @expectObject b b' n t c ops is slot expected atom ht hworld hx hc h ih =>
    subst hb hn
    have hroom' := hroom.mono (Nat.le_succ ops.length)
    have hstep := Workspace.run_expectObject hworld w frontier c is
    rcases liveToken_or ht with hlive | ⟨hdead, hlt⟩
    swap
    · -- the slot has no head
      rw [← hheads] at hlt
      have hobject : w.resolveTrialObject t frontier = .error (.rejected .invalidSlot) := by
        unfold resolveTrialObject
        rw [resolveTrialHead_invalid hlt]
        rfl
      rw [hobject] at hstep
      exact .stop hstep (.inr ⟨⟨slot⟩, List.mem_singleton.2 rfl, hdead⟩)
    rcases hrun.resolveTrialObject hlive with ⟨htop, hobject⟩ | ⟨fact, s', p, o, htop, hf, hobject⟩
    · rw [hobject] at hstep
      refine .stop hstep (.inl ?_)
      simp only [TransactionOp.evaluate, hx, htop, Option.bind_some, Option.bind_none]
    rw [hobject] at hstep
    simp only at hstep
    have ho := factFromCells_object hf
    have hop : (TransactionOp.expectObject slot expected).evaluate predecessor s =
        if fact.object = atom then some s else none := by
      simp only [TransactionOp.evaluate, hx, htop, Option.bind_some]
    by_cases heq : o = c
    · subst heq
      rw [if_pos rfl] at hstep
      rw [if_pos (Option.some.inj (ho.symm.trans hc))] at hop
      refine (ih hheads hrun rfl rfl hroom').cons hstep hop (fun k hk => ?_)
        (.refl w)
      obtain rfl := List.mem_singleton.1 hk
      rw [hlive]
      rfl
    · rw [if_neg heq] at hstep
      refine .stop hstep (.inl ?_)
      rw [hop, if_neg]
      rintro rfl
      exact heq (hd.atomFromCell_inj ho hc)
  | @define b b' n t s' p o ops is slot predicate subject object x y ht hx hy hf h ih =>
    subst hb hn
    rcases liveToken_or ht with hlive | ⟨hdead, hlt⟩
    swap
    · rw [← hheads] at hlt
      have hstep := Workspace.run_define w hrun.stack hrun.stack_le frontier s' p o t is
      have hdefine : (w.withCells s' p o).define t s' p o frontier =
          .error (.rejected .invalidSlot) := by
        unfold Workspace.define
        rw [resolveTrialHead_invalid (w := w.withCells s' p o) hlt]
        rfl
      rw [hdefine] at hstep
      exact .stop hstep (.inr ⟨⟨slot⟩, List.mem_singleton.2 rfl, hdead⟩)
    obtain ⟨w', cost, hw', hrun', hroom', hg⟩ := hrun.define hlive hf hroom is
    have hop : (TransactionOp.define slot subject predicate object).evaluate predecessor s =
        some ⟨{ s.state with
            slots := s.state.slots.push ⟨slot⟩ ⟨x, ⟨predicate⟩, y⟩
            records := s.state.records + 1 }, s.bindings,
          s.operations ++ [.define ⟨slot⟩ ⟨x, ⟨predicate⟩, y⟩]⟩ := by
      simp [TransactionOp.evaluate, hx, hy, Evaluation.commit, WorldState.apply]
    refine (ih (s := ⟨_, _, _⟩) (by rw [hg.heads]; exact hheads) hrun' rfl rfl hroom').cons hw' hop
      (fun k hk => ?_) hg
    obtain rfl := List.mem_singleton.1 hk
    rw [hlive]
    rfl
  | @forget b b' n t ops is slot ht h ih =>
    subst hb hn
    rcases liveToken_or ht with hlive | ⟨hdead, hlt⟩
    swap
    · rw [← hheads] at hlt
      have hstep := Workspace.run_forget w frontier t is
      have hforget : w.forget t frontier = .error (.rejected .invalidSlot) := by
        unfold Workspace.forget
        rw [resolveTrialHead_invalid hlt]
        rfl
      rw [hforget] at hstep
      exact .stop hstep (.inr ⟨⟨slot⟩, List.mem_singleton.2 rfl, hdead⟩)
    obtain ⟨w', cost, hw', hrun', hroom', hg⟩ := hrun.forget hlive hroom is
    have hop : (TransactionOp.forget slot).evaluate predecessor s =
        some ⟨{ s.state with
            slots := s.state.slots.pop ⟨slot⟩
            records := s.state.records + 1 }, s.bindings,
          s.operations ++ [.forget ⟨slot⟩]⟩ := by
      simp [TransactionOp.evaluate, Evaluation.commit, WorldState.apply]
    refine (ih (s := ⟨_, _, _⟩) (by rw [hg.heads]; exact hheads) hrun' rfl rfl hroom').cons hw' hop
      (fun k hk => ?_) hg
    obtain rfl := List.mem_singleton.1 hk
    rw [hlive]
    rfl
  | reject h ih => exact .stop rfl (.inl rfl)

/-- **A trial** of a transaction's program on the workspace of a materializer that stands for a
state: accepted, it stands for the state that the evaluation leads to. -/
theorem Performs.execute {a : WorldState} (h : Performs base m ∅ a.next ops is b')
    (hm : m.Stands base names a) (hroom : m.workspace.Room ops.length) (predecessor : WorldId) :
    (∃ s' w', evaluateAll predecessor (.start a) ops = some s' ∧ s'.bindings = b' ∧
      SlotsHeaded base m ops ∧ m.workspace.executeInstructions 0 is = .ok (.accepted, w') ∧
      { m with workspace := w' }.Stands base names s'.state) ∨
    ∃ error w', (evaluateAll predecessor (.start a) ops = none ∨ ¬ SlotsHeaded base m ops) ∧
      m.workspace.executeInstructions 0 is = .ok (.rejected error, w') := by
  set w := m.workspace with hw
  have hrest := hm.rest
  rw [← hw] at hrest
  have hrun : Running (liveToken base m) m.factFromCells w.deltas.length
      { w with frameBase := w.stackPointer } a :=
    ⟨hrest.trial.restart _, hrest.next, hrest.records, rfl, by
      have := hrest.stack_le
      simpa [hrest.stack] using this⟩
  have hends := h.run hm.dictionaries predecessor (s := .start a)
    (w := { w with frameBase := w.stackPointer }) rfl hrun rfl rfl hroom
  rw [Workspace.executeInstructions_zero w (by rw [hrest.stack]; exact Nat.zero_le _)]
  cases hends with
  | @accepted w' s' r cost hw' hs' hrun' hb hslots hg =>
    refine .inl ⟨s', w'.accept w.checkpoint, hs', hb, hslots, by rw [hw']; rfl, ?_⟩
    have hlen : (w'.accept w.checkpoint).acceptedHeads.length = w.acceptedHeads.length := by
      rw [Workspace.accept_heads_length, hg.heads]
    have htok : liveToken base { m with workspace := w'.accept w.checkpoint } =
        liveToken base m := by
      funext k
      unfold liveToken
      rw [hlen]
      rfl
    have ht : Trial (liveToken base m) m.factFromCells w.checkpoint.deltaFrontier w'
        s'.state.slots := hrun'.trial
    refine ⟨hm.dictionaries.withWorkspace _, ?_⟩
    rw [htok]
    refine ⟨ht.accept_trial, hrun'.next, hrun'.records, hrest.stack, hrest.frameBase, ?_⟩
    rw [show (w'.accept w.checkpoint).stack = w'.stack from rfl, hg.stack]
    exact hrest.stack_le
  | rejected hw' hno => exact .inr ⟨_, _, hno, by rw [hw']; rfl⟩

end ForthDB
