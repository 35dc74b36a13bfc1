import ForthDB.Vm.Names
import ForthDB.Vm.Rollback

/-!
# A materializer beside its workspace

The dictionaries of a materializer may know more names than its arenas hold records, and
slots whose token has no head: rejected programs leave their names behind, and a reset
replaces the workspace only. `liveToken` is the token of a slot that has a head.

* `m.Stands base names a`: the materializer `m` stands for the abstract state `a`.
* `Stands.extend`, `Stands.execute`, `Stands.reject`: it does so behind names that were
  interned, behind an accepted program for the successor state, and behind a rejected one.
* `Stands.resolveFact_eq`: **readers see the top of the stack**.
-/

namespace ForthDB

open Workspace

section

variable {token : SlotId → Option ℕ} {decode : ℕ → ℕ → ℕ → Option Fact}

/-- A workspace between trials that stands for an abstract state, up to its stale cells. -/
theorem AtRest.withStack {w w' : Workspace} {a : WorldState} (h : AtRest token decode w a)
    (hw : w' = { w with stack := w'.stack }) (hs : w'.stack.length = w.stack.length) :
    AtRest token decode w' a := by
  have hle : 3 ≤ w'.stack.length := hs ▸ h.stack_le
  rw [hw]
  exact ⟨⟨h.trial.linked, h.trial.token_lt, h.trial.token_inj, h.trial.named, h.trial.frontier_le,
    h.trial.track, h.trial.deltas_le, h.trial.records_le, h.trial.indexes_le⟩, h.next, h.records,
    h.stack, h.frameBase, hle⟩

/-- A lowered program that names only slots with a head. -/
theorem Lowers.live {n : ℕ} {ops : List Operation} {is : List Instruction}
    (h : Lowers token decode ops is)
    (hlt : ∀ i ∈ is, appendsRecord i = true → i.argument < n) :
    Lowers (fun k => (token k).filter fun t => t < n) decode ops is := by
  induction h with
  | nil => exact .nil
  | allocate e _ ih =>
    rw [List.forall_mem_cons] at hlt
    exact .allocate e (ih hlt.2)
  | @define ops is slot fact t s p o hs hf _ ih =>
    have ht : t < n := hlt (.define t) (by simp) rfl
    refine .define (by simp [hs, ht]) hf (ih fun i hi => hlt i ?_)
    simp [hi]
  | @forget ops is slot t hs _ ih =>
    rw [List.forall_mem_cons] at hlt
    have ht : t < n := hlt.1 rfl
    exact .forget (by simp [hs, ht]) (ih hlt.2)

/-- A lowered program is all effects. -/
theorem Lowers.effects_eq {ops : List Operation} {is : List Instruction}
    (h : Lowers token decode ops is) : effects is = is := by
  induction h with
  | nil => rfl
  | allocate _ _ ih => exact congrArg (_ :: ·) ih
  | define _ _ _ ih => exact congrArg (_ :: _ :: _ :: _ :: ·) ih
  | forget _ _ ih => exact congrArg (_ :: ·) ih

/-- **An accepted program** on a workspace, seen through the tokens that have a head. -/
theorem AtRest.execute_live {w w' : Workspace} {a b : WorldState} {ops : List Operation}
    {is : List Instruction}
    (h : AtRest (fun k => (token k).filter fun t => t < w.acceptedHeads.length) decode w a)
    (hl : Lowers token decode ops (effects is)) (hb : a.applyAll ops = some b)
    (hw : w.executeInstructions 0 is = .ok (.accepted, w')) :
    AtRest (fun k => (token k).filter fun t => t < w'.acceptedHeads.length) decode w' b := by
  have hle : w.stackPointer ≤ w.stack.length := by
    rw [h.stack]
    exact Nat.zero_le _
  have hw' := executeInstructions_unexpected hle hw
  obtain ⟨w₁, hrun, -⟩ := executeInstructions_run hle hw'
  have hlive := hl.live (run_live hrun).2
  rcases execute_lowered hlive h hb with ⟨-, w₂, hw₂, hrest, -, -, hheads⟩ | ⟨-, message, hw₂⟩
  · rw [hw'] at hw₂
    cases hw₂
    rw [hheads]
    exact hrest
  · rw [hw'] at hw₂
    cases hw₂

end

namespace VmEpochMaterializer

/-- The token of a slot that has a head. -/
def liveToken (base : FrozenNames) (m : VmEpochMaterializer) (k : SlotId) : Option ℕ :=
  (token base m k).filter fun t => t < m.workspace.acceptedHeads.length

variable {base : FrozenNames} {names names' : List SlotId} {m m' : VmEpochMaterializer}
  {a b : WorldState}

theorem liveToken_eq_some {k : SlotId} {t : ℕ} :
    liveToken base m k = some t ↔
      token base m k = some t ∧ t < m.workspace.acceptedHeads.length := by
  unfold liveToken
  rw [Option.filter_eq_some_iff]
  simp

/-- The materializer stands for an abstract state. -/
structure Stands (base : FrozenNames) (names : List SlotId) (m : VmEpochMaterializer)
    (a : WorldState) : Prop where
  dictionaries : Dictionaries base names m
  rest : AtRest (liveToken base m) m.factFromCells m.workspace a

/-- **A new workspace** stands for an empty state, whatever the names. -/
theorem Dictionaries.stands (h : Dictionaries base names m) (nextEntity : ℕ) :
    { m with workspace := .withIndexesFrom nextEntity 0 32 }.Stands base names
      ⟨.empty, 0, nextEntity⟩ := by
  have hnone : ∀ k, liveToken base { m with
      workspace := .withIndexesFrom nextEntity 0 32 } k = none := by
    intro k
    rw [Option.eq_none_iff_forall_ne_some]
    intro t ht
    have := (liveToken_eq_some.1 ht).2
    simp [Workspace.withIndexesFrom] at this
  refine ⟨h.withWorkspace _, ⟨?_, ?_, ?_, ?_, le_rfl, rfl, le_rfl, ?_, ?_⟩, rfl, rfl, rfl, rfl, ?_⟩
  · intro slot
    simp only [hnone]
    exact Chain.nil
  · intro k t hk
    rw [hnone] at hk
    cases hk
  · intro k k' t hk
    rw [hnone] at hk
    cases hk
  · intro t i hi
    rw [Workspace.trialHead_rest] at hi
    simp [Workspace.withIndexesFrom] at hi
  · exact Nat.zero_le _
  · exact Nat.zero_le _
  · simp [Workspace.withIndexesFrom]

namespace Stands

/-- Names that were interned keep a materializer in its state. -/
theorem extend (h : m.Stands base names a) (hd : Dictionaries base names' m')
    (he : Extends base m m') : m'.Stands base names' a := by
  refine ⟨hd, ⟨?_, ?_, ?_, ?_, ?_, ?_⟩⟩
  · refine h.rest.trial.extend he.workspace he.heads ?_ ?_ ?_ fun s p o f hf => he.fact hf
    · intro k t hk
      obtain ⟨ht, hlt⟩ := liveToken_eq_some.1 hk
      exact liveToken_eq_some.2 ⟨he.token k t ht, hlt.trans_le he.grows⟩
    · intro k t hk
      exact (liveToken_eq_some.1 hk).2
    · intro k k' t hk hk'
      exact hd.token_inj (liveToken_eq_some.1 hk).1 (liveToken_eq_some.1 hk').1
  · rw [he.workspace]; exact h.rest.next
  · rw [he.workspace]; exact h.rest.records
  · rw [he.workspace]; exact h.rest.stack
  · rw [he.workspace]; exact h.rest.frameBase
  · rw [he.workspace]; exact h.rest.stack_le

theorem stack_le (h : m.Stands base names a) :
    m.workspace.stackPointer ≤ m.workspace.stack.length := by
  rw [h.rest.stack]
  exact Nat.zero_le _

/-- **An accepted program** leads to the state that its operations lead to. -/
theorem execute (h : m.Stands base names a) {ops : List Operation} {is : List Instruction}
    (hl : Lowers (token base m) m.factFromCells ops (effects is)) (hb : a.applyAll ops = some b)
    {w : Workspace} (hw : m.workspace.executeInstructions 0 is = .ok (.accepted, w)) :
    { m with workspace := w }.Stands base names b := by
  exact ⟨h.dictionaries.withWorkspace w, h.rest.execute_live hl hb hw⟩

/-- **A rejected program** leaves the state as it was. -/
theorem reject (h : m.Stands base names a) {is : List Instruction} {e : ExecError} {w : Workspace}
    (hw : m.workspace.executeInstructions 0 is = .ok (.rejected e, w)) :
    { m with workspace := w }.Stands base names a := by
  obtain ⟨hstack, hlen⟩ := executeInstructions_rejected hw
  refine ⟨h.dictionaries.withWorkspace w, ?_⟩
  have htok : liveToken base { m with workspace := w } = liveToken base m := by
    funext k
    unfold liveToken
    rw [hstack]
    rfl
  rw [htok]
  exact h.rest.withStack hstack hlen

/-- **What a reader sees**: the fact of three cells where the stack has a top. Another materializer
with the same tokens and the same workspace may read them otherwise. -/
theorem resolveFact_cells (h : m.Stands base names a) (slot : SlotId) :
    ∃ cells : Option (ℕ × ℕ × ℕ),
      a.slots.top slot = cells.bind (fun c => m.factFromCells c.1 c.2.1 c.2.2) ∧
      (cells.isSome → (a.slots.top slot).isSome) ∧
      ∀ m' : VmEpochMaterializer, m'.mappedBase = m.mappedBase →
        m'.slots.lookup slot = m.slots.lookup slot → m'.workspace = m.workspace →
        m'.resolveFact slot = .ok (cells.bind fun c => m'.factFromCells c.1 c.2.1 c.2.2) := by
  have htop := h.rest.trial.linked.top_eq slot
  have htok : token base m slot =
      (m.slots.lookup slot).or (m.mappedBase.bind fun b => b.slotToken slot) := by
    rw [h.dictionaries.slotFind]
    simp [token, Vocabulary.token]
  have hread : ∀ m' : VmEpochMaterializer, m'.mappedBase = m.mappedBase →
      m'.slots.lookup slot = m.slots.lookup slot → m'.workspace = m.workspace →
      m'.resolveFact slot = (token base m slot).elim (.ok none) fun t =>
        (m.workspace.resolveFactCells t).map fun cells =>
          cells.bind fun c => m'.factFromCells c.1 c.2.1 c.2.2 := by
    intro m' hmapped hslots hworkspace
    cases ht : token base m slot <;>
      simp only [resolveFact, hmapped, hslots, hworkspace, ← htok, ht, Option.elim]
  cases ht : token base m slot with
  | none =>
    have hlive : liveToken base m slot = none := by simp [liveToken, ht]
    rw [hlive] at htop
    refine ⟨none, htop, fun h => (by cases h), fun m' h1 h2 h3 => ?_⟩
    rw [hread m' h1 h2 h3, ht]
    rfl
  | some t =>
    by_cases hlt : t < m.workspace.acceptedHeads.length
    · have hlive : liveToken base m slot = some t := liveToken_eq_some.2 ⟨ht, hlt⟩
      rw [hlive, Option.bind_some] at htop
      cases hi : m.workspace.acceptedHeads[t] with
      | none =>
        have hhead : m.workspace.trialHead m.workspace.deltas.length t = none := by
          rw [Workspace.trialHead_rest, List.getElem?_eq_getElem hlt, hi]
          rfl
        rw [hhead] at htop
        refine ⟨none, htop, fun h => (by cases h), fun m' h1 h2 h3 => ?_⟩
        rw [hread m' h1 h2 h3, ht, Option.elim_some]
        simp only [Workspace.resolveFactCells, List.getElem?_eq_getElem hlt, hi]
        rfl
      | some i =>
        have hhead : m.workspace.trialHead m.workspace.deltas.length t = some i := by
          rw [Workspace.trialHead_rest, List.getElem?_eq_getElem hlt, hi]
          rfl
        obtain ⟨r, f, hr, hf, -⟩ := h.rest.trial.head_lt hlive hhead
        rw [hhead, Option.bind_some] at htop
        simp only [recordNode, hr, Option.bind_some, hf, Option.map_some] at htop
        refine ⟨some (r.subject, r.predicate, r.object), htop.trans hf.symm,
          fun _ => by rw [htop]; rfl, fun m' h1 h2 h3 => ?_⟩
        rw [hread m' h1 h2 h3, ht, Option.elim_some]
        simp only [Workspace.resolveFactCells, List.getElem?_eq_getElem hlt, hi, hr, Except.map]
    · -- a token without a head
      have hlive : liveToken base m slot = none := by simp [liveToken, ht, not_lt.1 hlt]
      rw [hlive] at htop
      refine ⟨none, htop, fun h => (by cases h), fun m' h1 h2 h3 => ?_⟩
      rw [hread m' h1 h2 h3, ht, Option.elim_some]
      simp only [Workspace.resolveFactCells, List.getElem?_eq_none (not_lt.1 hlt)]
      rfl

/-- **Readers see the top of the stack.** -/
theorem resolveFact_eq (h : m.Stands base names a) (slot : SlotId) :
    m.resolveFact slot = .ok (a.slots.top slot) := by
  obtain ⟨cells, htop, -, hread⟩ := h.resolveFact_cells slot
  rw [hread m rfl rfl rfl, htop]

/-- A materializer with the same names and the same workspace stands for the same state. -/
theorem congr (h : m.Stands base names a) (hd : Dictionaries base names m')
    (hw : m'.workspace = m.workspace) (hs : m'.slots.lookup = m.slots.lookup)
    (hf : m'.factFromCells = m.factFromCells) : m'.Stands base names a := by
  refine ⟨hd, ?_⟩
  have htok : liveToken base m' = liveToken base m := by
    funext k
    unfold liveToken token
    rw [hs, hw]
  rw [htok, hw, hf]
  exact h.rest

end Stands

end VmEpochMaterializer

end ForthDB
