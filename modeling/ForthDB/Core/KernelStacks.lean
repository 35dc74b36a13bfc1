import ForthDB.Core.Kernel
import ForthDB.Lib.LinkedStacks

/-!
# The kernel holds one stack of definitions for each slot

The abstract state of a kernel is a `StackMap`: define pushes, forget pops.

* `ForthDb.Holds k m`: the log of `k` links exactly the stacks of `m`, and the two
  activity signatures agree with the heads.
* `define_holds`, `forget_holds`: one operation keeps it.
* `resolve_eq`, `activeSlotCount_eq`, `validate_ok`: what it gives to readers. In
  particular **`validate` never fails on a kernel that was only used through its
  operations**.
-/

namespace ForthDB

/-- The facts of slots, as an abstract state. -/
abbrev SlotStacks : Type := StackMap SlotId Fact

/-- The arena behind the definition chains: definitions carry a fact, forgets do not. -/
def factNode (log : List Record) (i : ℕ) : Option (Fact × Option ℕ) :=
  log[i]?.bind fun r => r.fact.map fun f => (f, r.previousHead)

theorem factNode_append {log : List Record} (r : Record) {i : ℕ} {x : Fact × Option ℕ}
    (h : factNode log i = some x) : factNode (log ++ [r]) i = some x := by
  unfold factNode at h ⊢
  rcases lt_or_ge i log.length with hi | hi
  · rwa [List.getElem?_append_left hi]
  · rw [List.getElem?_eq_none hi] at h; cases h

theorem factNode_last (log : List Record) (r : Record) :
    factNode (log ++ [r]) log.length = r.fact.map fun f => (f, r.previousHead) := by
  simp [factNode]

namespace DefinitionStore

variable (s : DefinitionStore) (slot : SlotId)

@[simp] theorem replaceHead_log (h : Option ℕ) : (s.replaceHead slot h).log = s.log := by
  cases h <;> rfl

theorem replaceHead_head (h : Option ℕ) (slot' : SlotId) :
    (s.replaceHead slot h).head.lookup slot' = if slot' = slot then h else s.head.lookup slot' := by
  by_cases hs : slot' = slot
  · subst hs
    cases h <;> simp [replaceHead]
  · cases h <;> simp [replaceHead, hs]

/-- The signature counts heads. -/
theorem replaceHead_count (h : Option ℕ) (hc : s.head.size = s.activeSignature.count) :
    (s.replaceHead slot h).head.size = (s.replaceHead slot h).activeSignature.count := by
  cases hl : s.head.lookup slot with
  | none =>
    cases h with
    | none =>
      have : s.head.erase slot = s.head := by
        apply AList.ext
        have hn : slot ∉ s.head := by rw [← AList.lookup_eq_none, hl]
        exact List.kerase_of_notMem_keys hn
      simp [replaceHead, hl, this, hc]
    | some i => simp [replaceHead, hl, Dict.size_insert_new hl, ActiveSignature.add, hc]
  | some old =>
    have hp := Dict.size_erase_old hl
    cases h with
    | none => simp only [replaceHead, hl, ActiveSignature.remove]; omega
    | some i =>
      have := Dict.size_insert_old hl i
      simp only [replaceHead, hl, ActiveSignature.remove, ActiveSignature.add]
      omega

theorem replaceHead_size_le (h : Option ℕ) :
    (s.replaceHead slot h).head.size ≤ s.head.size + 1 := by
  cases hl : s.head.lookup slot with
  | none =>
    cases h with
    | none =>
      simp only [replaceHead, Dict.size, AList.keys_erase]
      exact le_trans List.length_erase_le (Nat.le_succ _)
    | some i => simp [replaceHead, Dict.size_insert_new hl]
  | some old =>
    have hp := Dict.size_erase_old hl
    cases h with
    | none => simp only [replaceHead]; omega
    | some i =>
      have := Dict.size_insert_old hl i
      simp only [replaceHead]; omega

end DefinitionStore

namespace ForthDb

/-- The kernel's log links exactly the stacks of `m`. -/
structure Holds (k : ForthDb) (m : SlotStacks) : Prop where
  linked : Linked (factNode k.store.log) k.store.head.lookup m
  count : k.store.head.size = k.store.activeSignature.count
  size_le : k.store.head.size ≤ k.store.log.length
  view : k.viewSignature = k.store.activeSignature

theorem new_holds : new.Holds .empty :=
  ⟨fun slot => by simpa [new, DefinitionStore.empty] using Chain.nil, rfl, le_rfl, rfl⟩

variable {k : ForthDb} {m : SlotStacks}

theorem entity_holds (h : k.Holds m) : k.entity.2.Holds m :=
  ⟨h.linked, h.count, h.size_le, h.view⟩

@[simp] theorem define_nextEntity (slot : SlotId) (f : Fact) :
    (k.define slot f).nextEntity = k.nextEntity := rfl

@[simp] theorem forget_nextEntity (slot : SlotId) : (k.forget slot).nextEntity = k.nextEntity := rfl

@[simp] theorem define_recordCount (slot : SlotId) (f : Fact) :
    (k.define slot f).recordCount = k.recordCount + 1 := by
  simp [define, recordCount, DefinitionStore.recordCount, DefinitionStore.appendDefine]

@[simp] theorem forget_recordCount (slot : SlotId) :
    (k.forget slot).recordCount = k.recordCount + 1 := by
  simp [forget, recordCount, DefinitionStore.recordCount, DefinitionStore.appendForget]

/-- **A define pushes.** -/
theorem define_holds (h : k.Holds m) (slot : SlotId) (f : Fact) :
    (k.define slot f).Holds (m.push slot f) := by
  set r : Record :=
    { id := k.store.log.length, kind := .define, slot := slot, fact := some f,
      previousHead := k.store.head.lookup slot, resultingHead := some k.store.log.length } with hr
  set s₁ : DefinitionStore := { k.store with log := k.store.log ++ [r] } with hs₁
  have hstore : (k.define slot f).store = s₁.replaceHead slot (some k.store.log.length) := rfl
  refine ⟨?_, ?_, ?_, ?_⟩
  · rw [hstore, DefinitionStore.replaceHead_log]
    refine h.linked.push (fun j x hj => factNode_append r hj) (i := k.store.log.length) ?_ ?_ ?_
    · rw [factNode_last]; rfl
    · rw [DefinitionStore.replaceHead_head, if_pos rfl]
    · intro slot' hne
      rw [DefinitionStore.replaceHead_head, if_neg hne]
  · rw [hstore]; exact DefinitionStore.replaceHead_count _ _ _ h.count
  · rw [hstore, DefinitionStore.replaceHead_log]
    have h1 := DefinitionStore.replaceHead_size_le s₁ slot (some k.store.log.length)
    have h2 := h.size_le
    have h3 : s₁.log.length = k.store.log.length + 1 := by simp [hs₁]
    have h4 : s₁.head.size = k.store.head.size := rfl
    omega
  · rw [hstore]
    cases hl : k.store.head.lookup slot <;>
      simp [define, DefinitionStore.appendDefine, DefinitionStore.replaceHead, hs₁, hl, h.view]

theorem forget_viewSignature (k : ForthDb) (slot : SlotId) :
    (k.forget slot).viewSignature =
      match k.store.head.lookup slot, (k.store.appendForget slot).1.2 with
      | some old, some new => (k.viewSignature.remove old).add new
      | some old, none => k.viewSignature.remove old
      | none, some new => k.viewSignature.add new
      | none, none => k.viewSignature := rfl

/-- **A forget pops.** -/
theorem forget_holds (h : k.Holds m) (slot : SlotId) : (k.forget slot).Holds (m.pop slot) := by
  set revealed : Option ℕ :=
    (k.store.head.lookup slot).bind fun i => k.store.log[i]?.bind Record.previousHead with hrev
  set r : Record :=
    { id := k.store.log.length, kind := .forget, slot := slot, fact := none,
      previousHead := k.store.head.lookup slot, resultingHead := revealed } with hr
  set s₁ : DefinitionStore := { k.store with log := k.store.log ++ [r] } with hs₁
  have hstore : (k.forget slot).store = s₁.replaceHead slot revealed := rfl
  -- the head of a slot is a definition, so its predecessor is the chain's
  have hprev : revealed = (k.store.head.lookup slot).bind fun i =>
      (factNode k.store.log i).bind Prod.snd := by
    rw [hrev]
    have hc : Chain _ (k.store.head.lookup slot) (m.stack slot) := h.linked slot
    cases hl : k.store.head.lookup slot with
    | none => rfl
    | some i =>
      rw [hl] at hc
      cases hs : m.stack slot with
      | nil => rw [hs] at hc; cases hc
      | cons f fs =>
        rw [hs] at hc
        cases hc with
        | cons hn _ =>
          simp only [Option.bind_some]
          unfold factNode at hn ⊢
          cases hg : k.store.log[i]? with
          | none => simp [hg] at hn
          | some q =>
            simp only [hg, Option.bind_some, Option.map_eq_some_iff] at hn
            obtain ⟨g, hq, -⟩ := hn
            simp [hq]
  refine ⟨?_, ?_, ?_, ?_⟩
  · rw [hstore, DefinitionStore.replaceHead_log]
    refine h.linked.pop (fun j x hj => factNode_append r hj) ?_ ?_
    · rw [DefinitionStore.replaceHead_head, if_pos rfl, hprev]
    · intro slot' hne
      rw [DefinitionStore.replaceHead_head, if_neg hne]
  · rw [hstore]; exact DefinitionStore.replaceHead_count _ _ _ h.count
  · rw [hstore, DefinitionStore.replaceHead_log]
    have h1 := DefinitionStore.replaceHead_size_le s₁ slot revealed
    have h2 := h.size_le
    have h3 : s₁.log.length = k.store.log.length + 1 := by simp [hs₁]
    have h4 : s₁.head.size = k.store.head.size := rfl
    omega
  · rw [hstore, forget_viewSignature]
    have hrev' : (k.store.appendForget slot).1.2 = revealed := rfl
    rw [hrev']
    cases hl : k.store.head.lookup slot <;> cases revealed <;>
      simp [DefinitionStore.replaceHead, hs₁, hl, h.view]

/-- **Readers see the top of the stack.** -/
theorem resolve_eq (h : k.Holds m) (slot : SlotId) : k.resolve slot = m.top slot := by
  rw [h.linked.top_eq slot]
  unfold resolve DefinitionStore.resolveRecord factNode
  cases hl : k.store.head.lookup slot with
  | none => rfl
  | some i =>
    cases hg : k.store.log[i]? with
    | none => simp [hg]
    | some q => cases hq : q.fact <;> simp [hg, hq]

theorem activeSlotCount_eq (h : k.Holds m) : k.activeSlotCount = m.size := by
  unfold activeSlotCount DefinitionStore.activeSlotCount StackMap.size
  rw [Dict.size_eq_card]
  congr 1
  ext slot
  rw [List.mem_toFinset, Dict.mem_keys, h.linked.mem_active]

/-- **Validation cannot fail.** -/
theorem validate_ok (h : k.Holds m) : k.validate = .ok () := by
  have h1 := h.count
  have h2 := h.size_le
  have h3 : k.store.validateFast = .ok () := by
    unfold DefinitionStore.validateFast
    rw [if_neg (by omega), if_neg (by omega)]
  unfold validate
  rw [h3]
  simp [bind, Except.bind, h.view]

end ForthDb

end ForthDB
