import ForthDB.Queue.SemanticRuns
import ForthDB.Vm.TrialShape

/-!
# What a transaction compiles to

The trial of a semantic intent is an overlay of an eager materializer `e`, and the program that
is compiled against the trial performs the transaction on the names of `e`.

* `Compiling base m c e used ps ls k`: the compiler `c` numbers names as `e` does, which extends
  the materializer `m` by the slots `used`, the predicates `ps` and the literals `ls`.
* `SlotsInterned`: which slots of `e` have a head.
* `operation_compiles`, `operations_compiles`: **a transaction compiles to a program that performs
  it**, or is refused, and then no state lets its evaluation accept.
-/

namespace ForthDB

open Workspace VmEpochMaterializer

variable {base : FrozenNames} {m e e' : VmEpochMaterializer} {used : List SlotId}

/-- The entities of an operation lie below the literal cells. -/
def TransactionOp.EntitiesInRange : TransactionOp → Prop
  | .expectObject _ expected => expected.InVmRange
  | .define _ subject _ object => subject.InVmRange ∧ object.InVmRange
  | _ => True

instance (x : AtomRef) : Decidable x.InVmRange :=
  match x with
  | .entity e => inferInstanceAs (Decidable (e.value < literalBase))
  | .literal _ | .symbol _ => inferInstanceAs (Decidable True)

instance (op : TransactionOp) : Decidable op.EntitiesInRange :=
  match op with
  | .expectObject _ expected => inferInstanceAs (Decidable expected.InVmRange)
  | .define _ _ _ _ => inferInstanceAs (Decidable (_ ∧ _))
  | .allocate _ | .expectWorld _ | .forget _ | .reject => inferInstanceAs (Decidable True)

/-- A new slot gets a head, and so does every slot before it; where all slots are known the
workspace stays. -/
def SlotsInterned (base : FrozenNames) (m e : VmEpochMaterializer) (used : List SlotId) : Prop :=
  (∃ k ∈ used, token base m k = none) ∧
    e.baseSlotCount + e.slots.size ≤ e.workspace.acceptedHeads.length ∨
  e.workspace = m.workspace ∧ e.slots = m.slots ∧ ∀ k ∈ used, token base m k ≠ none

theorem SlotsInterned.congr (h : SlotsInterned base m e used) (hb : e'.bare = e.bare) :
    SlotsInterned base m e' used := by
  have hw : e'.bare.workspace = e.bare.workspace := congrArg VmEpochMaterializer.workspace hb
  have hs : e'.bare.slots = e.bare.slots := congrArg VmEpochMaterializer.slots hb
  have hc : e'.bare.baseSlotCount = e.bare.baseSlotCount :=
    congrArg VmEpochMaterializer.baseSlotCount hb
  change e'.workspace = e.workspace at hw
  change e'.slots = e.slots at hs
  change e'.baseSlotCount = e.baseSlotCount at hc
  unfold SlotsInterned
  rw [hw, hs, hc]
  exact h

/-- One more slot. -/
theorem SlotsInterned.slotToken {names : List SlotId} (h : SlotsInterned base m e used)
    (hd : Dictionaries base names e) (slot : SlotId) :
    SlotsInterned base m (e.slotToken slot).2 (used ++ [slot]) := by
  have htok : token base e slot = (e.slots.lookup slot).or (base.slots.find slot) := by
    simp [token, Vocabulary.token]
  have hfind := hd.slotFind slot
  -- a known slot changes nothing
  have hknown : token base e slot ≠ none → (e.slotToken slot).2 = e := by
    intro hk
    unfold VmEpochMaterializer.slotToken
    rw [hfind]
    cases hl : e.slots.lookup slot with
    | some t => rfl
    | none =>
      cases hf : base.slots.find slot with
      | some t => rfl
      | none =>
        rw [htok, hl, hf] at hk
        exact absurd rfl hk
  have hnew : token base e slot = none →
      (e.slotToken slot).2.baseSlotCount + (e.slotToken slot).2.slots.size ≤
        (e.slotToken slot).2.workspace.acceptedHeads.length := by
    intro hk
    rw [htok, Option.or_eq_none_iff] at hk
    unfold VmEpochMaterializer.slotToken
    rw [hfind, hk.1, hk.2]
    simp only
    rw [(ensureSlotCount_eq _ _).2.2]
    exact le_max_right _ _
  by_cases hk : token base e slot = none
  · refine .inl ⟨?_, hnew hk⟩
    rcases h with ⟨⟨j, hj, hnone⟩, -⟩ | ⟨hw, hs, -⟩
    · exact ⟨j, List.mem_append_left _ hj, hnone⟩
    · refine ⟨slot, by simp, ?_⟩
      unfold token at hk ⊢
      rw [← hs]
      exact hk
  · rw [hknown hk]
    rcases h with ⟨⟨j, hj, hnone⟩, hfull⟩ | ⟨hw, hs, hall⟩
    · exact .inl ⟨⟨j, List.mem_append_left _ hj, hnone⟩, hfull⟩
    · refine .inr ⟨hw, hs, fun j hj => ?_⟩
      rcases List.mem_append.1 hj with hj | hj
      · exact hall j hj
      · obtain rfl := List.mem_singleton.1 hj
        unfold token at hk ⊢
        rw [← hs]
        exact hk

namespace SemanticCompiler

/-- The compiler `c` numbers names as `e` does. -/
structure Compiling (base : FrozenNames) (m : VmEpochMaterializer) (c : SemanticCompiler)
    (e : VmEpochMaterializer) (used : List SlotId) (ps : List Predicate) (ls : List Literal)
    (k : ℕ) : Prop where
  overlay : Overlay c.trial e ps ls
  dictionaries : ∃ names, Dictionaries base names e ∧ base.slots.count + names.length + k < 2 ^ 32
  grown : HeadsGrown m c.trial.materializer
  extended : Extends base m e
  slots : SlotsInterned base m e used
  bound : ∀ x a, c.bindings.lookup x = some a → a.value < literalBase

variable {c c' : SemanticCompiler} {ps : List Predicate} {ls : List Literal} {k : ℕ}

theorem Compiling.mono (h : Compiling base m c e used ps ls (k + 1)) :
    Compiling base m c e used ps ls k := by
  obtain ⟨names, hd, hroom⟩ := h.dictionaries
  exact ⟨h.overlay, ⟨names, hd, by omega⟩, h.grown, h.extended, h.slots, h.bound⟩

theorem Compiling.nextEntity (h : Compiling base m c e used ps ls k) :
    c.next = m.workspace.nextEntity + c.localEntityCount := by
  have hw := h.grown.workspace
  unfold next
  rw [hw]

/-- **A slot.** -/
theorem Compiling.slotToken (h : Compiling base m c e used ps ls (k + 1)) (slot : SlotId) :
    Compiling base m { c with trial := (c.trial.slotToken slot).2 } (e.slotToken slot).2
        (used ++ [slot]) ps ls k ∧
      Extends base e (e.slotToken slot).2 ∧
      token base (e.slotToken slot).2 slot = some (c.trial.slotToken slot).1 ∧
      (c.trial.slotToken slot).1 ≠ Instruction.worldArgument := by
  obtain ⟨names, hd, hroom⟩ := h.dictionaries
  obtain ⟨heq, hover, hgrown⟩ := h.overlay.slotToken slot
  obtain ⟨names', hd', he, ht, hnames, -, -⟩ := slotToken_spec hd slot fun _ _ => by omega
  have hlen : names'.length ≤ names.length + 1 := by
    rcases hnames with rfl | rfl
    · omega
    · simp
  rw [← heq] at ht
  refine ⟨⟨hover, ⟨names', hd', by omega⟩, h.grown.trans hgrown, h.extended.trans he,
    h.slots.slotToken hd slot, h.bound⟩, he, ht, fun hworld => ?_⟩
  have hlt := Vocabulary.token_lt hd'.slots ht
  rw [hworld] at hlt
  unfold Instruction.worldArgument at hlt
  omega

/-- **A predicate.** -/
theorem Compiling.predicateCell (h : Compiling base m c e used ps ls k) (p : Predicate) :
    Compiling base m { c with trial := (c.trial.predicateCell p).2 } (e.predicateCell p).2 used
        (firstUses m.knowsPredicate ps [p]) ls k ∧
      Extends base e (e.predicateCell p).2 ∧
      (e.predicateCell p).2.predicateFromCell (c.trial.predicateCell p).1 = some p := by
  obtain ⟨names, hd, hroom⟩ := h.dictionaries
  obtain ⟨heq, hover, hsame⟩ := h.overlay.predicateCell p
  obtain ⟨hd', he, hread, -, -⟩ := predicateCell_spec hd p
  have hknows : c.trial.materializer.knowsPredicate = m.knowsPredicate := by
    have hn := h.grown.names
    generalize c.trial.materializer.workspace = w at hn
    rw [hn]
    rfl
  rw [hknows] at hover
  rw [← heq] at hread
  refine ⟨⟨hover, ⟨names, hd', hroom⟩, ?_, h.extended.trans he,
    h.slots.congr (predicateCell_bare e p), h.bound⟩, he, hread⟩
  rw [hsame]
  exact h.grown

/-- What an operand compiles to. -/
structure OperandCompiled (base : FrozenNames) (m : VmEpochMaterializer) (c c' : SemanticCompiler)
    (e : VmEpochMaterializer) (used : List SlotId) (ps : List Predicate) (ls : List Literal)
    (k : ℕ) (x : AtomRef) (cell : ℕ) (e' : VmEpochMaterializer) : Prop where
  compiling : Compiling base m c' e' used ps (firstUses m.knowsLiteral ls x.literals) k
  extended : Extends base e e'
  read : ∃ atom, x.evaluate c.bindings = some atom ∧ e'.atomFromCell cell = some atom
  bindings : c'.bindings = c.bindings
  count : c'.localEntityCount = c.localEntityCount

/-- **An operand** compiles, or is an unbound symbol. -/
theorem Compiling.atomCell (h : Compiling base m c e used ps ls k) {x : AtomRef}
    (hx : x.InVmRange) {r : Except String ℕ} (ho : c.atomCell x = .ok (r, c')) :
    (∃ error, r = .error error ∧ c' = c ∧ x.evaluate c.bindings = none) ∨
      ∃ cell e', r = .ok cell ∧ OperandCompiled base m c c' e used ps ls k x cell e' := by
  obtain ⟨names, hd, hroom⟩ := h.dictionaries
  -- entities need no name
  have hentity : ∀ i : EntityId, i.value < literalBase →
      e.atomFromCell i.value = some (.entity i) := by
    intro i hi
    rw [hd.atomFromCell_eq, if_pos hi]
  cases x with
  | entity i =>
    cases ho
    exact .inr ⟨_, e, rfl, h, .refl _ _, ⟨_, rfl, hentity i hx⟩, rfl, rfl⟩
  | symbol s =>
    simp only [SemanticCompiler.atomCell] at ho
    cases hs : c.bindings.lookup s with
    | none =>
      rw [hs] at ho
      cases ho
      exact .inl ⟨_, rfl, rfl, by simp only [AtomRef.evaluate, hs, Option.map_none]⟩
    | some i =>
      rw [hs] at ho
      cases ho
      refine .inr ⟨_, e, rfl, h, .refl _ _, ⟨.entity i, ?_, hentity i (h.bound s i hs)⟩, rfl, rfl⟩
      simp only [AtomRef.evaluate, hs, Option.map_some]
  | literal l =>
    simp only [SemanticCompiler.atomCell] at ho
    cases hl : c.trial.literalCell ⟨l⟩ with
    | error message => rw [hl] at ho; cases ho
    | ok q =>
      obtain ⟨cell, trial⟩ := q
      rw [hl] at ho
      cases ho
      obtain ⟨hcell, hover, hsame⟩ := h.overlay.literalCell hl
      obtain ⟨hd', he, hread, -, -⟩ := atomCell_spec hd (.literal ⟨l⟩)
      have hknows : c.trial.materializer.knowsLiteral = m.knowsLiteral := by
        have hn := h.grown.names
        generalize c.trial.materializer.workspace = w at hn
        rw [hn]
        rfl
      rw [hknows] at hover
      refine .inr ⟨cell, _, rfl, ⟨hover, ⟨names, hd', hroom⟩, ?_, h.extended.trans he,
        h.slots.congr (atomCell_bare e _), h.bound⟩, he, ⟨_, rfl, hread cell hcell⟩, rfl, rfl⟩
      simp only
      rw [hsame]
      exact h.grown

/-- The program `js` that operations compile to. -/
structure ProgramCompiled (base : FrozenNames) (m : VmEpochMaterializer) (c c' : SemanticCompiler)
    (e : VmEpochMaterializer) (used : List SlotId) (ps : List Predicate) (ls : List Literal)
    (k : ℕ) (ops : List TransactionOp) (js : List Instruction) (e' : VmEpochMaterializer) :
    Prop where
  compiling : Compiling base m c' e' (used ++ ops.flatMap TransactionOp.slots)
    (firstUses m.knowsPredicate ps (ops.flatMap TransactionOp.predicateUses))
    (firstUses m.knowsLiteral ls (ops.flatMap TransactionOp.literalUses)) k
  extended : Extends base e e'
  performs : ∀ e'' xs is b', Extends base e' e'' →
    Performs base e'' c'.bindings c'.next xs is b' →
    Performs base e'' c.bindings c.next (ops ++ xs) (js ++ is) b'

theorem ProgramCompiled.append {c'' : SemanticCompiler} {e'' : VmEpochMaterializer} {j : ℕ}
    {xs ys : List TransactionOp} {js is : List Instruction}
    (h : ProgramCompiled base m c c' e used ps ls j xs js e')
    (h' : ProgramCompiled base m c' c'' e' (used ++ xs.flatMap TransactionOp.slots)
      (firstUses m.knowsPredicate ps (xs.flatMap TransactionOp.predicateUses))
      (firstUses m.knowsLiteral ls (xs.flatMap TransactionOp.literalUses)) k ys is e'') :
    ProgramCompiled base m c c'' e used ps ls k (xs ++ ys) (js ++ is) e'' := by
  refine ⟨?_, h.extended.trans h'.extended, fun e₃ zs ks b' he hks => ?_⟩
  · simp only [List.flatMap_append, firstUses_append, ← List.append_assoc]
    exact h'.compiling
  · rw [List.append_assoc, List.append_assoc]
    exact h.performs _ _ _ _ (h'.extended.trans he) (h'.performs _ _ _ _ he hks)

/-- The compiler binds what the evaluation binds. -/
def Follows (c c' : SemanticCompiler) (op : TransactionOp) : Prop :=
  ∀ (predecessor : WorldId) (s s₁ : Evaluation), s.bindings = c.bindings → s.state.next = c.next →
    op.evaluate predecessor s = some s₁ → s₁.bindings = c'.bindings ∧ s₁.state.next = c'.next

/-- **One operation** compiles to a program that performs it, or its evaluation rejects. -/
theorem operation_compiles (h : Compiling base m c e used ps ls (k + 1)) {op : TransactionOp}
    (hrange : op.EntitiesInRange) (hworld : ∀ world, op ≠ .expectWorld world)
    (hnext : c.next < literalBase) {r : Except String (List Instruction)}
    (ho : c.operation op = .ok (r, c')) :
    (∃ error, r = .error error ∧ HeadsGrown m c'.trial.materializer ∧
      ∀ predecessor s, s.bindings = c.bindings → op.evaluate predecessor s = none) ∨
    ∃ js e', r = .ok js ∧ ProgramCompiled base m c c' e used ps ls k [op] js e' ∧
      Follows c c' op ∧ c'.next ≤ c.next + 1 := by
  cases op with
  | allocate result =>
    simp only [operation] at ho
    by_cases hold : (c.bindings.lookup result).isSome
    · rw [if_pos hold] at ho
      cases ho
      refine .inl ⟨_, rfl, h.grown, fun predecessor s hs => ?_⟩
      simp only [TransactionOp.evaluate, hs, if_pos hold]
    have hnone : c.bindings.lookup result = none := by simpa using hold
    have hfree : ¬ c.trial.materializer.workspace.nextEntity + c.localEntityCount ≥ literalBase :=
      not_le.2 hnext
    rw [if_neg hold, if_neg hfree] at ho
    cases ho
    refine .inr ⟨_, e, rfl, ⟨?_, .refl _ _, fun e'' xs is b' _ his => .allocate hnone his⟩, ?_,
      le_of_eq (Nat.add_assoc _ _ _).symm⟩
    · rw [List.flatMap_singleton, List.flatMap_singleton, List.flatMap_singleton]
      have h' := h.mono
      refine ⟨h'.overlay, h'.dictionaries, h'.grown, h'.extended, ?_, fun x a hx => ?_⟩
      · rw [TransactionOp.slots, List.append_nil]
        exact h'.slots
      · by_cases hxr : x = result
        · subst hxr
          rw [AList.lookup_insert] at hx
          rw [← Option.some.inj hx]
          exact hnext
        · rw [AList.lookup_insert_ne hxr] at hx
          exact h'.bound x a hx
    · intro predecessor s s₁ hs hn hs₁
      simp only [TransactionOp.evaluate, hs, if_neg hold] at hs₁
      obtain ⟨hstate, hbindings, -⟩ := Evaluation.commit_spec hs₁
      simp only [WorldState.apply, if_true, Option.some.injEq] at hstate
      refine ⟨?_, ?_⟩
      · rw [hbindings]
        simp only [hn]
        rfl
      · rw [← hstate]
        simp only [hn]
        exact Nat.add_assoc _ _ _
  | expectWorld world => exact absurd rfl (hworld world)
  | reject =>
    cases ho
    refine .inr ⟨_, e, rfl, ⟨?_, .refl _ _, fun e'' xs is b' _ his => .reject his⟩,
      fun predecessor s s₁ _ _ hs₁ => (by cases hs₁), Nat.le_succ _⟩
    simpa [TransactionOp.slots, TransactionOp.predicateUses, TransactionOp.literalUses, firstUses]
      using h.mono
  | forget slot =>
    obtain ⟨h₁, he, ht, -⟩ := h.slotToken ⟨slot⟩
    simp only [operation] at ho
    generalize c.trial.slotToken ⟨slot⟩ = q at h₁ ht ho
    obtain ⟨t, trial⟩ := q
    simp only at h₁ ht ho
    cases ho
    have hn : SemanticCompiler.next { c with trial := trial } = c.next := by
      rw [h₁.nextEntity, h.nextEntity]
    refine .inr ⟨_, _, rfl, ⟨?_, he, fun e'' xs is b' he' his => ?_⟩, ?_, by omega⟩
    · simpa [TransactionOp.slots, TransactionOp.predicateUses, TransactionOp.literalUses, firstUses]
        using h₁
    · rw [hn] at his
      exact .forget (he'.token _ _ ht) his
    · intro predecessor s s₁ hs hsn hs₁
      obtain ⟨hstate, hbindings, -⟩ := Evaluation.commit_spec hs₁
      simp only [WorldState.apply, Option.some.injEq] at hstate
      refine ⟨hbindings.trans hs, ?_⟩
      rw [← hstate, hn]
      exact hsn
  | expectObject slot expected =>
    obtain ⟨h₁, he, ht, htw⟩ := h.slotToken ⟨slot⟩
    simp only [operation] at ho
    generalize c.trial.slotToken ⟨slot⟩ = q at h₁ ht htw ho
    obtain ⟨t, trial⟩ := q
    simp only at h₁ ht htw ho
    cases hatom : SemanticCompiler.atomCell { c with trial := trial } expected with
    | error message => rw [hatom] at ho; cases ho
    | ok q =>
      obtain ⟨r₂, c₂⟩ := q
      rw [hatom] at ho
      rcases h₁.atomCell hrange hatom with ⟨error, rfl, rfl, hnone⟩ | ⟨cell, e₂, rfl, h₂⟩
      · cases ho
        refine .inl ⟨_, rfl, h₁.grown, fun predecessor s hs => ?_⟩
        rw [← hs] at hnone
        simp only [TransactionOp.evaluate, hnone, Option.bind_none]
      · cases ho
        obtain ⟨atom, hx, hread⟩ := h₂.read
        have hn : c'.next = c.next := by
          rw [h₂.compiling.nextEntity, h.nextEntity, h₂.count]
        refine .inr ⟨_, _, rfl, ⟨?_, he.trans h₂.extended, fun e'' xs is b' he' his => ?_⟩, ?_,
          by omega⟩
        · simpa [TransactionOp.slots, TransactionOp.predicateUses, TransactionOp.literalUses,
            firstUses] using h₂.compiling
        · rw [hn, h₂.bindings] at his
          exact .expectObject (he'.token _ _ (h₂.extended.token _ _ ht)) htw hx
            (he'.atom _ _ hread) his
        · intro predecessor s s₁ hs hsn hs₁
          simp only [TransactionOp.evaluate, Option.bind_eq_some_iff] at hs₁
          obtain ⟨_, _, _, _, hs₁⟩ := hs₁
          split at hs₁
          · cases hs₁
            exact ⟨hs.trans h₂.bindings.symm, hsn.trans hn.symm⟩
          · cases hs₁
  | define slot subject predicate object =>
    obtain ⟨h₁, he, ht, -⟩ := h.slotToken ⟨slot⟩
    simp only [operation] at ho
    generalize c.trial.slotToken ⟨slot⟩ = q at h₁ ht ho
    obtain ⟨t, trial⟩ := q
    simp only at h₁ ht ho
    cases hsubject : SemanticCompiler.atomCell { c with trial := trial } subject with
    | error message => rw [hsubject] at ho; cases ho
    | ok q =>
      obtain ⟨r₂, c₂⟩ := q
      rw [hsubject] at ho
      rcases h₁.atomCell hrange.1 hsubject with ⟨error, rfl, rfl, hnone⟩ | ⟨s, e₂, rfl, h₂⟩
      · cases ho
        refine .inl ⟨_, rfl, h₁.grown, fun predecessor s hs => ?_⟩
        rw [← hs] at hnone
        simp only [TransactionOp.evaluate, hnone, Option.bind_none]
      simp only at ho
      obtain ⟨x, hx, hreadx⟩ := h₂.read
      obtain ⟨h₃, he₃, hreadp⟩ := h₂.compiling.predicateCell ⟨predicate⟩
      generalize c₂.trial.predicateCell ⟨predicate⟩ = q at h₃ hreadp ho
      obtain ⟨p, trial₃⟩ := q
      simp only at h₃ hreadp ho
      cases hobject : SemanticCompiler.atomCell { c₂ with trial := trial₃ } object with
      | error message => rw [hobject] at ho; cases ho
      | ok q =>
        obtain ⟨r₄, c₄⟩ := q
        rw [hobject] at ho
        rcases h₃.atomCell hrange.2 hobject with ⟨error, rfl, rfl, hnone⟩ | ⟨o, e₄, rfl, h₄⟩
        · cases ho
          refine .inl ⟨_, rfl, h₃.grown, fun predecessor s hs => ?_⟩
          have hb₂ : c₂.bindings = c.bindings := h₂.bindings
          have hnone' : object.evaluate s.bindings = none := by
            rw [hs, ← hb₂]
            exact hnone
          simp only [TransactionOp.evaluate, hnone', Option.bind_none, Option.bind_eq_none_iff]
          exact fun _ _ => trivial
        · cases ho
          obtain ⟨y, hy, hready⟩ := h₄.read
          have hb₂ : c₂.bindings = c.bindings := h₂.bindings
          have hb₄ : c'.bindings = c.bindings := h₄.bindings.trans hb₂
          have hn : c'.next = c.next := by
            rw [h₄.compiling.nextEntity, h.nextEntity, h₄.count]
            exact congrArg _ h₂.count
          have hy' : object.evaluate c.bindings = some y := by
            rw [← hb₂]
            exact hy
          have hfact : e₄.factFromCells s p o = some ⟨x, ⟨predicate⟩, y⟩ := by
            have hs : e₄.atomFromCell s = some x := h₄.extended.atom _ _ (he₃.atom _ _ hreadx)
            have hp : e₄.predicateFromCell p = some ⟨predicate⟩ := h₄.extended.predicate _ _ hreadp
            simp only [factFromCells, hs, hp, hready, bind, Option.bind_some, pure]
          refine .inr ⟨_, e₄, rfl, ⟨?_, ?_, fun e'' xs is b' he' his => ?_⟩, ?_, by omega⟩
          · simpa [TransactionOp.slots, TransactionOp.predicateUses, TransactionOp.literalUses,
              firstUses_append] using h₄.compiling
          · exact he.trans (h₂.extended.trans (he₃.trans h₄.extended))
          · rw [hn, hb₄] at his
            refine .define (he'.token _ _ (h₄.extended.token _ _ (he₃.token _ _
              (h₂.extended.token _ _ ht)))) hx hy' (he'.fact hfact) his
          · intro predecessor s s₁ hs hsn hs₁
            simp only [TransactionOp.evaluate, Option.bind_eq_some_iff] at hs₁
            obtain ⟨_, _, _, _, hs₁⟩ := hs₁
            obtain ⟨hstate, hbindings, -⟩ := Evaluation.commit_spec hs₁
            simp only [WorldState.apply, Option.some.injEq] at hstate
            refine ⟨hbindings.trans (hs.trans hb₄.symm), ?_⟩
            rw [← hstate, hn]
            exact hsn

/-- **A transaction** compiles to a program that performs it, or its evaluation rejects. -/
theorem operations_compiles {ops : List TransactionOp}
    (h : Compiling base m c e used ps ls (k + ops.length))
    (hrange : ∀ op ∈ ops, op.EntitiesInRange) (hworld : ∀ world, .expectWorld world ∉ ops)
    (hnext : c.next + ops.length ≤ literalBase) {r : Except String (List Instruction)}
    (ho : c.operations ops = .ok (r, c')) :
    (∃ error, r = .error error ∧ HeadsGrown m c'.trial.materializer ∧
      ∀ predecessor s, s.bindings = c.bindings → s.state.next = c.next →
        evaluateAll predecessor s ops = none) ∨
    ∃ is e', r = .ok is ∧ ProgramCompiled base m c c' e used ps ls k ops is e' := by
  induction ops generalizing c c' e used ps ls r with
  | nil =>
    cases ho
    refine .inr ⟨[], e, rfl, ?_, .refl _ _, fun e'' xs is b' _ his => his⟩
    simpa [firstUses] using h
  | cons op ops ih =>
    rw [List.forall_mem_cons] at hrange
    have hworld₁ : ∀ world, op ≠ .expectWorld world := fun world heq =>
      hworld world (heq ▸ List.mem_cons_self)
    rw [List.length_cons] at h hnext
    simp only [operations] at ho
    cases hop : c.operation op with
    | error message => rw [hop] at ho; cases ho
    | ok q =>
      obtain ⟨r₁, c₁⟩ := q
      rw [hop] at ho
      rcases operation_compiles h hrange.1 hworld₁ (by omega) hop with
        ⟨error, rfl, hgrown, hnone⟩ | ⟨js, e₁, rfl, h₁, hfollows, hle⟩
      · cases ho
        refine .inl ⟨_, rfl, hgrown, fun predecessor s hs hn => ?_⟩
        simp only [evaluateAll, hnone predecessor s hs, Option.bind_none]
      simp only at ho
      cases hops : c₁.operations ops with
      | error message => rw [hops] at ho; cases ho
      | ok q =>
        obtain ⟨r₂, c₂⟩ := q
        rw [hops] at ho
        rcases ih h₁.compiling hrange.2 (fun world hw => hworld world (List.mem_cons_of_mem _ hw))
          (by omega) hops with ⟨error, rfl, hgrown, hnone⟩ | ⟨is, e₂, rfl, h₂⟩
        · cases ho
          refine .inl ⟨_, rfl, hgrown, fun predecessor s hs hn => ?_⟩
          simp only [evaluateAll, Option.bind_eq_none_iff]
          intro s₁ hs₁
          obtain ⟨hb, hn₁⟩ := hfollows predecessor s s₁ hs hn hs₁
          exact hnone predecessor s₁ hb hn₁
        · cases ho
          exact .inr ⟨_, e₂, rfl, h₁.append h₂⟩

end SemanticCompiler

end ForthDB
