import ForthDB.Queue.MixedEpoch
import ForthDB.Vm.Shape

/-!
# Semantic programs and the shape of a workspace

A trial is an overlay of an eager materializer as far as slots go, whatever predicates and
literals it interns.

* `Trailed base U c e`: the compiler `c` numbers slots as `e` does that interned them at once.
* `operation_shape`, `operations_shape`: a semantic program that compiles has the effects of
  the shadows of the operations it is committed as.
* `executeSemantic_shape`: **a semantic intent leads to the shape of the state that its
  operations lead to**, or leaves the shape as it was.
-/

namespace ForthDB

open Workspace VmEpochMaterializer

/-- Every symbol that is bound has its entity among the temporaries. -/
def Bound (bindings : Dict String EntityId) (temps : Dict String ℕ) : Prop :=
  ∀ s e, bindings.lookup s = some e → temps.lookup s = some e.value

theorem Bound.mono {bindings bindings' : Dict String EntityId} {temps : Dict String ℕ}
    (h : Bound bindings' temps)
    (hb : ∀ s x, bindings.lookup s = some x → bindings'.lookup s = some x) :
    Bound bindings temps := fun s x hs => h s x (hb s x hs)

namespace TrialVocabulary

/-- The trial without its predicates and literals. -/
def bare (t : TrialVocabulary) : TrialVocabulary := ⟨t.materializer.bare, t.slots, ∅, ∅⟩

variable {t t' : TrialVocabulary}

theorem slotToken_bare (t : TrialVocabulary) (slot : SlotId) :
    t.bare.slotToken slot = ((t.slotToken slot).1, (t.slotToken slot).2.bare) := by
  unfold slotToken bare VmEpochMaterializer.bare baseSlotCount
  simp only
  cases t.slots.lookup slot with
  | some token => rfl
  | none =>
    simp only
    cases t.materializer.slots.lookup slot with
    | some token => rfl
    | none =>
      simp only
      cases t.materializer.mappedBase.bind fun base => base.slotToken slot <;> rfl

theorem predicateCell_bare (t : TrialVocabulary) (p : Predicate) :
    (t.predicateCell p).2.bare = t.bare := by
  unfold predicateCell
  split
  · rfl
  · split
    · rfl
    · split <;> rfl

theorem literalCell_bare {l : Literal} {cell : ℕ} (h : t.literalCell l = .ok (cell, t')) :
    t'.bare = t.bare := by
  unfold literalCell at h
  split at h
  · cases h
    rfl
  · split at h
    · cases h
      rfl
    · split at h
      · cases h
        rfl
      · simp only at h
        split at h
        · cases h
          rfl
        · cases h

end TrialVocabulary

namespace SemanticCompiler

/-- The entity that the next allocation is given. -/
def next (c : SemanticCompiler) : ℕ := c.trial.materializer.workspace.nextEntity + c.localEntityCount

/-- The compiler numbers slots as `e` does that interned them at once. -/
structure Trailed (base : FrozenNames) (U : Finset SlotId) (c : SemanticCompiler)
    (e : VmEpochMaterializer) : Prop where
  dictionaries : ∃ names, Dictionaries base names e.bare ∧ ∀ k ∈ names, k ∈ U
  overlay : Overlay c.trial.bare e.bare [] []

variable {base : FrozenNames} {U : Finset SlotId} {c c' : SemanticCompiler}
  {e : VmEpochMaterializer}

theorem Trailed.congr (h : Trailed base U c e) (hb : c'.trial.bare = c.trial.bare) :
    Trailed base U c' e := ⟨h.dictionaries, hb ▸ h.overlay⟩

/-- The compiler behind one more slot. -/
theorem Trailed.slotToken (h : Trailed base U c e) (hbase : Supply base U) {slot : SlotId}
    (hs : slot ∈ U) :
    Trailed base U { c with trial := (c.trial.slotToken slot).2 } (e.slotToken slot).2 ∧
      Extends base e.bare (e.slotToken slot).2.bare ∧
      token base (e.slotToken slot).2 slot = some (c.trial.slotToken slot).1 ∧
      HeadsGrown c.trial.materializer.bare (c.trial.slotToken slot).2.materializer.bare := by
  obtain ⟨names, hd, hU⟩ := h.dictionaries
  obtain ⟨names', hd', he, ht, hU'⟩ := slotToken_shape hd hbase hU hs
  obtain ⟨heq, hover, hgrown⟩ := h.overlay.slotToken slot
  rw [TrialVocabulary.slotToken_bare, VmEpochMaterializer.slotToken_bare] at heq hover
  rw [TrialVocabulary.slotToken_bare] at hgrown
  refine ⟨⟨⟨names', hd', hU'⟩, hover⟩, he, ?_, hgrown⟩
  have heq' : (c.trial.slotToken slot).1 = (e.slotToken slot).1 := heq
  rw [heq']
  exact ht

/-- An operand interns no slot, and resolves if it compiles. -/
theorem atomCell_shape {x : AtomRef} {r : Except String ℕ} (h : c.atomCell x = .ok (r, c')) :
    c'.trial.bare = c.trial.bare ∧ c'.bindings = c.bindings ∧
      c'.localEntityCount = c.localEntityCount ∧
      ∀ cell, r = .ok cell → ∀ temps, Bound c.bindings temps → ∃ atom, x.resolve temps = .ok atom := by
  cases x with
  | entity e =>
    cases h
    exact ⟨rfl, rfl, rfl, fun _ _ _ _ => ⟨_, rfl⟩⟩
  | literal l =>
    simp only [atomCell] at h
    cases hl : c.trial.literalCell ⟨l⟩ with
    | error message => rw [hl] at h; cases h
    | ok p =>
      rw [hl] at h
      cases h
      exact ⟨TrialVocabulary.literalCell_bare hl, rfl, rfl, fun _ _ _ _ => ⟨_, rfl⟩⟩
  | symbol s =>
    simp only [atomCell] at h
    cases hs : c.bindings.lookup s with
    | none =>
      rw [hs] at h
      cases h
      exact ⟨rfl, rfl, rfl, fun _ hc => nomatch hc⟩
    | some e =>
      rw [hs] at h
      cases h
      refine ⟨rfl, rfl, rfl, fun cell _ temps hb => ⟨.entity e, ?_⟩⟩
      simp only [AtomRef.resolve, tempEntity, hb s e hs]
      rfl

/-- What compiling one operation or more amounts to: `os` are the operations it is committed as. -/
structure Shaped (base : FrozenNames) (e : VmEpochMaterializer) (c c' : SemanticCompiler)
    (is : List Instruction) (os : List Operation) : Prop where
  applied : ∀ a : WorldState, a.next = c.next → ∃ b, a.applyAll os = some b ∧ b.next = c'.next
  lowers : (∀ i ∈ is, i.opcode ≠ .reject) →
    Lowers (token base e) shadowDecode (os.map Operation.shadow) (effects is)

/-- The compiler after an operation knows more slots and has bound more symbols. -/
structure Further (base : FrozenNames) (c c' : SemanticCompiler) (e e' : VmEpochMaterializer) :
    Prop where
  extended : Extends base e.bare e'.bare
  grown : HeadsGrown c.trial.materializer.bare c'.trial.materializer.bare
  bound : ∀ s x, c.bindings.lookup s = some x → c'.bindings.lookup s = some x

theorem Further.refl (base : FrozenNames) (c : SemanticCompiler) (e : VmEpochMaterializer) :
    Further base c c e e := ⟨.refl _ _, .refl _, fun _ _ h => h⟩

theorem Further.trans {c'' : SemanticCompiler} {e' e'' : VmEpochMaterializer}
    (h : Further base c c' e e') (h' : Further base c' c'' e' e'') : Further base c c'' e e'' :=
  ⟨h.extended.trans h'.extended, h.grown.trans h'.grown, fun s x hs => h'.bound s x (h.bound s x hs)⟩

theorem Further.nextEntity {e' : VmEpochMaterializer} (h : Further base c c' e e') :
    c'.trial.materializer.workspace.nextEntity = c.trial.materializer.workspace.nextEntity := by
  have hw := h.grown.workspace
  have : c'.trial.materializer.bare.workspace.nextEntity =
      c.trial.materializer.bare.workspace.nextEntity := by rw [hw]
  exact this

theorem Further.of_bare (hb : c'.trial.bare = c.trial.bare) (hs : c'.bindings = c.bindings) :
    Further base c c' e e := by
  refine ⟨.refl _ _, ?_, fun s x h => by rw [hs]; exact h⟩
  have hm : c'.trial.materializer.bare = c.trial.materializer.bare :=
    congrArg TrialVocabulary.materializer hb
  rw [hm]
  exact .refl _

theorem Further.next_eq {e' : VmEpochMaterializer} (h : Further base c c' e e')
    (hl : c'.localEntityCount = c.localEntityCount) : c'.next = c.next := by
  unfold next
  rw [h.nextEntity, hl]

/-- Operations that leave the allocator alone. -/
theorem applied_of_next {op : Operation} (hop : ∀ a : WorldState, ∃ b, a.apply op = some b ∧ b.next = a.next)
    (hn : c'.next = c.next) (a : WorldState) (ha : a.next = c.next) :
    ∃ b, a.applyAll [op] = some b ∧ b.next = c'.next := by
  obtain ⟨b, hb, hbn⟩ := hop a
  exact ⟨b, by simp only [WorldState.applyAll, hb, Option.bind_some], by rw [hbn, ha, hn]⟩

/-- Nothing is committed for operations without effects. -/
theorem shaped_nil {is : List Instruction} {e' : VmEpochMaterializer} (hn : c'.next = c.next)
    (hi : (∀ i ∈ is, i.opcode ≠ .reject) → effects is = []) : Shaped base e' c c' is [] := by
  refine ⟨fun a ha => ⟨a, rfl, by rw [ha, hn]⟩, fun h => ?_⟩
  rw [hi h]
  exact .nil

/-- What the compiler binds is what `assignTemps` assigns. -/
def Binds (c c' : SemanticCompiler) (ops : List TransactionOp) : Prop :=
  ∀ temps, Bound c.bindings temps → ∃ temps', Bound c'.bindings temps' ∧
    ∀ rest, assignTemps temps c.next (ops ++ rest) = assignTemps temps' c'.next rest

theorem Binds.append {c'' : SemanticCompiler} {xs ys : List TransactionOp} (h : Binds c c' xs)
    (h' : Binds c' c'' ys) : Binds c c'' (xs ++ ys) := by
  intro temps hb
  obtain ⟨temps₁, hb₁, h₁⟩ := h temps hb
  obtain ⟨temps₂, hb₂, h₂⟩ := h' temps₁ hb₁
  exact ⟨temps₂, hb₂, fun rest => by rw [List.append_assoc, h₁, h₂]⟩

/-- An operation that binds nothing. -/
theorem binds_nothing {op : TransactionOp} (hs : c'.bindings = c.bindings) (hn : c'.next = c.next)
    (hop : ∀ temps n rest, assignTemps temps n (op :: rest) = assignTemps temps n rest) :
    Binds c c' [op] := by
  intro temps hb
  refine ⟨temps, by rw [hs]; exact hb, fun rest => ?_⟩
  rw [List.singleton_append, hop, hn]

/-- **One operation** interns its slot, and has the effect of what it is committed as. -/
theorem operation_shape (h : Trailed base U c e) (hbase : Supply base U) {op : TransactionOp}
    (hop : ∀ k ∈ op.slots, k ∈ U) {r : Except String (List Instruction)}
    (ho : c.operation op = .ok (r, c')) :
    ∃ e', Trailed base U c' e' ∧ Further base c c' e e' ∧
      ∀ is, r = .ok is → Binds c c' [op] ∧ ∀ temps, Bound c'.bindings temps →
        ∃ os, op.synthesize temps = .ok os ∧ Shaped base e' c c' is os := by
  cases op with
  | allocate result =>
    refine ⟨e, ?_⟩
    simp only [operation] at ho
    split at ho
    · cases ho
      exact ⟨h, .refl _ _ _, fun _ hc => (by cases hc)⟩
    rename_i hnew
    split at ho
    · cases ho
      exact ⟨h, .refl _ _ _, fun _ hc => (by cases hc)⟩
    cases ho
    have hnew' : c.bindings.lookup result = none := by simpa using hnew
    refine ⟨⟨h.dictionaries, h.overlay⟩, ⟨.refl _ _, .refl _, fun s x hs => ?_⟩, ?_⟩
    · have hne : s ≠ result := by
        rintro rfl
        rw [hnew'] at hs
        cases hs
      rw [AList.lookup_insert_ne hne]
      exact hs
    · intro is hc
      obtain rfl := Except.ok.inj hc
      refine ⟨fun temps hb => ⟨temps.insert result c.next, fun s x hs => ?_, fun rest => ?_⟩,
        fun temps hb => ?_⟩
      · by_cases he : s = result
        · subst he
          rw [AList.lookup_insert] at hs ⊢
          rw [← Option.some.inj hs]
          rfl
        · rw [AList.lookup_insert_ne he] at hs ⊢
          exact hb s x hs
      · rfl
      have hentity := hb result _ (AList.lookup_insert _)
      refine ⟨[.allocateEntity ⟨c.next⟩], ?_, ?_, fun _ => .allocate _ .nil⟩
      · simp only [TransactionOp.synthesize, tempEntity, hentity]
        rfl
      · intro a ha
        refine ⟨{ a with next := a.next + 1 }, ?_, ?_⟩
        · simp only [WorldState.applyAll, WorldState.apply, if_pos ha.symm, Option.bind_some]
        · simp only [ha, next]
          omega
  | expectWorld expected =>
    cases ho
    refine ⟨e, h, .refl _ _ _, fun is hc => ⟨binds_nothing rfl rfl fun _ _ _ => rfl,
      fun temps hb => ⟨[], rfl, shaped_nil rfl fun _ => ?_⟩⟩⟩
    obtain rfl := Except.ok.inj hc
    rfl
  | reject =>
    cases ho
    refine ⟨e, h, .refl _ _ _, fun is hc => ⟨binds_nothing rfl rfl fun _ _ _ => rfl,
      fun temps hb => ⟨[], rfl, shaped_nil rfl fun hr => ?_⟩⟩⟩
    obtain rfl := Except.ok.inj hc
    exact absurd rfl (hr .reject (by simp))
  | forget slot =>
    obtain ⟨h₁, e₁, ht, hg⟩ := h.slotToken hbase (hop ⟨slot⟩ (by simp [TransactionOp.slots]))
    cases ho
    have hf : Further base c { c with trial := (c.trial.slotToken ⟨slot⟩).2 } e
        (e.slotToken ⟨slot⟩).2 := ⟨e₁, hg, fun _ _ hs => hs⟩
    refine ⟨_, h₁, hf, fun is hc => ⟨binds_nothing rfl (hf.next_eq rfl) fun _ _ _ => rfl,
      fun temps hb => ⟨[.forget ⟨slot⟩], rfl, ?_, fun _ => ?_⟩⟩⟩
    · exact applied_of_next (fun a => ⟨_, rfl, rfl⟩) (hf.next_eq rfl)
    · obtain rfl := Except.ok.inj hc
      exact .forget ht .nil
  | expectObject slot expected =>
    obtain ⟨h₁, e₁, ht, hg⟩ := h.slotToken hbase (hop ⟨slot⟩ (by simp [TransactionOp.slots]))
    have hf : Further base c { c with trial := (c.trial.slotToken ⟨slot⟩).2 } e
        (e.slotToken ⟨slot⟩).2 := ⟨e₁, hg, fun _ _ hs => hs⟩
    simp only [operation] at ho
    generalize c.trial.slotToken ⟨slot⟩ = p at h₁ hf ho
    obtain ⟨token, trial⟩ := p
    simp only at h₁ hf ho
    split at ho
    · cases ho
    · rename_i err c₂ hc₂
      cases ho
      obtain ⟨hb₂, hs₂, hl₂, -⟩ := atomCell_shape hc₂
      exact ⟨_, h₁.congr hb₂, hf.trans (.of_bare hb₂ hs₂), fun _ hc => (by cases hc)⟩
    · rename_i cell c₂ hc₂
      cases ho
      obtain ⟨hb₂, hs₂, hl₂, -⟩ := atomCell_shape hc₂
      have hf₂ := hf.trans (.of_bare hb₂ hs₂)
      refine ⟨_, h₁.congr hb₂, hf₂, fun is hc =>
        ⟨binds_nothing hs₂ (hf₂.next_eq hl₂) fun _ _ _ => rfl, fun temps hb =>
          ⟨[], rfl, shaped_nil (hf₂.next_eq hl₂) fun _ => ?_⟩⟩⟩
      obtain rfl := Except.ok.inj hc
      rfl
  | define slot subject predicate object =>
    obtain ⟨h₁, e₁, ht, hg⟩ := h.slotToken hbase (hop ⟨slot⟩ (by simp [TransactionOp.slots]))
    have hf : Further base c { c with trial := (c.trial.slotToken ⟨slot⟩).2 } e
        (e.slotToken ⟨slot⟩).2 := ⟨e₁, hg, fun _ _ hs => hs⟩
    simp only [operation] at ho
    generalize c.trial.slotToken ⟨slot⟩ = p at h₁ hf ho ht
    obtain ⟨t, trial⟩ := p
    simp only at h₁ hf ho ht
    split at ho
    · cases ho
    · rename_i err c₂ hc₂
      cases ho
      obtain ⟨hb₂, hs₂, hl₂, -⟩ := atomCell_shape hc₂
      exact ⟨_, h₁.congr hb₂, hf.trans (.of_bare hb₂ hs₂), fun _ hc => (by cases hc)⟩
    rename_i subjectCell c₂ hc₂
    obtain ⟨hb₂, hs₂, hl₂, hr₂⟩ := atomCell_shape hc₂
    have hb₃ := TrialVocabulary.predicateCell_bare c₂.trial ⟨predicate⟩
    generalize c₂.trial.predicateCell ⟨predicate⟩ = p at hb₃ ho
    obtain ⟨predicateCell, trial₃⟩ := p
    simp only at hb₃ ho
    split at ho
    · cases ho
    · rename_i err c₄ hc₄
      cases ho
      obtain ⟨hb₄, hs₄, hl₄, -⟩ := atomCell_shape hc₄
      exact ⟨_, h₁.congr (hb₄.trans (hb₃.trans hb₂)),
        hf.trans (.of_bare (hb₄.trans (hb₃.trans hb₂)) (hs₄.trans hs₂)), fun _ hc => (by cases hc)⟩
    rename_i objectCell c₄ hc₄
    cases ho
    obtain ⟨hb₄, hs₄, hl₄, hr₄⟩ := atomCell_shape hc₄
    have hf₄ := hf.trans (.of_bare (hb₄.trans (hb₃.trans hb₂)) (hs₄.trans hs₂))
    have hn₄ := hf₄.next_eq (hl₄.trans hl₂)
    refine ⟨_, h₁.congr (hb₄.trans (hb₃.trans hb₂)), hf₄, fun is hc =>
      ⟨binds_nothing (hs₄.trans hs₂) hn₄ fun _ _ _ => rfl, fun temps hb => ?_⟩⟩
    rw [hs₄] at hb
    obtain ⟨s, hs⟩ := hr₂ _ rfl temps (by rw [← hs₂]; exact hb)
    obtain ⟨o, ho⟩ := hr₄ _ rfl temps hb
    refine ⟨[.define ⟨slot⟩ ⟨s, ⟨predicate⟩, o⟩], ?_, ?_, fun _ => ?_⟩
    · simp only [TransactionOp.synthesize, hs, ho, bind, Except.bind, pure, Except.pure]
    · exact applied_of_next (fun a => ⟨_, rfl, rfl⟩) hn₄
    · obtain rfl := Except.ok.inj hc
      exact .define ht rfl .nil

/-- What is committed for an operation and for the operations behind it. -/
theorem Shaped.append {e' e'' : VmEpochMaterializer} {c'' : SemanticCompiler}
    {is js : List Instruction} {os ps : List Operation} (h : Shaped base e' c c' is os)
    (hf : Further base c' c'' e' e'') (h' : Shaped base e'' c' c'' js ps) :
    Shaped base e'' c c'' (is ++ js) (os ++ ps) := by
  refine ⟨fun a ha => ?_, fun hr => ?_⟩
  · obtain ⟨b, hb, hbn⟩ := h.applied a ha
    obtain ⟨d, hd, hdn⟩ := h'.applied b hbn
    exact ⟨d, by rw [WorldState.applyAll_append, hb]; exact hd, hdn⟩
  · have hl := h.lowers fun i hi => hr i (List.mem_append_left _ hi)
    have hl' := h'.lowers fun i hi => hr i (List.mem_append_right _ hi)
    have htok : ∀ k t, token base e' k = some t → token base e'' k = some t := hf.extended.token
    rw [List.map_append, effects, List.filter_append]
    exact lowers_append (hl.mono htok fun s p o f hs => hs) hl'

/-- **A semantic program** interns its slots, and has the effects of what it is committed as. -/
theorem operations_shape (h : Trailed base U c e) (hbase : Supply base U) {ops : List TransactionOp}
    (hops : ∀ op ∈ ops, ∀ k ∈ op.slots, k ∈ U) {r : Except String (List Instruction)}
    (ho : c.operations ops = .ok (r, c')) :
    ∃ e', Trailed base U c' e' ∧ Further base c c' e e' ∧
      ∀ is, r = .ok is → Binds c c' ops ∧ ∀ temps, Bound c'.bindings temps →
        ∃ os, synthesizeOperations temps ops = .ok os ∧ Shaped base e' c c' is os := by
  induction ops generalizing c e r with
  | nil =>
    cases ho
    refine ⟨e, h, .refl _ _ _, fun is hc => ⟨fun temps hb => ⟨temps, hb, fun _ => rfl⟩,
      fun temps hb => ⟨[], rfl, shaped_nil rfl fun _ => ?_⟩⟩⟩
    obtain rfl := Except.ok.inj hc
    rfl
  | cons op ops ih =>
    rw [List.forall_mem_cons] at hops
    simp only [operations] at ho
    split at ho
    · cases ho
    · rename_i err c₁ hc₁
      cases ho
      obtain ⟨e₁, h₁, f₁, -⟩ := operation_shape h hbase hops.1 hc₁
      exact ⟨e₁, h₁, f₁, fun _ hc => nomatch hc⟩
    rename_i js c₁ hc₁
    obtain ⟨e₁, h₁, f₁, s₁⟩ := operation_shape h hbase hops.1 hc₁
    split at ho
    · cases ho
    · rename_i err c₂ hc₂
      cases ho
      obtain ⟨e₂, h₂, f₂, -⟩ := ih h₁ hops.2 hc₂
      exact ⟨e₂, h₂, f₁.trans f₂, fun _ hc => nomatch hc⟩
    rename_i ks c₂ hc₂
    cases ho
    obtain ⟨e₂, h₂, f₂, s₂⟩ := ih h₁ hops.2 hc₂
    obtain ⟨b₁, s₁⟩ := s₁ js rfl
    obtain ⟨b₂, s₂⟩ := s₂ ks rfl
    refine ⟨e₂, h₂, f₁.trans f₂, fun is hc => ⟨b₁.append b₂, fun temps hb => ?_⟩⟩
    obtain rfl := Except.ok.inj hc
    obtain ⟨os, hos, hs⟩ := s₁ temps (hb.mono f₂.bound)
    obtain ⟨ps, hps, hs'⟩ := s₂ temps hb
    refine ⟨os ++ ps, ?_, hs.append f₂ hs'⟩
    simp only [synthesizeOperations, hos, hps, bind, Except.bind, pure, Except.pure]

end SemanticCompiler

/-- What is synthesized names the slots of the transaction. -/
theorem slots_of_synthesize {temps : Dict String ℕ} {op : TransactionOp} {os : List Operation}
    (h : op.synthesize temps = .ok os) : ∀ o ∈ os, ∀ k ∈ o.slots, k ∈ op.slots := by
  cases op with
  | allocate result =>
    simp only [TransactionOp.synthesize] at h
    cases ht : tempEntity temps result with
    | error e => rw [ht] at h; cases h
    | ok entity =>
      rw [ht] at h
      cases h
      simp [Operation.slots]
  | define slot subject predicate object =>
    simp only [TransactionOp.synthesize, bind, Except.bind, pure, Except.pure] at h
    split at h
    · cases h
    split at h
    · cases h
    cases h
    simp [Operation.slots, TransactionOp.slots]
  | forget slot =>
    cases h
    simp [Operation.slots, TransactionOp.slots]
  | expectWorld expected => cases h; simp
  | expectObject slot expected => cases h; simp
  | reject => cases h; simp

theorem slots_of_synthesizeOperations {temps : Dict String ℕ} {ops : List TransactionOp}
    {os : List Operation} (h : synthesizeOperations temps ops = .ok os) {U : Finset SlotId}
    (hops : ∀ op ∈ ops, ∀ k ∈ op.slots, k ∈ U) : ∀ o ∈ os, ∀ k ∈ o.slots, k ∈ U := by
  induction ops generalizing os with
  | nil => cases h; simp
  | cons op ops ih =>
    rw [List.forall_mem_cons] at hops
    simp only [synthesizeOperations, bind, Except.bind, pure, Except.pure] at h
    split at h
    · cases h
    rename_i xs hxs
    split at h
    · cases h
    rename_i ys hys
    cases h
    intro o ho k hk
    rcases List.mem_append.1 ho with ho | ho
    · exact hops.1 k (slots_of_synthesize hxs o ho k hk)
    · exact ih hys hops.2 o ho k hk

/-- **Committing a trial** gives the slots that were interned at once. -/
theorem Overlay.commit_slots {t : TrialVocabulary} {e : VmEpochMaterializer}
    (h : Overlay t.bare e.bare [] []) :
    t.commit.slots.lookup = e.slots.lookup ∧ t.commit.slots.size = e.slots.size := by
  refine ⟨?_, ?_⟩
  · funext k
    exact (Dict.lookup_merge _ _ _ _).trans (h.slots k).symm
  · exact (Dict.size_merge _ h.slots_new).trans h.slots_size.symm

namespace MixedRun

variable {base : FrozenNames} {U : Finset SlotId} {names : List SlotId} {s s' s'' : MixedRun}
  {a b c : WorldState}

/-- Some intents lead the run `s` to `s'`, and the state `a` to `b`. -/
structure Moves (base : FrozenNames) (U : Finset SlotId) (s : MixedRun) (a : WorldState)
    (accepted : Bool) (s' : MixedRun) (b : WorldState) : Prop where
  operations : ∃ ops, s'.operations = s.operations ++ ops ∧ a.applyAll ops = some b ∧
    (∀ op ∈ ops, ∀ k ∈ op.slots, k ∈ U) ∧ (accepted = false → ops = [])
  shaped : ∃ names, s'.materializer.Shaped base names b ∧ ∀ k ∈ names, k ∈ U

/-- An intent that is refused. -/
theorem Moves.refused {m : VmEpochMaterializer} (h : m.Shaped base names a)
    (hU : ∀ k ∈ names, k ∈ U) : Moves base U s a false { s with materializer := m } a :=
  ⟨⟨[], by simp, rfl, by simp, fun _ => rfl⟩, names, h, hU⟩

/-- An intent that is accepted. -/
theorem Moves.accepted {m : VmEpochMaterializer} {ops : List Operation}
    (h : m.Shaped base names b) (hU : ∀ k ∈ names, k ∈ U) (hb : a.applyAll ops = some b)
    (hops : ∀ op ∈ ops, ∀ k ∈ op.slots, k ∈ U) : Moves base U s a true (s.accept m ops) b :=
  ⟨⟨ops, rfl, hb, hops, fun hf => nomatch hf⟩, names, h, hU⟩

/-- **A semantic intent** leads to the shape of the state that its operations lead to. -/
theorem executeSemantic_shape (h : s.materializer.Shaped base names a) (hU : ∀ k ∈ names, k ∈ U)
    (hbase : Supply base U) {intent : SemanticIntent}
    (hops : ∀ op ∈ intent.ast.operations, ∀ k ∈ op.slots, k ∈ U) {d : MixedDecision}
    (hs : s.executeSemantic intent = .ok (d, s')) : ∃ b, Moves base U s a d.isAccepted s' b := by
  have h₀ : SemanticCompiler.Trailed base U ⟨.new s.materializer, ∅, 0⟩ s.materializer :=
    ⟨⟨names, h.slots, hU⟩, .new _⟩
  unfold executeSemantic at hs
  simp only [TrialVocabulary.compileSemanticTrial] at hs
  split at hs
  · cases hs
  · -- the program does not compile: only heads were added
    rename_i err c hc
    cases hs
    obtain ⟨e, -, hf, -⟩ := SemanticCompiler.operations_shape h₀ hbase hops hc
    exact ⟨a, Moves.refused (h.extend (hf.grown.dictionaries h.slots) hf.grown.extends) hU⟩
  rename_i is c hc
  obtain ⟨e, ⟨⟨names', hd, hU'⟩, hover⟩, hf, hcompiled⟩ :=
    SemanticCompiler.operations_shape h₀ hbase hops hc
  obtain ⟨hbinds, hcompiled⟩ := hcompiled is rfl
  have hwe : e.workspace = c.trial.materializer.workspace := hover.workspace
  split at hs
  · cases hs
  · -- accepted: the operations of the commit have the effects of the program
    rename_i w hw
    have he := h.extend hd hf.extended
    have hstack : c.trial.materializer.workspace.stackPointer ≤
        c.trial.materializer.workspace.stack.length := by
      rw [← hwe]
      exact he.stack_le
    obtain ⟨w₁, hrun, -, -⟩ := executeInstructions_run hstack hw
    obtain ⟨temps, hbound, hassign⟩ := hbinds ∅ fun s x hx => by simp at hx
    have hassign₀ := hassign []
    rw [List.append_nil] at hassign₀
    have hnext : SemanticCompiler.next ⟨.new s.materializer, ∅, 0⟩ =
        s.materializer.workspace.nextEntity := rfl
    obtain ⟨os, hos, hshaped⟩ := hcompiled temps hbound
    have hsynth : intent.synthesized s.materializer.workspace.nextEntity = .ok os := by
      unfold SemanticIntent.synthesized
      rw [← hnext, hassign₀]
      exact hos
    rw [hsynth] at hs
    cases hs
    obtain ⟨b, hb, -⟩ := hshaped.applied a (by rw [hnext, h.nextEntity])
    have hexec := he.execute (hshaped.lowers (run_noReject hrun)) hb (by rw [hwe]; exact hw)
    obtain ⟨hlook, hsize⟩ := hover.commit_slots
    refine ⟨b, Moves.accepted (hexec.congr ⟨?_, ?_, ?_, ?_, ?_, ?_⟩ rfl hlook) hU' hb
      (slots_of_synthesizeOperations hos hops)⟩
    · have := hd.below
      rw [show e.bare.mappedBase = _ from hover.mapped] at this
      exact this
    · have := hd.slots
      rw [← show _ = e.bare.slots.lookup from hlook] at this
      exact this
    · exact hsize.trans hd.slots_size
    · exact Vocabulary.coherent_nil
    · rfl
    · exact Vocabulary.coherent_nil
  · rename_i err w hw
    cases hs
    refine ⟨a, Moves.refused ?_ hU⟩
    exact (h.extend (hf.grown.dictionaries h.slots) hf.grown.extends).reject hw

end MixedRun

end ForthDB
