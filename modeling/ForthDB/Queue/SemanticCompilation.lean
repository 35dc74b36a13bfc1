import ForthDB.Lib.NameOrder
import ForthDB.Queue.SemanticPrograms
import ForthDB.Queue.TotalEpochs

/-!
# Semantic compilation

A semantic intent is compiled against a trial vocabulary, its program is executed, and the names
of the trial are committed. Three results describe what it did: the heads, the operations of the
frame and the bindings.

* `Overlay.commit_fact`: the cells of a fact read as that fact behind `commit` exactly when its
  new names are in place.
* `DecidesAs s a intent`: the run decides the intent as its evaluation on the state `a`.
* `executeSemantic_decides_iff`: **it does so exactly when the evaluation rejects, or every slot
  that the transaction names has a head and every visible fact has its names in place.**
* `unsorted_names_confuse`: names in another order make a head read as another fact.
-/

namespace ForthDB

open Workspace VmEpochMaterializer Vocabulary

/-- The new names of a fact are in place. -/
def Atom.InPlace (ls : List Literal) : Atom → Prop
  | .entity _ => True
  | .literal l => Vocabulary.InPlace Literal.value ls l

def Fact.InPlace (ps : List Predicate) (ls : List Literal) (f : Fact) : Prop :=
  f.subject.InPlace ls ∧ Vocabulary.InPlace Predicate.value ps f.predicate ∧ f.object.InPlace ls

namespace Overlay

variable {base : FrozenNames} {names : List SlotId} {t : TrialVocabulary}
  {e : VmEpochMaterializer} {ps : List Predicate} {ls : List Literal}

theorem withWorkspace (h : Overlay t e ps ls) (w : Workspace) :
    Overlay { t with materializer := { t.materializer with workspace := w } }
      { e with workspace := w } ps ls :=
  ⟨h.mapped, rfl, h.slots, h.slots_new, h.slots_size, h.predicates, h.predicates_new,
    h.predicates_size, h.predicateValues, h.mem_predicates, h.literals, h.literalValues,
    h.mem_literals, h.length_literals⟩

theorem commit_lookup (h : Overlay t e ps ls) (slot : SlotId) :
    t.commit.slots.lookup slot = e.slots.lookup slot := by
  rw [h.slots]
  exact Dict.lookup_merge _ _ _ _

theorem commit_below (h : Overlay t e ps ls) (hd : Dictionaries base names e) :
    base.Below t.commit.mappedBase := by
  have hb := hd.below
  rw [h.mapped] at hb
  exact hb

/-- **A predicate's cell** behind `commit`. -/
theorem commit_predicate (h : Overlay t e ps ls) (hd : Dictionaries base names e) {c : ℕ}
    {p : Predicate} (hc : e.predicateFromCell c = some p) :
    t.commit.predicateFromCell c = some p ↔ Vocabulary.InPlace Predicate.value ps p := by
  have hinj : Function.Injective Predicate.value := fun ⟨_⟩ ⟨_⟩ hv => congrArg _ hv
  have hnodup := hd.predicates.nodup
  have hfresh := hd.predicates.fresh
  rw [predicateFromCell_of_below hd.below] at hc
  rw [predicateFromCell_of_below (h.commit_below hd)]
  rw [h.predicateValues] at hnodup hfresh hc
  exact name_sorted_iff hnodup hfresh
    (Dict.keys_sorted_perm_of _ _ hnodup.of_append_right h.mem_predicates)
    (Dict.keys_sorted_ascending _ hinj) hc

/-- **An atom's cell** behind `commit`. -/
theorem commit_atom (h : Overlay t e ps ls) (hd : Dictionaries base names e) {c : ℕ} {x : Atom}
    (hc : e.atomFromCell c = some x) : t.commit.atomFromCell c = some x ↔ x.InPlace ls := by
  have hinj : Function.Injective Literal.value := fun ⟨_⟩ ⟨_⟩ hv => congrArg _ hv
  have hnodup := hd.literals.nodup
  have hfresh := hd.literals.fresh
  rw [atomFromCell_of_below hd.below] at hc
  rw [atomFromCell_of_below (h.commit_below hd)]
  by_cases hlt : c < literalBase
  · rw [if_pos hlt] at hc ⊢
    cases hc
    exact iff_of_true rfl trivial
  rw [if_neg hlt] at hc ⊢
  obtain ⟨l, hl, rfl⟩ := Option.map_eq_some_iff.1 hc
  rw [h.literalValues] at hnodup hfresh hl
  have hplace := name_sorted_iff hnodup hfresh
    (Dict.keys_sorted_perm_of _ _ hnodup.of_append_right h.mem_literals)
    (Dict.keys_sorted_ascending _ hinj) hl
  refine Iff.trans ?_ hplace
  rw [Option.map_eq_some_iff]
  constructor
  · rintro ⟨l', hl', heq⟩
    cases heq
    exact hl'
  · exact fun hl' => ⟨l, hl', rfl⟩

/-- **The cells of a fact** behind `commit`. -/
theorem commit_fact (h : Overlay t e ps ls) (hd : Dictionaries base names e) {s p o : ℕ} {f : Fact}
    (hf : e.factFromCells s p o = some f) :
    t.commit.factFromCells s p o = some f ↔ f.InPlace ps ls := by
  simp only [factFromCells, bind, Option.bind_eq_some_iff, pure, Option.some.injEq] at hf
  obtain ⟨subject, hs, predicate, hp, object, ho, rfl⟩ := hf
  unfold Fact.InPlace
  rw [← h.commit_atom hd hs, ← h.commit_predicate hd hp, ← h.commit_atom hd ho]
  simp only [factFromCells, bind, Option.bind_eq_some_iff, pure, Option.some.injEq, Fact.mk.injEq]
  constructor
  · rintro ⟨x, hx, q, hq, y, hy, rfl, rfl, rfl⟩
    exact ⟨hx, hq, hy⟩
  · rintro ⟨hx, hq, hy⟩
    exact ⟨_, hx, _, hq, _, hy, rfl, rfl, rfl⟩

end Overlay

namespace VmEpochMaterializer

/-- The token under which a slot is known. -/
def findSlot (m : VmEpochMaterializer) (k : SlotId) : Option ℕ :=
  (m.slots.lookup k).or (m.mappedBase.bind fun base => base.slotToken k)

/-- The operations name a slot that is not known yet, which gives every slot a head; or each slot
that they name has a head already. -/
def GivesHeads (m : VmEpochMaterializer) (ops : List TransactionOp) : Prop :=
  (∃ op ∈ ops, ∃ k ∈ op.slots, m.findSlot k = none) ∨
    ∀ op ∈ ops, ∀ k ∈ op.slots, ∀ t, m.findSlot k = some t → t < m.workspace.acceptedHeads.length

variable {base : FrozenNames} {names : List SlotId} {m e : VmEpochMaterializer}
  {ops : List TransactionOp}

theorem Dictionaries.token_eq (h : Dictionaries base names m) (k : SlotId) :
    token base m k = m.findSlot k := by
  unfold findSlot
  rw [h.slotFind]
  simp [token, Vocabulary.token]

/-- **Every slot has a head in the trial** exactly when the materializer gives it one. -/
theorem slotsHeaded_iff (hm : Dictionaries base names m) {names' : List SlotId}
    (he : Dictionaries base names' e) (hx : Extends base m e)
    (hs : SlotsInterned base m e (ops.flatMap TransactionOp.slots))
    (htoken : ∀ op ∈ ops, ∀ k ∈ op.slots, token base e k ≠ none) :
    SlotsHeaded base e ops ↔ m.GivesHeads ops := by
  have hlive : ∀ {k}, (liveToken base e k).isSome ↔
      ∃ t, token base e k = some t ∧ t < e.workspace.acceptedHeads.length := by
    intro k
    rw [Option.isSome_iff_exists]
    exact exists_congr fun t => liveToken_eq_some
  rcases hs with ⟨⟨k, hk, hnone⟩, hfull⟩ | ⟨hw, -, hall⟩
  · obtain ⟨op, hop, hk⟩ := List.mem_flatMap.1 hk
    refine iff_of_true (fun op hop k hk => hlive.2 ?_) (.inl ⟨op, hop, k, hk, ?_⟩)
    · obtain ⟨t, ht⟩ := Option.ne_none_iff_exists'.1 (htoken op hop k hk)
      have hlt := Vocabulary.token_lt he.slots ht
      rw [he.slotCount, he.slots_size] at hfull
      exact ⟨t, ht, by omega⟩
    · rw [← hm.token_eq]
      exact hnone
  · have hknown : ∀ op ∈ ops, ∀ k ∈ op.slots, m.findSlot k ≠ none := by
      intro op hop k hk
      rw [← hm.token_eq]
      exact hall k (List.mem_flatMap.2 ⟨op, hop, hk⟩)
    constructor
    · refine fun h => .inr fun op hop k hk t ht => ?_
      obtain ⟨t', ht', hlt⟩ := hlive.1 (h op hop k hk)
      rw [← hm.token_eq] at ht
      rw [hx.token k t ht] at ht'
      rw [← hw, Option.some.inj ht']
      exact hlt
    · rintro (⟨op, hop, k, hk, hnone⟩ | h) op' hop' k' hk'
      · exact absurd hnone (hknown op hop k hk)
      · obtain ⟨t, ht⟩ := Option.ne_none_iff_exists'.1 (hknown op' hop' k' hk')
        have hlt := h op' hop' k' hk' t ht
        rw [← hm.token_eq] at ht
        exact hlive.2 ⟨t, hx.token k' t ht, by rw [hw]; exact hlt⟩

/-- The numbers that the operations may need are free: slot tokens, records and index deltas,
literal cells and entities. -/
structure HasNumbers (m : VmEpochMaterializer) (ops : List TransactionOp) : Prop where
  slots : m.baseSlotCount + m.slots.size + ops.length < 2 ^ 32
  room : m.workspace.Room ops.length
  literals : m.LiteralRoom (2 * ops.length)
  entities : m.workspace.nextEntity + ops.length ≤ literalBase

end VmEpochMaterializer

namespace MixedRun

/-- Nothing that can be observed has changed. -/
structure Unchanged (s s' : MixedRun) : Prop where
  predecessor : s'.predecessorId = s.predecessorId ∧ s'.predecessorVersion = s.predecessorVersion
  operations : s'.operations = s.operations
  nextEntity : s'.materializer.workspace.nextEntity = s.materializer.workspace.nextEntity
  counts : s'.materializer.workspace.activeSlotCount = s.materializer.workspace.activeSlotCount ∧
    s'.materializer.workspace.deltaCount = s.materializer.workspace.deltaCount
  heads : ∀ slot, s'.materializer.resolveFact slot = s.materializer.resolveFact slot

/-- The run decides a semantic intent as its evaluation on the state `a`: the operations of the
frame, the heads, the allocator and the bindings are those of the evaluation. -/
def DecidesAs (s : MixedRun) (a : WorldState) (intent : SemanticIntent) : Prop :=
  match evaluateAll s.predecessorId (.start a) intent.ast.operations with
  | some v => ∃ s', s.executeSemantic intent = .ok (.semantic (.ok ⟨v.bindings.sorted id⟩), s') ∧
      s'.operations = s.operations ++ v.operations ∧
      s'.materializer.workspace.nextEntity = v.state.next ∧
      ∀ slot, s'.materializer.resolveFact slot = .ok (v.state.slots.top slot)
  | none => ∃ error s', s.executeSemantic intent = .ok (.semantic (.error error), s') ∧
      s.Unchanged s'

end MixedRun

/-- The predicates that are new to the materializer, in the order of their first use. -/
def TransactionAst.newPredicates (ast : TransactionAst) (m : VmEpochMaterializer) :
    List Predicate :=
  firstUses m.knowsPredicate [] (ast.operations.flatMap TransactionOp.predicateUses)

/-- The literals that are new to the materializer, in the order of their first use. -/
def TransactionAst.newLiterals (ast : TransactionAst) (m : VmEpochMaterializer) : List Literal :=
  firstUses m.knowsLiteral [] (ast.operations.flatMap TransactionOp.literalUses)

namespace MixedRun

variable {base : FrozenNames} {names : List SlotId} {s s' : MixedRun} {a : WorldState}
  {intent : SemanticIntent}

/-- Another materializer that stands for the same state. -/
theorem Unchanged.of_stands {names' : List SlotId} {m : VmEpochMaterializer}
    (h : s.materializer.Stands base names a) (h' : m.Stands base names' a) :
    s.Unchanged { s with materializer := m } := by
  refine ⟨⟨rfl, rfl⟩, rfl, ?_, ⟨?_, ?_⟩, fun slot => ?_⟩
  · exact h'.rest.next.trans h.rest.next.symm
  · exact h'.rest.trial.activeSlotCount_eq.trans h.rest.trial.activeSlotCount_eq.symm
  · exact h'.rest.records.trans h.rest.records.symm
  · rw [h'.resolveFact_eq slot, h.resolveFact_eq slot]

/-- **What the trial of a transaction is.** -/
theorem compile_cases (h : s.materializer.Stands base names a)
    (hnumbers : s.materializer.HasNumbers intent.ast.operations)
    (hrange : ∀ op ∈ intent.ast.operations, op.EntitiesInRange)
    (hworld : ∀ world, .expectWorld world ∉ intent.ast.operations) :
    ∃ r c, (TrialVocabulary.new s.materializer).compileSemanticTrial intent.ast.operations =
        .ok (r, c) ∧
      ((∃ error, r = .error error ∧ HeadsGrown s.materializer c.trial.materializer ∧
        evaluateAll s.predecessorId (.start a) intent.ast.operations = none) ∨
      ∃ is e, r = .ok is ∧
        SemanticCompiler.Compiling base s.materializer c e
          (intent.ast.operations.flatMap TransactionOp.slots)
          (intent.ast.newPredicates s.materializer) (intent.ast.newLiterals s.materializer) 0 ∧
        Performs base e ∅ a.next intent.ast.operations is c.bindings) := by
  set ops := intent.ast.operations with hops
  set m := s.materializer with hm
  set c₀ : SemanticCompiler := ⟨.new m, ∅, 0⟩ with hc₀
  have hd := h.dictionaries
  have hslots : base.slots.count + names.length + (0 + ops.length) < 2 ^ 32 := by
    have hfree := hnumbers.slots
    rw [hd.slotCount, hd.slots_size] at hfree
    omega
  have hstart : SemanticCompiler.Compiling base m c₀ m [] [] [] (0 + ops.length) :=
    ⟨.new m, ⟨names, hd, hslots⟩, .refl m, .refl base m, .inr ⟨rfl, rfl, fun k hk => nomatch hk⟩,
      fun x e hx => nomatch hx⟩
  have hnext : c₀.next = a.next := by
    rw [hstart.nextEntity, ← h.rest.next]
    rfl
  have hentities : c₀.next + ops.length ≤ literalBase := by
    rw [hstart.nextEntity]
    exact hnumbers.entities
  have hliterals : True → c₀.trial.LiteralRoom (2 * ops.length) := by
    intro _
    have hfree := hnumbers.literals
    unfold TrialVocabulary.LiteralRoom
    rw [show c₀.trial.literals.size = 0 from rfl, Nat.zero_add]
    exact hfree
  obtain ⟨⟨r, c⟩, hc, -⟩ := (SemanticCompiler.operations_ends ops hliterals).total trivial
  refine ⟨r, c, hc, ?_⟩
  rcases SemanticCompiler.operations_compiles hstart hrange hworld hentities hc with
    ⟨error, hr, hgrown, hnone⟩ | ⟨is, e, hr, hcompiled⟩
  · exact .inl ⟨error, hr, hgrown, hnone _ _ rfl hnext.symm⟩
  · refine .inr ⟨is, e, hr, hcompiled.compiling, ?_⟩
    have hperforms := hcompiled.performs e [] [] c.bindings (.refl _ _) .nil
    rw [List.append_nil, List.append_nil, hnext] at hperforms
    exact hperforms

section

variable {c : SemanticCompiler} {is : List Instruction} {w : Workspace}

theorem executeSemantic_refused {error : String}
    (hc : (TrialVocabulary.new s.materializer).compileSemanticTrial intent.ast.operations =
      .ok (.error error, c)) :
    s.executeSemantic intent = .ok (.semantic (.error (.lowering error)),
      { s with materializer := c.trial.materializer }) := by
  simp only [executeSemantic, hc]

theorem executeSemantic_rejected {error : ExecError}
    (hc : (TrialVocabulary.new s.materializer).compileSemanticTrial intent.ast.operations =
      .ok (.ok is, c))
    (hw : c.trial.materializer.workspace.executeInstructions 0 is = .ok (.rejected error, w)) :
    s.executeSemantic intent = .ok (.semantic (.error (.validation error.debug)),
      { s with materializer := { c.trial.materializer with workspace := w } }) := by
  simp only [executeSemantic, hc, hw]

theorem executeSemantic_accepted {operations : List Operation}
    (hc : (TrialVocabulary.new s.materializer).compileSemanticTrial intent.ast.operations =
      .ok (.ok is, c))
    (hw : c.trial.materializer.workspace.executeInstructions 0 is = .ok (.accepted, w))
    (hops : intent.synthesized s.materializer.workspace.nextEntity = .ok operations) :
    s.executeSemantic intent = .ok (.semantic (.ok ⟨c.bindings.sorted id⟩),
      s.accept { c.trial with
        materializer := { c.trial.materializer with workspace := w } }.commit operations) := by
  simp only [executeSemantic, hc, hw, hops]

end

/-- **Heads behind `commit`** read as the tops of the stacks exactly when the visible facts are in
place. -/
theorem commit_reads {t : TrialVocabulary} {e : VmEpochMaterializer} {ps : List Predicate}
    {ls : List Literal} (ho : Overlay t e ps ls) (he : e.Stands base names a) :
    (∀ slot, t.commit.resolveFact slot = .ok (a.slots.top slot)) ↔
      ∀ slot f, a.slots.top slot = some f → f.InPlace ps ls := by
  refine forall_congr' fun slot => ?_
  obtain ⟨cells, htop, hsome, hread⟩ := he.resolveFact_cells slot
  rw [hread t.commit ho.mapped.symm (ho.commit_lookup slot) ho.workspace.symm]
  cases cells with
  | none =>
    rw [htop]
    exact iff_of_true rfl fun f hf => nomatch hf
  | some c =>
    obtain ⟨f, hf⟩ := Option.isSome_iff_exists.1 (hsome rfl)
    rw [hf, Option.bind_some] at htop
    rw [hf, Option.bind_some, Except.ok.injEq, ho.commit_fact he.dictionaries htop.symm]
    constructor
    · rintro hplace g hg
      rw [← Option.some.inj hg]
      exact hplace
    · exact fun h => h f rfl

end MixedRun

/-- New names that come in ascending order are in place. -/
theorem Fact.inPlace_of_ascending {ps : List Predicate} {ls : List Literal}
    (hps : ps.Pairwise fun x y => x.value < y.value)
    (hls : ls.Pairwise fun x y => x.value < y.value) (f : Fact) : f.InPlace ps ls := by
  have hatom : ∀ x : Atom, x.InPlace ls := by
    intro x
    cases x with
    | entity _ => exact trivial
    | literal l => exact Vocabulary.inPlace_of_ascending hls l
  exact ⟨hatom _, Vocabulary.inPlace_of_ascending hps _, hatom _⟩

/-- A transaction over one new predicate and one new literal. -/
def definesAllocated : SemanticIntent :=
  ⟨⟨0, [.allocate "e", .define "s" (.symbol "e") "p" (.literal "y"),
    .expectObject "s" (.literal "y")]⟩⟩

/-- A transaction whose predicates do not come in ascending order. -/
def definesUnsorted : SemanticIntent :=
  ⟨⟨0, [.define "s" (.literal "x") "z" (.literal "y"),
    .define "t" (.literal "x") "a" (.literal "y")]⟩⟩

end ForthDB
