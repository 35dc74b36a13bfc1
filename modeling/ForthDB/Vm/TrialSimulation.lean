import ForthDB.Vm.Standing
import ForthDB.Vm.TrialVocabulary

/-!
# A trial vocabulary as an eager materializer

* `Overlay t e ps ls`: the trial `t` numbers names as the materializer `e` does that
  interned them at once; `ps` and `ls` are the new predicates and literals in the order of
  their first use.
* `firstUses`: names in the order of their first use.
* `Overlay.slotToken`, `Overlay.predicateCell`, `Overlay.literalCell`: **a name gets the number in
  the trial that it would get at once.**
-/

namespace ForthDB

/-- Names in the order of their first use, without those that are known. -/
def firstUses {κ : Type} [DecidableEq κ] (known : κ → Bool) (seen uses : List κ) : List κ :=
  uses.foldl (fun seen k => if known k ∨ k ∈ seen then seen else seen ++ [k]) seen

theorem firstUses_append {κ : Type} [DecidableEq κ] (known : κ → Bool) (seen xs ys : List κ) :
    firstUses known seen (xs ++ ys) = firstUses known (firstUses known seen xs) ys :=
  List.foldl_append

theorem firstUses_known {κ : Type} [DecidableEq κ] {known : κ → Bool} {seen : List κ} {k : κ}
    (h : known k ∨ k ∈ seen) : firstUses known seen [k] = seen := by
  simp only [firstUses, List.foldl_cons, List.foldl_nil, if_pos h]

theorem firstUses_new {κ : Type} [DecidableEq κ] {known : κ → Bool} {seen : List κ} {k : κ}
    (h : ¬known k) (hs : k ∉ seen) : firstUses known seen [k] = seen ++ [k] := by
  simp only [firstUses, List.foldl_cons, List.foldl_nil, h, hs, or_self, if_false,
    Bool.false_eq_true]

/-- The literals that an operand names. -/
def AtomRef.literals : AtomRef → List Literal
  | .literal l => [⟨l⟩]
  | .entity _ | .symbol _ => []

/-- The entity of an operand, if it is one, lies below the literal cells. -/
def AtomRef.InVmRange : AtomRef → Prop
  | .entity e => e.value < literalBase
  | .literal _ | .symbol _ => True

namespace TransactionOp

def slots : TransactionOp → List SlotId
  | .expectObject slot _ | .define slot _ _ _ | .forget slot => [⟨slot⟩]
  | .allocate _ | .expectWorld _ | .reject => []

/-- The predicates that an operation uses, in order. -/
def predicateUses : TransactionOp → List Predicate
  | .define _ _ predicate _ => [⟨predicate⟩]
  | _ => []

/-- The literals that an operation uses, in order. -/
def literalUses : TransactionOp → List Literal
  | .expectObject _ expected => expected.literals
  | .define _ subject _ object => subject.literals ++ object.literals
  | _ => []

/-- The entities that an operation defines a fact with lie below the literal cells. -/
def InVmRange : TransactionOp → Prop
  | .define _ subject _ object => subject.InVmRange ∧ object.InVmRange
  | _ => True

end TransactionOp

namespace VmEpochMaterializer

def knowsPredicate (m : VmEpochMaterializer) (p : Predicate) : Bool :=
  (m.predicates.lookup p).isSome || (m.mappedBase.bind fun base => base.predicateToken p).isSome

def knowsLiteral (m : VmEpochMaterializer) (l : Literal) : Bool :=
  (m.literals.lookup l).isSome || (m.mappedBase.bind fun base => base.literalToken l).isSome

/-- `m'` is `m` with more heads, all of them empty. -/
structure HeadsGrown (m m' : VmEpochMaterializer) : Prop where
  names : m' = { m with workspace := m'.workspace }
  workspace : m'.workspace = { m.workspace with acceptedHeads := m'.workspace.acceptedHeads }
  heads : ∀ t : ℕ, m'.workspace.acceptedHeads[t]?.join = m.workspace.acceptedHeads[t]?.join
  grows : m.workspace.acceptedHeads.length ≤ m'.workspace.acceptedHeads.length

variable {base : FrozenNames} {names : List SlotId} {m m' m'' : VmEpochMaterializer}
  {a : WorldState}

theorem HeadsGrown.refl (m : VmEpochMaterializer) : HeadsGrown m m :=
  ⟨rfl, rfl, fun _ => rfl, le_rfl⟩

theorem HeadsGrown.trans (h : HeadsGrown m m') (h' : HeadsGrown m' m'') : HeadsGrown m m'' := by
  refine ⟨?_, ?_, fun t => (h'.heads t).trans (h.heads t), h.grows.trans h'.grows⟩
  · rw [h'.names, h.names]
  · rw [h'.workspace, h.workspace]

theorem HeadsGrown.extends (h : HeadsGrown m m') : Extends base m m' := by
  have hn := h.names
  generalize m'.workspace = w at hn
  subst hn
  exact ⟨rfl, rfl, h.workspace, h.heads, h.grows, fun _ _ hk => hk, fun _ _ hc => hc,
    fun _ _ hc => hc⟩

theorem HeadsGrown.dictionaries (h : HeadsGrown m m') (hd : Dictionaries base names m) :
    Dictionaries base names m' := by
  rw [h.names]
  exact hd.withWorkspace _

theorem HeadsGrown.stands (h : HeadsGrown m m') (hs : m.Stands base names a) :
    m'.Stands base names a := hs.extend (h.dictionaries hs.dictionaries) h.extends

end VmEpochMaterializer

open VmEpochMaterializer

/-- The trial `t` numbers names as the materializer `e`. -/
structure Overlay (t : TrialVocabulary) (e : VmEpochMaterializer) (ps : List Predicate)
    (ls : List Literal) : Prop where
  mapped : e.mappedBase = t.materializer.mappedBase
  workspace : e.workspace = t.materializer.workspace
  slots : ∀ k, e.slots.lookup k = (t.slots.lookup k).or (t.materializer.slots.lookup k)
  slots_new : ∀ k, t.slots.lookup k ≠ none → t.materializer.slots.lookup k = none
  slots_size : e.slots.size = t.materializer.slots.size + t.slots.size
  predicates : ∀ p,
    e.predicates.lookup p = (t.predicates.lookup p).or (t.materializer.predicates.lookup p)
  predicates_new : ∀ p, t.predicates.lookup p ≠ none → t.materializer.predicates.lookup p = none
  predicates_size : e.predicates.size = t.materializer.predicates.size + t.predicates.size
  predicateValues : e.predicateValues = t.materializer.predicateValues ++ ps
  mem_predicates : ∀ p, p ∈ ps ↔ t.predicates.lookup p ≠ none
  literals : ∀ l, e.literals.lookup l = (t.literals.lookup l).or (t.materializer.literals.lookup l)
  literalValues : e.literalValues = t.materializer.literalValues ++ ls
  mem_literals : ∀ l, l ∈ ls ↔ t.literals.lookup l ≠ none
  length_literals : ls.length = t.literals.size

namespace Overlay

variable {t t' : TrialVocabulary} {e : VmEpochMaterializer} {ps : List Predicate}
  {ls : List Literal}

theorem new (m : VmEpochMaterializer) : Overlay (.new m) m [] [] := by
  refine ⟨rfl, rfl, ?_, ?_, ?_, ?_, ?_, ?_, ?_, ?_, ?_, ?_, ?_, ?_⟩ <;>
    simp [TrialVocabulary.new]

/-- **A slot** gets the token it would get at once. -/
theorem slotToken (h : Overlay t e ps ls) (slot : SlotId) :
    (t.slotToken slot).1 = (e.slotToken slot).1 ∧
      Overlay (t.slotToken slot).2 (e.slotToken slot).2 ps ls ∧
      HeadsGrown t.materializer (t.slotToken slot).2.materializer := by
  unfold TrialVocabulary.slotToken VmEpochMaterializer.slotToken
  rw [h.slots slot, h.mapped]
  cases ht : t.slots.lookup slot with
  | some token => exact ⟨rfl, h, .refl _⟩
  | none =>
    cases hm : t.materializer.slots.lookup slot with
    | some token => exact ⟨rfl, h, .refl _⟩
    | none =>
      cases hb : t.materializer.mappedBase.bind fun base => base.slotToken slot with
      | some token => exact ⟨rfl, h, .refl _⟩
      | none =>
        have hcount : e.baseSlotCount = t.materializer.baseSlotCount := by
          unfold baseSlotCount
          rw [h.mapped]
        have he : e.slots.lookup slot = none := by rw [h.slots, ht, hm]; rfl
        simp only [Option.or_none]
        rw [hcount, h.slots_size, Dict.size_insert_new he, h.slots_size, ← Nat.add_assoc,
          ← Nat.add_assoc, ← Nat.add_assoc]
        set total := t.materializer.baseSlotCount + t.materializer.slots.size + t.slots.size
        obtain ⟨he1, he2, he3⟩ := ensureSlotCount_eq t.materializer.workspace (total + 1)
        refine ⟨rfl, ⟨rfl, ?_, ?_, ?_, ?_, h.predicates, h.predicates_new,
          h.predicates_size, h.predicateValues, h.mem_predicates, h.literals, h.literalValues,
          h.mem_literals, h.length_literals⟩, ⟨rfl, he1, he2, ?_⟩⟩
        · simp only [h.workspace]
        · intro k
          by_cases hk : k = slot
          · subst hk; simp
          · simp [hk, h.slots]
        · intro k hk
          by_cases hks : k = slot
          · subst hks; exact hm
          · simp only [AList.lookup_insert_ne hks] at hk
            exact h.slots_new k hk
        · simp only [Dict.size_insert_new he, Dict.size_insert_new ht, h.slots_size]
          omega
        · simp only [he3]
          exact le_max_left _ _

/-- **A predicate** gets the cell it would get at once. -/
theorem predicateCell (h : Overlay t e ps ls) (p : Predicate) :
    (t.predicateCell p).1 = (e.predicateCell p).1 ∧
      Overlay (t.predicateCell p).2 (e.predicateCell p).2
        (firstUses t.materializer.knowsPredicate ps [p]) ls ∧
      (t.predicateCell p).2.materializer = t.materializer := by
  unfold TrialVocabulary.predicateCell VmEpochMaterializer.predicateCell
  rw [h.predicates p, h.mapped]
  cases ht : t.predicates.lookup p with
  | some cell =>
    rw [firstUses_known (.inr ((h.mem_predicates p).2 (by simp [ht])))]
    exact ⟨rfl, h, rfl⟩
  | none =>
    have hmem : p ∉ ps := fun hp => (h.mem_predicates p).1 hp ht
    cases hm : t.materializer.predicates.lookup p with
    | some cell =>
      rw [firstUses_known (.inl (by simp [knowsPredicate, hm]))]
      exact ⟨rfl, h, rfl⟩
    | none =>
      cases hb : t.materializer.mappedBase.bind fun base => base.predicateToken p with
      | some cell =>
        rw [firstUses_known (.inl (by simp [knowsPredicate, hb]))]
        exact ⟨rfl, h, rfl⟩
      | none =>
        rw [firstUses_new (by simp [knowsPredicate, hm, hb]) hmem]
        have hcount : e.basePredicateCount = t.materializer.basePredicateCount := by
          unfold basePredicateCount
          rw [h.mapped]
        have he : e.predicates.lookup p = none := by rw [h.predicates, ht, hm]; rfl
        simp only [Option.or_none]
        rw [hcount, h.predicates_size, ← Nat.add_assoc]
        refine ⟨rfl, ⟨rfl, h.workspace, h.slots, h.slots_new, h.slots_size, ?_, ?_, ?_, ?_,
          ?_, h.literals, h.literalValues, h.mem_literals, h.length_literals⟩, trivial⟩
        · intro q
          by_cases hq : q = p
          · subst hq; simp
          · simp [hq, h.predicates]
        · intro q hq
          by_cases hqp : q = p
          · subst hqp; exact hm
          · simp only [AList.lookup_insert_ne hqp] at hq
            exact h.predicates_new q hq
        · simp only [Dict.size_insert_new he, Dict.size_insert_new ht, h.predicates_size]
          omega
        · simp only [h.predicateValues, List.append_assoc]
        · intro q
          by_cases hq : q = p
          · subst hq; simp
          · simp [hq, h.mem_predicates]

/-- **A literal** gets the cell it would get at once. -/
theorem literalCell (h : Overlay t e ps ls) {l : Literal} {c : ℕ}
    (hc : t.literalCell l = .ok (c, t')) :
    (e.atomCell (.literal l)).1 = .ok c ∧
      Overlay t' (e.atomCell (.literal l)).2 ps (firstUses t.materializer.knowsLiteral ls [l]) ∧
      t'.materializer = t.materializer := by
  unfold TrialVocabulary.literalCell at hc
  unfold VmEpochMaterializer.atomCell
  simp only
  rw [h.literals l, h.mapped]
  cases ht : t.literals.lookup l with
  | some cell =>
    rw [ht] at hc
    cases hc
    rw [firstUses_known (.inr ((h.mem_literals l).2 (by simp [ht])))]
    exact ⟨rfl, h, rfl⟩
  | none =>
    rw [ht] at hc
    simp only at hc
    have hmem : l ∉ ls := fun hl => (h.mem_literals l).1 hl ht
    cases hm : t.materializer.literals.lookup l with
    | some cell =>
      rw [hm] at hc
      cases hc
      rw [firstUses_known (.inl (by simp [knowsLiteral, hm]))]
      exact ⟨rfl, h, rfl⟩
    | none =>
      rw [hm] at hc
      simp only at hc
      cases hb : t.materializer.mappedBase.bind fun base => base.literalToken l with
      | some cell =>
        rw [hb] at hc
        cases hc
        rw [firstUses_known (.inl (by simp [knowsLiteral, hb]))]
        exact ⟨rfl, h, rfl⟩
      | none =>
        rw [hb] at hc
        rw [firstUses_new (by simp [knowsLiteral, hm, hb]) hmem]
        have hcount : e.baseLiteralCount = t.materializer.baseLiteralCount := by
          unfold baseLiteralCount
          rw [h.mapped]
        have he : e.literals.lookup l = none := by rw [h.literals, ht, hm]; rfl
        simp only [Option.or_none] at hc ⊢
        rw [hcount, h.literalValues, List.length_append, h.length_literals, ← Nat.add_assoc
          t.materializer.baseLiteralCount]
        split at hc
        swap
        · cases hc
        rename_i hlt
        rw [if_pos hlt]
        cases hc
        refine ⟨rfl, ⟨rfl, h.workspace, h.slots, h.slots_new, h.slots_size, h.predicates,
          h.predicates_new, h.predicates_size, h.predicateValues, h.mem_predicates, ?_, ?_, ?_, ?_⟩,
          rfl⟩
        · intro q
          by_cases hq : q = l
          · subst hq; simp
          · simp [hq, h.literals]
        · simp only [List.append_assoc]
        · intro q
          by_cases hq : q = l
          · subst hq; simp
          · simp [hq, h.mem_literals]
        · simp only [Dict.size_insert_new ht, List.length_append, List.length_singleton,
            h.length_literals]

end Overlay

end ForthDB
