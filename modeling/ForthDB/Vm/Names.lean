import ForthDB.Lib.Vocabulary
import ForthDB.Vm.Materializer

/-!
# The names of a materializer

A materializer numbers names over the tables of its mapped base, if it has one.

* `Tables base names m`: the three dictionaries are coherent vocabularies over the
  frozen tables `base`; `names` are the slots interned so far, in order.
* `Extends m m'`: `m'` knows every name that `m` knows, under the same number, and
  has the same workspace up to empty heads.
* `compileOperations_ok`: operations in range compile to instructions that lower them;
  `compileOperations_inRange`: only those compile.
-/

namespace ForthDB

open Vocabulary

/-- The frozen tables below a materializer. -/
structure FrozenNames where
  slots : FrozenTable SlotId
  predicates : FrozenTable Predicate
  literals : FrozenTable Literal

def FrozenNames.none : FrozenNames := ⟨noNames, noNames, noNames⟩

/-- The string tables of an image are strictly sorted. -/
structure MmapVmSnapshot.NamesSorted (s : MmapVmSnapshot) : Prop where
  slots : s.slots.Pairwise (· < ·)
  predicates : s.predicates.Pairwise (· < ·)
  literals : s.literals.Pairwise (· < ·)

/-- A strictly sorted string table, as a table of names. -/
def frozenStrings {κ : Type} (values : List String) (h : values.Pairwise (· < ·)) (mk : String → κ)
    (value : κ → String) (hv : ∀ k, mk (value k) = k) (hm : ∀ v, value (mk v) = v) :
    FrozenTable κ where
  count := values.length
  find k := SortedTable.lookup values (value k)
  read i := values[i]?.map mk
  find_iff k i := by
    rw [SortedTable.lookup_iff h, Option.map_eq_some_iff]
    refine ⟨fun hi => ⟨value k, hi, hv k⟩, ?_⟩
    rintro ⟨v, hi, rfl⟩
    rw [hm, hi]
  lt_count k i hi := (List.getElem?_eq_some_iff.1 (SortedTable.lookup_sound hi)).1

def FrozenNames.ofImage (s : MmapVmSnapshot) (h : s.NamesSorted) : FrozenNames where
  slots := frozenStrings s.slots h.slots SlotId.mk SlotId.value (fun _ => rfl) fun _ => rfl
  predicates :=
    frozenStrings s.predicates h.predicates Predicate.mk Predicate.value (fun _ => rfl) fun _ => rfl
  literals :=
    frozenStrings s.literals h.literals Literal.mk Literal.value (fun _ => rfl) fun _ => rfl

/-- The frozen tables are those of the mapped base. -/
inductive FrozenNames.Below : FrozenNames → Option MmapVmSnapshot → Prop
  | none : Below .none .none
  | image (s : MmapVmSnapshot) (h : s.NamesSorted) : Below (.ofImage s h) (some s)

/-- The entities of an operation lie below the literal cells. -/
def Operation.InVmRange : Operation → Prop
  | .allocateEntity e => e.value < literalBase
  | .define _ fact => fact.subject.InVmRange ∧ fact.object.InVmRange
  | .forget _ => True

instance (op : Operation) : Decidable op.InVmRange :=
  match op with
  | .allocateEntity e => inferInstanceAs (Decidable (e.value < literalBase))
  | .define _ _ => inferInstanceAs (Decidable (_ ∧ _))
  | .forget _ => inferInstanceAs (Decidable True)

/-- The slots that an operation names. -/
def Operation.slots : Operation → List SlotId
  | .allocateEntity _ => []
  | .define slot _ => [slot]
  | .forget slot => [slot]

theorem Operation.length_slots (op : Operation) : op.slots.length = op.records := by
  cases op <;> rfl

namespace VmEpochMaterializer

/-- The token of a slot. -/
def token (base : FrozenNames) (m : VmEpochMaterializer) : SlotId → Option ℕ :=
  Vocabulary.token 0 base.slots m.slots.lookup

variable {base : FrozenNames} {names : List SlotId} {m m' m'' : VmEpochMaterializer}

/-- The dictionaries number names over the frozen tables. -/
structure Dictionaries (base : FrozenNames) (names : List SlotId) (m : VmEpochMaterializer) :
    Prop where
  below : base.Below m.mappedBase
  slots : Coherent 0 base.slots m.slots.lookup names
  slots_size : m.slots.size = names.length
  predicates : Coherent 0 base.predicates m.predicates.lookup m.predicateValues
  predicates_size : m.predicates.size = m.predicateValues.length
  literals : Coherent literalBase base.literals m.literals.lookup m.literalValues

/-- The dictionaries, and a head for every slot they number. -/
structure Tables (base : FrozenNames) (names : List SlotId) (m : VmEpochMaterializer) : Prop
    extends Dictionaries base names m where
  heads : base.slots.count + names.length ≤ m.workspace.acceptedHeads.length

theorem tables_new (nextEntity : ℕ) : Tables .none [] (new nextEntity) :=
  ⟨⟨.none, coherent_nil, rfl, coherent_nil, rfl, coherent_nil⟩, Nat.zero_le _⟩

/-- The name of a predicate cell. -/
theorem predicateFromCell_of_below (hb : base.Below m.mappedBase) (c : ℕ) :
    m.predicateFromCell c = name base.predicates m.predicateValues c := by
  unfold predicateFromCell name
  generalize m.mappedBase = mb at hb
  cases hb with
  | none => simp [FrozenNames.none, noNames]
  | image s hs => rfl

/-- The atom of a cell. -/
theorem atomFromCell_of_below (hb : base.Below m.mappedBase) (c : ℕ) :
    m.atomFromCell c =
      if c < literalBase then some (.entity ⟨c⟩)
      else (name base.literals m.literalValues (c - literalBase)).map .literal := by
  unfold atomFromCell name
  generalize m.mappedBase = mb at hb
  cases hb with
  | none => simp [FrozenNames.none, noNames]
  | image s hs =>
    split
    · rfl
    · simp only
      split
      · rename_i hlt
        have hlt' : c - literalBase < (FrozenNames.ofImage s hs).literals.count := hlt
        rw [if_pos hlt']
        rfl
      · rename_i hge
        have hge' : ¬ c - literalBase < (FrozenNames.ofImage s hs).literals.count := hge
        rw [if_neg hge']
        rfl

namespace Dictionaries

theorem slotFind (h : Dictionaries base names m) (slot : SlotId) :
    (m.mappedBase.bind fun b => b.slotToken slot) = base.slots.find slot := by
  obtain ⟨hb, -⟩ := h
  generalize m.mappedBase = mb at hb
  cases hb <;> rfl

theorem slotCount (h : Dictionaries base names m) : m.baseSlotCount = base.slots.count := by
  obtain ⟨hb, -⟩ := h
  unfold baseSlotCount
  generalize m.mappedBase = mb at hb
  cases hb <;> rfl

theorem predicateFind (h : Dictionaries base names m) (p : Predicate) :
    (m.mappedBase.bind fun b => b.predicateToken p) = base.predicates.find p := by
  obtain ⟨hb, -⟩ := h
  generalize m.mappedBase = mb at hb
  cases hb <;> rfl

theorem predicateCount (h : Dictionaries base names m) :
    m.basePredicateCount = base.predicates.count := by
  obtain ⟨hb, -⟩ := h
  unfold basePredicateCount
  generalize m.mappedBase = mb at hb
  cases hb <;> rfl

theorem literalFind (h : Dictionaries base names m) (l : Literal) :
    (m.mappedBase.bind fun b => b.literalToken l) = base.literals.find l := by
  obtain ⟨hb, -⟩ := h
  generalize m.mappedBase = mb at hb
  cases hb <;> rfl

theorem literalCount (h : Dictionaries base names m) : m.baseLiteralCount = base.literals.count := by
  obtain ⟨hb, -⟩ := h
  unfold baseLiteralCount
  generalize m.mappedBase = mb at hb
  cases hb <;> rfl

theorem predicateFromCell_eq (h : Dictionaries base names m) (c : ℕ) :
    m.predicateFromCell c = name base.predicates m.predicateValues c :=
  predicateFromCell_of_below h.below c

theorem atomFromCell_eq (h : Dictionaries base names m) (c : ℕ) :
    m.atomFromCell c =
      if c < literalBase then some (.entity ⟨c⟩)
      else (name base.literals m.literalValues (c - literalBase)).map .literal :=
  atomFromCell_of_below h.below c

theorem token_inj (h : Dictionaries base names m) {k k' : SlotId} {t : ℕ} (hk : token base m k = some t)
    (hk' : token base m k' = some t) : k = k' := Vocabulary.token_inj h.slots hk hk'

/-- The workspace plays no part in the dictionaries. -/
theorem withWorkspace (h : Dictionaries base names m) (w : Workspace) :
    Dictionaries base names { m with workspace := w } :=
  ⟨h.below, h.slots, h.slots_size, h.predicates, h.predicates_size, h.literals⟩

end Dictionaries

theorem Tables.token_lt (h : Tables base names m) {k : SlotId} {t : ℕ} (hk : token base m k = some t) :
    t < m.workspace.acceptedHeads.length := by
  have h1 := Vocabulary.token_lt h.slots hk
  have h2 := h.heads
  omega

/-- `m'` knows more names than `m`, on the same workspace up to empty heads. -/
structure Extends (base : FrozenNames) (m m' : VmEpochMaterializer) : Prop where
  mapped : m'.mappedBase = m.mappedBase
  version : m'.version = m.version
  workspace : m'.workspace = { m.workspace with acceptedHeads := m'.workspace.acceptedHeads }
  heads : ∀ t : ℕ, m'.workspace.acceptedHeads[t]?.join = m.workspace.acceptedHeads[t]?.join
  grows : m.workspace.acceptedHeads.length ≤ m'.workspace.acceptedHeads.length
  token : ∀ k t, token base m k = some t → token base m' k = some t
  predicate : ∀ c p, m.predicateFromCell c = some p → m'.predicateFromCell c = some p
  atom : ∀ c a, m.atomFromCell c = some a → m'.atomFromCell c = some a

namespace Extends

theorem refl (base : FrozenNames) (m : VmEpochMaterializer) : Extends base m m :=
  ⟨rfl, rfl, rfl, fun _ => rfl, le_rfl, fun _ _ h => h, fun _ _ h => h, fun _ _ h => h⟩

theorem trans (h : Extends base m m') (h' : Extends base m' m'') : Extends base m m'' := by
  refine ⟨h'.mapped.trans h.mapped, h'.version.trans h.version, ?_, ?_, h.grows.trans h'.grows,
    ?_, ?_, ?_⟩
  · rw [h'.workspace, h.workspace]
  · intro t; rw [h'.heads, h.heads]
  · intro k t hk; exact h'.token k t (h.token k t hk)
  · intro c p hc; exact h'.predicate c p (h.predicate c p hc)
  · intro c a hc; exact h'.atom c a (h.atom c a hc)

/-- A fact that could be read can still be read. -/
theorem fact (h : Extends base m m') {s p o : ℕ} {f : Fact}
    (hf : m.factFromCells s p o = some f) : m'.factFromCells s p o = some f := by
  simp only [factFromCells, bind, Option.bind_eq_some_iff, pure, Option.some.injEq] at hf ⊢
  obtain ⟨subject, hs, predicate, hp, object, ho, rfl⟩ := hf
  exact ⟨subject, h.atom _ _ hs, predicate, h.predicate _ _ hp, object, h.atom _ _ ho, rfl⟩

end Extends

theorem getElem?_ensure (heads : List (Option ℕ)) (n t : ℕ) :
    (heads ++ List.replicate n none)[t]?.join = heads[t]?.join := by
  rcases lt_or_ge t heads.length with h | h
  · rw [List.getElem?_append_left h]
  · rw [List.getElem?_append_right h, List.getElem?_eq_none h, List.getElem?_replicate]
    split <;> rfl

theorem ensureSlotCount_eq (w : Workspace) (n : ℕ) :
    w.ensureSlotCount n = { w with acceptedHeads := (w.ensureSlotCount n).acceptedHeads } ∧
      (∀ t : ℕ, (w.ensureSlotCount n).acceptedHeads[t]?.join = w.acceptedHeads[t]?.join) ∧
      (w.ensureSlotCount n).acceptedHeads.length = max w.acceptedHeads.length n := by
  unfold Workspace.ensureSlotCount
  split
  · refine ⟨rfl, fun t => getElem?_ensure _ _ t, ?_⟩
    simp only [List.length_append, List.length_replicate]
    omega
  · exact ⟨rfl, fun _ => rfl, by omega⟩

/-- **A slot gets its token.** -/
theorem slotToken_spec (h : Dictionaries base names m) (slot : SlotId)
    (hroom : slot ∉ names → base.slots.find slot = none →
      base.slots.count + names.length < 2 ^ 32) :
    ∃ names', Dictionaries base names' (m.slotToken slot).2 ∧
      Extends base m (m.slotToken slot).2 ∧
      token base (m.slotToken slot).2 slot = some (m.slotToken slot).1 ∧
      (names' = names ∨ names' = names ++ [slot]) ∧
      (base.slots.count + names.length ≤ m.workspace.acceptedHeads.length →
        base.slots.count + names'.length ≤ (m.slotToken slot).2.workspace.acceptedHeads.length) ∧
      (m.slotToken slot).2.literalValues = m.literalValues := by
  unfold slotToken
  rw [h.slotFind]
  cases hl : m.slots.lookup slot with
  | some t =>
    exact ⟨names, h, .refl _ _, by simp [token, Vocabulary.token, hl], .inl rfl, id, rfl⟩
  | none =>
    cases hf : base.slots.find slot with
    | some t =>
      exact ⟨names, h, .refl _ _, by simp [token, Vocabulary.token, hl, hf], .inl rfl, id, rfl⟩
    | none =>
      have hmod : (m.baseSlotCount + m.slots.size) % 2 ^ 32 = base.slots.count + names.length := by
        rw [h.slotCount, h.slots_size]
        exact Nat.mod_eq_of_lt (hroom (h.slots.not_mem_of_none hl) hf)
      rw [hmod]
      have hsize := Dict.size_insert_new hl (base.slots.count + names.length)
      obtain ⟨he1, he2, he3⟩ := ensureSlotCount_eq m.workspace
        (m.baseSlotCount + Dict.size (m.slots.insert slot (base.slots.count + names.length)))
      have hlook : (m.slots.insert slot (base.slots.count + names.length)).lookup =
          fun k => if k = slot then some (0 + base.slots.count + names.length)
            else m.slots.lookup k := by
        funext k
        by_cases hk : k = slot
        · subst hk; simp
        · simp [hk]
      have hfree : Vocabulary.token 0 base.slots m.slots.lookup slot = none := by
        simp [Vocabulary.token, hl, hf]
      refine ⟨names ++ [slot], ⟨h.below, ?_, ?_, h.predicates, h.predicates_size, h.literals⟩,
        ⟨rfl, rfl, he1, he2, ?_, ?_, fun _ _ hc => hc, fun _ _ hc => hc⟩, ?_, .inr rfl, ?_, rfl⟩
      · simp only
        rw [hlook]
        exact h.slots.insert hl hf
      · simp only
        rw [hsize, h.slots_size, List.length_append, List.length_singleton]
      · simp only
        rw [he3]
        exact le_max_left _ _
      · intro k t hk
        unfold token at hk ⊢
        simp only
        rw [hlook]
        exact token_insert hk hfree
      · unfold token
        simp only
        rw [hlook]
        simp [Vocabulary.token]
      · intro hheads
        simp only
        rw [he3, h.slotCount, hsize, h.slots_size, List.length_append, List.length_singleton]
        exact le_max_of_le_right (by omega)

/-- **A predicate gets its cell.** -/
theorem predicateCell_spec (h : Dictionaries base names m) (p : Predicate) :
    Dictionaries base names (m.predicateCell p).2 ∧ Extends base m (m.predicateCell p).2 ∧
      (m.predicateCell p).2.predicateFromCell (m.predicateCell p).1 = some p ∧
      (m.predicateCell p).2.workspace = m.workspace ∧
      (m.predicateCell p).2.literalValues = m.literalValues := by
  have hread : ∀ c, Vocabulary.token 0 base.predicates m.predicates.lookup p = some c →
      m.predicateFromCell c = some p := by
    intro c hc
    rw [h.predicateFromCell_eq]
    simpa using ((token_iff h.predicates p c).1 hc).2
  unfold predicateCell
  rw [h.predicateFind]
  cases hl : m.predicates.lookup p with
  | some c => exact ⟨h, .refl _ _, hread c (by simp [Vocabulary.token, hl]), rfl, rfl⟩
  | none =>
    cases hf : base.predicates.find p with
    | some c => exact ⟨h, .refl _ _, hread c (by simp [Vocabulary.token, hl, hf]), rfl, rfl⟩
    | none =>
      simp only
      have hcell : m.basePredicateCount + m.predicates.size =
          base.predicates.count + m.predicateValues.length := by
        rw [h.predicateCount, h.predicates_size]
      rw [hcell]
      have hsize := Dict.size_insert_new hl (base.predicates.count + m.predicateValues.length)
      have hlook : (m.predicates.insert p
          (base.predicates.count + m.predicateValues.length)).lookup =
          fun k => if k = p then some (0 + base.predicates.count + m.predicateValues.length)
            else m.predicates.lookup k := by
        funext k
        by_cases hk : k = p
        · subst hk; simp
        · simp [hk]
      set m' : VmEpochMaterializer := { m with
        predicates := m.predicates.insert p (base.predicates.count + m.predicateValues.length)
        predicateValues := m.predicateValues ++ [p] } with hm'
      have h' : Dictionaries base names m' := by
        refine ⟨h.below, h.slots, h.slots_size, ?_, ?_, h.literals⟩
        · rw [show m'.predicates.lookup = _ from hlook]
          exact h.predicates.insert hl hf
        · rw [show m'.predicates.size = _ from hsize, h.predicates_size, hm']
          simp
      refine ⟨h', ⟨rfl, rfl, rfl, fun _ => rfl, le_rfl, fun _ _ hk => hk, ?_, fun _ _ hc => hc⟩,
        ?_, trivial, trivial⟩
      · intro c q hc
        rw [h.predicateFromCell_eq] at hc
        rw [h'.predicateFromCell_eq]
        exact name_append hc [p]
      · rw [h'.predicateFromCell_eq]
        unfold name
        rw [if_neg (by omega), Nat.add_sub_cancel_left, hm']
        simp

/-- **An atom gets its cell**, if it gets one. -/
theorem atomCell_spec (h : Dictionaries base names m) (a : Atom) :
    Dictionaries base names (m.atomCell a).2 ∧ Extends base m (m.atomCell a).2 ∧
      (∀ c, (m.atomCell a).1 = .ok c → (m.atomCell a).2.atomFromCell c = some a) ∧
      (m.atomCell a).2.workspace = m.workspace ∧
      (m.atomCell a).2.literalValues.length ≤ m.literalValues.length + 1 := by
  cases a with
  | entity e =>
    by_cases he : e.value < literalBase
    · have hcell : m.atomCell (.entity e) = (.ok e.value, m) := by simp [atomCell, he]
      rw [hcell]
      refine ⟨h, .refl _ _, ?_, rfl, by simp⟩
      rintro c hc
      obtain rfl := Except.ok.inj hc
      rw [h.atomFromCell_eq, if_pos he]
    · have hcell : m.atomCell (.entity e) =
          (.error "entity identifier overlaps the VM literal namespace", m) := by
        simp [atomCell, he]
      rw [hcell]
      exact ⟨h, .refl _ _, fun c hc => (nomatch hc), rfl, by simp⟩
  | literal l =>
    have hread : ∀ c, Vocabulary.token literalBase base.literals m.literals.lookup l = some c →
        m.atomFromCell c = some (.literal l) := by
      intro c hc
      obtain ⟨hle, hn⟩ := (token_iff h.literals l c).1 hc
      rw [h.atomFromCell_eq, if_neg (by omega), hn]
      rfl
    unfold atomCell
    simp only
    rw [h.literalFind]
    cases hl : m.literals.lookup l with
    | some c =>
      refine ⟨h, .refl _ _, fun c' hc => ?_, rfl, by simp⟩
      obtain rfl := Except.ok.inj hc
      exact hread c (by simp [Vocabulary.token, hl])
    | none =>
      cases hf : base.literals.find l with
      | some c =>
        refine ⟨h, .refl _ _, fun c' hc => ?_, rfl, by simp⟩
        obtain rfl := Except.ok.inj hc
        exact hread _ (by simp [Vocabulary.token, hl, hf])
      | none =>
        simp only
        have hcell : literalBase + (m.baseLiteralCount + m.literalValues.length) =
            literalBase + base.literals.count + m.literalValues.length := by
          rw [h.literalCount, Nat.add_assoc]
        rw [hcell]
        by_cases hfree : literalBase + base.literals.count + m.literalValues.length < 2 ^ 64
        swap
        · rw [if_neg hfree]
          exact ⟨h, .refl _ _, fun c hc => (nomatch hc), rfl, by simp⟩
        rw [if_pos hfree]
        have hlook : (m.literals.insert l
            (literalBase + base.literals.count + m.literalValues.length)).lookup =
            fun k => if k = l then some (literalBase + base.literals.count + m.literalValues.length)
              else m.literals.lookup k := by
          funext k
          by_cases hk : k = l
          · subst hk; simp
          · simp [hk]
        set m' : VmEpochMaterializer := { m with
          literals := m.literals.insert l
            (literalBase + base.literals.count + m.literalValues.length)
          literalValues := m.literalValues ++ [l] } with hm'
        have h' : Dictionaries base names m' := by
          refine ⟨h.below, h.slots, h.slots_size, h.predicates, h.predicates_size, ?_⟩
          rw [show m'.literals.lookup = _ from hlook]
          exact h.literals.insert hl hf
        refine ⟨h', ⟨rfl, rfl, rfl, fun _ => rfl, le_rfl, fun _ _ hk => hk, fun _ _ hc => hc, ?_⟩,
          fun c' hc' => ?_, rfl, by simp [hm']⟩
        · intro c x hc
          rw [h.atomFromCell_eq] at hc
          rw [h'.atomFromCell_eq]
          split
          · rename_i hlt; rwa [if_pos hlt] at hc
          · rename_i hge
            rw [if_neg hge, Option.map_eq_some_iff] at hc
            obtain ⟨l', hl', rfl⟩ := hc
            rw [show m'.literalValues = m.literalValues ++ [l] from rfl, name_append hl' [l]]
            rfl
        · obtain rfl := Except.ok.inj hc'
          rw [h'.atomFromCell_eq, if_neg (by omega)]
          unfold name
          rw [if_neg (by omega), show literalBase + base.literals.count + m.literalValues.length -
            literalBase - base.literals.count = m.literalValues.length by omega, hm']
          simp

/-- **An atom in range** gets a cell while there is room for literals. -/
theorem atomCell_ok (h : Dictionaries base names m) {a : Atom} (ha : a.InVmRange)
    (hroom : base.literals.count + m.literalValues.length < 2 ^ 63) :
    ∃ c, (m.atomCell a).1 = .ok c := by
  cases a with
  | entity e =>
    have he : e.value < literalBase := ha
    exact ⟨e.value, by simp [atomCell, he]⟩
  | literal l =>
    unfold atomCell
    simp only
    split
    · exact ⟨_, rfl⟩
    · split
      · exact ⟨_, rfl⟩
      · rw [h.literalCount, if_pos (by unfold literalBase; omega)]
        exact ⟨_, rfl⟩

/-- Room for the names of some operations. -/
structure NameRoom (base : FrozenNames) (names : List SlotId) (m : VmEpochMaterializer)
    (n : ℕ) : Prop where
  slots : base.slots.count + names.length + n ≤ 2 ^ 32
  literals : base.literals.count + m.literalValues.length + 2 * n ≤ 2 ^ 63

theorem NameRoom.next {names' : List SlotId} {k n : ℕ} (h : NameRoom base names m (k + n))
    (hn : names'.length ≤ names.length + k)
    (hl : m'.literalValues.length ≤ m.literalValues.length + 2 * k) : NameRoom base names' m' n := by
  have h1 := h.slots
  have h2 := h.literals
  exact ⟨by omega, by omega⟩

/-- **One operation compiles** to instructions that lower it, if it compiles. -/
theorem compileOperation_spec (h : Dictionaries base names m) (op : Operation) {U : Finset SlotId}
    (hU : ∀ k ∈ names, k ∈ U) (hop : ∀ k ∈ op.slots, k ∈ U)
    (hroom : base.slots.count + U.card ≤ 2 ^ 32) :
    ∃ names', Dictionaries base names' (m.compileOperation op).2 ∧
      Extends base m (m.compileOperation op).2 ∧
      (∀ is, (m.compileOperation op).1 = .ok is →
        Lowers (token base (m.compileOperation op).2) (m.compileOperation op).2.factFromCells
          [op] is) ∧
      (∀ k ∈ names', k ∈ U) ∧ names'.length ≤ names.length + op.records ∧
      (base.slots.count + names.length ≤ m.workspace.acceptedHeads.length →
        base.slots.count + names'.length ≤
          (m.compileOperation op).2.workspace.acceptedHeads.length) ∧
      (m.compileOperation op).2.literalValues.length ≤
        m.literalValues.length + 2 * op.records := by
  -- a slot that the operation names gets its token, and stays within `U`
  have hslot : ∀ slot ∈ op.slots, op.records = 1 → ∃ names',
      Dictionaries base names' (m.slotToken slot).2 ∧ Extends base m (m.slotToken slot).2 ∧
      token base (m.slotToken slot).2 slot = some (m.slotToken slot).1 ∧
      (∀ k ∈ names', k ∈ U) ∧ names'.length ≤ names.length + op.records ∧
      (base.slots.count + names.length ≤ m.workspace.acceptedHeads.length →
        base.slots.count + names'.length ≤ (m.slotToken slot).2.workspace.acceptedHeads.length) ∧
      (m.slotToken slot).2.literalValues = m.literalValues := by
    intro slot hs hr
    obtain ⟨names', h₁, e₁, ht, hn, hh, hv⟩ := slotToken_spec h slot fun hnew _ => by
      have := h.slots.length_lt_card hU (hop slot hs) hnew
      omega
    refine ⟨names', h₁, e₁, ht, ?_, ?_, hh, hv⟩
    · rcases hn with rfl | rfl
      · exact hU
      · intro k hk
        rcases List.mem_append.1 hk with hk | hk
        · exact hU k hk
        · rw [List.mem_singleton.1 hk]
          exact hop slot hs
    · rcases hn with rfl | rfl
      · omega
      · simp [hr]
  cases op with
  | allocateEntity e =>
    refine ⟨names, ?_⟩
    by_cases he : e.value ≥ literalBase
    · simp only [compileOperation, if_pos he]
      exact ⟨h, .refl _ _, fun is hc => (by cases hc), hU, by simp, id, by simp⟩
    · simp only [compileOperation, if_neg he]
      refine ⟨h, .refl _ _, fun is hc => ?_, hU, by simp, id, by simp⟩
      obtain rfl := Except.ok.inj hc
      exact .allocate e .nil
  | define slot fact =>
    simp only [compileOperation]
    obtain ⟨names', h₁, e₁, ht, hU₁, hn, hh, hv₁⟩ :=
      hslot slot (by simp [Operation.slots]) rfl
    generalize m.slotToken slot = r₁ at h₁ e₁ ht hh hv₁ ⊢
    obtain ⟨t, m₁⟩ := r₁
    simp only at h₁ e₁ ht hh hv₁ ⊢
    obtain ⟨h₂, e₂, hread₂, hw₂, hv₂⟩ := atomCell_spec h₁ fact.subject
    generalize m₁.atomCell fact.subject = r₂ at h₂ e₂ hread₂ hw₂ hv₂ ⊢
    obtain ⟨c₂, m₂⟩ := r₂
    simp only at h₂ e₂ hread₂ hw₂ hv₂ ⊢
    rw [hv₁] at hv₂
    refine ⟨names', ?_⟩
    cases c₂ with
    | error e =>
      refine ⟨h₂, e₁.trans e₂, fun is hc => (by cases hc), hU₁, hn, fun hle => ?_, ?_⟩
      · rw [hw₂]; exact hh hle
      · simp only [Operation.records]; omega
    | ok s =>
      simp only
      obtain ⟨h₃, e₃, hread₃, hw₃, hv₃⟩ := predicateCell_spec h₂ fact.predicate
      generalize m₂.predicateCell fact.predicate = r₃ at h₃ e₃ hread₃ hw₃ hv₃ ⊢
      obtain ⟨p, m₃⟩ := r₃
      simp only at h₃ e₃ hread₃ hw₃ hv₃ ⊢
      obtain ⟨h₄, e₄, hread₄, hw₄, hv₄⟩ := atomCell_spec h₃ fact.object
      generalize m₃.atomCell fact.object = r₄ at h₄ e₄ hread₄ hw₄ hv₄ ⊢
      obtain ⟨c₄, m₄⟩ := r₄
      simp only at h₄ e₄ hread₄ hw₄ hv₄ ⊢
      rw [hv₃] at hv₄
      have hheads : base.slots.count + names.length ≤ m.workspace.acceptedHeads.length →
          base.slots.count + names'.length ≤ m₄.workspace.acceptedHeads.length := by
        intro hle
        rw [hw₄, hw₃, hw₂]
        exact hh hle
      cases c₄ with
      | error e =>
        refine ⟨h₄, e₁.trans (e₂.trans (e₃.trans e₄)), fun is hc => (by cases hc), hU₁, hn, hheads,
          ?_⟩
        simp only [Operation.records]; omega
      | ok o =>
        refine ⟨h₄, e₁.trans (e₂.trans (e₃.trans e₄)), fun is hc => ?_, hU₁, hn, hheads, ?_⟩
        · obtain rfl := Except.ok.inj hc
          -- the cells read back as the fact
          have hfact : m₄.factFromCells s p o = some fact := by
            simp only [factFromCells, e₄.atom _ _ (e₃.atom _ _ (hread₂ s rfl)),
              e₄.predicate _ _ hread₃, hread₄ o rfl, bind, Option.bind_some, pure]
          exact .define (e₄.token _ _ (e₃.token _ _ (e₂.token _ _ ht))) hfact .nil
        · simp only [Operation.records]; omega
  | forget slot =>
    simp only [compileOperation]
    obtain ⟨names', h₁, e₁, ht, hU₁, hn, hh, hv₁⟩ :=
      hslot slot (by simp [Operation.slots]) rfl
    refine ⟨names', h₁, e₁, fun is hc => ?_, hU₁, hn, hh, by rw [hv₁]; omega⟩
    obtain rfl := Except.ok.inj hc
    exact .forget ht .nil

/-- **One operation in range compiles.** -/
theorem compileOperation_ok (h : Tables base names m) {op : Operation} (ho : op.InVmRange)
    {n : ℕ} (hroom : NameRoom base names m (op.records + n)) :
    ∃ is names', (m.compileOperation op).1 = .ok is ∧
      Tables base names' (m.compileOperation op).2 ∧ Extends base m (m.compileOperation op).2 ∧
      Lowers (token base (m.compileOperation op).2) (m.compileOperation op).2.factFromCells
        [op] is ∧
      names'.length ≤ names.length + op.records ∧
      (m.compileOperation op).2.literalValues.length ≤
        m.literalValues.length + 2 * op.records := by
  have hs := hroom.slots
  have hl := hroom.literals
  have hcard : (names ++ op.slots).toFinset.card ≤ names.length + op.records := by
    have := List.toFinset_card_le (names ++ op.slots)
    rwa [List.length_append, op.length_slots] at this
  obtain ⟨names', h', e, hlow, -, hn, hh, hv⟩ := compileOperation_spec h.toDictionaries op
    (U := (names ++ op.slots).toFinset) (fun k hk => by simp [hk]) (fun k hk => by simp [hk])
    (by omega)
  obtain ⟨is, hc⟩ : ∃ is, (m.compileOperation op).1 = .ok is := by
    cases op with
    | allocateEntity entity =>
      have he : ¬ entity.value ≥ literalBase := not_le.2 ho
      exact ⟨[.allocateDiscard], by simp only [compileOperation, if_neg he]⟩
    | define slot fact =>
      simp only [Operation.records] at hs hl
      obtain ⟨hsub, hobj⟩ := ho
      simp only [compileOperation]
      obtain ⟨names₁, h₁, -, -, -, -, hv₁⟩ := slotToken_spec h.toDictionaries slot fun _ _ => by omega
      generalize m.slotToken slot = r₁ at h₁ hv₁ ⊢
      obtain ⟨t, m₁⟩ := r₁
      simp only at h₁ hv₁ ⊢
      obtain ⟨s, hs'⟩ := atomCell_ok h₁ hsub (by rw [hv₁]; omega)
      obtain ⟨h₂, -, -, -, hv₂⟩ := atomCell_spec h₁ fact.subject
      generalize m₁.atomCell fact.subject = r₂ at hs' h₂ hv₂ ⊢
      obtain ⟨c₂, m₂⟩ := r₂
      simp only at hs' h₂ hv₂ ⊢
      subst hs'
      rw [hv₁] at hv₂
      simp only
      obtain ⟨h₃, -, -, -, hv₃⟩ := predicateCell_spec h₂ fact.predicate
      generalize m₂.predicateCell fact.predicate = r₃ at h₃ hv₃ ⊢
      obtain ⟨p, m₃⟩ := r₃
      simp only at h₃ hv₃ ⊢
      obtain ⟨o, ho'⟩ := atomCell_ok h₃ hobj (by rw [hv₃]; omega)
      generalize m₃.atomCell fact.object = r₄ at ho' ⊢
      obtain ⟨c₄, m₄⟩ := r₄
      simp only at ho' ⊢
      subst ho'
      exact ⟨_, rfl⟩
    | forget slot => exact ⟨_, rfl⟩
  exact ⟨is, names', hc, ⟨h', hh h.heads⟩, e, hlow is hc, hn, hv⟩

theorem lowers_append {tok : SlotId → Option ℕ} {decode : ℕ → ℕ → ℕ → Option Fact}
    {xs ys : List Operation} {is js : List Instruction} (h : Lowers tok decode xs is)
    (h' : Lowers tok decode ys js) : Lowers tok decode (xs ++ ys) (is ++ js) := by
  induction h with
  | nil => exact h'
  | allocate e _ ih => exact .allocate e ih
  | define hs hf _ ih => exact .define hs hf ih
  | forget hs _ ih => exact .forget hs ih

/-- **Operations compile** to instructions that lower them, if they compile. -/
theorem compileOperations_spec (h : Dictionaries base names m) {ops : List Operation}
    {U : Finset SlotId} (hU : ∀ k ∈ names, k ∈ U) (hops : ∀ op ∈ ops, ∀ k ∈ op.slots, k ∈ U)
    (hroom : base.slots.count + U.card ≤ 2 ^ 32) :
    ∃ names', Dictionaries base names' (m.compileOperations ops).2 ∧
      Extends base m (m.compileOperations ops).2 ∧
      (∀ is, (m.compileOperations ops).1 = .ok is →
        Lowers (token base (m.compileOperations ops).2) (m.compileOperations ops).2.factFromCells
          ops is) ∧
      ∀ k ∈ names', k ∈ U := by
  induction ops generalizing m names with
  | nil =>
    refine ⟨names, h, .refl _ _, fun is hc => ?_, hU⟩
    obtain rfl := Except.ok.inj hc
    exact .nil
  | cons op ops ih =>
    rw [List.forall_mem_cons] at hops
    obtain ⟨names₁, h₁, e₁, l₁, hU₁, -⟩ := compileOperation_spec h op hU hops.1 hroom
    unfold compileOperations
    generalize m.compileOperation op = r₁ at h₁ e₁ l₁ ⊢
    obtain ⟨c₁, m₁⟩ := r₁
    cases c₁ with
    | error e => exact ⟨names₁, h₁, e₁, fun is hc => (nomatch hc), hU₁⟩
    | ok js =>
      obtain ⟨names₂, h₂, e₂, l₂, hU₂⟩ := ih h₁ hU₁ hops.2
      simp only at h₁ e₁ l₁ h₂ e₂ l₂ ⊢
      generalize m₁.compileOperations ops = r₂ at h₂ e₂ l₂ ⊢
      obtain ⟨c₂, m₂⟩ := r₂
      cases c₂ with
      | error e => exact ⟨names₂, h₂, e₁.trans e₂, fun is hc => (nomatch hc), hU₂⟩
      | ok ks =>
        refine ⟨names₂, h₂, e₁.trans e₂, fun is hc => ?_, hU₂⟩
        obtain rfl := Except.ok.inj hc
        exact lowers_append ((l₁ js rfl).mono e₂.token fun s p o f hf => e₂.fact hf) (l₂ ks rfl)

/-- **Operations in range compile** to instructions that lower them. -/
theorem compileOperations_ok {ops : List Operation} (ho : ∀ op ∈ ops, op.InVmRange)
    (h : Tables base names m) {n : ℕ} (hroom : NameRoom base names m (recordsOf ops + n)) :
    ∃ is m' names', m.compileOperations ops = (.ok is, m') ∧ Tables base names' m' ∧
      Extends base m m' ∧ Lowers (token base m') m'.factFromCells ops is ∧
      names'.length ≤ names.length + recordsOf ops ∧
      m'.literalValues.length ≤ m.literalValues.length + 2 * recordsOf ops := by
  induction ops generalizing m names with
  | nil => exact ⟨[], m, names, rfl, h, .refl _ _, .nil, by simp, by simp⟩
  | cons op ops ih =>
    have hsum : recordsOf (op :: ops) + n = op.records + (recordsOf ops + n) := by
      simp [recordsOf, Nat.add_assoc]
    rw [hsum] at hroom
    obtain ⟨is, names₁, hc, h₁, e₁, l₁, hn₁, hv₁⟩ :=
      compileOperation_ok h (ho op (List.mem_cons_self ..)) hroom
    obtain ⟨js, m₂, names₂, hc₂, h₂, e₂, l₂, hn₂, hv₂⟩ :=
      ih (fun x hx => ho x (List.mem_cons_of_mem _ hx)) h₁ (hroom.next hn₁ hv₁)
    refine ⟨is ++ js, m₂, names₂, ?_, h₂, e₁.trans e₂, ?_, ?_, ?_⟩
    · unfold compileOperations
      generalize m.compileOperation op = r at hc hc₂
      obtain ⟨c, m₁⟩ := r
      simp only at hc hc₂
      subst hc
      simp only [hc₂]
    · exact lowers_append (l₁.mono e₂.token fun s p o f hf => e₂.fact hf) l₂
    · simp only [recordsOf, List.map_cons, List.sum_cons] at hn₂ ⊢
      omega
    · simp only [recordsOf, List.map_cons, List.sum_cons] at hv₂ ⊢
      omega

theorem slotToken_records (m : VmEpochMaterializer) (slot : SlotId) :
    (m.slotToken slot).2.workspace.records = m.workspace.records := by
  unfold slotToken
  split
  · rfl
  · split
    · rfl
    · simp only
      rw [(ensureSlotCount_eq m.workspace _).1]

theorem predicateCell_records (m : VmEpochMaterializer) (p : Predicate) :
    (m.predicateCell p).2.workspace.records = m.workspace.records := by
  unfold predicateCell
  split
  · rfl
  · split <;> rfl

theorem atomCell_inRange (m : VmEpochMaterializer) (a : Atom) :
    (∀ c, (m.atomCell a).1 = .ok c → a.InVmRange) ∧
      (m.atomCell a).2.workspace.records = m.workspace.records := by
  cases a with
  | entity e =>
    by_cases he : e.value < literalBase
    · simp [atomCell, he, Atom.InVmRange]
    · simp [atomCell, he]
  | literal l =>
    refine ⟨fun _ _ => trivial, ?_⟩
    unfold atomCell
    simp only
    split
    · rfl
    · split
      · rfl
      · split <;> rfl

/-- What compiles is in range, and is charged for its records. -/
theorem compileOperation_inRange {op : Operation} {is : List Instruction}
    (h : (m.compileOperation op).1 = .ok is) :
    op.InVmRange ∧ is.countP Workspace.appendsRecord = op.records ∧
      (m.compileOperation op).2.workspace.records = m.workspace.records := by
  cases op with
  | allocateEntity e =>
    simp only [compileOperation] at h ⊢
    split at h
    · cases h
    · rename_i he
      cases h
      rw [if_neg he]
      exact ⟨not_le.1 he, rfl, rfl⟩
  | define slot fact =>
    simp only [compileOperation] at h ⊢
    generalize hr₁ : m.slotToken slot = r₁ at h ⊢
    obtain ⟨t, m₁⟩ := r₁
    have hrec₁ : m₁.workspace.records = m.workspace.records := by
      have := slotToken_records m slot
      rwa [hr₁] at this
    simp only at h ⊢
    generalize hr₂ : m₁.atomCell fact.subject = r₂ at h ⊢
    obtain ⟨c₂, m₂⟩ := r₂
    obtain ⟨hin₂, hrec₂⟩ := atomCell_inRange m₁ fact.subject
    rw [hr₂] at hin₂ hrec₂
    cases c₂ with
    | error e => cases h
    | ok s =>
      simp only at h hrec₂ ⊢
      generalize hr₃ : m₂.predicateCell fact.predicate = r₃ at h ⊢
      obtain ⟨p, m₃⟩ := r₃
      have hrec₃ : m₃.workspace.records = m₂.workspace.records := by
        have := predicateCell_records m₂ fact.predicate
        rwa [hr₃] at this
      simp only at h ⊢
      generalize hr₄ : m₃.atomCell fact.object = r₄ at h ⊢
      obtain ⟨c₄, m₄⟩ := r₄
      obtain ⟨hin₄, hrec₄⟩ := atomCell_inRange m₃ fact.object
      rw [hr₄] at hin₄ hrec₄
      cases c₄ with
      | error e => cases h
      | ok o =>
        cases h
        simp only at hrec₄ ⊢
        exact ⟨⟨hin₂ s rfl, hin₄ o rfl⟩, rfl, by rw [hrec₄, hrec₃, hrec₂, hrec₁]⟩
  | forget slot =>
    simp only [compileOperation] at h ⊢
    cases h
    exact ⟨trivial, rfl, slotToken_records m slot⟩

/-- What compiles is in range, and is charged for its records. -/
theorem compileOperations_inRange {ops : List Operation} {is : List Instruction}
    (h : m.compileOperations ops = (.ok is, m')) :
    (∀ op ∈ ops, op.InVmRange) ∧ is.countP Workspace.appendsRecord = recordsOf ops ∧
      m'.workspace.records = m.workspace.records := by
  induction ops generalizing m is with
  | nil => cases h; exact ⟨by simp, rfl, rfl⟩
  | cons op ops ih =>
    unfold compileOperations at h
    cases hc : m.compileOperation op with
    | mk c m₁ =>
      rw [hc] at h
      cases c with
      | error e => cases h
      | ok js =>
        simp only at h
        cases hcs : m₁.compileOperations ops with
        | mk cs m₂ =>
          rw [hcs] at h
          cases cs with
          | error e => cases h
          | ok ks =>
            cases h
            obtain ⟨h1, h2, h3⟩ := compileOperation_inRange (m := m) (by rw [hc])
            rw [hc] at h3
            obtain ⟨h4, h5, h6⟩ := ih hcs
            refine ⟨?_, ?_, h6.trans h3⟩
            · intro x hx
              rcases List.mem_cons.1 hx with rfl | hx
              · exact h1
              · exact h4 x hx
            · rw [List.countP_append, h2, h5]
              simp [recordsOf]

end VmEpochMaterializer

end ForthDB
