import ForthDB.Core.KernelStacks
import ForthDB.Core.SharedKernel

/-!
# What a kernel's log answers

The abstract readers of a kernel, stated over its log and its heads alone: the active
records, the history of a slot, the candidates of a pattern. Both kernels of the crate
answer with them.

* `ForthDb.Sound k`: a record's id is its position, every head is a definition of its
  slot, and a previous head is an older definition of the same slot. `define_sound`,
  `forget_sound`: operations keep it.
* `mem_active_define`, `mem_active_forget`: how the active records change.
* `definitionsFrom_ok`: the chain of previous heads ends. `Holds.definitions_eq`: it lists
  the stack of its slot.
-/

namespace ForthDB

/-- Record `i` of the log defines `slot`. -/
def IsDefinition (log : List Record) (slot : SlotId) (i : ℕ) : Prop :=
  ∃ r f, log[i]? = some r ∧ r.kind = .define ∧ r.slot = slot ∧ r.fact = some f

theorem IsDefinition.lt {log : List Record} {slot : SlotId} {i : ℕ}
    (h : IsDefinition log slot i) : i < log.length := by
  obtain ⟨r, f, hr, -⟩ := h
  exact (List.getElem?_eq_some_iff.1 hr).1

theorem IsDefinition.slot_eq {log : List Record} {slot slot' : SlotId} {i : ℕ}
    (h : IsDefinition log slot i) (h' : IsDefinition log slot' i) : slot = slot' := by
  obtain ⟨r, f, hr, -, rfl, -⟩ := h
  obtain ⟨r', f', hr', -, rfl, -⟩ := h'
  rw [hr] at hr'
  cases hr'
  rfl

theorem IsDefinition.append {log : List Record} {slot : SlotId} {i : ℕ}
    (h : IsDefinition log slot i) (r : Record) : IsDefinition (log ++ [r]) slot i := by
  have hlt := h.lt
  obtain ⟨r', f, hr', rest⟩ := h
  exact ⟨r', f, by rwa [List.getElem?_append_left hlt], rest⟩

namespace ForthDb

variable (k : ForthDb)

/-- The fact of a record, if it defines one. -/
def factOf (i : ℕ) : Option Fact := k.store.log[i]?.bind Record.fact

/-- The records that are the head of a slot. -/
def active : Finset ℕ := (k.store.head.entries.map Sigma.snd).toFinset

def history (slot : SlotId) : List Record := k.store.log.filter fun r => r.slot = slot

/-- The log as the panicking accessor of both kernels. -/
def record (i : ℕ) : Except String Record :=
  match k.store.log[i]? with
  | some record => .ok record
  | none => .error "index out of bounds"

/-- `definitions`. -/
def definitions (slot : SlotId) : Except String (List Fact) :=
  (definitionsFrom k.record k.store.log.length (k.store.head.lookup slot)).map
    fun records => records.filterMap Record.fact

/-- The positions of a pattern that are bound agree with a fact. -/
def Agrees (subject : Option Atom) (predicate : Option Predicate) (object : Option Atom)
    (fact : Fact) : Prop :=
  (∀ s ∈ subject, fact.subject = s) ∧ (∀ p ∈ predicate, fact.predicate = p) ∧
    ∀ o ∈ object, fact.object = o

instance (subject : Option Atom) (predicate : Option Predicate) (object : Option Atom)
    (fact : Fact) : Decidable (Agrees subject predicate object fact) :=
  inferInstanceAs (Decidable (_ ∧ _ ∧ _))

/-- The active records that agree with the bound positions of a pattern, in ascending
order. -/
def candidates (pattern : Pattern) (binding : Binding) : List ℕ :=
  (k.active.filter fun i => ∃ fact ∈ k.factOf i,
    Agrees (resolvedAtom pattern.subject binding) (resolvedPredicate pattern.predicate binding)
      (resolvedAtom pattern.object binding) fact).sort

def source : QuerySource ℕ where
  candidateCount pattern binding := (k.candidates pattern binding).length
  candidates := k.candidates
  visit := visitRecord k.record

def query (patterns : List Pattern) (options : QueryOptions) : Except String QueryResult :=
  k.source.query patterns options

variable {k}

theorem mem_active {i : ℕ} : i ∈ k.active ↔ ∃ slot, k.store.head.lookup slot = some i := by
  unfold active
  rw [List.mem_toFinset, List.mem_map]
  constructor
  · rintro ⟨⟨slot, j⟩, hmem, rfl⟩
    exact ⟨slot, Dict.mem_entries.1 hmem⟩
  · rintro ⟨slot, h⟩
    exact ⟨⟨slot, i⟩, Dict.mem_entries.2 h, rfl⟩

/-- The log as the operations leave it. -/
structure Sound (k : ForthDb) : Prop where
  ids : ∀ (i : ℕ) (r : Record), k.store.log[i]? = some r → r.id = i
  heads : ∀ slot i, k.store.head.lookup slot = some i → IsDefinition k.store.log slot i
  previous : ∀ (i : ℕ) (r : Record), k.store.log[i]? = some r → ∀ p, r.previousHead = some p →
    p < i ∧ IsDefinition k.store.log r.slot p

theorem new_sound : new.Sound where
  ids i r h := by cases h
  heads slot i h := by cases h
  previous i r h := by cases h

/-- **One appended record** keeps the log sound if its previous head was the slot's head
and the new head is a definition of the slot. -/
theorem Sound.append (h : k.Sound) {r : Record} (hid : r.id = k.store.log.length)
    (hprev : r.previousHead = k.store.head.lookup r.slot) {k' : ForthDb}
    (hlog : k'.store.log = k.store.log ++ [r])
    (hself : ∀ i, k'.store.head.lookup r.slot = some i → IsDefinition k'.store.log r.slot i)
    (hother : ∀ slot, slot ≠ r.slot → k'.store.head.lookup slot = k.store.head.lookup slot) :
    k'.Sound := by
  have hget {i : ℕ} {q : Record} (hq : k'.store.log[i]? = some q) :
      (i < k.store.log.length ∧ k.store.log[i]? = some q) ∨ (i = k.store.log.length ∧ q = r) := by
    rw [hlog] at hq
    rcases Nat.lt_trichotomy i k.store.log.length with hlt | rfl | hgt
    · rw [List.getElem?_append_left hlt] at hq
      exact .inl ⟨hlt, hq⟩
    · simp only [List.getElem?_append_right le_rfl, Nat.sub_self, List.getElem?_cons_zero,
        Option.some.injEq] at hq
      exact .inr ⟨rfl, hq.symm⟩
    · rw [List.getElem?_eq_none (by simp; omega)] at hq
      cases hq
  refine ⟨?_, ?_, ?_⟩
  · intro i q hq
    rcases hget hq with ⟨-, hq⟩ | ⟨rfl, rfl⟩
    · exact h.ids i q hq
    · exact hid
  · intro slot i hi
    by_cases hs : slot = r.slot
    · subst hs
      exact hself i hi
    · rw [hother slot hs] at hi
      rw [hlog]
      exact (h.heads slot i hi).append r
  · intro i q hq p hp
    rcases hget hq with ⟨-, hq⟩ | ⟨rfl, rfl⟩
    · obtain ⟨hlt, hdef⟩ := h.previous i q hq p hp
      rw [hlog]
      exact ⟨hlt, hdef.append r⟩
    · rw [hprev] at hp
      have hdef := h.heads _ p hp
      rw [hlog]
      exact ⟨hdef.lt, hdef.append q⟩

theorem define_log (slot : SlotId) (fact : Fact) :
    (k.define slot fact).store.log = k.store.log ++
      [{ id := k.store.log.length, kind := .define, slot := slot, fact := some fact,
         previousHead := k.store.head.lookup slot,
         resultingHead := some k.store.log.length }] := rfl

theorem define_head (slot : SlotId) (fact : Fact) :
    (k.define slot fact).store.head = k.store.head.insert slot k.store.log.length := rfl

/-- The head that a forget reveals. -/
def revealed (k : ForthDb) (slot : SlotId) : Option ℕ :=
  (k.store.head.lookup slot).bind fun i => k.store.log[i]?.bind Record.previousHead

theorem forget_log (slot : SlotId) :
    (k.forget slot).store.log = k.store.log ++
      [{ id := k.store.log.length, kind := .forget, slot := slot, fact := none,
         previousHead := k.store.head.lookup slot, resultingHead := k.revealed slot }] := by
  show ((DefinitionStore.replaceHead _ slot _).log) = _
  rw [DefinitionStore.replaceHead_log]
  rfl

theorem forget_head (slot slot' : SlotId) :
    (k.forget slot).store.head.lookup slot' =
      if slot' = slot then k.revealed slot else k.store.head.lookup slot' :=
  DefinitionStore.replaceHead_head _ _ _ _

/-- A revealed head is an older definition of its slot. -/
theorem Sound.revealed_spec (h : k.Sound) {slot : SlotId} {i : ℕ} (hi : k.revealed slot = some i) :
    ∃ current, k.store.head.lookup slot = some current ∧ i < current ∧
      IsDefinition k.store.log slot i := by
  obtain ⟨current, hcurrent, hbind⟩ := Option.bind_eq_some_iff.1 hi
  obtain ⟨r, hr, hprev⟩ := Option.bind_eq_some_iff.1 hbind
  obtain ⟨hlt, hdef⟩ := h.previous current r hr i hprev
  obtain ⟨r', f, hr', -, hslot, -⟩ := h.heads slot current hcurrent
  rw [hr] at hr'
  cases hr'
  rw [hslot] at hdef
  exact ⟨current, hcurrent, hlt, hdef⟩

theorem define_sound (h : k.Sound) (slot : SlotId) (fact : Fact) : (k.define slot fact).Sound := by
  refine h.append ?_ ?_ (define_log slot fact) ?_ ?_
  · rfl
  · rfl
  · intro i hi
    rw [define_head] at hi
    simp only [AList.lookup_insert, Option.some.injEq] at hi
    subst hi
    refine ⟨_, fact, ?_, rfl, rfl, rfl⟩
    rw [define_log]
    simp
  · intro slot' hne
    rw [define_head, AList.lookup_insert_ne hne]

theorem forget_sound (h : k.Sound) (slot : SlotId) : (k.forget slot).Sound := by
  refine h.append ?_ ?_ (forget_log slot) ?_ ?_
  · rfl
  · rfl
  · intro i hi
    rw [forget_head, if_pos rfl] at hi
    obtain ⟨current, -, -, hdef⟩ := h.revealed_spec hi
    rw [forget_log]
    exact hdef.append _
  · intro slot' hne
    rw [forget_head, if_neg hne]

theorem entity_sound (h : k.Sound) : k.entity.2.Sound := ⟨h.ids, h.heads, h.previous⟩

/-! ## The active records -/

/-- The active records without the head of a slot. -/
def activeWithout (k : ForthDb) (slot : SlotId) : Finset ℕ :=
  match k.store.head.lookup slot with
  | some old => k.active.erase old
  | none => k.active

theorem Sound.mem_activeWithout (h : k.Sound) {slot : SlotId} {i : ℕ} :
    i ∈ k.activeWithout slot ↔ ∃ slot', slot' ≠ slot ∧ k.store.head.lookup slot' = some i := by
  have hinj {slot' : SlotId} {j : ℕ} (h1 : k.store.head.lookup slot = some j)
      (h2 : k.store.head.lookup slot' = some j) : slot' = slot :=
    (h.heads _ _ h2).slot_eq (h.heads _ _ h1)
  unfold activeWithout
  cases hold : k.store.head.lookup slot with
  | none =>
    simp only [mem_active]
    constructor
    · rintro ⟨slot', hs⟩
      refine ⟨slot', ?_, hs⟩
      rintro rfl
      rw [hold] at hs
      cases hs
    · rintro ⟨slot', -, hs⟩
      exact ⟨slot', hs⟩
  | some old =>
    simp only [Finset.mem_erase, mem_active]
    constructor
    · rintro ⟨hne, slot', hs⟩
      refine ⟨slot', ?_, hs⟩
      rintro rfl
      rw [hold] at hs
      cases hs
      exact hne rfl
    · rintro ⟨slot', hne, hs⟩
      refine ⟨?_, slot', hs⟩
      rintro rfl
      exact hne (hinj hold hs)

theorem active_define (h : k.Sound) (slot : SlotId) (fact : Fact) :
    (k.define slot fact).active = insert k.store.log.length (k.activeWithout slot) := by
  ext i
  rw [mem_active, Finset.mem_insert, h.mem_activeWithout, define_head]
  constructor
  · rintro ⟨slot', hs⟩
    by_cases hne : slot' = slot
    · subst hne
      simp only [AList.lookup_insert, Option.some.injEq] at hs
      exact .inl hs.symm
    · rw [AList.lookup_insert_ne hne] at hs
      exact .inr ⟨slot', hne, hs⟩
  · rintro (rfl | ⟨slot', hne, hs⟩)
    · exact ⟨slot, by simp⟩
    · exact ⟨slot', by rwa [AList.lookup_insert_ne hne]⟩

theorem active_forget (h : k.Sound) (slot : SlotId) :
    (k.forget slot).active =
      match k.revealed slot with
      | some revealed => insert revealed (k.activeWithout slot)
      | none => k.activeWithout slot := by
  ext i
  rw [mem_active]
  constructor
  · rintro ⟨slot', hs⟩
    rw [forget_head] at hs
    split at hs
    · rw [hs]
      exact Finset.mem_insert_self _ _
    · rename_i hne
      have hi := h.mem_activeWithout.2 ⟨slot', hne, hs⟩
      cases k.revealed slot with
      | none => exact hi
      | some revealed => exact Finset.mem_insert_of_mem hi
  · intro hi
    have hrest (hi : i ∈ k.activeWithout slot) :
        ∃ slot', (k.forget slot).store.head.lookup slot' = some i := by
      obtain ⟨slot', hne, hs⟩ := h.mem_activeWithout.1 hi
      exact ⟨slot', by rwa [forget_head, if_neg hne]⟩
    cases hrev : k.revealed slot with
    | none =>
      rw [hrev] at hi
      exact hrest hi
    | some revealed =>
      rw [hrev] at hi
      rcases Finset.mem_insert.1 hi with rfl | hi
      · exact ⟨slot, by rw [forget_head, if_pos rfl, hrev]⟩
      · exact hrest hi

/-! ## Readers that do not panic -/

theorem Sound.active_definition (h : k.Sound) {i : ℕ} (hi : i ∈ k.active) :
    ∃ slot, IsDefinition k.store.log slot i := by
  obtain ⟨slot, hs⟩ := mem_active.1 hi
  exact ⟨slot, h.heads slot i hs⟩

theorem Sound.factOf_active (h : k.Sound) {i : ℕ} (hi : i ∈ k.active) :
    ∃ fact, k.factOf i = some fact := by
  obtain ⟨slot, r, f, hr, -, -, hf⟩ := h.active_definition hi
  exact ⟨f, by simp [factOf, hr, hf]⟩

/-- The chain of previous heads ends at the latest with the log's first record. -/
theorem Sound.definitionsFrom_ok (h : k.Sound) (fuel : ℕ) (head : Option ℕ)
    (hhead : ∀ i, head = some i → i < fuel ∧ i < k.store.log.length) :
    ∃ records, definitionsFrom k.record fuel head = .ok records := by
  induction fuel generalizing head with
  | zero =>
    cases head with
    | none => exact ⟨[], by unfold definitionsFrom; rfl⟩
    | some i => exact absurd (hhead i rfl).1 (Nat.not_lt_zero i)
  | succ fuel ih =>
    cases head with
    | none => exact ⟨[], by unfold definitionsFrom; rfl⟩
    | some i =>
      obtain ⟨hfuel, hlt⟩ := hhead i rfl
      have hr : k.store.log[i]? = some k.store.log[i] := List.getElem?_eq_getElem hlt
      obtain ⟨records, hrecords⟩ := ih k.store.log[i].previousHead fun p hp => by
        obtain ⟨hp1, hp2⟩ := h.previous i _ hr p hp
        exact ⟨by omega, hp2.lt⟩
      refine ⟨k.store.log[i] :: records, ?_⟩
      have hrecord : k.record i = .ok k.store.log[i] := by
        unfold record
        rw [hr]
      unfold definitionsFrom
      rw [hrecord]
      simp only [bind, Except.bind, hrecords]
      rfl

/-- The loop of `definitions` collects the facts that a chain links. -/
theorem definitionsFrom_chain {head : Option ℕ} {fs : List Fact}
    (h : Chain (factNode k.store.log) head fs) {fuel : ℕ} (hfuel : fs.length ≤ fuel) :
    (definitionsFrom k.record fuel head).map (fun records => records.filterMap Record.fact) =
      .ok fs := by
  induction h generalizing fuel with
  | nil => unfold definitionsFrom; rfl
  | @cons i f prev fs hnode _ ih =>
    rw [List.length_cons] at hfuel
    obtain ⟨fuel, rfl⟩ := Nat.exists_eq_succ_of_ne_zero (show fuel ≠ 0 by omega)
    obtain ⟨r, hr, hfact⟩ := Option.bind_eq_some_iff.1 hnode
    obtain ⟨g, hg, hpair⟩ := Option.map_eq_some_iff.1 hfact
    cases hpair
    have hrecord : k.record i = .ok r := by
      unfold record
      rw [hr]
    have ih := ih (show fs.length ≤ fuel by omega)
    unfold definitionsFrom
    rw [hrecord]
    simp only [bind, Except.bind]
    cases hrest : definitionsFrom k.record fuel r.previousHead with
    | error e => rw [hrest] at ih; cases ih
    | ok records =>
      rw [hrest] at ih
      have hrecords : records.filterMap Record.fact = fs := Except.ok.inj ih
      show Except.ok ((r :: records).filterMap Record.fact) = _
      rw [List.filterMap_cons_some hg, hrecords]

/-- **The definitions of a slot** are its stack. -/
theorem Holds.definitions_eq {m : SlotStacks} (h : k.Holds m) (slot : SlotId) :
    k.definitions slot = .ok (m.stack slot) := by
  refine definitionsFrom_chain (h.linked slot) ((h.linked slot).length_le fun i x hx => ?_)
  obtain ⟨r, hr, -⟩ := Option.bind_eq_some_iff.1 hx
  exact (List.getElem?_eq_some_iff.1 hr).1

theorem Sound.fetchRecords_eq (h : k.Sound) {records : List Record}
    (hmem : ∀ r ∈ records, r ∈ k.store.log) :
    fetchRecords k.record (records.map Record.id) = .ok records := by
  induction records with
  | nil => rfl
  | cons r records ih =>
    obtain ⟨i, hi⟩ := List.mem_iff_getElem?.1 (hmem r List.mem_cons_self)
    have hrecord : k.record r.id = .ok r := by
      unfold record
      rw [h.ids i r hi, hi]
    rw [List.map_cons]
    unfold fetchRecords
    rw [hrecord, ih fun q hq => hmem q (List.mem_cons_of_mem _ hq)]
    rfl

theorem Sound.visits (h : k.Sound) : k.source.Visits := by
  intro pattern binding i hi
  have hactive : i ∈ k.active := (Finset.mem_filter.1 ((Finset.mem_sort _).1 hi)).1
  obtain ⟨slot, r, f, hr, -, -, hf⟩ := h.active_definition hactive
  refine ⟨(unifyPattern pattern f binding).map fun binding => (binding, r.slot), ?_⟩
  show visitRecord k.record pattern binding i = _
  unfold visitRecord record
  rw [hr]
  simp only [bind, Except.bind, hf]
  rfl

end ForthDb

end ForthDB
