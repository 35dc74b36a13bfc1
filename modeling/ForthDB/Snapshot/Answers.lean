import ForthDB.Core.QueryOrder
import ForthDB.Snapshot.Candidates

/-!
# The answers of an opened image

The sections of an image enumerate the active entries by their cells, the projection of the
frames by their record ids. Entries with one fact stand in one order in both.

* `Apart m`: an entry is known by its record id.
* `Captures.active_eq`: the active records are the active entries, in their order.
* `Captures.candidates_ordered`: candidates with one fact come in the order of their ids.
* `Captures.agrees`: image and projection find the same entries, fact by fact.
* `mapped_query_rows`: **a query of an opened image answers like the projection of the frames**,
  unless its limit cuts the answer; what a limit keeps is part of the answer.
-/

namespace ForthDB

open Bytes

/-! ## Limits -/

theorem QuerySource.solutions_limit {ι : Type} (source : QuerySource ι) (options : QueryOptions)
    (count : ℕ) (frame : QueryFrame) (remaining : List Pattern) :
    source.solutions { options with limit := none } count frame remaining =
      source.solutions options count frame remaining := by
  induction count generalizing frame remaining with
  | zero => rfl
  | succ count ih =>
    have hindex : source.chosenIndex { options with limit := none } remaining frame.binding =
        source.chosenIndex options remaining frame.binding := rfl
    unfold QuerySource.solutions
    rw [hindex]
    cases remaining[source.chosenIndex options remaining frame.binding]? with
    | none => rfl
    | some chosen =>
      simp only
      congr 1
      funext i
      cases source.found chosen frame.binding i with
      | none => rfl
      | some found => exact ih _ _

theorem keptFrames_prefix (limit : Option ℕ) (frames : List QueryFrame) :
    keptFrames limit frames <+: frames := by
  cases limit with
  | none => exact List.prefix_rfl
  | some n => exact List.take_prefix _ _

/-- **A limit keeps rows of the whole answer.** -/
theorem mem_finishRows_kept {options : QueryOptions} {frames : List QueryFrame} {row : QueryRow}
    (h : row ∈ finishRows options (keptFrames options.limit frames)) :
    row ∈ finishRows options frames := by
  have hkept := keptFrames_prefix options.limit frames
  unfold finishRows sortFrames at h ⊢
  rw [List.mem_map] at h ⊢
  obtain ⟨frame, hframe, hrow⟩ := h
  refine ⟨frame, ?_, hrow⟩
  rw [List.mem_insertionSort] at hframe ⊢
  cases hd : options.distinct with
  | false =>
    rw [hd] at hframe
    exact hkept.subset hframe
  | true =>
    rw [hd] at hframe
    simp only [if_true] at hframe ⊢
    rw [mem_retainDistinct] at hframe ⊢
    obtain ⟨hseen, hhead⟩ := hframe
    refine ⟨hseen, ?_⟩
    -- the first frame of a binding stays the first one
    obtain ⟨more, hmore⟩ := hkept.filter fun x => decide (x.binding = frame.binding)
    change (framesOf (keptFrames options.limit frames) frame.binding ++ more) =
      framesOf frames frame.binding at hmore
    rw [← hmore, List.head?_append, hhead]
    rfl

theorem length_finishRows_whole {options : QueryOptions} (hd : options.distinct = false)
    (frames : List QueryFrame) : (finishRows options frames).length = frames.length := by
  unfold finishRows sortFrames
  rw [hd, List.length_map, List.length_insertionSort]
  rfl

/-- A limit keeps as many of as many frames. -/
theorem length_keptFrames {limit : Option ℕ} {frames frames' : List QueryFrame}
    (h : frames.length = frames'.length) :
    (keptFrames limit frames).length = (keptFrames limit frames').length := by
  unfold keptFrames
  cases limit with
  | none => exact h
  | some limit => rw [List.length_take, List.length_take, h]

/-! ## Entries by their ids -/

/-- An entry as a query reads it. -/
def ProjectedFact.read (e : ProjectedFact) : SlotId × Fact := (e.slot, e.fact)

namespace VmQueryProjection

/-- An entry is known by its record id, which is below `n`. -/
structure Apart (m : EntryStacks) (n : ℕ) : Prop where
  filed : Filed m n
  nodup : ∀ slot, (m.stack slot).Nodup
  ids : ∀ slot slot', ∀ e ∈ m.stack slot, ∀ e' ∈ m.stack slot', e.recordId = e'.recordId → e = e'

theorem Apart.mono {m : EntryStacks} {n n' : ℕ} (h : Apart m n) (hn : n ≤ n') : Apart m n' :=
  ⟨h.filed.mono hn, h.nodup, h.ids⟩

theorem Apart.pop {m : EntryStacks} {n : ℕ} (h : Apart m n) (slot : SlotId) :
    Apart (m.pop slot) n := by
  have hmem : ∀ slot', ∀ e ∈ (m.pop slot).stack slot', e ∈ m.stack slot' := by
    intro slot' e he
    by_cases hs : slot' = slot
    · subst hs
      rw [StackMap.stack_pop_self] at he
      exact List.mem_of_mem_tail he
    · rwa [StackMap.stack_pop_ne _ hs] at he
  refine ⟨h.filed.pop slot, ?_, ?_⟩
  · intro slot'
    by_cases hs : slot' = slot
    · subst hs
      rw [StackMap.stack_pop_self]
      exact (h.nodup slot').tail
    · rw [StackMap.stack_pop_ne _ hs]
      exact h.nodup slot'
  intro slot₁ slot₂ e he e' he'
  exact h.ids slot₁ slot₂ e (hmem slot₁ e he) e' (hmem slot₂ e' he')

theorem Apart.push {m : EntryStacks} {n : ℕ} (h : Apart m n) (slot : SlotId) (fact : Fact) :
    Apart (m.push slot ⟨n, slot, fact⟩) (n + 1) := by
  have hmem : ∀ slot', ∀ e ∈ (m.push slot ⟨n, slot, fact⟩).stack slot',
      e = ⟨n, slot, fact⟩ ∨ e ∈ m.stack slot' := by
    intro slot' e he
    by_cases hs : slot' = slot
    · subst hs
      rw [StackMap.stack_push_self] at he
      exact List.mem_cons.1 he
    · rw [StackMap.stack_push_ne _ _ hs] at he
      exact .inr he
  refine ⟨h.filed.push slot fact, ?_, ?_⟩
  · intro slot'
    by_cases hs : slot' = slot
    · subst hs
      rw [StackMap.stack_push_self]
      refine List.nodup_cons.2 ⟨?_, h.nodup slot'⟩
      intro hold
      exact lt_irrefl _ (h.filed slot' _ hold).2
    · rw [StackMap.stack_push_ne _ _ hs]
      exact h.nodup slot'
  intro slot₁ slot₂ e he e' he' hid
  rcases hmem slot₁ e he with rfl | hold <;> rcases hmem slot₂ e' he' with rfl | hold'
  · rfl
  · have hlt := (h.filed slot₂ e' hold').2
    simp only at hid
    omega
  · have hlt := (h.filed slot₁ e hold).2
    simp only at hid
    omega
  · exact h.ids slot₁ slot₂ e hold e' hold' hid

theorem projectAll_apart {s : Definitions × ℕ} {m : EntryStacks} (hl : Lists s.1 m)
    (h : Apart m s.2) (ops : List Operation) :
    ∃ m', Lists (ops.foldl project s).1 m' ∧ Apart m' (s.2 + recordsOf ops) := by
  induction ops generalizing s m with
  | nil => exact ⟨m, hl, h⟩
  | cons op ops ih =>
    have hstep : Apart (perform m s.2 op) (project s op).2 ∧
        (project s op).2 = s.2 + op.records := by
      cases op with
      | allocateEntity e => exact ⟨h, rfl⟩
      | define slot fact => exact ⟨h.push slot fact, rfl⟩
      | forget slot =>
        rw [project_forget_count]
        exact ⟨(h.pop slot).mono (Nat.le_succ _), rfl⟩
    obtain ⟨m', hlists, hapart⟩ := ih (project_lists hl op) hstep.1
    refine ⟨m', hlists, ?_⟩
    rw [hstep.2, Nat.add_assoc] at hapart
    exact hapart

/-- **The entries of a projection** are known by their record ids. -/
theorem fromFrames_apart (fs : List CommitFrame) :
    ∃ m, Lists (fromFrames fs).definitions m ∧ Apart m (recordsOf (operationsOf fs)) := by
  have hempty : Apart .empty 0 :=
    ⟨filed_empty, fun _ => List.nodup_nil, fun _ _ e he => absurd he List.not_mem_nil⟩
  obtain ⟨m, hlists, hapart⟩ := @projectAll_apart (∅, 0) _ lists_empty hempty (operationsOf fs)
  rw [Nat.zero_add] at hapart
  exact ⟨m, hlists, hapart⟩

variable {p : VmQueryProjection} {m : EntryStacks} {n : ℕ}

theorem active_sorted (p : VmQueryProjection) :
    p.active.Pairwise fun x y => x.recordId ≤ y.recordId := by
  unfold active
  exact List.pairwise_insertionSort (fun x y : ProjectedFact => x.recordId ≤ y.recordId) _

theorem Apart.active_eq (h : Apart m n) (hl : Lists p.definitions m) {e e' : ProjectedFact}
    (he : e ∈ p.active) (he' : e' ∈ p.active) (hid : e.recordId = e'.recordId) : e = e' := by
  obtain ⟨slot, htop⟩ := (mem_active_iff hl).1 he
  obtain ⟨slot', htop'⟩ := (mem_active_iff hl).1 he'
  exact h.ids slot slot' e (List.mem_of_mem_head? htop) e' (List.mem_of_mem_head? htop') hid

/-- The active entries that agree with the bound positions of a pattern. -/
def agreeing (p : VmQueryProjection) (pattern : Pattern) (binding : Binding) :
    List ProjectedFact :=
  p.active.filter fun e => ForthDb.Agrees (resolvedAtom pattern.subject binding)
    (resolvedPredicate pattern.predicate binding) (resolvedAtom pattern.object binding) e.fact

theorem Apart.active_nodup (h : Apart m n) (hl : Lists p.definitions m) : p.active.Nodup := by
  unfold active
  rw [(List.perm_insertionSort _ _).nodup_iff]
  unfold List.Nodup
  rw [List.pairwise_filterMap]
  refine (List.nodupKeys_iff_pairwise.1 p.definitions.nodupKeys).imp_of_mem ?_
  rintro ⟨slot, stack⟩ ⟨slot', stack'⟩ hmem hmem' hslot e he e' he' heq
  have hfiled : ∀ slot stack, (⟨slot, stack⟩ : Sigma fun _ => List ProjectedFact) ∈
      p.definitions.entries → ∀ e, stack.getLast? = some e → e.slot = slot := by
    intro slot stack hmem e he
    have htop : m.top slot = some e := by
      rw [← getLast?_lookup hl, Dict.mem_entries.1 hmem]
      exact he
    exact (h.filed slot e (List.mem_of_mem_head? htop)).1
  have hown := hfiled slot stack hmem e he
  have hown' := hfiled slot' stack' hmem' e' he'
  rw [← hown, ← hown', heq] at hslot
  exact hslot rfl

/-! ## The projection as a source -/

/-- The positions of the candidates are those of the agreeing entries. -/
theorem candidates_positions (p : VmQueryProjection) (pattern : Pattern) (binding : Binding) :
    ∀ i ∈ p.candidates pattern binding, ∃ e, p.active[i]? = some e := by
  intro i hi
  rw [p.candidates_eq, List.mem_map] at hi
  obtain ⟨⟨e, j⟩, he, rfl⟩ := hi
  exact ⟨e, List.mem_zipIdx_iff_getElem?.1 (List.mem_of_mem_filter he)⟩

theorem candidates_agreeing (p : VmQueryProjection) (pattern : Pattern) (binding : Binding) :
    (p.candidates pattern binding).filterMap (fun i => p.active[i]?) =
      p.agreeing pattern binding := by
  rw [p.candidates_eq, List.filterMap_map]
  have hposition : ∀ e ∈ p.active.zipIdx.filter fun e =>
      ForthDb.Agrees (resolvedAtom pattern.subject binding)
        (resolvedPredicate pattern.predicate binding) (resolvedAtom pattern.object binding)
        e.1.fact, ((fun i => p.active[i]?) ∘ Prod.snd) e = some e.1 := by
    rintro ⟨e, i⟩ he
    exact List.mem_zipIdx_iff_getElem?.1 (List.mem_of_mem_filter he)
  rw [List.filterMap_congr hposition, ← Function.comp_def some Prod.fst, List.filterMap_eq_map]
  unfold agreeing
  conv_rhs => rw [← List.zipIdx_map_fst 0 p.active, List.filter_map]
  rfl

theorem source_visits (p : VmQueryProjection) : p.source.Visits := by
  intro pattern binding i hi
  obtain ⟨e, he⟩ := p.candidates_positions pattern binding i hi
  refine ⟨(unifyPattern pattern e.fact binding).map fun binding => (binding, e.slot), ?_⟩
  change p.visit pattern binding i = _
  unfold visit
  rw [he]

end VmQueryProjection

/-- What a list finds, by the entries behind it. -/
theorem map_filterMap_of_mem {α β γ : Type} {l : List α} {f : α → β} {entry : α → Option γ}
    {g : γ → β} (h : ∀ i ∈ l, ∃ e, entry i = some e ∧ f i = g e) :
    l.map f = (l.filterMap entry).map g := by
  induction l with
  | nil => rfl
  | cons i rest ih =>
    obtain ⟨e, he, hf⟩ := h i List.mem_cons_self
    have hrest := ih fun j hj => h j (List.mem_cons_of_mem _ hj)
    rw [List.map_cons, List.filterMap_cons, he, List.map_cons, hf, hrest]

theorem VmQueryProjection.source_reads (p : VmQueryProjection) :
    Reads p.source fun pattern binding =>
      (p.agreeing pattern binding).map ProjectedFact.read := by
  intro pattern binding
  simp only
  rw [← p.candidates_agreeing, List.map_map]
  refine map_filterMap_of_mem ?_
  intro i hi
  obtain ⟨e, he⟩ := p.candidates_positions pattern binding i hi
  refine ⟨e, he, ?_⟩
  unfold QuerySource.found source visit
  simp only [he]
  rfl

/-! ## Positions in place -/

theorem Term.admits_iff {term : Term} {binding : Binding}
    (hplaced : ∀ v x, term = .var v → binding.get v.name = some x → x.asAtom ≠ none) (atom : Atom) :
    term.Admits binding atom ↔ ∀ a ∈ resolvedAtom term binding, atom = a := by
  cases term with
  | atom constant => simp [Term.Admits, resolvedAtom]
  | var v =>
    unfold Term.Admits resolvedAtom
    simp only
    cases hget : binding.get v.name with
    | none => simp
    | some x =>
      have hx := hplaced v x rfl hget
      cases x with
      | entity e => cases atom <;> simp [BoundValue.asAtom, BoundValue.ofAtom, eq_comm]
      | literal l => cases atom <;> simp [BoundValue.asAtom, BoundValue.ofAtom, eq_comm]
      | predicate p => exact absurd rfl hx

theorem PredicateTerm.admits_iff {term : PredicateTerm} {binding : Binding}
    (hplaced : ∀ v x, term = .var v → binding.get v.name = some x → x.asPredicate ≠ none)
    (predicate : Predicate) :
    term.Admits binding predicate ↔ ∀ q ∈ resolvedPredicate term binding, predicate = q := by
  cases term with
  | predicate constant => simp [PredicateTerm.Admits, resolvedPredicate]
  | var v =>
    unfold PredicateTerm.Admits resolvedPredicate
    simp only
    cases hget : binding.get v.name with
    | none => simp
    | some x =>
      have hx := hplaced v x rfl hget
      cases x with
      | entity e => exact absurd rfl hx
      | literal l => exact absurd rfl hx
      | predicate q => simp [BoundValue.asPredicate, eq_comm]

/-- **A pattern whose variables are in place** admits what agrees with its bound positions. -/
theorem Pattern.admits_iff {pattern : Pattern} {binding : Binding}
    (hplaced : ¬ Misplaced pattern binding) (fact : Fact) :
    pattern.Admits binding fact ↔ ForthDb.Agrees (resolvedAtom pattern.subject binding)
      (resolvedPredicate pattern.predicate binding) (resolvedAtom pattern.object binding) fact := by
  have hsubject := @Term.admits_iff pattern.subject binding fun v x hv hx hnone =>
    hplaced (.inl ⟨v, x, hv, hx, hnone⟩)
  have hpredicate := @PredicateTerm.admits_iff pattern.predicate binding fun v x hv hx hnone =>
    hplaced (.inr (.inl ⟨v, x, hv, hx, hnone⟩))
  have hobject := @Term.admits_iff pattern.object binding fun v x hv hx hnone =>
    hplaced (.inr (.inr ⟨v, x, hv, hx, hnone⟩))
  unfold Pattern.Admits ForthDb.Agrees
  rw [hsubject, hpredicate, hobject]

/-! ## The image as a source -/

/-- A fact is spelled by one triple of cells. -/
theorem ImageNames.fact_cells {names : ImageNames} (hpredicates : names.predicates.Nodup)
    (hliterals : names.literals.Nodup) {x y z x' y' z' : ℕ} {f : Fact}
    (h : names.fact x y z = some f) (h' : names.fact x' y' z' = some f) :
    x = x' ∧ y = y' ∧ z = z' := by
  have hatom : ∀ {c c' : ℕ} {a : Atom}, names.atom c = some a → names.atom c' = some a → c = c' := by
    intro c c' a hc hc'
    unfold atom at hc hc'
    split_ifs at hc hc' with hlt hlt'
    · rw [← hc'] at hc
      exact congrArg EntityId.value (Atom.entity.inj (Option.some.inj hc))
    · obtain ⟨text, -, htext⟩ := Option.map_eq_some_iff.1 hc'
      rw [← htext] at hc
      cases hc
    · obtain ⟨text, -, htext⟩ := Option.map_eq_some_iff.1 hc
      rw [← htext] at hc'
      cases hc'
    · obtain ⟨text, hget, htext⟩ := Option.map_eq_some_iff.1 hc
      obtain ⟨text', hget', htext'⟩ := Option.map_eq_some_iff.1 hc'
      rw [← htext'] at htext
      obtain rfl : text = text' := Literal.mk.inj (Atom.literal.inj htext)
      have hsub := (List.getElem?_inj (List.getElem?_eq_some_iff.1 hget).1 hliterals).1
        (hget.trans hget'.symm)
      omega
  obtain ⟨hs, hp, ho⟩ := fact_some h
  obtain ⟨hs', hp', ho'⟩ := fact_some h'
  refine ⟨hatom hs hs', ?_, hatom ho ho'⟩
  exact (List.getElem?_inj (List.getElem?_eq_some_iff.1 hp).1 hpredicates).1 (hp.trans hp'.symm)

namespace MmapVmSnapshot

open VmQueryProjection

variable {s : MmapVmSnapshot} {m : EntryStacks} {p : VmQueryProjection} {n : ℕ}
  {journal : List UInt8}

/-- The entry of a record number. -/
def entryAt (s : MmapVmSnapshot) (i : ℕ) : Option ProjectedFact :=
  s.records[i]?.bind s.tables.entry

theorem Captures.active_entry (h : s.Captures m) {i : ℕ} (hi : i ∈ s.active) :
    ∃ r slot e, s.records[i]? = some r ∧ m.top slot = some e ∧ s.tables.entry r = some e ∧
      s.entryAt i = some e := by
  obtain ⟨t, ht⟩ := h.mem_active.1 hi
  obtain ⟨r, slot, e, hr, -, -, htop, hentry⟩ := h.head_entry ht
  refine ⟨r, ⟨slot⟩, e, hr, htop, hentry, ?_⟩
  unfold entryAt
  rw [hr, Option.bind_some, hentry]

theorem Captures.originalId_eq (h : s.Captures m) {i : ℕ} {e : ProjectedFact}
    (he : s.entryAt i = some e) : originalIdOf s.records i = e.recordId := by
  obtain ⟨r, hr, hentry⟩ := Option.bind_eq_some_iff.1 he
  unfold originalIdOf
  rw [hr, (ImageNames.entry_some hentry).1]
  rfl

/-- **The active records are the active entries**, in their order. -/
theorem Captures.active_eq (h : s.Captures m) (hsound : s.Sound journal)
    (hl : Lists p.definitions m) (hapart : Apart m n) :
    s.active.filterMap s.entryAt = p.active := by
  obtain ⟨hin, hunique⟩ := h.active_entries hapart.filed hsound hl
  have hentry : ∀ {i e}, (s.mapped journal).entry i = .ok e ↔ s.entryAt i = some e := by
    intro i e
    rw [hsound.entry_mapped]
    unfold entryAt
    rw [Option.bind_eq_some_iff]
  have hmem : ∀ e, e ∈ s.active.filterMap s.entryAt ↔ e ∈ p.active := by
    intro e
    rw [List.mem_filterMap]
    constructor
    · rintro ⟨i, hi, he⟩
      obtain ⟨e', he', hread⟩ := hin i ((h.active_mapped hsound).2 hi)
      rw [hentry.1 hread] at he
      rw [← Option.some.inj he]
      exact he'
    · intro he
      obtain ⟨i, ⟨hi, hread⟩, -⟩ := hunique e he
      exact ⟨i, (h.active_mapped hsound).1 hi, hentry.1 hread⟩
  have hnodup : (s.active.filterMap s.entryAt).Nodup := by
    unfold List.Nodup
    rw [List.pairwise_filterMap]
    refine (h.active_nodup hapart.filed).imp_of_mem ?_
    intro i j hi hj hne e he e' he' heq
    subst heq
    have hactive : e ∈ p.active := (hmem e).1 (List.mem_filterMap.2 ⟨i, hi, he⟩)
    obtain ⟨k, -, hk⟩ := hunique e hactive
    have hi' := hk i ⟨(h.active_mapped hsound).2 hi, hentry.2 he⟩
    have hj' := hk j ⟨(h.active_mapped hsound).2 hj, hentry.2 he'⟩
    exact hne (hi'.trans hj'.symm)
  have hperm : (s.active.filterMap s.entryAt).Perm p.active :=
    (List.perm_ext_iff_of_nodup hnodup (hapart.active_nodup hl)).2 hmem
  have hsorted : (s.active.filterMap s.entryAt).Pairwise fun x y => x.recordId ≤ y.recordId := by
    rw [List.pairwise_filterMap]
    have hids : s.active.Pairwise fun i j => originalIdOf s.records i ≤ originalIdOf s.records j := by
      rw [h.active]
      exact List.pairwise_insertionSort
        (fun left right => originalIdOf s.records left ≤ originalIdOf s.records right) _
    refine hids.imp ?_
    intro i j hle e he e' he'
    rw [h.originalId_eq he, h.originalId_eq he'] at hle
    exact hle
  refine hperm.eq_of_pairwise ?_ hsorted p.active_sorted
  intro e e' he he' hle hle'
  exact hapart.active_eq hl ((hmem e).1 he) he' (le_antisymm hle hle')

/-- **Candidates with one fact** come in the order of their record ids. -/
theorem Captures.candidates_ordered (h : s.Captures m) (hsound : s.Sound journal)
    (pattern : Pattern) (binding : Binding) :
    (s.candidates pattern binding).Pairwise fun i j =>
      ∀ e, s.entryAt i = some e → ∀ e', s.entryAt j = some e' → e.fact = e'.fact →
        e.recordId ≤ e'.recordId := by
  have hliterals := (hsound.table_lt .literals rfl).1
  have hpredicates := (hsound.table_lt .predicates rfl).1
  have hspec := specOf_selects (resolvedAtomCell_bounded hliterals pattern.subject binding)
    (resolvedPredicateCell_bounded hpredicates pattern.predicate binding)
    (resolvedAtomCell_bounded hliterals pattern.object binding)
  have hids : s.active.Pairwise fun i j => ∀ e, s.entryAt i = some e → ∀ e', s.entryAt j = some e' →
      e.fact = e'.fact → e.recordId ≤ e'.recordId := by
    have hsorted : s.active.Pairwise fun i j =>
        originalIdOf s.records i ≤ originalIdOf s.records j := by
      rw [h.active]
      exact List.pairwise_insertionSort
        (fun left right => originalIdOf s.records left ≤ originalIdOf s.records right) _
    refine hsorted.imp ?_
    intro i j hle e he e' he' _
    rw [h.originalId_eq he, h.originalId_eq he'] at hle
    exact hle
  unfold candidates candidateSpec
  cases hs : specOf (s.resolvedAtomCell pattern.subject binding)
      (s.resolvedPredicateCell pattern.predicate binding)
      (s.resolvedAtomCell pattern.object binding) with
  | all =>
    simp only
    rw [hsound.active_length, SortedTable.filterMap_range]
    exact hids
  | empty => exact List.Pairwise.nil
  | range name key length =>
    rw [hs] at hspec
    obtain ⟨hkey, hbound, hlength, hselects⟩ := hspec
    obtain ⟨start, stop, hrange, -, -, hslice⟩ :=
      indexRange_eq (hsound.index_sorted name) hkey hbound hlength
    simp only [hrange]
    rw [SortedTable.filterMap_range', hslice, List.pairwise_map]
    -- a section is sorted by its cells, and behind them by the ids
    have hbefore : (s.indexEntries name).Pairwise (IndexEntry.Before s.records) := by
      rw [h.index]
      exact List.pairwise_insertionSort (IndexEntry.Before s.records) _
    refine (hbefore.filter _).imp_of_mem ?_
    intro x y hx hy hle e he e' he' hfact
    have hcells : ∀ z ∈ s.indexEntries name, ∀ f : ProjectedFact, s.entryAt z.record = some f →
        ∃ r i, z = name.entryOf r i ∧
          s.tables.fact r.subject r.predicate r.object = some f.fact := by
      intro z hz f hf
      rw [h.index, mem_indexSection] at hz
      obtain ⟨i, -, r, hr, rfl⟩ := hz
      have hrecord : (name.entryOf r i).record = i := by cases name <;> rfl
      rw [hrecord] at hf
      unfold entryAt at hf
      rw [hr, Option.bind_some] at hf
      exact ⟨r, i, rfl, (ImageNames.entry_some hf).2.2⟩
    obtain ⟨r, i, hxr, hfr⟩ := hcells x (List.mem_of_mem_filter hx) e he
    obtain ⟨r', i', hyr, hfr'⟩ := hcells y (List.mem_of_mem_filter hy) e' he'
    rw [← hfact] at hfr'
    have hnodup : s.tables.predicates.Nodup := h.names.predicates.imp fun hlt => ne_of_lt hlt
    have hnodup' : s.tables.literals.Nodup := h.names.literals.imp fun hlt => ne_of_lt hlt
    obtain ⟨h1, h2, h3⟩ := ImageNames.fact_cells hnodup hnodup' hfr hfr'
    have hkeys : [x.first, x.second, x.third] = [y.first, y.second, y.third] := by
      rw [hxr, hyr]
      cases name <;> simp only [IndexSection.entryOf, h1, h2, h3]
    unfold IndexEntry.Before at hle
    simp only [List.cons.injEq, and_true] at hkeys
    rw [hkeys.1, hkeys.2.1, hkeys.2.2, h.originalId_eq he, h.originalId_eq he'] at hle
    by_contra hlt
    have hless : [y.first, y.second, y.third, e'.recordId] <
        [y.first, y.second, y.third, e.recordId] := by
      simp only [List.cons_lt_cons_iff, lt_irrefl, true_and, false_or]
      exact .inl (not_le.1 hlt)
    exact absurd hle (not_le.2 hless)

/-- What a visit of an active record finds. -/
theorem Captures.visit_active (h : s.Captures m) {i : ℕ} {e : ProjectedFact}
    (he : s.entryAt i = some e) (pattern : Pattern) (binding : Binding) :
    s.visit pattern binding i =
      .ok ((unifyPattern pattern e.fact binding).map fun binding => (binding, e.slot)) := by
  obtain ⟨r, hr, hentry⟩ := Option.bind_eq_some_iff.1 he
  obtain ⟨-, hslot, hfact⟩ := ImageNames.entry_some hentry
  obtain ⟨hsubject, hpredicate, hobject⟩ := ImageNames.fact_some hfact
  have hatom : ∀ {cell : ℕ} {atom : Atom}, s.tables.atom cell = some atom →
      s.atomValue cell = .ok atom := by
    intro cell atom hc
    rw [← atomValue_toOption] at hc
    exact toOption_eq_some.1 hc
  have hvalue : s.predicateValue r.predicate = some e.fact.predicate := by
    unfold predicateValue
    rw [show s.predicates[r.predicate]? = some e.fact.predicate.value from hpredicate]
    rfl
  have hunify : s.unify pattern r binding = unifyPattern pattern e.fact binding := by
    unfold unify unifyTermCell unifyPredicateToken unifyPattern
    rw [hatom hsubject, hatom hobject, hvalue]
  unfold visit
  rw [hr]
  simp only
  rw [hunify]
  cases unifyPattern pattern e.fact binding with
  | none => rfl
  | some binding =>
    simp only
    rw [show s.slots[r.slot]? = some e.slot.value from hslot]
    rfl

theorem Captures.candidates_entry (h : s.Captures m) (hsound : s.Sound journal)
    (pattern : Pattern) (binding : Binding) :
    ∀ i ∈ s.candidates pattern binding, ∃ e, s.entryAt i = some e := by
  intro i hi
  have hmatching := ((h.candidates_perm hsound pattern binding).1.mem_iff).1 hi
  obtain ⟨-, -, e, -, -, -, he⟩ := h.active_entry (List.mem_of_mem_filter hmatching)
  exact ⟨e, he⟩

theorem Captures.source_visits (h : s.Captures m) (hsound : s.Sound journal) :
    s.source.Visits := by
  intro pattern binding i hi
  obtain ⟨e, he⟩ := h.candidates_entry hsound pattern binding i hi
  exact ⟨_, h.visit_active he pattern binding⟩

theorem Captures.source_reads (h : s.Captures m) (hsound : s.Sound journal) :
    Reads s.source fun pattern binding =>
      ((s.candidates pattern binding).filterMap s.entryAt).map ProjectedFact.read := by
  intro pattern binding
  simp only
  rw [List.map_map]
  refine map_filterMap_of_mem ?_
  intro i hi
  obtain ⟨e, he⟩ := h.candidates_entry hsound pattern binding i hi
  refine ⟨e, he, ?_⟩
  unfold QuerySource.found source
  simp only [h.visit_active he]
  rfl

/-- **The entries that a pattern selects by cells** are those that agree with it. -/
theorem Captures.candidates_agreeing (h : s.Captures m) (hsound : s.Sound journal)
    (hl : Lists p.definitions m) (hapart : Apart m n) {pattern : Pattern} {binding : Binding}
    (hplaced : ¬ Misplaced pattern binding) :
    ((s.candidates pattern binding).filterMap s.entryAt).Perm (p.agreeing pattern binding) := by
  have hperm := (h.candidates_perm hsound pattern binding).1.filterMap s.entryAt
  refine hperm.trans (.of_eq ?_)
  unfold matching agreeing
  rw [← h.active_eq hsound hl hapart, List.filter_filterMap, List.filterMap_filter]
  refine List.filterMap_congr ?_
  intro i hi
  obtain ⟨r, slot, e, hr, -, hentry, he⟩ := h.active_entry hi
  obtain ⟨-, -, hfact⟩ := ImageNames.entry_some hentry
  obtain ⟨hsubject, hpredicate, hobject⟩ := ImageNames.fact_some hfact
  have hmatches : s.Matches pattern binding r ↔ pattern.Admits binding e.fact := by
    unfold Matches Pattern.Admits
    rw [resolvedAtomCell_selects hsound.names hsubject,
      resolvedPredicateCell_selects hsound.names hpredicate,
      resolvedAtomCell_selects hsound.names hobject]
  rw [hr, Option.any_some, he]
  by_cases hagrees : ForthDb.Agrees (resolvedAtom pattern.subject binding)
      (resolvedPredicate pattern.predicate binding) (resolvedAtom pattern.object binding) e.fact
  · have hm := hmatches.2 ((Pattern.admits_iff hplaced e.fact).2 hagrees)
    simp [hm, hagrees, Option.filter]
  · have hm : ¬ s.Matches pattern binding r := fun hm =>
      hagrees ((Pattern.admits_iff hplaced e.fact).1 (hmatches.1 hm))
    simp [hm, hagrees, Option.filter]

/-- **Image and projection** find the same entries, fact by fact in the same order. -/
theorem Captures.agrees (h : s.Captures m) (hsound : s.Sound journal)
    (hl : Lists p.definitions m) (hapart : Apart m n) :
    Reads.Agrees p.source s.source
      (fun pattern binding => (p.agreeing pattern binding).map ProjectedFact.read)
      fun pattern binding =>
        ((s.candidates pattern binding).filterMap s.entryAt).map ProjectedFact.read where
  count pattern binding hplaced := by
    have hperm := h.candidates_agreeing hsound hl hapart hplaced
    have hcount : ((s.candidates pattern binding).filterMap s.entryAt).length =
        (s.candidates pattern binding).length := by
      have hmap := @map_filterMap_of_mem _ _ _ (s.candidates pattern binding) (fun _ => ()) s.entryAt
        (fun _ => ()) fun i hi => by
          obtain ⟨e, he⟩ := h.candidates_entry hsound pattern binding i hi
          exact ⟨e, he, rfl⟩
      have hlength := congrArg List.length hmap
      rw [List.length_map, List.length_map] at hlength
      exact hlength.symm
    have hcount' : (p.agreeing pattern binding).length = (p.candidates pattern binding).length := by
      have hmap := @map_filterMap_of_mem _ _ _ (p.candidates pattern binding) (fun _ => ())
        (fun i => p.active[i]?) (fun _ => ()) fun i hi => by
          obtain ⟨e, he⟩ := p.candidates_positions pattern binding i hi
          exact ⟨e, he, rfl⟩
      have hlength := congrArg List.length hmap
      rw [List.length_map, List.length_map, p.candidates_agreeing] at hlength
      exact hlength.symm
    change s.candidateCount pattern binding = (p.candidates pattern binding).length
    rw [(h.candidates_perm hsound pattern binding).2, ← hcount, hperm.length_eq, hcount']
  facts pattern binding hplaced fact := by
    have hfilter : ∀ es : List ProjectedFact,
        ((es.map ProjectedFact.read).filter fun e => decide (e.2 = fact)) =
          (es.filter fun e => decide (e.fact = fact)).map ProjectedFact.read := by
      intro es
      rw [List.filter_map]
      rfl
    rw [hfilter, hfilter]
    congr 1
    have hperm := (h.candidates_agreeing hsound hl hapart hplaced).filter
      fun e => decide (e.fact = fact)
    have hsorted : (((s.candidates pattern binding).filterMap s.entryAt).filter fun e =>
        decide (e.fact = fact)).Pairwise fun x y => x.recordId ≤ y.recordId := by
      have hordered : ((s.candidates pattern binding).filterMap s.entryAt).Pairwise fun x y =>
          x.fact = y.fact → x.recordId ≤ y.recordId := by
        rw [List.pairwise_filterMap]
        exact h.candidates_ordered hsound pattern binding
      refine (hordered.filter _).imp_of_mem ?_
      intro x y hx hy hle
      have hxf := of_decide_eq_true (List.mem_filter.1 hx).2
      have hyf := of_decide_eq_true (List.mem_filter.1 hy).2
      exact hle (hxf.trans hyf.symm)
    have hsorted' : ((p.agreeing pattern binding).filter fun e =>
        decide (e.fact = fact)).Pairwise fun x y => x.recordId ≤ y.recordId :=
      (p.active_sorted.filter _).filter _
    refine hperm.eq_of_pairwise ?_ hsorted hsorted'
    intro x y hx hy hle hle'
    have hxa : x ∈ p.active :=
      List.mem_of_mem_filter (List.mem_of_mem_filter (hperm.mem_iff.1 hx))
    have hya : y ∈ p.active := List.mem_of_mem_filter (List.mem_of_mem_filter hy)
    exact hapart.active_eq hl hxa hya (le_antisymm hle hle')

end MmapVmSnapshot

/-! ## The answers -/

/-- **Mapped roots answer queries.** For every image that was written of a world and is opened, all
patterns and options: neither engine panics; without a limit the rows are those of the projection of
the world's frames, in their order and with their provenance; with a limit they are rows of that
whole answer, and as many as the projection gives, unless duplicates are removed. -/
theorem mapped_query_rows {w : World} {p : VmQueryProjection} {journal current : List UInt8}
    {n : ℕ} {s : MmapVmSnapshot} {m : MappedFile} (hw : w.InRange) (hn : n < 2 ^ 64)
    (hjournal : journal.length < 2 ^ 64) (hp : w.vmQuery = .ok p)
    (hs : MmapVmSnapshot.create journal n w p = .ok s)
    (hm : MappedFile.openImage (s.toFile journal) current = .ok m) (patterns : List Pattern)
    (options : QueryOptions) :
    ∃ mapped framed whole, m.view.query patterns options = .ok mapped ∧
      p.query patterns options = .ok framed ∧
      p.query patterns { options with limit := none } = .ok whole ∧
      (options.limit = none → mapped.rows = framed.rows) ∧
      (∀ row ∈ mapped.rows, row ∈ whole.rows) ∧
      (options.distinct = false → mapped.rows.length = framed.rows.length) := by
  obtain ⟨hformed, -, -, -, -, -⟩ := MmapVmSnapshot.create_formed hs hp hw hn hjournal
  obtain ⟨hsound, rfl⟩ := hformed.opened hm
  obtain ⟨hmapped, -⟩ := MmapVmSnapshot.create_ok hs
  have hnone : p.mapped = none := by simpa using hmapped
  obtain ⟨fs, -, rfl⟩ := World.vmQuery_frames hp hnone
  obtain ⟨entries, hl, hapart⟩ := VmQueryProjection.fromFrames_apart fs
  have hcaptures := MmapVmSnapshot.create_captures hs hl hapart.filed
  set p := VmQueryProjection.fromFrames fs with hpdef
  have hview := hsound.view_mapped
  obtain ⟨mapped, hquery, hrows⟩ := (hcaptures.source_visits hsound).query_rows patterns options
  obtain ⟨framed, hquery', hrows'⟩ := p.source_visits.query_rows patterns options
  obtain ⟨whole, hquery'', hrows''⟩ :=
    p.source_visits.query_rows patterns { options with limit := none }
  have hagree : AgreeByBinding (s.source.allSolutions patterns options)
      (p.source.allSolutions patterns options) :=
    p.source_reads.solutions_agree (hcaptures.source_reads hsound)
      (hcaptures.agrees hsound hl hapart) patterns.length ⟨.new, []⟩ patterns rfl
  have hunlimited : p.source.allSolutions patterns { options with limit := none } =
      p.source.allSolutions patterns options := p.source.solutions_limit options _ _ _
  have hframed : ∀ o, p.query patterns o = p.source.query patterns o := by
    intro o
    unfold VmQueryProjection.query
    rw [hnone]
  have hwhole : whole.rows = finishRows options (s.source.allSolutions patterns options) := by
    rw [hrows'', hunlimited, finishRows_congr hagree options]
    rfl
  refine ⟨mapped, framed, whole, ?_, ?_, ?_, ?_, ?_, ?_⟩
  · rw [hview]
    exact hquery
  · rw [hframed]
    exact hquery'
  · rw [hframed]
    exact hquery''
  · intro hlimit
    rw [hrows, hrows', hlimit]
    exact finishRows_congr hagree options
  · intro row hrow
    rw [hwhole]
    rw [hrows] at hrow
    exact mem_finishRows_kept hrow
  · intro hd
    rw [hrows, hrows', length_finishRows_whole hd, length_finishRows_whole hd]
    exact length_keptFrames hagree.perm.length_eq

theorem World.reopened_ok {w : World} {journal : List UInt8} {n : ℕ} {p : VmQueryProjection}
    {s : MmapVmSnapshot} {m : MappedFile} (h : w.reopened journal n = .ok (p, s, m)) :
    w.vmQuery = .ok p ∧ MmapVmSnapshot.create journal n w p = .ok s ∧
      MappedFile.openImage (s.toFile journal) journal = .ok m := by
  unfold World.reopened at h
  cases hp : w.vmQuery with
  | error e =>
    rw [hp] at h
    cases h
  | ok p' =>
    simp only [hp, bind, Except.bind] at h
    cases hs : MmapVmSnapshot.create journal n w p' with
    | error e =>
      rw [hs] at h
      cases h
    | ok s' =>
      simp only [hs] at h
      cases hm : MappedFile.openImage (s'.toFile journal) journal with
      | error e =>
        rw [hm] at h
        cases h
      | ok m' =>
        simp only [hm, pure, Except.pure, Except.ok.injEq, Prod.mk.injEq] at h
        obtain ⟨rfl, rfl, rfl⟩ := h
        exact ⟨rfl, hs, hm⟩

theorem mapped_query_rows_redefined :
    ∃ w p s m, World.reconstruct [.redefined] = .ok w ∧
      w.reopened (utf8 "FTHQJ001 16 byte") 1 = .ok (p, s, m) ∧
      ∀ patterns options, ∃ mapped framed whole, m.view.query patterns options = .ok mapped ∧
        p.query patterns options = .ok framed ∧
        p.query patterns { options with limit := none } = .ok whole ∧
        (options.limit = none → mapped.rows = framed.rows) ∧
        (∀ row ∈ mapped.rows, row ∈ whole.rows) ∧
        (options.distinct = false → mapped.rows.length = framed.rows.length) := by
  have hok : ((World.reconstruct [.redefined]).toOption.any fun w =>
      (w.reopened (utf8 "FTHQJ001 16 byte") 1).isOk && decide (w.version < 2 ^ 64 ∧
        w.nextEntity < 2 ^ 64 ∧ w.operationCount < 2 ^ 64 ∧ w.activeSlotCount < 2 ^ 64 ∧
        w.recordCount < 2 ^ 64)) = true := by decide +kernel
  cases hw : World.reconstruct [.redefined] with
  | error e =>
    rw [hw] at hok
    cases hok
  | ok w =>
    rw [hw] at hok
    simp only [Except.toOption, Option.any_some, Bool.and_eq_true, decide_eq_true_eq] at hok
    obtain ⟨hopened, h1, h2, h3, h4, h5⟩ := hok
    cases hr : w.reopened (utf8 "FTHQJ001 16 byte") 1 with
    | error e =>
      rw [hr] at hopened
      cases hopened
    | ok parts =>
      obtain ⟨p, s, m⟩ := parts
      obtain ⟨hp, hs, hm⟩ := World.reopened_ok hr
      have hlength : (utf8 "FTHQJ001 16 byte").length < 2 ^ 64 := by decide +kernel
      refine ⟨w, p, s, m, rfl, hr, ?_⟩
      intro patterns options
      exact mapped_query_rows ⟨h1, h2, h3, h4, h5⟩ (by decide) hlength hp hs hm patterns options

end ForthDB
