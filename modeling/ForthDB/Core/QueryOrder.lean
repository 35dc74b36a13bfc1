import ForthDB.Core.QuerySolutions

/-!
# Queries over reordered candidates

Two engines may enumerate the same entries in different orders. A complete binding fixes
the fact behind each pattern, so an order that keeps equal facts in place changes the order
of the solutions only between different bindings.

* `Reads source entries`: the candidates of `source` read as the slots and facts `entries`.
* `Reads.solutions_agree`: entries that agree fact by fact give solutions that agree binding
  by binding; `Reads.solutions_eq`: equal entries give equal solutions.

A variable that is bound to the wrong kind of value for its position (`Misplaced`) ends
every completion, so nothing is asked of the candidates there.
-/

namespace ForthDB

/-! ## Bindings -/

/-- `c` has the variables of `b`, bound alike. -/
def Binding.Extends (b c : Binding) : Prop := ∀ name value, b.get name = some value →
  c.get name = some value

theorem Binding.Extends.refl (b : Binding) : b.Extends b := fun _ _ h => h

theorem Binding.Extends.trans {b c d : Binding} (h : b.Extends c) (h' : c.Extends d) :
    b.Extends d := fun name value hb => h' name value (h name value hb)

theorem Binding.get_insert (b : Binding) (name : String) (value : BoundValue) (name' : String) :
    (b.insert name value).get name' = if name' = name then some value else b.get name' := by
  unfold get insert
  simp only
  generalize hentries : b.entries = entries
  have hsorted := b.sorted
  rw [hentries] at hsorted
  clear hentries
  induction entries with
  | nil =>
    unfold insertEntry
    by_cases h : name' = name
    · subst h; simp
    · have hb : (name' == name) = false := by simpa using h
      simp [List.lookup_cons, hb, h]
  | cons entry rest ih =>
    obtain ⟨k, v⟩ := entry
    obtain ⟨hfirst, hrest⟩ := List.pairwise_cons.1 hsorted
    unfold insertEntry
    split
    · by_cases h : name' = name
      · subst h; simp
      · have hb : (name' == name) = false := by simpa using h
        simp only [List.lookup_cons, hb, if_neg h]
    · split
      · rename_i heq
        simp only at heq
        subst heq
        by_cases h : name' = name
        · subst h; simp
        · have hb : (name' == name) = false := by simpa using h
          simp only [List.lookup_cons, hb, if_neg h]
      · rename_i hne
        simp only at hne
        by_cases h : name' = k
        · subst h
          simp [Ne.symm hne]
        · have hb : (name' == k) = false := by simpa using h
          simp only [List.lookup_cons, hb]
          exact ih hrest

theorem unifyVariable_spec {v : Variable} {value : BoundValue} {b c : Binding}
    (h : unifyVariable v value b = some c) : b.Extends c ∧ c.get v.name = some value := by
  unfold unifyVariable at h
  cases hget : b.get v.name with
  | some existing =>
    simp only [hget] at h
    split at h
    · rename_i heq
      cases h
      exact ⟨.refl _, by rw [hget, heq]⟩
    · cases h
  | none =>
    simp only [hget] at h
    cases h
    refine ⟨fun name x hx => ?_, by rw [Binding.get_insert, if_pos rfl]⟩
    rw [Binding.get_insert, if_neg]
    · exact hx
    · rintro rfl
      rw [hget] at hx
      cases hx

/-! ## Facts that match -/

/-- A term denotes an atom under a binding. -/
def Term.Denotes (term : Term) (a : Atom) (b : Binding) : Prop :=
  match term with
  | .atom a' => a = a'
  | .var v => b.get v.name = some (.ofAtom a)

def PredicateTerm.Denotes (term : PredicateTerm) (q : Predicate) (b : Binding) : Prop :=
  match term with
  | .predicate q' => q = q'
  | .var v => b.get v.name = some (.predicate q)

/-- A fact is the instance of a pattern under a binding. -/
structure Matches (p : Pattern) (fact : Fact) (b : Binding) : Prop where
  subject : p.subject.Denotes fact.subject b
  predicate : p.predicate.Denotes fact.predicate b
  object : p.object.Denotes fact.object b

theorem BoundValue.ofAtom_injective : Function.Injective ofAtom := by
  rintro (⟨⟨⟩⟩ | ⟨⟨⟩⟩) (⟨⟨⟩⟩ | ⟨⟨⟩⟩) h <;> simp_all [ofAtom]

theorem Term.Denotes.unique {term : Term} {a a' : Atom} {b : Binding} (h : term.Denotes a b)
    (h' : term.Denotes a' b) : a = a' := by
  cases term with
  | atom c => exact Eq.trans h (Eq.symm h')
  | var v => exact BoundValue.ofAtom_injective (Option.some.inj (Eq.trans (Eq.symm h) h'))

theorem PredicateTerm.Denotes.unique {term : PredicateTerm} {q q' : Predicate} {b : Binding}
    (h : term.Denotes q b) (h' : term.Denotes q' b) : q = q' := by
  cases term with
  | predicate c => exact Eq.trans h (Eq.symm h')
  | var v => exact BoundValue.predicate.inj (Option.some.inj (Eq.trans (Eq.symm h) h'))

theorem Term.Denotes.mono {term : Term} {a : Atom} {b c : Binding} (h : term.Denotes a b)
    (hext : b.Extends c) : term.Denotes a c := by
  cases term with
  | atom a' => exact h
  | var v => exact hext _ _ h

theorem PredicateTerm.Denotes.mono {term : PredicateTerm} {q : Predicate} {b c : Binding}
    (h : term.Denotes q b) (hext : b.Extends c) : term.Denotes q c := by
  cases term with
  | predicate q' => exact h
  | var v => exact hext _ _ h

/-- **A binding fixes the fact** behind a pattern. -/
theorem Matches.unique {p : Pattern} {fact fact' : Fact} {b : Binding} (h : Matches p fact b)
    (h' : Matches p fact' b) : fact = fact' := by
  cases fact
  cases fact'
  obtain rfl := h.subject.unique h'.subject
  obtain rfl := h.predicate.unique h'.predicate
  obtain rfl := h.object.unique h'.object
  rfl

theorem Matches.mono {p : Pattern} {fact : Fact} {b c : Binding} (h : Matches p fact b)
    (hext : b.Extends c) : Matches p fact c :=
  ⟨h.subject.mono hext, h.predicate.mono hext, h.object.mono hext⟩

theorem unifyTerm_spec {term : Term} {a : Atom} {b c : Binding}
    (h : unifyTerm term (.ofAtom a) b = some c) : b.Extends c ∧ term.Denotes a c := by
  cases term with
  | atom a' =>
    unfold unifyTerm at h
    simp only [BoundValue.asAtom_ofAtom, Option.some.injEq] at h
    split at h
    · rename_i heq
      cases h
      exact ⟨.refl _, heq⟩
    · cases h
  | var v => exact unifyVariable_spec h

theorem unifyPredicate_spec {term : PredicateTerm} {q : Predicate} {b c : Binding}
    (h : unifyPredicate term (.predicate q) b = some c) : b.Extends c ∧ term.Denotes q c := by
  cases term with
  | predicate q' =>
    unfold unifyPredicate at h
    simp only [BoundValue.asPredicate, Option.some.injEq] at h
    split at h
    · rename_i heq
      cases h
      exact ⟨.refl _, heq⟩
    · cases h
  | var v => exact unifyVariable_spec h

/-- **Unification** extends the binding to one under which the fact matches. -/
theorem unifyPattern_spec {p : Pattern} {fact : Fact} {b c : Binding}
    (h : unifyPattern p fact b = some c) : b.Extends c ∧ Matches p fact c := by
  unfold unifyPattern at h
  simp only [bind, Option.bind_eq_some_iff] at h
  obtain ⟨b₁, h1, b₂, h2, h3⟩ := h
  obtain ⟨e1, m1⟩ := unifyTerm_spec h1
  obtain ⟨e2, m2⟩ := unifyPredicate_spec h2
  obtain ⟨e3, m3⟩ := unifyTerm_spec h3
  exact ⟨e1.trans (e2.trans e3), m1.mono (e2.trans e3), m2.mono e3, m3⟩

/-- A variable of the pattern is bound to a value that cannot stand in its position. -/
def Misplaced (p : Pattern) (b : Binding) : Prop :=
  (∃ v x, p.subject = .var v ∧ b.get v.name = some x ∧ x.asAtom = none) ∨
    (∃ v x, p.predicate = .var v ∧ b.get v.name = some x ∧ x.asPredicate = none) ∨
      ∃ v x, p.object = .var v ∧ b.get v.name = some x ∧ x.asAtom = none

theorem Misplaced.mono {p : Pattern} {b c : Binding} (h : Misplaced p b) (hext : b.Extends c) :
    Misplaced p c := by
  rcases h with ⟨v, x, hv, hx, hn⟩ | ⟨v, x, hv, hx, hn⟩ | ⟨v, x, hv, hx, hn⟩
  · exact .inl ⟨v, x, hv, hext _ _ hx, hn⟩
  · exact .inr (.inl ⟨v, x, hv, hext _ _ hx, hn⟩)
  · exact .inr (.inr ⟨v, x, hv, hext _ _ hx, hn⟩)

theorem Matches.not_misplaced {p : Pattern} {fact : Fact} {b : Binding} (h : Matches p fact b) :
    ¬Misplaced p b := by
  obtain ⟨h1, h2, h3⟩ := h
  rintro (⟨v, x, hv, hx, hn⟩ | ⟨v, x, hv, hx, hn⟩ | ⟨v, x, hv, hx, hn⟩)
  · rw [hv] at h1
    rw [Option.some.inj (Eq.trans (Eq.symm hx) h1)] at hn
    simp at hn
  · rw [hv] at h2
    rw [Option.some.inj (Eq.trans (Eq.symm hx) h2)] at hn
    cases hn
  · rw [hv] at h3
    rw [Option.some.inj (Eq.trans (Eq.symm hx) h3)] at hn
    simp at hn

/-! ## Solutions over entries -/

/-- The candidates of a source read as slots and facts. -/
def Reads {ι : Type} (source : QuerySource ι)
    (entries : Pattern → Binding → List (SlotId × Fact)) : Prop :=
  ∀ p b, (source.candidates p b).map (source.found p b) =
    (entries p b).map fun e => (unifyPattern p e.2 b).map fun c => (c, e.1)

namespace Reads

variable {ι κ : Type} {source : QuerySource ι} {source' : QuerySource κ}
  {entries entries' : Pattern → Binding → List (SlotId × Fact)} {options : QueryOptions}

theorem solutions_succ (h : Reads source entries) (count : ℕ) (frame : QueryFrame)
    (remaining : List Pattern) :
    source.solutions options (count + 1) frame remaining =
      match remaining[source.chosenIndex options remaining frame.binding]? with
      | none => []
      | some chosen => (entries chosen frame.binding).flatMap fun e =>
          match unifyPattern chosen e.2 frame.binding with
          | none => []
          | some binding =>
            source.solutions options count ⟨binding, frame.provenance ++ [e.1]⟩
              (remaining.eraseIdx (source.chosenIndex options remaining frame.binding)) := by
  conv_lhs => unfold QuerySource.solutions
  cases remaining[source.chosenIndex options remaining frame.binding]? with
  | none => rfl
  | some chosen =>
    simp only
    have hmap := congrArg (List.flatMap fun found : Option (Binding × SlotId) =>
      found.elim [] fun e =>
        source.solutions options count ⟨e.1, frame.provenance ++ [e.2]⟩
          (remaining.eraseIdx (source.chosenIndex options remaining frame.binding)))
      (h chosen frame.binding)
    rw [List.flatMap_map, List.flatMap_map] at hmap
    refine (List.flatMap_congr fun i _ => ?_).trans (hmap.trans (List.flatMap_congr fun e _ => ?_))
    · cases source.found chosen frame.binding i <;> rfl
    · cases unifyPattern chosen e.2 frame.binding <;> rfl

/-- A solution extends the binding it starts from, and every remaining pattern has its
instance. -/
theorem solutions_spec (h : Reads source entries) (count : ℕ) (frame : QueryFrame)
    (remaining : List Pattern) (hcount : remaining.length = count) {frame' : QueryFrame}
    (hmem : frame' ∈ source.solutions options count frame remaining) :
    frame.binding.Extends frame'.binding ∧
      ∀ p ∈ remaining, ∃ fact, Matches p fact frame'.binding := by
  induction count generalizing frame remaining with
  | zero =>
    obtain rfl := List.length_eq_zero_iff.1 hcount
    unfold QuerySource.solutions at hmem
    obtain rfl := List.mem_singleton.1 hmem
    exact ⟨.refl _, by simp⟩
  | succ count ih =>
    rw [h.solutions_succ] at hmem
    set index := source.chosenIndex options remaining frame.binding with hindex
    cases hchosen : remaining[index]? with
    | none => simp [hchosen] at hmem
    | some chosen =>
      simp only [hchosen, List.mem_flatMap] at hmem
      obtain ⟨e, -, hmem⟩ := hmem
      cases hunify : unifyPattern chosen e.2 frame.binding with
      | none => simp [hunify] at hmem
      | some binding =>
        simp only [hunify] at hmem
        obtain ⟨hlt, hget⟩ := List.getElem?_eq_some_iff.1 hchosen
        obtain ⟨hext, hmatches⟩ := unifyPattern_spec hunify
        obtain ⟨hext', hrest⟩ := ih _ _ (by rw [List.length_eraseIdx_of_lt hlt]; omega) hmem
        refine ⟨hext.trans hext', fun p hp => ?_⟩
        by_cases hpc : p = chosen
        · subst hpc
          exact ⟨e.2, hmatches.mono hext'⟩
        · refine hrest p ?_
          obtain ⟨i, hi, rfl⟩ := List.getElem_of_mem hp
          rw [List.mem_eraseIdx_iff_getElem]
          refine ⟨i, hi, ?_, rfl⟩
          rintro rfl
          exact hpc hget

theorem solutions_misplaced (h : Reads source entries) (count : ℕ) (frame : QueryFrame)
    (remaining : List Pattern) (hcount : remaining.length = count)
    (hmis : ∃ p ∈ remaining, Misplaced p frame.binding) :
    source.solutions options count frame remaining = [] := by
  refine List.eq_nil_iff_forall_not_mem.2 fun frame' hmem => ?_
  obtain ⟨hext, hall⟩ := h.solutions_spec count frame remaining hcount hmem
  obtain ⟨p, hp, hmis⟩ := hmis
  obtain ⟨fact, hmatches⟩ := hall p hp
  exact hmatches.not_misplaced (hmis.mono hext)

/-- Sources with the same counts choose the same pattern. -/
theorem chosenIndex_eq (options : QueryOptions) {remaining : List Pattern} {b : Binding}
    (hcount : ∀ p ∈ remaining, source'.candidateCount p b = source.candidateCount p b) :
    source'.chosenIndex options remaining b = source.chosenIndex options remaining b := by
  unfold QuerySource.chosenIndex
  split
  · congr 1
    exact List.map_congr_left hcount
  · rfl

/-- Entries agree fact by fact where no variable is misplaced, and so do the counts. -/
structure Agrees (source : QuerySource ι) (source' : QuerySource κ)
    (entries entries' : Pattern → Binding → List (SlotId × Fact)) : Prop where
  count : ∀ p b, ¬Misplaced p b → source'.candidateCount p b = source.candidateCount p b
  facts : ∀ p b, ¬Misplaced p b → ∀ fact,
    (entries' p b).filter (fun e => e.2 = fact) = (entries p b).filter fun e => e.2 = fact

/-- A loop whose body is empty for all facts but one runs over the entries of that fact. -/
theorem flatMap_filter {β : Type} {xs : List (SlotId × Fact)} {body : SlotId × Fact → List β}
    {fact : Fact} (h : ∀ e ∈ xs, body e ≠ [] → e.2 = fact) :
    xs.flatMap body = (xs.filter fun e => e.2 = fact).flatMap body := by
  induction xs with
  | nil => rfl
  | cons e xs ih =>
    have ih' := ih fun e' he' => h e' (List.mem_cons_of_mem _ he')
    by_cases he : e.2 = fact
    · rw [List.filter_cons_of_pos (by simpa using he), List.flatMap_cons, List.flatMap_cons, ih']
    · have hnil : body e = [] := by
        by_contra hne
        exact he (h e List.mem_cons_self hne)
      rw [List.filter_cons_of_neg (by simpa using he), List.flatMap_cons, hnil, ih', List.nil_append]

/-- **Entries that agree fact by fact** give solutions that agree binding by binding. -/
theorem solutions_agree (h : Reads source entries) (h' : Reads source' entries')
    (hagree : Agrees source source' entries entries') (count : ℕ) (frame : QueryFrame)
    (remaining : List Pattern) (hcount : remaining.length = count) :
    AgreeByBinding (source'.solutions options count frame remaining)
      (source.solutions options count frame remaining) := by
  induction count generalizing frame remaining with
  | zero => exact fun _ => rfl
  | succ count ih =>
    by_cases hmis : ∃ p ∈ remaining, Misplaced p frame.binding
    · rw [h.solutions_misplaced _ _ _ hcount hmis, h'.solutions_misplaced _ _ _ hcount hmis]
      exact fun _ => rfl
    have hplaced : ∀ p ∈ remaining, ¬Misplaced p frame.binding := fun p hp hm => hmis ⟨p, hp, hm⟩
    have hindex := chosenIndex_eq options fun p hp =>
      hagree.count p frame.binding (hplaced p hp)
    intro binding
    rw [h.solutions_succ, h'.solutions_succ, hindex]
    set index := source.chosenIndex options remaining frame.binding
    cases hchosen : remaining[index]? with
    | none => rfl
    | some chosen =>
      simp only
      obtain ⟨hlt, hget⟩ := List.getElem?_eq_some_iff.1 hchosen
      have hrest : (remaining.eraseIdx index).length = count := by
        rw [List.length_eraseIdx_of_lt hlt]
        omega
      -- the frames with this binding behind one entry, in the one source and in the other
      set body : SlotId × Fact → List QueryFrame := fun e =>
        framesOf (match unifyPattern chosen e.2 frame.binding with
          | none => []
          | some c => source.solutions options count ⟨c, frame.provenance ++ [e.1]⟩
              (remaining.eraseIdx index)) binding with hbody
      have hbody' : (fun e : SlotId × Fact =>
          framesOf (match unifyPattern chosen e.2 frame.binding with
            | none => []
            | some c => source'.solutions options count ⟨c, frame.provenance ++ [e.1]⟩
                (remaining.eraseIdx index)) binding) = body := by
        funext e
        simp only [hbody]
        cases unifyPattern chosen e.2 frame.binding with
        | none => rfl
        | some c => exact ih ⟨c, frame.provenance ++ [e.1]⟩ (remaining.eraseIdx index) hrest binding
      have hmatches : ∀ e : SlotId × Fact, body e ≠ [] → Matches chosen e.2 binding := by
        intro e hne
        obtain ⟨frame', hframe'⟩ := List.exists_mem_of_ne_nil _ hne
        rw [hbody] at hframe'
        obtain ⟨hmem, hb⟩ := List.mem_filter.1 hframe'
        have hb' : frame'.binding = binding := by simpa using hb
        cases hunify : unifyPattern chosen e.2 frame.binding with
        | none => simp [hunify] at hmem
        | some c =>
          simp only [hunify] at hmem
          obtain ⟨hext, -⟩ := h.solutions_spec _ _ _ hrest hmem
          rw [← hb']
          exact (unifyPattern_spec hunify).2.mono hext
      have hframes (xs : List (SlotId × Fact)) (g : SlotId × Fact → List QueryFrame) :
          framesOf (xs.flatMap g) binding = xs.flatMap fun e => framesOf (g e) binding := by
        unfold framesOf
        rw [List.filter_flatMap]
      rw [hframes, hframes, hbody']
      by_cases hany : ∃ e, body e ≠ []
      · obtain ⟨e₀, he₀⟩ := hany
        have hfact : ∀ e, body e ≠ [] → e.2 = e₀.2 := fun e he =>
          (hmatches e he).unique (hmatches e₀ he₀)
        rw [flatMap_filter fun e _ he => hfact e he,
          hagree.facts chosen frame.binding (hplaced chosen (hget ▸ List.getElem_mem hlt)) e₀.2]
        exact (flatMap_filter fun e _ he => hfact e he).symm
      · have hnil : ∀ e, body e = [] := fun e => by
          by_contra hne
          exact hany ⟨e, hne⟩
        rw [List.flatMap_eq_nil_iff.2 fun e _ => hnil e, List.flatMap_eq_nil_iff.2 fun e _ => hnil e]

/-- **Equal entries** give equal solutions. -/
theorem solutions_eq (h : Reads source entries) (h' : Reads source' entries')
    (hcounts : ∀ p b, ¬Misplaced p b → source'.candidateCount p b = source.candidateCount p b)
    (hentries : ∀ p b, ¬Misplaced p b → entries' p b = entries p b) (count : ℕ)
    (frame : QueryFrame) (remaining : List Pattern) (hcount : remaining.length = count) :
    source'.solutions options count frame remaining =
      source.solutions options count frame remaining := by
  induction count generalizing frame remaining with
  | zero => rfl
  | succ count ih =>
    by_cases hmis : ∃ p ∈ remaining, Misplaced p frame.binding
    · rw [h.solutions_misplaced _ _ _ hcount hmis, h'.solutions_misplaced _ _ _ hcount hmis]
    have hplaced : ∀ p ∈ remaining, ¬Misplaced p frame.binding := fun p hp hm => hmis ⟨p, hp, hm⟩
    have hindex := chosenIndex_eq options fun p hp =>
      hcounts p frame.binding (hplaced p hp)
    rw [h.solutions_succ, h'.solutions_succ, hindex]
    set index := source.chosenIndex options remaining frame.binding
    cases hchosen : remaining[index]? with
    | none => rfl
    | some chosen =>
      simp only
      obtain ⟨hlt, hget⟩ := List.getElem?_eq_some_iff.1 hchosen
      have hrest : (remaining.eraseIdx index).length = count := by
        rw [List.length_eraseIdx_of_lt hlt]
        omega
      rw [hentries chosen frame.binding (hplaced chosen (hget ▸ List.getElem_mem hlt))]
      congr 1
      funext e
      cases unifyPattern chosen e.2 frame.binding with
      | none => rfl
      | some c => exact ih ⟨c, frame.provenance ++ [e.1]⟩ (remaining.eraseIdx index) hrest

end Reads

end ForthDB
