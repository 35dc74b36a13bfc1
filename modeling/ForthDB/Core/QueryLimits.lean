import ForthDB.Core.KernelJoin

/-!
# Queries with a limit

The walk stops when the limit is reached; duplicates are removed behind it. So a limit
cuts the frames and not the rows.

* `finishRows_truncates_iff`: when the rows of the first frames are as many as the limit and
  the whole answer allow.
* `limits_truncate_iff`: the same for the queries of both kernels.
-/

namespace ForthDB

/-- What a limited answer owes to the whole one. -/
structure Truncates (limit : ℕ) (distinct : Bool) (limited whole : List QueryRow) : Prop where
  length : limited.length = min limit whole.length
  bindings : ∀ row ∈ limited, ∃ row' ∈ whole, row'.binding = row.binding
  nodup : distinct = true → (limited.map QueryRow.binding).Nodup

/-- The frames allow a limit: there are none if it is zero, and without duplicates the first
of them have different bindings or all bindings. -/
def LimitFits (limit : ℕ) (distinct : Bool) (frames : List QueryFrame) : Prop :=
  (limit = 0 → frames = []) ∧
    (distinct = true → ((frames.take limit).map QueryFrame.binding).Nodup ∨
      ∀ frame ∈ frames, frame.binding ∈ (frames.take limit).map QueryFrame.binding)

/-- The bindings that occur in frames. -/
def bindingsOf (frames : List QueryFrame) : Finset Binding :=
  (frames.map QueryFrame.binding).toFinset

theorem mem_bindingsOf {frames : List QueryFrame} {b : Binding} :
    b ∈ bindingsOf frames ↔ b ∈ frames.map QueryFrame.binding := List.mem_toFinset

theorem bindingsOf_take (frames : List QueryFrame) (n : ℕ) :
    bindingsOf (frames.take n) ⊆ bindingsOf frames := by
  intro b hb
  rw [mem_bindingsOf, List.mem_map] at hb
  obtain ⟨frame, hframe, rfl⟩ := hb
  exact mem_bindingsOf.2 (List.mem_map_of_mem (List.mem_of_mem_take hframe))

theorem length_finishRows (options : QueryOptions) (output : List QueryFrame) :
    (finishRows options output).length =
      if options.distinct then (bindingsOf output).card else output.length := by
  have hlen := (finishRows_bindings options output).length_eq
  rw [List.length_map, List.length_map] at hlen
  rw [hlen]
  unfold keptRows
  split
  · obtain ⟨hnodup, hmem⟩ := retainDistinct_bindings output
    have hset : ((retainDistinct [] output).map QueryFrame.binding).toFinset = bindingsOf output := by
      ext b
      rw [List.mem_toFinset, hmem, mem_bindingsOf]
    rw [← hset, List.toFinset_card_of_nodup hnodup, List.length_map]
  · rfl

theorem mem_finishRows_bindings {options : QueryOptions} {output : List QueryFrame} {b : Binding} :
    b ∈ (finishRows options output).map QueryRow.binding ↔ b ∈ output.map QueryFrame.binding := by
  rw [(finishRows_bindings options output).mem_iff]
  unfold keptRows
  split
  · exact (retainDistinct_bindings output).2 b
  · rfl

/-- **The first frames** have as many different bindings as the limit allows exactly if none
of them repeats a binding or none is missing. -/
theorem card_take_iff {frames : List QueryFrame} {limit : ℕ} :
    (bindingsOf (frames.take limit)).card = min limit (bindingsOf frames).card ↔
      ((frames.take limit).map QueryFrame.binding).Nodup ∨
        ∀ frame ∈ frames, frame.binding ∈ (frames.take limit).map QueryFrame.binding := by
  have hsub := bindingsOf_take frames limit
  have hle : (bindingsOf (frames.take limit)).card ≤ (frames.take limit).length := by
    refine (List.toFinset_card_le _).trans ?_
    rw [List.length_map]
  have htake : (frames.take limit).length ≤ limit := List.length_take_le _ _
  constructor
  · intro h
    rcases min_choice limit (bindingsOf frames).card with hmin | hmin
    · -- as many bindings as frames
      left
      have hcard : (bindingsOf (frames.take limit)).card = (frames.take limit).length := by omega
      unfold bindingsOf at hcard
      rw [List.card_toFinset] at hcard
      refine List.dedup_eq_self.1 ((List.dedup_sublist _).eq_of_length ?_)
      rw [hcard, List.length_map]
    · right
      have heq := Finset.eq_of_subset_of_card_le hsub (by omega)
      intro frame hframe
      rw [← mem_bindingsOf, heq, mem_bindingsOf]
      exact List.mem_map_of_mem hframe
  · rintro (hnodup | hall)
    · have hcard : (bindingsOf (frames.take limit)).card = (frames.take limit).length := by
        unfold bindingsOf
        rw [List.toFinset_card_of_nodup hnodup, List.length_map]
      rcases le_total limit frames.length with hlt | hge
      · rw [List.length_take, min_eq_left hlt] at hcard
        have := Finset.card_le_card hsub
        omega
      · rw [List.take_of_length_le hge] at hcard ⊢
        omega
    · have heq : bindingsOf (frames.take limit) = bindingsOf frames := by
        refine Finset.Subset.antisymm hsub fun b hb => ?_
        rw [mem_bindingsOf, List.mem_map] at hb
        obtain ⟨frame, hframe, rfl⟩ := hb
        exact mem_bindingsOf.2 (hall frame hframe)
      rw [heq] at hle ⊢
      omega

/-- **When a limit truncates** the rows of some frames. -/
theorem finishRows_truncates_iff {options : QueryOptions} {limit : ℕ} {frames : List QueryFrame} :
    Truncates limit options.distinct (finishRows options (keptFrames (some limit) frames))
      (finishRows options frames) ↔ LimitFits limit options.distinct frames := by
  have hbindings : ∀ row ∈ finishRows options (keptFrames (some limit) frames),
      ∃ row' ∈ finishRows options frames, row'.binding = row.binding := by
    intro row hrow
    have hmem := mem_finishRows_bindings.1 (List.mem_map_of_mem (f := QueryRow.binding) hrow)
    obtain ⟨frame, hframe, hb⟩ := List.mem_map.1 hmem
    have hall : row.binding ∈ frames.map QueryFrame.binding :=
      hb ▸ List.mem_map_of_mem (List.mem_of_mem_take hframe)
    obtain ⟨row', hrow', heq⟩ := List.mem_map.1 (mem_finishRows_bindings.2 hall)
    exact ⟨row', hrow', heq⟩
  have hnodup : options.distinct = true →
      ((finishRows options (keptFrames (some limit) frames)).map QueryRow.binding).Nodup := by
    intro hd
    refine (finishRows_bindings options _).nodup_iff.2 ?_
    unfold keptRows
    rw [if_pos hd]
    exact (retainDistinct_bindings _).1
  have hlength : Truncates limit options.distinct (finishRows options (keptFrames (some limit) frames))
      (finishRows options frames) ↔ (finishRows options (keptFrames (some limit) frames)).length =
        min limit (finishRows options frames).length :=
    ⟨fun h => h.length, fun h => ⟨h, hbindings, hnodup⟩⟩
  rw [hlength, length_finishRows, length_finishRows]
  unfold LimitFits keptFrames
  rcases Nat.eq_zero_or_pos limit with rfl | hpos
  · -- the walk keeps one frame before it looks at the limit
    cases frames with
    | nil => simp [bindingsOf]
    | cons frame frames =>
      have hone : bindingsOf [frame] = {frame.binding} := rfl
      simp [hone]
  · have hmax : max limit 1 = limit := max_eq_left hpos
    simp only [hmax, show limit = 0 ↔ False from ⟨by omega, False.elim⟩, false_imp_iff, true_and]
    cases options.distinct with
    | false => simp
    | true => simpa using card_take_iff

/-! ## The kernels -/

/-- How a kernel answers with a limit and without it. -/
def SharedForthDb.Limited (s : SharedForthDb) (patterns : List Pattern) (options : QueryOptions)
    (limit : ℕ) : Prop :=
  ∃ limited whole, s.query patterns { options with limit := some limit } = .ok limited ∧
    s.query patterns { options with limit := none } = .ok whole ∧
    (Truncates limit options.distinct limited.rows whole.rows ↔
      LimitFits limit options.distinct (s.source.allSolutions patterns options))

/-- The plan is all that the solutions take from the options. -/
theorem solutions_options {ι : Type} (source : QuerySource ι) {options options' : QueryOptions}
    (h : options'.optimize = options.optimize) (count : ℕ) (frame : QueryFrame)
    (remaining : List Pattern) : source.solutions options' count frame remaining =
      source.solutions options count frame remaining := by
  have hindex (remaining : List Pattern) (b : Binding) :
      source.chosenIndex options' remaining b = source.chosenIndex options remaining b := by
    unfold QuerySource.chosenIndex
    rw [h]
  induction count generalizing frame remaining with
  | zero => rfl
  | succ count ih =>
    unfold QuerySource.solutions
    simp only [hindex, ih]

theorem SharedForthDb.Refines.limited {s : SharedForthDb} {k : ForthDb} (h : s.Refines k)
    (hk : k.Sound) (patterns : List Pattern) (options : QueryOptions) (limit : ℕ) :
    s.Limited patterns options limit := by
  obtain ⟨limited, hlimited, hrows⟩ := h.query_rows hk patterns { options with limit := some limit }
  obtain ⟨whole, hwhole, hrows'⟩ := h.query_rows hk patterns { options with limit := none }
  refine ⟨limited, whole, hlimited, hwhole, ?_⟩
  have hall (limit : Option ℕ) : s.source.allSolutions patterns { options with limit := limit } =
      s.source.allSolutions patterns options := by
    unfold QuerySource.allSolutions
    refine solutions_options s.source ?_ _ _ _
    rfl
  have hfinish (limit : Option ℕ) (output : List QueryFrame) :
      finishRows { options with limit := limit } output = finishRows options output := rfl
  rw [hrows, hrows', hall (some limit), hall none, hfinish (some limit), hfinish none]
  exact finishRows_truncates_iff

/-- **When a limit only truncates.** In all kernels that allocations, defines, forgets and
clones reach, and for all patterns and options, the answer with a limit has the rows that it
owes to the whole one exactly if the limit is not zero, or nothing is found, and, where
duplicates are removed, the frames in front of the limit repeat no binding or lack none. -/
theorem limits_truncate_iff (events : List KernelEvent) :
    ∃ returned shared legacy, sharedApi.run [.new] events = .ok (returned, shared) ∧
      legacyApi.run [.new] events = .ok (returned, legacy) ∧
      List.Forall₂ (fun s l => l.query = s.query ∧
        ∀ patterns options limit, s.Limited patterns options limit) shared legacy := by
  obtain ⟨returned, shared, legacy, hs, hl, h⟩ := run_inStep events (.cons new_inStep .nil)
  refine ⟨returned, shared, legacy, hs, hl, h.imp fun s l hsl => ?_⟩
  obtain ⟨k, m, hsk, hlk, hk, hm⟩ := hsl
  refine ⟨?_, fun patterns options limit => hsk.limited hk patterns options limit⟩
  funext patterns options
  unfold LegacyForthDb.query SharedForthDb.query
  rw [hlk.source_eq hk, hsk.source_eq hk]

/-! ## An answer that is cut too short -/

namespace ForthDb

/-- The source of a kernel whose first `n` records are the active ones, without a sort. -/
def rangeSource (k : ForthDb) (n : ℕ) : QuerySource ℕ :=
  let candidates (pattern : Pattern) (binding : Binding) : List ℕ :=
    (List.range n).filter fun i => ∃ fact ∈ k.factOf i,
      Agrees (resolvedAtom pattern.subject binding) (resolvedPredicate pattern.predicate binding)
        (resolvedAtom pattern.object binding) fact
  { candidateCount := fun pattern binding => (candidates pattern binding).length
    candidates := candidates
    visit := visitRecord k.record }

theorem source_eq_range {k : ForthDb} {n : ℕ} (h : k.active = Finset.range n) :
    k.source = k.rangeSource n := by
  have hcandidates : k.candidates = (k.rangeSource n).candidates := by
    funext pattern binding
    unfold candidates rangeSource
    simp only
    rw [h]
    refine List.Perm.eq_of_pairwise (fun a b _ _ hab hba => le_antisymm hab hba)
      (Finset.pairwise_sort _ _) (List.pairwise_le_range.filter _) ?_
    refine (List.perm_ext_iff_of_nodup (Finset.sort_nodup _ _) (List.nodup_range.filter _)).2
      fun i => ?_
    rw [Finset.mem_sort, Finset.mem_filter, Finset.mem_range, List.mem_filter, List.mem_range,
      decide_eq_true_eq]
  unfold source
  rw [hcandidates]
  rfl

end ForthDb

/-- The fact `x p o`. -/
def xpFact (o : String) : Fact := ⟨.literal ⟨"x"⟩, ⟨"p"⟩, .literal ⟨o⟩⟩

/-- Two slots with one fact and a third with another. -/
def doubledEvents : List KernelEvent :=
  [⟨0, .define ⟨"a"⟩ (xpFact "y")⟩, ⟨0, .define ⟨"b"⟩ (xpFact "y")⟩, ⟨0, .define ⟨"c"⟩ (xpFact "z")⟩]

/-- What is behind `x p`. -/
def objectsOfX : Pattern := ⟨.atom (.literal ⟨"x"⟩), .predicate ⟨"p"⟩, .var ⟨"o", by decide⟩⟩

/-- The log of the events. -/
def doubledLog : ForthDb :=
  ((ForthDb.new.define ⟨"a"⟩ (xpFact "y")).define ⟨"b"⟩ (xpFact "y")).define ⟨"c"⟩ (xpFact "z")

theorem doubled_run : ∃ returned s, sharedApi.run [.new] doubledEvents = .ok (returned, [s]) ∧
    s.Refines doubledLog ∧ doubledLog.Sound := by
  have hk₁ := ForthDb.define_sound ForthDb.new_sound ⟨"a"⟩ (xpFact "y")
  have hk₂ := ForthDb.define_sound hk₁ ⟨"b"⟩ (xpFact "y")
  obtain ⟨s₁, h₁, r₁⟩ := SharedForthDb.new_refines.define ForthDb.new_sound ⟨"a"⟩ (xpFact "y")
  obtain ⟨s₂, h₂, r₂⟩ := r₁.define hk₁ ⟨"b"⟩ (xpFact "y")
  obtain ⟨s₃, h₃, r₃⟩ := r₂.define hk₂ ⟨"c"⟩ (xpFact "z")
  refine ⟨[some 0, some 1, some 2], s₃, ?_, r₃, ForthDb.define_sound hk₂ ⟨"c"⟩ (xpFact "z")⟩
  simp only [doubledEvents, KernelApi.run, KernelApi.apply, sharedApi, List.getElem?_cons_zero,
    bind, Except.bind, h₁, h₂, h₃, pure, Except.pure, List.set_cons_zero]
  rfl

/-- Two rows are asked for and two are found, but the answer has one: the duplicate was counted
before it was removed. -/
theorem limit_cuts_duplicates : ∃ returned s, sharedApi.run [.new] doubledEvents =
    .ok (returned, [s]) ∧ ∃ limited whole,
      s.query [objectsOfX] ⟨true, true, false, some 2⟩ = .ok limited ∧
      s.query [objectsOfX] ⟨true, true, false, none⟩ = .ok whole ∧
      limited.rows.length = 1 ∧ whole.rows.length = 2 ∧
      ¬ Truncates 2 true limited.rows whole.rows := by
  obtain ⟨returned, s, hrun, hs, hk⟩ := doubled_run
  have hsource : s.source = doubledLog.rangeSource 3 := by
    rw [hs.source_eq hk]
    exact ForthDb.source_eq_range (by decide +kernel)
  have hlimited : ((s.query [objectsOfX] ⟨true, true, false, some 2⟩).map
      fun result => result.rows.length) = .ok 1 := by
    unfold SharedForthDb.query
    rw [hsource]
    decide +kernel
  have hwhole : ((s.query [objectsOfX] ⟨true, true, false, none⟩).map
      fun result => result.rows.length) = .ok 2 := by
    unfold SharedForthDb.query
    rw [hsource]
    decide +kernel
  cases hl : s.query [objectsOfX] ⟨true, true, false, some 2⟩ with
  | error e => rw [hl] at hlimited; cases hlimited
  | ok limited =>
    cases hw : s.query [objectsOfX] ⟨true, true, false, none⟩ with
    | error e => rw [hw] at hwhole; cases hwhole
    | ok whole =>
      rw [hl] at hlimited
      rw [hw] at hwhole
      have h1 : limited.rows.length = 1 := Except.ok.inj hlimited
      have h2 : whole.rows.length = 2 := Except.ok.inj hwhole
      refine ⟨returned, s, hrun, limited, whole, hl, hw, h1, h2, fun h => ?_⟩
      have hlen := h.length
      rw [h1, h2] at hlen
      cases hlen

end ForthDB
