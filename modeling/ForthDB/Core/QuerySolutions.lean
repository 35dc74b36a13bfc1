import ForthDB.Core.Query

/-!
# What a query finds

Without its limit the walk is a nested loop: `solutions` lists the frames that it
completes, in its order. A limit keeps the first of them, at least one.

* `Visits.query_rows`: the rows of a query are `finishRows` of the kept solutions.
* `finishRows_congr`: two lists of frames that agree binding by binding give the same rows.
-/

namespace ForthDB

/-- The frames that a limit keeps. The walk tests the limit after a push, so that it keeps
one frame at least. -/
def keptFrames (limit : Option ℕ) (frames : List QueryFrame) : List QueryFrame :=
  match limit with
  | none => frames
  | some limit => frames.take (max limit 1)

/-- The limit is reached. -/
def limitReached (limit : Option ℕ) (frames : List QueryFrame) : Bool :=
  limit.any fun limit => max limit 1 ≤ frames.length

theorem keptFrames_of_not_reached {limit : Option ℕ} {frames : List QueryFrame}
    (h : limitReached limit frames = false) : keptFrames limit frames = frames := by
  unfold limitReached at h
  unfold keptFrames
  cases limit with
  | none => rfl
  | some limit =>
    simp only [Option.any_some, decide_eq_false_iff_not, not_le] at h
    exact List.take_of_length_le h.le

theorem keptFrames_append {limit : Option ℕ} {frames : List QueryFrame}
    (h : limitReached limit frames = true) (more : List QueryFrame) :
    keptFrames limit (frames ++ more) = keptFrames limit frames := by
  unfold limitReached at h
  unfold keptFrames
  cases limit with
  | none => cases h
  | some limit =>
    simp only [Option.any_some, decide_eq_true_eq] at h
    exact List.take_append_of_le_length h

theorem limitReached_append {limit : Option ℕ} {frames : List QueryFrame}
    (h : limitReached limit frames = true) (more : List QueryFrame) :
    limitReached limit (frames ++ more) = true := by
  unfold limitReached at h ⊢
  cases limit with
  | none => cases h
  | some limit =>
    simp only [Option.any_some, decide_eq_true_eq, List.length_append] at h ⊢
    omega

namespace QuerySource

variable {ι : Type} (source : QuerySource ι)

/-- What the visit of a candidate finds. -/
def found (pattern : Pattern) (binding : Binding) (i : ι) : Option (Binding × SlotId) :=
  match source.visit pattern binding i with
  | .ok found => found
  | .error _ => none

/-- The complete frames of the walk without a limit, in its order. -/
def solutions (options : QueryOptions) : ℕ → QueryFrame → List Pattern → List QueryFrame
  | 0, frame, _ => [frame]
  | count + 1, frame, remaining =>
    match remaining[source.chosenIndex options remaining frame.binding]? with
    | none => []
    | some chosen =>
      (source.candidates chosen frame.binding).flatMap fun i =>
        match source.found chosen frame.binding i with
        | none => []
        | some (binding, slot) =>
          solutions options count ⟨binding, frame.provenance ++ [slot]⟩
            (remaining.eraseIdx (source.chosenIndex options remaining frame.binding))

/-- The solutions of a whole query. -/
def allSolutions (patterns : List Pattern) (options : QueryOptions) : List QueryFrame :=
  source.solutions options patterns.length ⟨.new, []⟩ patterns

end QuerySource

/-- A walk that adds the frames `more` up to the limit. -/
def Adds (limit : Option ℕ) (walk : WalkState → Except String (Bool × WalkState))
    (more : List QueryFrame) : Prop :=
  ∀ state, limitReached limit state.output = false →
    ∃ state', walk state = .ok (limitReached limit (state.output ++ more), state') ∧
      state'.output = keptFrames limit (state.output ++ more)

/-- **The loop over the candidates** adds what the walks behind them add. -/
theorem visitAll_adds {ι : Type} {limit : Option ℕ}
    {visit : ι → Except String (Option (Binding × SlotId))} (provenance : List SlotId)
    {walk : QueryFrame → WalkState → Except String (Bool × WalkState)}
    {find : ι → Option (Binding × SlotId)} {found : QueryFrame → List QueryFrame}
    {candidates : List ι} (hvisit : ∀ i ∈ candidates, visit i = .ok (find i))
    (hwalk : ∀ frame, Adds limit (walk frame) (found frame)) :
    Adds limit (visitAll visit provenance walk candidates)
      (candidates.flatMap fun i =>
        match find i with
        | none => []
        | some (binding, slot) => found ⟨binding, provenance ++ [slot]⟩) := by
  induction candidates with
  | nil =>
    intro state hstate
    refine ⟨state, ?_, ?_⟩
    · simp [visitAll, hstate]
    · simp [keptFrames_of_not_reached hstate]
  | cons i candidates ih =>
    intro state hstate
    have ih' := ih fun j hj => hvisit j (List.mem_cons_of_mem _ hj)
    rw [List.flatMap_cons]
    unfold visitAll
    rw [hvisit i List.mem_cons_self]
    rcases hfind : find i with _ | ⟨binding, slot⟩
    · simp only [List.nil_append]
      exact ih' state hstate
    simp only
    set more := found ⟨binding, provenance ++ [slot]⟩ with hmore
    obtain ⟨state₁, hstep, houtput⟩ := hwalk ⟨binding, provenance ++ [slot]⟩
      { state with
        metrics := { state.metrics with bindingsEmitted := state.metrics.bindingsEmitted + 1 } }
      hstate
    rw [hstep]
    simp only [← hmore] at houtput ⊢
    cases hreached : limitReached limit (state.output ++ more) with
    | true =>
      refine ⟨state₁, ?_, ?_⟩
      · rw [← List.append_assoc, limitReached_append hreached]
      · rw [houtput, ← List.append_assoc, keptFrames_append hreached]
    | false =>
      have houtput' : state₁.output = state.output ++ more := by
        rw [houtput, keptFrames_of_not_reached hreached]
      obtain ⟨state₂, hrest, hfinal⟩ := ih' state₁ (by rw [houtput']; exact hreached)
      rw [houtput', List.append_assoc] at hrest hfinal
      exact ⟨state₂, hrest, hfinal⟩

namespace QuerySource

variable {ι : Type} {source : QuerySource ι}

theorem Visits.found_eq (h : source.Visits) (pattern : Pattern) (binding : Binding) {i : ι}
    (hi : i ∈ source.candidates pattern binding) :
    source.visit pattern binding i = .ok (source.found pattern binding i) := by
  obtain ⟨result, hresult⟩ := h pattern binding i hi
  unfold QuerySource.found
  rw [hresult]

theorem Visits.walkQuery_adds (h : source.Visits) (options : QueryOptions) (count : ℕ)
    (frame : QueryFrame) (remaining : List Pattern) (hcount : remaining.length = count)
    (depth : ℕ) : Adds options.limit (source.walkQuery options count frame remaining depth)
      (source.solutions options count frame remaining) := by
  induction count generalizing frame remaining depth with
  | zero =>
    intro state hstate
    have hnot := keptFrames_of_not_reached hstate
    refine ⟨{ state with output := state.output ++ [frame] }, ?_, ?_⟩
    · unfold walkQuery solutions
      simp only
      congr 2
      unfold limitReached
      cases options.limit with
      | none => rfl
      | some limit =>
        simp only [Option.any_some, List.length_append, List.length_singleton]
        congr 1
        simp
    · unfold solutions
      show state.output ++ [frame] = _
      unfold limitReached at hstate
      unfold keptFrames
      cases hl : options.limit with
      | none => rfl
      | some limit =>
        simp only [hl, Option.any_some, decide_eq_false_iff_not, not_le] at hstate
        refine (List.take_of_length_le ?_).symm
        simp only [List.length_append, List.length_singleton]
        omega
  | succ count ih =>
    have hne : remaining ≠ [] := by
      rintro rfl
      simp at hcount
    have hlt := chosenIndex_lt source options hne frame.binding
    intro state hstate
    unfold walkQuery solutions
    simp only [List.getElem?_eq_getElem hlt]
    exact visitAll_adds frame.provenance
      (fun i hi => h.found_eq remaining[source.chosenIndex options remaining frame.binding]
        frame.binding hi)
      (fun frame' => ih frame'
        (remaining.eraseIdx (source.chosenIndex options remaining frame.binding))
        (by rw [List.length_eraseIdx_of_lt hlt]; omega) (depth + 1)) _ hstate

/-- **The rows of a query** are those of the solutions that its limit keeps. -/
theorem Visits.query_rows (h : source.Visits) (patterns : List Pattern) (options : QueryOptions) :
    ∃ result, source.query patterns options = .ok result ∧
      result.rows =
        finishRows options (keptFrames options.limit (source.allSolutions patterns options)) := by
  have hempty : limitReached options.limit ([] : List QueryFrame) = false := by
    unfold limitReached
    cases options.limit <;> simp
  obtain ⟨state, hwalk, houtput⟩ := h.walkQuery_adds options patterns.length ⟨.new, []⟩ patterns
    rfl 0 ⟨[], [], ⟨0, 0⟩⟩ hempty
  unfold query
  rw [hwalk]
  exact ⟨_, rfl, by rw [houtput]; rfl⟩

end QuerySource

/-! ## Rows -/

theorem QueryFrame.rank_injective : Function.Injective QueryFrame.rank := by
  rintro ⟨⟨entries, hs⟩, provenance⟩ ⟨⟨entries', hs'⟩, provenance'⟩ h
  obtain ⟨h1, h2⟩ := Prod.mk.inj (toLex_inj.1 h)
  obtain rfl : entries = entries' :=
    List.map_injective_iff.2 (fun _ _ h => toLex_inj.1 h) h1
  obtain rfl : provenance = provenance' :=
    List.map_injective_iff.2 (fun ⟨a⟩ ⟨b⟩ h => congrArg SlotId.mk h) h2
  rfl

/-- The sorted frames do not depend on the order of the walk. -/
theorem sortFrames_perm {xs ys : List QueryFrame} (h : xs.Perm ys) :
    sortFrames xs = sortFrames ys := by
  have hsorted (zs : List QueryFrame) :
      (sortFrames zs).Pairwise fun left right => left.rank ≤ right.rank :=
    List.pairwise_insertionSort (fun left right : QueryFrame => left.rank ≤ right.rank) zs
  have hperm : (sortFrames xs).Perm (sortFrames ys) :=
    (List.perm_insertionSort _ xs).trans (h.trans (List.perm_insertionSort _ ys).symm)
  exact hperm.eq_of_pairwise
    (fun x y _ _ hxy hyx => QueryFrame.rank_injective (le_antisymm hxy hyx))
    (hsorted xs) (hsorted ys)

/-- The frames with a binding, in their order. -/
def framesOf (frames : List QueryFrame) (binding : Binding) : List QueryFrame :=
  frames.filter fun frame => frame.binding = binding

/-- Two lists have the same frames for each binding, in the same order. -/
def AgreeByBinding (xs ys : List QueryFrame) : Prop :=
  ∀ binding, framesOf xs binding = framesOf ys binding

theorem AgreeByBinding.perm {xs ys : List QueryFrame} (h : AgreeByBinding xs ys) : xs.Perm ys := by
  rw [List.perm_iff_count]
  intro frame
  have hcount (zs : List QueryFrame) :
      zs.count frame = (framesOf zs frame.binding).count frame :=
    (List.count_filter (by simp)).symm
  rw [hcount xs, hcount ys, h]

/-- A retained frame is the first one of its binding. -/
theorem mem_retainDistinct {frames : List QueryFrame} {seen : List Binding} {frame : QueryFrame} :
    frame ∈ retainDistinct seen frames ↔
      frame.binding ∉ seen ∧ (framesOf frames frame.binding).head? = some frame := by
  induction frames generalizing seen with
  | nil => simp [retainDistinct, framesOf]
  | cons x frames ih =>
    unfold retainDistinct framesOf
    by_cases hx : x.binding ∈ seen
    · rw [if_pos hx, ih]
      refine and_congr_right fun hnot => ?_
      have hne : x.binding ≠ frame.binding := fun heq => hnot (heq ▸ hx)
      rw [List.filter_cons_of_neg (by simpa using hne)]
      rfl
    · rw [if_neg hx, List.mem_cons, ih]
      by_cases heq : x.binding = frame.binding
      · rw [List.filter_cons_of_pos (by simpa using heq), List.head?_cons, Option.some_inj]
        rw [heq] at hx
        constructor
        · rintro (rfl | ⟨hnot, -⟩)
          · exact ⟨hx, rfl⟩
          · simp [heq] at hnot
        · rintro ⟨-, rfl⟩
          exact .inl rfl
      · rw [List.filter_cons_of_neg (by simpa using heq)]
        have hne : frame ≠ x := by
          rintro rfl
          exact heq rfl
        have hne' : frame.binding ≠ x.binding := Ne.symm heq
        simp only [hne, false_or, List.mem_cons, hne', framesOf]

theorem nodup_retainDistinct (frames : List QueryFrame) (seen : List Binding) :
    (retainDistinct seen frames).Nodup := by
  induction frames generalizing seen with
  | nil => exact List.nodup_nil
  | cons x frames ih =>
    unfold retainDistinct
    split
    · exact ih seen
    · refine List.nodup_cons.2 ⟨fun hmem => ?_, ih _⟩
      exact (mem_retainDistinct.1 hmem).1 List.mem_cons_self

theorem AgreeByBinding.retainDistinct {xs ys : List QueryFrame} (h : AgreeByBinding xs ys) :
    (retainDistinct [] xs).Perm (retainDistinct [] ys) := by
  refine (List.perm_ext_iff_of_nodup (nodup_retainDistinct _ _) (nodup_retainDistinct _ _)).2
    fun frame => ?_
  rw [mem_retainDistinct, mem_retainDistinct, h]

/-- **Frames that agree binding by binding** give the same rows. -/
theorem finishRows_congr {xs ys : List QueryFrame} (h : AgreeByBinding xs ys)
    (options : QueryOptions) : finishRows options xs = finishRows options ys := by
  unfold finishRows
  by_cases hd : options.distinct = true
  · rw [if_pos hd, if_pos hd, sortFrames_perm h.retainDistinct]
  · rw [if_neg hd, if_neg hd, sortFrames_perm h.perm]

end ForthDB
