import ForthDB.Queue.DurablePlanning
import ForthDB.Queue.WorldTrees

/-!
# Temporaries and the allocator

An intent numbers its temporaries; `resolve_operations_from` binds them to the entities behind the
predecessor's allocator, and the kernel of the predecessor has to be at the same one.

* `CachedWorld.intents`: the loop of `derive_epoch`, with the kernels that it stores.
* `bindings_of_resolved`: what the temporaries of an intent are bound to.
* `EpochWorkspace.intents_admissible`, `CachedWorld.intents_admissible`: on a sound world no intent
  of an epoch fails at its candidate.
* `resolution_admissible`: in a run whose images are faithful every world admits every intent.
  `candidate_rejected`: without that one does not.
-/

namespace ForthDB

/-- The temporaries, bound in order from `n`. -/
def EntityMap.bindAll (entities : EntityMap) (n : ℕ) : List TempEntity → EntityMap
  | [] => entities
  | t :: ts => EntityMap.bindAll (entities.insert t ⟨n⟩) (n + 1) ts

/-- Temporaries that are numbered from `m` are bound from `n`, and no others. -/
theorem EntityMap.lookup_bindAll (entities : EntityMap) (n m k space : ℕ) (t : TempEntity) :
    (EntityMap.bindAll entities n ((List.range' m k).map (TempEntity.mk space))).lookup t =
      if t.space = space ∧ m ≤ t.index ∧ t.index < m + k then some ⟨n + (t.index - m)⟩
      else entities.lookup t := by
  induction k generalizing entities n m with
  | zero =>
    have hnone : ¬ (t.space = space ∧ m ≤ t.index ∧ t.index < m + 0) := by omega
    rw [if_neg hnone]
    rfl
  | succ k ih =>
    rw [List.range'_succ, List.map_cons, EntityMap.bindAll, ih]
    obtain ⟨s, j⟩ := t
    simp only
    -- the first of them, one of the others, or none
    by_cases hs : s = space
    · subst hs
      rcases lt_trichotomy j m with hlt | rfl | hgt
      · rw [if_neg (by omega), if_neg (by omega), AList.lookup_insert_ne]
        intro heq
        cases heq
        omega
      · rw [if_neg (by omega), if_pos (by omega), AList.lookup_insert, Nat.sub_self, Nat.add_zero]
      · by_cases hk : j < m + (k + 1)
        · rw [if_pos (by omega), if_pos (by omega)]
          have hsame : n + 1 + (j - (m + 1)) = n + (j - m) := by omega
          rw [hsame]
        · rw [if_neg (by omega), if_neg (by omega), AList.lookup_insert_ne]
          intro heq
          cases heq
          omega
    · rw [if_neg (fun h => hs h.1), if_neg (fun h => hs h.1), AList.lookup_insert_ne]
      intro heq
      cases heq
      exact hs rfl

/-- Operations that resolve bind what they allocate. -/
theorem bindAll_of_resolved {space n : ℕ} {entities entities' : EntityMap}
    {ops : List IntentOperation} {os : List Operation}
    (h : resolveOperations space n entities ops = .ok (os, entities')) :
    entities' = EntityMap.bindAll entities n (allocations ops) := by
  induction ops generalizing n entities os with
  | nil =>
    cases h
    rfl
  | cons op ops ih =>
    cases op with
    | allocateEntity temporary =>
      simp only [resolveOperations] at h
      split at h
      · cases h
      · cases hr : resolveOperations space (n + 1) (entities.insert temporary ⟨n⟩) ops with
        | error e =>
          rw [hr] at h
          cases h
        | ok p =>
          rw [hr] at h
          cases h
          exact ih hr
    | define slot fact =>
      simp only [resolveOperations, bind, Except.bind] at h
      split at h
      · cases h
      · split at h
        · cases h
        · rename_i hr
          cases h
          exact ih hr
    | forget slot =>
      simp only [resolveOperations, bind, Except.bind] at h
      split at h
      · cases h
      · rename_i hr
        cases h
        exact ih hr

/-- **What the temporaries of an intent are bound to**: the entities behind the allocator, in
order. -/
theorem bindings_of_resolved {i : QueuedIntent} (hb : i.Built) {n : ℕ} {os : List Operation}
    {entities : EntityMap}
    (h : resolveOperationsFrom n i.space i.operations = .ok (os, entities)) (t : TempEntity) :
    entities.lookup t =
      if t.space = i.space ∧ t.index < i.nextTemporary then some ⟨n + t.index⟩ else none := by
  rw [bindAll_of_resolved h, hb.allocations_eq.1, List.range_eq_range', EntityMap.lookup_bindAll]
  simp only [Nat.zero_le, true_and, Nat.zero_add, Nat.sub_zero]
  rfl

/-! ## `derive_epoch`, with stored kernels -/

namespace CachedWorld

/-- One intent of `derive_epoch`: what `derive_intent` decides, and the next predecessor. -/
def intent (predecessor : CachedWorld) (validators : List Validator) (intent : QueuedIntent) :
    Except String (Decision × CachedWorld) :=
  match predecessor.world.checkPreconditions intent.preconditions with
  | .error message => .error message
  | .ok (.error error) => .ok (.error error, predecessor)
  | .ok (.ok ()) =>
    match resolveOperationsFrom predecessor.world.nextEntity intent.space intent.operations with
    | .error error => .ok (.error error, predecessor)
    | .ok (operations, entities) =>
      match predecessor.kernel with
      | .error message => .error message
      | .ok (kernel, predecessor) =>
        match CandidateWorld.constructFromState predecessor.world.id predecessor.world.version
          predecessor.world.nextEntity predecessor.world.operationCount kernel operations with
        | .error error => .ok (.error (.candidate error), predecessor)
        | .ok candidate =>
          match runValidators candidate validators with
          | .error message => .ok (.error (.validation message), predecessor)
          | .ok () =>
            .ok (.ok entities,
              fresh (candidate.intoWorld candidate.commitFrame predecessor.world.history))

/-- The loop of `derive_epoch`: the decisions, and the last predecessor. -/
def intents (predecessor : CachedWorld) (validators : List Validator) :
    List QueuedIntent → Except String (List Decision × CachedWorld)
  | [] => .ok ([], predecessor)
  | i :: rest =>
    match predecessor.intent validators i with
    | .error message => .error message
    | .ok (decision, predecessor) =>
      (intents predecessor validators rest).map fun (decisions, tail) =>
        (decision :: decisions, tail)

end CachedWorld

/-! ## No candidate fails -/

/-- The decision does not blame a candidate. -/
def Decision.Admissible (d : Decision) : Prop := ∀ e, d ≠ .error (.candidate e)

theorem admissible_of_checkPreconditions {id : WorldId} {top : SlotId → Option Fact}
    {ps : List IntentPrecondition} {e : IntentRejection}
    (h : checkPreconditions id top ps = .error e) : Decision.Admissible (.error e) := by
  induction ps with
  | nil => cases h
  | cons p ps ih =>
    cases p with
    | expectedWorld expected =>
      simp only [checkPreconditions] at h
      split at h
      · cases h
        exact fun _ heq => (by cases heq)
      · exact ih h
    | expectedSlot slot expected =>
      simp only [checkPreconditions] at h
      split at h
      · cases h
        exact fun _ heq => (by cases heq)
      · exact ih h

theorem World.admissible_of_checkPreconditions {w : World} {ps : List IntentPrecondition}
    {e : IntentRejection} (h : w.checkPreconditions ps = .ok (.error e)) :
    Decision.Admissible (.error e) := by
  induction ps with
  | nil => cases h
  | cons p ps ih =>
    cases p with
    | expectedWorld expected =>
      simp only [World.checkPreconditions] at h
      split at h
      · cases h
        exact fun _ heq => (by cases heq)
      · exact ih h
    | expectedSlot slot expected =>
      simp only [World.checkPreconditions] at h
      split at h
      · cases h
      · split at h
        · cases h
          exact fun _ heq => (by cases heq)
        · exact ih h

theorem admissible_of_resolved {n space : ℕ} {ops : List IntentOperation} {e : IntentRejection}
    (h : resolveOperationsFrom n space ops = .error e) : Decision.Admissible (.error e) := by
  obtain ⟨t, rfl⟩ := unknown_of_resolveOperations h
  exact fun _ heq => nomatch heq

/-- **Candidate derivation** succeeds on a kernel in order, for operations that follow on from its
allocator. -/
theorem Leads.constructs {k : ForthDb} {n n' : ℕ} {os : List Operation} (h : Leads n os n')
    (hk : ∃ a, StateHolds (k, n) a) (id : WorldId) (v oc : ℕ) :
    ∃ candidate, CandidateWorld.constructFromState id v n oc k os = .ok candidate ∧
      ∃ b, StateHolds (candidate.kernel, candidate.nextEntity) b := by
  obtain ⟨k', happly, b, hb⟩ := h.applies hk
  have hvalid : k'.validate = .ok () := ForthDb.validate_ok hb.kernel
  unfold CandidateWorld.constructFromState
  simp only [happly, hvalid]
  exact ⟨_, rfl, b, hb⟩

/-- The kernel of the loop is in order, at the loop's allocator. -/
def EpochWorkspace.InOrder (s : EpochWorkspace) : Prop := ∃ a, StateHolds (s.kernel, s.nextEntity) a

/-- One intent of `derive_epoch_world`. -/
theorem EpochWorkspace.intent_admissible {s : EpochWorkspace} (h : s.InOrder)
    (vs : List Validator) (i : QueuedIntent) :
    (s.intent vs i).1.Admissible ∧ (s.intent vs i).2.InOrder := by
  rw [EpochWorkspace.intent_eq]
  unfold EpochWorkspace.candidate
  simp only [bind, Except.bind, pure, Except.pure]
  cases hp : checkPreconditions s.predecessorId s.kernel.resolve i.preconditions with
  | error e => exact ⟨admissible_of_checkPreconditions hp, h⟩
  | ok u =>
    simp only
    cases hr : resolveOperationsFrom s.nextEntity i.space i.operations with
    | error e => exact ⟨admissible_of_resolved hr, h⟩
    | ok p =>
      obtain ⟨os, entities⟩ := p
      obtain ⟨candidate, hc, hb⟩ :=
        (leads_of_resolved hr).constructs h s.predecessorId s.predecessorVersion s.operationCount
      simp only [hc, Except.mapError, validated]
      cases runValidators candidate vs with
      | error message => exact ⟨fun _ heq => (by cases heq), h⟩
      | ok u => exact ⟨fun _ heq => (by cases heq), hb⟩

/-- **`derive_epoch_world`** never blames a candidate on a kernel in order. -/
theorem EpochWorkspace.intents_admissible {s : EpochWorkspace} (h : s.InOrder)
    (vs : List Validator) (is : List QueuedIntent) : ∀ d ∈ (s.intents vs is).1, d.Admissible := by
  induction is generalizing s with
  | nil => exact fun d hd => (nomatch hd)
  | cons i is ih =>
    obtain ⟨hd, hs⟩ := EpochWorkspace.intent_admissible h vs i
    intro d hmem
    rcases List.mem_cons.1 hmem with rfl | hmem
    · exact hd
    · exact ih hs d hmem

namespace CachedWorld

variable {c c' : CachedWorld} {k : ForthDb}

/-- One intent of `derive_epoch`. -/
theorem intent_admissible (h : ∃ k, c.Sound k) {vs : List Validator} {i : QueuedIntent}
    {d : Decision} (hi : c.intent vs i = .ok (d, c')) : d.Admissible ∧ ∃ k, c'.Sound k := by
  unfold CachedWorld.intent at hi
  split at hi
  · cases hi
  · rename_i e hp
    cases hi
    exact ⟨World.admissible_of_checkPreconditions hp, h⟩
  · split at hi
    · rename_i e hr
      cases hi
      exact ⟨admissible_of_resolved hr, h⟩
    · rename_i os entities hr
      obtain ⟨k, hsound⟩ := h
      obtain ⟨c'', hk, hworld, hsound'⟩ := hsound.kernel
      rw [← hworld] at hr
      obtain ⟨candidate, hc, hb⟩ := (leads_of_resolved hr).constructs hsound'.holds
        c''.world.id c''.world.version c''.world.operationCount
      simp only [hk, hc] at hi
      split at hi
      · cases hi
        exact ⟨fun _ heq => (nomatch heq), k, hsound'⟩
      · cases hi
        exact ⟨fun _ heq => (nomatch heq), _, Sound.intoWorld hb rfl _⟩

/-- **`derive_epoch`** never blames a candidate on a sound world. -/
theorem intents_admissible (h : ∃ k, c.Sound k) {vs : List Validator} {is : List QueuedIntent}
    {ds : List Decision} (his : c.intents vs is = .ok (ds, c')) : ∀ d ∈ ds, d.Admissible := by
  induction is generalizing c ds with
  | nil =>
    cases his
    exact fun d hd => (nomatch hd)
  | cons i is ih =>
    unfold CachedWorld.intents at his
    split at his
    · cases his
    · rename_i d c₁ hi
      obtain ⟨hd, hsound⟩ := intent_admissible h hi
      cases hrest : c₁.intents vs is with
      | error message =>
        rw [hrest] at his
        cases his
      | ok p =>
        obtain ⟨ds', c₂⟩ := p
        rw [hrest] at his
        cases his
        intro d' hmem
        rcases List.mem_cons.1 hmem with rfl | hmem
        · exact hd
        · exact ih hsound hrest d' hmem

end CachedWorld

/-- An intent either names an unknown temporary, or its temporaries are the entities behind the
allocator of `c` and its candidate is derived, from the kernel `k`. -/
def CachedWorld.Admits (c : CachedWorld) (k : ForthDb) (i : QueuedIntent) : Prop :=
  (∃ t, resolveOperationsFrom c.world.nextEntity i.space i.operations =
      .error (.unknownTemporaryEntity t)) ∨
    ∃ os entities candidate,
      resolveOperationsFrom c.world.nextEntity i.space i.operations = .ok (os, entities) ∧
      (∀ t : TempEntity, entities.lookup t =
        if t.space = i.space ∧ t.index < i.nextTemporary then some ⟨c.world.nextEntity + t.index⟩
        else none) ∧
      CandidateWorld.constructFromState c.world.id c.world.version c.world.nextEntity
        c.world.operationCount k os = .ok candidate

theorem CachedWorld.Sound.admits {c : CachedWorld} {k : ForthDb} (h : c.Sound k)
    {i : QueuedIntent} (hb : i.Built) : c.Admits k i := by
  cases hr : resolveOperationsFrom c.world.nextEntity i.space i.operations with
  | error e =>
    obtain ⟨t, rfl⟩ := unknown_of_resolveOperations hr
    exact .inl ⟨t, hr⟩
  | ok p =>
    obtain ⟨os, entities⟩ := p
    obtain ⟨candidate, hc, -⟩ := (leads_of_resolved hr).constructs h.holds c.world.id
      c.world.version c.world.operationCount
    exact .inr ⟨os, entities, candidate, hr, bindings_of_resolved hb hr, hc⟩

/-- **Resolution is admissible.** In every run in which images are written only of worlds whose
frames lead to their allocator, every world has a kernel, admits every intent, and neither
`derive_epoch_world` nor `derive_epoch` blames a candidate. -/
theorem resolution_admissible {pool : List CachedWorld}
    {steps : List (List CachedWorld × TreeEvent)} (h : Tree pool steps)
    (hfaithful : ∀ step ∈ steps, step.2.Faithful step.1) :
    ∀ c ∈ pool, ∃ k c', c.kernel = .ok (k, c') ∧ (∀ i : QueuedIntent, i.Built → c.Admits k i) ∧
      (∀ vs is, ∀ d ∈ ((EpochWorkspace.start c.world k).intents vs is).1, d.Admissible) ∧
      ∀ vs is ds tail, c.intents vs is = .ok (ds, tail) → ∀ d ∈ ds, d.Admissible := by
  have hkept : ∀ c ∈ pool, c.Keeps False := h.kept (fun hno => hno.elim) fun _ => hfaithful
  intro c hc
  obtain ⟨k, hsound, -⟩ := hkept c hc
  obtain ⟨c', hk, -, -⟩ := hsound.kernel
  refine ⟨k, c', hk, fun i hb => hsound.admits hb, fun vs is => ?_, fun vs is ds tail his => ?_⟩
  · have hstart : (EpochWorkspace.start c.world k).InOrder := hsound.holds
    exact EpochWorkspace.intents_admissible hstart vs is
  · exact CachedWorld.intents_admissible ⟨k, hsound⟩ his

/-! ## An image of a world that has forgotten its prefix -/

/-- A world, asked for its kernel, and the world that `derive_epoch_world` publishes on it. -/
def CachedWorld.published (c : CachedWorld) (is : List QueuedIntent) :
    Option (CachedWorld × CachedWorld) :=
  match c.kernel with
  | .error _ => none
  | .ok (k, c') =>
    let (ds, s) := (EpochWorkspace.start c.world k).intents [] is
    if ds.any Decision.isAccepted then some (c', .fresh (s.collapsed c.world).1) else none

theorem grows_published {pool : List CachedWorld} {i : ℕ} {c c' d : CachedWorld}
    {is : List QueuedIntent} (hi : pool[i]? = some c) (h : c.published is = some (c', d)) :
    Grows pool (.epoch i is []) (pool.set i c' ++ [d]) := by
  unfold CachedWorld.published at h
  split at h
  · cases h
  · rename_i k c'' hk
    simp only at h
    split at h
    · rename_i haccepted
      obtain ⟨rfl, rfl⟩ := Prod.mk.inj (Option.some.inj h)
      exact .epoch hi hk rfl haccepted
    · cases h

/-- What `derive_epoch_world` and `derive_epoch` decide about an intent. -/
def CachedWorld.decisions (c : CachedWorld) (i : QueuedIntent) :
    Option (List Decision × List Decision) :=
  match c.kernel, c.intents [] [i] with
  | .ok (k, _), .ok (ds, _) => some (((EpochWorkspace.start c.world k).intents [] [i]).1, ds)
  | _, _ => none

/-- The worlds behind an image are those that its own frames lead to. -/
theorem resolution_admissible_mapped : ∃ pool steps, Tree pool steps ∧ pool.length = 3 ∧
    ∀ c ∈ pool, ∃ k c', c.kernel = .ok (k, c') ∧ (∀ i : QueuedIntent, i.Built → c.Admits k i) ∧
      (∀ vs is, ∀ d ∈ ((EpochWorkspace.start c.world k).intents vs is).1, d.Admissible) ∧
      ∀ vs is ds tail, c.intents vs is = .ok (ds, tail) → ∀ d ∈ ds, d.Admissible := by
  have hsome : allocatedRoot.isSome = true := by decide +kernel
  obtain ⟨⟨g, c, d⟩, h⟩ := Option.isSome_iff_exists.1 hsome
  have htree := tree_allocatedRoot h
  exact ⟨_, _, htree, rfl, resolution_admissible htree (htree.faithful clear_allocatedRoot)⟩

/-- **An image of a world that has forgotten its prefix** is mapped to a root whose kernel is behind
its allocator: an intent that allocates fails at its candidate. -/
theorem candidate_rejected : ∃ pool steps c k c' i tail e, Tree pool steps ∧ c ∈ pool ∧
    QueuedIntent.Built i ∧ c.kernel = .ok (k, c') ∧
    ((EpochWorkspace.start c.world k).intents [] [i]).1 = [.error (.candidate e)] ∧
    c.intents [] [i] = .ok ([.error (.candidate e)], tail) := by
  have hsome : (allocatedRoot.bind fun p => (p.2.2.published [(QueuedIntent.new 0).forget ⟨"s"⟩]).bind
      fun q => q.2.mappedRoot.bind fun root => root.decisions allocatesOne) =
      some ([.error (.candidate (.allocatorOperationMismatch 2 1))],
        [.error (.candidate (.allocatorOperationMismatch 2 1))]) := by decide +kernel
  obtain ⟨⟨g, c, d⟩, hroot, hsome⟩ := Option.bind_eq_some_iff.1 hsome
  obtain ⟨⟨d', f⟩, hpublished, hsome⟩ := Option.bind_eq_some_iff.1 hsome
  obtain ⟨root, hmapped, hdecisions⟩ := Option.bind_eq_some_iff.1 hsome
  have hepoch := (tree_allocatedRoot hroot).grow (grows_published (i := 2) rfl hpublished)
  have htree := hepoch.grow (grows_mappedRoot (i := 3) rfl hmapped)
  unfold CachedWorld.decisions at hdecisions
  split at hdecisions
  · rename_i k root' ds tail hk hds
    obtain ⟨hworld, hepoch⟩ := Prod.mk.inj (Option.some.inj hdecisions)
    subst hepoch
    exact ⟨_, _, root, k, root', allocatesOne, tail, _, htree,
      List.mem_append_right _ (List.mem_singleton.2 rfl), .entity (.new 0) (by decide), hk, hworld,
      hds⟩
  · cases hdecisions

end ForthDB
