import ForthDB.Vm.Simulation

/-!
# Planning of the file-backed controller

The durable controller plans each epoch with a materializer of its own, made from
nothing but the base's allocator. `durablePlan` is that step of `commit_durable_epoch`
and of `derive_prepared_batch`.

* `Published w`: the worlds such a database can hold.
* `durablePlan_agrees_iff`: the plan agrees with the reference `derive_epoch_world`
  exactly when the base has no records, or no intent gets to read one.
-/

namespace ForthDB

/-- The planning step of `commit_durable_epoch` and `derive_prepared_batch`: an `error` is a
panic, of the materializer or of the `expect` on its result. -/
def durablePlan (base : World) (intents : List QueuedIntent) (validators : List Validator) :
    Except String EpochPlan :=
  match (VmEpochMaterializer.new base.nextEntity).materialize base intents validators with
  | .ok ((plan, _), _) => .ok plan
  | .error (.panic message) => .error message
  | .error (.error message) => .error s!"vm materialize: {message}"

/-- The worlds that a file-backed database publishes: read back from its frames, committed
strictly, or planned by the durable controller. -/
inductive Published : World → Prop
  | genesis : Published .genesis
  | reopened {fs : List CommitFrame} {w : World} : World.reconstruct fs = .ok w → Published w
  | committed {w : World} {ops : List Operation} {c : CandidateWorld} : Published w →
      CandidateWorld.construct w ops = .ok (.ok c) →
      Published (c.intoWorld c.commitFrame w.history)
  | planned {w : World} {is : List QueuedIntent} {vs : List Validator} {plan : EpochPlan} :
      Published w → durablePlan w is vs = .ok plan → Published plan.tail

/-- What the loop of `derive_epoch_world` keeps, whatever the validators say. -/
structure EpochWorkspace.Sound (s : EpochWorkspace) (a : WorldState) : Prop where
  applied : ∃ b, a.applyAll s.operations = some b ∧ StateHolds (s.kernel, s.nextEntity) b

theorem EpochWorkspace.intent_sound {s : EpochWorkspace} {a : WorldState} (h : s.Sound a)
    (vs : List Validator) (i : QueuedIntent) : (s.intent vs i).2.Sound a := by
  obtain ⟨b, hb, hk⟩ := h.applied
  unfold EpochWorkspace.intent
  simp only [bind, Except.bind, pure, Except.pure]
  cases ForthDB.checkPreconditions s.predecessorId s.kernel.resolve i.preconditions with
  | error e => exact h
  | ok u =>
    simp only
    cases resolveOperationsFrom s.nextEntity i.space i.operations with
    | error e => exact h
    | ok p =>
      obtain ⟨ops, entities⟩ := p
      simp only
      cases hc : CandidateWorld.constructFromState s.predecessorId s.predecessorVersion
        s.nextEntity s.operationCount s.kernel ops with
      | error e => exact h
      | ok c =>
        simp only [Except.mapError]
        cases runValidators c vs with
        | error e => exact h
        | ok u =>
          obtain ⟨b', hb', hk', ho, -⟩ := CandidateWorld.applyAll_of_construct hk hc
          refine ⟨b', ?_, hk'⟩
          show a.applyAll (s.operations ++ c.operations) = some b'
          rw [ho, WorldState.applyAll_append, hb]
          exact hb'

theorem EpochWorkspace.intents_sound {s : EpochWorkspace} {a : WorldState} (h : s.Sound a)
    (vs : List Validator) (is : List QueuedIntent) : (s.intents vs is).2.Sound a := by
  induction is generalizing s with
  | nil => exact h
  | cons i is ih => exact ih (EpochWorkspace.intent_sound h vs i)

/-- The tail of a plan is its base, or the world of its successor. -/
theorem EpochPlan.tail_assemble (base : World) (ds : List Decision) (succ : World × CommitFrame) :
    (EpochPlan.assemble base ds succ).tail = base ∨
      (EpochPlan.assemble base ds succ).tail = succ.1 := by
  unfold EpochPlan.assemble
  split
  · exact .inr rfl
  · exact .inl rfl

/-- A world whose history has no mapped prefix, and what it replays. -/
structure World.Plain (w : World) (a : WorldState) : Prop where
  replays : w.Replays w.history a
  noPrefix : w.historyPrefix = none

theorem World.plain_of_replays {w : World} {fs : List CommitFrame} {a : WorldState}
    (h : w.Replays fs a) (hp : w.historyPrefix = none) : w.Plain a := by
  have hf := h.frames
  simp only [World.frames, hp] at hf
  exact ⟨by rw [Except.ok.inj hf]; exact h, hp⟩

/-- The loop decides every intent. -/
theorem EpochWorkspace.length_intents (s : EpochWorkspace) (vs : List Validator)
    (is : List QueuedIntent) : (s.intents vs is).1.length = is.length := by
  induction is generalizing s with
  | nil => rfl
  | cons i is ih => exact congrArg (· + 1) (ih (s.intent vs i).2)

theorem EpochState.length_intents (s : EpochState) (is : List QueuedIntent) :
    (s.intents is).1.length = is.length := by
  induction is generalizing s with
  | nil => rfl
  | cons i is ih => exact congrArg (· + 1) (ih (s.intent i).2)

/-- A plan is assembled on a plain world `w`, with a successor that is plain and continues
its history. -/
def EpochPlan.Assembled (w : World) (is : List QueuedIntent) (plan : EpochPlan) : Prop :=
  ∃ ds succ, plan = .assemble w ds succ ∧ ds.length = is.length ∧
    ∃ b, succ.1.Plain b ∧ succ.1.history = w.history ++ [succ.2]

/-- A validated epoch is assembled. -/
theorem deriveEpochWorld_assembled {w : World} {a : WorldState} (h : w.Plain a)
    {is : List QueuedIntent} {vs : List Validator} {plan : EpochPlan}
    (hp : deriveEpochWorld w is vs = .ok plan) : plan.Assembled w is := by
  obtain ⟨k, hk, hs⟩ := h.replays.kernel
  unfold deriveEpochWorld at hp
  rw [hk] at hp
  obtain rfl := Except.ok.inj hp
  have hlen := (EpochWorkspace.start w k).length_intents vs is
  have h0 : (EpochWorkspace.start w k).Sound a := ⟨⟨a, rfl, hs⟩⟩
  obtain ⟨b, hb, hkb⟩ := (EpochWorkspace.intents_sound h0 vs is).applied
  exact ⟨_, _, rfl, hlen, b, World.plain_of_replays (CandidateWorld.intoWorld_holds
    h.replays.chained hb hkb rfl rfl rfl h.replays.operationCount).toReplays rfl, rfl⟩

/-- **Every plan of the durable controller** is assembled on its base. -/
theorem durablePlan_assembled {w : World} {a : WorldState} (h : w.Plain a)
    {is : List QueuedIntent} {vs : List Validator} {plan : EpochPlan}
    (hp : durablePlan w is vs = .ok plan) : plan.Assembled w is := by
  unfold durablePlan VmEpochMaterializer.materialize at hp
  by_cases hvs : vs ≠ []
  · simp only [if_pos hvs] at hp
    cases hd : deriveEpochWorld w is vs with
    | error e => simp [hd] at hp
    | ok q =>
      have hq := deriveEpochWorld_assembled h hd
      rw [hd] at hp
      simp only at hp
      cases hf : q.frames.head? with
      | none =>
        rw [hf] at hp
        obtain rfl := Except.ok.inj hp
        exact hq
      | some f =>
        rw [hf] at hp
        simp only at hp
        cases hm : (VmEpochMaterializer.new w.nextEntity).applyCommitted f.operations with
        | error e => rw [hm] at hp; cases e <;> cases hp
        | ok m =>
          rw [hm] at hp
          obtain rfl := Except.ok.inj hp
          exact hq
  · simp only [if_neg hvs] at hp
    rcases VmEpochMaterializer.deriveVmEpoch_spec (VmEpochMaterializer.new_holds w.nextEntity)
      (VmEpochMaterializer.new_tight w.nextEntity) (w := w) rfl is with
      ⟨-, m', names', hd, -⟩ | ⟨-, halt, hd⟩
    · rw [hd] at hp
      obtain rfl := Except.ok.inj hp
      obtain ⟨ops, hops, hb⟩ :=
        EpochState.intents_operations (EpochState.start w ⟨.empty, 0, w.nextEntity⟩) is
      -- the accepted operations apply to the real base as well
      obtain ⟨b', hb', hn'⟩ := WorldState.applyAll_next (c := a) h.replays.next hb
      refine ⟨_, _, rfl, EpochState.length_intents _ is, b', ?_, rfl⟩
      rw [hops, ← hn']
      exact World.plain_of_replays (World.fromVmEpoch_replays h.replays hb' _ _) h.noPrefix
    · rw [hd] at hp
      cases halt <;> cases hp

theorem EpochPlan.Assembled.plain {w : World} {a : WorldState} (h : w.Plain a)
    {is : List QueuedIntent} {plan : EpochPlan} (hp : plan.Assembled w is) :
    ∃ b, plan.tail.Plain b := by
  obtain ⟨ds, succ, rfl, -, b, hb, -⟩ := hp
  rcases EpochPlan.tail_assemble w ds succ with ht | ht
  · rw [ht]; exact ⟨a, h⟩
  · rw [ht]; exact ⟨b, hb⟩

/-- A plan that decides every intent, on the base `w`. -/
def EpochPlan.Decided (w : World) (is : List QueuedIntent) (plan : EpochPlan) : Prop :=
  ∃ ds succ, plan = .assemble w ds succ ∧ ds.length = is.length

theorem EpochPlan.Assembled.decided {w : World} {is : List QueuedIntent} {plan : EpochPlan}
    (h : plan.Assembled w is) : plan.Decided w is := by
  obtain ⟨ds, succ, hplan, hlen, -⟩ := h
  exact ⟨ds, succ, hplan, hlen⟩

/-- The outcomes of a plan, and the frame and the world of those it accepted. -/
theorem EpochPlan.Decided.outcomes {w : World} {is : List QueuedIntent} {plan : EpochPlan}
    (h : plan.Decided w is) :
    plan.outcomes.length = is.length ∧
      ∀ x, .accepted x ∈ plan.outcomes → x.world = plan.tail ∧ plan.frames = [x.frame] := by
  obtain ⟨ds, succ, rfl, hlen⟩ := h
  unfold EpochPlan.assemble
  split
  · refine ⟨by simp [outcomesOf, hlen], fun x hx => ?_⟩
    simp only [outcomesOf, List.mem_map] at hx
    obtain ⟨⟨d, i⟩, -, hd⟩ := hx
    cases d with
    | ok entities => cases hd; exact ⟨rfl, rfl⟩
    | error e => cases hd
  · rename_i hnone
    have hdec := congrArg List.length (decision_rejectionsOf (by simpa using hnone))
    refine ⟨by simpa [positioned, hlen] using hdec, fun x hx => ?_⟩
    simp only [rejectionsOf, List.mem_filterMap] at hx
    obtain ⟨⟨d, i⟩, -, hd⟩ := hx
    cases d <;> cases hd

/-- A plan without frames stays on its base; any other continues its history by one frame. -/
theorem EpochPlan.Assembled.frames {w : World} {is : List QueuedIntent} {plan : EpochPlan}
    (h : plan.Assembled w is) :
    (plan.frames = [] ∧ plan.tail = w) ∨
      plan.frames ≠ [] ∧ ∃ b, plan.tail.Plain b ∧ plan.tail.history = w.history ++ plan.frames := by
  obtain ⟨ds, succ, rfl, -, b, hb, hh⟩ := h
  unfold EpochPlan.assemble
  split
  · exact .inr ⟨by simp, b, hb, hh⟩
  · exact .inl ⟨rfl, rfl⟩

/-- **Published worlds replay their history.** -/
theorem Published.plain {w : World} (h : Published w) : ∃ a, w.Plain a := by
  induction h with
  | genesis => exact ⟨_, World.plain_of_replays World.genesis_holds.toReplays rfl⟩
  | reopened h =>
    obtain ⟨a, ha, hp⟩ := World.reconstruct_holds h
    exact ⟨a, World.plain_of_replays ha.toReplays hp⟩
  | @committed w ops c _ hc ih =>
    obtain ⟨a, ha⟩ := ih
    obtain ⟨k, hk, hs⟩ := ha.replays.kernel
    unfold CandidateWorld.construct at hc
    rw [hk] at hc
    obtain ⟨b, hb, hkb, ho, hid, hv, hw, hbv, hoc⟩ :=
      CandidateWorld.applyAll_of_construct hs (Except.ok.inj hc)
    refine ⟨b, World.plain_of_replays (CandidateWorld.intoWorld_holds ha.replays.chained
      (by rw [ho]; exact hb) hkb hw hbv ?_ ?_).toReplays rfl⟩
    · rw [hid, hw, hv, ho, ← hkb.next]
    · rw [hoc]; exact ha.replays.operationCount
  | planned _ hp ih =>
    obtain ⟨a, ha⟩ := ih
    exact (durablePlan_assembled ha hp).plain ha

/-! ## Agreement with the reference -/

/-- The durable plan and the reference plan exist and cannot be told apart. -/
def DurableAgrees (w : World) (is : List QueuedIntent) : Prop :=
  ∃ p q, durablePlan w is [] = .ok p ∧ deriveEpochWorld w is [] = .ok q ∧ p.summary = q.summary

/-- Whether preconditions refuse an intent before one of them reads a defined slot; `refused`
says what happens behind them. -/
def refusesUnread (id : WorldId) (resolve : SlotId → Option Fact) (refused : Bool) :
    List IntentPrecondition → Bool
  | [] => refused
  | .expectedWorld expected :: rest =>
    expected ≠ id || refusesUnread id resolve refused rest
  | .expectedSlot slot expected :: rest =>
    resolve slot = none && (expected ≠ none || refusesUnread id resolve refused rest)

/-- The intent is refused before it reads a defined slot. -/
def QueuedIntent.refusedUnread (i : QueuedIntent) (w : World) (k : ForthDb) : Bool :=
  refusesUnread w.id k.resolve (!(resolveOperationsFrom w.nextEntity i.space i.operations).toBool)
    i.preconditions

/-- A slot refusal reports what the slot resolves to. -/
theorem actual_of_slotPrecondition {id : WorldId} {top : SlotId → Option Fact}
    {ps : List IntentPrecondition} {slot : SlotId} {expected actual : Option Fact}
    (h : checkPreconditions id top ps = .error (.slotPrecondition slot expected actual)) :
    actual = top slot := by
  induction ps with
  | nil => cases h
  | cons p ps ih =>
    cases p with
    | expectedWorld world =>
      simp only [checkPreconditions] at h
      split at h
      · cases h
      · exact ih h
    | expectedSlot slot' expected' =>
      simp only [checkPreconditions] at h
      split at h
      · cases h; rfl
      · exact ih h

/-- Behind the preconditions only an unknown temporary can refuse an intent. -/
theorem unknown_of_resolveOperations {space n : ℕ} {entities : EntityMap}
    {ops : List IntentOperation} {e : IntentRejection}
    (h : resolveOperations space n entities ops = .error e) :
    ∃ t, e = .unknownTemporaryEntity t := by
  have hatom : ∀ {es : EntityMap} {a : IntentAtom} {e : IntentRejection},
      a.resolve space es = .error e → ∃ t, e = .unknownTemporaryEntity t := by
    intro es a e ha
    cases a with
    | entity x => cases ha
    | literal l => cases ha
    | temporary t =>
      simp only [IntentAtom.resolve] at ha
      split at ha
      · cases ha; exact ⟨t, rfl⟩
      · split at ha
        · cases ha
        · cases ha; exact ⟨t, rfl⟩
  induction ops generalizing n entities with
  | nil => cases h
  | cons op ops ih =>
    cases op with
    | allocateEntity t =>
      simp only [resolveOperations] at h
      split at h
      · cases h; exact ⟨t, rfl⟩
      · cases hr : resolveOperations space (n + 1) (entities.insert t ⟨n⟩) ops with
        | error e' => rw [hr] at h; cases h; exact ih hr
        | ok p => rw [hr] at h; cases h
    | define slot fact =>
      simp only [resolveOperations, IntentFact.resolve, bind, Except.bind] at h
      cases hs : fact.subject.resolve space entities with
      | error e' => rw [hs] at h; cases h; exact hatom hs
      | ok s =>
        cases ho : fact.object.resolve space entities with
        | error e' => simp only [hs, ho] at h; cases h; exact hatom ho
        | ok o =>
          simp only [hs, ho, pure, Except.pure] at h
          cases hr : resolveOperations space n entities ops with
          | error e' => rw [hr] at h; cases h; exact ih hr
          | ok p => rw [hr] at h; cases h
    | forget slot =>
      simp only [resolveOperations, bind, Except.bind] at h
      cases hr : resolveOperations space n entities ops with
      | error e' => rw [hr] at h; cases h; exact ih hr
      | ok p => rw [hr] at h; cases h

/-- The checks of an intent, with the outcome `r` behind its preconditions. -/
theorem refusesUnread_iff {α : Type} (id : WorldId) (top : SlotId → Option Fact)
    {r : Except IntentRejection α} (hr : ∀ e, r = .error e → ∃ t, e = .unknownTemporaryEntity t)
    (ps : List IntentPrecondition) :
    refusesUnread id top (!r.toBool) ps = true ↔
      ∃ e, (checkPreconditions id (fun _ => none) ps).bind (fun _ => r) = .error e ∧
        (checkPreconditions id top ps).bind (fun _ => r) = .error e := by
  induction ps with
  | nil =>
    simp only [refusesUnread, checkPreconditions, Except.bind]
    cases r with
    | error e => simp [Except.toBool]
    | ok x => simp [Except.toBool]
  | cons p ps ih =>
    cases p with
    | expectedWorld world =>
      simp only [refusesUnread, checkPreconditions, Bool.or_eq_true, decide_eq_true_eq]
      by_cases hw : world ≠ id
      · simp [hw, Except.bind]
      · rw [if_neg hw, if_neg hw, ← ih]
        simp [hw]
    | expectedSlot slot expected =>
      simp only [refusesUnread, checkPreconditions, Bool.and_eq_true, Bool.or_eq_true,
        decide_eq_true_eq]
      -- an error behind a slot refusal reports what its own slot resolves to
      have hactual : ∀ {t : SlotId → Option Fact} {s : SlotId} {x y : Option Fact},
          (checkPreconditions id t ps).bind (fun _ => r) = .error (.slotPrecondition s x y) →
          y = t s := by
        intro t s x y h
        cases hc : checkPreconditions id t ps with
        | error e =>
          rw [hc] at h
          obtain rfl : e = .slotPrecondition s x y := Except.error.inj h
          exact actual_of_slotPrecondition hc
        | ok u =>
          rw [hc] at h
          obtain ⟨t', ht'⟩ := hr _ h
          cases ht'
      cases htop : top slot with
      | none =>
        by_cases he : expected = none
        · subst he
          simp only [ne_eq, not_true_eq_false, if_false, ← ih]
          simp
        · simp [he, Ne.symm he, Except.bind]
      | some f =>
        simp only [reduceCtorEq, false_and, false_iff, not_exists]
        rintro e ⟨h1, h2⟩
        by_cases he : expected = none
        · -- the reference refuses and reports the fact, which an empty base cannot
          subst he
          rw [if_pos (by simp)] at h2
          obtain rfl := Except.error.inj h2
          rw [if_neg (by simp)] at h1
          have := hactual h1
          cases this
        · -- the durable plan refuses and reports an absent slot
          rw [if_pos (Ne.symm he)] at h1
          obtain rfl := Except.error.inj h1
          by_cases hf : some f ≠ expected
          · rw [if_pos hf] at h2
            have := Except.error.inj h2
            cases this
          · rw [if_neg hf] at h2
            have := hactual h2
            rw [htop] at this
            cases this

/-- An abstract epoch that accepts nothing stays where it is. -/
theorem EpochState.intents_rejected {s : EpochState} {is : List QueuedIntent} :
    (s.intents is).1.any Decision.isAccepted = false ↔
      ∀ i ∈ is, ∃ e, s.state.decide s.id i = .error e := by
  induction is with
  | nil => simp [intents]
  | cons i is ih =>
    simp only [intents, List.any_cons, Bool.or_eq_false_iff, List.forall_mem_cons]
    cases hd : s.state.decide s.id i with
    | error e =>
      have hs : s.intent i = (.error e, s) := by unfold EpochState.intent; rw [hd]
      rw [hs, ih]
      simp [Decision.isAccepted, Except.toBool]
    | ok p =>
      have hs : (s.intent i).1 = .ok p.2 := by unfold EpochState.intent; rw [hd]
      rw [hs]
      simp [Decision.isAccepted, Except.toBool]

theorem EpochState.intents_of_rejected {s : EpochState} {is : List QueuedIntent}
    (h : ∀ i ∈ is, ∃ e, s.state.decide s.id i = .error e) :
    (s.intents is).1 = is.map (fun i => (s.state.decide s.id i).map Prod.snd) ∧
      (s.intents is).2 = s := by
  induction is with
  | nil => exact ⟨rfl, rfl⟩
  | cons i is ih =>
    rw [List.forall_mem_cons] at h
    obtain ⟨e, he⟩ := h.1
    obtain ⟨h1, h2⟩ := ih h.2
    have hs : s.intent i = (.error e, s) := by unfold EpochState.intent; rw [he]
    simp only [intents, hs, h1, h2, List.map_cons, he, Except.map]
    exact ⟨trivial, trivial⟩

/-- The base as the durable planner sees it: its allocator and nothing else. -/
def bareState (w : World) : WorldState := ⟨.empty, 0, w.nextEntity⟩

/-- The new materializer can carry out what the planner accepts on the bare base: all its
entities have atom cells and its records fit the arenas. -/
def BareFeasible (w : World) (is : List QueuedIntent) : Prop :=
  (VmEpochMaterializer.new w.nextEntity).Feasible (bareState w)
    ((EpochState.start w (bareState w)).intents is).2.operations

theorem positioned_injective {xs ys : List Decision} (h : positioned xs = positioned ys) :
    xs = ys := by
  have key : ∀ zs : List Decision, (positioned zs).map Prod.snd = zs := by
    intro zs
    unfold positioned
    rw [List.map_map]
    exact List.zipIdx_map_fst 0 zs
  rw [← key xs, ← key ys, h]

/-- The durable plan is the abstract epoch on the bare base. -/
theorem durablePlan_spec (w : World) (is : List QueuedIntent) :
    (BareFeasible w is ∧ ∃ p, durablePlan w is [] = .ok p ∧
      p.summary = EpochState.summary w ((EpochState.start w (bareState w)).intents is).1
        ((EpochState.start w (bareState w)).intents is).2) ∨
    (¬ BareFeasible w is ∧ ∃ message, durablePlan w is [] = .error message) := by
  unfold durablePlan VmEpochMaterializer.materialize
  simp only [ne_eq, not_true_eq_false, if_false]
  rcases VmEpochMaterializer.deriveVmEpoch_spec (VmEpochMaterializer.new_holds w.nextEntity)
    (VmEpochMaterializer.new_tight w.nextEntity) (w := w) rfl is with
    ⟨hf, m', names', hd, -⟩ | ⟨hf, halt, hd⟩
  · refine .inl ⟨hf, _, by rw [hd]; rfl, ?_⟩
    rw [summary_assemble]
    rfl
  · refine .inr ⟨hf, ?_⟩
    rw [hd]
    cases halt <;> exact ⟨_, rfl⟩

theorem WorldState.decide_eq_bind (a : WorldState) (id : WorldId) (i : QueuedIntent) :
    a.decide id i = (checkPreconditions id a.slots.top i.preconditions).bind
      fun _ => resolveOperationsFrom a.next i.space i.operations := by
  unfold WorldState.decide
  cases checkPreconditions id a.slots.top i.preconditions <;> rfl

/-- An intent is refused unread when both planners refuse it on the base for one reason. -/
theorem refusedUnread_iff {w : World} {a : WorldState} {k : ForthDb}
    (hs : StateHolds (k, w.nextEntity) a) (i : QueuedIntent) :
    i.refusedUnread w k = true ↔
      ∃ e, (bareState w).decide w.id i = .error e ∧ a.decide w.id i = .error e := by
  have htop : k.resolve = a.slots.top := funext fun slot => ForthDb.resolve_eq hs.kernel slot
  have hn : w.nextEntity = a.next := hs.next
  rw [WorldState.decide_eq_bind, WorldState.decide_eq_bind, ← hn]
  unfold QueuedIntent.refusedUnread
  rw [htop]
  exact refusesUnread_iff w.id a.slots.top (fun e he => unknown_of_resolveOperations he)
    i.preconditions

/-- A base without records is the bare base. -/
theorem eq_bareState {w : World} {a : WorldState} {k : ForthDb}
    (hs : StateHolds (k, w.nextEntity) a) (hr : a.records = 0) : a = bareState w := by
  have hsize : a.slots.size = 0 := by
    rw [← ForthDb.activeSlotCount_eq hs.kernel]
    have h1 : k.store.head.size ≤ k.store.log.length := hs.kernel.size_le
    have h2 : k.store.log.length = a.records := hs.records
    show k.store.head.size = 0
    omega
  have hnext : w.nextEntity = a.next := hs.next
  ext1
  · exact StackMap.eq_empty_of_size hsize
  · exact hr
  · exact hnext.symm

/-- **When durable planning agrees with the reference**: the base has no records and the
accepted operations can be carried out, or no intent gets to read a defined slot. -/
theorem durablePlan_agrees_iff {w : World} (hw : Published w) {k : ForthDb}
    (hk : w.kernel = .ok k) (is : List QueuedIntent) :
    DurableAgrees w is ↔
      (k.recordCount = 0 ∧ BareFeasible w is) ∨ ∀ i ∈ is, i.refusedUnread w k = true := by
  obtain ⟨a, ha⟩ := hw.plain
  obtain ⟨k', hk', hs⟩ := ha.replays.kernel
  rw [hk] at hk'
  obtain rfl : k = k' := Except.ok.inj hk'
  have hrec : k.recordCount = a.records := hs.records
  obtain ⟨q, hq, hqs⟩ := deriveEpochWorld_eq ha.replays is
  constructor
  · rintro ⟨p, q', hp, hq', hpq⟩
    rw [hq] at hq'
    obtain rfl : q = q' := Except.ok.inj hq'
    rcases durablePlan_spec w is with ⟨hf, p', hp', hps⟩ | ⟨-, message, hp'⟩
    swap
    · rw [hp] at hp'; cases hp'
    rw [hp] at hp'
    obtain rfl : p = p' := Except.ok.inj hp'
    by_cases hr : a.records = 0
    · exact .inl ⟨hrec.trans hr, hf⟩
    right
    rw [hps, hqs] at hpq
    set B := (EpochState.start w (bareState w)).intents is with hB
    set A := (EpochState.start w a).intents is with hA
    have hds : B.1 = A.1 := by
      apply positioned_injective
      have := congrArg PlanSummary.decisions hpq
      unfold EpochState.summary at this
      split at this <;> split at this <;> exact this
    -- an accepted intent shows in the record count of the tail
    have hno : B.1.any Decision.isAccepted = false := by
      by_contra hyes
      rw [Bool.not_eq_false] at hyes
      have hyes' := hyes
      rw [hds] at hyes'
      unfold EpochState.summary at hpq
      rw [if_pos hyes, if_pos hyes'] at hpq
      simp only [PlanSummary.mk.injEq, List.cons.injEq, CommitFrame.mk.injEq] at hpq
      obtain ⟨-, ⟨⟨-, -, -, -, -, hops⟩, -⟩, -, -, hcount⟩ := hpq
      obtain ⟨xs, hxs, hbx⟩ := EpochState.intents_operations (EpochState.start w (bareState w)) is
      obtain ⟨ys, hys, hby⟩ := EpochState.intents_operations (EpochState.start w a) is
      have h1 := WorldState.applyAll_records hbx
      have h2 := WorldState.applyAll_records hby
      rw [← hB] at hxs h1
      rw [← hA] at hys h2
      rw [hxs, hys] at hops
      have hxy : xs = ys := hops
      rw [hcount, h2, hxy] at h1
      have : (bareState w).records = 0 := rfl
      simp only [EpochState.start] at h1
      omega
    have hnoA := hno
    rw [hds] at hnoA
    have hrB := EpochState.intents_rejected.1 hno
    have hrA := EpochState.intents_rejected.1 hnoA
    have h1 := (EpochState.intents_of_rejected hrB).1
    have h2 := (EpochState.intents_of_rejected hrA).1
    rw [← hB, hds] at h1
    rw [← hA] at h2
    rw [h2] at h1
    intro i hi
    rw [refusedUnread_iff hs]
    obtain ⟨e, he⟩ := hrB i hi
    obtain ⟨e', he'⟩ := hrA i hi
    have heq := List.map_inj_left.1 h1 i hi
    rw [he, he'] at heq
    obtain rfl : e' = e := Except.error.inj heq
    exact ⟨e', he, he'⟩
  · rintro (⟨hr, hf⟩ | hall)
    · rw [hrec] at hr
      obtain rfl := eq_bareState hs hr
      rcases durablePlan_spec w is with ⟨-, p, hp, hps⟩ | ⟨hno, -⟩
      · exact ⟨p, q, hp, hq, hps.trans hqs.symm⟩
      · exact absurd hf hno
    · have hboth : ∀ i ∈ is, ∃ e, (bareState w).decide w.id i = .error e ∧
          a.decide w.id i = .error e := fun i hi => (refusedUnread_iff hs i).1 (hall i hi)
      have hrB : ∀ i ∈ is, ∃ e, (EpochState.start w (bareState w)).state.decide
          (EpochState.start w (bareState w)).id i = .error e := by
        intro i hi
        obtain ⟨e, he, -⟩ := hboth i hi
        exact ⟨e, he⟩
      have hrA : ∀ i ∈ is, ∃ e, (EpochState.start w a).state.decide
          (EpochState.start w a).id i = .error e := by
        intro i hi
        obtain ⟨e, -, he⟩ := hboth i hi
        exact ⟨e, he⟩
      have hnoA := EpochState.intents_rejected.2 hrA
      obtain ⟨hdB, hsB⟩ := EpochState.intents_of_rejected hrB
      obtain ⟨hdA, -⟩ := EpochState.intents_of_rejected hrA
      have hds : ((EpochState.start w (bareState w)).intents is).1 =
          ((EpochState.start w a).intents is).1 := by
        rw [hdB, hdA]
        refine List.map_congr_left fun i hi => ?_
        obtain ⟨e, he, he'⟩ := hboth i hi
        have h1 : (EpochState.start w (bareState w)).state.decide
          (EpochState.start w (bareState w)).id i = .error e := he
        have h2 : (EpochState.start w a).state.decide (EpochState.start w a).id i = .error e := he'
        rw [h1, h2]
      have hf : BareFeasible w is := by
        unfold BareFeasible
        rw [hsB]
        exact ⟨by simp [EpochState.start], Nat.zero_le _, Nat.zero_le _⟩
      rcases durablePlan_spec w is with ⟨-, p, hp, hps⟩ | ⟨hno, -⟩
      · refine ⟨p, q, hp, hq, ?_⟩
        rw [hps, hqs]
        unfold EpochState.summary
        simp only [hnoA, hds, Bool.false_eq_true, if_false]
      · exact absurd hf hno

/-- Nothing is published yet, so an intent that defines a slot is planned as by the reference. -/
theorem durablePlan_agrees_genesis :
    DurableAgrees .genesis [(QueuedIntent.new 0).define ⟨"s"⟩ ⟨.literal ⟨"x"⟩, ⟨"p"⟩, .literal ⟨"y"⟩⟩] :=
  (durablePlan_agrees_iff .genesis (k := .new) rfl _).2 (.inl ⟨rfl, by
    unfold BareFeasible VmEpochMaterializer.Feasible
    decide +kernel⟩)

/-- A frame that defines one slot. -/
def definingFrame : CommitFrame :=
  let operations := [.define ⟨"s"⟩ ⟨.literal ⟨"x"⟩, ⟨"p"⟩, .literal ⟨"y"⟩⟩]
  { parentWorld := .genesis, resultingWorld := calculateWorldId .genesis 1 1 operations,
    parentVersion := 0, resultingVersion := 1, resultingAllocator := 1, operations := operations }

/-- The world of that frame. -/
def definedWorld : World := (World.reconstruct [definingFrame]).toOption.getD .genesis

/-- **The durable plan misses the facts of its base**: it accepts an intent that expects a
defined slot to be absent. -/
theorem durablePlan_misses_base :
    Published definedWorld ∧
      (durablePlan definedWorld [(QueuedIntent.new 0).expectAbsent ⟨"s"⟩] []).map
        (fun p => p.summary.decisions.map fun d => d.2.isAccepted) = .ok [true] ∧
      (deriveEpochWorld definedWorld [(QueuedIntent.new 0).expectAbsent ⟨"s"⟩] []).map
        (fun p => p.summary.decisions) = .ok [(0, .error (.slotPrecondition ⟨"s"⟩ none
          (some ⟨.literal ⟨"x"⟩, ⟨"p"⟩, .literal ⟨"y"⟩⟩)))] ∧
      ¬ DurableAgrees definedWorld [(QueuedIntent.new 0).expectAbsent ⟨"s"⟩] := by
  have h1 : (World.reconstruct [definingFrame]).toBool = true := by decide +kernel
  have h2 : (durablePlan definedWorld [(QueuedIntent.new 0).expectAbsent ⟨"s"⟩] []).map
      (fun p => p.summary.decisions.map fun d => d.2.isAccepted) = .ok [true] := by
    decide +kernel
  have h3 : (deriveEpochWorld definedWorld [(QueuedIntent.new 0).expectAbsent ⟨"s"⟩] []).map
      (fun p => p.summary.decisions) = .ok [(0, .error (.slotPrecondition ⟨"s"⟩ none
        (some ⟨.literal ⟨"x"⟩, ⟨"p"⟩, .literal ⟨"y"⟩⟩)))] := by decide +kernel
  refine ⟨?_, h2, h3, ?_⟩
  · cases hr : World.reconstruct [definingFrame] with
    | error e => rw [hr] at h1; cases h1
    | ok w =>
      have hw : definedWorld = w := by unfold definedWorld; rw [hr]; rfl
      rw [hw]
      exact .reopened hr
  · rintro ⟨p, q, hp, hq, hpq⟩
    rw [hp] at h2
    rw [hq] at h3
    have h4 : p.summary.decisions.map (fun d => d.2.isAccepted) = [true] := Except.ok.inj h2
    have h5 : q.summary.decisions = _ := Except.ok.inj h3
    rw [hpq, h5] at h4
    revert h4
    decide

end ForthDB
