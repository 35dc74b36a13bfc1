import ForthDB.Controller.Speculative
import Mathlib.Data.List.Flatten

/-!
# Runs of the speculative controller

* `Planned`: what was settled so far, each epoch planned on the world that was published
  when it was settled; an epoch that failed leaves that world.
* `Accounted`: every intent that the worker took from the channel is answered or in its
  hands, and it claims and settles them in their order.
* `stands`: what the worker relies on at its place.
-/

namespace ForthDB

open FileStore

/-- The world records the frames, and `reconstruct` rebuilds it from them. -/
def World.HeadOf (w : World) (fs : List CommitFrame) : Prop :=
  w.frames = .ok fs ∧ ∃ r, World.reconstruct fs = .ok r ∧ r.id = w.id ∧ r.version = w.version ∧
    r.nextEntity = w.nextEntity ∧ ∀ slot, ∃ fact, w.resolve slot = .ok fact ∧ r.resolve slot = .ok fact

theorem World.Plain.headOf {w : World} {a : WorldState} (h : w.Plain a) : w.HeadOf w.history := by
  obtain ⟨r, hr⟩ := World.reconstruct_iff.2 ⟨_, _, _, h.replays.chained⟩
  obtain ⟨b, hb, -⟩ := World.reconstruct_holds hr
  obtain ⟨hid, hv, rfl⟩ := hb.chained.det h.replays.chained
  exact ⟨h.replays.frames, r, hr, hid, hv, hb.next.trans h.replays.next.symm,
    fun slot => ⟨_, h.replays.resolve slot, hb.resolve slot⟩⟩

namespace Controller.Speculative

variable {maxBatch : ℕ} {intents : ℕ → QueuedIntent} {database : World} {opened : FileEpochStore}

/-- The batch was planned on the world `w`. -/
def PreparedDurableBatch.PlannedOn (intents : ℕ → QueuedIntent) (w : World)
    (p : PreparedDurableBatch) : Prop :=
  ∃ vs, durablePlan w (p.source.map intents) vs = .ok p.plan

theorem plannedOn_of_derive {source : List ℕ} {w : World} {vs : List Validator}
    {p : PreparedDurableBatch} (h : derivePreparedBatch intents source w vs = .ok p) :
    p.PlannedOn intents w ∧ p.source = source := by
  unfold derivePreparedBatch at h
  split at h
  · rename_i plan hplan
    cases h
    exact ⟨⟨vs, hplan⟩, rfl⟩
  · cases h

/-- The epochs that were settled, from the opened world to the published one. -/
inductive Planned (intents : ℕ → QueuedIntent) (database : World) :
    List (PreparedDurableBatch × Bool) → World → Prop
  | nil : Planned intents database [] database
  | published {settled : List (PreparedDurableBatch × Bool)} {w : World} {p : PreparedDurableBatch} :
      Planned intents database settled w → p.PlannedOn intents w →
      Planned intents database (settled ++ [(p, true)]) p.plan.tail
  | failed {settled : List (PreparedDurableBatch × Bool)} {w : World} {p : PreparedDurableBatch} :
      Planned intents database settled w → p.PlannedOn intents w →
      Planned intents database (settled ++ [(p, false)]) w

/-- The epochs that were published. -/
def publishedEpochs (settled : List (PreparedDurableBatch × Bool)) : List PreparedDurableBatch :=
  (settled.filter Prod.snd).map Prod.fst

theorem publishedEpochs_append (xs ys : List (PreparedDurableBatch × Bool)) :
    publishedEpochs (xs ++ ys) = publishedEpochs xs ++ publishedEpochs ys := by
  simp [publishedEpochs]

theorem mem_publishedEpochs {settled : List (PreparedDurableBatch × Bool)} {p : PreparedDurableBatch} :
    p ∈ publishedEpochs settled ↔ (p, true) ∈ settled := by
  simp [publishedEpochs]

/-- **The published world** has the frames of the opened one and of every published epoch. -/
theorem Planned.plain (hd : ∃ a, database.Plain a) {settled : List (PreparedDurableBatch × Bool)}
    {w : World} (h : Planned intents database settled w) :
    (∃ a, w.Plain a) ∧
      w.history = database.history ++ (publishedEpochs settled).flatMap (·.plan.frames) := by
  induction h with
  | nil => exact ⟨hd, by simp [publishedEpochs]⟩
  | @published settled w p _ hp ih =>
    obtain ⟨⟨a, ha⟩, hh⟩ := ih
    obtain ⟨vs, hplan⟩ := hp
    have has := durablePlan_assembled ha hplan
    refine ⟨has.plain ha, ?_⟩
    rw [publishedEpochs_append, List.flatMap_append, ← List.append_assoc, ← hh]
    rcases has.frames with ⟨hf, ht⟩ | ⟨-, b, -, hb⟩
    · simp [publishedEpochs, hf, ht]
    · simpa [publishedEpochs] using hb
  | failed _ _ ih => simpa [publishedEpochs] using ih

/-! ## What the worker has in its hands -/

/-- The calls whose intents the commands carry. -/
def tickets (commands : List Command) : List ℕ :=
  commands.filterMap fun
    | .intent call => some call
    | .barrier _ => none

theorem mem_tickets {commands : List Command} {t : ℕ} : t ∈ tickets commands ↔ .intent t ∈ commands := by
  unfold tickets
  rw [List.mem_filterMap]
  constructor
  · rintro ⟨c, hc, ht⟩
    cases c with
    | intent call => cases ht; exact hc
    | barrier call => cases ht
  · intro h
    exact ⟨_, h, rfl⟩

@[simp] def Stage.calls : Stage → List ℕ
  | .first | .afterEmpty _ => []
  | .inFlight p _ _ => p.source

@[simp] def Successor.calls : Successor → List ℕ
  | none => []
  | some (.ok p) => p.source
  | some (.error (source, _)) => source

namespace SpeculativePlace

/-- The claimed calls whose epoch is not settled, in the order of their claims. -/
@[simp] def openCalls : SpeculativePlace → List ℕ
  | .successor stage _ => stage.calls
  | .claim stage batch _ | .derive stage batch _ => stage.calls ++ batch
  | .prepare p _ _ | .submit p _ _ _ => p.source
  | .complete p _ s _ _ | .publish p s _ _ => p.source ++ Successor.calls s
  | .settle s _ _ _ => Successor.calls s
  | .deliver _ next => next.openCalls
  | _ => []

/-- The calls whose reply is under way. -/
@[simp] def replies : SpeculativePlace → List ℕ
  | .deliver answers next => answers.map Prod.fst ++ next.replies
  | _ => []

/-- The commands that were taken and neither claimed nor answered. -/
@[simp] def commands : SpeculativePlace → List Command
  | .check c pending | .reason c pending => c :: pending
  | .drain _ cs => cs
  | .recv pending | .successor _ pending | .claim _ _ pending | .derive _ _ pending
  | .prepare _ _ pending | .submit _ _ _ pending | .complete _ _ _ _ pending
  | .publish _ _ _ pending | .settle _ _ _ pending | .poison _ pending | .state _ pending
  | .poisonStore _ pending | .takeSender _ pending => pending
  | .deliver _ next => next.commands
  | _ => []

/-- The commands that were set aside. -/
@[simp] def aside : SpeculativePlace → List Command
  | .check _ pending | .reason _ pending => pending
  | .drain _ _ => []
  | .deliver _ next => next.aside
  | p => p.commands

/-- The call that is taken and can still be claimed. -/
@[simp] def unclaimed : SpeculativePlace → List ℕ
  | .check c _ => tickets [c]
  | .deliver _ next => next.unclaimed
  | _ => []

/-- The epoch that is written next, or is in flight, or is about to be published. -/
@[simp] def written : SpeculativePlace → Option PreparedDurableBatch
  | .prepare p _ _ | .submit p _ _ _ | .complete p _ _ _ _ | .publish p _ _ _ => some p
  | .successor (.inFlight p _ _) _ | .claim (.inFlight p _ _) _ _
  | .derive (.inFlight p _ _) _ _ => some p
  | _ => none

/-- The worker answers for the ticket. -/
def Held (p : SpeculativePlace) (t : ℕ) : Prop :=
  t ∈ p.openCalls ∨ t ∈ p.replies ∨ .intent t ∈ p.commands

end SpeculativePlace

def Shared.Answered (a : Shared) (t : ℕ) : Prop := ∃ outcome, (t, outcome) ∈ a.answers

/-- What the worker took from the channel, and what became of it. -/
structure Accounted (a : Shared) (p : SpeculativePlace) (taken : List Command) : Prop where
  sent : a.sent = taken ++ a.control.queue
  commands : ∀ c ∈ p.commands, c ∈ taken
  aside : ∀ c ∈ p.aside, ∃ f, c = .barrier f
  held : ∀ t, .intent t ∈ taken → p.Held t ∨ a.Answered t
  claimed : (a.claimed ++ p.unclaimed).Sublist (tickets taken)
  settled : ∃ earlier, a.claimed = earlier ++ p.openCalls ∧
    (a.settled.flatMap (·.1.source)).Sublist earlier

namespace Accounted

variable {a a' : Shared} {p p' : SpeculativePlace} {taken : List Command}

/-- A step that takes nothing, claims nothing and settles nothing. -/
theorem quiet (h : Accounted a p taken) (hsent : a'.sent = a.sent)
    (hqueue : a'.control.queue = a.control.queue) (hclaimed : a'.claimed = a.claimed)
    (hsettled : a'.settled = a.settled) (hopen : p'.openCalls <:+ p.openCalls)
    (hcommands : ∀ c ∈ p'.commands, c ∈ p.commands)
    (haside : ∀ c ∈ p'.aside, ∃ f, c = .barrier f)
    (hunclaimed : p'.unclaimed.Sublist p.unclaimed)
    (hheld : ∀ t, p.Held t ∨ a.Answered t → p'.Held t ∨ a'.Answered t) : Accounted a' p' taken where
  sent := by rw [hsent, hqueue]; exact h.sent
  commands := fun c hc => h.commands c (hcommands c hc)
  aside := haside
  held := fun t ht => hheld t (h.held t ht)
  claimed := by
    rw [hclaimed]
    exact ((List.Sublist.refl _).append hunclaimed).trans h.claimed
  settled := by
    obtain ⟨gone, hgone⟩ := hopen
    obtain ⟨earlier, h1, h2⟩ := h.settled
    refine ⟨earlier ++ gone, ?_, ?_⟩
    · rw [hclaimed, h1, ← hgone, List.append_assoc]
    · rw [hsettled]
      exact h2.trans (List.sublist_append_left _ _)

/-- A step that takes a command from the channel and sets it aside. -/
theorem receive (h : Accounted a p taken) {c : Command} {queue : List Command}
    (hq : a.control.queue = c :: queue) (hun : p.unclaimed = []) (hsent : a'.sent = a.sent)
    (hqueue : a'.control.queue = queue) (hclaimed : a'.claimed = a.claimed)
    (hsettled : a'.settled = a.settled) (hopen : p'.openCalls = p.openCalls)
    (hcommands : ∀ x ∈ p'.commands, x = c ∨ x ∈ p.commands)
    (haside : ∀ c ∈ p'.aside, ∃ f, c = .barrier f)
    (hunclaimed : p'.unclaimed.Sublist (tickets [c]))
    (hheld : ∀ t, p.Held t ∨ a.Answered t ∨ .intent t = c → p'.Held t ∨ a'.Answered t) :
    Accounted a' p' (taken ++ [c]) where
  sent := by rw [hsent, hqueue, h.sent, hq, List.append_assoc, List.singleton_append]
  commands := by
    intro x hx
    rcases hcommands x hx with rfl | hx
    · simp
    · simp [h.commands x hx]
  aside := haside
  held := by
    intro t ht
    rw [List.mem_append, List.mem_singleton] at ht
    rcases ht with ht | ht
    · rcases h.held t ht with ht | ht
      · exact hheld t (.inl ht)
      · exact hheld t (.inr (.inl ht))
    · exact hheld t (.inr (.inr ht))
  claimed := by
    have hc := h.claimed
    rw [hun, List.append_nil] at hc
    rw [hclaimed, tickets, List.filterMap_append]
    exact hc.append hunclaimed
  settled := by
    rw [hclaimed, hsettled, hopen]
    exact h.settled

/-- A step that claims the intent at the head of the channel. -/
theorem claim (h : Accounted a p taken) {call : ℕ} {queue : List Command}
    (hq : a.control.queue = .intent call :: queue) (hun : p.unclaimed = [])
    (hun' : p'.unclaimed = []) (hsent : a'.sent = a.sent) (hqueue : a'.control.queue = queue)
    (hclaimed : a'.claimed = a.claimed ++ [call]) (hsettled : a'.settled = a.settled)
    (hopen : p'.openCalls = p.openCalls ++ [call]) (hcommands : p'.commands = p.commands)
    (haside : p'.aside = p.aside) (hreplies : p'.replies = p.replies)
    (hanswers : a'.answers = a.answers) : Accounted a' p' (taken ++ [.intent call]) where
  sent := by rw [hsent, hqueue, h.sent, hq, List.append_assoc, List.singleton_append]
  commands := by
    intro x hx
    rw [hcommands] at hx
    simp [h.commands x hx]
  aside := by rw [haside]; exact h.aside
  held := by
    intro t ht
    unfold SpeculativePlace.Held Shared.Answered
    rw [hopen, hreplies, hcommands, hanswers]
    rw [List.mem_append, List.mem_singleton] at ht
    rcases ht with ht | ht
    · rcases h.held t ht with (ht | ht) | ht
      · exact .inl (.inl (List.mem_append_left _ ht))
      · exact .inl (.inr ht)
      · exact .inr ht
    · cases ht
      exact .inl (.inl (by simp))
  claimed := by
    have hc := h.claimed
    rw [hun, List.append_nil] at hc
    rw [hclaimed, hun', List.append_nil, tickets, List.filterMap_append]
    exact hc.append (.refl _)
  settled := by
    obtain ⟨earlier, h1, h2⟩ := h.settled
    exact ⟨earlier, by rw [hclaimed, h1, hopen, List.append_assoc], by rw [hsettled]; exact h2⟩

/-- The step that claims an intent that was taken. -/
theorem claimTaken {call : ℕ} {pending : List Command}
    (h : Accounted a (.check (.intent call) pending) taken) :
    Accounted (a.claim call) (.claim .first [call] pending) taken where
  sent := h.sent
  commands := fun c hc => h.commands c (List.mem_cons_of_mem _ hc)
  aside := h.aside
  held := by
    intro t ht
    rcases h.held t ht with (ht | ht | ht) | ht
    · cases ht
    · cases ht
    · rcases List.mem_cons.1 ht with ht | ht
      · cases ht
        exact .inl (.inl (by simp))
      · exact .inl (.inr (.inr ht))
    · exact .inr ht
  claimed := by simpa [Shared.claim, tickets] using h.claimed
  settled := by
    obtain ⟨earlier, h1, h2⟩ := h.settled
    refine ⟨earlier, ?_, h2⟩
    simp only [SpeculativePlace.openCalls, List.append_nil] at h1
    simp [Shared.claim, h1]

/-- A step that settles the first of the open epochs. -/
theorem settle (h : Accounted a p taken) {batch : PreparedDurableBatch} {outcome : Bool}
    (hun : p'.unclaimed = []) (hsent : a'.sent = a.sent)
    (hqueue : a'.control.queue = a.control.queue) (hclaimed : a'.claimed = a.claimed)
    (hsettled : a'.settled = a.settled ++ [(batch, outcome)])
    (hopen : p.openCalls = batch.source ++ p'.openCalls)
    (hcommands : p'.commands = p.commands) (haside : p'.aside = p.aside)
    (hreplies : ∀ t, t ∈ p.replies ∨ t ∈ batch.source → t ∈ p'.replies)
    (hanswers : a'.answers = a.answers) : Accounted a' p' taken where
  sent := by rw [hsent, hqueue]; exact h.sent
  commands := by rw [hcommands]; exact h.commands
  aside := by rw [haside]; exact h.aside
  held := by
    intro t ht
    unfold SpeculativePlace.Held Shared.Answered
    rw [hcommands, hanswers]
    rcases h.held t ht with (ht | ht | ht) | ht
    · rw [hopen, List.mem_append] at ht
      rcases ht with ht | ht
      · exact .inl (.inr (.inl (hreplies t (.inr ht))))
      · exact .inl (.inl ht)
    · exact .inl (.inr (.inl (hreplies t (.inl ht))))
    · exact .inl (.inr (.inr ht))
    · exact .inr ht
  claimed := by
    rw [hclaimed, hun, List.append_nil]
    exact (List.sublist_append_left _ _).trans h.claimed
  settled := by
    obtain ⟨earlier, h1, h2⟩ := h.settled
    refine ⟨earlier ++ batch.source, ?_, ?_⟩
    · rw [hclaimed, h1, hopen, List.append_assoc]
    · rw [hsettled, List.flatMap_append]
      simpa using h2.append (.refl batch.source)

end Accounted

/-! ## Routing -/

/-- A plan has an outcome for every call of its batch. -/
def PreparedDurableBatch.Routed (p : PreparedDurableBatch) : Prop :=
  p.plan.outcomes.length = p.source.length

theorem PreparedDurableBatch.PlannedOn.routed {w : World} {a : WorldState} (hw : w.Plain a)
    {p : PreparedDurableBatch} (h : p.PlannedOn intents w) : p.Routed := by
  obtain ⟨vs, hplan⟩ := h
  have hlen := (durablePlan_assembled hw hplan).decided.outcomes.1
  rwa [List.length_map] at hlen

theorem calls_routeSuccess {p : PreparedDurableBatch} (h : p.Routed) :
    (routeSuccess p).map Prod.fst = p.source := by
  have hfst : (routeSuccess p).map Prod.fst = (p.source.zip p.plan.outcomes).map Prod.fst := by
    unfold routeSuccess
    rw [List.map_map]
    refine List.map_congr_left ?_
    rintro ⟨call, outcome⟩ -
    cases outcome <;> rfl
  rw [hfst, List.map_fst_zip h.ge]

theorem calls_routeFailure {p : PreparedDurableBatch} (h : p.Routed) (e : FileEpochStoreError) :
    (routeFailure p e).map Prod.fst = p.source := by
  have hfst : (routeFailure p e).map Prod.fst = (p.source.zip p.plan.outcomes).map Prod.fst := by
    unfold routeFailure
    rw [List.map_map]
    refine List.map_congr_left ?_
    rintro ⟨call, outcome⟩ -
    cases outcome <;> rfl
  rw [hfst, List.map_fst_zip h.ge]

theorem calls_routeStopped (source : List ℕ) (reason : String) :
    (routeStopped source reason).map Prod.fst = source := by
  simp [routeStopped, Function.comp_def]

/-! ## The accounts of the worker -/

/-- Where a derived batch leads keeps what the worker has in its hands. -/
theorem start_holds (derived : Except (List ℕ × String) PreparedDurableBatch)
    (vs : List Validator) (pending : List Command) :
    (start derived vs pending).openCalls <:+ Successor.calls (some derived) ∧
      (start derived vs pending).commands = pending ∧ (start derived vs pending).aside = pending ∧
      (start derived vs pending).unclaimed = [] ∧
      ∀ t, t ∈ Successor.calls (some derived) →
        t ∈ (start derived vs pending).openCalls ∨ t ∈ (start derived vs pending).replies := by
  cases derived with
  | ok p => exact ⟨List.suffix_refl _, rfl, rfl, rfl, fun t ht => .inl ht⟩
  | error e =>
    obtain ⟨source, reason⟩ := e
    refine ⟨List.nil_suffix, rfl, rfl, rfl, fun t ht => .inr ?_⟩
    simpa [start, calls_routeStopped] using ht

theorem calls_derived (source : List ℕ) (w : World) (vs : List Validator) :
    Successor.calls (some (derivePreparedBatch intents source w vs)) = source := by
  unfold derivePreparedBatch
  cases durablePlan w (source.map intents) vs <;> rfl

/-- What a step of the worker leaves of its accounts. -/
def Keeps (a a' : Shared) (p' : SpeculativePlace) : Prop :=
  a'.sent = a.sent ∧ ∃ taken, Accounted a' p' taken

section Accounts

variable {a a' : Shared} {p p' : SpeculativePlace} {taken : List Command}

/-- The worker's hands are as they were. -/
theorem held_same (hopen : p'.openCalls = p.openCalls) (hreplies : p'.replies = p.replies)
    (hcommands : p'.commands = p.commands) (t : ℕ) (h : p.Held t ∨ a.Answered t) :
    p'.Held t ∨ a.Answered t := by
  unfold SpeculativePlace.Held at *
  rwa [hopen, hreplies, hcommands]

/-- A batch is derived on the published world. -/
theorem Accounted.start (h : Accounted a p taken) {source : List ℕ} (w : World)
    (vs : List Validator) {pending : List Command} (hopen : p.openCalls = source)
    (hreplies : p.replies = []) (hcommands : p.commands = pending) (haside : p.aside = pending) :
    Accounted a (start (derivePreparedBatch intents source w vs) vs pending) taken := by
  obtain ⟨h1, h2, h3, h4, h5⟩ :=
    start_holds (derivePreparedBatch intents source w vs) vs pending
  rw [calls_derived] at h1 h5
  refine h.quiet rfl rfl rfl rfl (by rw [hopen]; exact h1) (by rw [h2, hcommands]; simp)
    (by rw [h3, ← haside]; exact h.aside) (by rw [h4]; simp) fun t ht => ?_
  unfold SpeculativePlace.Held at *
  rw [hopen, hreplies, hcommands] at ht
  rw [h2]
  rcases ht with (ht | ht | ht) | ht
  · rcases h5 t ht with ht | ht
    · exact .inl (.inl ht)
    · exact .inl (.inr (.inl ht))
  · cases ht
  · exact .inl (.inr (.inr ht))
  · exact .inr ht

theorem recv_accounted {pending : List Command} (h : Accounted a (.recv pending) taken)
    (hs : workerStep maxBatch intents a (.recv pending) = some (a', p')) : Keeps a a' p' := by
  cases pending with
  | cons c pending =>
    cases hs
    refine ⟨rfl, taken, h.quiet rfl rfl rfl rfl (List.suffix_refl _) (fun _ hc => hc)
      (fun x hx => ?_) ?_ (held_same rfl rfl rfl)⟩
    · exact h.aside x (List.mem_cons_of_mem _ hx)
    · obtain ⟨f, rfl⟩ := h.aside c List.mem_cons_self
      simp [tickets]
  | nil =>
    simp only [workerStep] at hs
    split at hs
    · rename_i c queue hq
      cases hs
      refine ⟨rfl, _, h.receive hq rfl rfl rfl rfl rfl rfl (by simp) (by simp) (.refl _) ?_⟩
      intro t ht
      unfold SpeculativePlace.Held at *
      simpa [or_comm, or_assoc, Shared.Answered, Shared.take] using ht
    · split at hs
      · cases hs
        exact ⟨rfl, taken, h.quiet rfl rfl rfl rfl (List.suffix_refl _) (by simp) (by simp)
          (.refl _) (held_same rfl rfl rfl)⟩
      · cases hs

theorem check_accounted {c : Command} {pending : List Command}
    (h : Accounted a (.check c pending) taken)
    (hs : workerStep maxBatch intents a (.check c pending) = some (a', p')) : Keeps a a' p' := by
  have hdrain : ∀ reason, Keeps a a (.drain reason (c :: pending)) := fun reason =>
    ⟨rfl, taken, h.quiet rfl rfl rfl rfl (List.suffix_refl _) (fun _ hc => hc) (by simp)
      (by simp) (held_same rfl rfl rfl)⟩
  have hreason : Keeps a a (.reason c pending) :=
    ⟨rfl, taken, h.quiet rfl rfl rfl rfl (List.suffix_refl _) (fun _ hc => hc) h.aside (by simp)
      (held_same rfl rfl rfl)⟩
  cases c with
  | intent call =>
    have hclaim : Keeps a (a.claim call) (.claim .first [call] pending) := ⟨rfl, taken, h.claimTaken⟩
    simp only [workerStep] at hs
    split at hs
    · cases hs; exact hdrain _
    · cases hs; exact hdrain _
    · cases hs; exact hreason
    · cases hs; exact hclaim
    · cases hs; exact hclaim
  | barrier call =>
    have hflush : Keeps a { a with flushed := a.flushed ++ [(call, true)] } (.recv pending) := by
      refine ⟨rfl, taken, h.quiet rfl rfl rfl rfl (List.suffix_refl _)
        (fun c hc => List.mem_cons_of_mem _ hc) h.aside (by simp) fun t ht => ?_⟩
      simpa [SpeculativePlace.Held, Shared.Answered] using ht
    simp only [workerStep] at hs
    split at hs
    · cases hs; exact hdrain _
    · cases hs; exact hdrain _
    · cases hs; exact hreason
    · cases hs; exact hflush
    · cases hs; exact hflush

theorem reason_accounted {c : Command} {pending : List Command}
    (h : Accounted a (.reason c pending) taken)
    (hs : workerStep maxBatch intents a (.reason c pending) = some (a', p')) : Keeps a a' p' := by
  cases hs
  exact ⟨rfl, taken, h.quiet rfl rfl rfl rfl (List.suffix_refl _) (fun _ hc => hc) (by simp)
    (.refl _) (held_same rfl rfl rfl)⟩

theorem successor_accounted {stage : Stage} {pending : List Command}
    (h : Accounted a (.successor stage pending) taken)
    (hs : workerStep maxBatch intents a (.successor stage pending) = some (a', p')) :
    Keeps a a' p' := by
  have halone : ∀ pending : List Command, (stage.alone pending).openCalls = stage.calls ∧
      (stage.alone pending).replies = [] ∧ (stage.alone pending).commands = pending ∧
      (stage.alone pending).aside = pending ∧ (stage.alone pending).unclaimed = [] := by
    intro pending
    cases stage <;> simp [Stage.alone]
  have hquiet : Keeps a a (stage.alone pending) := by
    obtain ⟨h1, h2, h3, h4, h5⟩ := halone pending
    exact ⟨rfl, taken, h.quiet rfl rfl rfl rfl (by rw [h1]; exact List.suffix_refl _)
      (by rw [h3]; simp) (by rw [h4]; exact h.aside) (by rw [h5]; simp) (held_same h1 h2 h3)⟩
  simp only [workerStep] at hs
  split at hs
  · cases hs
    exact hquiet
  split at hs
  · rename_i call queue hq
    cases hs
    exact ⟨rfl, _, h.claim hq rfl rfl rfl rfl rfl rfl rfl rfl rfl rfl rfl⟩
  · rename_i call queue hq
    cases hs
    obtain ⟨h1, h2, h3, h4, h5⟩ := halone (pending ++ [.barrier call])
    refine ⟨rfl, _, h.receive hq rfl rfl rfl rfl rfl h1 ?_ ?_ (by rw [h5]; simp) ?_⟩
    · rw [h3]
      simp [or_comm]
    · rw [h4]
      simp only [List.mem_append, List.mem_singleton]
      rintro c (hc | rfl)
      · exact h.aside c hc
      · exact ⟨call, rfl⟩
    · intro t ht
      unfold SpeculativePlace.Held at *
      rw [h1, h2, h3]
      simpa [Shared.Answered, Shared.take] using ht
  · cases hs
    exact hquiet

theorem claim_accounted {stage : Stage} {batch : List ℕ} {pending : List Command}
    (h : Accounted a (.claim stage batch pending) taken)
    (hs : workerStep maxBatch intents a (.claim stage batch pending) = some (a', p')) :
    Keeps a a' p' := by
  have hquiet : Keeps a a (.derive stage batch pending) :=
    ⟨rfl, taken, h.quiet rfl rfl rfl rfl (List.suffix_refl _) (fun _ hc => hc) h.aside (.refl _)
      (held_same rfl rfl rfl)⟩
  simp only [workerStep] at hs
  split at hs
  swap
  · cases hs
    exact hquiet
  split at hs
  · rename_i call queue hq
    cases hs
    exact ⟨rfl, _, h.claim hq rfl rfl rfl rfl rfl rfl (by simp) rfl rfl rfl rfl⟩
  · rename_i call queue hq
    cases hs
    refine ⟨rfl, _, h.receive hq rfl rfl rfl rfl rfl rfl (by simp [or_comm]) ?_ (by simp) ?_⟩
    · simp only [SpeculativePlace.aside, SpeculativePlace.commands, List.mem_append,
        List.mem_singleton]
      rintro c (hc | rfl)
      · exact h.aside c hc
      · exact ⟨call, rfl⟩
    · intro t ht
      unfold SpeculativePlace.Held at *
      simpa [Shared.Answered, Shared.take] using ht
  · cases hs
    exact hquiet

theorem derive_accounted {stage : Stage} {batch : List ℕ} {pending : List Command}
    (h : Accounted a (.derive stage batch pending) taken)
    (hs : workerStep maxBatch intents a (.derive stage batch pending) = some (a', p')) :
    Keeps a a' p' := by
  cases stage with
  | first =>
    cases hs
    exact ⟨rfl, taken, h.start _ _ rfl rfl rfl rfl⟩
  | afterEmpty vs =>
    cases hs
    exact ⟨rfl, taken, h.start _ _ rfl rfl rfl rfl⟩
  | inFlight p file vs =>
    cases hs
    have hopen : (SpeculativePlace.complete p file
        (some (derivePreparedBatch intents batch p.plan.tail vs)) vs pending).openCalls =
        (SpeculativePlace.derive (.inFlight p file vs) batch pending).openCalls := by
      simp only [SpeculativePlace.openCalls, calls_derived, Stage.calls]
    exact ⟨rfl, taken, h.quiet rfl rfl rfl rfl (by rw [hopen])
      (fun _ hc => hc) h.aside (.refl _) (held_same hopen rfl rfl)⟩

/-- A failed epoch is settled, and its calls are to be answered. -/
theorem Accounted.fail (h : Accounted a p taken) {batch : PreparedDurableBatch}
    (hroute : batch.Routed) (store : FileEpochStore) (e : FileEpochStoreError)
    {next : SpeculativePlace} (hopen : p.openCalls = batch.source ++ next.openCalls)
    (hcommands : next.commands = p.commands) (haside : next.aside = p.aside)
    (hunclaimed : next.unclaimed = []) (hreplies : p.replies = []) :
    Accounted (a.fail store batch) (.deliver (routeFailure batch e) next) taken := by
  refine h.settle hunclaimed rfl rfl rfl rfl hopen hcommands haside (fun t ht => ?_) rfl
  rw [SpeculativePlace.replies, calls_routeFailure hroute, List.mem_append]
  rw [hreplies] at ht
  rcases ht with ht | ht
  · cases ht
  · exact .inl ht

/-- An epoch is published, and its calls are to be answered. -/
theorem Accounted.publish (h : Accounted a p taken) {batch : PreparedDurableBatch}
    (hroute : batch.Routed) {next : SpeculativePlace}
    (hopen : p.openCalls = batch.source ++ next.openCalls) (hcommands : next.commands = p.commands)
    (haside : next.aside = p.aside) (hunclaimed : next.unclaimed = []) (hreplies : p.replies = []) :
    Accounted (a.publish batch) (.deliver (routeSuccess batch) next) taken := by
  refine h.settle hunclaimed rfl rfl rfl rfl hopen hcommands haside (fun t ht => ?_) rfl
  rw [SpeculativePlace.replies, calls_routeSuccess hroute, List.mem_append]
  rw [hreplies] at ht
  rcases ht with ht | ht
  · cases ht
  · exact .inl ht

theorem prepare_accounted {batch : PreparedDurableBatch} {vs : List Validator}
    {pending : List Command} (h : Accounted a (.prepare batch vs pending) taken)
    (hroute : batch.Routed)
    (hs : workerStep maxBatch intents a (.prepare batch vs pending) = some (a', p')) :
    Keeps a a' p' := by
  simp only [workerStep] at hs
  split at hs
  · cases hs
    exact ⟨rfl, taken, h.publish hroute (by simp) rfl rfl rfl rfl⟩
  split at hs
  · cases hs
    exact ⟨rfl, taken, h.fail hroute _ _ (by simp) rfl rfl rfl rfl⟩
  · cases hs
    exact ⟨rfl, taken, h.quiet rfl rfl rfl rfl (List.suffix_refl _) (fun _ hc => hc) h.aside
      (.refl _) (held_same rfl rfl rfl)⟩

theorem submit_accounted {batch : PreparedDurableBatch} {file : PreparedFileEpoch}
    {vs : List Validator} {pending : List Command}
    (h : Accounted a (.submit batch file vs pending) taken) (hroute : batch.Routed)
    (hs : workerStep maxBatch intents a (.submit batch file vs pending) = some (a', p')) :
    Keeps a a' p' := by
  simp only [workerStep] at hs
  split at hs
  · cases hs
    exact ⟨rfl, taken, h.quiet rfl rfl rfl rfl (List.suffix_refl _) (fun _ hc => hc) h.aside
      (.refl _) (held_same rfl rfl rfl)⟩
  split at hs
  · cases hs
  · cases hs
    exact ⟨rfl, taken, h.fail hroute _ _ (by simp) rfl rfl rfl rfl⟩

theorem complete_accounted {batch : PreparedDurableBatch} {file : PreparedFileEpoch}
    {next : Successor} {vs : List Validator} {pending : List Command}
    (h : Accounted a (.complete batch file next vs pending) taken) (hroute : batch.Routed)
    (hs : workerStep maxBatch intents a (.complete batch file next vs pending) = some (a', p')) :
    Keeps a a' p' := by
  simp only [workerStep] at hs
  split at hs
  · cases hs
    exact ⟨rfl, taken, h.quiet rfl rfl rfl rfl (List.suffix_refl _) (fun _ hc => hc) h.aside
      (.refl _) (held_same rfl rfl rfl)⟩
  · cases hs
    exact ⟨rfl, taken, h.fail hroute _ _ (by simp) rfl rfl rfl rfl⟩

theorem settle_accounted {next : Successor} {persisted : Bool} {vs : List Validator}
    {pending : List Command} (h : Accounted a (.settle next persisted vs pending) taken)
    (hs : workerStep maxBatch intents a (.settle next persisted vs pending) = some (a', p')) :
    Keeps a a' p' := by
  rcases next with _ | ⟨source, reason⟩ | p
  · cases hs
    exact ⟨rfl, taken, h.quiet rfl rfl rfl rfl (List.suffix_refl _) (fun _ hc => hc) h.aside
      (.refl _) (held_same rfl rfl rfl)⟩
  · -- the successor could not be derived, and its calls are stopped
    cases hs
    refine ⟨rfl, taken, h.quiet rfl rfl rfl rfl List.nil_suffix (fun _ hc => hc) h.aside
      (.refl _) fun t ht => ?_⟩
    unfold SpeculativePlace.Held at *
    simpa [start, calls_routeStopped, Shared.Answered] using ht
  · cases persisted with
    | true =>
      cases hs
      exact ⟨rfl, taken, h.quiet rfl rfl rfl rfl (List.suffix_refl _) (fun _ hc => hc) h.aside
        (.refl _) (held_same rfl rfl rfl)⟩
    | false =>
      cases hs
      exact ⟨rfl, taken, h.start _ _ rfl rfl rfl rfl⟩

theorem deliver_accounted {answers : List (ℕ × DurableTicketOutcome)} {next : SpeculativePlace}
    (h : Accounted a (.deliver answers next) taken)
    (hs : workerStep maxBatch intents a (.deliver answers next) = some (a', p')) : Keeps a a' p' := by
  cases answers with
  | nil =>
    cases hs
    refine ⟨rfl, taken, h.quiet rfl rfl rfl rfl (List.suffix_refl _) (fun _ hc => hc) h.aside
      (.refl _) (held_same rfl ?_ rfl)⟩
    simp
  | cons answer answers =>
    cases hs
    refine ⟨rfl, taken, h.quiet rfl rfl rfl rfl (List.suffix_refl _) (fun _ hc => hc) h.aside
      (.refl _) fun t ht => ?_⟩
    obtain ⟨call, outcome⟩ := answer
    simp only [SpeculativePlace.Held, SpeculativePlace.openCalls, SpeculativePlace.replies,
      SpeculativePlace.commands, Shared.Answered, List.map_cons, List.cons_append, List.mem_cons,
      List.mem_append] at ht ⊢
    rcases ht with (ht | (rfl | ht) | ht) | ⟨o, ht⟩
    · exact .inl (.inl ht)
    · exact .inr ⟨outcome, .inr (.inl rfl)⟩
    · exact .inl (.inr (.inl ht))
    · exact .inl (.inr (.inr ht))
    · exact .inr ⟨o, .inl ht⟩

theorem drain_accounted {reason : DrainReason} {cs : List Command}
    (h : Accounted a (.drain reason cs) taken)
    (hs : workerStep maxBatch intents a (.drain reason cs) = some (a', p')) : Keeps a a' p' := by
  cases cs with
  | cons c cs =>
    cases hs
    cases c with
    | intent call =>
      refine ⟨rfl, taken, h.quiet rfl rfl rfl rfl (List.suffix_refl _)
        (fun c hc => List.mem_cons_of_mem _ hc) (by simp) (.refl _) fun t ht => ?_⟩
      simp only [SpeculativePlace.Held, SpeculativePlace.openCalls, SpeculativePlace.replies,
        SpeculativePlace.commands, Shared.Answered, Shared.reject, List.mem_cons,
        List.mem_append, Command.intent.injEq] at ht ⊢
      rcases ht with (ht | ht | rfl | ht) | ⟨o, ht⟩
      · cases ht
      · cases ht
      · exact .inr ⟨_, .inr (.inl rfl)⟩
      · exact .inl (.inr (.inr ht))
      · exact .inr ⟨o, .inl ht⟩
    | barrier call =>
      refine ⟨rfl, taken, h.quiet rfl rfl rfl rfl (List.suffix_refl _)
        (fun c hc => List.mem_cons_of_mem _ hc) (by simp) (.refl _) fun t ht => ?_⟩
      simpa [SpeculativePlace.Held, Shared.Answered, Shared.reject] using ht
  | nil =>
    simp only [workerStep] at hs
    split at hs
    · rename_i c queue hq
      cases hs
      refine ⟨rfl, _, h.receive hq rfl rfl rfl rfl rfl rfl (by simp) (by simp) (by simp) ?_⟩
      intro t ht
      unfold SpeculativePlace.Held at *
      simpa [or_comm, or_assoc, Shared.Answered, Shared.take] using ht
    · cases hs
      exact ⟨rfl, taken, h.quiet rfl rfl rfl rfl (List.suffix_refl _) (fun _ hc => hc) (by simp)
        (.refl _) (held_same rfl rfl rfl)⟩

/-- **Every step of the worker** keeps its accounts. -/
theorem workerStep_accounted (h : Accounted a p taken)
    (hroute : ∀ q, p.written = some q → q.Routed)
    (hs : workerStep maxBatch intents a p = some (a', p')) (hdone : p' ≠ .done) : Keeps a a' p' := by
  have hquiet : ∀ {a' : Shared} {p' : SpeculativePlace}, a'.sent = a.sent →
      a'.control.queue = a.control.queue → a'.claimed = a.claimed → a'.settled = a.settled →
      a'.answers = a.answers → p'.openCalls = p.openCalls → p'.replies = p.replies →
      p'.commands = p.commands → (∀ c ∈ p'.aside, c ∈ p.aside) → p'.unclaimed = [] →
      Keeps a a' p' := by
    intro a' p' h1 h2 h3 h4 h5 h6 h7 h8 h9 h10
    refine ⟨h1, taken, h.quiet h1 h2 h3 h4 (by rw [h6])
      (by rw [h8]; exact fun _ hc => hc) (fun c hc => h.aside c (h9 c hc)) (by rw [h10]; simp)
      fun t ht => ?_⟩
    unfold Shared.Answered
    rw [h5]
    exact held_same h6 h7 h8 t ht
  cases p with
  | recv pending => exact recv_accounted h hs
  | check c pending => exact check_accounted h hs
  | reason c pending => exact reason_accounted h hs
  | successor stage pending => exact successor_accounted h hs
  | claim stage batch pending => exact claim_accounted h hs
  | derive stage batch pending => exact derive_accounted h hs
  | prepare p vs pending => exact prepare_accounted h (hroute p rfl) hs
  | submit p file vs pending => exact submit_accounted h (hroute p rfl) hs
  | complete p file next vs pending => exact complete_accounted h (hroute p rfl) hs
  | publish p next vs pending =>
    cases hs
    exact ⟨rfl, taken, h.publish (hroute p rfl) rfl rfl rfl rfl rfl⟩
  | settle next persisted vs pending => exact settle_accounted h hs
  | deliver answers next => exact deliver_accounted h hs
  | drain reason commands => exact drain_accounted h hs
  | takeSender reason pending =>
    simp only [workerStep] at hs
    split at hs
    · cases hs
      exact hquiet rfl rfl rfl rfl rfl rfl rfl rfl (by simp) rfl
    · cases hs
  | exitRead =>
    simp only [workerStep] at hs
    split at hs <;> cases hs <;> exact hquiet rfl rfl rfl rfl rfl rfl rfl rfl (by simp) rfl
  | exitReadAgain =>
    simp only [workerStep] at hs
    split at hs <;> cases hs <;> exact hquiet rfl rfl rfl rfl rfl rfl rfl rfl (by simp) rfl
  | finish =>
    cases hs
    exact absurd rfl hdone
  | done =>
    rw [workerStep_done] at hs
    cases hs
  | _ =>
    cases hs
    exact hquiet rfl rfl rfl rfl rfl rfl rfl rfl (fun _ hc => hc) rfl

end Accounts

/-! ## The store and the published world -/

/-- A reply of `Accepted` names the world and a frame of a published epoch of the call. -/
def Shared.Accepts (a : Shared) (answers : List (ℕ × DurableTicketOutcome)) : Prop :=
  ∀ t w f entities, (t, .accepted w f entities) ∈ answers →
    ∃ p, (p, true) ∈ a.settled ∧ t ∈ p.source ∧ w = p.plan.tail ∧ f ∈ p.plan.frames

/-- What holds of the database in every state. -/
structure Database (intents : ℕ → QueuedIntent) (database : World) (opened : FileEpochStore)
    (a : Shared) : Prop where
  planned : Planned intents database a.settled a.current
  extended : FileEpochStore.Extends opened a.store
  accepts : a.Accepts a.answers

/-- A successor that was derived is planned on the world `w`. -/
def Successor.PlannedOn (intents : ℕ → QueuedIntent) (w : World) (s : Successor) : Prop :=
  ∀ p, s = some (.ok p) → p.PlannedOn intents w

/-- An epoch in flight was planned on the published world and fits behind the file. -/
structure InFlight (intents : ℕ → QueuedIntent) (a : Shared) (p : PreparedDurableBatch)
    (file : PreparedFileEpoch) : Prop where
  planned : p.PlannedOn intents a.current
  fits : FileEpochStore.Fits file a.store
  frames : file.frames = p.plan.frames

/-- What the worker relies on at its place. Only between the completion of an epoch and its
publication is the store ahead of the published world. -/
def stands (intents : ℕ → QueuedIntent) (a : Shared) : SpeculativePlace → Prop
  | .prepare p _ _ => a.store.frames = a.current.history ∧ p.PlannedOn intents a.current
  | .submit p file _ _ | .successor (.inFlight p file _) _ | .claim (.inFlight p file _) _ _
  | .derive (.inFlight p file _) _ _ =>
    a.store.frames = a.current.history ∧ InFlight intents a p file
  | .complete p file s _ _ =>
    a.store.frames = a.current.history ∧ InFlight intents a p file ∧
      Successor.PlannedOn intents p.plan.tail s
  | .publish p s _ _ =>
    a.store.frames = a.current.history ++ p.plan.frames ∧ p.PlannedOn intents a.current ∧
      p.plan.frames ≠ [] ∧ Successor.PlannedOn intents p.plan.tail s
  | .settle s persisted _ _ =>
    a.store.frames = a.current.history ∧
      (persisted = true → Successor.PlannedOn intents a.current s)
  | .deliver answers next =>
    a.Accepts answers ∧ a.store.frames = a.current.history ∧ stands intents a next
  | _ => a.store.frames = a.current.history

section Standing

variable {a a' : Shared} {p' : SpeculativePlace}

theorem Shared.Accepts.mono {answers : List (ℕ × DurableTicketOutcome)} (h : a.Accepts answers)
    {batch : PreparedDurableBatch} {outcome : Bool}
    (hs : a'.settled = a.settled ++ [(batch, outcome)]) : a'.Accepts answers := by
  intro t w f entities ht
  obtain ⟨p, hp, hrest⟩ := h t w f entities ht
  exact ⟨p, by rw [hs]; exact List.mem_append_left _ hp, hrest⟩

/-- **The replies of a published epoch** name its world and its frame. -/
theorem accepts_routeSuccess {w : World} {b : WorldState} (hw : w.Plain b)
    {p : PreparedDurableBatch} (hp : p.PlannedOn intents w) (hm : (p, true) ∈ a.settled) :
    a.Accepts (routeSuccess p) := by
  intro t w' f entities ht
  obtain ⟨vs, hplan⟩ := hp
  obtain ⟨-, hout⟩ := (durablePlan_assembled hw hplan).decided.outcomes
  unfold routeSuccess at ht
  rw [List.mem_map] at ht
  obtain ⟨⟨call, outcome⟩, hmem, ht⟩ := ht
  obtain ⟨hcall, houtcome⟩ := List.of_mem_zip hmem
  cases outcome with
  | accepted x =>
    cases ht
    obtain ⟨hworld, hframes⟩ := hout x houtcome
    exact ⟨p, hm, hcall, hworld, by rw [hframes]; simp⟩
  | rejected x => cases ht

/-- The other replies accept nothing. -/
theorem accepts_routeFailure (p : PreparedDurableBatch) (e : FileEpochStoreError) :
    a.Accepts (routeFailure p e) := by
  intro t w f entities ht
  unfold routeFailure at ht
  rw [List.mem_map] at ht
  obtain ⟨⟨call, outcome⟩, -, ht⟩ := ht
  cases outcome <;> cases ht

theorem accepts_routeStopped (source : List ℕ) (reason : String) :
    a.Accepts (routeStopped source reason) := by
  intro t w f entities ht
  unfold routeStopped at ht
  rw [List.mem_map] at ht
  obtain ⟨call, -, ht⟩ := ht
  cases ht

/-- Where a derived batch leads, if it was derived on the published world. -/
theorem stands_start (h : a.store.frames = a.current.history)
    {derived : Except (List ℕ × String) PreparedDurableBatch}
    (hp : ∀ p, derived = .ok p → p.PlannedOn intents a.current) (vs : List Validator)
    (pending : List Command) : stands intents a (start derived vs pending) := by
  cases derived with
  | ok p => exact ⟨h, hp p rfl⟩
  | error e => exact ⟨accepts_routeStopped _ _, h, h⟩

/-- The worker sets aside a barrier, or finds no successor. -/
theorem stands_alone {stage : Stage} {pending : List Command}
    (h : stands intents a (.successor stage pending)) (cs : List Command) :
    stands intents a (stage.alone cs) := by
  cases stage with
  | first => exact h
  | afterEmpty vs => exact h
  | inFlight p file vs => exact ⟨h.1, h.2, fun q hq => by cases hq⟩

/-- Nothing that the database or the worker relies on has changed. -/
theorem Database.congr (h : Database intents database opened a) (hc : a'.current = a.current)
    (hstore : a'.store = a.store) (hs : a'.settled = a.settled)
    (ha : a'.Accepts a'.answers) : Database intents database opened a' :=
  ⟨by rw [hs, hc]; exact h.planned, by rw [hstore]; exact h.extended, ha⟩

theorem Shared.Accepts.congr {answers : List (ℕ × DurableTicketOutcome)} (h : a.Accepts answers)
    (hs : a'.settled = a.settled) : a'.Accepts answers := by
  unfold Shared.Accepts at *
  rw [hs]
  exact h

theorem InFlight.congr {p : PreparedDurableBatch} {file : PreparedFileEpoch}
    (h : InFlight intents a p file) (hc : a'.current = a.current) (hstore : a'.store = a.store) :
    InFlight intents a' p file :=
  ⟨by rw [hc]; exact h.planned, by rw [hstore]; exact h.fits, h.frames⟩

theorem stands_congr (hc : a'.current = a.current) (hstore : a'.store = a.store)
    (hs : a'.settled = a.settled) {p : SpeculativePlace} (h : stands intents a p) :
    stands intents a' p := by
  induction p with
  | deliver answers next ih =>
    exact ⟨h.1.congr hs, by rw [hc, hstore]; exact h.2.1, ih h.2.2⟩
  | successor stage pending =>
    cases stage with
    | inFlight p file vs =>
      simp only [stands, hc, hstore] at h ⊢
      exact ⟨h.1, h.2.congr hc hstore⟩
    | _ => simpa only [stands, hc, hstore] using h
  | claim stage batch pending =>
    cases stage with
    | inFlight p file vs =>
      simp only [stands, hc, hstore] at h ⊢
      exact ⟨h.1, h.2.congr hc hstore⟩
    | _ => simpa only [stands, hc, hstore] using h
  | derive stage batch pending =>
    cases stage with
    | inFlight p file vs =>
      simp only [stands, hc, hstore] at h ⊢
      exact ⟨h.1, h.2.congr hc hstore⟩
    | _ => simpa only [stands, hc, hstore] using h
  | submit p file vs pending =>
    simp only [stands, hc, hstore] at h ⊢
    exact ⟨h.1, h.2.congr hc hstore⟩
  | complete p file next vs pending =>
    simp only [stands, hc, hstore] at h ⊢
    exact ⟨h.1, h.2.1.congr hc hstore, h.2.2⟩
  | _ => simpa only [stands, hc, hstore] using h

/-- **A failed epoch** leaves the published world and the frames of the store. -/
theorem fail_stands (h : Database intents database opened a) {batch : PreparedDurableBatch}
    (hp : batch.PlannedOn intents a.current) {store : FileEpochStore}
    (hext : FileEpochStore.Extends opened store) (hframes : store.frames = a.store.frames)
    (hstore : a.store.frames = a.current.history) (e : FileEpochStoreError)
    {next : SpeculativePlace}
    (hnext : (a.fail store batch).store.frames = (a.fail store batch).current.history →
      stands intents (a.fail store batch) next) :
    Database intents database opened (a.fail store batch) ∧
      stands intents (a.fail store batch) (.deliver (routeFailure batch e) next) :=
  ⟨⟨h.planned.failed hp, hext, h.accepts.mono rfl⟩, accepts_routeFailure batch e,
    hframes.trans hstore, hnext (hframes.trans hstore)⟩

/-- **A published epoch**, with or without frames. -/
theorem publish_stands (hd : ∃ b, database.Plain b) (h : Database intents database opened a)
    {batch : PreparedDurableBatch} (hp : batch.PlannedOn intents a.current)
    (hframes : a.store.frames = a.current.history ++ batch.plan.frames)
    {next : SpeculativePlace}
    (hnext : (a.publish batch).store.frames = (a.publish batch).current.history →
      stands intents (a.publish batch) next) :
    Database intents database opened (a.publish batch) ∧
      stands intents (a.publish batch) (.deliver (routeSuccess batch) next) := by
  obtain ⟨⟨b, hb⟩, -⟩ := h.planned.plain hd
  have hrouted : (a.publish batch).Accepts (routeSuccess batch) :=
    accepts_routeSuccess hb hp (by simp [Shared.publish])
  have hstore : (a.publish batch).store.frames = (a.publish batch).current.history := by
    show a.store.frames = batch.plan.tail.history
    obtain ⟨vs, hplan⟩ := hp
    rcases (durablePlan_assembled hb hplan).frames with ⟨hf, ht⟩ | ⟨-, c, -, hc⟩
    · rw [hframes, hf, ht, List.append_nil]
    · rw [hframes, hc]
  exact ⟨⟨h.planned.published hp, h.extended, h.accepts.mono rfl⟩, hrouted, hstore, hnext hstore⟩

/-- **Every step of the worker** keeps the database and what the worker relies on. -/
theorem workerStep_stands (hd : ∃ b, database.Plain b) {p : SpeculativePlace}
    (h : Database intents database opened a) (hp : stands intents a p)
    (hs : workerStep maxBatch intents a p = some (a', p')) :
    Database intents database opened a' ∧ stands intents a' p' := by
  have hquiet : ∀ {a' : Shared} {p' : SpeculativePlace}, a'.current = a.current →
      a'.store = a.store → a'.settled = a.settled → a'.answers = a.answers → stands intents a p' →
      Database intents database opened a' ∧ stands intents a' p' := by
    intro a' p' hc hst hset hans hp
    exact ⟨h.congr hc hst hset (by rw [hans]; exact h.accepts.congr hset),
      stands_congr hc hst hset hp⟩
  cases p with
  | recv pending =>
    cases pending with
    | cons c pending => cases hs; exact ⟨h, hp⟩
    | nil =>
      simp only [workerStep] at hs
      split at hs
      · cases hs; exact hquiet rfl rfl rfl rfl hp
      · split at hs
        · cases hs; exact ⟨h, hp⟩
        · cases hs
  | check c pending =>
    cases c with
    | intent call =>
      simp only [workerStep] at hs
      split at hs <;> cases hs <;> exact hquiet rfl rfl rfl rfl hp
    | barrier call =>
      simp only [workerStep] at hs
      split at hs <;> cases hs <;> exact hquiet rfl rfl rfl rfl hp
  | reason c pending => cases hs; exact ⟨h, hp⟩
  | successor stage pending =>
    simp only [workerStep] at hs
    split at hs
    · cases hs
      exact ⟨h, stands_alone hp _⟩
    split at hs
    · cases hs
      refine hquiet rfl rfl rfl rfl ?_
      cases stage <;> exact hp
    · cases hs
      exact hquiet rfl rfl rfl rfl (stands_alone hp _)
    · cases hs
      exact ⟨h, stands_alone hp _⟩
  | claim stage batch pending =>
    have hnext : ∀ batch pending, stands intents a (.claim stage batch pending) ∧
        stands intents a (.derive stage batch pending) := by
      intro batch pending
      cases stage <;> exact ⟨hp, hp⟩
    simp only [workerStep] at hs
    split at hs
    · split at hs
      · cases hs
        exact hquiet rfl rfl rfl rfl (hnext _ _).1
      · cases hs
        exact hquiet rfl rfl rfl rfl (hnext _ _).2
      · cases hs
        exact ⟨h, (hnext _ _).2⟩
    · cases hs
      exact ⟨h, (hnext _ _).2⟩
  | derive stage batch pending =>
    cases stage with
    | first =>
      cases hs
      exact ⟨h, stands_start hp (fun p hp => (plannedOn_of_derive hp).1) _ _⟩
    | afterEmpty vs =>
      cases hs
      exact ⟨h, stands_start hp (fun p hp => (plannedOn_of_derive hp).1) _ _⟩
    | inFlight p file vs =>
      cases hs
      refine ⟨h, hp.1, hp.2, fun q hq => ?_⟩
      exact (plannedOn_of_derive (Option.some.inj hq)).1
  | prepare batch vs pending =>
    obtain ⟨hstore, hplanned⟩ := hp
    simp only [workerStep] at hs
    split at hs
    · rename_i hempty
      cases hs
      exact publish_stands hd h hplanned (by rw [hstore, hempty, List.append_nil]) id
    rename_i hne
    obtain ⟨hframes, hext, hfits⟩ := FileEpochStore.prepareEpoch_extends h.extended hne
    split at hs
    · rename_i e store hprep
      rw [hprep] at hframes hext
      cases hs
      exact fail_stands h hplanned hext hframes hstore e id
    · rename_i file store hprep
      rw [hprep] at hframes hext hfits
      cases hs
      obtain ⟨hfile, hfit⟩ := hfits file rfl
      exact ⟨⟨h.planned, hext, h.accepts⟩, hframes.trans hstore, hplanned, hfit, hfile⟩
  | submit batch file vs pending =>
    obtain ⟨hstore, hfly⟩ := hp
    simp only [workerStep] at hs
    cases hsub : a.store.io.submitContiguousEpoch file.records with
    | mk r io =>
      have hspec := FileEpochStore.submit_extends h.extended hfly.fits hsub
      rw [hsub] at hs
      cases r with
      | ok =>
        cases hs
        exact ⟨⟨h.planned, hspec.1, h.accepts⟩, hstore, hfly.planned, hspec.2, hfly.frames⟩
      | error e =>
        obtain ⟨hframes, hext⟩ := hspec
        simp only at hs
        split at hs
        · cases hs
        · rename_i e' store hfin
          rw [hfin] at hframes hext
          cases hs
          exact fail_stands h hfly.planned hext hframes hstore e' id
  | complete batch file next vs pending =>
    obtain ⟨hstore, hfly, hnext⟩ := hp
    simp only [workerStep] at hs
    cases hcomp : a.store.io.completeContiguousEpoch file.checkpoint.startOffset file.records with
    | mk r io =>
      obtain ⟨hext, hframes⟩ := FileEpochStore.complete_extends h.extended hfly.fits hcomp
      rw [hcomp] at hs
      simp only at hs
      split at hs
      · rename_i store hfin
        rw [hfin] at hext hframes
        cases hs
        refine ⟨⟨h.planned, hext, h.accepts⟩, ?_, hfly.planned, ?_, hnext⟩
        · show store.frames = a.current.history ++ batch.plan.frames
          rw [hframes, hstore, hfly.frames]
        · rw [← hfly.frames]
          exact hfly.fits.nonempty
      · rename_i e store hfin
        rw [hfin] at hext hframes
        cases hs
        exact fail_stands h hfly.planned hext hframes hstore e
          fun hst => ⟨hst, fun hpersisted => by cases hpersisted⟩
  | publish batch next vs pending =>
    obtain ⟨hstore, hplanned, -, hnext⟩ := hp
    cases hs
    exact publish_stands hd h hplanned hstore fun hst => ⟨hst, fun _ => hnext⟩
  | settle next persisted vs pending =>
    obtain ⟨hstore, hnext⟩ := hp
    rcases next with _ | ⟨source, reason⟩ | q
    · cases hs; exact ⟨h, hstore⟩
    · cases hs; exact ⟨h, accepts_routeStopped _ _, hstore, hstore⟩
    · cases persisted with
      | true => cases hs; exact ⟨h, hstore, hnext rfl q rfl⟩
      | false =>
        cases hs
        exact ⟨h, stands_start hstore (fun p hp => (plannedOn_of_derive hp).1) _ _⟩
  | deliver answers next =>
    obtain ⟨hans, hstore, hnext⟩ := hp
    cases answers with
    | nil => cases hs; exact ⟨h, hnext⟩
    | cons answer answers =>
      cases hs
      have hmem : ∀ x ∈ a.answers ++ [answer], x ∈ a.answers ∨ x ∈ answer :: answers := by
        intro x hx
        rcases List.mem_append.1 hx with hx | hx
        · exact .inl hx
        · exact .inr (by rw [List.mem_singleton.1 hx]; simp)
      refine ⟨h.congr rfl rfl rfl fun t w f entities ht => ?_, ?_, hstore, ?_⟩
      · rcases hmem _ ht with ht | ht
        · exact h.accepts t w f entities ht
        · exact hans t w f entities ht
      · exact fun t w f entities ht => hans t w f entities (List.mem_cons_of_mem _ ht)
      · refine stands_congr ?_ ?_ ?_ hnext
        all_goals rfl
  | drain reason cs =>
    cases cs with
    | nil =>
      simp only [workerStep] at hs
      split at hs
      · cases hs; exact hquiet rfl rfl rfl rfl hp
      · cases hs; exact ⟨h, hp⟩
    | cons c cs =>
      cases hs
      cases c with
      | barrier call => exact hquiet rfl rfl rfl rfl hp
      | intent call =>
        -- a stopped call is not an accepted one
        refine ⟨h.congr rfl rfl rfl fun t w f entities ht => ?_, hp⟩
        rcases List.mem_append.1 ht with ht | ht
        · exact h.accepts t w f entities ht
        · cases List.mem_singleton.1 ht
  | takeSender reason pending =>
    simp only [workerStep] at hs
    split at hs
    · cases hs; exact hquiet rfl rfl rfl rfl hp
    · cases hs
  | poisonStore reason pending =>
    cases hs
    exact ⟨⟨h.planned, h.extended.congr rfl rfl (fun hh => by cases hh), h.accepts⟩, hp⟩
  | exitStore =>
    cases hs
    exact ⟨⟨h.planned, h.extended.congr rfl rfl (fun hh => by cases hh), h.accepts⟩, hp⟩
  | exitRead =>
    simp only [workerStep] at hs
    split at hs <;> cases hs <;> exact ⟨h, hp⟩
  | exitReadAgain =>
    simp only [workerStep] at hs
    split at hs <;> cases hs <;> exact ⟨h, hp⟩
  | done =>
    rw [workerStep_done] at hs
    cases hs
  | _ =>
    cases hs
    exact hquiet rfl rfl rfl rfl hp

end Standing

/-! ## What an observer sees -/

section Observing

variable {a a' : Shared} {p p' : SpeculativePlace} {taken : List Command}

/-- What the records say, whatever the worker does next. -/
structure Observed (a : Shared) : Prop where
  nodup : a.sent.Nodup
  claimed : a.claimed.Sublist (tickets a.sent)
  settled : (a.settled.flatMap (·.1.source)).Sublist a.claimed
  flushed : ∀ f, (f, true) ∈ a.flushed → .barrier f ∈ a.sent ∧
    ∀ xs zs, a.sent = xs ++ .barrier f :: zs → ∀ t, .intent t ∈ xs → a.Answered t

/-- **A barrier that the worker answers** at the top of its loop: all tickets that were sent
before it are answered. -/
theorem Accounted.answered {f : ℕ} {pending : List Command} (h : Accounted a (.check (.barrier f) pending) taken)
    (hn : a.sent.Nodup) : .barrier f ∈ a.sent ∧
      ∀ xs zs, a.sent = xs ++ .barrier f :: zs → ∀ t, .intent t ∈ xs → a.Answered t := by
  have hmem : Command.barrier f ∈ taken := h.commands _ List.mem_cons_self
  refine ⟨by rw [h.sent]; exact List.mem_append_left _ hmem, fun xs zs hsent t ht => ?_⟩
  rw [h.sent] at hsent hn
  obtain ⟨ys, htaken⟩ := Threads.split_of_mem hsent hmem hn
  rcases h.held t (by rw [htaken]; exact List.mem_append_left _ ht) with (ht | ht | ht) | ht
  · cases ht
  · cases ht
  · -- what was set aside are barriers
    rcases List.mem_cons.1 ht with ht | ht
    · cases ht
    · obtain ⟨g, hg⟩ := h.aside _ ht
      cases hg
  · exact ht

/-- The records grow with the steps of the worker. -/
theorem workerStep_grows (hs : workerStep maxBatch intents a p = some (a', p')) :
    a.answers <+: a'.answers ∧
      (a'.flushed = a.flushed ∨ (∃ f, a'.flushed = a.flushed ++ [(f, false)]) ∨
        ∃ f pending, p = .check (.barrier f) pending ∧ a'.flushed = a.flushed ++ [(f, true)]) ∧
      (p' = .done → a'.sent = a.sent ∧ a'.claimed = a.claimed ∧ a'.settled = a.settled) := by
  -- one case for each place and each branch of its code
  unfold workerStep at hs
  split at hs
  all_goals (repeat' split at hs)
  all_goals first | (cases hs; done) | skip
  all_goals cases hs
  all_goals first
    | exact ⟨List.prefix_refl _, .inl rfl, fun _ => ⟨rfl, rfl, rfl⟩⟩
    | exact ⟨List.prefix_refl _, .inl rfl, fun h => nomatch h⟩
    | exact ⟨List.prefix_append _ _, .inl rfl, fun _ => ⟨rfl, rfl, rfl⟩⟩
    | exact ⟨List.prefix_refl _, .inr (.inr ⟨_, _, rfl, rfl⟩), fun _ => ⟨rfl, rfl, rfl⟩⟩
    | skip
  -- a command is rejected
  rename_i reason c cs
  cases c with
  | intent call => exact ⟨List.prefix_append _ _, .inl rfl, fun h => nomatch h⟩
  | barrier call => exact ⟨List.prefix_refl _, .inr (.inl ⟨_, rfl⟩), fun h => nomatch h⟩

/-- **A step of the worker** keeps what an observer sees. -/
theorem Observed.worker (h : Observed a) (hp : p ≠ .done → ∃ taken, Accounted a p taken)
    (hs : workerStep maxBatch intents a p = some (a', p'))
    (hkeeps : p' ≠ .done → Keeps a a' p') : Observed a' := by
  obtain ⟨hanswers, hflushed, hdone⟩ := workerStep_grows hs
  have hsent : a'.sent = a.sent := by
    by_cases hd : p' = .done
    · exact (hdone hd).1
    · exact (hkeeps hd).1
  have hmono : ∀ t, a.Answered t → a'.Answered t := fun t ⟨o, ho⟩ => ⟨o, hanswers.subset ho⟩
  have hold : ∀ f, (f, true) ∈ a.flushed → .barrier f ∈ a'.sent ∧
      ∀ xs zs, a'.sent = xs ++ .barrier f :: zs → ∀ t, .intent t ∈ xs → a'.Answered t := by
    intro f hf
    rw [hsent]
    obtain ⟨h1, h2⟩ := h.flushed f hf
    exact ⟨h1, fun xs zs hx t ht => hmono t (h2 xs zs hx t ht)⟩
  refine ⟨by rw [hsent]; exact h.nodup, ?_, ?_, fun f hf => ?_⟩
  · by_cases hd : p' = .done
    · obtain ⟨-, hc, -⟩ := hdone hd
      rw [hsent, hc]
      exact h.claimed
    · obtain ⟨-, taken, hacc⟩ := hkeeps hd
      rw [hacc.sent, tickets, List.filterMap_append]
      exact ((List.sublist_append_left _ _).trans hacc.claimed).trans (List.sublist_append_left _ _)
  · by_cases hd : p' = .done
    · obtain ⟨-, hc, hset⟩ := hdone hd
      rw [hset, hc]
      exact h.settled
    · obtain ⟨-, taken, hacc⟩ := hkeeps hd
      obtain ⟨earlier, h1, h2⟩ := hacc.settled
      rw [h1]
      exact h2.trans (List.sublist_append_left _ _)
  · rcases hflushed with hfl | ⟨g, hfl⟩ | ⟨g, pending, rfl, hfl⟩
    · exact hold f (by rwa [hfl] at hf)
    · rw [hfl, List.mem_append] at hf
      rcases hf with hf | hf
      · exact hold f hf
      · cases List.mem_singleton.1 hf
    · rw [hfl, List.mem_append] at hf
      rcases hf with hf | hf
      · exact hold f hf
      · -- the barrier that this step answers
        obtain rfl : f = g := congrArg Prod.fst (List.mem_singleton.1 hf)
        obtain ⟨taken, hacc⟩ := hp (by simp)
        rw [hsent]
        obtain ⟨h1, h2⟩ := hacc.answered h.nodup
        exact ⟨h1, fun xs zs hx t ht => hmono t (h2 xs zs hx t ht)⟩

/-- **A client that sends commands**, or does anything else, keeps what an observer sees. -/
theorem Observed.client (h : Observed a) {new : List Command} (hsent : a'.sent = a.sent ++ new)
    (hn : a'.sent.Nodup) (hc : a'.claimed = a.claimed) (hset : a'.settled = a.settled)
    (hans : a'.answers = a.answers) (hfl : a'.flushed = a.flushed) : Observed a' := by
  refine ⟨hn, ?_, by rw [hset, hc]; exact h.settled, fun f hf => ?_⟩
  · rw [hc, hsent, tickets, List.filterMap_append]
    exact h.claimed.trans (List.sublist_append_left _ _)
  · rw [hfl] at hf
    obtain ⟨h1, h2⟩ := h.flushed f hf
    refine ⟨by rw [hsent]; exact List.mem_append_left _ h1, fun xs zs hx t ht => ?_⟩
    rw [hsent] at hx hn
    obtain ⟨ys, hys⟩ := Threads.split_of_mem hx h1 hn
    unfold Shared.Answered
    rw [hans]
    exact h2 xs ys hys t ht

theorem Accounted.client (h : Accounted a p taken) {new : List Command}
    (hsent : a'.sent = a.sent ++ new) (hq : a'.control.queue = a.control.queue ++ new)
    (hc : a'.claimed = a.claimed) (hset : a'.settled = a.settled) (hans : a'.answers = a.answers) :
    Accounted a' p taken where
  sent := by rw [hsent, hq, h.sent, List.append_assoc]
  commands := h.commands
  aside := h.aside
  held := by
    unfold Shared.Answered
    rw [hans]
    exact h.held
  claimed := by rw [hc]; exact h.claimed
  settled := by rw [hc, hset]; exact h.settled

end Observing

/-! ## The calls -/

/-- A call that has sent nothing and may still do so. -/
def MaySend : CallPlace → Prop
  | .idle | .submitLock | .submitRead | .submitSend | .flushLock | .flushRead | .flushSend => True
  | _ => False

/-- **What a call of the lifecycle does to the channel**: nothing, or it sends its command. -/
theorem callStep_sends {id : ℕ} {c : Controller.Choice} {a a' : Controller.Shared}
    {p p' : CallPlace} (hs : Controller.callStep id c a p = some (a', p')) :
    (a'.queue = a.queue ∧ (MaySend p' → MaySend p) ∧ p' ≠ .returned .ticket ∧
      (p' = .returned .flushed → p = .flushWait ∧ c ≠ .stop)) ∨
    (MaySend p ∧ ¬ MaySend p' ∧ p' ≠ .returned .flushed ∧
      (a'.queue = a.queue ++ [.intent id] ∨
        (a'.queue = a.queue ++ [.barrier id] ∧ p' ≠ .returned .ticket))) := by
  -- one case for each place and each branch of its code
  cases p <;> simp only [Controller.callStep] at hs
  all_goals (repeat' split at hs)
  all_goals first | (cases hs; done) | skip
  all_goals cases hs
  all_goals simp_all [MaySend]

/-- What a step of a client does to what is shared: it sends `new`, and leaves alone what the
worker writes. -/
structure Client (a a' : Shared) (new : List Command) : Prop where
  current : a'.current = a.current
  store : a'.store = a.store
  answers : a'.answers = a.answers
  flushed : a'.flushed = a.flushed
  claimed : a'.claimed = a.claimed
  settled : a'.settled = a.settled
  sent : a'.sent = a.sent ++ new
  queue : a'.control.queue = a.control.queue ++ new

theorem lift_sends {id : ℕ} {c : Controller.Choice} {a a' : Shared} {p p' : CallPlace}
    (hs : lift id c a p = some (a', p')) :
    ∃ new, Client a a' new ∧
      ((new = [] ∧ (MaySend p' → MaySend p) ∧ p' ≠ .returned .ticket ∧
        (p' = .returned .flushed → p = .flushWait ∧ c ≠ .stop)) ∨
      (MaySend p ∧ ¬ MaySend p' ∧ p' ≠ .returned .flushed ∧
        (new = [.intent id] ∨ (new = [.barrier id] ∧ p' ≠ .returned .ticket)))) := by
  unfold lift at hs
  rw [Option.map_eq_some_iff] at hs
  obtain ⟨⟨control, p₁⟩, hcall, hs⟩ := hs
  cases hs
  have hnew : ∀ {new : List Command}, control.queue = a.control.queue ++ new →
      Client a { a with
        control := control, sent := a.sent ++ control.queue.drop a.control.queue.length } new := by
    intro new hq
    exact ⟨rfl, rfl, rfl, rfl, rfl, rfl, by rw [hq, List.drop_left], hq⟩
  rcases callStep_sends hcall with ⟨hq, h1, h2, h3⟩ | ⟨h1, h2, h3, hq | ⟨hq, h4⟩⟩
  · exact ⟨[], hnew (by rw [hq, List.append_nil]), .inl ⟨rfl, h1, h2, h3⟩⟩
  · exact ⟨_, hnew hq, .inr ⟨h1, h2, h3, .inl rfl⟩⟩
  · exact ⟨_, hnew hq, .inr ⟨h1, h2, h3, .inr ⟨rfl, h4⟩⟩⟩

/-- **A step of a call**: it returns `flushed` only when the worker answered its barrier. -/
theorem callStep_cases {id : ℕ} {c : Controller.Choice} {a a' : Shared} {p p' : CallPlace}
    (hs : callStep id c a p = some (a', p')) :
    ∃ new, Client a a' new ∧ (p' = .returned .flushed → (id, true) ∈ a.flushed) ∧
      ((new = [] ∧ (MaySend p' → MaySend p) ∧ p' ≠ .returned .ticket) ∨
      (MaySend p ∧ ¬ MaySend p' ∧
        (new = [.intent id] ∨ (new = [.barrier id] ∧ p' ≠ .returned .ticket)))) := by
  have hlift : ∀ {c : Controller.Choice}, lift id c a p = some (a', p') →
      (p = .flushWait → c ≠ .stop → (id, true) ∈ a.flushed) →
      ∃ new, Client a a' new ∧ (p' = .returned .flushed → (id, true) ∈ a.flushed) ∧
        ((new = [] ∧ (MaySend p' → MaySend p) ∧ p' ≠ .returned .ticket) ∨
        (MaySend p ∧ ¬ MaySend p' ∧
          (new = [.intent id] ∨ (new = [.barrier id] ∧ p' ≠ .returned .ticket)))) := by
    intro c hs hflush
    obtain ⟨new, hclient, ⟨h1, h2, h3, h4⟩ | ⟨h1, h2, h3, h4⟩⟩ := lift_sends hs
    · exact ⟨new, hclient, fun hp => hflush (h4 hp).1 (h4 hp).2, .inl ⟨h1, h2, h3⟩⟩
    · exact ⟨new, hclient, fun hp => absurd hp h3, .inr ⟨h1, h2, h4⟩⟩
  unfold callStep at hs
  split at hs
  · split at hs
    · rename_i hanswer
      obtain ⟨xs, ys, hxs, -⟩ := List.lookup_eq_some_iff.1 hanswer
      exact hlift hs fun _ _ => by rw [hxs]; simp
    · exact hlift hs fun _ hc => absurd rfl hc
    · split at hs
      · cases hs
      · exact hlift hs fun _ hc => absurd rfl hc
  · rename_i hplace
    exact hlift hs fun hp _ => absurd hp hplace

/-! ## Whole runs -/

/-- What the worker knows. -/
structure WorkerOk (intents : ℕ → QueuedIntent) (database : World) (opened : FileEpochStore)
    (a : Shared) (p : SpeculativePlace) : Prop where
  observed : Observed a
  accounted : p ≠ .done → ∃ taken, Accounted a p taken
  database : Database intents database opened a
  stands : stands intents a p

/-- What a call knows of the channel and of its own reply. -/
structure CallOk (id : ℕ) (a : Shared) (p : CallPlace) : Prop where
  fresh : MaySend p → .intent id ∉ a.sent ∧ .barrier id ∉ a.sent
  ticket : p = .returned .ticket → .intent id ∈ a.sent
  flushed : p = .returned .flushed → (id, true) ∈ a.flushed

/-- What every thread knows at its place. -/
def ok (intents : ℕ → QueuedIntent) (database : World) (opened : FileEpochStore) :
    (i : Thread) → Shared → Place i → Prop
  | .worker, a, p => WorkerOk intents database opened a p
  | .call id, a, p => CallOk id a p
  | .opener, _, _ | .registrar, _, _ => True

theorem WorkerOk.client {a a' : Shared} {p : SpeculativePlace} {new : List Command}
    (h : WorkerOk intents database opened a p) (hc : Client a a' new) (hn : a'.sent.Nodup) :
    WorkerOk intents database opened a' p where
  observed := h.observed.client hc.sent hn hc.claimed hc.settled hc.answers hc.flushed
  accounted := by
    intro hp
    obtain ⟨taken, hacc⟩ := h.accounted hp
    exact ⟨taken, hacc.client hc.sent hc.queue hc.claimed hc.settled hc.answers⟩
  database := h.database.congr hc.current hc.store hc.settled
    (by rw [hc.answers]; exact h.database.accepts.congr hc.settled)
  stands := stands_congr hc.current hc.store hc.settled h.stands

/-- Nothing that a call knows is lost when others send and the worker answers. -/
theorem CallOk.mono {id : ℕ} {a a' : Shared} {p : CallPlace} (h : CallOk id a p)
    {new : List Command} (hsent : a'.sent = a.sent ++ new) (hflushed : a.flushed ⊆ a'.flushed)
    (hnew : MaySend p → .intent id ∉ new ∧ .barrier id ∉ new) : CallOk id a' p where
  fresh := by
    intro hp
    rw [hsent]
    simp only [List.mem_append, not_or]
    exact ⟨⟨(h.fresh hp).1, (hnew hp).1⟩, (h.fresh hp).2, (hnew hp).2⟩
  ticket := fun hp => by rw [hsent]; exact List.mem_append_left _ (h.ticket hp)
  flushed := fun hp => hflushed (h.flushed hp)

/-- The epoch that is being written was planned on the published world. -/
theorem planned_of_stands {a : Shared} {p : SpeculativePlace} (h : stands intents a p)
    {q : PreparedDurableBatch} (hq : p.written = some q) : q.PlannedOn intents a.current := by
  cases p with
  | prepare p vs pending => cases hq; exact h.2
  | submit p file vs pending => cases hq; exact h.2.planned
  | complete p file next vs pending => cases hq; exact h.2.1.planned
  | publish p next vs pending => cases hq; exact h.2.1
  | successor stage pending => cases stage <;> cases hq; exact h.2.planned
  | claim stage batch pending => cases stage <;> cases hq; exact h.2.planned
  | derive stage batch pending => cases stage <;> cases hq; exact h.2.planned
  | _ => cases hq

theorem WorkerOk.step {a a' : Shared} {p p' : SpeculativePlace} (hd : ∃ b, database.Plain b)
    (h : WorkerOk intents database opened a p)
    (hs : workerStep maxBatch intents a p = some (a', p')) :
    WorkerOk intents database opened a' p' ∧ a'.sent = a.sent ∧ a.flushed ⊆ a'.flushed := by
  obtain ⟨⟨b, hb⟩, -⟩ := h.database.planned.plain hd
  have hroute : ∀ q, p.written = some q → q.Routed := fun q hq =>
    (planned_of_stands h.stands hq).routed hb
  have hkeeps : p' ≠ .done → Keeps a a' p' := by
    intro hp'
    have hp : p ≠ .done := by
      rintro rfl
      cases hs
    obtain ⟨taken, hacc⟩ := h.accounted hp
    exact workerStep_accounted hacc hroute hs hp'
  obtain ⟨hdatabase, hstands⟩ := workerStep_stands hd h.database h.stands hs
  obtain ⟨-, hflushed, hdone⟩ := workerStep_grows hs
  refine ⟨⟨h.observed.worker h.accounted hs hkeeps, fun hp' => (hkeeps hp').2, hdatabase, hstands⟩,
    ?_, ?_⟩
  · by_cases hp' : p' = .done
    · exact (hdone hp').1
    · exact (hkeeps hp').1
  · rcases hflushed with hf | ⟨f, hf⟩ | ⟨f, pending, -, hf⟩
    · rw [hf]; exact List.Subset.refl _
    · rw [hf]; exact List.subset_append_left _ _
    · rw [hf]; exact List.subset_append_left _ _

/-- **One step of any thread** keeps what every thread knows, and what was sent. -/
theorem ok_moves (hd : ∃ b, database.Plain b) {s t : System} {i : Thread}
    (h : s.Annotated (ok intents database opened)) (hs : s.Moves (step maxBatch intents) i t) :
    t.Annotated (ok intents database opened) ∧ s.shared.sent <+: t.shared.sent := by
  obtain ⟨c, a, p, hstep, rfl⟩ := hs
  have hworker : WorkerOk intents database opened s.shared (s.place .worker) := h .worker
  -- a client disturbs neither the worker nor the calls whose commands it does not send
  have hothers : ∀ {i : Thread} {a : Shared} {p : Place i} {new : List Command},
      Client s.shared a new → a.sent.Nodup →
      (∀ j, i ≠ .call j → .intent j ∉ new ∧ .barrier j ∉ new) →
      ok intents database opened i a p → (s.move i a p).Annotated (ok intents database opened) := by
    intro i a p new hclient hn hnew hown
    refine Threads.Annotated.moves hown fun j hj => ?_
    cases j with
    | worker => exact hworker.client hclient hn
    | call id =>
      have hcall : CallOk id s.shared (s.place (.call id)) := h (.call id)
      exact hcall.mono hclient.sent (by rw [hclient.flushed]; exact List.Subset.refl _)
        fun _ => hnew id hj.symm
    | opener => trivial
    | registrar => trivial
  cases i with
  | worker =>
    obtain ⟨hok, hsent, hflushed⟩ := hworker.step hd hstep
    refine ⟨Threads.Annotated.moves hok fun j hj => ?_, by simp [hsent]⟩
    cases j with
    | worker => exact absurd rfl hj
    | call id =>
      have hcall : CallOk id s.shared (s.place (.call id)) := h (.call id)
      exact hcall.mono (by rw [hsent, List.append_nil]) hflushed fun _ => by simp
    | opener => trivial
    | registrar => trivial
  | opener =>
    simp only [step, Option.map_eq_some_iff] at hstep
    obtain ⟨⟨control, p'⟩, hopen, hstep⟩ := hstep
    cases hstep
    have hqueue : control.queue = s.shared.control.queue := by
      unfold openerStep at hopen
      split at hopen
      · cases hopen; rfl
      · cases hopen
    have hclient : Client s.shared { s.shared with control := control } [] :=
      ⟨rfl, rfl, rfl, rfl, rfl, rfl, by simp, by simp [hqueue]⟩
    exact ⟨hothers hclient hworker.observed.nodup (by simp) trivial, by simp⟩
  | registrar =>
    simp only [step, registrarStep] at hstep
    split at hstep
    · cases hstep
      have hclient : ∀ validator, Client s.shared
          { s.shared with validators := s.shared.validators ++ [validator] } [] := fun _ =>
        ⟨rfl, rfl, rfl, rfl, rfl, rfl, by simp, by simp⟩
      exact ⟨hothers (hclient _) hworker.observed.nodup (by simp) trivial, by simp⟩
    · cases hstep
  | call id =>
    cases c with
    | register validator => cases hstep
    | call c =>
      have hcall : CallOk id s.shared (s.place (.call id)) := h (.call id)
      obtain ⟨new, hclient, hflush, hcases⟩ := callStep_cases hstep
      -- what the call sends is new, and names the call itself
      have hnew : ∀ x ∈ new, x ∉ s.shared.sent ∧ (x = .intent id ∨ x = .barrier id) := by
        rcases hcases with ⟨rfl, -⟩ | ⟨hmay, -, rfl | ⟨rfl, -⟩⟩
        · simp
        · intro x hx
          obtain rfl := List.mem_singleton.1 hx
          exact ⟨(hcall.fresh hmay).1, .inl rfl⟩
        · intro x hx
          obtain rfl := List.mem_singleton.1 hx
          exact ⟨(hcall.fresh hmay).2, .inr rfl⟩
      have hnodup : a.sent.Nodup := by
        rw [hclient.sent, List.nodup_append]
        refine ⟨hworker.observed.nodup, ?_, fun x hx y hy hxy => (hnew y hy).1 (hxy ▸ hx)⟩
        rcases hcases with ⟨rfl, -⟩ | ⟨-, -, rfl | ⟨rfl, -⟩⟩ <;> simp
      have hown : CallOk id a p := by
        refine ⟨fun hp => ?_, fun hp => ?_, fun hp => by rw [hclient.flushed]; exact hflush hp⟩
        · rcases hcases with ⟨rfl, hmay, -⟩ | ⟨-, hmay, -⟩
          · rw [hclient.sent, List.append_nil]
            exact hcall.fresh (hmay hp)
          · exact absurd hp hmay
        · rcases hcases with ⟨-, -, hne⟩ | ⟨-, -, rfl | ⟨-, hne⟩⟩
          · exact absurd hp hne
          · rw [hclient.sent]; simp
          · exact absurd hp hne
      refine ⟨hothers hclient hnodup (fun j hj => ?_) hown, by simp [hclient.sent]⟩
      refine ⟨fun hx => ?_, fun hx => ?_⟩
      · rcases (hnew _ hx).2 with hx | hx
        · cases hx; exact hj rfl
        · cases hx
      · rcases (hnew _ hx).2 with hx | hx
        · cases hx
        · cases hx; exact hj rfl

/-- The runs of a speculative controller. -/
abbrev Run (maxBatch : ℕ) (intents : ℕ → QueuedIntent) : System → System → Prop :=
  Threads.Run (step maxBatch intents) fun _ _ _ => True

theorem ok_run (hd : ∃ b, database.Plain b) {s t : System} (h : Run maxBatch intents s t)
    (hs : s.Annotated (ok intents database opened)) :
    t.Annotated (ok intents database opened) ∧ s.shared.sent <+: t.shared.sent := by
  induction h with
  | refl => exact ⟨hs, List.prefix_refl _⟩
  | tail _ hmoves _ ih =>
    obtain ⟨hok, hsent⟩ := ok_moves hd ih.1 hmoves
    exact ⟨hok, ih.2.trans hsent⟩

theorem initial_ok {store : FileEpochStore}
    (hstore : store.frames = database.history) (validators : List Validator) :
    (initial database store validators).Annotated (ok intents database store) := by
  intro i
  cases i with
  | opener => trivial
  | registrar => trivial
  | worker =>
    have haccounted : Accounted (initial database store validators).shared (.recv []) [] :=
      ⟨rfl, fun c hc => (nomatch hc), fun c hc => (nomatch hc), fun t ht => (nomatch ht), .refl _,
        [], rfl, .refl _⟩
    exact ⟨⟨List.nodup_nil, .refl _, .refl _, fun f hf => (nomatch hf)⟩, fun _ => ⟨[], haccounted⟩,
      ⟨.nil, .refl store, fun t w f entities ht => (nomatch ht)⟩, hstore⟩
  | call id =>
    exact ⟨fun _ => ⟨List.not_mem_nil, List.not_mem_nil⟩, fun h => (nomatch h),
      fun h => (nomatch h)⟩

/-- What a speculative controller promises in every state. -/
structure Safe (intents : ℕ → QueuedIntent) (database : World) (s : System) : Prop where
  /-- The published world is the head of the store, but for an epoch that is completed and about
  to be published. -/
  head : (∀ p next vs pending, s.place .worker ≠ SpeculativePlace.publish p next vs pending) →
    s.shared.current.HeadOf s.shared.store.frames
  /-- An accepted ticket has its frame in the file and in the published world. -/
  accepted : ∀ t w f entities, (t, .accepted w f entities) ∈ s.shared.answers →
    (∃ p, (p, true) ∈ s.shared.settled ∧ t ∈ p.source ∧ w = p.plan.tail ∧ f ∈ p.plan.frames) ∧
    (∃ fs, s.shared.current.frames = .ok fs ∧ f ∈ fs) ∧ f ∈ s.shared.store.frames ∧
    frameFormat.encode (encodePayload f) <:+: s.shared.store.io.bytes
  /-- Every settled epoch was planned on the world that was published then; a failed one leaves
  that world. -/
  planned : Planned intents database s.shared.settled s.shared.current
  /-- The epoch that is being written was planned on the published world. -/
  written : ∀ p, SpeculativePlace.written (s.place .worker) = some p →
    p.PlannedOn intents s.shared.current
  /-- Nothing of a failed epoch is published. -/
  discarded : ∀ p q, (p, false) ∈ s.shared.settled → (q, true) ∈ s.shared.settled →
    ∀ t ∈ p.source, t ∉ q.source
  /-- Epochs are published in the order in which their intents were claimed, and claimed in the
  order in which they were sent. -/
  ordered : ((publishedEpochs s.shared.settled).flatMap (·.source)).Sublist s.shared.claimed ∧
    s.shared.claimed.Sublist (tickets s.shared.sent) ∧ (tickets s.shared.sent).Nodup

theorem nodup_tickets {commands : List Command} (h : commands.Nodup) : (tickets commands).Nodup := by
  refine h.filterMap fun x y t hx hy => ?_
  cases x <;> cases y <;> cases hx <;> cases hy
  rfl

/-- The published world is the head of the store. -/
theorem frames_of_stands {a : Shared} {p : SpeculativePlace} (h : stands intents a p)
    (hp : ∀ q next vs pending, p ≠ .publish q next vs pending) :
    a.store.frames = a.current.history := by
  cases p with
  | publish q next vs pending => exact absurd rfl (hp q next vs pending)
  | prepare q vs pending => exact h.1
  | submit q file vs pending => exact h.1
  | complete q file next vs pending => exact h.1
  | settle next persisted vs pending => exact h.1
  | deliver answers next => exact h.2.1
  | successor stage pending =>
    cases stage with
    | inFlight q file vs => exact h.1
    | _ => exact h
  | claim stage batch pending =>
    cases stage with
    | inFlight q file vs => exact h.1
    | _ => exact h
  | derive stage batch pending =>
    cases stage with
    | inFlight q file vs => exact h.1
    | _ => exact h
  | _ => exact h

/-- The store is never behind the published world. -/
theorem history_of_stands {a : Shared} {p : SpeculativePlace} (h : stands intents a p) :
    ∃ new, a.store.frames = a.current.history ++ new := by
  by_cases hp : ∃ q next vs pending, p = .publish q next vs pending
  · obtain ⟨q, next, vs, pending, rfl⟩ := hp
    exact ⟨_, h.1⟩
  · refine ⟨[], ?_⟩
    rw [List.append_nil]
    exact frames_of_stands h fun q next vs pending hq => hp ⟨q, next, vs, pending, hq⟩

theorem safe_of_ok (hd : ∃ b, database.Plain b) (hopened : opened.frames = database.history)
    {s : System} (h : s.Annotated (ok intents database opened)) : Safe intents database s := by
  obtain ⟨hobs, -, hdata, hstands⟩ : WorkerOk intents database opened s.shared (s.place .worker) :=
    h .worker
  obtain ⟨⟨b, hb⟩, hhist⟩ := hdata.planned.plain hd
  have hnodup := nodup_tickets hobs.nodup
  have hsettled : (s.shared.settled.flatMap (·.1.source)).Nodup :=
    (hnodup.sublist hobs.claimed).sublist hobs.settled
  have hpublished : ∀ {p : PreparedDurableBatch} {f : CommitFrame}, (p, true) ∈ s.shared.settled →
      f ∈ p.plan.frames → f ∈ s.shared.current.history.drop opened.frames.length := by
    intro p f hp hf
    rw [hhist, hopened, List.drop_left, List.mem_flatMap]
    exact ⟨p, mem_publishedEpochs.2 hp, hf⟩
  refine ⟨fun hplace => ?_, fun t w f entities ht => ?_, hdata.planned,
    fun p hp => planned_of_stands hstands hp, fun p q hp hq t htp htq => ?_, ?_, hobs.claimed, hnodup⟩
  · rw [frames_of_stands hstands hplace]
    exact hb.headOf
  · obtain ⟨p, hp, hsource, hworld, hf⟩ := hdata.accepts t w f entities ht
    have hdrop := hpublished hp hf
    obtain ⟨new, hnew⟩ := history_of_stands hstands
    have hmem : f ∈ s.shared.store.frames.drop opened.frames.length := by
      rw [hnew, List.drop_append_of_le_length (by rw [hhist, hopened]; simp)]
      exact List.mem_append_left _ hdrop
    exact ⟨⟨p, hp, hsource, hworld, hf⟩, ⟨_, hb.replays.frames, List.mem_of_mem_drop hdrop⟩,
      List.mem_of_mem_drop hmem, hdata.extended.record_mem hmem⟩
  · -- a call is in one settled epoch only
    have hpair := (List.nodup_flatMap.1 hsettled).2
    have : Std.Symm (Function.onFun List.Disjoint
        fun e : PreparedDurableBatch × Bool => e.1.source) := ⟨fun _ _ h => h.symm⟩
    exact hpair.forall hp hq (by simp) htp htq
  · refine List.Sublist.trans ?_ hobs.settled
    unfold publishedEpochs
    rw [List.flatMap_map]
    exact List.Sublist.flatMap List.filter_sublist _

/-- **Speculation is safe**: in every state `t` of every run, the published world is the head of
the store but between a completion and its publication, an accepted ticket is durable and
published, epochs are published in the order of their claims and planned on the published
world, a failed epoch leaves no trace, and a `flush` that started in `s` returns only when the
tickets that were issued by then are answered. -/
theorem speculation_safe {store : FileEpochStore} {validators : List Validator} {s t : System}
    (hd : World.reconstruct store.frames = .ok database)
    (hs : Run maxBatch intents (initial database store validators) s) (ht : Run maxBatch intents s t) :
    Safe intents database t ∧
      ∀ f u, s.place (.call f) = CallPlace.idle →
        t.place (.call f) = CallPlace.returned .flushed →
        s.place (.call u) = CallPlace.returned .ticket → t.shared.Answered u := by
  obtain ⟨a, ha, hprefix⟩ := World.reconstruct_holds hd
  have hplain := World.plain_of_replays ha.toReplays hprefix
  have hhist : store.frames = database.history :=
    Except.ok.inj (ha.frames.symm.trans hplain.replays.frames)
  obtain ⟨hsok, -⟩ := ok_run ⟨a, hplain⟩ hs (initial_ok hhist validators)
  obtain ⟨htok, new, hnew⟩ := ok_run ⟨a, hplain⟩ ht hsok
  refine ⟨safe_of_ok ⟨a, hplain⟩ hhist htok, fun f u hidle hflushed hticket => ?_⟩
  have hf : CallOk f s.shared (s.place (.call f)) := hsok (.call f)
  have hu : CallOk u s.shared (s.place (.call u)) := hsok (.call u)
  have hf' : CallOk f t.shared (t.place (.call f)) := htok (.call f)
  have hworker : WorkerOk intents database store t.shared (t.place .worker) := htok .worker
  -- the barrier was sent behind the ticket
  obtain ⟨hmem, hbefore⟩ := hworker.observed.flushed f (hf'.flushed hflushed)
  have hfresh := (hf.fresh (by rw [hidle]; trivial)).2
  rw [← hnew, List.mem_append] at hmem
  obtain ⟨xs, zs, rfl⟩ := List.append_of_mem (hmem.resolve_left hfresh)
  refine hbefore (s.shared.sent ++ xs) zs (by rw [← hnew, List.append_assoc]) u ?_
  exact List.mem_append_left _ (hu.ticket hticket)

/-- An intent that defines a slot, whatever call submits it. -/
def definesSlot (_ : ℕ) : QueuedIntent :=
  (QueuedIntent.new 0).define ⟨"s"⟩ ⟨.literal ⟨"x"⟩, ⟨"p"⟩, .literal ⟨"y"⟩⟩

/-- A controller on a new file. -/
def onNewFile (script : List IoOutcome) : System :=
  initial .genesis (FileEpochStore.created script .perEpoch) []

/-- The controller opens, and a call submits. -/
def issuing : List (Thread × Choice) :=
  (.opener, .call .go) :: (.call 0, .call .submit) :: List.replicate 3 (.call 0, .call .go)

/-- Another call flushes, and the worker runs until it waits. -/
def flushing : List (Thread × Choice) :=
  (.call 1, .call .flush) :: List.replicate 3 (.call 1, .call .go) ++
    List.replicate 14 (.worker, .call .go) ++ [(.call 1, .call .go)]

/-- A ticket is accepted and a flush behind it returns. -/
theorem speculation_safe_flushed :
    ∃ s t, Run 8 definesSlot (onNewFile []) s ∧ Run 8 definesSlot s t ∧
      t.shared.settled.map Prod.snd = [true] ∧ Safe definesSlot .genesis t ∧ t.shared.Answered 0 := by
  cases hs : Threads.follow (step 8 definesSlot) (onNewFile []) issuing with
  | none =>
    have h : (Threads.follow (step 8 definesSlot) (onNewFile []) issuing).isSome = true := by
      decide +kernel
    rw [hs] at h
    cases h
  | some s =>
    cases ht : Threads.follow (step 8 definesSlot) s flushing with
    | none =>
      have h : ((Threads.follow (step 8 definesSlot) (onNewFile []) issuing).bind fun s =>
          Threads.follow (step 8 definesSlot) s flushing).isSome = true := by
        decide +kernel
      rw [hs] at h
      simp only [Option.bind_some, ht] at h
      cases h
    | some t =>
      have hplaces : ((Threads.follow (step 8 definesSlot) (onNewFile []) issuing).map fun s =>
          decide (s.place (.call 0) = CallPlace.returned .ticket ∧
            s.place (.call 1) = CallPlace.idle)) = some true := by
        decide +kernel
      have hends : ((Threads.follow (step 8 definesSlot) (onNewFile []) issuing).bind fun s =>
          (Threads.follow (step 8 definesSlot) s flushing).map fun t =>
            decide (t.place (.call 1) = CallPlace.returned .flushed ∧
              t.shared.settled.map Prod.snd = [true])) = some true := by
        decide +kernel
      simp only [hs, ht, Option.map_some, Option.bind_some, Option.some.injEq,
        decide_eq_true_eq] at hplaces hends
      have hrun := Threads.run_of_schedule hs
      have hrun' := Threads.run_of_schedule ht
      obtain ⟨hsafe, hflush⟩ := speculation_safe (s := s) (t := t)
        (show World.reconstruct (FileEpochStore.created [] .perEpoch).frames = .ok .genesis from rfl)
        hrun hrun'
      exact ⟨s, t, hrun, hrun', hends.2, hsafe, hflush 1 0 hplaces.2 hends.1 hplaces.1⟩

end Controller.Speculative

end ForthDB
