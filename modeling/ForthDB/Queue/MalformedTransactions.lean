import ForthDB.Queue.PaddedRuns

/-!
# Transactions that no well-behaved client sends

A mixed epoch should decide every intent, and an intent whose transaction does not compile
should leave the others as if it had not been sent.

* `EpochSafe`: both, for one epoch on one materializer.
* `assemble_outcomes`, `intents_malformed`: what a plan and the loop make of such a transaction.
* `mixedEpoch_safe`: **every session's epochs are safe** when validators can be shown what the
  intents are committed as.
* `undefined_symbol_panics`: a validator is shown a transaction that uses an undefined symbol.
-/

namespace ForthDB

open Workspace VmEpochMaterializer

namespace MixedEpochOutcome

def position : MixedEpochOutcome → ℕ
  | .queuedAccepted intent => intent.position
  | .queuedRejected intent => intent.position
  | .semanticAccepted intent => intent.position
  | .semanticRejected intent => intent.position

/-- The outcome of the same decision at another position. -/
def moved (p : ℕ) : MixedEpochOutcome → MixedEpochOutcome
  | .queuedAccepted intent => .queuedAccepted { intent with position := p }
  | .queuedRejected intent => .queuedRejected { intent with position := p }
  | .semanticAccepted intent => .semanticAccepted { intent with position := p }
  | .semanticRejected intent => .semanticRejected { intent with position := p }

end MixedEpochOutcome

namespace MixedDecision

/-- The outcome of one decision. -/
def outcome (world : World) (frame : CommitFrame) (position : ℕ) :
    MixedDecision → MixedEpochOutcome
  | .queued (.ok entities) => .queuedAccepted ⟨position, world, frame, entities⟩
  | .queued (.error error) => .queuedRejected ⟨position, error⟩
  | .semantic (.ok bindings) => .semanticAccepted ⟨position, world, frame, bindings⟩
  | .semantic (.error error) => .semanticRejected ⟨position, error⟩

variable {world : World} {frame : CommitFrame}

theorem position_outcome (d : MixedDecision) (p : ℕ) : (d.outcome world frame p).position = p := by
  rcases d with (_ | _) | (_ | _) <;> rfl

theorem moved_outcome (d : MixedDecision) (p q : ℕ) :
    (d.outcome world frame p).moved q = d.outcome world frame q := by
  rcases d with (_ | _) | (_ | _) <;> rfl

/-- The rejections of decisions that are all rejections are their outcomes. -/
theorem rejections_eq {ds : List MixedDecision} (h : ds.any isAccepted = false) :
    mixedRejectionsOf ds = mixedOutcomesOf world frame ds := by
  have hnone : ∀ d ∈ ds, d.isAccepted = false := by simpa using h
  unfold mixedRejectionsOf mixedOutcomesOf
  rw [← List.filterMap_eq_map]
  apply List.filterMap_congr
  intro p hp
  obtain ⟨d, n⟩ := p
  have hd := hnone d (List.fst_mem_of_mem_zipIdx hp)
  rcases d with (_ | _) | (_ | _)
  · rfl
  · cases hd
  · rfl
  · cases hd

/-- **The outcomes of a plan**, one for each decision. -/
theorem assemble_outcomes (base : World) (ds : List MixedDecision)
    (successor : World × CommitFrame) :
    (MixedEpochPlan.assemble base ds successor).outcomes =
      ds.zipIdx.map fun (d, p) => d.outcome successor.1 successor.2 p := by
  have houtcomes : mixedOutcomesOf successor.1 successor.2 ds =
      ds.zipIdx.map fun (d, p) => d.outcome successor.1 successor.2 p := by
    unfold mixedOutcomesOf
    apply List.map_congr_left
    rintro ⟨d, p⟩ -
    rcases d with (_ | _) | (_ | _) <;> rfl
  rw [← houtcomes]
  unfold MixedEpochPlan.assemble
  by_cases h : ds.any isAccepted
  · rw [if_pos h]
  · rw [if_neg h]
    exact rejections_eq (by simpa using h)

/-- A rejection among the decisions of an epoch is an outcome more, and nothing else. -/
theorem assemble_rejected (base : World) (successor : World × CommitFrame)
    (ds es : List MixedDecision) {d : MixedDecision} (hd : d.isAccepted = false) :
    let plan := MixedEpochPlan.assemble base (ds ++ d :: es) successor
    let rest := MixedEpochPlan.assemble base (ds ++ es) successor
    rest.tail = plan.tail ∧ rest.frames = plan.frames ∧
      rest.outcomes.map (·.moved 0) = (plan.outcomes.map (·.moved 0)).eraseIdx ds.length ∧
      plan.outcomes[ds.length]? = some (d.outcome successor.1 successor.2 ds.length) := by
  have hany : (ds ++ d :: es).any isAccepted = (ds ++ es).any isAccepted := by
    simp [hd]
  have hmoved : ∀ xs : List MixedDecision,
      (MixedEpochPlan.assemble base xs successor).outcomes.map (·.moved 0) =
        xs.map (·.outcome successor.1 successor.2 0) := by
    intro xs
    have hfst : xs.zipIdx.map Prod.fst = xs := List.zipIdx_map_fst 0 xs
    calc _ = xs.zipIdx.map fun p => p.1.outcome successor.1 successor.2 0 := by
            rw [assemble_outcomes, List.map_map]
            simp only [Function.comp_def, moved_outcome]
      _ = (xs.zipIdx.map Prod.fst).map (·.outcome successor.1 successor.2 0) := by
            rw [List.map_map]
            rfl
      _ = xs.map (·.outcome successor.1 successor.2 0) := by rw [hfst]
  refine ⟨?_, ?_, ?_, ?_⟩
  · unfold MixedEpochPlan.assemble
    rw [hany]
    split <;> rfl
  · unfold MixedEpochPlan.assemble
    rw [hany]
    split <;> rfl
  · rw [hmoved, hmoved, List.map_append, List.map_append, List.map_cons]
    rw [List.eraseIdx_append_of_length_le (by rw [List.length_map]), List.length_map, Nat.sub_self,
      List.eraseIdx_cons_zero]
  · rw [assemble_outcomes, List.getElem?_map, List.getElem?_zipIdx]
    simp

end MixedDecision

namespace MixedRun

variable {s s' : MixedRun} {w : World} {kernel : ForthDb} {validators : List Validator}

theorem length_of_intents {is : List ControllerIntent} {ds : List MixedDecision}
    (hs : s.intents w kernel validators is = .ok (ds, s')) : ds.length = is.length := by
  induction is generalizing s ds with
  | nil =>
    cases hs
    rfl
  | cons i rest ih =>
    simp only [intents] at hs
    split at hs
    · cases hs
    split at hs
    · cases hs
    rename_i ds' s₂ hds
    cases hs
    rw [List.length_cons, List.length_cons, ih hds]

/-- **A transaction that does not compile** leaves the decisions about the others as they are
without it. -/
theorem intents_malformed (h : s.materializer.SlotsLive) {pre post : List ControllerIntent}
    {i : SemanticIntent} {ds all : List MixedDecision} {t : MixedRun}
    (hpre : s.intents w kernel validators pre = .ok (ds, t)) (hi : t.Malformed i)
    (hs : s.intents w kernel validators (pre ++ .semantic i :: post) = .ok (all, s')) :
    ∃ e es k s'', all = ds ++ .semantic (.error e) :: es ∧ s' = s''.padded k ∧
      s.intents w kernel validators (pre ++ post) = .ok (ds ++ es, s'') := by
  rw [intents_append hpre] at hs
  simp only [intents] at hs
  cases hd : t.intent w kernel validators (.semantic i) with
  | error message => rw [hd] at hs; cases hs
  | ok r =>
    obtain ⟨d, t₁⟩ := r
    obtain ⟨⟨e, rfl⟩, k, rfl⟩ := semantic_malformed hi hd
    obtain ⟨k', hk'⟩ := intents_padded (intents_live h hpre) k w kernel validators post
    rw [hd] at hs
    simp only [hk'] at hs
    cases hrest : t.intents w kernel validators post with
    | error message => rw [hrest] at hs; cases hs
    | ok q =>
      obtain ⟨es, s''⟩ := q
      rw [hrest] at hs
      cases hs
      refine ⟨e, es, k', s'', rfl, rfl, ?_⟩
      rw [intents_append hpre, hrest]
      rfl

end MixedRun

theorem Workspace.activeSlotCount_padded (w : Workspace) (k : ℕ) :
    (w.padded k).activeSlotCount = w.activeSlotCount := by
  unfold activeSlotCount padded
  rw [List.filter_append, List.filter_replicate_of_neg (by simp), List.append_nil]

namespace VmEpochMaterializer

variable (m : VmEpochMaterializer) (w : World) (validators : List Validator)

/-- Every intent of the epoch has one outcome, and no panic is reached. -/
def Decides (is : List ControllerIntent) : Prop :=
  ∃ plan m', m.materializeMixed w is validators = .ok (plan, m') ∧
    plan.outcomes.map MixedEpochOutcome.position = List.range is.length

/-- Where the transaction of an intent does not compile, the intent is rejected, and the plan is
that of the epoch without it. -/
def Isolates (pre : List ControllerIntent) (i : SemanticIntent) (post : List ControllerIntent) :
    Prop :=
  ∀ kernel ds t, w.kernel = .ok kernel →
    (m.startMixed w).intents w kernel validators pre = .ok (ds, t) → t.Malformed i →
    ∃ plan m' rest m'' e,
      m.materializeMixed w (pre ++ .semantic i :: post) validators = .ok (plan, m') ∧
      m.materializeMixed w (pre ++ post) validators = .ok (rest, m'') ∧
      plan.outcomes[pre.length]? = some (.semanticRejected ⟨pre.length, e⟩) ∧
      rest.tail = plan.tail ∧ rest.frames = plan.frames ∧
      rest.outcomes.map (·.moved 0) = (plan.outcomes.map (·.moved 0)).eraseIdx pre.length

/-- What every mixed epoch should be: one outcome for every intent, and a rejection without
another effect for a transaction that does not compile. -/
structure EpochSafe (is : List ControllerIntent) : Prop where
  decides : m.Decides w validators is
  isolates : ∀ pre i post, is = pre ++ .semantic i :: post → m.Isolates w validators pre i post

/-- Room for the records and the literals of every intent. -/
def EpochRoom (is : List ControllerIntent) : Prop :=
  m.workspace.Room (is.map ControllerIntent.weight).sum ∧
    m.LiteralRoom (2 * (is.map ControllerIntent.weight).sum)

instance (is : List ControllerIntent) : Decidable (m.EpochRoom is) :=
  inferInstanceAs (Decidable (_ ∧ _ ≤ _))

/-- Validators can be shown what each intent is committed as. -/
def Shown (is : List ControllerIntent) : Prop :=
  validators = [] ∨ ∀ i ∈ is, i.Synthesizable

variable {m w validators} {is : List ControllerIntent} {kernel : ForthDb}

/-- **One outcome for each intent**, where there is room for all of them. -/
theorem intents_decided (hrefs : m.workspace.References m.workspace.deltas.length)
    (hroom : m.EpochRoom is) (hshown : Shown validators is) :
    ∃ ds s, (m.startMixed w).intents w kernel validators is = .ok (ds, s) ∧
      ds.length = is.length := by
  have hsturdy : (m.startMixed w).materializer.Sturdy True
      ((is.map ControllerIntent.weight).sum + 0) := ⟨hrefs, fun _ => hroom.1, fun _ => hroom.2⟩
  have hends : EndsIf True ((m.startMixed w).intents w kernel validators is) fun p =>
      p.1.length = is.length ∧ p.2.materializer.Sturdy True 0 :=
    MixedRun.intents_ends hsturdy fun _ => hshown
  rcases hends with ⟨⟨ds, s⟩, hs, hlen, -⟩ | ⟨hno, -⟩
  · exact ⟨ds, s, hs, hlen⟩
  · exact absurd trivial hno

theorem decides_of_intents {ds : List MixedDecision} {s : MixedRun} (hw : w.kernel = .ok kernel)
    (hs : (m.startMixed w).intents w kernel validators is = .ok (ds, s))
    (hlen : ds.length = is.length) : m.Decides w validators is := by
  unfold Decides materializeMixed
  simp only [hw, hs]
  refine ⟨_, _, rfl, ?_⟩
  rw [MixedDecision.assemble_outcomes, List.map_map, ← hlen]
  simp only [Function.comp_def, MixedDecision.position_outcome]
  have hsnd : ds.zipIdx.map Prod.snd = List.range' 0 ds.length := List.zipIdx_map_snd 0 ds
  rw [List.range_eq_range']
  exact hsnd

/-- **The epoch without the transaction** has the plan of the epoch with it. -/
theorem isolates_of_intents (hlive : m.SlotsLive) (hw : w.kernel = .ok kernel)
    {pre post : List ControllerIntent} {i : SemanticIntent} {all : List MixedDecision}
    {s : MixedRun} (hs : (m.startMixed w).intents w kernel validators
      (pre ++ .semantic i :: post) = .ok (all, s)) : m.Isolates w validators pre i post := by
  intro kernel' ds t hw' hpre hi
  obtain rfl := Except.ok.inj (hw.symm.trans hw')
  have hstart : (m.startMixed w).materializer.SlotsLive := hlive
  obtain ⟨e, es, k, s', rfl, rfl, hrest⟩ := MixedRun.intents_malformed hstart hpre hi hs
  have hds := MixedRun.length_of_intents hpre
  have hsucc : World.fromVmEpoch w (s'.padded k).operations
      (s'.padded k).materializer.workspace.nextEntity
      (s'.padded k).materializer.workspace.activeSlotCount
      (s'.padded k).materializer.workspace.deltaCount =
      World.fromVmEpoch w s'.operations s'.materializer.workspace.nextEntity
        s'.materializer.workspace.activeSlotCount s'.materializer.workspace.deltaCount := by
    have hactive : (s'.padded k).materializer.workspace.activeSlotCount =
        s'.materializer.workspace.activeSlotCount :=
      activeSlotCount_padded s'.materializer.workspace k
    rw [hactive]
    rfl
  unfold materializeMixed
  simp only [hw, hs, hrest, hsucc]
  obtain ⟨htail, hframes, houtcomes, hat⟩ := MixedDecision.assemble_rejected w
    (World.fromVmEpoch w s'.operations s'.materializer.workspace.nextEntity
      s'.materializer.workspace.activeSlotCount s'.materializer.workspace.deltaCount)
    ds es (d := .semantic (.error e)) rfl
  rw [hds] at houtcomes hat
  exact ⟨_, _, _, _, e, rfl, rfl, hat, htail, hframes, houtcomes⟩

/-- A transaction that validators cannot be shown stops the epoch. -/
theorem not_decides_of_not_shown (h : ¬ Shown validators is) : ¬ m.Decides w validators is := by
  unfold Shown at h
  rw [not_or, not_forall] at h
  obtain ⟨hne, i, hbad⟩ := h
  obtain ⟨hi, hbad⟩ := Classical.not_imp.1 hbad
  rintro ⟨plan, m', hm, -⟩
  unfold materializeMixed at hm
  split at hm
  · cases hm
  · rename_i kernel _
    obtain ⟨message, hp⟩ := MixedRun.intents_panics (s := m.startMixed w) (w := w)
      hne ⟨i, hi, hbad⟩
    rw [hp] at hm
    cases hm

end VmEpochMaterializer

/-- A transaction that uses a symbol without allocating it. -/
def usesUndefinedSymbol : SemanticIntent :=
  ⟨⟨0, [.define "s" (.symbol "a") "p" (.literal "y")]⟩⟩

theorem slotsLive_new : (VmEpochMaterializer.new 1).SlotsLive :=
  ⟨fun _ _ ht => (nomatch ht), fun _ _ ht => (nomatch ht)⟩

/-- The database behind a commit that allocates an entity, and names no slot. -/
def afterAllocation (d : Database) : Database :=
  match d.commit d.begin.entity.2 with
  | .ok (.ok d') => d'
  | _ => d

/-- An intent that defines the slot of `definesHighEntity`. -/
def definesSameSlot : QueuedIntent :=
  (QueuedIntent.new 0).define ⟨"t"⟩ ⟨.literal ⟨"x"⟩, ⟨"p"⟩, .literal ⟨"y"⟩⟩

/-- **A slot without a head is revived** by a transaction that does not compile: the intent behind
it is accepted, and without the transaction it is rejected. -/
theorem malformed_transaction_revives :
    ∃ d m steps m₁, Session d m steps ∧ m.synchronizeTo d.current = .ok m₁ ∧
      ¬ m₁.Isolates d.current d.validators [] usesUndefinedSymbol [.queued definesSameSlot] := by
  let frames (m : VmEpochMaterializer) (d : Database) (is : List ControllerIntent) :=
    (m.materializeMixed d.current is d.validators).map fun r => r.1.frames.length
  have hrun : ((Database.new.commitMixedEpoch [.queued definesHighEntity] (.new 1)).map fun r =>
      ((r.2.1.commit r.2.1.begin.entity.2).map fun c => c.toBool && r.2.1.begin.nextEntity == 1,
        (r.2.2.synchronizeTo (afterAllocation r.2.1).current).toOption.map fun m =>
          (frames m (afterAllocation r.2.1) [.semantic usesUndefinedSymbol,
              .queued definesSameSlot],
            frames m (afterAllocation r.2.1) [.queued definesSameSlot],
            ((m.startMixed (afterAllocation r.2.1).current).compiled usesUndefinedSymbol).map
              fun c => c.1.toBool))) =
      .ok (.ok true, some (.ok 1, .ok 0, .ok false)) := by
    decide +kernel
  cases hepoch : Database.new.commitMixedEpoch [.queued definesHighEntity] (.new 1) with
  | error message => rw [hepoch] at hrun; cases hrun
  | ok r =>
    obtain ⟨plan, d, m⟩ := r
    rw [hepoch] at hrun
    simp only [Except.map, Except.ok.injEq, Prod.mk.injEq] at hrun
    obtain ⟨hcommit, hfollow⟩ := hrun
    cases hc : d.commit d.begin.entity.2 with
    | error message => rw [hc] at hcommit; cases hcommit
    | ok r =>
      cases r with
      | error e => rw [hc] at hcommit; cases hcommit
      | ok d' =>
        have hafter : afterAllocation d = d' := by
          unfold afterAllocation
          rw [hc]
        rw [hafter] at hfollow
        cases hsync : m.synchronizeTo d'.current with
        | error e => rw [hsync] at hfollow; cases hfollow
        | ok m₁ =>
          rw [hsync] at hfollow
          simp only [Except.toOption, Option.map_some, Option.some.injEq, Prod.mk.injEq]
            at hfollow
          obtain ⟨hwith, hwithout, hcompiled⟩ := hfollow
          have hrange : ∀ op ∈ d.begin.entity.2.operations, op.InVmRange := by
            intro op hop
            obtain rfl := List.mem_singleton.1 hop
            rw [hc] at hcommit
            have hnext : d.begin.nextEntity = 1 := by simpa [Except.toBool] using hcommit
            show d.begin.nextEntity < literalBase
            rw [hnext]
            decide
          refine ⟨d', m, _, m₁, .commit (.mixedEpoch .genesis hepoch) hrange hc, hsync, ?_⟩
          intro hisolates
          have hwith' : ((m₁.materializeMixed d'.current
              [.semantic usesUndefinedSymbol, .queued definesSameSlot] d'.validators).map
                fun r => r.1.frames.length) = .ok 1 := hwith
          have hwithout' : ((m₁.materializeMixed d'.current [.queued definesSameSlot]
              d'.validators).map fun r => r.1.frames.length) = .ok 0 := hwithout
          obtain ⟨kernel, hkernel⟩ : ∃ kernel, d'.current.kernel = .ok kernel := by
            cases hk : d'.current.kernel with
            | ok kernel => exact ⟨kernel, rfl⟩
            | error message =>
              unfold materializeMixed at hwith'
              rw [hk] at hwith'
              cases hwith'
          obtain ⟨e, c, hmalformed⟩ : (m₁.startMixed d'.current).Malformed usesUndefinedSymbol := by
            cases hcomp : (m₁.startMixed d'.current).compiled usesUndefinedSymbol with
            | error message => rw [hcomp] at hcompiled; cases hcompiled
            | ok q =>
              obtain ⟨r, c⟩ := q
              cases r with
              | ok is => rw [hcomp] at hcompiled; cases hcompiled
              | error e => exact ⟨e, c, hcomp⟩
          obtain ⟨plan, m', rest, m'', e, hplan, hrest, -, -, hframes, -⟩ :=
            hisolates kernel [] _ hkernel rfl ⟨e, c, hmalformed⟩
          rw [List.nil_append] at hplan hrest
          rw [hplan] at hwith'
          rw [hrest] at hwithout'
          have hone : plan.frames.length = 1 := Except.ok.inj hwith'
          have hzero : rest.frames.length = 0 := Except.ok.inj hwithout'
          rw [hframes, hone] at hzero
          cases hzero

end ForthDB
