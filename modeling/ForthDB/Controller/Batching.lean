import Mathlib.Tactic.Common
import Mathlib.Order.Lattice
import Mathlib.Data.Nat.Basic

/-!
# Batching

The worker of a controller gathers a batch of intents and seals it. How many it waits for
is up to the policy; the adaptive policy keeps a target width that every batch corrects.
The worker of the file controller gathers as that of the in-memory controller does, and
stops as well when it finds that it is no longer running.

The clock decides at four places how the worker goes on. A `Reception` is what it finds at
its channel or at one of these places, so that a run over receptions is a run under some
arrivals and some clock.

* `Sealer.Sound`, `Sealer.receive_sound`: what one reception keeps.
* `batches_bounded_iff`: **batches and target respect the bounds of a policy** in every run
  exactly when its minimum does not exceed its maximum, or its maximum is 1.
-/

namespace ForthDB.Controller

/-- The policy without its delay: what the delay decides is part of a reception. -/
inductive BatchPolicy
  | immediateDrain (maxBatch : ℕ)
  | coalesce (maxBatch : ℕ)
  | adaptive (minBatch maxBatch : ℕ)
deriving DecidableEq, Repr

inductive BatchSealReason
  | capacity
  | timeout
  | drain
  | width
  | latency
  | lowTraffic
  | sourceStalled
  | barrier
deriving DecidableEq, Repr

inductive ControllerConfigError
  | zeroCapacity
  | zeroBatchSize
deriving DecidableEq, Repr

namespace BatchPolicy

def maxBatch : BatchPolicy → ℕ
  | immediateDrain maxBatch => maxBatch
  | coalesce maxBatch => maxBatch
  | adaptive _ maxBatch => maxBatch

def minBatch : BatchPolicy → ℕ
  | adaptive minBatch _ => minBatch
  | _ => 1

/-- The checks of `new` and of `new_with_runner`. -/
def validate (capacity : ℕ) (policy : BatchPolicy) : Except ControllerConfigError Unit :=
  if capacity = 0 then .error .zeroCapacity
  else if policy.maxBatch = 0 then .error .zeroBatchSize
  else .ok ()

/-- The minimum of the policy does not exceed its maximum, or no batch is wider than 1. -/
def Clamped : BatchPolicy → Prop
  | adaptive minBatch maxBatch => minBatch ≤ maxBatch ∨ maxBatch = 1
  | _ => True

instance (policy : BatchPolicy) : Decidable policy.Clamped :=
  match policy with
  | immediateDrain _ => inferInstanceAs (Decidable True)
  | coalesce _ => inferInstanceAs (Decidable True)
  | adaptive _ _ => inferInstanceAs (Decidable (_ ∨ _))

end BatchPolicy

/-- `AdaptiveState`, without the average interval of arrivals: it only sets how long a probe
waits. -/
structure AdaptiveState where
  targetWidth : ℕ
  epochsSealed : ℕ
deriving DecidableEq, Repr

namespace AdaptiveState

def new (initialTarget : ℕ) : AdaptiveState := ⟨initialTarget, 0⟩

def updateTarget (s : AdaptiveState) (reason : BatchSealReason)
    (achievedWidth minBatch maxBatch : ℕ) : AdaptiveState where
  targetWidth :=
    match reason with
    | .width =>
      if s.targetWidth ≤ achievedWidth then min ((s.targetWidth + 1) * 2) maxBatch
      else min (s.targetWidth + max minBatch 1) maxBatch
    -- no bound from above here
    | .latency => max (s.targetWidth / 2) minBatch
    | .sourceStalled => min (max achievedWidth minBatch) maxBatch
    | .lowTraffic => min (max achievedWidth minBatch) maxBatch
    | _ => s.targetWidth
  epochsSealed := s.epochsSealed + 1

end AdaptiveState

/-- Where the worker is between two receptions. -/
inductive Gathering (α : Type)
  | waiting
  /-- In the receiving loop that comes first. -/
  | draining (batch : List α)
  /-- In front of the probe of the adaptive policy. -/
  | probing (batch : List α)
  /-- In the receiving loop behind a probe that received an intent. -/
  | refilling (batch : List α)
  /-- In `process_batch`. -/
  | sealed (batch : List α) (reason : BatchSealReason)
deriving DecidableEq, Repr

/-- The batch so far. -/
def Gathering.batch {α : Type} : Gathering α → List α
  | waiting => []
  | draining batch => batch
  | probing batch => batch
  | refilling batch => batch
  | sealed batch _ => batch

/-- How far the batch is from being processed, at most, without another intent. -/
def Gathering.distance {α : Type} : Gathering α → ℕ
  | waiting => 0
  | draining _ => 4
  | probing _ => 3
  | refilling _ => 2
  | sealed _ _ => 1

theorem Gathering.distance_le {α : Type} (g : Gathering α) : g.distance ≤ 4 := by
  cases g <;> simp [distance]

/-- What the worker finds. -/
inductive Reception (α : Type)
  | intent (staged : α)
  | barrier
  /-- The channel is empty or disconnected, or nothing came in time. -/
  | empty
  /-- The deadline of a coalescing batch is over. -/
  | deadline
  /-- The file controller is no longer running. -/
  | halted
  /-- The oldest intent has used up the latency budget. -/
  | late
  /-- The probe received nothing; `slow` if arrivals are slow for the budget. -/
  | quiet (slow : Bool)
  /-- `process_batch` has returned. -/
  | processed
deriving DecidableEq, Repr

/-- Whose worker it is. -/
inductive WorkerKind
  | queued
  | durable
deriving DecidableEq, Repr

/-- What a worker keeps for its batches. -/
structure Sealer (α : Type) where
  state : AdaptiveState
  gathering : Gathering α
deriving DecidableEq, Repr

namespace Sealer

variable {α : Type} (policy : BatchPolicy)

def new : Sealer α := ⟨.new (min (max policy.minBatch 16) policy.maxBatch), .waiting⟩

variable (w : Sealer α)

/-- The end of the adaptive branch. -/
def sealAdaptive (batch : List α) (reason : BatchSealReason) : Sealer α :=
  let reason := if policy.maxBatch ≤ batch.length then .capacity else reason
  ⟨w.state.updateTarget reason batch.length policy.minBatch policy.maxBatch, .sealed batch reason⟩

/-- Behind the first loop. -/
def drained (batch : List α) : Sealer α :=
  match policy with
  | .immediateDrain maxBatch =>
    { w with gathering := .sealed batch (if maxBatch ≤ batch.length then .capacity else .drain) }
  | .coalesce maxBatch =>
    { w with gathering := .sealed batch (if maxBatch ≤ batch.length then .capacity else .timeout) }
  | .adaptive _ _ =>
    if w.state.targetWidth ≤ batch.length then w.sealAdaptive policy batch .width
    else { w with gathering := .probing batch }

/-- How many intents the first loop gathers. -/
def limit : ℕ :=
  match policy with
  | .immediateDrain maxBatch => maxBatch
  | .coalesce maxBatch => maxBatch
  | .adaptive _ _ => w.state.targetWidth

/-- The head of the first loop. -/
def drain (batch : List α) : Sealer α :=
  if batch.length < w.limit policy then { w with gathering := .draining batch }
  else w.drained policy batch

/-- Behind the second loop. -/
def refilled (batch : List α) : Sealer α :=
  w.sealAdaptive policy batch
    (if w.state.targetWidth ≤ batch.length then .width else .lowTraffic)

/-- The head of the second loop. -/
def refill (batch : List α) : Sealer α :=
  if batch.length < w.state.targetWidth then { w with gathering := .refilling batch }
  else w.refilled policy batch

/-- One reception. A barrier that ends a loop is set aside. -/
def receive (kind : WorkerKind) : Gathering α → Reception α → Option (Sealer α)
  | .waiting, .intent staged => some (w.drain policy [staged])
  | .waiting, .barrier => some w
  | .draining batch, .intent staged => some (w.drain policy (batch ++ [staged]))
  | .draining batch, .barrier => some (w.drained policy batch)
  | .draining batch, .empty => some (w.drained policy batch)
  | .draining batch, .deadline =>
    match policy with
    | .coalesce _ => some (w.drained policy batch)
    | _ => none
  | .draining batch, .halted => if kind = .durable then some (w.drained policy batch) else none
  | .probing batch, .late => some (w.sealAdaptive policy batch .latency)
  | .probing batch, .intent staged => some (w.refill policy (batch ++ [staged]))
  | .probing batch, .barrier => some (w.sealAdaptive policy batch .barrier)
  | .probing batch, .quiet slow =>
    some (w.sealAdaptive policy batch (if slow then .lowTraffic else .sourceStalled))
  | .refilling batch, .intent staged => some (w.refill policy (batch ++ [staged]))
  | .refilling batch, .barrier => some (w.refilled policy batch)
  | .refilling batch, .empty => some (w.refilled policy batch)
  | .refilling batch, .halted => if kind = .durable then some (w.refilled policy batch) else none
  | .sealed _ _, .processed => some { w with gathering := .waiting }
  | _, _ => none

/-- A run over receptions. -/
def run (kind : WorkerKind) (w : Sealer α) : List (Reception α) → Option (Sealer α)
  | [] => some w
  | r :: rs =>
    match w.receive policy kind w.gathering r with
    | none => none
    | some w => run kind w rs

/-- The target and the batch that is sealed are within the bounds of the policy. -/
structure Bounded : Prop where
  target : 1 ≤ w.state.targetWidth ∧ w.state.targetWidth ≤ policy.maxBatch
  batch : ∀ batch reason, w.gathering = .sealed batch reason →
    1 ≤ batch.length ∧ batch.length ≤ policy.maxBatch

/-- How wide a batch is that is still gathered. -/
def Partial : Gathering α → Prop
  | .waiting => True
  | .draining batch => 1 ≤ batch.length ∧ batch.length < w.limit policy
  | .probing batch => 1 ≤ batch.length ∧ batch.length < w.state.targetWidth
  | .refilling batch => 1 ≤ batch.length ∧ batch.length < w.state.targetWidth
  | .sealed batch _ => 1 ≤ batch.length ∧ batch.length ≤ policy.maxBatch

/-- What every reception keeps under a policy that is clamped. -/
structure Sound : Prop where
  target : 1 ≤ w.state.targetWidth ∧ w.state.targetWidth ≤ policy.maxBatch
  width : w.Partial policy w.gathering

variable {policy} {w}

theorem Sound.bounded (h : w.Sound policy) : w.Bounded policy := by
  refine ⟨h.target, fun batch reason hsealed => ?_⟩
  have hwidth := h.width
  rw [hsealed] at hwidth
  exact hwidth

end Sealer

/-- **The target stays within its bounds** when a batch that does not fill the maximum is
sealed. A batch is late only behind a target of at least 2. -/
theorem AdaptiveState.updateTarget_bounds {s : AdaptiveState} {reason : BatchSealReason}
    {achieved minBatch maxBatch : ℕ} (hmin : minBatch ≤ maxBatch) (hwide : 1 ≤ achieved)
    (htarget : 1 ≤ s.targetWidth ∧ s.targetWidth ≤ maxBatch)
    (hlate : reason = .latency → 2 ≤ s.targetWidth) :
    1 ≤ (s.updateTarget reason achieved minBatch maxBatch).targetWidth ∧
      (s.updateTarget reason achieved minBatch maxBatch).targetWidth ≤ maxBatch := by
  obtain ⟨hpos, hle⟩ := htarget
  unfold AdaptiveState.updateTarget
  cases reason with
  | width =>
    simp only
    split
    · omega
    · omega
  | latency =>
    have htwo := hlate rfl
    simp only
    omega
  | sourceStalled => simp only; omega
  | lowTraffic => simp only; omega
  | capacity => exact ⟨hpos, hle⟩
  | timeout => exact ⟨hpos, hle⟩
  | drain => exact ⟨hpos, hle⟩
  | barrier => exact ⟨hpos, hle⟩

namespace Sealer

variable {α : Type} {policy : BatchPolicy} {w : Sealer α} {batch : List α}

/-- Under a clamped policy a batch below the maximum leaves room for the minimum. -/
theorem minBatch_le (hc : policy.Clamped) (hbatch : 1 ≤ batch.length)
    (hroom : batch.length < policy.maxBatch) : policy.minBatch ≤ policy.maxBatch := by
  cases policy with
  | immediateDrain maxBatch => exact Nat.one_le_of_lt hroom
  | coalesce maxBatch => exact Nat.one_le_of_lt hroom
  | adaptive minBatch maxBatch =>
    rcases hc with hle | hone
    · exact hle
    · have hlt : batch.length < maxBatch := hroom
      omega

theorem limit_le (h : w.state.targetWidth ≤ policy.maxBatch) : w.limit policy ≤ policy.maxBatch := by
  cases policy with
  | immediateDrain maxBatch => exact le_rfl
  | coalesce maxBatch => exact le_rfl
  | adaptive minBatch maxBatch => exact h

/-- **Sealing** under the adaptive policy. -/
theorem sealAdaptive_sound (hc : policy.Clamped)
    (htarget : 1 ≤ w.state.targetWidth ∧ w.state.targetWidth ≤ policy.maxBatch)
    (hbatch : 1 ≤ batch.length) (hle : batch.length ≤ policy.maxBatch)
    {reason : BatchSealReason} (hlate : reason = .latency → batch.length < w.state.targetWidth) :
    (w.sealAdaptive policy batch reason).Sound policy := by
  unfold sealAdaptive
  by_cases hfull : policy.maxBatch ≤ batch.length
  · simp only [if_pos hfull]
    exact ⟨htarget, hbatch, hle⟩
  · simp only [if_neg hfull]
    have hmin := minBatch_le hc hbatch (not_le.1 hfull)
    refine ⟨AdaptiveState.updateTarget_bounds hmin hbatch htarget fun hr => ?_, hbatch, hle⟩
    have hlt := hlate hr
    omega

theorem drained_sound (hc : policy.Clamped) (h : w.Sound policy) (hbatch : 1 ≤ batch.length)
    (hle : batch.length ≤ w.limit policy) : (w.drained policy batch).Sound policy := by
  have hmax := hle.trans (limit_le h.target.2)
  unfold drained
  cases policy with
  | immediateDrain maxBatch => exact ⟨h.target, hbatch, hmax⟩
  | coalesce maxBatch => exact ⟨h.target, hbatch, hmax⟩
  | adaptive minBatch maxBatch =>
    simp only
    split
    · exact sealAdaptive_sound hc h.target hbatch hmax (fun hr => nomatch hr)
    · rename_i hbelow
      exact ⟨h.target, hbatch, not_le.1 hbelow⟩

theorem drain_sound (hc : policy.Clamped) (h : w.Sound policy) (hbatch : 1 ≤ batch.length)
    (hle : batch.length ≤ w.limit policy) : (w.drain policy batch).Sound policy := by
  unfold drain
  split
  · rename_i hlt
    exact ⟨h.target, hbatch, hlt⟩
  · exact drained_sound hc h hbatch hle

theorem refilled_sound (hc : policy.Clamped) (h : w.Sound policy) (hbatch : 1 ≤ batch.length)
    (hle : batch.length ≤ w.state.targetWidth) : (w.refilled policy batch).Sound policy := by
  unfold refilled
  refine sealAdaptive_sound hc h.target hbatch (hle.trans h.target.2) fun hr => ?_
  split at hr <;> cases hr

theorem refill_sound (hc : policy.Clamped) (h : w.Sound policy) (hbatch : 1 ≤ batch.length)
    (hle : batch.length ≤ w.state.targetWidth) : (w.refill policy batch).Sound policy := by
  unfold refill
  split
  · rename_i hlt
    exact ⟨h.target, hbatch, hlt⟩
  · exact refilled_sound hc h hbatch hle

/-- A worker waits for intents as long as its batch is below a positive limit. -/
theorem limit_pos (h : w.Sound policy) : 1 ≤ w.limit policy := by
  have htarget := h.target
  cases policy with
  | immediateDrain maxBatch => exact htarget.1.trans htarget.2
  | coalesce maxBatch => exact htarget.1.trans htarget.2
  | adaptive minBatch maxBatch => exact htarget.1

/-- **One reception** keeps the bounds. -/
theorem receive_sound (hc : policy.Clamped) (h : w.Sound policy) {kind : WorkerKind}
    {r : Reception α} {w' : Sealer α} (hr : w.receive policy kind w.gathering r = some w') :
    w'.Sound policy := by
  have hwidth := h.width
  have hlimit := limit_pos h
  generalize w.gathering = g at hr hwidth
  cases g with
  | waiting =>
    cases r <;> simp only [receive, Option.some.injEq, reduceCtorEq] at hr
    · rw [← hr]
      exact drain_sound hc h le_rfl hlimit
    · rw [← hr]
      exact h
  | draining batch =>
    obtain ⟨hone, hlt⟩ := hwidth
    have hdrained := drained_sound hc h hone hlt.le
    cases r <;> simp only [receive, Option.some.injEq, reduceCtorEq] at hr
    · rw [← hr]
      refine drain_sound hc h ?_ ?_ <;> rw [List.length_append, List.length_singleton] <;> omega
    · rwa [← hr]
    · rwa [← hr]
    · cases policy <;> simp only [Option.some.injEq, reduceCtorEq] at hr
      rwa [← hr]
    · split at hr <;> cases hr
      exact hdrained
  | probing batch =>
    obtain ⟨hone, hlt⟩ := hwidth
    have hle : batch.length ≤ policy.maxBatch := hlt.le.trans h.target.2
    cases r <;> simp only [receive, Option.some.injEq, reduceCtorEq] at hr
    · rw [← hr]
      refine refill_sound hc h ?_ ?_ <;> rw [List.length_append, List.length_singleton] <;> omega
    · rw [← hr]
      exact sealAdaptive_sound hc h.target hone hle (fun hb => nomatch hb)
    · rw [← hr]
      exact sealAdaptive_sound hc h.target hone hle (fun _ => hlt)
    · rw [← hr]
      exact sealAdaptive_sound hc h.target hone hle (fun _ => hlt)
  | refilling batch =>
    obtain ⟨hone, hlt⟩ := hwidth
    have hrefilled := refilled_sound hc h hone hlt.le
    cases r <;> simp only [receive, Option.some.injEq, reduceCtorEq] at hr
    · rw [← hr]
      refine refill_sound hc h ?_ ?_ <;> rw [List.length_append, List.length_singleton] <;> omega
    · rwa [← hr]
    · rwa [← hr]
    · split at hr <;> cases hr
      exact hrefilled
  | sealed batch reason =>
    cases r <;> simp only [receive, Option.some.injEq, reduceCtorEq] at hr
    rw [← hr]
    exact ⟨h.target, trivial⟩

/-! ## What a reception does to the batch -/

/-- A worker with a batch in its hands. -/
structure Gathers (w : Sealer α) (batch : List α) : Prop where
  batch : w.gathering.batch = batch
  busy : w.gathering ≠ .waiting

theorem gathers_sealAdaptive (policy : BatchPolicy) (w : Sealer α) (batch : List α)
    (reason : BatchSealReason) : (w.sealAdaptive policy batch reason).Gathers batch :=
  ⟨rfl, fun h => nomatch h⟩

theorem gathers_drained (policy : BatchPolicy) (w : Sealer α) (batch : List α) :
    (w.drained policy batch).Gathers batch := by
  unfold drained
  cases policy with
  | immediateDrain maxBatch => exact ⟨rfl, fun h => nomatch h⟩
  | coalesce maxBatch => exact ⟨rfl, fun h => nomatch h⟩
  | adaptive minBatch maxBatch =>
    simp only
    split
    · exact gathers_sealAdaptive _ w batch .width
    · exact ⟨rfl, fun h => nomatch h⟩

theorem distance_drained (policy : BatchPolicy) (w : Sealer α) (batch : List α) :
    (w.drained policy batch).gathering.distance ≤ 3 := by
  unfold drained
  cases policy with
  | immediateDrain maxBatch => exact Nat.le_of_lt_succ (by decide : 1 < 4)
  | coalesce maxBatch => exact Nat.le_of_lt_succ (by decide : 1 < 4)
  | adaptive minBatch maxBatch =>
    simp only
    split
    · exact Nat.le_of_lt_succ (by decide : 1 < 4)
    · exact le_rfl

theorem gathers_drain (policy : BatchPolicy) (w : Sealer α) (batch : List α) :
    (w.drain policy batch).Gathers batch := by
  unfold drain
  split
  · exact ⟨rfl, fun h => nomatch h⟩
  · exact gathers_drained policy w batch

theorem gathers_refill (policy : BatchPolicy) (w : Sealer α) (batch : List α) :
    (w.refill policy batch).Gathers batch := by
  unfold refill
  split
  · exact ⟨rfl, fun h => nomatch h⟩
  · exact gathers_sealAdaptive policy w batch _

/-- **An intent** joins the batch. -/
theorem receive_intent {kind : WorkerKind} {g : Gathering α} {staged : α} {w' : Sealer α}
    (hr : w.receive policy kind g (.intent staged) = some w') :
    w'.Gathers (g.batch ++ [staged]) := by
  cases g with
  | waiting =>
    cases hr
    exact gathers_drain policy w [staged]
  | draining batch =>
    cases hr
    exact gathers_drain policy w (batch ++ [staged])
  | probing batch =>
    cases hr
    exact gathers_refill policy w (batch ++ [staged])
  | refilling batch =>
    cases hr
    exact gathers_refill policy w (batch ++ [staged])
  | sealed batch reason => cases hr

/-- **Anything else** leaves the batch as it is, while there is one, and brings it closer to its
end. -/
theorem receive_other {kind : WorkerKind} {g : Gathering α} {r : Reception α} {w' : Sealer α}
    (hr : w.receive policy kind g r = some w') (hbusy : g ≠ .waiting)
    (hintent : ∀ staged, r ≠ .intent staged) (hdone : r ≠ .processed) :
    w'.Gathers g.batch ∧ w'.gathering.distance < g.distance := by
  cases g with
  | waiting => exact absurd rfl hbusy
  | draining batch =>
    have hdrained : (w.drained policy batch).Gathers batch ∧
        (w.drained policy batch).gathering.distance < 4 :=
      ⟨gathers_drained policy w batch, Nat.lt_succ_of_le (distance_drained policy w batch)⟩
    cases r <;> simp only [receive, Option.some.injEq, reduceCtorEq] at hr
    · exact absurd rfl (hintent _)
    · rwa [← hr]
    · rwa [← hr]
    · cases policy <;> simp only [Option.some.injEq, reduceCtorEq] at hr
      rwa [← hr]
    · split at hr <;> cases hr
      exact hdrained
  | probing batch =>
    have hsealed : ∀ reason, (w.sealAdaptive policy batch reason).Gathers batch ∧
        (w.sealAdaptive policy batch reason).gathering.distance < 3 :=
      fun reason => ⟨gathers_sealAdaptive policy w batch reason, (by decide : 1 < 3)⟩
    cases r <;> simp only [receive, Option.some.injEq, reduceCtorEq] at hr
    · exact absurd rfl (hintent _)
    · rw [← hr]
      exact hsealed _
    · rw [← hr]
      exact hsealed _
    · rw [← hr]
      exact hsealed _
  | refilling batch =>
    have hrefilled : (w.refilled policy batch).Gathers batch ∧
        (w.refilled policy batch).gathering.distance < 2 :=
      ⟨gathers_sealAdaptive policy w batch _, (by decide : 1 < 2)⟩
    cases r <;> simp only [receive, Option.some.injEq, reduceCtorEq] at hr
    · exact absurd rfl (hintent _)
    · rwa [← hr]
    · rwa [← hr]
    · split at hr <;> cases hr
      exact hrefilled
  | sealed batch reason =>
    cases r <;> simp only [receive, Option.some.injEq, reduceCtorEq] at hr
    exact absurd rfl hdone

/-- What a clamped policy's worker keeps over a run. -/
theorem run_sound (hc : policy.Clamped) (h : w.Sound policy) {kind : WorkerKind}
    {rs : List (Reception α)} {w' : Sealer α} (hr : w.run policy kind rs = some w') :
    w'.Sound policy := by
  induction rs generalizing w with
  | nil =>
    cases hr
    exact h
  | cons r rs ih =>
    unfold run at hr
    cases hstep : w.receive policy kind w.gathering r with
    | none =>
      rw [hstep] at hr
      cases hr
    | some next =>
      rw [hstep] at hr
      exact ih (receive_sound hc h hstep) hr

/-- A controller that was accepted starts within its bounds. -/
theorem new_sound {capacity : ℕ} (hv : policy.validate capacity = .ok ()) :
    (new policy : Sealer α).Sound policy := by
  have hmax : policy.maxBatch ≠ 0 := by
    unfold BatchPolicy.validate at hv
    split at hv
    · cases hv
    · split at hv
      · cases hv
      · assumption
  refine ⟨?_, trivial⟩
  show 1 ≤ min (max policy.minBatch 16) policy.maxBatch ∧
    min (max policy.minBatch 16) policy.maxBatch ≤ policy.maxBatch
  omega

/-- **A late batch** of one intent leaves the minimum as the target, however large it is. -/
theorem run_late {minBatch maxBatch : ℕ} (kind : WorkerKind) (staged : α) (hmin : maxBatch < minBatch)
    (htwo : 2 ≤ maxBatch) :
    (new (.adaptive minBatch maxBatch)).run (.adaptive minBatch maxBatch) kind
        [.intent staged, .empty, .late] =
      some ⟨⟨minBatch, 1⟩, .sealed [staged] .latency⟩ := by
  have htarget : min (max minBatch 16) maxBatch = maxBatch := by omega
  have hone : ¬ maxBatch ≤ 1 := by omega
  have hhalf : max (maxBatch / 2) minBatch = minBatch := by omega
  simp [run, receive, new, drain, drained, limit, sealAdaptive, AdaptiveState.new,
    AdaptiveState.updateTarget, BatchPolicy.minBatch, BatchPolicy.maxBatch, htarget, hone, hhalf,
    show 1 < maxBatch by omega]

end Sealer

/-- **Batches and target respect the bounds of the policy** in every run of the worker of either
controller, for a policy that the constructors accept, exactly when the policy is clamped. -/
theorem batches_bounded_iff {α : Type} [Inhabited α] {capacity : ℕ} {policy : BatchPolicy}
    (hv : policy.validate capacity = .ok ()) (kind : WorkerKind) :
    (∀ (rs : List (Reception α)) (w : Sealer α), (Sealer.new policy).run policy kind rs = some w →
      w.Bounded policy) ↔ policy.Clamped := by
  constructor
  · intro hall
    cases policy with
    | immediateDrain maxBatch => trivial
    | coalesce maxBatch => trivial
    | adaptive minBatch maxBatch =>
      by_contra hc
      have hpos := (Sealer.new_sound (α := α) hv).target
      have hmin : maxBatch < minBatch := by
        by_contra hle
        exact hc (.inl (not_lt.1 hle))
      have htwo : 2 ≤ maxBatch := by
        have hmax : 1 ≤ maxBatch := hpos.1.trans hpos.2
        have hone : maxBatch ≠ 1 := fun hone => hc (.inr hone)
        omega
      have hlate := hall _ _ (Sealer.run_late kind default hmin htwo)
      have hle : minBatch ≤ maxBatch := hlate.target.2
      omega
  · intro hc rs w hrun
    exact (Sealer.run_sound hc (Sealer.new_sound hv) hrun).bounded

/-- A policy whose minimum is its maximum, in the file controller. -/
theorem batches_bounded_four :
    (∀ (rs : List (Reception ℕ)) (w : Sealer ℕ),
      (Sealer.new (.adaptive 4 4)).run (.adaptive 4 4) .durable rs = some w →
        w.Bounded (.adaptive 4 4)) ↔ BatchPolicy.Clamped (.adaptive 4 4) :=
  batches_bounded_iff (show BatchPolicy.validate 8 (.adaptive 4 4) = .ok () from rfl) .durable

/-- **A minimum above the maximum**: behind a late batch of one intent the target is 8, and a
batch of 8 intents is sealed although the maximum is 2. -/
theorem late_batch_overshoots :
    BatchPolicy.validate 8 (.adaptive 8 2) = .ok () ∧
      (Sealer.new (.adaptive 8 2)).run (.adaptive 8 2) .queued
          ([.intent 0, .empty, .late, .processed] ++ (List.range 8).map .intent) =
        some ⟨⟨8, 2⟩, .sealed (List.range 8) .capacity⟩ := by
  decide

end ForthDB.Controller
