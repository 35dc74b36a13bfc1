import ForthDB.Core.KernelParity

/-!
# Families of clones

A program holds a family of kernels that starts with one and grows by cloning. An event
is one operation on one member. `Arc::make_mut` copies what two members share before it
changes it, so a member is a value.

* `KernelApi.apply_refines`: one event keeps two families member by member in step.
* `shared_refines_legacy`: any sequence of events returns the same ids and leaves the
  same observables on both kernels, and the next event changes those of one member only.
-/

namespace ForthDB

/-- The operations of a kernel. -/
structure KernelApi (κ : Type) where
  entity : κ → EntityId × κ
  define : κ → SlotId → Fact → Except String (ℕ × κ)
  forget : κ → SlotId → Except String (ℕ × κ)

def sharedApi : KernelApi SharedForthDb :=
  ⟨SharedForthDb.entity, SharedForthDb.define, SharedForthDb.forget⟩

def legacyApi : KernelApi LegacyForthDb :=
  ⟨LegacyForthDb.entity, LegacyForthDb.define, LegacyForthDb.forget⟩

inductive KernelOperation
  | entity
  | define (slot : SlotId) (fact : Fact)
  | forget (slot : SlotId)
  | clone
deriving DecidableEq

/-- One operation on the member at a position. -/
structure KernelEvent where
  kernel : ℕ
  operation : KernelOperation
deriving DecidableEq

namespace KernelApi

variable {κ : Type} (api : KernelApi κ)

/-- One event: the id that it returns and the family after it. An event of a member that
does not exist does nothing. -/
def apply (kernels : List κ) (event : KernelEvent) : Except String (Option ℕ × List κ) :=
  match kernels[event.kernel]? with
  | none => .ok (none, kernels)
  | some k =>
    match event.operation with
    | .entity =>
      let (entity, k) := api.entity k
      .ok (some entity.value, kernels.set event.kernel k)
    | .define slot fact => do
      let (recordId, k) ← api.define k slot fact
      pure (some recordId, kernels.set event.kernel k)
    | .forget slot => do
      let (recordId, k) ← api.forget k slot
      pure (some recordId, kernels.set event.kernel k)
    | .clone => .ok (none, kernels ++ [k])

def run : List κ → List KernelEvent → Except String (List (Option ℕ) × List κ)
  | kernels, [] => .ok ([], kernels)
  | kernels, event :: events => do
    let (returned, kernels) ← api.apply kernels event
    let (rest, kernels) ← run kernels events
    pure (returned :: rest, kernels)

/-- **Other members stay as they are.** -/
theorem apply_other {kernels kernels' : List κ} {event : KernelEvent} {returned : Option ℕ}
    (h : api.apply kernels event = .ok (returned, kernels')) {j : ℕ} (hj : j ≠ event.kernel)
    (hlt : j < kernels.length) : kernels'[j]? = kernels[j]? := by
  unfold apply at h
  cases hk : kernels[event.kernel]? with
  | none =>
    rw [hk] at h
    cases h
    rfl
  | some k =>
    rw [hk] at h
    have hset (k' : κ) : (kernels.set event.kernel k')[j]? = kernels[j]? :=
      List.getElem?_set_ne (Ne.symm hj)
    cases hop : event.operation with
    | entity =>
      rw [hop] at h
      cases h
      exact hset _
    | define slot fact =>
      rw [hop] at h
      cases hd : api.define k slot fact with
      | error e => simp [bind, Except.bind, hd] at h
      | ok result =>
        simp only [bind, Except.bind, hd] at h
        cases h
        exact hset _
    | forget slot =>
      rw [hop] at h
      cases hf : api.forget k slot with
      | error e => simp [bind, Except.bind, hf] at h
      | ok result =>
        simp only [bind, Except.bind, hf] at h
        cases h
        exact hset _
    | clone =>
      rw [hop] at h
      cases h
      exact List.getElem?_append_left hlt

end KernelApi

/-- One log stands behind a shared and a legacy kernel. -/
def InStep (shared : SharedForthDb) (legacy : LegacyForthDb) : Prop :=
  ∃ k m, shared.Refines k ∧ legacy.Refines k ∧ k.Sound ∧ ForthDb.Holds k m

theorem InStep.observe {shared : SharedForthDb} {legacy : LegacyForthDb}
    (h : InStep shared legacy) :
    shared.observe = legacy.observe ∧ shared.observe.Total := by
  obtain ⟨k, m, hs, hl, hk, hm⟩ := h
  have hobserve := hs.observe_eq hk hm
  refine ⟨hobserve.trans (hl.observe_eq hk).symm, ?_⟩
  rw [hobserve]
  exact hk.observe_total

theorem new_inStep : InStep .new .new :=
  ⟨.new, .empty, SharedForthDb.new_refines, LegacyForthDb.new_refines, ForthDb.new_sound,
    ForthDb.new_holds⟩

theorem InStep.entity {shared : SharedForthDb} {legacy : LegacyForthDb}
    (h : InStep shared legacy) :
    shared.entity.1 = legacy.entity.1 ∧ InStep shared.entity.2 legacy.entity.2 := by
  obtain ⟨k, m, hs, hl, hk, hm⟩ := h
  refine ⟨hs.entity.1.trans hl.entity.1.symm, k.entity.2, m, hs.entity.2, hl.entity.2, ?_, ?_⟩
  · exact ForthDb.entity_sound hk
  · exact ForthDb.entity_holds hm

theorem InStep.define {shared : SharedForthDb} {legacy : LegacyForthDb} (h : InStep shared legacy)
    (slot : SlotId) (fact : Fact) : ∃ recordId shared' legacy',
      shared.define slot fact = .ok (recordId, shared') ∧
        legacy.define slot fact = .ok (recordId, legacy') ∧ InStep shared' legacy' := by
  obtain ⟨k, m, hs, hl, hk, hm⟩ := h
  obtain ⟨shared', hshared, hs'⟩ := hs.define hk slot fact
  obtain ⟨legacy', hlegacy, hl'⟩ := hl.define hk slot fact
  exact ⟨_, shared', legacy', hshared, hlegacy, k.define slot fact, m.push slot fact, hs', hl',
    ForthDb.define_sound hk slot fact, ForthDb.define_holds hm slot fact⟩

theorem InStep.forget {shared : SharedForthDb} {legacy : LegacyForthDb} (h : InStep shared legacy)
    (slot : SlotId) : ∃ recordId shared' legacy',
      shared.forget slot = .ok (recordId, shared') ∧
        legacy.forget slot = .ok (recordId, legacy') ∧ InStep shared' legacy' := by
  obtain ⟨k, m, hs, hl, hk, hm⟩ := h
  obtain ⟨shared', hshared, hs'⟩ := hs.forget hk slot
  obtain ⟨legacy', hlegacy, hl'⟩ := hl.forget hk slot
  exact ⟨_, shared', legacy', hshared, hlegacy, k.forget slot, m.pop slot, hs', hl',
    ForthDb.forget_sound hk slot, ForthDb.forget_holds hm slot⟩

/-- Replacing one member by members that are in step. -/
theorem forall₂_set {shared : List SharedForthDb} {legacy : List LegacyForthDb}
    (h : List.Forall₂ InStep shared legacy) (i : ℕ) {s : SharedForthDb} {l : LegacyForthDb}
    (hsl : InStep s l) : List.Forall₂ InStep (shared.set i s) (legacy.set i l) := by
  induction h generalizing i with
  | nil => exact .nil
  | cons hhead htail ih =>
    cases i with
    | zero => exact .cons hsl htail
    | succ i => exact .cons hhead (ih i)

theorem forall₂_getElem? {shared : List SharedForthDb} {legacy : List LegacyForthDb}
    (h : List.Forall₂ InStep shared legacy) (i : ℕ) :
    (shared[i]? = none ∧ legacy[i]? = none) ∨
      ∃ s l, shared[i]? = some s ∧ legacy[i]? = some l ∧ InStep s l := by
  induction h generalizing i with
  | nil => exact .inl ⟨rfl, rfl⟩
  | @cons s l _ _ hhead _ ih =>
    cases i with
    | zero => exact .inr ⟨s, l, rfl, rfl, hhead⟩
    | succ i => exact ih i

/-- **One event keeps two families in step.** -/
theorem apply_inStep {shared : List SharedForthDb} {legacy : List LegacyForthDb}
    (h : List.Forall₂ InStep shared legacy) (event : KernelEvent) :
    ∃ returned shared' legacy', sharedApi.apply shared event = .ok (returned, shared') ∧
      legacyApi.apply legacy event = .ok (returned, legacy') ∧
        List.Forall₂ InStep shared' legacy' := by
  obtain ⟨i, operation⟩ := event
  unfold KernelApi.apply
  rcases forall₂_getElem? h i with ⟨hs, hl⟩ | ⟨s, l, hs, hl, hsl⟩
  · simp only [hs, hl]
    exact ⟨_, _, _, rfl, rfl, h⟩
  simp only [hs, hl]
  cases operation with
  | entity =>
    obtain ⟨hid, hsl'⟩ := hsl.entity
    refine ⟨some s.entity.1.value, _, _, rfl, ?_, forall₂_set h i hsl'⟩
    rw [hid]
    rfl
  | define slot fact =>
    obtain ⟨recordId, s', l', hdefine, hdefine', hsl'⟩ := hsl.define slot fact
    refine ⟨some recordId, shared.set i s', legacy.set i l', ?_, ?_, forall₂_set h i hsl'⟩
    · simp only [sharedApi, hdefine]; rfl
    · simp only [legacyApi, hdefine']; rfl
  | forget slot =>
    obtain ⟨recordId, s', l', hforget, hforget', hsl'⟩ := hsl.forget slot
    refine ⟨some recordId, shared.set i s', legacy.set i l', ?_, ?_, forall₂_set h i hsl'⟩
    · simp only [sharedApi, hforget]; rfl
    · simp only [legacyApi, hforget']; rfl
  | clone => exact ⟨none, _, _, rfl, rfl, List.rel_append h (.cons hsl .nil)⟩

theorem run_inStep (events : List KernelEvent) {shared : List SharedForthDb}
    {legacy : List LegacyForthDb} (h : List.Forall₂ InStep shared legacy) :
    ∃ returned shared' legacy', sharedApi.run shared events = .ok (returned, shared') ∧
      legacyApi.run legacy events = .ok (returned, legacy') ∧
        List.Forall₂ InStep shared' legacy' := by
  induction events generalizing shared legacy with
  | nil => exact ⟨[], shared, legacy, rfl, rfl, h⟩
  | cons event events ih =>
    obtain ⟨returned, shared₁, legacy₁, hs, hl, h₁⟩ := apply_inStep h event
    obtain ⟨rest, shared₂, legacy₂, hs', hl', h₂⟩ := ih h₁
    refine ⟨returned :: rest, shared₂, legacy₂, ?_, ?_, h₂⟩
    · simp only [KernelApi.run, bind, Except.bind, hs, hs']; rfl
    · simp only [KernelApi.run, bind, Except.bind, hl, hl']; rfl

/-- **The shared kernel refines the legacy kernel.** Whatever sequence of allocations,
defines, forgets and clones a program drives them with, both return the same ids and every
member of the one family has the observables of the member of the other, all of them
without a panic; and one more event changes no observable of another member. -/
theorem shared_refines_legacy (events : List KernelEvent) :
    ∃ returned shared legacy,
      sharedApi.run [.new] events = .ok (returned, shared) ∧
      legacyApi.run [.new] events = .ok (returned, legacy) ∧
      List.Forall₂ (fun s l => s.observe = l.observe ∧ s.observe.Total) shared legacy ∧
      ∀ event, ∃ returned shared' legacy',
        sharedApi.apply shared event = .ok (returned, shared') ∧
        legacyApi.apply legacy event = .ok (returned, legacy') ∧
        ∀ j, j ≠ event.kernel → j < shared.length →
          shared'[j]?.map SharedForthDb.observe = shared[j]?.map SharedForthDb.observe ∧
          legacy'[j]?.map LegacyForthDb.observe = legacy[j]?.map LegacyForthDb.observe := by
  obtain ⟨returned, shared, legacy, hs, hl, h⟩ := run_inStep events (.cons new_inStep .nil)
  refine ⟨returned, shared, legacy, hs, hl, h.imp fun _ _ hsl => hsl.observe, fun event => ?_⟩
  obtain ⟨returned', shared', legacy', hs', hl', -⟩ := apply_inStep h event
  refine ⟨returned', shared', legacy', hs', hl', fun j hj hlt => ⟨?_, ?_⟩⟩
  · rw [sharedApi.apply_other hs' hj hlt]
  · rw [legacyApi.apply_other hl' hj (h.length_eq ▸ hlt)]

end ForthDB
