import ForthDB.Queue.TransactionAst
import ForthDB.World.Operation

/-!
# What a transaction means

The operations of a transaction are evaluated one by one on a state. An expectation is about the
state that the earlier operations of the same transaction have led to.

* `Evaluation`: a state, the symbols bound so far and the operations committed so far.
* `TransactionOp.evaluate`, `evaluateAll`: one operation and all of them; `none` is a rejection.
* `evaluateAll_synthesized`: **the operations that a frame records** are those of the evaluation.
-/

namespace ForthDB

structure Evaluation where
  state : WorldState
  bindings : Dict String EntityId
  operations : List Operation

/-- The atom of an operand: a symbol has to be bound. -/
def AtomRef.evaluate (bindings : Dict String EntityId) : AtomRef → Option Atom
  | .entity e => some (.entity e)
  | .literal l => some (.literal ⟨l⟩)
  | .symbol s => (bindings.lookup s).map .entity

namespace Evaluation

def start (a : WorldState) : Evaluation := ⟨a, ∅, []⟩

/-- Commit one operation. -/
def commit (s : Evaluation) (op : Operation) : Option Evaluation :=
  (s.state.apply op).map fun a => { s with state := a, operations := s.operations ++ [op] }

end Evaluation

/-- One operation of a transaction, on a successor of the world `predecessor`. -/
def TransactionOp.evaluate (predecessor : WorldId) (s : Evaluation) :
    TransactionOp → Option Evaluation
  | .allocate result =>
    if (s.bindings.lookup result).isSome then none
    else { s with bindings := s.bindings.insert result ⟨s.state.next⟩ }.commit
      (.allocateEntity ⟨s.state.next⟩)
  | .expectWorld expected => if expected = predecessor then some s else none
  | .expectObject slot expected =>
    (expected.evaluate s.bindings).bind fun atom =>
      (s.state.slots.top ⟨slot⟩).bind fun fact => if fact.object = atom then some s else none
  | .define slot subject predicate object =>
    (subject.evaluate s.bindings).bind fun subject =>
      (object.evaluate s.bindings).bind fun object =>
        s.commit (.define ⟨slot⟩ ⟨subject, ⟨predicate⟩, object⟩)
  | .forget slot => s.commit (.forget ⟨slot⟩)
  | .reject => none

def evaluateAll (predecessor : WorldId) (s : Evaluation) : List TransactionOp → Option Evaluation
  | [] => some s
  | op :: ops => (op.evaluate predecessor s).bind fun s => evaluateAll predecessor s ops

namespace Evaluation

variable {predecessor : WorldId} {s s' : Evaluation}

theorem commit_spec {op : Operation} (h : s.commit op = some s') :
    s.state.apply op = some s'.state ∧ s'.bindings = s.bindings ∧
      s'.operations = s.operations ++ [op] := by
  unfold commit at h
  obtain ⟨a, ha, rfl⟩ := Option.map_eq_some_iff.1 h
  exact ⟨ha, rfl, rfl⟩

/-- The second evaluation continues the first one: some operations have been committed, and no
symbol is bound anew. -/
structure Continues (s s' : Evaluation) (ops : List Operation) : Prop where
  operations : s'.operations = s.operations ++ ops
  state : s.state.applyAll ops = some s'.state
  bindings : ∀ x e, s.bindings.lookup x = some e → s'.bindings.lookup x = some e

theorem Continues.refl (s : Evaluation) : Continues s s [] :=
  ⟨(List.append_nil _).symm, rfl, fun _ _ h => h⟩

theorem Continues.trans {s'' : Evaluation} {xs ys : List Operation} (h : Continues s s' xs)
    (h' : Continues s' s'' ys) : Continues s s'' (xs ++ ys) := by
  refine ⟨?_, ?_, fun x e hx => h'.bindings x e (h.bindings x e hx)⟩
  · rw [h'.operations, h.operations, List.append_assoc]
  · rw [WorldState.applyAll_append, h.state, Option.bind_some, h'.state]

theorem Continues.of_commit {op : Operation} (h : s.commit op = some s') : Continues s s' [op] := by
  obtain ⟨hstate, hbindings, hops⟩ := commit_spec h
  refine ⟨hops, ?_, fun x e hx => by rw [hbindings]; exact hx⟩
  simp only [WorldState.applyAll, hstate, Option.bind_some]

/-- **One operation** commits what `synthesize` gives, under every assignment of temporaries that
has its bindings. -/
theorem evaluate_spec {op : TransactionOp} (h : op.evaluate predecessor s = some s') :
    ∃ ops, Continues s s' ops ∧ ∀ temps : Dict String ℕ,
      (∀ x e, s'.bindings.lookup x = some e → temps.lookup x = some e.value) →
        op.synthesize temps = .ok ops := by
  -- operands resolve alike
  have hatom : ∀ {x : AtomRef} {atom : Atom} {temps : Dict String ℕ},
      x.evaluate s.bindings = some atom →
      (∀ y e, s.bindings.lookup y = some e → temps.lookup y = some e.value) →
      x.resolve temps = .ok atom := by
    intro x atom temps hx htemps
    cases x with
    | entity e =>
      cases hx
      rfl
    | literal l =>
      cases hx
      rfl
    | symbol y =>
      obtain ⟨e, he, rfl⟩ := Option.map_eq_some_iff.1 hx
      simp only [AtomRef.resolve, tempEntity, htemps y e he]
      rfl
  cases op with
  | allocate result =>
    simp only [TransactionOp.evaluate] at h
    split at h
    · cases h
    rename_i hnew
    have hnew' : s.bindings.lookup result = none := by simpa using hnew
    obtain ⟨hstate, hbindings, hops⟩ := commit_spec h
    refine ⟨[.allocateEntity ⟨s.state.next⟩], ⟨hops, ?_, fun x e hx => ?_⟩, fun temps htemps => ?_⟩
    · simp only [WorldState.applyAll] at hstate ⊢
      rw [hstate]
      rfl
    · have hne : x ≠ result := by
        rintro rfl
        rw [hnew'] at hx
        cases hx
      rw [hbindings, AList.lookup_insert_ne hne]
      exact hx
    · have hresult := htemps result ⟨s.state.next⟩ (by rw [hbindings, AList.lookup_insert])
      simp only [TransactionOp.synthesize, tempEntity, hresult]
      rfl
  | expectWorld expected =>
    simp only [TransactionOp.evaluate] at h
    split at h
    · cases h
      exact ⟨[], .refl s, fun temps _ => rfl⟩
    · cases h
  | expectObject slot expected =>
    simp only [TransactionOp.evaluate, Option.bind_eq_some_iff] at h
    obtain ⟨atom, -, fact, -, h⟩ := h
    split at h
    · cases h
      exact ⟨[], .refl s, fun temps _ => rfl⟩
    · cases h
  | define slot subject predicate object =>
    simp only [TransactionOp.evaluate, Option.bind_eq_some_iff] at h
    obtain ⟨x, hx, y, hy, h⟩ := h
    refine ⟨_, .of_commit h, fun temps htemps => ?_⟩
    rw [(commit_spec h).2.1] at htemps
    simp only [TransactionOp.synthesize, hatom hx htemps, hatom hy htemps, bind, Except.bind]
    rfl
  | forget slot => exact ⟨_, .of_commit h, fun temps _ => rfl⟩
  | reject => cases h

/-- **The operations of an evaluation** are the synthesized ones. -/
theorem evaluateAll_spec {ops : List TransactionOp} (h : evaluateAll predecessor s ops = some s') :
    ∃ os, Continues s s' os ∧ ∀ temps : Dict String ℕ,
      (∀ x e, s'.bindings.lookup x = some e → temps.lookup x = some e.value) →
        synthesizeOperations temps ops = .ok os := by
  induction ops generalizing s with
  | nil =>
    cases h
    exact ⟨[], .refl _, fun temps _ => rfl⟩
  | cons op ops ih =>
    simp only [evaluateAll, Option.bind_eq_some_iff] at h
    obtain ⟨s₁, h₁, h⟩ := h
    obtain ⟨os, hos, hsyn⟩ := evaluate_spec h₁
    obtain ⟨ps, hps, hsyn'⟩ := ih h
    refine ⟨os ++ ps, hos.trans hps, fun temps htemps => ?_⟩
    have hfirst := hsyn temps fun x e hx => htemps x e (hps.bindings x e hx)
    simp only [synthesizeOperations, hfirst, hsyn' temps htemps, bind, Except.bind]
    rfl

/-- What `assignTemps` gives is what an evaluation binds. -/
theorem evaluateAll_assigned {ops : List TransactionOp} (temps : Dict String ℕ)
    (h : evaluateAll predecessor s ops = some s')
    (htemps : ∀ x e, s.bindings.lookup x = some e → temps.lookup x = some e.value) :
    ∀ x e, s'.bindings.lookup x = some e →
      (assignTemps temps s.state.next ops).lookup x = some e.value := by
  induction ops generalizing s temps with
  | nil =>
    cases h
    exact htemps
  | cons op ops ih =>
    simp only [evaluateAll, Option.bind_eq_some_iff] at h
    obtain ⟨s₁, h₁, h⟩ := h
    cases op with
    | allocate result =>
      simp only [TransactionOp.evaluate] at h₁
      split at h₁
      · cases h₁
      obtain ⟨hstate, hbindings, -⟩ := commit_spec h₁
      have hnext : s₁.state.next = s.state.next + 1 := by
        simp only [WorldState.apply, if_true, Option.some.injEq] at hstate
        rw [← hstate]
      refine fun x e hx => ?_
      have hrest := ih (temps.insert result s.state.next) h (fun y f hy => ?_) x e hx
      · rw [hnext] at hrest
        exact hrest
      · rw [hbindings] at hy
        by_cases hyr : y = result
        · subst hyr
          rw [AList.lookup_insert] at hy ⊢
          rw [← Option.some.inj hy]
        · rw [AList.lookup_insert_ne hyr] at hy ⊢
          exact htemps y f hy
    | expectWorld expected =>
      simp only [TransactionOp.evaluate] at h₁
      split at h₁
      · cases h₁
        exact ih temps h htemps
      · cases h₁
    | expectObject slot expected =>
      simp only [TransactionOp.evaluate, Option.bind_eq_some_iff] at h₁
      obtain ⟨atom, -, fact, -, h₁⟩ := h₁
      split at h₁
      · cases h₁
        exact ih temps h htemps
      · cases h₁
    | define slot subject predicate object =>
      simp only [TransactionOp.evaluate, Option.bind_eq_some_iff] at h₁
      obtain ⟨x, -, y, -, h₁⟩ := h₁
      obtain ⟨hstate, hbindings, -⟩ := commit_spec h₁
      have hnext : s₁.state.next = s.state.next := by rw [← Option.some.inj hstate]
      rw [← hbindings] at htemps
      rw [← hnext]
      exact ih temps h htemps
    | forget slot =>
      obtain ⟨hstate, hbindings, -⟩ := commit_spec h₁
      have hnext : s₁.state.next = s.state.next := by rw [← Option.some.inj hstate]
      rw [← hbindings] at htemps
      rw [← hnext]
      exact ih temps h htemps
    | reject => cases h₁

end Evaluation

/-- **The operations that a frame records** for a transaction are those of its evaluation. -/
theorem SemanticIntent.synthesized_eq {intent : SemanticIntent} {predecessor : WorldId}
    {a : WorldState} {s' : Evaluation}
    (h : evaluateAll predecessor (.start a) intent.ast.operations = some s') :
    intent.synthesized a.next = .ok s'.operations ∧
      a.applyAll s'.operations = some s'.state := by
  obtain ⟨os, hos, hsyn⟩ := Evaluation.evaluateAll_spec h
  have hops : s'.operations = os := by
    rw [hos.operations]
    rfl
  have hassigned := Evaluation.evaluateAll_assigned ∅ h fun x e hx => nomatch hx
  rw [hops]
  exact ⟨hsyn _ hassigned, hos.state⟩

end ForthDB
