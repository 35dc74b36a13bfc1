import ForthDB.Queue.MixedEpoch

/-!
# World preconditions in a mixed epoch

A queued intent that expects a world is refused unless its predecessor is that world. A
semantic intent can carry the same expectation; its compilation emits nothing for it.

* `semantic_withoutWorlds`: **a semantic intent is decided as if it expected no world**.
* `EnforcesWorlds`: what the same expectation of a queued intent amounts to.
* `expectWorld_enforced_iff`, `mixedEpoch_enforcesWorlds_iff`: it is enforced exactly when
  there is nothing to refuse, at one position and at every position of an epoch.
-/

namespace ForthDB

/-- The worlds that a transaction expects, in order. -/
def expectedWorlds (ops : List TransactionOp) : List WorldId :=
  ops.filterMap fun
    | .expectWorld expected => some expected
    | _ => none

/-- The operations other than expectations of a world. -/
def withoutWorlds (ops : List TransactionOp) : List TransactionOp :=
  ops.filter fun
    | .expectWorld _ => false
    | _ => true

def SemanticIntent.withoutWorlds (intent : SemanticIntent) : SemanticIntent :=
  ⟨{ intent.ast with operations := ForthDB.withoutWorlds intent.ast.operations }⟩

/-- Every operation is an expectation of a world, or stays. -/
theorem withoutWorlds_cons (op : TransactionOp) (ops : List TransactionOp) :
    (∃ expected, op = .expectWorld expected ∧ withoutWorlds (op :: ops) = withoutWorlds ops) ∨
      withoutWorlds (op :: ops) = op :: withoutWorlds ops := by
  cases op with
  | expectWorld expected => exact .inl ⟨expected, rfl, rfl⟩
  | allocate => exact .inr rfl
  | expectObject => exact .inr rfl
  | define => exact .inr rfl
  | forget => exact .inr rfl
  | reject => exact .inr rfl

/-- An expectation of a world compiles to nothing. -/
theorem SemanticCompiler.operations_withoutWorlds (c : SemanticCompiler) (ops : List TransactionOp) :
    c.operations (withoutWorlds ops) = c.operations ops := by
  induction ops generalizing c with
  | nil => rfl
  | cons op ops ih =>
    rcases withoutWorlds_cons op ops with ⟨expected, rfl, heq⟩ | heq
    · rw [heq, ih]
      simp only [operations, operation]
      cases c.operations ops with
      | error message => rfl
      | ok r =>
        obtain ⟨result, c'⟩ := r
        cases result <;> rfl
    · rw [heq]
      simp only [operations, ih]

theorem assignTemps_withoutWorlds (temps : Dict String ℕ) (n : ℕ) (ops : List TransactionOp) :
    assignTemps temps n (withoutWorlds ops) = assignTemps temps n ops := by
  induction ops generalizing temps n with
  | nil => rfl
  | cons op ops ih =>
    rcases withoutWorlds_cons op ops with ⟨expected, rfl, heq⟩ | heq
    · rw [heq, ih]
      rfl
    · rw [heq]
      cases op <;> simp only [assignTemps, ih]

theorem synthesizeOperations_withoutWorlds (temps : Dict String ℕ) (ops : List TransactionOp) :
    synthesizeOperations temps (withoutWorlds ops) = synthesizeOperations temps ops := by
  induction ops with
  | nil => rfl
  | cons op ops ih =>
    rcases withoutWorlds_cons op ops with ⟨expected, rfl, heq⟩ | heq
    · rw [heq, ih]
      simp only [synthesizeOperations, TransactionOp.synthesize, bind, Except.bind]
      cases synthesizeOperations temps ops <;> rfl
    · rw [heq]
      simp only [synthesizeOperations, ih]

theorem SemanticIntent.synthesized_withoutWorlds (intent : SemanticIntent) (n : ℕ) :
    intent.withoutWorlds.synthesized n = intent.synthesized n := by
  unfold SemanticIntent.synthesized SemanticIntent.withoutWorlds
  simp only [assignTemps_withoutWorlds, synthesizeOperations_withoutWorlds]

namespace MixedRun

variable (s : MixedRun) (base : World) (kernel : ForthDb) (validators : List Validator)

/-- **A semantic intent** is decided as if it expected no world. -/
theorem semantic_withoutWorlds (intent : SemanticIntent) :
    s.semantic base kernel validators intent.withoutWorlds =
      s.semantic base kernel validators intent := by
  have hexec : s.executeSemantic intent.withoutWorlds = s.executeSemantic intent := by
    unfold executeSemantic
    simp only [TrialVocabulary.compileSemanticTrial, SemanticIntent.synthesized_withoutWorlds]
    rw [show intent.withoutWorlds.ast.operations = withoutWorlds intent.ast.operations from rfl,
      SemanticCompiler.operations_withoutWorlds]
  unfold semantic
  rw [hexec, SemanticIntent.synthesized_withoutWorlds]

/-- The refusal of a world does not occur for semantic intents. -/
theorem semantic_ne_worldPrecondition (intent : SemanticIntent) (expected actual : WorldId)
    (s' : MixedRun) : s.semantic base kernel validators intent ≠
      .ok (.semantic (.error (.worldPrecondition expected actual)), s') := by
  have hexec : s.executeSemantic intent ≠
      .ok (.semantic (.error (.worldPrecondition expected actual)), s') := by
    unfold executeSemantic
    intro h
    split at h
    · cases h
    · cases h
    · split at h
      · cases h
      · simp only at h
        split at h <;> cases h
      · cases h
  unfold semantic
  intro h
  split at h
  · split at h
    · cases h
    · split at h
      · cases h
      · split at h
        · cases h
        · exact hexec h
  · exact hexec h

/-- The first expected world that is not the predecessor. -/
def firstWrongWorld (intent : SemanticIntent) : Option WorldId :=
  (expectedWorlds intent.ast.operations).find? fun expected => expected ≠ s.predecessorId

/-- The expectations of worlds are enforced as those of a queued intent: the first one that is
not met refuses the intent and leaves everything as it was; met ones change nothing. -/
def EnforcesWorlds (intent : SemanticIntent) : Prop :=
  match s.firstWrongWorld intent with
  | some expected =>
    s.semantic base kernel validators intent =
      .ok (.semantic (.error (.worldPrecondition expected s.predecessorId)), s)
  | none =>
    s.semantic base kernel validators intent =
      s.semantic base kernel validators intent.withoutWorlds

/-- A queued intent that only expects worlds is refused by the first one that is not met. -/
theorem queued_expectWorld (worlds : List WorldId) (intent : QueuedIntent)
    (hp : intent.preconditions = worlds.map .expectedWorld) {expected : WorldId}
    (h : worlds.find? (fun world => world ≠ s.predecessorId) = some expected) :
    s.queued base kernel validators intent =
      .ok (.queued (.error (.worldPrecondition expected s.predecessorId)), s) := by
  have hcheck : s.materializer.checkPreconditions s.predecessorId intent.preconditions =
      .ok (.error (.worldPrecondition expected s.predecessorId)) := by
    rw [hp]
    unfold VmEpochMaterializer.checkPreconditions
    clear hp
    induction worlds with
    | nil => cases h
    | cons world worlds ih =>
      simp only [List.map_cons, checkPreconditionsBy]
      by_cases hw : world = s.predecessorId
      · rw [if_neg (not_not.2 hw)]
        refine ih ?_
        rwa [List.find?_cons_of_neg (by simpa using hw)] at h
      · rw [if_pos hw]
        rw [List.find?_cons_of_pos (by simpa using hw)] at h
        rw [Option.some.inj h]
  unfold queued resolveQueued
  rw [hcheck]

/-- **When the expected worlds of a semantic intent are enforced**: exactly when each of them is
the predecessor. -/
theorem expectWorld_enforced_iff (intent : SemanticIntent) :
    s.EnforcesWorlds base kernel validators intent ↔
      ∀ expected, .expectWorld expected ∈ intent.ast.operations → expected = s.predecessorId := by
  have hmem : ∀ expected, expected ∈ expectedWorlds intent.ast.operations ↔
      .expectWorld expected ∈ intent.ast.operations := by
    intro expected
    unfold expectedWorlds
    rw [List.mem_filterMap]
    constructor
    · rintro ⟨op, hop, he⟩
      cases op <;> cases he
      exact hop
    · intro h
      exact ⟨_, h, rfl⟩
  unfold EnforcesWorlds
  cases hf : s.firstWrongWorld intent with
  | some expected =>
    -- a wrong world is there, and nothing refuses it
    have hin := (hmem expected).1 (List.mem_of_find?_eq_some hf)
    have hne : expected ≠ s.predecessorId := by simpa using List.find?_some hf
    refine iff_of_false (semantic_ne_worldPrecondition s base kernel validators intent _ _ _) ?_
    intro h
    exact hne (h expected hin)
  | none =>
    refine iff_of_true (semantic_withoutWorlds s base kernel validators intent).symm ?_
    intro expected h
    have hall := List.find?_eq_none.1 hf expected ((hmem expected).2 h)
    simpa using hall

end MixedRun

/-- The expected worlds of the semantic intents of an epoch are enforced at their positions. -/
def EpochEnforcesWorlds (m : VmEpochMaterializer) (base : World) (kernel : ForthDb)
    (validators : List Validator) (intents : List ControllerIntent) : Prop :=
  ∀ before intent after, intents = before ++ .semantic intent :: after →
    ∀ ds s, (m.startMixed base).intents base kernel validators before = .ok (ds, s) →
      s.EnforcesWorlds base kernel validators intent

/-- **When a mixed epoch enforces the worlds that its semantic intents expect**: exactly when
each of them is the predecessor at its position. -/
theorem mixedEpoch_enforcesWorlds_iff (m : VmEpochMaterializer) (base : World) (kernel : ForthDb)
    (validators : List Validator) (intents : List ControllerIntent) :
    EpochEnforcesWorlds m base kernel validators intents ↔
      ∀ before intent after, intents = before ++ .semantic intent :: after →
        ∀ ds s, (m.startMixed base).intents base kernel validators before = .ok (ds, s) →
          ∀ expected, .expectWorld expected ∈ intent.ast.operations →
            expected = s.predecessorId := by
  constructor
  · intro h before intent after hi ds s hs
    exact (s.expectWorld_enforced_iff base kernel validators intent).1
      (h before intent after hi ds s hs)
  · intro h before intent after hi ds s hs
    exact (s.expectWorld_enforced_iff base kernel validators intent).2
      (h before intent after hi ds s hs)

/-- A semantic intent that expects a world that never was. -/
def expectsElsewhere : SemanticIntent :=
  ⟨0, [.expectWorld ⟨7⟩, .define "s" (.literal "x") "p" (.literal "y")]⟩

/-- The same expectation and definition as a queued intent. -/
def queuedElsewhere : QueuedIntent :=
  ((QueuedIntent.new 0).expectWorld ⟨7⟩).define ⟨"s"⟩ ⟨.literal ⟨"x"⟩, ⟨"p"⟩, .literal ⟨"y"⟩⟩

/-- Whether each intent of an epoch on genesis is accepted. -/
def acceptedOnGenesis (intents : List ControllerIntent) : Except String (List Bool) :=
  (((VmEpochMaterializer.new 1).startMixed .genesis).intents .genesis .new [] intents).map
    fun r => r.1.map MixedDecision.isAccepted

/-- **A wrong world is accepted** in a semantic intent, and refused in a queued one. -/
theorem expectsElsewhere_accepted :
    acceptedOnGenesis [.semantic expectsElsewhere] = .ok [true] ∧
      acceptedOnGenesis [.queued queuedElsewhere] = .ok [false] ∧
      ¬ EpochEnforcesWorlds (.new 1) .genesis .new [] [.semantic expectsElsewhere] := by
  refine ⟨by decide +kernel, by decide +kernel, ?_⟩
  intro h
  have h0 := h [] expectsElsewhere [] rfl [] _ rfl
  have h1 := (MixedRun.expectWorld_enforced_iff _ _ _ _ _).1 h0 ⟨7⟩ (by decide)
  revert h1
  decide

end ForthDB
