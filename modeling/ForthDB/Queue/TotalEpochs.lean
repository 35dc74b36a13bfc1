import ForthDB.Queue.Resynchronization
import ForthDB.Vm.References

/-!
# Mixed epochs that run to their end

What a mixed epoch needs not to panic: valid references and room in the arenas and among the
literal cells. A validator is shown the operations of a transaction before the transaction is
compiled; that needs an allocation for every symbol that a definition uses.

* `Sturdy R m n`: valid references, and room for `n` more operations where `R` holds.
* `compileOperations_interned`, `operations_ends`: what compiling takes of the room.
* `SymbolsAllocated`, `synthesized_ok_iff`: when the operations of a transaction can be
  synthesized.
* `intent_ends`, `intents_ends`: **the loop decides every intent**.
-/

namespace ForthDB

open Workspace

namespace VmEpochMaterializer

variable {m m' m'' : VmEpochMaterializer} {n k : ℕ} {R : Prop}

/-- Valid references, and where `R` holds, room for some more operations: each appends one record
and names two literals at most. -/
structure Sturdy (R : Prop) (m : VmEpochMaterializer) (n : ℕ) : Prop where
  references : m.workspace.References m.workspace.deltas.length
  room : R → m.workspace.Room n
  literals : R → m.LiteralRoom (2 * n)

theorem Sturdy.mono (h : m.Sturdy R n) (hk : k ≤ n) : m.Sturdy R k := by
  refine ⟨h.references, fun hR => (h.room hR).mono hk, fun hR => ?_⟩
  have hl := h.literals hR
  unfold LiteralRoom at hl ⊢
  omega

/-- `m'` is `m` with more names and empty heads, and at most `n` more literals. -/
structure Interned (m m' : VmEpochMaterializer) (n : ℕ) : Prop where
  heads : m'.workspace = { m.workspace with acceptedHeads := m'.workspace.acceptedHeads }
  references : ∀ frontier, m.workspace.References frontier → m'.workspace.References frontier
  mapped : m'.mappedBase = m.mappedBase
  literals : m'.literalValues.length ≤ m.literalValues.length + n

theorem Interned.of_same (hw : m'.workspace = m.workspace) (hm : m'.mappedBase = m.mappedBase)
    (hl : m'.literalValues.length ≤ m.literalValues.length + n) : Interned m m' n := by
  refine ⟨by rw [hw], fun frontier h => ?_, hm, hl⟩
  rw [hw]
  exact h

theorem Interned.trans (h : Interned m m' n) (h' : Interned m' m'' k) : Interned m m'' (n + k) := by
  refine ⟨?_, fun frontier hr => h'.references frontier (h.references frontier hr),
    h'.mapped.trans h.mapped, ?_⟩
  · rw [h'.heads, h.heads]
  · have hl := h.literals
    have hl' := h'.literals
    omega

theorem Interned.mono (h : Interned m m' n) (hk : n ≤ k) : Interned m m' k :=
  ⟨h.heads, h.references, h.mapped, h.literals.trans (by omega)⟩

/-- Interning keeps the room for the operations still to come. -/
theorem Interned.sturdy (h : Interned m m' (2 * k)) (hs : m.Sturdy R (k + n)) :
    m'.Sturdy R n ∧ (R → m'.workspace.Room (n + k)) := by
  obtain ⟨hrefs, hroom, hlit⟩ := hs
  have hdeltas : m'.workspace.deltas = m.workspace.deltas := by rw [h.heads]
  have hroom' : R → m'.workspace.Room (n + k) := fun hR =>
    ((hroom hR).congr (by rw [h.heads]) (by rw [h.heads])).mono (by omega)
  refine ⟨⟨?_, fun hR => (hroom' hR).mono (Nat.le_add_right _ _), fun hR => ?_⟩, hroom'⟩
  · rw [hdeltas]
    exact h.references _ hrefs
  · have hsplit : m.LiteralRoom (2 * k + 2 * n) := by
      rw [← Nat.mul_add]
      exact hlit hR
    exact hsplit.mono h.mapped h.literals

theorem slotToken_interned (m : VmEpochMaterializer) (slot : SlotId) :
    Interned m (m.slotToken slot).2 0 := by
  unfold slotToken
  split
  · exact .of_same rfl rfl le_rfl
  · split
    · exact .of_same rfl rfl le_rfl
    · exact ⟨(ensureSlotCount_eq _ _).1, fun _ h => h.ensureSlotCount _, rfl, le_rfl⟩

theorem predicateCell_interned (m : VmEpochMaterializer) (p : Predicate) :
    Interned m (m.predicateCell p).2 0 := by
  obtain ⟨-, hm, hw⟩ := predicateCell_same m p
  refine .of_same hw hm ?_
  rw [literalValues_predicateCell]
  exact le_rfl

theorem atomCell_interned (m : VmEpochMaterializer) (a : Atom) :
    Interned m (m.atomCell a).2 1 := by
  obtain ⟨-, hm, hw⟩ := atomCell_same m a
  refine .of_same hw hm ?_
  cases a with
  | entity e =>
    simp only [atomCell]
    split <;> exact Nat.le_succ _
  | literal l =>
    simp only [atomCell]
    split
    · exact Nat.le_succ _
    · split
      · exact Nat.le_succ _
      · split
        · simp
        · exact Nat.le_succ _

/-- **One operation** interns two literals at most, and appends one record at most. -/
theorem compileOperation_interned (m : VmEpochMaterializer) (op : Operation) :
    Interned m (m.compileOperation op).2 2 ∧
      ∀ is, (m.compileOperation op).1 = .ok is → is.countP appendsRecord ≤ 1 := by
  cases op with
  | allocateEntity e =>
    simp only [compileOperation]
    split
    · exact ⟨.of_same rfl rfl (Nat.le_add_right _ _), fun is hc => (by cases hc)⟩
    · refine ⟨.of_same rfl rfl (Nat.le_add_right _ _), fun is hc => ?_⟩
      obtain rfl := Except.ok.inj hc
      exact Nat.zero_le _
  | forget slot =>
    refine ⟨(slotToken_interned m slot).mono (Nat.zero_le _), fun is hc => ?_⟩
    obtain rfl := Except.ok.inj hc
    exact le_rfl
  | define slot fact =>
    simp only [compileOperation]
    have h₁ := slotToken_interned m slot
    generalize m.slotToken slot = r₁ at h₁ ⊢
    obtain ⟨t, m₁⟩ := r₁
    have h₂ := h₁.trans (atomCell_interned m₁ fact.subject)
    simp only at h₂ ⊢
    generalize m₁.atomCell fact.subject = r₂ at h₂ ⊢
    obtain ⟨c₂, m₂⟩ := r₂
    cases c₂ with
    | error e => exact ⟨h₂.mono (by omega), fun is hc => (by cases hc)⟩
    | ok s =>
      have h₃ := h₂.trans (predicateCell_interned m₂ fact.predicate)
      simp only at h₃ ⊢
      generalize m₂.predicateCell fact.predicate = r₃ at h₃ ⊢
      obtain ⟨p, m₃⟩ := r₃
      have h₄ := h₃.trans (atomCell_interned m₃ fact.object)
      simp only at h₄ ⊢
      generalize m₃.atomCell fact.object = r₄ at h₄ ⊢
      obtain ⟨c₄, m₄⟩ := r₄
      cases c₄ with
      | error e => exact ⟨h₄.mono (by omega), fun is hc => (by cases hc)⟩
      | ok o =>
        refine ⟨h₄.mono (by omega), fun is hc => ?_⟩
        obtain rfl := Except.ok.inj hc
        exact le_rfl

/-- **Operations** intern two literals each, and append one record each. -/
theorem compileOperations_interned (m : VmEpochMaterializer) (ops : List Operation) :
    Interned m (m.compileOperations ops).2 (2 * ops.length) ∧
      ∀ is, (m.compileOperations ops).1 = .ok is → is.countP appendsRecord ≤ ops.length := by
  induction ops generalizing m with
  | nil =>
    refine ⟨.of_same rfl rfl le_rfl, fun is hc => ?_⟩
    obtain rfl := Except.ok.inj hc
    exact le_rfl
  | cons op ops ih =>
    obtain ⟨h₁, hcount₁⟩ := m.compileOperation_interned op
    unfold compileOperations
    generalize m.compileOperation op = r₁ at h₁ hcount₁ ⊢
    obtain ⟨c₁, m₁⟩ := r₁
    cases c₁ with
    | error e => exact ⟨h₁.mono (by simp), fun is hc => (by cases hc)⟩
    | ok js =>
      obtain ⟨h₂, hcount₂⟩ := ih m₁
      have h₁₂ := h₁.trans h₂
      simp only at h₁₂ hcount₁ hcount₂ ⊢
      generalize m₁.compileOperations ops = r₂ at h₁₂ hcount₂ ⊢
      obtain ⟨c₂, m₂⟩ := r₂
      cases c₂ with
      | error e =>
        exact ⟨h₁₂.mono (by rw [List.length_cons]; omega), fun is hc => (by cases hc)⟩
      | ok ks =>
        refine ⟨h₁₂.mono (by rw [List.length_cons]; omega), fun is hc => ?_⟩
        obtain rfl := Except.ok.inj hc
        have hjs := hcount₁ js rfl
        have hks := hcount₂ ks rfl
        rw [List.countP_append, List.length_cons]
        omega

/-- **A program** with room for its records runs to its end. -/
theorem Sturdy.execute (h : m.Sturdy R n) {is : List Instruction}
    (hroom : R → m.workspace.Room (n + k)) (hcount : is.countP appendsRecord ≤ k) :
    EndsIf R (m.workspace.executeInstructions 0 is) fun p =>
      { m with workspace := p.2 }.Sturdy R n := by
  have hroom' : R → m.workspace.Room (n + is.countP appendsRecord) :=
    fun hR => (hroom hR).mono (by omega)
  rcases executeInstructions_safe h.references hroom' 0 with ⟨p, hp, hrefs, hleft⟩ | hpanic
  · exact .inl ⟨p, hp, hrefs, hleft, h.literals⟩
  · exact .inr hpanic

/-- A slot resolves whenever the references are valid. -/
theorem Sturdy.resolveFact (h : m.Sturdy R n) (slot : SlotId) :
    ∃ fact, m.resolveFact slot = .ok fact := by
  unfold VmEpochMaterializer.resolveFact
  split
  · exact ⟨_, rfl⟩
  · rename_i t _
    obtain ⟨cells, hcells⟩ := h.references.resolveFactCells t
    rw [hcells]
    exact ⟨_, rfl⟩

end VmEpochMaterializer

open VmEpochMaterializer

/-! ## Semantic transactions -/

namespace TrialVocabulary

variable {t t' t'' : TrialVocabulary} {n k : ℕ} {R : Prop}

/-- `t'` is `t` with more names and empty heads, and at most `n` more literals. -/
structure Interned (t t' : TrialVocabulary) (n : ℕ) : Prop where
  materializer : VmEpochMaterializer.Interned t.materializer t'.materializer 0
  literals : t'.literals.size ≤ t.literals.size + n

theorem Interned.of_same (hm : t'.materializer = t.materializer)
    (hl : t'.literals.size ≤ t.literals.size + n) : Interned t t' n := by
  refine ⟨?_, hl⟩
  rw [hm]
  exact .of_same rfl rfl le_rfl

theorem Interned.trans (h : Interned t t' n) (h' : Interned t' t'' k) : Interned t t'' (n + k) := by
  have hl := h.literals
  have hl' := h'.literals
  exact ⟨h.materializer.trans h'.materializer, by omega⟩

theorem Interned.mono (h : Interned t t' n) (hk : n ≤ k) : Interned t t' k :=
  ⟨h.materializer, h.literals.trans (by omega)⟩

/-- There are cells for more literals behind those of the trial. -/
def LiteralRoom (t : TrialVocabulary) (n : ℕ) : Prop :=
  t.materializer.LiteralRoom (t.literals.size + n)

theorem Interned.room (h : Interned t t' n) (hr : t.LiteralRoom (n + k)) : t'.LiteralRoom k := by
  obtain ⟨⟨-, -, hmapped, hvalues⟩, hl⟩ := h
  unfold LiteralRoom VmEpochMaterializer.LiteralRoom baseLiteralCount at hr ⊢
  rw [hmapped]
  omega

theorem slotToken_interned (t : TrialVocabulary) (slot : SlotId) :
    Interned t (t.slotToken slot).2 0 := by
  unfold slotToken
  split
  · exact .of_same rfl le_rfl
  · split
    · exact .of_same rfl le_rfl
    · split
      · exact .of_same rfl le_rfl
      · exact ⟨⟨(ensureSlotCount_eq _ _).1, fun _ h => h.ensureSlotCount _, rfl, le_rfl⟩, le_rfl⟩

theorem predicateCell_interned (t : TrialVocabulary) (p : Predicate) :
    Interned t (t.predicateCell p).2 0 := by
  unfold predicateCell
  split
  · exact .of_same rfl le_rfl
  · split
    · exact .of_same rfl le_rfl
    · split <;> exact .of_same rfl le_rfl

theorem LiteralRoom.le (h : t.LiteralRoom n) (hk : k ≤ n) : t.LiteralRoom k := by
  unfold LiteralRoom VmEpochMaterializer.LiteralRoom at h ⊢
  omega

/-- **A literal** has a cell, where there is room for one. -/
theorem literalCell_ends (hr : R → t.LiteralRoom 1) (l : Literal) :
    EndsIf R (t.literalCell l) fun p => Interned t p.2 1 := by
  unfold literalCell
  split
  · exact .ok (.of_same rfl (Nat.le_succ _))
  split
  · exact .ok (.of_same rfl (Nat.le_succ _))
  split
  · exact .ok (.of_same rfl (Nat.le_succ _))
  simp only
  split
  · exact .ok (.of_same rfl (Dict.size_insert_le _ _ _))
  · rename_i hcell
    refine .panic (fun hR => hcell ?_) _
    have hroom := hr hR
    unfold LiteralRoom VmEpochMaterializer.LiteralRoom at hroom
    unfold literalBase
    omega

end TrialVocabulary

/-- The symbol of an operand, if it is one. -/
def AtomRef.symbols : AtomRef → List String
  | .symbol s => [s]
  | .entity _ | .literal _ => []

/-- The symbols that the operation committed for an operation needs. -/
def TransactionOp.definedFrom : TransactionOp → List String
  | .define _ subject _ object => subject.symbols ++ object.symbols
  | _ => []

/-- Every symbol that a definition uses is allocated, before or behind it. -/
def SymbolsAllocated (ops : List TransactionOp) : Prop :=
  ∀ op ∈ ops, ∀ s ∈ op.definedFrom, .allocate s ∈ ops

instance (ops : List TransactionOp) : Decidable (SymbolsAllocated ops) :=
  inferInstanceAs (Decidable (∀ op ∈ ops, ∀ s ∈ op.definedFrom, _))

namespace SemanticCompiler

open TrialVocabulary

variable {c c' : SemanticCompiler} {k : ℕ} {R : Prop}

/-- What compiling an operation or more leaves: an operation binds the symbol that it allocates,
and needs the symbols that its definition uses. -/
structure Compiled (c c' : SemanticCompiler) (ops : List TransactionOp)
    (r : Except String (List Instruction)) : Prop where
  interned : Interned c.trial c'.trial (2 * ops.length)
  count : ∀ is, r = .ok is → is.countP appendsRecord ≤ ops.length
  binds : ∀ s, c'.bindings.lookup s ≠ none → c.bindings.lookup s ≠ none ∨ .allocate s ∈ ops
  needs : ∀ is, r = .ok is → ∀ op ∈ ops, ∀ s ∈ op.definedFrom,
    c.bindings.lookup s ≠ none ∨ .allocate s ∈ ops

/-- **An operand** compiles or is refused, where there is room for a literal. -/
theorem atomCell_ends (hr : R → c.trial.LiteralRoom 1) (x : AtomRef) :
    EndsIf R (c.atomCell x) fun p =>
      Interned c.trial p.2.trial 1 ∧ p.2.bindings = c.bindings ∧
        ∀ cell, p.1 = .ok cell → ∀ s ∈ x.symbols, c.bindings.lookup s ≠ none := by
  cases x with
  | entity e => exact .ok ⟨.of_same rfl (Nat.le_succ _), rfl, fun _ _ s hs => (by cases hs)⟩
  | literal l =>
    simp only [atomCell]
    rcases literalCell_ends hr ⟨l⟩ with ⟨p, hp, hi⟩ | ⟨hR, message, hm⟩
    · rw [hp]
      exact .ok ⟨hi, rfl, fun _ _ s hs => (by cases hs)⟩
    · rw [hm]
      exact .panic hR message
  | symbol s =>
    simp only [atomCell]
    cases hs : c.bindings.lookup s with
    | none => exact .ok ⟨.of_same rfl (Nat.le_succ _), rfl, fun _ hc => (by cases hc)⟩
    | some e =>
      refine .ok ⟨.of_same rfl (Nat.le_succ _), rfl, fun _ _ s' hs' => ?_⟩
      rw [List.mem_singleton.1 hs', hs]
      simp

/-- An operation that is refused. -/
theorem Compiled.refused {op : TransactionOp} (hi : Interned c.trial c'.trial 2)
    (hb : c'.bindings = c.bindings) (e : String) : Compiled c c' [op] (.error e) :=
  ⟨hi, fun _ hc => (nomatch hc), fun s hs => .inl (by rw [← hb]; exact hs),
    fun _ hc => (nomatch hc)⟩

/-- An operation that binds nothing. -/
theorem Compiled.plain {op : TransactionOp} {js : List Instruction}
    (hi : Interned c.trial c'.trial 2) (hb : c'.bindings = c.bindings)
    (hcount : js.countP appendsRecord ≤ 1)
    (hneeds : ∀ s ∈ op.definedFrom, c.bindings.lookup s ≠ none) : Compiled c c' [op] (.ok js) := by
  refine ⟨hi, fun is hc => ?_, fun s hs => .inl (by rw [← hb]; exact hs), fun is hc op' hop s hs => ?_⟩
  · obtain rfl := Except.ok.inj hc
    exact hcount
  · obtain rfl := List.mem_singleton.1 hop
    exact .inl (hneeds s hs)

/-- **One operation** compiles or is refused, where there is room for two literals. -/
theorem operation_ends (hr : R → c.trial.LiteralRoom 2) (op : TransactionOp) :
    EndsIf R (c.operation op) fun p => Compiled c p.2 [op] p.1 := by
  have hnone : ∀ s ∈ ([] : List String), c.bindings.lookup s ≠ none := fun s hs => nomatch hs
  cases op with
  | allocate result =>
    have hsame : Interned c.trial c.trial 2 := .of_same rfl (Nat.le_add_right _ _)
    simp only [operation]
    split
    · exact .ok (.refused hsame rfl _)
    split
    · exact .ok (.refused hsame rfl _)
    · refine .ok ⟨hsame, fun is hc => ?_, fun s hs => ?_, fun is hc op hop s hs => ?_⟩
      · obtain rfl := Except.ok.inj hc
        exact Nat.zero_le _
      · by_cases he : s = result
        · rw [he]
          exact .inr (List.mem_singleton_self _)
        · simp only at hs
          rw [AList.lookup_insert_ne he] at hs
          exact .inl hs
      · obtain rfl := List.mem_singleton.1 hop
        cases hs
  | expectWorld expected =>
    exact .ok (.plain (.of_same rfl (Nat.le_add_right _ _)) rfl (Nat.zero_le _) hnone)
  | reject => exact .ok (.plain (.of_same rfl (Nat.le_add_right _ _)) rfl (Nat.zero_le _) hnone)
  | forget slot =>
    exact .ok (.plain ((slotToken_interned c.trial ⟨slot⟩).mono (Nat.zero_le _)) rfl le_rfl hnone)
  | expectObject slot expected =>
    simp only [operation]
    have h₁ := slotToken_interned c.trial ⟨slot⟩
    generalize c.trial.slotToken ⟨slot⟩ = r₁ at h₁ ⊢
    obtain ⟨t, trial⟩ := r₁
    simp only at h₁ ⊢
    have hroom : R → trial.LiteralRoom 1 := fun hR =>
      (h₁.room (by rw [Nat.zero_add]; exact hr hR)).le (by omega)
    rcases atomCell_ends (c := { c with trial := trial }) hroom expected with
      ⟨⟨r, c₂⟩, hc₂, h₂, hb₂, -⟩ | ⟨hR, message, hm⟩
    swap
    · rw [hm]
      exact .panic hR message
    have h₁₂ : Interned c.trial c₂.trial 2 := (h₁.trans h₂).mono (by omega)
    rw [hc₂]
    cases r with
    | error e => exact .ok (.refused h₁₂ hb₂ e)
    | ok cell => exact .ok (.plain h₁₂ hb₂ (Nat.zero_le _) hnone)
  | define slot subject predicate object =>
    simp only [operation]
    have h₁ := slotToken_interned c.trial ⟨slot⟩
    generalize c.trial.slotToken ⟨slot⟩ = r₁ at h₁ ⊢
    obtain ⟨t, trial⟩ := r₁
    simp only at h₁ ⊢
    have hroom₁ : R → trial.LiteralRoom 2 := fun hR => h₁.room (by rw [Nat.zero_add]; exact hr hR)
    rcases atomCell_ends (c := { c with trial := trial }) (fun hR => (hroom₁ hR).le (by omega))
      subject with ⟨⟨r₂, c₂⟩, hc₂, h₂, hb₂, hneeds₂⟩ | ⟨hR, message, hm⟩
    swap
    · rw [hm]
      exact .panic hR message
    have hroom₂ : R → c₂.trial.LiteralRoom 1 := fun hR => h₂.room (hroom₁ hR)
    have h₁₂ := h₁.trans h₂
    rw [hc₂]
    cases r₂ with
    | error e => exact .ok (.refused (h₁₂.mono (by omega)) hb₂ e)
    | ok subjectCell =>
      have h₃ := predicateCell_interned c₂.trial ⟨predicate⟩
      simp only
      generalize c₂.trial.predicateCell ⟨predicate⟩ = r₃ at h₃ ⊢
      obtain ⟨p, trial₃⟩ := r₃
      simp only at h₃ ⊢
      have hroom₃ : R → trial₃.LiteralRoom 1 := fun hR =>
        h₃.room (by rw [Nat.zero_add]; exact hroom₂ hR)
      rcases atomCell_ends (c := { c₂ with trial := trial₃ }) hroom₃ object with
        ⟨⟨r₄, c₄⟩, hc₄, h₄, hb₄, hneeds₄⟩ | ⟨hR, message, hm⟩
      swap
      · rw [hm]
        exact .panic hR message
      have hall : Interned c.trial c₄.trial 2 := ((h₁₂.trans h₃).trans h₄).mono (by omega)
      have hb : c₄.bindings = c.bindings := hb₄.trans hb₂
      rw [hc₄]
      cases r₄ with
      | error e => exact .ok (.refused hall hb e)
      | ok objectCell =>
        refine .ok (.plain hall hb le_rfl fun s hs => ?_)
        rcases List.mem_append.1 hs with hs | hs
        · exact hneeds₂ _ rfl s hs
        · rw [← hb₂]
          exact hneeds₄ _ rfl s hs

/-- **A transaction** compiles or is refused, where there is room for its literals. -/
theorem operations_ends (ops : List TransactionOp)
    (hr : R → c.trial.LiteralRoom (2 * ops.length)) :
    EndsIf R (c.operations ops) fun p => Compiled c p.2 ops p.1 := by
  induction ops generalizing c with
  | nil =>
    refine .ok ⟨.of_same rfl le_rfl, fun is hc => ?_, fun s hs => .inl hs,
      fun is hc op hop => (by cases hop)⟩
    obtain rfl := Except.ok.inj hc
    exact le_rfl
  | cons op ops ih =>
    have hlen : 2 * (op :: ops).length = 2 + 2 * ops.length := by
      rw [List.length_cons]
      omega
    rw [hlen] at hr
    simp only [operations]
    rcases operation_ends (fun hR => (hr hR).le (by omega)) op with
      ⟨⟨r₁, c₁⟩, hc₁, h₁⟩ | ⟨hR, message, hm⟩
    swap
    · rw [hm]
      exact .panic hR message
    rw [hc₁]
    have hbinds₁ : ∀ s, c₁.bindings.lookup s ≠ none →
        c.bindings.lookup s ≠ none ∨ .allocate s ∈ op :: ops := fun s hs =>
      (h₁.binds s hs).imp_right fun hop => by
        rw [List.mem_singleton.1 hop]
        exact List.mem_cons_self
    cases r₁ with
    | error e =>
      have hfirst : Interned c.trial c₁.trial (2 * (op :: ops).length) := by
        rw [hlen]
        exact h₁.interned.mono (Nat.le_add_right _ _)
      exact .ok ⟨hfirst, fun _ hc => (by cases hc), hbinds₁, fun _ hc => (by cases hc)⟩
    | ok js =>
      simp only
      rcases ih (fun hR => h₁.interned.room (hr hR)) with ⟨⟨r₂, c₂⟩, hc₂, h₂⟩ | ⟨hR, message, hm⟩
      swap
      · rw [hm]
        exact .panic hR message
      rw [hc₂]
      have hinterned : Interned c.trial c₂.trial (2 * (op :: ops).length) := by
        rw [hlen]
        exact h₁.interned.trans h₂.interned
      have hbinds₂ : ∀ s, c₂.bindings.lookup s ≠ none →
          c.bindings.lookup s ≠ none ∨ .allocate s ∈ op :: ops := by
        intro s hs
        rcases h₂.binds s hs with hs | hs
        · exact hbinds₁ s hs
        · exact .inr (List.mem_cons_of_mem _ hs)
      cases r₂ with
      | error e => exact .ok ⟨hinterned, fun _ hc => (by cases hc), hbinds₂, fun _ hc => (by cases hc)⟩
      | ok ks =>
        refine .ok ⟨hinterned, fun is hc => ?_, hbinds₂, fun is hc op' hop s hs => ?_⟩
        · obtain rfl := Except.ok.inj hc
          have hjs := h₁.count js rfl
          have hks := h₂.count ks rfl
          rw [List.length_singleton] at hjs
          rw [List.countP_append, List.length_cons]
          omega
        · rcases List.mem_cons.1 hop with rfl | hop
          · refine (h₁.needs js rfl op' (List.mem_singleton_self _) s hs).imp_right fun ha => ?_
            rw [List.mem_singleton.1 ha]
            exact List.mem_cons_self
          · rcases h₂.needs ks rfl op' hop s hs with hs | hs
            · exact hbinds₁ s hs
            · exact .inr (List.mem_cons_of_mem _ hs)

end SemanticCompiler

/-- The symbols that `assignTemps` knows in the end. -/
theorem lookup_assignTemps (temps : Dict String ℕ) (n : ℕ) (ops : List TransactionOp) (s : String) :
    (assignTemps temps n ops).lookup s ≠ none ↔ temps.lookup s ≠ none ∨ .allocate s ∈ ops := by
  induction ops generalizing temps n with
  | nil => simp [assignTemps]
  | cons op ops ih =>
    cases op with
    | allocate result =>
      simp only [assignTemps, ih, List.mem_cons, TransactionOp.allocate.injEq]
      by_cases he : s = result
      · rw [he, AList.lookup_insert]
        simp
      · rw [AList.lookup_insert_ne he]
        simp [he]
    | _ => simp only [assignTemps, ih, List.mem_cons, reduceCtorEq, false_or]

theorem AtomRef.resolve_ok_iff (temps : Dict String ℕ) (x : AtomRef) :
    (∃ a, x.resolve temps = .ok a) ↔ ∀ s ∈ x.symbols, temps.lookup s ≠ none := by
  cases x with
  | entity e => exact iff_of_true ⟨_, rfl⟩ fun s hs => nomatch hs
  | literal l => exact iff_of_true ⟨_, rfl⟩ fun s hs => nomatch hs
  | symbol s =>
    simp only [AtomRef.resolve, AtomRef.symbols, List.mem_singleton, forall_eq, tempEntity]
    cases temps.lookup s with
    | none => simp [Except.map]
    | some e => simp [Except.map]

/-- What is committed for one operation. -/
theorem TransactionOp.synthesize_ok_iff {temps : Dict String ℕ} {op : TransactionOp}
    (hop : ∀ s, op = .allocate s → temps.lookup s ≠ none) :
    (∃ os, op.synthesize temps = .ok os) ↔ ∀ s ∈ op.definedFrom, temps.lookup s ≠ none := by
  cases op with
  | allocate result =>
    refine iff_of_true ?_ fun s hs => (by cases hs)
    have hknown := hop result rfl
    simp only [synthesize, tempEntity]
    cases hl : temps.lookup result with
    | none => exact absurd hl hknown
    | some e => exact ⟨_, rfl⟩
  | define slot subject predicate object =>
    have hs := subject.resolve_ok_iff temps
    have ho := object.resolve_ok_iff temps
    simp only [definedFrom, List.forall_mem_append, ← hs, ← ho, synthesize, bind, Except.bind]
    cases subject.resolve temps with
    | error message => simp
    | ok a =>
      cases object.resolve temps with
      | error message => simp
      | ok b => simp [pure, Except.pure]
  | expectWorld expected => exact iff_of_true ⟨_, rfl⟩ fun s hs => (by cases hs)
  | expectObject slot expected => exact iff_of_true ⟨_, rfl⟩ fun s hs => (by cases hs)
  | forget slot => exact iff_of_true ⟨_, rfl⟩ fun s hs => (by cases hs)
  | reject => exact iff_of_true ⟨_, rfl⟩ fun s hs => (by cases hs)

theorem synthesizeOperations_ok_iff {temps : Dict String ℕ} {ops : List TransactionOp}
    (hops : ∀ s, .allocate s ∈ ops → temps.lookup s ≠ none) :
    (∃ os, synthesizeOperations temps ops = .ok os) ↔
      ∀ op ∈ ops, ∀ s ∈ op.definedFrom, temps.lookup s ≠ none := by
  induction ops with
  | nil => exact iff_of_true ⟨_, rfl⟩ fun op hop => nomatch hop
  | cons op ops ih =>
    have hfirst : ∀ s, op = .allocate s → temps.lookup s ≠ none :=
      fun s hs => hops s (by rw [hs]; simp)
    have hop := TransactionOp.synthesize_ok_iff hfirst
    have hrest := ih fun s hs => hops s (List.mem_cons_of_mem _ hs)
    rw [List.forall_mem_cons, ← hop, ← hrest]
    simp only [synthesizeOperations, bind, Except.bind]
    cases op.synthesize temps with
    | error message => simp
    | ok os =>
      cases synthesizeOperations temps ops with
      | error message => simp
      | ok ps => simp [pure, Except.pure]

/-- **The operations of a transaction** can be synthesized exactly when every symbol that a
definition uses is allocated. -/
theorem SemanticIntent.synthesized_ok_iff (intent : SemanticIntent) (nextEntity : ℕ) :
    (∃ os, intent.synthesized nextEntity = .ok os) ↔ SymbolsAllocated intent.ast.operations := by
  have hlookup : ∀ s, (assignTemps ∅ nextEntity intent.ast.operations).lookup s ≠ none ↔
      .allocate s ∈ intent.ast.operations := by
    intro s
    rw [lookup_assignTemps]
    simp
  unfold synthesized SymbolsAllocated
  rw [synthesizeOperations_ok_iff fun s hs => (hlookup s).2 hs]
  simp only [hlookup]

/-! ## The loop -/

/-- How many operations an intent has. -/
def ControllerIntent.weight : ControllerIntent → ℕ
  | .queued intent => intent.operations.length
  | .semantic intent => intent.ast.operations.length

/-- Validators can be shown what an intent is committed as. -/
def ControllerIntent.Synthesizable : ControllerIntent → Prop
  | .queued _ => True
  | .semantic intent => SymbolsAllocated intent.ast.operations

theorem length_of_resolveOperations {space n : ℕ} {entities entities' : EntityMap}
    {ops : List IntentOperation} {os : List Operation}
    (h : resolveOperations space n entities ops = .ok (os, entities')) : os.length = ops.length := by
  induction ops generalizing n entities os with
  | nil =>
    cases h
    rfl
  | cons op ops ih =>
    cases op with
    | allocateEntity temporary =>
      simp only [resolveOperations] at h
      split at h
      · cases h
      cases hr : resolveOperations space (n + 1) (entities.insert temporary ⟨n⟩) ops with
      | error e => rw [hr] at h; cases h
      | ok p =>
        rw [hr] at h
        cases h
        rw [List.length_cons, List.length_cons, ih hr]
    | define slot fact =>
      simp only [resolveOperations, bind, Except.bind] at h
      cases hf : fact.resolve space entities with
      | error e => rw [hf] at h; cases h
      | ok f =>
        rw [hf] at h
        cases hr : resolveOperations space n entities ops with
        | error e => simp only [hr] at h; cases h
        | ok p =>
          simp only [hr] at h
          cases h
          rw [List.length_cons, List.length_cons, ih hr]
    | forget slot =>
      simp only [resolveOperations, bind, Except.bind] at h
      cases hr : resolveOperations space n entities ops with
      | error e => simp only [hr] at h; cases h
      | ok p =>
        simp only [hr] at h
        cases h
        rw [List.length_cons, List.length_cons, ih hr]

namespace MixedRun

variable {s : MixedRun} {n : ℕ} {R : Prop} {w : World} {kernel : ForthDb}
  {validators : List Validator}

theorem executeQueued_ends {ops : List Operation} (h : s.materializer.Sturdy R (ops.length + n))
    (entities : EntityMap) :
    EndsIf R (s.executeQueued ops entities) fun p => p.2.materializer.Sturdy R n := by
  obtain ⟨hi, hcount⟩ := s.materializer.compileOperations_interned ops
  obtain ⟨hsturdy, hroom⟩ := hi.sturdy h
  unfold executeQueued
  generalize s.materializer.compileOperations ops = r at hcount hsturdy hroom ⊢
  obtain ⟨r, m⟩ := r
  simp only at hcount hsturdy hroom
  cases r with
  | error e => exact .ok hsturdy
  | ok is =>
    simp only
    rcases hsturdy.execute hroom (hcount is rfl) with
      ⟨⟨outcome, v⟩, hv, hend⟩ | ⟨hR, message, hm⟩
    · rw [hv]
      cases outcome with
      | accepted => exact .ok hend
      | rejected e => exact .ok hend
    · rw [hm]
      exact .panic hR message

/-- **A semantic intent** is decided, whatever its transaction. -/
theorem executeSemantic_ends {intent : SemanticIntent}
    (h : s.materializer.Sturdy R (intent.ast.operations.length + n)) :
    EndsIf R (s.executeSemantic intent) fun p => p.2.materializer.Sturdy R n := by
  have hlit : R → (TrialVocabulary.new s.materializer).LiteralRoom
      (2 * intent.ast.operations.length + 2 * n) := by
    intro hR
    have hl := h.literals hR
    unfold TrialVocabulary.LiteralRoom VmEpochMaterializer.LiteralRoom at *
    simp only [TrialVocabulary.new, Dict.size_empty]
    omega
  unfold executeSemantic
  simp only [TrialVocabulary.compileSemanticTrial]
  rcases SemanticCompiler.operations_ends (c := ⟨.new s.materializer, ∅, 0⟩)
    intent.ast.operations (fun hR => (hlit hR).le (Nat.le_add_right _ _)) with
    ⟨⟨r, c⟩, hc, hcompiled⟩ | ⟨hR, message, hm⟩
  swap
  · rw [hm]
    exact .panic hR message
  rw [hc]
  have hi : VmEpochMaterializer.Interned s.materializer c.trial.materializer
      (2 * intent.ast.operations.length) := hcompiled.interned.materializer.mono (Nat.zero_le _)
  obtain ⟨hsturdy, hroom⟩ := hi.sturdy h
  cases r with
  | error e => exact .ok hsturdy
  | ok is =>
    simp only
    rcases hsturdy.execute hroom (hcompiled.count is rfl) with
      ⟨⟨outcome, v⟩, hv, hend⟩ | ⟨hR, message, hm⟩
    swap
    · rw [hm]
      exact .panic hR message
    rw [hv]
    cases outcome with
    | rejected e => exact .ok hend
    | accepted =>
      -- it compiled, so its symbols are bound
      have hsymbols : SymbolsAllocated intent.ast.operations := fun op hop x hx =>
        (hcompiled.needs is rfl op hop x hx).resolve_left (by simp)
      obtain ⟨os, hos⟩ :=
        (intent.synthesized_ok_iff s.materializer.workspace.nextEntity).2 hsymbols
      simp only [hos]
      refine .ok ⟨hend.references, hend.room, fun hR => ?_⟩
      have hleft : c.trial.LiteralRoom (2 * n) := hcompiled.interned.room (hlit hR)
      unfold TrialVocabulary.LiteralRoom VmEpochMaterializer.LiteralRoom at hleft
      show c.trial.materializer.baseLiteralCount + (c.trial.materializer.literalValues ++
        (c.trial.literals.sorted Literal.value).map Prod.fst).length + 2 * n ≤ 2 ^ 63
      rw [List.length_append, List.length_map, Dict.length_sorted]
      omega

/-- **One intent** is decided. -/
theorem intent_ends {i : ControllerIntent} (h : s.materializer.Sturdy R (i.weight + n))
    (hsymbols : R → validators = [] ∨ i.Synthesizable) :
    EndsIf R (s.intent w kernel validators i) fun p => p.2.materializer.Sturdy R n := by
  have hless : s.materializer.Sturdy R n := h.mono (Nat.le_add_left _ _)
  cases i with
  | queued intent =>
    have hresolve : ∀ slot, s.materializer.resolveFact slot =
        .ok (((s.materializer.resolveFact slot).toOption).join) := by
      intro slot
      obtain ⟨fact, hf⟩ := hless.resolveFact slot
      rw [hf]
      rfl
    simp only [MixedRun.intent, queued, resolveQueued, VmEpochMaterializer.checkPreconditions,
      checkPreconditionsBy_eq hresolve]
    cases checkPreconditions s.predecessorId _ intent.preconditions with
    | error e => exact .ok hless
    | ok u =>
      simp only
      cases hr : resolveOperationsFrom s.materializer.workspace.nextEntity intent.space
          intent.operations with
      | error e => exact .ok hless
      | ok p =>
        obtain ⟨ops, entities⟩ := p
        have hlen : ops.length = intent.operations.length := length_of_resolveOperations hr
        have hops : s.materializer.Sturdy R (ops.length + n) := by
          rw [hlen]
          exact h
        simp only
        split
        · cases s.candidate w kernel ops with
          | error e => exact .ok hless
          | ok candidate =>
            simp only
            cases runValidators candidate validators with
            | error message => exact .ok hless
            | ok u => exact executeQueued_ends hops entities
        · exact executeQueued_ends hops entities
  | semantic intent =>
    simp only [MixedRun.intent, semantic]
    split
    · rename_i hne
      cases hsyn : intent.synthesized s.materializer.workspace.nextEntity with
      | error message =>
        refine .panic (fun hR => ?_) message
        obtain ⟨os, hos⟩ := (intent.synthesized_ok_iff s.materializer.workspace.nextEntity).2
          ((hsymbols hR).resolve_left hne)
        cases hsyn.symm.trans hos
      | ok os =>
        simp only
        cases s.candidate w kernel os with
        | error e => exact .ok hless
        | ok candidate =>
          simp only
          cases runValidators candidate validators with
          | error message => exact .ok hless
          | ok u => exact executeSemantic_ends h
    · exact executeSemantic_ends h

/-- **The loop** decides every intent, one decision for each. -/
theorem intents_ends {is : List ControllerIntent}
    (h : s.materializer.Sturdy R ((is.map ControllerIntent.weight).sum + n))
    (hsymbols : R → validators = [] ∨ ∀ i ∈ is, i.Synthesizable) :
    EndsIf R (s.intents w kernel validators is) fun p =>
      p.1.length = is.length ∧ p.2.materializer.Sturdy R n := by
  induction is generalizing s with
  | nil => exact .ok ⟨rfl, h.mono (Nat.le_add_left _ _)⟩
  | cons i rest ih =>
    rw [List.map_cons, List.sum_cons, Nat.add_assoc] at h
    simp only [List.forall_mem_cons] at hsymbols
    simp only [intents]
    have hfirst : EndsIf R (s.intent w kernel validators i) fun p =>
        p.2.materializer.Sturdy R ((rest.map ControllerIntent.weight).sum + n) :=
      intent_ends h fun hR => (hsymbols hR).imp_right And.left
    rcases hfirst with ⟨⟨d, s₁⟩, hd, hs₁⟩ | ⟨hR, message, hm⟩
    swap
    · rw [hm]
      exact .panic hR message
    rw [hd]
    simp only
    rcases ih hs₁ (fun hR => (hsymbols hR).imp_right And.right) with
      ⟨⟨ds, s₂⟩, hds, hlen, hs₂⟩ | ⟨hR, message, hm⟩
    · rw [hds]
      exact .ok ⟨by rw [List.length_cons, List.length_cons, hlen], hs₂⟩
    · rw [hm]
      exact .panic hR message

/-- **A transaction** that uses a symbol without an allocation stops the loop, where there are
validators. -/
theorem intents_panics {is : List ControllerIntent} (hne : validators ≠ [])
    (hbad : ∃ i ∈ is, ¬ i.Synthesizable) :
    ∃ message, s.intents w kernel validators is = .error message := by
  induction is generalizing s with
  | nil =>
    obtain ⟨i, hi, -⟩ := hbad
    cases hi
  | cons i rest ih =>
    simp only [intents]
    by_cases hi : i.Synthesizable
    · obtain ⟨j, hj, hjbad⟩ := hbad
      have hrest : ∃ i ∈ rest, ¬ i.Synthesizable := by
        rcases List.mem_cons.1 hj with rfl | hj
        · exact absurd hi hjbad
        · exact ⟨j, hj, hjbad⟩
      cases s.intent w kernel validators i with
      | error message => exact ⟨_, rfl⟩
      | ok p =>
        obtain ⟨d, s₁⟩ := p
        obtain ⟨message, hm⟩ := ih (s := s₁) hrest
        simp only [hm]
        exact ⟨_, rfl⟩
    · cases i with
      | queued intent => exact absurd trivial hi
      | semantic intent =>
        have hnone : ∀ os, intent.synthesized s.materializer.workspace.nextEntity ≠ .ok os :=
          fun os hos => hi ((intent.synthesized_ok_iff _).1 ⟨os, hos⟩)
        cases hsyn : intent.synthesized s.materializer.workspace.nextEntity with
        | ok os => exact absurd hsyn (hnone os)
        | error message =>
          simp only [MixedRun.intent, semantic, if_pos hne, hsyn]
          exact ⟨_, rfl⟩

end MixedRun

namespace VmEpochMaterializer

variable {m m' : VmEpochMaterializer} {R : Prop} {n : ℕ} {w : World}

/-- Valid references are all that is asked of a materializer where `R` fails. -/
theorem sturdy_of_references (h : m.workspace.References m.workspace.deltas.length) (n : ℕ) :
    m.Sturdy False n := ⟨h, fun hR => hR.elim, fun hR => hR.elim⟩

theorem references_materializeMixed (h : m.workspace.References m.workspace.deltas.length)
    {intents : List ControllerIntent} {validators : List Validator} {plan : MixedEpochPlan}
    (hm : m.materializeMixed w intents validators = .ok (plan, m')) :
    m'.workspace.References m'.workspace.deltas.length := by
  unfold materializeMixed at hm
  split at hm
  · cases hm
  split at hm
  · cases hm
  rename_i kernel _ ds s hs
  cases hm
  have hstart : (m.startMixed w).materializer.Sturdy False
      ((intents.map ControllerIntent.weight).sum + 0) := sturdy_of_references h _
  exact ((MixedRun.intents_ends hstart fun hR => hR.elim).of_ok hs).2.references

theorem references_applyCommitted (h : m.workspace.References m.workspace.deltas.length)
    {ops : List Operation} (hm : m.applyCommitted ops = .ok m') :
    m'.workspace.References m'.workspace.deltas.length := by
  obtain ⟨hi, hcount⟩ := m.compileOperations_interned ops
  obtain ⟨hsturdy, hroom⟩ := hi.sturdy (n := 0) (sturdy_of_references h (ops.length + 0))
  unfold applyCommitted at hm
  generalize m.compileOperations ops = r at hcount hsturdy hroom hm
  obtain ⟨c, m₁⟩ := r
  cases c with
  | error e => cases hm
  | ok is =>
    simp only at hm
    have hend := hsturdy.execute hroom (hcount is rfl)
    split at hm
    · cases hm
    · rename_i v hv
      cases hm
      exact (hend.of_ok hv).references
    · cases hm

theorem references_synchronizeFrames {gs : List CommitFrame}
    (h : m.workspace.References m.workspace.deltas.length) (hm : m.synchronizeFrames gs = .ok m') :
    m'.workspace.References m'.workspace.deltas.length := by
  induction gs generalizing m with
  | nil =>
    cases hm
    exact h
  | cons g gs ih =>
    simp only [synchronizeFrames, synchronizeFrame] at hm
    by_cases hnew : g.parentVersion + 1 > m.version
    · rw [if_pos hnew] at hm
      cases hc : m.applyCommitted g.operations with
      | error halt => rw [hc] at hm; cases hm
      | ok m₁ =>
        rw [hc] at hm
        have h₁ := references_applyCommitted h hc
        exact ih (m := { m₁ with version := g.parentVersion + 1 }) h₁ hm
    · rw [if_neg hnew] at hm
      exact ih h hm

theorem references_synchronizeTo (h : m.workspace.References m.workspace.deltas.length)
    (hm : m.synchronizeTo w = .ok m') : m'.workspace.References m'.workspace.deltas.length := by
  unfold synchronizeTo at hm
  split at hm
  · cases hm
  split at hm
  · cases hm
    exact h
  split at hm
  · cases hm
  simp only at hm
  split at hm
  · exact references_synchronizeFrames (m := { m with workspace := .withIndexesFrom 1 0 32 })
      (references_new 1 0 32) hm
  · exact references_synchronizeFrames h hm

end VmEpochMaterializer

/-- **Every session** leaves valid references. -/
theorem Session.references {d : Database} {m : VmEpochMaterializer}
    {steps : List (Database × VmEpochMaterializer × EngineEvent)} (h : Session d m steps) :
    m.workspace.References m.workspace.deltas.length := by
  induction h with
  | genesis => exact references_new 1 0 32
  | registerValidator v _ ih => exact ih
  | commit _ _ _ ih => exact ih
  | @mixedEpoch d d' m m' is plan steps _ hd ih =>
    unfold Database.commitMixedEpoch at hd
    split at hd
    · cases hd
    · cases hd
    rename_i m₁ hsync
    split at hd
    · cases hd
    rename_i plan₂ m₂ hmat
    cases hd
    have h₂ := references_materializeMixed (references_synchronizeTo ih hsync) hmat
    exact h₂

end ForthDB
