import ForthDB.Queue.StreamCodec

/-!
# The direct encoding of an intent

The journal falls back to it where an intent has no instruction stream, and still
reads it. `reads_queuedIntent`: an intent in range is read back, foreign temporaries
and high entity ids included. `spells_queuedIntent`, `yields_queuedIntent`: what is accepted
is what such an intent is encoded to.
-/

namespace ForthDB

open Bytes Decode

namespace IntentCodec

/-- The texts of `decode_queued_intent` and the readers below it. -/
def wording : Wording where
  eof := fun _ _ => "failed to fill whole buffer"
  eofText := fun _ _ => "truncated intent string"
  utf8 := "invalid utf-8"
  atomTag := fun tag => s!"invalid fact atom tag {tag}"
  operationTag := fun tag => s!"invalid intent operation tag {tag}"

/-- `encode_temporary`. -/
def putTemporary (t : TempEntity) : List UInt8 := le 8 t.space ++ le 4 t.index

/-- `encode_intent_atom`. -/
def putIntentAtom : IntentAtom → List UInt8
  | .entity e => 0 :: le 8 e.value
  | .temporary t => 1 :: putTemporary t
  | .literal l => 2 :: putString 4 l.value

/-- `encode_intent_fact`. -/
def putIntentFact (f : IntentFact) : List UInt8 :=
  putIntentAtom f.subject ++ (putString 4 f.predicate.value ++ putIntentAtom f.object)

def putPrecondition : IntentPrecondition → List UInt8
  | .expectedWorld world => 0 :: le 8 world.value.toNat
  | .expectedSlot slot (some fact) => 1 :: (putString 4 slot.value ++ (1 :: putFact 4 fact))
  | .expectedSlot slot none => 1 :: (putString 4 slot.value ++ [0])

def putIntentOperation : IntentOperation → List UInt8
  | .allocateEntity t => 0 :: putTemporary t
  | .define slot fact => 1 :: (putString 4 slot.value ++ putIntentFact fact)
  | .forget slot => 2 :: putString 4 slot.value

/-- `encode_queued_intent`. -/
def encodeQueuedIntent (i : QueuedIntent) : List UInt8 :=
  le 8 i.space ++ (le 4 i.nextTemporary ++
    (le 4 i.preconditions.length ++ (i.preconditions.flatMap putPrecondition ++
      (le 4 i.operations.length ++ i.operations.flatMap putIntentOperation))))

/-- `decode_temporary`. -/
def readTemporary : Decoder TempEntity := do
  let space ← number wording.eof 8
  let index ← number wording.eof 4
  pure ⟨space, index⟩

/-- `decode_intent_atom`. -/
def readIntentAtom : Decoder IntentAtom := do
  let tag ← number wording.eof 1
  match tag with
  | 0 => do let id ← number wording.eof 8; pure (.entity ⟨id⟩)
  | 1 => do let temporary ← readTemporary; pure (.temporary temporary)
  | 2 => do let text ← readString wording 4; pure (.literal ⟨text⟩)
  | tag => fail s!"invalid intent atom tag {tag}"

/-- `decode_intent_fact`. -/
def readIntentFact : Decoder IntentFact := do
  let subject ← readIntentAtom
  let predicate ← readString wording 4
  let object ← readIntentAtom
  pure ⟨subject, ⟨predicate⟩, object⟩

/-- The fact of an expected slot, behind its tag. -/
def readExpected : Decoder (Option Fact) := do
  let tag ← number wording.eof 1
  match tag with
  | 0 => pure none
  | 1 => do let fact ← readFact wording 4; pure (some fact)
  | tag => fail s!"invalid expected-fact tag {tag}"

def readPrecondition : Decoder IntentPrecondition := do
  let tag ← number wording.eof 1
  match tag with
  | 0 => do let world ← number wording.eof 8; pure (.expectedWorld ⟨.ofNat world⟩)
  | 1 => do
    let slot ← readString wording 4
    let expected ← readExpected
    pure (.expectedSlot ⟨slot⟩ expected)
  | tag => fail s!"invalid intent precondition tag {tag}"

def readIntentOperation : Decoder IntentOperation := do
  let tag ← number wording.eof 1
  match tag with
  | 0 => do let temporary ← readTemporary; pure (.allocateEntity temporary)
  | 1 => do
    let slot ← readString wording 4
    let fact ← readIntentFact
    pure (.define ⟨slot⟩ fact)
  | 2 => do let slot ← readString wording 4; pure (.forget ⟨slot⟩)
  | tag => fail (wording.operationTag tag)

/-- `decode_queued_intent`. -/
def readQueuedIntent : Decoder QueuedIntent := do
  let space ← number wording.eof 8
  let nextTemporary ← number wording.eof 4
  let preconditionCount ← number wording.eof 4
  let preconditions ← times preconditionCount readPrecondition
  let operationCount ← number wording.eof 4
  let operations ← times operationCount readIntentOperation
  pure ⟨space, nextTemporary, preconditions, operations⟩

/-- What the source's types and length fields promise of a temporary. -/
def TemporaryFits (t : TempEntity) : Prop := t.space < 2 ^ 64 ∧ t.index < 2 ^ 32

def AtomFits : IntentAtom → Prop
  | .entity e => e.value < 2 ^ 64
  | .temporary t => TemporaryFits t
  | .literal l => TextFits 4 l.value

def PreconditionFits : IntentPrecondition → Prop
  | .expectedWorld _ => True
  | .expectedSlot slot (some fact) => TextFits 4 slot.value ∧ fact.Fits 4
  | .expectedSlot slot none => TextFits 4 slot.value

def OperationFits : IntentOperation → Prop
  | .allocateEntity t => TemporaryFits t
  | .define slot fact => TextFits 4 slot.value ∧ AtomFits fact.subject ∧
      TextFits 4 fact.predicate.value ∧ AtomFits fact.object
  | .forget slot => TextFits 4 slot.value

/-- An intent whose numbers fit the fields of the encoding. -/
structure IntentFits (i : QueuedIntent) : Prop where
  space : i.space < 2 ^ 64
  nextTemporary : i.nextTemporary < 2 ^ 32
  preconditionCount : i.preconditions.length < 2 ^ 32
  preconditions : ∀ p ∈ i.preconditions, PreconditionFits p
  operationCount : i.operations.length < 2 ^ 32
  operations : ∀ op ∈ i.operations, OperationFits op

theorem reads_temporary {t : TempEntity} (h : TemporaryFits t) :
    Decode.Reads readTemporary (putTemporary t) t := (reads_u64 h.1).bind ((reads_u32 h.2).bind_pure _)

theorem reads_intentAtom {a : IntentAtom} (h : AtomFits a) :
    Decode.Reads readIntentAtom (putIntentAtom a) a := by
  cases a with
  | entity e =>
    exact (reads_tag wording.eof 0).bind ((reads_u64 h).bind_pure fun id => IntentAtom.entity ⟨id⟩)
  | temporary t =>
    exact (reads_tag wording.eof 1).bind ((reads_temporary h).bind_pure IntentAtom.temporary)
  | literal l =>
    exact (reads_tag wording.eof 2).bind
      ((reads_string h).bind_pure fun t => IntentAtom.literal ⟨t⟩)

theorem reads_precondition {p : IntentPrecondition} (h : PreconditionFits p) :
    Decode.Reads readPrecondition (putPrecondition p) p := by
  cases p with
  | expectedWorld world =>
    have key : Decode.Reads readPrecondition (putPrecondition (.expectedWorld world))
        (.expectedWorld ⟨.ofNat world.value.toNat⟩) :=
      (reads_tag wording.eof 0).bind ((reads_u64 world.value.toNat_lt).bind_pure
        fun n => IntentPrecondition.expectedWorld ⟨.ofNat n⟩)
    rwa [UInt64.ofNat_toNat] at key
  | expectedSlot slot expected =>
    cases expected with
    | none =>
      have he : Decode.Reads readExpected [0] none := (reads_tag wording.eof 0).bind_nil (reads_pure none)
      exact (reads_tag wording.eof 1).bind ((reads_string h).bind (he.bind_pure _))
    | some fact =>
      have he : Decode.Reads readExpected (1 :: putFact 4 fact) (some fact) :=
        (reads_tag wording.eof 1).bind ((reads_fact h.2).bind_pure some)
      exact (reads_tag wording.eof 1).bind ((reads_string h.1).bind (he.bind_pure _))

theorem reads_intentOperation {op : IntentOperation} (h : OperationFits op) :
    Decode.Reads readIntentOperation (putIntentOperation op) op := by
  cases op with
  | allocateEntity t =>
    exact (reads_tag wording.eof 0).bind
      ((reads_temporary h).bind_pure IntentOperation.allocateEntity)
  | define slot fact =>
    obtain ⟨h1, h2, h3, h4⟩ := h
    have hf : Decode.Reads readIntentFact (putIntentFact fact) fact :=
      (reads_intentAtom h2).bind ((reads_string h3).bind ((reads_intentAtom h4).bind_pure _))
    exact (reads_tag wording.eof 1).bind ((reads_string h1).bind (hf.bind_pure _))
  | forget slot =>
    exact (reads_tag wording.eof 2).bind
      ((reads_string h).bind_pure fun t => IntentOperation.forget ⟨t⟩)

/-- **An intent that fits is read back.** -/
theorem reads_queuedIntent {i : QueuedIntent} (h : IntentFits i) :
    Decode.Reads readQueuedIntent (encodeQueuedIntent i) i := by
  refine (reads_u64 h.space).bind ((reads_u32 h.nextTemporary).bind ?_)
  refine (reads_u32 h.preconditionCount).bind ?_
  refine (reads_times _ fun p hp => reads_precondition (h.preconditions p hp)).bind ?_
  refine (reads_u32 h.operationCount).bind ?_
  exact (reads_times _ fun op hop => reads_intentOperation (h.operations op hop)).bind_pure _

/-! ## What is accepted -/

theorem spells_temporary : Spells readTemporary putTemporary :=
  Spells.bind (spells_number _ _) fun _ => Spells.bind (spells_number _ _) fun _ => spells_pure rfl

theorem spells_intentAtom : Spells readIntentAtom putIntentAtom := by
  refine Spells.bind (spells_number _ _) fun tag => ?_
  split
  · exact Spells.bind (spells_number _ _) fun id => spells_pure rfl
  · exact Spells.bind spells_temporary fun t => spells_pure rfl
  · exact Spells.bind spells_string fun text => spells_pure rfl
  · exact spells_fail _ _ _

theorem spells_intentFact : Spells readIntentFact putIntentFact := by
  refine Spells.bind spells_intentAtom fun subject => Spells.bind spells_string fun predicate =>
    Spells.bind spells_intentAtom fun object => spells_pure ?_
  simp only [putIntentFact, List.nil_append, List.append_assoc]

/-- An expected fact behind the text of its slot. -/
theorem spells_expected (slot : String) : SpellsAfter ([] ++ le 1 1 ++ putString 4 slot)
    readExpected fun e => putPrecondition (.expectedSlot ⟨slot⟩ e) := by
  refine Spells.bind (spells_number _ _) fun tag => ?_
  split
  · exact spells_pure rfl
  · refine Spells.bind spells_fact fun fact => spells_pure ?_
    simp [putPrecondition, le]
  · exact spells_fail _ _ _

theorem spells_precondition : Spells readPrecondition putPrecondition := by
  refine Spells.bind (spells_number _ _) fun tag => ?_
  split
  · refine Spells.bind (spells_number _ _) fun world => spells_pure ?_
    have hworld : le 8 (UInt64.ofNat world).toNat = le 8 world := by
      rw [UInt64.toNat_ofNat']
      exact le_mod 8 world
    simp only [putPrecondition, hworld]
    rfl
  · refine Spells.bind spells_string fun slot => ?_
    exact (spells_expected slot).bind fun e => spells_pure rfl
  · exact spells_fail _ _ _

theorem spells_intentOperation : Spells readIntentOperation putIntentOperation := by
  refine Spells.bind (spells_number _ _) fun tag => ?_
  split
  · exact Spells.bind spells_temporary fun t => spells_pure rfl
  · refine Spells.bind spells_string fun slot => Spells.bind spells_intentFact fun fact =>
      spells_pure ?_
    simp [putIntentOperation, le]
  · exact Spells.bind spells_string fun slot => spells_pure rfl
  · exact spells_fail _ _ _

/-- **Only one byte string decodes to an intent**: the one that spells it. -/
theorem spells_queuedIntent : Spells readQueuedIntent encodeQueuedIntent := by
  refine Spells.bind (spells_number _ _) fun space => ?_
  refine Spells.bind (spells_number _ _) fun nextTemporary => ?_
  have hps (before : List UInt8) (n : ℕ) : SpellsAfter (before ++ le 4 n)
      (times n readPrecondition) (fun ps => before ++ (le 4 ps.length ++ ps.flatMap putPrecondition)) :=
    spells_counted spells_precondition before 4 n
  have hops (before : List UInt8) (n : ℕ) : SpellsAfter (before ++ le 4 n)
      (times n readIntentOperation)
      (fun ops => before ++ (le 4 ops.length ++ ops.flatMap putIntentOperation)) :=
    spells_counted spells_intentOperation before 4 n
  refine Spells.bind (spells_number _ _) fun n => (hps _ n).bind fun ps => ?_
  refine Spells.bind (spells_number _ _) fun m => (hops _ m).bind fun ops => spells_pure ?_
  simp only [encodeQueuedIntent, List.nil_append, List.append_assoc]

theorem stable_intentAtom : Stable readIntentAtom := by
  refine (stable_number _ _).bind fun tag => ?_
  have htemporary : Stable readTemporary :=
    (stable_number _ _).bind fun _ => (stable_number _ _).bind fun _ => stable_pure _
  split
  · exact (stable_number _ _).bind fun _ => stable_pure _
  · exact htemporary.bind fun _ => stable_pure _
  · exact stable_string.bind fun _ => stable_pure _
  · exact stable_fail _

theorem stable_precondition : Stable readPrecondition := by
  have hexpected : Stable readExpected := by
    refine (stable_number _ _).bind fun tag => ?_
    split
    · exact stable_pure _
    · exact stable_fact.bind fun _ => stable_pure _
    · exact stable_fail _
  refine (stable_number _ _).bind fun tag => ?_
  split
  · exact (stable_number _ _).bind fun _ => stable_pure _
  · exact stable_string.bind fun _ => hexpected.bind fun _ => stable_pure _
  · exact stable_fail _

theorem stable_intentOperation : Stable readIntentOperation := by
  have htemporary : Stable readTemporary :=
    (stable_number _ _).bind fun _ => (stable_number _ _).bind fun _ => stable_pure _
  have hfact : Stable readIntentFact :=
    stable_intentAtom.bind fun _ => stable_string.bind fun _ =>
      stable_intentAtom.bind fun _ => stable_pure _
  refine (stable_number _ _).bind fun tag => ?_
  split
  · exact htemporary.bind fun _ => stable_pure _
  · exact stable_string.bind fun _ => hfact.bind fun _ => stable_pure _
  · exact stable_string.bind fun _ => stable_pure _
  · exact stable_fail _

theorem stable_queuedIntent : Stable readQueuedIntent := by
  refine (stable_number _ _).bind fun _ => (stable_number _ _).bind fun _ => ?_
  refine (stable_number _ _).bind fun n => (stable_times stable_precondition n).bind fun _ => ?_
  refine (stable_number _ _).bind fun m => (stable_times stable_intentOperation m).bind fun _ => ?_
  exact stable_pure _

theorem yields_temporary : Yields readTemporary TemporaryFits :=
  (yields_number _ _).bind fun _ hspace => (yields_number _ _).bind fun _ hindex =>
    yields_pure ⟨hspace, hindex⟩

theorem yields_intentAtom : Yields readIntentAtom AtomFits := by
  refine (yields_number _ _).bind fun tag _ => ?_
  split
  · exact (yields_number _ _).bind fun id hid => yields_pure hid
  · exact yields_temporary.bind fun t ht => yields_pure ht
  · exact yields_string.bind fun text htext => yields_pure htext
  · exact yields_fail _ _

theorem yields_precondition : Yields readPrecondition PreconditionFits := by
  have hexpected : Yields readExpected fun expected => ∀ fact, expected = some fact →
      fact.Fits 4 := by
    refine (yields_number _ _).bind fun tag _ => ?_
    split
    · exact yields_pure fun fact heq => nomatch heq
    · refine yields_fact.bind fun fact hfact => yields_pure fun fact' heq => ?_
      obtain rfl := Option.some.inj heq
      exact hfact
    · exact yields_fail _ _
  refine (yields_number _ _).bind fun tag _ => ?_
  split
  · exact (yields_number _ _).bind fun world _ => yields_pure trivial
  · refine yields_string.bind fun slot hslot => hexpected.bind fun expected he => yields_pure ?_
    cases expected with
    | none => exact hslot
    | some fact => exact ⟨hslot, he fact rfl⟩
  · exact yields_fail _ _

theorem yields_intentOperation : Yields readIntentOperation OperationFits := by
  have hfact : Yields readIntentFact fun fact => AtomFits fact.subject ∧
      TextFits 4 fact.predicate.value ∧ AtomFits fact.object :=
    yields_intentAtom.bind fun _ hsubject => yields_string.bind fun _ hpredicate =>
      yields_intentAtom.bind fun _ hobject => yields_pure ⟨hsubject, hpredicate, hobject⟩
  refine (yields_number _ _).bind fun tag _ => ?_
  split
  · exact yields_temporary.bind fun t ht => yields_pure ht
  · exact yields_string.bind fun slot hslot => hfact.bind fun fact hf => yields_pure ⟨hslot, hf⟩
  · exact yields_string.bind fun slot hslot => yields_pure hslot
  · exact yields_fail _ _

/-- **What is accepted fits.** -/
theorem yields_queuedIntent : Yields readQueuedIntent IntentFits := by
  refine (yields_number _ _).bind fun space hspace => ?_
  refine (yields_number _ _).bind fun nextTemporary hnext => ?_
  refine (yields_number _ _).bind fun n hn => ?_
  refine (yields_times yields_precondition n).bind fun ps hps => ?_
  refine (yields_number _ _).bind fun m hm => ?_
  refine (yields_times yields_intentOperation m).bind fun ops hops => yields_pure ?_
  exact ⟨hspace, hnext, by rw [hps.1]; exact hn, hps.2, by rw [hops.1]; exact hm, hops.2⟩

end IntentCodec

end ForthDB
