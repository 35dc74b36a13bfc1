import ForthDB.Lib.Decoder
import ForthDB.World.Operation

/-!
# Operations as bytes

The commit file and the memory-mapped image write operations in the same shape: a
tag byte, little-endian `u64` entity ids, and length-prefixed UTF-8 text. They
differ in the width of a length field and in the texts of their errors, which
`Wording` collects.

* `reads_operation`: decoding undoes encoding, for operations in range.
* `stable_operation`: the decoder is self-delimiting.
* `spells_operation`: encoding undoes decoding.
-/

namespace ForthDB

open Bytes Decode

/-- The texts of one decoder's errors. -/
structure Wording where
  eof : ℕ → ℕ → String
  eofText : ℕ → ℕ → String
  utf8 : String
  atomTag : ℕ → String
  operationTag : ℕ → String

/-- Text with a length field of `k` bytes. -/
def putString (k : ℕ) (s : String) : List UInt8 := le k (utf8 s).length ++ utf8 s

def putAtom (k : ℕ) : Atom → List UInt8
  | .entity e => 0 :: le 8 e.value
  | .literal l => 1 :: putString k l.value

def putFact (k : ℕ) (f : Fact) : List UInt8 :=
  putAtom k f.subject ++ (putString k f.predicate.value ++ putAtom k f.object)

def putOperation (k : ℕ) : Operation → List UInt8
  | .allocateEntity e => 0 :: le 8 e.value
  | .define slot fact => 1 :: (putString k slot.value ++ putFact k fact)
  | .forget slot => 2 :: putString k slot.value

variable (w : Wording) (k : ℕ)

def readUtf8 (bytes : List UInt8) : Decoder String :=
  match ofUtf8 bytes with
  | some s => pure s
  | none => fail w.utf8

def readString : Decoder String := do
  let length ← number w.eof k
  let bytes ← take w.eofText length
  readUtf8 w bytes

def readAtom : Decoder Atom := do
  let tag ← number w.eof 1
  match tag with
  | 0 => do let id ← number w.eof 8; pure (.entity ⟨id⟩)
  | 1 => do let text ← readString w k; pure (.literal ⟨text⟩)
  | tag => fail (w.atomTag tag)

def readFact : Decoder Fact := do
  let subject ← readAtom w k
  let predicate ← readString w k
  let object ← readAtom w k
  pure ⟨subject, ⟨predicate⟩, object⟩

def readOperation : Decoder Operation := do
  let tag ← number w.eof 1
  match tag with
  | 0 => do let id ← number w.eof 8; pure (.allocateEntity ⟨id⟩)
  | 1 => do
    let slot ← readString w k
    let fact ← readFact w k
    pure (.define ⟨slot⟩ fact)
  | 2 => do let slot ← readString w k; pure (.forget ⟨slot⟩)
  | tag => fail (w.operationTag tag)

/-- A text whose byte length fits its field. -/
def TextFits (s : String) : Prop := (utf8 s).length < 256 ^ k

def Atom.Fits : Atom → Prop
  | .entity e => e.value < 2 ^ 64
  | .literal l => TextFits k l.value

def Fact.Fits (f : Fact) : Prop :=
  f.subject.Fits k ∧ TextFits k f.predicate.value ∧ f.object.Fits k

/-- What the source's types promise of an operation: `u64` ids, addressable texts. -/
def Operation.Fits : Operation → Prop
  | .allocateEntity e => e.value < 2 ^ 64
  | .define slot fact => TextFits k slot.value ∧ fact.Fits k
  | .forget slot => TextFits k slot.value

instance (s : String) : Decidable (TextFits k s) := inferInstanceAs (Decidable (_ < _))

instance : DecidablePred (Atom.Fits k)
  | .entity _ => inferInstanceAs (Decidable (_ < _))
  | .literal _ => inferInstanceAs (Decidable (TextFits k _))

instance : DecidablePred (Fact.Fits k) := fun _ => inferInstanceAs (Decidable (_ ∧ _ ∧ _))

instance : DecidablePred (Operation.Fits k)
  | .allocateEntity _ => inferInstanceAs (Decidable (_ < _))
  | .define _ _ => inferInstanceAs (Decidable (_ ∧ _))
  | .forget _ => inferInstanceAs (Decidable (TextFits k _))

/-- What the source's types promise of a frame. -/
def CommitFrame.InRange (frame : CommitFrame) : Prop :=
  frame.parentVersion < 2 ^ 64 ∧ frame.resultingVersion < 2 ^ 64 ∧
    frame.resultingAllocator < 2 ^ 64 ∧ frame.operations.length < 2 ^ 64 ∧
    ∀ op ∈ frame.operations, op.Fits 8

instance : DecidablePred CommitFrame.InRange := fun _ => inferInstanceAs (Decidable (_ ∧ _))

section Reading

variable {w : Wording} {k : ℕ}

theorem reads_tag (eof : ℕ → ℕ → String) (b : UInt8) : Decode.Reads (number eof 1) [b] b.toNat := by
  have h := @reads_number eof 1 b.toNat (by have := b.toNat_lt; omega)
  have hb : b.toNat % 256 = b.toNat := Nat.mod_eq_of_lt b.toNat_lt
  rwa [show le 1 b.toNat = [b] by simp [le, hb]] at h

theorem reads_utf8 (s : String) : Decode.Reads (readUtf8 w (utf8 s)) [] s := by
  unfold readUtf8
  rw [ofUtf8_utf8]
  exact reads_pure s

theorem reads_string {s : String} (h : TextFits k s) : Decode.Reads (readString w k) (putString k s) s := by
  have h1 := (reads_take w.eofText (utf8 s)).bind (reads_utf8 (w := w) s)
  rw [List.append_nil] at h1
  exact (reads_number h).bind h1

theorem reads_atom {a : Atom} (h : a.Fits k) : Decode.Reads (readAtom w k) (putAtom k a) a := by
  cases a with
  | entity e =>
    exact (reads_tag w.eof 0).bind ((reads_u64 h).bind_pure fun id =>
      Atom.entity ⟨id⟩)
  | literal l =>
    exact (reads_tag w.eof 1).bind ((reads_string h).bind_pure fun t => Atom.literal ⟨t⟩)

theorem reads_fact {f : Fact} (h : f.Fits k) : Decode.Reads (readFact w k) (putFact k f) f := by
  obtain ⟨h1, h2, h3⟩ := h
  exact (reads_atom h1).bind ((reads_string h2).bind ((reads_atom h3).bind_pure _))

/-- **Decoding undoes encoding.** -/
theorem reads_operation {op : Operation} (h : op.Fits k) :
    Decode.Reads (readOperation w k) (putOperation k op) op := by
  cases op with
  | allocateEntity e =>
    exact (reads_tag w.eof 0).bind ((reads_u64 h).bind_pure fun id =>
      Operation.allocateEntity ⟨id⟩)
  | define slot fact =>
    exact (reads_tag w.eof 1).bind ((reads_string h.1).bind ((reads_fact h.2).bind_pure _))
  | forget slot =>
    exact (reads_tag w.eof 2).bind ((reads_string h).bind_pure fun t => Operation.forget ⟨t⟩)

theorem stable_utf8 (bytes : List UInt8) : Stable (readUtf8 w bytes) := by
  unfold readUtf8
  cases ofUtf8 bytes with
  | none => exact stable_fail _
  | some s => exact stable_pure s

theorem stable_string : Stable (readString w k) :=
  (stable_number _ _).bind fun _ => (stable_take _ _).bind fun _ => stable_utf8 _

theorem stable_atom : Stable (readAtom w k) := by
  refine (stable_number _ _).bind fun tag => ?_
  split
  · exact (stable_number _ _).bind fun _ => stable_pure _
  · exact stable_string.bind fun _ => stable_pure _
  · exact stable_fail _

theorem stable_fact : Stable (readFact w k) :=
  stable_atom.bind fun _ => stable_string.bind fun _ => stable_atom.bind fun _ => stable_pure _

/-- **Operations are self-delimiting.** -/
theorem stable_operation : Stable (readOperation w k) := by
  refine (stable_number _ _).bind fun tag => ?_
  split
  · exact (stable_number _ _).bind fun _ => stable_pure _
  · exact stable_string.bind fun _ => stable_fact.bind fun _ => stable_pure _
  · exact stable_string.bind fun _ => stable_pure _
  · exact stable_fail _

theorem spells_string : Spells (readString w k) (putString k) := by
  intro c s c' h
  obtain ⟨n, c₁, h1, h⟩ := bind_ok h
  obtain ⟨bs, c₂, h2, h3⟩ := bind_ok h
  have hn := spells_number _ _ _ _ _ h1
  obtain ⟨hlen, hrest⟩ := take_ok h2
  unfold readUtf8 at h3
  cases ht : ofUtf8 bs with
  | none => rw [ht] at h3; cases h3
  | some t =>
    rw [ht] at h3
    cases h3
    rw [hn, hrest, putString, utf8_of_ofUtf8 ht, hlen, List.append_assoc]

theorem spells_atom : Spells (readAtom w k) (putAtom k) := by
  refine Spells.bind (spells_number _ _) fun tag => ?_
  split
  · exact Spells.bind (spells_number _ _) fun id => spells_pure rfl
  · exact Spells.bind spells_string fun text => spells_pure rfl
  · exact spells_fail _ _ _

theorem spells_fact : Spells (readFact w k) (putFact k) := by
  refine Spells.bind spells_atom fun subject => Spells.bind spells_string fun predicate =>
    Spells.bind spells_atom fun object => spells_pure ?_
  simp [putFact]

/-- **Encoding undoes decoding.** -/
theorem spells_operation : Spells (readOperation w k) (putOperation k) := by
  refine Spells.bind (spells_number _ _) fun tag => ?_
  split
  · exact Spells.bind (spells_number _ _) fun id => spells_pure rfl
  · refine Spells.bind spells_string fun slot => Spells.bind spells_fact fun fact => spells_pure ?_
    simp [putOperation, le]
  · exact Spells.bind spells_string fun slot => spells_pure rfl
  · exact spells_fail _ _ _

/-- A text that is read fits its length field. -/
theorem yields_string : Yields (readString w k) (TextFits k) := by
  intro c s c' h
  obtain ⟨n, c₁, h1, h⟩ := bind_ok h
  obtain ⟨bs, c₂, h2, h3⟩ := bind_ok h
  have hn : n < 256 ^ k := number_lt h1
  obtain ⟨hlen, -⟩ := take_ok h2
  unfold readUtf8 at h3
  cases ht : ofUtf8 bs with
  | none =>
    rw [ht] at h3
    cases h3
  | some t =>
    rw [ht] at h3
    cases h3
    unfold TextFits
    rw [utf8_of_ofUtf8 ht, hlen]
    exact hn

theorem yields_atom : Yields (readAtom w k) (Atom.Fits k) := by
  refine (yields_number _ _).bind fun tag _ => ?_
  split
  · exact (yields_number _ _).bind fun id hid => yields_pure hid
  · exact yields_string.bind fun text htext => yields_pure htext
  · exact yields_fail _ _

theorem yields_fact : Yields (readFact w k) (Fact.Fits k) :=
  yields_atom.bind fun _ hsubject => yields_string.bind fun _ hpredicate =>
    yields_atom.bind fun _ hobject => yields_pure ⟨hsubject, hpredicate, hobject⟩

theorem agrees_utf8 (w w' : Wording) (bytes : List UInt8) :
    Agrees (readUtf8 w bytes) (readUtf8 w' bytes) := by
  unfold readUtf8
  cases ofUtf8 bytes with
  | none => exact agrees_fail _ _
  | some s => exact .refl _

theorem agrees_string (w w' : Wording) (k : ℕ) : Agrees (readString w k) (readString w' k) :=
  (agrees_number _ _ _).bind fun _ => (agrees_take _ _ _).bind fun _ => agrees_utf8 w w' _

theorem agrees_atom (w w' : Wording) (k : ℕ) : Agrees (readAtom w k) (readAtom w' k) := by
  refine (agrees_number _ _ _).bind fun tag => ?_
  split
  · exact (agrees_number _ _ _).bind fun _ => .refl _
  · exact (agrees_string w w' k).bind fun _ => .refl _
  · exact agrees_fail _ _

theorem agrees_fact (w w' : Wording) (k : ℕ) : Agrees (readFact w k) (readFact w' k) :=
  (agrees_atom w w' k).bind fun _ => (agrees_string w w' k).bind fun _ =>
    (agrees_atom w w' k).bind fun _ => .refl _

/-- **The wording of the errors** is all that two decoders of operations differ in. -/
theorem agrees_operation (w w' : Wording) (k : ℕ) :
    Agrees (readOperation w k) (readOperation w' k) := by
  refine (agrees_number _ _ _).bind fun tag => ?_
  split
  · exact (agrees_number _ _ _).bind fun _ => .refl _
  · exact (agrees_string w w' k).bind fun _ => (agrees_fact w w' k).bind fun _ => .refl _
  · exact (agrees_string w w' k).bind fun _ => .refl _
  · exact agrees_fail _ _

end Reading

end ForthDB
