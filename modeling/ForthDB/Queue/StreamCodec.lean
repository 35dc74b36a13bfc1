import ForthDB.Queue.Stream
import ForthDB.World.OperationCodec

/-!
# Instruction streams and intents as bytes

Version one of the instruction stream framing, and the older direct encoding of a
queued intent.

* `reads_frame`: a frame whose numbers fit their fields is read back.
* `spells_frame`, `yields_frame`: what is accepted is what a frame that fits is encoded to.
* `fits_of_length`: they do when the encoded frame itself is shorter than `2 ^ 32` bytes.
-/

namespace ForthDB

open Bytes Decode

namespace Isa

/-- The texts of the stream decoder; the width tells which reader failed. -/
def wording : Wording where
  eof := fun _ width =>
    if width = 1 then "read_u8 failed: failed to fill whole buffer"
    else if width = 4 then "read_u32 failed: failed to fill whole buffer"
    else "read_u64 failed: failed to fill whole buffer"
  eofText := fun _ _ => "truncated string in stream"
  utf8 := "invalid utf-8"
  atomTag := fun _ => ""
  operationTag := fun _ => ""

def streamMagic : List UInt8 := utf8 "SISA"

/-- One dictionary entry: its number in `width` bytes, and its name. -/
def encodeEntry (width : ℕ) (number : ℕ) (name : String) : List UInt8 :=
  le width number ++ putString 4 name

def encodeInstruction (inst : Instruction) : List UInt8 :=
  inst.opcode.toU8 :: (le 4 inst.argument ++ le 8 inst.immediate)

/-- A table of the dictionary preamble behind its length. -/
def encodeEntries {κ : Type} (width : ℕ) (name : κ → String) (table : List (ℕ × κ)) : List UInt8 :=
  le 4 table.length ++ table.flatMap fun e => encodeEntry width e.1 (name e.2)

def encodeInstructions (instructions : List Instruction) : List UInt8 :=
  le 4 instructions.length ++ instructions.flatMap encodeInstruction

/-- `encode_instruction_stream_frame`. -/
def encodeFrame (frame : InstructionStreamFrame) : List UInt8 :=
  streamMagic ++ (le 4 frame.version ++ (le 8 frame.space ++
    (encodeEntries 4 SlotId.value frame.dictionary.slots ++
    (encodeEntries 8 Predicate.value frame.dictionary.predicates ++
    (encodeEntries 8 Literal.value frame.dictionary.literals ++
    (le 4 frame.localCount ++ encodeInstructions frame.instructions))))))

def readMagic : Decoder Unit := do
  let magic ← take (fun _ _ => "failed to read stream magic: failed to fill whole buffer") 4
  if magic = streamMagic then pure ()
  else fail s!"invalid instruction stream magic {magic.map UInt8.toNat}"

def readVersion : Decoder ℕ := do
  let version ← number wording.eof 4
  if version = 1 then pure version else fail s!"unsupported semantic ISA version {version}"

def readEntry {κ : Type} (width : ℕ) (name : String → κ) : Decoder (ℕ × κ) := do
  let n ← number wording.eof width
  let text ← readString wording 4
  pure (n, name text)

def readEntries {κ : Type} (width : ℕ) (name : String → κ) : Decoder (List (ℕ × κ)) := do
  let count ← number wording.eof 4
  times count (readEntry width name)

def readOpcode (byte : ℕ) : Decoder Opcode :=
  match Opcode.fromU8 byte with
  | .ok opcode => pure opcode
  | .error e => fail e

/-- `decode_instruction`. -/
def readInstruction : Decoder Instruction := do
  let byte ← number wording.eof 1
  let argument ← number wording.eof 4
  let immediate ← number wording.eof 8
  let opcode ← readOpcode byte
  pure ⟨opcode, argument, immediate⟩

def readInstructions : Decoder (List Instruction) := do
  let count ← number wording.eof 4
  times count readInstruction

/-- `decode_instruction_stream_frame`. -/
def readFrame : Decoder InstructionStreamFrame := do
  readMagic
  let version ← readVersion
  let space ← number wording.eof 8
  let slots ← readEntries 4 SlotId.mk
  let predicates ← readEntries 8 Predicate.mk
  let literals ← readEntries 8 Literal.mk
  let localCount ← number wording.eof 4
  let instructions ← readInstructions
  pure { version := version, space := space, dictionary := ⟨slots, predicates, literals⟩,
         localCount := localCount, instructions := instructions }

/-- Every entry of a table fits its fields. -/
def EntriesFit {κ : Type} (width : ℕ) (name : κ → String) (table : List (ℕ × κ)) : Prop :=
  table.length < 2 ^ 32 ∧ ∀ e ∈ table, e.1 < 256 ^ width ∧ TextFits 4 (name e.2)

/-- Every number of a frame fits its field. -/
structure FrameFits (frame : InstructionStreamFrame) : Prop where
  version : frame.version = 1
  space : frame.space < 2 ^ 64
  slots : EntriesFit 4 SlotId.value frame.dictionary.slots
  predicates : EntriesFit 8 Predicate.value frame.dictionary.predicates
  literals : EntriesFit 8 Literal.value frame.dictionary.literals
  localCount : frame.localCount < 2 ^ 32
  instructionCount : frame.instructions.length < 2 ^ 32
  instructions : ∀ inst ∈ frame.instructions, inst.argument < 2 ^ 32 ∧ inst.immediate < 2 ^ 64

theorem reads_entries {κ : Type} {width : ℕ} {mk : String → κ} {name : κ → String}
    (hmk : ∀ k, mk (name k) = k) {table : List (ℕ × κ)} (h : EntriesFit width name table) :
    Decode.Reads (readEntries width mk) (encodeEntries width name table) table := by
  refine (reads_u32 h.1).bind (reads_times table fun e he => ?_)
  obtain ⟨h1, h2⟩ := h.2 e he
  have : Decode.Reads (readEntry width mk) (encodeEntry width e.1 (name e.2)) (e.1, mk (name e.2)) := by
    refine (reads_number h1).bind ?_
    exact (reads_string h2).bind_pure _
  rwa [hmk] at this

theorem reads_instruction {inst : Instruction} (h1 : inst.argument < 2 ^ 32)
    (h2 : inst.immediate < 2 ^ 64) : Decode.Reads readInstruction (encodeInstruction inst) inst := by
  have h3 : Decode.Reads (readOpcode inst.opcode.toU8.toNat) [] inst.opcode := by
    unfold readOpcode
    rw [Opcode.fromU8_toU8]
    exact reads_pure _
  refine (reads_tag wording.eof inst.opcode.toU8).bind ?_
  refine (reads_u32 h1).bind ?_
  refine (reads_u64 h2).bind_nil ?_
  exact h3.bind_pure _

/-- **A frame that fits is read back.** -/
theorem reads_frame {frame : InstructionStreamFrame} (h : FrameFits frame) :
    Decode.Reads readFrame (encodeFrame frame) frame := by
  have hmagic : Decode.Reads readMagic streamMagic () := by
    refine (reads_take _ streamMagic).bind_nil ?_
    rw [if_pos rfl]
    exact reads_pure ()
  have hversion : Decode.Reads readVersion (le 4 frame.version) frame.version := by
    rw [h.version]
    refine (reads_u32 (by norm_num)).bind_nil ?_
    rw [if_pos rfl]
    exact reads_pure _
  have hinsts : Decode.Reads readInstructions (encodeInstructions frame.instructions)
      frame.instructions := by
    refine (reads_u32 h.instructionCount).bind (reads_times _ fun inst hi => ?_)
    exact reads_instruction (h.instructions inst hi).1 (h.instructions inst hi).2
  refine hmagic.bind (hversion.bind ((reads_u64 h.space).bind ?_))
  refine (reads_entries (fun _ => rfl) h.slots).bind ?_
  refine (reads_entries (fun _ => rfl) h.predicates).bind ?_
  refine (reads_entries (fun _ => rfl) h.literals).bind ?_
  refine (reads_u32 h.localCount).bind ?_
  exact hinsts.bind_pure _

/-! ## What is accepted -/

theorem stable_entries {κ : Type} (width : ℕ) (mk : String → κ) : Stable (readEntries width mk) := by
  have hentry : Stable (readEntry width mk) :=
    (stable_number _ _).bind fun _ => stable_string.bind fun _ => stable_pure _
  exact (stable_number _ _).bind fun n => stable_times hentry n

theorem stable_opcode (byte : ℕ) : Stable (readOpcode byte) := by
  unfold readOpcode
  split
  · exact stable_pure _
  · exact stable_fail _

theorem stable_instructions : Stable readInstructions := by
  have hinst : Stable readInstruction :=
    (stable_number _ _).bind fun byte => (stable_number _ _).bind fun _ =>
      (stable_number _ _).bind fun _ => (stable_opcode byte).bind fun _ => stable_pure _
  exact (stable_number _ _).bind fun n => stable_times hinst n

theorem stable_frame : Stable readFrame := by
  have hmagic : Stable readMagic := by
    refine (stable_take _ _).bind fun magic => ?_
    split
    · exact stable_pure _
    · exact stable_fail _
  have hversion : Stable readVersion := by
    refine (stable_number _ _).bind fun version => ?_
    split
    · exact stable_pure _
    · exact stable_fail _
  refine hmagic.bind fun _ => hversion.bind fun _ => (stable_number _ _).bind fun _ => ?_
  refine (stable_entries 4 _).bind fun _ => (stable_entries 8 _).bind fun _ => ?_
  refine (stable_entries 8 _).bind fun _ => (stable_number _ _).bind fun _ => ?_
  exact stable_instructions.bind fun _ => stable_pure _

theorem spells_magic : Spells readMagic fun _ => streamMagic := by
  intro c u c' h
  obtain ⟨magic, c₁, htake, hmagic⟩ := bind_ok h
  split at hmagic
  · rename_i heq
    cases hmagic
    obtain ⟨-, hrest⟩ := take_ok htake
    rw [List.nil_append, hrest, heq]
  · cases hmagic

theorem spells_version : Spells readVersion (le 4) := by
  refine Spells.bind (spells_number _ _) fun version => ?_
  split
  · exact spells_pure rfl
  · exact spells_fail _ _ _

theorem spells_entries {κ : Type} {width : ℕ} {mk : String → κ} {name : κ → String}
    (hname : ∀ s, name (mk s) = s) : Spells (readEntries width mk) (encodeEntries width name) := by
  have hentry : Spells (readEntry width mk) fun e => encodeEntry width e.1 (name e.2) := by
    refine Spells.bind (spells_number _ _) fun n => Spells.bind spells_string fun text => ?_
    refine spells_pure ?_
    rw [hname]
    rfl
  exact Spells.bind (spells_number _ _) fun n => spells_counted hentry [] 4 n

/-- Only the byte of an opcode is read as it. -/
theorem toU8_of_fromU8 {byte : ℕ} {opcode : Opcode} (h : Opcode.fromU8 byte = .ok opcode) :
    le 1 byte = [opcode.toU8] := by
  unfold Opcode.fromU8 at h
  split at h <;> cases h <;> rfl

theorem spells_instruction : Spells readInstruction encodeInstruction := by
  refine Spells.bind (spells_number _ _) fun byte => ?_
  refine Spells.bind (spells_number _ _) fun argument => ?_
  refine Spells.bind (spells_number _ _) fun immediate => ?_
  intro c inst c' h
  obtain ⟨opcode, c₁, hopcode, hinst⟩ := bind_ok h
  unfold readOpcode at hopcode
  cases ho : Opcode.fromU8 byte with
  | error e =>
    rw [ho] at hopcode
    cases hopcode
  | ok op =>
    rw [ho] at hopcode
    cases hopcode
    cases hinst
    have hbyte := toU8_of_fromU8 ho
    simp only [encodeInstruction, hbyte, List.nil_append, List.append_assoc, List.singleton_append,
      List.cons_append]

/-- **Only one byte string decodes to a frame**: the one that spells it. -/
theorem spells_frame : Spells readFrame encodeFrame := by
  have hslots : Spells (readEntries 4 SlotId.mk) (encodeEntries 4 SlotId.value) :=
    spells_entries fun _ => rfl
  have hpredicates : Spells (readEntries 8 Predicate.mk) (encodeEntries 8 Predicate.value) :=
    spells_entries fun _ => rfl
  have hliterals : Spells (readEntries 8 Literal.mk) (encodeEntries 8 Literal.value) :=
    spells_entries fun _ => rfl
  have hinsts : Spells readInstructions encodeInstructions :=
    Spells.bind (spells_number _ _) fun n => spells_counted spells_instruction [] 4 n
  refine Spells.bind spells_magic fun _ => Spells.bind spells_version fun version => ?_
  refine Spells.bind (spells_number _ _) fun space => Spells.bind hslots fun slots => ?_
  refine Spells.bind hpredicates fun predicates => Spells.bind hliterals fun literals => ?_
  refine Spells.bind (spells_number _ _) fun localCount => ?_
  refine Spells.bind hinsts fun instructions => spells_pure ?_
  simp only [encodeFrame, List.nil_append, List.append_assoc]

theorem yields_entries {κ : Type} {width : ℕ} {mk : String → κ} {name : κ → String}
    (hname : ∀ s, name (mk s) = s) : Yields (readEntries width mk) (EntriesFit width name) := by
  have hentry : Yields (readEntry width mk) fun e => e.1 < 256 ^ width ∧ TextFits 4 (name e.2) := by
    refine (yields_number _ _).bind fun n hn => yields_string.bind fun text htext => ?_
    refine yields_pure ⟨hn, ?_⟩
    rw [hname]
    exact htext
  refine (yields_number _ _).bind fun n hn => ?_
  intro c table c' h
  obtain ⟨hlen, hentries⟩ := yields_times hentry n c table c' h
  exact ⟨by rw [hlen]; exact hn, hentries⟩

/-- **What is accepted is well formed.** -/
theorem yields_frame : Yields readFrame FrameFits := by
  have hversion : Yields readVersion fun version => version = 1 := by
    refine (yields_number _ _).bind fun version _ => ?_
    split
    · rename_i hone
      exact yields_pure hone
    · exact yields_fail _ _
  have hinst : Yields readInstruction fun inst =>
      inst.argument < 2 ^ 32 ∧ inst.immediate < 2 ^ 64 :=
    (yields_number _ _).bind fun byte _ => (yields_number _ _).bind fun argument hargument =>
      (yields_number _ _).bind fun immediate himmediate =>
        Yields.bind (P := fun _ => True) (fun _ _ _ _ => trivial) fun opcode _ =>
          yields_pure ⟨hargument, himmediate⟩
  have hinsts : Yields readInstructions fun is =>
      is.length < 2 ^ 32 ∧ ∀ inst ∈ is, inst.argument < 2 ^ 32 ∧ inst.immediate < 2 ^ 64 := by
    refine (yields_number _ _).bind fun n hn => ?_
    intro c is c' h
    obtain ⟨hlen, his⟩ := yields_times hinst n c is c' h
    exact ⟨by rw [hlen]; exact hn, his⟩
  have hmagic : Yields readMagic fun _ => True := fun _ _ _ _ => trivial
  have hslots : Yields (readEntries 4 SlotId.mk) (EntriesFit 4 SlotId.value) :=
    yields_entries fun _ => rfl
  have hpredicates : Yields (readEntries 8 Predicate.mk) (EntriesFit 8 Predicate.value) :=
    yields_entries fun _ => rfl
  have hliterals : Yields (readEntries 8 Literal.mk) (EntriesFit 8 Literal.value) :=
    yields_entries fun _ => rfl
  refine hmagic.bind fun _ _ => hversion.bind fun version hv => ?_
  refine (yields_number _ _).bind fun space hspace => hslots.bind fun slots hs => ?_
  refine hpredicates.bind fun predicates hp => hliterals.bind fun literals hl => ?_
  refine (yields_number _ _).bind fun localCount hlocal => hinsts.bind fun is his => ?_
  exact yields_pure ⟨hv, hspace, hs, hp, hl, hlocal, his.1, his.2⟩

theorem length_le_flatMap {α : Type} (f : α → List UInt8) {as : List α} {a : α} (h : a ∈ as) :
    (f a).length ≤ (as.flatMap f).length := by
  obtain ⟨xs, ys, rfl⟩ := List.append_of_mem h
  simp only [List.flatMap_append, List.flatMap_cons, List.length_append]
  omega

theorem count_le_flatMap {α : Type} (f : α → List UInt8) (as : List α)
    (h : ∀ a, 0 < (f a).length) : as.length ≤ (as.flatMap f).length := by
  induction as with
  | nil => simp
  | cons a as ih =>
    have := h a
    simp only [List.flatMap_cons, List.length_append, List.length_cons]
    omega

/-- A table inside a short byte string has few entries with short names. -/
theorem entriesFit_of_length {κ : Type} {width : ℕ} {name : κ → String} {table : List (ℕ × κ)}
    (hlen : (encodeEntries width name table).length < 2 ^ 32)
    (hn : ∀ e ∈ table, e.1 < 256 ^ width) : EntriesFit width name table := by
  unfold encodeEntries at hlen
  rw [List.length_append] at hlen
  refine ⟨?_, fun e he => ⟨hn e he, ?_⟩⟩
  · have := count_le_flatMap (fun e : ℕ × κ => encodeEntry width e.1 (name e.2)) table
      (fun e => by simp [encodeEntry, putString])
    omega
  · have h1 := length_le_flatMap (fun e : ℕ × κ => encodeEntry width e.1 (name e.2)) he
    have h2 : (encodeEntry width e.1 (name e.2)).length = width + (4 + (utf8 (name e.2)).length) := by
      simp only [encodeEntry, putString, List.length_append, length_le]
    have h3 : (utf8 (name e.2)).length < 2 ^ 32 := by omega
    exact h3

end Isa

namespace StreamDictionary

open NameTable Instruction

/-- An instruction whose argument is a `u32` and whose immediate is a `u64`. -/
def InstructionFits (inst : Instruction) : Prop :=
  inst.argument < 2 ^ 32 ∧ inst.immediate < 2 ^ 64

/-- Cells below this bound leave room for the literals' base. -/
structure Small (d : StreamDictionary) : Prop where
  predicates : d.predicates.length < 2 ^ 32
  literals : d.literals.length < 2 ^ 32

variable {d full : StreamDictionary}

theorem Extends.small (h : d.Extends full) (hs : full.Small) : d.Small :=
  ⟨lt_of_le_of_lt h.predicates.length_le hs.predicates,
    lt_of_le_of_lt h.literals.length_le hs.literals⟩

theorem getSlot_fits (h : d.Ok) (slot : SlotId) : (d.getSlot slot).1 < 2 ^ 32 := by
  obtain ⟨h1, -, h3⟩ := getSlot_spec h slot
  obtain ⟨i, -, hi⟩ := number_of_mem h1.slots h3
  rw [hi]
  exact Nat.mod_lt _ (by norm_num)

theorem getPredicate_fits (h : d.Ok) (p : Predicate) (hs : (d.getPredicate p).2.Small) :
    InstructionFits (.push (d.getPredicate p).1) := by
  obtain ⟨h1, -, h3⟩ := getPredicate_spec h p
  obtain ⟨i, hi, hn⟩ := number_of_mem h1.predicates h3
  have := hs.predicates
  refine ⟨by norm_num [Instruction.push], ?_⟩
  show (d.getPredicate p).1 < 2 ^ 64
  rw [hn, id]
  omega

theorem getLiteral_fits (h : d.Ok) (l : Literal) (hs : (d.getLiteral l).2.Small) :
    InstructionFits (.push (d.getLiteral l).1) := by
  obtain ⟨h1, -, h3⟩ := getLiteral_spec h l
  obtain ⟨i, hi, hn⟩ := number_of_mem h1.literals h3
  have := hs.literals
  refine ⟨by norm_num [Instruction.push], ?_⟩
  show (d.getLiteral l).1 < 2 ^ 64
  rw [hn]
  unfold literalNumber literalBase
  omega

theorem pushAtom_fits (h : d.Ok) {a : Atom} (ha : a.InVmRange) (hs : (d.pushAtom a).2.Small) :
    InstructionFits (d.pushAtom a).1 := by
  cases a with
  | entity e =>
    have : e.value < 2 ^ 63 := ha
    exact ⟨by norm_num [pushAtom, Instruction.push], by simp [pushAtom, Instruction.push]; omega⟩
  | literal l => exact getLiteral_fits h l hs

theorem pushIntentAtom_fits (h : d.Ok) {a : IntentAtom} {space : ℕ} (ha : a.Liftable space)
    (hs : (d.pushIntentAtom a).2.Small) : InstructionFits (d.pushIntentAtom a).1 := by
  cases a with
  | entity e =>
    have : e.value < 2 ^ 63 := ha
    exact ⟨by norm_num [pushIntentAtom, Instruction.push],
      by simp [pushIntentAtom, Instruction.push]; omega⟩
  | temporary t => exact ⟨ha.2, by norm_num [pushIntentAtom, Instruction.loadLocal]⟩
  | literal l => exact getLiteral_fits h l hs

theorem compilePrecondition_fits (h : d.Ok) {p : IntentPrecondition} (hp : p.Liftable)
    (hs : (d.compilePrecondition p).2.Small) :
    ∀ inst ∈ (d.compilePrecondition p).1, InstructionFits inst := by
  cases p with
  | expectedWorld world =>
    intro inst hi
    obtain rfl := List.mem_singleton.1 hi
    exact ⟨by norm_num [worldArgument], world.value.toNat_lt⟩
  | expectedSlot slot expected =>
    obtain ⟨h1, -, -⟩ := getSlot_spec h slot
    have ht := getSlot_fits h slot
    cases expected with
    | none =>
      intro inst hi
      obtain rfl := List.mem_singleton.1 hi
      exact ⟨ht, by norm_num [Instruction.expectObject]⟩
    | some fact =>
      obtain ⟨h2, e2, -⟩ := @pushAtom_spec _ (d.getSlot slot).2 h1 fact.subject
      obtain ⟨h3, e3, -⟩ := getPredicate_spec h2 fact.predicate
      obtain ⟨h4, e4, -⟩ := @pushAtom_spec _ (d.getSlot slot).2 h3 fact.object
      intro inst hi
      simp only [compilePrecondition, List.mem_cons, List.not_mem_nil, or_false] at hi
      rcases hi with rfl | rfl | rfl | rfl
      · exact pushAtom_fits h1 hp.1 ((e3.trans e4).small hs)
      · exact getPredicate_fits h2 _ (e4.small hs)
      · exact pushAtom_fits h3 hp.2 hs
      · exact ⟨ht, by norm_num [Instruction.expectObject]⟩

theorem compileOperation_fits (h : d.Ok) {op : IntentOperation} {space : ℕ} (hp : op.Liftable space)
    (hn : ∀ t ∈ allocations [op], t.index < 2 ^ 32) (hs : (d.compileOperation op).2.Small) :
    ∀ inst ∈ (d.compileOperation op).1, InstructionFits inst := by
  cases op with
  | allocateEntity t =>
    intro inst hi
    have : t.index < 2 ^ 32 := hn t (by simp [allocations])
    simp only [compileOperation, List.mem_cons, List.not_mem_nil, or_false] at hi
    rcases hi with rfl | rfl
    · exact ⟨by norm_num [Instruction.allocate], by norm_num [Instruction.allocate]⟩
    · exact ⟨this, by norm_num [Instruction.storeLocal]⟩
  | define slot fact =>
    obtain ⟨h1, -, -⟩ := getSlot_spec h slot
    obtain ⟨h2, e2, -⟩ := @pushIntentAtom_spec _ (d.getSlot slot).2 h1 fact.subject
    obtain ⟨h3, e3, -⟩ := getPredicate_spec h2 fact.predicate
    obtain ⟨h4, e4, -⟩ := @pushIntentAtom_spec _ (d.getSlot slot).2 h3 fact.object
    intro inst hi
    simp only [compileOperation, List.mem_cons, List.not_mem_nil, or_false] at hi
    rcases hi with rfl | rfl | rfl | rfl
    · exact pushIntentAtom_fits h1 hp.1 ((e3.trans e4).small hs)
    · exact getPredicate_fits h2 _ (e4.small hs)
    · exact pushIntentAtom_fits h3 hp.2 hs
    · exact ⟨getSlot_fits h slot, by norm_num [Instruction.define]⟩
  | forget slot =>
    intro inst hi
    obtain rfl := List.mem_singleton.1 hi
    exact ⟨getSlot_fits h slot, by norm_num [Instruction.forget]⟩

theorem compilePreconditions_fits (h : d.Ok) {ps : List IntentPrecondition}
    (hp : ∀ p ∈ ps, p.Liftable) (hs : (compileList compilePrecondition d ps).2.Small) :
    ∀ inst ∈ (compileList compilePrecondition d ps).1, InstructionFits inst := by
  induction ps generalizing d with
  | nil => intro inst hi; cases hi
  | cons p ps ih =>
    obtain ⟨h1, e1, -⟩ := @compilePrecondition_spec _ d h p
    obtain ⟨-, e2, -⟩ := @compilePreconditions_spec _ d h1 ps
    intro inst hi
    rcases List.mem_append.1 hi with hi | hi
    · exact compilePrecondition_fits h (hp p (by simp)) (e2.small hs) inst hi
    · exact ih h1 (fun q hq => hp q (by simp [hq])) hs inst hi

theorem compileOperations_fits (h : d.Ok) {ops : List IntentOperation} {space : ℕ}
    (hp : ∀ op ∈ ops, op.Liftable space) (hn : ∀ t ∈ allocations ops, t.index < 2 ^ 32)
    (hs : (compileList compileOperation d ops).2.Small) :
    ∀ inst ∈ (compileList compileOperation d ops).1, InstructionFits inst := by
  induction ops generalizing d with
  | nil => intro inst hi; cases hi
  | cons op ops ih =>
    obtain ⟨h1, e1, -⟩ := @compileOperation_spec _ d h op
    obtain ⟨-, e2, -⟩ := @compileOperations_spec _ d h1 ops
    have hcons : allocations (op :: ops) = allocations [op] ++ allocations ops := by
      unfold allocations
      rw [← List.filterMap_append]
      rfl
    rw [hcons] at hn
    intro inst hi
    rcases List.mem_append.1 hi with hi | hi
    · exact compileOperation_fits h (hp op (by simp))
        (fun t ht => hn t (List.mem_append_left _ ht)) (e2.small hs) inst hi
    · exact ih h1 (fun q hq => hp q (by simp [hq]))
        (fun t ht => hn t (List.mem_append_right _ ht)) hs inst hi

end StreamDictionary

open StreamDictionary in
/-- **A short frame fits**: the frame compiled from a liftable intent, when its own encoding is
shorter than `2 ^ 32` bytes. -/
theorem fits_of_length {i : QueuedIntent} {frame : InstructionStreamFrame} (hb : i.Built)
    (hl : i.Liftable) (hspace : i.space < 2 ^ 64) (hf : i.compileToStreamFrame = .ok frame)
    (hlen : (Isa.encodeFrame frame).length < 2 ^ 32) : Isa.FrameFits frame := by
  set pre := compileList compilePrecondition .empty i.preconditions with hpre
  set ops := compileList compileOperation pre.2 i.operations with hops
  have hframe : frame = ⟨1, i.space, ops.2, i.nextTemporary, pre.1 ++ ops.1⟩ :=
    (Except.ok.inj hf).symm
  subst hframe
  obtain ⟨h1, -, -⟩ := @compilePreconditions_spec _ ops.2 empty_ok i.preconditions
  rw [← hpre] at h1
  obtain ⟨h2, e2, -⟩ := @compileOperations_spec _ ops.2 h1 i.operations
  rw [← hops] at h2 e2
  obtain ⟨halloc, hnext⟩ := hb.allocations_eq
  simp only [Isa.encodeFrame, List.length_append] at hlen
  have hnum : ∀ {κ : Type} {number : ℕ → ℕ} {table : List (ℕ × κ)} {bound : ℕ},
      NameTable.Numbered number table → (∀ k < table.length, number k < bound) →
      ∀ e ∈ table, e.1 < bound := by
    intro κ number table bound ht hk e he
    obtain ⟨k, hk', hek⟩ := NameTable.number_of_mem ht (show (e.1, e.2) ∈ _ from he)
    rw [hek]
    exact hk k hk'
  have hslots : Isa.EntriesFit 4 SlotId.value ops.2.slots :=
    Isa.entriesFit_of_length (by omega)
      (hnum h2.slots fun k _ => Nat.mod_lt k (by norm_num))
  have hplen : ops.2.predicates.length < 2 ^ 32 := by
    have := Isa.count_le_flatMap
      (fun e : ℕ × Predicate => Isa.encodeEntry 8 e.1 e.2.value) ops.2.predicates
      (fun e => by simp [Isa.encodeEntry, putString])
    have h3 : (Isa.encodeEntries 8 Predicate.value ops.2.predicates).length =
        4 + (ops.2.predicates.flatMap fun e => Isa.encodeEntry 8 e.1 e.2.value).length := by
      rw [Isa.encodeEntries, List.length_append, length_le]
    omega
  have hllen : ops.2.literals.length < 2 ^ 32 := by
    have := Isa.count_le_flatMap
      (fun e : ℕ × Literal => Isa.encodeEntry 8 e.1 e.2.value) ops.2.literals
      (fun e => by simp [Isa.encodeEntry, putString])
    have h3 : (Isa.encodeEntries 8 Literal.value ops.2.literals).length =
        4 + (ops.2.literals.flatMap fun e => Isa.encodeEntry 8 e.1 e.2.value).length := by
      rw [Isa.encodeEntries, List.length_append, length_le]
    omega
  have hpreds : Isa.EntriesFit 8 Predicate.value ops.2.predicates :=
    Isa.entriesFit_of_length (by omega) (hnum h2.predicates fun k hk => by norm_num [id]; omega)
  have hlits : Isa.EntriesFit 8 Literal.value ops.2.literals :=
    Isa.entriesFit_of_length (by omega)
      (hnum h2.literals fun k hk => by norm_num [literalNumber, literalBase]; omega)
  have hsmall : ops.2.Small := ⟨hplen, hllen⟩
  refine ⟨rfl, hspace, hslots, hpreds, hlits, hnext, ?_, ?_⟩
  · have := Isa.count_le_flatMap Isa.encodeInstruction (pre.1 ++ ops.1)
      (fun inst => by simp [Isa.encodeInstruction])
    have h3 : (Isa.encodeInstructions (pre.1 ++ ops.1)).length =
        4 + ((pre.1 ++ ops.1).flatMap Isa.encodeInstruction).length := by
      rw [Isa.encodeInstructions, List.length_append, length_le]
    show (pre.1 ++ ops.1).length < 2 ^ 32
    omega
  · intro inst hi
    rcases List.mem_append.1 hi with hi | hi
    · exact compilePreconditions_fits empty_ok hl.preconditions (e2.small hsmall) inst hi
    · refine compileOperations_fits h1 hl.operations ?_ hsmall inst hi
      rw [halloc]
      intro t ht
      obtain ⟨k, hk, rfl⟩ := List.mem_map.1 ht
      have := List.mem_range.1 hk
      show k < 2 ^ 32
      omega

end ForthDB
