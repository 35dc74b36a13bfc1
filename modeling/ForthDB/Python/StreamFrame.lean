import ForthDB.Python.IsaFrame
import ForthDB.Queue.IntentCodec

/-!
# Instruction frames of the Python compiler, as bytes

`InstructionStreamFrame` of `forthdb_compiler.py` packs its fields with `struct`. It decodes from
an offset into bytes that it keeps. An `error` is an exception.

* `PythonCodecFrame.encode`, `PythonCodecFrame.decode`.
* `Unpacks d bs a`: wherever `bs` stands in the data, `d` reads it as `a`.
* `encode_toPython`: both languages spell a frame alike. `unpacks_frame`: Python reads it back.
* `instruction_stream_codec`: the two codecs, and the direct encoding of intents.
-/

namespace ForthDB

open Bytes Decode

/-! ## The codec of the source -/

/-- `InstructionStreamFrame`, with what its codec reads besides. -/
structure PythonCodecFrame extends PythonStreamFrame where
  version : ℕ
  space : ℕ
deriving DecidableEq, Repr

namespace PythonStruct

def rangeError : ℕ → String
  | 1 => "struct.error: ubyte format requires 0 <= number <= 255"
  | 4 => "struct.error: 'I' format requires 0 <= number <= 4294967295"
  | _ => "struct.error: int too large to convert"

/-- `struct.pack` of one field of `k` bytes. -/
def pack (k n : ℕ) : Except String (List UInt8) :=
  if n < 256 ^ k then .ok (le k n) else .error (rangeError k)

/-- The bytes that `struct.unpack_from` reads. -/
def unpackFrom (size : ℕ) (data : List UInt8) (offset : ℕ) : Except String (List UInt8) :=
  if offset + size ≤ data.length then .ok ((data.drop offset).take size)
  else .error s!"struct.error: unpack_from requires a buffer of at least {offset + size} bytes for unpacking {size} bytes at offset {offset} (actual buffer size is {data.length})"

def unpackOne (k : ℕ) (data : List UInt8) (offset : ℕ) : Except String ℕ :=
  (unpackFrom k data offset).map ofLe

def unpackTwo (j k : ℕ) (data : List UInt8) (offset : ℕ) : Except String (ℕ × ℕ) :=
  (unpackFrom (j + k) data offset).map fun bytes => (ofLe (bytes.take j), ofLe (bytes.drop j))

/-- `bytes.decode("utf-8")`. -/
def decodeUtf8 (bytes : List UInt8) : Except String String :=
  match ofUtf8 bytes with
  | some text => .ok text
  | none => .error "UnicodeDecodeError: 'utf-8' codec can't decode bytes"

end PythonStruct

open PythonStruct

/-- `Instruction.encode`. -/
def PythonInstruction.encode (inst : PythonInstruction) : Except String (List UInt8) := do
  let opcode ← pack 1 inst.opcode
  let argument ← pack 4 inst.argument
  let immediate ← pack 8 inst.immediate
  pure (opcode ++ argument ++ immediate)

/-- One entry of a table: its number in `width` bytes, and its text. -/
def encodePythonEntry (width : ℕ) (number : ℕ) (text : String) : Except String (List UInt8) := do
  let bytes := utf8 text
  let number ← pack width number
  let length ← pack 4 bytes.length
  pure (number ++ length ++ bytes)

/-- What a loop appends to `buf`. -/
def packEach {α : Type} (encode : α → Except String (List UInt8)) :
    List α → Except String (List UInt8)
  | [] => .ok []
  | a :: rest => do
    let bytes ← encode a
    let others ← packEach encode rest
    pure (bytes ++ others)

def encodePythonEntries {κ : Type} (width : ℕ) (name : κ → String) (table : List (ℕ × κ)) :
    Except String (List UInt8) := do
  let count ← pack 4 table.length
  let entries ← packEach (fun e => encodePythonEntry width e.1 (name e.2)) table
  pure (count ++ entries)

/-- `StreamDictionary.encode`. -/
def encodePythonDictionary (d : StreamDictionary) : Except String (List UInt8) := do
  let slots ← encodePythonEntries 4 SlotId.value d.slots
  let predicates ← encodePythonEntries 8 Predicate.value d.predicates
  let literals ← encodePythonEntries 8 Literal.value d.literals
  pure (slots ++ predicates ++ literals)

/-- `InstructionStreamFrame.encode`. -/
def PythonCodecFrame.encode (frame : PythonCodecFrame) : Except String (List UInt8) := do
  let version ← pack 4 frame.version
  let space ← pack 8 frame.space
  let dictionary ← encodePythonDictionary frame.dictionary
  let localCount ← pack 4 frame.localCount
  let count ← pack 4 frame.instructions.length
  let instructions ← packEach PythonInstruction.encode frame.instructions
  pure (utf8 "SISA" ++ (version ++ space) ++ dictionary ++ (localCount ++ count) ++ instructions)

/-- `Instruction.decode`: the instruction and the offset behind it. -/
def PythonInstruction.decode (data : List UInt8) (offset : ℕ) :
    Except String (PythonInstruction × ℕ) := do
  let bytes ← unpackFrom 13 data offset
  let inst : PythonInstruction :=
    ⟨ofLe (bytes.take 1), ofLe ((bytes.drop 1).take 4), ofLe (bytes.drop 5)⟩
  pure (inst, offset + 13)

/-- One entry of a table. A slice may be cut off by the end of the data. -/
def decodePythonEntry {κ : Type} (width : ℕ) (mk : String → κ) (data : List UInt8)
    (offset : ℕ) : Except String ((ℕ × κ) × ℕ) := do
  let (number, length) ← unpackTwo width 4 data offset
  let offset := offset + (width + 4)
  let text ← decodeUtf8 ((data.drop offset).take length)
  pure ((number, mk text), offset + length)

/-- A loop that appends what it decodes. -/
def unpackEach {α : Type} (decode : List UInt8 → ℕ → Except String (α × ℕ)) (data : List UInt8) :
    ℕ → ℕ → Except String (List α × ℕ)
  | 0, offset => .ok ([], offset)
  | n + 1, offset => do
    let (a, offset) ← decode data offset
    let (others, offset) ← unpackEach decode data n offset
    pure (a :: others, offset)

def decodePythonEntries {κ : Type} (width : ℕ) (mk : String → κ) (data : List UInt8)
    (offset : ℕ) : Except String (List (ℕ × κ) × ℕ) := do
  let count ← unpackOne 4 data offset
  unpackEach (decodePythonEntry width mk) data count (offset + 4)

/-- `StreamDictionary.decode`. -/
def decodePythonDictionary (data : List UInt8) (offset : ℕ) :
    Except String (StreamDictionary × ℕ) := do
  let (slots, offset) ← decodePythonEntries 4 SlotId.mk data offset
  let (predicates, offset) ← decodePythonEntries 8 Predicate.mk data offset
  let (literals, offset) ← decodePythonEntries 8 Literal.mk data offset
  pure (⟨slots, predicates, literals⟩, offset)

/-- `InstructionStreamFrame.decode`. -/
def PythonCodecFrame.decode (data : List UInt8) (offset : ℕ) :
    Except String (PythonCodecFrame × ℕ) := do
  if (data.drop offset).take 4 ≠ utf8 "SISA" then
    .error "ValueError: invalid STREAM_MAGIC"
  else do
    let offset := offset + 4
    let (version, space) ← unpackTwo 4 8 data offset
    if version ≠ 1 then .error s!"ValueError: unsupported ISA version: {version}"
    else do
      let (dictionary, offset) ← decodePythonDictionary data (offset + 12)
      let (localCount, count) ← unpackTwo 4 4 data offset
      let (instructions, offset) ← unpackEach PythonInstruction.decode data count (offset + 8)
      pure ({ version := version, space := space, dictionary := dictionary,
              localCount := localCount, instructions := instructions }, offset)

/-! ## The frames of both languages -/

/-- The number that `forthdb_compiler.py` gives an opcode. -/
def Opcode.toPython : Opcode → ℕ
  | .expectObject => PythonOpcode.expectObject
  | .allocate => PythonOpcode.allocate
  | .allocateDiscard => PythonOpcode.allocateDiscard
  | .loadLocal => PythonOpcode.loadLocal
  | .storeLocal => PythonOpcode.storeLocal
  | .pushCell => PythonOpcode.pushCell
  | .define => PythonOpcode.define
  | .forget => PythonOpcode.forget
  | .reject => PythonOpcode.reject

def Instruction.toPython (inst : Instruction) : PythonInstruction :=
  ⟨inst.opcode.toPython, inst.argument, inst.immediate⟩

/-- The same frame in Python. -/
def InstructionStreamFrame.toPython (frame : InstructionStreamFrame) : PythonCodecFrame where
  version := frame.version
  space := frame.space
  dictionary := frame.dictionary
  localCount := frame.localCount
  instructions := frame.instructions.map Instruction.toPython

theorem Opcode.toPython_eq (opcode : Opcode) : opcode.toPython = opcode.toU8.toNat := by
  cases opcode <;> rfl

theorem pack_ok {k n : ℕ} (h : n < 256 ^ k) : pack k n = .ok (le k n) := if_pos h

/-! ## Both encoders -/

theorem packEach_ok {α β : Type} {encode : β → Except String (List UInt8)} {f : α → β}
    {enc : α → List UInt8} {as : List α} (h : ∀ a ∈ as, encode (f a) = .ok (enc a)) :
    packEach encode (as.map f) = .ok (as.flatMap enc) := by
  induction as with
  | nil => rfl
  | cons a as ih =>
    have hrest := ih fun b hb => h b (List.mem_cons_of_mem a hb)
    simp only [List.map_cons, packEach, h a List.mem_cons_self, hrest, bind, Except.bind, pure,
      Except.pure, List.flatMap_cons]

theorem encode_instruction_toPython {inst : Instruction} (h1 : inst.argument < 2 ^ 32)
    (h2 : inst.immediate < 2 ^ 64) :
    inst.toPython.encode = .ok (Isa.encodeInstruction inst) := by
  have hopcode : pack 1 inst.opcode.toPython = .ok (le 1 inst.opcode.toPython) :=
    pack_ok (by rw [Opcode.toPython_eq]; exact inst.opcode.toU8.toNat_lt)
  have hbyte : le 1 inst.opcode.toPython = [inst.opcode.toU8] := by
    cases inst.opcode <;> rfl
  unfold PythonInstruction.encode Instruction.toPython
  simp only [hopcode, hbyte, pack_ok (k := 4) h1, pack_ok (k := 8) h2, bind, Except.bind, pure,
    Except.pure, Isa.encodeInstruction, List.cons_append, List.nil_append]

theorem encodePythonEntries_ok {κ : Type} {width : ℕ} {name : κ → String} {table : List (ℕ × κ)}
    (h : Isa.EntriesFit width name table) :
    encodePythonEntries width name table = .ok (Isa.encodeEntries width name table) := by
  have hentry : ∀ e ∈ table, encodePythonEntry width e.1 (name e.2) =
      .ok (Isa.encodeEntry width e.1 (name e.2)) := by
    intro e he
    obtain ⟨hnumber, htext⟩ := h.2 e he
    simp only [encodePythonEntry, pack_ok hnumber, pack_ok htext, bind, Except.bind, pure,
      Except.pure, Isa.encodeEntry, putString, List.append_assoc]
  have hentries : packEach (fun e => encodePythonEntry width e.1 (name e.2)) (table.map id) =
      .ok (table.flatMap fun e => Isa.encodeEntry width e.1 (name e.2)) := packEach_ok hentry
  rw [List.map_id] at hentries
  simp only [encodePythonEntries, pack_ok (k := 4) h.1, hentries, bind, Except.bind, pure,
    Except.pure, Isa.encodeEntries]

/-- **Both languages spell a frame alike.** -/
theorem encode_toPython {frame : InstructionStreamFrame} (h : Isa.FrameFits frame) :
    frame.toPython.encode = .ok (Isa.encodeFrame frame) := by
  have hversion : frame.version < 256 ^ 4 := by rw [h.version]; norm_num
  have hinsts : packEach PythonInstruction.encode (frame.instructions.map Instruction.toPython) =
      .ok (frame.instructions.flatMap Isa.encodeInstruction) :=
    packEach_ok fun inst hi =>
      encode_instruction_toPython (h.instructions inst hi).1 (h.instructions inst hi).2
  have hcount : (frame.instructions.map Instruction.toPython).length < 256 ^ 4 := by
    rw [List.length_map]
    exact h.instructionCount
  unfold PythonCodecFrame.encode InstructionStreamFrame.toPython encodePythonDictionary
  simp only [pack_ok hversion, pack_ok (k := 8) h.space, encodePythonEntries_ok h.slots,
    encodePythonEntries_ok h.predicates, encodePythonEntries_ok h.literals,
    pack_ok (k := 4) h.localCount, pack_ok hcount, hinsts, bind, Except.bind, pure, Except.pure]
  simp only [Isa.encodeFrame, Isa.encodeInstructions, Isa.streamMagic, List.length_map,
    List.append_assoc]

/-! ## The decoder -/

/-- Wherever `bs` stands in the data, `d` reads it as `a`. -/
def Unpacks {α : Type} (d : List UInt8 → ℕ → Except String (α × ℕ)) (bs : List UInt8) (a : α) :
    Prop :=
  ∀ data offset, bs <+: data.drop offset → d data offset = .ok (a, offset + bs.length)

section Unpacking

variable {data as bs : List UInt8} {offset : ℕ}

/-- What stands behind the first part stands at the offset behind it. -/
theorem stands_append (h : as ++ bs <+: data.drop offset) :
    as <+: data.drop offset ∧ bs <+: data.drop (offset + as.length) := by
  obtain ⟨rest, hrest⟩ := h
  refine ⟨⟨bs ++ rest, by rw [← List.append_assoc, hrest]⟩, rest, ?_⟩
  rw [← List.drop_drop, ← hrest, List.append_assoc, List.drop_left]

theorem unpackFrom_ok (h : bs <+: data.drop offset) (hpos : 0 < bs.length) :
    unpackFrom bs.length data offset = .ok bs := by
  have hlen := h.length_le
  rw [List.length_drop] at hlen
  have hfits : offset + bs.length ≤ data.length := by omega
  unfold unpackFrom
  rw [if_pos hfits, ← List.prefix_iff_eq_take.1 h]

theorem unpackOne_ok {k n : ℕ} (h : le k n <+: data.drop offset) (hk : 0 < k)
    (hn : n < 256 ^ k) : unpackOne k data offset = .ok n := by
  have hbytes := unpackFrom_ok h (by rw [length_le]; exact hk)
  rw [length_le] at hbytes
  unfold unpackOne
  rw [hbytes, Except.map, ofLe_le hn]

theorem unpackTwo_ok {j k m n : ℕ} (h : le j m ++ le k n <+: data.drop offset) (hj : 0 < j)
    (hm : m < 256 ^ j) (hn : n < 256 ^ k) : unpackTwo j k data offset = .ok (m, n) := by
  have hlen : (le j m ++ le k n).length = j + k := by simp
  have hbytes := unpackFrom_ok h (by omega)
  rw [hlen] at hbytes
  have htake : (le j m ++ le k n).take j = le j m := by
    rw [List.take_append_of_le_length (by simp), List.take_of_length_le (by simp)]
  have hdrop : (le j m ++ le k n).drop j = le k n := by
    rw [List.drop_append_of_le_length (by simp), List.drop_of_length_le (by simp)]
    rfl
  unfold unpackTwo
  rw [hbytes, Except.map, htake, hdrop, ofLe_le hm, ofLe_le hn]

/-- A loop over what each round reads. -/
theorem unpackEach_ok {α β : Type} {d : List UInt8 → ℕ → Except String (β × ℕ)}
    {enc : α → List UInt8} {f : α → β} {xs : List α} (hd : ∀ x ∈ xs, Unpacks d (enc x) (f x))
    (h : xs.flatMap enc <+: data.drop offset) :
    unpackEach d data xs.length offset = .ok (xs.map f, offset + (xs.flatMap enc).length) := by
  induction xs generalizing offset with
  | nil => rfl
  | cons x xs ih =>
    rw [List.flatMap_cons] at h
    obtain ⟨hx, hxs⟩ := stands_append h
    have hfirst := hd x List.mem_cons_self data offset hx
    have hrest := ih (fun y hy => hd y (List.mem_cons_of_mem x hy)) hxs
    simp only [List.length_cons, unpackEach, hfirst, hrest, bind, Except.bind, pure, Except.pure,
      List.map_cons, List.flatMap_cons, List.length_append, Nat.add_assoc]

end Unpacking

theorem unpacks_instruction {inst : Instruction} (h1 : inst.argument < 2 ^ 32)
    (h2 : inst.immediate < 2 ^ 64) :
    Unpacks PythonInstruction.decode (Isa.encodeInstruction inst) inst.toPython := by
  intro data offset h
  have hlen : (Isa.encodeInstruction inst).length = 13 := by simp [Isa.encodeInstruction]
  have hbytes := unpackFrom_ok h (by omega)
  rw [hlen] at hbytes
  have hargument : ((le 4 inst.argument ++ le 8 inst.immediate).take 4) = le 4 inst.argument := by
    rw [List.take_append_of_le_length (by simp), List.take_of_length_le (by simp)]
  have himmediate : ((le 4 inst.argument ++ le 8 inst.immediate).drop 4) = le 8 inst.immediate := by
    rw [List.drop_append_of_le_length (by simp), List.drop_of_length_le (by simp)]
    rfl
  have hopcode : ofLe [inst.opcode.toU8] = inst.opcode.toPython := by
    rw [Opcode.toPython_eq]
    exact Nat.add_zero _
  unfold PythonInstruction.decode
  simp only [hbytes, hlen, bind, Except.bind, pure, Except.pure, Isa.encodeInstruction,
    List.take_succ_cons, List.take_zero, List.drop_succ_cons, List.drop_zero, hargument,
    himmediate, hopcode, ofLe_le (k := 4) h1, ofLe_le (k := 8) h2]
  rfl

theorem unpacks_entries {κ : Type} {width : ℕ} (hwidth : 0 < width) {mk : String → κ}
    {name : κ → String} (hmk : ∀ k, mk (name k) = k) {table : List (ℕ × κ)}
    (h : Isa.EntriesFit width name table) :
    Unpacks (decodePythonEntries width mk) (Isa.encodeEntries width name table) table := by
  intro data offset hstands
  obtain ⟨hcount, hentries⟩ := stands_append hstands
  have hn := unpackOne_ok hcount (by omega) h.1
  have hentry : ∀ e ∈ table,
      Unpacks (decodePythonEntry width mk) (Isa.encodeEntry width e.1 (name e.2)) (id e) := by
    intro e he data offset hstands
    obtain ⟨hnumber, htext⟩ := h.2 e he
    have hshape : Isa.encodeEntry width e.1 (name e.2) =
        (le width e.1 ++ le 4 (utf8 (name e.2)).length) ++ utf8 (name e.2) := by
      rw [Isa.encodeEntry, putString, List.append_assoc]
    rw [hshape] at hstands
    obtain ⟨hhead, hbody⟩ := stands_append hstands
    have htwo := unpackTwo_ok hhead hwidth hnumber htext
    rw [List.length_append, length_le, length_le] at hbody
    have hslice := List.prefix_iff_eq_take.1 hbody
    simp only [decodePythonEntry, htwo, ← hslice, decodeUtf8, ofUtf8_utf8, hmk, bind, Except.bind,
      pure, Except.pure, hshape, List.length_append, length_le, Nat.add_assoc, id_eq]
  rw [length_le] at hentries
  have hloop := unpackEach_ok hentry hentries
  rw [List.map_id] at hloop
  simp only [decodePythonEntries, hn, hloop, bind, Except.bind, Isa.encodeEntries,
    List.length_append, length_le, Nat.add_assoc]

/-- The three tables of a dictionary. -/
theorem unpacks_dictionary {d : StreamDictionary} (hslots : Isa.EntriesFit 4 SlotId.value d.slots)
    (hpredicates : Isa.EntriesFit 8 Predicate.value d.predicates)
    (hliterals : Isa.EntriesFit 8 Literal.value d.literals) :
    Unpacks decodePythonDictionary (Isa.encodeEntries 4 SlotId.value d.slots ++
      (Isa.encodeEntries 8 Predicate.value d.predicates ++
        Isa.encodeEntries 8 Literal.value d.literals)) d := by
  intro data offset hstands
  obtain ⟨h1, hstands⟩ := stands_append hstands
  obtain ⟨h2, h3⟩ := stands_append hstands
  have hs : decodePythonEntries 4 SlotId.mk data offset = _ :=
    unpacks_entries (by omega) (fun _ => rfl) hslots data _ h1
  have hp : decodePythonEntries 8 Predicate.mk data _ = _ :=
    unpacks_entries (by omega) (fun _ => rfl) hpredicates data _ h2
  have hl : decodePythonEntries 8 Literal.mk data _ = _ :=
    unpacks_entries (by omega) (fun _ => rfl) hliterals data _ h3
  simp only [decodePythonDictionary, hs, hp, hl, bind, Except.bind, pure, Except.pure]
  simp only [List.length_append, Nat.add_assoc]

/-- **Python reads back what either language spells.** -/
theorem unpacks_frame {frame : InstructionStreamFrame} (h : Isa.FrameFits frame) :
    Unpacks PythonCodecFrame.decode (Isa.encodeFrame frame) frame.toPython := by
  intro data offset hstands
  have hshape : Isa.encodeFrame frame = utf8 "SISA" ++ ((le 4 frame.version ++ le 8 frame.space) ++
      ((Isa.encodeEntries 4 SlotId.value frame.dictionary.slots ++
        (Isa.encodeEntries 8 Predicate.value frame.dictionary.predicates ++
          Isa.encodeEntries 8 Literal.value frame.dictionary.literals)) ++
      ((le 4 frame.localCount ++ le 4 frame.instructions.length) ++
        frame.instructions.flatMap Isa.encodeInstruction))) := by
    simp only [Isa.encodeFrame, Isa.streamMagic, Isa.encodeInstructions, List.append_assoc]
  have hmagic : (utf8 "SISA").length = 4 := by decide
  have hversion : frame.version < 256 ^ 4 := by rw [h.version]; norm_num
  rw [hshape] at hstands
  -- the magic, the head, the tables, the counts and the instructions, each behind the other
  obtain ⟨h0, hstands⟩ := stands_append hstands
  obtain ⟨h1, hstands⟩ := stands_append hstands
  obtain ⟨h2, hstands⟩ := stands_append hstands
  obtain ⟨h3, h4⟩ := stands_append hstands
  have hsisa := List.prefix_iff_eq_take.1 h0
  have hhead := unpackTwo_ok h1 (by omega) hversion h.space
  have hdictionary := unpacks_dictionary h.slots h.predicates h.literals data _ h2
  have hcounts := unpackTwo_ok h3 (by omega) h.localCount h.instructionCount
  rw [hmagic] at hhead
  have hhead12 : (le 4 frame.version ++ le 8 frame.space).length = 12 := by simp
  have hcounts8 : (le 4 frame.localCount ++ le 4 frame.instructions.length).length = 8 := by simp
  rw [hmagic, hhead12] at hdictionary hcounts
  have hinst : ∀ inst ∈ frame.instructions,
      Unpacks PythonInstruction.decode (Isa.encodeInstruction inst) inst.toPython := fun inst hi =>
    unpacks_instruction (h.instructions inst hi).1 (h.instructions inst hi).2
  have hloop := unpackEach_ok hinst h4
  rw [hmagic, hhead12, hcounts8] at hloop
  unfold PythonCodecFrame.decode
  rw [← hmagic, ← hsisa, if_neg (not_not.2 rfl), hmagic]
  simp only [hhead, h.version, hdictionary, hcounts, hloop, bind, Except.bind, pure, Except.pure,
    ne_eq, not_true_eq_false, if_false, InstructionStreamFrame.toPython, hshape]
  refine congrArg Except.ok (Prod.ext rfl ?_)
  simp only [List.length_append, length_le, hmagic]
  omega

/-- **The instruction-stream codec.** A frame is read back with all its bytes if and only if its
counts and lengths fit; what is accepted is spelled by what was read; Python spells a frame alike
and reads it back; and intents one behind the other are read back if and only if they fit. -/
theorem instruction_stream_codec :
    (∀ frame : InstructionStreamFrame, Isa.FrameFits frame ↔ ∀ rest pos,
      Isa.readFrame ⟨Isa.encodeFrame frame ++ rest, pos⟩ =
        .ok (frame, ⟨rest, pos + (Isa.encodeFrame frame).length⟩)) ∧
    (∀ bytes pos frame c, Isa.readFrame ⟨bytes, pos⟩ = .ok (frame, c) →
      bytes = Isa.encodeFrame frame ++ c.rest ∧ c.pos = pos + (Isa.encodeFrame frame).length) ∧
    (∀ frame : InstructionStreamFrame, Isa.FrameFits frame →
      frame.toPython.encode = .ok (Isa.encodeFrame frame) ∧
      ∀ before rest, PythonCodecFrame.decode (before ++ Isa.encodeFrame frame ++ rest) before.length =
        .ok (frame.toPython, before.length + (Isa.encodeFrame frame).length)) ∧
    (∀ intents : List QueuedIntent, (∀ i ∈ intents, IntentCodec.IntentFits i) ↔ ∀ rest pos,
      times intents.length IntentCodec.readQueuedIntent
          ⟨intents.flatMap IntentCodec.encodeQueuedIntent ++ rest, pos⟩ =
        .ok (intents, ⟨rest, pos + (intents.flatMap IntentCodec.encodeQueuedIntent).length⟩)) ∧
    ∀ n bytes pos intents c, times n IntentCodec.readQueuedIntent ⟨bytes, pos⟩ = .ok (intents, c) →
      bytes = intents.flatMap IntentCodec.encodeQueuedIntent ++ c.rest ∧
        c.pos = pos + (intents.flatMap IntentCodec.encodeQueuedIntent).length := by
  refine ⟨fun frame => ⟨Isa.reads_frame, fun h => ?_⟩, fun bytes pos frame c h => ?_,
    fun frame h => ⟨encode_toPython h, fun before rest => ?_⟩,
    fun intents => ⟨fun h => ?_, fun h => ?_⟩, fun n bytes pos intents c h => ?_⟩
  · exact Isa.yields_frame _ frame _ (h [] 0)
  · exact Isa.stable_frame.consumes Isa.spells_frame h
  · refine unpacks_frame h _ _ ?_
    rw [List.append_assoc, List.drop_left]
    exact List.prefix_append _ _
  · exact reads_times _ fun i hi => IntentCodec.reads_queuedIntent (h i hi)
  · exact (yields_times IntentCodec.yields_queuedIntent _ _ intents _ (h [] 0)).2
  · exact (stable_times IntentCodec.stable_queuedIntent n).consumes
      (spells_times IntentCodec.spells_queuedIntent n) h

end ForthDB
