import ForthDB.Lib.SortedTable
import Mathlib.Data.String.Basic
import ForthDB.Vm.Instruction
import ForthDB.World.OperationCodec

/-!
# The memory-mapped image of a world

`MmapVmSnapshot` as its readers see it: three sorted tables of names, the retained
definition records, one head for each slot, three sorted indexes and the encoded
commit history. Opening an image file is another module's subject; here an image is
given.

A `u32` reference to a record is an `Option ℕ`; `None` stands for `u32::MAX`.
-/

namespace ForthDB

open Bytes Decode

structure MappedRecord where
  originalId : ℕ
  slot : ℕ
  previous : Option ℕ
  subject : ℕ
  predicate : ℕ
  object : ℕ
deriving DecidableEq, Repr

structure IndexEntry where
  first : ℕ
  second : ℕ
  third : ℕ
  record : ℕ
deriving DecidableEq, Repr

structure MmapVmSnapshot where
  epochCount : ℕ
  journalOffset : ℕ
  worldId : WorldId
  worldVersion : ℕ
  nextEntity : ℕ
  operationCount : ℕ
  activeSlotCount : ℕ
  recordCount : ℕ
  frameCount : ℕ
  slots : List String
  predicates : List String
  literals : List String
  records : List MappedRecord
  heads : List (Option ℕ)
  active : List ℕ
  spo : List IndexEntry
  pos : List IndexEntry
  osp : List IndexEntry
  history : List UInt8
deriving DecidableEq, Repr

/-- The texts of `decode_frames` and the readers below it. -/
def historyWording : Wording where
  eof := fun _ _ => "failed to fill whole buffer"
  eofText := fun _ _ => "truncated mapped history string"
  utf8 := "invalid utf-8"
  atomTag := fun tag => s!"unknown mapped history atom {tag}"
  operationTag := fun tag => s!"unknown mapped history operation {tag}"

/-- One frame of `decode_frames`. -/
def readHistoryFrame : Decoder CommitFrame := do
  let parentWorld ← number historyWording.eof 8
  let resultingWorld ← number historyWording.eof 8
  let parentVersion ← number historyWording.eof 8
  let resultingVersion ← number historyWording.eof 8
  let resultingAllocator ← number historyWording.eof 8
  let operationCount ← number historyWording.eof 4
  let operations ← times operationCount (readOperation historyWording 4)
  pure {
    parentWorld := ⟨.ofNat parentWorld⟩, resultingWorld := ⟨.ofNat resultingWorld⟩,
    parentVersion := parentVersion, resultingVersion := resultingVersion,
    resultingAllocator := resultingAllocator, operations := operations }

def readHistory : Decoder (List CommitFrame) := do
  let count ← number historyWording.eof 8
  times count readHistoryFrame

/-- `decode_frames`. -/
def decodeFrames (bytes : List UInt8) : Except String (List CommitFrame) :=
  decodeAll (fun _ => "trailing mapped history bytes") readHistory bytes

namespace MmapVmSnapshot

variable (s : MmapVmSnapshot)

def slotCount : ℕ := s.slots.length

def predicateCount : ℕ := s.predicates.length

def literalCount : ℕ := s.literals.length

def slotToken (slot : SlotId) : Option ℕ := SortedTable.lookup s.slots slot.value

def predicateToken (predicate : Predicate) : Option ℕ :=
  SortedTable.lookup s.predicates predicate.value

def literalToken (literal : Literal) : Option ℕ := SortedTable.lookup s.literals literal.value

def predicateValue (token : ℕ) : Option Predicate := s.predicates[token]?.map Predicate.mk

def literalValue (token : ℕ) : Option Literal := s.literals[token]?.map Literal.mk

def atomValue (cell : ℕ) : Except String Atom :=
  if cell < literalBase then .ok (.entity ⟨cell⟩)
  else match s.literalValue (cell - literalBase) with
    | some literal => .ok (.literal literal)
    | none => .error "mapped literal token is invalid"

def fact (index : ℕ) : Except String Fact :=
  match s.records[index]? with
  | none => .error "mapped fact cache index is out of range"
  | some record => do
    let subject ← s.atomValue record.subject
    let predicate ← match s.predicateValue record.predicate with
      | some predicate => pure predicate
      | none => .error "mapped predicate token is invalid"
    let object ← s.atomValue record.object
    pure ⟨subject, predicate, object⟩

def resolve (slot : SlotId) : Option Fact := do
  let token ← s.slotToken slot
  let head ← s.heads[token]?
  let index ← head
  (s.fact index).toOption

/-- The loop of `definitions` along the previous records. The first argument bounds the
number of its passes; an image has no more than records. -/
def definitionsFrom : ℕ → Option ℕ → List Fact
  | fuel + 1, some index =>
    match s.fact index with
    | .ok fact => fact :: definitionsFrom fuel (s.records[index]?.bind MappedRecord.previous)
    | .error _ => []
  | _, _ => []

def definitions (slot : SlotId) : List Fact :=
  match s.slotToken slot with
  | some token => s.definitionsFrom s.records.length (s.heads[token]?.getD none)
  | none => []

/-- `frames`: an `error` is the panic of `expect`. -/
def frames : Except String (List CommitFrame) :=
  (decodeFrames s.history).mapError fun e => s!"validated mapped history must decode: {e}"

end MmapVmSnapshot

end ForthDB
