import ForthDB.Core.Types

/-!
# Instructions

The nine opcodes of the semantic stack machine and their one-word instructions. A
cell is the number of an atom or a predicate, a slot token the number of a slot.
-/

namespace ForthDB

/-- `VM_LITERAL_BASE`: the first atom cell that names a literal. -/
def literalBase : ℕ := 2 ^ 63

/-- The entity of an atom lies below the literal cells. -/
def Atom.InVmRange : Atom → Prop
  | .entity e => e.value < literalBase
  | .literal _ => True

instance (a : Atom) : Decidable a.InVmRange :=
  match a with
  | .entity e => inferInstanceAs (Decidable (e.value < literalBase))
  | .literal _ => inferInstanceAs (Decidable True)

inductive Opcode
  | expectObject
  | allocate
  | allocateDiscard
  | loadLocal
  | storeLocal
  | pushCell
  | define
  | forget
  | reject
deriving DecidableEq, Repr

/-- The discriminant of an opcode. -/
def Opcode.toU8 : Opcode → UInt8
  | .expectObject => 0
  | .allocate => 1
  | .allocateDiscard => 2
  | .loadLocal => 3
  | .storeLocal => 4
  | .pushCell => 5
  | .define => 6
  | .forget => 7
  | .reject => 8

/-- `Opcode::from_u8`. -/
def Opcode.fromU8 : ℕ → Except String Opcode
  | 0 => .ok .expectObject
  | 1 => .ok .allocate
  | 2 => .ok .allocateDiscard
  | 3 => .ok .loadLocal
  | 4 => .ok .storeLocal
  | 5 => .ok .pushCell
  | 6 => .ok .define
  | 7 => .ok .forget
  | 8 => .ok .reject
  | other => .error s!"unknown opcode byte {other}"

theorem Opcode.fromU8_toU8 (opcode : Opcode) : fromU8 opcode.toU8.toNat = .ok opcode := by
  cases opcode <;> rfl

structure Instruction where
  opcode : Opcode
  argument : ℕ
  immediate : ℕ
deriving DecidableEq, Repr

namespace Instruction

/-- The argument that turns `ExpectObject` into an expectation of a whole world. -/
def worldArgument : ℕ := 2 ^ 32 - 1

def expectObject (slot expected : ℕ) : Instruction := ⟨.expectObject, slot, expected⟩

def allocate : Instruction := ⟨.allocate, 0, 0⟩

def allocateDiscard : Instruction := ⟨.allocateDiscard, 0, 0⟩

def loadLocal (index : ℕ) : Instruction := ⟨.loadLocal, index, 0⟩

def storeLocal (index : ℕ) : Instruction := ⟨.storeLocal, index, 0⟩

def push (cell : ℕ) : Instruction := ⟨.pushCell, 0, cell⟩

def define (slot : ℕ) : Instruction := ⟨.define, slot, 0⟩

def forget (slot : ℕ) : Instruction := ⟨.forget, slot, 0⟩

def reject : Instruction := ⟨.reject, 0, 0⟩

end Instruction

structure IntentProgram where
  localCount : ℕ
  instructions : List Instruction
deriving DecidableEq, Repr

end ForthDB
