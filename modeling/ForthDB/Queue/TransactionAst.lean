import ForthDB.Queue.Intent

/-!
# Semantic transactions

A semantic intent is a list of operations over texts. Its entities are symbols, bound by
its own allocations. A controller mixes semantic intents with queued ones.
-/

namespace ForthDB

inductive AtomRef
  | entity (entity : EntityId)
  | literal (value : String)
  | symbol (name : String)
deriving DecidableEq, Repr

inductive TransactionOp
  | allocate (result : String)
  | expectWorld (expected : WorldId)
  | expectObject (slot : String) (expected : AtomRef)
  | define (slot : String) (subject : AtomRef) (predicate : String) (object : AtomRef)
  | forget (slot : String)
  | reject
deriving DecidableEq, Repr

/-- `TransactionAST`; the namespace is the field `space`. -/
structure TransactionAst where
  space : ℕ
  operations : List TransactionOp
deriving DecidableEq, Repr

structure SemanticIntent where
  ast : TransactionAst
deriving DecidableEq, Repr

structure SemanticBindings where
  entries : List (String × EntityId)
deriving DecidableEq, Repr

inductive ControllerIntent
  | queued (intent : QueuedIntent)
  | semantic (intent : SemanticIntent)
deriving DecidableEq, Repr

inductive SemanticTicketRejection
  | worldPrecondition (expected actual : WorldId)
  | slotPrecondition (slot : SlotId) (expected actual : Option Fact)
  | validation (message : String)
  | lowering (message : String)
deriving DecidableEq, Repr

/-- The loop that fills `temps`: a later allocation of a symbol replaces an earlier one. -/
def assignTemps (temps : Dict String ℕ) (currentEntity : ℕ) : List TransactionOp → Dict String ℕ
  | [] => temps
  | .allocate result :: ops => assignTemps (temps.insert result currentEntity) (currentEntity + 1) ops
  | _ :: ops => assignTemps temps currentEntity ops

/-- `temps.get(..).unwrap()`: an `error` is the panic. -/
def tempEntity (temps : Dict String ℕ) (name : String) : Except String EntityId :=
  match temps.lookup name with
  | some entity => .ok ⟨entity⟩
  | none => .error "called `Option::unwrap()` on a `None` value"

def AtomRef.resolve (temps : Dict String ℕ) : AtomRef → Except String Atom
  | .entity e => .ok (.entity e)
  | .literal l => .ok (.literal ⟨l⟩)
  | .symbol s => (tempEntity temps s).map .entity

/-- The operation that one operation of a transaction is committed as, if any. -/
def TransactionOp.synthesize (temps : Dict String ℕ) :
    TransactionOp → Except String (List Operation)
  | .allocate result => (tempEntity temps result).map fun entity => [.allocateEntity entity]
  | .define slot subject predicate object => do
    let subject ← subject.resolve temps
    let object ← object.resolve temps
    pure [.define ⟨slot⟩ ⟨subject, ⟨predicate⟩, object⟩]
  | .forget slot => .ok [.forget ⟨slot⟩]
  | .expectWorld _ | .expectObject _ _ | .reject => .ok []

/-- `synthesized_operations`. -/
def synthesizeOperations (temps : Dict String ℕ) :
    List TransactionOp → Except String (List Operation)
  | [] => .ok []
  | op :: ops => do
    let operations ← op.synthesize temps
    let rest ← synthesizeOperations temps ops
    pure (operations ++ rest)

/-- The operations that a semantic intent commits behind an allocator. -/
def SemanticIntent.synthesized (intent : SemanticIntent) (nextEntity : ℕ) :
    Except String (List Operation) :=
  synthesizeOperations (assignTemps ∅ nextEntity intent.ast.operations) intent.ast.operations

end ForthDB
