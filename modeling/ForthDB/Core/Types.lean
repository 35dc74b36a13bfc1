import ForthDB.Lib.Dict
import ForthDB.Lib.Fnv

/-!
# Facts and names

The vocabulary of `forthdb-core`: entities, slots, predicates, literals and the
facts made of them. A `u64` identifier is a natural number; the places where the
source compares it with a machine bound say so.
-/

namespace ForthDB

structure EntityId where
  value : ℕ
deriving DecidableEq, Repr

structure SlotId where
  value : String
deriving DecidableEq, Repr

structure Literal where
  value : String
deriving DecidableEq, Repr

structure Predicate where
  value : String
deriving DecidableEq, Repr

inductive Atom
  | entity (entity : EntityId)
  | literal (literal : Literal)
deriving DecidableEq, Repr

structure Fact where
  subject : Atom
  predicate : Predicate
  object : Atom
deriving DecidableEq, Repr

end ForthDB
