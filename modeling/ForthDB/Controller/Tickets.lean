import ForthDB.Queue.Intent
import ForthDB.Store.EpochStore

/-!
# What tickets are answered

The rejections of the controllers carry the texts of the errors that intents are rejected
with.
-/

namespace ForthDB

inductive DurableTicketRejection
  | worldPrecondition (expected actual : WorldId)
  | slotPrecondition (slot : SlotId) (expected actual : Option Fact)
  | unknownTemporaryEntity (temporary : TempEntity)
  | candidate (error : String)
  | validation (message : String)
deriving DecidableEq, Repr

/-- `from_intent`. -/
def DurableTicketRejection.fromIntent : IntentRejection → DurableTicketRejection
  | .worldPrecondition expected actual => .worldPrecondition expected actual
  | .slotPrecondition slot expected actual => .slotPrecondition slot expected actual
  | .unknownTemporaryEntity entity => .unknownTemporaryEntity entity
  | .candidate error => .candidate (toString error)
  | .validation message => .validation message

inductive DurableTicketStopReason
  | shutdownBeforeClaim
  | workerFailed (reason : String)
deriving DecidableEq, Repr

inductive DurableTicketOutcome
  | accepted (world : World) (frame : CommitFrame) (entities : EntityMap)
  | rejected (rejection : DurableTicketRejection)
  | durabilityFailed (message : String)
  | stopped (reason : DurableTicketStopReason)

end ForthDB
