import ForthDB.Store.FileStoreRuns
import ForthDB.Store.AcceptedFrames
import ForthDB.Store.TornCommits
import ForthDB.Queue.StrictRuns
import ForthDB.Queue.VmRuns
import ForthDB.Queue.WorldPreconditions
import ForthDB.Queue.PublishedWorlds
import ForthDB.Queue.CollapsedEpoch
import ForthDB.Core.KernelClones
import ForthDB.Core.QueryOrder
import ForthDB.World.ProjectionParity
import ForthDB.Journal.Replay
import ForthDB.Journal.Recovery
import ForthDB.Snapshot.Query
import ForthDB.Controller.Poisoning
import ForthDB.Controller.SpeculativeRuns
import ForthDB.Controller.Admission
import ForthDB.Controller.AdmissionAccounts
import ForthDB.Controller.AdmissionRuns
import ForthDB.Core.KernelJoin
import ForthDB.Core.QueryLimits
import ForthDB.Controller.AdmissionSafety
import ForthDB.Controller.AdmissionWindow
import ForthDB.Queue.RejectedIntents
import ForthDB.Queue.Resynchronization
import ForthDB.Vm.StaleCells
import ForthDB.Queue.MalformedTransactions
import ForthDB.Queue.Lowering
import ForthDB.Queue.LoweredTransactions
import ForthDB.Queue.SemanticCompilation
import ForthDB.Queue.SemanticRuns
import ForthDB.Queue.SemanticPrograms
import ForthDB.Python.Kernel
import ForthDB.Python.StreamFrame
import ForthDB.Core.KernelLaws
import ForthDB.Store.MappedAlignment
import ForthDB.Controller.Batching
import ForthDB.Controller.Queued
import ForthDB.Controller.QueuedSteps
import ForthDB.Controller.QueuedAccounts
import ForthDB.Controller.QueuedDelivery
import ForthDB.Queue.AdmissibleIntents
import ForthDB.Vm.PublishedRoots
import ForthDB.World.Preimages
import ForthDB.Lib.Slots
import ForthDB.Store.Completions
import ForthDB.World.CommittedChains
import ForthDB.Lib.Slices
import ForthDB.Snapshot.StringTable
import ForthDB.Snapshot.MappedFile
import ForthDB.Snapshot.Reopened
import ForthDB.Snapshot.Entries
import ForthDB.Snapshot.Candidates
import ForthDB.Snapshot.Answers
import ForthDB.Python.TransactionAst
import ForthDB.Core.SharedMaps
import ForthDB.Core.SharedLogs
import ForthDB.Python.Executor
import ForthDB.Python.Atomic
import ForthDB.Lib.Json
import ForthDB.Lib.JsonPlain
import ForthDB.Lib.Sha256
import ForthDB.Lib.SealedLog
import ForthDB.Python.WorldStore
import ForthDB.Python.WorldRuns
import ForthDB.Python.WorldTails
import ForthDB.Python.Builder
import ForthDB.Journal.Resumed
import ForthDB.Journal.Restarts
