import HornDb.StoreInputs
import HornDb.StoreTagRuns
import HornDb.EstimatorBounds
import HornDb.ListRulesFired
import HornDb.UpdateAtomic
import HornDb.UpdateFollows
import HornDb.MemoExact
import HornDb.PlanSums
import HornDb.CircuitRounds
import HornDb.Construct
import HornDb.FeedRuns
import HornDb.BnodeScope
import HornDb.ResultFaithful
import HornDb.ViewRuns
import HornDb.ClosureRollback
import HornDb.BulkClosure
import HornDb.EquivClassRuns
import HornDb.ChangeFeedRuns
import HornDb.ZeroTail
import HornDb.KeyRuns
import HornDb.ColdRows
import HornDb.CursorScripts
import HornDb.TurtleSafety
import HornDb.MemStoreRuns
import HornDb.VecSourceRuns
import HornDb.PackedColumnChecked
import HornDb.IntegerLiterals
import HornDb.TopKExact
import HornDb.AmcRequests
import HornDb.InferredGraphs
import HornDb.EngineKeys
import HornDb.BaseFileExact
import HornDb.SimdSets
import HornDb.GraphStoreRequests
import HornDb.BuiltinPanics
import HornDb.StoreGc
