import CapiNet.Library.Table
import CapiNet.Library.Transaction
import CapiNet.Library.Interleaving
import CapiNet.Library.RelyGuarantee
import CapiNet.Json
import CapiNet.Statistics
import CapiNet.Spec
import CapiNet.Schema
import CapiNet.Lifecycle
import CapiNet.Sanity
import CapiNet.Queue
import CapiNet.Admin
import CapiNet.Smoke
import CapiNet.System
import CapiNet.LifecycleEffect
import CapiNet.SprtRegion
import CapiNet.QueueEffect
import CapiNet.AdminEffect
import CapiNet.SystemEffect
import CapiNet.SmokeEffect
import CapiNet.PairStep
import CapiNet.QueueStep
import CapiNet.PairInvariant
import CapiNet.LeaseExclusive
import CapiNet.ExactlyOnce
import CapiNet.RevokedLease
import CapiNet.TestMove
import CapiNet.TestInvariant
import CapiNet.TestRows
import CapiNet.TestEffect
import CapiNet.TestLifecycle
import CapiNet.Concurrent
import CapiNet.StoppedTest
import CapiNet.Runner
import CapiNet.LeaseLength
import CapiNet.TcGrammar
import CapiNet.TcRoundTrip
import CapiNet.PermanentBan
import CapiNet.DiscardedPair
import CapiNet.Topology
import CapiNet.AdmissionContract
import CapiNet.Request
import CapiNet.SpecFaithful
import CapiNet.Listing
import CapiNet.GeneratedJobs
import CapiNet.PgnDownload
import CapiNet.Library.Secular
import CapiNet.Library.NearRoot
import CapiNet.Antisymmetry
import CapiNet.SecularError
import CapiNet.MleDrift
import CapiNet.MleRounds
import CapiNet.LlrDefined
import CapiNet.Decimal
import CapiNet.Pgn
import CapiNet.ResultRoute
import CapiNet.PgnLimits
import CapiNet.ResultBody
import CapiNet.AcceptedResult
import CapiNet.PgnExchange
import CapiNet.Library.Paired
import CapiNet.Library.AlgorithmR
import CapiNet.BookSample
import CapiNet.BookLines
import CapiNet.ReadableBoards
import CapiNet.Outcomes
import CapiNet.EngineSwap
import CapiNet.ScoreViews
import CapiNet.GameSplit
import CapiNet.PgnStream
import CapiNet.CommentSearch
import CapiNet.MoveTotals
import CapiNet.ProcessOutput
import CapiNet.HistorySample
import CapiNet.Bisection
import CapiNet.SecularRoot
import CapiNet.PlausibleDuration
import CapiNet.Library.Tail
import CapiNet.EloOrder
import CapiNet.Library.Monitor
import CapiNet.ConnectionPool
import CapiNet.ScoreBackfill
import CapiNet.Ledger
import CapiNet.LedgerEntry
import CapiNet.LedgerKept
import CapiNet.NoLostUpdate
import CapiNet.VerdictKept
import CapiNet.Library.LockOrder
import CapiNet.RequestRules
import CapiNet.LockRequests
import CapiNet.NoDeadlock
import CapiNet.Api
import CapiNet.ApiAnswers
import CapiNet.FrozenRows
import CapiNet.ClientLoop
import CapiNet.NetworkStep
import CapiNet.OwnEngines
import CapiNet.Shutdown
import CapiNet.Library.Staging
import CapiNet.EngineBuild
import CapiNet.Detection
import CapiNet.Library.Raising
import CapiNet.Failures
import CapiNet.Understood
import CapiNet.TestEnds
import CapiNet.Library.Grouping
import CapiNet.Reports
import CapiNet.CreateRoute
import CapiNet.TestCreation
import CapiNet.SmokeOrder
