import Mstar.SpanTiling
import Mstar.Shard
import Mstar.ShardRanges
import Mstar.ShardAgreement
import Mstar.ShardOverflow
import Mstar.PinnedForest
import Mstar.PrefixIndex
import Mstar.EvictableTree
import Mstar.EvictableHolds
import Mstar.EvictableFiling
import Mstar.EvictionHeap
import Mstar.EvictionLoop
import Mstar.EvictableSet
import Mstar.WalkRests
import Mstar.WalkBalance
import Mstar.LoopRuns
import Mstar.LoopTurns
import Mstar.LoopStops
import Mstar.StopWorld
import Mstar.StopSafety
import Mstar.Delimited
import Mstar.PageKeys
import Mstar.PageSlots
import Mstar.PrefixChain
import Mstar.PrefixCuts
import Mstar.KeyCollisions
import Mstar.SlotChains
import Mstar.Admission
import Mstar.AdmissionQueues
import Mstar.AdmissionTries
import Mstar.AdmissionSweeps
import Mstar.AdmissionAsks
import Mstar.AdmissionOrder
import Mstar.ArenaCalls
import Mstar.RustArena
import Mstar.PythonArena
import Mstar.ArenaColumns
import Mstar.ArenaRows
import Mstar.ArenaPages
import Mstar.ArenaRefinement
import Mstar.ArenaRuns
import Mstar.ChunkPolicies
import Mstar.StreamBuffers
import Mstar.StreamPops
import Mstar.StreamRuns
import Mstar.StreamChunks
import Mstar.StreamEdges
import Mstar.StreamDelivery
import Mstar.StreamEnds
import Mstar.LoopNest
import Mstar.LoopResets
import Mstar.LoopCaches
import Mstar.LoopAgreement
import Mstar.LoopHandover
import Mstar.LoopsAsAsked
import Mstar.ShardPython
import Mstar.Conductor
import Mstar.Histories
import Mstar.RequestLife
import Mstar.ConductorMoves
import Mstar.ConductorSlots
import Mstar.ConductorHandlers
import Mstar.ConductorTurns
import Mstar.Teardown
import Mstar.PassCounting
import Mstar.PassReports
import Mstar.PassSteps
import Mstar.PassTallies
import Mstar.PassAdvances
import Mstar.PassRuns
import Mstar.GatherStore
import Mstar.GatherSound
import Mstar.GatherReads
import Mstar.GatherSteps
import Mstar.GatherDeliver
import Mstar.GatherRounds
import Mstar.GatherRuns
import Mstar.GathersWhole
import Mstar.TokenShares
import Mstar.TokenPasses
import Mstar.TokenBudgets
import Mstar.BudgetsShared
import Mstar.WriteAddresses
import Mstar.PlanReadBack
import Mstar.PackedWrites
import Mstar.NumpyWrites
import Mstar.WritesExact
import Mstar.StepPicks
import Mstar.StepLoops
import Mstar.PicksInOrder
import Mstar.PicksOnce
import Mstar.EvictionOrder
import Mstar.LeastRecentLeaf
import Mstar.EvictionRuns
import Mstar.TensorBooks
import Mstar.TensorOwners
import Mstar.DropRefs
import Mstar.BooksAgree
import Mstar.BooksCounts
import Mstar.BookCalls
import Mstar.BookItems
import Mstar.BooksRefine
import Mstar.SplitInputs
import Mstar.SplitGroups
import Mstar.SplitJoins
import Mstar.SplitOrder
import Mstar.SplitLog
import Mstar.SplitWhole
import Mstar.Coalescing
import Mstar.HostPool
import Mstar.ShmArena
import Mstar.ShmRanges
import Mstar.ShmSegments
import Mstar.BoundedLayout
import Mstar.BoundedPlaces
import Mstar.BoundedRetention
import Mstar.ShardTemplates
import Mstar.ShardClaims
import Mstar.ShardLeftovers
import Mstar.ShardResolved
import Mstar.PythonSetup
import Mstar.ShardTwins
import Mstar.OutputCounts
import Mstar.ReorderBuffers
import Mstar.OutputMoves
import Mstar.OutputAnswers
import Mstar.OutputPasses
import Mstar.OutputReads
import Mstar.OutputTakes
import Mstar.OutputRuns
import Mstar.OutputBooks
import Mstar.OutputTracks
import Mstar.OutputArrivals
import Mstar.OutputInOrder
import Mstar.PrefixDecoders
import Mstar.Utf8Stream
import Mstar.Utf8Feeds
import Mstar.TurnPhases
import Mstar.TurnCuts
import Mstar.TurnRuns
import Mstar.Patterns
import Mstar.SpeechChunking
import Mstar.SpeechChunks
import Mstar.SpeechWhole
import Mstar.SpeechRegexes
import Mstar.SpeechAgreement
import Mstar.RunnerContracts
import Mstar.RunnerStages
import Mstar.RunnerPromotions
import Mstar.RunnerRuns
import Mstar.ClientStreams
import Mstar.ClientDeliveries
import Mstar.ClientLedger
import Mstar.ClientInvariants
import Mstar.ClientSteps
import Mstar.ClientAppends
import Mstar.ClientRoutes
import Mstar.ClientRuns
import Mstar.RingAddresses
import Mstar.RingVisibility
import Mstar.RingSessions
import Mstar.RingManager
import Mstar.RingRuns
import Mstar.MirrorPools
import Mstar.RoutingMirror
import Mstar.DeviceMirrors
import Mstar.EdgeFrames
import Mstar.MirrorRuns
import Mstar.Outbox
import Mstar.TensorUuids
