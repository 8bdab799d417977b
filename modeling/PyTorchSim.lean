import PyTorchSim.Analysis.AddressMap
import PyTorchSim.Analysis.AddressSet
import PyTorchSim.Analysis.AttentionDispatch
import PyTorchSim.Analysis.AxisSplit
import PyTorchSim.Analysis.CacheAccess
import PyTorchSim.Analysis.CacheLines
import PyTorchSim.Analysis.CacheMarks
import PyTorchSim.Analysis.CacheTraffic
import PyTorchSim.Analysis.CatKernel
import PyTorchSim.Analysis.CatTiles
import PyTorchSim.Analysis.ChunkExchange
import PyTorchSim.Analysis.ChunkNetwork
import PyTorchSim.Analysis.ClockDomains
import PyTorchSim.Analysis.CommandRoundTrip
import PyTorchSim.Analysis.Completion
import PyTorchSim.Analysis.ComputeTimes
import PyTorchSim.Analysis.ConstraintAxes
import PyTorchSim.Analysis.ConvDecomposition
import PyTorchSim.Analysis.ConvLowering
import PyTorchSim.Analysis.ConvMapping
import PyTorchSim.Analysis.CoreInvariant
import PyTorchSim.Analysis.CoreOrder
import PyTorchSim.Analysis.CoreOutcome
import PyTorchSim.Analysis.CoreSteps
import PyTorchSim.Analysis.DependencyCounters
import PyTorchSim.Analysis.DimDividers
import PyTorchSim.Analysis.DispatchInvariant
import PyTorchSim.Analysis.DispatchProgress
import PyTorchSim.Analysis.DmaBookkeeping
import PyTorchSim.Analysis.DmaDescriptor
import PyTorchSim.Analysis.DmaLedger
import PyTorchSim.Analysis.DmaTransit
import PyTorchSim.Analysis.DramBandwidth
import PyTorchSim.Analysis.FlashAttention
import PyTorchSim.Analysis.IndexCoordinates
import PyTorchSim.Analysis.IndexLineUp
import PyTorchSim.Analysis.IndexTranslation
import PyTorchSim.Analysis.InstructionFinish
import PyTorchSim.Analysis.InstructionLinks
import PyTorchSim.Analysis.InterconnectDelivery
import PyTorchSim.Analysis.InterconnectLanes
import PyTorchSim.Analysis.InterconnectLatency
import PyTorchSim.Analysis.IntervalTree
import PyTorchSim.Analysis.KernelRetirement
import PyTorchSim.Analysis.L2Replies
import PyTorchSim.Analysis.LaneOffsets
import PyTorchSim.Analysis.LanePadding
import PyTorchSim.Analysis.LaneSort
import PyTorchSim.Analysis.LatencyUnits
import PyTorchSim.Analysis.LineReservation
import PyTorchSim.Analysis.LoopDangling
import PyTorchSim.Analysis.LoopEdges
import PyTorchSim.Analysis.LoopEmission
import PyTorchSim.Analysis.LoopIteration
import PyTorchSim.Analysis.LoopNest
import PyTorchSim.Analysis.LoopOrder
import PyTorchSim.Analysis.LoopReach
import PyTorchSim.Analysis.MatmulKernels
import PyTorchSim.Analysis.MatmulTiles
import PyTorchSim.Analysis.MemoryNodes
import PyTorchSim.Analysis.MissQueue
import PyTorchSim.Analysis.ModularTile
import PyTorchSim.Analysis.MultiHeadAttention
import PyTorchSim.Analysis.OpenKernels
import PyTorchSim.Analysis.ParsedGraph
import PyTorchSim.Analysis.PerLaneLayout
import PyTorchSim.Analysis.Placement
import PyTorchSim.Analysis.PointwiseConditions
import PyTorchSim.Analysis.PointwiseEmission
import PyTorchSim.Analysis.PointwiseExact
import PyTorchSim.Analysis.PointwiseLanes
import PyTorchSim.Analysis.PointwiseMeaning
import PyTorchSim.Analysis.PointwiseNodes
import PyTorchSim.Analysis.Recency
import PyTorchSim.Analysis.ReductionCompleteness
import PyTorchSim.Analysis.ReductionLayout
import PyTorchSim.Analysis.ReductionRows
import PyTorchSim.Analysis.ReductionSlots
import PyTorchSim.Analysis.RequestConservation
import PyTorchSim.Analysis.RequestQueue
import PyTorchSim.Analysis.RequestTraffic
import PyTorchSim.Analysis.RunEnd
import PyTorchSim.Analysis.SectorReservation
import PyTorchSim.Analysis.SetIndex
import PyTorchSim.Analysis.SimulatorOutcome
import PyTorchSim.Analysis.SimulatorSteps
import PyTorchSim.Analysis.SimulatorTiles
import PyTorchSim.Analysis.SortIndices
import PyTorchSim.Analysis.SortKernel
import PyTorchSim.Analysis.SortResult
import PyTorchSim.Analysis.SortStages
import PyTorchSim.Analysis.SparseCallbacks
import PyTorchSim.Analysis.SparseCompletion
import PyTorchSim.Analysis.SparseLedger
import PyTorchSim.Analysis.SparseMoves
import PyTorchSim.Analysis.SparseOccupancy
import PyTorchSim.Analysis.SsdLatency
import PyTorchSim.Analysis.TagHistory
import PyTorchSim.Analysis.TagTable
import PyTorchSim.Analysis.TailTrimming
import PyTorchSim.Analysis.TensorEntries
import PyTorchSim.Analysis.TileConstraints
import PyTorchSim.Analysis.TileDispatch
import PyTorchSim.Analysis.TileDivisors
import PyTorchSim.Analysis.TileExpansion
import PyTorchSim.Analysis.TileHeap
import PyTorchSim.Analysis.TileLayout
import PyTorchSim.Analysis.TileShape
import PyTorchSim.Analysis.TogLinks
import PyTorchSim.Analysis.TogNestReading
import PyTorchSim.Analysis.TogReading
import PyTorchSim.Analysis.TogRoundTrip
import PyTorchSim.Analysis.UnitFrames
import PyTorchSim.Analysis.Utilisation
import PyTorchSim.Analysis.VectorLoop
import PyTorchSim.Analysis.VictimChoice
import PyTorchSim.Analysis.WaitTags
import PyTorchSim.Analysis.WakeUps
import PyTorchSim.Analysis.WeightAddresses
import PyTorchSim.Analysis.WriteBack
import PyTorchSim.Frontend.CatProgram
import PyTorchSim.Frontend.CatTemplate
import PyTorchSim.Frontend.ConvDecomposition
import PyTorchSim.Frontend.ImplicitDims
import PyTorchSim.Frontend.IndexExpr
import PyTorchSim.Frontend.IndexMap
import PyTorchSim.Frontend.MatmulProgram
import PyTorchSim.Frontend.MatmulTemplates
import PyTorchSim.Frontend.MlirOps
import PyTorchSim.Frontend.NativeAttention
import PyTorchSim.Frontend.PointwiseLoop
import PyTorchSim.Frontend.TensorOps
import PyTorchSim.Frontend.TileDesc
import PyTorchSim.Frontend.TileMapping
import PyTorchSim.Frontend.TileRecompile
import PyTorchSim.Frontend.TileReduction
import PyTorchSim.Frontend.TileTrim
import PyTorchSim.Library.AffineText
import PyTorchSim.Library.ArithDialect
import PyTorchSim.Library.BitonicMerge
import PyTorchSim.Library.Brackets
import PyTorchSim.Library.CeilDiv
import PyTorchSim.Library.ClosedIntervals
import PyTorchSim.Library.CountedGraph
import PyTorchSim.Library.Delimited
import PyTorchSim.Library.Dependency
import PyTorchSim.Library.Exclusive
import PyTorchSim.Library.FloorShift
import PyTorchSim.Library.KeyedQueues
import PyTorchSim.Library.LeastTime
import PyTorchSim.Library.Numerals
import PyTorchSim.Library.RoundRobin
import PyTorchSim.Library.RowMajor
import PyTorchSim.Library.Runs
import PyTorchSim.Library.SlotProducts
import PyTorchSim.Library.StraightLine
import PyTorchSim.Library.Strides
import PyTorchSim.Library.TiledLoops
import PyTorchSim.Library.TimedQueue
import PyTorchSim.Library.TwosComplement
import PyTorchSim.Library.Views
import PyTorchSim.Library.WeightedMean
import PyTorchSim.Library.Writes
import PyTorchSim.Library.XorResidue
import PyTorchSim.Model.Cache
import PyTorchSim.Model.CachePlan
import PyTorchSim.Model.CommandProtocol
import PyTorchSim.Model.Core
import PyTorchSim.Model.CorePath
import PyTorchSim.Model.DMA
import PyTorchSim.Model.DelayQueue
import PyTorchSim.Model.DmaInfo
import PyTorchSim.Model.Dram
import PyTorchSim.Model.FlashSdpa
import PyTorchSim.Model.Instruction
import PyTorchSim.Model.Interconnect
import PyTorchSim.Model.IntervalTree
import PyTorchSim.Model.L2Cache
import PyTorchSim.Model.LatencyLink
import PyTorchSim.Model.LoopIterator
import PyTorchSim.Model.Scheduler
import PyTorchSim.Model.SdpaDispatch
import PyTorchSim.Model.SimpleDram
import PyTorchSim.Model.Simulator
import PyTorchSim.Model.SortTemplate
import PyTorchSim.Model.SparseCore
import PyTorchSim.Model.SsdTrace
import PyTorchSim.Model.Strings
import PyTorchSim.Model.TileGraph
import PyTorchSim.Model.TogFile
import PyTorchSim.Model.TogGenerator
import PyTorchSim.Model.TogParser
import PyTorchSim.Model.WeightRanges
