import VantagePoint.WhileLoop
import VantagePoint.GroupMetric
import VantagePoint.Node
import VantagePoint.Search
import VantagePoint.NearestNeighbour
import VantagePoint.RangeSearch
import VantagePoint.Smallest
import VantagePoint.EntryOrder
import VantagePoint.KWayMerge
import VantagePoint.Sort
import VantagePoint.CandidateList
import VantagePoint.StableSort
import VantagePoint.CandidateOrder
import VantagePoint.KNearest
import VantagePoint.NearestAgreement
import VantagePoint.KNearestExact
import VantagePoint.Segment
import VantagePoint.DisjointThreads
import VantagePoint.SortThreads
import VantagePoint.MachineWord
import VantagePoint.IntegerPruning
import VantagePoint.Arena
import VantagePoint.Build
import VantagePoint.Allocator
import VantagePoint.SplitScan
import VantagePoint.BuildStep
import VantagePoint.BuildFrames
import VantagePoint.Couples
import VantagePoint.BuildLoop
import VantagePoint.BuildSpec
import VantagePoint.BuildMemory
import VantagePoint.RangeBuffer
import VantagePoint.BuildFailure
import VantagePoint.OutOfMemory
import VantagePoint.TreeLife
import VantagePoint.MemorySearch
import VantagePoint.TeardownFailure
import VantagePoint.SearchDepth
import VantagePoint.BalancedBuild
import VantagePoint.RwLock
import VantagePoint.CallSequence
import VantagePoint.JavaBinding
import VantagePoint.BindingLock
import VantagePoint.BindingIndex
import VantagePoint.BlockLedger
import VantagePoint.MemoryLedger
import VantagePoint.TreeClient
import VantagePoint.PointMap
import VantagePoint.GuardedThreads
import VantagePoint.GuardedTermination
import VantagePoint.GuardedSerial
import VantagePoint.GuardedReaders
import VantagePoint.GuardedTurns
import VantagePoint.BindingThreads
import VantagePoint.BindingExclusion
import VantagePoint.BindingArray
import VantagePoint.BindingScan
import VantagePoint.BindingSafety
import VantagePoint.BindingAnswers
import VantagePoint.BindingTermination
import VantagePoint.BindingSerial
import VantagePoint.BindingReaders
import VantagePoint.BindingRace
import VantagePoint.BindingTurns
