import QueueFairness.Lib.Interleaving
import QueueFairness.Lib.AtomicQueue
import QueueFairness.Lib.Occurrence
import QueueFairness.Lib.Solo
import QueueFairness.Lib.LinkedList
import QueueFairness.Lib.ProtectedList
import QueueFairness.Lib.BinaryIndexed
import QueueFairness.Lib.Overtaking
import QueueFairness.Lib.CycleRing
import QueueFairness.Lib.Amortized
import QueueFairness.Lib.NodeOwners
import QueueFairness.Lib.TicketWindow
import QueueFairness.Lib.LockFree
import QueueFairness.Lib.CoveredCalls
import QueueFairness.Heap
import QueueFairness.HazardPointers
import QueueFairness.CacheRemap
import QueueFairness.LogRecord
import QueueFairness.FairnessLogger
import QueueFairness.Args
import QueueFairness.Workloads
import QueueFairness.FlatCombiningQueue
import QueueFairness.FlatCombiningLog
import QueueFairness.MSQueue
import QueueFairness.FAAArrayQueue
import QueueFairness.FAAArrayQueueAdapter
import QueueFairness.FAAArrayQueueSize
import QueueFairness.LinkedRingQueue
import QueueFairness.PRQueue
import QueueFairness.CRQueue
import QueueFairness.RingQueueAdapter
import QueueFairness.LCRQ
import QueueFairness.SCQueue
import QueueFairness.BenchmarkDriver
import QueueFairness.Proof.HazardPointers
import QueueFairness.Proof.HazardScan
import QueueFairness.Proof.FlatCombiningInvariant
import QueueFairness.Proof.FlatCombiningStep
import QueueFairness.Proof.FlatCombining
import QueueFairness.Proof.FlatCombiningOvertaking
import QueueFairness.Proof.FlatCombiningSolo
import QueueFairness.Proof.MSQueueChain
import QueueFairness.Proof.MSQueueStep
import QueueFairness.Proof.MSQueueLinearizable
import QueueFairness.Proof.MSQueueLog
import QueueFairness.Proof.MSQueueReclaim
import QueueFairness.Proof.MSQueueMoves
import QueueFairness.Proof.MSQueueDestructor
import QueueFairness.Proof.MSQueueLockFree
import QueueFairness.Proof.FAAArrayCells
import QueueFairness.Proof.FAAArrayCounters
import QueueFairness.Proof.FAAArrayFifo
import QueueFairness.Proof.FAAArrayAdapter
import QueueFairness.Proof.FAAArrayLog
import QueueFairness.Proof.FAAArrayReclaim
import QueueFairness.Proof.FAAArrayIndices
import QueueFairness.Proof.FAAArraySequential
import QueueFairness.Proof.FAAArrayLockFree
import QueueFairness.Proof.RingQueueLog
import QueueFairness.Proof.CacheRemap
import QueueFairness.Proof.SegmentBase
import QueueFairness.Proof.RingSegment
import QueueFairness.Proof.PRQueueCells
import QueueFairness.Proof.PRQueueStep
import QueueFairness.Proof.CRQueueCells
import QueueFairness.Proof.CRQueueStep
import QueueFairness.Proof.LinkedRingChain
import QueueFairness.Proof.LinkedRingSegment
import QueueFairness.Proof.LinkedRingAccount
import QueueFairness.Proof.LinkedRingReclaim
import QueueFairness.Proof.LinkedRingDestructor
import QueueFairness.Proof.LinkedRingFifo
import QueueFairness.Proof.RingSpec
import QueueFairness.Proof.LinkedRingDiscipline
import QueueFairness.Proof.LPRQueue
import QueueFairness.Proof.LCRQueue
import QueueFairness.Proof.LinkedRingSequential
import QueueFairness.Proof.RingSequential
import QueueFairness.Proof.LPRQueueSequential
import QueueFairness.Proof.LCRQueueSequential
import QueueFairness.Proof.LCRQRings
import QueueFairness.Proof.LCRQ
import QueueFairness.Proof.Fenwick
import QueueFairness.Proof.OvertakeMetrics
import QueueFairness.Proof.BenchmarkDriver
import QueueFairness.Proof.Workloads
import QueueFairness.Proof.PairWorkload
import QueueFairness.Proof.Args
import QueueFairness.Proof.HazardTables
import QueueFairness.Proof.FAAArrayDrain
import QueueFairness.Proof.DriverRuns
import QueueFairness.Proof.TablesFit
import QueueFairness.Proof.HazardRetired
import QueueFairness.Proof.FAAArrayRetire
import QueueFairness.Proof.LinkedRingRetire
import QueueFairness.Proof.SCQueueWords
import QueueFairness.Proof.SCQueueStep
import QueueFairness.Proof.SCQueue
import QueueFairness.Proof.SCQueueThreshold
import QueueFairness.Proof.SCQueueSequential
import QueueFairness.Proof.SCQueueFreeList
