import NeuralNetwork.AllocationBase.Proof.AffinedRuns
import NeuralNetwork.AllocationBase.Proof.AlignedAllocation
import NeuralNetwork.AllocationBase.Proof.Reservation
import NeuralNetwork.ConcurrencyBase.Proof.WorkerController
import NeuralNetwork.ConcurrentQueue.Proof.BoundedQueue
import NeuralNetwork.ConnectivitySubsystem.Proof.Connection
import NeuralNetwork.CoroutineSubsystem.Proof.Coroutine
import NeuralNetwork.CronSubsystem.Proof.Cron
import NeuralNetwork.CudaManagement.SplitStackAllocator
import NeuralNetwork.CudaMalloc.DedicatedAllocator
import NeuralNetwork.CudaMalloc.Proof.Canonical
import NeuralNetwork.DataLoader.Proof.WaitLoader
import NeuralNetwork.Funnel.KeyValueMemory
import NeuralNetwork.Funnel.Proof.KeyValueDelivery
import NeuralNetwork.GlobalStringEncoder.HexEncoder
import NeuralNetwork.InternalRest.Mailbox.SwitchingBloomFilter
import NeuralNetwork.InternalRest.Proof.BlackListGate
import NeuralNetwork.InternalRest.Proof.ChannelX
import NeuralNetwork.InternalRest.Proof.ExhaustionControlled
import NeuralNetwork.InternalRest.Proof.FairInBoundBufferContainer
import NeuralNetwork.InternalRest.Proof.FifoContainer
import NeuralNetwork.InternalRest.Proof.InBoundWorker
import NeuralNetwork.InternalRest.Proof.ItemStore
import NeuralNetwork.InternalRest.Proof.KernelAllocator
import NeuralNetwork.InternalRest.Proof.NormalOutboundPacketContainer
import NeuralNetwork.InternalRest.Proof.PacketAssembler
import NeuralNetwork.InternalRest.Proof.ReactingRetransmission
import NeuralNetwork.InternalRest.Proof.Send
import NeuralNetwork.InternalRest.Proof.SslSymmetricEncoder
import NeuralNetwork.InternalRest.Proof.SslX
import NeuralNetwork.InternalRest.Proof.TicketRuns
import NeuralNetwork.InternalRest.RestFrame.CacheWriteTraffic
import NeuralNetwork.InternalRest.RestFrame.ExponentialRetry
import NeuralNetwork.InternalRest.RestFrame.Proof.DistributedTicketController
import NeuralNetwork.InternalRest.RestFrame.Proof.RequestContainer
import NeuralNetwork.InternalRest.RestFrame.Proof.RestController
import NeuralNetwork.Matrix.Proof.RoundTrip
import NeuralNetwork.Matrix.ShapeProjection
import NeuralNetwork.MatrixOptimizer.Proof.BlockCoordinatedSearch
import NeuralNetwork.MatrixOptimizer.SearchScores
import NeuralNetwork.MemoryManagement.Proof.CudaImmutableMemoryCache
import NeuralNetwork.MemoryManagement.Proof.ImmutableMemoryCache
import NeuralNetwork.MemoryManagement.Proof.KeyHeap
import NeuralNetwork.MemoryManagement.Proof.MemoryLifetimeManager
import NeuralNetwork.MemoryManagement.Proof.ScopedRuns
import NeuralNetwork.MemorySync.TaintIntervalTree
import NeuralNetwork.MutexExtension.Proof.FairMutex
import NeuralNetwork.Serializer.Proof.DecodeSafety
import NeuralNetwork.Serializer.Proof.DgBufLookup
import NeuralNetwork.Serializer.Proof.HuffmanEncoder
import NeuralNetwork.SmartPointer.Proof.SmartPointer
import NeuralNetwork.StlExtension.Proof.CyclicUnorderedNodeSet
import NeuralNetwork.StlExtension.Proof.Pow2CyclicQueue
import NeuralNetwork.StlExtension.Proof.UnorderedNodeMapRuns
