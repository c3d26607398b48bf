import HTWGArchive.Dictionary.Node
import HTWGArchive.Dictionary.SearchTree
import HTWGArchive.Dictionary.Balance
import HTWGArchive.Dictionary.BinaryTree
import HTWGArchive.Dictionary.ParentLinks
import HTWGArchive.Dictionary.Iteration
import HTWGArchive.Library.JavaInt
import HTWGArchive.Library.Slots
import HTWGArchive.Library.Components
import HTWGArchive.Library.SpanningForest
import HTWGArchive.TelNet.UnionFind
import HTWGArchive.TelNet.TelNet
import HTWGArchive.TelNet.Kruskal
import HTWGArchive.TelNet.Connections
import HTWGArchive.TelNet.NearPairs
import HTWGArchive.TelNet.Recompute
import HTWGArchive.Dictionary.EntryList
import HTWGArchive.Dictionary.SortedArray
import HTWGArchive.Dictionary.SortedArrayMap
import HTWGArchive.Dictionary.SortedArrayIterator
import HTWGArchive.Dictionary.HashTable
import HTWGArchive.Dictionary.HashBuckets
import HTWGArchive.Dictionary.HashGrowth
import HTWGArchive.Dictionary.HashIterator
import HTWGArchive.Dictionary.HashRemoval
import HTWGArchive.Library.DepthFirst
import HTWGArchive.Library.Kosaraju
import HTWGArchive.DirectedGraph.AdjacencyList
import HTWGArchive.DirectedGraph.DepthFirstOrder
import HTWGArchive.DirectedGraph.StrongComponents
import HTWGArchive.DirectedGraph.Degrees
import HTWGArchive.DirectedGraph.Inversion
import HTWGArchive.Library.TopologicalOrder
import HTWGArchive.DirectedGraph.TopologicalSort
import HTWGArchive.DirectedGraph.DepthFirstForest
import HTWGArchive.Library.LabelSetting
import HTWGArchive.Library.PredecessorTree
import HTWGArchive.ShortestPath.PriorityQueue
import HTWGArchive.ShortestPath.Search
import HTWGArchive.ShortestPath.AStar
import HTWGArchive.ShortestPath.Dijkstra
import HTWGArchive.ShortestPath.ObjectSearch
import HTWGArchive.ShortestPath.Reconstruction
import HTWGArchive.ShortestPath.ErrorContract
import HTWGArchive.Simulator.Queues
import HTWGArchive.Simulator.Resources
import HTWGArchive.Simulator.Scheduling
import HTWGArchive.Simulator.Board
import HTWGArchive.Simulator.Unlocking
import HTWGArchive.Simulator.Deletion
import HTWGArchive.Simulator.Dispatching
import HTWGArchive.Simulator.Sections
import HTWGArchive.Simulator.Moves
import HTWGArchive.Simulator.Completion
import HTWGArchive.Simulator.WellFormed
import HTWGArchive.Simulator.TickPhases
import HTWGArchive.Simulator.Ownership
import HTWGArchive.Simulator.Identity
import HTWGArchive.Simulator.Lifecycle
import HTWGArchive.Simulator.Uniqueness
import HTWGArchive.Simulator.Entries
import HTWGArchive.Simulator.Exclusion
import HTWGArchive.Simulator.Budget
import HTWGArchive.Library.PeriodicDemand
import HTWGArchive.Simulator.Inheritance
import HTWGArchive.Simulator.Realtime
import HTWGArchive.Simulator.Window
import HTWGArchive.Library.FirstMinimum
import HTWGArchive.Simulator.GenerationV4
import HTWGArchive.Simulator.GenerationV5
import HTWGArchive.Simulator.DeletionExact
import HTWGArchive.Simulator.Generations
import HTWGArchive.Simulator.SectionClocks
import HTWGArchive.Simulator.ReleaseLaw
import HTWGArchive.Aqualife.Broker
import HTWGArchive.Aqualife.System
import HTWGArchive.Aqualife.Registry
import HTWGArchive.Library.Ring
import HTWGArchive.Aqualife.Neighbours
import HTWGArchive.Aqualife.TokenRing
import HTWGArchive.Messaging.Delivery
import HTWGArchive.Aqualife.Assembly
import HTWGArchive.Aqualife.Conservation
import HTWGArchive.Aqualife.HomeAddress
import HTWGArchive.Aqualife.Markers
import HTWGArchive.Library.Interleaving
import HTWGArchive.Library.ReadersWriters
import HTWGArchive.Semaphores.ReaderWriter
import HTWGArchive.Semaphores.ReaderWriterNostarve
import HTWGArchive.PeerToPeerChat.Framing
import HTWGArchive.PeerToPeerChat.RoundTrip
import HTWGArchive.PeerToPeerChat.UserList
import HTWGArchive.PeerToPeerChat.Agreement
import HTWGArchive.Library.LeastFirst
import HTWGArchive.Supermarket.EventList
import HTWGArchive.Supermarket.Agenda
import HTWGArchive.Supermarket.Ledger
import HTWGArchive.Supermarket.Calls
import HTWGArchive.Supermarket.Discipline
import HTWGArchive.Library.EdgeDetector
import HTWGArchive.Debouncer.SyncBuffer
import HTWGArchive.Library.WrappedLcm
import HTWGArchive.Library.UpwardIteration
import HTWGArchive.Library.ShrinkingSelection
import HTWGArchive.Simulator.Hyperperiod
import HTWGArchive.Simulator.DemandTest
import HTWGArchive.Simulator.BlockingTime
import HTWGArchive.Simulator.ResponseTime
import HTWGArchive.Library.TokenRuns
import HTWGArchive.Simulator.TaskTable
import HTWGArchive.Simulator.TaskTableRow
import HTWGArchive.Simulator.TaskTableTriples
import HTWGArchive.Simulator.TaskTableFaithful
import HTWGArchive.Simulator.PlainTick
import HTWGArchive.Simulator.ReactionTimes
import HTWGArchive.Library.LinkedChain
import HTWGArchive.Library.ThreadSums
import HTWGArchive.Simulator.ListRemoval
import HTWGArchive.Dictionary.HashIndex
import HTWGArchive.CopyFile.CopyFile
import HTWGArchive.Socketprogrammierung.Struct
import HTWGArchive.Socketprogrammierung.Calculation
import HTWGArchive.Sloppy.SloppyCounter
import HTWGArchive.Sloppy.Mcqueue
import HTWGArchive.Sloppy.McqueueFifo
import HTWGArchive.Semaphores.Barrier
import HTWGArchive.Aqualife.Leases
import HTWGArchive.PeerToPeerChat.ClientsLock
import HTWGArchive.Supermarket.Placement
import HTWGArchive.Supermarket.Skips
import HTWGArchive.Library.LockedCounter
import HTWGArchive.Library.TicketQueue
import HTWGArchive.X86.Cpu
import HTWGArchive.X86.Processes
import HTWGArchive.X86.Threads
import HTWGArchive.X86.Schedules
import HTWGArchive.X86.Assembler
import HTWGArchive.X86.Programs
import HTWGArchive.X86.SpinLock
import HTWGArchive.X86.SpinPrograms
import HTWGArchive.X86.TicketLock
import HTWGArchive.X86.TicketOrder
import HTWGArchive.X86.Peterson
import HTWGArchive.X86.PetersonExclusion
import HTWGArchive.Library.Monitor
import HTWGArchive.Library.Wakeups
import HTWGArchive.Library.RingBuffer
import HTWGArchive.ConditionVariables.BoundedBuffer
import HTWGArchive.ConditionVariables.BufferInvariant
import HTWGArchive.ConditionVariables.BufferDelivery
import HTWGArchive.ConditionVariables.BufferProgress
import HTWGArchive.Semaphores.Zemaphore
import HTWGArchive.Library.Tiling
import HTWGArchive.Freespace.Malloc
import HTWGArchive.Freespace.MallocSearch
import HTWGArchive.Freespace.MallocTiles
import HTWGArchive.Freespace.MallocMerged
import HTWGArchive.Library.DemandPaging
import HTWGArchive.Library.Recency
import HTWGArchive.Paging.PagingPolicy
import HTWGArchive.Paging.PagingOptimum
import HTWGArchive.Paging.PagingRecency
import HTWGArchive.Library.PageTables
import HTWGArchive.Paging.MultilevelTranslate
import HTWGArchive.Paging.MultilevelTables
import HTWGArchive.Paging.MultilevelRuns
import HTWGArchive.Paging.MultilevelAddresses
import HTWGArchive.Library.StripedParity
import HTWGArchive.Raid.RaidMapping
import HTWGArchive.Raid.RaidParity
import HTWGArchive.Raid.RaidWrites
import HTWGArchive.Library.LockOrder
import HTWGArchive.Bugs.VectorAdd
import HTWGArchive.Bugs.VectorLocks
import HTWGArchive.Bugs.VectorProgress
import HTWGArchive.Bugs.VectorSerial
import HTWGArchive.Bugs.VectorDeadlock
import HTWGArchive.Library.Agenda
import HTWGArchive.Mlfq.MlfqScheduler
import HTWGArchive.Mlfq.MlfqQueues
import HTWGArchive.Mlfq.MlfqTicks
import HTWGArchive.Mlfq.MlfqRuns
import HTWGArchive.Mlfq.MlfqFinish
import HTWGArchive.Mlfq.MlfqPriorities
import HTWGArchive.Library.Sequencing
import HTWGArchive.Scheduling.Policies
import HTWGArchive.Processes.ProcessScheduler
import HTWGArchive.Processes.ProcessInvariant
import HTWGArchive.Processes.ProcessRuns
