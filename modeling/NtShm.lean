import NtShm.ByteMemory
import NtShm.DoublyLinked
import NtShm.Tiling
import NtShm.MemArena
import NtShm.MemWords
import NtShm.MemRepresentation
import NtShm.ChunkLists
import NtShm.MemSteps
import NtShm.MemOperations
import NtShm.MemReallocation
import NtShm.MemRuns
import NtShm.MemWellFormed
import NtShm.MemSeparation
import NtShm.CStrings
import NtShm.MemCreate
import NtShm.PtclFrames
import NtShm.PtclRoundTrip
import NtShm.PtclReads
import NtShm.TaskQueue
import NtShm.TaskQueueInvariant
import NtShm.TaskQueueRuns
import NtShm.Primes
import NtShm.Blocks
import NtShm.Hashmap
import NtShm.Tables
import NtShm.HashmapSlots
import NtShm.HashmapGrowth
import NtShm.Dictionaries
import NtShm.HashmapMaps
import NtShm.HashmapRuns
import NtShm.BinaryHeap
import NtShm.HeapOrder
import NtShm.HeapContents
import NtShm.HeapSifts
import NtShm.HeapOperations
import NtShm.HeapRuns
import NtShm.HeapDirect
import NtShm.HeapDirectRuns
import NtShm.Chains
import NtShm.Hashset
import NtShm.HashsetGrowth
import NtShm.HashsetShapes
import NtShm.HashsetRemovals
import NtShm.HashsetInsertions
import NtShm.HashsetSets
import NtShm.HashsetRuns
import NtShm.HashsetFailures
import NtShm.HashsetKv
import NtShm.TaskQueueSignals
import NtShm.TaskQueueMappings
import NtShm.MemExhaustion
import NtShm.MemContents
import NtShm.MemAccounts
import NtShm.MemBalances
import NtShm.MemStatistics
import NtShm.MemRequired
import NtShm.HashsetIteration
import NtShm.HashsetReleases
import NtShm.Ddl
import NtShm.DdlLists
import NtShm.DdlDeletions
import NtShm.DdlRuns
import NtShm.DdlAppends
import NtShm.Timezone
import NtShm.HashmapStrings
import NtShm.IntPrimes
import NtShm.GrowthArithmetic
import NtShm.Metering
import NtShm.HashmapFailures
import NtShm.Isqrt
import NtShm.IntPrimeRange
import NtShm.SeparatedGroups
import NtShm.Ip4
import NtShm.LogRotation
import NtShm.Locks
import NtShm.SyncQueue
import NtShm.BlockStream
import NtShm.Sha1
import NtShm.UndoSemaphores
import NtShm.LogLocking
import NtShm.TaskQueueProgress
import NtShm.Sha1Streams
import NtShm.LogFiles
import NtShm.NetServer
import NtShm.IteratedHashes
import NtShm.HashFunctions
import NtShm.StringNumbers
import NtShm.MemFunctions
import NtShm.HashsetArena
import NtShm.HashsetArenaRuns
import NtShm.PidFile
