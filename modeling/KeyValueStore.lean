import KeyValueStore.Memory
import KeyValueStore.DoublyLinked
import KeyValueStore.FileBackedBuffer
import KeyValueStore.Execution
import KeyValueStore.Layout
import KeyValueStore.ListRoutines
import KeyValueStore.FreeList
import KeyValueStore.Free
import KeyValueStore.Alloc
import KeyValueStore.CleanLinks
import KeyValueStore.BufferSpec
import KeyValueStore.Client
import KeyValueStore.CString
import KeyValueStore.Grid
import KeyValueStore.Contract
import KeyValueStore.FileBuffer
import KeyValueStore.HashTable
import KeyValueStore.History
import KeyValueStore.NoStaleSplit
import KeyValueStore.SinglyLinked
import KeyValueStore.Entries
import KeyValueStore.Records
import KeyValueStore.Table
import KeyValueStore.Sequential
import KeyValueStore.Reload
import KeyValueStore.Shutdown
import KeyValueStore.CrashPut
import KeyValueStore.Interference
import KeyValueStore.Concurrent
import KeyValueStore.References
import KeyValueStore.Firing
import KeyValueStore.GuardedRuns
import KeyValueStore.Ownership
import KeyValueStore.Reclamation
import KeyValueStore.Opened
import KeyValueStore.InitCrash
import KeyValueStore.Published
import KeyValueStore.Search
import KeyValueStore.Linearizable
import KeyValueStore.Durability
import KeyValueStore.Linearization
import KeyValueStore.AtomicMap
import KeyValueStore.EqualSizes
import KeyValueStore.Ranking
import KeyValueStore.Progress
import KeyValueStore.Rest
import KeyValueStore.Alone
import KeyValueStore.HappensBefore
import KeyValueStore.Trace
import KeyValueStore.PutsOnce
import KeyValueStore.Knowledge
import KeyValueStore.DataRaces
import KeyValueStore.Accounting
import KeyValueStore.Effects
import KeyValueStore.Spans
import KeyValueStore.Coalescing
import KeyValueStore.BufferCrash
import KeyValueStore.LaterAllocs
import KeyValueStore.CrashPrefixes
import KeyValueStore.Codec
import KeyValueStore.MachineInt
import KeyValueStore.Constructor
import KeyValueStore.Image
import KeyValueStore.Diagram
import KeyValueStore.Binary32
import KeyValueStore.Dimensions
import KeyValueStore.Stats
import KeyValueStore.TableStats
