import SqliteRemote.Rows
import SqliteRemote.History
import SqliteRemote.StoreContract
import SqliteRemote.MemoryStore
import SqliteRemote.MemoryRecord
import SqliteRemote.MemoryInvariant
import SqliteRemote.MemoryFencing
import SqliteRemote.MemoryVersions
import SqliteRemote.MemoryCatchUp
import SqliteRemote.MemoryDeletion
import SqliteRemote.ConnectionFrames
import SqliteRemote.ConnectionHandler
import SqliteRemote.CommitParts
import SqliteRemote.RowLocking
import SqliteRemote.PostgresTables
import SqliteRemote.PostgresStore
import SqliteRemote.PostgresRows
import SqliteRemote.PostgresSteps
import SqliteRemote.PostgresRefinement
import SqliteRemote.PostgresCatchUp
import SqliteRemote.PostgresWidths
import SqliteRemote.PostgresSerial
import SqliteRemote.PostgresSlots
import SqliteRemote.BlockFiles
import SqliteRemote.MemoryContent
import SqliteRemote.MemorySubjects
import SqliteRemote.Holders
import SqliteRemote.Server
import SqliteRemote.ConnectionActs
import SqliteRemote.ServerRuns
import SqliteRemote.OwnLease
import SqliteRemote.LeaseRegistry
import SqliteRemote.FetchSnapshot
import SqliteRemote.PostgresRelease
import SqliteRemote.MemoryLeases
import SqliteRemote.PingingLease
import SqliteRemote.Login
import SqliteRemote.CompletedLogin
import SqliteRemote.Answers
import SqliteRemote.FetchReassembly
import SqliteRemote.FrameSizes
import SqliteRemote.VanishedDatabases
import SqliteRemote.PageSizes
import SqliteRemote.MemoryChangeLog
import SqliteRemote.UnusedSweep
import SqliteRemote.ExpectedRows
import SqliteRemote.PostgresErrors
import SqliteRemote.LockOrder
import SqliteRemote.PostgresDeadlock
import SqliteRemote.Framing
import SqliteRemote.Transcript
import SqliteRemote.AdvertisedLimits
import SqliteRemote.CacheControl
import SqliteRemote.KeySet
import SqliteRemote.KeySetRuns
import SqliteRemote.FetchLengths
import SqliteRemote.BlockMigration
import SqliteRemote.LockedRows
import SqliteRemote.PostgresBlocks
import SqliteRemote.PostgresRecords
import SqliteRemote.PostgresVersions
import SqliteRemote.RevokedLeases
import SqliteRemote.PostgresFencing
