import Lounge.Api.CompressedView
import Lounge.Api.CreateAbsent
import Lounge.Api.FailedWrites
import Lounge.Api.HistoryCap
import Lounge.Api.ReplaceReads
import Lounge.Api.ViewReduce
import Lounge.Bptree.RecordFile
import Lounge.Compress.ZlibStream
import Lounge.Host.CacheOrder
import Lounge.Host.RequestPath
import Lounge.Host.StorageOpen
import Lounge.Pull.PullDelivers
import Lounge.Pull.PullInterleaving
import Lounge.Pull.PullIsolation
import Lounge.Pull.PullMalformed
import Lounge.Pull.PullReplica
import Lounge.Pull.PullSafety
import Lounge.Pull.PullUrls
import Lounge.Pull.UrlEncode
import Lounge.Revgen.IntegerHashes
import Lounge.Revgen.PrintBounds
import Lounge.Revgen.RevFormat
import Lounge.Revgen.RevgenUnambiguous
import Lounge.Storage.BdbRevisions
import Lounge.Storage.DriverHash
import Lounge.Storage.ObjectLayout
import Lounge.Storage.OneStore
import Lounge.Storage.OverlapContract
import Lounge.Storage.SqliteChains
import Lounge.Storage.SqliteRows
import Lounge.Storage.SqliteTransactions
import Lounge.Utils.BufferEdits
import Lounge.Utils.StringJoin
import Lounge.Utils.StringUnhex
