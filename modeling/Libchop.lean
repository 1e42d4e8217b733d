import Libchop.Tree.Termination
import Libchop.Tree.Shape
import Libchop.Tree.Failures
import Libchop.Tree.Malformed
import Libchop.Tree.Resume
import Libchop.Chopper.SlidingWindow
import Libchop.Framework.WindowSplit
import Libchop.Chopper.Fingerprint
import Libchop.Chopper.AnchorBased
import Libchop.Chopper.Locality
import Libchop.Chopper.RollingFingerprint
import Libchop.Backup.Pipeline
import Libchop.Backup.PipelineRoundTrip
import Libchop.Framework.Sexp
import Libchop.Backup.Directory
import Libchop.Backup.Changes
import Libchop.Backup.ScopedChanges
import Libchop.Backup.Verify
import Libchop.Backup.FileTree
import Libchop.Backup.Recursive
import Libchop.Backup.RecursiveSteps
import Libchop.Backup.DirectRecursion
import Libchop.Backup.Versions
import Libchop.Backup.Restore
import Libchop.Backup.RestoreRoundTrip
import Libchop.Indexer.Base32
import Libchop.Indexer.BlockIndexer
import Libchop.Indexer.ContentStore
import Libchop.Indexer.IndexTuple
import Libchop.Indexer.Integrity
import Libchop.Indexer.BinaryHandles
import Libchop.Indexer.FieldBounds
import Libchop.Indexer.HandleSize
import Libchop.Indexer.NameBound
import Libchop.Indexer.IntegerCounter
import Libchop.Indexer.BlocksExist
import Libchop.Store.BlockMap
import Libchop.Store.BerkeleyDb
import Libchop.Store.FsStore
import Libchop.Store.FsIterator
import Libchop.Store.FsRuns
import Libchop.Store.SmartStore
import Libchop.Store.StatStore
import Libchop.Store.GenericDb
import Libchop.Utils.StoreConvert
import Libchop.Backup.RecentBackups
import Libchop.Backup.Log
import Libchop.Utils.ArchiverIntegrity
import Libchop.Utils.Deduplication
import Libchop.Utils.ShowSimilarities
import Libchop.Store.ReadAgreement
import Libchop.Server.BlockServer
import Libchop.Server.Agreement
import Libchop.Server.Replies
import Libchop.Rpc.TlsWrite
import Libchop.Rpc.ClientCalls
import Libchop.Objects.Copy
import Libchop.Buffer.PoolRuns
import Libchop.Filter.FilteredStore
import Libchop.Filter.StreamChunking
import Libchop.Filter.StoreIsolation
import Libchop.Filter.ThroughTermination
import Libchop.Filter.Fifo
import Libchop.Filter.LzoRoundTrip
import Libchop.Filter.LzoUnzipSize
import Libchop.Indexer.RejectedBlocks
import Libchop.Indexer.KeyDerivation
import Libchop.Indexer.Base32Decoder
import Libchop.Store.BlockFileNames
import Libchop.Indexer.HexString
import Libchop.Chopper.FileStream
import Libchop.Filter.EmptyPull
import Libchop.Filter.LzoPush
