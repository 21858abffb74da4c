import Minnal.Db.BucketCount
import Minnal.Db.CommitProgress
import Minnal.Db.IndexActivation
import Minnal.Db.IndexRepair
import Minnal.Db.NamespaceFailures
import Minnal.Db.NoWalMarkers
import Minnal.Db.VectorWalSurvivors
import Minnal.Db.WalGc
import Minnal.Db.WriteProgress
import Minnal.DocStore.ReindexResume
import Minnal.DocStore.RequestCompletion
import Minnal.DocStore.SchemaChanges
import Minnal.DocStore.TypedScans
import Minnal.Index.BitmapSets
import Minnal.Index.BlobAccounting
import Minnal.Index.CompactionSwap
import Minnal.Index.Directories
import Minnal.Index.FileBitmap
import Minnal.Index.VectorKernels
import Minnal.Lsm.KeyCompare
import Minnal.Lsm.RoundTrip
import Minnal.Lsm.SeekingCursors
import Minnal.Lsm.WholeRun
import Minnal.Query.Printing
import Minnal.Vector.BulkReindex
import Minnal.Vector.Chunking
import Minnal.Vector.LosslessSearch
import Minnal.Vector.StoredRoundTrips
import Minnal.Vector.TwoPassSearch
import Minnal.Wal.MetadataFile
import Minnal.Wal.RangeReads
import Minnal.Wal.SavedProgress
