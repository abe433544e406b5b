import FileIndexer.Foundation.Runs
import FileIndexer.Foundation.Inevitable
import FileIndexer.Foundation.Segments
import FileIndexer.Foundation.Rows
import FileIndexer.Foundation.Guarded
import FileIndexer.Foundation.Like
import FileIndexer.Foundation.Utf8
import FileIndexer.Foundation.Paging
import FileIndexer.Foundation.CleanPath
import FileIndexer.Foundation.ReadCommitted
import FileIndexer.Foundation.LockOrder
import FileIndexer.Foundation.Binary64
import FileIndexer.Foundation.Calendar
import FileIndexer.Foundation.Base64
import FileIndexer.Storage.Key
import FileIndexer.Storage.Bucket
import FileIndexer.Storage.Path
import FileIndexer.Storage.Multipart
import FileIndexer.Config
import FileIndexer.Database.Files
import FileIndexer.Database.Directories
import FileIndexer.Database.Store
import FileIndexer.Database.Transactions
import FileIndexer.Database.Isolation
import FileIndexer.Database.IndexQueue
import FileIndexer.Service.Files.Status
import FileIndexer.Service.Files.UploadPartUrl
import FileIndexer.Service.Files.World
import FileIndexer.Service.Files.MoveFile
import FileIndexer.Service.Files.Movers
import FileIndexer.Service.Files.MoveLocks
import FileIndexer.Service.Files.PooledMovers
import FileIndexer.Service.Files.Uploads
import FileIndexer.Service.Files.DeleteFile
import FileIndexer.Service.Files.DeleteDirectory
import FileIndexer.Service.Files.Deleters
import FileIndexer.Service.Files.FilesService
import FileIndexer.Service.Crawler.Crawl
import FileIndexer.Service.Crawler.Sweep
import FileIndexer.Service.Crawler.Reconcile
import FileIndexer.Service.Crawler.Leftovers
import FileIndexer.Service.Files.MoveFailures
import FileIndexer.Service.Crawler.Run
import FileIndexer.Service.Indexer.Results
import FileIndexer.Service.Indexer.Runner
import FileIndexer.Service.Indexer.Backoff
import FileIndexer.Service.Indexer.Freshness
import FileIndexer.Service.Indexer.Preview
import FileIndexer.Service.Indexer.Pool
import FileIndexer.Service.Indexer.Lifecycle
import FileIndexer.Service.Indexer.NoLostWork
import FileIndexer.Service.Indexer.Budget
import FileIndexer.Service.Indexer.Exclusive
import FileIndexer.Service.Indexer.Sources
import FileIndexer.Service.Indexer.TakenAt
import FileIndexer.Service.Search.Cursor
import FileIndexer.Service.Search.ListFiles
import FileIndexer.Service.Search.ContentTypes
import FileIndexer.Service.Search.ListDirectory
import FileIndexer.Service.Search.Browse
import FileIndexer.Service.Search.Tokens
import FileIndexer.Service.Search.SearchDirectories
import FileIndexer.Service.Search.PageTokenWire
import FileIndexer.Service.Search.FileRows
import FileIndexer.Service.Files.PreviewStatus
import FileIndexer.Service.PreviewGc.Gc
import FileIndexer.Service.PreviewGc.UserObjects
import FileIndexer.Service.Indexer.Derived
import FileIndexer.Service.Indexer.Heartbeat
import FileIndexer.Service.Indexer.EmptyClaims
import FileIndexer.Service.Indexer.PreviewDecode
import FileIndexer.Service.Indexer.PreviewRender
import FileIndexer.Service.Indexer.PreviewRows
import FileIndexer.Service.Indexer.Sanitize
import FileIndexer.Service.Indexer.SanitizedText
import FileIndexer.Service.Indexer.Exif
import FileIndexer.Service.Indexer.MergeOutcomes
import FileIndexer.Service.Indexer.ReadBounded
import FileIndexer.Service.Indexer.ExifProcess
import FileIndexer.Service.PreviewGc.Claimed
import FileIndexer.Web.PlanParts
import FileIndexer.Web.UploadPath
import FileIndexer.Web.ChildDirectories
import FileIndexer.Web.ResumableUpload
import FileIndexer.Web.Uploaded
import FileIndexer.Web.UploadBatch
import FileIndexer.Web.FileDto
import FileIndexer.Web.PhotoWall
import FileIndexer.Web.FileStatusPoller
import FileIndexer.Web.FolderTree
import FileIndexer.Web.Navigation
import FileIndexer.Web.DirectoryList
