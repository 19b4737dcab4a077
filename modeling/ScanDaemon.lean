import ScanDaemon.Library.System
import ScanDaemon.Library.Machine
import ScanDaemon.Common.Types
import ScanDaemon.Concurrency.JobQueue
import ScanDaemon.Daemon.Scheduler
import ScanDaemon.Scan.MultiScanner
import ScanDaemon.Scan.Manager
import ScanDaemon.Export.ExportManager
import ScanDaemon.Lifecycle.Dispatch
import ScanDaemon.Lifecycle.Outcome
import ScanDaemon.Lifecycle.Roots
import ScanDaemon.Lifecycle.Delivery
import ScanDaemon.Lifecycle.Exclusion
import ScanDaemon.Lifecycle.Order
import ScanDaemon.Lifecycle.Exports
import ScanDaemon.Lifecycle.Serial
import ScanDaemon.Lifecycle.Cancel
import ScanDaemon.Lifecycle.Waiting
import ScanDaemon.Concurrency.Monitor
import ScanDaemon.Traversal.Complete
import ScanDaemon.Traversal.Completion
import ScanDaemon.Traversal.Shutdown
import ScanDaemon.Traversal.Released
import ScanDaemon.Traversal.QueueWaits
import ScanDaemon.Traversal.Wakeups
import ScanDaemon.Traversal.Depth
import ScanDaemon.Pipeline.Index
import ScanDaemon.Export.Exported
import ScanDaemon.Export.Reported
import ScanDaemon.Export.Baseline
import ScanDaemon.Export.Counts
import ScanDaemon.Export.Batches
import ScanDaemon.Export.Restart
import ScanDaemon.Lifecycle.Backlog
import ScanDaemon.Lifecycle.Slots
import ScanDaemon.Concurrency.Accesses
import ScanDaemon.Concurrency.ThreadPool
import ScanDaemon.Scan.Paths
import ScanDaemon.Daemon.HttpServer
import ScanDaemon.Daemon.Responses
import ScanDaemon.Daemon.Overlap
import ScanDaemon.Database.MarkDeleted
import ScanDaemon.Database.ExtensionSummary
import ScanDaemon.Daemon.DiffPages
import ScanDaemon.Daemon.Connections
import ScanDaemon.Concurrency.AsyncLogger
import ScanDaemon.Daemon.Pages
import ScanDaemon.Daemon.PercentCoding
import ScanDaemon.Daemon.Search
import ScanDaemon.Daemon.Writing
import ScanDaemon.Database.CommonParent
import ScanDaemon.Lifecycle.QueueFull
import ScanDaemon.Utils.ConfigNumbers
import ScanDaemon.Daemon.Commands
import ScanDaemon.Export.Crashes
import ScanDaemon.Export.Archive
