import BetterBullBoard.Lib.Machine
import BetterBullBoard.Lib.JsMap
import BetterBullBoard.Lib.UniqueIndex
import BetterBullBoard.Lib.Limit
import BetterBullBoard.Lib.JoinedText
import BetterBullBoard.Lib.Slices
import BetterBullBoard.Lib.Redelivery
import BetterBullBoard.Lib.OldestFirst
import BetterBullBoard.Lib.RoundRobin
import BetterBullBoard.Lib.Utf16
import BetterBullBoard.Lib.Grouped
import BetterBullBoard.Lib.WorkerPool
import BetterBullBoard.Lib.JsText
import BetterBullBoard.Lib.DateText
import BetterBullBoard.Lib.RowLocks
import BetterBullBoard.Lib.LockOrder
import BetterBullBoard.Lib.Keyset
import BetterBullBoard.Lib.ExpiringKey
import BetterBullBoard.Lib.JsNumber
import BetterBullBoard.Lib.Stretches
import BetterBullBoard.Lib.Timeouts
import BetterBullBoard.Lib.Endless
import BetterBullBoard.Lib.Promises
import BetterBullBoard.Lib.JsHeap
import BetterBullBoard.Lib.KeysetView
import BetterBullBoard.Lib.SortedRows
import BetterBullBoard.Lib.Wildcard
import BetterBullBoard.Lib.Json
import BetterBullBoard.Lib.Base64
import BetterBullBoard.Job.Schema
import BetterBullBoard.Job.Format
import BetterBullBoard.Job.Upsert
import BetterBullBoard.Job.OneKey
import BetterBullBoard.Job.Batching
import BetterBullBoard.Job.Writers
import BetterBullBoard.Streams.Group
import BetterBullBoard.Streams.Handler
import BetterBullBoard.Streams.StaleConsumers
import BetterBullBoard.Streams.Accounts
import BetterBullBoard.Job.Stream
import BetterBullBoard.Job.ConflictTargets
import BetterBullBoard.Job.Returned
import BetterBullBoard.Job.Widths
import BetterBullBoard.Logs.Schema
import BetterBullBoard.Logs.Persist
import BetterBullBoard.Logs.RunLocks
import BetterBullBoard.Logs.System
import BetterBullBoard.Logs.Invariant
import BetterBullBoard.Logs.ExactlyOnce
import BetterBullBoard.Logs.Wire
import BetterBullBoard.Logs.OwnRows
import BetterBullBoard.Logs.Redelivery
import BetterBullBoard.Logs.Resolver
import BetterBullBoard.Logs.InsertChain
import BetterBullBoard.Logs.InsertTurns
import BetterBullBoard.Logs.InsertProgress
import BetterBullBoard.Streams.Poison
import BetterBullBoard.Client.Cancellation
import BetterBullBoard.Client.Subscription
import BetterBullBoard.Client.Logger
import BetterBullBoard.Client.ConsoleRelay
import BetterBullBoard.Client.Formatting
import BetterBullBoard.Repeats.BullMq
import BetterBullBoard.Repeats.ReconcileJobs
import BetterBullBoard.Repeats.QueueBatches
import BetterBullBoard.Repeats.StaleRows
import BetterBullBoard.Repeats.Repaired
import BetterBullBoard.Repeats.ReconcileQueue
import BetterBullBoard.Repeats.Paging
import BetterBullBoard.Repeats.MissingRows
import BetterBullBoard.Repeats.BindParameters
import BetterBullBoard.Job.System
import BetterBullBoard.Job.NothingLost
import BetterBullBoard.Job.Finished
import BetterBullBoard.Job.Retention
import BetterBullBoard.Job.Wire
import BetterBullBoard.Repeats.JobTags
import BetterBullBoard.Dashboard.Rollups
import BetterBullBoard.Dashboard.Chart
import BetterBullBoard.Dashboard.Filling
import BetterBullBoard.Dashboard.History
import BetterBullBoard.Dashboard.Summary
import BetterBullBoard.Queues.ChangedKeys
import BetterBullBoard.Queues.Schema
import BetterBullBoard.Queues.ChangeDetection
import BetterBullBoard.Queues.Holders
import BetterBullBoard.Queues.Ingest
import BetterBullBoard.Queues.Handler
import BetterBullBoard.Queues.Mirror
import BetterBullBoard.Queues.Races
import BetterBullBoard.Queues.Scan
import BetterBullBoard.WebSocket.Server
import BetterBullBoard.WebSocket.Throttle
import BetterBullBoard.Core.Schemas
import BetterBullBoard.Core.Jobs
import BetterBullBoard.Repeats.TagSearch
import BetterBullBoard.Core.CreatedBoundary
import BetterBullBoard.Core.Queues
import BetterBullBoard.Core.Mutations
import BetterBullBoard.Queues.Control
import BetterBullBoard.Queues.Tracked
import BetterBullBoard.Queues.Recorded
import BetterBullBoard.Core.JobLogs
import BetterBullBoard.Runs.Pages
import BetterBullBoard.Runs.LogPages
import BetterBullBoard.Tables.QueuesTable
import BetterBullBoard.Tables.UrlCursors
import BetterBullBoard.Tables.QueueNames
import BetterBullBoard.Runs.Selection
import BetterBullBoard.Locks.DistributedLock
import BetterBullBoard.Locks.Master
import BetterBullBoard.Mcp.Schema
import BetterBullBoard.Mcp.OAuth
import BetterBullBoard.Mcp.System
import BetterBullBoard.Mcp.Effects
import BetterBullBoard.Mcp.Invariant
import BetterBullBoard.Mcp.Sound
import BetterBullBoard.Mcp.Consent
import BetterBullBoard.Mcp.Redemption
import BetterBullBoard.Mcp.Registration
import BetterBullBoard.Mcp.RedirectUris
