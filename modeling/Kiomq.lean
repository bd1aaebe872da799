import Kiomq.Foundations.OrderedMap
import Kiomq.Foundations.Runs
import Kiomq.Foundations.Ledger
import Kiomq.Foundations.Parties
import Kiomq.Foundations.Tickets
import Kiomq.Foundations.Lowercase
import Kiomq.Foundations.Ticks
import Kiomq.Foundations.SaveRestore
import Kiomq.Foundations.Decimal
import Kiomq.Foundations.Json
import Kiomq.Foundations.Records
import Kiomq.Foundations.Recency
import Kiomq.Foundations.Pages
import Kiomq.Foundations.StableQueue
import Kiomq.Foundations.Expiring
import Kiomq.Foundations.Rekeying
import Kiomq.Foundations.Programs
import Kiomq.Foundations.Journals
import Kiomq.Foundations.Potential
import Kiomq.Jobs.Schedule
import Kiomq.Jobs.Job
import Kiomq.Stores.Collections
import Kiomq.Stores.Tags
import Kiomq.Stores.ConcurrentDeque
import Kiomq.Stores.WrappingDeque
import Kiomq.Stores.TimedMap
import Kiomq.Stores.TimedRuns
import Kiomq.Stores.TaggedMaps
import Kiomq.Stores.InMemory
import Kiomq.Stores.Insertion
import Kiomq.Stores.Holdings
import Kiomq.Stores.PauseOrder
import Kiomq.Stores.PriorityOrder
import Kiomq.Stores.DelayedWindows
import Kiomq.Stores.MetricsLifetime
import Kiomq.Queue.Metrics
import Kiomq.Queue.Queue
import Kiomq.Queue.Frames
import Kiomq.Timers.Collector
import Kiomq.Timers.Registration
import Kiomq.Timers.Promotion
import Kiomq.Timers.Delivery
import Kiomq.Timers.Periodic
import Kiomq.Worker.ProcessJob
import Kiomq.Queue.Custody
import Kiomq.Queue.Transitions
import Kiomq.Worker.FollowUp
import Kiomq.Queue.System
import Kiomq.Queue.SingleHolder
import Kiomq.Queue.PauseSafety
import Kiomq.Queue.Placement
import Kiomq.Queue.Progress
import Kiomq.Stores.Membership
import Kiomq.Stores.Removal
import Kiomq.Queue.FailedDispatch
import Kiomq.Queue.Finishing
import Kiomq.Queue.CountRetention
import Kiomq.Queue.AgeRetention
import Kiomq.Queue.BackOffDeadlines
import Kiomq.Queue.CachedMetrics
import Kiomq.Worker.Verdict
import Kiomq.Worker.Release
import Kiomq.Worker.Retention
import Kiomq.Worker.Repetition
import Kiomq.Worker.Concurrency
import Kiomq.Queue.StateAgreement
import Kiomq.Queue.Tally
import Kiomq.Queue.Completion
import Kiomq.Queue.BatchFailure
import Kiomq.Queue.LockOwnership
import Kiomq.Queue.Stalled
import Kiomq.Stores.Paging
import Kiomq.Timers.LockRenewal
import Kiomq.Timers.Lifecycle
import Kiomq.Interleavings.FreshJob
import Kiomq.Interleavings.IdAllocation
import Kiomq.Interleavings.ProcessingCount
import Kiomq.Interleavings.WakeUp
import Kiomq.Interleavings.DequeCalls
import Kiomq.Interleavings.FailedPops
import Kiomq.Interleavings.StaleReader
import Kiomq.Interleavings.LockExtension
import Kiomq.Interleavings.WorkerLifecycle
import Kiomq.Interleavings.WorkerClosing
import Kiomq.Interleavings.PanicHooks
import Kiomq.Redis.Server
import Kiomq.Redis.Ranges
import Kiomq.Redis.Insertion
import Kiomq.Redis.Counters
import Kiomq.Redis.Layout
import Kiomq.Redis.Isolation
import Kiomq.Redis.Pause
import Kiomq.Redis.Listing
import Kiomq.Redis.DelayedSets
import Kiomq.Redis.Clients
import Kiomq.Redis.Metrics
import Kiomq.Redis.EventMode
import Kiomq.Redis.StreamEvents
import Kiomq.Queue.EventLog
import Kiomq.Redis.Obliteration
import Kiomq.Redis.JobRecord
import Kiomq.Redis.AddReport
import Kiomq.Redis.JobUpdates
import Kiomq.Redis.Lookup
import Kiomq.Stores.Interface
import Kiomq.Queue.Generic
import Kiomq.Queue.Fleet
import Kiomq.Redis.Keyspace
import Kiomq.Redis.Store
import Kiomq.Redis.Mirror
import Kiomq.Redis.MirroredReads
import Kiomq.Redis.Simulation
import Kiomq.Redis.FirstBatch
import Kiomq.Redis.Workers
import Kiomq.Redis.KeyTypes
