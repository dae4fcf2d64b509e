import HangfireStorage.Machine
import HangfireStorage.Loops
import HangfireStorage.Lease
import HangfireStorage.Table
import HangfireStorage.Query
import HangfireStorage.KeyedSums
import HangfireStorage.Shelves
import HangfireStorage.FiniteMaps
import HangfireStorage.Primitives
import HangfireStorage.Entities
import HangfireStorage.Serialization
import HangfireStorage.SqlUtil
import HangfireStorage.JobQueue
import HangfireStorage.WriteOnlyTransaction
import HangfireStorage.CountersAggregator
import HangfireStorage.ExpirationManager
import HangfireStorage.DistributedLock
import HangfireStorage.LockScope
import HangfireStorage.JobStorageConnection
import HangfireStorage.JobEffects
import HangfireStorage.StorageSystem
import HangfireStorage.StepEffects
import HangfireStorage.QueueEffects
import HangfireStorage.QueueExclusion
import HangfireStorage.NoJobLost
import HangfireStorage.QueueReferences
import HangfireStorage.LockExclusion
import HangfireStorage.ListTrim
import HangfireStorage.JobCleanup
import HangfireStorage.CleanupRaces
import HangfireStorage.CounterTally
import HangfireStorage.AggregationSystem
import HangfireStorage.CounterConservation
import HangfireStorage.CounterReads
import HangfireStorage.StateReadback
import HangfireStorage.Collections
import HangfireStorage.CollectionEffects
import HangfireStorage.CollectionReads
import HangfireStorage.KeyIsolation
import HangfireStorage.UniformExpiry
import HangfireStorage.SetRange
import HangfireStorage.LowestScore
import HangfireStorage.RangeReads
import HangfireStorage.AggregationLoop
import HangfireStorage.BatchedDeletion
import HangfireStorage.UpsertStores
import HangfireStorage.UpsertRuns
import HangfireStorage.MonitoringApi
import HangfireStorage.CounterArithmetic
import HangfireStorage.JobHistory
import HangfireStorage.QueuePages
import HangfireStorage.Dequeue
import HangfireStorage.StorageOptions
import HangfireStorage.OptionRanges
import HangfireStorage.LockWait
import HangfireStorage.QueueProviders
import HangfireStorage.ExpirationExecute
import HangfireStorage.ExpiredRows
import HangfireStorage.ExecuteSteps
import HangfireStorage.ExecuteProgress
import HangfireStorage.ExpiredDrain
import HangfireStorage.Lifespans
import HangfireStorage.Servers
import HangfireStorage.ServerRuns
import HangfireStorage.Calendar
import HangfireStorage.Timelines
import HangfireStorage.JobData
import HangfireStorage.StatePages
import HangfireStorage.TimedCache
import HangfireStorage.QueuesCache
import HangfireStorage.UniqueColumns
import HangfireStorage.SchemaInvariant
import HangfireStorage.JobIdTexts
import HangfireStorage.Deliveries
import HangfireStorage.QueueProgress
import HangfireStorage.Cancellation
import HangfireStorage.LastingCollections
import HangfireStorage.Statistics
import HangfireStorage.LeaseClocks
import HangfireStorage.ServerClocks
import HangfireStorage.LastingJobs
import HangfireStorage.JobFiles
import HangfireStorage.LastingRows
import HangfireStorage.LockDecisions
import HangfireStorage.ScheduledSets
import HangfireStorage.TimedOutServers
import HangfireStorage.LeaseRecovery
import HangfireStorage.QueuesOverview
import HangfireStorage.Pools
import HangfireStorage.Processes
import HangfireStorage.ProcessEffects
import HangfireStorage.ProcessRuns
import HangfireStorage.ExecuteAlone
import HangfireStorage.LockSections
