import HorizonNewDawn.Jobs.RetainedJobIndex.PublishedSlot
import HorizonNewDawn.Jobs.RetainedJobIndex.SlotInspection
import HorizonNewDawn.Jobs.RetainedJobIndex.ExactPublication
import HorizonNewDawn.Jobs.RetainedJobIndex.Renewals
import HorizonNewDawn.Program.Ghost
import HorizonNewDawn.Jobs.RetainedJobIndex.Publication
import HorizonNewDawn.Queues.ClearQueue
import HorizonNewDawn.Jobs.Actions.ReleaseDelayedJobNow
import HorizonNewDawn.Jobs.RetainedJobIndex.Paging
import HorizonNewDawn.Jobs.RetainedJobIndex.CatalogValues
import HorizonNewDawn.Queues.QueueBatchesData
import HorizonNewDawn.Jobs.RetainedJobCursor
import HorizonNewDawn.FailedJobs.RetryFailedJob
import HorizonNewDawn.Batches.DatabaseBatchQuery
import HorizonNewDawn.BulkOperations.Coverage
import HorizonNewDawn.BulkOperations.Affected
import HorizonNewDawn.BulkOperations.Expiry
import HorizonNewDawn.Jobs.RetainedJobIndex.Selection
import HorizonNewDawn.Jobs.RetainedJobIndex.Consistency
import HorizonNewDawn.Jobs.RetainedJobIndex.Separation
import HorizonNewDawn.Jobs.RetainedJobIndex.SnapshotRefresh
import HorizonNewDawn.Batches.BatchRepositoryOverview
import HorizonNewDawn.Batches.ClearCandidates
import HorizonNewDawn.Batches.ClearableBatches
import HorizonNewDawn.Batches.DatabaseBatchMetadataSynchronizer
import HorizonNewDawn.Collections.Records
import HorizonNewDawn.Dashboard.ProcessTransitions
import HorizonNewDawn.BulkOperations.Alone
import HorizonNewDawn.FailedJobs.FailedJobsData
import HorizonNewDawn.Collections.Assignments
import HorizonNewDawn.Php.RoundTrip
import HorizonNewDawn.Jobs.Actions.MadeAvailableMetadata
import HorizonNewDawn.Dashboard.SupervisorScaling
import HorizonNewDawn.Collections.Absorption
import HorizonNewDawn.Sync.ConfigDiff
import HorizonNewDawn.Program.Scan
import HorizonNewDawn.Sync.HorizonConfigKeys
import HorizonNewDawn.Collections.Traversal
import HorizonNewDawn.Batches.BatchFailedJobLineages
import HorizonNewDawn.Batches.BatchJobsData
import HorizonNewDawn.Queues.ClearQueueMetadata
import HorizonNewDawn.Collections.Checked
import HorizonNewDawn.Jobs.PendingJobStateIndex
import HorizonNewDawn.Jobs.PendingJobStateIndex.Tags
import HorizonNewDawn.Assets.AssetsPublisher.Replacement
import HorizonNewDawn.Assets.AssetsPublisher.Runs
import HorizonNewDawn.Jobs.RetainedJobIndex.Candidate
import HorizonNewDawn.Jobs.RetainedJobIndex.LiveCandidate
import HorizonNewDawn.Jobs.RetainedJobIndex.PublishedCandidate
import HorizonNewDawn.Jobs.RetainedJobIndex.FilteredPages
import HorizonNewDawn.Jobs.RetainedJobIndex.ScoredIds
import HorizonNewDawn.Collections.Merging
import HorizonNewDawn.Collections.LeadAndRest
import HorizonNewDawn.Jobs.RetainedJobQuery
import HorizonNewDawn.Jobs.RetainedJobQuery.PendingRest
import HorizonNewDawn.Jobs.RetainedJobQuery.DelayedPages
import HorizonNewDawn.Php.PrettyJson
import HorizonNewDawn.Support.ComposerAssetHook
import HorizonNewDawn.Support.ComposerAssetHook.Document
import HorizonNewDawn.Jobs.RetainedJobIndex.Archive
import HorizonNewDawn.Program.Reread
import HorizonNewDawn.Jobs.RetainedJobQuery.Published
import HorizonNewDawn.Queues.QueueJobsData
