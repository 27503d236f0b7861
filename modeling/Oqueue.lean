import Oqueue.Index.Reachable
import Oqueue.Index.Counts
import Oqueue.Coordinator.Replay
import Oqueue.Coordinator.ExactlyOnce
import Oqueue.Coordinator.ServingIndex
import Oqueue.Broker.Numbering
import Oqueue.Broker.GapFree
import Oqueue.Broker.RetentionIndex
import Oqueue.Broker.RetentionSetting
import Oqueue.Broker.LifecycleLock
import Oqueue.Broker.Earliest
import Oqueue.Broker.Tiers
import Oqueue.Broker.OffsetAnswers
import Oqueue.Lease.Exclusion
import Oqueue.Log.Durable
import Oqueue.Compact.Deletion
import Oqueue.Compact.Install
import Oqueue.Core.BundleStream
import Oqueue.Core.EpochOrder
import Oqueue.Group.SyncBarrier
import Oqueue.Group.JoinFormed
import Oqueue.Group.JoinLock
import Oqueue.Group.JoinAnswers
import Oqueue.Group.JoinProgress
import Oqueue.Broker.ProduceAnswers
import Oqueue.Index.Lookup
import Oqueue.Core.RangeMerge
import Oqueue.Core.Nonce
import Oqueue.Coordinator.Isolation
import Oqueue.Index.Applier
import Oqueue.Group.Appending
import Oqueue.Compact.Lossless
import Oqueue.Compact.RoundMerged
import Oqueue.Compact.ExpiryRuns
import Oqueue.Broker.Resolved
import Oqueue.Group.FencedCommits
import Oqueue.Library.Trailer
import Oqueue.Core.ManifestFormat
import Oqueue.Core.Composite
import Oqueue.Group.Election
import Oqueue.Group.Replayed
import Oqueue.Broker.Pipeline
import Oqueue.Broker.PipelineEnds
import Oqueue.Broker.Gated
import Oqueue.Broker.ReadYourWrites
import Oqueue.Log.Newest
import Oqueue.Broker.CatalogPages
import Oqueue.Broker.CatalogLinear
import Oqueue.Broker.CatalogReached
import Oqueue.Broker.IngestExact
import Oqueue.Core.Admissions
import Oqueue.Core.SingleFlightRuns
import Oqueue.Broker.Rereads
import Oqueue.Broker.ProducerIds
import Oqueue.Broker.TrimReleases
import Oqueue.Compact.TopicRounds
import Oqueue.Coordinator.Eviction
import Oqueue.Codec.Flex
import Oqueue.Crypto.DekRotation
import Oqueue.Crypto.UnwrapUses
import Oqueue.Broker.TopicAnswers
