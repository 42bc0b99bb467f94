import ForwardProxy.Datastore.ConfigSpecStore
import ForwardProxy.Datastore.ConfigSpecStoreTheorems
import ForwardProxy.Datastore.DataProvider
import ForwardProxy.Datastore.DeltaAssemblyTheorems
import ForwardProxy.Datastore.DeltasStore
import ForwardProxy.Datastore.DeltasStoreTheorems
import ForwardProxy.Datastore.ExposureKeyTheorems
import ForwardProxy.Datastore.ForegroundFetch
import ForwardProxy.Datastore.GetIdListStore
import ForwardProxy.Datastore.GetIdListStoreTheorems
import ForwardProxy.Datastore.IdListFileStore
import ForwardProxy.Datastore.IdListFileStoreTheorems
import ForwardProxy.Datastore.LogEventStore
import ForwardProxy.Datastore.LogEventStoreTheorems
import ForwardProxy.Datastore.PollSchedule
import ForwardProxy.Datastore.PollScheduleTheorems
import ForwardProxy.Datastore.RedisAuth
import ForwardProxy.Datastore.RedisAuthTheorems
import ForwardProxy.Datastore.RedisCache
import ForwardProxy.Datastore.RedisCacheTheorems
import ForwardProxy.Datastore.RequestBackoff
import ForwardProxy.Datastore.RequestBackoffTheorems
import ForwardProxy.Datastore.RequestContext
import ForwardProxy.Datastore.SdkKeyStore
import ForwardProxy.Datastore.StreamingExecutor
import ForwardProxy.Effect.Broadcast
import ForwardProxy.Effect.Interference
import ForwardProxy.Effect.Interleave
import ForwardProxy.Effect.PartitionedDiff
import ForwardProxy.Effect.Prog
import ForwardProxy.Effect.Protocol
import ForwardProxy.Effect.Recording
import ForwardProxy.Effect.Returns
import ForwardProxy.Effect.Watch
import ForwardProxy.Effect.Wp
import ForwardProxy.IdList.CheckpointTheorems
import ForwardProxy.IdList.ConvergenceTheorems
import ForwardProxy.IdList.DecoderTheorems
import ForwardProxy.IdList.Dictionary
import ForwardProxy.IdList.DictionaryTheorems
import ForwardProxy.IdList.DiffOutcomeTheorems
import ForwardProxy.IdList.Download
import ForwardProxy.IdList.DownloadTheorems
import ForwardProxy.IdList.FileStreamTheorems
import ForwardProxy.IdList.HistoryTheorems
import ForwardProxy.IdList.IndexInvariant
import ForwardProxy.IdList.IndexModeTheorems
import ForwardProxy.IdList.KeySchema
import ForwardProxy.IdList.KeySchemaTheorems
import ForwardProxy.IdList.ListView
import ForwardProxy.IdList.ListViewTheorems
import ForwardProxy.IdList.LocalityTheorems
import ForwardProxy.IdList.ManifestTheorems
import ForwardProxy.IdList.Membership
import ForwardProxy.IdList.Parser
import ForwardProxy.IdList.ParserTheorems
import ForwardProxy.IdList.PartitionCursorTheorems
import ForwardProxy.IdList.PendingTtlTheorems
import ForwardProxy.IdList.Planning
import ForwardProxy.IdList.PlanningTheorems
import ForwardProxy.IdList.Producer
import ForwardProxy.IdList.ProducerTheorems
import ForwardProxy.IdList.Redis
import ForwardProxy.IdList.ReentryTheorems
import ForwardProxy.IdList.RegistryTheorems
import ForwardProxy.IdList.ReloadTheorems
import ForwardProxy.IdList.RemovalOutcomeTheorems
import ForwardProxy.IdList.RemoveTheorems
import ForwardProxy.IdList.Resolver
import ForwardProxy.IdList.ResolverTheorems
import ForwardProxy.IdList.ResumeTheorems
import ForwardProxy.IdList.ReverseToken
import ForwardProxy.IdList.ReverseTokenTheorems
import ForwardProxy.IdList.RollbackTheorems
import ForwardProxy.IdList.RotationTheorems
import ForwardProxy.IdList.Schema
import ForwardProxy.IdList.SchemaTheorems
import ForwardProxy.IdList.Script
import ForwardProxy.IdList.StaleRemovalTheorems
import ForwardProxy.IdList.StreamedDiffTheorems
import ForwardProxy.IdList.TaskLocalityTheorems
import ForwardProxy.IdList.TaskOrderTheorems
import ForwardProxy.IdList.TaskTheorems
import ForwardProxy.IdList.TornTaskTheorems
import ForwardProxy.IdList.TtlTheorems
import ForwardProxy.IdList.UnionOrderTheorems
import ForwardProxy.IdList.WorkLease
import ForwardProxy.IdList.WorkLeaseTheorems
import ForwardProxy.IdList.WorkLock
import ForwardProxy.IdList.WorkLockTheorems
import ForwardProxy.IdList.Worker
import ForwardProxy.Order.IntervalChain
import ForwardProxy.Order.PairwiseChoice
import ForwardProxy.Order.Retention
import ForwardProxy.Servers.BlobPollingTheorems
import ForwardProxy.Servers.BlobRequest
import ForwardProxy.Servers.BlobRequestTheorems
import ForwardProxy.Servers.ConfigChain
import ForwardProxy.Servers.ConfigChainTheorems
import ForwardProxy.Servers.ConfigRequest
import ForwardProxy.Servers.ConfigRequestTheorems
import ForwardProxy.Servers.GrpcStream
import ForwardProxy.Servers.GrpcStreamTheorems
import ForwardProxy.Servers.HttpServer
import ForwardProxy.Servers.LayeredProxy
import ForwardProxy.Servers.LayeredProxyTheorems
import ForwardProxy.Servers.RequestIdentity
import ForwardProxy.Servers.RequestIdentityTheorems
import ForwardProxy.Servers.SdkKeyNormalizer
import ForwardProxy.Servers.SdkKeyNormalizerTheorems
import ForwardProxy.Servers.StreamLimit
import ForwardProxy.Servers.UserEnrichment
import ForwardProxy.Servers.UserEnrichmentTheorems
import ForwardProxy.Text.Glob
import ForwardProxy.Text.Quoted
import ForwardProxy.Text.Replace
import ForwardProxy.Text.Split
import ForwardProxy.Time.Duration
import ForwardProxy.Time.Pacing
