import MatrycaPlumber.Text.Lines
import MatrycaPlumber.Text.NonblankLines
import MatrycaPlumber.Graph.GlobalFenceScanner
import MatrycaPlumber.Graph.FenceExactness
import MatrycaPlumber.Graph.MarkdownBlocks
import MatrycaPlumber.Graph.ReparentBlocks
import MatrycaPlumber.Graph.ReparentLayout
import MatrycaPlumber.Graph.ReparentLines
import MatrycaPlumber.Graph.SplitLargeBlocks
import MatrycaPlumber.Text.Pieces
import MatrycaPlumber.Graph.SplitProvenance
import MatrycaPlumber.Graph.SplitInvariant
import MatrycaPlumber.Graph.SplitPreservation
import MatrycaPlumber.Graph.SplitPage
import MatrycaPlumber.System.EffectLog
import MatrycaPlumber.System.Transition
import MatrycaPlumber.Graph.PageFiles
import MatrycaPlumber.Graph.PageMutation
import MatrycaPlumber.Graph.LostUpdates
import MatrycaPlumber.Agent.MarpaFramework
import MatrycaPlumber.Agent.OutlineModels
import MatrycaPlumber.Agent.OutlineWrite
import MatrycaPlumber.Agent.OutlineCommits
import MatrycaPlumber.Graph.LogseqUuid
import MatrycaPlumber.Agent.DaemonCycle
import MatrycaPlumber.Agent.SettledContent
import MatrycaPlumber.Agent.AutoSplit
import MatrycaPlumber.Agent.SplitConservation
import MatrycaPlumber.Agent.DaemonCheckpoint
import MatrycaPlumber.System.Dict
import MatrycaPlumber.Graph.MasterCatalog
import MatrycaPlumber.Graph.CatalogThreads
import MatrycaPlumber.Graph.CatalogWriters
import MatrycaPlumber.Graph.AstCache
import MatrycaPlumber.Graph.AstDeltas
import MatrycaPlumber.System.OrderedCache
import MatrycaPlumber.Graph.Bm25Corpus
import MatrycaPlumber.Graph.Bm25Documents
import MatrycaPlumber.Graph.FileSignature
import MatrycaPlumber.Graph.Bm25Cache
import MatrycaPlumber.Graph.Bm25Queries
import MatrycaPlumber.Graph.AliasIndex
import MatrycaPlumber.Graph.AliasOwnership
import MatrycaPlumber.System.FirstClaim
import MatrycaPlumber.Graph.AliasPatch
import MatrycaPlumber.Graph.AliasCache
import MatrycaPlumber.Graph.CacheSteps
import MatrycaPlumber.Graph.SignatureHits
import MatrycaPlumber.Graph.CacheKinds
import MatrycaPlumber.Text.LineSearch
import MatrycaPlumber.Graph.SemanticIndex
import MatrycaPlumber.Graph.IndexTags
import MatrycaPlumber.Graph.IndexDecoding
import MatrycaPlumber.Graph.IndexDomain
import MatrycaPlumber.Graph.IndexRoundTrip
import MatrycaPlumber.Graph.LinkRegistry
import MatrycaPlumber.Graph.LinkBatches
import MatrycaPlumber.System.ReentrantLock
import MatrycaPlumber.Graph.PageWriteLock
import MatrycaPlumber.Graph.PageLockExclusion
import MatrycaPlumber.Agent.SemanticCache
import MatrycaPlumber.Shadow.RuntimeState
import MatrycaPlumber.Shadow.DeferredSyncs
import MatrycaPlumber.Shadow.PageRows
import MatrycaPlumber.Shadow.SyncRuns
import MatrycaPlumber.Shadow.SyncOrder
import MatrycaPlumber.Shadow.PageCounts
import MatrycaPlumber.Text.Sections
import MatrycaPlumber.Agent.BacklinkBackpropagator
import MatrycaPlumber.Text.Stripping
import MatrycaPlumber.Agent.BacklinkSections
import MatrycaPlumber.Agent.BacklinkRefresh
import MatrycaPlumber.Agent.BacklinkRuns
import MatrycaPlumber.Agent.BacklinkReading
import MatrycaPlumber.Agent.BacklinkRefresh
import MatrycaPlumber.Agent.BacklinkRuns
import MatrycaPlumber.Agent.BacklinkReading
import MatrycaPlumber.Agent.BacklinkRuns
import MatrycaPlumber.Agent.BacklinkReading
import MatrycaPlumber.Agent.BacklinkUpsert
import MatrycaPlumber.System.Forest
import MatrycaPlumber.Graph.SessionTopologyModels
import MatrycaPlumber.Agent.SplitAbort
import MatrycaPlumber.Agent.DaemonProcessLock
import MatrycaPlumber.Agent.DaemonLockExclusion
import MatrycaPlumber.System.RecursiveQuery
import MatrycaPlumber.Text.Decimal
import MatrycaPlumber.Shadow.Subtree
import MatrycaPlumber.Shadow.SubtreeOrder
import MatrycaPlumber.Shadow.SubtreeLimits
import MatrycaPlumber.System.Linearization
import MatrycaPlumber.Semantic.BlockVectorStore
import MatrycaPlumber.Semantic.VectorStoreOrder
import MatrycaPlumber.Agent.StaleInsertion
import MatrycaPlumber.Text.Json
import MatrycaPlumber.Text.JsonText
import MatrycaPlumber.Text.JsonDocument
import MatrycaPlumber.Text.JsonDocument
import MatrycaPlumber.Text.Substitution
import MatrycaPlumber.Utils.JsonRepair
import MatrycaPlumber.Utils.JsonRepair
import MatrycaPlumber.Utils.JsonRepairPasses
import MatrycaPlumber.Utils.JsonRepairValid
import MatrycaPlumber.Utils.JsonRepairValid
import MatrycaPlumber.Text.JsonPrint
import MatrycaPlumber.Memory.EvidenceModels
import MatrycaPlumber.Graph.PropertyPlacement
import MatrycaPlumber.Agent.AdditiveCorrections
import MatrycaPlumber.Agent.AdditiveCorrections
import MatrycaPlumber.Text.Searching
import MatrycaPlumber.Graph.MldocProperties
import MatrycaPlumber.Graph.PropertyLineEdit
import MatrycaPlumber.Graph.PropertyLineEdit
import MatrycaPlumber.Graph.LinkHygiene
import MatrycaPlumber.Graph.BlockInsertion
import MatrycaPlumber.Graph.LinkHygiene
import MatrycaPlumber.System.InsertionDict
import MatrycaPlumber.Daemon.FileWatcher
import MatrycaPlumber.Daemon.WatcherDelivery
import MatrycaPlumber.Graph.GeneratedHubs
import MatrycaPlumber.Graph.BoundedPageParse
import MatrycaPlumber.Graph.ParseCorrelation
import MatrycaPlumber.Graph.Flashcards
import MatrycaPlumber.Graph.FlashcardInsertion
import MatrycaPlumber.Utils.JsonBrackets
import MatrycaPlumber.Graph.PagePath
import MatrycaPlumber.Graph.SemanticClustering
import MatrycaPlumber.Graph.ClusterPartition
import MatrycaPlumber.Agent.OutlineEmission
import MatrycaPlumber.System.OrderedTrees
import MatrycaPlumber.Graph.LogseqDbObserverStructure
import MatrycaPlumber.Agent.ContextCompressor
import MatrycaPlumber.Graph.HierarchicalSummarization
import MatrycaPlumber.Utils.TokenLogger
import MatrycaPlumber.Graph.JournalRead
import MatrycaPlumber.Graph.PropertyListValues
import MatrycaPlumber.Agent.TanaConvert
import MatrycaPlumber.Agent.SemanticCacheLock
import MatrycaPlumber.Shadow.StateApi
import MatrycaPlumber.Text.Regex
import MatrycaPlumber.Utils.SecretRedaction
import MatrycaPlumber.Utils.LogRedaction
import MatrycaPlumber.Agent.OgTopologySnapshot
import MatrycaPlumber.System.RecordStream
import MatrycaPlumber.Agent.DashboardProtocol
import MatrycaPlumber.Agent.DashboardJobs
import MatrycaPlumber.Agent.DashboardAnswers
import MatrycaPlumber.System.BreadthFirst
import MatrycaPlumber.Graph.LinkTagHop
import MatrycaPlumber.Text.ByteLines
import MatrycaPlumber.Memory.EvidenceArchive
import MatrycaPlumber.Agent.OgTopologyProjection
