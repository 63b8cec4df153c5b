import Ask.Lib.Fallible
import Ask.Lib.AutoTable
import Ask.Lib.Run
import Ask.Lib.Utf8
import Ask.Lib.Tx
import Ask.Lib.Proc
import Ask.Types
import Ask.Chunking
import Ask.ChunkLaw
import Ask.ScanLaw
import Ask.SizeLaw
import Ask.ProgressLaw
import Ask.Content
import Ask.ContentLaw
import Ask.PrefixLaw
import Ask.JobQueue
import Ask.Lease
import Ask.WorkerPool
import Ask.Store
import Ask.Repository
import Ask.Effects
import Ask.Paths
import Ask.Requests
import Ask.Embeddings
import Ask.EmbeddingsLaw
import Ask.Worker
import Ask.Oracle
import Ask.DispatchLaw
import Ask.VectorIndex
import Ask.Startup
import Ask.DispatchFacts
import Ask.Integrity
import Ask.History
import Ask.Mirror
import Ask.Refs
import Ask.SpanLaw
import Ask.StartupLaw
import Ask.Phase
import Ask.System
import Ask.FreshLaw
import Ask.OrphanLaw
import Ask.Seeding
import Ask.SeedLaw
import Ask.WellFormed
import Ask.Lifetime
import Ask.Server
import Ask.RebuildLaw
import Ask.FrameLaw
import Ask.EmbedLaw
import Ask.Lib.Keyed
import Ask.Catalog
import Ask.OrderLaw
import Ask.Lib.Ranking
import Ask.Search
import Ask.CollapseLaw
import Ask.SearchLaw
import Ask.ResponsePaths
import Ask.Lib.FileTree
import Ask.Lib.Json
import Ask.Sandbox
import Ask.SandboxLaw
import Ask.Lib.Topmost
import Ask.GitPlanLaw
import Ask.Lib.Pool
import Ask.Migrations
import Ask.MigrationsLaw
import Ask.Lib.Tally
import Ask.Stats
import Ask.StatsLaw
import Ask.Issued
import Ask.StatsAvailability
import Ask.Lib.Works
import Ask.Reliable
import Ask.Drain
import Ask.DrainLaw
import Ask.Overtaking
import Ask.Ingest
import Ask.IngestLaw
import Ask.Lib.Decimal
import Ask.Config
import Ask.ConfigLaw
import Ask.Provider
import Ask.ProviderLaw
import Ask.OutageLaw
import Ask.Boot
import Ask.BootLaw
import Ask.LibraryLaw
import Ask.Converge
import Ask.ConvergeLaw
import Ask.Lib.Sql
import Ask.Lib.SqlLaw
import Ask.Upgrade
import Ask.UpgradeLaw
import Ask.Tables
import Ask.TablesLaw
