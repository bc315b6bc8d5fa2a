import WaferRun.Block.Eviction
import WaferRun.Block.Opening
import WaferRun.Block.OutputSink
import WaferRun.Block.ReadAhead
import WaferRun.Block.RetryAfter
import WaferRun.Cli.RecordedEntries
import WaferRun.Crypto.ExpiredTokens
import WaferRun.Database.AppendOnly
import WaferRun.Database.Codec
import WaferRun.Database.FilterForests
import WaferRun.Database.GuardedWrites
import WaferRun.Database.Introspect
import WaferRun.Database.Literals
import WaferRun.Database.SchemaChanges
import WaferRun.Database.UpdateById
import WaferRun.Discovery.BootGates
import WaferRun.Discovery.Dangling
import WaferRun.Discovery.InlineBudget
import WaferRun.Discovery.RefNames
import WaferRun.Discovery.ScalarParams
import WaferRun.Discovery.WebMcp
import WaferRun.Embedding.EmbedBatcher
import WaferRun.Flow.CookieKeys
import WaferRun.Flow.ExprSound
import WaferRun.Flow.HeaderReadings
import WaferRun.Flow.HeaderStrictness
import WaferRun.Flow.IntegerCompare
import WaferRun.Flow.OverlaySpec
import WaferRun.Flow.PassThrough
import WaferRun.Flow.PermissionsExact
import WaferRun.Flow.StepBudget
import WaferRun.Flow.Templates
import WaferRun.Flow.Timeout
import WaferRun.Flow.UnsendableMeta
import WaferRun.Flow.ValidatedRuns
import WaferRun.Headers.MergeReports
import WaferRun.Headers.NarrowOnly
import WaferRun.Lib.Duplicates
import WaferRun.Listener.ClientNetworks
import WaferRun.Logger.RenderedFields
import WaferRun.Network.Blocked
import WaferRun.Network.Redirects
import WaferRun.Router.Methods
import WaferRun.Router.RouteShape
import WaferRun.Runtime.AllBlocks
import WaferRun.Runtime.NestedCalls
import WaferRun.Runtime.UserSettings
import WaferRun.Storage.StoredTree
import WaferRun.Wasm.FinishedStreams
import WaferRun.Wasm.HostBudget
import WaferRun.Wasm.PackedResults
import WaferRun.Wasm.WarmCalls
import WaferRun.Web.CleanUrls
import WaferRun.Web.StaticFiles
import WaferRun.Wrap.Globs
import WaferRun.Wrap.Namespaces
