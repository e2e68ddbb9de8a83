import Inmanta.Agent.CacheLocks
import Inmanta.Agent.CacheSession
import Inmanta.Agent.DeployConvergence
import Inmanta.Agent.ExecutorReplacement
import Inmanta.Agent.PoolRegistry
import Inmanta.Ast.EagerPromises
import Inmanta.Ast.EntityIndex
import Inmanta.Ast.ListComprehension
import Inmanta.Ast.StringFormat
import Inmanta.Data.EveryRecordOnce
import Inmanta.Deploy.AgentQueues
import Inmanta.Deploy.Consistency
import Inmanta.Deploy.ConsolidatedIntent
import Inmanta.Deploy.DeployWithContext
import Inmanta.Deploy.DirtyResources
import Inmanta.Deploy.FailedStarts
import Inmanta.Deploy.IntentChanges
import Inmanta.Deploy.ModelEdits
import Inmanta.Deploy.ModelState
import Inmanta.Deploy.NetChange
import Inmanta.Deploy.NewVersion
import Inmanta.Deploy.PersistedCompliance
import Inmanta.Deploy.Persistence
import Inmanta.Deploy.Placement
import Inmanta.Deploy.QueueLinks
import Inmanta.Deploy.QueueRefinement
import Inmanta.Deploy.RegisteredDeploys
import Inmanta.Deploy.RememberedResources
import Inmanta.Deploy.Reports
import Inmanta.Deploy.Requests
import Inmanta.Deploy.ResourceState
import Inmanta.Deploy.ScheduledWork
import Inmanta.Deploy.Scheduler
import Inmanta.Deploy.SkippedDependants
import Inmanta.Deploy.System
import Inmanta.Deploy.SystemSteps
import Inmanta.Deploy.TaskRunner
import Inmanta.Deploy.Timers
import Inmanta.Deploy.TransitiveBlocking
import Inmanta.Deploy.TransitivePhases
import Inmanta.Deploy.TransitiveReach
import Inmanta.Deploy.TransitiveState
import Inmanta.Deploy.TransitiveTermination
import Inmanta.Deploy.Urgency
import Inmanta.Deploy.VersionEdits
import Inmanta.Deploy.WorkReports
import Inmanta.Deploy.WorkRuns
import Inmanta.Execute.AssignmentLoops
import Inmanta.Execute.DelayedQueue
import Inmanta.Execute.ListenerContract
import Inmanta.Execute.PluginProxies
import Inmanta.Execute.PromiseTracking
import Inmanta.Execute.RelationVariables
import Inmanta.Execute.Waiters
import Inmanta.Lib.Acyclic
import Inmanta.Lib.Asyncio
import Inmanta.Lib.Components
import Inmanta.Lib.Dict
import Inmanta.Lib.Heapq
import Inmanta.Lib.Loop
import Inmanta.Lib.Regex
import Inmanta.Lib.Run
import Inmanta.Protocol.ArgumentsSurvive
import Inmanta.Protocol.FrameDecoder
import Inmanta.Protocol.IpcFraming
import Inmanta.Protocol.IpcLight
import Inmanta.Resources.Exporter
import Inmanta.Resources.References
import Inmanta.Resources.ResourceId
import Inmanta.Server.AgentManager
import Inmanta.Server.CompileQueue
import Inmanta.Server.Diff
import Inmanta.Ast.CreateUnion
import Inmanta.Util.DictPathResolve
import Inmanta.Util.DictPathUpdate
import Inmanta.Server.PartialExport
import Inmanta.Server.SessionRegistry
import Inmanta.Server.SliceLifecycle
import Inmanta.Util.BidirectionalManyMapping
import Inmanta.Util.DictPath
import Inmanta.Util.DictPathGrammar
import Inmanta.Util.DictPathRoundTrip
import Inmanta.Util.DictPathSplitting
import Inmanta.Util.NamedLock
import Inmanta.Util.BackgroundTasks
import Inmanta.Util.TaskScheduler
import Inmanta.Module.LoadModules
import Inmanta.Module.ModuleVersion
import Inmanta.Module.VersionBump
import Inmanta.Util.StableDepthFirst
import Inmanta.Ast.PluginBinding
import Inmanta.Protocol.ResponseHeaders
import Inmanta.Server.MergedCompiles
import Inmanta.Agent.CachedMethods
import Inmanta.Parser.StringLiterals
import Inmanta.Execute.RootCause
import Inmanta.Resources.ReferenceResolution
import Inmanta.Resources.ReferenceSerialization
import Inmanta.Util.ReverseViews
import Inmanta.Parser.TokenPositions
