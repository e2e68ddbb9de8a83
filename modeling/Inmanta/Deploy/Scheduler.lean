import Inmanta.Deploy.DeployWithContext
import Inmanta.Deploy.IntentChanges
import Inmanta.Deploy.Timers
import Inmanta.Deploy.TransitiveState

/-!
# The resource scheduler

`Scheduler` is what the scheduler lock protects: the model state, the
scheduled work, the two sets of deploying resources and the timers. Each
operation below is one critical section, so it is a function on this
state; the interleaving of the operations is in `Inmanta.Deploy.System`.

- `newVersion` registers newly released versions. All it reads before it
  takes the lock (the intent, the resource sets, the requires relation
  and which resources are undefined) is only written by itself, under
  the intent lock, so it is a single step.
- `deploy`, `repair` and `deployResource` request deploys.
- `deployStart`, `updateSchedulerStateForFinishedDeploy` and
  `finishDeploy` are the phases of one deploy.

An operation that fails half-way leaves what it has written so far, so
the report of a finished deploy returns a scheduler next to its result.
-/

namespace Inmanta

structure Scheduler where
  state : ModelState
  work : ScheduledWork
  deployingLatest : List ResourceIdStr
  deployingUnmanaged : List ResourceIdStr
  timers : TimerManager
  complianceReportingFeatureEnabled : Bool

/-! ## New versions -/

/-- The pre-processed versions: the resulting model version, the changes of
intent and the changes of the requires relation. -/
structure VersionUpdate where
  model : ModelVersion
  changes : Dict ResourceIdStr ResourceIntentChange
  addedRequires : Dict ResourceIdStr (List ResourceIdStr)
  droppedRequires : Dict ResourceIdStr (List ResourceIdStr)

namespace VersionUpdate

def deleted (u : VersionUpdate) : List ResourceIdStr :=
  u.changes.keys.filter fun r => (u.changes.get? r).any (·.isDeleted)

def new (u : VersionUpdate) : List ResourceIdStr :=
  u.changes.keys.filter fun r => u.changes.get? r = some .new

def updated (u : VersionUpdate) : List ResourceIdStr :=
  u.changes.keys.filter fun r => u.changes.get? r = some .updated

/-- The deleted resources with the version they were last seen in. -/
def orphans (u : VersionUpdate) : List (ResourceIdStr × ℕ) :=
  u.changes.items.filterMap fun (r, change) =>
    match change with
    | .deleted v => some (r, v)
    | _ => none

/-- Resources that are undefined now but were not before, including new ones. -/
def becameUndefined (u : VersionUpdate) (s : ModelState) : List ResourceIdStr :=
  (u.new ∪ u.updated).filter fun r =>
    r ∈ u.model.undefined ∧ s.compliance? r ≠ some .undefined

/-- Resources that were undefined before and are not any more. -/
def becameDefined (u : VersionUpdate) (s : ModelState) : List ResourceIdStr :=
  (u.new ∪ u.updated).filter fun r =>
    r ∉ u.model.undefined ∧ s.compliance? r = some .undefined

/-- Resources that are to be considered new, although they are managed. -/
def forceNew (u : VersionUpdate) (s : ModelState) : List ResourceIdStr :=
  s.intent.keys ∩ u.new

/-- The resources with a change of requires. -/
def editedRequires (u : VersionUpdate) : List ResourceIdStr :=
  u.addedRequires.keys ∪ u.droppedRequires.keys

end VersionUpdate

/-- Store a set of resources under a key unless it is empty. -/
def setNonEmpty (d : Dict ResourceIdStr (List ResourceIdStr)) (r : ResourceIdStr)
    (rs : List ResourceIdStr) : Dict ResourceIdStr (List ResourceIdStr) :=
  if rs = [] then d else d.set r rs

namespace ModelState

/-- The requires of a version that the model state does not have. -/
def addedRequires (s : ModelState) (model : ModelVersion) :
    Dict ResourceIdStr (List ResourceIdStr) :=
  model.requires.items.foldl
    (fun d e => setNonEmpty d e.1 (e.2.removeAll (s.requiresOf e.1))) .empty

/-- The requires of the model state that a version does not have. -/
def droppedRequires (s : ModelState) (model : ModelVersion) :
    Dict ResourceIdStr (List ResourceIdStr) :=
  model.requires.items.foldl
    (fun d e => setNonEmpty d e.1 ((s.requiresOf e.1).removeAll e.2)) .empty

/-- Pre-process new model versions. -/
def prepare (s : ModelState) (versions : List ModelVersion) (upToDate : List ResourceIdStr) :
    Except PyError VersionUpdate := do
  let (model, changes) ← getIntentChanges s versions upToDate
  return ⟨model, changes, s.addedRequires model, s.droppedRequires model⟩

/-- Update the model version and the resource set mapping. -/
def updateSets (s : ModelState) (model : ModelVersion) : ModelState :=
  { s with
    version := model.version
    resourceSets :=
      if model.isPartial then
        model.resourceSets.items.foldl
          (fun d e => if e.2 ≠ [] then d.set e.1 e.2 else d.del e.1) s.resourceSets
      else model.resourceSets }

/-- The call of `updateResource` for a new or updated resource. -/
def changeOf (u : VersionUpdate) (lastDeployTime : Dict ResourceIdStr Time)
    (r : ResourceIdStr) : Except PyError ResourceUpdate := do
  let intent ← u.model.resources.item r
  return ⟨intent, u.changes.get? r = some .new, r ∈ u.model.undefined, false,
    lastDeployTime.get? r⟩

/-- The call of `updateResource` for a resource in a known good state. -/
def upToDateOf (u : VersionUpdate) (lastDeployTime : Dict ResourceIdStr Time)
    (r : ResourceIdStr) : Except PyError ResourceUpdate := do
  let intent ← u.model.resources.item r
  return ⟨intent, false, false, true, lastDeployTime.get? r⟩

/-- Update the resource intent and the requires relation. -/
def updateIntent (s : ModelState) (u : VersionUpdate) (upToDate : List ResourceIdStr)
    (lastDeployTime : Dict ResourceIdStr Time) : Except PyError ModelState := do
  let s ← upToDate.foldlM (fun s r => do
    let call ← upToDateOf u lastDeployTime r
    s.applyUpdate call) s
  let s ← (u.new ∪ u.updated).foldlM (fun s r => do
    let call ← changeOf u lastDeployTime r
    s.applyUpdate call) s
  u.editedRequires.foldlM (fun s r => do
    let requires ← u.model.requires.item r
    s.updateRequires r requires) s

/-- Update the skipped-for-dependencies state of a resource with a dependency
for which the state was reset. -/
def resetSkipped (s : ModelState) (r : ResourceIdStr) : Except PyError ModelState := do
  let rs ← s.resourceState.item r
  if rs.blocked ≠ .temporarilyBlocked then return s
  let skip ← s.shouldSkipForDependencies r
  return if skip then s else s.setBlocked r rs .notBlocked

/-- Drop a deleted resource that is managed. -/
def dropDeleted (s : ModelState) (r : ResourceIdStr) : Except PyError ModelState :=
  if r ∈ s.resourceState then s.drop r else return s

end ModelState

/-- What a new version writes to the database when the lock is released. -/
structure VersionWrite where
  firstVersion : Bool
  intent : List ResourceIdStr
  orphans : List (ResourceIdStr × ℕ)
  deriving DecidableEq

/-- The model state a new version leads to under the lock, before the deleted
resources are dropped, with the resources that were unblocked, those that were
blocked, and those whose skipped-for-dependencies state was updated. -/
structure BlockedUpdate where
  state : ModelState
  unblocked : List ResourceIdStr
  blocked : List ResourceIdStr
  resetRequires : List ResourceIdStr

/-- Update the transitive state, and the skipped-for-dependencies state where a
dependency is to be considered new. `old` is the model state at the start. -/
def VersionUpdate.updateBlocked (u : VersionUpdate) (fuel : ℕ) (old s : ModelState) :
    Except PyError BlockedUpdate := do
  let (s, unblocked, blocked) ← s.updateTransitiveState fuel (u.becameUndefined old)
    u.addedRequires.keys (u.becameDefined old ∪ u.droppedRequires.keys)
  let resetRequires := (u.forceNew old).flatMap s.providesOf
  let s ← resetRequires.foldlM ModelState.resetSkipped s
  return ⟨s, unblocked, blocked, resetRequires⟩

namespace Scheduler

def init (timers : TimerManager) (complianceReporting : Bool) : Scheduler where
  state := .empty
  work := .empty
  deployingLatest := []
  deployingUnmanaged := []
  timers := timers
  complianceReportingFeatureEnabled := complianceReporting

/-- Update the sets of resources that are being deployed: what was deleted or is
considered new became unmanaged, and what changed is not the latest any more. -/
def trimDeploying (s : Scheduler) (u : VersionUpdate) (blocked : List ResourceIdStr) :
    Scheduler :=
  { s with
    deployingUnmanaged := s.deployingUnmanaged ∪ (s.deployingLatest ∩ (u.new ∪ u.deleted))
    deployingLatest := (s.deployingLatest.removeAll u.changes.keys).removeAll blocked }

/-- Stop the timers of what will be deployed and of what must not be, and
install those of the resources that are known to be in a good state. -/
def updateVersionTimers (s : Scheduler) (u : VersionUpdate) (old : ModelState)
    (b : BlockedUpdate) (upToDate : List ResourceIdStr) : Except PyError TimerManager :=
  let timers := (s.timers.stopTimers
    (b.state.dirty ∪ u.becameUndefined old ∪ b.blocked)).removeTimers u.deleted
  timers.updateTimers b.state.resourceState
    (upToDate ∪ (b.unblocked ∪ b.resetRequires).removeAll b.state.dirty)

/-- Ensure a deploy for all dirty resources. -/
def deployDirty (s : Scheduler) (u : VersionUpdate) (b : BlockedUpdate) (reason : String) :
    Except PyError ScheduledWork :=
  s.work.deployWithContext b.state.requires
    ⟨b.state.dirty, reason, .newVersionDeploy, s.deployingLatest, u.addedRequires,
      u.droppedRequires, false⟩

/-- Register one or more newly released versions. -/
def newVersion (s : Scheduler) (fuel : ℕ) (versions : List ModelVersion)
    (upToDate : List ResourceIdStr) (lastDeployTime : Dict ResourceIdStr Time)
    (reason : String) : Except PyError (Scheduler × Option VersionWrite) := do
  if versions = [] then return (s, none)
  let old := s.state
  let u ← old.prepare versions upToDate
  let state ← (old.updateSets u.model).updateIntent u upToDate lastDeployTime
  let b ← u.updateBlocked fuel old state
  let s := s.trimDeploying u b.blocked
  let timers ← s.updateVersionTimers u old b upToDate
  let work ← s.deployDirty u b reason
  let state ← u.deleted.foldlM ModelState.dropDeleted b.state
  let work := (u.deleted ∪ u.becameUndefined old ∪ b.blocked).foldl
    ScheduledWork.deleteResource work
  return ({ s with state, timers, work },
    some
      { firstVersion := old.version = 0
        intent := (u.new ∪ u.updated
          ∪ (u.becameUndefined old ∪ b.blocked ∪ b.unblocked)).removeAll u.deleted
        orphans := u.orphans })

/-! ## Deploy requests -/

/-- Stop the timers of some resources and schedule them. -/
def schedule (s : Scheduler) (resources : List ResourceIdStr) (reason : String)
    (priority : TaskPriority) (forceDeploy : Bool) : Except PyError Scheduler := do
  let work ← s.work.deployWithContext s.state.requires
    ⟨resources, reason, priority, s.deployingLatest, .empty, .empty, forceDeploy⟩
  return { s with work, timers := s.timers.stopTimers resources }

/-- Whether a resource passes the filters of a request. -/
def inScope (s : Scheduler) (agent : Option String) (resources : Option (List ResourceIdStr))
    (r : ResourceIdStr) : Bool :=
  resources.all (fun rs => r ∈ rs)
    && agent.all (fun a => r ∈ s.state.resourcesByAgent.getD a [])

/-- Trigger a deploy of the dirty resources. -/
def deploy (s : Scheduler) (reason : String) (priority : TaskPriority) (agent : Option String)
    (resources : Option (List ResourceIdStr)) : Except PyError Scheduler :=
  s.schedule (s.state.dirty.filter (s.inScope agent resources)) reason priority false

/-- The resources a repair is about: all the managed ones, or those of an agent. -/
def repairable (s : Scheduler) (agent : Option String)
    (resources : Option (List ResourceIdStr)) : List ResourceIdStr :=
  let base := match agent with
    | none => s.state.intent.keys
    | some a => s.state.resourcesByAgent.getD a []
  base.filter fun r => resources.all (fun rs => r ∈ rs) ∧ ¬ s.state.IsBlocked r

/-- Trigger a repair: mark all unblocked resources as dirty, then trigger a
deploy. -/
def repair (s : Scheduler) (reason : String) (priority : TaskPriority) (agent : Option String)
    (resources : Option (List ResourceIdStr)) : Except PyError Scheduler :=
  let toDeploy := s.repairable agent resources
  let s := { s with state := { s.state with dirty := s.state.dirty ∪ toDeploy } }
  s.schedule toDeploy reason priority false

/-- Make sure that a resource is marked for deployment. -/
def deployResource (s : Scheduler) (r : ResourceIdStr) (reason : String)
    (priority : TaskPriority) : Except PyError Scheduler :=
  match s.state.resourceState.get? r with
  | none => return s  -- removed from the model by now
  | some rs => if rs.blocked = .blocked then return s else s.schedule [r] reason priority false

end Scheduler

/-! ## One deploy -/

/-- What a deploy has committed to. -/
structure DeployIntent where
  modelVersion : ℕ
  intent : ResourceIntent
  dependencies : Dict ResourceIdStr HandlerState
  deployStart : Time

/-- What the executor reports. A deploy does not end in a dry run. -/
structure DeployReport where
  resourceId : ResourceIdStr
  resourceState : HandlerResourceState
  notDry : resourceState ≠ .dry

namespace Scheduler

/-- The intent of a resource, `none` for stale or blocked resources. -/
def getResourceIntent (s : Scheduler) (r : ResourceIdStr) : Option ResourceIntent :=
  match s.state.resourceState.get? r with
  | none => none
  | some rs => if rs.blocked = .blocked then none else s.state.intent.get? r

def getLastNonDeployingStateForDependencies (s : Scheduler) (r : ResourceIdStr) :
    Except PyError (Dict ResourceIdStr HandlerState) :=
  (s.state.requiresOf r).foldlM (fun states d => do
    let rs ← s.state.resourceState.item d
    let state ← rs.toHandlerState
    return states.set d state) .empty

/-- Commit to the current intent, unless the resource is stale. -/
def deployStart (s : Scheduler) (r : ResourceIdStr) (now : Time) :
    Except PyError (Scheduler × Option DeployIntent) :=
  match s.getResourceIntent r with
  | none => return (s, none)
  | some intent => do
      let dependencies ← s.getLastNonDeployingStateForDependencies r
      return ({ s with deployingLatest := s.deployingLatest.insert r },
        some ⟨s.state.version, intent, dependencies, now⟩)

/-- Without the feature, a report of the non-compliant state is a failure. -/
def enforceComplianceReportingEntitlement (s : Scheduler) (report : DeployReport) :
    DeployReport :=
  if s.complianceReportingFeatureEnabled = false ∧ report.resourceState = .nonCompliant
  then { report with resourceState := .failed, notDry := HandlerResourceState.failed_ne_dry }
  else report

/-- A dependant that listens to the events of its requirements. -/
def isEventListener (s : Scheduler) (d : ResourceIdStr) : Except PyError Bool :=
  match s.state.intent.get? d with
  | none => return false
  | some intent => do
      let rs ← s.state.resourceState.item d
      return rs.blocked = .notBlocked && intent.attributes.receivesEvents

/-- A dependant that was skipped for its dependencies. -/
def isRecoveryListener (s : Scheduler) (d : ResourceIdStr) : Except PyError Bool := do
  let rs ← s.state.resourceState.item d
  return rs.blocked = .temporarilyBlocked

/-- Unblock a skipped dependant, which makes it dirty. -/
def unblockSkipped (s : ModelState) (r : ResourceIdStr) : Except PyError ModelState := do
  let rs ← s.resourceState.item r
  return s.setBlocked r rs .notBlocked

/-- The dependants an event is sent to, and those that recover. -/
def eventListeners (s : Scheduler) (sending : ResourceIntent)
    (staleDeploy recoveredFromFailure : Bool) :
    Except PyError (List ResourceIdStr × List ResourceIdStr) := do
  let provides := s.state.providesOf sending.resourceId
  let events ←
    if staleDeploy || !sending.attributes.sendsEvents then pure []
    else filterOk s.isEventListener provides
  let recovery ←
    if recoveredFromFailure then filterOk s.isRecoveryListener provides else pure []
  return (events, recovery)

/-- Schedule the listeners of an event, at the priority of the deploy that sends
it. -/
def scheduleListeners (s : Scheduler) (sender : ResourceIdStr) (recoveredFromFailure : Bool)
    (listeners : List ResourceIdStr) : Except PyError Scheduler :=
  if listeners = [] then return s
  else
    match s.work.agentQueues.inProgress.get? (.deploy sender) with
    | none => .error .assertionError
    | some priority =>
        let reason :=
          if recoveredFromFailure then s!"a recovery event was received from {sender.text}"
          else s!"an event was received from {sender.text}"
        -- ongoing deploys can not capture the event, so force new ones
        s.schedule listeners reason priority true

/-- Send events to the appropriate dependants of a resource that has finished
deploying. -/
def sendEvents (s : Scheduler) (sending : ResourceIntent)
    (staleDeploy recoveredFromFailure : Bool) : Except PyError Scheduler := do
  let (events, recovery) ← s.eventListeners sending staleDeploy recoveredFromFailure
  let state := { s.state with dirty := s.state.dirty ∪ recovery }
  let state ← recovery.foldlM unblockSkipped state
  { s with state }.scheduleListeners sending.resourceId recoveredFromFailure (events ∪ recovery)

/-- Whether a deploy that was skipped for its dependencies has to be: not if
they have recovered in the meantime. -/
def shouldBlock (s : ModelState) (r : ResourceIdStr) (rs : ResourceState)
    (result : HandlerResourceState) : Except PyError Bool :=
  if rs.blocked ≠ .blocked ∧ result = .skippedForDependency then s.shouldSkipForDependencies r
  else return false

/-- Update the blocked status and the dirty set for the result of a deploy that
is not stale. `rs` is the state of the resource so far. -/
def registerResult (s : ModelState) (r : ResourceIdStr) (rs : ResourceState)
    (result : HandlerResult) (skip : Bool) : ModelState :=
  if skip then (s.setBlocked r rs .temporarilyBlocked).discardDirty r
  else if result = .successful then
    let s := s.discardDirty r
    if rs.blocked = .temporarilyBlocked then s.setBlocked r rs .notBlocked else s
  else s.addDirty r

/-- A copy of the state of a resource. -/
def copyState (s : Scheduler) (r : ResourceIdStr) : Except PyError ResourceState :=
  s.state.resourceState.item r

/-- The deploy that finished was for an intent that is not the latest: only
what is about the last deploy is updated, and recovery is reported. -/
def finishStale (s : Scheduler) (r : ResourceIdStr) (intent : ResourceIntent)
    (rs : ResourceState) (result : HandlerResult) (recovered : Bool) (finished : Time) :
    Scheduler × Except PyError ResourceState :=
  let s := { s with
    state := s.state.setState r { rs with lastHandlerRun := result, lastDeployed := some finished } }
  if recovered then
    match s.sendEvents intent true true with
    | .error e => (s, .error e)
    | .ok s => (s, s.copyState r)
  else (s, s.copyState r)

/-- The deploy that finished was for the latest intent. -/
def finishLatest (s : Scheduler) (intent : ResourceIntent) (rs : ResourceState)
    (report : DeployReport) (result : HandlerResult) (recovered : Bool) (finished : Time) :
    Scheduler × Except PyError ResourceState :=
  let r := report.resourceId
  let compliant : Bool := report.resourceState = .deployed
  let rs := { rs with compliance := if compliant then .compliant else .nonCompliant }
  let s := { s with state := s.state.setState r rs }
  if r ∉ s.deployingLatest then (s, .error .keyError)
  else
    let s := { s with deployingLatest := discard s.deployingLatest r }
    let rs := { rs with
      lastHandlerRun := result
      lastDeployed := some finished
      lastHandlerRunCompliant := some compliant }
    let s := { s with state := s.state.setState r rs }
    match shouldBlock s.state r rs report.resourceState with
    | .error e => (s, .error e)
    | .ok skip =>
        let s := { s with state := registerResult s.state r rs result skip }
        match s.sendEvents intent false recovered with
        | .error e => (s, .error e)
        | .ok s => (s, s.copyState r)

/-- Update the state of the scheduler for the result of a deploy. -/
def updateSchedulerStateForFinishedDeploy (s : Scheduler) (deployIntent : DeployIntent)
    (report : DeployReport) (finished : Time) : Scheduler × Except PyError ResourceState :=
  let r := report.resourceId
  match HandlerResult.fromHandlerResourceState report.resourceState with
  | .error e => (s, .error e)
  | .ok result =>
      match s.state.intent.get? r with
      | none =>
          ({ s with deployingUnmanaged := discard s.deployingUnmanaged r }, .error .staleResource)
      | some intent =>
          if r ∈ s.deployingUnmanaged then
            ({ s with deployingUnmanaged := discard s.deployingUnmanaged r },
              .error .staleResource)
          else
            match s.state.resourceState.get? r with
            | none => (s, .error .keyError)
            | some rs =>
                let recovered : Bool := rs.lastHandlerRunCompliant = some false
                  && report.resourceState = .deployed
                if intent.attributeHash ≠ deployIntent.intent.attributeHash
                    ∨ rs.compliance = .undefined then
                  s.finishStale r intent rs result recovered finished
                else s.finishLatest intent rs report result recovered finished

/-- The end of a deploy, whatever happened to its report. -/
def finishDeploy (s : Scheduler) (r : ResourceIdStr) : Scheduler :=
  { s with
    work := s.work.finishedDeploy s.state.requires r
    timers :=
      match s.state.resourceState.get? r with
      | none => s.timers
      | some rs => s.timers.updateTimer r rs }

end Scheduler

end Inmanta
