import Inmanta.Deploy.Persistence
import Inmanta.Lib.Run

/-!
# The scheduler at work

`System.step` interleaves the operations of the scheduler with the
deploys the agents execute and with the writes to the database.

A deploy goes through the phases of `DeployPhase`: a worker takes the
task from its queue, `deploy_start` commits to an intent, `deploy_done`
first updates the scheduler, then the database, and at last reports to
the scheduled work, whatever happened; then the worker marks the task as
done. There is at most one deploy in progress per resource. A version is
registered first and written to the database after the scheduler lock
was released; the intent lock excludes a second version meanwhile.

Every action that raises leads to no state, except where the source
handles the exception.
-/

namespace Inmanta

/-- How far a deploy in progress has come. -/
inductive DeployPhase where
  /-- The task has been taken from the queue. -/
  | picked
  /-- The deploy has committed to an intent. -/
  | started (intent : DeployIntent)
  /-- The scheduler has been updated, with this result. -/
  | reported (intent : DeployIntent) (report : DeployReport)
      (result : Except PyError ResourceState) (finished : Time)
  /-- The result was written to the database, or could not be reported. -/
  | written
  /-- Nothing is left to do but to mark the task as done. -/
  | over

structure System where
  scheduler : Scheduler
  progress : Dict ResourceIdStr DeployPhase
  pendingWrite : Option VersionWrite
  rows : PersistentStates

inductive Action where
  | newVersion (fuel : ℕ) (versions : List ModelVersion) (reason : String)
  | writeVersion (maxVersion : ResourceIdStr → Option ℕ)
  | deploy (reason : String) (priority : TaskPriority) (agent : Option String)
      (resources : Option (List ResourceIdStr))
  | repair (reason : String) (priority : TaskPriority) (agent : Option String)
      (resources : Option (List ResourceIdStr))
  | deployResource (resource : ResourceIdStr) (reason : String) (priority : TaskPriority)
  | timerFires (resource : ResourceIdStr)
  | queueGet (agent : String)
  /-- `reachable`: the start of the deploy could be written to the database. -/
  | deployStart (resource : ResourceIdStr) (now : Time) (reachable : Bool)
  | deployReport (report : DeployReport) (finished : Time)
  | sendDeployDone (resource : ResourceIdStr)
  | finishDeploy (resource : ResourceIdStr)
  | taskDone (resource : ResourceIdStr)

namespace System

def init (timers : TimerManager) (complianceReporting : Bool) : System where
  scheduler := .init timers complianceReporting
  progress := .empty
  pendingWrite := none
  rows := .empty

def setScheduler (s : System) (scheduler : Except PyError Scheduler) : Option System :=
  match scheduler with
  | .ok scheduler => some { s with scheduler }
  | .error _ => none

def setPhase (s : System) (r : ResourceIdStr) (phase : DeployPhase) : System :=
  { s with progress := s.progress.set r phase }

/-- The versions are released first, which populates their rows. -/
def newVersion (s : System) (fuel : ℕ) (versions : List ModelVersion) (reason : String) :
    Option System :=
  if s.pendingWrite.isSome then none
  else
    match s.scheduler.newVersion fuel versions [] .empty reason with
    | .ok (scheduler, write) => some { s with
        scheduler
        pendingWrite := write
        rows := versions.foldl PersistentStates.populateForVersion s.rows }
    | .error _ => none

def writeVersion (s : System) (maxVersion : ResourceIdStr → Option ℕ) : Option System := do
  let w ← s.pendingWrite
  let rows ← (s.rows.writeVersion s.scheduler.state w maxVersion).toOption
  return { s with rows, pendingWrite := none }

/-- The timer of a resource calls `deploy_resource`. -/
def timerFires (s : System) (r : ResourceIdStr) : Option System := do
  let t ← s.scheduler.timers.resourceTimers.get? r
  if t.nextScheduledTime = none then none
  let reason ← t.reason
  let priority ← t.priority
  s.setScheduler (s.scheduler.deployResource r reason priority)

/-- A worker takes the next task of its agent. -/
def queueGet (s : System) (agent : String) : Option System := do
  let (agentQueues, item) ← s.scheduler.work.agentQueues.queueGet agent
  if item.task.resource ∈ s.progress then none
  let s := { s with
    scheduler := { s.scheduler with work := { s.scheduler.work with agentQueues } } }
  return match item.task with
    | .deploy r => s.setPhase r .picked
    | _ => s

/-- A deploy that is stale, or can not be started, is dropped. -/
def deployStart (s : System) (r : ResourceIdStr) (now : Time) (reachable : Bool) :
    Option System :=
  match s.progress.get? r with
  | some .picked =>
      match s.scheduler.deployStart r now with
      | .error _ | .ok (_, none) => some (s.setPhase r .over)
      | .ok (scheduler, some intent) =>
          let s := { s with scheduler }
          some (s.setPhase r (if reachable then .started intent else .over))
  | _ => none

/-- `deploy_done` updates the scheduler. -/
def deployReport (s : System) (report : DeployReport) (finished : Time) : Option System :=
  match s.progress.get? report.resourceId with
  | some (.started intent) =>
      let report := s.scheduler.enforceComplianceReportingEntitlement report
      let (scheduler, result) :=
        s.scheduler.updateSchedulerStateForFinishedDeploy intent report finished
      let s := { s with scheduler }
      some (s.setPhase report.resourceId (.reported intent report result finished))
  | _ => none

/-- `deploy_done` writes the result to the database, unless it raised. -/
def sendDeployDone (s : System) (r : ResourceIdStr) : Option System :=
  match s.progress.get? r with
  | some (.reported intent report result finished) =>
      let s := s.setPhase r .written
      match result with
      | .ok state => some { s with
          rows := s.rows.sendDeployDone intent report (some state) finished }
      | .error .staleResource => some { s with
          rows := s.rows.sendDeployDone intent report none finished }
      | .error _ => some s
  | _ => none

/-- The last part of `deploy_done`. -/
def finishDeploy (s : System) (r : ResourceIdStr) : Option System :=
  match s.progress.get? r with
  | some .written =>
      some { s.setPhase r .over with scheduler := s.scheduler.finishDeploy r }
  | _ => none

def taskDone (s : System) (r : ResourceIdStr) : Option System :=
  match s.progress.get? r with
  | some .over =>
      match s.scheduler.work.agentQueues.taskDone (.deploy r) with
      | .ok agentQueues => some { s with
          progress := s.progress.del r
          scheduler := { s.scheduler with work := { s.scheduler.work with agentQueues } } }
      | .error _ => none
  | _ => none

def step (s : System) : Action → Option System
  | .newVersion fuel versions reason => s.newVersion fuel versions reason
  | .writeVersion maxVersion => s.writeVersion maxVersion
  | .deploy reason priority agent resources =>
      s.setScheduler (s.scheduler.deploy reason priority agent resources)
  | .repair reason priority agent resources =>
      s.setScheduler (s.scheduler.repair reason priority agent resources)
  | .deployResource r reason priority =>
      s.setScheduler (s.scheduler.deployResource r reason priority)
  | .timerFires r => s.timerFires r
  | .queueGet agent => s.queueGet agent
  | .deployStart r now reachable => s.deployStart r now reachable
  | .deployReport report finished => s.deployReport report finished
  | .sendDeployDone r => s.sendDeployDone r
  | .finishDeploy r => s.finishDeploy r
  | .taskDone r => s.taskDone r

end System

end Inmanta
