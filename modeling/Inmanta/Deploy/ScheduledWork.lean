import Inmanta.Deploy.AgentQueues
import Inmanta.Deploy.ModelState

/-!
# Scheduled work

`ScheduledWork` is the collection of deploy tasks that should be executed:
the ready ones in the agent queues, and the ones that wait for some of
their requirements (`waiting`). `deployWithContext` adds tasks and moves
known ones between the two collections, `finishedDeploy` and
`deleteResource` report what happened to a resource.

The requires relation is a live view on the model state, so it is an
argument of the operations that read it.
-/

namespace Inmanta

/-- A deploy task that is blocked on one or more of its requirements. -/
structure BlockedDeploy where
  resource : ResourceIdStr
  blockedOn : List ResourceIdStr
  priority : TaskPriority
  requestedAt : ℤ
  reason : Option String
  deriving DecidableEq

structure ScheduledWork where
  agentQueues : AgentQueues
  waiting : Dict ResourceIdStr BlockedDeploy

/-- The arguments of `deploy_with_context`. -/
structure DeployRequest where
  resources : List ResourceIdStr
  reason : String
  priority : TaskPriority
  deploying : List ResourceIdStr
  addedRequires : Dict ResourceIdStr (List ResourceIdStr)
  droppedRequires : Dict ResourceIdStr (List ResourceIdStr)
  forceDeploy : Bool

/-- The local variables of `deploy_with_context`: the resources that may have
become runnable, and the lookup caches of resources that are queued or running
and of resources that are not scheduled. -/
structure DeployContext where
  work : ScheduledWork
  maybeRunnable : List ResourceIdStr
  queued : List ResourceIdStr
  notScheduled : List ResourceIdStr

namespace DeployContext

def setWaiting (c : DeployContext) (r : ResourceIdStr) (b : BlockedDeploy) : DeployContext :=
  { c with work := { c.work with waiting := c.work.waiting.set r b } }

def setQueues (c : DeployContext) (q : AgentQueues) : DeployContext :=
  { c with work := { c.work with agentQueues := q } }

/-- Whether the resource is currently scheduled, caching the result. -/
def isScheduled (c : DeployContext) (r : ResourceIdStr) : DeployContext × Bool :=
  if r ∈ c.work.waiting ∨ r ∈ c.queued then (c, true)
  else if r ∈ c.notScheduled then (c, false)
  else if Task.deploy r ∈ c.work.agentQueues then
    ({ c with queued := c.queued.insert r }, true)
  else ({ c with notScheduled := c.notScheduled.insert r }, false)

/-- The scheduled ones of some resources. -/
def filterScheduled (c : DeployContext) (rs : List ResourceIdStr) :
    DeployContext × List ResourceIdStr :=
  rs.foldl (fun (c, out) r =>
    let (c, scheduled) := c.isScheduled r
    (c, if scheduled then out.insert r else out)) (c, [])

/-- Move a task that is queued or running to the waiting collection. -/
def deferTask (c : DeployContext) (priority : TaskPriority) (r : ResourceIdStr)
    (newBlockers : List ResourceIdStr) : DeployContext :=
  let (queues, discarded) := c.work.agentQueues.discard (.deploy r)
  let c := c.setQueues queues
  let c := { c with queued := discard c.queued r }
  match discarded with
  | some item =>
      c.setWaiting r ⟨r, newBlockers, item.priority, item.requestedAt, item.reason⟩
  | none =>
      -- the task is already running: a new request at the priority of that task
      let newPriority := c.work.agentQueues.inProgress.getD (.deploy r) priority
      let (queues, requestedAt) := c.work.agentQueues.reserveRequestedAt
      (c.setQueues queues).setWaiting r ⟨r, newBlockers, newPriority, requestedAt,
        some "rescheduling because a dependency was scheduled while it was deploying"⟩

/-- Add to the blocked-on set of a resource, deferring its deploy task if it is
already queued. -/
def extendBlockedOn (c : DeployContext) (priority : TaskPriority) (r : ResourceIdStr)
    (newBlockers : List ResourceIdStr) : Except PyError DeployContext := do
  if newBlockers = [] then return c
  let (c, scheduled) := c.isScheduled r
  if !scheduled then return c
  if r ∈ c.queued then
    return c.deferTask priority r newBlockers
  else
    let b ← c.work.waiting.item r
    let c := c.setWaiting r { b with blockedOn := b.blockedOn ∪ newBlockers }
    return { c with maybeRunnable := discard c.maybeRunnable r }

/-- Drop the dropped requires of one resource. -/
def dropRequires (c : DeployContext) (r : ResourceIdStr) (dropped : List ResourceIdStr) :
    DeployContext :=
  if dropped = [] then c
  else
    match c.work.waiting.get? r with
    | none => c
    | some b =>
        let c := c.setWaiting r { b with blockedOn := b.blockedOn.removeAll dropped }
        { c with maybeRunnable := c.maybeRunnable.insert r }

/-- A resource that is scheduled already: raise its priority where it is. -/
def bumpPriority (c : DeployContext) (req : DeployRequest) (r : ResourceIdStr) :
    DeployContext :=
  if Task.deploy r ∈ c.work.agentQueues then
    c.setQueues (c.work.agentQueues.queuePutNowait (.deploy r) req.priority none
      (some req.reason))
  else
    match c.work.waiting.get? r with
    | none => c
    | some b =>
        if req.priority.value < b.priority.value then
          let (queues, requestedAt) := c.work.agentQueues.reserveRequestedAt
          (c.setQueues queues).setWaiting r
            { b with priority := req.priority, requestedAt, reason := some req.reason }
        else c

/-- Schedule a task for a resource that has none, and inform its dependants. -/
def scheduleNew (c : DeployContext) (requires : RequiresProvidesMapping)
    (req : DeployRequest) (r : ResourceIdStr) : Except PyError DeployContext := do
  let (c, blockedOn) := c.filterScheduled (requires.requires r)
  let (queues, requestedAt) := c.work.agentQueues.reserveRequestedAt
  let c := (c.setQueues queues).setWaiting r
    ⟨r, blockedOn, req.priority, requestedAt, some req.reason⟩
  let c := { c with
    notScheduled := discard c.notScheduled r
    maybeRunnable := if blockedOn = [] then c.maybeRunnable.insert r else c.maybeRunnable }
  (requires.provides r).foldlM (fun c d => c.extendBlockedOn req.priority d [r]) c

/-- Ensure that the deploy of one resource is scheduled. -/
def scheduleResource (requires : RequiresProvidesMapping) (req : DeployRequest)
    (c : DeployContext) (r : ResourceIdStr) : Except PyError DeployContext := do
  let (c, scheduled) := c.isScheduled r
  if scheduled then return c.bumpPriority req r
  else c.scheduleNew requires req r

/-- Update the state for the added requires of one resource. -/
def addRequires (req : DeployRequest) (c : DeployContext)
    (added : ResourceIdStr × List ResourceIdStr) : Except PyError DeployContext :=
  let (c, new) := c.filterScheduled added.2
  c.extendBlockedOn req.priority added.1 new

end DeployContext

namespace ScheduledWork

def empty : ScheduledWork := ⟨.empty, .empty⟩

/-- Move a deploy to the agent queues if it has become unblocked. -/
def queueIfReady (w : ScheduledWork) (b : BlockedDeploy) : ScheduledWork :=
  if b.blockedOn ≠ [] then w
  else
    { agentQueues := w.agentQueues.queuePutNowait (.deploy b.resource) b.priority
        (some b.requestedAt) b.reason
      waiting := w.waiting.del b.resource }

/-- Add deploy tasks for the given resources, and update the scheduled work to
the new model state and scheduler intent. -/
def deployWithContext (w : ScheduledWork) (requires : RequiresProvidesMapping)
    (req : DeployRequest) : Except PyError ScheduledWork := do
  let c : DeployContext := {
    work := { w with
      agentQueues := w.agentQueues.bumpInProgressPriorities
        (req.resources ∩ req.deploying) req.priority }
    maybeRunnable := []
    queued := if req.forceDeploy then req.deploying.removeAll req.resources else req.deploying
    notScheduled := [] }
  -- drop first, so that the rest works on the smallest possible set
  let c := req.droppedRequires.items.foldl (fun c (r, dropped) => c.dropRequires r dropped) c
  let c ← req.resources.foldlM (DeployContext.scheduleResource requires req) c
  let c ← req.addedRequires.items.foldlM (DeployContext.addRequires req) c
  c.maybeRunnable.foldlM (fun w r => do
    let b ← w.waiting.item r
    return w.queueIfReady b) c.work

/-- Drop tasks for a given resource when it was deleted from the model or is
known not to be able to progress. -/
def deleteResource (w : ScheduledWork) (r : ResourceIdStr) : ScheduledWork where
  waiting := w.waiting.del r
  agentQueues := (w.agentQueues.getTasksForResource r).foldl (fun q t =>
    if t.deleteWithResource then (q.discard t).1 else q) w.agentQueues

/-- Remove a finished resource from the blocked-on set of a dependant. -/
def unblock (finished : ResourceIdStr) (w : ScheduledWork) (dependant : ResourceIdStr) :
    ScheduledWork :=
  match w.waiting.get? dependant with
  | none => w
  | some b =>
      let b := { b with blockedOn := discard b.blockedOn finished }
      { w with waiting := w.waiting.set dependant b }.queueIfReady b

/-- Report that a resource has finished deploying, whatever the version and the
result. -/
def finishedDeploy (w : ScheduledWork) (requires : RequiresProvidesMapping)
    (r : ResourceIdStr) : ScheduledWork :=
  if r ∈ w.waiting ∨ Task.deploy r ∈ w.agentQueues then w
  else (requires.provides r).foldl (unblock r) w

end ScheduledWork

end Inmanta
