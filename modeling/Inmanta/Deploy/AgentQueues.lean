import Inmanta.Deploy.ResourceState
import Inmanta.Lib.Heapq
import Inmanta.Lib.Loop

/-!
# Tasks and agent queues

`AgentQueues` manages one priority queue of ready-to-execute tasks per
agent. An item can not be dropped from the middle of a heap, so a removed
or superseded item is marked as deleted where it is, and
`tasksByResource` is the view on the items that count as queued.

Items are mutated while they are in a heap and are shared between the two
collections, so they live in a store of their own and are referred to by
their index. The number of unfinished tasks that the underlying queue
counts for `join` is not modelled.

The rest of the development reads the queues through `task ∈ queues` and
`inProgress`; the lemmas at the end say how the operations change these.
-/

namespace Inmanta

/-! ## Tasks -/

inductive TaskPriority where
  | terminated
  | userDeploy
  | newVersionDeploy
  | userRepair
  | dryrun
  | intervalDeploy
  | factRefresh
  | intervalRepair
  deriving DecidableEq

/-- The value of the enumeration. Lower values are more urgent. -/
def TaskPriority.value : TaskPriority → ℤ
  | .terminated => -1
  | .userDeploy => 0
  | .newVersionDeploy => 1
  | .userRepair => 2
  | .dryrun => 3
  | .intervalDeploy => 4
  | .factRefresh => 5
  | .intervalRepair => 6

inductive Task where
  | poisonPill (resource : ResourceIdStr)
  | deploy (resource : ResourceIdStr)
  | dryRun (resource : ResourceIdStr) (version : ℕ) (intent : ResourceIntent)
      (dryRunId : String)
  | refreshFact (resource : ResourceIdStr)
  deriving DecidableEq

namespace Task

def resource : Task → ResourceIdStr
  | poisonPill r => r
  | deploy r => r
  | dryRun r _ _ _ => r
  | refreshFact r => r

def deleteWithResource : Task → Bool
  | dryRun .. => false
  | _ => true

end Task

/-! ## Queue items -/

structure TaskQueueItem where
  task : Task
  priority : TaskPriority
  requestedAt : ℤ
  reason : Option String
  deleted : Bool
  deriving DecidableEq

/-- The order of the queue: priority, then request order; of two equal items
the deleted one comes first. -/
def TaskQueueItem.lt (a b : TaskQueueItem) : Bool :=
  a.priority.value < b.priority.value
    || (a.priority = b.priority
      && (a.requestedAt < b.requestedAt
        || (a.requestedAt = b.requestedAt && (a.deleted && !b.deleted))))

/-! ## The queues -/

structure AgentQueues where
  items : List TaskQueueItem
  agentQueues : Dict String (List ℕ)
  tasksByResource : Dict ResourceIdStr (Dict Task ℕ)
  entryCount : ℕ
  inProgress : Dict Task TaskPriority
  /-- Tasks are filed under their own resource. -/
  filed : ∀ r t, t ∈ tasksByResource.getD r .empty → t.resource = r

namespace AgentQueues

def empty : AgentQueues :=
  ⟨[], .empty, .empty, 0, .empty, fun _ t h => absurd h (Dict.not_mem_empty t)⟩

/-- The queued tasks for a given resource id. -/
def tasksOf (q : AgentQueues) (r : ResourceIdStr) : Dict Task ℕ :=
  q.tasksByResource.getD r .empty

instance : Membership Task AgentQueues := ⟨fun q t => t ∈ q.tasksOf t.resource⟩

instance (t : Task) (q : AgentQueues) : Decidable (t ∈ q) :=
  inferInstanceAs (Decidable (t ∈ q.tasksOf t.resource))

def getTasksForResource (q : AgentQueues) (r : ResourceIdStr) : List Task :=
  (q.tasksOf r).keys

/-- Bump the priority for currently running tasks. -/
def bumpInProgressPriorities (q : AgentQueues) (resources : List ResourceIdStr)
    (priority : TaskPriority) : AgentQueues :=
  resources.foldl (fun q r =>
    match q.inProgress.get? (.deploy r) with
    | some p =>
        if priority.value < p.value then
          { q with inProgress := q.inProgress.set (.deploy r) priority }
        else q
    | none => q) q

def markDeleted (q : AgentQueues) (ref : ℕ) : AgentQueues :=
  { q with items := q.items.modify ref fun item => { item with deleted := true } }

/-- The item of a queued task. -/
def queueItemForTask (q : AgentQueues) (t : Task) : Option (ℕ × TaskQueueItem) := do
  let ref ← (q.tasksOf t.resource).get? t
  let item ← q.items[ref]?
  return (ref, item)

theorem mem_setTasks (d : Dict ResourceIdStr (Dict Task ℕ)) (tasks : Dict Task ℕ)
    (r r' : ResourceIdStr) (t : Task) :
    t ∈ (if tasks.keys = [] then d.del r else d.set r tasks).getD r' .empty ↔
      t ∈ if r' = r then tasks else d.getD r' .empty := by
  by_cases hkeys : tasks.keys = []
  · have hnil : t ∉ tasks := fun h => List.not_mem_nil (hkeys ▸ Dict.mem_keys.mpr h)
    rw [if_pos hkeys, Dict.getD_del]
    by_cases hr : r' = r <;> simp [hr, hnil]
  · rw [if_neg hkeys, Dict.getD_set]

/-- Replace the tasks of a resource, which is dropped when it has none left. -/
def setTasks (q : AgentQueues) (r : ResourceIdStr) (tasks : Dict Task ℕ)
    (h : ∀ t ∈ tasks, t.resource = r) : AgentQueues :=
  { q with
    tasksByResource :=
      if tasks.keys = [] then q.tasksByResource.del r else q.tasksByResource.set r tasks
    filed := fun r' t ht => by
      rw [mem_setTasks] at ht
      split at ht
      · rename_i hr
        exact (h t ht).trans hr.symm
      · exact q.filed r' t ht }

/-- Remove a task from its queue if it is there; returns its item. -/
def discard (q : AgentQueues) (t : Task) : AgentQueues × Option TaskQueueItem :=
  match (q.tasksOf t.resource).get? t with
  | none => (q, none)
  | some ref =>
      let q := q.markDeleted ref
      (q.setTasks t.resource ((q.tasksOf t.resource).del t)
        fun t' ht' => q.filed _ t' (Dict.mem_del.mp ht').2, q.items[ref]?)

/-- Reserve a unique, strictly monotonically rising value. -/
def reserveRequestedAt (q : AgentQueues) : AgentQueues × ℤ :=
  ({ q with entryCount := q.entryCount + 1 }, q.entryCount)

/-- The order of two references. -/
def refLt (q : AgentQueues) (a b : ℕ) : Bool :=
  match q.items[a]?, q.items[b]? with
  | some x, some y => x.lt y
  | _, _ => false

/-- Put a new item in the queue of its agent, which is created if it does not
exist. -/
def putItem (q : AgentQueues) (item : TaskQueueItem) : AgentQueues :=
  let ref := q.items.length
  let agent := item.task.resource.agentName
  let q := { q with items := q.items ++ [item] }
  { q with
    tasksByResource := q.tasksByResource.set item.task.resource
      ((q.tasksOf item.task.resource).set item.task ref)
    agentQueues := q.agentQueues.set agent
      (heappush q.refLt (q.agentQueues.getD agent []) ref)
    filed := fun r t ht => by
      rw [Dict.getD_set] at ht
      split at ht
      · rename_i hr
        rcases Dict.mem_set.mp ht with rfl | ht
        · exact hr.symm
        · exact (q.filed _ t ht).trans hr.symm
      · exact q.filed r t ht }

/-- Add a new task to the associated agent's queue, or reschedule it at a
higher priority. -/
def queuePutNowait (q : AgentQueues) (t : Task) (priority : TaskPriority)
    (requestedAt : Option ℤ) (reason : Option String) : AgentQueues :=
  match q.queueItemForTask t with
  | some (ref, item) =>
      if item.priority.value ≤ priority.value then q
      else
        let (q, at') := (q.markDeleted ref).reserveRequestedAt
        q.putItem ⟨t, priority, at', reason, false⟩
  | none =>
      match requestedAt with
      | some at' => q.putItem ⟨t, priority, at', reason, false⟩
      | none =>
          let (q, at') := q.reserveRequestedAt
          q.putItem ⟨t, priority, at', reason, false⟩

/-- Wake up all workers after shutdown is signalled. -/
def sendShutdown (q : AgentQueues) (reason : String) : AgentQueues :=
  let pill : Task := .poisonPill ⟨"system::Terminate", "all", "stop", "True"⟩
  let ref := q.items.length
  let item : TaskQueueItem := ⟨pill, .terminated, -1, some reason, false⟩
  let q := { q with items := q.items ++ [item] }
  q.agentQueues.keys.foldl (fun q agent =>
    { q with
      agentQueues := q.agentQueues.set agent
        (heappush q.refLt (q.agentQueues.getD agent []) ref) }) q

/-- Pop items until one that is not deleted turns up. -/
def popLive (q : AgentQueues) : ℕ → List ℕ → Option (TaskQueueItem × List ℕ)
  | 0, _ => none
  | n + 1, heap => do
      let (ref, heap) ← heappop q.refLt heap
      let item ← q.items[ref]?
      if item.deleted then q.popLive n heap else return (item, heap)

/-- Consume a task from an agent's queue; `none` while there is none. -/
def queueGet (q : AgentQueues) (agent : String) : Option (AgentQueues × TaskQueueItem) := do
  let heap ← q.agentQueues.get? agent
  let (item, heap) ← q.popLive heap.length heap
  let q := { q with agentQueues := q.agentQueues.set agent heap }
  let (q, _) := q.discard item.task
  return ({ q with inProgress := q.inProgress.set item.task item.priority }, item)

/-- Indicate that a formerly enqueued task is complete. -/
def taskDone (q : AgentQueues) (t : Task) : Except PyError AgentQueues := do
  let _ ← q.inProgress.item t
  return { q with inProgress := q.inProgress.del t }

/-! ## What is queued -/

variable {q : AgentQueues} {t t' : Task}

@[simp] theorem not_mem_empty (t : Task) : t ∉ empty :=
  Dict.not_mem_empty t

@[simp] theorem mem_markDeleted {ref : ℕ} : t ∈ q.markDeleted ref ↔ t ∈ q := Iff.rfl

@[simp] theorem mem_reserveRequestedAt : t ∈ q.reserveRequestedAt.1 ↔ t ∈ q := Iff.rfl

@[simp] theorem mem_discard : t' ∈ (q.discard t).1 ↔ t' ∈ q ∧ t' ≠ t := by
  unfold discard
  cases href : (q.tasksOf t.resource).get? t with
  | none =>
      refine ⟨fun h => ⟨h, ?_⟩, And.left⟩
      rintro rfl
      exact Dict.not_mem_iff.mpr href h
  | some ref =>
      refine (mem_setTasks _ _ _ _ _).trans ?_
      by_cases hr : t'.resource = t.resource
      · rw [if_pos hr, Dict.mem_del, and_comm]
        show t' ∈ q.tasksOf t.resource ∧ _ ↔ t' ∈ q.tasksOf t'.resource ∧ _
        rw [hr]
      · rw [if_neg hr]
        exact ⟨fun h => ⟨h, fun e => hr (e ▸ rfl)⟩, And.left⟩

theorem mem_getTasksForResource {r : ResourceIdStr} :
    t ∈ q.getTasksForResource r ↔ t.resource = r ∧ t ∈ q := by
  rw [getTasksForResource, Dict.mem_keys]
  constructor
  · intro h
    have hr := q.filed r t h
    subst hr
    exact ⟨rfl, h⟩
  · rintro ⟨rfl, h⟩
    exact h

theorem mem_putItem {item : TaskQueueItem} : t ∈ q.putItem item ↔ t = item.task ∨ t ∈ q := by
  show t ∈ Dict.getD (q.tasksByResource.set item.task.resource
    ((q.tasksOf item.task.resource).set item.task q.items.length)) t.resource Dict.empty ↔ _
  rw [Dict.getD_set]
  split
  · rename_i hr
    rw [Dict.mem_set]
    show t = item.task ∨ t ∈ q.tasksOf item.task.resource ↔ t = item.task ∨ t ∈ q.tasksOf t.resource
    rw [hr]
  · rename_i hr
    refine ⟨Or.inr, fun h => h.resolve_left fun he => hr (he ▸ rfl)⟩

theorem mem_of_queueItemForTask {p : ℕ × TaskQueueItem} (h : q.queueItemForTask t = some p) :
    t ∈ q := by
  simp only [queueItemForTask, Option.bind_eq_bind] at h
  obtain ⟨ref, href, -⟩ := Option.bind_eq_some_iff.mp h
  exact Dict.mem_of_get? href

@[simp] theorem mem_queuePutNowait {priority : TaskPriority} {at' : Option ℤ}
    {reason : Option String} :
    t' ∈ q.queuePutNowait t priority at' reason ↔ t' = t ∨ t' ∈ q := by
  unfold queuePutNowait
  cases hq : q.queueItemForTask t with
  | none =>
      cases at' with
      | some a => exact mem_putItem
      | none => exact mem_putItem
  | some p =>
      obtain ⟨ref, item⟩ := p
      simp only
      split
      · refine ⟨Or.inr, fun h => h.elim (fun he => he ▸ mem_of_queueItemForTask hq) id⟩
      · exact mem_putItem

theorem bumpInProgressPriorities_tasksByResource (q : AgentQueues)
    (resources : List ResourceIdStr) (priority : TaskPriority) :
    (q.bumpInProgressPriorities resources priority).tasksByResource = q.tasksByResource := by
  unfold bumpInProgressPriorities
  induction resources generalizing q with
  | nil => rfl
  | cons r resources ih =>
      rw [List.foldl_cons, ih]
      split
      · split <;> rfl
      · rfl

@[simp] theorem mem_bumpInProgressPriorities {resources : List ResourceIdStr}
    {priority : TaskPriority} : t ∈ q.bumpInProgressPriorities resources priority ↔ t ∈ q := by
  show t ∈ tasksOf _ _ ↔ t ∈ tasksOf _ _
  rw [tasksOf, tasksOf, bumpInProgressPriorities_tasksByResource]

/-! ## What is in progress -/

theorem mem_inProgress_bump {resources : List ResourceIdStr} {priority : TaskPriority} :
    t ∈ (q.bumpInProgressPriorities resources priority).inProgress ↔ t ∈ q.inProgress := by
  unfold bumpInProgressPriorities
  induction resources generalizing q with
  | nil => rfl
  | cons r resources ih =>
      rw [List.foldl_cons, ih]
      cases hp : q.inProgress.get? (.deploy r) with
      | none => rfl
      | some p =>
          simp only
          split
          · refine Dict.mem_set.trans ⟨fun h => h.elim (fun he => ?_) id, Or.inr⟩
            exact he ▸ Dict.mem_of_get? hp
          · rfl

@[simp] theorem discard_inProgress : (q.discard t).1.inProgress = q.inProgress := by
  unfold discard
  split <;> rfl

@[simp] theorem queuePutNowait_inProgress {priority : TaskPriority} {at' : Option ℤ}
    {reason : Option String} :
    (q.queuePutNowait t priority at' reason).inProgress = q.inProgress := by
  unfold queuePutNowait
  split
  · split <;> rfl
  · split <;> rfl

/-- A task that is consumed leaves the queue and is in progress. -/
theorem queueGet_spec {agent : String} {q' : AgentQueues} {item : TaskQueueItem}
    (h : q.queueGet agent = some (q', item)) :
    (∀ t, t ∈ q' ↔ t ∈ q ∧ t ≠ item.task)
      ∧ ∀ t, t ∈ q'.inProgress ↔ t = item.task ∨ t ∈ q.inProgress := by
  simp only [queueGet, Option.bind_eq_bind, Option.bind_eq_some_iff] at h
  obtain ⟨heap, -, p, -, hres⟩ := h
  obtain ⟨rfl, rfl⟩ := Prod.mk.inj (Option.some.inj hres)
  constructor
  · intro t
    exact mem_discard (q := { q with agentQueues := q.agentQueues.set agent p.2 })
  · intro t
    refine Dict.mem_set.trans ?_
    rw [discard_inProgress]

theorem taskDone_spec {q' : AgentQueues} (h : q.taskDone t = .ok q') :
    (∀ t', t' ∈ q' ↔ t' ∈ q) ∧ ∀ t', t' ∈ q'.inProgress ↔ t' ≠ t ∧ t' ∈ q.inProgress := by
  rw [taskDone] at h
  obtain ⟨-, -, hok⟩ := bind_eq_ok.mp h
  obtain rfl := Except.ok.inj hok
  exact ⟨fun _ => Iff.rfl, fun _ => Dict.mem_del⟩

end AgentQueues

end Inmanta
