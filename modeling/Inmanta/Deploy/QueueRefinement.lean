import Inmanta.Deploy.QueueLinks
import Inmanta.Lib.Run

/-!
# What agent queues are for

`TaskQueues` is what `AgentQueues` stands for: the queued tasks with their
priority and the moment they were requested, and the shutdown tasks that are
pending for each agent. Its steps say nothing of heaps or deleted items.
`view` reads it off the queues, and a run of `AgentQueues` refines it.
-/

namespace Inmanta

/-! ## The abstract queues -/

inductive QueueAction where
  | put (t : Task) (priority : TaskPriority) (requestedAt : Option ℤ) (reason : Option String)
  /-- `reserve_requested_at`, for a task that will be put later. -/
  | reserve (t : Task)
  | discard (t : Task)
  | sendShutdown (reason : String)
  | get (agent : String)
  /-- A consumer that waits in `queue_get` drops a deleted item. -/
  | skipDeleted (agent : String)

/-- What the agent queues stand for. -/
@[ext]
structure TaskQueues where
  entries : Task → Option (TaskPriority × ℤ)
  /-- The shutdown tasks that an agent has not consumed. -/
  shutdowns : String → ℕ
  known : String → Bool

namespace TaskQueues

/-- The moment is after the ones of all entries. -/
def Later (s : TaskQueues) (v : ℤ) : Prop := ∀ t e, s.entries t = some e → e.2 < v

/-- The task is queued for the agent, and no task queued for it is more urgent
or equally urgent and was requested earlier. -/
def First (s : TaskQueues) (agent : String) (t : Task) : Prop :=
  ∃ e, s.entries t = some e ∧ t.resource.agentName = agent ∧
    ∀ t' e', s.entries t' = some e' → t'.resource.agentName = agent →
      e.1.value < e'.1.value ∨ e.1.value = e'.1.value ∧ e.2 ≤ e'.2

def enter (s : TaskQueues) (t : Task) (priority : TaskPriority) (v : ℤ) : TaskQueues :=
  { s with
    entries := fun t' => if t' = t then some (priority, v) else s.entries t'
    known := fun agent => agent = t.resource.agentName || s.known agent }

def leave (s : TaskQueues) (t : Task) : TaskQueues :=
  { s with entries := fun t' => if t' = t then none else s.entries t' }

/-- Every agent that is known gets a shutdown task. -/
def addShutdowns (s : TaskQueues) : TaskQueues :=
  { s with shutdowns := fun agent => s.shutdowns agent + if s.known agent then 1 else 0 }

def takeShutdown (s : TaskQueues) (agent : String) : TaskQueues :=
  { s with shutdowns := fun a => s.shutdowns a - if a = agent then 1 else 0 }

/-- The steps, with the task that is returned. -/
inductive Step : TaskQueues → QueueAction → Option Task → TaskQueues → Prop
  | keep {s t e priority requestedAt reason} : s.entries t = some e →
      e.1.value ≤ priority.value → Step s (.put t priority requestedAt reason) none s
  | reschedule {s t e priority requestedAt reason v} : s.entries t = some e →
      priority.value < e.1.value → s.Later v →
      Step s (.put t priority requestedAt reason) none (s.enter t priority v)
  | enter {s t priority requestedAt reason v} : s.entries t = none →
      requestedAt = some v ∨ requestedAt = none ∧ s.Later v →
      Step s (.put t priority requestedAt reason) none (s.enter t priority v)
  | reserve {s t} : Step s (.reserve t) none s
  | discard {s t} : Step s (.discard t) none (s.leave t)
  | sendShutdown {s reason} : Step s (.sendShutdown reason) none s.addShutdowns
  | getShutdown {s agent} : 0 < s.shutdowns agent →
      Step s (.get agent) (some shutdownTask) (s.takeShutdown agent)
  | getTask {s agent t} : s.shutdowns agent = 0 → s.First agent t →
      Step s (.get agent) (some t) (s.leave t)
  | skipDeleted {s agent} : Step s (.skipDeleted agent) none s

end TaskQueues

namespace AgentQueues

variable {q q' : AgentQueues} {owner : ℤ → Option Task} {skip : Task → Prop} {t : Task}

/-! ## The view of the queues -/

def rank (item : TaskQueueItem) : TaskPriority × ℤ := (item.priority, item.requestedAt)

/-- The reference is to an item of the shutdown task. -/
def isShutdown (q : AgentQueues) (ref : ℕ) : Bool :=
  match q.items[ref]? with
  | some item => item.task = shutdownTask
  | none => false

def view (q : AgentQueues) : TaskQueues where
  entries t := ((q.tasksOf t.resource).get? t).bind fun ref => (q.items[ref]?).map rank
  shutdowns agent := (q.heap agent).countP q.isShutdown
  known agent := decide (agent ∈ q.agentQueues)

theorem view_entries_eq_none (h : q.Linked owner) : q.view.entries t = none ↔ t ∉ q := by
  constructor
  · intro hn hmem
    obtain ⟨ref, href⟩ := Dict.mem_iff.mp hmem
    obtain ⟨item, hi, -⟩ := h.filedItem t ref (fun hf => hf) href
    simp [view, href, hi] at hn
  · intro hn
    simp only [view]
    rw [Dict.not_mem_iff.mp hn]
    rfl

/-- An entry of the view is a queued item. -/
theorem exists_item_of_entry (h : q.Linked owner) {e : TaskPriority × ℤ}
    (he : q.view.entries t = some e) : ∃ ref, ∃ item : TaskQueueItem,
      (q.tasksOf t.resource).get? t = some ref ∧ q.items[ref]? = some item ∧ item.task = t ∧
        item.deleted = false ∧ t ≠ shutdownTask ∧ ref ∈ q.heap t.resource.agentName ∧
        e = rank item := by
  obtain ⟨ref, href, hitem⟩ := Option.bind_eq_some_iff.mp he
  obtain ⟨item, hi, rfl⟩ := Option.map_eq_some_iff.mp hitem
  obtain ⟨item', hi', htask, hd, hp, hm⟩ := h.filedItem t ref (fun hf => hf) href
  obtain rfl := Option.some.inj (hi.symm.trans hi')
  exact ⟨ref, item, href, hi, htask, hd, hp, hm, rfl⟩

theorem entry_of_item {ref : ℕ} {item : TaskQueueItem}
    (href : (q.tasksOf t.resource).get? t = some ref) (hi : q.items[ref]? = some item) :
    q.view.entries t = some (rank item) := by
  simp [view, href, hi]

theorem map_rank_markDeleted (ref i : ℕ) :
    ((q.markDeleted ref).items[i]?).map rank = (q.items[i]?).map rank := by
  rw [items_markDeleted, Option.map_map]
  congr 1
  funext item
  simp only [Function.comp_apply]
  split <;> rfl

theorem isShutdown_markDeleted (ref : ℕ) : (q.markDeleted ref).isShutdown = q.isShutdown := by
  funext i
  rw [isShutdown, isShutdown, items_markDeleted]
  cases q.items[i]? with
  | none => rfl
  | some item =>
      simp only [Option.map_some]
      split <;> rfl

/-- Items that are added change nothing for the references that exist. -/
theorem countP_isShutdown_append {items : List TaskQueueItem} (hitems : q'.items = q.items ++ items)
    {heap : List ℕ} (hvalid : ∀ ref ∈ heap, ref < q.items.length) :
    heap.countP q'.isShutdown = heap.countP q.isShutdown := by
  refine List.countP_congr fun ref hr => ?_
  rw [isShutdown, isShutdown, hitems, List.getElem?_append_left (hvalid ref hr)]

theorem view_discard (q : AgentQueues) (t : Task) : (q.discard t).1.view = q.view.leave t := by
  have hitems : ∀ i, ((q.discard t).1.items[i]?).map rank = (q.items[i]?).map rank ∧
      (q.discard t).1.isShutdown i = q.isShutdown i := fun i => by
    cases href : (q.tasksOf t.resource).get? t with
    | none => rw [discard_eq_self href]; exact ⟨rfl, rfl⟩
    | some ref =>
        have hi := discard_items href
        have hs : (q.discard t).1.isShutdown i = (q.markDeleted ref).isShutdown i := by
          rw [isShutdown, isShutdown, hi]
        rw [hi, map_rank_markDeleted, hs, isShutdown_markDeleted]
        exact ⟨rfl, rfl⟩
  ext1
  · funext t'
    simp only [view, TaskQueues.leave, discard_tasksOf]
    split
    · rfl
    · exact congrArg _ (funext fun i => (hitems i).1)
  · funext agent
    simp only [view, TaskQueues.leave, discard_heap]
    exact congrArg (fun p => List.countP p _) (funext fun i => (hitems i).2)
  · funext agent
    simp only [view, TaskQueues.leave]
    unfold AgentQueues.discard
    split <;> rfl

theorem view_putItem {item : TaskQueueItem} (h : q.LinkedBut owner (· = item.task))
    (hpill : item.task ≠ shutdownTask) :
    (q.putItem item).view = q.view.enter item.task item.priority item.requestedAt := by
  have hitems := putItem_items (q := q) item
  ext1
  · funext t
    simp only [view, TaskQueues.enter, putItem_tasksOf]
    by_cases ht : t = item.task
    · rw [if_pos ht, if_pos ht, Option.bind_some, hitems, List.getElem?_concat_length]
      rfl
    · rw [if_neg ht, if_neg ht]
      cases href : (q.tasksOf t.resource).get? t with
      | none => rfl
      | some ref =>
          obtain ⟨item', hi, -⟩ := h.filedItem t ref ht href
          rw [Option.bind_some, Option.bind_some, hitems,
            List.getElem?_append_left (List.getElem?_eq_some_iff.mp hi).1]
  · funext agent
    have hold := countP_isShutdown_append hitems (h.valid agent)
    have hnew : (q.putItem item).isShutdown q.items.length = false := by
      rw [isShutdown, hitems, List.getElem?_concat_length]
      exact decide_eq_false hpill
    simp only [view, TaskQueues.enter, putItem_heap]
    split
    · rw [heappush_perm.countP_eq, List.countP_cons, hnew, hold]
      rfl
    · exact hold
  · funext agent
    simp only [view, TaskQueues.enter, AgentQueues.putItem]
    rw [← Bool.decide_or]
    exact decide_eq_decide.mpr Dict.mem_set

theorem view_sendShutdown (h : q.Linked owner) (reason : String) :
    (q.sendShutdown reason).view = q.view.addShutdowns := by
  have hitems := sendShutdown_items q reason
  have htasks := (sendShutdown_tasksByResource q reason).1
  ext1
  · funext t
    simp only [view, TaskQueues.addShutdowns, tasksOf, htasks]
    cases href : (q.tasksByResource.getD t.resource Dict.empty).get? t with
    | none => rfl
    | some ref =>
        obtain ⟨item', hi, -⟩ := h.filedItem t ref (fun hf => hf) href
        rw [Option.bind_some, Option.bind_some, hitems,
          List.getElem?_append_left (List.getElem?_eq_some_iff.mp hi).1]
  · funext agent
    have hold := countP_isShutdown_append hitems (h.valid agent)
    have hnew : (q.sendShutdown reason).isShutdown q.items.length = true := by
      rw [isShutdown, hitems, List.getElem?_concat_length]
      exact decide_eq_true rfl
    simp only [view, TaskQueues.addShutdowns, sendShutdown_heap, decide_eq_true_eq]
    split
    · rw [heappush_perm.countP_eq, List.countP_cons, hnew, hold]
      rfl
    · exact hold
  · funext agent
    exact decide_eq_decide.mpr (mem_sendShutdown_agentQueues q reason agent)

theorem Linked.later (h : q.Linked owner) : q.view.Later q.entryCount := by
  intro t e he
  obtain ⟨ref, item, -, hi, htask, -, hp, -, rfl⟩ := exists_item_of_entry h he
  obtain ⟨ht, -⟩ | ⟨-, hown⟩ := h.owned ref item hi
  · exact absurd (htask.symm.trans ht) hp
  · exact (h.reserved _ _ hown).2

/-- `queue_put_nowait` is a put of the abstract queues. -/
theorem queuePut_step (h : q.Linked owner) {priority : TaskPriority} {requestedAt : Option ℤ}
    {reason : Option String} (hpill : t ≠ shutdownTask) :
    q.view.Step (.put t priority requestedAt reason) none
      (q.queuePutNowait t priority requestedAt reason).view := by
  obtain ⟨ref, item, hitem, hle, heq⟩ | ⟨ref, item, hitem, hlt, heq⟩ | ⟨hn, v, hv, heq⟩ |
    ⟨hn, hv, heq⟩ := queuePut_cases h t priority requestedAt reason
  · rw [heq]
    obtain ⟨href, hi⟩ := queueItemForTask_eq_some.mp hitem
    exact .keep (entry_of_item href hi) hle
  · rw [heq]
    obtain ⟨href, hi⟩ := queueItemForTask_eq_some.mp hitem
    have hm := (h.markDeleted href).reserve t
    rw [view_putItem hm hpill]
    have hview : (q.markDeleted ref).reserveRequestedAt.1.view = q.view := by
      ext1
      · funext t'
        exact congrArg (Option.bind ((q.tasksOf t'.resource).get? t'))
          (funext fun i => map_rank_markDeleted ref i)
      · funext agent
        exact congrArg (fun p => (q.heap agent).countP p) (isShutdown_markDeleted ref)
      · rfl
    rw [hview]
    exact .reschedule (entry_of_item href hi) hlt h.later
  · rw [heq, view_putItem (h.but hn) hpill]
    exact .enter ((view_entries_eq_none h).mpr hn) (Or.inl hv)
  · rw [heq, view_putItem ((h.but hn).reserve t) hpill]
    exact .enter ((view_entries_eq_none h).mpr hn) (Or.inr ⟨hv, h.later⟩)

/-! ## What is consumed -/

theorem Linked.isShutdown_deleted (h : q.Linked owner) {ref : ℕ} (hd : q.DeletedRef ref) :
    q.isShutdown ref = false := by
  obtain ⟨item, hi, hdel⟩ := hd
  rw [isShutdown, hi]
  obtain ⟨-, -, -, hnot⟩ | ⟨hne, -⟩ := h.owned ref item hi
  · rw [hdel] at hnot
    cases hnot
  · exact decide_eq_false hne

theorem Linked.countP_dropped (h : q.Linked owner) {dropped : List ℕ}
    (hd : ∀ r ∈ dropped, q.DeletedRef r) : dropped.countP q.isShutdown = 0 :=
  List.countP_eq_zero.mpr fun r hr => by
    rw [h.isShutdown_deleted (hd r hr)]
    exact Bool.false_ne_true

section Consumes

variable {agent : String} {item : TaskQueueItem} {ref : ℕ} {dropped rest : List ℕ}

theorem Consumes.shutdowns (c : q.Consumes agent q' item ref dropped rest) (h : q.Linked owner) :
    q.view.shutdowns agent =
      rest.countP q.isShutdown + if item.task = shutdownTask then 1 else 0 := by
  show (q.heap agent).countP q.isShutdown = _
  rw [← c.perm.countP_eq, List.countP_append, h.countP_dropped c.dropped, Nat.zero_add,
    List.countP_cons]
  congr 1
  rw [isShutdown, c.get]
  simp

theorem Consumes.known_iff (c : q.Consumes agent q' item ref dropped rest) (agent' : String) :
    agent' ∈ q'.agentQueues ↔ agent' ∈ q.agentQueues := by
  have hdiscard : (q.discard item.task).1.agentQueues = q.agentQueues := by
    unfold AgentQueues.discard
    split <;> rfl
  rw [c.queues]
  show agent' ∈ (q.discard item.task).1.agentQueues.set agent rest ↔ _
  rw [Dict.mem_set, hdiscard]
  exact ⟨fun ha => ha.elim (fun he => he ▸ c.known) id, Or.inr⟩

theorem Consumes.view_shutdowns (c : q.Consumes agent q' item ref dropped rest)
    (agent' : String) : q'.view.shutdowns agent' =
      if agent' = agent then rest.countP q.isShutdown else q.view.shutdowns agent' := by
  have hshut : (q.discard item.task).1.isShutdown = q.isShutdown := by
    funext i
    cases href : (q.tasksOf item.task.resource).get? item.task with
    | none => rw [discard_eq_self href]
    | some ref =>
        have hs : (q.discard item.task).1.isShutdown i = (q.markDeleted ref).isShutdown i := by
          rw [isShutdown, isShutdown, discard_items href]
        rw [hs, isShutdown_markDeleted]
  rw [c.queues]
  show (((q.discard item.task).1.setHeap agent rest).heap agent').countP
    (q.discard item.task).1.isShutdown = _
  rw [setHeap_heap, hshut]
  split
  · rfl
  · rw [discard_heap]
    rfl

theorem Consumes.view_entries (c : q.Consumes agent q' item ref dropped rest) :
    q'.view.entries = (q.view.leave item.task).entries := by
  rw [c.queues, ← view_discard]
  rfl

/-- The item of the shutdown task is before all others. -/
theorem Linked.shutdown_lt (h : q.Linked owner) {r : ℕ} {pill item : TaskQueueItem}
    (hpill : q.items[r]? = some pill) (ht : pill.task = shutdownTask)
    (hitem : q.items[ref]? = some item) (hne : item.task ≠ shutdownTask) :
    q.refLt r ref = true := by
  obtain ⟨-, hprio, hat, -⟩ | ⟨hn, -⟩ := h.owned r pill hpill
  · obtain ⟨ht', -⟩ | ⟨-, hown⟩ := h.owned ref item hitem
    · exact absurd ht' hne
    · have hpos := (h.reserved _ _ hown).1
      rw [refLt_of_get hpill hitem, TaskQueueItem.lt, hprio, hat]
      cases hp : item.priority <;> simp [TaskPriority.value]
      omega
  · exact absurd ht hn

theorem Consumes.first (c : q.Consumes agent q' item ref dropped rest) (h : q.Linked owner)
    (hne : item.task ≠ shutdownTask) : q.view.First agent item.task := by
  obtain ⟨hagent, hfiled⟩ := c.filed h hne
  refine ⟨rank item, entry_of_item hfiled c.get, hagent, fun t' e' he' ha' => ?_⟩
  obtain ⟨r, item', -, hi', -, hd', -, hm', rfl⟩ := exists_item_of_entry h he'
  have hmem := c.perm.mem_iff.mpr (ha' ▸ hm')
  have hcase : r = ref ∨ r ∈ rest := by
    obtain hr | hr := List.mem_append.mp hmem
    · obtain ⟨item'', hi'', hdel⟩ := c.dropped r hr
      obtain rfl := Option.some.inj (hi'.symm.trans hi'')
      rw [hd'] at hdel
      cases hdel
    · exact List.mem_cons.mp hr
  obtain rfl | hr := hcase
  · obtain rfl := Option.some.inj (hi'.symm.trans c.get)
    exact Or.inr ⟨rfl, le_refl _⟩
  · have hle := c.least r hr
    rw [refLt_of_get hi' c.get, TaskQueueItem.lt_eq_false] at hle
    obtain (hlt | ⟨heq, hlt⟩) | ⟨⟨heq, hat⟩, -⟩ := hle
    · exact Or.inl hlt
    · exact Or.inr ⟨heq, le_of_lt hlt⟩
    · exact Or.inr ⟨heq, le_of_eq hat⟩

/-- `queue_get` is a get of the abstract queues. -/
theorem Consumes.step (c : q.Consumes agent q' item ref dropped rest) (h : q.Linked owner) :
    q.view.Step (.get agent) (some item.task) q'.view := by
  have hcount := c.shutdowns h
  have hknown : q'.view.known = q.view.known :=
    funext fun agent' => decide_eq_decide.mpr (c.known_iff agent')
  by_cases hp : item.task = shutdownTask
  · rw [if_pos hp] at hcount
    have heq : q'.view = q.view.takeShutdown agent := by
      refine TaskQueues.ext ?_ (funext fun a => ?_) hknown
      · rw [c.view_entries, hp, ← view_discard, discard_eq_self h.not_filed_shutdown]
        rfl
      · rw [c.view_shutdowns]
        simp only [TaskQueues.takeShutdown]
        split
        · next ha =>
          rw [ha, hcount]
          rfl
        · rfl
    rw [heq, hp]
    exact .getShutdown (by omega)
  · rw [if_neg hp] at hcount
    have hrest : rest.countP q.isShutdown = 0 := by
      refine List.countP_eq_zero.mpr fun r hr hs => ?_
      rw [isShutdown] at hs
      split at hs
      · next pill hpill =>
        have := h.shutdown_lt hpill (of_decide_eq_true hs) c.get hp
        rw [c.least r hr] at this
        cases this
      · cases hs
    have heq : q'.view = q.view.leave item.task := by
      refine TaskQueues.ext c.view_entries (funext fun a => ?_) hknown
      rw [c.view_shutdowns]
      split
      · next ha =>
        rw [hrest, ha]
        exact (hcount.trans (by rw [hrest])).symm
      · rfl
    rw [heq]
    exact .getTask (hcount.trans (by rw [hrest])) (c.first h hp)

end Consumes

/-- If nothing is consumed, nothing is queued. -/
theorem queueGet_eq_none (h : q.Linked owner) {agent : String} (hget : q.queueGet agent = none) :
    q.view.shutdowns agent = 0 ∧ ∀ t, t.resource.agentName = agent → t ∉ q := by
  have hall : ∀ r ∈ q.heap agent, q.DeletedRef r := by
    cases hheap : q.agentQueues.get? agent with
    | none =>
        have : q.heap agent = [] := by rw [heap, Dict.getD, hheap]; rfl
        rw [this]
        exact fun r hr => absurd hr List.not_mem_nil
    | some heap =>
        have hq := heap_of_get? hheap
        rw [hq]
        have hpop : q.popLive heap.length heap = none := by
          by_contra hne
          obtain ⟨p, hp⟩ := Option.ne_none_iff_exists'.mp hne
          simp [queueGet, hheap, hp] at hget
        exact popLive_eq_none (le_refl _) (hq ▸ h.valid agent) hpop
  refine ⟨h.countP_dropped hall, fun t ha hmem => ?_⟩
  obtain ⟨ref, href⟩ := Dict.mem_iff.mp hmem
  obtain ⟨item, hi, -, hd, -, hm⟩ := h.filedItem t ref (fun hf => hf) href
  obtain ⟨item', hi', hdel⟩ := hall ref (ha ▸ hm)
  obtain rfl := Option.some.inj (hi.symm.trans hi')
  rw [hd] at hdel
  cases hdel

/-! ## Runs -/

/-- A consumer that waits pops an item that is deleted. -/
def skipDeleted (q : AgentQueues) (agent : String) : Option AgentQueues := do
  let heap ← q.agentQueues.get? agent
  let (ref, rest) ← heappop q.refLt heap
  let item ← q.items[ref]?
  if item.deleted then return q.setHeap agent rest else none

/-- The queues after the action, with the task that is returned. -/
def perform (q : AgentQueues) : QueueAction → Option (AgentQueues × Option Task)
  | .put t priority requestedAt reason =>
      return (q.queuePutNowait t priority requestedAt reason, none)
  | .reserve _ => return (q.reserveRequestedAt.1, none)
  | .discard t => return ((q.discard t).1, none)
  | .sendShutdown reason => return (q.sendShutdown reason, none)
  | .get agent => do
      let (q, item) ← q.queueGet agent
      return (q, some item.task)
  | .skipDeleted agent => do return (← q.skipDeleted agent, none)

theorem skipDeleted_spec (h : q.Linked owner) {agent : String}
    (hs : q.skipDeleted agent = some q') : q'.Linked owner ∧ q'.view = q.view := by
  simp only [skipDeleted, Option.bind_eq_bind, Option.bind_eq_some_iff] at hs
  obtain ⟨heap, hheap, ⟨ref, rest⟩, hpop, item, hi, hres⟩ := hs
  split at hres
  · next hdel =>
    obtain rfl := Option.some.inj hres
    have hq := heap_of_get? hheap
    subst hq
    have hperm := heappop_perm hpop
    have hdeleted : q.DeletedRef ref := ⟨item, hi, hdel⟩
    have hord := heappop_ordered (weakOrder_refLt q) (h.valid agent) (h.ordered agent) hpop
    refine ⟨h.setHeap (fun r hr => hperm.mem_iff.mp (List.mem_cons_of_mem _ hr))
      (List.nodup_cons.mp (hperm.nodup_iff.mpr (h.nodup agent))).2 hord fun r hr hn => ?_, ?_⟩
    · obtain rfl | hr := List.mem_cons.mp (hperm.mem_iff.mpr hr)
      · exact Or.inl hdeleted
      · exact absurd hr hn
    · refine TaskQueues.ext rfl (funext fun a => ?_) (funext fun a => ?_)
      · show ((q.setHeap agent rest).heap a).countP q.isShutdown = (q.heap a).countP q.isShutdown
        rw [setHeap_heap]
        split
        · next ha =>
          rw [ha, ← hperm.countP_eq, List.countP_cons, h.isShutdown_deleted hdeleted]
          rfl
        · rfl
      · refine decide_eq_decide.mpr (Dict.mem_set.trans ⟨fun ha => ?_, Or.inr⟩)
        obtain rfl | ha := ha
        · exact Dict.mem_of_get? hheap
        · exact ha
  · cases hres

end AgentQueues

/-- The queues of a run, and what happened to each task: how often it was put
when it was not queued, how often it was removed while it was, and how often it
was returned. -/
structure QueueRun where
  queues : AgentQueues
  /-- The task that a requested-at value was reserved for. -/
  owner : ℤ → Option Task
  accepted : Task → ℕ
  removed : Task → ℕ
  returned : Task → ℕ

namespace QueueRun

def empty : QueueRun := ⟨.empty, fun _ => none, fun _ => 0, fun _ => 0, fun _ => 0⟩

def count (f : Task → ℕ) (t : Task) (b : Bool) : Task → ℕ :=
  fun t' => f t' + if t' = t ∧ b then 1 else 0

def ownerAfter (s : QueueRun) (q : AgentQueues) : QueueAction → ℤ → Option Task
  | .put t .. => s.queues.ownerAfter q s.owner t
  | .reserve t => AgentQueues.own s.owner s.queues.entryCount t
  | _ => s.owner

def acceptedAfter (s : QueueRun) : QueueAction → Task → ℕ
  | .put t .. => count s.accepted t (decide (t ∉ s.queues))
  | _ => s.accepted

def removedAfter (s : QueueRun) : QueueAction → Task → ℕ
  | .discard t => count s.removed t (decide (t ∈ s.queues))
  | _ => s.removed

def returnedAfter (s : QueueRun) : Option Task → Task → ℕ
  | some t => count s.returned t true
  | none => s.returned

def step (s : QueueRun) (a : QueueAction) : Option QueueRun := do
  let (q, out) ← s.queues.perform a
  return ⟨q, s.ownerAfter q a, s.acceptedAfter a, s.removedAfter a, s.returnedAfter out⟩

/-- The shutdown task is not put, and a requested-at value is used for the task
it was reserved for. -/
def Permitted (s : QueueRun) : QueueAction → Prop
  | .put t _ requestedAt _ =>
      t ≠ shutdownTask ∧ ∀ v ∈ requestedAt, s.owner v = some t
  | _ => True

instance (s : QueueRun) (a : QueueAction) : Decidable (s.Permitted a) := by
  cases a <;> unfold Permitted <;> infer_instance

/-- Each time that a task was put, it was removed or returned later, or it is
still queued. -/
def Balanced (s : QueueRun) : Prop :=
  ∀ t, t ≠ shutdownTask →
    s.accepted t = s.removed t + s.returned t + if t ∈ s.queues then 1 else 0

def Valid (s : QueueRun) : Prop := s.queues.Linked s.owner ∧ s.Balanced

variable {s s' : QueueRun} {a : QueueAction}

theorem valid_empty : empty.Valid :=
  ⟨AgentQueues.linked_empty, fun t _ => by
    rw [if_neg (show t ∉ empty.queues from AgentQueues.not_mem_empty t)]
    rfl⟩

/-- **One step.** An action that is permitted is one of the abstract queues, and
returns the same task. -/
theorem perform_step {q' : AgentQueues} {out : Option Task} (h : s.queues.Linked s.owner)
    (hok : s.Permitted a) (hp : s.queues.perform a = some (q', out)) :
    q'.Linked (s.ownerAfter q' a) ∧ s.queues.view.Step a out q'.view := by
  cases a with
  | put t priority requestedAt reason =>
      obtain ⟨rfl, rfl⟩ := Prod.mk.inj (Option.some.inj hp)
      exact ⟨h.queuePut hok.1 hok.2, AgentQueues.queuePut_step h hok.1⟩
  | reserve t =>
      obtain ⟨rfl, rfl⟩ := Prod.mk.inj (Option.some.inj hp)
      exact ⟨AgentQueues.LinkedBut.reserve h t, .reserve⟩
  | discard t =>
      obtain ⟨rfl, rfl⟩ := Prod.mk.inj (Option.some.inj hp)
      refine ⟨h.discard t, ?_⟩
      rw [AgentQueues.view_discard]
      exact .discard
  | sendShutdown reason =>
      obtain ⟨rfl, rfl⟩ := Prod.mk.inj (Option.some.inj hp)
      refine ⟨h.sendShutdown reason, ?_⟩
      rw [AgentQueues.view_sendShutdown h]
      exact .sendShutdown
  | get agent =>
      simp only [AgentQueues.perform, Option.bind_eq_bind, Option.bind_eq_some_iff] at hp
      obtain ⟨⟨q, item⟩, hget, hres⟩ := hp
      obtain ⟨rfl, rfl⟩ := Prod.mk.inj (Option.some.inj hres)
      obtain ⟨ref, dropped, rest, hc⟩ := AgentQueues.queueGet_consumes h hget
      exact ⟨h.consumes hc, hc.step h⟩
  | skipDeleted agent =>
      simp only [AgentQueues.perform, Option.bind_eq_bind, Option.bind_eq_some_iff] at hp
      obtain ⟨q, hskip, hres⟩ := hp
      obtain ⟨rfl, rfl⟩ := Prod.mk.inj (Option.some.inj hres)
      obtain ⟨hl, hview⟩ := AgentQueues.skipDeleted_spec h hskip
      refine ⟨hl, ?_⟩
      rw [hview]
      exact .skipDeleted

/-- What the action does to the tasks that are queued. -/
theorem perform_mem {q' : AgentQueues} {out : Option Task} (h : s.queues.Linked s.owner)
    (hp : s.queues.perform a = some (q', out)) (t : Task) (ht : t ≠ shutdownTask) :
    (if t ∈ s.queues then 1 else 0) + s.acceptedAfter a t + s.removed t + s.returned t =
      (if t ∈ q' then 1 else 0) + s.accepted t + s.removedAfter a t + s.returnedAfter out t := by
  cases a with
  | put t₀ priority requestedAt reason =>
      obtain ⟨rfl, rfl⟩ := Prod.mk.inj (Option.some.inj hp)
      simp only [acceptedAfter, removedAfter, returnedAfter, count,
        AgentQueues.mem_queuePutNowait, decide_eq_true_eq]
      by_cases h₀ : t = t₀
      · subst h₀
        by_cases hq : t ∈ s.queues
        · simp [hq]
        · simp [hq]
          omega
      · simp [h₀]
  | reserve t₀ =>
      obtain ⟨rfl, rfl⟩ := Prod.mk.inj (Option.some.inj hp)
      rfl
  | discard t₀ =>
      obtain ⟨rfl, rfl⟩ := Prod.mk.inj (Option.some.inj hp)
      simp only [acceptedAfter, removedAfter, returnedAfter, count, AgentQueues.mem_discard,
        decide_eq_true_eq]
      by_cases h₀ : t = t₀
      · subst h₀
        by_cases hq : t ∈ s.queues
        · simp [hq]
          omega
        · simp [hq]
      · simp [h₀]
  | sendShutdown reason =>
      obtain ⟨rfl, rfl⟩ := Prod.mk.inj (Option.some.inj hp)
      have hmem : t ∈ s.queues.sendShutdown reason ↔ t ∈ s.queues := by
        show t ∈ AgentQueues.tasksOf _ _ ↔ t ∈ AgentQueues.tasksOf _ _
        rw [AgentQueues.tasksOf, (AgentQueues.sendShutdown_tasksByResource _ reason).1]
        rfl
      simp only [hmem]
      rfl
  | get agent =>
      simp only [AgentQueues.perform, Option.bind_eq_bind, Option.bind_eq_some_iff] at hp
      obtain ⟨⟨q, item⟩, hget, hres⟩ := hp
      obtain ⟨rfl, rfl⟩ := Prod.mk.inj (Option.some.inj hres)
      have hmem := (AgentQueues.queueGet_spec hget).1 t
      simp only [acceptedAfter, removedAfter, returnedAfter, count, hmem, and_true]
      by_cases h₀ : t = item.task
      · subst h₀
        obtain ⟨ref, dropped, rest, hc⟩ := AgentQueues.queueGet_consumes h hget
        have hq : item.task ∈ s.queues := Dict.mem_of_get? (hc.filed h ht).2
        simp [hq]
        omega
      · simp [h₀]
  | skipDeleted agent =>
      simp only [AgentQueues.perform, Option.bind_eq_bind, Option.bind_eq_some_iff] at hp
      obtain ⟨q, hskip, hres⟩ := hp
      obtain ⟨rfl, rfl⟩ := Prod.mk.inj (Option.some.inj hres)
      obtain ⟨hl, hview⟩ := AgentQueues.skipDeleted_spec h hskip
      have hmem : t ∈ q ↔ t ∈ s.queues := by
        rw [← not_iff_not, ← AgentQueues.view_entries_eq_none hl, hview,
          AgentQueues.view_entries_eq_none h]
      simp only [hmem]
      rfl

theorem Valid.step (h : s.Valid) (hok : s.Permitted a) (hs : s.step a = some s') : s'.Valid := by
  simp only [QueueRun.step, Option.bind_eq_bind, Option.bind_eq_some_iff] at hs
  obtain ⟨⟨q', out⟩, hp, hres⟩ := hs
  obtain rfl := Option.some.inj hres
  obtain ⟨hl, hb⟩ := h
  refine ⟨(perform_step hl hok hp).1, fun t ht => ?_⟩
  have hmem := perform_mem hl hp t ht
  have hold := hb t ht
  dsimp only
  omega

theorem valid_of_run {actions : List QueueAction} (hrun : run step empty actions = some s)
    (hok : Along step Permitted empty actions) : s.Valid :=
  run_invariant (fun _ _ _ h hok hs => h.step hok hs) valid_empty hok hrun

end QueueRun

/-- **The agent queues are deletable priority queues.** After any actions, the
heaps are ordered, and marking a queued item as deleted keeps them so. Every
further action does what it does to the abstract queues: `queue_get` returns the
first of the tasks that are queued, and a task that is queued at an equal or
more urgent priority stays where it is. What is returned is never an item that
was removed or superseded. Each time a task is put it is removed or returned
once, at the latest when a consumer finds nothing more. -/
theorem agentQueues_refine {s : QueueRun} {actions : List QueueAction}
    (hrun : run QueueRun.step .empty actions = some s)
    (hok : Along QueueRun.step QueueRun.Permitted .empty actions) :
    (∀ agent, Ordered s.queues.refLt (s.queues.heap agent)) ∧
      (∀ t ref, (s.queues.tasksOf t.resource).get? t = some ref →
        ∀ agent, Ordered (s.queues.markDeleted ref).refLt (s.queues.heap agent)) ∧
      (∀ a q' out, s.Permitted a → s.queues.perform a = some (q', out) →
        s.queues.view.Step a out q'.view) ∧
      (∀ agent q' item, s.queues.queueGet agent = some (q', item) →
        item.deleted = false ∧ (item.task ≠ shutdownTask →
          ∃ ref, s.queues.queueItemForTask item.task = some (ref, item))) ∧
      (∀ agent, s.queues.queueGet agent = none → s.queues.view.shutdowns agent = 0 ∧
        ∀ t, t.resource.agentName = agent → t ≠ shutdownTask →
          s.accepted t = s.removed t + s.returned t) ∧
      s.Balanced := by
  obtain ⟨hl, hb⟩ := QueueRun.valid_of_run hrun hok
  refine ⟨hl.ordered, fun t ref href => hl.markDeleted_ordered href,
    fun a q' out hp hs => (QueueRun.perform_step hl hp hs).2, fun agent q' item hget => ?_,
    fun agent hnone => ?_, hb⟩
  · obtain ⟨ref, dropped, rest, hc⟩ := AgentQueues.queueGet_consumes hl hget
    exact ⟨hc.notDeleted, fun hne => ⟨ref, AgentQueues.queueItemForTask_eq_some.mpr
      ⟨(hc.filed hl hne).2, hc.get⟩⟩⟩
  · obtain ⟨hshut, hnot⟩ := AgentQueues.queueGet_eq_none hl hnone
    refine ⟨hshut, fun t ha hne => ?_⟩
    have := hb t hne
    rw [if_neg (hnot t ha)] at this
    exact this

/-- The deploy of `File[agent,path=id]`. -/
def fileDeploy (agent id : String) : Task := .deploy ⟨"File", agent, "path", id⟩

/-- A task is put with a value that was reserved for it, moved to a more urgent
priority, deferred, and put again where it was. -/
def deferredTask : List QueueAction :=
  [.reserve (fileDeploy "a" "x"), .put (fileDeploy "a" "x") .intervalDeploy (some 0) none,
    .put (fileDeploy "a" "y") .userDeploy none none,
    .put (fileDeploy "a" "x") .userDeploy none none, .discard (fileDeploy "a" "x"),
    .put (fileDeploy "a" "x") .userDeploy (some 2) none, .sendShutdown "stop", .get "a",
    .get "a"]

theorem agentQueues_refine_deferredTask : ∃ s, run QueueRun.step .empty deferredTask = some s ∧
    (∀ agent, Ordered s.queues.refLt (s.queues.heap agent)) ∧
      ∀ agent, s.queues.queueGet agent = none → s.queues.view.shutdowns agent = 0 ∧
        ∀ t, t.resource.agentName = agent → t ≠ shutdownTask →
          s.accepted t = s.removed t + s.returned t := by
  obtain ⟨s, hrun, -⟩ := exists_run_of_any QueueRun.step .empty deferredTask
    (p := fun s => s.returned (fileDeploy "a" "y") = 1) (by decide)
  obtain ⟨hordered, -, -, -, hend, -⟩ := agentQueues_refine hrun (by decide)
  exact ⟨s, hrun, hordered, hend⟩

/-- Two tasks are put with one reserved value: removing the second one breaks
the order of the heap. And a shutdown task that is put like any other is marked
as deleted when another agent consumes the one it was sent. -/
theorem sharedReservation_breaks_order :
    (∃ s, run QueueRun.step .empty [.reserve (fileDeploy "a" "x"),
        .put (fileDeploy "a" "x") .userDeploy (some 0) none,
        .put (fileDeploy "a" "y") .userDeploy (some 0) none,
        .discard (fileDeploy "a" "y")] = some s ∧
      ¬ Ordered s.queues.refLt (s.queues.heap "a")) ∧
    ∃ s, run QueueRun.step .empty [.put shutdownTask .userDeploy none none,
        .put (fileDeploy "a" "x") .userDeploy none none, .sendShutdown "stop",
        .get "a"] = some s ∧
      s.removed shutdownTask = 0 ∧ 0 ∈ s.queues.heap "all" ∧
        (s.queues.items[0]?).map (·.deleted) = some true := by
  constructor
  · obtain ⟨s, hrun, h0, h1, hlt⟩ := exists_run_of_any QueueRun.step .empty
      [.reserve (fileDeploy "a" "x"), .put (fileDeploy "a" "x") .userDeploy (some 0) none,
        .put (fileDeploy "a" "y") .userDeploy (some 0) none, .discard (fileDeploy "a" "y")]
      (p := fun s => (s.queues.heap "a")[0]? = some 0 ∧ (s.queues.heap "a")[1]? = some 1 ∧
        s.queues.refLt 1 0 = true) (by decide)
    refine ⟨s, hrun, fun ho => ?_⟩
    rw [ho 1 0 1 (by decide) h0 h1] at hlt
    cases hlt
  · exact exists_run_of_any _ _ _ (by decide)

end Inmanta
