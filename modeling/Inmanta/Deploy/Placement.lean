import Inmanta.Deploy.DeployWithContext
import Inmanta.Deploy.QueueRefinement

/-!
# Where scheduled deploys are placed

`entry` is the priority of the scheduled deploy of a resource and the moment
that counts for it, whether the deploy waits or is queued. `Placed` is the
invariant of `ScheduledWork`: there is one deploy of a resource at most, and its
requested-at value was reserved for it. So the agent queues are `Linked`.

Here is what each operation on the two collections does to the entries.
-/

namespace Inmanta

namespace AgentQueues

variable {q q' : AgentQueues} {owner : ℤ → Option Task} {t t' : Task}

/-! ## What the queues say of a task -/

theorem Linked.congr (h : q.Linked owner) (hitems : q'.items = q.items)
    (hheaps : q'.agentQueues = q.agentQueues) (htasks : q'.tasksByResource = q.tasksByResource)
    (hcount : q'.entryCount = q.entryCount) : q'.Linked owner := by
  obtain ⟨items, heaps, tasks, count, progress, filed⟩ := q
  obtain ⟨items', heaps', tasks', count', progress', filed'⟩ := q'
  dsimp only at hitems hheaps htasks hcount
  subst hitems hheaps htasks hcount
  exact ⟨h.valid, h.nodup, h.filedItem, h.live, h.owned, h.reserved, h.ordered⟩

theorem view_congr (hitems : q'.items = q.items) (hheaps : q'.agentQueues = q.agentQueues)
    (htasks : q'.tasksByResource = q.tasksByResource) : q'.view = q.view := by
  obtain ⟨items, heaps, tasks, count, progress, filed⟩ := q
  obtain ⟨items', heaps', tasks', count', progress', filed'⟩ := q'
  dsimp only at hitems hheaps htasks
  subst hitems hheaps htasks
  rfl

theorem bump_eq (q : AgentQueues) (resources : List ResourceIdStr) (priority : TaskPriority) :
    (q.bumpInProgressPriorities resources priority).items = q.items ∧
      (q.bumpInProgressPriorities resources priority).agentQueues = q.agentQueues ∧
      (q.bumpInProgressPriorities resources priority).entryCount = q.entryCount := by
  unfold bumpInProgressPriorities
  induction resources generalizing q with
  | nil => exact ⟨rfl, rfl, rfl⟩
  | cons r resources ih =>
      rw [List.foldl_cons]
      refine ⟨(ih _).1.trans ?_, (ih _).2.1.trans ?_, (ih _).2.2.trans ?_⟩ <;>
      · split
        · split <;> rfl
        · rfl

/-- The priority of a running deploy after it is raised. -/
theorem bump_get? (q : AgentQueues) (resources : List ResourceIdStr) (priority : TaskPriority)
    (r : ResourceIdStr) : (q.bumpInProgressPriorities resources priority).inProgress.get?
      (.deploy r) = (q.inProgress.get? (.deploy r)).map fun p =>
        if r ∈ resources ∧ priority.value < p.value then priority else p := by
  unfold bumpInProgressPriorities
  induction resources generalizing q with
  | nil => simp
  | cons x resources ih =>
      rw [List.foldl_cons, ih]
      by_cases hx : r = x
      · subst hx
        cases hp : q.inProgress.get? (.deploy r) with
        | none => simp [hp]
        | some p =>
            by_cases hlt : priority.value < p.value
            · simp [hlt, Dict.get?_set]
            · simp [hlt, hp]
      · have hne : Task.deploy r ≠ .deploy x := fun he => hx (Task.deploy.inj he)
        cases hp : q.inProgress.get? (.deploy x) with
        | none => simp [hx]
        | some p =>
            by_cases hlt : priority.value < p.value
            · simp [hlt, Dict.get?_set, hne, hx]
            · simp [hlt, hx]

theorem discard_rank (q : AgentQueues) (t : Task) :
    (q.discard t).2.map rank = q.view.entries t := by
  simp only [view, AgentQueues.discard]
  cases href : (q.tasksOf t.resource).get? t with
  | none => rfl
  | some ref => exact map_rank_markDeleted ref ref

theorem view_reserve (q : AgentQueues) : q.reserveRequestedAt.1.view = q.view :=
  view_congr rfl rfl rfl

/-- The entries after a task is put. -/
theorem entries_queuePut (h : q.Linked owner) (hpill : t ≠ shutdownTask)
    (priority : TaskPriority) (requestedAt : Option ℤ) (reason : Option String) (t' : Task) :
    (q.queuePutNowait t priority requestedAt reason).view.entries t' =
      if t' = t then some (match q.view.entries t with
        | some e => if e.1.value ≤ priority.value then e else (priority, q.entryCount)
        | none => (priority, requestedAt.getD q.entryCount))
      else q.view.entries t' := by
  obtain ⟨ref, item, hitem, hle, heq⟩ | ⟨ref, item, hitem, hlt, heq⟩ | ⟨hn, v, hv, heq⟩ |
    ⟨hn, hv, heq⟩ := queuePut_cases h t priority requestedAt reason
  · obtain ⟨href, hi⟩ := queueItemForTask_eq_some.mp hitem
    have he := entry_of_item href hi
    rw [heq, he]
    split
    · next ht => rw [ht, he]; exact congrArg some (if_pos hle).symm
    · rfl
  · obtain ⟨href, hi⟩ := queueItemForTask_eq_some.mp hitem
    have he := entry_of_item href hi
    have hm := (h.markDeleted href).reserve t
    have hview : (q.markDeleted ref).reserveRequestedAt.1.view.entries t' = q.view.entries t' :=
      congrArg (Option.bind ((q.tasksOf t'.resource).get? t'))
        (funext fun i => map_rank_markDeleted ref i)
    rw [heq, view_putItem hm hpill, he]
    simp only [TaskQueues.enter, hview]
    split
    · exact congrArg some (if_neg (not_le.mpr hlt)).symm
    · rfl
  · rw [heq, view_putItem (h.but hn) hpill, (view_entries_eq_none h).mpr hn]
    simp only [TaskQueues.enter, hv, Option.getD_some]
  · rw [heq, view_putItem ((h.but hn).reserve t) hpill, (view_entries_eq_none h).mpr hn]
    simp only [TaskQueues.enter, hv, Option.getD_none, view_reserve]

theorem ownerAfter_mono (h : q.Linked owner) {v : ℤ} (hv : owner v = some t') :
    ownerAfter q q' owner t v = some t' := by
  unfold ownerAfter
  split
  · exact hv
  · exact own_of_reserved h hv

end AgentQueues

namespace ScheduledWork

variable {w w' : ScheduledWork} {owner : ℤ → Option Task} {r x : ResourceIdStr}

/-! ## Scheduled deploys -/

def withQueues (w : ScheduledWork) (q : AgentQueues) : ScheduledWork := { w with agentQueues := q }

/-- The priority of the scheduled deploy of a resource, and the moment that
counts for it. -/
def entry (w : ScheduledWork) (r : ResourceIdStr) : Option (TaskPriority × ℤ) :=
  match w.waiting.get? r with
  | some b => some (b.priority, b.requestedAt)
  | none => w.agentQueues.view.entries (.deploy r)

/-- Each deploy is stored under its resource, once, and its requested-at value
was reserved for it. -/
structure PlacedBy (w : ScheduledWork) (owner : ℤ → Option Task) : Prop extends w.Valid where
  linked : w.agentQueues.Linked owner
  waiting : ∀ r b, w.waiting.get? r = some b → owner b.requestedAt = some (.deploy r)

def Placed (w : ScheduledWork) : Prop := ∃ owner, w.PlacedBy owner

theorem deploy_ne_shutdownTask (r : ResourceIdStr) : Task.deploy r ≠ shutdownTask := by
  rintro ⟨⟩

theorem entry_of_get? {b : BlockedDeploy} (h : w.waiting.get? r = some b) :
    w.entry r = some (b.priority, b.requestedAt) := by
  rw [entry, h]

theorem entry_of_not_mem (h : r ∉ w.waiting) :
    w.entry r = w.agentQueues.view.entries (.deploy r) := by
  rw [entry, Dict.not_mem_iff.mp h]

theorem entry_withQueues (h : r ∉ w.waiting) (q : AgentQueues) :
    (w.withQueues q).entry r = q.view.entries (.deploy r) :=
  entry_of_not_mem (w := w.withQueues q) h

theorem PlacedBy.entry_eq_none (h : w.PlacedBy owner) : w.entry r = none ↔ ¬ w.IsScheduled r := by
  rw [IsScheduled, not_or]
  by_cases hr : r ∈ w.waiting
  · obtain ⟨b, hb⟩ := Dict.mem_iff.mp hr
    simp [entry_of_get? hb, hr]
  · rw [entry_of_not_mem hr, AgentQueues.view_entries_eq_none h.linked]
    exact ⟨fun hq => ⟨hr, hq⟩, And.right⟩

theorem placedBy_empty : ScheduledWork.empty.PlacedBy fun _ => none where
  toValid := Valid.empty
  linked := AgentQueues.linked_empty
  waiting r b h := by cases h

/-- A deploy waits. -/
theorem PlacedBy.setWaiting (h : w.PlacedBy owner) {b : BlockedDeploy} (hkey : b.resource = r)
    (hq : ¬ w.IsQueued r) (hat : owner b.requestedAt = some (.deploy r)) :
    PlacedBy { w with waiting := w.waiting.set r b } owner where
  key x b' hb' := by
    rw [Dict.get?_set] at hb'
    split at hb'
    · next hx =>
      rw [← Option.some.inj hb', hx]
      exact hkey
    · exact h.key x b' hb'
  unique x hx := by
    obtain rfl | hx := Dict.mem_set.mp hx
    · exact hq
    · exact h.unique x hx
  linked := h.linked
  waiting x b' hb' := by
    rw [Dict.get?_set] at hb'
    split at hb'
    · next hx =>
      rw [← Option.some.inj hb', hx]
      exact hat
    · exact h.waiting x b' hb'

theorem entry_setWaiting (w : ScheduledWork) (r : ResourceIdStr) (b : BlockedDeploy)
    (x : ResourceIdStr) : entry { w with waiting := w.waiting.set r b } x =
      if x = r then some (b.priority, b.requestedAt) else w.entry x := by
  unfold entry
  rw [Dict.get?_set]
  by_cases hx : x = r
  · rw [if_pos hx, if_pos hx]
  · rw [if_neg hx, if_neg hx]

theorem PlacedBy.reserve (h : w.PlacedBy owner) (t : Task) :
    PlacedBy (w.withQueues w.agentQueues.reserveRequestedAt.1)
      (AgentQueues.own owner w.agentQueues.entryCount t) where
  key := h.key
  unique := h.unique
  linked := AgentQueues.LinkedBut.reserve h.linked t
  waiting x b hb := AgentQueues.own_of_reserved h.linked (h.waiting x b hb)

theorem entry_congr {q : AgentQueues} (hq : q.view.entries = w.agentQueues.view.entries)
    (x : ResourceIdStr) : entry (w.withQueues q) x = w.entry x := by
  unfold entry withQueues
  rw [hq]

theorem PlacedBy.discard (h : w.PlacedBy owner) (t : Task) :
    PlacedBy (w.withQueues (w.agentQueues.discard t).1) owner where
  key := h.key
  unique x hx hq := h.unique x hx (AgentQueues.mem_discard.mp hq).1
  linked := h.linked.discard t
  waiting := h.waiting

/-- A deploy that does not wait is put in its queue. -/
theorem PlacedBy.put (h : w.PlacedBy owner) (hr : r ∉ w.waiting) (priority : TaskPriority)
    (requestedAt : Option ℤ) (reason : Option String)
    (hat : ∀ v, requestedAt = some v → owner v = some (.deploy r)) :
    PlacedBy (w.withQueues (w.agentQueues.queuePutNowait (.deploy r) priority requestedAt reason))
      (AgentQueues.ownerAfter w.agentQueues (w.agentQueues.queuePutNowait
        (.deploy r) priority requestedAt reason) owner (.deploy r)) where
  key := h.key
  unique x hx hq := by
    obtain hxr | hq := AgentQueues.mem_queuePutNowait.mp hq
    · exact hr (Task.deploy.inj hxr ▸ hx)
    · exact h.unique x hx hq
  linked := h.linked.queuePut (deploy_ne_shutdownTask r) hat
  waiting x b hb := AgentQueues.ownerAfter_mono h.linked (h.waiting x b hb)

/-- A deploy stops waiting. -/
theorem PlacedBy.del (h : w.PlacedBy owner) (r : ResourceIdStr) :
    PlacedBy { w with waiting := w.waiting.del r } owner where
  key x b hb := by
    rw [Dict.get?_del] at hb
    split at hb
    · cases hb
    · exact h.key x b hb
  unique x hx := h.unique x (Dict.mem_del.mp hx).2
  linked := h.linked
  waiting x b hb := by
    rw [Dict.get?_del] at hb
    split at hb
    · cases hb
    · exact h.waiting x b hb

theorem entry_put (h : w.PlacedBy owner) (hr : r ∉ w.waiting) (priority : TaskPriority)
    (requestedAt : Option ℤ) (reason : Option String) (x : ResourceIdStr) :
    entry (w.withQueues (w.agentQueues.queuePutNowait (.deploy r) priority requestedAt reason)) x =
      if x = r then some (match w.entry r with
        | some e => if e.1.value ≤ priority.value then e else (priority, w.agentQueues.entryCount)
        | none => (priority, requestedAt.getD w.agentQueues.entryCount))
      else w.entry x := by
  by_cases hx : x ∈ w.waiting
  · obtain ⟨b, hb⟩ := Dict.mem_iff.mp hx
    have hxr : x ≠ r := fun he => hr (he ▸ hx)
    rw [if_neg hxr, entry_of_get? hb]
    exact entry_of_get? (w := w.withQueues _) hb
  · refine (entry_withQueues hx _).trans ?_
    refine (AgentQueues.entries_queuePut h.linked (deploy_ne_shutdownTask r) ..).trans ?_
    rw [entry_of_not_mem hx, entry_of_not_mem hr]
    simp only [Task.deploy.injEq]

/-- Moving a deploy to its queue changes nothing else. -/
theorem Placed.queueIfReady (h : w.Placed) {b : BlockedDeploy} (hb : w.waiting.get? r = some b) :
    (w.queueIfReady b).Placed ∧ ∀ x, (w.queueIfReady b).entry x = w.entry x := by
  obtain ⟨owner, h⟩ := h
  unfold ScheduledWork.queueIfReady
  split
  · exact ⟨⟨owner, h⟩, fun _ => rfl⟩
  · have hkey := h.key r b hb
    have hdel := h.del r
    have hr : r ∉ w.waiting.del r := fun hr => (Dict.mem_del.mp hr).1 rfl
    rw [hkey]
    have hput := hdel.put (r := r) hr b.priority (some b.requestedAt) b.reason
      fun v hv => Option.some.inj hv ▸ h.waiting r b hb
    refine ⟨⟨_, hput⟩, fun x => (entry_put hdel hr b.priority _ b.reason x).trans ?_⟩
    have hnone : entry { w with waiting := w.waiting.del r } r = none := by
      rw [hdel.entry_eq_none]
      rintro (hw | hq)
      · exact hr hw
      · exact h.unique r (Dict.mem_of_get? hb) hq
    split
    · next hx =>
      rw [hnone, hx, entry_of_get? hb]
      rfl
    · next hx =>
      unfold entry
      rw [Dict.get?_del, if_neg hx]

end ScheduledWork

namespace AgentQueues

variable {q : AgentQueues} {owner : ℤ → Option Task} {t : Task}

/-- The item that is removed. -/
theorem Linked.discard_item (h : q.Linked owner) {item : TaskQueueItem}
    (hd : (q.discard t).2 = some item) : t ∈ q ∧ owner item.requestedAt = some t := by
  unfold AgentQueues.discard at hd
  cases href : (q.tasksOf t.resource).get? t with
  | none =>
      rw [href] at hd
      cases hd
  | some ref =>
      rw [href] at hd
      have hi : (q.markDeleted ref).items[ref]? = some item := hd
      obtain ⟨item', hi', htask, -, hpill, -⟩ := h.filedItem t ref (fun hf => hf) href
      rw [items_markDeleted, hi', Option.map_some, if_pos rfl] at hi
      obtain rfl := Option.some.inj hi
      refine ⟨Dict.mem_of_get? href, ?_⟩
      obtain ⟨ht, -⟩ | ⟨-, hown⟩ := h.owned ref item' hi'
      · exact absurd (htask.symm.trans ht) hpill
      · exact hown.trans (congrArg some htask)

theorem discard_eq_none (h : q.Linked owner) : (q.discard t).2 = none ↔ t ∉ q := by
  rw [← view_entries_eq_none h, ← discard_rank, Option.map_eq_none_iff]

end AgentQueues

end Inmanta
