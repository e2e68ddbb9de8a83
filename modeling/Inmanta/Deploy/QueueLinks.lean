import Inmanta.Deploy.AgentQueues

/-!
# Heaps and lookup of the agent queues

`Linked` is the invariant of `AgentQueues`: the items in the heaps that are
not deleted are the ones that are filed under their task. A requested-at value
belongs to one task. So when an item is marked as deleted in a heap, all others
of its rank are deleted already, and the heap stays ordered.

Every operation keeps it. `Consumes` says what `queue_get` does under it.
-/

namespace Inmanta

/-- The task that `send_shutdown` queues for every agent. -/
def shutdownTask : Task := .poisonPill ⟨"system::Terminate", "all", "stop", "True"⟩

/-! ## The order of items -/

namespace TaskQueueItem

theorem value_injective {p p' : TaskPriority} (h : p.value = p'.value) : p = p' := by
  cases p <;> cases p' <;> first | rfl | cases h

/-- The rank of an item in its queue. -/
def Before (a b : TaskQueueItem) : Prop :=
  a.priority.value < b.priority.value ∨
    a.priority.value = b.priority.value ∧ a.requestedAt < b.requestedAt

def SameRank (a b : TaskQueueItem) : Prop :=
  a.priority.value = b.priority.value ∧ a.requestedAt = b.requestedAt

theorem lt_eq_false {a b : TaskQueueItem} :
    b.lt a = false ↔ a.Before b ∨ a.SameRank b ∧ (b.deleted = true → a.deleted = true) := by
  have hprio : b.priority = a.priority ↔ a.priority.value = b.priority.value :=
    ⟨fun h => by rw [h], fun h => value_injective h.symm⟩
  unfold lt Before SameRank
  simp only [hprio, Bool.or_eq_false_iff, Bool.and_eq_false_iff, decide_eq_false_iff_not]
  cases a.deleted <;> cases b.deleted <;> simp <;> omega

theorem lt_asymm {a b : TaskQueueItem} (h : a.lt b = true) : b.lt a = false := by
  cases hb : b.lt a with
  | false => rfl
  | true =>
      have hprio : b.priority = a.priority ↔ a.priority.value = b.priority.value :=
        ⟨fun h => by rw [h], fun h => value_injective h.symm⟩
      have hprio' : a.priority = b.priority ↔ a.priority.value = b.priority.value :=
        ⟨fun h => by rw [h], fun h => value_injective h⟩
      unfold lt at h hb
      simp only [hprio, hprio', Bool.or_eq_true, Bool.and_eq_true, decide_eq_true_eq] at h hb
      cases ha : a.deleted <;> cases hb' : b.deleted <;> simp [ha, hb'] at h hb <;> omega

theorem lt_trans {a b c : TaskQueueItem} (hab : b.lt a = false) (hbc : c.lt b = false) :
    c.lt a = false := by
  rw [lt_eq_false] at *
  unfold Before SameRank at *
  obtain h₁ | ⟨h₁, hd₁⟩ := hab
  · left
    omega
  · obtain h₂ | ⟨h₂, hd₂⟩ := hbc
    · left
      omega
    · right
      exact ⟨⟨by omega, by omega⟩, fun hd => hd₁ (hd₂ hd)⟩

end TaskQueueItem

namespace AgentQueues

/-! ## The link between heaps and lookup -/

/-- The references in the heap of an agent. -/
def heap (q : AgentQueues) (agent : String) : List ℕ := q.agentQueues.getD agent []

/-- The items in the heaps and the ones that are filed agree, but for the tasks
in `skip`, which have no item that is not deleted. Each requested-at value
belongs to one task. -/
structure LinkedBut (q : AgentQueues) (owner : ℤ → Option Task) (skip : Task → Prop) : Prop where
  valid : ∀ agent, ∀ ref ∈ q.heap agent, ref < q.items.length
  nodup : ∀ agent, (q.heap agent).Nodup
  filedItem : ∀ t ref, ¬ skip t → (q.tasksOf t.resource).get? t = some ref →
    ∃ item : TaskQueueItem, q.items[ref]? = some item ∧ item.task = t ∧
      item.deleted = false ∧ t ≠ shutdownTask ∧ ref ∈ q.heap t.resource.agentName
  live : ∀ agent, ∀ ref ∈ q.heap agent, ∀ item : TaskQueueItem, q.items[ref]? = some item →
    item.deleted = false → item.task ≠ shutdownTask → ¬ skip item.task ∧
      item.task.resource.agentName = agent ∧
      (q.tasksOf item.task.resource).get? item.task = some ref
  owned : ∀ (ref : ℕ) (item : TaskQueueItem), q.items[ref]? = some item →
    (item.task = shutdownTask ∧ item.priority = .terminated ∧ item.requestedAt = -1 ∧
        item.deleted = false) ∨
      item.task ≠ shutdownTask ∧ owner item.requestedAt = some item.task
  reserved : ∀ v t, owner v = some t → 0 ≤ v ∧ v < q.entryCount
  ordered : ∀ agent, Ordered q.refLt (q.heap agent)

def Linked (q : AgentQueues) (owner : ℤ → Option Task) : Prop := q.LinkedBut owner fun _ => False

variable {q q' : AgentQueues} {owner : ℤ → Option Task} {skip : Task → Prop} {t : Task}

theorem refLt_of_get {a b : ℕ} {x y : TaskQueueItem} (ha : q.items[a]? = some x)
    (hb : q.items[b]? = some y) : q.refLt a b = x.lt y := by
  rw [refLt, ha, hb]

theorem weakOrder_refLt (q : AgentQueues) :
    WeakOrder q.refLt fun ref => ref < q.items.length where
  asymm a b ha hb h := by
    have hx := List.getElem?_eq_getElem ha
    have hy := List.getElem?_eq_getElem hb
    rw [refLt_of_get hx hy] at h
    rw [refLt_of_get hy hx]
    exact TaskQueueItem.lt_asymm h
  trans a b c ha hb hc hab hbc := by
    have hx := List.getElem?_eq_getElem ha
    have hy := List.getElem?_eq_getElem hb
    have hz := List.getElem?_eq_getElem hc
    rw [refLt_of_get hy hx] at hab
    rw [refLt_of_get hz hy] at hbc
    rw [refLt_of_get hz hx]
    exact TaskQueueItem.lt_trans hab hbc

theorem linked_empty : empty.Linked fun _ => none where
  valid _ _ h := absurd h List.not_mem_nil
  nodup _ := List.nodup_nil
  filedItem _ _ _ h := by cases h
  live _ _ h := absurd h List.not_mem_nil
  owned _ _ h := by cases h
  reserved _ _ h := by cases h
  ordered _ _ _ _ _ h := by cases h

/-! ## Marking an item as deleted -/

theorem items_markDeleted (ref i : ℕ) : (q.markDeleted ref).items[i]? =
    (q.items[i]?).map fun item => if i = ref then { item with deleted := true } else item := by
  rw [markDeleted, List.getElem?_modify]
  by_cases h : ref = i
  · simp [h]
  · simp [h, Ne.symm h]

/-- **In-place marking keeps the heaps ordered.** -/
theorem Linked.markDeleted_ordered (h : q.Linked owner) {ref : ℕ}
    (href : (q.tasksOf t.resource).get? t = some ref) (agent : String) :
    Ordered (q.markDeleted ref).refLt (q.heap agent) := by
  intro i a b hi ha hb
  have hmema := List.mem_of_getElem? ha
  obtain ⟨x, hx⟩ : ∃ x, q.items[a]? = some x :=
    ⟨_, List.getElem?_eq_getElem (h.valid agent a hmema)⟩
  obtain ⟨y, hy⟩ : ∃ y, q.items[b]? = some y :=
    ⟨_, List.getElem?_eq_getElem (h.valid agent b (List.mem_of_getElem? hb))⟩
  have hold := h.ordered agent i a b hi ha hb
  rw [refLt_of_get hy hx] at hold
  have hx' := items_markDeleted (q := q) ref a
  have hy' := items_markDeleted (q := q) ref b
  rw [hx, Option.map_some] at hx'
  rw [hy, Option.map_some] at hy'
  rw [refLt_of_get hy' hx', TaskQueueItem.lt_eq_false]
  obtain hbefore | ⟨hsame, hdel⟩ := TaskQueueItem.lt_eq_false.mp hold
  · left
    split <;> split <;> exact hbefore
  · right
    refine ⟨by split <;> split <;> exact hsame, fun hdb => ?_⟩
    by_cases har : a = ref
    · rw [if_pos har]
    · rw [if_neg har]
      by_cases hbr : b = ref
      · -- an item of the same rank belongs to the same task, so it is deleted
        rw [hbr] at hy
        obtain ⟨item, hitem, htask, -, hpill, -⟩ := h.filedItem t ref (fun hf => hf) href
        obtain rfl := Option.some.inj (hitem.symm.trans hy)
        cases hd : x.deleted with
        | true => rfl
        | false =>
            have hown : owner item.requestedAt = some t := by
              obtain ⟨ht, -⟩ | ⟨-, ho⟩ := h.owned ref item hitem
              · exact absurd (htask.symm.trans ht) hpill
              · rw [ho, htask]
            obtain ⟨-, -, hneg, -⟩ | ⟨hxp, hxo⟩ := h.owned a x hx
            · have := (h.reserved _ _ hown).1
              rw [← hsame.2, hneg] at this
              omega
            · rw [hsame.2, hown] at hxo
              have hxt : t = x.task := Option.some.inj hxo
              obtain ⟨-, -, hfiled⟩ := h.live agent a hmema x hx hd hxp
              rw [← hxt, href] at hfiled
              exact absurd (Option.some.inj hfiled).symm har
      · rw [if_neg hbr] at hdb
        exact hdel hdb

theorem Linked.markDeleted (h : q.Linked owner) {ref : ℕ}
    (href : (q.tasksOf t.resource).get? t = some ref) :
    (q.markDeleted ref).LinkedBut owner (· = t) := by
  obtain ⟨item₀, hitem₀, htask₀, -, hpill₀, -⟩ := h.filedItem t ref (fun hf => hf) href
  have hget : ∀ i item', (q.markDeleted ref).items[i]? = some item' → ∃ item,
      q.items[i]? = some item ∧
        item' = if i = ref then { item with deleted := true } else item := fun i item' hi => by
    rw [items_markDeleted, Option.map_eq_some_iff] at hi
    obtain ⟨item, hitem, heq⟩ := hi
    exact ⟨item, hitem, heq.symm⟩
  constructor
  · intro agent r hr
    rw [AgentQueues.markDeleted, List.length_modify]
    exact h.valid agent r hr
  · exact h.nodup
  · intro t' r hne hr
    obtain ⟨item, hitem, htask, hdel, hpill, hmem⟩ := h.filedItem t' r (fun hf => hf) hr
    have hrr : r ≠ ref := fun hrr => by
      rw [hrr, hitem₀] at hitem
      obtain rfl := Option.some.inj hitem
      exact hne (htask.symm.trans htask₀)
    refine ⟨item, ?_, htask, hdel, hpill, hmem⟩
    rw [items_markDeleted, hitem, Option.map_some, if_neg hrr]
  · intro agent r hr item' hi hdel hpill
    obtain ⟨item, hitem, rfl⟩ := hget r item' hi
    by_cases hrr : r = ref
    · rw [if_pos hrr] at hdel
      cases hdel
    · rw [if_neg hrr] at hdel hpill ⊢
      obtain ⟨-, hagent, hfiled⟩ := h.live agent r hr item hitem hdel hpill
      refine ⟨fun ht => hrr ?_, hagent, hfiled⟩
      rw [ht, href] at hfiled
      exact (Option.some.inj hfiled).symm
  · intro r item' hi
    obtain ⟨item, hitem, rfl⟩ := hget r item' hi
    by_cases hrr : r = ref
    · rw [if_pos hrr]
      rw [hrr, hitem₀] at hitem
      obtain rfl := Option.some.inj hitem
      obtain ⟨ht, -⟩ | hown := h.owned ref item₀ hitem₀
      · exact absurd (htask₀.symm.trans ht) hpill₀
      · exact Or.inr hown
    · rw [if_neg hrr]
      exact h.owned r item hitem
  · exact h.reserved
  · exact h.markDeleted_ordered href

/-! ## Removing a task -/

theorem get?_setTasks (d : Dict ResourceIdStr (Dict Task ℕ)) (tasks : Dict Task ℕ)
    (r r' : ResourceIdStr) (t : Task) :
    ((if tasks.keys = [] then d.del r else d.set r tasks).getD r' .empty).get? t =
      if r' = r then tasks.get? t else (d.getD r' .empty).get? t := by
  by_cases hkeys : tasks.keys = []
  · have hnil : tasks.get? t = none := by
      rw [← Dict.not_mem_iff]
      exact fun h => List.not_mem_nil (hkeys ▸ Dict.mem_keys.mpr h)
    rw [if_pos hkeys, Dict.getD_del]
    by_cases hr : r' = r
    · rw [if_pos hr, if_pos hr, hnil]
      rfl
    · rw [if_neg hr, if_neg hr]
  · rw [if_neg hkeys, Dict.getD_set]
    by_cases hr : r' = r
    · rw [if_pos hr, if_pos hr]
    · rw [if_neg hr, if_neg hr]

/-- What is filed after a task was removed. -/
theorem discard_tasksOf (q : AgentQueues) (t t' : Task) :
    ((q.discard t).1.tasksOf t'.resource).get? t' =
      if t' = t then none else (q.tasksOf t'.resource).get? t' := by
  unfold AgentQueues.discard
  cases href : (q.tasksOf t.resource).get? t with
  | none =>
      dsimp only
      split
      · next h => rw [h, href]
      · rfl
  | some ref =>
      refine (get?_setTasks _ _ _ _ _).trans ?_
      by_cases ht : t' = t
      · rw [ht, if_pos rfl, if_pos rfl, Dict.get?_del, if_pos rfl]
      · rw [if_neg ht]
        by_cases hr : t'.resource = t.resource
        · rw [if_pos hr, Dict.get?_del, if_neg ht, hr]
          rfl
        · rw [if_neg hr]
          rfl

theorem discard_heap (q : AgentQueues) (t : Task) (agent : String) :
    (q.discard t).1.heap agent = q.heap agent := by
  unfold AgentQueues.discard
  split <;> rfl

theorem discard_items {ref : ℕ} (href : (q.tasksOf t.resource).get? t = some ref) :
    (q.discard t).1.items = (q.markDeleted ref).items := by
  unfold AgentQueues.discard
  rw [href]
  rfl

theorem discard_eq_self (h : (q.tasksOf t.resource).get? t = none) : (q.discard t).1 = q := by
  unfold AgentQueues.discard
  rw [h]

theorem Linked.discard (h : q.Linked owner) (t : Task) : (q.discard t).1.Linked owner := by
  cases href : (q.tasksOf t.resource).get? t with
  | none =>
      rw [discard_eq_self href]
      exact h
  | some ref =>
      have hm := h.markDeleted href
      have hitems := discard_items href
      have hlt : (q.discard t).1.refLt = (q.markDeleted ref).refLt := by
        funext a b
        rw [refLt, refLt, hitems]
      have hcount : (q.discard t).1.entryCount = q.entryCount := by
        unfold AgentQueues.discard
        rw [href]
        rfl
      constructor
      · intro agent r hr
        rw [discard_heap] at hr
        rw [hitems]
        exact hm.valid agent r hr
      · intro agent
        rw [discard_heap]
        exact h.nodup agent
      · intro t' r _ hr
        rw [discard_tasksOf] at hr
        split at hr
        · cases hr
        · next hne =>
          rw [hitems, discard_heap]
          exact hm.filedItem t' r hne hr
      · intro agent r hr item hi hdel hpill
        rw [discard_heap] at hr
        rw [hitems] at hi
        obtain ⟨hne, hagent, hfiled⟩ := hm.live agent r hr item hi hdel hpill
        refine ⟨fun hf => hf, hagent, ?_⟩
        rw [discard_tasksOf, if_neg hne]
        exact hfiled
      · intro r item hi
        rw [hitems] at hi
        exact hm.owned r item hi
      · intro v t' hv
        rw [hcount]
        exact h.reserved v t' hv
      · intro agent
        rw [discard_heap, hlt]
        exact hm.ordered agent

/-! ## Putting an item -/

theorem putItem_items (item : TaskQueueItem) :
    (q.putItem item).items = q.items ++ [item] := rfl

theorem putItem_heap (item : TaskQueueItem) (agent : String) : (q.putItem item).heap agent =
    if agent = item.task.resource.agentName then
      heappush (q.putItem item).refLt (q.heap agent) q.items.length
    else q.heap agent := by
  rw [heap, putItem]
  dsimp only
  rw [Dict.getD_set]
  split
  · next h =>
    rw [h]
    rfl
  · rfl

theorem putItem_tasksOf (item : TaskQueueItem) (t : Task) :
    ((q.putItem item).tasksOf t.resource).get? t =
      if t = item.task then some q.items.length else (q.tasksOf t.resource).get? t := by
  rw [tasksOf, putItem]
  dsimp only
  rw [Dict.getD_set]
  by_cases ht : t = item.task
  · rw [ht, if_pos rfl, if_pos rfl, Dict.get?_set, if_pos rfl]
  · rw [if_neg ht]
    by_cases hr : t.resource = item.task.resource
    · rw [if_pos hr, Dict.get?_set, if_neg ht, hr]
      rfl
    · rw [if_neg hr]
      rfl

/-- Appending an item does not change how the references that exist compare. -/
theorem refLt_append {items : List TaskQueueItem} {q q' : AgentQueues}
    (h : q'.items = q.items ++ items) {a b : ℕ} (ha : a < q.items.length)
    (hb : b < q.items.length) : q'.refLt a b = q.refLt a b := by
  rw [refLt, refLt, h, List.getElem?_append_left ha, List.getElem?_append_left hb]

theorem Ordered.append {items : List TaskQueueItem} {q q' : AgentQueues} {heap : List ℕ}
    (h : q'.items = q.items ++ items) (hvalid : ∀ ref ∈ heap, ref < q.items.length)
    (ho : Ordered q.refLt heap) : Ordered q'.refLt heap := by
  intro i a b hi ha hb
  rw [refLt_append h (hvalid _ (List.mem_of_getElem? hb)) (hvalid _ (List.mem_of_getElem? ha))]
  exact ho i a b hi ha hb

theorem LinkedBut.nodup_concat (h : q.LinkedBut owner skip) (agent : String) :
    (q.items.length :: q.heap agent).Nodup :=
  List.nodup_cons.mpr ⟨fun hmem => Nat.lt_irrefl _ (h.valid agent _ hmem), h.nodup agent⟩

theorem LinkedBut.putItem {item : TaskQueueItem}
    (h : q.LinkedBut owner (· = item.task)) (hdel : item.deleted = false)
    (hpill : item.task ≠ shutdownTask) (hown : owner item.requestedAt = some item.task) :
    (q.putItem item).Linked owner := by
  have hitems := putItem_items (q := q) item
  have hnew : (q.putItem item).items[q.items.length]? = some item := by
    rw [hitems, List.getElem?_concat_length]
  have hold : ∀ r < q.items.length, (q.putItem item).items[r]? = q.items[r]? := fun r hr => by
    rw [hitems, List.getElem?_append_left hr]
  have hmem : ∀ agent r, r ∈ (q.putItem item).heap agent ↔
      (agent = item.task.resource.agentName ∧ r = q.items.length) ∨ r ∈ q.heap agent :=
    fun agent r => by
      rw [putItem_heap]
      split
      · next ha => rw [heappush_perm.mem_iff, List.mem_cons]; simp [ha]
      · next ha => simp [ha]
  constructor
  · intro agent r hr
    rw [hitems, List.length_append, List.length_singleton]
    obtain ⟨-, rfl⟩ | hr := (hmem agent r).mp hr
    · omega
    · have := h.valid agent r hr
      omega
  · intro agent
    rw [putItem_heap]
    split
    · exact heappush_perm.nodup_iff.mpr (h.nodup_concat agent)
    · exact h.nodup agent
  · intro t' r _ hr
    rw [putItem_tasksOf] at hr
    split at hr
    · next ht =>
      obtain rfl := Option.some.inj hr
      exact ⟨item, hnew, ht.symm, hdel, ht ▸ hpill, (hmem _ _).mpr (Or.inl ⟨by rw [ht], rfl⟩)⟩
    · next ht =>
      obtain ⟨item', hi, htask, hd, hp, hm⟩ := h.filedItem t' r ht hr
      refine ⟨item', ?_, htask, hd, hp, (hmem _ _).mpr (Or.inr hm)⟩
      rw [hold r (List.getElem?_eq_some_iff.mp hi).1]
      exact hi
  · intro agent r hr item' hi hd hp
    refine ⟨fun hf => hf, ?_⟩
    obtain ⟨ha, rfl⟩ | hr := (hmem agent r).mp hr
    · obtain rfl := Option.some.inj (hnew.symm.trans hi)
      exact ⟨ha.symm, by rw [putItem_tasksOf, if_pos rfl]⟩
    · rw [hold r (h.valid agent r hr)] at hi
      obtain ⟨hne, hagent, hfiled⟩ := h.live agent r hr item' hi hd hp
      exact ⟨hagent, by rw [putItem_tasksOf, if_neg hne]; exact hfiled⟩
  · intro r item' hi
    rw [hitems, List.getElem?_append] at hi
    split at hi
    · exact h.owned r item' hi
    · obtain rfl : item = item' := by
        have hget := List.mem_of_getElem? hi
        exact (List.mem_singleton.mp hget).symm
      exact Or.inr ⟨hpill, hown⟩
  · exact h.reserved
  · intro agent
    have hbase := Ordered.append hitems (h.valid agent) (h.ordered agent)
    rw [putItem_heap]
    split
    · refine heappush_ordered (weakOrder_refLt _) (fun r hr => ?_) ?_ hbase
      · have := h.valid agent r hr
        rw [hitems, List.length_append, List.length_singleton]
        omega
      · rw [hitems, List.length_append, List.length_singleton]
        omega
    · exact hbase

/-! ## Reserving and requesting -/

/-- A requested-at value now belongs to a task. -/
def own (owner : ℤ → Option Task) (v : ℤ) (t : Task) : ℤ → Option Task :=
  fun u => if u = v then some t else owner u

theorem own_of_reserved (h : q.LinkedBut owner skip) {v : ℤ} {t t' : Task}
    (hv : owner v = some t') : own owner q.entryCount t v = some t' := by
  have := (h.reserved v t' hv).2
  rw [own, if_neg (by omega)]
  exact hv

theorem LinkedBut.reserve (h : q.LinkedBut owner skip) (t : Task) :
    q.reserveRequestedAt.1.LinkedBut (own owner q.entryCount t) skip where
  valid := h.valid
  nodup := h.nodup
  filedItem := h.filedItem
  live := h.live
  owned ref item hi := by
    obtain hpill | ⟨hne, hown⟩ := h.owned ref item hi
    · exact Or.inl hpill
    · exact Or.inr ⟨hne, own_of_reserved h hown⟩
  reserved v t' hv := by
    change 0 ≤ v ∧ v < ((q.entryCount + 1 : ℕ) : ℤ)
    rw [own] at hv
    split at hv
    · omega
    · have := h.reserved v t' hv
      omega
  ordered := h.ordered

theorem Linked.but (h : q.Linked owner) (ht : t ∉ q) : q.LinkedBut owner (· = t) where
  valid := h.valid
  nodup := h.nodup
  filedItem t' r _ hr := h.filedItem t' r (fun hf => hf) hr
  live agent r hr item hi hd hp := by
    obtain ⟨-, hagent, hfiled⟩ := h.live agent r hr item hi hd hp
    refine ⟨fun he => ht ?_, hagent, hfiled⟩
    rw [he] at hfiled
    exact Dict.mem_of_get? hfiled
  owned := h.owned
  reserved := h.reserved
  ordered := h.ordered

theorem queueItemForTask_eq_some {ref : ℕ} {item : TaskQueueItem} :
    q.queueItemForTask t = some (ref, item) ↔
      (q.tasksOf t.resource).get? t = some ref ∧ q.items[ref]? = some item := by
  simp only [queueItemForTask, Option.bind_eq_bind, Option.bind_eq_some_iff, Option.pure_def,
    Option.some.injEq, Prod.mk.injEq]
  constructor
  · rintro ⟨r, hr, i, hi, rfl, rfl⟩
    exact ⟨hr, hi⟩
  · rintro ⟨hr, hi⟩
    exact ⟨ref, hr, item, hi, rfl, rfl⟩

/-- A task has an item just when it is queued. -/
theorem Linked.queueItemForTask_eq_none (h : q.Linked owner) :
    q.queueItemForTask t = none ↔ t ∉ q := by
  constructor
  · intro hn hmem
    obtain ⟨ref, href⟩ := Dict.mem_iff.mp hmem
    obtain ⟨item, hi, -⟩ := h.filedItem t ref (fun hf => hf) href
    have := queueItemForTask_eq_some.mpr ⟨href, hi⟩
    rw [hn] at this
    cases this
  · intro hn
    cases hq : q.queueItemForTask t with
    | none => rfl
    | some p => exact absurd (mem_of_queueItemForTask hq) hn

/-- The owners after a task was put: a value that was reserved is its own. -/
def ownerAfter (q q' : AgentQueues) (owner : ℤ → Option Task) (t : Task) : ℤ → Option Task :=
  if q'.entryCount = q.entryCount then owner else own owner q.entryCount t

theorem ownerAfter_reserved (q q' : AgentQueues) (h : q'.entryCount = q.entryCount + 1) :
    ownerAfter q q' owner t = own owner q.entryCount t := by
  rw [ownerAfter, if_neg (by omega)]

/-- The three things `queue_put_nowait` can do: keep the task where it is, or queue
it with the value it was given or with a new one. -/
theorem queuePut_cases (h : q.Linked owner) (t : Task) (priority : TaskPriority)
    (requestedAt : Option ℤ) (reason : Option String) :
    (∃ ref item, q.queueItemForTask t = some (ref, item) ∧
        item.priority.value ≤ priority.value ∧
        q.queuePutNowait t priority requestedAt reason = q) ∨
      (∃ ref item, q.queueItemForTask t = some (ref, item) ∧
        priority.value < item.priority.value ∧
        q.queuePutNowait t priority requestedAt reason =
          ((q.markDeleted ref).reserveRequestedAt.1).putItem
            ⟨t, priority, q.entryCount, reason, false⟩) ∨
      (t ∉ q ∧ ∃ v, requestedAt = some v ∧ q.queuePutNowait t priority requestedAt reason =
          q.putItem ⟨t, priority, v, reason, false⟩) ∨
      (t ∉ q ∧ requestedAt = none ∧ q.queuePutNowait t priority requestedAt reason =
          (q.reserveRequestedAt.1).putItem ⟨t, priority, q.entryCount, reason, false⟩) := by
  unfold queuePutNowait
  cases hq : q.queueItemForTask t with
  | some p =>
      obtain ⟨ref, item⟩ := p
      dsimp only
      split
      · next hle => exact Or.inl ⟨ref, item, rfl, hle, rfl⟩
      · next hle => exact Or.inr (Or.inl ⟨ref, item, rfl, by omega, rfl⟩)
  | none =>
      have hn := h.queueItemForTask_eq_none.mp hq
      cases requestedAt with
      | some v => exact Or.inr (Or.inr (Or.inl ⟨hn, v, rfl, rfl⟩))
      | none => exact Or.inr (Or.inr (Or.inr ⟨hn, rfl, rfl⟩))

theorem Linked.queuePut (h : q.Linked owner) {priority : TaskPriority} {requestedAt : Option ℤ}
    {reason : Option String} (hpill : t ≠ shutdownTask)
    (hown : ∀ v, requestedAt = some v → owner v = some t) :
    (q.queuePutNowait t priority requestedAt reason).Linked
      (ownerAfter q (q.queuePutNowait t priority requestedAt reason) owner t) := by
  obtain ⟨ref, item, -, -, heq⟩ | ⟨ref, item, hitem, -, heq⟩ | ⟨hn, v, hv, heq⟩ | ⟨hn, -, heq⟩ :=
    queuePut_cases h t priority requestedAt reason
  · rw [heq, ownerAfter, if_pos rfl]
    exact h
  · rw [heq, ownerAfter_reserved _ _ rfl]
    have hm := (h.markDeleted (queueItemForTask_eq_some.mp hitem).1).reserve t
    exact hm.putItem rfl hpill (by rw [own]; exact if_pos rfl)
  · rw [heq, ownerAfter, if_pos (show (q.putItem _).entryCount = q.entryCount from rfl)]
    exact (h.but hn).putItem rfl hpill (hown v hv)
  · rw [heq, ownerAfter_reserved _ _ rfl]
    exact ((h.but hn).reserve t).putItem rfl hpill (by rw [own]; exact if_pos rfl)

/-! ## Shutting down -/

def shutdownItem (reason : String) : TaskQueueItem :=
  ⟨shutdownTask, .terminated, -1, some reason, false⟩

theorem getD_foldl_set {f : List ℕ → List ℕ} (l : List String) (hl : l.Nodup)
    (d : Dict String (List ℕ)) (agent : String) :
    (l.foldl (fun d a => d.set a (f (d.getD a []))) d).getD agent [] =
      if agent ∈ l then f (d.getD agent []) else d.getD agent [] := by
  induction l generalizing d with
  | nil => rw [if_neg List.not_mem_nil]; rfl
  | cons a l ih =>
      obtain ⟨ha, hl⟩ := List.nodup_cons.mp hl
      rw [List.foldl_cons, ih hl, Dict.getD_set]
      by_cases hal : agent = a
      · rw [hal, if_neg ha, if_pos rfl, if_pos (List.mem_cons_self ..)]
      · rw [if_neg hal]
        simp [hal]

theorem mem_foldl_set {f : List ℕ → List ℕ} (l : List String)
    (d : Dict String (List ℕ)) (agent : String) :
    agent ∈ l.foldl (fun d a => d.set a (f (d.getD a []))) d ↔ agent ∈ l ∨ agent ∈ d := by
  induction l generalizing d with
  | nil => simp
  | cons a l ih =>
      rw [List.foldl_cons, ih, Dict.mem_set, List.mem_cons]
      exact or_left_comm.trans or_assoc.symm

/-- The loop of `send_shutdown` changes the heaps only. -/
theorem sendShutdown_loop (l : List String) (ref : ℕ) (q : AgentQueues) :
    l.foldl (fun q agent => { q with
      agentQueues := q.agentQueues.set agent
        (heappush q.refLt (q.agentQueues.getD agent []) ref) }) q =
    { q with agentQueues := l.foldl (fun d a =>
        d.set a (heappush q.refLt (d.getD a []) ref)) q.agentQueues } := by
  induction l generalizing q with
  | nil => rfl
  | cons a l ih =>
      rw [List.foldl_cons, ih, List.foldl_cons]
      rfl

theorem sendShutdown_items (q : AgentQueues) (reason : String) :
    (q.sendShutdown reason).items = q.items ++ [shutdownItem reason] := by
  unfold sendShutdown
  dsimp only
  rw [sendShutdown_loop]
  rfl

theorem sendShutdown_tasksByResource (q : AgentQueues) (reason : String) :
    (q.sendShutdown reason).tasksByResource = q.tasksByResource ∧
      (q.sendShutdown reason).entryCount = q.entryCount := by
  unfold sendShutdown
  dsimp only
  rw [sendShutdown_loop]
  exact ⟨rfl, rfl⟩

theorem sendShutdown_heap (q : AgentQueues) (reason : String) (agent : String) :
    (q.sendShutdown reason).heap agent =
      if agent ∈ q.agentQueues then
        heappush (q.sendShutdown reason).refLt (q.heap agent) q.items.length
      else q.heap agent := by
  have hlt : (q.sendShutdown reason).refLt =
      refLt { q with items := q.items ++ [shutdownItem reason] } := by
    funext a b
    rw [refLt, refLt, sendShutdown_items]
  rw [hlt]
  unfold sendShutdown heap
  dsimp only
  rw [sendShutdown_loop]
  refine (getD_foldl_set (f := fun heap => heappush _ heap q.items.length)
    q.agentQueues.keys q.agentQueues.nodup q.agentQueues agent).trans ?_
  simp only [Dict.mem_keys]
  rfl

theorem mem_sendShutdown_agentQueues (q : AgentQueues) (reason : String) (agent : String) :
    agent ∈ (q.sendShutdown reason).agentQueues ↔ agent ∈ q.agentQueues := by
  unfold sendShutdown
  dsimp only
  rw [sendShutdown_loop]
  refine (mem_foldl_set (f := fun heap => heappush _ heap q.items.length) _ _ _).trans ?_
  rw [Dict.mem_keys, or_self]

theorem Linked.sendShutdown (h : q.Linked owner) (reason : String) :
    (q.sendShutdown reason).Linked owner := by
  have hitems := sendShutdown_items q reason
  obtain ⟨htasks, hcount⟩ := sendShutdown_tasksByResource q reason
  have htasksOf : ∀ r, (q.sendShutdown reason).tasksOf r = q.tasksOf r := fun r => by
    rw [tasksOf, tasksOf, htasks]
  have hnew : (q.sendShutdown reason).items[q.items.length]? = some (shutdownItem reason) := by
    rw [hitems, List.getElem?_concat_length]
  have hold : ∀ r < q.items.length, (q.sendShutdown reason).items[r]? = q.items[r]? :=
    fun r hr => by rw [hitems, List.getElem?_append_left hr]
  have hmem : ∀ agent r, r ∈ (q.sendShutdown reason).heap agent →
      r = q.items.length ∨ r ∈ q.heap agent := fun agent r hr => by
    rw [sendShutdown_heap] at hr
    split at hr
    · rwa [heappush_perm.mem_iff, List.mem_cons] at hr
    · exact Or.inr hr
  have hmem' : ∀ agent r, r ∈ q.heap agent → r ∈ (q.sendShutdown reason).heap agent :=
    fun agent r hr => by
      rw [sendShutdown_heap]
      split
      · rw [heappush_perm.mem_iff, List.mem_cons]
        exact Or.inr hr
      · exact hr
  constructor
  · intro agent r hr
    rw [hitems, List.length_append, List.length_singleton]
    obtain rfl | hr := hmem agent r hr
    · omega
    · have := h.valid agent r hr
      omega
  · intro agent
    rw [sendShutdown_heap]
    split
    · exact heappush_perm.nodup_iff.mpr (h.nodup_concat agent)
    · exact h.nodup agent
  · intro t' r hs hr
    rw [htasksOf] at hr
    obtain ⟨item', hi, htask, hd, hp, hm⟩ := h.filedItem t' r hs hr
    refine ⟨item', ?_, htask, hd, hp, hmem' _ _ hm⟩
    rw [hold r (List.getElem?_eq_some_iff.mp hi).1]
    exact hi
  · intro agent r hr item' hi hd hp
    rw [htasksOf]
    obtain rfl | hr := hmem agent r hr
    · obtain rfl := Option.some.inj (hnew.symm.trans hi)
      exact absurd rfl hp
    · rw [hold r (h.valid agent r hr)] at hi
      exact h.live agent r hr item' hi hd hp
  · intro r item' hi
    rw [hitems, List.getElem?_append] at hi
    split at hi
    · exact h.owned r item' hi
    · obtain rfl := List.mem_singleton.mp (List.mem_of_getElem? hi)
      exact Or.inl ⟨rfl, rfl, rfl, rfl⟩
  · intro v t' hv
    rw [hcount]
    exact h.reserved v t' hv
  · intro agent
    have hbase := Ordered.append hitems (h.valid agent) (h.ordered agent)
    rw [sendShutdown_heap]
    split
    · refine heappush_ordered (weakOrder_refLt _) (fun r hr => ?_) ?_ hbase
      · have := h.valid agent r hr
        rw [hitems, List.length_append, List.length_singleton]
        omega
      · rw [hitems, List.length_append, List.length_singleton]
        omega
    · exact hbase

/-! ## Consuming -/

/-- An entry of a heap whose item is deleted. -/
def DeletedRef (q : AgentQueues) (ref : ℕ) : Prop :=
  ∃ item, q.items[ref]? = some item ∧ item.deleted = true

/-- What popping until an item is not deleted finds. -/
theorem popLive_spec {n : ℕ} {heap rest : List ℕ} {item : TaskQueueItem}
    (hvalid : ∀ ref ∈ heap, ref < q.items.length) (ho : Ordered q.refLt heap)
    (h : q.popLive n heap = some (item, rest)) :
    ∃ ref dropped, (dropped ++ ref :: rest).Perm heap ∧ (∀ r ∈ dropped, q.DeletedRef r) ∧
      q.items[ref]? = some item ∧ item.deleted = false ∧ Ordered q.refLt rest ∧
      ∀ r ∈ rest, q.refLt r ref = false := by
  induction n generalizing heap with
  | zero => cases h
  | succ n ih =>
      simp only [popLive, Option.bind_eq_bind, Option.bind_eq_some_iff] at h
      obtain ⟨⟨ref, heap'⟩, hpop, item', hitem, hrest⟩ := h
      have hperm := heappop_perm hpop
      have hord := heappop_ordered (weakOrder_refLt q) hvalid ho hpop
      split at hrest
      · next hdel =>
        obtain ⟨ref', dropped, hp, hd, hrest⟩ := ih (fun r hr =>
          hvalid r (hperm.mem_iff.mp (List.mem_cons_of_mem _ hr))) hord hrest
        refine ⟨ref', ref :: dropped, (hp.cons ref).trans hperm, fun r hr => ?_, hrest⟩
        obtain rfl | hr := List.mem_cons.mp hr
        · exact ⟨item', hitem, hdel⟩
        · exact hd r hr
      · next hdel =>
        obtain ⟨rfl, rfl⟩ := Prod.mk.inj (Option.some.inj hrest)
        exact ⟨ref, [], hperm, fun r hr => absurd hr List.not_mem_nil, hitem,
          Bool.eq_false_iff.mpr hdel, hord, heappop_le (weakOrder_refLt q) hvalid ho hpop⟩

/-- If nothing is found, all items are deleted. -/
theorem popLive_eq_none {n : ℕ} {heap : List ℕ} (hn : heap.length ≤ n)
    (hvalid : ∀ ref ∈ heap, ref < q.items.length) (h : q.popLive n heap = none) :
    ∀ ref ∈ heap, q.DeletedRef ref := by
  induction n generalizing heap with
  | zero =>
      obtain rfl := List.length_eq_zero_iff.mp (Nat.le_zero.mp hn)
      exact fun r hr => absurd hr List.not_mem_nil
  | succ n ih =>
      cases hpop : heappop q.refLt heap with
      | none =>
          unfold heappop at hpop
          split at hpop
          · next hlast =>
            rw [List.getLast?_eq_none_iff.mp hlast]
            exact fun r hr => absurd hr List.not_mem_nil
          · split at hpop <;> cases hpop
      | some p =>
          obtain ⟨ref, heap'⟩ := p
          have hperm := heappop_perm hpop
          have hlen := hperm.length_eq
          rw [List.length_cons] at hlen
          have hlt := hvalid ref (hperm.mem_iff.mp (List.mem_cons_self ..))
          have hitem := List.getElem?_eq_getElem hlt
          simp only [popLive, hpop, hitem, Option.bind_eq_bind, Option.bind_some] at h
          split at h
          · next hdel =>
            have hall := ih (by omega) (fun r hr =>
              hvalid r (hperm.mem_iff.mp (List.mem_cons_of_mem _ hr))) h
            intro r hr
            obtain rfl | hr := List.mem_cons.mp (hperm.mem_iff.mpr hr)
            · exact ⟨_, hitem, hdel⟩
            · exact hall r hr
          · cases h

theorem heap_of_get? {agent : String} {heap : List ℕ}
    (h : q.agentQueues.get? agent = some heap) : q.heap agent = heap :=
  Dict.getD_of_get? h []

/-- The queues with another heap for one agent. -/
def setHeap (q : AgentQueues) (agent : String) (heap : List ℕ) : AgentQueues :=
  { q with agentQueues := q.agentQueues.set agent heap }

theorem setHeap_heap (agent agent' : String) (heap : List ℕ) :
    (q.setHeap agent heap).heap agent' = if agent' = agent then heap else q.heap agent' :=
  Dict.getD_set ..

/-- Entries of a heap are dropped. No task that is filed is lost. -/
theorem Linked.setHeap (h : q.Linked owner) {agent : String} {rest : List ℕ}
    (hsub : ∀ r ∈ rest, r ∈ q.heap agent) (hnodup : rest.Nodup) (ho : Ordered q.refLt rest)
    (hlost : ∀ r ∈ q.heap agent, r ∉ rest → q.DeletedRef r ∨
      ∃ item, q.items[r]? = some item ∧ item.task = shutdownTask) :
    (q.setHeap agent rest).Linked owner := by
  have hmem : ∀ agent', ∀ r ∈ (q.setHeap agent rest).heap agent', r ∈ q.heap agent' :=
    fun agent' r hr => by
      rw [setHeap_heap] at hr
      split at hr
      · next ha => exact ha ▸ hsub r hr
      · exact hr
  constructor
  · exact fun agent' r hr => h.valid agent' r (hmem agent' r hr)
  · intro agent'
    rw [setHeap_heap]
    split
    · exact hnodup
    · exact h.nodup agent'
  · intro t' r hs hr
    obtain ⟨item, hi, htask, hd, hp, hm⟩ := h.filedItem t' r hs hr
    refine ⟨item, hi, htask, hd, hp, ?_⟩
    rw [setHeap_heap]
    split
    · next ha =>
      by_contra hn
      obtain ⟨item', hi', hd'⟩ | ⟨item', hi', ht'⟩ := hlost r (ha ▸ hm) hn
      · obtain rfl := Option.some.inj (hi.symm.trans hi')
        rw [hd] at hd'
        cases hd'
      · obtain rfl := Option.some.inj (hi.symm.trans hi')
        exact hp (htask.symm.trans ht')
    · exact hm
  · exact fun agent' r hr item hi hd hp => h.live agent' r (hmem agent' r hr) item hi hd hp
  · exact h.owned
  · exact h.reserved
  · intro agent'
    rw [setHeap_heap]
    split
    · exact ho
    · exact h.ordered agent'

/-- What `queue_get` does: it pops deleted items, and then one that is not. -/
structure Consumes (q : AgentQueues) (agent : String) (q' : AgentQueues) (item : TaskQueueItem)
    (ref : ℕ) (dropped rest : List ℕ) : Prop where
  known : agent ∈ q.agentQueues
  perm : (dropped ++ ref :: rest).Perm (q.heap agent)
  dropped : ∀ r ∈ dropped, q.DeletedRef r
  get : q.items[ref]? = some item
  notDeleted : item.deleted = false
  ordered : Ordered q.refLt rest
  least : ∀ r ∈ rest, q.refLt r ref = false
  queues : q' = { (q.discard item.task).1.setHeap agent rest with
    inProgress := q.inProgress.set item.task item.priority }

theorem discard_setHeap (agent : String) (rest : List ℕ) :
    ((q.setHeap agent rest).discard t).1 = (q.discard t).1.setHeap agent rest := by
  unfold AgentQueues.discard
  cases href : (q.tasksOf t.resource).get? t with
  | none =>
      have : ((q.setHeap agent rest).tasksOf t.resource).get? t = none := href
      rw [this]
  | some ref =>
      have : ((q.setHeap agent rest).tasksOf t.resource).get? t = some ref := href
      rw [this]
      rfl

theorem queueGet_consumes (h : q.Linked owner) {agent : String} {item : TaskQueueItem}
    (hget : q.queueGet agent = some (q', item)) :
    ∃ ref dropped rest, q.Consumes agent q' item ref dropped rest := by
  simp only [queueGet, Option.bind_eq_bind, Option.bind_eq_some_iff] at hget
  obtain ⟨heap, hheap, ⟨item', rest⟩, hpop, hres⟩ := hget
  obtain ⟨rfl, rfl⟩ := Prod.mk.inj (Option.some.inj hres)
  have hq := heap_of_get? hheap
  subst hq
  obtain ⟨ref, dropped, hperm, hdropped, hitem, hdel, hord, hleast⟩ :=
    popLive_spec (h.valid agent) (h.ordered agent) hpop
  refine ⟨ref, dropped, rest, Dict.mem_of_get? hheap, hperm, hdropped, hitem, hdel, hord, hleast,
    ?_⟩
  have hdiscard := discard_setHeap (q := q) (t := item'.task) agent rest
  have hprogress := discard_inProgress (q := q.setHeap agent rest) (t := item'.task)
  change ({ ((q.setHeap agent rest).discard item'.task).1 with
    inProgress := ((q.setHeap agent rest).discard item'.task).1.inProgress.set item'.task
      item'.priority } : AgentQueues) = _
  rw [hprogress, hdiscard]
  rfl

section Consumes

variable {agent : String} {item : TaskQueueItem} {ref : ℕ} {dropped rest : List ℕ}

theorem Consumes.mem_heap (c : q.Consumes agent q' item ref dropped rest) :
    ref ∈ q.heap agent :=
  c.perm.mem_iff.mp (List.mem_append_right _ (List.mem_cons_self ..))

theorem Consumes.nodup (c : q.Consumes agent q' item ref dropped rest) (h : q.Linked owner) :
    ref ∉ rest ∧ rest.Nodup := by
  have hn := c.perm.nodup_iff.mpr (h.nodup agent)
  exact List.nodup_cons.mp (List.nodup_append.mp hn).2.1

/-- The item is the one that is filed under its task. -/
theorem Consumes.filed (c : q.Consumes agent q' item ref dropped rest) (h : q.Linked owner)
    (hp : item.task ≠ shutdownTask) : item.task.resource.agentName = agent ∧
      (q.tasksOf item.task.resource).get? item.task = some ref :=
  (h.live agent ref c.mem_heap item c.get c.notDeleted hp).2

theorem Linked.not_filed_shutdown (h : q.Linked owner) :
    (q.tasksOf shutdownTask.resource).get? shutdownTask = none := by
  cases href : (q.tasksOf shutdownTask.resource).get? shutdownTask with
  | none => rfl
  | some r =>
      obtain ⟨-, -, -, -, hne, -⟩ := h.filedItem shutdownTask r (fun hf => hf) href
      exact absurd rfl hne

theorem Linked.consumes (h : q.Linked owner) (c : q.Consumes agent q' item ref dropped rest) :
    q'.Linked owner := by
  have hsub : ∀ r ∈ rest, r ∈ q.heap agent := fun r hr =>
    c.perm.mem_iff.mp (List.mem_append_right _ (List.mem_cons_of_mem _ hr))
  obtain ⟨hnot, hnodup⟩ := c.nodup h
  have hset : ((q.discard item.task).1.setHeap agent rest).Linked owner := by
    by_cases hp : item.task = shutdownTask
    · rw [hp, discard_eq_self h.not_filed_shutdown]
      refine h.setHeap hsub hnodup c.ordered fun r hr hrest => ?_
      obtain hr | hr := List.mem_append.mp (c.perm.mem_iff.mpr hr)
      · exact Or.inl (c.dropped r hr)
      · obtain rfl | hr := List.mem_cons.mp hr
        · exact Or.inr ⟨item, c.get, hp⟩
        · exact absurd hr hrest
    · obtain ⟨-, hfiled⟩ := c.filed h hp
      have hitems := discard_items hfiled
      have hother : ∀ r, r ≠ ref → (q.discard item.task).1.items[r]? = q.items[r]? :=
        fun r hr => by
          rw [hitems, items_markDeleted]
          simp [hr]
      refine (h.discard item.task).setHeap (fun r hr => by rw [discard_heap]; exact hsub r hr)
        hnodup (fun i a b hi ha hb => ?_) fun r hr hrest => ?_
      · have hane : a ≠ ref := fun he => hnot (he ▸ List.mem_of_getElem? ha)
        have hbne : b ≠ ref := fun he => hnot (he ▸ List.mem_of_getElem? hb)
        rw [refLt, hother a hane, hother b hbne]
        exact c.ordered i a b hi ha hb
      · left
        rw [discard_heap] at hr
        by_cases hrr : r = ref
        · rw [hrr]
          refine ⟨{ item with deleted := true }, ?_, rfl⟩
          rw [hitems, items_markDeleted, c.get]
          simp
        · obtain hr | hr := List.mem_append.mp (c.perm.mem_iff.mpr hr)
          · obtain ⟨item', hi, hd⟩ := c.dropped r hr
            exact ⟨item', by rw [hother r hrr]; exact hi, hd⟩
          · obtain rfl | hr := List.mem_cons.mp hr
            · exact absurd rfl hrr
            · exact absurd hr hrest
  rw [c.queues]
  exact ⟨hset.valid, hset.nodup, hset.filedItem, hset.live, hset.owned, hset.reserved,
    hset.ordered⟩

end Consumes

end AgentQueues

end Inmanta
