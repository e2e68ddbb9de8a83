import Inmanta.Agent.CacheEviction
import Inmanta.Lib.Run
import Mathlib.Algebra.Order.Ring.Int

/-!
# What the cache keeps, and for how long

`CacheSession.step` runs the operations of a cache in any order, at times
that do not decrease. Beside the cache a session records what the
operations are meant to go by: when an item was last touched (when it was
made, or the end of the last context that used it), the time of the last
context that was entered and which items were ever added.

An eviction takes the item off the heap before it calls its finalizer and
deletes it from the dictionary: what the finalizer raises leaves the item
in one of the two (`cleanRaises_breaks`). In a run in which no finalizer of
an item that is evicted raises, the two hold the same items and an item
lives exactly as long as it should (`evicts_on_time`).
-/

namespace Inmanta

variable {τ ν : Type}

inductive CacheAction (τ ν : Type) where
  | cacheValue (now : τ) (key : String) (value : Option ν)
      (evictAfterLastAccess evictAfterCreation : τ) (resource : Option String)
      (callOnDelete : Option Finalizer)
  | find (key : String) (resource : Option String)
  /-- `function` is what the function returns; it may raise instead. -/
  | getOrElse (now : τ) (arguments : AgentCache.GetOrElse τ) (function : Option (Option ν))
  | enter (now : τ)
  | exit (now : τ)
  | close
  /-- An item object that nothing refers to any more is collected. -/
  | collect (i : ℕ)

structure CacheSession (τ ν : Type) where
  cache : AgentCache τ ν
  clock : τ
  /-- When the last context was entered. -/
  entered : Option τ
  added : List ℕ
  /-- The items that were added or returned since the last context ended. -/
  accessed : List ℕ
  /-- When an item was made, or the last context that accessed it ended. -/
  touched : ℕ → τ

namespace CacheSession

section Step

variable [LinearOrder τ] [CommRing τ]

def init : CacheSession τ ν where
  cache := .new
  clock := 0
  entered := none
  added := []
  accessed := []
  touched := fun _ => 0

/-- An operation returned or added an item, or raised. -/
def record (s : CacheSession τ ν) (now : τ) : Option ℕ × AgentCache τ ν → CacheSession τ ν
  | (none, cache) => { s with cache, clock := now }
  | (some i, cache) =>
      if i < s.cache.next then { s with cache, clock := now, accessed := i :: s.accessed }
      else { s with
        cache
        clock := now
        added := i :: s.added
        accessed := i :: s.accessed
        touched := Function.update s.touched i now }

def step (s : CacheSession τ ν) : CacheAction τ ν → Option (CacheSession τ ν)
  | .cacheValue now key value evictAfterLastAccess evictAfterCreation resource callOnDelete =>
      if now < s.clock then none
      else some (s.record now (s.cache.cacheValue now key value evictAfterLastAccess
        evictAfterCreation resource callOnDelete))
  | .find key resource =>
      some (match s.cache.find key resource with
        | none => s
        | some (i, cache) => s.record s.clock (some i, cache))
  | .getOrElse now arguments function =>
      if now < s.clock then none
      else some (s.record now (s.cache.getOrElse now arguments function))
  | .enter now =>
      if now < s.clock then none
      else
        match s.cache.cleanStaleEntries now with
        | (cache, none) => some { s with cache, clock := now, entered := some now }
        | (cache, some _) => some { s with cache, clock := now }
  | .exit now =>
      if now < s.clock then none
      else some { s with
        cache := s.cache.touchUsedCacheItems now
        clock := now
        accessed := []
        touched := fun i => if i ∈ s.accessed then now else s.touched i }
  | .close => some { s with cache := s.cache.close.1 }
  | .collect i =>
      if i < s.cache.next ∧ i ∉ s.cache.cache.values ∧ i ∉ s.cache.timerQueue ∧
          i ∉ s.cache.usedItemsToRefresh then
        some { s with cache := (s.cache.delete i).1 }
      else none

/-- When an item expires, by when it was touched last. -/
def deadline (s : CacheSession τ ν) (i : ℕ) : WithTop τ :=
  min ((s.cache.items i).lease (s.touched i)) (s.cache.items i).afterCreationExpiryTime

/-- What the dictionary, the heap and the record of a session agree on. -/
structure Inv (s : CacheSession τ ν) : Prop where
  indexed : s.cache.Indexed
  linked : s.cache.Linked
  added_lt : ∀ i ∈ s.added, i < s.cache.next
  cached_added : ∀ key i, s.cache.cache.get? key = some i → i ∈ s.added
  gone : ∀ i ∈ s.added, (∀ key, s.cache.cache.get? key ≠ some i) →
    (s.cache.items i).callOnDelete ≠ none → i ∈ s.cache.finalized
  expiry : ∀ key i, s.cache.cache.get? key = some i → s.cache.expiry i = s.deadline i
  used : ∀ key i, s.cache.cache.get? key = some i → (s.cache.items i).refreshAfterAccess ≠ 0 →
    (i ∈ s.cache.usedItemsToRefresh ↔ i ∈ s.accessed)
  entered : ∀ t, s.entered = some t → t ≤ s.clock ∧
    ∀ key i, s.cache.cache.get? key = some i → ↑t ≤ s.cache.expiry i

namespace Inv

variable {s : CacheSession τ ν} {c : AgentCache τ ν} {now : τ} {i : ℕ}

theorem cached_lt (h : s.Inv) {key : String} (hi : s.cache.cache.get? key = some i) :
    i < s.cache.next :=
  h.indexed.known key i hi

/-- An item of the cache is returned. -/
theorem found (h : s.Inv) {key : String} (hi : s.cache.cache.get? key = some i)
    (hnow : s.clock ≤ now) : (s.record now (some i, s.cache.use i)).Inv := by
  have hfields : ∀ j, (s.cache.use i).items j = s.cache.items j := fun j => by
    rw [AgentCache.use_eq]
  have hcache : (s.cache.use i).cache = s.cache.cache := by rw [AgentCache.use_eq]
  have hfinalized : (s.cache.use i).finalized = s.cache.finalized := by rw [AgentCache.use_eq]
  have hnext : (s.cache.use i).next = s.cache.next := by rw [AgentCache.use_eq]
  rw [record, if_pos (h.cached_lt hi)]
  refine ⟨AgentCache.use_indexed h.indexed (h.cached_lt hi), AgentCache.use_linked h.linked,
    fun j hj => ?_, fun key' j hj => ?_, fun j hj hgone hf => ?_, fun key' j hj => ?_,
    fun key' j hj hr => ?_, fun t ht => ⟨(h.entered t ht).1.trans hnow, fun key' j hj => ?_⟩⟩
  · simp only [hnext]
    exact h.added_lt j hj
  · simp only [hcache] at hj
    exact h.cached_added key' j hj
  · simp only [hcache] at hgone
    simp only [hfields] at hf
    simp only [hfinalized]
    exact h.gone j hj hgone hf
  · simp only [hcache] at hj
    simp only [AgentCache.expiry, deadline, hfields]
    exact h.expiry key' j hj
  · simp only [hcache] at hj
    simp only [hfields] at hr
    rw [AgentCache.mem_use, List.mem_cons, h.used key' j hj hr, or_comm]
    refine or_congr_left (and_iff_left_of_imp ?_)
    rintro rfl
    exact hr
  · simp only [hcache] at hj
    simp only [AgentCache.expiry, hfields]
    exact (h.entered t ht).2 key' j hj

/-- The object of an item that is not added. -/
theorem rejected (h : s.Inv) {item : CacheItem τ ν} (hitem : item.calledFinalizer = false)
    (hnow : s.clock ≤ now) : (s.record now (none, s.cache.create item)).Inv := by
  have hfields : ∀ key j, s.cache.cache.get? key = some j →
      (s.cache.create item).items j = s.cache.items j := fun key j hj =>
    AgentCache.create_items_of_lt (h.cached_lt hj)
  refine ⟨AgentCache.create_indexed h.indexed hitem, AgentCache.create_linked h.indexed h.linked,
    fun j hj => Nat.lt_succ_of_lt (h.added_lt j hj), h.cached_added, fun j hj hgone hf => ?_,
    fun key j hj => ?_, fun key j hj hr => ?_,
    fun t ht => ⟨(h.entered t ht).1.trans hnow, fun key j hj => ?_⟩⟩
  · simp only [record, AgentCache.create_items_of_lt (h.added_lt j hj)] at hf
    exact h.gone j hj hgone hf
  · simp only [record, AgentCache.expiry, deadline, hfields key j hj]
    exact h.expiry key j hj
  · simp only [record, hfields key j hj] at hr
    exact h.used key j hj hr
  · simp only [record, AgentCache.expiry, hfields key j hj]
    exact (h.entered t ht).2 key j hj

/-- An item is added. -/
theorem inserted (h : s.Inv) {item : CacheItem τ ν} (hitem : item.calledFinalizer = false)
    (hkey : item.key ∉ s.cache.cache)
    (hexpiry : item.expiryTime = min (item.lease now) item.afterCreationExpiryTime)
    (hfresh : ↑now ≤ item.expiryTime) (hnow : s.clock ≤ now) :
    (s.record now (some s.cache.next,
      (s.cache.create item).insertItem s.cache.next)).Inv := by
  have hself : (s.cache.create item).items s.cache.next = item := AgentCache.create_items_next
  have hold : ∀ j, j < s.cache.next → (s.cache.create item).items j = s.cache.items j :=
    fun j hj => AgentCache.create_items_of_lt hj
  have hget : ∀ key j, ((s.cache.create item).insertItem s.cache.next).cache.get? key = some j ↔
      key = item.key ∧ j = s.cache.next ∨ key ≠ item.key ∧ s.cache.cache.get? key = some j :=
    fun key j => by
      show ((s.cache.create item).cache.set _ _).get? key = some j ↔ _
      rw [hself, Dict.get?_set]
      split
      · next heq => simp [heq, eq_comm]
      · next hne => simp [hne]; rfl
  have hindexed := AgentCache.create_indexed h.indexed hitem
  have hlinked : (s.cache.create item).Linked := AgentCache.create_linked h.indexed h.linked
  have htouched : ∀ j, j < s.cache.next →
      Function.update s.touched s.cache.next now j = s.touched j := fun j hj =>
    Function.update_of_ne hj.ne now s.touched
  rw [record, if_neg (Nat.lt_irrefl _)]
  refine ⟨AgentCache.insertItem_indexed hindexed (Nat.lt_succ_self _) (by rw [hself]; exact hitem),
    AgentCache.insertItem_linked hlinked (by rw [hself]; exact hkey) fun key hnext => ?_,
    fun j hj => ?_, fun key j hj => ?_, fun j hj hgone hf => ?_, fun key j hj => ?_,
    fun key j hj hr => ?_, fun t ht => ⟨(h.entered t ht).1.trans hnow, fun key j hj => ?_⟩⟩
  · exact Nat.lt_irrefl _ (h.cached_lt hnext)
  · obtain rfl | hj := List.mem_cons.mp hj
    · exact Nat.lt_succ_self _
    · exact Nat.lt_succ_of_lt (h.added_lt j hj)
  · obtain ⟨_, rfl⟩ | ⟨_, hj⟩ := (hget key j).mp hj
    · exact List.mem_cons_self
    · exact List.mem_cons_of_mem _ (h.cached_added key j hj)
  · obtain rfl | hj := List.mem_cons.mp hj
    · exact absurd ((hget item.key s.cache.next).mpr (.inl ⟨rfl, rfl⟩)) (hgone item.key)
    · have hlt := h.added_lt j hj
      refine h.gone j hj (fun key hkj => ?_) ?_
      · refine hgone key ((hget key j).mpr (.inr ⟨?_, hkj⟩))
        rintro rfl
        exact hkey (Dict.mem_of_get? hkj)
      · rw [← hold j hlt]
        exact hf
  · obtain ⟨_, rfl⟩ | ⟨_, hj⟩ := (hget key j).mp hj
    · show ((s.cache.create item).items s.cache.next).expiryTime =
        min (((s.cache.create item).items s.cache.next).lease
            (Function.update s.touched s.cache.next now s.cache.next))
          ((s.cache.create item).items s.cache.next).afterCreationExpiryTime
      rw [hself, Function.update_self]
      exact hexpiry
    · have hlt := h.cached_lt hj
      show ((s.cache.create item).items j).expiryTime =
        min (((s.cache.create item).items j).lease
            (Function.update s.touched s.cache.next now j))
          ((s.cache.create item).items j).afterCreationExpiryTime
      rw [htouched j hlt, hold j hlt]
      exact h.expiry key j hj
  · rw [show ((s.cache.create item).insertItem s.cache.next).usedItemsToRefresh =
      ((s.cache.create item).use s.cache.next).usedItemsToRefresh from rfl, AgentCache.mem_use,
      List.mem_cons]
    obtain ⟨_, rfl⟩ | ⟨_, hj⟩ := (hget key j).mp hj
    · exact iff_of_true (.inr ⟨rfl, hr⟩) (.inl rfl)
    · have hlt := h.cached_lt hj
      have hr' : (s.cache.items j).refreshAfterAccess ≠ 0 := by rw [← hold j hlt]; exact hr
      rw [or_iff_left (fun hjn => hlt.ne hjn.1), or_iff_right hlt.ne]
      exact h.used key j hj hr'
  · obtain ⟨_, rfl⟩ | ⟨_, hj⟩ := (hget key j).mp hj
    · show ↑t ≤ ((s.cache.create item).items s.cache.next).expiryTime
      rw [hself]
      exact (WithTop.coe_le_coe.mpr ((h.entered t ht).1.trans hnow)).trans hfresh
    · show ↑t ≤ ((s.cache.create item).items j).expiryTime
      rw [hold j (h.cached_lt hj)]
      exact (h.entered t ht).2 key j hj

/-- Items leave the cache or are finalized. -/
theorem updated (h : s.Inv) (hc : c.Indexed) (hl : c.Linked)
    (hsame : AgentCache.SameItems s.cache c)
    (hcache : ∀ key i, c.cache.get? key = some i → s.cache.cache.get? key = some i)
    (hgone : ∀ i ∈ s.added, (∀ key, c.cache.get? key ≠ some i) →
      (s.cache.items i).callOnDelete ≠ none → i ∈ c.finalized) : { s with cache := c }.Inv := by
  refine ⟨hc, hl, fun i hi => ?_, fun key i hi => h.cached_added key i (hcache key i hi),
    fun i hi hout hf => ?_, fun key i hi => ?_, fun key i hi hr => ?_,
    fun t ht => ⟨(h.entered t ht).1, fun key i hi => ?_⟩⟩
  · show i < c.next
    rw [hsame.next]
    exact h.added_lt i hi
  · refine hgone i hi hout ?_
    rw [← hsame.callOnDelete]
    exact hf
  · show c.expiry i = min ((c.items i).uncalled.lease (s.touched i))
      (c.items i).uncalled.afterCreationExpiryTime
    rw [hsame.expiry, hsame.items]
    exact h.expiry key i (hcache key i hi)
  · replace hr : (c.items i).uncalled.refreshAfterAccess ≠ 0 := hr
    rw [hsame.items] at hr
    show i ∈ c.usedItemsToRefresh ↔ i ∈ s.accessed
    rw [hsame.used]
    exact h.used key i (hcache key i hi) hr
  · show ↑t ≤ c.expiry i
    rw [hsame.expiry]
    exact (h.entered t ht).2 key i (hcache key i hi)

/-- Items leave the cache, with their finalizers called. -/
theorem evicted (h : s.Inv) {out : ℕ → Prop} (hc : c.Indexed) (hl : c.Linked)
    (hev : AgentCache.Evicts s.cache c out) : { s with cache := c }.Inv := by
  refine h.updated hc hl hev.toSameItems (fun key i hi => ((hev.cache key i).mp hi).1)
    fun i hi hgone hf => (hev.finalized i).mpr ?_
  by_cases hex : ∃ key, s.cache.cache.get? key = some i
  · obtain ⟨key, hkey⟩ := hex
    refine .inr ⟨?_, ⟨key, hkey⟩, hf⟩
    by_contra hout
    exact hgone key ((hev.cache key i).mpr ⟨hkey, hout⟩)
  · exact .inl (h.gone i hi (not_exists.mp hex) hf)

/-- A context ends. -/
theorem exited [IsStrictOrderedRing τ] (h : s.Inv) (hnow : s.clock ≤ now) : ({ s with
    cache := s.cache.touchUsedCacheItems now
    clock := now
    accessed := []
    touched := fun i => if i ∈ s.accessed then now else s.touched i } : CacheSession τ ν).Inv := by
  obtain ⟨hnext, hcache, hused, hfinalized⟩ := AgentCache.touchUsedCacheItems_frame now s.cache
  have hcallOnDelete : ∀ i, ((s.cache.touchUsedCacheItems now).items i).callOnDelete =
      (s.cache.items i).callOnDelete := fun i => by
    rw [AgentCache.touchUsedCacheItems_items]
    split <;> simp
  have hdeadline : ∀ key i, s.cache.cache.get? key = some i →
      ((s.cache.touchUsedCacheItems now).items i).expiryTime =
        min (((s.cache.touchUsedCacheItems now).items i).lease
            (if i ∈ s.accessed then now else s.touched i))
          ((s.cache.touchUsedCacheItems now).items i).afterCreationExpiryTime := fun key i hi => by
    have hexpiry := h.expiry key i hi
    rw [AgentCache.touchUsedCacheItems_items]
    by_cases hr : (s.cache.items i).refreshAfterAccess = 0
    · have hsame : (s.cache.items i).refresh now = s.cache.items i := by
        rw [CacheItem.refresh, if_pos hr.le]
      rw [hsame, ite_self, CacheItem.lease, if_neg hr.not_gt]
      rw [AgentCache.expiry, deadline, CacheItem.lease, if_neg hr.not_gt] at hexpiry
      exact hexpiry
    · by_cases hi' : i ∈ s.accessed
      · rw [if_pos ((h.used key i hi hr).mpr hi'), if_pos hi']
        exact CacheItem.refresh_expiryTime now hexpiry
      · rw [if_neg fun hu => hi' ((h.used key i hi hr).mp hu), if_neg hi']
        exact hexpiry
  refine ⟨AgentCache.touchUsedCacheItems_indexed now h.indexed,
    AgentCache.touchUsedCacheItems_linked now h.linked, fun i hi => ?_, fun key i hi => ?_,
    fun i hi hgone hf => ?_, fun key i hi => ?_, fun key i hi hr => ?_,
    fun t ht => ⟨(h.entered t ht).1.trans hnow, fun key i hi => ?_⟩⟩
  · show i < (s.cache.touchUsedCacheItems now).next
    rw [hnext]
    exact h.added_lt i hi
  · simp only [hcache] at hi
    exact h.cached_added key i hi
  · simp only [hcache] at hgone
    simp only [hcallOnDelete] at hf
    simp only [hfinalized]
    exact h.gone i hi hgone hf
  · simp only [hcache] at hi
    exact hdeadline key i hi
  · simp only [hused]
  · simp only [hcache] at hi
    have hle := (h.entered t ht).2 key i hi
    have htnow : (↑t : WithTop τ) ≤ now :=
      WithTop.coe_le_coe.mpr ((h.entered t ht).1.trans hnow)
    show ↑t ≤ ((s.cache.touchUsedCacheItems now).items i).expiryTime
    have hexpiry := h.expiry key i hi
    rw [AgentCache.touchUsedCacheItems_items]
    split
    · rw [CacheItem.refresh_expiryTime now hexpiry]
      refine le_min (htnow.trans (CacheItem.le_lease _ now)) ?_
      rw [hexpiry] at hle
      rw [CacheItem.refresh_afterCreationExpiryTime]
      exact hle.trans (min_le_right _ _)
    · exact hle

/-- An object that is not in the cache is collected. -/
theorem collected (h : s.Inv) (hi : i < s.cache.next) (hgone : i ∉ s.cache.cache.values) :
    { s with cache := (s.cache.delete i).1 }.Inv := by
  have hne : ∀ key, s.cache.cache.get? key ≠ some i := fun key hkey =>
    hgone (Dict.mem_values.mpr ⟨key, hkey⟩)
  obtain ⟨hcache, hfinalized⟩ := AgentCache.delete_frame s.cache i
  refine h.updated (AgentCache.delete_indexed h.indexed hi hne) (AgentCache.delete_linked h.linked)
    (AgentCache.delete_sameItems s.cache i) (fun key j hj => ?_) fun j hj hgone' hf => ?_
  · rw [hcache] at hj
    exact hj
  · rw [hcache] at hgone'
    exact hfinalized (h.gone j hj hgone' hf)

section Ring

variable [IsStrictOrderedRing τ]

theorem cacheValue (h : s.Inv) (hnow : s.clock ≤ now) (key : String) (value : Option ν) (l d : τ)
    (resource : Option String) (f : Option Finalizer) :
    (s.record now (s.cache.cacheValue now key value l d resource f)).Inv := by
  simp only [AgentCache.cacheValue, AgentCache.add, AgentCache.create_items_next]
  by_cases hkey : (CacheItem.new now (AgentCache.getKey key resource) value f l d).key ∈
      (s.cache.create (.new now (AgentCache.getKey key resource) value f l d)).cache
  · rw [if_pos hkey]
    exact h.rejected rfl hnow
  · rw [if_neg hkey]
    exact h.inserted rfl hkey (CacheItem.new_expiryTime now _ value f l d)
      (CacheItem.le_new_expiryTime now _ value f l d) hnow

theorem getOrElse (h : s.Inv) (hnow : s.clock ≤ now) (g : AgentCache.GetOrElse τ)
    (function : Option (Option ν)) : (s.record now (s.cache.getOrElse now g function)).Inv := by
  have hnothing : (s.record now (none, s.cache)).Inv :=
    ⟨h.indexed, h.linked, h.added_lt, h.cached_added, h.gone, h.expiry, h.used,
      fun t ht => ⟨(h.entered t ht).1.trans hnow, (h.entered t ht).2⟩⟩
  unfold AgentCache.getOrElse
  cases hfind : s.cache.find g.fullKey g.keyResource with
  | some found =>
      obtain ⟨i, hi, rfl⟩ := Option.map_eq_some_iff.mp hfind
      exact h.found hi hnow
  | none =>
      cases function with
      | none => exact hnothing
      | some value =>
          dsimp only
          split
          · exact h.cacheValue hnow _ value _ _ _ _
          · exact hnothing

end Ring

end Inv

/-- No finalizer that the step calls raises. -/
def NoRaise (s : CacheSession τ ν) : CacheAction τ ν → Prop
  | .enter now => ∀ i ∈ s.cache.cache.values, s.cache.expiry i < now → s.cache.Quiet i
  | .close => ∀ i ∈ s.cache.cache.values, s.cache.Quiet i
  | _ => True

instance (s : CacheSession τ ν) : DecidablePred s.NoRaise
  | .enter now => inferInstanceAs (Decidable
      (∀ i ∈ s.cache.cache.values, s.cache.expiry i < now → s.cache.Quiet i))
  | .close => inferInstanceAs (Decidable (∀ i ∈ s.cache.cache.values, s.cache.Quiet i))
  | .cacheValue .. | .find .. | .getOrElse .. | .exit _ | .collect _ =>
      inferInstanceAs (Decidable True)

variable {s s' : CacheSession τ ν} {a : CacheAction τ ν}

theorem Inv.step [IsStrictOrderedRing τ] (h : s.Inv) (hq : s.NoRaise a) (hs : s.step a = some s') :
    s'.Inv := by
  cases a with
  | cacheValue now key value l d resource f =>
      simp only [CacheSession.step, Option.ite_none_left_eq_some, Option.some.injEq] at hs
      obtain ⟨hnow, rfl⟩ := hs
      exact h.cacheValue (not_lt.mp hnow) key value l d resource f
  | find key resource =>
      obtain rfl := Option.some.inj hs
      cases hfind : s.cache.find key resource with
      | none => exact h
      | some found =>
          obtain ⟨i, hi, rfl⟩ := Option.map_eq_some_iff.mp hfind
          exact h.found hi le_rfl
  | getOrElse now g function =>
      simp only [CacheSession.step, Option.ite_none_left_eq_some, Option.some.injEq] at hs
      obtain ⟨hnow, rfl⟩ := hs
      exact h.getOrElse (not_lt.mp hnow) g function
  | enter now =>
      obtain ⟨c, hclean, hc, hl, hev, _⟩ := AgentCache.cleanStaleEntries_quiet h.indexed h.linked
        fun key i hi => hq i (Dict.mem_values.mpr ⟨key, hi⟩)
      simp only [CacheSession.step, hclean, Option.ite_none_left_eq_some, Option.some.injEq] at hs
      obtain ⟨_, rfl⟩ := hs
      have h' := h.evicted hc hl hev
      refine ⟨h'.indexed, h'.linked, h'.added_lt, h'.cached_added, h'.gone, h'.expiry, h'.used,
        fun t ht => ?_⟩
      obtain rfl := Option.some.inj ht
      refine ⟨le_rfl, fun key i hi => ?_⟩
      show ↑now ≤ c.expiry i
      rw [hev.expiry]
      exact not_lt.mp ((hev.cache key i).mp hi).2
  | exit now =>
      simp only [CacheSession.step, Option.ite_none_left_eq_some, Option.some.injEq] at hs
      obtain ⟨hnow, rfl⟩ := hs
      exact h.exited (not_lt.mp hnow)
  | close =>
      obtain ⟨c, hclose, hc, hl, hev⟩ := AgentCache.close_quiet h.indexed
        fun key i hi => hq i (Dict.mem_values.mpr ⟨key, hi⟩)
      simp only [CacheSession.step, hclose, Option.some.injEq] at hs
      subst hs
      exact h.evicted hc hl hev
  | collect i =>
      simp only [CacheSession.step, Option.ite_none_right_eq_some, Option.some.injEq] at hs
      obtain ⟨⟨hi, hgone, _⟩, rfl⟩ := hs
      exact h.collected hi hgone

theorem Inv.init : (init : CacheSession τ ν).Inv := by
  refine ⟨⟨?_, ?_, ?_, ?_, List.nodup_nil, ?_, ?_⟩, ⟨List.nodup_nil, ?_, ?_, rfl⟩, ?_, ?_, ?_, ?_, ?_,
    ?_⟩ <;> simp [CacheSession.init, AgentCache.new, CacheItem.new, Ordered]

/-- What holds of a cache between two operations. -/
structure Sound (s : CacheSession τ ν) : Prop where
  nodup : s.cache.timerQueue.Nodup
  same : ∀ i, i ∈ s.cache.timerQueue ↔ i ∈ s.cache.cache.values
  ordered : Ordered s.cache.before s.cache.timerQueue
  expiry : ∀ i ∈ s.cache.cache.values, s.cache.expiry i = s.deadline i
  returned : ∀ key resource i c, s.cache.find key resource = some (i, c) →
    ∀ t, s.entered = some t → ↑t ≤ s.cache.expiry i
  once : s.cache.finalized.Nodup
  gone : ∀ i ∈ s.added, i ∉ s.cache.cache.values → (s.cache.items i).callOnDelete ≠ none →
    i ∈ s.cache.finalized

/-- `clean_stale_entries` leaves the items that are not expired, and pops a heap
that is in order. -/
def CleansExactly (s : CacheSession τ ν) (now : τ) : Prop :=
  ∃ c, s.cache.cleanStaleEntries now = (c, none) ∧
    (∀ key i, c.cache.get? key = some i ↔
      s.cache.cache.get? key = some i ∧ ↑now ≤ s.cache.expiry i) ∧
    (∀ i ∈ c.cache.values, ↑now ≤ (c.items i).afterCreationExpiryTime) ∧
    ∀ p ∈ AgentCache.popStates now s.cache.timerQueue.length s.cache,
      Ordered p.before p.timerQueue

theorem Inv.sound (h : s.Inv) : s.Sound where
  nodup := h.linked.nodup
  same := fun i => (h.linked.same i).trans Dict.mem_values.symm
  ordered := h.linked.ordered
  expiry := fun i hi => by
    obtain ⟨key, hkey⟩ := Dict.mem_values.mp hi
    exact h.expiry key i hkey
  returned := fun key resource i c hfind t ht => by
    obtain ⟨j, hj, heq⟩ := Option.map_eq_some_iff.mp hfind
    obtain ⟨rfl, _⟩ := Prod.mk.inj heq
    exact (h.entered t ht).2 _ j hj
  once := h.indexed.once
  gone := fun i hi hout hf =>
    h.gone i hi (fun key hkey => hout (Dict.mem_values.mpr ⟨key, hkey⟩)) hf

theorem Inv.cleansExactly (h : s.Inv) {now : τ} (hq : s.NoRaise (.enter now)) :
    s.CleansExactly now := by
  obtain ⟨c, hclean, _, _, hev, hpops⟩ := AgentCache.cleanStaleEntries_quiet h.indexed h.linked
    fun key i hi => hq i (Dict.mem_values.mpr ⟨key, hi⟩)
  have hcache : ∀ key i, c.cache.get? key = some i ↔
      s.cache.cache.get? key = some i ∧ ↑now ≤ s.cache.expiry i := fun key i => by
    rw [hev.cache, not_lt]
  refine ⟨c, hclean, hcache, fun i hi => ?_, hpops⟩
  obtain ⟨key, hkey⟩ := Dict.mem_values.mp hi
  obtain ⟨hkey, hle⟩ := (hcache key i).mp hkey
  rw [h.expiry key i hkey] at hle
  show ↑now ≤ (c.items i).uncalled.afterCreationExpiryTime
  rw [hev.items]
  exact hle.trans (min_le_right _ _)

/-- **Eviction.** In a run in which no finalizer of an item that is evicted
raises, the heap and the dictionary hold the same items, an item expires when
it should and is not returned afterwards, and its finalizer is called once. -/
theorem evicts_on_time [IsStrictOrderedRing τ] {as : List (CacheAction τ ν)}
    {r : CacheSession τ ν} (hq : Along CacheSession.step NoRaise CacheSession.init as)
    (hrun : run CacheSession.step CacheSession.init as = some r) :
    r.Sound ∧ ∀ now, r.NoRaise (.enter now) → r.CleansExactly now := by
  have h : r.Inv := run_invariant (fun _ _ _ h hq hs => h.step hq hs) Inv.init hq hrun
  exact ⟨h.sound, fun _ hq => h.cleansExactly hq⟩

/-- Two values, one of which is used in a context and outlives the other. -/
def useOne : List (CacheAction ℤ ℕ) :=
  [.cacheValue 0 "a" (some 1) 5 0 none (some .returns), .cacheValue 0 "b" (some 2) 5 0 none none,
    .exit 1, .enter 2, .find "a" none, .exit 4, .enter 8]

theorem evicts_on_time_useOne : ∃ r, run CacheSession.step CacheSession.init useOne = some r ∧
    r.cache.cache.keys = ["a"] ∧ r.Sound := by
  obtain ⟨r, hr, hkeys⟩ : ∃ r, run CacheSession.step CacheSession.init useOne = some r ∧
      r.cache.cache.keys = ["a"] :=
    exists_run_of_any _ _ _ (by decide +kernel)
  exact ⟨r, hr, hkeys, (evicts_on_time (by decide +kernel) hr).1⟩

/-- The finalizer of an item that is expired raises a `KeyError`. -/
def cleanRaises : List (CacheAction ℤ ℕ) :=
  [.cacheValue 0 "a" (some 1) 0 1 none (some (.raises .keyError)), .enter 2]

theorem cleanRaises_breaks :
    ∃ r, run CacheSession.step CacheSession.init cleanRaises = some r ∧ ¬ r.Sound := by
  obtain ⟨r, hr, hi, hq⟩ : ∃ r, run CacheSession.step CacheSession.init cleanRaises = some r ∧
      (0 ∈ r.cache.cache.values ∧ 0 ∉ r.cache.timerQueue) :=
    exists_run_of_any _ _ _ (by decide +kernel)
  exact ⟨r, hr, fun h => hq ((h.same 0).mpr hi)⟩

end Step

end CacheSession

end Inmanta
