import Inmanta.Lib.Dict
import Inmanta.Lib.Heapq
import Mathlib.Algebra.Order.Ring.Defs
import Mathlib.Order.WithBot

/-!
# The cache of an agent

Items live in a dictionary and in a heap that is ordered by their expiry
time; `next_action` caches the expiry time of the head. The two refer to
the same item objects, whose expiry times change while they are in the
heap, so the cache refers to items by identity and `items` holds the
objects.

Time is any ordered ring, `⊤` is the expiry time of an item that does not
expire. An operation may raise: it gives the cache it leaves behind and
what it raises. A finalizer is given by how its call ends, which is all
that the cache sees of it.

The locks are left out: one thread uses the cache at a time.
-/

namespace Inmanta

/-- What user code raises: the error that `_evict_item` expects of a missing
key, or any other. -/
inductive Exn where
  | keyError
  | other
  deriving DecidableEq

inductive Finalizer where
  | returns
  | raises (e : Exn)
  deriving DecidableEq

def Finalizer.raised : Finalizer → Option Exn
  | returns => none
  | raises e => some e

/-- A cached item; `value` is `none` for Python's `None`. -/
structure CacheItem (τ ν : Type) where
  key : String
  value : Option ν
  callOnDelete : Option Finalizer
  refreshAfterAccess : τ
  expiryTime : WithTop τ
  afterCreationExpiryTime : WithTop τ
  calledFinalizer : Bool

section Time

variable {τ ν : Type} [CommRing τ] [LinearOrder τ]

namespace CacheItem

def new (now : τ) (key : String) (value : Option ν) (callOnDelete : Option Finalizer)
    (evictAfterLastAccess evictAfterCreation : τ) : CacheItem τ ν :=
  let expiryTime : WithTop τ :=
    if 0 < evictAfterLastAccess then ↑(now + evictAfterLastAccess) else ⊤
  let afterCreationExpiryTime : WithTop τ :=
    if 0 < evictAfterCreation then ↑(now + evictAfterCreation) else ⊤
  { key, value, callOnDelete
    refreshAfterAccess := evictAfterLastAccess
    expiryTime :=
      if 0 < evictAfterCreation then min expiryTime afterCreationExpiryTime else expiryTime
    afterCreationExpiryTime
    calledFinalizer := false }

def refresh (now : τ) (item : CacheItem τ ν) : CacheItem τ ν :=
  if item.refreshAfterAccess ≤ 0 then item
  else { item with
    expiryTime := min ↑(now + item.refreshAfterAccess) item.afterCreationExpiryTime }

/-- How long an item lives that was last accessed at a time, by its limit on
that alone. -/
def lease (item : CacheItem τ ν) (accessed : τ) : WithTop τ :=
  if 0 < item.refreshAfterAccess then ↑(accessed + item.refreshAfterAccess) else ⊤

theorem new_expiryTime (now : τ) (key : String) (value : Option ν) (f : Option Finalizer)
    (l c : τ) : (new now key value f l c).expiryTime =
      min ((new now key value f l c).lease now)
        (new now key value f l c).afterCreationExpiryTime := by
  by_cases h : 0 < c <;> simp [new, lease, h]

theorem refresh_expiryTime (now : τ) {item : CacheItem τ ν} {t : τ}
    (h : item.expiryTime = min (item.lease t) item.afterCreationExpiryTime) :
    (item.refresh now).expiryTime =
      min ((item.refresh now).lease now) (item.refresh now).afterCreationExpiryTime := by
  by_cases hr : item.refreshAfterAccess ≤ 0
  · rw [refresh, if_pos hr, h, lease, lease, if_neg (not_lt.mpr hr), if_neg (not_lt.mpr hr)]
  · rw [refresh, if_neg hr, lease, if_pos (not_le.mp hr)]

@[simp] theorem refresh_key (now : τ) (item : CacheItem τ ν) :
    (item.refresh now).key = item.key := by unfold refresh; split <;> rfl

@[simp] theorem refresh_callOnDelete (now : τ) (item : CacheItem τ ν) :
    (item.refresh now).callOnDelete = item.callOnDelete := by unfold refresh; split <;> rfl

@[simp] theorem refresh_refreshAfterAccess (now : τ) (item : CacheItem τ ν) :
    (item.refresh now).refreshAfterAccess = item.refreshAfterAccess := by
  unfold refresh; split <;> rfl

@[simp] theorem refresh_afterCreationExpiryTime (now : τ) (item : CacheItem τ ν) :
    (item.refresh now).afterCreationExpiryTime = item.afterCreationExpiryTime := by
  unfold refresh; split <;> rfl

@[simp] theorem refresh_calledFinalizer (now : τ) (item : CacheItem τ ν) :
    (item.refresh now).calledFinalizer = item.calledFinalizer := by
  unfold refresh; split <;> rfl

theorem le_lease [IsStrictOrderedRing τ] (item : CacheItem τ ν) (now : τ) :
    ↑now ≤ item.lease now := by
  rw [lease]
  split
  · next h => exact WithTop.coe_le_coe.mpr (le_add_of_nonneg_right h.le)
  · exact le_top

theorem le_new_expiryTime [IsStrictOrderedRing τ] (now : τ) (key : String) (value : Option ν)
    (f : Option Finalizer) (l c : τ) : ↑now ≤ (new now key value f l c).expiryTime := by
  rw [new_expiryTime]
  refine le_min (le_lease _ now) ?_
  show ↑now ≤ if 0 < c then (↑(now + c) : WithTop τ) else ⊤
  split
  · next h => exact WithTop.coe_le_coe.mpr (le_add_of_nonneg_right h.le)
  · exact le_top

end CacheItem

/-- The cache, with the item objects that were ever made; `finalized` records
the calls of finalizers, the last one first. -/
structure AgentCache (τ ν : Type) where
  items : ℕ → CacheItem τ ν
  next : ℕ
  cache : Dict String ℕ
  nextAction : Option (WithTop τ)
  timerQueue : List ℕ
  usedItemsToRefresh : List ℕ
  finalized : List ℕ

namespace AgentCache

def new : AgentCache τ ν where
  items := fun _ => CacheItem.new 0 "" none none 0 0
  next := 0
  cache := .empty
  nextAction := none
  timerQueue := []
  usedItemsToRefresh := []
  finalized := []

def expiry (c : AgentCache τ ν) (i : ℕ) : WithTop τ :=
  (c.items i).expiryTime

/-- `CacheItem.__lt__`. -/
def before (c : AgentCache τ ν) (i j : ℕ) : Bool :=
  decide (c.expiry i < c.expiry j)

/-- `CacheItem.delete`. -/
def delete (c : AgentCache τ ν) (i : ℕ) : AgentCache τ ν × Option Exn :=
  match (c.items i).callOnDelete with
  | none => (c, none)
  | some callOnDelete =>
      if (c.items i).calledFinalizer then (c, none)
      else ({ c with
        items := Function.update c.items i { c.items i with calledFinalizer := true }
        finalized := i :: c.finalized }, callOnDelete.raised)

def evictItem (c : AgentCache τ ν) (key : String) : AgentCache τ ν × Option Exn :=
  match c.cache.get? key with
  | none => (c, none)
  | some i =>
      match c.delete i with
      | (c, none) => ({ c with cache := c.cache.del key }, none)
      -- the handler of a missing key: the item stays in the dictionary
      | (c, some .keyError) => (c, none)
      | (c, some .other) => (c, some .other)

/-- One round of the loop of `clean_stale_entries`; `none`: the loop is done. -/
def cleanRound (now : τ) (c : AgentCache τ ν) : Option (AgentCache τ ν × Option Exn) :=
  if c.nextAction.any (· < (now : WithTop τ)) then
    (heappop c.before c.timerQueue).map fun (i, timerQueue) =>
      match { c with timerQueue }.evictItem (c.items i).key with
      | (c, none) => ({ c with nextAction := c.timerQueue.head?.map c.expiry }, none)
      | (c, some e) => (c, some e)
  else none

/-- The loop of `clean_stale_entries`; every round takes an item off the heap. -/
def cleanLoop (now : τ) : ℕ → AgentCache τ ν → AgentCache τ ν × Option Exn
  | 0, c => (c, none)
  | fuel + 1, c =>
      match c.cleanRound now with
      | none => (c, none)
      | some (c, none) => cleanLoop now fuel c
      | some (c, some e) => (c, some e)

/-- The caches that the loop pops the heap of. -/
def popStates (now : τ) : ℕ → AgentCache τ ν → List (AgentCache τ ν)
  | 0, _ => []
  | fuel + 1, c =>
      match c.cleanRound now with
      | none => []
      | some (c', none) => c :: popStates now fuel c'
      | some (_, some _) => [c]

def cleanStaleEntries (now : τ) (c : AgentCache τ ν) : AgentCache τ ν × Option Exn :=
  cleanLoop now c.timerQueue.length c

def touchUsedCacheItems (now : τ) (c : AgentCache τ ν) : AgentCache τ ν :=
  let c := { c with
    items := fun i =>
      if i ∈ c.usedItemsToRefresh then (c.items i).refresh now else c.items i
    usedItemsToRefresh := [] }
  if c.timerQueue = [] then c
  else
    let c := { c with timerQueue := heapify c.before c.timerQueue }
    { c with nextAction := c.timerQueue.head?.map c.expiry }

/-- The loop of `close`. -/
def evictAll : List String → AgentCache τ ν → AgentCache τ ν × Option Exn
  | [], c => (c, none)
  | key :: keys, c =>
      match c.evictItem key with
      | (c, none) => evictAll keys c
      | (c, some e) => (c, some e)

def close (c : AgentCache τ ν) : AgentCache τ ν × Option Exn :=
  match evictAll c.cache.keys { c with nextAction := none } with
  | (c, none) => ({ c with timerQueue := [] }, none)
  | (c, some e) => (c, some e)

/-- A new item object. -/
def create (c : AgentCache τ ν) (item : CacheItem τ ν) : AgentCache τ ν :=
  { c with items := Function.update c.items c.next item, next := c.next + 1 }

/-- `self.used_items_to_refresh.add(item)`, for an item that is refreshed. -/
def use (c : AgentCache τ ν) (i : ℕ) : AgentCache τ ν :=
  if (c.items i).refreshAfterAccess = 0 then c
  else { c with usedItemsToRefresh := c.usedItemsToRefresh.insert i }

/-- `_get`; `none` is the `KeyError`. -/
def get (c : AgentCache τ ν) (key : String) : Option (ℕ × AgentCache τ ν) :=
  (c.cache.get? key).map fun i => (i, c.use i)

/-- `_cache`, for a key that is not in the cache. -/
def insertItem (c : AgentCache τ ν) (i : ℕ) : AgentCache τ ν :=
  { c with
    cache := c.cache.set (c.items i).key i
    timerQueue := heappush c.before c.timerQueue i
    usedItemsToRefresh := (c.use i).usedItemsToRefresh
    nextAction :=
      if c.nextAction.all (c.expiry i < ·) then some (c.expiry i) else c.nextAction }

/-- `_cache`; `none`: the same item was added twice. -/
def add (c : AgentCache τ ν) (i : ℕ) : Option (AgentCache τ ν) :=
  if (c.items i).key ∈ c.cache then none else some (c.insertItem i)

def getKey (key : String) (resource : Option String) : String :=
  "__".intercalate (key :: resource.toList)

/-- The item that a call adds, if it adds one; the object is there also when the
call raises. -/
def cacheValue (now : τ) (key : String) (value : Option ν)
    (evictAfterLastAccess evictAfterCreation : τ) (resource : Option String)
    (callOnDelete : Option Finalizer) (c : AgentCache τ ν) : Option ℕ × AgentCache τ ν :=
  let c' := c.create (.new now (getKey key resource) value callOnDelete evictAfterLastAccess
    evictAfterCreation)
  match c'.add c.next with
  | some c'' => (some c.next, c'')
  | none => (none, c')

/-- The item whose value a call returns; `none` is the `KeyError`. -/
def find (key : String) (resource : Option String) (c : AgentCache τ ν) :
    Option (ℕ × AgentCache τ ν) :=
  c.get (getKey key resource)

/-- The arguments of `get_or_else`; `kwargs` are the arguments of the function
other than the resource, by name and `repr`. -/
structure GetOrElse (τ : Type) where
  key : String
  forVersion : Option Bool
  timeout : Option τ
  evictAfterLastAccess : τ
  evictAfterCreation : τ
  ignore : List String
  cacheNone : Bool
  callOnDelete : Option Finalizer
  resource : Option String
  kwargs : List (String × String)

namespace GetOrElse

/-- `_get_retention_policy`. -/
def retentionPolicy (g : GetOrElse τ) : τ × τ :=
  match g.forVersion with
  | some true => (if 0 < g.evictAfterLastAccess then g.evictAfterLastAccess else 60, 0)
  | some false =>
      (0, if 0 < g.evictAfterCreation then g.evictAfterCreation
        else match g.timeout with
          | some timeout => if 0 < timeout then timeout else 5000
          | none => 5000)
  | none =>
      if g.evictAfterCreation ≤ 0 ∧ g.evictAfterLastAccess ≤ 0 then
        match g.timeout with
        | some timeout => if 0 < timeout then (g.evictAfterLastAccess, timeout)
            else (60, g.evictAfterCreation)
        | none => (60, g.evictAfterCreation)
      else (g.evictAfterLastAccess, g.evictAfterCreation)

/-- The resource is part of the key unless it is ignored. -/
def keyResource (g : GetOrElse τ) : Option String :=
  if "resource" ∈ g.ignore then none else g.resource

def fullKey (g : GetOrElse τ) : String :=
  let others := (g.kwargs.filter (·.1 ∉ g.ignore)).mergeSort fun a b => decide (a.1 ≤ b.1)
  others.foldl (fun key other => other.1 ++ "," ++ other.2 ++ key) g.key

end GetOrElse

/-- A function that uses the cache itself is a `find` that raises, what the
function does and a `cache_value`. -/
def getOrElse (now : τ) (g : GetOrElse τ) (function : Option (Option ν)) (c : AgentCache τ ν) :
    Option ℕ × AgentCache τ ν :=
  match c.find g.fullKey g.keyResource with
  | some (i, c) => (some i, c)
  | none =>
      match function with
      | none => (none, c)
      | some value =>
          if g.cacheNone ∨ value.isSome then
            c.cacheValue now g.fullKey value g.retentionPolicy.1 g.retentionPolicy.2
              g.keyResource g.callOnDelete
          else (none, c)

end AgentCache

end Time

end Inmanta
