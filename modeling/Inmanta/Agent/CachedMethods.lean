import Inmanta.Agent.CacheSession

/-!
# Cached handler methods

A method decorated with `@cache` looks its value up in the cache of the agent,
under a text made of its name, the names and the `repr` of its arguments and the
id of its resource. All handlers of an agent share the cache.

The text has no trace of the class of the handler, and two values may be equal
with another `repr`, or have the same without being equal. `calls_right_iff` says
for a whole run when every call gets a value of its own method and arguments.
-/

namespace Inmanta

namespace CachedMethods

variable {κ α τ ν : Type}

/-- What the code reads of the values that are passed: the `repr`, the id of a
resource (`none` for the value `None`), and which values are equal. -/
structure PythonValues (α : Type) where
  repr : α → String
  resourceStr : α → Option String
  eq : α → α → Prop

/-- A decorated method; `parameters` are those after `self`. -/
structure Method (κ α τ : Type) where
  handlerClass : κ
  name : String
  parameters : List String
  defaults : Dict String α
  ignore : List String
  timeout : Option τ
  forVersion : Option Bool
  cacheNone : Bool
  callOnDelete : Option Finalizer
  evictAfterCreation : τ
  evictAfterLastAccess : τ

/-- A call of the wrapper. -/
structure Call (κ α τ : Type) where
  method : Method κ α τ
  args : List α
  kwds : Dict String α

/-- The parameters of `get_or_else` by name: an argument of the method cannot have
one of these names. -/
def reserved : List String :=
  ["self", "key", "function", "for_version", "timeout", "evict_after_last_access",
    "evict_after_creation", "ignore", "cache_none", "call_on_delete"]

namespace Call

/-- `kwds.update(dict(zip(myargs, args)))` -/
def kwargs (c : Call κ α τ) : Dict String α :=
  c.kwds.update (.ofList (c.method.parameters.zip c.args))

/-- What the method sees. -/
def arguments (c : Call κ α τ) : Dict String α :=
  c.method.defaults.update c.kwargs

/-- Otherwise the call is a `TypeError`: it has multiple values for an argument. -/
def Accepted (c : Call κ α τ) : Prop := ∀ k ∈ c.kwargs.keys, k ∉ reserved

instance (c : Call κ α τ) : Decidable c.Accepted :=
  inferInstanceAs (Decidable (∀ k ∈ c.kwargs.keys, k ∉ reserved))

def resource (V : PythonValues α) (c : Call κ α τ) : Option String :=
  (c.kwargs.get? "resource").bind V.resourceStr

def getOrElse (V : PythonValues α) (c : Call κ α τ) : AgentCache.GetOrElse τ where
  key := c.method.name
  forVersion := c.method.forVersion
  timeout := c.method.timeout
  evictAfterLastAccess := c.method.evictAfterLastAccess
  evictAfterCreation := c.method.evictAfterCreation
  ignore := c.method.ignore
  cacheNone := c.method.cacheNone
  callOnDelete := c.method.callOnDelete
  resource := c.resource V
  kwargs := (c.kwargs.items.filter (·.1 ≠ "resource")).map fun item => (item.1, V.repr item.2)

/-- The text that the value is stored under. -/
def cacheKey (V : PythonValues α) (c : Call κ α τ) : String :=
  AgentCache.getKey (c.getOrElse V).fullKey (c.getOrElse V).keyResource

/-- The same method is called with equal arguments. -/
structure Same (V : PythonValues α) (c' c : Call κ α τ) : Prop where
  method : c'.method = c.method
  arguments : ∀ k, k ∉ c.method.ignore → k ≠ "resource" →
    Option.Rel V.eq (c'.arguments.get? k) (c.arguments.get? k)
  resource : "resource" ∉ c.method.ignore →
    (c'.arguments.get? "resource").bind V.resourceStr =
      (c.arguments.get? "resource").bind V.resourceStr

end Call

/-! ## Runs -/

inductive Action (κ α τ ν : Type) where
  /-- `function` is what the method would return; it may raise instead. A method
  that calls another is a run of the other before it. -/
  | call (now : τ) (c : Call κ α τ) (function : Option (Option ν))
  | enter (now : τ)
  | exit (now : τ)
  | close
  | collect (i : ℕ)

/-- The cache of an agent, and the call that computed each of its items with what
that call computed. -/
structure State (κ α τ ν : Type) where
  session : CacheSession τ ν
  computedBy : ℕ → Option (Call κ α τ × Option ν)

section Step

variable [LinearOrder τ] [CommRing τ] (V : PythonValues α)

def init : State κ α τ ν where
  session := .init
  computedBy := fun _ => none

/-- The item that a call returns, if it returns one. -/
def answer (s : State κ α τ ν) (now : τ) (c : Call κ α τ) (function : Option (Option ν)) :
    Option ℕ × AgentCache τ ν :=
  if c.Accepted then s.session.cache.getOrElse now (c.getOrElse V) function
  else (none, s.session.cache)

/-- The items that are new were computed by the call. -/
def compute (s : State κ α τ ν) (c : Call κ α τ) :
    Option ℕ → Option (Option ν) → ℕ → Option (Call κ α τ × Option ν)
  | some i, some value =>
      if i < s.session.cache.next then s.computedBy
      else Function.update s.computedBy i (some (c, value))
  | _, _ => s.computedBy

def step (s : State κ α τ ν) : Action κ α τ ν → Option (State κ α τ ν)
  | .call now c function =>
      if now < s.session.clock then none
      else
        let r := answer V s now c function
        some ⟨s.session.record now r, compute s c r.1 function⟩
  | .enter now => (s.session.step (.enter now)).map fun session => { s with session }
  | .exit now => (s.session.step (.exit now)).map fun session => { s with session }
  | .close => (s.session.step .close).map fun session => { s with session }
  | .collect i => (s.session.step (.collect i)).map fun session => { s with session }

/-- A call is not refused, an item that it finds was computed by a call of the same
method with equal arguments, and such an item is what it returns. -/
def Right (s : State κ α τ ν) : Action κ α τ ν → Prop
  | .call now c function =>
      c.Accepted ∧
      (∀ i, (answer V s now c function).1 = some i → i < s.session.cache.next →
        ∃ c', s.computedBy i = some (c', (s.session.cache.items i).value) ∧ c'.Same V c) ∧
      ∀ key i c' value, s.session.cache.cache.get? key = some i →
        s.computedBy i = some (c', value) → c'.Same V c →
          (answer V s now c function).1 = some i
  | _ => True

/-- The texts of the call and of a call with a cached value are equal just when they
are the same call. -/
def Distinguished (s : State κ α τ ν) : Action κ α τ ν → Prop
  | .call _ c _ =>
      c.Accepted ∧ ∀ key i c' value, s.session.cache.cache.get? key = some i →
        s.computedBy i = some (c', value) → (c'.cacheKey V = c.cacheKey V ↔ c'.Same V c)
  | _ => True

end Step

/-! ## What the operations leave in the cache -/

section Shrinks

variable {c c' c'' : AgentCache τ ν}

/-- Nothing is added to the cache, and the values stay. -/
structure Shrinks (c c' : AgentCache τ ν) : Prop where
  cache : ∀ key i, c'.cache.get? key = some i → c.cache.get? key = some i
  next : c'.next = c.next
  value : ∀ i, (c'.items i).value = (c.items i).value

namespace Shrinks

theorem refl (c : AgentCache τ ν) : Shrinks c c :=
  ⟨fun _ _ h => h, rfl, fun _ => rfl⟩

theorem trans (h : Shrinks c c') (h' : Shrinks c' c'') : Shrinks c c'' :=
  ⟨fun key i hi => h.cache key i (h'.cache key i hi), h'.next.trans h.next,
    fun i => (h'.value i).trans (h.value i)⟩

theorem delete (c : AgentCache τ ν) (i : ℕ) : Shrinks c (c.delete i).1 := by
  rcases c.delete_cases i with h | ⟨-, h⟩
  · rw [h]
    exact refl c
  · rw [h]
    refine ⟨fun _ _ hj => hj, rfl, fun j => ?_⟩
    show (Function.update c.items i _ j).value = _
    by_cases hj : j = i
    · subst hj
      rw [Function.update_self]
    · rw [Function.update_of_ne hj]

theorem evictItem (c : AgentCache τ ν) (key : String) : Shrinks c (c.evictItem key).1 := by
  rw [AgentCache.evictItem]
  cases c.cache.get? key with
  | none => exact refl c
  | some i =>
      have hdelete := delete c i
      rcases hd : c.delete i with ⟨d, e⟩
      rw [hd] at hdelete
      simp only [hd]
      cases e with
      | none =>
          refine ⟨fun key' j hj => hdelete.cache key' j ?_, hdelete.next, hdelete.value⟩
          have hj : (d.cache.del key).get? key' = some j := hj
          rw [Dict.get?_del] at hj
          split at hj
          · cases hj
          · exact hj
      | some e => cases e <;> exact hdelete

theorem evictAll (keys : List String) : Shrinks c (c.evictAll keys).1 := by
  induction keys generalizing c with
  | nil => exact refl c
  | cons key keys ih =>
      rw [AgentCache.evictAll]
      have hevict := evictItem c key
      rcases he : c.evictItem key with ⟨d, e⟩
      rw [he] at hevict
      cases e with
      | none => exact hevict.trans ih
      | some e => exact hevict

theorem close : Shrinks c c.close.1 := by
  have hstart : Shrinks c { c with nextAction := none } := ⟨fun _ _ hj => hj, rfl, fun _ => rfl⟩
  have hall := hstart.trans (evictAll c.cache.keys)
  rw [AgentCache.close]
  rcases he : ({ c with nextAction := none } : AgentCache τ ν).evictAll c.cache.keys with ⟨d, e⟩
  rw [he] at hall
  cases e with
  | none => exact ⟨hall.cache, hall.next, hall.value⟩
  | some e => exact hall

variable [LinearOrder τ] {now : τ}

theorem cleanRound {r : AgentCache τ ν × Option Exn} (h : c.cleanRound now = some r) :
    Shrinks c r.1 := by
  rw [AgentCache.cleanRound] at h
  split at h
  · obtain ⟨⟨i, timerQueue⟩, -, hr⟩ := Option.map_eq_some_iff.mp h
    have hstart : Shrinks c { c with timerQueue } := ⟨fun _ _ hj => hj, rfl, fun _ => rfl⟩
    have hevict := hstart.trans (evictItem { c with timerQueue } (c.items i).key)
    rcases he : ({ c with timerQueue } : AgentCache τ ν).evictItem (c.items i).key with ⟨d, e⟩
    rw [he] at hevict
    simp only [he] at hr
    cases e with
    | none =>
        obtain rfl := hr
        exact ⟨hevict.cache, hevict.next, hevict.value⟩
    | some e =>
        obtain rfl := hr
        exact hevict
  · cases h

theorem cleanLoop (fuel : ℕ) : Shrinks c (c.cleanLoop now fuel).1 := by
  induction fuel generalizing c with
  | zero => exact refl c
  | succ fuel ih =>
      rw [AgentCache.cleanLoop]
      cases hround : c.cleanRound now with
      | none => exact refl c
      | some r =>
          rcases r with ⟨d, e⟩
          cases e with
          | none => exact (cleanRound hround).trans ih
          | some e => exact cleanRound hround

variable [CommRing τ]

theorem touch (now : τ) (c : AgentCache τ ν) : Shrinks c (c.touchUsedCacheItems now) := by
  have hvalue (i : ℕ) : ((c.touchUsedCacheItems now).items i).value = (c.items i).value := by
    rw [AgentCache.touchUsedCacheItems_items]
    split
    · rw [CacheItem.refresh]
      split <;> rfl
    · rfl
  obtain ⟨hnext, hcache, -, -⟩ := AgentCache.touchUsedCacheItems_frame now c
  exact ⟨fun key i hi => hcache ▸ hi, hnext, hvalue⟩

end Shrinks

end Shrinks

/-! ## What a call leaves in the cache -/

section Calls

variable {V : PythonValues α} {s : State κ α τ ν} {now : τ} {c : Call κ α τ}
  {function : Option (Option ν)}

/-- What a run keeps: an item is stored under the text of the call that computed it. -/
structure Keyed (V : PythonValues α) (s : State κ α τ ν) : Prop where
  known : ∀ key i, s.session.cache.cache.get? key = some i → i < s.session.cache.next
  computed : ∀ key i, s.session.cache.cache.get? key = some i →
    ∃ c, s.computedBy i = some (c, (s.session.cache.items i).value) ∧ c.cacheKey V = key

theorem Keyed.shrink (h : Keyed V s) {t : CacheSession τ ν} (ht : Shrinks s.session.cache t.cache) :
    Keyed V { s with session := t } where
  known := fun key i hi => by
    show i < t.cache.next
    rw [ht.next]
    exact h.known key i (ht.cache key i hi)
  computed := fun key i hi => by
    obtain ⟨c, hc, hkey⟩ := h.computed key i (ht.cache key i hi)
    refine ⟨c, ?_, hkey⟩
    show s.computedBy i = some (c, (t.cache.items i).value)
    rw [ht.value, hc]

theorem record_cache (t : CacheSession τ ν) (now : τ) (r : Option ℕ × AgentCache τ ν) :
    (t.record now r).cache = r.2 := by
  rcases r with ⟨_ | i, cache⟩
  · rfl
  · rw [CacheSession.record]
    split <;> rfl

/-- No item is added. -/
theorem Keyed.kept (h : Keyed V s) {i : Option ℕ} {cache : AgentCache τ ν}
    (hi : ∀ j, i = some j → j < s.session.cache.next)
    (hdict : cache.cache = s.session.cache.cache) (hnext : cache.next = s.session.cache.next)
    (hitems : cache.items = s.session.cache.items) : Keyed V (⟨s.session.record now (i, cache),
      compute s c i function⟩ : State κ α τ ν) := by
  have hcompute : compute s c i function = s.computedBy := by
    cases i with
    | none => rfl
    | some i =>
        cases function with
        | none => rfl
        | some value => exact if_pos (hi i rfl)
  have hdict' : (s.session.record now (i, cache)).cache.cache = s.session.cache.cache := by
    rw [record_cache, hdict]
  refine ⟨fun key j hj => ?_, fun key j hj => ?_⟩
  · show j < (s.session.record now (i, cache)).cache.next
    rw [record_cache, hnext]
    exact h.known key j (hdict' ▸ hj)
  · obtain ⟨c', hc', hkey⟩ := h.computed key j (hdict' ▸ hj)
    refine ⟨c', ?_, hkey⟩
    show compute s c i function j =
      some (c', ((s.session.record now (i, cache)).cache.items j).value)
    rw [hcompute, record_cache, hitems, hc']

variable [LinearOrder τ] [CommRing τ]

theorem Keyed.init : Keyed V (init : State κ α τ ν) where
  known := fun _ _ h => by cases h
  computed := fun _ _ h => by cases h

/-- An accepted call finds an item, adds one or leaves the cache as it is. -/
theorem cacheValue_of_add {key : String} {value : Option ν} {resource : Option String}
    {evictAfterLastAccess evictAfterCreation now : τ} {callOnDelete : Option Finalizer}
    {cache cache' : AgentCache τ ν}
    (h : (cache.create (.new now (AgentCache.getKey key resource) value callOnDelete
      evictAfterLastAccess evictAfterCreation)).add cache.next = some cache') :
    cache.cacheValue now key value evictAfterLastAccess evictAfterCreation resource callOnDelete
      = (some cache.next, cache') := by
  simp only [AgentCache.cacheValue, h]

theorem answer_cases (V : PythonValues α) (s : State κ α τ ν) (now : τ)
    (function : Option (Option ν)) (h : c.Accepted) :
    (∃ i, s.session.cache.cache.get? (c.cacheKey V) = some i ∧
      answer V s now c function = (some i, s.session.cache.use i)) ∨
    s.session.cache.cache.get? (c.cacheKey V) = none ∧
      ((answer V s now c function).1 = none ∧
          (answer V s now c function).2 = s.session.cache ∨
        ∃ item value, function = some value ∧ item.key = c.cacheKey V ∧ item.value = value ∧
          answer V s now c function = (some s.session.cache.next,
            (s.session.cache.create item).insertItem s.session.cache.next)) := by
  have hfind : s.session.cache.find (c.getOrElse V).fullKey (c.getOrElse V).keyResource
      = (s.session.cache.cache.get? (c.cacheKey V)).map fun i => (i, s.session.cache.use i) := rfl
  rw [answer, if_pos h]
  unfold AgentCache.getOrElse
  rw [hfind]
  cases hget : s.session.cache.cache.get? (c.cacheKey V) with
  | some i => exact Or.inl ⟨i, rfl, rfl⟩
  | none =>
      refine Or.inr ⟨rfl, ?_⟩
      cases function with
      | none => exact Or.inl ⟨rfl, rfl⟩
      | some value =>
          simp only [Option.map_none]
          split
          · let item := CacheItem.new now (c.cacheKey V) value c.method.callOnDelete
              (c.getOrElse V).retentionPolicy.1 (c.getOrElse V).retentionPolicy.2
            have hadd : (s.session.cache.create item).add s.session.cache.next
                = some ((s.session.cache.create item).insertItem s.session.cache.next) := by
              rw [AgentCache.add, AgentCache.create_items_next]
              exact if_neg (Dict.not_mem_iff.mpr hget)
            exact Or.inr ⟨item, value, rfl, rfl, rfl, cacheValue_of_add hadd⟩
          · exact Or.inl ⟨rfl, rfl⟩

/-- An item of the call is added, under its text. -/
theorem Keyed.inserted (h : Keyed V s) {item : CacheItem τ ν} {value : Option ν}
    (hkey : item.key = c.cacheKey V) (hvalue : item.value = value) :
    Keyed V (⟨s.session.record now (some s.session.cache.next,
        (s.session.cache.create item).insertItem s.session.cache.next),
      compute s c (some s.session.cache.next) (some value)⟩ : State κ α τ ν) := by
  have hself : (s.session.cache.create item).items s.session.cache.next = item :=
    AgentCache.create_items_next
  have hget : ∀ key j, ((s.session.cache.create item).insertItem
      s.session.cache.next).cache.get? key = some j →
      key = c.cacheKey V ∧ j = s.session.cache.next ∨ s.session.cache.cache.get? key = some j := by
    intro key j hj
    replace hj : ((s.session.cache.create item).cache.set
      ((s.session.cache.create item).items s.session.cache.next).key
      s.session.cache.next).get? key = some j := hj
    rw [hself, hkey, Dict.get?_set] at hj
    split at hj
    · next heq => exact Or.inl ⟨heq, (Option.some.inj hj).symm⟩
    · exact Or.inr hj
  have hcompute : compute s c (some s.session.cache.next) (some value)
      = Function.update s.computedBy s.session.cache.next (some (c, value)) :=
    if_neg (Nat.lt_irrefl _)
  refine ⟨fun key j hj => ?_, fun key j hj => ?_⟩
  · simp only [record_cache] at hj ⊢
    show j < s.session.cache.next + 1
    rcases hget key j hj with ⟨-, rfl⟩ | hold
    · exact Nat.lt_succ_self _
    · exact Nat.lt_succ_of_lt (h.known key j hold)
  · simp only [record_cache] at hj ⊢
    show ∃ c', compute s c (some s.session.cache.next) (some value) j
      = some (c', ((s.session.cache.create item).items j).value) ∧ c'.cacheKey V = key
    rw [hcompute]
    rcases hget key j hj with ⟨rfl, rfl⟩ | hold
    · refine ⟨c, ?_, rfl⟩
      rw [Function.update_self, hself, hvalue]
    · have hlt := h.known key j hold
      obtain ⟨c', hc', hkey'⟩ := h.computed key j hold
      refine ⟨c', ?_, hkey'⟩
      rw [Function.update_of_ne hlt.ne, AgentCache.create_items_of_lt hlt, hc']

theorem Keyed.call (h : Keyed V s) : Keyed V (⟨s.session.record now (answer V s now c function),
    compute s c (answer V s now c function).1 function⟩ : State κ α τ ν) := by
  by_cases hacc : c.Accepted
  · rcases answer_cases V s now function hacc with
      ⟨i, hget, hanswer⟩ | ⟨hget, ⟨hnone, hcache⟩ | ⟨item, value, rfl, hkey, hvalue, hanswer⟩⟩
    · have huse := AgentCache.use_eq s.session.cache i
      rw [hanswer]
      refine h.kept (fun j hj => ?_) ?_ ?_ ?_
      · obtain rfl := Option.some.inj hj
        exact h.known _ i hget
      all_goals rw [huse]
    · rw [show answer V s now c function = (none, s.session.cache) from Prod.ext hnone hcache]
      exact h.kept (fun j hj => by cases hj) rfl rfl rfl
    · rw [hanswer]
      exact h.inserted hkey hvalue
  · rw [show answer V s now c function = (none, s.session.cache) from if_neg hacc]
    exact h.kept (fun j hj => by cases hj) rfl rfl rfl

theorem Keyed.step (h : Keyed V s) {a : Action κ α τ ν} {s' : State κ α τ ν}
    (hs : step V s a = some s') : Keyed V s' := by
  cases a with
  | call now c function =>
      simp only [CachedMethods.step, Option.ite_none_left_eq_some, Option.some.injEq] at hs
      obtain ⟨-, rfl⟩ := hs
      exact h.call
  | enter now =>
      obtain ⟨t, ht, rfl⟩ := Option.map_eq_some_iff.mp hs
      refine h.shrink ?_
      have hclean : Shrinks s.session.cache (s.session.cache.cleanStaleEntries now).1 :=
        Shrinks.cleanLoop _
      simp only [CacheSession.step, Option.ite_none_left_eq_some] at ht
      obtain ⟨-, ht⟩ := ht
      rcases hc : s.session.cache.cleanStaleEntries now with ⟨cache, e⟩
      rw [hc] at hclean ht
      cases e <;> obtain rfl := Option.some.inj ht <;> exact hclean
  | exit now =>
      obtain ⟨t, ht, rfl⟩ := Option.map_eq_some_iff.mp hs
      simp only [CacheSession.step, Option.ite_none_left_eq_some, Option.some.injEq] at ht
      obtain ⟨-, rfl⟩ := ht
      exact h.shrink (Shrinks.touch now s.session.cache)
  | close =>
      obtain rfl := Option.some.inj hs
      exact @Keyed.shrink _ _ _ _ _ _ h { s.session with cache := s.session.cache.close.1 }
        Shrinks.close
  | collect i =>
      obtain ⟨t, ht, rfl⟩ := Option.map_eq_some_iff.mp hs
      simp only [CacheSession.step, Option.ite_none_right_eq_some, Option.some.injEq] at ht
      obtain ⟨-, rfl⟩ := ht
      exact h.shrink (Shrinks.delete s.session.cache i)

/-- An item that was in the cache is returned when its text is that of the call. -/
theorem answer_eq_iff (now : τ) (function : Option (Option ν)) (hacc : c.Accepted) {i : ℕ}
    (hi : i < s.session.cache.next) : (answer V s now c function).1 = some i ↔
      s.session.cache.cache.get? (c.cacheKey V) = some i := by
  rcases answer_cases V s now function hacc with
    ⟨j, hget, hanswer⟩ | ⟨hget, ⟨hnone, -⟩ | ⟨item, value, -, -, -, hanswer⟩⟩
  · rw [hanswer, hget]
  · rw [hnone, hget]
  · rw [hanswer, hget]
    refine iff_of_false (fun heq => ?_) (fun heq => by cases heq)
    exact hi.ne (Option.some.inj heq).symm

theorem right_iff {s : State κ α τ ν} (h : Keyed V s) (a : Action κ α τ ν) :
    Right V s a ↔ Distinguished V s a := by
  cases a with
  | call now c function =>
      refine and_congr_right fun hacc => ?_
      constructor
      · rintro ⟨hvalue, hshare⟩ key i c' value hget hc'
        have hi := h.known key i hget
        obtain ⟨c₁, hc₁, hkey⟩ := h.computed key i hget
        obtain rfl : c₁ = c' := by
          rw [hc₁] at hc'
          exact (Prod.mk.inj (Option.some.inj hc')).1
        constructor
        · intro heq
          have hanswer := (answer_eq_iff now function hacc hi).mpr
            (heq ▸ hkey ▸ hget)
          obtain ⟨c₂, hc₂, hsame⟩ := hvalue i hanswer hi
          rw [hc₁] at hc₂
          rwa [(Prod.mk.inj (Option.some.inj hc₂)).1]
        · intro hsame
          have hget' := (answer_eq_iff now function hacc hi).mp
            (hshare key i c₁ value hget hc' hsame)
          obtain ⟨c₂, hc₂, hkey₂⟩ := h.computed _ i hget'
          rw [hc₁] at hc₂
          rw [(Prod.mk.inj (Option.some.inj hc₂)).1, hkey₂]
      · intro hdist
        refine ⟨fun i hanswer hi => ?_, fun key i c' value hget hc' hsame => ?_⟩
        · have hget := (answer_eq_iff now function hacc hi).mp hanswer
          obtain ⟨c', hc', hkey⟩ := h.computed _ i hget
          exact ⟨c', hc', (hdist _ i c' _ hget hc').mp hkey⟩
        · obtain ⟨c₁, hc₁, hkey⟩ := h.computed key i hget
          obtain rfl : c₁ = c' := by
            rw [hc₁] at hc'
            exact (Prod.mk.inj (Option.some.inj hc')).1
          refine (answer_eq_iff now function hacc (h.known key i hget)).mpr ?_
          rw [← (hdist key i c₁ value hget hc').mpr hsame, hkey, hget]
  | enter now => exact Iff.rfl
  | exit now => exact Iff.rfl
  | close => exact Iff.rfl
  | collect i => exact Iff.rfl

end Calls

variable [LinearOrder τ] [CommRing τ]

/-- Values that are texts. -/
def texts : PythonValues String where
  repr := id
  resourceStr := some
  eq := (· = ·)

/-- A method without arguments of a handler class. -/
def getClient (handlerClass : String) : Call String String ℤ where
  method :=
    { handlerClass, name := "get_client", parameters := [], defaults := .empty, ignore := []
      timeout := none, forVersion := none, cacheNone := true, callOnDelete := none
      evictAfterCreation := 0, evictAfterLastAccess := 0 }
  args := []
  kwds := .empty

end CachedMethods

end Inmanta
