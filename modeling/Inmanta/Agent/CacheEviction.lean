import Inmanta.Agent.Cache

/-!
# Operations of the cache

What each operation keeps of a cache whose heap holds the items of its
dictionary: `Indexed` is about the dictionary and the finalizers, `Linked`
about the heap. An eviction is described by what is gone (`Evicts`), so
that the rounds of a loop compose.
-/

namespace Inmanta

variable {τ ν : Type}

/-- The item, as if its finalizer was not called. -/
def CacheItem.uncalled (item : CacheItem τ ν) : CacheItem τ ν :=
  { item with calledFinalizer := false }

namespace AgentCache

variable {c c' c'' : AgentCache τ ν} {now : τ} {key : String} {i : ℕ}

/-! ## Evictions -/

/-- The finalizer of the item does not raise, if there is one. -/
def Quiet (c : AgentCache τ ν) (i : ℕ) : Prop :=
  (c.items i).callOnDelete.bind Finalizer.raised = none

instance (c : AgentCache τ ν) : DecidablePred c.Quiet :=
  fun _ => inferInstanceAs (Decidable (_ = _))

/-- What the dictionary and the finalizers keep. -/
structure Indexed (c : AgentCache τ ν) : Prop where
  key_item : ∀ key i, c.cache.get? key = some i → (c.items i).key = key
  known : ∀ key i, c.cache.get? key = some i → i < c.next
  uncalled : ∀ key i, c.cache.get? key = some i → (c.items i).calledFinalizer = false
  called : ∀ i, (c.items i).calledFinalizer = true ↔ i ∈ c.finalized
  once : c.finalized.Nodup
  finalized_lt : ∀ i ∈ c.finalized, i < c.next
  used_lt : ∀ i ∈ c.usedItemsToRefresh, i < c.next

/-- The same items, but for which of them are finalized. -/
structure SameItems (c c' : AgentCache τ ν) : Prop where
  items : ∀ i, (c'.items i).uncalled = (c.items i).uncalled
  next : c'.next = c.next
  used : c'.usedItemsToRefresh = c.usedItemsToRefresh

/-- `c'` is `c` without the items in `out`, which were finalized. -/
structure Evicts (c c' : AgentCache τ ν) (out : ℕ → Prop) : Prop extends SameItems c c' where
  cache : ∀ key i, c'.cache.get? key = some i ↔ c.cache.get? key = some i ∧ ¬ out i
  finalized : ∀ i, i ∈ c'.finalized ↔
    i ∈ c.finalized ∨ out i ∧ (∃ key, c.cache.get? key = some i) ∧
      (c.items i).callOnDelete ≠ none

namespace SameItems

theorem item_key (h : SameItems c c') (i : ℕ) : (c'.items i).key = (c.items i).key := by
  show (c'.items i).uncalled.key = (c.items i).uncalled.key
  rw [h.items]

theorem expiry (h : SameItems c c') (i : ℕ) : c'.expiry i = c.expiry i := by
  show (c'.items i).uncalled.expiryTime = (c.items i).uncalled.expiryTime
  rw [h.items]

theorem callOnDelete (h : SameItems c c') (i : ℕ) :
    (c'.items i).callOnDelete = (c.items i).callOnDelete := by
  show (c'.items i).uncalled.callOnDelete = (c.items i).uncalled.callOnDelete
  rw [h.items]

theorem quiet_iff (h : SameItems c c') (i : ℕ) : c'.Quiet i ↔ c.Quiet i := by
  rw [Quiet, Quiet, h.callOnDelete]

end SameItems

namespace Evicts

variable {out out' : ℕ → Prop}

theorem refl (h : ∀ key i, c.cache.get? key = some i → ¬ out i) : Evicts c c out where
  items := fun _ => rfl
  next := rfl
  used := rfl
  cache := fun key i => ⟨fun hi => ⟨hi, h key i hi⟩, And.left⟩
  finalized := fun i => ⟨.inl, fun hi => hi.elim id fun ⟨hout, ⟨key, hkey⟩, _⟩ =>
    absurd hout (h key i hkey)⟩

theorem trans (h : Evicts c c' out) (h' : Evicts c' c'' out') :
    Evicts c c'' fun i => out i ∨ out' i where
  items := fun i => (h'.items i).trans (h.items i)
  next := h'.next.trans h.next
  used := h'.used.trans h.used
  cache := fun key i => by rw [h'.cache, h.cache]; tauto
  finalized := fun i => by
    have hex : (∃ key, c'.cache.get? key = some i) ↔
        (∃ key, c.cache.get? key = some i) ∧ ¬ out i := by
      simp only [h.cache, exists_and_right]
    rw [h'.finalized, h.finalized, hex, h.callOnDelete]
    tauto

theorem congr (h : Evicts c c' out)
    (ho : ∀ key i, c.cache.get? key = some i → (out i ↔ out' i)) : Evicts c c' out' where
  items := h.items
  next := h.next
  used := h.used
  cache := fun key i => by
    rw [h.cache]
    exact and_congr_right fun hi => not_congr (ho key i hi)
  finalized := fun i => by
    rw [h.finalized]
    refine or_congr_right ⟨?_, ?_⟩
    · rintro ⟨hout, ⟨key, hkey⟩, hf⟩
      exact ⟨(ho key i hkey).mp hout, ⟨key, hkey⟩, hf⟩
    · rintro ⟨hout, ⟨key, hkey⟩, hf⟩
      exact ⟨(ho key i hkey).mpr hout, ⟨key, hkey⟩, hf⟩

/-- The dictionary and the finalizers, after an eviction. -/
theorem indexed (h : Evicts c c' out) (hc : c.Indexed)
    (hcalled : ∀ i, (c'.items i).calledFinalizer = true ↔ i ∈ c'.finalized)
    (honce : c'.finalized.Nodup) : c'.Indexed where
  key_item := fun key i hi => by
    rw [h.item_key]
    exact hc.key_item key i ((h.cache key i).mp hi).1
  known := fun key i hi => by
    rw [h.next]
    exact hc.known key i ((h.cache key i).mp hi).1
  uncalled := fun key i hi => by
    obtain ⟨hi, hout⟩ := (h.cache key i).mp hi
    rw [Bool.eq_false_iff, Ne, hcalled, h.finalized, ← hc.called, hc.uncalled key i hi]
    simp [hout]
  called := hcalled
  once := honce
  finalized_lt := fun i hi => by
    rw [h.next]
    obtain hi | ⟨_, ⟨key, hkey⟩, _⟩ := (h.finalized i).mp hi
    · exact hc.finalized_lt i hi
    · exact hc.known key i hkey
  used_lt := fun i hi => by
    rw [h.next]
    rw [h.used] at hi
    exact hc.used_lt i hi

end Evicts

theorem Indexed.get?_inj (hc : c.Indexed) {key' : String} (h : c.cache.get? key = some i)
    (h' : c.cache.get? key' = some i) : key = key' :=
  (hc.key_item key i h).symm.trans (hc.key_item key' i h')

/-- What `delete` does: nothing, or it calls the finalizer. -/
theorem delete_cases (c : AgentCache τ ν) (i : ℕ) :
    (c.delete i).1 = c ∨ (c.items i).calledFinalizer = false ∧ (c.delete i).1 = { c with
      items := Function.update c.items i { c.items i with calledFinalizer := true }
      finalized := i :: c.finalized } := by
  unfold delete
  split
  · exact .inl rfl
  · split
    · exact .inl rfl
    · next h => exact .inr ⟨Bool.eq_false_iff.mpr h, rfl⟩

theorem delete_frame (c : AgentCache τ ν) (i : ℕ) : (c.delete i).1.cache = c.cache ∧
    c.finalized ⊆ (c.delete i).1.finalized := by
  obtain h | ⟨_, h⟩ := delete_cases c i
  · rw [h]
    exact ⟨rfl, List.Subset.refl _⟩
  · rw [h]
    exact ⟨rfl, List.subset_cons_self _ _⟩

theorem delete_sameItems (c : AgentCache τ ν) (i : ℕ) : SameItems c (c.delete i).1 := by
  obtain h | ⟨_, h⟩ := delete_cases c i
  · rw [h]
    exact ⟨fun _ => rfl, rfl, rfl⟩
  · rw [h]
    refine ⟨fun j => ?_, rfl, rfl⟩
    by_cases hj : j = i
    · subst hj
      simp [CacheItem.uncalled]
    · simp [hj]

/-- The finalizer of an item that is not in the cache. -/
theorem delete_indexed (hc : c.Indexed) (hi : i < c.next)
    (hgone : ∀ key, c.cache.get? key ≠ some i) : (c.delete i).1.Indexed := by
  obtain h | ⟨hcalled, h⟩ := delete_cases c i
  · rw [h]
    exact hc
  · have hfresh : i ∉ c.finalized := by
      rw [← hc.called, hcalled]
      decide
    rw [h]
    refine ⟨fun key j hj => ?_, hc.known, fun key j hj => ?_, fun j => ?_,
      List.nodup_cons.mpr ⟨hfresh, hc.once⟩, fun j hj => ?_, hc.used_lt⟩
    · have hne : j ≠ i := fun hji => hgone key (hji ▸ hj)
      simp only [Function.update_of_ne hne]
      exact hc.key_item key j hj
    · have hne : j ≠ i := fun hji => hgone key (hji ▸ hj)
      simp only [Function.update_of_ne hne]
      exact hc.uncalled key j hj
    · by_cases hj : j = i
      · subst hj
        simp
      · simp [hj, hc.called]
    · obtain rfl | hj := List.mem_cons.mp hj
      · exact hi
      · exact hc.finalized_lt j hj

/-- An item whose finalizer does not raise is evicted. -/
theorem evictItem_quiet (hc : c.Indexed) (hget : c.cache.get? key = some i) (hq : c.Quiet i) :
    ∃ c', c.evictItem key = (c', none) ∧ c'.Indexed ∧ Evicts c c' (· = i) ∧
      c'.timerQueue = c.timerQueue ∧ c'.nextAction = c.nextAction := by
  have hdel : ∀ key' j, (c.cache.del key).get? key' = some j ↔
      c.cache.get? key' = some j ∧ ¬ j = i := fun key' j => by
    rw [Dict.get?_del]
    split
    · next heq =>
      subst heq
      simp [hget, eq_comm]
    · next hne =>
      refine ⟨fun hj => ⟨hj, ?_⟩, And.left⟩
      rintro rfl
      exact hne (hc.get?_inj hj hget)
  have huncalled := hc.uncalled key i hget
  rw [Quiet] at hq
  cases hf : (c.items i).callOnDelete with
  | none =>
      have hev : Evicts c { c with cache := c.cache.del key } (· = i) := {
        items := fun _ => rfl
        next := rfl
        used := rfl
        cache := hdel
        finalized := fun j => by
          refine ⟨.inl, ?_⟩
          rintro (hj | ⟨rfl, -, hne⟩)
          · exact hj
          · exact absurd hf hne }
      refine ⟨_, ?_, hev.indexed hc hc.called hc.once, hev, rfl, rfl⟩
      simp only [evictItem, hget, delete, hf]
  | some f =>
      rw [hf, Option.bind_some] at hq
      have hev : Evicts c { c with
          items := Function.update c.items i { c.items i with calledFinalizer := true }
          finalized := i :: c.finalized
          cache := c.cache.del key } (· = i) := {
        items := fun j => by
          by_cases hj : j = i
          · subst hj
            simp [CacheItem.uncalled]
          · simp [hj]
        next := rfl
        used := rfl
        cache := hdel
        finalized := fun j => by
          rw [List.mem_cons, or_comm]
          refine or_congr_right ⟨?_, And.left⟩
          rintro rfl
          exact ⟨rfl, ⟨key, hget⟩, by rw [hf]; simp⟩ }
      have hfresh : i ∉ c.finalized := by
        rw [← hc.called, huncalled]
        decide
      refine ⟨_, ?_, hev.indexed hc (fun j => ?_) (List.nodup_cons.mpr ⟨hfresh, hc.once⟩), hev,
        rfl, rfl⟩
      · simp only [evictItem, hget, delete, hf, huncalled, hq, Bool.false_eq_true, if_false]
      · by_cases hj : j = i
        · subst hj
          simp
        · simp [hj, hc.called]

theorem evictItem_missing (h : c.cache.get? key = none) : c.evictItem key = (c, none) := by
  rw [evictItem, h]

/-- The loop of `close` evicts what it goes through. -/
theorem evictAll_quiet (keys : List String) (hc : c.Indexed)
    (hq : ∀ key i, c.cache.get? key = some i → c.Quiet i) :
    ∃ c', evictAll keys c = (c', none) ∧ c'.Indexed ∧ c'.nextAction = c.nextAction ∧
      Evicts c c' fun i => (c.items i).key ∈ keys := by
  induction keys generalizing c with
  | nil => exact ⟨c, rfl, hc, rfl, .refl fun _ _ _ h => absurd h List.not_mem_nil⟩
  | cons key keys ih =>
      cases hget : c.cache.get? key with
      | none =>
          obtain ⟨c', hrun, hc', hnext, hev⟩ := ih hc hq
          refine ⟨c', ?_, hc', hnext, hev.congr fun key' i hi => ?_⟩
          · rw [evictAll, evictItem_missing hget]
            exact hrun
          · rw [hc.key_item key' i hi, List.mem_cons, or_iff_right]
            rintro rfl
            rw [hget] at hi
            cases hi
      | some i =>
          obtain ⟨c₁, hrun₁, hc₁, hev₁, _, hnext₁⟩ := evictItem_quiet hc hget (hq key i hget)
          obtain ⟨c', hrun, hc', hnext, hev⟩ := ih hc₁ fun key' j hj =>
            (hev₁.quiet_iff j).mpr (hq key' j ((hev₁.cache key' j).mp hj).1)
          refine ⟨c', ?_, hc', hnext.trans hnext₁, (hev₁.trans hev).congr fun key' j hj => ?_⟩
          · rw [evictAll, hrun₁]
            exact hrun
          · rw [hev₁.item_key, List.mem_cons, hc.key_item key' j hj]
            refine or_congr_left ⟨?_, ?_⟩
            · rintro rfl
              exact hc.get?_inj hj hget
            · rintro rfl
              exact Option.some.inj (hj.symm.trans hget)

theorem create_items_of_lt {item : CacheItem τ ν} (h : i < c.next) :
    (c.create item).items i = c.items i := by
  unfold create
  exact Function.update_of_ne h.ne item c.items

@[simp] theorem create_items_next {item : CacheItem τ ν} :
    (c.create item).items c.next = item := by
  unfold create
  exact Function.update_self c.next item c.items

theorem create_indexed (hc : c.Indexed) {item : CacheItem τ ν}
    (hitem : item.calledFinalizer = false) : (c.create item).Indexed where
  key_item := fun key i hi => by
    rw [create_items_of_lt (hc.known key i hi)]
    exact hc.key_item key i hi
  known := fun key i hi => Nat.lt_succ_of_lt (hc.known key i hi)
  uncalled := fun key i hi => by
    rw [create_items_of_lt (hc.known key i hi)]
    exact hc.uncalled key i hi
  called := fun i => by
    show ((c.create item).items i).calledFinalizer = true ↔ i ∈ c.finalized
    by_cases hi : i = c.next
    · subst hi
      rw [create_items_next, hitem]
      exact iff_of_false (by decide) fun h => Nat.lt_irrefl _ (hc.finalized_lt _ h)
    · unfold create
      show (Function.update c.items c.next item i).calledFinalizer = true ↔ _
      rw [Function.update_of_ne hi]
      exact hc.called i
  once := hc.once
  finalized_lt := fun i hi => Nat.lt_succ_of_lt (hc.finalized_lt i hi)
  used_lt := fun i hi => Nat.lt_succ_of_lt (hc.used_lt i hi)

/-! ## The heap -/

variable [LinearOrder τ]

/-- The heap holds the items of the dictionary, in order. -/
structure Linked (c : AgentCache τ ν) : Prop where
  nodup : c.timerQueue.Nodup
  same : ∀ i, i ∈ c.timerQueue ↔ ∃ key, c.cache.get? key = some i
  ordered : Ordered c.before c.timerQueue
  next_action : c.nextAction = c.timerQueue.head?.map c.expiry

theorem SameItems.before (h : SameItems c c') : c'.before = c.before := by
  funext i j
  rw [AgentCache.before, AgentCache.before, h.expiry, h.expiry]

theorem SameItems.linked (h : SameItems c c') (hl : c.Linked) (hcache : c'.cache = c.cache)
    (hqueue : c'.timerQueue = c.timerQueue) (hnext : c'.nextAction = c.nextAction) :
    c'.Linked := by
  have hexp : c'.expiry = c.expiry := funext h.expiry
  refine ⟨by rw [hqueue]; exact hl.nodup, fun i => by rw [hqueue, hcache]; exact hl.same i, ?_, ?_⟩
  · rw [h.before, hqueue]
    exact hl.ordered
  · rw [hnext, hqueue, hexp]
    exact hl.next_action

theorem delete_linked (hl : c.Linked) : (c.delete i).1.Linked := by
  obtain h | ⟨_, h⟩ := delete_cases c i
  · rw [h]
    exact hl
  · exact (delete_sameItems c i).linked hl (by rw [h]) (by rw [h]) (by rw [h])

theorem before_weakOrder (c : AgentCache τ ν) : WeakOrder c.before fun _ => True where
  asymm := fun _ _ _ _ h => decide_eq_false (not_lt.mpr (of_decide_eq_true h).le)
  trans := fun _ _ _ _ _ _ hab hbd => decide_eq_false <| not_lt.mpr <|
    (not_lt.mp (of_decide_eq_false hab)).trans (not_lt.mp (of_decide_eq_false hbd))

theorem Linked.head_le (hl : c.Linked) {i j : ℕ} {rest : List ℕ} (hq : c.timerQueue = i :: rest)
    (hj : j ∈ c.timerQueue) : c.expiry i ≤ c.expiry j := by
  obtain ⟨n, hn⟩ := List.mem_iff_getElem?.mp hj
  have hroot : c.timerQueue[0]? = some i := by rw [hq]; rfl
  have h := hl.ordered.root_le c.before_weakOrder (fun _ _ => trivial) hroot n j hn
  exact not_lt.mp (of_decide_eq_false h)

/-- What is popped is evicted as well: the heap and the dictionary agree again. -/
theorem popped_evicted (hc : c.Indexed) (hl : c.Linked) {timerQueue : List ℕ}
    (hpop : heappop c.before c.timerQueue = some (i, timerQueue)) (hq : c.Quiet i) :
    ∃ c', { c with timerQueue }.evictItem (c.items i).key = (c', none) ∧
      { c' with nextAction := c'.timerQueue.head?.map c'.expiry }.Indexed ∧
      { c' with nextAction := c'.timerQueue.head?.map c'.expiry }.Linked ∧
      c'.timerQueue = timerQueue ∧
      Evicts c { c' with nextAction := c'.timerQueue.head?.map c'.expiry } (· = i) := by
  have hperm := heappop_perm hpop
  have hnodup := hperm.nodup_iff.mpr hl.nodup
  obtain ⟨key, hkey⟩ := (hl.same i).mp (hperm.mem_iff.mp List.mem_cons_self)
  have hc₀ : { c with timerQueue }.Indexed :=
    ⟨hc.key_item, hc.known, hc.uncalled, hc.called, hc.once, hc.finalized_lt, hc.used_lt⟩
  obtain ⟨c', hrun, hc', hev₀, hqueue, _⟩ := evictItem_quiet hc₀ hkey hq
  have hev : Evicts c { c' with nextAction := c'.timerQueue.head?.map c'.expiry } (· = i) :=
    ⟨⟨hev₀.items, hev₀.next, hev₀.used⟩, hev₀.cache, hev₀.finalized⟩
  refine ⟨c', by rw [hc.key_item key i hkey]; exact hrun,
    ⟨hc'.key_item, hc'.known, hc'.uncalled, hc'.called, hc'.once, hc'.finalized_lt, hc'.used_lt⟩,
    ⟨?_, fun j => ?_, ?_, rfl⟩, hqueue, hev⟩
  · rw [hqueue]
    exact hnodup.of_cons
  · have hne : j ∈ timerQueue → ¬ j = i := by
      rintro hj rfl
      exact (List.nodup_cons.mp hnodup).1 hj
    simp only [hqueue, hev.cache, exists_and_right, ← hl.same, ← hperm.mem_iff, List.mem_cons]
    tauto
  · rw [hev.before]
    show Ordered c.before c'.timerQueue
    rw [hqueue]
    exact heappop_ordered c.before_weakOrder (fun _ _ => trivial) hl.ordered hpop

/-- What a round of `clean_stale_entries` does. -/
theorem cleanRound_quiet (hc : c.Indexed) (hl : c.Linked)
    (hq : ∀ key i, c.cache.get? key = some i → c.expiry i < now → c.Quiet i) :
    (c.cleanRound now = none ∧ ∀ i ∈ c.timerQueue, ↑now ≤ c.expiry i) ∨
      ∃ c' i, c.cleanRound now = some (c', none) ∧ c'.Indexed ∧ c'.Linked ∧
        c'.timerQueue.length < c.timerQueue.length ∧ c.expiry i < now ∧ Evicts c c' (· = i) := by
  by_cases hnow : c.nextAction.any (· < (now : WithTop τ)) = true
  · right
    have hne : c.timerQueue ≠ [] := fun hnil => by
      rw [hl.next_action, hnil] at hnow
      cases hnow
    obtain ⟨i, timerQueue, hpop⟩ : ∃ i rest, heappop c.before c.timerQueue = some (i, rest) :=
      exists_heappop hne
    have hperm := heappop_perm hpop
    have hi : c.expiry i < now := by
      rw [hl.next_action, List.head?_eq_getElem?, heappop_root hpop] at hnow
      exact of_decide_eq_true hnow
    obtain ⟨key, hkey⟩ := (hl.same i).mp (hperm.mem_iff.mp List.mem_cons_self)
    obtain ⟨c', hrun, hc', hl', hqueue, hev⟩ := popped_evicted hc hl hpop (hq key i hkey hi)
    refine ⟨_, i, ?_, hc', hl', ?_, hi, hev⟩
    · rw [cleanRound, if_pos hnow, hpop, Option.map_some]
      simp only [hrun]
    · rw [hqueue, ← hperm.length_eq]
      exact Nat.lt_succ_self _
  · left
    refine ⟨by rw [cleanRound, if_neg hnow], fun i hi => ?_⟩
    cases hheap : c.timerQueue with
    | nil => rw [hheap] at hi; exact absurd hi List.not_mem_nil
    | cons root rest =>
        rw [hl.next_action, hheap] at hnow
        have hroot : ↑now ≤ c.expiry root := not_lt.mp fun h => hnow (decide_eq_true h)
        exact hroot.trans (hl.head_le hheap hi)

/-- The loop of `clean_stale_entries` evicts the items that are expired and no
others, and the heap is in order at every pop. -/
theorem cleanLoop_quiet {fuel : ℕ} (hfuel : c.timerQueue.length ≤ fuel) (hc : c.Indexed)
    (hl : c.Linked) (hq : ∀ key i, c.cache.get? key = some i → c.expiry i < now → c.Quiet i) :
    ∃ c', cleanLoop now fuel c = (c', none) ∧ c'.Indexed ∧ c'.Linked ∧
      (Evicts c c' fun i => c.expiry i < now) ∧
      ∀ p ∈ popStates now fuel c, Ordered p.before p.timerQueue := by
  have hdone : (∀ i ∈ c.timerQueue, ↑now ≤ c.expiry i) →
      Evicts c c fun i => c.expiry i < now := fun h =>
    .refl fun key i hi => not_lt.mpr (h i ((hl.same i).mpr ⟨key, hi⟩))
  induction fuel generalizing c with
  | zero =>
      have hnil : c.timerQueue = [] := List.length_eq_zero_iff.mp (Nat.le_zero.mp hfuel)
      refine ⟨c, rfl, hc, hl, hdone fun i hi => ?_, fun p hp => absurd hp List.not_mem_nil⟩
      rw [hnil] at hi
      exact absurd hi List.not_mem_nil
  | succ fuel ih =>
      obtain ⟨hround, hle⟩ | ⟨c₁, i, hround, hc₁, hl₁, hlen, hi, hev₁⟩ := cleanRound_quiet hc hl hq
      · refine ⟨c, by rw [cleanLoop, hround], hc, hl, hdone hle, fun p hp => ?_⟩
        rw [popStates, hround] at hp
        exact absurd hp List.not_mem_nil
      · obtain ⟨c', hrun, hc', hl', hev, hpops⟩ := ih (by omega) hc₁ hl₁
          (fun key j hj hlt => by
            rw [hev₁.expiry] at hlt
            exact (hev₁.quiet_iff j).mpr (hq key j ((hev₁.cache key j).mp hj).1 hlt))
          fun h => .refl fun key j hj => not_lt.mpr (h j ((hl₁.same j).mpr ⟨key, hj⟩))
        refine ⟨c', ?_, hc', hl', (hev₁.trans hev).congr fun key j _ => ?_, fun p hp => ?_⟩
        · rw [cleanLoop, hround]
          exact hrun
        · rw [hev₁.expiry]
          refine or_iff_right_of_imp ?_
          rintro rfl
          exact hi
        · rw [popStates, hround] at hp
          obtain rfl | hp := List.mem_cons.mp hp
          · exact hl.ordered
          · exact hpops p hp

theorem cleanStaleEntries_quiet (hc : c.Indexed) (hl : c.Linked)
    (hq : ∀ key i, c.cache.get? key = some i → c.expiry i < now → c.Quiet i) :
    ∃ c', c.cleanStaleEntries now = (c', none) ∧ c'.Indexed ∧ c'.Linked ∧
      (Evicts c c' fun i => c.expiry i < now) ∧
      ∀ p ∈ popStates now c.timerQueue.length c, Ordered p.before p.timerQueue :=
  cleanLoop_quiet (Nat.le_refl _) hc hl hq

theorem close_quiet (hc : c.Indexed) (hq : ∀ key i, c.cache.get? key = some i → c.Quiet i) :
    ∃ c', c.close = (c', none) ∧ c'.Indexed ∧ c'.Linked ∧ Evicts c c' fun _ => True := by
  have hc₀ : { c with nextAction := none }.Indexed :=
    ⟨hc.key_item, hc.known, hc.uncalled, hc.called, hc.once, hc.finalized_lt, hc.used_lt⟩
  obtain ⟨c', hrun, hc', hnext, hev₀⟩ := evictAll_quiet c.cache.keys hc₀ hq
  have hev : Evicts c { c' with timerQueue := [] } fun _ => True :=
    Evicts.congr ⟨⟨hev₀.items, hev₀.next, hev₀.used⟩, hev₀.cache, hev₀.finalized⟩ fun key i hi => by
      show (c.items i).key ∈ c.cache.keys ↔ True
      rw [hc.key_item key i hi, Dict.mem_keys]
      exact iff_true_intro (Dict.mem_of_get? hi)
  refine ⟨{ c' with timerQueue := [] }, ?_,
    ⟨hc'.key_item, hc'.known, hc'.uncalled, hc'.called, hc'.once, hc'.finalized_lt, hc'.used_lt⟩,
    ⟨List.nodup_nil, fun i => ?_, fun _ _ _ _ h => ?_, hnext⟩, hev⟩
  · rw [close, hrun]
  · refine iff_of_false List.not_mem_nil ?_
    rintro ⟨key, hkey⟩
    exact ((hev.cache key i).mp hkey).2 trivial
  · cases h

/-! ## Additions -/

theorem create_linked (hc : c.Indexed) (hl : c.Linked) {item : CacheItem τ ν} :
    (c.create item).Linked := by
  have hlt : ∀ i ∈ c.timerQueue, i < c.next := fun i hi => by
    obtain ⟨key, hkey⟩ := (hl.same i).mp hi
    exact hc.known key i hkey
  have hexp : ∀ i ∈ c.timerQueue, (c.create item).expiry i = c.expiry i := fun i hi => by
    rw [expiry, create_items_of_lt (hlt i hi), expiry]
  refine ⟨hl.nodup, hl.same, hl.ordered.congr fun a ha b hb => ?_, ?_⟩
  · rw [before, before, hexp a ha, hexp b hb]
  · show c.nextAction = c.timerQueue.head?.map (c.create item).expiry
    rw [hl.next_action]
    cases hq : c.timerQueue with
    | nil => rfl
    | cons root rest =>
        rw [List.head?_cons, Option.map_some, Option.map_some,
          hexp root (by rw [hq]; exact List.mem_cons_self)]

/-- The head of a heap in order expires first. -/
theorem head?_expiry {timerQueue : List ℕ} (h : Ordered c.before timerQueue)
    (hi : i ∈ timerQueue) (hle : ∀ j ∈ timerQueue, c.expiry i ≤ c.expiry j) :
    timerQueue.head?.map c.expiry = some (c.expiry i) := by
  cases hq : timerQueue with
  | nil =>
      rw [hq] at hi
      exact absurd hi List.not_mem_nil
  | cons root rest =>
      obtain ⟨n, hn⟩ := List.mem_iff_getElem?.mp hi
      have hroot : timerQueue[0]? = some root := by rw [hq]; rfl
      have hge := h.root_le c.before_weakOrder (fun _ _ => trivial) hroot n i hn
      have hroot_le : c.expiry root ≤ c.expiry i := not_lt.mp (of_decide_eq_false hge)
      rw [List.head?_cons, Option.map_some, hroot_le.antisymm (hle root (List.mem_of_getElem? hroot))]

variable [CommRing τ]

theorem mem_use {j : ℕ} : j ∈ (c.use i).usedItemsToRefresh ↔
    j ∈ c.usedItemsToRefresh ∨ j = i ∧ (c.items i).refreshAfterAccess ≠ 0 := by
  unfold use
  split
  · next h => simp [h]
  · next h => simp [h, or_comm]

theorem use_eq (c : AgentCache τ ν) (i : ℕ) :
    c.use i = { c with usedItemsToRefresh := (c.use i).usedItemsToRefresh } := by
  unfold use
  split <;> rfl

theorem use_indexed (hc : c.Indexed) (hi : i < c.next) : (c.use i).Indexed := by
  rw [use_eq]
  refine ⟨hc.key_item, hc.known, hc.uncalled, hc.called, hc.once, hc.finalized_lt, fun j hj => ?_⟩
  obtain hj | ⟨rfl, _⟩ := mem_use.mp hj
  · exact hc.used_lt j hj
  · exact hi

theorem use_linked (hl : c.Linked) : (c.use i).Linked := by
  rw [use_eq]
  exact ⟨hl.nodup, hl.same, hl.ordered, hl.next_action⟩

theorem insertItem_indexed (hc : c.Indexed) (hi : i < c.next)
    (hcalled : (c.items i).calledFinalizer = false) : (c.insertItem i).Indexed := by
  have hget : ∀ key j, (c.insertItem i).cache.get? key = some j →
      key = (c.items i).key ∧ j = i ∨ c.cache.get? key = some j := fun key j hj => by
    simp only [insertItem, Dict.get?_set] at hj
    split at hj
    · next heq => exact .inl ⟨heq, (Option.some.inj hj).symm⟩
    · exact .inr hj
  refine ⟨fun key j hj => ?_, fun key j hj => ?_, fun key j hj => ?_, hc.called, hc.once,
    hc.finalized_lt, fun j hj => ?_⟩
  · obtain ⟨rfl, rfl⟩ | hj := hget key j hj
    · rfl
    · exact hc.key_item key j hj
  · obtain ⟨rfl, rfl⟩ | hj := hget key j hj
    · exact hi
    · exact hc.known key j hj
  · obtain ⟨rfl, rfl⟩ | hj := hget key j hj
    · exact hcalled
    · exact hc.uncalled key j hj
  · obtain hj | ⟨rfl, _⟩ := mem_use.mp hj
    · exact hc.used_lt j hj
    · exact hi

theorem insertItem_linked (hl : c.Linked) (hkey : (c.items i).key ∉ c.cache)
    (hnew : ∀ key, c.cache.get? key ≠ some i) : (c.insertItem i).Linked := by
  have hperm : (heappush c.before c.timerQueue i).Perm (i :: c.timerQueue) := heappush_perm
  have hord : Ordered c.before (heappush c.before c.timerQueue i) :=
    heappush_ordered c.before_weakOrder (fun _ _ => trivial) trivial hl.ordered
  have hfresh : i ∉ c.timerQueue := fun hi => by
    obtain ⟨key, hget⟩ := (hl.same i).mp hi
    exact hnew key hget
  refine ⟨hperm.nodup_iff.mpr (List.nodup_cons.mpr ⟨hfresh, hl.nodup⟩), fun j => ?_, hord, ?_⟩
  · show j ∈ heappush c.before c.timerQueue i ↔
      ∃ key, (c.cache.set (c.items i).key i).get? key = some j
    rw [hperm.mem_iff, List.mem_cons, hl.same]
    refine ⟨?_, ?_⟩
    · rintro (rfl | ⟨key, hget⟩)
      · exact ⟨_, by rw [Dict.get?_set, if_pos rfl]⟩
      · refine ⟨key, ?_⟩
        rw [Dict.get?_set, if_neg, hget]
        rintro rfl
        exact hkey (Dict.mem_of_get? hget)
    · rintro ⟨key, hget⟩
      rw [Dict.get?_set] at hget
      split at hget
      · exact .inl (Option.some.inj hget).symm
      · exact .inr ⟨key, hget⟩
  · show (if c.nextAction.all (c.expiry i < ·) then some (c.expiry i) else c.nextAction) =
      (heappush c.before c.timerQueue i).head?.map c.expiry
    have hmem : ∀ j, j ∈ heappush c.before c.timerQueue i ↔ j = i ∨ j ∈ c.timerQueue := fun j => by
      rw [hperm.mem_iff, List.mem_cons]
    rw [hl.next_action]
    cases hq : c.timerQueue with
    | nil => rfl
    | cons root rest =>
        have hroot : root ∈ c.timerQueue := by rw [hq]; exact List.mem_cons_self
        rw [← hq, hq, List.head?_cons, Option.map_some, ← hq]
        split
        · next hall =>
          have hlt : c.expiry i < c.expiry root := of_decide_eq_true hall
          refine (head?_expiry hord ((hmem i).mpr (.inl rfl)) fun j hj => ?_).symm
          obtain rfl | hj := (hmem j).mp hj
          · exact le_rfl
          · exact hlt.le.trans (hl.head_le hq hj)
        · next hall =>
          have hle : ¬ c.expiry i < c.expiry root := fun hlt => hall (decide_eq_true hlt)
          refine (head?_expiry hord ((hmem root).mpr (.inr hroot)) fun j hj => ?_).symm
          obtain rfl | hj := (hmem j).mp hj
          · exact not_lt.mp hle
          · exact hl.head_le hq hj

/-! ## The end of a context -/

theorem touchUsedCacheItems_items (now : τ) (c : AgentCache τ ν) (i : ℕ) :
    (c.touchUsedCacheItems now).items i =
      if i ∈ c.usedItemsToRefresh then (c.items i).refresh now else c.items i := by
  unfold touchUsedCacheItems
  by_cases h : c.timerQueue = [] <;> simp [h]

theorem touchUsedCacheItems_frame (now : τ) (c : AgentCache τ ν) :
    (c.touchUsedCacheItems now).next = c.next ∧ (c.touchUsedCacheItems now).cache = c.cache ∧
      (c.touchUsedCacheItems now).usedItemsToRefresh = [] ∧
      (c.touchUsedCacheItems now).finalized = c.finalized := by
  unfold touchUsedCacheItems
  by_cases h : c.timerQueue = [] <;> simp [h]

theorem touchUsedCacheItems_indexed (now : τ) (hc : c.Indexed) :
    (c.touchUsedCacheItems now).Indexed := by
  obtain ⟨hnext, hcache, hused, hfinalized⟩ := touchUsedCacheItems_frame now c
  refine ⟨fun key i hi => ?_, fun key i hi => ?_, fun key i hi => ?_, fun i => ?_, ?_, ?_, ?_⟩
  · rw [hcache] at hi
    rw [touchUsedCacheItems_items, ← hc.key_item key i hi]
    split <;> simp
  · rw [hcache] at hi
    rw [hnext]
    exact hc.known key i hi
  · rw [hcache] at hi
    rw [touchUsedCacheItems_items, ← hc.uncalled key i hi]
    split <;> simp
  · rw [touchUsedCacheItems_items, hfinalized, ← hc.called]
    split <;> simp
  · rw [hfinalized]
    exact hc.once
  · rw [hfinalized, hnext]
    exact hc.finalized_lt
  · rw [hused]
    exact fun _ h => absurd h List.not_mem_nil

theorem touchUsedCacheItems_linked (now : τ) (hl : c.Linked) :
    (c.touchUsedCacheItems now).Linked := by
  unfold touchUsedCacheItems
  by_cases hq : c.timerQueue = []
  · rw [if_pos hq]
    refine ⟨hl.nodup, hl.same, fun _ _ _ _ h => ?_, ?_⟩
    · rw [show _ = _ from hq] at h
      cases h
    · show c.nextAction = c.timerQueue.head?.map _
      rw [hl.next_action, hq]
      rfl
  · rw [if_neg hq]
    refine ⟨heapify_perm.nodup_iff.mpr hl.nodup, fun i => ?_,
      heapify_ordered (before_weakOrder _) fun _ _ => trivial, rfl⟩
    exact heapify_perm.mem_iff.trans (hl.same i)

end AgentCache

end Inmanta
