import Inmanta.Lib.Asyncio
import Inmanta.Lib.Run
import Mathlib.Data.Set.Card

/-!
# Named locks

A `NamedLock` hands out one lock per name, which exists as long as the
hand-kept counter says that a task uses it, and a global lock that
excludes all of them. `LockTasks.step` runs any number of tasks that
acquire and release named locks or the global one, from one await point
to the next; a task that nests these blocks counts as one task a block.

The lock objects are kept apart from the names, as `acquire` holds on to
the object while it waits. `asyncio` cancels a task that waits by raising
where it waits: `acquire` has counted the task by then, and nothing takes
it back (`named_lock_safe_iff`).
-/

namespace Inmanta

open Asyncio

/-- How far a task is in one of the blocks. -/
inductive LockPhase where
  | idle
  /-- `acquire` waits for the global lock. -/
  | acquireGlobal (name : String)
  /-- `acquire` has the global lock and waits for the master lock. -/
  | acquireMaster (name : String)
  /-- `acquire` waits for the lock of the name. -/
  | acquireNamed (name : String) (lock : ℕ)
  | holding (name : String)
  /-- `release` waits for the master lock. -/
  | releaseMaster (name : String)
  /-- `global_exclusive_lock` waits for the global lock. -/
  | exclusiveGlobal
  /-- `global_exclusive_lock` has the global lock and waits for the event. -/
  | exclusiveEvent
  /-- In the context of `global_exclusive_lock`. -/
  | exclusive
  deriving DecidableEq

structure NamedLock (ι : Type) where
  globalExclusiveLock : Lock ι
  allNamedLocksReleasedEvent : Event ι
  masterLock : Lock ι
  namedLocks : Dict String ℕ
  namedLocksCounters : Dict String ℕ
  locks : ℕ → Lock ι
  next : ℕ

namespace NamedLock

variable {ι : Type} [DecidableEq ι]

def new : NamedLock ι where
  globalExclusiveLock := .new
  allNamedLocksReleasedEvent := .new
  masterLock := .new
  namedLocks := .empty
  namedLocksCounters := .empty
  locks := fun _ => .new
  next := 0

/-- The lock of a name, counted once more. -/
def count (s : NamedLock ι) (name : String) : Option (NamedLock ι × ℕ) :=
  match s.namedLocks.get? name with
  | some lock => do
      let counter ← s.namedLocksCounters.get? name
      return ({ s with namedLocksCounters := s.namedLocksCounters.set name (counter + 1) }, lock)
  | none => some ({ s with
      namedLocks := s.namedLocks.set name s.next
      namedLocksCounters := s.namedLocksCounters.set name 1
      locks := Function.update s.locks s.next .new
      next := s.next + 1 }, s.next)

/-- The rest of `acquire`, with the global lock and the master lock. -/
def acquireCounted (s : NamedLock ι) (c : ι) (name : String) : Option (NamedLock ι × LockPhase) := do
  let (s, lock) ← s.count name
  let masterLock ← s.masterLock.release
  let globalExclusiveLock ← s.globalExclusiveLock.release
  let (l, acquired) := (s.locks lock).acquire c
  return ({ s with masterLock, globalExclusiveLock, locks := Function.update s.locks lock l },
    if acquired then .holding name else .acquireNamed name lock)

/-- The rest of `acquire`, with the global lock. -/
def acquireLocked (s : NamedLock ι) (c : ι) (name : String) : Option (NamedLock ι × LockPhase) :=
  match s.masterLock.acquire c with
  | (masterLock, true) => { s with masterLock }.acquireCounted c name
  | (masterLock, false) => some ({ s with masterLock }, .acquireMaster name)

def acquire (s : NamedLock ι) (c : ι) (name : String) : Option (NamedLock ι × LockPhase) :=
  match s.globalExclusiveLock.acquire c with
  | (globalExclusiveLock, true) => { s with globalExclusiveLock }.acquireLocked c name
  | (globalExclusiveLock, false) => some ({ s with globalExclusiveLock }, .acquireGlobal name)

/-- The rest of `release`, with the master lock. -/
def releaseLocked (s : NamedLock ι) (name : String) : Option (NamedLock ι × LockPhase) := do
  let lock ← s.namedLocks.get? name
  let l ← (s.locks lock).release
  let counter ← s.namedLocksCounters.get? name
  let s := { s with
    locks := Function.update s.locks lock l
    namedLocksCounters := s.namedLocksCounters.set name (counter - 1) }
  let s := if counter - 1 ≤ 0 then { s with
      namedLocks := s.namedLocks.del name
      namedLocksCounters := s.namedLocksCounters.del name }
    else s
  let s := if s.namedLocks.keys = [] then { s with
      allNamedLocksReleasedEvent := s.allNamedLocksReleasedEvent.set }
    else s
  let masterLock ← s.masterLock.release
  return ({ s with masterLock }, .idle)

def release (s : NamedLock ι) (c : ι) (name : String) : Option (NamedLock ι × LockPhase) :=
  match s.masterLock.acquire c with
  | (masterLock, true) => { s with masterLock }.releaseLocked name
  | (masterLock, false) => some ({ s with masterLock }, .releaseMaster name)

/-- The rest of `global_exclusive_lock`, with the global lock. -/
def enterExclusive (s : NamedLock ι) (c : ι) : NamedLock ι × LockPhase :=
  if s.namedLocks.keys = [] then (s, .exclusive)
  else
    match s.allNamedLocksReleasedEvent.clear.wait c with
    | (allNamedLocksReleasedEvent, true) => ({ s with allNamedLocksReleasedEvent }, .exclusive)
    | (allNamedLocksReleasedEvent, false) => ({ s with allNamedLocksReleasedEvent }, .exclusiveEvent)

def globalExclusive (s : NamedLock ι) (c : ι) : NamedLock ι × LockPhase :=
  match s.globalExclusiveLock.acquire c with
  | (globalExclusiveLock, true) => { s with globalExclusiveLock }.enterExclusive c
  | (globalExclusiveLock, false) => ({ s with globalExclusiveLock }, .exclusiveGlobal)

/-- The end of a block that holds the global lock. -/
def releaseGlobal (s : NamedLock ι) : Option (NamedLock ι × LockPhase) := do
  let globalExclusiveLock ← s.globalExclusiveLock.release
  return ({ s with globalExclusiveLock }, .idle)

/-- A task that waits in this phase runs on, or the cancellation is raised there. -/
def resume (s : NamedLock ι) (c : ι) : LockPhase → Option (NamedLock ι × LockPhase)
  | .acquireGlobal name => do
      let (globalExclusiveLock, acquired) ← s.globalExclusiveLock.resume c
      let s := { s with globalExclusiveLock }
      if acquired then s.acquireLocked c name else return (s, .idle)
  | .acquireMaster name => do
      let (masterLock, acquired) ← s.masterLock.resume c
      let s := { s with masterLock }
      if acquired then s.acquireCounted c name else s.releaseGlobal
  | .acquireNamed name lock => do
      let (l, acquired) ← (s.locks lock).resume c
      return ({ s with locks := Function.update s.locks lock l },
        if acquired then .holding name else .idle)
  | .releaseMaster name => do
      let (masterLock, acquired) ← s.masterLock.resume c
      let s := { s with masterLock }
      if acquired then s.releaseLocked name else return (s, .idle)
  | .exclusiveGlobal => do
      let (globalExclusiveLock, acquired) ← s.globalExclusiveLock.resume c
      let s := { s with globalExclusiveLock }
      return if acquired then s.enterExclusive c else (s, .idle)
  | .exclusiveEvent => do
      let (allNamedLocksReleasedEvent, released) ← s.allNamedLocksReleasedEvent.resume c
      let s := { s with allNamedLocksReleasedEvent }
      if released then return (s, .exclusive) else s.releaseGlobal
  | .idle | .holding _ | .exclusive => none

/-- Cancel a task that waits in this phase. -/
def cancel (s : NamedLock ι) (c : ι) : LockPhase → Option (NamedLock ι)
  | .acquireGlobal _ | .exclusiveGlobal =>
      some { s with globalExclusiveLock := s.globalExclusiveLock.cancel c }
  | .acquireMaster _ | .releaseMaster _ => some { s with masterLock := s.masterLock.cancel c }
  | .acquireNamed _ lock =>
      some { s with locks := Function.update s.locks lock ((s.locks lock).cancel c) }
  | .exclusiveEvent => some { s with
      allNamedLocksReleasedEvent := s.allNamedLocksReleasedEvent.cancel c }
  | .idle | .holding _ | .exclusive => none

end NamedLock

/-- A named lock and the tasks that use it. -/
structure LockTasks (ι : Type) where
  lock : NamedLock ι
  phase : ι → LockPhase

inductive LockAction (ι : Type) where
  | acquire (task : ι) (name : String)
  | release (task : ι)
  | globalExclusive (task : ι)
  /-- The context of `global_exclusive_lock` ends. -/
  | leave (task : ι)
  | resume (task : ι)
  | cancel (task : ι)

namespace LockTasks

variable {ι : Type} [DecidableEq ι]

def init : LockTasks ι := ⟨.new, fun _ => .idle⟩

/-- A task has got to another phase. -/
def move (s : LockTasks ι) (c : ι) (r : NamedLock ι × LockPhase) : LockTasks ι :=
  ⟨r.1, Function.update s.phase c r.2⟩

def step (s : LockTasks ι) : LockAction ι → Option (LockTasks ι)
  | .acquire c name =>
      if s.phase c = .idle then (s.lock.acquire c name).map (s.move c) else none
  | .release c =>
      match s.phase c with
      | .holding name => (s.lock.release c name).map (s.move c)
      | _ => none
  | .globalExclusive c =>
      if s.phase c = .idle then some (s.move c (s.lock.globalExclusive c)) else none
  | .leave c =>
      if s.phase c = .exclusive then s.lock.releaseGlobal.map (s.move c) else none
  | .resume c => (s.lock.resume c (s.phase c)).map (s.move c)
  | .cancel c => (s.lock.cancel c (s.phase c)).map fun lock => { s with lock }

end LockTasks

/-! ## Who holds and waits for what -/

namespace LockPhase

/-- The task holds the global lock. -/
def OwnsGlobal (p : LockPhase) : Prop := p = .exclusiveEvent ∨ p = .exclusive

/-- The task waits for the global lock. -/
def WaitsGlobal (p : LockPhase) : Prop := p = .exclusiveGlobal ∨ ∃ name, p = .acquireGlobal name

/-- The task holds the named lock, or waits for it. -/
def Uses (name : String) (p : LockPhase) : Prop :=
  p = .holding name ∨ ∃ lock, p = .acquireNamed name lock

/-- The task has nothing to do with the named locks themselves. -/
def IsPlain (p : LockPhase) : Prop := ∀ name, ¬ p.Uses name

theorem isPlain_idle : idle.IsPlain := by simp [IsPlain, Uses]

theorem isPlain_acquireGlobal (name : String) : (acquireGlobal name).IsPlain := by
  simp [IsPlain, Uses]

theorem isPlain_exclusiveGlobal : exclusiveGlobal.IsPlain := by simp [IsPlain, Uses]

@[simp] theorem uses_holding {m n : String} : (holding m).Uses n ↔ m = n := by
  simp [Uses]

@[simp] theorem uses_acquireNamed {m n : String} {k : ℕ} :
    (acquireNamed m k).Uses n ↔ m = n := by
  simp [Uses]

end LockPhase

section Invariant

variable {ι : Type}

/-- The named locks serve the tasks, and the counters count them. -/
structure NamedLock.Named (s : NamedLock ι) (phase : ι → LockPhase) : Prop where
  lock : ∀ n k, s.namedLocks.get? n = some k → k < s.next
    ∧ (s.locks k).Serves (fun c => phase c = .holding n) (fun c => phase c = .acquireNamed n k)
  distinct : ∀ n n' k, s.namedLocks.get? n = some k → s.namedLocks.get? n' = some k → n = n'
  waits : ∀ c n k, phase c = .acquireNamed n k → s.namedLocks.get? n = some k
  counter : ∀ n, {c | (phase c).Uses n}.encard = (s.namedLocksCounters.getD n 0 : ℕ)
  counted : ∀ n, n ∈ s.namedLocksCounters ↔ n ∈ s.namedLocks
  entry : ∀ n, n ∈ s.namedLocks ↔ s.namedLocksCounters.getD n 0 ≠ 0

/-- The task that waits for the event is woken as soon as no named lock is left. -/
structure NamedLock.Signals (s : NamedLock ι) (phase : ι → LockPhase) : Prop where
  value : s.allNamedLocksReleasedEvent.value = true →
    ∀ p ∈ s.allNamedLocksReleasedEvent.waiters, p.2 ≠ .pending
  waiting : ∀ c, c ∈ s.allNamedLocksReleasedEvent.waiters.map Prod.fst ↔
    phase c = .exclusiveEvent
  pending : ∀ p ∈ s.allNamedLocksReleasedEvent.waiters, p.2 = .pending → s.namedLocks.keys ≠ []
  woken : ∀ p ∈ s.allNamedLocksReleasedEvent.waiters, p.2.IsWoken → s.namedLocks.keys = []
  exclusive : ∀ c, phase c = .exclusive → s.namedLocks.keys = []

structure LockTasks.Inv (s : LockTasks ι) : Prop where
  master : s.lock.masterLock = .new
  noMaster : ∀ c n, s.phase c ≠ .acquireMaster n ∧ s.phase c ≠ .releaseMaster n
  global : s.lock.globalExclusiveLock.Serves (fun c => (s.phase c).OwnsGlobal)
    (fun c => (s.phase c).WaitsGlobal)
  named : s.lock.Named s.phase
  signals : s.lock.Signals s.phase

namespace NamedLock

variable {s s' : NamedLock ι} {phase phase' : ι → LockPhase} {c : ι} {n : String}

theorem keys_eq_nil_iff {s : NamedLock ι} : s.namedLocks.keys = [] ↔ ∀ n, n ∉ s.namedLocks := by
  rw [List.eq_nil_iff_forall_not_mem]
  simp only [Dict.mem_keys]

/-- Without users, there is no entry. -/
theorem Named.not_mem (h : s.Named phase) (hno : ∀ c, ¬ (phase c).Uses n) :
    n ∉ s.namedLocks := by
  have hc := h.counter n
  have hempty : {c | (phase c).Uses n} = ∅ := Set.eq_empty_of_forall_notMem hno
  rw [hempty, Set.encard_empty] at hc
  rw [h.entry]
  exact not_not.mpr (by exact_mod_cast hc.symm)

theorem Named.mem (h : s.Named phase) (hu : (phase c).Uses n) : n ∈ s.namedLocks := by
  rw [h.entry]
  intro h0
  have hc := h.counter n
  rw [h0] at hc
  have hempty := Set.encard_eq_zero.mp (hc.trans rfl)
  exact (Set.mem_empty_iff_false c).mp (hempty ▸ hu)

/-- Only the phases of the users matter. -/
theorem Named.congr (h : s.Named phase)
    (hphase : ∀ x, phase' x = phase x ∨ (phase' x).IsPlain ∧ (phase x).IsPlain)
    (hn : s'.namedLocks = s.namedLocks) (hc : s'.namedLocksCounters = s.namedLocksCounters)
    (hl : s'.locks = s.locks) (hnext : s'.next = s.next) : s'.Named phase' := by
  have hhold : ∀ x n, phase' x = .holding n ↔ phase x = .holding n := fun x n => by
    rcases hphase x with he | ⟨hp, hp'⟩
    · rw [he]
    · exact iff_of_false (fun h => hp n (Or.inl h)) fun h => hp' n (Or.inl h)
  have hwait : ∀ x n k, phase' x = .acquireNamed n k ↔ phase x = .acquireNamed n k :=
    fun x n k => by
      rcases hphase x with he | ⟨hp, hp'⟩
      · rw [he]
      · exact iff_of_false (fun h => hp n (Or.inr ⟨k, h⟩)) fun h => hp' n (Or.inr ⟨k, h⟩)
  have huses : ∀ n, {c | (phase' c).Uses n} = {c | (phase c).Uses n} := fun n => by
    ext x
    simp only [LockPhase.Uses, Set.mem_ofPred_eq, hhold, hwait]
  refine ⟨fun n k hk => ?_, ?_, fun x n k hx => ?_, fun n => ?_, ?_, ?_⟩
  · rw [hn] at hk
    rw [hnext, hl]
    exact ⟨(h.lock n k hk).1, (h.lock n k hk).2.congr (fun x => hhold x n) fun x => hwait x n k⟩
  · rw [hn]
    exact h.distinct
  · rw [hn]
    exact h.waits x n k ((hwait x n k).mp hx)
  · rw [huses, hc]
    exact h.counter n
  · rw [hn, hc]
    exact h.counted
  · rw [hn, hc]
    exact h.entry

/-- What counting the task of a name does. -/
structure Counted (s : NamedLock ι) (n : String) (s' : NamedLock ι) (k : ℕ) : Prop where
  master : s'.masterLock = s.masterLock
  global : s'.globalExclusiveLock = s.globalExclusiveLock
  event : s'.allNamedLocksReleasedEvent = s.allNamedLocksReleasedEvent
  own : s'.namedLocks.get? n = some k
  keeps : ∀ n' j, s.namedLocks.get? n' = some j → s'.namedLocks.get? n' = some j
  other : ∀ n', n' ≠ n → s'.namedLocks.get? n' = s.namedLocks.get? n'
  counter : ∀ n', s'.namedLocksCounters.getD n' 0 =
    s.namedLocksCounters.getD n' 0 + if n' = n then 1 else 0
  counted : ∀ n', n' ∈ s'.namedLocksCounters ↔ n' = n ∨ n' ∈ s.namedLocksCounters

theorem Named.count (h : s.Named phase) (n : String) :
    ∃ s' k, s.count n = some (s', k) ∧ s.Counted n s' k
      ∧ (∀ n' k', s'.namedLocks.get? n' = some k' → k' < s'.next
        ∧ (s'.locks k').Serves (fun c => phase c = .holding n') fun c => phase c = .acquireNamed n' k')
      ∧ ∀ n' n'' k', s'.namedLocks.get? n' = some k' → s'.namedLocks.get? n'' = some k' →
        n' = n'' := by
  have hset : ∀ v n', (s.namedLocksCounters.set n v).getD n' 0 =
      if n' = n then v else s.namedLocksCounters.getD n' 0 := fun v n' => by
    rw [Dict.getD_set]
  unfold NamedLock.count
  cases hk : s.namedLocks.get? n with
  | some k =>
      obtain ⟨v, hv⟩ := Dict.mem_iff.mp ((h.counted n).mpr (Dict.mem_of_get? hk))
      simp only [hv, Option.bind_eq_bind, Option.bind_some, Option.pure_def]
      refine ⟨_, k, rfl, ⟨rfl, rfl, rfl, hk, fun _ _ => id, fun _ _ => rfl, fun n' => ?_, fun n' => Dict.mem_set⟩,
        h.lock, h.distinct⟩
      rw [hset, ← Dict.getD_of_get? hv 0]
      split
      · rename_i hn
        rw [hn]
      · rfl
  | none =>
      have hfresh : ∀ n' k', s.namedLocks.get? n' = some k' → k' ≠ s.next := fun n' k' h' =>
        (h.lock n' k' h').1.ne
      have hno := Dict.not_mem_iff.mpr hk
      refine ⟨_, s.next, rfl, ⟨rfl, rfl, rfl, by simp, fun n' j hj => ?_,
        fun n' hn' => by simp [hn'], fun n' => ?_,
        fun n' => Dict.mem_set⟩, fun n' k' hk' => ?_, fun n' n'' k' hk' hk'' => ?_⟩
      · have hn' : n' ≠ n := fun he => by
          subst he
          cases hk.symm.trans hj
        simpa [hn'] using hj
      · rw [hset]
        split
        · rename_i hn
          rw [hn, not_not.mp (mt (h.entry n).mpr hno)]
        · rfl
      · simp only [Dict.get?_set] at hk'
        split at hk'
        · rename_i hn
          subst hn
          obtain rfl := Option.some.inj hk'
          refine ⟨Nat.lt_succ_self _, ?_⟩
          dsimp only
          rw [Function.update_self]
          refine Lock.serves_new.congr (fun c => ?_) fun c => ?_
          · exact iff_of_false (fun hc => hno (h.mem (Or.inl hc))) id
          · exact iff_of_false (fun hc => hno (h.mem (Or.inr ⟨_, hc⟩))) id
        · obtain ⟨hlt, hserves⟩ := h.lock n' k' hk'
          refine ⟨Nat.lt_succ_of_lt hlt, ?_⟩
          dsimp only
          rw [Function.update_of_ne hlt.ne]
          exact hserves
      · simp only [Dict.get?_set] at hk' hk''
        split at hk' <;> split at hk''
        · rename_i hn hn'
          rw [hn, hn']
        · obtain rfl := Option.some.inj hk'
          exact absurd rfl (hfresh n'' _ hk'')
        · obtain rfl := Option.some.inj hk''
          exact absurd rfl (hfresh n' _ hk')
        · exact h.distinct n' n'' k' hk' hk''

/-- A step that neither touches the event nor which tasks are exclusive. -/
theorem Signals.congr (h : s.Signals phase)
    (hevent : s'.allNamedLocksReleasedEvent = s.allNamedLocksReleasedEvent)
    (hnames : s'.namedLocks = s.namedLocks)
    (hphase : ∀ x, phase' x = phase x ∨ (¬ (phase' x).OwnsGlobal ∧ ¬ (phase x).OwnsGlobal)) :
    s'.Signals phase' := by
  refine ⟨hevent ▸ h.value, fun x => ?_, ?_, ?_, fun x hx => ?_⟩
  · rw [hevent, h.waiting]
    rcases hphase x with he | ⟨hno, hno'⟩
    · rw [he]
    · exact iff_of_false (fun h => hno' (Or.inl h)) fun h => hno (Or.inl h)
  · rw [hevent, hnames]
    exact h.pending
  · rw [hevent, hnames]
    exact h.woken
  · rw [hnames]
    rcases hphase x with he | ⟨hno, -⟩
    · exact h.exclusive x (he ▸ hx)
    · exact absurd (Or.inr hx) hno

/-- Where nobody owns the global lock, nobody waits for the event. -/
theorem Signals.waiters_eq_nil (h : s.Signals phase) (hno : ∀ x, ¬ (phase x).OwnsGlobal) :
    s.allNamedLocksReleasedEvent.waiters = [] := by
  rw [List.eq_nil_iff_forall_not_mem]
  intro p hp
  exact hno p.1 (Or.inl ((h.waiting p.1).mp (List.mem_map_of_mem hp)))

/-- Where nobody owns the global lock, there is nothing to signal. -/
theorem signals_of_nil (hw : s.allNamedLocksReleasedEvent.waiters = [])
    (hno : ∀ x, ¬ (phase x).OwnsGlobal) : s.Signals phase := by
  refine ⟨fun _ => ?_, fun x => ?_, ?_, ?_, fun x hx => absurd (Or.inr hx) (hno x)⟩
  · simp [hw]
  · rw [hw]
    exact iff_of_false List.not_mem_nil fun hx => hno x (Or.inl hx)
  · simp [hw]
  · simp [hw]

end NamedLock

theorem LockTasks.Inv.init : (LockTasks.init : LockTasks ι).Inv where
  master := rfl
  noMaster := by simp [LockTasks.init]
  global := Lock.serves_new.congr (by simp [LockTasks.init, LockPhase.OwnsGlobal])
    (by simp [LockTasks.init, LockPhase.WaitsGlobal])
  named := by
    refine ⟨fun _ _ h => (by cases h), fun _ _ _ h => (by cases h), fun _ _ _ h => (by cases h),
      fun n => ?_, fun n => iff_of_false (Dict.not_mem_empty n) (Dict.not_mem_empty n), fun n => ?_⟩
    · have hempty : {c : ι | ((LockTasks.init : LockTasks ι).phase c).Uses n} = ∅ :=
        Set.eq_empty_of_forall_notMem fun c => by simp [LockTasks.init, LockPhase.Uses]
      rw [hempty, Set.encard_empty]
      rfl
    · exact iff_of_false (Dict.not_mem_empty n) (not_not.mpr rfl)
  signals := NamedLock.signals_of_nil rfl (by simp [LockTasks.init, LockPhase.OwnsGlobal])

variable [DecidableEq ι]

namespace NamedLock

variable {s s' : NamedLock ι} {phase phase' : ι → LockPhase} {c : ι} {n : String}

theorem uses_update {p : LockPhase} (x : ι) :
    (Function.update phase c p x).Uses n ↔ if x = c then p.Uses n else (phase x).Uses n := by
  rw [Function.update_apply]
  split <;> rfl

/-- A task that moves from one phase to another that does not use named locks. -/
theorem Named.move (h : s.Named phase) {p : LockPhase} (hp : p.IsPlain) (hc : (phase c).IsPlain)
    (hn : s'.namedLocks = s.namedLocks) (hcnt : s'.namedLocksCounters = s.namedLocksCounters)
    (hl : s'.locks = s.locks) (hnext : s'.next = s.next) :
    s'.Named (Function.update phase c p) := by
  refine h.congr (fun x => ?_) hn hcnt hl hnext
  by_cases hx : x = c
  · subst hx
    rw [Function.update_self]
    exact Or.inr ⟨hp, hc⟩
  · exact Or.inl (Function.update_of_ne hx _ _)

theorem encard_uses_same {p : LockPhase} (h : p.Uses n ↔ (phase c).Uses n) :
    {x | (Function.update phase c p x).Uses n}.encard = {x | (phase x).Uses n}.encard := by
  congr 1
  ext x
  simp only [Set.mem_ofPred_eq, uses_update]
  split
  · rename_i hx
    rw [h, hx]
  · rfl

theorem encard_uses_enter {p : LockPhase} (hp : p.Uses n) (hc : ¬ (phase c).Uses n) :
    {x | (Function.update phase c p x).Uses n}.encard = {x | (phase x).Uses n}.encard + 1 := by
  have hset : {x | (Function.update phase c p x).Uses n} = insert c {x | (phase x).Uses n} := by
    ext x
    simp only [Set.mem_ofPred_eq, uses_update, Set.mem_insert_iff]
    split
    · rename_i hx
      exact iff_of_true hp (Or.inl hx)
    · rename_i hx
      exact (or_iff_right hx).symm
  rw [hset]
  exact Set.encard_insert_of_notMem hc

theorem encard_uses_leave {p : LockPhase} (hp : ¬ p.Uses n) (hc : (phase c).Uses n) :
    {x | (Function.update phase c p x).Uses n}.encard + 1 = {x | (phase x).Uses n}.encard := by
  have h : {x | (Function.update (Function.update phase c p) c (phase c) x).Uses n}.encard
      = {x | (Function.update phase c p x).Uses n}.encard + 1 :=
    encard_uses_enter hc (by rwa [Function.update_self])
  rw [Function.update_idem, Function.update_eq_self] at h
  exact h.symm

/-- A task acquires the lock of a name, or waits for it. -/
theorem Named.acquire (h : s.Named phase) (hc : (phase c).IsPlain) (n : String) :
    ∃ s₁ k l acquired, s.count n = some (s₁, k) ∧ s.Counted n s₁ k
      ∧ (s₁.locks k).acquire c = (l, acquired)
      ∧ ∀ s' : NamedLock ι, s'.namedLocks = s₁.namedLocks → s'.namedLocksCounters = s₁.namedLocksCounters →
        s'.next = s₁.next → s'.locks = Function.update s₁.locks k l →
        s'.Named (Function.update phase c (if acquired then .holding n else .acquireNamed n k)) := by
  obtain ⟨s₁, k, hs₁, hcnt, hlock, hdist⟩ := h.count n
  have hnhold : ∀ m, phase c ≠ .holding m := fun m he => hc m (Or.inl he)
  have hnwait : ∀ m j, phase c ≠ .acquireNamed m j := fun m j he => hc m (Or.inr ⟨j, he⟩)
  have hmem : ∀ n', n' ∈ s₁.namedLocks ↔ n' = n ∨ n' ∈ s.namedLocks := fun n' => by
    by_cases hn : n' = n
    · subst hn
      exact iff_of_true (Dict.mem_of_get? hcnt.own) (Or.inl rfl)
    · rw [or_iff_right hn, Dict.mem_iff, hcnt.other n' hn, ← Dict.mem_iff]
  -- what does not depend on whether the lock is free
  have hrest : ∀ (p : LockPhase) (l : Lock ι) (s' : NamedLock ι),
      (p = .holding n ∨ p = .acquireNamed n k) →
      l.Serves (fun x => Function.update phase c p x = .holding n)
        (fun x => Function.update phase c p x = .acquireNamed n k) →
      s'.namedLocks = s₁.namedLocks → s'.namedLocksCounters = s₁.namedLocksCounters →
      s'.next = s₁.next → s'.locks = Function.update s₁.locks k l →
      s'.Named (Function.update phase c p) := by
    intro p l s' hp hserves hn' hc' hnext hl
    have hpu : ∀ m, p.Uses m ↔ n = m := fun m => by
      rcases hp with rfl | rfl
      · exact LockPhase.uses_holding
      · exact LockPhase.uses_acquireNamed
    refine ⟨fun n' k' hk' => ?_, ?_, fun x n' k' hx => ?_, fun n' => ?_, fun n' => ?_,
      fun n' => ?_⟩
    · rw [hn'] at hk'
      obtain ⟨hlt, hserves'⟩ := hlock n' k' hk'
      rw [hnext, hl]
      refine ⟨hlt, ?_⟩
      by_cases hkk : k' = k
      · subst hkk
        obtain rfl := hdist n' n k' hk' hcnt.own
        rw [Function.update_self]
        exact hserves
      · have hnn : n' ≠ n := fun he => hkk (by
          subst he
          exact Option.some.inj (hk'.symm.trans hcnt.own))
        have hpne : p ≠ .holding n' ∧ p ≠ .acquireNamed n' k' := by
          rcases hp with rfl | rfl
          · exact ⟨fun he => hnn (LockPhase.holding.inj he).symm, fun he => by cases he⟩
          · exact ⟨fun he => (by cases he), fun he => hnn (LockPhase.acquireNamed.inj he).1.symm⟩
        rw [Function.update_of_ne hkk]
        refine hserves'.congr (fun x => ?_) fun x => ?_
        · by_cases hx : x = c
          · rw [hx, Function.update_self]
            exact iff_of_false hpne.1 (hnhold n')
          · rw [Function.update_of_ne hx]
        · by_cases hx : x = c
          · rw [hx, Function.update_self]
            exact iff_of_false hpne.2 (hnwait n' k')
          · rw [Function.update_of_ne hx]
    · rw [hn']
      exact hdist
    · rw [hn']
      by_cases hxc : x = c
      · rw [hxc, Function.update_self] at hx
        rcases hp with rfl | rfl
        · cases hx
        · obtain ⟨rfl, rfl⟩ := LockPhase.acquireNamed.inj hx
          exact hcnt.own
      · rw [Function.update_of_ne hxc] at hx
        exact hcnt.keeps n' k' (h.waits x n' k' hx)
    · rw [hc', hcnt.counter]
      by_cases hnn : n' = n
      · subst hnn
        rw [encard_uses_enter ((hpu n').mpr rfl) (hc n'), h.counter, if_pos rfl]
        rfl
      · rw [encard_uses_same (iff_of_false (fun hu => hnn ((hpu n').mp hu).symm) (hc n')), h.counter,
          if_neg hnn]
        rfl
    · rw [hn', hc', hcnt.counted, hmem]
      exact or_congr_right (h.counted n')
    · rw [hn', hc', hmem, hcnt.counter]
      by_cases hnn : n' = n
      · rw [if_pos hnn]
        exact iff_of_true (Or.inl hnn) (Nat.succ_ne_zero _)
      · rw [if_neg hnn, or_iff_right hnn, h.entry]
        rfl
  obtain ⟨l, hl, hno, hserves⟩ | ⟨l, hl, hserves⟩ := (hlock n k hcnt.own).2.acquire (c := c)
    (hnwait n k)
  · refine ⟨s₁, k, l, true, hs₁, hcnt, hl, fun s' => hrest _ l s' (Or.inl rfl) ?_⟩
    refine hserves.congr (fun x => ?_) fun x => ?_
    · by_cases hx : x = c
      · rw [hx, Function.update_self]
        exact iff_of_true rfl rfl
      · rw [Function.update_of_ne hx]
        exact iff_of_false (hno x) hx
    · by_cases hx : x = c
      · rw [hx, Function.update_self]
        exact iff_of_false (fun he => by cases he) (hnwait n k)
      · rw [Function.update_of_ne hx]
  · refine ⟨s₁, k, l, false, hs₁, hcnt, hl, fun s' => hrest _ l s' (Or.inr rfl) ?_⟩
    refine hserves.congr (fun x => ?_) fun x => ?_
    · by_cases hx : x = c
      · rw [hx, Function.update_self]
        exact iff_of_false (fun he => by cases he) (hnhold n)
      · rw [Function.update_of_ne hx]
    · by_cases hx : x = c
      · rw [hx, Function.update_self]
        exact iff_of_true rfl (Or.inr rfl)
      · rw [Function.update_of_ne hx]
        exact (or_iff_left hx).symm

/-- A task releases the lock of a name. The entry goes with the last user. -/
theorem Named.release (h : s.Named phase) (hc : phase c = .holding n) :
    ∃ k l v, s.namedLocks.get? n = some k ∧ (s.locks k).release = some l
      ∧ s.namedLocksCounters.get? n = some v
      ∧ ∀ s' : NamedLock ι, s'.next = s.next → s'.locks = Function.update s.locks k l →
        s'.namedLocks = (if v - 1 ≤ 0 then s.namedLocks.del n else s.namedLocks) →
        s'.namedLocksCounters = (if v - 1 ≤ 0 then (s.namedLocksCounters.set n (v - 1)).del n
          else s.namedLocksCounters.set n (v - 1)) →
        s'.Named (Function.update phase c .idle) := by
  have hu : (phase c).Uses n := Or.inl hc
  obtain ⟨k, hk⟩ := Dict.mem_iff.mp (h.mem hu)
  obtain ⟨v, hv⟩ := Dict.mem_iff.mp ((h.counted n).mpr (Dict.mem_of_get? hk))
  have hv0 : v ≠ 0 := by
    have hne := (h.entry n).mp (Dict.mem_of_get? hk)
    rwa [Dict.getD_of_get? hv] at hne
  obtain ⟨hlt, hserves⟩ := h.lock n k hk
  obtain ⟨l, hl, hserves'⟩ := hserves.release (c := c) hc
  refine ⟨k, l, v, hk, hl, hv, fun s' hnext hlocks hnames hcounters => ?_⟩
  have hother : ∀ n', n' ≠ n → s'.namedLocks.get? n' = s.namedLocks.get? n' := fun n' hn' => by
    rw [hnames]
    split
    · rw [Dict.get?_del, if_neg hn']
    · rfl
  have hsub : ∀ n' j, s'.namedLocks.get? n' = some j → s.namedLocks.get? n' = some j :=
    fun n' j hj => by
      by_cases hn' : n' = n
      · rw [hnames] at hj
        split at hj
        · rw [Dict.get?_del, if_pos hn'] at hj
          cases hj
        · exact hj
      · rw [← hother n' hn']
        exact hj
  have hcnt : ∀ n', s'.namedLocksCounters.getD n' 0 =
      if n' = n then v - 1 else s.namedLocksCounters.getD n' 0 := fun n' => by
    rw [hcounters]
    split
    · rename_i hle
      rw [Dict.getD_del, Dict.getD_set]
      split
      · exact (Nat.le_zero.mp hle).symm
      · rfl
    · rw [Dict.getD_set]
  have hidle : ∀ m, ¬ LockPhase.idle.Uses m := fun m => by simp [LockPhase.Uses]
  have huses : ∀ n', {x | (Function.update phase c .idle x).Uses n'}.encard
      = (s'.namedLocksCounters.getD n' 0 : ℕ) := fun n' => by
    rw [hcnt]
    split
    · rename_i hn'
      subst hn'
      have hleave := encard_uses_leave (hidle n') hu
      rw [h.counter, Dict.getD_of_get? hv] at hleave
      obtain ⟨m, rfl⟩ := Nat.exists_eq_succ_of_ne_zero hv0
      rw [Nat.succ_sub_one]
      refine (ENat.add_left_injective_of_ne_top ENat.one_ne_top) ?_
      exact hleave.trans (by push_cast; rfl)
    · rename_i hn'
      rw [encard_uses_same, h.counter]
      refine iff_of_false (hidle n') fun he => ?_
      rw [hc, LockPhase.uses_holding] at he
      exact hn' he.symm
  have hmem : ∀ n', n' ∈ s'.namedLocks ↔ s'.namedLocksCounters.getD n' 0 ≠ 0 := fun n' => by
    rw [hcnt]
    by_cases hn' : n' = n
    · subst hn'
      rw [if_pos rfl, hnames]
      by_cases hle : v - 1 ≤ 0
      · rw [if_pos hle]
        exact iff_of_false (fun hm => (Dict.mem_del.mp hm).1 rfl) (not_not.mpr (Nat.le_zero.mp hle))
      · rw [if_neg hle]
        exact iff_of_true (Dict.mem_of_get? hk) fun he => hle he.le
    · rw [if_neg hn', Dict.mem_iff, hother n' hn', ← Dict.mem_iff]
      exact h.entry n'
  refine ⟨fun n' k' hk' => ?_, fun n' n'' j hj hj' => h.distinct n' n'' j (hsub _ _ hj) (hsub _ _ hj'),
    fun x n' j hx => ?_, huses, fun n' => ?_, hmem⟩
  · have hold := hsub n' k' hk'
    obtain ⟨hlt', hserves₀⟩ := h.lock n' k' hold
    rw [hnext, hlocks]
    refine ⟨hlt', ?_⟩
    have hwaits : ∀ x, Function.update phase c .idle x = .acquireNamed n' k'
        ↔ phase x = .acquireNamed n' k' := fun x => by
      by_cases hx : x = c
      · rw [hx, Function.update_self, hc]
        exact iff_of_false (fun he => by cases he) fun he => by cases he
      · rw [Function.update_of_ne hx]
    by_cases hkk : k' = k
    · subst hkk
      obtain rfl := h.distinct n' n k' hold hk
      rw [Function.update_self]
      refine hserves'.congr (fun x => ?_) hwaits
      by_cases hx : x = c
      · rw [hx, Function.update_self]
        exact iff_of_false (fun he => by cases he) fun he => he.2 rfl
      · rw [Function.update_of_ne hx]
        exact (and_iff_left hx).symm
    · rw [Function.update_of_ne hkk]
      refine hserves₀.congr (fun x => ?_) hwaits
      by_cases hx : x = c
      · rw [hx, Function.update_self, hc]
        refine iff_of_false (fun he => by cases he) fun he => hkk ?_
        obtain rfl := LockPhase.holding.inj he
        exact Option.some.inj (hold.symm.trans hk)
      · rw [Function.update_of_ne hx]
  · have hxc : x ≠ c := fun he => by
      rw [he, Function.update_self] at hx
      cases hx
    have hx' : phase x = .acquireNamed n' j := (Function.update_of_ne hxc _ _).symm.trans hx
    have hin : n' ∈ s'.namedLocks := by
      rw [hmem]
      intro h0
      have hcard := huses n'
      rw [h0] at hcard
      have hempty := Set.encard_eq_zero.mp (hcard.trans rfl)
      exact (Set.mem_empty_iff_false x).mp (hempty ▸ (uses_update x).mpr (by
        rw [if_neg hxc]
        exact Or.inr ⟨j, hx'⟩))
    obtain ⟨j', hj'⟩ := Dict.mem_iff.mp hin
    rw [hj', Option.some.inj ((hsub n' j' hj').symm.trans (h.waits x n' j hx'))]
  · rw [hnames, hcounters]
    split
    · rw [Dict.mem_del, Dict.mem_del, Dict.mem_set]
      exact and_congr_right fun hn' => (or_iff_right hn').trans (h.counted n')
    · rw [Dict.mem_set, h.counted]
      exact or_iff_right_of_imp fun hn' => hn' ▸ Dict.mem_of_get? hk

/-- The lock of a name has got to a task that waits for it. -/
theorem Named.granted (h : s.Named phase) {k : ℕ} (hc : phase c = .acquireNamed n k) {l : Lock ι}
    (hl : (s.locks k).resume c = some (l, true)) {s' : NamedLock ι}
    (hn : s'.namedLocks = s.namedLocks) (hcnt : s'.namedLocksCounters = s.namedLocksCounters)
    (hnext : s'.next = s.next) (hlocks : s'.locks = Function.update s.locks k l) :
    s'.Named (Function.update phase c (.holding n)) := by
  have hk := h.waits c n k hc
  obtain ⟨hlt, hserves⟩ := h.lock n k hk
  have hres := hserves.resume hl
  rw [if_pos rfl] at hres
  obtain ⟨-, hno, hserves'⟩ := hres
  refine ⟨fun n' k' hk' => ?_, ?_, fun x n' j hx => ?_, fun n' => ?_, ?_, ?_⟩
  · rw [hn] at hk'
    obtain ⟨hlt', hserves₀⟩ := h.lock n' k' hk'
    rw [hnext, hlocks]
    refine ⟨hlt', ?_⟩
    by_cases hkk : k' = k
    · subst hkk
      obtain rfl := h.distinct n' n k' hk' hk
      rw [Function.update_self]
      refine hserves'.congr (fun x => ?_) fun x => ?_
      · by_cases hx : x = c
        · rw [hx, Function.update_self]
          exact iff_of_true rfl rfl
        · rw [Function.update_of_ne hx]
          exact iff_of_false (hno x) hx
      · by_cases hx : x = c
        · rw [hx, Function.update_self]
          exact iff_of_false (fun he => by cases he) fun he => he.2 rfl
        · rw [Function.update_of_ne hx]
          exact (and_iff_left hx).symm
    · rw [Function.update_of_ne hkk]
      have hnn : n ≠ n' := fun he => hkk (by
        subst he
        exact Option.some.inj (hk'.symm.trans hk))
      refine hserves₀.congr (fun x => ?_) fun x => ?_
      · by_cases hx : x = c
        · rw [hx, Function.update_self, hc]
          exact iff_of_false (fun he => hnn (LockPhase.holding.inj he)) fun he => by cases he
        · rw [Function.update_of_ne hx]
      · by_cases hx : x = c
        · rw [hx, Function.update_self, hc]
          exact iff_of_false (fun he => by cases he) fun he => hnn (LockPhase.acquireNamed.inj he).1
        · rw [Function.update_of_ne hx]
  · rw [hn]
    exact h.distinct
  · rw [hn]
    by_cases hxc : x = c
    · rw [hxc, Function.update_self] at hx
      cases hx
    · rw [Function.update_of_ne hxc] at hx
      exact h.waits x n' j hx
  · rw [hcnt, encard_uses_same, h.counter]
    rw [hc, LockPhase.uses_holding, LockPhase.uses_acquireNamed]
  · rw [hn, hcnt]
    exact h.counted
  · rw [hn, hcnt]
    exact h.entry

/-- Cancelling a task that waits for a named lock. -/
theorem Named.cancel (h : s.Named phase) (k : ℕ) (c : ι) :
    ({ s with locks := Function.update s.locks k ((s.locks k).cancel c) } : NamedLock ι).Named
      phase := by
  refine ⟨fun n k' hk' => ?_, h.distinct, h.waits, h.counter, h.counted, h.entry⟩
  obtain ⟨hlt, hserves⟩ := h.lock n k' hk'
  refine ⟨hlt, ?_⟩
  dsimp only
  by_cases hkk : k' = k
  · subst hkk
    rw [Function.update_self]
    exact hserves.cancel c
  · rw [Function.update_of_ne hkk]
    exact hserves

/-- Cancelling a task that waits for the event. -/
theorem Signals.cancel (h : s.Signals phase) (c : ι) :
    ({ s with allNamedLocksReleasedEvent := s.allNamedLocksReleasedEvent.cancel c }
      : NamedLock ι).Signals phase := by
  have hmem : ∀ p ∈ (s.allNamedLocksReleasedEvent.cancel c).waiters,
      ∃ q ∈ s.allNamedLocksReleasedEvent.waiters, (p.2 = .pending → q.2 = .pending)
        ∧ (p.2.IsWoken → q.2.IsWoken) := by
    intro p hp
    obtain ⟨q, hq, rfl⟩ := List.mem_map.mp hp
    refine ⟨q, hq, ?_⟩
    split
    · exact ⟨fun he => absurd he q.2.cancel_ne_pending, Wake.isWoken_cancel.mp⟩
    · exact ⟨id, id⟩
  refine ⟨fun hv p hp hpend => ?_, fun x => ?_, fun p hp hpend => ?_, fun p hp hwoken => ?_,
    h.exclusive⟩
  · obtain ⟨q, hq, hqp, -⟩ := hmem p hp
    exact h.value hv q hq (hqp hpend)
  · rw [← h.waiting]
    exact iff_of_eq (congrArg (x ∈ ·) (Waiters.map_fst_cancel _ c))
  · obtain ⟨q, hq, hqp, -⟩ := hmem p hp
    exact h.pending q hq (hqp hpend)
  · obtain ⟨q, hq, -, hqw⟩ := hmem p hp
    exact h.woken q hq (hqw hwoken)

theorem Signals.move (h : s.Signals phase)
    (hevent : s'.allNamedLocksReleasedEvent = s.allNamedLocksReleasedEvent)
    (hnames : s'.namedLocks = s.namedLocks) {p : LockPhase} (hp : ¬ p.OwnsGlobal)
    (hc : ¬ (phase c).OwnsGlobal) : s'.Signals (Function.update phase c p) := by
  refine h.congr hevent hnames fun x => ?_
  by_cases hx : x = c
  · subst hx
    rw [Function.update_self]
    exact Or.inr ⟨hp, hc⟩
  · exact Or.inl (Function.update_of_ne hx _ _)

end NamedLock

namespace LockTasks

variable {s s' : LockTasks ι} {c : ι} {n : String}

/-- The invariant after a step of one task. -/
theorem Inv.move (h : s.Inv) {lock : NamedLock ι} {p : LockPhase} {owns waits : ι → Prop}
    (hm : lock.masterLock = .new) (hp : ∀ m, p ≠ .acquireMaster m ∧ p ≠ .releaseMaster m)
    (hg : lock.globalExclusiveLock.Serves owns waits)
    (hoc : p.OwnsGlobal ↔ owns c) (ho : ∀ x, x ≠ c → ((s.phase x).OwnsGlobal ↔ owns x))
    (hwc : p.WaitsGlobal ↔ waits c) (hw : ∀ x, x ≠ c → ((s.phase x).WaitsGlobal ↔ waits x))
    (hn : lock.Named (Function.update s.phase c p))
    (hs : lock.Signals (Function.update s.phase c p)) : (s.move c (lock, p)).Inv := by
  have hself : (s.move c (lock, p)).phase c = p := Function.update_self _ _ _
  have hother : ∀ x, x ≠ c → (s.move c (lock, p)).phase x = s.phase x := fun x hx =>
    Function.update_of_ne hx _ _
  refine ⟨hm, fun x m => ?_, hg.congr (fun x => ?_) (fun x => ?_), hn, hs⟩
  · by_cases hx : x = c
    · rw [hx, hself]
      exact hp m
    · rw [hother x hx]
      exact h.noMaster x m
  · by_cases hx : x = c
    · rw [hx, hself]
      exact hoc
    · rw [hother x hx]
      exact ho x hx
  · by_cases hx : x = c
    · rw [hx, hself]
      exact hwc
    · rw [hother x hx]
      exact hw x hx

/-- A task that got the global lock in `acquire` gets on, and gives it back. -/
theorem Inv.acquireLocked (h : s.Inv) (hplain : (s.phase c).IsPlain) {g : Lock ι}
    (hg : g.Serves (fun x => x = c) (fun x => (s.phase x).WaitsGlobal ∧ x ≠ c))
    (hno : ∀ x, ¬ (s.phase x).OwnsGlobal) (n : String) :
    ∃ r, ({ s.lock with globalExclusiveLock := g } : NamedLock ι).acquireLocked c n = some r
      ∧ (s.move c r).Inv := by
  obtain ⟨g', hrel, hg'⟩ := hg.release (c := c) rfl
  have hnamed : ({ s.lock with globalExclusiveLock := g, masterLock := ⟨true, []⟩ }
      : NamedLock ι).Named s.phase := h.named.congr (fun _ => Or.inl rfl) rfl rfl rfl rfl
  obtain ⟨s₁, k, l, acquired, hs₁, hcnt, hl, hmove⟩ := hnamed.acquire hplain n
  let p : LockPhase := if acquired then .holding n else .acquireNamed n k
  let s₂ : NamedLock ι := { s₁ with
    masterLock := .new, globalExclusiveLock := g', locks := Function.update s₁.locks k l }
  have hp : ¬ p.OwnsGlobal ∧ ¬ p.WaitsGlobal ∧ ∀ m, p ≠ .acquireMaster m ∧ p ≠ .releaseMaster m := by
    simp only [p, LockPhase.OwnsGlobal, LockPhase.WaitsGlobal]
    split <;> simp
  refine ⟨(s₂, p), ?_, h.move rfl hp.2.2 hg' ?_ ?_ ?_ ?_ (hmove s₂ rfl rfl rfl rfl) (NamedLock.signals_of_nil ?_ fun x => ?_)⟩
  · unfold NamedLock.acquireLocked NamedLock.acquireCounted
    simp only [h.master, Lock.acquire_new, hs₁, Option.bind_eq_bind, Option.bind_some, hcnt.master,
      hcnt.global, Lock.release_taken, hrel, hl, Option.pure_def]
    rfl
  · exact iff_of_false hp.1 fun he => he.2 rfl
  · exact fun x hx => iff_of_false (hno x) fun he => hx he.1
  · exact iff_of_false hp.2.1 fun he => he.2 rfl
  · exact fun x hx => (and_iff_left hx).symm
  · show s₁.allNamedLocksReleasedEvent.waiters = []
    rw [hcnt.event]
    exact h.signals.waiters_eq_nil hno
  · by_cases hx : x = c
    · rw [hx, Function.update_self]
      exact hp.1
    · rw [Function.update_of_ne hx]
      exact hno x

/-- A task that got the global lock in `global_exclusive_lock` keeps it, and waits for
the named locks. -/
theorem Inv.enterExclusive (h : s.Inv) (hplain : (s.phase c).IsPlain) {g : Lock ι}
    (hg : g.Serves (fun x => x = c) (fun x => (s.phase x).WaitsGlobal ∧ x ≠ c))
    (hno : ∀ x, ¬ (s.phase x).OwnsGlobal) :
    (s.move c (({ s.lock with globalExclusiveLock := g } : NamedLock ι).enterExclusive c)).Inv := by
  have hnil := h.signals.waiters_eq_nil hno
  have hinv : ∀ (e : Event ι) (p : LockPhase), p.OwnsGlobal →
      ({ s.lock with globalExclusiveLock := g, allNamedLocksReleasedEvent := e }
        : NamedLock ι).Signals (Function.update s.phase c p) →
      (s.move c ({ s.lock with globalExclusiveLock := g, allNamedLocksReleasedEvent := e }, p)).Inv := by
    intro e p hp hsig
    have hpw : ¬ p.WaitsGlobal := by
      rcases hp with rfl | rfl <;> simp [LockPhase.WaitsGlobal]
    have hpp : p.IsPlain := by
      rcases hp with rfl | rfl <;> simp [LockPhase.IsPlain, LockPhase.Uses]
    refine h.move h.master (fun m => ?_) hg (iff_of_true hp rfl)
      (fun x hx => iff_of_false (hno x) hx) (iff_of_false hpw fun he => he.2 rfl)
      (fun x hx => (and_iff_left hx).symm) (h.named.move hpp hplain rfl rfl rfl rfl) hsig
    rcases hp with rfl | rfl <;> simp
  have hevent : ∀ x, x ≠ c → s.phase x ≠ .exclusiveEvent := fun x _ hx => hno x (Or.inl hx)
  unfold NamedLock.enterExclusive
  split
  · rename_i hkeys
    refine hinv s.lock.allNamedLocksReleasedEvent .exclusive (Or.inr rfl) ⟨?_, fun x => ?_, ?_, ?_, ?_⟩
    · simp [hnil]
    · rw [hnil]
      by_cases hx : x = c
      · simp [hx]
      · rw [Function.update_of_ne hx]
        exact iff_of_false List.not_mem_nil (hevent x hx)
    · simp [hnil]
    · simp [hnil]
    · exact fun _ _ => hkeys
  · rename_i hkeys
    have hwait : s.lock.allNamedLocksReleasedEvent.clear.wait c = (⟨false, [(c, .pending)]⟩, false) := by
      simp [Event.wait, Event.clear, hnil]
    simp only [hwait]
    refine hinv ⟨false, [(c, .pending)]⟩ .exclusiveEvent (Or.inl rfl)
      ⟨fun he => (by cases he), fun x => ?_, fun _ _ _ => hkeys, fun p hp hwoken => ?_, fun x hx => ?_⟩
    · by_cases hx : x = c
      · simp [hx]
      · rw [Function.update_of_ne hx]
        exact iff_of_false (fun hm => hx (List.mem_singleton.mp hm)) (hevent x hx)
    · rw [List.mem_singleton.mp hp] at hwoken
      exact absurd hwoken Wake.not_isWoken_pending
    · by_cases hxc : x = c
      · rw [hxc, Function.update_self] at hx
        cases hx
      · rw [Function.update_of_ne hxc] at hx
        exact absurd (Or.inr hx) (hno x)

/-- A task gives back the global lock. Its future at the event goes, if there is one. -/
theorem Inv.releaseGlobal (h : s.Inv) (hc : (s.phase c).OwnsGlobal) {e : Event ι}
    (he : e.waiters = s.lock.allNamedLocksReleasedEvent.waiters.remove c) :
    ∃ r, ({ s.lock with allNamedLocksReleasedEvent := e } : NamedLock ι).releaseGlobal = some r
      ∧ (s.move c r).Inv := by
  obtain ⟨g, hrel, hg⟩ := h.global.release hc
  have huniq : ∀ x, (s.phase x).OwnsGlobal → x = c := fun x hx => h.global.unique x c hx hc
  have hnow : ¬ (s.phase c).WaitsGlobal := by
    rcases hc with he | he <;> rw [he] <;> simp [LockPhase.WaitsGlobal]
  have hplain : (s.phase c).IsPlain := by
    rcases hc with he | he <;> rw [he] <;> simp [LockPhase.IsPlain, LockPhase.Uses]
  have hidle : ¬ LockPhase.idle.OwnsGlobal ∧ ¬ LockPhase.idle.WaitsGlobal ∧ LockPhase.idle.IsPlain := by
    simp [LockPhase.OwnsGlobal, LockPhase.WaitsGlobal, LockPhase.IsPlain, LockPhase.Uses]
  refine ⟨({ s.lock with allNamedLocksReleasedEvent := e, globalExclusiveLock := g }, .idle), ?_,
    h.move h.master (by simp) hg (iff_of_false hidle.1 fun he => he.2 rfl)
      (fun x hx => (and_iff_left hx).symm) (iff_of_false hidle.2.1 hnow) (fun _ _ => Iff.rfl)
      (h.named.move hidle.2.2 hplain rfl rfl rfl rfl) (NamedLock.signals_of_nil ?_ fun x hx => ?_)⟩
  · unfold NamedLock.releaseGlobal
    simp only [hrel, Option.bind_eq_bind, Option.bind_some, Option.pure_def]
  · show e.waiters = []
    rw [he, List.eq_nil_iff_forall_not_mem]
    intro p hp
    obtain ⟨hp, hne⟩ := List.mem_filter.mp hp
    have hphase := (h.signals.waiting p.1).mp (List.mem_map_of_mem hp)
    exact of_decide_eq_true hne (huniq p.1 (Or.inl hphase))
  · by_cases hxc : x = c
    · rw [hxc, Function.update_self] at hx
      exact hidle.1 hx
    · rw [Function.update_of_ne hxc] at hx
      exact hxc (huniq x hx)

/-- A task releases the lock of a name. The last one signals it. -/
theorem Inv.release (h : s.Inv) (hc : s.phase c = .holding n) :
    ∃ r, s.lock.release c n = some r ∧ (s.move c r).Inv := by
  obtain ⟨k, l, v, hk, hl, hv, hmove⟩ := h.named.release hc
  have hnot : ¬ (s.phase c).OwnsGlobal ∧ ¬ (s.phase c).WaitsGlobal := by
    rw [hc]
    simp [LockPhase.OwnsGlobal, LockPhase.WaitsGlobal]
  have hidle : ¬ LockPhase.idle.OwnsGlobal ∧ ¬ LockPhase.idle.WaitsGlobal := by
    simp [LockPhase.OwnsGlobal, LockPhase.WaitsGlobal]
  have hkeys₀ : s.lock.namedLocks.keys ≠ [] := fun hnil =>
    NamedLock.keys_eq_nil_iff.mp hnil n (h.named.mem (Or.inl hc))
  have hex : ∀ x, s.phase x ≠ .exclusive := fun x hx => hkeys₀ (h.signals.exclusive x hx)
  -- the state the release leads to, whether the entry goes or not
  have hinv : ∀ s₁ : NamedLock ι, s₁.masterLock = .new →
      s₁.globalExclusiveLock = s.lock.globalExclusiveLock →
      s₁.Named (Function.update s.phase c .idle) →
      s₁.allNamedLocksReleasedEvent = (if s₁.namedLocks.keys = [] then
        s.lock.allNamedLocksReleasedEvent.set else s.lock.allNamedLocksReleasedEvent) →
      (s.move c (s₁, .idle)).Inv := by
    intro s₁ hm hg hn he
    have hwaiting : ∀ x, x ∈ s.lock.allNamedLocksReleasedEvent.waiters.map Prod.fst ↔
        Function.update s.phase c .idle x = .exclusiveEvent := fun x => by
      rw [h.signals.waiting]
      by_cases hx : x = c
      · rw [hx, Function.update_self, hc]
        exact iff_of_false (fun he => by cases he) fun he => by cases he
      · rw [Function.update_of_ne hx]
    have hexcl : ∀ x, Function.update s.phase c .idle x ≠ .exclusive := fun x hx => by
      by_cases hxc : x = c
      · rw [hxc, Function.update_self] at hx
        cases hx
      · rw [Function.update_of_ne hxc] at hx
        exact hex x hx
    refine h.move hm (by simp) (hg ▸ h.global) (iff_of_false hidle.1 hnot.1) (fun _ _ => Iff.rfl)
      (iff_of_false hidle.2 hnot.2) (fun _ _ => Iff.rfl) hn ?_
    by_cases hkeys : s₁.namedLocks.keys = []
    · rw [if_pos hkeys] at he
      obtain ⟨hfst, hset⟩ := Event.set_spec h.signals.value
      refine ⟨fun _ => he ▸ hset, fun x => ?_, fun p hp hpend => ?_, fun _ _ _ => hkeys,
        fun x hx => absurd hx (hexcl x)⟩
      · rw [he, hfst]
        exact hwaiting x
      · exact absurd hpend (hset p (he ▸ hp))
    · rw [if_neg hkeys] at he
      refine ⟨he ▸ h.signals.value, fun x => ?_, fun _ _ _ => hkeys, fun p hp hwoken => ?_,
        fun x hx => absurd hx (hexcl x)⟩
      · rw [he]
        exact hwaiting x
      · exact absurd (h.signals.woken p (he ▸ hp) hwoken) hkeys₀
  unfold NamedLock.release NamedLock.releaseLocked
  simp only [h.master, Lock.acquire_new, hk, hl, hv, Option.bind_eq_bind, Option.bind_some,
    Option.pure_def]
  by_cases hle : v - 1 ≤ 0
  · simp only [hle, if_true] at hmove ⊢
    by_cases hkeys : (s.lock.namedLocks.del n).keys = []
    · simp only [hkeys, if_true, Lock.release_taken, Option.bind_some]
      exact ⟨_, rfl, hinv _ rfl rfl (hmove _ rfl rfl rfl rfl) (if_pos hkeys).symm⟩
    · simp only [hkeys, if_false, Lock.release_taken, Option.bind_some]
      exact ⟨_, rfl, hinv _ rfl rfl (hmove _ rfl rfl rfl rfl) (if_neg hkeys).symm⟩
  · simp only [hle, if_false, hkeys₀, Lock.release_taken, Option.bind_some] at hmove ⊢
    exact ⟨_, rfl, hinv _ rfl rfl (hmove _ rfl rfl rfl rfl) (if_neg hkeys₀).symm⟩

end LockTasks

/-- What is expected of the named locks. -/
structure LockTasks.Safe (s : LockTasks ι) : Prop where
  mutex : ∀ n c c', s.phase c = .holding n → s.phase c' = .holding n → c = c'
  exclusive : ∀ c, s.phase c = .exclusive → ∀ n c', s.phase c' ≠ .holding n
  counter : ∀ n, {c | (s.phase c).Uses n}.encard = (s.lock.namedLocksCounters.getD n 0 : ℕ)
  entry : ∀ n, (∀ c, ¬ (s.phase c).Uses n) →
    n ∉ s.lock.namedLocks ∧ n ∉ s.lock.namedLocksCounters
  /-- Without named locks, nobody waits for them in `global_exclusive_lock`. -/
  granted : (∀ n c, ¬ (s.phase c).Uses n) → ∀ c,
    (s.phase c = .exclusiveEvent → ∃ s', s.step (.resume c) = some s')
    ∧ (s.phase c = .exclusiveGlobal → s.lock.globalExclusiveLock.waiters.future? c = some .woken →
      ∃ s', s.step (.resume c) = some s' ∧ s'.phase c = .exclusive)
    ∧ (s.phase c = .idle → (∀ c', ¬ (s.phase c').OwnsGlobal ∧ ¬ (s.phase c').WaitsGlobal) →
      ∃ s', s.step (.globalExclusive c) = some s' ∧ s'.phase c = .exclusive)
  /-- The global lock is passed on. -/
  passed : (∀ c, ¬ (s.phase c).OwnsGlobal) → (∃ c, (s.phase c).WaitsGlobal) →
    ∃ c s', (s.phase c).WaitsGlobal ∧ s.step (.resume c) = some s'

/-- No task runs into its cancellation while it waits for a named lock. -/
def LockTasks.NotCancelled (s : LockTasks ι) : LockAction ι → Prop
  | .resume c => ∀ n k, s.phase c = .acquireNamed n k →
      (s.lock.locks k).waiters.future? c ≠ some .cancelled
        ∧ (s.lock.locks k).waiters.future? c ≠ some .wokenCancelled
  | _ => True

instance (s : LockTasks ι) : DecidablePred s.NotCancelled
  | .resume c => decidable_of_iff ((match s.phase c with
      | .acquireNamed _ k => decide ((s.lock.locks k).waiters.future? c ≠ some .cancelled
          ∧ (s.lock.locks k).waiters.future? c ≠ some .wokenCancelled)
      | _ => true) = true) (by
        unfold LockTasks.NotCancelled
        cases hp : s.phase c <;> simp [hp])
  | .acquire _ _ | .release _ | .globalExclusive _ | .leave _ | .cancel _ =>
      inferInstanceAs (Decidable True)

namespace LockTasks

variable {s s' : LockTasks ι} {a : LockAction ι} {c : ι}

/-- A task that waits for the global lock gets it, or stands in line. -/
theorem Inv.acquireGlobal (h : s.Inv) (hc : s.phase c = .idle) :
    (∃ g, s.lock.globalExclusiveLock.acquire c = (g, true)
      ∧ g.Serves (fun x => x = c) (fun x => (s.phase x).WaitsGlobal ∧ x ≠ c)
      ∧ ∀ x, ¬ (s.phase x).OwnsGlobal)
    ∨ ∃ g, s.lock.globalExclusiveLock.acquire c = (g, false) ∧ ∀ p : LockPhase, p.WaitsGlobal →
      (s.move c ({ s.lock with globalExclusiveLock := g }, p)).Inv := by
  have hidle : ¬ LockPhase.idle.OwnsGlobal ∧ ¬ LockPhase.idle.WaitsGlobal ∧ LockPhase.idle.IsPlain := by
    simp [LockPhase.OwnsGlobal, LockPhase.WaitsGlobal, LockPhase.IsPlain, LockPhase.Uses]
  have hnw : ¬ (s.phase c).WaitsGlobal := by
    rw [hc]
    exact hidle.2.1
  obtain ⟨g, hg, hno, hs⟩ | ⟨g, hg, hs⟩ := h.global.acquire (c := c) hnw
  · refine Or.inl ⟨g, hg, hs.congr (fun _ => Iff.rfl) fun x => ?_, hno⟩
    exact and_iff_left_of_imp fun hx he => hnw (he ▸ hx)
  · refine Or.inr ⟨g, hg, fun p hp => ?_⟩
    have hpo : ¬ p.OwnsGlobal := by
      rcases hp with rfl | ⟨n, rfl⟩ <;> simp [LockPhase.OwnsGlobal]
    have hpp : p.IsPlain := by
      rcases hp with rfl | ⟨n, rfl⟩ <;> simp [LockPhase.IsPlain, LockPhase.Uses]
    refine h.move h.master (fun m => ?_) hs (iff_of_false hpo (hc ▸ hidle.1)) (fun _ _ => Iff.rfl)
      (iff_of_true hp (Or.inr rfl)) (fun x hx => (or_iff_left hx).symm)
      (h.named.move hpp (hc ▸ hidle.2.2) rfl rfl rfl rfl) ?_
    · rcases hp with rfl | ⟨n, rfl⟩ <;> simp
    · refine h.signals.move ?_ ?_ hpo (hc ▸ hidle.1) <;> rfl

/-- A task that stands in line for the global lock runs again. -/
theorem Inv.resumeGlobal (h : s.Inv) (hc : (s.phase c).WaitsGlobal) {g : Lock ι} {acquired : Bool}
    (hg : s.lock.globalExclusiveLock.resume c = some (g, acquired)) :
    if acquired then g.Serves (fun x => x = c) (fun x => (s.phase x).WaitsGlobal ∧ x ≠ c)
        ∧ ∀ x, ¬ (s.phase x).OwnsGlobal
      else (s.move c ({ s.lock with globalExclusiveLock := g }, .idle)).Inv := by
  have hres := h.global.resume hg
  cases acquired with
  | true =>
      rw [if_pos rfl] at hres ⊢
      exact ⟨hres.2.2, hres.2.1⟩
  | false =>
      rw [if_neg Bool.false_ne_true] at hres ⊢
      have hno : ¬ (s.phase c).OwnsGlobal ∧ (s.phase c).IsPlain := by
        rcases hc with he | ⟨n, he⟩ <;> rw [he] <;>
          simp [LockPhase.OwnsGlobal, LockPhase.IsPlain, LockPhase.Uses]
      refine h.move h.master (by simp) hres
        (iff_of_false (by simp [LockPhase.OwnsGlobal]) hno.1) (fun _ _ => Iff.rfl)
        (iff_of_false (by simp [LockPhase.WaitsGlobal]) fun he => he.2 rfl)
        (fun x hx => (and_iff_left hx).symm)
        (h.named.move (by simp [LockPhase.IsPlain, LockPhase.Uses]) hno.2 rfl rfl rfl rfl) ?_
      refine h.signals.move ?_ ?_ (by simp [LockPhase.OwnsGlobal]) hno.1 <;> rfl

/-- The task that waited for the event is exclusive. -/
theorem Inv.enteredExclusive (h : s.Inv) (hc : s.phase c = .exclusiveEvent)
    (hw : s.lock.allNamedLocksReleasedEvent.waiters.future? c = some .woken) :
    (s.move c ({ s.lock with allNamedLocksReleasedEvent := { s.lock.allNamedLocksReleasedEvent with
        waiters := s.lock.allNamedLocksReleasedEvent.waiters.remove c } }, .exclusive)).Inv := by
  have hsub : ∀ p ∈ s.lock.allNamedLocksReleasedEvent.waiters.remove c,
      p ∈ s.lock.allNamedLocksReleasedEvent.waiters := fun p hp => List.mem_of_mem_filter hp
  have hkeys := h.signals.woken _ (Waiters.mem_of_future? hw) (Or.inl rfl)
  have hown : (s.phase c).OwnsGlobal := Or.inl hc
  have hno : ¬ (s.phase c).WaitsGlobal ∧ (s.phase c).IsPlain := by
    rw [hc]
    simp [LockPhase.WaitsGlobal, LockPhase.IsPlain, LockPhase.Uses]
  refine h.move h.master (by simp) h.global (iff_of_true (Or.inr rfl) hown) (fun _ _ => Iff.rfl)
    (iff_of_false (by simp [LockPhase.WaitsGlobal]) hno.1) (fun _ _ => Iff.rfl)
    (h.named.move (by simp [LockPhase.IsPlain, LockPhase.Uses]) hno.2 rfl rfl rfl rfl)
    ⟨fun hv p hp => h.signals.value hv p (hsub p hp), fun x => ?_,
      fun p hp => h.signals.pending p (hsub p hp), fun p hp => h.signals.woken p (hsub p hp),
      fun x hx => ?_⟩
  · refine Waiters.mem_remove.trans ?_
    by_cases hx : x = c
    · rw [hx, Function.update_self]
      exact iff_of_false (fun he => he.2 rfl) fun he => by cases he
    · rw [Function.update_of_ne hx, h.signals.waiting]
      exact and_iff_left hx
  · exact hkeys

/-- A task that is cancelled is told so by what it waits for. -/
theorem Inv.cancel (h : s.Inv) {lock : NamedLock ι} (hl : s.lock.cancel c (s.phase c) = some lock) :
    ({ s with lock } : LockTasks ι).Inv := by
  have hglobal : ({ s with lock := { s.lock with
      globalExclusiveLock := s.lock.globalExclusiveLock.cancel c } } : LockTasks ι).Inv :=
    ⟨h.master, h.noMaster, h.global.cancel c, h.named.congr (fun _ => Or.inl rfl) rfl rfl rfl rfl,
      h.signals.congr rfl rfl fun _ => Or.inl rfl⟩
  cases hp : s.phase c with
  | acquireGlobal name =>
      rw [hp] at hl
      obtain rfl := Option.some.inj hl
      exact hglobal
  | exclusiveGlobal =>
      rw [hp] at hl
      obtain rfl := Option.some.inj hl
      exact hglobal
  | acquireMaster name => exact absurd hp (h.noMaster c name).1
  | releaseMaster name => exact absurd hp (h.noMaster c name).2
  | acquireNamed name k =>
      rw [hp] at hl
      obtain rfl := Option.some.inj hl
      exact ⟨h.master, h.noMaster, h.global, h.named.cancel k c,
        h.signals.congr rfl rfl fun _ => Or.inl rfl⟩
  | exclusiveEvent =>
      rw [hp] at hl
      obtain rfl := Option.some.inj hl
      exact ⟨h.master, h.noMaster, h.global,
        h.named.congr (fun _ => Or.inl rfl) rfl rfl rfl rfl, h.signals.cancel c⟩
  | idle => rw [hp] at hl; cases hl
  | holding name => rw [hp] at hl; cases hl
  | exclusive => rw [hp] at hl; cases hl

/-- A task has the lock of the name that it waited for. -/
theorem Inv.granted (h : s.Inv) {k : ℕ} {l : Lock ι} (hp : s.phase c = .acquireNamed name k)
    (hl : (s.lock.locks k).resume c = some (l, true)) :
    (s.move c ({ s.lock with locks := Function.update s.lock.locks k l }, .holding name)).Inv := by
  have hno : ¬ (s.phase c).OwnsGlobal ∧ ¬ (s.phase c).WaitsGlobal := by
    rw [hp]
    simp [LockPhase.OwnsGlobal, LockPhase.WaitsGlobal]
  have hno' : ¬ (LockPhase.holding name).OwnsGlobal ∧ ¬ (LockPhase.holding name).WaitsGlobal := by
    simp [LockPhase.OwnsGlobal, LockPhase.WaitsGlobal]
  refine h.move h.master (by simp) h.global (iff_of_false hno'.1 hno.1) (fun _ _ => Iff.rfl)
    (iff_of_false hno'.2 hno.2) (fun _ _ => Iff.rfl) (h.named.granted hp hl rfl rfl rfl rfl) ?_
  refine h.signals.move ?_ ?_ hno'.1 hno.1 <;> rfl

/-- A task goes on that waited, and was not cancelled while it waited for the lock of a name. -/
theorem Inv.resume (h : s.Inv) (hgood : s.NotCancelled (.resume c)) {r : NamedLock ι × LockPhase}
    (hr : s.lock.resume c (s.phase c) = some r) : (s.move c r).Inv := by
  cases hp : s.phase c with
  | acquireGlobal name =>
      rw [hp, NamedLock.resume] at hr
      obtain ⟨⟨g, acquired⟩, hg, hr⟩ := Option.bind_eq_some_iff.mp hr
      have hres := h.resumeGlobal (Or.inr ⟨name, hp⟩) hg
      cases acquired with
      | true =>
          obtain ⟨r', hr', hinv⟩ :=
            h.acquireLocked (hp ▸ LockPhase.isPlain_acquireGlobal name) hres.1 hres.2 name
          obtain rfl := Option.some.inj (hr'.symm.trans hr)
          exact hinv
      | false =>
          obtain rfl := Option.some.inj hr
          exact hres
  | exclusiveGlobal =>
      rw [hp, NamedLock.resume] at hr
      obtain ⟨⟨g, acquired⟩, hg, hr⟩ := Option.bind_eq_some_iff.mp hr
      have hres := h.resumeGlobal (Or.inl hp) hg
      obtain rfl := Option.some.inj hr
      cases acquired with
      | true => exact h.enterExclusive (hp ▸ LockPhase.isPlain_exclusiveGlobal) hres.1 hres.2
      | false => exact hres
  | acquireMaster name => exact absurd hp (h.noMaster c name).1
  | releaseMaster name => exact absurd hp (h.noMaster c name).2
  | acquireNamed name k =>
      rw [hp, NamedLock.resume] at hr
      obtain ⟨⟨l, acquired⟩, hl, hr⟩ := Option.bind_eq_some_iff.mp hr
      obtain rfl := Option.some.inj hr
      have hacq : acquired = true := by
        obtain ⟨hnc, hnwc⟩ := hgood name k hp
        rw [Lock.resume] at hl
        split at hl
        · cases hl
        · cases hl
        · exact (Prod.mk.inj (Option.some.inj hl)).2.symm
        · exact absurd ‹_› hnc
        · exact absurd ‹_› hnwc
      subst hacq
      exact h.granted hp hl
  | exclusiveEvent =>
      rw [hp, NamedLock.resume] at hr
      obtain ⟨⟨e, released⟩, he, hr⟩ := Option.bind_eq_some_iff.mp hr
      obtain ⟨rfl, hwoken⟩ := Event.resume_spec he
      cases released with
      | true =>
          obtain rfl := Option.some.inj hr
          exact h.enteredExclusive hp (hwoken rfl)
      | false =>
          obtain ⟨r', hr', hinv⟩ := h.releaseGlobal (Or.inl hp)
            (e := { s.lock.allNamedLocksReleasedEvent with
              waiters := s.lock.allNamedLocksReleasedEvent.waiters.remove c }) rfl
          obtain rfl := Option.some.inj (hr'.symm.trans hr)
          exact hinv
  | idle => rw [hp] at hr; cases hr
  | holding name => rw [hp] at hr; cases hr
  | exclusive => rw [hp] at hr; cases hr

/-- A step keeps the invariant, unless a task runs into its cancellation while it
waits for a named lock. -/
theorem Inv.step (h : s.Inv) (hgood : s.NotCancelled a) (hs : s.step a = some s') : s'.Inv := by
  cases a with
  | acquire c name =>
      rw [LockTasks.step] at hs
      split at hs
      · rename_i hc
        obtain ⟨r, hr, rfl⟩ := Option.map_eq_some_iff.mp hs
        rw [NamedLock.acquire] at hr
        obtain ⟨g, hg, hserves, hno⟩ | ⟨g, hg, hinv⟩ := h.acquireGlobal hc
        · rw [hg] at hr
          obtain ⟨r', hr', hinv⟩ := h.acquireLocked (hc ▸ LockPhase.isPlain_idle) hserves hno name
          obtain rfl := Option.some.inj (hr'.symm.trans hr)
          exact hinv
        · rw [hg] at hr
          obtain rfl := Option.some.inj hr
          exact hinv _ (Or.inr ⟨name, rfl⟩)
      · cases hs
  | release c =>
      rw [LockTasks.step] at hs
      split at hs
      · rename_i name hc
        obtain ⟨r, hr, rfl⟩ := Option.map_eq_some_iff.mp hs
        obtain ⟨r', hr', hinv⟩ := h.release hc
        obtain rfl := Option.some.inj (hr'.symm.trans hr)
        exact hinv
      · cases hs
  | globalExclusive c =>
      rw [LockTasks.step] at hs
      split at hs
      · rename_i hc
        obtain rfl := Option.some.inj hs
        rw [NamedLock.globalExclusive]
        obtain ⟨g, hg, hserves, hno⟩ | ⟨g, hg, hinv⟩ := h.acquireGlobal hc
        · rw [hg]
          exact h.enterExclusive (hc ▸ LockPhase.isPlain_idle) hserves hno
        · rw [hg]
          exact hinv _ (Or.inl rfl)
      · cases hs
  | leave c =>
      rw [LockTasks.step] at hs
      split at hs
      · rename_i hc
        obtain ⟨r, hr, rfl⟩ := Option.map_eq_some_iff.mp hs
        have hnone : s.lock.allNamedLocksReleasedEvent.waiters.remove c
            = s.lock.allNamedLocksReleasedEvent.waiters := by
          refine List.filter_eq_self.mpr fun p hp => decide_eq_true fun he => ?_
          have hwait := (h.signals.waiting p.1).mp (List.mem_map_of_mem hp)
          rw [he, hc] at hwait
          cases hwait
        obtain ⟨r', hr', hinv⟩ := h.releaseGlobal (Or.inr hc) hnone.symm
        obtain rfl := Option.some.inj (hr'.symm.trans hr)
        exact hinv
      · cases hs
  | cancel c =>
      obtain ⟨lock, hl, rfl⟩ := Option.map_eq_some_iff.mp hs
      exact h.cancel hl
  | resume c =>
      obtain ⟨r, hr, rfl⟩ := Option.map_eq_some_iff.mp hs
      exact h.resume hgood hr

/-! ## Safety -/

theorem Inv.safe (h : s.Inv) : s.Safe where
  mutex := fun n x x' hx hx' => by
    obtain ⟨k, hk⟩ := Dict.mem_iff.mp (h.named.mem (Or.inl hx))
    exact (h.named.lock n k hk).2.unique x x' hx hx'
  exclusive := fun x hx n x' hx' =>
    NamedLock.keys_eq_nil_iff.mp (h.signals.exclusive x hx) n (h.named.mem (Or.inl hx'))
  counter := h.named.counter
  entry := fun n hno => ⟨h.named.not_mem hno, fun hm => h.named.not_mem hno ((h.named.counted n).mp hm)⟩
  granted := fun hno x => by
    have hkeys : s.lock.namedLocks.keys = [] :=
      NamedLock.keys_eq_nil_iff.mpr fun n => h.named.not_mem (hno n)
    have henter : ∀ lock : NamedLock ι, lock.namedLocks = s.lock.namedLocks →
        (s.move x (lock.enterExclusive x)).phase x = .exclusive := fun lock hl => by
      rw [NamedLock.enterExclusive, if_pos (by rw [hl, hkeys])]
      exact Function.update_self _ _ _
    refine ⟨fun hx => ?_, fun hx hw => ?_, fun hx hfree => ?_⟩
    · obtain ⟨w, hw⟩ := Waiters.exists_future?.mpr ((h.signals.waiting x).mpr hx)
      have hne : w ≠ .pending := fun he =>
        h.signals.pending _ (Waiters.mem_of_future? hw) he hkeys
      obtain ⟨⟨e, released⟩, he⟩ := Event.exists_resume hw hne
      obtain ⟨rfl, -⟩ := Event.resume_spec he
      rw [LockTasks.step, hx, NamedLock.resume, he]
      cases released with
      | true => exact ⟨_, rfl⟩
      | false =>
          obtain ⟨r, hr, -⟩ := h.releaseGlobal (Or.inl hx)
            (e := { s.lock.allNamedLocksReleasedEvent with
              waiters := s.lock.allNamedLocksReleasedEvent.waiters.remove x }) rfl
          exact ⟨s.move x r, congrArg (Option.map (s.move x)) hr⟩
    · obtain ⟨⟨g, acquired⟩, hg, hacq⟩ := Lock.exists_resume hw (by decide)
      obtain rfl : acquired = true := hacq rfl
      rw [LockTasks.step, hx, NamedLock.resume, hg]
      exact ⟨_, rfl, henter _ rfl⟩
    · obtain ⟨g, hg⟩ := h.global.acquire_of_unused (fun y => (hfree y).1) (fun y => (hfree y).2) x
      rw [LockTasks.step, if_pos hx, NamedLock.globalExclusive, hg]
      exact ⟨_, rfl, henter _ rfl⟩
  passed := fun hfree ⟨x, hx⟩ => by
    obtain ⟨y, w, hy, hw, hne⟩ := h.global.exists_done hfree hx
    obtain ⟨⟨g, acquired⟩, hg, -⟩ := Lock.exists_resume hw hne
    have hres := h.resumeGlobal hy hg
    refine ⟨y, ?_⟩
    rcases id hy with hp | ⟨n, hp⟩
    · rw [LockTasks.step, hp, NamedLock.resume, hg]
      exact ⟨_, Or.inl rfl, rfl⟩
    · have hplain : (s.phase y).IsPlain := by
        rw [hp]
        simp [LockPhase.IsPlain, LockPhase.Uses]
      rw [LockTasks.step, hp, NamedLock.resume, hg]
      cases acquired with
      | true =>
          obtain ⟨r, hr, -⟩ := h.acquireLocked hplain hres.1 hres.2 n
          exact ⟨s.move y r, Or.inr ⟨n, rfl⟩, congrArg (Option.map (s.move y)) hr⟩
      | false => exact ⟨_, Or.inr ⟨n, rfl⟩, rfl⟩

/-- A task that runs into its cancellation stays counted. -/
theorem Inv.not_safe (h : s.Inv) (hbad : ¬ s.NotCancelled a) (hs : s.step a = some s') :
    ¬ s'.Safe := by
  cases a with
  | resume c =>
      intro hsafe
      refine hbad fun n k hp => ?_
      rw [LockTasks.step, hp, NamedLock.resume] at hs
      obtain ⟨r, hr, rfl⟩ := Option.map_eq_some_iff.mp hs
      obtain ⟨⟨l, acquired⟩, hl, hr⟩ := Option.bind_eq_some_iff.mp hr
      obtain rfl := Option.some.inj hr
      have hacq : acquired = true := by
        by_contra hno
        rw [Bool.not_eq_true] at hno
        subst hno
        have hu : (s.phase c).Uses n := Or.inr ⟨k, hp⟩
        have hidle : ¬ LockPhase.idle.Uses n := by simp [LockPhase.Uses]
        have hleave := NamedLock.encard_uses_leave hidle hu
        have hafter := hsafe.counter n
        change {x | (Function.update s.phase c .idle x).Uses n}.encard
          = (s.lock.namedLocksCounters.getD n 0 : ℕ) at hafter
        rw [hafter, h.named.counter] at hleave
        exact absurd (by exact_mod_cast hleave) (Nat.succ_ne_self _)
      subst hacq
      rw [Lock.resume] at hl
      split at hl
      · cases hl
      · cases hl
      · rename_i hw
        rw [hw]
        exact ⟨by decide, by decide⟩
      · cases hl
      · cases hl
  | _ => exact absurd trivial hbad

/-- Two tasks use the lock of a name one after the other, and a third one excludes
them. -/
def shareLock : List (LockAction (Fin 3)) :=
  [.acquire 0 "a", .acquire 1 "a", .globalExclusive 2, .release 0, .resume 1, .release 1, .resume 2,
    .leave 2]

/-- The second task is cancelled while it waits. -/
def cancelWaiting : List (LockAction (Fin 3)) :=
  [.acquire 0 "a", .acquire 1 "a", .cancel 1, .resume 1, .release 0, .globalExclusive 2]


end LockTasks

end Invariant

namespace LockTasks

/-- **Named locks are safe** in every state of a run of any length, with any number of
tasks, just when no task of the run is cancelled while it waits for the lock of a
name. -/
theorem named_lock_safe_iff {ι : Type} [DecidableEq ι] {as : List (LockAction ι)} {s : LockTasks ι}
    (hrun : run step init as = some s) :
    Always step Safe init as ↔ Along step NotCancelled init as :=
  always_iff_along_of_strengthening (I := Inv) (fun _ h => h.safe)
    (fun _ _ _ h hgood hs => h.step hgood hs) (fun _ _ _ h hbad hs => h.not_safe hbad hs)
    .init hrun

theorem named_lock_safe_iff_shareLock : Always step Safe init shareLock := by
  obtain ⟨s, hrun, -⟩ := exists_run_of_any step init shareLock (p := fun s =>
    s.lock.namedLocks.keys = []) (by decide)
  exact (named_lock_safe_iff hrun).mpr (by decide)

/-- The entry of the name stays when nobody uses it any more, and the task that wants
the global lock waits for ever. -/
theorem cancelWaiting_stuck : ∃ s, run step init cancelWaiting = some s
    ∧ (∀ c, s.phase c = .idle ∨ s.phase c = .exclusiveEvent)
    ∧ (s.step (.resume 2)).isNone = true ∧ ¬ s.Safe := by
  obtain ⟨s, hrun, hphase, hmem, hstep⟩ := exists_run_of_any step init cancelWaiting (p := fun s =>
    (∀ c, s.phase c = .idle ∨ s.phase c = .exclusiveEvent) ∧ "a" ∈ s.lock.namedLocks
      ∧ (s.step (.resume 2)).isNone = true) (by decide)
  refine ⟨s, hrun, hphase, hstep, fun hsafe => (hsafe.entry "a" fun c hu => ?_).1 hmem⟩
  rcases hphase c with hp | hp <;> rw [hp] at hu <;> simp [LockPhase.Uses] at hu

end LockTasks

end Inmanta
