import Inmanta.Util.NamedLock

/-!
# Named locks without cancellations

As long as no task is cancelled while it waits for the lock of a name, a
`NamedLock` keeps its invariant. That is what users of it that cancel
nobody get to know of it: `LockTasks.Calm`, which every other step keeps.
-/

namespace Inmanta

open Asyncio

namespace NamedLock
variable {ι : Type} {s : NamedLock ι} {r : NamedLock ι × LockPhase} {c : ι} {name : String}

/-- No task is cancelled while it waits for the lock of a name. -/
def Uncancelled (s : NamedLock ι) : Prop :=
  ∀ k, (s.locks k).Uncancelled

theorem Uncancelled.update (h : s.Uncancelled) {l : Lock ι} (hl : l.Uncancelled) (k : ℕ) :
    ∀ k', (Function.update s.locks k l k').Uncancelled := fun k' => by
  rw [Function.update_apply]
  split
  · exact hl
  · exact h k'

theorem Uncancelled.releaseGlobal (h : s.Uncancelled) (hr : s.releaseGlobal = some r) :
    r.1.Uncancelled := by
  obtain ⟨g, -, hr⟩ := Option.bind_eq_some_iff.mp hr
  obtain rfl := Option.some.inj hr
  exact h

theorem Uncancelled.count (h : s.Uncancelled) {s' : NamedLock ι} {k : ℕ}
    (hr : s.count name = some (s', k)) : s'.Uncancelled := by
  unfold NamedLock.count at hr
  split at hr
  · obtain ⟨counter, -, hr⟩ := Option.bind_eq_some_iff.mp hr
    obtain ⟨rfl, -⟩ := Prod.mk.inj (Option.some.inj hr)
    exact h
  · obtain ⟨rfl, -⟩ := Prod.mk.inj (Option.some.inj hr)
    exact h.update Lock.uncancelled_new s.next

theorem Uncancelled.releaseLocked (h : s.Uncancelled) (hr : s.releaseLocked name = some r) :
    r.1.Uncancelled := by
  unfold NamedLock.releaseLocked at hr
  obtain ⟨k, -, hr⟩ := Option.bind_eq_some_iff.mp hr
  obtain ⟨l, hl, hr⟩ := Option.bind_eq_some_iff.mp hr
  obtain ⟨counter, -, hr⟩ := Option.bind_eq_some_iff.mp hr
  obtain ⟨m, -, hr⟩ := Option.bind_eq_some_iff.mp hr
  obtain rfl := Option.some.inj hr
  have h' := h.update ((h k).release hl) k
  intro k'
  dsimp only
  split_ifs <;> exact h' k'

theorem Uncancelled.enterExclusive (h : s.Uncancelled) : (s.enterExclusive c).1.Uncancelled := by
  unfold NamedLock.enterExclusive
  split
  · exact h
  · split <;> exact h

theorem Uncancelled.acquireCounted (h : s.Uncancelled) (hr : s.acquireCounted c name = some r) :
    r.1.Uncancelled := by
  unfold NamedLock.acquireCounted at hr
  obtain ⟨⟨s', k⟩, hs', hr⟩ := Option.bind_eq_some_iff.mp hr
  obtain ⟨m, -, hr⟩ := Option.bind_eq_some_iff.mp hr
  obtain ⟨g, -, hr⟩ := Option.bind_eq_some_iff.mp hr
  obtain rfl := Option.some.inj hr
  have h' := h.count hs'
  exact h'.update ((h' k).acquire c) k

theorem Uncancelled.acquireLocked (h : s.Uncancelled) (hr : s.acquireLocked c name = some r) :
    r.1.Uncancelled := by
  unfold NamedLock.acquireLocked at hr
  split at hr
  · next m _ =>
    have h' : { s with masterLock := m }.Uncancelled := h
    exact h'.acquireCounted hr
  · obtain rfl := Option.some.inj hr
    exact h

theorem Uncancelled.acquire (h : s.Uncancelled) (hr : s.acquire c name = some r) :
    r.1.Uncancelled := by
  unfold NamedLock.acquire at hr
  split at hr
  · next g _ =>
    have h' : { s with globalExclusiveLock := g }.Uncancelled := h
    exact h'.acquireLocked hr
  · obtain rfl := Option.some.inj hr
    exact h

theorem Uncancelled.release (h : s.Uncancelled) (hr : s.release c name = some r) :
    r.1.Uncancelled := by
  unfold NamedLock.release at hr
  split at hr
  · next m _ =>
    have h' : { s with masterLock := m }.Uncancelled := h
    exact h'.releaseLocked hr
  · obtain rfl := Option.some.inj hr
    exact h

theorem Uncancelled.globalExclusive (h : s.Uncancelled) :
    (s.globalExclusive c).1.Uncancelled := by
  unfold NamedLock.globalExclusive
  split
  · next g _ =>
    have h' : { s with globalExclusiveLock := g }.Uncancelled := h
    exact h'.enterExclusive
  · exact h

variable [DecidableEq ι]

theorem Uncancelled.resume (h : s.Uncancelled) {phase : LockPhase}
    (hr : s.resume c phase = some r) : r.1.Uncancelled := by
  cases phase with
  | idle => cases hr
  | holding => cases hr
  | exclusive => cases hr
  | acquireGlobal name =>
      obtain ⟨⟨g, acquired⟩, -, hr⟩ := Option.bind_eq_some_iff.mp hr
      have h' : { s with globalExclusiveLock := g }.Uncancelled := h
      cases acquired with
      | true => exact h'.acquireLocked hr
      | false =>
          obtain rfl := Option.some.inj hr
          exact h'
  | acquireMaster name =>
      obtain ⟨⟨m, acquired⟩, -, hr⟩ := Option.bind_eq_some_iff.mp hr
      have h' : { s with masterLock := m }.Uncancelled := h
      cases acquired with
      | true => exact h'.acquireCounted hr
      | false => exact h'.releaseGlobal hr
  | acquireNamed name k =>
      obtain ⟨⟨l, acquired⟩, hl, hr⟩ := Option.bind_eq_some_iff.mp hr
      obtain rfl := Option.some.inj hr
      exact h.update ((h k).resume hl) k
  | releaseMaster name =>
      obtain ⟨⟨m, acquired⟩, -, hr⟩ := Option.bind_eq_some_iff.mp hr
      have h' : { s with masterLock := m }.Uncancelled := h
      cases acquired with
      | true => exact h'.releaseLocked hr
      | false =>
          obtain rfl := Option.some.inj hr
          exact h'
  | exclusiveGlobal =>
      obtain ⟨⟨g, acquired⟩, -, hr⟩ := Option.bind_eq_some_iff.mp hr
      obtain rfl := Option.some.inj hr
      have h' : { s with globalExclusiveLock := g }.Uncancelled := h
      cases acquired with
      | true => exact h'.enterExclusive
      | false => exact h'
  | exclusiveEvent =>
      obtain ⟨⟨e, released⟩, -, hr⟩ := Option.bind_eq_some_iff.mp hr
      have h' : { s with allNamedLocksReleasedEvent := e }.Uncancelled := h
      cases released with
      | true =>
          obtain rfl := Option.some.inj hr
          exact h'
      | false => exact h'.releaseGlobal hr

end NamedLock
/-- The task that takes a step. -/
def LockAction.task {ι : Type} : LockAction ι → ι
  | .acquire c _ | .release c | .globalExclusive c | .leave c | .resume c | .cancel c => c

namespace LockTasks

variable {ι : Type}

/-- The locks work, and no task is cancelled. -/
structure Calm (s : LockTasks ι) : Prop where
  inv : s.Inv
  uncancelled : s.lock.Uncancelled

theorem Calm.init : (init : LockTasks ι).Calm :=
  ⟨.init, fun _ => Lock.uncancelled_new⟩

variable [DecidableEq ι] {s s' : LockTasks ι} {a : LockAction ι}

theorem Calm.notCancelled (h : s.Calm) (a : LockAction ι) : s.NotCancelled a := by
  cases a with
  | resume c => exact fun _ k _ => (h.uncancelled k).future?
  | _ => trivial

theorem uncancelled_step (h : s.lock.Uncancelled) (ha : ∀ c, a ≠ .cancel c)
    (hs : s.step a = some s') : s'.lock.Uncancelled := by
  cases a with
  | acquire c name =>
      simp only [LockTasks.step] at hs
      split at hs
      · obtain ⟨r, hr, rfl⟩ := Option.map_eq_some_iff.mp hs
        exact h.acquire hr
      · cases hs
  | release c =>
      simp only [LockTasks.step] at hs
      split at hs
      · obtain ⟨r, hr, rfl⟩ := Option.map_eq_some_iff.mp hs
        exact h.release hr
      · cases hs
  | globalExclusive c =>
      simp only [LockTasks.step] at hs
      split at hs
      · obtain rfl := Option.some.inj hs
        exact h.globalExclusive
      · cases hs
  | leave c =>
      simp only [LockTasks.step] at hs
      split at hs
      · obtain ⟨r, hr, rfl⟩ := Option.map_eq_some_iff.mp hs
        exact h.releaseGlobal hr
      · cases hs
  | resume c =>
      obtain ⟨r, hr, rfl⟩ := Option.map_eq_some_iff.mp hs
      exact h.resume hr
  | cancel c => exact absurd rfl (ha c)

theorem Calm.step (h : s.Calm) (ha : ∀ c, a ≠ .cancel c) (hs : s.step a = some s') : s'.Calm :=
  ⟨h.inv.step (h.notCancelled a) hs, uncancelled_step h.uncancelled ha hs⟩

/-- A step of one task leaves the others where they are. -/
theorem step_phase (hs : s.step a = some s') {c : ι} (hc : c ≠ a.task) : s'.phase c = s.phase c := by
  have hmove : ∀ {d : ι} {r : NamedLock ι × LockPhase}, c ≠ d → (s.move d r).phase c = s.phase c :=
    fun hd => Function.update_of_ne hd _ _
  cases a with
  | acquire d name =>
      simp only [LockTasks.step] at hs
      split at hs
      · obtain ⟨r, -, rfl⟩ := Option.map_eq_some_iff.mp hs
        exact hmove hc
      · cases hs
  | release d =>
      simp only [LockTasks.step] at hs
      split at hs
      · obtain ⟨r, -, rfl⟩ := Option.map_eq_some_iff.mp hs
        exact hmove hc
      · cases hs
  | globalExclusive d =>
      simp only [LockTasks.step] at hs
      split at hs
      · obtain rfl := Option.some.inj hs
        exact hmove hc
      · cases hs
  | leave d =>
      simp only [LockTasks.step] at hs
      split at hs
      · obtain ⟨r, -, rfl⟩ := Option.map_eq_some_iff.mp hs
        exact hmove hc
      · cases hs
  | resume d =>
      obtain ⟨r, -, rfl⟩ := Option.map_eq_some_iff.mp hs
      exact hmove hc
  | cancel d =>
      obtain ⟨l, -, rfl⟩ := Option.map_eq_some_iff.mp hs
      rfl

end LockTasks

end Inmanta
