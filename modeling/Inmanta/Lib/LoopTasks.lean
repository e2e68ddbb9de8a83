import Inmanta.Lib.Dict

/-!
# The tasks of an event loop

A task runs, may be asked to stop with a `cancel`, ends, and then its done
callbacks run. `LoopTasks` holds the tasks whose callbacks have not run yet,
each with the phase it is in. A task never goes back to an earlier phase, and
no task appears out of nothing: `Later` says so of two tables, and all
operations but `create` keep it.
-/

namespace Inmanta

namespace Asyncio

/-- What a task has come to. -/
inductive TaskPhase where
  | running
  /-- A cancellation is on its way to it, or it is handling one. -/
  | cancelling
  /-- It has ended, with or without an exception, and its callbacks are still to run. -/
  | ended (ok : Bool)
  deriving DecidableEq

namespace TaskPhase

def cancel : TaskPhase → TaskPhase
  | .running => .cancelling
  | p => p

/-- A task in the first phase can come to the second one. -/
def Le : TaskPhase → TaskPhase → Prop
  | .running, _ => True
  | .cancelling, q => q ≠ .running
  | .ended ok, q => q = .ended ok

theorem Le.refl (p : TaskPhase) : p.Le p := by
  cases p <;> simp [Le]

theorem Le.trans {p q r : TaskPhase} (hpq : p.Le q) (hqr : q.Le r) : p.Le r := by
  cases p with
  | running => trivial
  | cancelling =>
      cases q with
      | running => exact absurd rfl hpq
      | cancelling => exact hqr
      | ended ok =>
          obtain rfl : r = .ended ok := hqr
          simp [Le]
  | ended ok =>
      obtain rfl : q = .ended ok := hpq
      exact hqr

theorem le_cancel (p : TaskPhase) : p.Le p.cancel := by
  cases p <;> simp [Le, cancel]

@[simp] theorem cancel_ne_running (p : TaskPhase) : p.cancel ≠ .running := by
  cases p <;> simp [cancel]

theorem Le.ne_running {p q : TaskPhase} (h : p.Le q) (hp : p ≠ .running) : q ≠ .running := by
  cases p with
  | running => exact absurd rfl hp
  | cancelling => exact h
  | ended ok =>
      obtain rfl : q = .ended ok := h
      simp

end TaskPhase

/-- The tasks whose done callbacks have not run; task ids are never used twice. -/
structure LoopTasks where
  phases : Dict Nat TaskPhase
  next : Nat
  fresh : ∀ t, t ∈ phases → t < next

namespace LoopTasks

def empty : LoopTasks := ⟨.empty, 0, fun _ h => absurd h (Dict.not_mem_empty _)⟩

def phase? (l : LoopTasks) (t : Nat) : Option TaskPhase := l.phases.get? t

instance : Membership Nat LoopTasks := ⟨fun l t => t ∈ l.phases⟩

instance (t : Nat) (l : LoopTasks) : Decidable (t ∈ l) :=
  inferInstanceAs (Decidable (t ∈ l.phases))

theorem mem_iff {l : LoopTasks} {t : Nat} : t ∈ l ↔ ∃ p, l.phase? t = some p :=
  Dict.mem_iff

theorem mem_of_phase? {l : LoopTasks} {t : Nat} {p : TaskPhase} (h : l.phase? t = some p) :
    t ∈ l :=
  mem_iff.mpr ⟨p, h⟩

theorem not_mem_iff {l : LoopTasks} {t : Nat} : t ∉ l ↔ l.phase? t = none :=
  Dict.not_mem_iff

@[simp] theorem not_mem_empty (t : Nat) : t ∉ empty := Dict.not_mem_empty t

theorem not_mem_next (l : LoopTasks) : l.next ∉ l :=
  fun h => Nat.lt_irrefl _ (l.fresh _ h)

/-- Start a task; its id is the `next` one. -/
def create (l : LoopTasks) : LoopTasks where
  phases := l.phases.set l.next .running
  next := l.next + 1
  fresh := by
    intro t ht
    rcases Dict.mem_set.mp ht with rfl | ht
    · exact Nat.lt_succ_self _
    · exact Nat.lt_succ_of_lt (l.fresh t ht)

/-- Move a task that is known to another phase. -/
def move (l : LoopTasks) (t : Nat) (f : TaskPhase → TaskPhase) : LoopTasks :=
  match h : l.phases.get? t with
  | none => l
  | some p =>
      { phases := l.phases.set t (f p)
        next := l.next
        fresh := by
          intro t' ht'
          rcases Dict.mem_set.mp ht' with rfl | ht'
          · exact l.fresh _ (Dict.mem_of_get? h)
          · exact l.fresh t' ht' }

/-- Ask a task to stop. -/
def cancel (l : LoopTasks) (t : Nat) : LoopTasks := l.move t .cancel

def cancelAll (l : LoopTasks) (ts : List Nat) : LoopTasks := ts.foldl cancel l

/-- A task that has not ended ends. -/
def finish (l : LoopTasks) (t : Nat) (ok : Bool) : Option LoopTasks :=
  match l.phases.get? t with
  | none => none
  | some (.ended _) => none
  | some _ => some (l.move t fun _ => .ended ok)

/-- The done callbacks of a task that has ended run. -/
def notify (l : LoopTasks) (t : Nat) : Option LoopTasks :=
  match l.phases.get? t with
  | some (.ended _) =>
      some
        { phases := l.phases.del t
          next := l.next
          fresh := fun t' ht' => l.fresh t' (Dict.mem_del.mp ht').2 }
  | _ => none

theorem phase?_create (l : LoopTasks) (t : Nat) :
    l.create.phase? t = if t = l.next then some .running else l.phase? t :=
  Dict.get?_set ..

theorem phase?_move (l : LoopTasks) (t : Nat) (f : TaskPhase → TaskPhase) (t' : Nat) :
    (l.move t f).phase? t' = if t' = t then (l.phase? t).map f else l.phase? t' := by
  unfold move
  split
  · rename_i h
    by_cases ht : t' = t
    · subst ht
      rw [if_pos rfl, phase?, h]
      rfl
    · rw [if_neg ht]
  · rename_i p h
    rw [phase?, Dict.get?_set]
    by_cases ht : t' = t
    · rw [if_pos ht, if_pos ht, phase?, h]
      rfl
    · rw [if_neg ht, if_neg ht]
      rfl

@[simp] theorem next_move (l : LoopTasks) (t : Nat) (f : TaskPhase → TaskPhase) :
    (l.move t f).next = l.next := by
  unfold move
  split <;> rfl

@[simp] theorem mem_move {l : LoopTasks} {t t' : Nat} {f : TaskPhase → TaskPhase} :
    t' ∈ l.move t f ↔ t' ∈ l := by
  rw [mem_iff, mem_iff, phase?_move]
  by_cases ht : t' = t
  · subst ht
    rw [if_pos rfl]
    simp only [Option.map_eq_some_iff]
    constructor
    · rintro ⟨-, p, hp, -⟩
      exact ⟨p, hp⟩
    · rintro ⟨p, hp⟩
      exact ⟨_, p, hp, rfl⟩
  · rw [if_neg ht]

@[simp] theorem mem_create {l : LoopTasks} {t : Nat} : t ∈ l.create ↔ t = l.next ∨ t ∈ l :=
  Dict.mem_set

@[simp] theorem mem_cancelAll {l : LoopTasks} {ts : List Nat} {t : Nat} :
    t ∈ l.cancelAll ts ↔ t ∈ l := by
  induction ts generalizing l with
  | nil => exact Iff.rfl
  | cons c ts ih => exact ih.trans mem_move

@[simp] theorem next_cancelAll (l : LoopTasks) (ts : List Nat) :
    (l.cancelAll ts).next = l.next := by
  induction ts generalizing l with
  | nil => rfl
  | cons c ts ih => exact (ih _).trans (next_move ..)

theorem phase?_cancelAll (l : LoopTasks) (ts : List Nat) (t : Nat) :
    (l.cancelAll ts).phase? t =
      if t ∈ ts then (l.phase? t).map TaskPhase.cancel else l.phase? t := by
  induction ts generalizing l with
  | nil => rfl
  | cons c ts ih =>
      change ((l.cancel c).cancelAll ts).phase? t = _
      rw [ih, cancel, phase?_move]
      by_cases hc : t = c
      · subst hc
        rw [if_pos rfl, if_pos List.mem_cons_self, Option.map_map]
        have hidem : TaskPhase.cancel ∘ TaskPhase.cancel = TaskPhase.cancel := by
          funext p
          cases p <;> rfl
        rw [hidem, ite_self]
      · rw [if_neg hc]
        simp only [List.mem_cons, hc, false_or]

theorem finish_inv {l l' : LoopTasks} {t : Nat} {ok : Bool} (h : l.finish t ok = some l') :
    l' = l.move t (fun _ => .ended ok) ∧
      ∃ p, l.phase? t = some p ∧ ∀ ok', p ≠ .ended ok' := by
  unfold finish at h
  split at h
  · cases h
  · cases h
  · rename_i p hne hp
    exact ⟨(Option.some.inj h).symm, p, hp, hne⟩

theorem notify_inv {l l' : LoopTasks} {t : Nat} (h : l.notify t = some l') :
    t ∈ l ∧ l'.next = l.next ∧
      ∀ t', l'.phase? t' = if t' = t then none else l.phase? t' := by
  unfold notify at h
  split at h
  · rename_i ok hp
    obtain rfl := Option.some.inj h
    exact ⟨Dict.mem_of_get? hp, rfl, fun t' => Dict.get?_del ..⟩
  · cases h

theorem mem_notify {l l' : LoopTasks} {t t' : Nat} (h : l.notify t = some l') :
    t' ∈ l' ↔ t' ∈ l ∧ t' ≠ t := by
  obtain ⟨-, -, hp⟩ := notify_inv h
  rw [mem_iff, mem_iff, hp]
  by_cases ht : t' = t
  · simp [ht]
  · simp [ht]

theorem mem_finish {l l' : LoopTasks} {t t' : Nat} {ok : Bool} (h : l.finish t ok = some l') :
    t' ∈ l' ↔ t' ∈ l := by
  rw [(finish_inv h).1, mem_move]

/-! ## Nothing goes back -/

/-- The second table has no task the first one does not have, and none of them is
in an earlier phase. -/
def Later (l l' : LoopTasks) : Prop :=
  ∀ t p', l'.phase? t = some p' → ∃ p, l.phase? t = some p ∧ p.Le p'

namespace Later

theorem refl (l : LoopTasks) : l.Later l := fun _ p' h => ⟨p', h, .refl p'⟩

theorem trans {l l' l'' : LoopTasks} (h : l.Later l') (h' : l'.Later l'') : l.Later l'' := by
  intro t p'' ht
  obtain ⟨p', hp', hle'⟩ := h' t p'' ht
  obtain ⟨p, hp, hle⟩ := h t p' hp'
  exact ⟨p, hp, hle.trans hle'⟩

theorem mem {l l' : LoopTasks} (h : l.Later l') {t : Nat} (ht : t ∈ l') : t ∈ l := by
  obtain ⟨p', hp'⟩ := mem_iff.mp ht
  obtain ⟨p, hp, -⟩ := h t p' hp'
  exact mem_of_phase? hp

/-- What is cancelled or has ended does not run again. -/
theorem not_running {l l' : LoopTasks} (h : l.Later l') {t : Nat}
    (ht : l.phase? t ≠ some .running) : l'.phase? t ≠ some .running := by
  intro hr
  obtain ⟨p, hp, hle⟩ := h t _ hr
  have hne : p ≠ .running := by
    rintro rfl
    exact ht hp
  exact hle.ne_running hne rfl

end Later

theorem later_move {l : LoopTasks} {t : Nat} {f : TaskPhase → TaskPhase}
    (h : ∀ p, l.phase? t = some p → p.Le (f p)) : l.Later (l.move t f) := by
  intro t' p' hp'
  rw [phase?_move] at hp'
  split at hp'
  · rename_i ht
    subst ht
    obtain ⟨p, hp, rfl⟩ := Option.map_eq_some_iff.mp hp'
    exact ⟨p, hp, h p hp⟩
  · exact ⟨p', hp', .refl p'⟩

theorem later_cancelAll (l : LoopTasks) (ts : List Nat) : l.Later (l.cancelAll ts) := by
  induction ts generalizing l with
  | nil => exact .refl l
  | cons c ts ih => exact (later_move fun p _ => p.le_cancel).trans (ih _)

theorem later_finish {l l' : LoopTasks} {t : Nat} {ok : Bool} (h : l.finish t ok = some l') :
    l.Later l' := by
  obtain ⟨rfl, p, hp, hne⟩ := finish_inv h
  refine later_move fun q hq => ?_
  obtain rfl := Option.some.inj (hp.symm.trans hq)
  cases p with
  | running => trivial
  | cancelling => simp [TaskPhase.Le]
  | ended ok' => exact absurd rfl (hne ok')

theorem later_notify {l l' : LoopTasks} {t : Nat} (h : l.notify t = some l') : l.Later l' := by
  obtain ⟨-, -, hp⟩ := notify_inv h
  intro t' p' hp'
  rw [hp] at hp'
  split at hp'
  · cases hp'
  · exact ⟨p', hp', .refl p'⟩

end LoopTasks

end Asyncio

end Inmanta
