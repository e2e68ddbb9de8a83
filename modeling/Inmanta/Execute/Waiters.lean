import Inmanta.Lib.Run
import Mathlib.Data.List.Count
import Mathlib.Data.Int.Init

/-!
# Waiters

The run queue of the compiler. A `Waiter` waits for a number of variables.
It counts the ones that are not ready, plus one while it is constructed, and
joins the run queue when the count reaches zero. `Scheduler.run` pops the
waiters of the run queue and executes them. An execution that needs a
variable it has not waited for raises, and the waiter is queued again with
this variable as a requirement.

The three waiter classes, `ExecutionUnit`, `HangUnit` and `RawUnit`, differ
in what they execute only. What an execution does to the compiler is a
sequence of steps of its own: it creates waiters and completes variables.
-/

namespace Inmanta

inductive WaiterPhase where
  /-- The constructor has not registered the waiter with these variables. -/
  | constructing (requires : List ℕ)
  | waiting
  | finished
  deriving DecidableEq

/-- What the count is ahead of the variables. -/
def WaiterPhase.extra : WaiterPhase → ℕ
  | .constructing _ => 1
  | _ => 0

structure Waiter where
  waitcount : ℤ
  phase : WaiterPhase
  /-- The variables `waitfor` was called with. -/
  requires : List ℕ
  /-- How often it was executed to completion. -/
  executions : ℕ

/-- The state of the compiler that the waiters see. Waiters and variables are
numbered. -/
structure QueueScheduler where
  waiters : ℕ → Waiter
  created : ℕ
  runqueue : List ℕ
  allwaiters : List ℕ
  hasValue : ℕ → Bool
  /-- The waiters of each variable. -/
  waiting : ℕ → List ℕ
  /-- The waiter that `Scheduler.run` executes. -/
  executing : Option ℕ
  /-- An exception other than the two that are handled was raised. -/
  crashed : Bool

inductive WaiterAction where
  | create (requires : List ℕ)
  /-- A constructor registers the waiter with its next variable. -/
  | register (waiter : ℕ)
  /-- A constructor calls `ready(self)`. -/
  | constructed (waiter : ℕ)
  /-- A variable gets its value or is frozen. -/
  | complete (resultVariable : ℕ)
  | start
  | finish
  /-- The execution raises `UnsetException`. -/
  | unset (resultVariable : ℕ)
  /-- The execution raises `MultiUnsetException`. -/
  | multiUnset (resultVariables : List ℕ)

namespace QueueScheduler

/-- The state before the first statement is emitted. -/
def init (hasValue : ℕ → Bool) : QueueScheduler where
  waiters := fun _ => ⟨0, .finished, [], 0⟩
  created := 0
  runqueue := []
  allwaiters := []
  hasValue := hasValue
  waiting := fun _ => []
  executing := none
  crashed := false

def setWaiter (s : QueueScheduler) (w : ℕ) (x : Waiter) : QueueScheduler :=
  { s with waiters := fun i => if i = w then x else s.waiters i }

/-- `Waiter.ready`. -/
def ready (s : QueueScheduler) (w : ℕ) : QueueScheduler :=
  let waitcount := (s.waiters w).waitcount - 1
  let s := s.setWaiter w { s.waiters w with waitcount := waitcount }
  { s with
    runqueue := if waitcount = 0 then s.runqueue ++ [w] else s.runqueue
    crashed := s.crashed || decide (waitcount < 0) }

def readyAll (s : QueueScheduler) : List ℕ → QueueScheduler
  | [] => s
  | w :: ws => if (s.ready w).crashed then s.ready w else (s.ready w).readyAll ws

/-- The waiter counts one more variable. -/
def countIn (s : QueueScheduler) (w v : ℕ) : QueueScheduler :=
  s.setWaiter w { s.waiters w with
    waitcount := (s.waiters w).waitcount + 1
    requires := (s.waiters w).requires ++ [v] }

/-- `Waiter.waitfor`. -/
def waitfor (s : QueueScheduler) (w v : ℕ) : QueueScheduler :=
  if s.hasValue v then (s.countIn w v).ready w
  else
    { s.countIn w v with
      waiting := fun u => if u = v then s.waiting v ++ [w] else s.waiting u }

/-- `ResultVariable.set_value`. Its list of waiters is dropped. -/
def complete (s : QueueScheduler) (v : ℕ) : QueueScheduler :=
  { s with
    hasValue := fun u => if u = v then true else s.hasValue u
    waiting := fun u => if u = v then [] else s.waiting u }.readyAll (s.waiting v)

def create (s : QueueScheduler) (requires : List ℕ) : QueueScheduler :=
  { s.setWaiter s.created ⟨1, .constructing requires, [], 0⟩ with
    created := s.created + 1
    allwaiters := s.allwaiters ++ [s.created] }

def setPhase (s : QueueScheduler) (w : ℕ) (phase : WaiterPhase) : QueueScheduler :=
  s.setWaiter w { s.waiters w with phase := phase }

/-- The waiter is done; `remove_from_all` raises if it was removed before. -/
def finish (s : QueueScheduler) (w : ℕ) : QueueScheduler :=
  { s.setWaiter w { s.waiters w with
      phase := .finished
      executions := (s.waiters w).executions + 1 } with
    executing := none
    allwaiters := s.allwaiters.erase w
    crashed := decide (w ∉ s.allwaiters) }

/-- The handlers of the two exceptions. -/
def requeue (s : QueueScheduler) (w : ℕ) (resultVariables : List ℕ) : QueueScheduler :=
  resultVariables.foldl (fun s v => s.waitfor w v) { s with executing := none }

def step (s : QueueScheduler) (a : WaiterAction) : Option QueueScheduler :=
  if s.crashed then none
  else
    match a with
    | .create requires => some (s.create requires)
    | .register w =>
        match (s.waiters w).phase with
        | .constructing (v :: vs) => some ((s.setPhase w (.constructing vs)).waitfor w v)
        | _ => none
    | .constructed w =>
        match (s.waiters w).phase with
        | .constructing [] => some ((s.setPhase w .waiting).ready w)
        | _ => none
    | .complete v => if s.hasValue v then none else some (s.complete v)
    | .start =>
        match s.executing, s.runqueue with
        | none, w :: ws => some { s with runqueue := ws, executing := some w }
        | _, _ => none
    | .finish => s.executing.map s.finish
    | .unset v => s.executing.map (s.requeue · [v])
    | .multiUnset vs => s.executing.map (s.requeue · vs)

/-! ## The accounting -/

/-- The registrations of a waiter whose variable is not ready. -/
def missing (s : QueueScheduler) (w : ℕ) : ℕ :=
  (s.waiters w).requires.countP (fun v => !s.hasValue v)

/-- A waiter is counted correctly, is queued once and only when it can be
executed, and has been executed to completion once when no waiter is left. -/
structure AccountedWaiter (s : QueueScheduler) (w : ℕ) : Prop where
  waitcount : (s.waiters w).waitcount =
    (s.missing w + WaiterPhase.extra (s.waiters w).phase : ℕ)
  once : s.runqueue.count w ≤ 1
  queued : w ∈ s.runqueue ↔ (s.waiters w).waitcount = 0 ∧ s.executing ≠ some w ∧
    (s.waiters w).phase ≠ .finished
  executed : s.allwaiters = [] →
    (s.waiters w).phase = .finished ∧ (s.waiters w).executions = 1

/-- The accounting of the waiters is right, and no count has become
negative. -/
def Accounted (s : QueueScheduler) : Prop :=
  s.crashed = false ∧ ∀ w < s.created, s.AccountedWaiter w

/-! ## The invariant

`Counted` allows for calls of `ready` that a loop over the waiters of a
variable, or a constructor, still has to make. -/

structure Counted (s : QueueScheduler) (pending : List ℕ) : Prop where
  sound : s.crashed = false
  unborn : ∀ w, s.created ≤ w → (s.waiters w).phase = .finished
  waitcount : ∀ w, (s.waiters w).waitcount =
    (s.missing w + pending.count w + WaiterPhase.extra (s.waiters w).phase : ℕ)
  waiting : ∀ v, s.hasValue v = false → ∀ w,
    (s.waiting v).count w = (s.waiters w).requires.count v
  runqueue : ∀ w, s.runqueue.count w =
    if (s.waiters w).waitcount = 0 ∧ s.executing ≠ some w ∧ (s.waiters w).phase ≠ .finished
    then 1 else 0
  executing : ∀ w, s.executing = some w →
    (s.waiters w).waitcount = 0 ∧ (s.waiters w).phase ≠ .finished
  finished : ∀ w, (s.waiters w).phase = .finished → (s.waiters w).waitcount = 0
  allwaiters : ∀ w, s.allwaiters.count w =
    if (s.waiters w).phase = .finished then 0 else 1
  executions : ∀ w < s.created, (s.waiters w).executions =
    if (s.waiters w).phase = .finished then 1 else 0

theorem counted_init (hasValue : ℕ → Bool) : (init hasValue).Counted [] where
  sound := rfl
  unborn _ _ := rfl
  waitcount _ := rfl
  waiting _ _ _ := rfl
  runqueue _ := by simp [init]
  executing _ h := by cases h
  finished _ _ := rfl
  allwaiters _ := rfl
  executions _ h := absurd h (Nat.not_lt_zero _)

theorem Counted.accounted {s : QueueScheduler} (h : s.Counted []) : s.Accounted := by
  refine ⟨h.sound, fun w hw => ⟨?_, ?_, ?_, ?_⟩⟩
  · simpa using h.waitcount w
  · rw [h.runqueue w]
    split <;> omega
  · rw [← List.count_pos_iff, h.runqueue w]
    split
    · next hr => exact iff_of_true Nat.one_pos hr
    · next hr => exact iff_of_false (Nat.lt_irrefl 0) hr
  · intro hall
    have hcount := h.allwaiters w
    rw [hall, List.count_nil] at hcount
    have hf : (s.waiters w).phase = .finished := by
      by_contra hne
      rw [if_neg hne] at hcount
      cases hcount
    exact ⟨hf, by rw [h.executions w hw, if_pos hf]⟩

@[simp] theorem setWaiter_self (s : QueueScheduler) (w : ℕ) (x : Waiter) :
    (s.setWaiter w x).waiters w = x := by
  simp [setWaiter]

theorem setWaiter_ne {s : QueueScheduler} {w i : ℕ} (x : Waiter) (h : i ≠ w) :
    (s.setWaiter w x).waiters i = s.waiters i := by
  simp [setWaiter, h]

/-! ## What one call preserves -/

section Ready

variable (s : QueueScheduler) (w i : ℕ)

@[simp] theorem ready_created : (s.ready w).created = s.created := rfl

@[simp] theorem ready_hasValue : (s.ready w).hasValue = s.hasValue := rfl

@[simp] theorem ready_waiting : (s.ready w).waiting = s.waiting := rfl

@[simp] theorem ready_executing : (s.ready w).executing = s.executing := rfl

@[simp] theorem ready_allwaiters : (s.ready w).allwaiters = s.allwaiters := rfl

@[simp] theorem ready_waiters_self :
    (s.ready w).waiters w = { s.waiters w with waitcount := (s.waiters w).waitcount - 1 } :=
  setWaiter_self ..

variable {w i} in
theorem ready_waiters_ne (h : i ≠ w) : (s.ready w).waiters i = s.waiters i :=
  setWaiter_ne _ h

@[simp] theorem ready_phase : ((s.ready w).waiters i).phase = (s.waiters i).phase := by
  by_cases h : i = w
  · rw [h, ready_waiters_self]
  · rw [ready_waiters_ne s h]

@[simp] theorem ready_requires : ((s.ready w).waiters i).requires = (s.waiters i).requires := by
  by_cases h : i = w
  · rw [h, ready_waiters_self]
  · rw [ready_waiters_ne s h]

@[simp] theorem ready_executions :
    ((s.ready w).waiters i).executions = (s.waiters i).executions := by
  by_cases h : i = w
  · rw [h, ready_waiters_self]
  · rw [ready_waiters_ne s h]

@[simp] theorem ready_missing : (s.ready w).missing i = s.missing i := by
  rw [missing, ready_requires, ready_hasValue, missing]

theorem ready_runqueue : (s.ready w).runqueue =
    if (s.waiters w).waitcount - 1 = 0 then s.runqueue ++ [w] else s.runqueue := rfl

theorem ready_crashed : (s.ready w).crashed =
    (s.crashed || decide ((s.waiters w).waitcount - 1 < 0)) := rfl

end Ready

/-- A pending call of `ready` is made. -/
theorem Counted.ready {s : QueueScheduler} {w : ℕ} {ws : List ℕ}
    (h : s.Counted (w :: ws)) : (s.ready w).Counted ws := by
  have hw := h.waitcount w
  rw [List.count_cons_self] at hw
  have hpos : 0 < (s.waiters w).waitcount := by omega
  have hphase : (s.waiters w).phase ≠ .finished := fun hf => by
    have := h.finished w hf
    omega
  have hexec : s.executing ≠ some w := fun he => by
    have := (h.executing w he).1
    omega
  have hqueue : s.runqueue.count w = 0 := by
    rw [h.runqueue w, if_neg]
    omega
  constructor
  · rw [ready_crashed, h.sound, Bool.false_or, decide_eq_false_iff_not]
    omega
  · intro i hi
    rw [ready_phase]
    exact h.unborn i hi
  · intro i
    rw [ready_missing, ready_phase]
    by_cases hiw : i = w
    · subst hiw
      rw [ready_waiters_self]
      dsimp only
      omega
    · rw [ready_waiters_ne s hiw, h.waitcount i, List.count_cons_of_ne (Ne.symm hiw)]
  · intro v hv i
    rw [ready_requires]
    exact h.waiting v hv i
  · intro i
    rw [ready_runqueue, ready_phase, ready_executing]
    by_cases hiw : i = w
    · subst hiw
      rw [ready_waiters_self]
      by_cases hzero : (s.waiters i).waitcount - 1 = 0
      · rw [if_pos hzero, if_pos ⟨hzero, hexec, hphase⟩, List.count_append, hqueue,
          List.count_singleton_self]
      · rw [if_neg hzero, if_neg (fun hr => hzero hr.1), hqueue]
    · have hcount : ([w] : List ℕ).count i = 0 := by simp [Ne.symm hiw]
      rw [ready_waiters_ne s hiw, ← h.runqueue i]
      split
      · rw [List.count_append, hcount, Nat.add_zero]
      · rfl
  · intro i hi
    have hiw : i ≠ w := fun he => hexec (he ▸ hi)
    rw [ready_waiters_ne s hiw]
    exact h.executing i hi
  · intro i hi
    rw [ready_phase] at hi
    have hiw : i ≠ w := fun he => hphase (he ▸ hi)
    rw [ready_waiters_ne s hiw]
    exact h.finished i hi
  · intro i
    rw [ready_phase]
    exact h.allwaiters i
  · intro i hi
    rw [ready_phase, ready_executions]
    exact h.executions i hi

theorem Counted.readyAll {s : QueueScheduler} {ws : List ℕ} (h : s.Counted ws) :
    (s.readyAll ws).Counted [] := by
  induction ws generalizing s with
  | nil => exact h
  | cons w ws ih =>
      have hr := h.ready
      rw [QueueScheduler.readyAll, if_neg (by rw [hr.sound]; decide)]
      exact ih hr

theorem countP_missing_set {hasValue : ℕ → Bool} {v : ℕ} (hv : hasValue v = false)
    (l : List ℕ) :
    l.countP (fun u => !hasValue u) =
      l.countP (fun u => !(if u = v then true else hasValue u)) + l.count v := by
  induction l with
  | nil => rfl
  | cons u l ih =>
      by_cases huv : u = v
      · subst huv
        rw [List.countP_cons_of_pos (by simp [hv]), List.countP_cons_of_neg (by simp),
          List.count_cons_self, ih]
        omega
      · rw [List.count_cons_of_ne huv]
        cases hu : hasValue u with
        | false =>
            rw [List.countP_cons_of_pos (by simp [hu]),
              List.countP_cons_of_pos (by simp [hu, huv]), ih]
            omega
        | true =>
            rw [List.countP_cons_of_neg (by simp [hu]),
              List.countP_cons_of_neg (by simp [hu]), ih]

theorem Counted.complete {s : QueueScheduler} {v : ℕ} (h : s.Counted [])
    (hv : s.hasValue v = false) : (s.complete v).Counted [] := by
  refine Counted.readyAll ⟨h.sound, h.unborn, fun w => ?_, fun u hu w => ?_, h.runqueue,
    h.executing, h.finished, h.allwaiters, h.executions⟩
  · have hw := h.waitcount w
    rw [List.count_nil, missing, countP_missing_set hv] at hw
    rw [h.waiting v hv w]
    rw [hw]
    simp only [missing]
    omega
  · have huv : u ≠ v := fun he => by simp [he] at hu
    simp only [huv, if_false] at hu ⊢
    exact h.waiting u hu w

@[simp] theorem countIn_self (s : QueueScheduler) (w v : ℕ) :
    (s.countIn w v).waiters w = { s.waiters w with
      waitcount := (s.waiters w).waitcount + 1
      requires := (s.waiters w).requires ++ [v] } :=
  setWaiter_self ..

theorem countIn_ne {s : QueueScheduler} {w i : ℕ} (v : ℕ) (h : i ≠ w) :
    (s.countIn w v).waiters i = s.waiters i :=
  setWaiter_ne _ h

@[simp] theorem countIn_phase (s : QueueScheduler) (w v i : ℕ) :
    ((s.countIn w v).waiters i).phase = (s.waiters i).phase := by
  by_cases h : i = w
  · rw [h, countIn_self]
  · rw [countIn_ne v h]

@[simp] theorem countIn_executions (s : QueueScheduler) (w v i : ℕ) :
    ((s.countIn w v).waiters i).executions = (s.waiters i).executions := by
  by_cases h : i = w
  · rw [h, countIn_self]
  · rw [countIn_ne v h]

/-- A waiter can be registered with a variable. The waiter is not queued, it
may be the one that was executed. -/
structure Registers (s : QueueScheduler) (w : ℕ) : Prop where
  counted : ∃ e, ({ s with executing := e } : QueueScheduler).Counted [] ∧
    ∀ i, i ≠ w → (s.executing = some i ↔ e = some i)
  queued : s.runqueue.count w = 0
  executing : s.executing ≠ some w
  phase : (s.waiters w).phase ≠ .finished

theorem Registers.countIn {s : QueueScheduler} {w v : ℕ} (h : s.Registers w)
    {waiting : ℕ → List ℕ} {pending : List ℕ}
    (hwaiting : ∀ u, s.hasValue u = false → ∀ i,
      (waiting u).count i = (s.waiting u).count i + if u = v ∧ i = w then 1 else 0)
    (hpending : ∀ i, pending.count i = if s.hasValue v = true ∧ i = w then 1 else 0) :
    ({ s.countIn w v with waiting := waiting } : QueueScheduler).Counted pending := by
  obtain ⟨⟨e, hc, he⟩, hqueue, hexec, hphase⟩ := h
  have hcount := hc.waitcount w
  dsimp only at hcount
  constructor
  · exact hc.sound
  · intro i hi
    dsimp only
    rw [countIn_phase]
    exact hc.unborn i hi
  · intro i
    have hi := hc.waitcount i
    simp only [missing, List.count_nil] at hi ⊢
    rw [countIn_phase, hpending i]
    by_cases hiw : i = w
    · subst hiw
      rw [countIn_self]
      simp only [List.countP_append, List.countP_singleton]
      change _ = ((_ : ℕ) : ℤ)
      cases hv : s.hasValue v with
      | true => simp [QueueScheduler.countIn, setWaiter, hv]; omega
      | false => simp [QueueScheduler.countIn, setWaiter, hv]; omega
    · rw [countIn_ne v hiw, if_neg (fun hr => hiw hr.2)]
      exact hi
  · intro u hu i
    have hi := hc.waiting u hu i
    dsimp only at hi ⊢
    rw [hwaiting u hu i, hi]
    by_cases hiw : i = w
    · subst hiw
      rw [countIn_self, List.count_append]
      by_cases huv : u = v
      · simp [huv]
      · simp [huv, Ne.symm huv]
    · rw [countIn_ne v hiw, if_neg (fun hr => hiw hr.2), Nat.add_zero]
  · intro i
    dsimp only
    rw [countIn_phase]
    by_cases hiw : i = w
    · subst hiw
      rw [countIn_self, if_neg (by dsimp only; omega)]
      exact hqueue
    · rw [countIn_ne v hiw]
      have hi := hc.runqueue i
      dsimp only at hi
      exact hi.trans (if_congr (and_congr_right fun _ => and_congr_left fun _ =>
        not_congr (he i hiw).symm) rfl rfl)
  · intro i hi
    have hiw : i ≠ w := fun hiw => hexec (hiw ▸ hi)
    dsimp only
    rw [countIn_ne v hiw]
    exact hc.executing i ((he i hiw).mp hi)
  · intro i hi
    dsimp only at hi ⊢
    rw [countIn_phase] at hi
    have hiw : i ≠ w := fun hiw => hphase (hiw ▸ hi)
    rw [countIn_ne v hiw]
    exact hc.finished i hi
  · intro i
    dsimp only
    rw [countIn_phase]
    exact hc.allwaiters i
  · intro i hi
    dsimp only
    rw [countIn_phase, countIn_executions]
    exact hc.executions i hi

theorem Registers.waitfor {s : QueueScheduler} {w : ℕ} (v : ℕ) (h : s.Registers w) :
    (s.waitfor w v).Counted [] := by
  rw [QueueScheduler.waitfor]
  cases hv : s.hasValue v with
  | true =>
      refine Counted.ready (s := s.countIn w v) (h.countIn (fun u hu i => ?_) (fun i => ?_))
      · rw [if_neg (fun hr => by rw [hr.1, hv] at hu; cases hu), Nat.add_zero]
      · by_cases hiw : i = w
        · simp [hv, hiw]
        · simp [hiw, Ne.symm hiw]
  | false =>
      refine h.countIn (fun u hu i => ?_) (fun i => ?_)
      · by_cases huv : u = v
        · subst huv
          by_cases hiw : i = w
          · simp [hiw]
          · simp [hiw, Ne.symm hiw]
        · simp [huv]
      · simp [hv]

@[simp] theorem setPhase_self (s : QueueScheduler) (w : ℕ) (phase : WaiterPhase) :
    (s.setPhase w phase).waiters w = { s.waiters w with phase := phase } :=
  setWaiter_self ..

theorem setPhase_ne {s : QueueScheduler} {w i : ℕ} (phase : WaiterPhase) (h : i ≠ w) :
    (s.setPhase w phase).waiters i = s.waiters i :=
  setWaiter_ne _ h

@[simp] theorem setPhase_missing (s : QueueScheduler) (w i : ℕ) (phase : WaiterPhase) :
    (s.setPhase w phase).missing i = s.missing i := by
  by_cases h : i = w
  · rw [h, missing, setPhase_self]
    rfl
  · rw [missing, setPhase_ne phase h]
    rfl

/-- The constructor goes on. The last step of it leaves a call of `ready`. -/
theorem Counted.setPhase {s : QueueScheduler} {w : ℕ} {requires : List ℕ}
    {phase : WaiterPhase} {pending : List ℕ} (h : s.Counted [])
    (hw : (s.waiters w).phase = .constructing requires) (hphase : phase ≠ .finished)
    (hpending : ∀ i, pending.count i + (if i = w then phase.extra else 0) =
      if i = w then 1 else 0) :
    (s.setPhase w phase).Counted pending := by
  have hcount := h.waitcount w
  rw [hw] at hcount
  have hone : WaiterPhase.extra (.constructing requires) = 1 := rfl
  have hne : (s.waiters w).waitcount ≠ 0 := by omega
  have hexec : s.executing ≠ some w := fun he => hne (h.executing w he).1
  constructor
  · exact h.sound
  · intro i hi
    have hf := h.unborn i hi
    have hiw : i ≠ w := fun hiw => by
      rw [hiw, hw] at hf
      cases hf
    rw [setPhase_ne phase hiw]
    exact hf
  · intro i
    have hp := hpending i
    rw [setPhase_missing]
    by_cases hiw : i = w
    · subst hiw
      rw [setPhase_self]
      simp only [if_true] at hp
      simp only [List.count_nil] at hcount
      dsimp only
      omega
    · simp only [hiw, if_false, Nat.add_zero] at hp
      rw [setPhase_ne phase hiw, hp]
      exact h.waitcount i
  · intro v hv i
    have hi := h.waiting v hv i
    by_cases hiw : i = w
    · subst hiw
      rw [setPhase_self]
      exact hi
    · rw [setPhase_ne phase hiw]
      exact hi
  · intro i
    have hi := h.runqueue i
    by_cases hiw : i = w
    · subst hiw
      rw [if_neg (fun hr => hne hr.1)] at hi
      rw [setPhase_self, if_neg (fun hr => hne hr.1)]
      exact hi
    · rw [setPhase_ne phase hiw]
      exact hi
  · intro i hi
    have hiw : i ≠ w := fun hiw => hexec (hiw ▸ hi)
    rw [setPhase_ne phase hiw]
    exact h.executing i hi
  · intro i hi
    have hiw : i ≠ w := fun hiw => by
      rw [hiw, setPhase_self] at hi
      exact hphase hi
    rw [setPhase_ne phase hiw] at hi ⊢
    exact h.finished i hi
  · intro i
    have hi := h.allwaiters i
    by_cases hiw : i = w
    · subst hiw
      rw [hw, if_neg (by simp)] at hi
      rw [setPhase_self, if_neg hphase]
      exact hi
    · rw [setPhase_ne phase hiw]
      exact hi
  · intro i hlt
    have hi := h.executions i hlt
    by_cases hiw : i = w
    · subst hiw
      rw [hw, if_neg (by simp)] at hi
      rw [setPhase_self, if_neg hphase]
      exact hi
    · rw [setPhase_ne phase hiw]
      exact hi

theorem Counted.registers {s : QueueScheduler} {w : ℕ} (h : s.Counted [])
    (hw : 0 < (s.waiters w).waitcount) : s.Registers w := by
  refine ⟨⟨s.executing, h, fun _ _ => Iff.rfl⟩, ?_, ?_, ?_⟩
  · rw [h.runqueue w, if_neg (fun hr => by omega)]
  · intro he
    have := (h.executing w he).1
    omega
  · intro hf
    have := h.finished w hf
    omega

theorem Counted.register {s : QueueScheduler} {w v : ℕ} {vs : List ℕ} (h : s.Counted [])
    (hw : (s.waiters w).phase = .constructing (v :: vs)) :
    ((s.setPhase w (.constructing vs)).waitfor w v).Counted [] := by
  have hset : (s.setPhase w (.constructing vs)).Counted [] := by
    refine h.setPhase hw (by simp) (fun i => ?_)
    rw [List.count_nil, Nat.zero_add]
    rfl
  have hcount := hset.waitcount w
  rw [setPhase_self] at hcount
  refine Registers.waitfor v (hset.registers ?_)
  rw [setPhase_self, hcount]
  change 0 < ((_ + _ + 1 : ℕ) : ℤ)
  omega

theorem Counted.constructed {s : QueueScheduler} {w : ℕ} (h : s.Counted [])
    (hw : (s.waiters w).phase = .constructing []) :
    ((s.setPhase w .waiting).ready w).Counted [] := by
  refine Counted.ready (h.setPhase hw (by decide) (fun i => ?_))
  by_cases hiw : i = w
  · simp [hiw, WaiterPhase.extra]
  · simp [hiw, Ne.symm hiw]

theorem Counted.create {s : QueueScheduler} (requires : List ℕ) (h : s.Counted []) :
    (s.create requires).Counted [] := by
  have hnew := h.unborn s.created (Nat.le_refl _)
  have hzero := h.finished s.created hnew
  have hself : (s.create requires).waiters s.created = ⟨1, .constructing requires, [], 0⟩ :=
    setWaiter_self ..
  have hother : ∀ i, i ≠ s.created → (s.create requires).waiters i = s.waiters i :=
    fun i hi => setWaiter_ne _ hi
  constructor
  · exact h.sound
  · intro i hi
    have hle : s.created + 1 ≤ i := hi
    rw [hother i (by omega)]
    exact h.unborn i (by omega)
  · intro i
    by_cases hiw : i = s.created
    · subst hiw
      rw [missing, hself]
      rfl
    · rw [missing, hother i hiw]
      exact h.waitcount i
  · intro v hv i
    by_cases hiw : i = s.created
    · subst hiw
      -- the list of the variable can not name a waiter that did not exist
      have hmissing := h.waitcount s.created
      rw [hzero, hnew] at hmissing
      have hnone : s.missing s.created = 0 := by
        simp only [List.count_nil, WaiterPhase.extra] at hmissing
        omega
      rw [hself]
      change (s.waiting v).count s.created = 0
      rw [h.waiting v hv, List.count_eq_zero]
      intro hmem
      have := List.countP_eq_zero.mp hnone v hmem
      have hv' : s.hasValue v = false := hv
      simp [hv'] at this
    · rw [hother i hiw]
      exact h.waiting v hv i
  · intro i
    have hi := h.runqueue i
    by_cases hiw : i = s.created
    · subst hiw
      rw [if_neg (fun hr => hr.2.2 hnew)] at hi
      rw [hself, if_neg (fun hr => by cases hr.1)]
      exact hi
    · rw [hother i hiw]
      exact hi
  · intro i hi
    have hrun := h.executing i hi
    have hiw : i ≠ s.created := fun he => hrun.2 (he ▸ hnew)
    rw [hother i hiw]
    exact hrun
  · intro i hi
    have hiw : i ≠ s.created := fun he => by
      rw [he, hself] at hi
      cases hi
    rw [hother i hiw] at hi ⊢
    exact h.finished i hi
  · intro i
    have hi := h.allwaiters i
    change (s.allwaiters ++ [s.created]).count i = _
    by_cases hiw : i = s.created
    · subst hiw
      rw [if_pos hnew] at hi
      rw [hself, List.count_append, hi, List.count_singleton_self, if_neg (by simp)]
    · have hnil : ([s.created] : List ℕ).count i = 0 := by simp [Ne.symm hiw]
      rw [hother i hiw, List.count_append, hi, hnil, Nat.add_zero]
  · intro i hlt
    by_cases hiw : i = s.created
    · subst hiw
      rw [hself]
      rfl
    · have hlt' : i < s.created + 1 := hlt
      rw [hother i hiw]
      exact h.executions i (by omega)

theorem Counted.start {s : QueueScheduler} {w : ℕ} {ws : List ℕ} (h : s.Counted [])
    (hexec : s.executing = none) (hqueue : s.runqueue = w :: ws) :
    ({ s with runqueue := ws, executing := some w } : QueueScheduler).Counted [] := by
  have hw := h.runqueue w
  rw [hqueue, List.count_cons_self] at hw
  split at hw
  case isFalse => omega
  case isTrue hr =>
  refine ⟨h.sound, h.unborn, h.waitcount, h.waiting, fun i => ?_, fun i hi => ?_, h.finished,
    h.allwaiters, h.executions⟩
  · have hi := h.runqueue i
    rw [hqueue] at hi
    dsimp only
    by_cases hiw : i = w
    · subst hiw
      rw [if_neg (fun hr' => hr'.2.1 rfl)]
      omega
    · rw [List.count_cons_of_ne (Ne.symm hiw)] at hi
      rw [hi, hexec]
      simp [Ne.symm hiw]
  · obtain rfl := Option.some.inj hi
    exact ⟨hr.1, hr.2.2⟩

theorem Counted.finish {s : QueueScheduler} {w : ℕ} (h : s.Counted [])
    (hexec : s.executing = some w) : (s.finish w).Counted [] := by
  obtain ⟨hzero, hphase⟩ := h.executing w hexec
  have hself : (s.finish w).waiters w = { s.waiters w with
      phase := .finished, executions := (s.waiters w).executions + 1 } := setWaiter_self ..
  have hother : ∀ i, i ≠ w → (s.finish w).waiters i = s.waiters i :=
    fun i hi => setWaiter_ne _ hi
  have hall := h.allwaiters w
  rw [if_neg hphase] at hall
  constructor
  · have hmem : w ∈ s.allwaiters := List.count_pos_iff.mp (by omega)
    simp [QueueScheduler.finish, hmem]
  · intro i hi
    have hf := h.unborn i hi
    have hiw : i ≠ w := fun he => hphase (he ▸ hf)
    rw [hother i hiw]
    exact hf
  · intro i
    have hi := h.waitcount i
    by_cases hiw : i = w
    · subst hiw
      rw [hzero] at hi
      rw [missing, hself]
      simp only [missing, List.count_nil] at hi
      simp only [WaiterPhase.extra, List.count_nil]
      have hhas : (s.finish i).hasValue = s.hasValue := rfl
      rw [hzero, hhas]
      omega
    · rw [missing, hother i hiw]
      exact hi
  · intro v hv i
    have hi := h.waiting v hv i
    by_cases hiw : i = w
    · subst hiw
      rw [hself]
      exact hi
    · rw [hother i hiw]
      exact hi
  · intro i
    have hi := h.runqueue i
    by_cases hiw : i = w
    · subst hiw
      rw [if_neg (fun hr => hr.2.1 hexec)] at hi
      rw [hself, if_neg (fun hr => hr.2.2 rfl)]
      exact hi
    · rw [hexec] at hi
      rw [hother i hiw]
      change s.runqueue.count i = _
      rw [hi]
      simp [QueueScheduler.finish, Ne.symm hiw]
  · intro i hi
    cases hi
  · intro i hi
    by_cases hiw : i = w
    · subst hiw
      rw [hself]
      exact hzero
    · rw [hother i hiw] at hi ⊢
      exact h.finished i hi
  · intro i
    change (s.allwaiters.erase w).count i = _
    by_cases hiw : i = w
    · subst hiw
      rw [List.count_erase_self, hall, hself, if_pos rfl]
    · rw [List.count_erase_of_ne hiw, hother i hiw]
      exact h.allwaiters i
  · intro i hlt
    have hi := h.executions i hlt
    by_cases hiw : i = w
    · subst hiw
      rw [if_neg hphase] at hi
      rw [hself, if_pos rfl]
      dsimp only
      rw [hi]
    · rw [hother i hiw]
      exact hi

/-! ## Queueing a waiter again -/

/-- The exception that ends an execution allows for the accounting: it names
one variable, or several of which the first is not ready. -/
def Requeues (s : QueueScheduler) : WaiterAction → Prop
  | .multiUnset [] => False
  | .multiUnset (v :: _ :: _) => s.hasValue v = false
  | _ => True

instance (s : QueueScheduler) (a : WaiterAction) : Decidable (s.Requeues a) := by
  unfold Requeues
  split <;> infer_instance

theorem Counted.interrupted {s : QueueScheduler} {w : ℕ} (h : s.Counted [])
    (hexec : s.executing = some w) :
    ({ s with executing := none } : QueueScheduler).Registers w := by
  refine ⟨⟨some w, ?_, fun i hi => ?_⟩, ?_, by simp, (h.executing w hexec).2⟩
  · rw [← hexec]
    exact h
  · simpa using Ne.symm hi
  · exact (h.runqueue w).trans (if_neg (fun hr => hr.2.1 hexec))

theorem waitfor_missing (s : QueueScheduler) (w v : ℕ) :
    (s.waitfor w v).missing w = s.missing w + if s.hasValue v then 0 else 1 := by
  rw [waitfor]
  cases hv : s.hasValue v with
  | true =>
      rw [if_pos rfl, ready_missing, missing, countIn_self, List.countP_append]
      change s.missing w + List.countP (fun v => !s.hasValue v) [v] = _
      simp [hv]
  | false =>
      rw [if_neg (by decide)]
      simp only [missing, countIn_self, List.countP_append]
      have hhas : (s.countIn w v).hasValue = s.hasValue := rfl
      simp [hhas, hv]

theorem Counted.waitforAll {s : QueueScheduler} {w : ℕ} (vs : List ℕ) (h : s.Counted [])
    (hw : 0 < s.missing w) :
    (vs.foldl (fun s v => s.waitfor w v) s).Counted [] := by
  induction vs generalizing s with
  | nil => exact h
  | cons v vs ih =>
      have hpos : 0 < (s.waiters w).waitcount := by
        rw [h.waitcount w]
        omega
      refine ih ((h.registers hpos).waitfor v) ?_
      rw [waitfor_missing]
      omega

theorem Counted.requeue {s : QueueScheduler} {w : ℕ} {vs : List ℕ} (h : s.Counted [])
    (hexec : s.executing = some w) (hvs : s.Requeues (.multiUnset vs)) :
    (s.requeue w vs).Counted [] := by
  match vs, hvs with
  | [v], _ => exact (h.interrupted hexec).waitfor v
  | v :: u :: vs, hv =>
      refine Counted.waitforAll (u :: vs) ((h.interrupted hexec).waitfor v) ?_
      have hv' : s.hasValue v = false := hv
      rw [waitfor_missing, hv']
      simp

/-- What a further registration of a waiter can only make larger. -/
theorem waitfor_le (s : QueueScheduler) (w v : ℕ) :
    (s.waiters w).waitcount ≤ ((s.waitfor w v).waiters w).waitcount ∧
      s.runqueue.count w ≤ (s.waitfor w v).runqueue.count w ∧
      (s.waitfor w v).executing = s.executing ∧ (s.waitfor w v).created = s.created ∧
      ((s.waitfor w v).waiters w).phase = (s.waiters w).phase := by
  rw [waitfor]
  cases hv : s.hasValue v with
  | true =>
      rw [if_pos rfl, ready_waiters_self, countIn_self, ready_runqueue]
      refine ⟨by simp, ?_, rfl, rfl, rfl⟩
      split
      · rw [List.count_append]
        exact Nat.le_add_right _ _
      · exact Nat.le_refl _
  | false =>
      rw [if_neg (by decide)]
      refine ⟨?_, Nat.le_refl _, rfl, rfl, by simp⟩
      simp only [countIn_self]
      omega

theorem waitforAll_le (s : QueueScheduler) (w : ℕ) (vs : List ℕ) :
    (s.waiters w).waitcount ≤ ((vs.foldl (fun s v => s.waitfor w v) s).waiters w).waitcount ∧
      s.runqueue.count w ≤ (vs.foldl (fun s v => s.waitfor w v) s).runqueue.count w ∧
      (vs.foldl (fun s v => s.waitfor w v) s).executing = s.executing ∧
      (vs.foldl (fun s v => s.waitfor w v) s).created = s.created ∧
      ((vs.foldl (fun s v => s.waitfor w v) s).waiters w).phase = (s.waiters w).phase := by
  induction vs generalizing s with
  | nil => exact ⟨Int.le_refl _, Nat.le_refl _, rfl, rfl, rfl⟩
  | cons v vs ih =>
      obtain ⟨hcount, hqueue, hexec, hcreated, hphase⟩ := waitfor_le s w v
      obtain ⟨hcount', hqueue', hexec', hcreated', hphase'⟩ := ih (s.waitfor w v)
      exact ⟨Int.le_trans hcount hcount', Nat.le_trans hqueue hqueue', hexec'.trans hexec,
        hcreated'.trans hcreated, hphase'.trans hphase⟩

theorem waitfor_ready {s : QueueScheduler} {w v : ℕ} (hv : s.hasValue v = true)
    (hw : (s.waiters w).waitcount = 0) :
    ((s.waitfor w v).waiters w).waitcount = 0 ∧
      (s.waitfor w v).runqueue = s.runqueue ++ [w] := by
  rw [waitfor, if_pos hv, ready_waiters_self, countIn_self, ready_runqueue]
  simp only [countIn_self, hw]
  exact ⟨rfl, rfl⟩

theorem waitfor_unready {s : QueueScheduler} {w v : ℕ} (hv : s.hasValue v = false) :
    ((s.waitfor w v).waiters w).waitcount = (s.waiters w).waitcount + 1 := by
  rw [waitfor, if_neg (by rw [hv]; decide), countIn_self]

/-- A waiter that is queued again with a first variable that is ready joins the
run queue, and the further variables come too late. -/
theorem Counted.not_accounted_requeue {s : QueueScheduler} {w : ℕ} {vs : List ℕ}
    (h : s.Counted []) (hexec : s.executing = some w)
    (hvs : ¬ s.Requeues (.multiUnset vs)) : ¬ (s.requeue w vs).Accounted := by
  intro ha
  obtain ⟨hzero, hphase⟩ := h.executing w hexec
  have hw : w < s.created := by
    by_contra hn
    exact hphase (h.unborn w (by omega))
  match vs, hvs with
  | [], _ =>
      have hq := ((ha.2 w hw).queued).mpr ⟨hzero, by simp [QueueScheduler.requeue], hphase⟩
      have hnot := (h.interrupted hexec).queued
      exact absurd hnot (by have := List.count_pos_iff.mpr hq; exact Nat.pos_iff_ne_zero.mp this)
  | [v], hvs => exact hvs trivial
  | v :: u :: vs, hvs =>
      have hv : s.hasValue v = true := by
        cases hv : s.hasValue v with
        | true => rfl
        | false => exact absurd hv hvs
      let s₁ := ({ s with executing := none } : QueueScheduler).waitfor w v
      obtain ⟨hzero₁, hqueue₁⟩ := waitfor_ready (s := { s with executing := none }) hv hzero
      have hcount₁ : 1 ≤ s₁.runqueue.count w := by
        rw [hqueue₁, List.count_append, List.count_singleton_self]
        omega
      obtain ⟨hcount₂, hqueue₂, hexec₂, hcreated₂, -⟩ := waitfor_le s₁ w u
      obtain ⟨hcount₃, hqueue₃, hexec₃, hcreated₃, -⟩ := waitforAll_le (s₁.waitfor w u) w vs
      have hcreated₁ := (waitfor_le ({ s with executing := none } : QueueScheduler) w v).2.2.2.1
      have hwr : w < (s.requeue w (v :: u :: vs)).created := by
        change w < (vs.foldl (fun s v => s.waitfor w v) (s₁.waitfor w u)).created
        rw [hcreated₃, hcreated₂]
        exact hcreated₁ ▸ hw
      have haw := ha.2 w hwr
      have hmem : w ∈ (s.requeue w (v :: u :: vs)).runqueue :=
        List.count_pos_iff.mp (Nat.lt_of_lt_of_le Nat.one_pos
          (Nat.le_trans hcount₁ (Nat.le_trans hqueue₂ hqueue₃)))
      have hlast := ((haw.queued).mp hmem).1
      have hlast' : ((s₁.waitfor w u).waiters w).waitcount ≤ 0 := hlast ▸ hcount₃
      cases hu : s₁.hasValue u with
      | true =>
          have hqueue₂' := (waitfor_ready (s := s₁) hu hzero₁).2
          have hcount₂' : (s₁.waitfor w u).runqueue.count w = s₁.runqueue.count w + 1 := by
            rw [hqueue₂', List.count_append, List.count_singleton_self]
          have honce : (vs.foldl (fun s v => s.waitfor w v) (s₁.waitfor w u)).runqueue.count w ≤ 1 :=
            haw.once
          omega
      | false =>
          have := waitfor_unready (s := s₁) (w := w) hu
          have hzero₁' : (s₁.waiters w).waitcount = 0 := hzero₁
          omega

theorem counted_step {s s' : QueueScheduler} {a : WaiterAction} (h : s.Counted [])
    (ha : s.Requeues a) (hs : s.step a = some s') : s'.Counted [] := by
  unfold step at hs
  rw [if_neg (by rw [h.sound]; decide)] at hs
  cases a with
  | create requires =>
      obtain rfl := Option.some.inj hs
      exact h.create requires
  | register w =>
      dsimp only at hs
      split at hs
      · next hw =>
        obtain rfl := Option.some.inj hs
        exact h.register hw
      · cases hs
  | constructed w =>
      dsimp only at hs
      split at hs
      · next hw =>
        obtain rfl := Option.some.inj hs
        exact h.constructed hw
      · cases hs
  | complete v =>
      dsimp only at hs
      split at hs
      · cases hs
      · next hv =>
        obtain rfl := Option.some.inj hs
        exact h.complete (Bool.eq_false_iff.mpr hv)
  | start =>
      dsimp only at hs
      split at hs
      · next hexec hqueue =>
        obtain rfl := Option.some.inj hs
        exact h.start hexec hqueue
      · cases hs
  | finish =>
      obtain ⟨w, hexec, rfl⟩ := Option.map_eq_some_iff.mp hs
      exact h.finish hexec
  | unset v =>
      obtain ⟨w, hexec, rfl⟩ := Option.map_eq_some_iff.mp hs
      exact h.requeue hexec trivial
  | multiUnset vs =>
      obtain ⟨w, hexec, rfl⟩ := Option.map_eq_some_iff.mp hs
      exact h.requeue hexec ha

theorem not_accounted_step {s s' : QueueScheduler} {a : WaiterAction} (h : s.Counted [])
    (ha : ¬ s.Requeues a) (hs : s.step a = some s') : ¬ s'.Accounted := by
  unfold step at hs
  rw [if_neg (by rw [h.sound]; decide)] at hs
  cases a with
  | multiUnset vs =>
      obtain ⟨w, hexec, rfl⟩ := Option.map_eq_some_iff.mp hs
      exact h.not_accounted_requeue hexec ha
  | _ => exact absurd trivial ha

/-- **Waiter accounting.** Whatever variables are ready at the start: all along
a run of the compiler each waiter counts its registrations with variables that
are not ready, it is in the run queue once and just when it can be executed,
no count becomes negative, and no waiter is left only when each was executed to
completion once, if and only if every `MultiUnsetException` of the run names
one variable, or several of which the first is not ready. -/
theorem accounted_iff (hasValue : ℕ → Bool) {as : List WaiterAction} {r : QueueScheduler}
    (hrun : run step (init hasValue) as = some r) :
    Always step Accounted (init hasValue) as ↔ Along step Requeues (init hasValue) as :=
  always_iff_along_of_strengthening (I := fun s => s.Counted []) (fun _ h => h.accounted)
    (fun _ _ _ h ha hs => counted_step h ha hs)
    (fun _ _ _ h ha hs => not_accounted_step h ha hs) (counted_init hasValue) hrun

theorem accounted_iff_interrupted :
    Always step Accounted (init fun _ => false)
      [.create [], .constructed 0, .start, .multiUnset [0, 1], .complete 1, .complete 0, .start,
        .finish] :=
  have hrun : ∃ r, run step (init fun _ => false)
      [.create [], .constructed 0, .start, .multiUnset [0, 1], .complete 1, .complete 0, .start,
        .finish] = some r ∧ r.allwaiters = [] :=
    exists_run_of_any step (init fun _ => false) _ (p := fun r => r.allwaiters = []) (by decide)
  have ⟨_, hr, _⟩ := hrun
  (accounted_iff (fun _ => false) hr).mpr (by decide)

/-- The first of the two variables is ready: the waiter is in the run queue
although it waits for the second one. -/
theorem requeued_with_ready_not_accounted :
    ∃ r, run step (init fun v => v == 0)
        [.create [], .constructed 0, .start, .multiUnset [0, 1]] = some r ∧ ¬ r.Accounted := by
  obtain ⟨r, hr, hcreated, hqueue, hcount⟩ := exists_run_of_any step (init fun v => v == 0)
    [.create [], .constructed 0, .start, .multiUnset [0, 1]]
    (p := fun r => 0 < r.created ∧ 0 ∈ r.runqueue ∧ (r.waiters 0).waitcount = 1) (by decide)
  refine ⟨r, hr, fun h => ?_⟩
  have hzero := ((h.2 0 hcreated).queued.mp hqueue).1
  omega

end QueueScheduler

end Inmanta
