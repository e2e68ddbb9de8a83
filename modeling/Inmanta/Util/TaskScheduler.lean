import Inmanta.Lib.LoopTasks
import Inmanta.Lib.Run

/-!
# The scheduler of periodic tasks

A `Scheduler` starts an action whenever the timer of a scheduled task goes off,
and sets the next timer. Timers go off, tasks end, callers add and remove
actions, stop the scheduler and wait for the stop, in any order.

When a timer goes off is not modelled: any timer that is pending may. What the
action does is not either; that it may fail to give a coroutine is.
-/

namespace Inmanta

open Asyncio

structure ScheduledTask (α σ : Type) where
  action : α
  schedule : σ
  deriving DecidableEq

/-- A timer handle that is pending: the `action_function` it calls. -/
structure TimerHandle (α σ : Type) where
  task : ScheduledTask α σ
  cancelOnStop : Bool

structure TaskScheduler (α σ : Type) where
  /-- The handle of each scheduled task. -/
  scheduled : Dict (ScheduledTask α σ) Nat
  stopped : Bool
  executingTasks : Dict α (List Nat)
  awaitTasks : Dict α (List Nat)
  /-- The handles the event loop is to call. -/
  timers : Dict Nat (TimerHandle α σ)
  nextHandle : Nat
  /-- The tasks that were started and have not called back. -/
  loop : LoopTasks
  /-- Every task that was ever started: its action, and whether it is cancelled by a stop. -/
  started : Dict Nat (α × Bool)
  /-- The callers of `stop` that wait, and the tasks they wait for. -/
  stopCalls : Dict Nat (List Nat)
  nextStop : Nat

namespace TaskScheduler

variable {α σ : Type} [DecidableEq α] [DecidableEq σ]

def init : TaskScheduler α σ where
  scheduled := .empty
  stopped := false
  executingTasks := .empty
  awaitTasks := .empty
  timers := .empty
  nextHandle := 0
  loop := .empty
  started := .empty
  stopCalls := .empty
  nextStop := 0

/-- `call_later`, and the handle is stored for the task. -/
def callLater (s : TaskScheduler α σ) (h : TimerHandle α σ) : TaskScheduler α σ :=
  { s with
    timers := s.timers.set s.nextHandle h
    nextHandle := s.nextHandle + 1
    scheduled := s.scheduled.set h.task s.nextHandle }

def remove (s : TaskScheduler α σ) (task : ScheduledTask α σ) : TaskScheduler α σ :=
  match s.scheduled.get? task with
  | none => s
  | some handle =>
      { s with timers := s.timers.del handle, scheduled := s.scheduled.del task }

def addAction (s : TaskScheduler α σ) (task : ScheduledTask α σ) (cancelOnStop : Bool) :
    TaskScheduler α σ :=
  if s.stopped then s
  else (if task ∈ s.scheduled then s.remove task else s).callLater ⟨task, cancelOnStop⟩

def addToExecutingTasks (s : TaskScheduler α σ) (action : α) (task : Nat)
    (cancelOnStop : Bool) : TaskScheduler α σ :=
  { s with
    executingTasks := s.executingTasks.set action (s.executingTasks.getD action [] ++ [task])
    awaitTasks :=
      if cancelOnStop then s.awaitTasks
      else s.awaitTasks.set action (s.awaitTasks.getD action [] ++ [task]) }

/-- Create the task of an action and register it. -/
def startTask (s : TaskScheduler α σ) (action : α) (cancelOnStop : Bool) : TaskScheduler α σ :=
  { s with
    loop := s.loop.create
    started := s.started.set s.loop.next (action, cancelOnStop) }.addToExecutingTasks
      action s.loop.next cancelOnStop

/-- A timer goes off; `raises`: the action fails to give a coroutine. -/
def actionFunction (s : TaskScheduler α σ) (h : TimerHandle α σ) (raises : Bool) :
    TaskScheduler α σ :=
  if h.task ∈ s.scheduled then
    (if raises then s else s.startTask h.task.action h.cancelOnStop).callLater h
  else s

/-- Remove a task from the list of its action; the other keys are left alone. -/
def removeFromTaskDict (d : Dict α (List Nat)) (action : α) (task : Nat) : Dict α (List Nat) :=
  match d.get? action with
  | none => d
  | some tasks => d.set action (tasks.erase task)

def notifyDone (s : TaskScheduler α σ) (action : α) (task : Nat) : TaskScheduler α σ :=
  { s with
    executingTasks := removeFromTaskDict s.executingTasks action task
    awaitTasks := removeFromTaskDict s.awaitTasks action task }

/-- The tasks a `stop` cancels: those that are executing and not awaited. -/
def cancelledByStop (s : TaskScheduler α σ) : List Nat :=
  s.executingTasks.items.flatMap fun (action, tasks) =>
    tasks.filter fun task => task ∉ s.awaitTasks.getD action []

/-- `stop` up to the point where it waits for the tasks it does not cancel. -/
def stop (s : TaskScheduler α σ) : TaskScheduler α σ :=
  { s with
    stopped := true
    timers := s.scheduled.values.foldl Dict.del s.timers
    scheduled := .empty
    loop := s.loop.cancelAll s.cancelledByStop
    stopCalls := s.stopCalls.set s.nextStop s.awaitTasks.values.flatten
    nextStop := s.nextStop + 1 }

inductive Step (α σ : Type) where
  | addAction (task : ScheduledTask α σ) (cancelOnStop : Bool)
  | remove (task : ScheduledTask α σ)
  | timer (handle : Nat) (raises : Bool)
  | taskEnds (task : Nat) (ok : Bool)
  /-- The done callbacks of a task: first that of the scheduler, then those of the callers
  that wait for it. -/
  | taskDone (task : Nat)
  | stop
  | stopReturns (call : Nat)
  /-- A caller that waits in `stop` is cancelled, and with it the tasks it waits for. -/
  | stopCancelled (call : Nat)

def step (s : TaskScheduler α σ) : Step α σ → Option (TaskScheduler α σ)
  | .addAction task cancelOnStop => some (s.addAction task cancelOnStop)
  | .remove task => some (s.remove task)
  | .timer handle raises =>
      match s.timers.get? handle with
      | none => none
      | some h => some ({ s with timers := s.timers.del handle }.actionFunction h raises)
  | .taskEnds task ok =>
      match s.loop.finish task ok with
      | none => none
      | some loop => some { s with loop }
  | .taskDone task =>
      match s.loop.notify task, s.started.get? task with
      | some loop, some (action, _) => some ({ s with loop }.notifyDone action task)
      | _, _ => none
  | .stop => some s.stop
  | .stopReturns call =>
      match s.stopCalls.get? call with
      | none => none
      | some tasks =>
          if ∀ t ∈ tasks, t ∉ s.loop then some { s with stopCalls := s.stopCalls.del call }
          else none
  | .stopCancelled call =>
      match s.stopCalls.get? call with
      | none => none
      | some tasks => some { s with loop := s.loop.cancelAll tasks }

/-! ## Timers -/

/-- Each pending timer is the one that is stored for its task, and each scheduled
task has its timer, those in `busy` excepted: they have none. -/
structure TimersAgree (s : TaskScheduler α σ) (busy : ScheduledTask α σ → Prop) : Prop where
  timer_stored : ∀ h t, s.timers.get? h = some t →
    ¬ busy t.task ∧ s.scheduled.get? t.task = some h
  task_has_timer : ∀ k h, ¬ busy k → s.scheduled.get? k = some h →
    ∃ t, s.timers.get? h = some t ∧ t.task = k
  fresh : ∀ h, h ∈ s.timers → h < s.nextHandle

/-- Without its timer a task is busy, whether it stays scheduled or not. -/
theorem TimersAgree.del {s s' : TaskScheduler α σ} (hs : s.TimersAgree fun _ => False)
    {k : ScheduledTask α σ} {handle : Nat} (hk : s.scheduled.get? k = some handle)
    (htimers : s'.timers = s.timers.del handle) (hnext : s'.nextHandle = s.nextHandle)
    (hscheduled : ∀ k', k' ≠ k → s'.scheduled.get? k' = s.scheduled.get? k') :
    s'.TimersAgree (· = k) := by
  refine ⟨fun h t ht => ?_, fun k' h hne hk' => ?_, fun h hh => ?_⟩
  · rw [htimers, Dict.get?_del] at ht
    split at ht
    · cases ht
    rename_i hne
    have hstored := (hs.timer_stored h t ht).2
    have htk : t.task ≠ k := by
      rintro rfl
      exact hne (Option.some.inj (hstored.symm.trans hk))
    exact ⟨htk, (hscheduled _ htk).trans hstored⟩
  · rw [hscheduled k' hne] at hk'
    obtain ⟨t, ht, rfl⟩ := hs.task_has_timer k' h not_false hk'
    refine ⟨t, ?_, rfl⟩
    rw [htimers, Dict.get?_del, if_neg]
    · exact ht
    · rintro rfl
      obtain ⟨t', ht', rfl⟩ := hs.task_has_timer k h not_false hk
      exact hne (congrArg TimerHandle.task (Option.some.inj (ht.symm.trans ht')))
  · rw [htimers, Dict.mem_del] at hh
    rw [hnext]
    exact hs.fresh h hh.2

theorem TimersAgree.of_not_mem {s : TaskScheduler α σ} (hs : s.TimersAgree fun _ => False)
    {k : ScheduledTask α σ} (hk : k ∉ s.scheduled) : s.TimersAgree (· = k) := by
  refine ⟨fun h t ht => ?_, fun k' h _ hk' => hs.task_has_timer k' h not_false hk', hs.fresh⟩
  have hstored := (hs.timer_stored h t ht).2
  refine ⟨?_, hstored⟩
  rintro rfl
  exact hk (Dict.mem_of_get? hstored)

/-- The next timer of a busy task. -/
theorem TimersAgree.callLater {s : TaskScheduler α σ} {h : TimerHandle α σ}
    (hs : s.TimersAgree (· = h.task)) : (s.callLater h).TimersAgree fun _ => False := by
  refine ⟨fun n t ht => ⟨not_false, ?_⟩, fun k n _ hk => ?_, fun n hn => ?_⟩
  · simp only [TaskScheduler.callLater, Dict.get?_set] at ht ⊢
    split at ht
    · rename_i hn
      obtain rfl := Option.some.inj ht
      rw [if_pos rfl, hn]
    · obtain ⟨hne, hstored⟩ := hs.timer_stored n t ht
      rw [if_neg hne]
      exact hstored
  · simp only [TaskScheduler.callLater, Dict.get?_set] at hk ⊢
    split at hk
    · rename_i hkt
      obtain rfl := Option.some.inj hk
      exact ⟨h, if_pos rfl, hkt.symm⟩
    · rename_i hne
      obtain ⟨t, ht, rfl⟩ := hs.task_has_timer k n hne hk
      refine ⟨t, ?_, rfl⟩
      rw [if_neg]
      · exact ht
      · rintro rfl
        exact Nat.lt_irrefl _ (hs.fresh _ (Dict.mem_of_get? ht))
  · rcases Dict.mem_set.mp hn with rfl | hn
    · exact Nat.lt_succ_self _
    · exact Nat.lt_succ_of_lt (hs.fresh n hn)

theorem TimersAgree.congr {s s' : TaskScheduler α σ} {busy : ScheduledTask α σ → Prop}
    (hs : s.TimersAgree busy) (hscheduled : s'.scheduled = s.scheduled)
    (htimers : s'.timers = s.timers) (hnext : s'.nextHandle = s.nextHandle) :
    s'.TimersAgree busy := by
  refine ⟨?_, ?_, ?_⟩
  · rw [htimers, hscheduled]
    exact hs.timer_stored
  · rw [htimers, hscheduled]
    exact hs.task_has_timer
  · rw [htimers, hnext]
    exact hs.fresh

theorem TimersAgree.remove {s : TaskScheduler α σ} (hs : s.TimersAgree fun _ => False)
    (task : ScheduledTask α σ) : (s.remove task).TimersAgree fun _ => False := by
  unfold TaskScheduler.remove
  split
  · exact hs
  · rename_i handle hk
    have h : TimersAgree
        { s with timers := s.timers.del handle, scheduled := s.scheduled.del task } (· = task) :=
      hs.del hk rfl rfl fun k' hne => by rw [Dict.get?_del, if_neg hne]
    refine ⟨fun n t ht => ⟨not_false, (h.timer_stored n t ht).2⟩, fun k n _ hkn => ?_, h.fresh⟩
    refine h.task_has_timer k n ?_ hkn
    rintro rfl
    simp [Dict.get?_del] at hkn

theorem TimersAgree.addAction {s : TaskScheduler α σ} (hs : s.TimersAgree fun _ => False)
    (task : ScheduledTask α σ) (cancelOnStop : Bool) :
    (s.addAction task cancelOnStop).TimersAgree fun _ => False := by
  unfold TaskScheduler.addAction
  split
  · exact hs
  refine TimersAgree.callLater ?_
  split
  · refine (hs.remove task).of_not_mem ?_
    unfold TaskScheduler.remove
    split
    · rename_i hnone
      exact Dict.not_mem_iff.mpr hnone
    · simp
  · rename_i hno
    exact hs.of_not_mem hno

/-- A timer that goes off. -/
theorem TimersAgree.actionFunction {s : TaskScheduler α σ} (hs : s.TimersAgree fun _ => False)
    {handle : Nat} {h : TimerHandle α σ} (hh : s.timers.get? handle = some h) (raises : Bool) :
    ({ s with timers := s.timers.del handle }.actionFunction h raises).TimersAgree
      fun _ => False := by
  have hstored := (hs.timer_stored handle h hh).2
  have hbusy : TimersAgree { s with timers := s.timers.del handle } (· = h.task) :=
    hs.del hstored rfl rfl fun _ _ => rfl
  unfold TaskScheduler.actionFunction
  rw [if_pos (Dict.mem_of_get? hstored)]
  refine TimersAgree.callLater ?_
  split
  · exact hbusy
  · exact hbusy.congr rfl rfl rfl

theorem mem_foldl_del {κ ν : Type} [DecidableEq κ] {d : Dict κ ν} {ks : List κ} {k : κ} :
    k ∈ ks.foldl Dict.del d ↔ k ∈ d ∧ k ∉ ks := by
  induction ks generalizing d with
  | nil => simp
  | cons k' ks ih =>
      rw [List.foldl_cons, ih, Dict.mem_del, List.mem_cons, not_or]
      rw [and_left_comm, and_assoc]

/-- A stop leaves no timer behind. -/
theorem TimersAgree.not_mem_timers_stop {s : TaskScheduler α σ}
    (hs : s.TimersAgree fun _ => False) (h : Nat) : h ∉ s.stop.timers := by
  intro hh
  obtain ⟨hd, hks⟩ := mem_foldl_del.mp hh
  obtain ⟨t, ht⟩ := Dict.mem_iff.mp hd
  exact hks (Dict.mem_values.mpr ⟨t.task, (hs.timer_stored h t ht).2⟩)

theorem TimersAgree.stop {s : TaskScheduler α σ} (hs : s.TimersAgree fun _ => False) :
    s.stop.TimersAgree fun _ => False := by
  refine ⟨fun h t ht => ?_, fun k h _ hk => ?_, fun h hh => ?_⟩
  · exact absurd (Dict.mem_of_get? ht) (hs.not_mem_timers_stop h)
  · exact absurd (Dict.mem_of_get? hk) (Dict.not_mem_empty k)
  · exact absurd hh (hs.not_mem_timers_stop h)

/-! ## Registered tasks -/

/-- The lists of a dictionary hold what the relation says, each task once. -/
def Registers (d : Dict α (List Nat)) (P : α → Nat → Prop) : Prop :=
  ∀ a, (d.getD a []).Nodup ∧ ∀ t, t ∈ d.getD a [] ↔ P a t

omit [DecidableEq σ] in
theorem Registers.congr {d : Dict α (List Nat)} {P Q : α → Nat → Prop} (hd : Registers d P)
    (h : ∀ a t, P a t ↔ Q a t) : Registers d Q :=
  fun a => ⟨(hd a).1, fun t => ((hd a).2 t).trans (h a t)⟩

theorem Registers.append {d : Dict α (List Nat)} {P : α → Nat → Prop} (hd : Registers d P)
    {a : α} {t : Nat} (hnew : ¬ P a t) :
    Registers (d.set a (d.getD a [] ++ [t])) fun b u => P b u ∨ (b = a ∧ u = t) := by
  intro b
  rw [Dict.getD_set]
  split
  · rename_i hba
    subst hba
    obtain ⟨hnodup, hmem⟩ := hd b
    refine ⟨?_, fun u => ?_⟩
    · refine List.nodup_append.mpr ⟨hnodup, List.nodup_singleton t, ?_⟩
      rintro u hu v hv rfl
      obtain rfl := List.mem_singleton.mp hv
      exact hnew ((hmem u).mp hu)
    · rw [List.mem_append, List.mem_singleton, hmem]
      simp
  · rename_i hba
    refine ⟨(hd b).1, fun u => ?_⟩
    rw [(hd b).2]
    simp [hba]

theorem Registers.erase {d : Dict α (List Nat)} {P : α → Nat → Prop} (hd : Registers d P)
    (a : α) (t : Nat) :
    Registers (removeFromTaskDict d a t) fun b u => P b u ∧ ¬ (b = a ∧ u = t) := by
  intro b
  unfold removeFromTaskDict
  split
  · rename_i hnone
    refine ⟨(hd b).1, fun u => ?_⟩
    rw [(hd b).2]
    refine ⟨fun h => ⟨h, ?_⟩, And.left⟩
    rintro ⟨rfl, rfl⟩
    have hmem := ((hd b).2 u).mpr h
    rw [Dict.getD, hnone] at hmem
    cases hmem
  · rename_i tasks htasks
    rw [Dict.getD_set]
    split
    · rename_i hba
      subst hba
      obtain ⟨hnodup, hmem⟩ := hd b
      rw [Dict.getD_of_get? htasks] at hnodup hmem
      refine ⟨hnodup.erase t, fun u => ?_⟩
      rw [hnodup.mem_erase_iff, hmem]
      simp only [true_and]
      exact and_comm
    · rename_i hba
      refine ⟨(hd b).1, fun u => ?_⟩
      rw [(hd b).2]
      simp [hba]

/-- The tasks that have not called back are registered, each once, under its action. -/
structure TasksRegistered (s : TaskScheduler α σ) : Prop where
  executing : Registers s.executingTasks fun a t =>
    t ∈ s.loop ∧ ∃ c, s.started.get? t = some (a, c)
  awaited : Registers s.awaitTasks fun a t => t ∈ s.loop ∧ s.started.get? t = some (a, false)
  started_of_mem : ∀ t, t ∈ s.loop → t ∈ s.started
  started_fresh : ∀ t, t ∈ s.started → t < s.loop.next

omit [DecidableEq σ] in
theorem TasksRegistered.congr {s s' : TaskScheduler α σ} (hs : s.TasksRegistered)
    (hexecuting : s'.executingTasks = s.executingTasks) (hawait : s'.awaitTasks = s.awaitTasks)
    (hstarted : s'.started = s.started) (hloop : ∀ t, t ∈ s'.loop ↔ t ∈ s.loop)
    (hnext : s'.loop.next = s.loop.next) : s'.TasksRegistered := by
  refine ⟨?_, ?_, ?_, ?_⟩
  · rw [hexecuting]
    exact hs.executing.congr fun a t => by rw [hloop, hstarted]
  · rw [hawait]
    exact hs.awaited.congr fun a t => by rw [hloop, hstarted]
  · intro t ht
    rw [hstarted]
    exact hs.started_of_mem t ((hloop t).mp ht)
  · rw [hstarted, hnext]
    exact hs.started_fresh

omit [DecidableEq σ] in
theorem TasksRegistered.startTask {s : TaskScheduler α σ} (hs : s.TasksRegistered) (action : α)
    (cancelOnStop : Bool) : (s.startTask action cancelOnStop).TasksRegistered := by
  have hnew : s.loop.next ∉ s.started := fun h => Nat.lt_irrefl _ (hs.started_fresh _ h)
  have hold : ∀ t, t ∈ s.loop → t ≠ s.loop.next := by
    rintro t ht rfl
    exact s.loop.not_mem_next ht
  refine ⟨?_, ?_, fun t ht => ?_, fun t ht => ?_⟩
  · refine (hs.executing.append (a := action) fun h => s.loop.not_mem_next h.1).congr fun a t => ?_
    change _ ↔ t ∈ s.loop.create ∧ ∃ c, (s.started.set _ _).get? t = some (a, c)
    rw [LoopTasks.mem_create, Dict.get?_set]
    by_cases ht : t = s.loop.next
    · subst ht
      simp [s.loop.not_mem_next, eq_comm]
    · simp [ht]
  · change Registers (if cancelOnStop = true then s.awaitTasks else _) fun a t =>
      t ∈ s.loop.create ∧ (s.started.set _ _).get? t = some (a, false)
    cases cancelOnStop with
    | true =>
        refine hs.awaited.congr fun a t => ?_
        rw [LoopTasks.mem_create, Dict.get?_set]
        by_cases ht : t = s.loop.next
        · subst ht
          simp [s.loop.not_mem_next]
        · simp [ht]
    | false =>
        refine (hs.awaited.append (a := action) fun h => s.loop.not_mem_next h.1).congr
          fun a t => ?_
        rw [LoopTasks.mem_create, Dict.get?_set]
        by_cases ht : t = s.loop.next
        · subst ht
          simp [s.loop.not_mem_next, eq_comm]
        · simp [ht]
  · refine Dict.mem_set.mpr ?_
    rcases LoopTasks.mem_create.mp ht with rfl | ht
    · exact .inl rfl
    · exact .inr (hs.started_of_mem t ht)
  · rcases Dict.mem_set.mp ht with rfl | ht
    · exact Nat.lt_succ_self _
    · exact Nat.lt_succ_of_lt (hs.started_fresh t ht)

omit [DecidableEq σ] in
theorem TasksRegistered.notifyDone {s : TaskScheduler α σ} (hs : s.TasksRegistered) {task : Nat}
    {loop : LoopTasks} (hloop : s.loop.notify task = some loop) {action : α} {c : Bool}
    (haction : s.started.get? task = some (action, c)) :
    ({ s with loop }.notifyDone action task).TasksRegistered := by
  refine ⟨?_, ?_, fun t ht => ?_, ?_⟩
  · refine (hs.executing.erase action task).congr fun a t => ?_
    change _ ↔ t ∈ loop ∧ ∃ c, s.started.get? t = some (a, c)
    rw [LoopTasks.mem_notify hloop]
    by_cases ht : t = task
    · subst ht
      rw [haction]
      simp [eq_comm]
    · simp [ht]
  · refine (hs.awaited.erase action task).congr fun a t => ?_
    change _ ↔ t ∈ loop ∧ s.started.get? t = some (a, false)
    rw [LoopTasks.mem_notify hloop]
    by_cases ht : t = task
    · subst ht
      constructor
      · rintro ⟨⟨-, h⟩, hno⟩
        have ha := congrArg Prod.fst (Option.some.inj (h.symm.trans haction))
        exact absurd ⟨ha, rfl⟩ hno
      · rintro ⟨⟨-, hne⟩, -⟩
        exact absurd rfl hne
    · simp [ht]
  · exact hs.started_of_mem t ((LoopTasks.mem_notify hloop).mp ht).1
  · change ∀ t, t ∈ s.started → t < loop.next
    rw [(LoopTasks.notify_inv hloop).2.1]
    exact hs.started_fresh

/-! ## Runs -/

/-- The books of the scheduler are right. -/
structure Inv (s : TaskScheduler α σ) : Prop where
  timers : s.TimersAgree fun _ => False
  tasks : s.TasksRegistered
  none_after_stop : s.stopped = true → ∀ k, k ∉ s.scheduled

theorem inv_init : (init : TaskScheduler α σ).Inv where
  timers :=
    { timer_stored := fun _ _ h => absurd (Dict.mem_of_get? h) (Dict.not_mem_empty _)
      task_has_timer := fun _ _ _ h => absurd (Dict.mem_of_get? h) (Dict.not_mem_empty _)
      fresh := fun _ h => absurd h (Dict.not_mem_empty _) }
  tasks :=
    { executing := fun a =>
        ⟨List.nodup_nil, fun t => iff_of_false List.not_mem_nil fun h =>
          LoopTasks.not_mem_empty t h.1⟩
      awaited := fun a =>
        ⟨List.nodup_nil, fun t => iff_of_false List.not_mem_nil fun h =>
          LoopTasks.not_mem_empty t h.1⟩
      started_of_mem := fun t h => absurd h (LoopTasks.not_mem_empty t)
      started_fresh := fun t h => absurd h (Dict.not_mem_empty t) }
  none_after_stop := fun h => by cases h

theorem Inv.addAction {s : TaskScheduler α σ} (hs : s.Inv) (task : ScheduledTask α σ)
    (cancelOnStop : Bool) : (s.addAction task cancelOnStop).Inv := by
  refine ⟨hs.timers.addAction task cancelOnStop, ?_, ?_⟩
  · unfold TaskScheduler.addAction
    split
    · exact hs.tasks
    · refine hs.tasks.congr ?_ ?_ ?_ (fun t => Iff.of_eq ?_) ?_ <;>
      · simp only [TaskScheduler.callLater]
        split
        · unfold TaskScheduler.remove
          split <;> rfl
        · rfl
  · unfold TaskScheduler.addAction
    split
    · exact hs.none_after_stop
    · rename_i hstopped
      intro hstop
      refine absurd ?_ hstopped
      rw [← hstop]
      simp only [TaskScheduler.callLater]
      split
      · unfold TaskScheduler.remove
        split <;> rfl
      · rfl

theorem Inv.remove {s : TaskScheduler α σ} (hs : s.Inv) (task : ScheduledTask α σ) :
    (s.remove task).Inv := by
  refine ⟨hs.timers.remove task, ?_, ?_⟩
  · unfold TaskScheduler.remove
    split
    · exact hs.tasks
    · exact hs.tasks.congr rfl rfl rfl (fun _ => Iff.rfl) rfl
  · unfold TaskScheduler.remove
    split
    · exact hs.none_after_stop
    · intro hstop k hk
      exact hs.none_after_stop hstop k (Dict.mem_del.mp hk).2

theorem Inv.actionFunction {s : TaskScheduler α σ} (hs : s.Inv) {handle : Nat}
    {h : TimerHandle α σ} (hh : s.timers.get? handle = some h) (raises : Bool) :
    ({ s with timers := s.timers.del handle }.actionFunction h raises).Inv := by
  have hmem := Dict.mem_of_get? (hs.timers.timer_stored handle h hh).2
  refine ⟨hs.timers.actionFunction hh raises, ?_, ?_⟩
  · unfold TaskScheduler.actionFunction
    rw [if_pos hmem]
    cases raises with
    | true => exact hs.tasks.congr rfl rfl rfl (fun _ => Iff.rfl) rfl
    | false =>
        refine (hs.tasks.startTask h.task.action h.cancelOnStop).congr rfl rfl rfl
          (fun _ => Iff.rfl) rfl
  · intro hstop
    refine absurd hmem (hs.none_after_stop ?_ _)
    rw [← hstop]
    unfold TaskScheduler.actionFunction
    rw [if_pos hmem]
    cases raises <;> rfl

theorem Inv.stop {s : TaskScheduler α σ} (hs : s.Inv) : s.stop.Inv where
  timers := hs.timers.stop
  tasks := hs.tasks.congr rfl rfl rfl (fun _ => LoopTasks.mem_cancelAll)
    (LoopTasks.next_cancelAll ..)
  none_after_stop := fun _ k => Dict.not_mem_empty k

/-- Only the loop changes, and no task comes or goes. -/
theorem Inv.of_loop {s : TaskScheduler α σ} (hs : s.Inv) {loop : LoopTasks}
    (hloop : ∀ t, t ∈ loop ↔ t ∈ s.loop) (hnext : loop.next = s.loop.next) :
    Inv { s with loop } where
  timers := hs.timers.congr rfl rfl rfl
  tasks := hs.tasks.congr rfl rfl rfl hloop hnext
  none_after_stop := hs.none_after_stop

theorem Inv.step {s s' : TaskScheduler α σ} {a : Step α σ} (hs : s.Inv)
    (h : s.step a = some s') : s'.Inv := by
  cases a with
  | addAction task cancelOnStop =>
      obtain rfl := Option.some.inj h
      exact hs.addAction task cancelOnStop
  | remove task =>
      obtain rfl := Option.some.inj h
      exact hs.remove task
  | timer handle raises =>
      simp only [TaskScheduler.step] at h
      split at h
      · cases h
      · rename_i t ht
        obtain rfl := Option.some.inj h
        exact hs.actionFunction ht raises
  | taskEnds task ok =>
      simp only [TaskScheduler.step] at h
      split at h
      · cases h
      · rename_i loop hloop
        obtain rfl := Option.some.inj h
        refine hs.of_loop (fun t => LoopTasks.mem_finish hloop) ?_
        rw [(LoopTasks.finish_inv hloop).1, LoopTasks.next_move]
  | taskDone task =>
      simp only [TaskScheduler.step] at h
      split at h
      · rename_i loop action c hloop haction
        obtain rfl := Option.some.inj h
        exact ⟨hs.timers.congr rfl rfl rfl, hs.tasks.notifyDone hloop haction,
          hs.none_after_stop⟩
      · cases h
  | stop =>
      obtain rfl := Option.some.inj h
      exact hs.stop
  | stopReturns call =>
      simp only [TaskScheduler.step] at h
      split at h
      · cases h
      split at h
      · obtain rfl := Option.some.inj h
        exact ⟨hs.timers.congr rfl rfl rfl, hs.tasks.congr rfl rfl rfl (fun _ => Iff.rfl) rfl,
          hs.none_after_stop⟩
      · cases h
  | stopCancelled call =>
      simp only [TaskScheduler.step] at h
      split at h
      · cases h
      · obtain rfl := Option.some.inj h
        exact hs.of_loop (fun t => LoopTasks.mem_cancelAll) (LoopTasks.next_cancelAll ..)

theorem inv_run {s : TaskScheduler α σ} {as : List (Step α σ)}
    (h : Inmanta.run step init as = some s) : s.Inv :=
  run_invariant (fun _ _ _ hI _ hstep => hI.step hstep) inv_init
    (along_of_forall (fun _ _ => trivial) _ as) h

/-- A run of all kinds of steps: the task `false` is scheduled again while it executes, and
ends while a stop waits for it; the task `true` is cancelled by the stop. -/
def exampleRun : List (Step Bool Nat) × List (Step Bool Nat) :=
  ([.addAction ⟨true, 1⟩ true, .addAction ⟨false, 2⟩ false, .timer 0 false, .timer 1 false,
      .addAction ⟨false, 2⟩ false, .timer 2 true, .remove ⟨true, 1⟩],
    [.taskEnds 0 false, .addAction ⟨true, 1⟩ true, .taskEnds 1 true, .taskDone 1, .taskDone 0,
      .stopReturns 0])

/-- What a `stop` has settled for good: `call` is its place among the callers that
wait. -/
structure Stopped (s₀ : TaskScheduler α σ) (call : Nat) (s : TaskScheduler α σ) : Prop where
  inv : s.Inv
  stopped : s.stopped = true
  started : s.started = s₀.started
  later : s₀.stop.loop.Later s.loop
  not_next : call < s.nextStop
  waits : (∃ tasks, s.stopCalls.get? call = some tasks ∧
      ∀ a t, t ∈ s₀.awaitTasks.getD a [] → t ∈ tasks) ∨
    ∀ a t, t ∈ s₀.awaitTasks.getD a [] → t ∉ s.loop

theorem Stopped.init {s : TaskScheduler α σ} (hs : s.Inv) : s.Stopped s.nextStop s.stop where
  inv := hs.stop
  stopped := rfl
  started := rfl
  later := .refl _
  not_next := Nat.lt_succ_self _
  waits := by
    refine .inl ⟨s.awaitTasks.values.flatten, ?_, fun a t ht => ?_⟩
    · change (s.stopCalls.set _ _).get? _ = _
      rw [Dict.get?_set, if_pos rfl]
    · cases hg : s.awaitTasks.get? a with
      | none =>
          rw [Dict.getD, hg] at ht
          cases ht
      | some tasks =>
          rw [Dict.getD_of_get? hg] at ht
          exact List.mem_flatten.mpr ⟨tasks, Dict.mem_values.mpr ⟨a, hg⟩, ht⟩

/-- A step that leaves the callers of `stop` alone. -/
theorem Stopped.of_later {s₀ s s' : TaskScheduler α σ} {call : Nat} (hs : s₀.Stopped call s)
    (hinv : s'.Inv) (hstopped : s'.stopped = s.stopped) (hstarted : s'.started = s.started)
    (hloop : s.loop.Later s'.loop) (hcalls : s'.stopCalls = s.stopCalls)
    (hnext : s'.nextStop = s.nextStop) : s₀.Stopped call s' where
  inv := hinv
  stopped := hstopped.trans hs.stopped
  started := hstarted.trans hs.started
  later := hs.later.trans hloop
  not_next := by
    rw [hnext]
    exact hs.not_next
  waits := by
    rcases hs.waits with hw | hw
    · exact .inl (by rwa [hcalls])
    · exact .inr fun a t ht hl => hw a t ht (hloop.mem hl)

theorem Stopped.step {s₀ s s' : TaskScheduler α σ} {call : Nat} {a : Step α σ}
    (hs : s₀.Stopped call s) (h : s.step a = some s') : s₀.Stopped call s' := by
  have hinv := hs.inv.step h
  cases a with
  | addAction task cancelOnStop =>
      obtain rfl := Option.some.inj h
      have heq : s.addAction task cancelOnStop = s := by
        rw [TaskScheduler.addAction, if_pos hs.stopped]
      rw [heq]
      exact hs
  | remove task =>
      obtain rfl := Option.some.inj h
      have heq : s.remove task = s := by
        rw [TaskScheduler.remove, Dict.not_mem_iff.mp (hs.inv.none_after_stop hs.stopped task)]
      rw [heq]
      exact hs
  | timer handle raises =>
      simp only [TaskScheduler.step] at h
      split at h
      · cases h
      · rename_i t ht
        have hmem := Dict.mem_of_get? (hs.inv.timers.timer_stored handle t ht).2
        exact absurd hmem (hs.inv.none_after_stop hs.stopped _)
  | taskEnds task ok =>
      simp only [TaskScheduler.step] at h
      split at h
      · cases h
      · rename_i loop hloop
        obtain rfl := Option.some.inj h
        exact hs.of_later hinv rfl rfl (LoopTasks.later_finish hloop) rfl rfl
  | taskDone task =>
      simp only [TaskScheduler.step] at h
      split at h
      · rename_i loop action c hloop haction
        obtain rfl := Option.some.inj h
        exact hs.of_later hinv rfl rfl (LoopTasks.later_notify hloop) rfl rfl
      · cases h
  | stop =>
      obtain rfl := Option.some.inj h
      have hlater : s.loop.Later s.stop.loop := LoopTasks.later_cancelAll _ _
      refine ⟨hinv, rfl, hs.started, hs.later.trans hlater, Nat.lt_succ_of_lt hs.not_next, ?_⟩
      rcases hs.waits with hw | hw
      · refine .inl ?_
        change ∃ tasks, (s.stopCalls.set _ _).get? call = some tasks ∧ _
        rw [Dict.get?_set, if_neg (Nat.ne_of_lt hs.not_next)]
        exact hw
      · exact .inr fun a t ht hl => hw a t ht (hlater.mem hl)
  | stopReturns call' =>
      simp only [TaskScheduler.step] at h
      split at h
      · cases h
      rename_i tasks htasks
      split at h
      · rename_i hended
        obtain rfl := Option.some.inj h
        refine ⟨hinv, hs.stopped, hs.started, hs.later, hs.not_next, ?_⟩
        rcases hs.waits with ⟨tasks', htasks', hmem⟩ | hw
        · by_cases hc : call = call'
          · subst hc
            obtain rfl := Option.some.inj (htasks.symm.trans htasks')
            exact .inr fun a t ht => hended t (hmem a t ht)
          · refine .inl ⟨tasks', ?_, hmem⟩
            change (s.stopCalls.del call').get? call = _
            rw [Dict.get?_del, if_neg hc]
            exact htasks'
        · exact .inr hw
      · cases h
  | stopCancelled call' =>
      simp only [TaskScheduler.step] at h
      split at h
      · cases h
      · obtain rfl := Option.some.inj h
        exact hs.of_later hinv rfl rfl (LoopTasks.later_cancelAll _ _) rfl rfl

/-- The caller of a `stop` is not cancelled while it waits. -/
def NotStopCancelled (_ : TaskScheduler α σ) : Step α σ → Prop
  | .stopCancelled _ => False
  | _ => True

/-- No task that is to be awaited is asked to stop. -/
def AwaitedRun (s : TaskScheduler α σ) : Prop :=
  ∀ t a, s.started.get? t = some (a, false) → s.loop.phase? t ≠ some .cancelling

omit [DecidableEq σ] in
theorem AwaitedRun.startTask {s : TaskScheduler α σ} (hs : s.AwaitedRun) (action : α)
    (cancelOnStop : Bool) : (s.startTask action cancelOnStop).AwaitedRun := by
  intro t a ht
  change (s.started.set _ _).get? t = _ at ht
  change s.loop.create.phase? t ≠ _
  rw [Dict.get?_set] at ht
  rw [LoopTasks.phase?_create]
  by_cases hn : t = s.loop.next
  · simp [hn]
  · rw [if_neg hn] at ht ⊢
    exact hs t a ht

theorem AwaitedRun.stop {s : TaskScheduler α σ} (hs : s.AwaitedRun) (hinv : s.Inv) :
    s.stop.AwaitedRun := by
  intro t a ht
  change (s.loop.cancelAll s.cancelledByStop).phase? t ≠ _
  rw [LoopTasks.phase?_cancelAll, if_neg]
  · exact hs t a ht
  intro hmem
  obtain ⟨⟨b, tasks⟩, hitem, hfilter⟩ := List.mem_flatMap.mp hmem
  obtain ⟨htasks, hno⟩ := List.mem_filter.mp hfilter
  have hexec : t ∈ s.executingTasks.getD b [] := by
    rw [Dict.getD_of_get? (Dict.get?_eq_some_iff.mpr hitem)]
    exact htasks
  obtain ⟨hl, c, hb⟩ := ((hinv.tasks.executing b).2 t).mp hexec
  obtain ⟨rfl, -⟩ := Prod.mk.inj (Option.some.inj (ht.symm.trans hb))
  exact of_decide_eq_true hno (((hinv.tasks.awaited a).2 t).mpr ⟨hl, ht⟩)

theorem AwaitedRun.step {s s' : TaskScheduler α σ} {a : Step α σ} (hs : s.AwaitedRun)
    (hinv : s.Inv) (ha : s.NotStopCancelled a) (h : s.step a = some s') : s'.AwaitedRun := by
  cases a with
  | addAction task cancelOnStop =>
      obtain rfl := Option.some.inj h
      unfold TaskScheduler.addAction
      split
      · exact hs
      · split
        · unfold TaskScheduler.remove
          split <;> exact hs
        · exact hs
  | remove task =>
      obtain rfl := Option.some.inj h
      unfold TaskScheduler.remove
      split <;> exact hs
  | timer handle raises =>
      simp only [TaskScheduler.step] at h
      split at h
      · cases h
      · rename_i t ht
        obtain rfl := Option.some.inj h
        unfold TaskScheduler.actionFunction
        split
        · cases raises with
          | true => exact hs
          | false =>
              have hdel : AwaitedRun { s with timers := s.timers.del handle } := hs
              exact hdel.startTask t.task.action t.cancelOnStop
        · exact hs
  | taskEnds task ok =>
      simp only [TaskScheduler.step] at h
      split at h
      · cases h
      · rename_i loop hloop
        obtain rfl := Option.some.inj h
        intro t a ht
        change loop.phase? t ≠ _
        rw [(LoopTasks.finish_inv hloop).1, LoopTasks.phase?_move]
        split
        · cases s.loop.phase? task <;> simp
        · exact hs t a ht
  | taskDone task =>
      simp only [TaskScheduler.step] at h
      split at h
      · rename_i loop action c hloop haction
        obtain rfl := Option.some.inj h
        intro t a ht
        change loop.phase? t ≠ _
        rw [(LoopTasks.notify_inv hloop).2.2]
        split
        · simp
        · exact hs t a ht
      · cases h
  | stop =>
      obtain rfl := Option.some.inj h
      exact hs.stop hinv
  | stopReturns call =>
      simp only [TaskScheduler.step] at h
      split at h
      · cases h
      split at h
      · obtain rfl := Option.some.inj h
        exact hs
      · cases h
  | stopCancelled call => exact absurd ha not_false

/-- As long as no caller of `stop` is cancelled itself, a task that was added with
`cancel_on_stop=False` is never cancelled, whatever is stopped and when. -/
theorem awaited_never_cancelled {r : TaskScheduler α σ} {as : List (Step α σ)}
    (hok : Along step NotStopCancelled init as) (hr : Inmanta.run step init as = some r)
    {t : Nat} {a : α} (ht : r.started.get? t = some (a, false)) :
    r.loop.phase? t ≠ some .cancelling := by
  have hstep : ∀ (s : TaskScheduler α σ) (a : Step α σ) s', (s.Inv ∧ s.AwaitedRun) →
      s.NotStopCancelled a → s.step a = some s' → s'.Inv ∧ s'.AwaitedRun :=
    fun s a s' hI ha h => ⟨hI.1.step h, hI.2.step hI.1 ha h⟩
  have hinit : (init : TaskScheduler α σ).AwaitedRun :=
    fun t a h => absurd (Dict.mem_of_get? h) (Dict.not_mem_empty _)
  exact (run_invariant hstep ⟨inv_init, hinit⟩ hok hr).2 t a ht

instance (s : TaskScheduler α σ) : DecidablePred s.NotStopCancelled
  | .addAction _ _ => isTrue trivial
  | .remove _ => isTrue trivial
  | .timer _ _ => isTrue trivial
  | .taskEnds _ _ => isTrue trivial
  | .taskDone _ => isTrue trivial
  | .stop => isTrue trivial
  | .stopReturns _ => isTrue trivial
  | .stopCancelled _ => isFalse id

theorem awaited_never_cancelled_exampleRun :
    ∃ r : TaskScheduler Bool Nat,
      Inmanta.run step init (exampleRun.1 ++ [.stop]) = some r ∧
      r.started.get? 1 = some (false, false) ∧ r.loop.phase? 1 ≠ some .cancelling := by
  obtain ⟨r, hr, ht⟩ := exists_run_of_any step (init : TaskScheduler Bool Nat)
    (exampleRun.1 ++ [.stop]) (p := fun r => r.started.get? 1 = some (false, false)) (by decide)
  exact ⟨r, hr, ht, awaited_never_cancelled (by decide) hr ht⟩

end TaskScheduler

end Inmanta
