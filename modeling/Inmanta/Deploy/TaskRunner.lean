import Inmanta.Deploy.AgentQueues
import Inmanta.Lib.Run

/-!
# Task runners

A `TaskRunner` executes the tasks of one agent. `_run` is its main loop,
`notify` and `stop` are called from other coroutines and change the status
under a lock.

A step runs one coroutine up to its next await point. A call of `notify`
or `stop` waits for the lock first, and `notify` awaits whether the runner
should be running while it holds the lock. The main loop awaits a task in
`queue_get` only if there is none, and the end of the task it executes;
everything between the check of the status and these is one step. The
queues are shared with the scheduler and the other runners.
-/

namespace Inmanta

inductive AgentStatus where
  | started
  | stopping
  | stopped
  deriving DecidableEq

/-- Where a main loop is suspended. -/
inductive RunPhase where
  /-- It has been created and has not run so far. -/
  | created
  /-- It waits for a task in `queue_get`. -/
  | idle
  | executing (task : Task)
  deriving DecidableEq

/-- A coroutine that waits for the notify lock. The ones that were created by
`notify_sync` are tracked, so that `_stop` can cancel them. -/
inductive LockWaiter where
  | notify (tracked : Bool)
  | stop
  deriving DecidableEq

structure TaskRunner where
  endpoint : String
  schedulerRunning : Bool
  queues : AgentQueues
  status : AgentStatus
  /-- The main loops that are alive, by the order of their creation. -/
  loops : Dict ℕ RunPhase
  /-- The number of main loops created so far; the last one is `_task`. -/
  created : ℕ
  waiters : List LockWaiter
  /-- A call of `notify` holds the lock. -/
  locked : Bool
  /-- The tasks the main loops have started, with the status at that moment. -/
  log : List (Task × AgentStatus)

inductive RunnerAction where
  | notify
  | notifySync
  | stop
  /-- A coroutine that waits for the lock gets it. -/
  | acquire (waiter : ℕ)
  /-- `notify` learns whether the runner should be running. -/
  | decide (shouldBeRunning : Bool)
  /-- `notify` can not find out. -/
  | fail
  /-- A main loop continues. -/
  | resume (loop : ℕ)
  | setRunning (running : Bool)
  | put (task : Task) (priority : TaskPriority) (requestedAt : Option ℤ) (reason : Option String)
  | discard (task : Task)
  | sendShutdown (reason : String)
  /-- The runner of another agent takes a task. -/
  | otherGet (agent : String)
  | otherDone (task : Task)

namespace TaskRunner

def init (endpoint : String) (schedulerRunning : Bool) (queues : AgentQueues) : TaskRunner where
  endpoint := endpoint
  schedulerRunning := schedulerRunning
  queues := queues
  status := .stopped
  loops := .empty
  created := 0
  waiters := []
  locked := false
  log := []

/-- `_start`: it asserts that the last main loop has ended. -/
def start (s : TaskRunner) : TaskRunner :=
  if ∃ i ∈ s.loops.keys, i + 1 = s.created then s
  else { s with
    status := .started
    loops := s.loops.set s.created .created
    created := s.created + 1 }

/-- `_stop`: the notifications that are still waiting are cancelled. -/
def setStopping (s : TaskRunner) : TaskRunner :=
  { s with
    status := .stopping
    waiters := s.waiters.filter (· ≠ .notify true) }

def acquire (s : TaskRunner) (waiter : ℕ) : Option TaskRunner :=
  if s.locked then none
  else
    let rest := { s with waiters := s.waiters.eraseIdx waiter }
    match s.waiters[waiter]? with
    | none => none
    | some (.notify _) => some { rest with locked := true }
    | some .stop => some rest.setStopping

def setStatus (s : TaskRunner) (shouldBeRunning : Bool) : TaskRunner :=
  match s.status, shouldBeRunning with
  | .started, false => s.setStopping
  | .stopped, true => s.start
  | .stopping, true => { s with status := .started }
  | _, _ => s

/-- Take the next task of the agent and execute it, `none` while there is none. -/
def getTask (s : TaskRunner) (loop : ℕ) : Option TaskRunner :=
  match s.queues.queueGet s.endpoint with
  | none => none
  | some (queues, item) => some { s with
      queues
      loops := s.loops.set loop (.executing item.task)
      log := (item.task, s.status) :: s.log }

/-- The head of the main loop. -/
def enterLoop (s : TaskRunner) (loop : ℕ) : TaskRunner :=
  if s.schedulerRunning ∧ s.status = .started then
    (s.getTask loop).getD { s with loops := s.loops.set loop .idle }
  else { s with status := .stopped, loops := s.loops.del loop }

/-- A main loop continues from where it is suspended. An exception of `task_done`
ends it. -/
def resume (s : TaskRunner) (loop : ℕ) : Option TaskRunner :=
  match s.loops.get? loop with
  | none => none
  | some .created => some (s.enterLoop loop)
  | some .idle => s.getTask loop
  | some (.executing t) =>
      match s.queues.taskDone t with
      | .ok queues => some ({ s with queues }.enterLoop loop)
      | .error _ => some { s with loops := s.loops.del loop }

def step (s : TaskRunner) : RunnerAction → Option TaskRunner
  | .notify => some { s with waiters := s.waiters ++ [.notify false] }
  | .notifySync => some { s with waiters := s.waiters ++ [.notify true] }
  | .stop => some { s with waiters := s.waiters ++ [.stop] }
  | .acquire waiter => s.acquire waiter
  | .decide shouldBeRunning =>
      if s.locked then some { s.setStatus shouldBeRunning with locked := false } else none
  | .fail => if s.locked then some { s with locked := false } else none
  | .resume loop => s.resume loop
  | .setRunning schedulerRunning => some { s with schedulerRunning }
  | .put t priority requestedAt reason => some { s with
      queues := s.queues.queuePutNowait t priority requestedAt reason }
  | .discard t => some { s with queues := (s.queues.discard t).1 }
  | .sendShutdown reason => some { s with queues := s.queues.sendShutdown reason }
  | .otherGet agent =>
      if agent = s.endpoint then none
      else (s.queues.queueGet agent).map fun p => { s with queues := p.1 }
  | .otherDone t =>
      match s.queues.taskDone t with
      | .ok queues => some { s with queues }
      | .error _ => none

/-! ## One main loop -/

variable {s s' : TaskRunner} {a : RunnerAction} {i : ℕ}

/-- A main loop that is alive is the last one, and the status knows about it. -/
structure Single (s : TaskRunner) : Prop where
  last : ∀ i ∈ s.loops, i + 1 = s.created
  status : ∀ i ∈ s.loops, s.status ≠ .stopped

theorem Single.init (endpoint : String) (schedulerRunning : Bool) (queues : AgentQueues) :
    (TaskRunner.init endpoint schedulerRunning queues).Single where
  last := fun i h => absurd h (Dict.not_mem_empty i)
  status := fun i h => absurd h (Dict.not_mem_empty i)

/-- Moving a main loop that is alive. -/
theorem Single.setLoop (h : s.Single) (hi : i ∈ s.loops) (phase : RunPhase) :
    ({ s with loops := s.loops.set i phase } : TaskRunner).Single := by
  have hmem : ∀ j, j ∈ s.loops.set i phase → j ∈ s.loops := fun j hj =>
    (Dict.mem_set.mp hj).elim (fun e => e ▸ hi) id
  exact ⟨fun j hj => h.last j (hmem j hj), fun j hj => h.status j (hmem j hj)⟩

/-- A main loop that is alive ends. -/
theorem Single.endLoop (h : s.Single) (hi : i ∈ s.loops) (status : AgentStatus) :
    ({ s with status, loops := s.loops.del i } : TaskRunner).Single := by
  have hnone : ∀ j, j ∉ s.loops.del i := fun j hj => by
    obtain ⟨hne, hj⟩ := Dict.mem_del.mp hj
    have hjl := h.last j hj
    have hil := h.last i hi
    omega
  exact ⟨fun j hj => absurd hj (hnone j), fun j hj => absurd hj (hnone j)⟩

theorem Single.start (h : s.Single) (hs : s.status = .stopped) : s.start.Single := by
  have hnone : ∀ i, i ∉ s.loops := fun i hi => h.status i hi hs
  unfold TaskRunner.start
  split
  · exact h
  · refine ⟨fun i hi => ?_, fun i _ => by simp⟩
    obtain rfl := (Dict.mem_set.mp hi).resolve_right (hnone i)
    rfl

theorem Single.getTask (h : s.Single) (hi : i ∈ s.loops) (hs : s.getTask i = some s') :
    s'.Single := by
  unfold TaskRunner.getTask at hs
  split at hs
  · cases hs
  · obtain rfl := Option.some.inj hs
    have hset := h.setLoop hi
    exact ⟨(hset _).last, (hset _).status⟩

theorem Single.enterLoop (h : s.Single) (hi : i ∈ s.loops) : (s.enterLoop i).Single := by
  unfold TaskRunner.enterLoop
  split
  · cases hs : s.getTask i with
    | none => exact h.setLoop hi .idle
    | some s' => exact h.getTask hi hs
  · exact h.endLoop hi .stopped

theorem Single.resume (h : s.Single) (hs : s.resume i = some s') : s'.Single := by
  unfold TaskRunner.resume at hs
  split at hs
  · cases hs
  · rename_i hget
    obtain rfl := Option.some.inj hs
    exact h.enterLoop (Dict.mem_of_get? hget)
  · rename_i hget
    exact h.getTask (Dict.mem_of_get? hget) hs
  · rename_i hget
    have hi := Dict.mem_of_get? hget
    split at hs
    · rename_i queues _
      obtain rfl := Option.some.inj hs
      have hq : ({ s with queues } : TaskRunner).Single := ⟨h.last, h.status⟩
      exact hq.enterLoop hi
    · obtain rfl := Option.some.inj hs
      exact h.endLoop hi s.status

theorem Single.setStatus (h : s.Single) (b : Bool) : (s.setStatus b).Single := by
  unfold TaskRunner.setStatus
  split
  · exact ⟨h.last, fun i _ => by simp [setStopping]⟩
  · rename_i hs
    exact h.start hs
  · exact ⟨h.last, fun i _ => by simp⟩
  · exact h

/-- Every step keeps the main loop single. -/
theorem Single.step (h : s.Single) (hs : s.step a = some s') : s'.Single := by
  cases a with
  | acquire w =>
      rw [TaskRunner.step, TaskRunner.acquire] at hs
      split at hs
      · cases hs
      · simp only at hs
        split at hs
        · cases hs
        · obtain rfl := Option.some.inj hs
          exact ⟨h.last, h.status⟩
        · obtain rfl := Option.some.inj hs
          exact ⟨h.last, fun i _ => by simp [setStopping]⟩
  | decide b =>
      rw [TaskRunner.step] at hs
      split at hs
      · obtain rfl := Option.some.inj hs
        exact ⟨(h.setStatus b).last, (h.setStatus b).status⟩
      · cases hs
  | fail =>
      rw [TaskRunner.step] at hs
      split at hs
      · obtain rfl := Option.some.inj hs
        exact ⟨h.last, h.status⟩
      · cases hs
  | resume i => exact h.resume hs
  | otherGet agent =>
      rw [TaskRunner.step] at hs
      split at hs
      · cases hs
      · obtain ⟨p, -, rfl⟩ := Option.map_eq_some_iff.mp hs
        exact ⟨h.last, h.status⟩
  | otherDone t =>
      rw [TaskRunner.step] at hs
      split at hs
      · obtain rfl := Option.some.inj hs
        exact ⟨h.last, h.status⟩
      · cases hs
  | _ =>
      obtain rfl := Option.some.inj hs
      exact ⟨h.last, h.status⟩

/-! ## What is executed -/

/-- Nothing but the task that wakes up the runners is started unless the runner is. -/
def OnlyStarted (s : TaskRunner) : Prop :=
  ∀ e ∈ s.log, (∃ r, e.1 = .poisonPill r) ∨ e.2 = .started

/-- At most one main loop is alive, and all that has been started, and all that is
started next, was allowed to. -/
structure Obeys (s : TaskRunner) : Prop where
  single : ∀ i ∈ s.loops, ∀ j ∈ s.loops, i = j
  past : s.OnlyStarted
  next : ∀ a s', s.step a = some s' → s'.OnlyStarted

/-- A main loop waits for a task, there is one, and the runner is not started. -/
def Stranded (s : TaskRunner) : Prop :=
  s.status ≠ .started ∧ (∃ i, s.loops.get? i = some .idle)
    ∧ ∃ q item, s.queues.queueGet s.endpoint = some (q, item) ∧ ∀ r, item.task ≠ .poisonPill r

theorem OnlyStarted.getTask (h : s.OnlyStarted) (hs : s.getTask i = some s')
    (hok : s.status = .started ∨ ∀ q item, s.queues.queueGet s.endpoint = some (q, item) →
      ∃ r, item.task = .poisonPill r) : s'.OnlyStarted := by
  unfold TaskRunner.getTask at hs
  split at hs
  · cases hs
  · rename_i q item hq
    obtain rfl := Option.some.inj hs
    intro e he
    rcases List.mem_cons.mp he with rfl | he
    · exact hok.symm.imp (fun h => h q item hq) id
    · exact h e he

theorem OnlyStarted.enterLoop (h : s.OnlyStarted) : (s.enterLoop i).OnlyStarted := by
  unfold TaskRunner.enterLoop
  split
  · rename_i hrun
    cases hs : s.getTask i with
    | none => exact h
    | some s' => exact h.getTask hs (Or.inl hrun.2)
  · exact h

/-- Only waking up a main loop may start what must not be. -/
theorem OnlyStarted.resume (h : s.OnlyStarted) (hno : ¬ s.Stranded)
    (hs : s.resume i = some s') : s'.OnlyStarted := by
  unfold TaskRunner.resume at hs
  split at hs
  · cases hs
  · obtain rfl := Option.some.inj hs
    exact h.enterLoop
  · rename_i hidle
    refine h.getTask hs ?_
    by_cases hst : s.status = .started
    · exact Or.inl hst
    · refine Or.inr fun q item hq => ?_
      by_contra hpill
      exact hno ⟨hst, ⟨i, hidle⟩, q, item, hq, fun r hr => hpill ⟨r, hr⟩⟩
  · split at hs
    · rename_i queues _
      obtain rfl := Option.some.inj hs
      have hq : ({ s with queues } : TaskRunner).OnlyStarted := h
      exact hq.enterLoop
    · obtain rfl := Option.some.inj hs
      exact h

theorem start_log (s : TaskRunner) : s.start.log = s.log := by
  unfold TaskRunner.start
  split <;> rfl

theorem setStatus_log (s : TaskRunner) (b : Bool) : (s.setStatus b).log = s.log := by
  unfold TaskRunner.setStatus
  split
  · rfl
  · exact start_log s
  · rfl
  · rfl

theorem OnlyStarted.step (h : s.OnlyStarted) (hno : ¬ s.Stranded)
    (hs : s.step a = some s') : s'.OnlyStarted := by
  have hlog : s'.log = s.log → s'.OnlyStarted := fun hl => by
    rw [OnlyStarted, hl]
    exact h
  cases a with
  | acquire w =>
      rw [TaskRunner.step, TaskRunner.acquire] at hs
      split at hs
      · cases hs
      · simp only at hs
        split at hs
        · cases hs
        · obtain rfl := Option.some.inj hs
          exact h
        · obtain rfl := Option.some.inj hs
          exact h
  | decide b =>
      rw [TaskRunner.step] at hs
      split at hs
      · obtain rfl := Option.some.inj hs
        exact hlog (s.setStatus_log b)
      · cases hs
  | fail =>
      rw [TaskRunner.step] at hs
      split at hs
      · obtain rfl := Option.some.inj hs
        exact h
      · cases hs
  | resume i => exact h.resume hno hs
  | otherGet agent =>
      rw [TaskRunner.step] at hs
      split at hs
      · cases hs
      · obtain ⟨p, -, rfl⟩ := Option.map_eq_some_iff.mp hs
        exact h
  | otherDone t =>
      rw [TaskRunner.step] at hs
      split at hs
      · obtain rfl := Option.some.inj hs
        exact h
      · cases hs
  | _ =>
      obtain rfl := Option.some.inj hs
      exact h

/-- Where the runner is stranded, waking it up starts a task. -/
theorem Stranded.not_next (h : s.Stranded) :
    ∃ i s', s.step (.resume i) = some s' ∧ ¬ s'.OnlyStarted := by
  obtain ⟨hst, ⟨i, hi⟩, q, item, hq, hpill⟩ := h
  obtain ⟨s', hget, hlog⟩ : ∃ s', s.getTask i = some s' ∧ s'.log = (item.task, s.status) :: s.log := by
    rw [getTask, hq]
    exact ⟨_, rfl, rfl⟩
  refine ⟨i, s', ?_, fun hno => ?_⟩
  · rw [step, TaskRunner.resume, hi]
    exact hget
  · rcases hno (item.task, s.status) (hlog ▸ List.mem_cons_self) with ⟨r, hr⟩ | hr
    · exact hpill r hr
    · exact hst hr

theorem obeys_iff (h : s.Single) (hlog : s.OnlyStarted) : s.Obeys ↔ ¬ s.Stranded := by
  constructor
  · intro ho hst
    obtain ⟨i, s', hs, hno⟩ := hst.not_next
    exact hno (ho.next _ _ hs)
  · refine fun hno => ⟨fun i hi j hj => ?_, hlog, fun a s' hs => hlog.step hno hs⟩
    have hil := h.last i hi
    have hjl := h.last j hj
    omega

theorem always_obeys_iff (h : s.Single) (hlog : s.OnlyStarted) (as : List RunnerAction) :
    Always step Obeys s as ↔ Always step (fun s => ¬ s.Stranded) s as := by
  refine ⟨fun ha => ha.imp fun s ho hst => ?_, fun ha => ?_⟩
  · obtain ⟨i, s', hs, hno⟩ := hst.not_next
    exact hno (ho.next _ _ hs)
  · induction as generalizing s with
    | nil => exact (obeys_iff h hlog).mpr ha
    | cons a as ih =>
        obtain ⟨hno, hrest⟩ := ha
        refine ⟨(obeys_iff h hlog).mpr hno, ?_⟩
        cases hs : s.step a with
        | none => trivial
        | some s' =>
            rw [hs] at hrest
            exact ih (h.step hs) (hlog.step hno hs) hrest

/-- **A runner that is not started executes nothing**, and has one main loop at most,
whatever the order of the steps, just when it is never made to wait for a task
while it is not started. -/
theorem stopped_runner_does_not_execute_iff (endpoint : String) (schedulerRunning : Bool)
    (queues : AgentQueues) (as : List RunnerAction) :
    Always step Obeys (init endpoint schedulerRunning queues) as ↔
      Always step (fun s => ¬ s.Stranded) (init endpoint schedulerRunning queues) as :=
  always_obeys_iff (.init endpoint schedulerRunning queues) (fun _ he => absurd he List.not_mem_nil) as

/-- The runner waits for a task when it is stopped, and then there is one. -/
def pauseIdle : List RunnerAction :=
  [.notify, .acquire 0, .decide true, .resume 0, .notify, .acquire 0, .decide false,
    .put (.deploy ⟨"std::testing::NullResource", "agent1", "name", "a"⟩) .userDeploy none none,
    .resume 0]

/-- The runner executes a deploy while it is stopping. -/
theorem pauseIdle_executes :
    ∃ s, run step (init "agent1" true .empty) pauseIdle = some s ∧ ¬ s.OnlyStarted := by
  obtain ⟨s, hrun, hlog⟩ := exists_run_of_any step (init "agent1" true .empty) pauseIdle
    (p := fun s => s.log
      = [(.deploy ⟨"std::testing::NullResource", "agent1", "name", "a"⟩, .stopping)]) (by decide)
  refine ⟨s, hrun, fun h => ?_⟩
  rw [OnlyStarted, hlog] at h
  simp at h

end TaskRunner

end Inmanta
