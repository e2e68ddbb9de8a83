import Inmanta.Lib.Run
import Mathlib.Logic.Function.Basic

/-!
# Executors in another process

The manager process keeps an `MPExecutor` for each executor; the executor
process keeps the `InProcessExecutor` it stands for, under the name of the
agent alone. `ExecutorSystem.step` is the system of the two: a step is what one
side does between two points where it waits, and the requests and replies of a
connection are handled in their order.

What decides when a step is taken is left open: the idle cleanup and the cap of
executors are any `request_shutdown`, a running deploy is a `stop` that takes its
time to end. `Safe` is what replacing executors must keep, and `Orderly` how they
must be created for it.
-/

namespace Inmanta

structure ExecutorId (ν β : Type) where
  agent_name : ν
  agent_uri : ν
  blueprint : β
  deriving DecidableEq

/-- Where a call to the other process is. -/
inductive CallPhase where
  | unsent | sent | handling | answered | returned | failed
  deriving DecidableEq

/-- The manager's side of a connection: `lost` when the `IPCClient` has noticed
the loss, `finalized` when `MPProcess.connection_lost` has run. -/
inductive ProcessConnection where
  | unstarted | up | lost | finalized
  deriving DecidableEq

structure MPExecutor (ν β : Type) where
  id : ExecutorId ν β
  process : ℕ
  /-- Its `InitCommandFor`. -/
  init : CallPhase
  /-- Its `StopCommandFor`. -/
  stop : CallPhase
  /-- The task of `request_shutdown` has yet to run. -/
  closing : Bool
  shutting_down : Bool
  shut_down : Bool

structure InProcessExecutor (ν : Type) where
  name : ν
  process : ℕ
  /-- The `MPExecutor` it was started for. -/
  owner : ℕ
  stopped : Bool
  /-- Its `stop` has returned. -/
  finished : Bool
  cache_closed : Bool
  /-- The thread pool is shut down by a `join`. -/
  joined : Bool

/-- A request, with the `MPExecutor` that sent it. -/
inductive ExecutorRequest where
  | init (member : ℕ)
  | stop (member : ℕ)
  | stopAll
  deriving DecidableEq

inductive ExecutorReply where
  | started (member : ℕ)
  | startFailed (member : ℕ)
  | stopped (member : ℕ)
  deriving DecidableEq

/-- The manager process and the executor processes. -/
structure ExecutorSystem (ν β : Type) where
  members : ℕ → MPExecutor ν β
  next : ℕ
  /-- `MPManager.pool` -/
  pool : ExecutorId ν β → Option ℕ
  /-- `MPProcess.pool` -/
  process_pool : ℕ → ExecutorId ν β → Option ℕ
  /-- `MPProcess.shutting_down`, by a `StopCommand` -/
  process_stopping : ℕ → Bool
  blueprint : ℕ → Option β
  connection : ℕ → ProcessConnection
  requests : ℕ → List ExecutorRequest
  replies : ℕ → List ExecutorReply
  /-- `ExecutorContext.executors` -/
  executors : ℕ → ν → Option ℕ
  instances : ℕ → InProcessExecutor ν
  next_instance : ℕ
  /-- What the `stop_for` of a member waits for. -/
  stopping : ℕ → ℕ
  /-- An assertion of `init_for` has failed. -/
  assertion_failed : Bool
  /-- A `StopCommandFor` has stopped the executor of another member. -/
  wrong_stop : Bool
  /-- `get_executor` has returned an executor of a lost process. -/
  handed_out_lost : Bool

inductive ExecutorAction (ν β : Type) where
  | start_process (p : ℕ) (blueprint : β)
  /-- `get_executor` finds the executor in its pool. -/
  | get (id : ExecutorId ν β)
  /-- `get_executor` creates one, up to the wait for its `InitCommandFor`. -/
  | create (id : ExecutorId ν β) (p : ℕ)
  | request_shutdown (member : ℕ)
  | inner_close (member : ℕ)
  | dispatch (p : ℕ)
  /-- `init_for` goes on after the `join` of the old executor. -/
  | init_joined (member : ℕ)
  /-- A `stop` ends: it has the activity lock and closes the cache. -/
  | stop_ends (e : ℕ)
  | stop_replies (member : ℕ)
  | reply (p : ℕ)
  | connection_lost (p : ℕ)
  | finalize (p : ℕ)
  /-- The pool of a process is empty: `MPProcess.request_shutdown`. -/
  | stop_process (p : ℕ)

namespace ExecutorSystem

variable {ν β : Type} [DecidableEq ν] [DecidableEq β]

open ExecutorAction ExecutorRequest ExecutorReply

/-- `get` does not return what the pool has for the id. -/
def Vacant (s : ExecutorSystem ν β) (entry : Option ℕ) : Prop :=
  ∀ m ∈ entry, (s.members m).shutting_down = true

instance (s : ExecutorSystem ν β) (entry : Option ℕ) : Decidable (s.Vacant entry) :=
  inferInstanceAs (Decidable (∀ m ∈ entry, (s.members m).shutting_down = true))

/-- Nobody is creating an executor with the id, under its lock. -/
def Unlocked (s : ExecutorSystem ν β) (id : ExecutorId ν β) : Prop :=
  ∀ m < s.next, (s.members m).id = id → s.connection (s.members m).process = .up →
    (s.members m).init = .returned ∨ (s.members m).init = .failed

instance (s : ExecutorSystem ν β) (id : ExecutorId ν β) : Decidable (s.Unlocked id) :=
  inferInstanceAs (Decidable (∀ m < s.next, (s.members m).id = id →
    s.connection (s.members m).process = .up →
    (s.members m).init = .returned ∨ (s.members m).init = .failed))

def modify (s : ExecutorSystem ν β) (m : ℕ) (f : MPExecutor ν β → MPExecutor ν β) :
    ExecutorSystem ν β :=
  { s with members := Function.update s.members m (f (s.members m)) }

def send (s : ExecutorSystem ν β) (p : ℕ) (request : ExecutorRequest) : ExecutorSystem ν β :=
  { s with requests := Function.update s.requests p (s.requests p ++ [request]) }

def answer (s : ExecutorSystem ν β) (p : ℕ) (reply : ExecutorReply) : ExecutorSystem ν β :=
  { s with replies := Function.update s.replies p (s.replies p ++ [reply]) }

/-- `MPExecutor.set_shutdown`: the flags, and the pools that are told. -/
def set_shutdown (s : ExecutorSystem ν β) (m : ℕ) : ExecutorSystem ν β :=
  { s.modify m fun x => { x with shutting_down := true, shut_down := true, closing := false } with
    pool := fun id => if s.pool id = some m then none else s.pool id
    process_pool := fun p id => if s.process_pool p id = some m then none else s.process_pool p id }

/-- The rest of `init_for`: a new `InProcessExecutor` under the name of the agent. -/
def start_executor (s : ExecutorSystem ν β) (m : ℕ) : ExecutorSystem ν β :=
  let member := s.members m
  { (s.modify m fun x => { x with init := .answered }).answer member.process (started m) with
    executors := fun p n =>
      if p = member.process ∧ n = member.id.agent_name then some s.next_instance
      else s.executors p n
    instances := Function.update s.instances s.next_instance
      { name := member.id.agent_name, process := member.process, owner := m, stopped := false,
        finished := false, cache_closed := false, joined := false }
    next_instance := s.next_instance + 1 }

/-- The first steps of `ExecutorContext.init_for`, up to where it waits. -/
def init_for (s : ExecutorSystem ν β) (m : ℕ) : ExecutorSystem ν β :=
  match s.executors (s.members m).process (s.members m).id.agent_name with
  | none => s.start_executor m
  | some old =>
      if (s.instances old).stopped then
        { s.modify m fun x => { x with init := .handling } with
          instances := Function.update s.instances old { s.instances old with joined := true } }
      else
        { (s.modify m fun x => { x with init := .answered }).answer (s.members m).process
            (startFailed m) with
          assertion_failed := true }

/-- The first steps of `ExecutorContext.stop_for`, up to where it waits. -/
def stop_for (s : ExecutorSystem ν β) (m : ℕ) : ExecutorSystem ν β :=
  let replied := (s.modify m fun x => { x with stop := .answered }).answer (s.members m).process
    (stopped m)
  match s.executors (s.members m).process (s.members m).id.agent_name with
  | none => replied
  | some e =>
      if (s.instances e).stopped then replied
      else
        { s.modify m fun x => { x with stop := .handling } with
          instances := Function.update s.instances e { s.instances e with stopped := true }
          stopping := Function.update s.stopping m e
          wrong_stop := s.wrong_stop || (s.instances e).owner != m }

/-- `ExecutorContext.stop`: every executor of the process is asked to stop. -/
def stop_all (s : ExecutorSystem ν β) (p : ℕ) : ExecutorSystem ν β :=
  { s with
    instances := fun e =>
      if (s.instances e).process = p ∧ s.executors p (s.instances e).name = some e then
        { s.instances e with stopped := true }
      else s.instances e }

def handle (s : ExecutorSystem ν β) (p : ℕ) : ExecutorRequest → ExecutorSystem ν β
  | .init m => s.init_for m
  | .stop m => s.stop_for m
  | .stopAll => s.stop_all p

/-- The reply to `start`: both pools have the member. -/
def register (s : ExecutorSystem ν β) (m : ℕ) : ExecutorSystem ν β :=
  let member := s.members m
  { s.modify m fun x => { x with init := .returned } with
    pool := Function.update s.pool member.id (some m)
    process_pool := fun p id =>
      if p = member.process ∧ id = member.id then some m else s.process_pool p id }

def process_reply (s : ExecutorSystem ν β) : ExecutorReply → ExecutorSystem ν β
  | .started m => s.register m
  | .startFailed m => s.modify m fun x => { x with init := .failed }
  | .stopped m => (s.modify m fun x => { x with stop := .returned }).set_shutdown m

/-- `MPProcess.connection_lost`: every member in the pool of the process is shut down. -/
def lose (s : ExecutorSystem ν β) (p : ℕ) : ExecutorSystem ν β :=
  { s with
    connection := Function.update s.connection p .finalized
    members := fun m =>
      if s.process_pool p (s.members m).id = some m then
        { s.members m with shutting_down := true, shut_down := true }
      else s.members m
    pool := fun id =>
      if ∃ m ∈ s.pool id, s.process_pool p (s.members m).id = some m then none else s.pool id
    process_pool := Function.update s.process_pool p fun _ => none }

def step (s : ExecutorSystem ν β) : ExecutorAction ν β → Option (ExecutorSystem ν β)
  | .start_process p b =>
      if s.connection p = .unstarted then
        some { s with
          connection := Function.update s.connection p .up
          blueprint := Function.update s.blueprint p (some b) }
      else none
  | .get id =>
      match s.pool id with
      | none => none
      | some m =>
          if (s.members m).shutting_down then none
          else some { s with
            handed_out_lost := s.handed_out_lost ||
              (s.connection (s.members m).process == .finalized) }
  | .create id p =>
      if s.connection p = .up ∧ s.process_stopping p = false ∧ s.blueprint p = some id.blueprint
          ∧ s.Vacant (s.pool id) ∧ s.Vacant (s.process_pool p id) ∧ s.Unlocked id then
        some ({ s with
          members := Function.update s.members s.next
            { id := id, process := p, init := .sent, stop := .unsent, closing := false,
              shutting_down := false, shut_down := false }
          next := s.next + 1 }.send p (.init s.next))
      else none
  | .request_shutdown m =>
      if m < s.next ∧ (s.members m).init = .returned ∧ (s.members m).shutting_down = false then
        some (s.modify m fun x => { x with shutting_down := true, closing := true })
      else none
  | .inner_close m =>
      if m < s.next ∧ (s.members m).closing = true then
        if s.connection (s.members m).process = .up then
          some ((s.modify m fun x => { x with stop := .sent, closing := false }).send
            (s.members m).process (.stop m))
        else some (s.set_shutdown m)
      else none
  | .dispatch p =>
      match s.requests p with
      | [] => none
      | request :: rest =>
          some ({ s with requests := Function.update s.requests p rest }.handle p request)
  | .init_joined m =>
      if m < s.next ∧ (s.members m).init = .handling then some (s.start_executor m) else none
  | .stop_ends e =>
      if e < s.next_instance ∧ (s.instances e).stopped = true ∧ (s.instances e).finished = false
      then
        -- with the thread pool shut down, the cache cannot be closed any more
        some { s with
          instances := Function.update s.instances e
            { s.instances e with finished := true, cache_closed := !(s.instances e).joined } }
      else none
  | .stop_replies m =>
      if m < s.next ∧ (s.members m).stop = .handling
          ∧ (s.instances (s.stopping m)).finished = true then
        some ((s.modify m fun x => { x with stop := .answered }).answer (s.members m).process
          (.stopped m))
      else none
  | .reply p =>
      if s.connection p = .up then
        match s.replies p with
        | [] => none
        | frame :: rest =>
            some ({ s with replies := Function.update s.replies p rest }.process_reply frame)
      else none
  | .connection_lost p =>
      if s.connection p = .up then
        some { s with connection := Function.update s.connection p .lost }
      else none
  | .finalize p => if s.connection p = .lost then some (s.lose p) else none
  | .stop_process p =>
      if s.connection p = .up ∧ s.process_stopping p = false then
        some ({ s with
          process_stopping := Function.update s.process_stopping p true }.send p .stopAll)
      else none

def initial [Inhabited ν] [Inhabited β] : ExecutorSystem ν β where
  members := fun _ => ⟨⟨default, default, default⟩, 0, .unsent, .unsent, false, false, false⟩
  next := 0
  pool := fun _ => none
  process_pool := fun _ _ => none
  process_stopping := fun _ => false
  blueprint := fun _ => none
  connection := fun _ => .unstarted
  requests := fun _ => []
  replies := fun _ => []
  executors := fun _ _ => none
  instances := fun _ => ⟨default, 0, 0, false, false, false, false⟩
  next_instance := 0
  stopping := fun _ => 0
  assertion_failed := false
  wrong_stop := false
  handed_out_lost := false

/-- What replacing executors must keep. -/
structure Safe (s : ExecutorSystem ν β) : Prop where
  assertion : s.assertion_failed = false
  stops : s.wrong_stop = false
  one : ∀ e < s.next_instance, ∀ e' < s.next_instance,
    (s.instances e).process = (s.instances e').process →
    (s.instances e).name = (s.instances e').name →
    (s.instances e).stopped = false → (s.instances e').stopped = false → e = e'
  closed : ∀ e < s.next_instance, (s.instances e).finished = true →
    (s.instances e).cache_closed = true
  lost : ∀ m < s.next, s.connection (s.members m).process = .finalized →
    (s.members m).init = .returned → (s.members m).shutting_down = true
  handed : s.handed_out_lost = false

/-- An executor is created in a process when every earlier one of the agent
there is shut down. -/
def Orderly (s : ExecutorSystem ν β) : ExecutorAction ν β → Prop
  | .create id p => ∀ m < s.next, (s.members m).process = p →
      (s.members m).id.agent_name = id.agent_name → (s.members m).shut_down = true
  | _ => True

instance (s : ExecutorSystem ν β) : DecidablePred s.Orderly
  | .create id p => inferInstanceAs (Decidable (∀ m < s.next, (s.members m).process = p →
      (s.members m).id.agent_name = id.agent_name → (s.members m).shut_down = true))
  | .start_process _ _ | .get _ | .request_shutdown _ | .inner_close _ | .dispatch _
  | .init_joined _ | .stop_ends _ | .stop_replies _ | .reply _ | .connection_lost _
  | .finalize _ | .stop_process _ => isTrue trivial

end ExecutorSystem

end Inmanta
