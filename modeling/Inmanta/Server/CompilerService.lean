import Inmanta.Lib.Dict
import Inmanta.Lib.Run
import Mathlib.Data.List.Sort

/-!
# The compile queue

The compile requests are rows of the database, and every call that may
have made one runnable calls `_process_next_compile_in_queue`: a new
request, the commit of the transaction of one, the end of a halt, the
recovery at start-up and, as its last step, the run of a compile. The
method looks up the next compile and starts its run under a lock; the end
of a run replaces or removes its registration under that same lock.

`CompilerService.step` takes one of these calls from an await point to the
next. A query takes two steps, the one in which the database answers and
the one in which the caller continues: the state may change in between.
Every call may raise where it waits. A run counts as over when it has
signalled that it is.
-/

namespace Inmanta

/-- A row of the table of compiles, as far as the queue reads it. -/
structure Compile (ε κ : Type) where
  id : ℕ
  environment : ε
  requested : ℕ
  /-- `_compile_merge_key`. -/
  mergeKey : κ

/-- Who calls `_process_next_compile_in_queue`. -/
inductive CompileCaller (ε : Type) where
  /-- A request, or the end of a halt. -/
  | one (environment : ε)
  /-- The recovery at start-up. -/
  | all
  /-- A run of a compile, which is to finish. -/
  | run (environment : ε)

/-- Where a call waits. -/
inductive CompilePhase (ε κ : Type) where
  /-- A run, before its compile is started. -/
  | backoff (compile : Compile ε κ)
  | runner (compile : Compile ε κ) (mergeCandidates : List (Compile ε κ))
  /-- The own compile is completed, the candidates are about to be. -/
  | merging (mergeCandidates : List (Compile ε κ))
  | notifying
  /-- For what comes before the lock, a connection at the end of it. -/
  | connecting
  | lock
  /-- For the compiles that are next in the queue. -/
  | nextRun
  | answered (compiles : List (Compile ε κ))
  /-- For the environment of a compile; the other compiles come after it. -/
  | environment (compile : Compile ε κ) (compiles : List (Compile ε κ))
  | halted (compile : Compile ε κ) (compiles : List (Compile ε κ)) (halted : Bool)
  | over

namespace CompilePhase

variable {ε κ : Type}

/-- The phases that hold the lock. -/
def Locked : CompilePhase ε κ → Prop
  | .nextRun | .answered _ | .environment .. | .halted .. => True
  | _ => False

instance : DecidablePred (Locked (ε := ε) (κ := κ)) := fun phase => by
  cases phase <;> unfold Locked <;> infer_instance

def IsOver : CompilePhase ε κ → Prop
  | .over => True
  | _ => False

instance : DecidablePred (IsOver (ε := ε) (κ := κ)) := fun phase => by
  cases phase <;> unfold IsOver <;> infer_instance

end CompilePhase

structure CompileTask (ε κ : Type) where
  caller : CompileCaller ε
  phase : CompilePhase ε κ
  /-- The run that the call is about to finish. -/
  finishingCompileTask : Option ℕ

structure CompilerService (ε κ : Type) where
  /-- The compiles that are not completed, the first request first. -/
  queue : List (Compile ε κ)
  halted : ε → Bool
  fullyReady : Bool
  stopping : Bool
  envToCompileTask : Dict ε ℕ
  writeLock : Option ℕ
  tasks : ℕ → CompileTask ε κ
  next : ℕ

inductive CompileAction (ε κ : Type) where
  /-- `request_recompile` has inserted the compile. -/
  | requestRecompile (compile : Compile ε κ)
  /-- The transaction of `request_recompile` is committed;
  `notify_compile_request_committed` comes next. -/
  | commit (compile : Compile ε κ)
  | halt (environment : ε)
  | resumeEnvironment (environment : ε)
  /-- `_recover` has handled the compiles of before. -/
  | recover
  | stop
  /-- A run has waited, looked for compiles to merge and starts the compiler. -/
  | start (task : ℕ)
  /-- The compiler is done and the compile is completed. -/
  | complete (task : ℕ)
  | completeMerged (task : ℕ)
  | notified (task : ℕ)
  | connect (task : ℕ)
  | acquire (task : ℕ)
  /-- The database answers the query that the call waits for. -/
  | answer (task : ℕ)
  | proceed (task : ℕ)
  /-- What the call waits for raises. -/
  | raises (task : ℕ)

namespace CompilerService

variable {ε κ : Type} [DecidableEq ε] [DecidableEq κ]

def init (halted : ε → Bool) (queue : List (Compile ε κ)) : CompilerService ε κ where
  queue
  halted
  fullyReady := false
  stopping := false
  envToCompileTask := .empty
  writeLock := none
  tasks := fun _ => ⟨.all, .over, none⟩
  next := 0

def setPhase (s : CompilerService ε κ) (p : ℕ) (phase : CompilePhase ε κ) : CompilerService ε κ :=
  { s with tasks := Function.update s.tasks p { s.tasks p with phase } }

def spawn (s : CompilerService ε κ) (caller : CompileCaller ε) (phase : CompilePhase ε κ) :
    CompilerService ε κ :=
  { s with tasks := Function.update s.tasks s.next ⟨caller, phase, none⟩, next := s.next + 1 }

def insert (s : CompilerService ε κ) (compile : Compile ε κ) : CompilerService ε κ :=
  { s with queue := s.queue.orderedInsert (fun a b => a.requested ≤ b.requested) compile }

def getNextRun (s : CompilerService ε κ) (environment : ε) : Option (Compile ε κ) :=
  s.queue.find? (·.environment = environment)

def getNextRunAll (s : CompilerService ε κ) : List (Compile ε κ) :=
  s.queue.filter fun compile => (s.getNextRun compile.environment).any (·.id = compile.id)

def getNextCompilesForEnvironment (s : CompilerService ε κ) (environment : ε) :
    List (Compile ε κ) :=
  s.queue.filter (·.environment = environment)

/-- The call releases the lock and is over; it drops the run that it was to
finish if no other was started. -/
def finish (s : CompilerService ε κ) (p : ℕ) : CompilerService ε κ :=
  let s := match (s.tasks p).caller, (s.tasks p).finishingCompileTask with
    | .run environment, some task =>
        if s.envToCompileTask.get? environment = some task then
          { s with envToCompileTask := s.envToCompileTask.del environment }
        else s
    | _, _ => s
  { s with writeLock := none }.setPhase p .over

/-- The loop over the compiles that are next. -/
def goOn (s : CompilerService ε κ) (p : ℕ) : List (Compile ε κ) → CompilerService ε κ
  | [] => s.finish p
  | compile :: compiles => s.setPhase p (.environment compile compiles)

/-- `process_compile`, once it is known whether the environment is halted. -/
def processCompile (s : CompilerService ε κ) (compile : Compile ε κ) (replaceActive : Bool)
    (halted : Bool) : CompilerService ε κ :=
  if halted then s
  else if replaceActive ∨ compile.environment ∉ s.envToCompileTask then
    { s.spawn (.run compile.environment) (.backoff compile) with
      envToCompileTask := s.envToCompileTask.set compile.environment s.next }
  else s

/-- The lock is acquired: nothing is started before the service is ready and
while it stops. -/
def locked (s : CompilerService ε κ) (p : ℕ) : CompilerService ε κ :=
  if ¬ s.fullyReady ∨ s.stopping then
    match (s.tasks p).caller with
    | .run environment =>
        { s with envToCompileTask := s.envToCompileTask.del environment }.setPhase p .over
    | _ => s.setPhase p .over
  else
    match (s.tasks p).caller with
    | .run environment => { s with
        writeLock := some p
        tasks := Function.update s.tasks p { s.tasks p with
          phase := .nextRun
          finishingCompileTask := s.envToCompileTask.get? environment } }
    | _ => { s with writeLock := some p }.setPhase p .nextRun

def replaces : CompileCaller ε → Bool
  | .run _ => true
  | _ => false

def step (s : CompilerService ε κ) : CompileAction ε κ → Option (CompilerService ε κ)
  | .requestRecompile compile | .commit compile =>
      some ((s.insert compile).spawn (.one compile.environment) .connecting)
  | .halt environment => some { s with halted := Function.update s.halted environment true }
  | .resumeEnvironment environment =>
      some ({ s with halted := Function.update s.halted environment false }.spawn
        (.one environment) .connecting)
  | .recover => some ({ s with fullyReady := true }.spawn .all .connecting)
  | .stop => some { s with stopping := true }
  | .start p =>
      match (s.tasks p).phase with
      | .backoff compile => some (s.setPhase p (.runner compile
          ((s.getNextCompilesForEnvironment compile.environment).filter fun c =>
            c.id ≠ compile.id ∧ c.mergeKey = compile.mergeKey)))
      | _ => none
  | .complete p =>
      match (s.tasks p).phase with
      | .runner compile mergeCandidates =>
          some ({ s with queue := s.queue.filter (·.id ≠ compile.id) }.setPhase p
            (.merging mergeCandidates))
      | _ => none
  | .completeMerged p =>
      match (s.tasks p).phase with
      | .merging mergeCandidates =>
          let s := { s with queue := s.queue.filter fun c =>
            mergeCandidates.all fun merged => merged.id ≠ c.id }
          some (s.setPhase p (if s.stopping then .over else .notifying))
      | _ => none
  | .notified p =>
      match (s.tasks p).phase with
      | .notifying => some (s.setPhase p .connecting)
      | _ => none
  | .connect p =>
      match (s.tasks p).phase with
      | .connecting => some (s.setPhase p .lock)
      | _ => none
  | .acquire p =>
      match (s.tasks p).phase, s.writeLock with
      | .lock, none => some (s.locked p)
      | _, _ => none
  | .answer p =>
      match (s.tasks p).phase with
      | .nextRun => some (s.setPhase p (.answered (match (s.tasks p).caller with
          | .all => s.getNextRunAll
          | .one environment | .run environment => (s.getNextRun environment).toList)))
      | .environment compile compiles =>
          some (s.setPhase p (.halted compile compiles (s.halted compile.environment)))
      | _ => none
  | .proceed p =>
      match (s.tasks p).phase with
      | .answered compiles => some (s.goOn p compiles)
      | .halted compile compiles halted =>
          some ((s.processCompile compile (replaces (s.tasks p).caller) halted).goOn p compiles)
      | _ => none
  | .raises p =>
      if (s.tasks p).phase.IsOver then none
      else if (s.tasks p).phase.Locked then some (s.finish p)
      else some (s.setPhase p .over)

end CompilerService

end Inmanta
