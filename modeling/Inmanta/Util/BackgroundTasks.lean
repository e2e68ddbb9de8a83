import Inmanta.Lib.LoopTasks
import Inmanta.Lib.Run

/-!
# Background tasks

A `TaskHandler` keeps the tasks that were started in the background until they
call back. `stop` first waits for the tasks it does not cancel, and gives up
with the exception of the first one that fails; then it cancels the others and
waits for them. Several callers may stop a handler, and a caller may be
cancelled while it waits.
-/

namespace Inmanta

open Asyncio

/-- Where a caller of `stop` is. -/
inductive StopCall where
  /-- Waiting for the tasks that are not cancelled. -/
  | awaiting (tasks : List Nat) (cancelled : Bool)
  /-- One of them failed; the caller has yet to be told. -/
  | failed
  /-- Waiting for the tasks it has cancelled, whatever becomes of them. -/
  | cancelling (tasks : List Nat) (cancelled : Bool)

namespace StopCall

/-- The caller has not come to the tasks it is to cancel. -/
def IsFirst : StopCall → Prop
  | .awaiting _ _ => True
  | .failed => True
  | .cancelling _ _ => False

/-- A task calls back: the first failure is all the caller waits for. -/
def taskDone (task : Nat) (ok : Bool) : StopCall → StopCall
  | .awaiting tasks cancelled =>
      if task ∈ tasks ∧ ok = false then .failed else .awaiting tasks cancelled
  | c => c

theorem isFirst_taskDone {task : Nat} {ok : Bool} {c : StopCall} (h : c.IsFirst) :
    (c.taskDone task ok).IsFirst := by
  cases c with
  | awaiting tasks cancelled =>
      rw [taskDone]
      split <;> trivial
  | failed => trivial
  | cancelling tasks cancelled => cases h

theorem taskDone_eq_awaiting {task : Nat} {ok : Bool} {c : StopCall} {tasks : List Nat}
    {cancelled : Bool} (h : c.taskDone task ok = .awaiting tasks cancelled) :
    c = .awaiting tasks cancelled := by
  cases c with
  | awaiting tasks' cancelled' =>
      rw [taskDone] at h
      split at h
      · cases h
      · exact h
  | failed => cases h
  | cancelling tasks' cancelled' => cases h

end StopCall

structure TaskHandler where
  stopped : Bool
  backgroundTasks : List Nat
  awaitTasks : List Nat
  /-- The tasks that were started and have not called back. -/
  loop : LoopTasks
  stopCalls : Dict Nat StopCall
  nextStop : Nat
  /-- The calls of `stop` that ended with an exception. -/
  raised : List Nat

namespace TaskHandler

def init : TaskHandler where
  stopped := false
  backgroundTasks := []
  awaitTasks := []
  loop := .empty
  stopCalls := .empty
  nextStop := 0
  raised := []

/-- `none`: the handler is stopped, and a `StoppedException` is raised. -/
def addBackgroundTask (s : TaskHandler) (cancelOnStop : Bool) : Option TaskHandler :=
  if s.stopped then none
  else some
    { s with
      loop := s.loop.create
      backgroundTasks := s.backgroundTasks.insert s.loop.next
      awaitTasks := if cancelOnStop then s.awaitTasks else s.awaitTasks.insert s.loop.next }

def handleResult (s : TaskHandler) (task : Nat) : TaskHandler :=
  { s with
    backgroundTasks := discard s.backgroundTasks task
    awaitTasks := discard s.awaitTasks task }

/-- `stop` up to the point where it waits for the tasks it does not cancel. -/
def stop (s : TaskHandler) : TaskHandler :=
  { s with
    stopped := true
    stopCalls := s.stopCalls.set s.nextStop (.awaiting s.awaitTasks false)
    nextStop := s.nextStop + 1 }

/-- From there to the point where it waits for the tasks it cancels. -/
def cancelTasks (s : TaskHandler) (call : Nat) : TaskHandler :=
  let tasks := s.backgroundTasks.removeAll s.awaitTasks
  { s with
    backgroundTasks := []
    loop := s.loop.cancelAll tasks
    stopCalls := s.stopCalls.set call (.cancelling tasks false) }

/-- A call of `stop` ends with an exception. -/
def raise (s : TaskHandler) (call : Nat) : TaskHandler :=
  { s with stopCalls := s.stopCalls.del call, raised := s.raised ++ [call] }

/-- A call of `stop` whose tasks have all called back, or which has failed, goes on. -/
def resume (s : TaskHandler) (call : Nat) : Option TaskHandler :=
  match s.stopCalls.get? call with
  | none => none
  | some (.awaiting tasks cancelled) =>
      if ∀ t ∈ tasks, t ∉ s.loop then
        some (if cancelled then s.raise call else s.cancelTasks call)
      else none
  | some .failed => some (s.raise call)
  | some (.cancelling tasks cancelled) =>
      if ∀ t ∈ tasks, t ∉ s.loop then
        some (if cancelled then s.raise call
          else { s with stopCalls := s.stopCalls.del call })
      else none

/-- A caller of `stop` is cancelled, and with it the tasks it waits for. -/
def cancelStop (s : TaskHandler) (call : Nat) : Option TaskHandler :=
  match s.stopCalls.get? call with
  | none => none
  | some (.awaiting tasks _) =>
      some
        { s with
          loop := s.loop.cancelAll tasks
          stopCalls := s.stopCalls.set call (.awaiting tasks true) }
  | some .failed => some s
  | some (.cancelling tasks _) =>
      some
        { s with
          loop := s.loop.cancelAll tasks
          stopCalls := s.stopCalls.set call (.cancelling tasks true) }

inductive Step where
  | addBackgroundTask (cancelOnStop : Bool)
  | taskEnds (task : Nat) (ok : Bool)
  /-- The done callbacks of a task: first that of the handler, then those of the callers that
  wait for it. -/
  | taskDone (task : Nat)
  | stop
  | resume (call : Nat)
  | cancelStop (call : Nat)

def step (s : TaskHandler) : Step → Option TaskHandler
  | .addBackgroundTask cancelOnStop => s.addBackgroundTask cancelOnStop
  | .taskEnds task ok =>
      match s.loop.finish task ok with
      | none => none
      | some loop => some { s with loop }
  | .taskDone task =>
      match s.loop.notify task, s.loop.phase? task with
      | some loop, some (.ended ok) =>
          some
            { s.handleResult task with
              loop, stopCalls := s.stopCalls.mapValues (StopCall.taskDone task ok) }
      | _, _ => none
  | .stop => some s.stop
  | .resume call => s.resume call
  | .cancelStop call => s.cancelStop call

/-- A call of `stop` waits for the task it has cancelled. -/
def HeldByStop (s : TaskHandler) (task : Nat) : Prop :=
  ∃ call tasks cancelled, s.stopCalls.get? call = some (.cancelling tasks cancelled) ∧
    task ∈ tasks

/-- Who answers for each task of the loop. -/
structure Inv (s : TaskHandler) : Prop where
  background_live : ∀ t ∈ s.backgroundTasks, t ∈ s.loop
  awaited_live : ∀ t ∈ s.awaitTasks, t ∈ s.loop
  /-- A task is in the background, or a `stop` waits for it, or a `stop` has given up. -/
  accounted : ∀ t, t ∈ s.loop → t ∈ s.backgroundTasks ∨ s.HeldByStop t ∨ s.raised ≠ []
  /-- A caller that waits for the awaited tasks waits for all of them. -/
  waits_for_all : ∀ call tasks cancelled,
    s.stopCalls.get? call = some (.awaiting tasks cancelled) → ∀ t ∈ s.awaitTasks, t ∈ tasks
  calls_stopped : ∀ call, call ∈ s.stopCalls → s.stopped = true
  /-- What is in the background of a stopped handler is to be cancelled. -/
  to_be_cancelled : s.stopped = true → s.backgroundTasks = [] ∨
    (∃ call c, s.stopCalls.get? call = some c ∧ c.IsFirst) ∨ s.raised ≠ []
  calls_fresh : ∀ call, call ∈ s.stopCalls → call < s.nextStop

theorem inv_init : init.Inv where
  background_live := fun _ h => absurd h List.not_mem_nil
  awaited_live := fun _ h => absurd h List.not_mem_nil
  accounted := fun t h => absurd h (LoopTasks.not_mem_empty t)
  waits_for_all := fun _ _ _ h => absurd (Dict.mem_of_get? h) (Dict.not_mem_empty _)
  calls_stopped := fun _ h => absurd h (Dict.not_mem_empty _)
  to_be_cancelled := fun h => by cases h
  calls_fresh := fun _ h => absurd h (Dict.not_mem_empty _)

theorem Inv.addBackgroundTask {s s' : TaskHandler} (hs : s.Inv) {cancelOnStop : Bool}
    (h : s.addBackgroundTask cancelOnStop = some s') : s'.Inv := by
  unfold TaskHandler.addBackgroundTask at h
  split at h
  · cases h
  rename_i hstopped
  obtain rfl := Option.some.inj h
  have hcall : ∀ call, call ∉ s.stopCalls := fun call hc => hstopped (hs.calls_stopped call hc)
  refine
    { background_live := fun t ht => ?_
      awaited_live := fun t ht => ?_
      accounted := fun t ht => ?_
      waits_for_all := fun call _ _ hc => absurd (Dict.mem_of_get? hc) (hcall call)
      calls_stopped := hs.calls_stopped
      to_be_cancelled := fun hstop => absurd hstop hstopped
      calls_fresh := hs.calls_fresh }
  · rcases List.mem_insert_iff.mp ht with rfl | ht
    · exact LoopTasks.mem_create.mpr (.inl rfl)
    · exact LoopTasks.mem_create.mpr (.inr (hs.background_live t ht))
  · have ht' : t = s.loop.next ∨ t ∈ s.awaitTasks := by
      cases cancelOnStop with
      | true => exact .inr ht
      | false => exact List.mem_insert_iff.mp ht
    exact LoopTasks.mem_create.mpr (ht'.imp_right (hs.awaited_live t))
  · rcases LoopTasks.mem_create.mp ht with rfl | ht
    · exact .inl (List.mem_insert_iff.mpr (.inl rfl))
    · exact (hs.accounted t ht).imp_left fun hb => List.mem_insert_iff.mpr (.inr hb)

/-- Only the phases of the tasks change. -/
theorem Inv.of_loop {s : TaskHandler} (hs : s.Inv) {loop : LoopTasks}
    (hloop : ∀ t, t ∈ loop ↔ t ∈ s.loop) : Inv { s with loop } :=
  { hs with
    background_live := fun t ht => (hloop t).mpr (hs.background_live t ht)
    awaited_live := fun t ht => (hloop t).mpr (hs.awaited_live t ht)
    accounted := fun t ht => hs.accounted t ((hloop t).mp ht) }

theorem Inv.taskDone {s : TaskHandler} (hs : s.Inv) {task : Nat} {ok : Bool} {loop : LoopTasks}
    (hloop : s.loop.notify task = some loop) :
    Inv { s.handleResult task with
      loop, stopCalls := s.stopCalls.mapValues (StopCall.taskDone task ok) } where
  background_live := fun t ht => by
    obtain ⟨hb, hne⟩ := mem_discard.mp ht
    exact (LoopTasks.mem_notify hloop).mpr ⟨hs.background_live t hb, hne⟩
  awaited_live := fun t ht => by
    obtain ⟨hb, hne⟩ := mem_discard.mp ht
    exact (LoopTasks.mem_notify hloop).mpr ⟨hs.awaited_live t hb, hne⟩
  accounted := fun t ht => by
    obtain ⟨hl, hne⟩ := (LoopTasks.mem_notify hloop).mp ht
    rcases hs.accounted t hl with hb | ⟨call, tasks, cancelled, hcall, hmem⟩ | hr
    · exact .inl (mem_discard.mpr ⟨hb, hne⟩)
    · refine .inr (.inl ⟨call, tasks, cancelled, ?_, hmem⟩)
      rw [Dict.get?_mapValues, hcall]
      rfl
    · exact .inr (.inr hr)
  waits_for_all := fun call tasks cancelled hc t ht => by
    rw [Dict.get?_mapValues] at hc
    obtain ⟨c, hcall, hc⟩ := Option.map_eq_some_iff.mp hc
    rw [StopCall.taskDone_eq_awaiting hc] at hcall
    exact hs.waits_for_all call tasks cancelled hcall t (mem_discard.mp ht).1
  calls_stopped := fun call hc => by
    obtain ⟨c, hc⟩ := Dict.mem_iff.mp hc
    rw [Dict.get?_mapValues] at hc
    obtain ⟨c', hcall, -⟩ := Option.map_eq_some_iff.mp hc
    exact hs.calls_stopped call (Dict.mem_of_get? hcall)
  to_be_cancelled := fun hstop => by
    rcases hs.to_be_cancelled hstop with hb | ⟨call, c, hcall, hfirst⟩ | hr
    · refine .inl ?_
      change discard s.backgroundTasks task = []
      rw [hb]
      rfl
    · refine .inr (.inl ⟨call, c.taskDone task ok, ?_, StopCall.isFirst_taskDone hfirst⟩)
      rw [Dict.get?_mapValues, hcall]
      rfl
    · exact .inr (.inr hr)
  calls_fresh := fun call hc => by
    obtain ⟨c, hc⟩ := Dict.mem_iff.mp hc
    rw [Dict.get?_mapValues] at hc
    obtain ⟨c', hcall, -⟩ := Option.map_eq_some_iff.mp hc
    exact hs.calls_fresh call (Dict.mem_of_get? hcall)

theorem Inv.stop {s : TaskHandler} (hs : s.Inv) : s.stop.Inv where
  background_live := hs.background_live
  awaited_live := hs.awaited_live
  accounted := fun t ht => by
    rcases hs.accounted t ht with hb | ⟨call, tasks, cancelled, hcall, hmem⟩ | hr
    · exact .inl hb
    · refine .inr (.inl ⟨call, tasks, cancelled, ?_, hmem⟩)
      change (s.stopCalls.set _ _).get? call = _
      rw [Dict.get?_set, if_neg (Nat.ne_of_lt (hs.calls_fresh call (Dict.mem_of_get? hcall)))]
      exact hcall
    · exact .inr (.inr hr)
  waits_for_all := fun call tasks cancelled hc t ht => by
    change (s.stopCalls.set _ _).get? call = _ at hc
    rw [Dict.get?_set] at hc
    split at hc
    · cases hc
      exact ht
    · exact hs.waits_for_all call tasks cancelled hc t ht
  calls_stopped := fun _ _ => rfl
  to_be_cancelled := fun _ => by
    refine .inr (.inl ⟨s.nextStop, .awaiting s.awaitTasks false, ?_, trivial⟩)
    change (s.stopCalls.set _ _).get? _ = _
    rw [Dict.get?_set, if_pos rfl]
  calls_fresh := fun call hc => by
    rcases Dict.mem_set.mp hc with rfl | hc
    · exact Nat.lt_succ_self _
    · exact Nat.lt_succ_of_lt (hs.calls_fresh call hc)

/-- A call ends with an exception: nobody may be left to answer for its tasks. -/
theorem Inv.raise {s : TaskHandler} (hs : s.Inv) (call : Nat) : (s.raise call).Inv where
  background_live := hs.background_live
  awaited_live := hs.awaited_live
  accounted := fun _ _ => .inr (.inr (by simp [TaskHandler.raise]))
  waits_for_all := fun call' tasks cancelled hc => by
    change (s.stopCalls.del call).get? call' = _ at hc
    rw [Dict.get?_del] at hc
    split at hc
    · cases hc
    · exact hs.waits_for_all call' tasks cancelled hc
  calls_stopped := fun call' hc => hs.calls_stopped call' (Dict.mem_del.mp hc).2
  to_be_cancelled := fun _ => .inr (.inr (by simp [TaskHandler.raise]))
  calls_fresh := fun call' hc => hs.calls_fresh call' (Dict.mem_del.mp hc).2

/-- What the caller has waited for is all that was to be awaited. -/
theorem Inv.awaitTasks_eq_nil {s : TaskHandler} (hs : s.Inv) {call : Nat} {tasks : List Nat}
    {cancelled : Bool} (hc : s.stopCalls.get? call = some (.awaiting tasks cancelled))
    (hended : ∀ t ∈ tasks, t ∉ s.loop) : s.awaitTasks = [] := by
  refine List.eq_nil_iff_forall_not_mem.mpr fun t ht => ?_
  exact hended t (hs.waits_for_all call tasks cancelled hc t ht) (hs.awaited_live t ht)

theorem Inv.cancelTasks {s : TaskHandler} (hs : s.Inv) {call : Nat} {tasks : List Nat}
    {cancelled : Bool} (hc : s.stopCalls.get? call = some (.awaiting tasks cancelled))
    (hended : ∀ t ∈ tasks, t ∉ s.loop) : (s.cancelTasks call).Inv := by
  have hnil := hs.awaitTasks_eq_nil hc hended
  have hget : ∀ call', (s.cancelTasks call).stopCalls.get? call' = if call' = call then
      some (.cancelling (s.backgroundTasks.removeAll s.awaitTasks) false)
      else s.stopCalls.get? call' := fun call' => Dict.get?_set ..
  refine
    { background_live := fun t ht => absurd ht List.not_mem_nil
      awaited_live := fun t ht => LoopTasks.mem_cancelAll.mpr (hs.awaited_live t ht)
      accounted := fun t ht => ?_
      waits_for_all := fun call' tasks' cancelled' hc' t ht => ?_
      calls_stopped := fun _ _ => hs.calls_stopped call (Dict.mem_of_get? hc)
      to_be_cancelled := fun _ => .inl rfl
      calls_fresh := fun call' hc' => ?_ }
  · rcases hs.accounted t (LoopTasks.mem_cancelAll.mp ht) with hb | held | hr
    · refine .inr (.inl ⟨call, _, false, (hget call).trans (if_pos rfl), ?_⟩)
      rw [mem_removeAll, hnil]
      exact ⟨hb, List.not_mem_nil⟩
    · obtain ⟨call', tasks', cancelled', hcall', hmem⟩ := held
      refine .inr (.inl ⟨call', tasks', cancelled', ?_, hmem⟩)
      rw [hget, if_neg]
      · exact hcall'
      · rintro rfl
        cases hc.symm.trans hcall'
    · exact .inr (.inr hr)
  · change t ∈ s.awaitTasks at ht
    rw [hnil] at ht
    cases ht
  · rcases Dict.mem_set.mp hc' with rfl | hc'
    · exact hs.calls_fresh call' (Dict.mem_of_get? hc)
    · exact hs.calls_fresh call' hc'

/-- A call returns that has seen the tasks it cancelled call back. -/
theorem Inv.returns {s : TaskHandler} (hs : s.Inv) {call : Nat} {tasks : List Nat}
    {cancelled : Bool} (hc : s.stopCalls.get? call = some (.cancelling tasks cancelled))
    (hended : ∀ t ∈ tasks, t ∉ s.loop) : Inv { s with stopCalls := s.stopCalls.del call } where
  background_live := hs.background_live
  awaited_live := hs.awaited_live
  accounted := fun t ht => by
    rcases hs.accounted t ht with hb | ⟨call', tasks', cancelled', hcall', hmem⟩ | hr
    · exact .inl hb
    · refine .inr (.inl ⟨call', tasks', cancelled', ?_, hmem⟩)
      rw [Dict.get?_del, if_neg]
      · exact hcall'
      · rintro rfl
        cases hc.symm.trans hcall'
        exact hended t hmem ht
    · exact .inr (.inr hr)
  waits_for_all := fun call' tasks' cancelled' hc' => by
    rw [Dict.get?_del] at hc'
    split at hc'
    · cases hc'
    · exact hs.waits_for_all call' tasks' cancelled' hc'
  calls_stopped := fun call' hc' => hs.calls_stopped call' (Dict.mem_del.mp hc').2
  to_be_cancelled := fun hstop => by
    rcases hs.to_be_cancelled hstop with hb | ⟨call', c, hcall', hfirst⟩ | hr
    · exact .inl hb
    · refine .inr (.inl ⟨call', c, ?_, hfirst⟩)
      rw [Dict.get?_del, if_neg]
      · exact hcall'
      · rintro rfl
        cases hc.symm.trans hcall'
        exact hfirst
    · exact .inr (.inr hr)
  calls_fresh := fun call' hc' => hs.calls_fresh call' (Dict.mem_del.mp hc').2

theorem Inv.resume {s s' : TaskHandler} (hs : s.Inv) {call : Nat}
    (h : s.resume call = some s') : s'.Inv := by
  unfold TaskHandler.resume at h
  split at h
  · cases h
  · rename_i tasks cancelled hc
    split at h
    · rename_i hended
      obtain rfl := Option.some.inj h
      split
      · exact hs.raise call
      · exact hs.cancelTasks hc hended
    · cases h
  · obtain rfl := Option.some.inj h
    exact hs.raise call
  · rename_i tasks cancelled hc
    split at h
    · rename_i hended
      obtain rfl := Option.some.inj h
      split
      · exact hs.raise call
      · exact hs.returns hc hended
    · cases h

/-- A call goes on waiting for the same tasks. -/
theorem Inv.set_call {s : TaskHandler} (hs : s.Inv) {call : Nat} {c c' : StopCall}
    (hc : s.stopCalls.get? call = some c)
    (hcases : (∃ tasks b b', c = .awaiting tasks b ∧ c' = .awaiting tasks b') ∨
      ∃ tasks b b', c = .cancelling tasks b ∧ c' = .cancelling tasks b') :
    Inv { s with stopCalls := s.stopCalls.set call c' } where
  background_live := hs.background_live
  awaited_live := hs.awaited_live
  accounted := fun t ht => by
    rcases hs.accounted t ht with hb | ⟨call', tasks', cancelled', hcall', hmem⟩ | hr
    · exact .inl hb
    · refine .inr (.inl ?_)
      by_cases heq : call' = call
      · subst heq
        obtain rfl := Option.some.inj (hc.symm.trans hcall')
        rcases hcases with ⟨tasks, b, b', h, -⟩ | ⟨tasks, b, b', h, rfl⟩
        · cases h
        · cases h
          exact ⟨call', tasks', b', by rw [Dict.get?_set, if_pos rfl], hmem⟩
      · exact ⟨call', tasks', cancelled', by rw [Dict.get?_set, if_neg heq]; exact hcall', hmem⟩
    · exact .inr (.inr hr)
  waits_for_all := fun call' tasks' cancelled' hc' => by
    rw [Dict.get?_set] at hc'
    split at hc'
    · cases hc'
      rcases hcases with ⟨tasks, b, b', rfl, h⟩ | ⟨tasks, b, b', -, h⟩
      · cases h
        exact hs.waits_for_all call tasks' b hc
      · cases h
    · exact hs.waits_for_all call' tasks' cancelled' hc'
  calls_stopped := fun _ _ => hs.calls_stopped call (Dict.mem_of_get? hc)
  to_be_cancelled := fun hstop => by
    rcases hs.to_be_cancelled hstop with hb | ⟨call', d, hcall', hfirst⟩ | hr
    · exact .inl hb
    · refine .inr (.inl ?_)
      by_cases heq : call' = call
      · subst heq
        obtain rfl := Option.some.inj (hc.symm.trans hcall')
        refine ⟨call', c', by rw [Dict.get?_set, if_pos rfl], ?_⟩
        rcases hcases with ⟨tasks, b, b', -, rfl⟩ | ⟨tasks, b, b', rfl, -⟩
        · trivial
        · cases hfirst
      · exact ⟨call', d, by rw [Dict.get?_set, if_neg heq]; exact hcall', hfirst⟩
    · exact .inr (.inr hr)
  calls_fresh := fun call' hc' => by
    rcases Dict.mem_set.mp hc' with rfl | hc'
    · exact hs.calls_fresh call' (Dict.mem_of_get? hc)
    · exact hs.calls_fresh call' hc'

theorem Inv.cancelStop {s s' : TaskHandler} (hs : s.Inv) {call : Nat}
    (h : s.cancelStop call = some s') : s'.Inv := by
  unfold TaskHandler.cancelStop at h
  split at h
  · cases h
  · rename_i tasks b hc
    obtain rfl := Option.some.inj h
    exact (hs.set_call hc (.inl ⟨tasks, b, true, rfl, rfl⟩)).of_loop
      fun t => LoopTasks.mem_cancelAll
  · obtain rfl := Option.some.inj h
    exact hs
  · rename_i tasks b hc
    obtain rfl := Option.some.inj h
    exact (hs.set_call hc (.inr ⟨tasks, b, true, rfl, rfl⟩)).of_loop
      fun t => LoopTasks.mem_cancelAll

theorem Inv.step {s s' : TaskHandler} {a : Step} (hs : s.Inv) (h : s.step a = some s') :
    s'.Inv := by
  cases a with
  | addBackgroundTask cancelOnStop => exact hs.addBackgroundTask h
  | taskEnds task ok =>
      simp only [TaskHandler.step] at h
      split at h
      · cases h
      · rename_i loop hloop
        obtain rfl := Option.some.inj h
        exact hs.of_loop fun t => LoopTasks.mem_finish hloop
  | taskDone task =>
      simp only [TaskHandler.step] at h
      split at h
      · rename_i loop ok hloop hphase
        obtain rfl := Option.some.inj h
        exact hs.taskDone hloop
      · cases h
  | stop =>
      obtain rfl := Option.some.inj h
      exact hs.stop
  | resume call => exact hs.resume h
  | cancelStop call => exact hs.cancelStop h

/-- **A stop leaves nothing behind.** In every run: if the handler was stopped, every call of
`stop` is over and none of them raised an exception, then every background task has ended and
called back. -/
theorem stop_leaves_nothing {s : TaskHandler} {as : List Step}
    (h : run step init as = some s) (hstop : s.stopped = true)
    (hover : ∀ call, call ∉ s.stopCalls) (hraised : s.raised = []) : ∀ t, t ∉ s.loop := by
  have hs : s.Inv := run_invariant (fun _ _ _ hI _ hstep => hI.step hstep) inv_init
    (along_of_forall (fun _ _ => trivial) _ as) h
  have hbackground : s.backgroundTasks = [] := by
    rcases hs.to_be_cancelled hstop with hb | ⟨call, c, hc, -⟩ | hr
    · exact hb
    · exact absurd (Dict.mem_of_get? hc) (hover call)
    · exact absurd hraised hr
  intro t ht
  rcases hs.accounted t ht with hb | ⟨call, tasks, cancelled, hc, -⟩ | hr
  · rw [hbackground] at hb
    cases hb
  · exact hover call (Dict.mem_of_get? hc)
  · exact hr hraised

theorem stop_leaves_nothing_two_calls :
    ∃ s, run step init [.addBackgroundTask true, .addBackgroundTask false, .stop, .stop,
        .taskEnds 1 true, .taskDone 1, .resume 1, .resume 0, .taskEnds 0 false, .resume 0,
        .taskDone 0, .resume 1] = some s ∧ ∀ t, t ∉ s.loop := by
  obtain ⟨s, hs, hstop, hcalls, hraised⟩ := exists_run_of_any step init
    [.addBackgroundTask true, .addBackgroundTask false, .stop, .stop,
      .taskEnds 1 true, .taskDone 1, .resume 1, .resume 0, .taskEnds 0 false, .resume 0,
      .taskDone 0, .resume 1]
    (p := fun s => s.stopped = true ∧ s.stopCalls.items.isEmpty = true ∧ s.raised = [])
    (by decide)
  refine ⟨s, hs, stop_leaves_nothing hs hstop (fun call hc => ?_) hraised⟩
  obtain ⟨c, hc⟩ := Dict.mem_iff.mp hc
  have hmem := Dict.get?_eq_some_iff.mp hc
  rw [List.isEmpty_iff.mp hcalls] at hmem
  cases hmem

/-! ## What is cancelled comes last -/

/-- No caller of `stop` is cancelled. -/
def NotCancelStop (_ : TaskHandler) : Step → Prop
  | .cancelStop _ => False
  | _ => True

instance (s : TaskHandler) : DecidablePred s.NotCancelStop
  | .addBackgroundTask _ => isTrue trivial
  | .taskEnds _ _ => isTrue trivial
  | .taskDone _ => isTrue trivial
  | .stop => isTrue trivial
  | .resume _ => isTrue trivial
  | .cancelStop _ => isFalse id

/-- Where a task has been asked to stop, no task is to be awaited any more. -/
def CancelsLast (s : TaskHandler) : Prop :=
  ∀ t, s.loop.phase? t = some .cancelling → s.stopped = true ∧ s.awaitTasks = []

theorem CancelsLast.step {s s' : TaskHandler} {a : Step} (hs : s.CancelsLast) (hinv : s.Inv)
    (ha : s.NotCancelStop a) (h : s.step a = some s') : s'.CancelsLast := by
  cases a with
  | addBackgroundTask cancelOnStop =>
      simp only [TaskHandler.step, TaskHandler.addBackgroundTask] at h
      split at h
      · cases h
      rename_i hstopped
      obtain rfl := Option.some.inj h
      intro t ht
      change s.loop.create.phase? t = _ at ht
      rw [LoopTasks.phase?_create] at ht
      split at ht
      · cases ht
      · exact absurd (hs t ht).1 hstopped
  | taskEnds task ok =>
      simp only [TaskHandler.step] at h
      split at h
      · cases h
      rename_i loop hloop
      obtain rfl := Option.some.inj h
      intro t ht
      change loop.phase? t = _ at ht
      rw [(LoopTasks.finish_inv hloop).1, LoopTasks.phase?_move] at ht
      split at ht
      · obtain ⟨p, -, hp⟩ := Option.map_eq_some_iff.mp ht
        cases hp
      · exact hs t ht
  | taskDone task =>
      simp only [TaskHandler.step] at h
      split at h
      · rename_i loop ok hloop hphase
        obtain rfl := Option.some.inj h
        intro t ht
        change loop.phase? t = _ at ht
        rw [(LoopTasks.notify_inv hloop).2.2] at ht
        split at ht
        · cases ht
        · obtain ⟨hstop, hnil⟩ := hs t ht
          refine ⟨hstop, ?_⟩
          change discard s.awaitTasks task = []
          rw [hnil]
          rfl
      · cases h
  | stop =>
      obtain rfl := Option.some.inj h
      exact fun t ht => ⟨rfl, (hs t ht).2⟩
  | resume call =>
      simp only [TaskHandler.step, TaskHandler.resume] at h
      split at h
      · cases h
      · rename_i tasks cancelled hc
        split at h
        · rename_i hended
          obtain rfl := Option.some.inj h
          have hnil := hinv.awaitTasks_eq_nil hc hended
          have hstop := hinv.calls_stopped call (Dict.mem_of_get? hc)
          split
          · exact hs
          · exact fun _ _ => ⟨hstop, hnil⟩
        · cases h
      · obtain rfl := Option.some.inj h
        exact hs
      · split at h
        · obtain rfl := Option.some.inj h
          split
          · exact hs
          · exact hs
        · cases h
  | cancelStop call => exact absurd ha not_false

/-- As long as no caller of `stop` is cancelled itself, a background task is only ever
cancelled in a stopped handler, and after every task that `stop` has to wait for has called
back. -/
theorem cancels_last {s : TaskHandler} {as : List Step} (hok : Along step NotCancelStop init as)
    (h : run step init as = some s) {t : Nat} (ht : s.loop.phase? t = some .cancelling) :
    s.stopped = true ∧ s.awaitTasks = [] := by
  have hstep : ∀ (s : TaskHandler) (a : Step) s', (s.Inv ∧ s.CancelsLast) →
      s.NotCancelStop a → s.step a = some s' → s'.Inv ∧ s'.CancelsLast :=
    fun s a s' hI ha h => ⟨hI.1.step h, hI.2.step hI.1 ha h⟩
  have hinit : init.CancelsLast := fun t ht =>
    absurd (LoopTasks.mem_of_phase? ht) (LoopTasks.not_mem_empty t)
  exact (run_invariant hstep ⟨inv_init, hinit⟩ hok h).2 t ht

theorem cancels_last_example :
    ∃ s, run step init [.addBackgroundTask true, .addBackgroundTask false, .stop,
        .taskEnds 1 true, .taskDone 1, .resume 0] = some s ∧ s.awaitTasks = [] := by
  obtain ⟨s, hs, ht⟩ := exists_run_of_any step init
    [.addBackgroundTask true, .addBackgroundTask false, .stop,
      .taskEnds 1 true, .taskDone 1, .resume 0]
    (p := fun s => s.loop.phase? 0 = some .cancelling) (by decide)
  exact ⟨s, hs, (cancels_last (by decide) hs ht).2⟩

end TaskHandler

end Inmanta
