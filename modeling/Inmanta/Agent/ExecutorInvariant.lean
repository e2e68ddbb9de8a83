import Inmanta.Agent.ExecutorSystem
import Mathlib.Data.List.Nodup

/-!
# The invariant of replaced executors

`Inv` ties the flags of the manager to the frames on their way and to what the
executor process has. A step changes a member or an executor or two, so that the
rest of the module says when a change of one kind keeps it: of members that move
on (`Moves`), of executors that do (`Runs`), of frames, pools and connections,
and when there is a new member or a new executor.
-/

namespace Inmanta.ExecutorSystem

open ExecutorRequest ExecutorReply

variable {ν β : Type} {s : ExecutorSystem ν β}

/-! ## Queues -/

theorem mem_pop {γ : Type} {queue : ℕ → List γ} {p q : ℕ} {frame x : γ} {rest : List γ}
    (hr : queue p = frame :: rest) (hin : x ∈ Function.update queue p rest q) : x ∈ queue q := by
  rw [Function.update_apply] at hin
  split at hin
  next heq =>
    subst heq
    rw [hr]
    exact List.mem_cons_of_mem _ hin
  · exact hin

theorem nodup_pop {γ : Type} {queue : ℕ → List γ} {p : ℕ} {frame : γ} {rest : List γ}
    (hqueue : ∀ q, (queue q).Nodup) (hr : queue p = frame :: rest) (q : ℕ) :
    (Function.update queue p rest q).Nodup := by
  have hp := hqueue p
  rw [hr, List.nodup_cons] at hp
  rw [Function.update_apply]
  split
  · exact hp.2
  · exact hqueue q

theorem mem_push {γ : Type} {queue : ℕ → List γ} {p q : ℕ} {frame x : γ}
    (hin : x ∈ Function.update queue p (queue p ++ [frame]) q) :
    x ∈ queue q ∨ q = p ∧ x = frame := by
  rw [Function.update_apply] at hin
  split at hin
  next heq =>
    subst heq
    rcases List.mem_append.mp hin with hin | hin
    · exact .inl hin
    · exact .inr ⟨rfl, List.mem_singleton.mp hin⟩
  · exact .inl hin

theorem nodup_push {γ : Type} {queue : ℕ → List γ} {p : ℕ} {frame : γ}
    (hqueue : ∀ q, (queue q).Nodup) (hnew : frame ∉ queue p) (q : ℕ) :
    (Function.update queue p (queue p ++ [frame]) q).Nodup := by
  rw [Function.update_apply]
  split
  · rw [← List.concat_eq_append]
    exact (hqueue p).concat hnew
  · exact hqueue q

/-! ## The invariant -/

/-- What the flags and frames of the members say about one another, and what the
executor process has for their calls. -/
structure Inv (s : ExecutorSystem ν β) : Prop where
  init_frame : ∀ p m, init m ∈ s.requests p →
    m < s.next ∧ (s.members m).process = p ∧ (s.members m).init = .sent
  stop_frame : ∀ p m, stop m ∈ s.requests p →
    m < s.next ∧ (s.members m).process = p ∧ (s.members m).stop = .sent
  all_frame : ∀ p, stopAll ∈ s.requests p → s.process_stopping p = true
  requests_nodup : ∀ p, (s.requests p).Nodup
  started_frame : ∀ p m, started m ∈ s.replies p →
    m < s.next ∧ (s.members m).process = p ∧ (s.members m).init = .answered
  failed_frame : ∀ p m, startFailed m ∉ s.replies p
  stopped_frame : ∀ p m, stopped m ∈ s.replies p →
    m < s.next ∧ (s.members m).process = p ∧ (s.members m).stop = .answered
  replies_nodup : ∀ p, (s.replies p).Nodup
  stop_after : ∀ m < s.next, (s.members m).stop ≠ .unsent →
    (s.members m).init = .returned ∧ (s.members m).shutting_down = true
      ∧ (s.members m).closing = false
  shutting_after : ∀ m < s.next, (s.members m).shutting_down = true →
    (s.members m).init = .returned
  closing_after : ∀ m < s.next, (s.members m).closing = true →
    (s.members m).shutting_down = true
  shut_down_after : ∀ m < s.next, (s.members m).shut_down = true →
    (s.members m).shutting_down = true
  /-- An earlier executor of the agent in the process has answered its stop. -/
  earlier : ∀ m m', m < m' → m' < s.next → (s.members m).process = (s.members m').process →
    (s.members m).id.agent_name = (s.members m').id.agent_name →
    (s.members m).stop = .returned
  acknowledged : ∀ m < s.next, s.connection (s.members m).process = .up →
    (s.members m).shut_down = true → (s.members m).stop = .returned
  placed : ∀ m < s.next, s.connection (s.members m).process ≠ .unstarted
  in_pool : ∀ id m, s.pool id = some m → m < s.next ∧ (s.members m).init = .returned
  in_process_pool : ∀ p id m, s.process_pool p id = some m →
    m < s.next ∧ (s.members m).process = p ∧ (s.members m).init = .returned
  registered : ∀ m < s.next, (s.members m).init = .returned →
    (s.members m).shutting_down = false →
    s.process_pool (s.members m).process (s.members m).id = some m
  lost : ∀ m < s.next, s.connection (s.members m).process = .finalized →
    (s.members m).init = .returned → (s.members m).shutting_down = true
  handed : s.handed_out_lost = false
  owned : ∀ e < s.next_instance, (s.instances e).owner < s.next
    ∧ (s.members (s.instances e).owner).process = (s.instances e).process
    ∧ (s.members (s.instances e).owner).id.agent_name = (s.instances e).name
  owner_inj : ∀ e < s.next_instance, ∀ e' < s.next_instance,
    (s.instances e).owner = (s.instances e').owner → e = e'
  owner_started : ∀ e < s.next_instance, (s.members (s.instances e).owner).init ≠ .sent
    ∧ (s.members (s.instances e).owner).init ≠ .handling
  named : ∀ p n e, s.executors p n = some e →
    e < s.next_instance ∧ (s.instances e).process = p ∧ (s.instances e).name = n
  current : ∀ e < s.next_instance, (s.instances e).finished = false →
    s.executors (s.instances e).process (s.instances e).name = some e
  finished : ∀ e < s.next_instance, (s.instances e).finished = true →
    (s.instances e).stopped = true ∧ (s.instances e).cache_closed = true
  joined : ∀ e < s.next_instance, (s.instances e).joined = true →
    (s.instances e).finished = true
  old_finished : ∀ m < s.next, (s.members m).init = .sent ∨ (s.members m).init = .handling →
    ∀ e < s.next_instance, (s.instances e).process = (s.members m).process →
      (s.instances e).name = (s.members m).id.agent_name → (s.instances e).finished = true
  stop_stopped : ∀ e < s.next_instance,
    (s.members (s.instances e).owner).stop = .handling ∨
      (s.members (s.instances e).owner).stop = .answered ∨
      (s.members (s.instances e).owner).stop = .returned → (s.instances e).stopped = true
  stop_finished : ∀ e < s.next_instance, s.process_stopping (s.instances e).process = false →
    (s.members (s.instances e).owner).stop = .answered ∨
      (s.members (s.instances e).owner).stop = .returned → (s.instances e).finished = true
  stop_handled : ∀ e < s.next_instance, s.process_stopping (s.instances e).process = false →
    (s.instances e).stopped = true → (s.instances e).finished = false →
    (s.members (s.instances e).owner).stop = .handling
  stop_target : ∀ m < s.next, (s.members m).stop = .handling →
    s.stopping m < s.next_instance ∧ (s.instances (s.stopping m)).owner = m
  assertion : s.assertion_failed = false
  stops : s.wrong_stop = false

theorem Inv.safe (h : s.Inv) : s.Safe where
  assertion := h.assertion
  stops := h.stops
  one := by
    intro e he e' he' hp hn hs hs'
    have hf : (s.instances e).finished = false := by
      cases hf : (s.instances e).finished
      · rfl
      · rw [(h.finished e he hf).1] at hs
        cases hs
    have hf' : (s.instances e').finished = false := by
      cases hf' : (s.instances e').finished
      · rfl
      · rw [(h.finished e' he' hf').1] at hs'
        cases hs'
    have hc := h.current e he hf
    rw [hp, hn, h.current e' he' hf'] at hc
    exact (Option.some.inj hc).symm
  closed := fun e he hf => (h.finished e he hf).2
  lost := h.lost
  handed := h.handed

/-! ## Members and executors that change -/

/-- What has to hold of a member that becomes `x`. -/
structure Moves (s : ExecutorSystem ν β) (m : ℕ) (x : MPExecutor ν β) : Prop where
  id : x.id = (s.members m).id
  process : x.process = (s.members m).process
  init_frame : ∀ p, init m ∈ s.requests p → x.init = .sent
  stop_frame : ∀ p, stop m ∈ s.requests p → x.stop = .sent
  started_frame : ∀ p, started m ∈ s.replies p → x.init = .answered
  stopped_frame : ∀ p, stopped m ∈ s.replies p → x.stop = .answered
  stop_after : x.stop ≠ .unsent → x.init = .returned ∧ x.shutting_down = true ∧ x.closing = false
  shutting_after : x.shutting_down = true → x.init = .returned
  closing_after : x.closing = true → x.shutting_down = true
  shut_down_after : x.shut_down = true → x.shutting_down = true
  pending : x.init = .sent ∨ x.init = .handling →
    (s.members m).init = .sent ∨ (s.members m).init = .handling
  started : (s.members m).init ≠ .sent ∧ (s.members m).init ≠ .handling →
    x.init ≠ .sent ∧ x.init ≠ .handling
  returned : (s.members m).init = .returned → x.init = .returned
  stop_returned : (s.members m).stop = .returned → x.stop = .returned
  acknowledged : s.connection (s.members m).process = .up → x.shut_down = true →
    x.stop = .returned
  registered : x.init = .returned → x.shutting_down = false →
    s.process_pool (s.members m).process (s.members m).id = some m
  lost : s.connection (s.members m).process = .finalized → x.init = .returned →
    x.shutting_down = true
  stop_stopped : x.stop = .handling ∨ x.stop = .answered ∨ x.stop = .returned →
    ∀ e < s.next_instance, (s.instances e).owner = m → (s.instances e).stopped = true
  stop_finished : x.stop = .answered ∨ x.stop = .returned →
    ∀ e < s.next_instance, (s.instances e).owner = m →
      s.process_stopping (s.instances e).process = false → (s.instances e).finished = true
  stop_handled : ∀ e < s.next_instance, (s.instances e).owner = m →
    s.process_stopping (s.instances e).process = false → (s.instances e).stopped = true →
    (s.instances e).finished = false → x.stop = .handling
  stop_target : x.stop = .handling →
    s.stopping m < s.next_instance ∧ (s.instances (s.stopping m)).owner = m

theorem Inv.moves (h : s.Inv) {m : ℕ} (hm : m < s.next) : s.Moves m (s.members m) where
  id := rfl
  process := rfl
  init_frame := fun p hin => (h.init_frame p m hin).2.2
  stop_frame := fun p hin => (h.stop_frame p m hin).2.2
  started_frame := fun p hin => (h.started_frame p m hin).2.2
  stopped_frame := fun p hin => (h.stopped_frame p m hin).2.2
  stop_after := h.stop_after m hm
  shutting_after := h.shutting_after m hm
  closing_after := h.closing_after m hm
  shut_down_after := h.shut_down_after m hm
  pending := fun hinit => hinit
  started := fun hinit => hinit
  returned := fun hinit => hinit
  stop_returned := fun hstop => hstop
  acknowledged := h.acknowledged m hm
  registered := h.registered m hm
  lost := h.lost m hm
  stop_stopped := fun hstop e he howner => h.stop_stopped e he (howner ▸ hstop)
  stop_finished := fun hstop e he howner hrunning =>
    h.stop_finished e he hrunning (howner ▸ hstop)
  stop_handled := fun e he howner hrunning hstopped hfinished =>
    howner ▸ h.stop_handled e he hrunning hstopped hfinished
  stop_target := h.stop_target m hm

/-- What has to hold of an executor that becomes `x`. -/
structure Runs (s : ExecutorSystem ν β) (e : ℕ) (x : InProcessExecutor ν) : Prop where
  owner : x.owner = (s.instances e).owner
  process : x.process = (s.instances e).process
  name : x.name = (s.instances e).name
  still_stopped : (s.instances e).stopped = true → x.stopped = true
  still_finished : (s.instances e).finished = true → x.finished = true
  finished : x.finished = true → x.stopped = true ∧ x.cache_closed = true
  joined : x.joined = true → x.finished = true

theorem Inv.runs (h : s.Inv) {e : ℕ} (he : e < s.next_instance) : s.Runs e (s.instances e) where
  owner := rfl
  process := rfl
  name := rfl
  still_stopped := fun hstopped => hstopped
  still_finished := fun hfinished => hfinished
  finished := h.finished e he
  joined := h.joined e he

theorem Runs.not_finished {e : ℕ} {x : InProcessExecutor ν} (h : s.Runs e x)
    (hx : x.finished = false) : (s.instances e).finished = false := by
  cases hf : (s.instances e).finished with
  | false => rfl
  | true => cases hx.symm.trans (h.still_finished hf)

/-- A step that creates nothing keeps the invariant if each member and each executor
can become what it does. -/
theorem Inv.of_changes (h : s.Inv) {members : ℕ → MPExecutor ν β}
    {pool : ExecutorId ν β → Option ℕ} {process_pool : ℕ → ExecutorId ν β → Option ℕ}
    {instances : ℕ → InProcessExecutor ν} {stopping : ℕ → ℕ}
    (hmoves : ∀ m < s.next, Moves { s with
      pool := pool, process_pool := process_pool, instances := instances, stopping := stopping }
      m (members m))
    (hruns : ∀ e < s.next_instance, s.Runs e (instances e))
    (hpool : ∀ id m, pool id = some m → m < s.next ∧ (members m).init = .returned)
    (hprocess : ∀ p id m, process_pool p id = some m →
      m < s.next ∧ (s.members m).process = p ∧ (members m).init = .returned) :
    Inv { s with
      members := members, pool := pool, process_pool := process_pool, instances := instances,
      stopping := stopping } := by
  have howner : ∀ e < s.next_instance, (instances e).owner < s.next := fun e he =>
    (hruns e he).owner ▸ (h.owned e he).1
  exact
    { init_frame := by
        intro p m hin
        obtain ⟨hm, hp, -⟩ := h.init_frame p m hin
        exact ⟨hm, (hmoves m hm).process.trans hp, (hmoves m hm).init_frame p hin⟩
      stop_frame := by
        intro p m hin
        obtain ⟨hm, hp, -⟩ := h.stop_frame p m hin
        exact ⟨hm, (hmoves m hm).process.trans hp, (hmoves m hm).stop_frame p hin⟩
      all_frame := h.all_frame
      requests_nodup := h.requests_nodup
      started_frame := by
        intro p m hin
        obtain ⟨hm, hp, -⟩ := h.started_frame p m hin
        exact ⟨hm, (hmoves m hm).process.trans hp, (hmoves m hm).started_frame p hin⟩
      failed_frame := h.failed_frame
      stopped_frame := by
        intro p m hin
        obtain ⟨hm, hp, -⟩ := h.stopped_frame p m hin
        exact ⟨hm, (hmoves m hm).process.trans hp, (hmoves m hm).stopped_frame p hin⟩
      replies_nodup := h.replies_nodup
      stop_after := fun m hm => (hmoves m hm).stop_after
      shutting_after := fun m hm => (hmoves m hm).shutting_after
      closing_after := fun m hm => (hmoves m hm).closing_after
      shut_down_after := fun m hm => (hmoves m hm).shut_down_after
      earlier := by
        intro m m' hlt hm' hp hn
        have hmove := hmoves m (Nat.lt_trans hlt hm')
        have hmove' := hmoves m' hm'
        refine hmove.stop_returned (h.earlier m m' hlt hm' ?_ ?_)
        · exact hmove.process.symm.trans (hp.trans hmove'.process)
        · have hid := hmove.id
          have hid' := hmove'.id
          exact (congrArg _ hid.symm).trans (hn.trans (congrArg _ hid'))
      acknowledged := by
        intro m hm hup
        exact (hmoves m hm).acknowledged ((hmoves m hm).process ▸ hup)
      placed := by
        intro m hm hunstarted
        exact h.placed m hm ((congrArg _ (hmoves m hm).process.symm).trans hunstarted)
      in_pool := hpool
      in_process_pool := by
        intro p id m hin
        obtain ⟨hm, hp, hinit⟩ := hprocess p id m hin
        exact ⟨hm, (hmoves m hm).process.trans hp, hinit⟩
      registered := by
        intro m hm hinit hrunning
        exact (congrArg₂ process_pool (hmoves m hm).process (hmoves m hm).id).trans
          ((hmoves m hm).registered hinit hrunning)
      lost := by
        intro m hm hfinalized
        exact (hmoves m hm).lost ((hmoves m hm).process ▸ hfinalized)
      handed := h.handed
      owned := by
        intro e he
        obtain ⟨-, hp, hn⟩ := h.owned e he
        have hrun := hruns e he
        have hmove := hmoves _ (howner e he)
        refine ⟨howner e he, hmove.process.trans ?_, (congrArg _ hmove.id).trans ?_⟩
        · rw [hrun.owner, hrun.process]
          exact hp
        · rw [hrun.owner, hrun.name]
          exact hn
      owner_inj := by
        intro e he e' he' hsame
        exact h.owner_inj e he e' he'
          ((hruns e he).owner.symm.trans (hsame.trans (hruns e' he').owner))
      owner_started := by
        intro e he
        refine (hmoves _ (howner e he)).started ?_
        rw [(hruns e he).owner]
        exact h.owner_started e he
      named := by
        intro p n e hname
        obtain ⟨he, hp, hn⟩ := h.named p n e hname
        exact ⟨he, (hruns e he).process.trans hp, (hruns e he).name.trans hn⟩
      current := by
        intro e he hfinished
        have hcurrent := h.current e he ((hruns e he).not_finished hfinished)
        rwa [← (hruns e he).process, ← (hruns e he).name] at hcurrent
      finished := fun e he => (hruns e he).finished
      joined := fun e he => (hruns e he).joined
      old_finished := by
        intro m hm hinit e he hp hn
        have hmove := hmoves m hm
        refine (hruns e he).still_finished
          (h.old_finished m hm (hmove.pending hinit) e he ?_ ?_)
        · exact (hruns e he).process.symm.trans (hp.trans hmove.process)
        · exact (hruns e he).name.symm.trans (hn.trans (congrArg _ hmove.id))
      stop_stopped := fun e he hstop => (hmoves _ (howner e he)).stop_stopped hstop e he rfl
      stop_finished := fun e he hrunning hstop =>
        (hmoves _ (howner e he)).stop_finished hstop e he rfl hrunning
      stop_handled := fun e he => (hmoves _ (howner e he)).stop_handled e he rfl
      stop_target := fun m hm => (hmoves m hm).stop_target
      assertion := h.assertion
      stops := h.stops }

theorem Inv.of_steps (h : s.Inv) {members : ℕ → MPExecutor ν β}
    {instances : ℕ → InProcessExecutor ν} {stopping : ℕ → ℕ}
    (hmoves : ∀ m < s.next,
      Moves { s with instances := instances, stopping := stopping } m (members m))
    (hruns : ∀ e < s.next_instance, s.Runs e (instances e)) :
    Inv { s with members := members, instances := instances, stopping := stopping } := by
  refine h.of_changes hmoves hruns (fun id m hin => ?_) fun p id m hin => ?_
  · obtain ⟨hm, hinit⟩ := h.in_pool id m hin
    exact ⟨hm, (hmoves m hm).returned hinit⟩
  · obtain ⟨hm, hp, hinit⟩ := h.in_process_pool p id m hin
    exact ⟨hm, hp, (hmoves m hm).returned hinit⟩

theorem Inv.of_moves (h : s.Inv) {members : ℕ → MPExecutor ν β}
    (hmoves : ∀ m < s.next, s.Moves m (members m)) : Inv { s with members := members } :=
  h.of_steps hmoves fun _ he => h.runs he

/-- One member is changed. -/
theorem Moves.update {t : ExecutorSystem ν β} {m : ℕ} {x : MPExecutor ν β} (hmove : t.Moves m x)
    (hothers : ∀ m' < t.next, m' ≠ m → t.Moves m' (t.members m')) :
    ∀ m' < t.next, t.Moves m' (Function.update t.members m x m') := by
  intro m' hm'
  rw [Function.update_apply]
  split
  next heq =>
    subst heq
    exact hmove
  next hne => exact hothers m' hm' hne

theorem Inv.of_move (h : s.Inv) {m : ℕ} {f : MPExecutor ν β → MPExecutor ν β}
    (hmove : s.Moves m (f (s.members m))) : Inv (s.modify m f) :=
  h.of_moves (hmove.update fun _ hm' _ => h.moves hm')

/-- The executors of a member are only stopped by it, except when the process is. -/
theorem Inv.moves_of_runs (h : s.Inv) {m : ℕ} (hm : m < s.next)
    {instances : ℕ → InProcessExecutor ν} {stopping : ℕ → ℕ}
    (hruns : ∀ e < s.next_instance, s.Runs e (instances e))
    (hstopped : ∀ e < s.next_instance, (s.instances e).owner = m → (instances e).stopped = true →
      (s.instances e).stopped = true ∨ s.process_stopping (s.instances e).process = true)
    (hsame : stopping m = s.stopping m) :
    Moves { s with instances := instances, stopping := stopping } m (s.members m) := by
  have hmove := h.moves hm
  have howner : ∀ e < s.next_instance, (instances e).owner = m → (s.instances e).owner = m :=
    fun e he ho => (hruns e he).owner.symm.trans ho
  exact
    { hmove with
      stop_stopped := fun hstop e he ho =>
        (hruns e he).still_stopped (hmove.stop_stopped hstop e he (howner e he ho))
      stop_finished := fun hstop e he ho hrunning =>
        (hruns e he).still_finished
          (hmove.stop_finished hstop e he (howner e he ho) ((hruns e he).process ▸ hrunning))
      stop_handled := fun e he ho hrunning hs hf => by
        have hrunning := (congrArg _ (hruns e he).process.symm).trans hrunning
        obtain hs | hs := hstopped e he (howner e he ho) hs
        · exact hmove.stop_handled e he (howner e he ho) hrunning hs
            ((hruns e he).not_finished hf)
        · cases hrunning.symm.trans hs
      stop_target := fun hstop => by
        obtain ⟨he, ho⟩ := hmove.stop_target hstop
        change stopping m < _ ∧ (instances (stopping m)).owner = m
        rw [hsame]
        exact ⟨he, (hruns _ he).owner.trans ho⟩ }

theorem Inv.of_runs (h : s.Inv) {instances : ℕ → InProcessExecutor ν}
    (hruns : ∀ e < s.next_instance, s.Runs e (instances e))
    (hstopped : ∀ e < s.next_instance, (instances e).stopped = true →
      (s.instances e).stopped = true ∨ s.process_stopping (s.instances e).process = true) :
    Inv { s with instances := instances } :=
  h.of_steps (fun _ hm => h.moves_of_runs hm hruns (fun e he _ => hstopped e he) rfl) hruns

theorem Runs.update {e : ℕ} {x : InProcessExecutor ν} (hrun : s.Runs e x) (h : s.Inv) :
    ∀ e' < s.next_instance, s.Runs e' (Function.update s.instances e x e') := by
  intro e' he'
  rw [Function.update_apply]
  split
  next heq =>
    subst heq
    exact hrun
  · exact h.runs he'

theorem Inv.of_run (h : s.Inv) {e : ℕ} {x : InProcessExecutor ν} (hrun : s.Runs e x)
    (hstopped : x.stopped = true → (s.instances e).stopped = true) :
    Inv { s with instances := Function.update s.instances e x } := by
  refine h.of_runs (hrun.update h) fun e' _ hs => .inl ?_
  rw [Function.update_apply] at hs
  split at hs
  next heq => exact heq ▸ hstopped hs
  · exact hs

/-! ## Pools, frames and connections -/

/-- The pools may forget members that shut down. -/
theorem Inv.forget (h : s.Inv) {pool : ExecutorId ν β → Option ℕ}
    {process_pool : ℕ → ExecutorId ν β → Option ℕ}
    (hpool : ∀ id m, pool id = some m → s.pool id = some m)
    (hprocess : ∀ p id m, process_pool p id = some m → s.process_pool p id = some m)
    (hkept : ∀ m < s.next, (s.members m).shutting_down = false →
      s.process_pool (s.members m).process (s.members m).id = some m →
      process_pool (s.members m).process (s.members m).id = some m) :
    Inv { s with pool := pool, process_pool := process_pool } :=
  { h with
    in_pool := fun id m hin => h.in_pool id m (hpool id m hin)
    in_process_pool := fun p id m hin => h.in_process_pool p id m (hprocess p id m hin)
    registered := fun m hm hinit hrunning =>
      hkept m hm hrunning (h.registered m hm hinit hrunning) }

theorem Inv.of_send (h : s.Inv) {p : ℕ} {request : ExecutorRequest}
    (hnew : request ∉ s.requests p)
    (hinit : ∀ m, init m = request →
      m < s.next ∧ (s.members m).process = p ∧ (s.members m).init = .sent)
    (hstop : ∀ m, stop m = request →
      m < s.next ∧ (s.members m).process = p ∧ (s.members m).stop = .sent)
    (hall : stopAll = request → s.process_stopping p = true) : Inv (s.send p request) :=
  { h with
    init_frame := by
      intro q m hin
      obtain hin | ⟨rfl, hm⟩ := mem_push hin
      · exact h.init_frame q m hin
      · exact hinit m hm
    stop_frame := by
      intro q m hin
      obtain hin | ⟨rfl, hm⟩ := mem_push hin
      · exact h.stop_frame q m hin
      · exact hstop m hm
    all_frame := by
      intro q hin
      obtain hin | ⟨rfl, hp⟩ := mem_push hin
      · exact h.all_frame q hin
      · exact hall hp
    requests_nodup := nodup_push h.requests_nodup hnew }

theorem Inv.of_answer (h : s.Inv) {p : ℕ} {reply : ExecutorReply} (hnew : reply ∉ s.replies p)
    (hstarted : ∀ m, started m = reply →
      m < s.next ∧ (s.members m).process = p ∧ (s.members m).init = .answered)
    (hfailed : ∀ m, startFailed m ≠ reply)
    (hstopped : ∀ m, stopped m = reply →
      m < s.next ∧ (s.members m).process = p ∧ (s.members m).stop = .answered) :
    Inv (s.answer p reply) :=
  { h with
    started_frame := by
      intro q m hin
      obtain hin | ⟨rfl, hm⟩ := mem_push hin
      · exact h.started_frame q m hin
      · exact hstarted m hm
    failed_frame := by
      intro q m hin
      obtain hin | ⟨rfl, hm⟩ := mem_push hin
      · exact h.failed_frame q m hin
      · exact hfailed m hm
    stopped_frame := by
      intro q m hin
      obtain hin | ⟨rfl, hm⟩ := mem_push hin
      · exact h.stopped_frame q m hin
      · exact hstopped m hm
    replies_nodup := nodup_push h.replies_nodup hnew }

/-- A connection that is gone is only told to those that are shut down. -/
theorem Inv.disconnect (h : s.Inv) {p : ℕ} {c : ProcessConnection} (hup : c ≠ .up)
    (hstarted : c ≠ .unstarted)
    (hlost : c = .finalized → ∀ m < s.next, (s.members m).process = p →
      (s.members m).init = .returned → (s.members m).shutting_down = true) :
    Inv { s with connection := Function.update s.connection p c } := by
  have hcases : ∀ q c', Function.update s.connection p c q = c' →
      q = p ∧ c = c' ∨ s.connection q = c' := by
    intro q c' hq
    rw [Function.update_apply] at hq
    split at hq
    next heq => exact .inl ⟨heq, hq⟩
    · exact .inr hq
  exact
    { h with
      acknowledged := by
        intro m hm hq
        obtain ⟨-, hc⟩ | hq := hcases _ _ hq
        · exact absurd hc hup
        · exact h.acknowledged m hm hq
      placed := by
        intro m hm hq
        obtain ⟨-, hc⟩ | hq := hcases _ _ hq
        · exact hstarted hc
        · exact h.placed m hm hq
      lost := by
        intro m hm hq
        obtain ⟨hp, hc⟩ | hq := hcases _ _ hq
        · exact hlost hc m hm hp
        · exact h.lost m hm hq }

/-! ## New members and executors -/

/-- The next member, which waits for its executor while every earlier one of the name has
been stopped. -/
theorem Inv.new_member (h : s.Inv) {x : MPExecutor ν β} (hx : s.members s.next = x)
    (hinit : x.init = .sent) (hstop : x.stop = .unsent) (hclosing : x.closing = false)
    (hdown : x.shutting_down = false) (hshut : x.shut_down = false)
    (hplaced : s.connection x.process ≠ .unstarted)
    (hstopping : s.process_stopping x.process = false)
    (hearlier : ∀ m < s.next, (s.members m).process = x.process →
      (s.members m).id.agent_name = x.id.agent_name → (s.members m).stop = .returned) :
    Inv { s with next := s.next + 1 } := by
  subst hx
  exact
    { h with
      init_frame := by
        intro p m hin
        obtain ⟨hm, hsent⟩ := h.init_frame p m hin
        exact ⟨Nat.lt_succ_of_lt hm, hsent⟩
      stop_frame := by
        intro p m hin
        obtain ⟨hm, hsent⟩ := h.stop_frame p m hin
        exact ⟨Nat.lt_succ_of_lt hm, hsent⟩
      started_frame := by
        intro p m hin
        obtain ⟨hm, hanswered⟩ := h.started_frame p m hin
        exact ⟨Nat.lt_succ_of_lt hm, hanswered⟩
      stopped_frame := by
        intro p m hin
        obtain ⟨hm, hanswered⟩ := h.stopped_frame p m hin
        exact ⟨Nat.lt_succ_of_lt hm, hanswered⟩
      stop_after := Nat.forall_lt_succ_right.mpr ⟨h.stop_after, fun hsent => absurd hstop hsent⟩
      shutting_after := Nat.forall_lt_succ_right.mpr
        ⟨h.shutting_after, fun hd => by cases hdown.symm.trans hd⟩
      closing_after := Nat.forall_lt_succ_right.mpr
        ⟨h.closing_after, fun hc => by cases hclosing.symm.trans hc⟩
      shut_down_after := Nat.forall_lt_succ_right.mpr
        ⟨h.shut_down_after, fun hs => by cases hshut.symm.trans hs⟩
      earlier := by
        intro m m' hlt hm' hp hn
        obtain hm' | rfl := Nat.lt_succ_iff_lt_or_eq.mp hm'
        · exact h.earlier m m' hlt hm' hp hn
        · exact hearlier m hlt hp hn
      acknowledged := Nat.forall_lt_succ_right.mpr
        ⟨h.acknowledged, fun _ hs => by cases hshut.symm.trans hs⟩
      placed := Nat.forall_lt_succ_right.mpr ⟨h.placed, hplaced⟩
      in_pool := by
        intro id m hin
        obtain ⟨hm, hreturned⟩ := h.in_pool id m hin
        exact ⟨Nat.lt_succ_of_lt hm, hreturned⟩
      in_process_pool := by
        intro p id m hin
        obtain ⟨hm, hreturned⟩ := h.in_process_pool p id m hin
        exact ⟨Nat.lt_succ_of_lt hm, hreturned⟩
      registered := Nat.forall_lt_succ_right.mpr
        ⟨h.registered, fun hreturned => by cases hinit.symm.trans hreturned⟩
      lost := Nat.forall_lt_succ_right.mpr
        ⟨h.lost, fun _ hreturned => by cases hinit.symm.trans hreturned⟩
      owned := by
        intro e he
        obtain ⟨hm, howned⟩ := h.owned e he
        exact ⟨Nat.lt_succ_of_lt hm, howned⟩
      old_finished := by
        refine Nat.forall_lt_succ_right.mpr ⟨h.old_finished, fun _ e he hp hn => ?_⟩
        obtain ⟨hm, hprocess, hname⟩ := h.owned e he
        have hreturned := hearlier _ hm (hprocess.trans hp) (hname.trans hn)
        exact h.stop_finished e he ((congrArg _ hp).trans hstopping) (.inr hreturned)
      stop_target := Nat.forall_lt_succ_right.mpr
        ⟨h.stop_target, fun hs => by cases hstop.symm.trans hs⟩ }

/-- The next executor, for the one member of its name that may have one. -/
theorem Inv.new_executor [DecidableEq ν] (h : s.Inv) {m : ℕ} {x : InProcessExecutor ν}
    {instances : ℕ → InProcessExecutor ν} (hx : instances s.next_instance = x)
    (hsame : ∀ e < s.next_instance, instances e = s.instances e)
    (hm : m < s.next) (howner : x.owner = m) (hprocess : x.process = (s.members m).process)
    (hname : x.name = (s.members m).id.agent_name)
    (hstopped : x.stopped = false) (hfinished : x.finished = false) (hjoined : x.joined = false)
    (hinit : (s.members m).init ≠ .sent ∧ (s.members m).init ≠ .handling)
    (hstop : (s.members m).stop = .unsent)
    (hfresh : ∀ e < s.next_instance, (s.instances e).owner ≠ m)
    (hold : ∀ e < s.next_instance, (s.instances e).process = (s.members m).process →
      (s.instances e).name = (s.members m).id.agent_name → (s.instances e).finished = true)
    (hlast : ∀ m' < s.next, (s.members m').init = .sent ∨ (s.members m').init = .handling →
      (s.members m).process = (s.members m').process →
      (s.members m).id.agent_name ≠ (s.members m').id.agent_name) :
    Inv { s with
      executors := fun p n =>
        if p = (s.members m).process ∧ n = (s.members m).id.agent_name then some s.next_instance
        else s.executors p n
      instances := instances
      next_instance := s.next_instance + 1 } := by
  have hplaced : Inv { s with instances := instances } := by
    refine h.of_runs (fun e he => ?_) fun e he hs => .inl ?_
    · rw [hsame e he]
      exact h.runs he
    · rwa [hsame e he] at hs
  have hfresh : ∀ e < s.next_instance, (instances e).owner ≠ m := by
    intro e he
    rw [hsame e he]
    exact hfresh e he
  have hold : ∀ e < s.next_instance, (instances e).process = (s.members m).process →
      (instances e).name = (s.members m).id.agent_name → (instances e).finished = true := by
    intro e he
    rw [hsame e he]
    exact hold e he
  subst hx howner
  exact
    { hplaced with
      owned := Nat.forall_lt_succ_right.mpr ⟨hplaced.owned, hm, hprocess.symm, hname.symm⟩
      owner_inj := by
        intro e he e' he' ho
        obtain he | rfl := Nat.lt_succ_iff_lt_or_eq.mp he
        · obtain he' | rfl := Nat.lt_succ_iff_lt_or_eq.mp he'
          · exact hplaced.owner_inj e he e' he' ho
          · exact absurd ho (hfresh e he)
        · obtain he' | rfl := Nat.lt_succ_iff_lt_or_eq.mp he'
          · exact absurd ho.symm (hfresh e' he')
          · rfl
      owner_started := Nat.forall_lt_succ_right.mpr ⟨hplaced.owner_started, hinit⟩
      named := by
        intro p n e hnamed
        obtain ⟨⟨hp, hn⟩, he⟩ | ⟨-, hnamed⟩ := ite_eq_iff.mp hnamed
        · obtain rfl := Option.some.inj he
          exact ⟨Nat.lt_succ_self _, hprocess.trans hp.symm, hname.trans hn.symm⟩
        · obtain ⟨he, hnamed⟩ := hplaced.named p n e hnamed
          exact ⟨Nat.lt_succ_of_lt he, hnamed⟩
      current := by
        refine Nat.forall_lt_succ_right.mpr
          ⟨fun e he hf => ?_, fun _ => if_pos ⟨hprocess, hname⟩⟩
        refine (if_neg fun hp => ?_).trans (hplaced.current e he hf)
        cases hf.symm.trans (hold e he hp.1 hp.2)
      finished := Nat.forall_lt_succ_right.mpr
        ⟨hplaced.finished, fun hf => by cases hfinished.symm.trans hf⟩
      joined := Nat.forall_lt_succ_right.mpr
        ⟨hplaced.joined, fun hj => by cases hjoined.symm.trans hj⟩
      old_finished := by
        intro m' hm' hpending
        refine Nat.forall_lt_succ_right.mpr
          ⟨hplaced.old_finished m' hm' hpending, fun hp hn => ?_⟩
        exact absurd (hname.symm.trans hn) (hlast m' hm' hpending (hprocess.symm.trans hp))
      stop_stopped := Nat.forall_lt_succ_right.mpr
        ⟨hplaced.stop_stopped, fun hs => by simp [hstop] at hs⟩
      stop_finished := Nat.forall_lt_succ_right.mpr
        ⟨hplaced.stop_finished, fun _ hs => by simp [hstop] at hs⟩
      stop_handled := Nat.forall_lt_succ_right.mpr
        ⟨hplaced.stop_handled, fun _ hs => by cases hstopped.symm.trans hs⟩
      stop_target := by
        intro m' hm' hs
        obtain ⟨he, ho⟩ := hplaced.stop_target m' hm' hs
        exact ⟨Nat.lt_succ_of_lt he, ho⟩ }

end Inmanta.ExecutorSystem
