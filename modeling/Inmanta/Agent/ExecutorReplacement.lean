import Inmanta.Agent.ExecutorInvariant

/-!
# Replacing executors

An executor is replaced as soon as its shutdown is requested, and its process
knows it by the name of the agent, which another executor can share. While every
earlier executor of the name is shut down before the next one is created,
nothing goes wrong (`executors_replaced_safely`): each step keeps the invariant.
`replacement_not_stopped` says what happens otherwise.
-/

namespace Inmanta.ExecutorSystem

open ExecutorRequest ExecutorReply

variable {ν β : Type} {s : ExecutorSystem ν β}

/-! ## The manager -/

theorem Inv.start_process (h : s.Inv) {p : ℕ} (b : β) (hp : s.connection p = .unstarted) :
    Inv { s with
      connection := Function.update s.connection p .up
      blueprint := Function.update s.blueprint p (some b) } := by
  -- the process has no members yet
  have hsame : ∀ m < s.next, Function.update s.connection p .up (s.members m).process
      = s.connection (s.members m).process := fun m hm =>
    Function.update_of_ne (fun heq => h.placed m hm ((congrArg _ heq).trans hp)) ..
  exact
    { h with
      acknowledged := fun m hm hup => h.acknowledged m hm ((hsame m hm).symm.trans hup)
      placed := fun m hm hunstarted => h.placed m hm ((hsame m hm).symm.trans hunstarted)
      lost := fun m hm hfinalized => h.lost m hm ((hsame m hm).symm.trans hfinalized) }

/-- Creating an executor, when every earlier one of the agent is shut down. -/
theorem Inv.create (h : s.Inv) {id : ExecutorId ν β} {p : ℕ} (hup : s.connection p = .up)
    (hstopping : s.process_stopping p = false)
    (hearlier : ∀ m < s.next, (s.members m).process = p →
      (s.members m).id.agent_name = id.agent_name → (s.members m).shut_down = true) :
    Inv ({ s with
      members := Function.update s.members s.next
        { id := id, process := p, init := .sent, stop := .unsent, closing := false,
          shutting_down := false, shut_down := false }
      next := s.next + 1 }.send p (.init s.next)) := by
  have hnew : Inv { s with
      members := Function.update s.members s.next
        { id := id, process := p, init := .sent, stop := .unsent, closing := false,
          shutting_down := false, shut_down := false } } := by
    refine h.of_moves fun m hm => ?_
    rw [Function.update_of_ne (Nat.ne_of_lt hm)]
    exact h.moves hm
  have hcreated := hnew.new_member (Function.update_self ..) rfl rfl rfl rfl rfl
    (by rw [hup]; decide) hstopping fun m (hm : m < s.next) hp hn => by
      simp only [Function.update_of_ne (Nat.ne_of_lt hm)] at hp hn ⊢
      exact h.acknowledged m hm (hp ▸ hup) (hearlier m hm hp hn)
  refine hcreated.of_send (fun hin => ?_) (fun m heq => ?_) (fun _ heq => by cases heq)
    fun heq => by cases heq
  · exact absurd (h.init_frame _ _ hin).1 (Nat.lt_irrefl _)
  · obtain rfl := ExecutorRequest.init.inj heq
    refine ⟨Nat.lt_succ_self _, ?_⟩
    simp

theorem Inv.request_shutdown (h : s.Inv) {m : ℕ} (hm : m < s.next)
    (hinit : (s.members m).init = .returned) (hdown : (s.members m).shutting_down = false) :
    Inv (s.modify m fun x => { x with shutting_down := true, closing := true }) := by
  have hstop : (s.members m).stop = .unsent := by
    by_contra hstop
    rw [(h.stop_after m hm hstop).2.1] at hdown
    cases hdown
  exact h.of_move
    { h.moves hm with
      stop_after := fun hsent => absurd hstop hsent
      shutting_after := fun _ => hinit
      closing_after := fun _ => rfl
      shut_down_after := fun _ => rfl
      registered := fun _ hrunning => absurd hrunning Bool.noConfusion
      lost := fun _ _ => rfl }

theorem Inv.send_stop (h : s.Inv) {m : ℕ} (hm : m < s.next)
    (hclosing : (s.members m).closing = true) (hup : s.connection (s.members m).process = .up) :
    Inv ((s.modify m fun x => { x with stop := .sent, closing := false }).send
      (s.members m).process (.stop m)) := by
  have hstop : (s.members m).stop = .unsent := by
    by_contra hstop
    rw [(h.stop_after m hm hstop).2.2] at hclosing
    cases hclosing
  have hdown := h.closing_after m hm hclosing
  have hshut : (s.members m).shut_down ≠ true := fun hshut => by
    cases hstop.symm.trans (h.acknowledged m hm hup hshut)
  have hframe : ∀ p, stop m ∉ s.requests p := fun p hin => by
    cases hstop.symm.trans (h.stop_frame p m hin).2.2
  have hsent : Inv (s.modify m fun x => { x with stop := .sent, closing := false }) :=
    h.of_move
      { h.moves hm with
        stop_frame := fun _ _ => rfl
        stopped_frame := fun p hin => by
          cases hstop.symm.trans (h.stopped_frame p m hin).2.2
        stop_after := fun _ => ⟨h.shutting_after m hm hdown, hdown, rfl⟩
        closing_after := fun hc => absurd hc Bool.noConfusion
        stop_returned := fun hreturned => by cases hstop.symm.trans hreturned
        acknowledged := fun _ hs => absurd hs hshut
        stop_stopped := fun hs => by simp at hs
        stop_finished := fun hs => by simp at hs
        stop_handled := fun e he howner hrunning hstopped hfinished => by
          have hhandling := h.stop_handled e he hrunning hstopped hfinished
          rw [howner, hstop] at hhandling
          cases hhandling
        stop_target := fun hs => by cases hs }
  refine hsent.of_send (hframe _) (fun _ heq => by cases heq) (fun m' heq => ?_)
    fun heq => by cases heq
  obtain rfl := ExecutorRequest.stop.inj heq
  refine ⟨hm, ?_⟩
  simp [modify]

theorem Inv.set_shutdown (h : s.Inv) {m : ℕ} (hm : m < s.next)
    (hdown : (s.members m).shutting_down = true)
    (hlost : s.connection (s.members m).process = .up → (s.members m).stop = .returned) :
    Inv (s.set_shutdown m) := by
  have hshut : Inv (s.modify m fun x =>
      { x with shutting_down := true, shut_down := true, closing := false }) :=
    h.of_move
      { h.moves hm with
        stop_after := fun hsent => ⟨(h.stop_after m hm hsent).1, rfl, rfl⟩
        shutting_after := fun _ => h.shutting_after m hm hdown
        closing_after := fun _ => rfl
        shut_down_after := fun _ => rfl
        acknowledged := fun hup _ => hlost hup
        registered := fun _ hrunning => absurd hrunning Bool.noConfusion
        lost := fun _ _ => rfl }
  refine hshut.forget (fun id m' hin => (ite_eq_iff.mp hin).elim (fun h => ?_) And.right)
    (fun p id m' hin => (ite_eq_iff.mp hin).elim (fun h => ?_) And.right)
    fun m' _ hrunning hpool => ?_
  · cases h.2
  · cases h.2
  · refine (if_neg fun heq => ?_).trans hpool
    obtain rfl := Option.some.inj (hpool.symm.trans heq)
    simp only [modify, Function.update_self] at hrunning
    cases hrunning

/-! ## Frames -/

/-- A frame that is only in one queue is gone once it is taken out there. -/
theorem not_mem_pop {γ : Type} {queue : ℕ → List γ} {p : ℕ} {frame : γ} {rest : List γ}
    (hrest : frame ∉ rest) (honly : ∀ q, frame ∈ queue q → q = p) :
    ∀ q, frame ∉ Function.update queue p rest q := by
  intro q hq
  rw [Function.update_apply] at hq
  split at hq
  · exact hrest hq
  · exact absurd (honly q hq) ‹_›

theorem Inv.pop_request (h : s.Inv) {p : ℕ} {request : ExecutorRequest}
    {rest : List ExecutorRequest} (hr : s.requests p = request :: rest) :
    Inv { s with requests := Function.update s.requests p rest } :=
  { h with
    init_frame := fun q m hin => h.init_frame q m (mem_pop hr hin)
    stop_frame := fun q m hin => h.stop_frame q m (mem_pop hr hin)
    all_frame := fun q hin => h.all_frame q (mem_pop hr hin)
    requests_nodup := nodup_pop h.requests_nodup hr }

theorem Inv.pop_reply (h : s.Inv) {p : ℕ} {frame : ExecutorReply} {rest : List ExecutorReply}
    (hr : s.replies p = frame :: rest) :
    Inv { s with replies := Function.update s.replies p rest } :=
  { h with
    started_frame := fun q m hin => h.started_frame q m (mem_pop hr hin)
    failed_frame := fun q m hin => h.failed_frame q m (mem_pop hr hin)
    stopped_frame := fun q m hin => h.stopped_frame q m (mem_pop hr hin)
    replies_nodup := nodup_pop h.replies_nodup hr }

theorem Inv.start_executor [DecidableEq ν] (h : s.Inv) {m : ℕ} (hm : m < s.next)
    (hinit : (s.members m).init = .sent ∨ (s.members m).init = .handling)
    (hframe : ∀ p, init m ∉ s.requests p) : Inv (s.start_executor m) := by
  have hwaits : (s.members m).init ≠ .returned := by
    rcases hinit with hinit | hinit <;> rw [hinit] <;> decide
  have hstop : (s.members m).stop = .unsent := by
    by_contra hsent
    exact hwaits (h.stop_after m hm hsent).1
  have hreply : ∀ p, started m ∉ s.replies p := fun p hin => by
    rcases hinit with hinit | hinit <;> cases hinit.symm.trans (h.started_frame p m hin).2.2
  have hanswered : Inv (s.modify m fun x => { x with init := .answered }) :=
    h.of_move
      { h.moves hm with
        init_frame := fun p hin => absurd hin (hframe p)
        started_frame := fun _ _ => rfl
        stop_after := fun hsent => absurd hstop hsent
        shutting_after := fun hdown => absurd (h.shutting_after m hm hdown) hwaits
        pending := fun hpending => by simp at hpending
        started := fun _ => by simp
        returned := fun hreturned => absurd hreturned hwaits
        registered := fun hreturned => by cases hreturned
        lost := fun _ hreturned => by cases hreturned }
  have hmember : (s.modify m fun x => { x with init := .answered }).members m
      = { s.members m with init := .answered } := Function.update_self ..
  have hothers : ∀ m' ≠ m, (s.modify m fun x => { x with init := .answered }).members m'
      = s.members m' := fun m' hne => Function.update_of_ne hne ..
  have hfresh : ∀ e < s.next_instance, (s.instances e).owner ≠ m := by
    intro e he ho
    have hstarted := h.owner_started e he
    rw [ho] at hstarted
    exact hinit.elim hstarted.1 hstarted.2
  -- no other member of the name can wait for an executor
  have hlast : ∀ m' < s.next, (s.members m').init = .sent ∨ (s.members m').init = .handling →
      m' ≠ m → (s.members m).process = (s.members m').process →
      (s.members m).id.agent_name ≠ (s.members m').id.agent_name := by
    intro m' hm' hpending hne hp hn
    obtain hlt | hlt := Nat.lt_or_gt_of_ne hne
    · have hreturned := h.earlier m' m hlt hm hp.symm hn.symm
      have hinit' := (h.stop_after m' hm' (by rw [hreturned]; decide)).1
      rw [hinit'] at hpending
      simp at hpending
    · cases hstop.symm.trans (h.earlier m m' hlt hm' hp hn)
  have hstarted := hanswered.new_executor (m := m)
    (Function.update_self s.next_instance
      { name := (s.members m).id.agent_name, process := (s.members m).process, owner := m,
        stopped := false, finished := false, cache_closed := false, joined := false } s.instances)
    (fun e he => Function.update_of_ne (Nat.ne_of_lt he) ..)
  rw [hmember] at hstarted
  have hstarted := hstarted hm rfl rfl rfl rfl rfl rfl (by simp) hstop hfresh
    (h.old_finished m hm hinit) fun m' hm' hpending => by
      have hne : m' ≠ m := by
        rintro rfl
        rw [hmember] at hpending
        simp at hpending
      rw [hothers m' hne] at hpending ⊢
      exact hlast m' hm' hpending hne
  refine hstarted.of_answer (hreply _) (fun m' heq => ?_) (fun _ heq => by cases heq)
    fun _ heq => by cases heq
  obtain rfl := ExecutorReply.started.inj heq
  refine ⟨hm, ?_⟩
  rw [hmember]
  exact ⟨rfl, rfl⟩

/-- An `InitCommandFor` finds a stopped executor, and waits for its `join`. -/
theorem Inv.init_waits (h : s.Inv) {m old : ℕ} (hm : m < s.next)
    (hinit : (s.members m).init = .sent) (hframe : ∀ p, init m ∉ s.requests p)
    (hold : old < s.next_instance) (hfinished : (s.instances old).finished = true) :
    Inv { s.modify m fun x => { x with init := .handling } with
      instances := Function.update s.instances old { s.instances old with joined := true } } := by
  have hjoined : Inv { s with
      instances := Function.update s.instances old { s.instances old with joined := true } } :=
    h.of_run { h.runs hold with joined := fun _ => hfinished } fun hstopped => hstopped
  have hmove : Moves { s with
      instances := Function.update s.instances old { s.instances old with joined := true } } m
      { s.members m with init := .handling } :=
    { hjoined.moves hm with
      init_frame := fun p hin => absurd hin (hframe p)
      started_frame := fun p hin => by cases hinit.symm.trans (h.started_frame p m hin).2.2
      stop_after := fun hsent => by cases hinit.symm.trans (h.stop_after m hm hsent).1
      shutting_after := fun hdown => by cases hinit.symm.trans (h.shutting_after m hm hdown)
      pending := fun _ => .inl hinit
      started := fun hstarted => absurd hinit hstarted.1
      returned := fun hreturned => by cases hinit.symm.trans hreturned
      registered := fun hreturned => by cases hreturned
      lost := fun _ hreturned => by cases hreturned }
  exact hjoined.of_moves (hmove.update fun _ hm' _ => hjoined.moves hm')

/-- A `StopCommandFor` is answered. -/
theorem Inv.stop_answered (h : s.Inv) {m : ℕ} (hm : m < s.next)
    (hstop : (s.members m).stop = .sent ∨ (s.members m).stop = .handling)
    (hframe : ∀ p, stop m ∉ s.requests p)
    (hstopped : ∀ e < s.next_instance, (s.instances e).owner = m → (s.instances e).stopped = true)
    (hfinished : ∀ e < s.next_instance, (s.instances e).owner = m →
      s.process_stopping (s.instances e).process = false → (s.instances e).finished = true) :
    Inv ((s.modify m fun x => { x with stop := .answered }).answer (s.members m).process
      (stopped m)) := by
  have hsent : (s.members m).stop ≠ .unsent := by
    rcases hstop with hstop | hstop <;> rw [hstop] <;> decide
  have hwaits : (s.members m).stop ≠ .returned := by
    rcases hstop with hstop | hstop <;> rw [hstop] <;> decide
  have hreply : ∀ p, stopped m ∉ s.replies p := fun p hin => by
    rcases hstop with hstop | hstop <;> cases hstop.symm.trans (h.stopped_frame p m hin).2.2
  have hanswered : Inv (s.modify m fun x => { x with stop := .answered }) :=
    h.of_move
      { h.moves hm with
        stop_frame := fun p hin => absurd hin (hframe p)
        stopped_frame := fun _ _ => rfl
        stop_after := fun _ => h.stop_after m hm hsent
        stop_returned := fun hreturned => absurd hreturned hwaits
        acknowledged := fun hup hshut => absurd (h.acknowledged m hm hup hshut) hwaits
        stop_stopped := fun _ => hstopped
        stop_finished := fun _ => hfinished
        stop_handled := fun e he howner hrunning _ hf => by
          cases hf.symm.trans (hfinished e he howner hrunning)
        stop_target := fun hs => by cases hs }
  refine hanswered.of_answer (hreply _) (fun _ heq => by cases heq) (fun _ heq => by cases heq)
    fun m' heq => ?_
  obtain rfl := ExecutorReply.stopped.inj heq
  refine ⟨hm, ?_⟩
  simp [modify]

/-- A `StopCommandFor` begins to stop the executor of its member. -/
theorem Inv.stop_begins (h : s.Inv) {m e : ℕ} (hm : m < s.next)
    (hstop : (s.members m).stop = .sent) (hframe : ∀ p, stop m ∉ s.requests p)
    (he : e < s.next_instance) (howner : (s.instances e).owner = m)
    (hrunning : (s.instances e).stopped = false) :
    Inv { s.modify m fun x => { x with stop := .handling } with
      instances := Function.update s.instances e { s.instances e with stopped := true }
      stopping := Function.update s.stopping m e
      wrong_stop := s.wrong_stop || (s.instances e).owner != m } := by
  have hsent : (s.members m).stop ≠ .unsent := by
    rw [hstop]
    decide
  have hrun : s.Runs e { s.instances e with stopped := true } :=
    { h.runs he with
      still_stopped := fun _ => rfl
      finished := fun hfinished => by cases hrunning.symm.trans (h.finished e he hfinished).1 }
  have hruns := hrun.update h
  have hmove : Moves { s with
      instances := Function.update s.instances e { s.instances e with stopped := true },
      stopping := Function.update s.stopping m e } m { s.members m with stop := .handling } :=
    { h.moves hm with
      stop_frame := fun p hin => absurd hin (hframe p)
      stopped_frame := fun p hin => by cases hstop.symm.trans (h.stopped_frame p m hin).2.2
      stop_after := fun _ => h.stop_after m hm hsent
      stop_returned := fun hreturned => by cases hstop.symm.trans hreturned
      acknowledged := fun hup hshut => by cases hstop.symm.trans (h.acknowledged m hm hup hshut)
      stop_stopped := fun _ e' he' ho => by
        have ho := (hruns e' he').owner.symm.trans ho
        obtain rfl := h.owner_inj e' he' e he (ho.trans howner.symm)
        simp only [Function.update_self]
      stop_finished := fun hs => by simp at hs
      stop_handled := fun _ _ _ _ _ _ => rfl
      stop_target := fun _ => by
        simp only [Function.update_self]
        exact ⟨he, howner⟩ }
  have hchanged : Inv { s.modify m fun x => { x with stop := .handling } with
      instances := Function.update s.instances e { s.instances e with stopped := true }
      stopping := Function.update s.stopping m e } := by
    refine h.of_steps (hmove.update fun m' hm' hne => ?_) hruns
    refine h.moves_of_runs hm' hruns (fun e' _ ho hs => .inl ?_) (Function.update_of_ne hne _ _)
    rw [Function.update_of_ne] at hs
    · exact hs
    · rintro rfl
      exact hne (ho.symm.trans howner)
  exact { hchanged with stops := by simp [h.stops, howner] }

theorem Inv.stop_all (h : s.Inv) {p : ℕ} (hstopping : s.process_stopping p = true) :
    Inv (s.stop_all p) := by
  refine h.of_runs (fun e he => ?_) fun e he hstopped => ?_
  · split
    · exact
        { h.runs he with
          still_stopped := fun _ => rfl
          finished := fun hfinished => ⟨rfl, (h.finished e he hfinished).2⟩ }
    · exact h.runs he
  · split at hstopped
    next hcurrent => exact .inr (hcurrent.1 ▸ hstopping)
    · exact .inl hstopped

/-- A `stop` ends before its executor is joined, so that it closes the cache. -/
theorem Inv.stop_ends (h : s.Inv) {e : ℕ} (he : e < s.next_instance)
    (hstopped : (s.instances e).stopped = true) (hrunning : (s.instances e).finished = false) :
    Inv { s with
      instances := Function.update s.instances e
        { s.instances e with finished := true, cache_closed := !(s.instances e).joined } } := by
  have hjoined : (s.instances e).joined = false := by
    by_contra hjoined
    cases hrunning.symm.trans (h.joined e he (Bool.not_eq_false _ ▸ hjoined))
  exact h.of_run
    { h.runs he with
      still_finished := fun _ => rfl
      finished := fun _ => ⟨hstopped, by rw [hjoined]; rfl⟩
      joined := fun _ => rfl }
    fun hs => hs

theorem Inv.register [DecidableEq ν] [DecidableEq β] (h : s.Inv) {m : ℕ} (hm : m < s.next)
    (hinit : (s.members m).init = .answered) (hframe : ∀ p, started m ∉ s.replies p)
    (hup : s.connection (s.members m).process = .up) : Inv (s.register m) := by
  have hrunning : ∀ m' < s.next, (s.members m').init = .returned →
      (s.members m').shutting_down = false →
      ¬ ((s.members m').process = (s.members m).process
        ∧ (s.members m').id = (s.members m).id) := by
    rintro m' hm' hinit' hdown ⟨hp, hid⟩
    rcases Nat.lt_trichotomy m m' with hlt | rfl | hlt
    · have hstop := h.earlier m m' hlt hm' hp.symm (congrArg _ hid.symm)
      cases hinit.symm.trans (h.stop_after m hm (by rw [hstop]; decide)).1
    · cases hinit.symm.trans hinit'
    · have hstop := h.earlier m' m hlt hm hp (congrArg _ hid)
      cases hdown.symm.trans (h.stop_after m' hm' (by rw [hstop]; decide)).2.1
  have hreturned : ∀ m', m' = m ∨ (s.members m').init = .returned →
      (Function.update s.members m { s.members m with init := .returned } m').init = .returned := by
    intro m' hm'
    rw [Function.update_apply]
    split
    · rfl
    next hne => exact hm'.resolve_left hne
  have hmove : Moves { s with
      pool := Function.update s.pool (s.members m).id (some m)
      process_pool := fun p id =>
        if p = (s.members m).process ∧ id = (s.members m).id then some m
        else s.process_pool p id } m { s.members m with init := .returned } :=
    { h.moves hm with
      init_frame := fun p hin => by cases hinit.symm.trans (h.init_frame p m hin).2.2
      started_frame := fun p hin => absurd hin (hframe p)
      stop_after := fun hsent => ⟨rfl, (h.stop_after m hm hsent).2⟩
      shutting_after := fun _ => rfl
      pending := fun hpending => by simp at hpending
      started := fun _ => by simp
      returned := fun _ => rfl
      registered := fun _ _ => if_pos ⟨rfl, rfl⟩
      lost := fun hlost => by cases hup.symm.trans hlost }
  refine h.of_changes (hmove.update fun m' hm' _ => ?_) (fun e he => h.runs he)
    (fun id m' hin => ?_) fun p id m' hin => ?_
  · exact
      { h.moves hm' with
        registered := fun hinit' hdown =>
          (if_neg (hrunning m' hm' hinit' hdown)).trans (h.registered m' hm' hinit' hdown) }
  · rw [Function.update_apply] at hin
    split at hin
    · obtain rfl := Option.some.inj hin
      exact ⟨hm, hreturned m (.inl rfl)⟩
    · obtain ⟨hm', hinit'⟩ := h.in_pool id m' hin
      exact ⟨hm', hreturned m' (.inr hinit')⟩
  · split at hin
    next heq =>
      obtain rfl := Option.some.inj hin
      exact ⟨hm, heq.1.symm, hreturned m (.inl rfl)⟩
    · obtain ⟨hm', hp, hinit'⟩ := h.in_process_pool p id m' hin
      exact ⟨hm', hp, hreturned m' (.inr hinit')⟩

theorem Inv.stop_returned (h : s.Inv) {m : ℕ} (hm : m < s.next)
    (hstop : (s.members m).stop = .answered) (hframe : ∀ p, stopped m ∉ s.replies p) :
    Inv (s.modify m fun x => { x with stop := .returned }) :=
  h.of_move
    { h.moves hm with
      stop_frame := fun p hin => by cases hstop.symm.trans (h.stop_frame p m hin).2.2
      stopped_frame := fun p hin => absurd hin (hframe p)
      stop_after := fun _ => h.stop_after m hm (by rw [hstop]; decide)
      stop_returned := fun _ => rfl
      acknowledged := fun _ _ => rfl
      stop_stopped := fun _ => (h.moves hm).stop_stopped (.inr (.inl hstop))
      stop_finished := fun _ => (h.moves hm).stop_finished (.inl hstop)
      stop_handled := fun e he howner hrunning hstopped hfinished => by
        cases hstop.symm.trans ((h.moves hm).stop_handled e he howner hrunning hstopped hfinished)
      stop_target := fun hs => by cases hs }

theorem Inv.connection_lost (h : s.Inv) {p : ℕ} :
    Inv { s with connection := Function.update s.connection p .lost } :=
  h.disconnect (by decide) (by decide) fun hc => by cases hc

theorem Inv.lose (h : s.Inv) {p : ℕ} : Inv (s.lose p) := by
  have hpool : ∀ m, s.process_pool p (s.members m).id = some m →
      m < s.next ∧ (s.members m).process = p ∧ (s.members m).init = .returned :=
    fun m hin => h.in_process_pool p _ m hin
  have hdown : Inv { s with
      connection := Function.update s.connection p .lost
      members := fun m =>
        if s.process_pool p (s.members m).id = some m then
          { s.members m with shutting_down := true, shut_down := true }
        else s.members m } := by
    refine h.connection_lost.of_moves fun m hm => ?_
    split
    next hin =>
      exact
        { h.connection_lost.moves hm with
          stop_after := fun hsent =>
            ⟨(h.stop_after m hm hsent).1, rfl, (h.stop_after m hm hsent).2.2⟩
          shutting_after := fun _ => (hpool m hin).2.2
          closing_after := fun _ => rfl
          shut_down_after := fun _ => rfl
          acknowledged := fun hup => by
            simp only [(hpool m hin).2.1, Function.update_self] at hup
            cases hup
          registered := fun _ hrunning => absurd hrunning Bool.noConfusion
          lost := fun _ _ => rfl }
    · exact h.connection_lost.moves hm
  have hkept : ∀ m, s.process_pool p ((s.lose p).members m).id = some m →
      ((s.lose p).members m).shutting_down = true := by
    intro m hin
    simp only [ExecutorSystem.lose] at hin ⊢
    by_cases hpool : s.process_pool p (s.members m).id = some m
    · rw [if_pos hpool]
    · rw [if_neg hpool] at hin
      exact absurd hin hpool
  have hfinalized := hdown.disconnect (p := p) (c := .finalized) (by decide) (by decide)
    fun _ m hm hp hinit => by
      by_contra hrun
      have hregistered := hdown.registered m hm hinit (Bool.eq_false_iff.mpr hrun)
      exact hrun (hkept m ((congrFun (congrArg _ hp.symm) _).trans hregistered))
  simp only [Function.update_idem] at hfinalized
  refine hfinalized.forget (fun id m hin => ?_) (fun q id m hin => ?_)
    fun m hm hrun hin => ?_
  · split at hin
    · cases hin
    · exact hin
  · rw [Function.update_apply] at hin
    split at hin
    · cases hin
    · exact hin
  · refine (congrFun (Function.update_of_ne (fun hp => ?_) _ _) _).trans hin
    cases hrun.symm.trans (hkept m ((congrFun (congrArg _ hp.symm) _).trans hin))

theorem Inv.stop_process (h : s.Inv) {p : ℕ} (hrunning : s.process_stopping p = false) :
    Inv ({ s with
      process_stopping := Function.update s.process_stopping p true }.send p .stopAll) := by
  have hstill : ∀ q, Function.update s.process_stopping p true q = false →
      s.process_stopping q = false := by
    intro q hq
    rw [Function.update_apply] at hq
    split at hq
    · cases hq
    · exact hq
  have hstopping : Inv { s with
      process_stopping := Function.update s.process_stopping p true } :=
    { h with
      all_frame := by
        intro q hin
        change Function.update s.process_stopping p true q = true
        rw [Function.update_apply]
        split
        · rfl
        · exact h.all_frame q hin
      stop_finished := fun e he hq => h.stop_finished e he (hstill _ hq)
      stop_handled := fun e he hq => h.stop_handled e he (hstill _ hq) }
  refine hstopping.of_send (fun hin => ?_) (fun _ heq => by cases heq)
    (fun _ heq => by cases heq) fun _ => Function.update_self ..
  cases hrunning.symm.trans (h.all_frame p hin)

/-- `get_executor` never finds an executor of a lost process. -/
theorem Inv.get (h : s.Inv) {id : ExecutorId ν β} {m : ℕ} (hpool : s.pool id = some m)
    (hrunning : (s.members m).shutting_down = false) :
    Inv { s with
      handed_out_lost := s.handed_out_lost ||
        (s.connection (s.members m).process == .finalized) } :=
  { h with
    handed := by
      obtain ⟨hm, hinit⟩ := h.in_pool id m hpool
      have hlost : s.connection (s.members m).process ≠ .finalized := fun hf => by
        rw [h.lost m hm hf hinit] at hrunning
        cases hrunning
      simp [h.handed, hlost] }

/-! ## Steps and runs -/

theorem Inv.dispatch [DecidableEq ν] (h : s.Inv) {p : ℕ} {request : ExecutorRequest}
    {rest : List ExecutorRequest} (hr : s.requests p = request :: rest) :
    Inv ({ s with requests := Function.update s.requests p rest }.handle p request) := by
  have hpop := h.pop_request hr
  have hin : request ∈ s.requests p := hr ▸ List.mem_cons_self
  have hnotin : request ∉ rest := by
    have := h.requests_nodup p
    rw [hr, List.nodup_cons] at this
    exact this.1
  cases request with
  | init m =>
      obtain ⟨hm, hp, hinit⟩ := h.init_frame p m hin
      have hframe := not_mem_pop hnotin fun q hq => (h.init_frame q m hq).2.1.symm.trans hp
      simp only [handle, init_for]
      split
      · exact hpop.start_executor hm (.inl hinit) hframe
      next old hold =>
        obtain ⟨hlt, hprocess, hname⟩ := h.named _ _ _ hold
        have hfinished := h.old_finished m hm (.inl hinit) old hlt hprocess hname
        rw [if_pos (h.finished old hlt hfinished).1]
        exact hpop.init_waits hm hinit hframe hlt hfinished
  | stop m =>
      obtain ⟨hm, hp, hstop⟩ := h.stop_frame p m hin
      have hframe := not_mem_pop hnotin fun q hq => (h.stop_frame q m hq).2.1.symm.trans hp
      -- what is still running for the member is what its name finds
      have hcurrent : ∀ e < s.next_instance, (s.instances e).owner = m →
          (s.instances e).finished = false →
          s.executors (s.members m).process (s.members m).id.agent_name = some e := by
        intro e he howner hf
        have hown := h.owned e he
        rw [howner] at hown
        rw [hown.2.1, hown.2.2]
        exact h.current e he hf
      simp only [handle, stop_for]
      split
      next hnone =>
        refine hpop.stop_answered hm (.inl hstop) hframe (fun e he howner => ?_)
          fun e he howner _ => ?_
        · cases hf : (s.instances e).finished
          · cases hnone.symm.trans (hcurrent e he howner hf)
          · exact (h.finished e he hf).1
        · cases hf : (s.instances e).finished
          · cases hnone.symm.trans (hcurrent e he howner hf)
          · rfl
      next found hfound =>
        obtain ⟨hlt, hprocess, hname⟩ := h.named _ _ _ hfound
        split
        next hstopped =>
          have hsame : ∀ e < s.next_instance, (s.instances e).owner = m →
              (s.instances e).finished = false → e = found := fun e he howner hf =>
            (Option.some.inj (hfound.symm.trans (hcurrent e he howner hf))).symm
          refine hpop.stop_answered hm (.inl hstop) hframe (fun e he howner => ?_)
            fun e he howner hrunning => ?_
          · cases hf : (s.instances e).finished
            · rw [hsame e he howner hf]
              exact hstopped
            · exact (h.finished e he hf).1
          · cases hf : (s.instances e).finished
            · have hs : (s.instances e).stopped = true := by
                rw [hsame e he howner hf]
                exact hstopped
              have := h.stop_handled e he hrunning hs hf
              rw [howner, hstop] at this
              cases this
            · rfl
        next hrunning =>
          have hrunning : (s.instances found).stopped = false := by simpa using hrunning
          have howner : (s.instances found).owner = m := by
            have hown := h.owned found hlt
            rcases Nat.lt_trichotomy (s.instances found).owner m with hlt' | heq | hlt'
            · have := h.earlier _ _ hlt' hm (hown.2.1.trans hprocess) (hown.2.2.trans hname)
              rw [h.stop_stopped found hlt (.inr (.inr this))] at hrunning
              cases hrunning
            · exact heq
            · have := h.earlier _ _ hlt' hown.1 (hown.2.1.trans hprocess).symm
                (hown.2.2.trans hname).symm
              rw [hstop] at this
              cases this
          exact hpop.stop_begins hm hstop hframe hlt howner hrunning
  | stopAll => exact hpop.stop_all (h.all_frame p hin)

theorem Inv.reply [DecidableEq ν] [DecidableEq β] (h : s.Inv) {p : ℕ} {frame : ExecutorReply}
    {rest : List ExecutorReply} (hup : s.connection p = .up) (hr : s.replies p = frame :: rest) :
    Inv ({ s with replies := Function.update s.replies p rest }.process_reply frame) := by
  have hpop := h.pop_reply hr
  have hin : frame ∈ s.replies p := hr ▸ List.mem_cons_self
  have hnotin : frame ∉ rest := by
    have := h.replies_nodup p
    rw [hr, List.nodup_cons] at this
    exact this.1
  cases frame with
  | started m =>
      obtain ⟨hm, rfl, hinit⟩ := h.started_frame p m hin
      have hframe := not_mem_pop hnotin fun q hq => (h.started_frame q m hq).2.1.symm
      exact hpop.register hm hinit hframe hup
  | startFailed m => exact absurd hin (h.failed_frame p m)
  | stopped m =>
      obtain ⟨hm, hp, hstop⟩ := h.stopped_frame p m hin
      have hframe := not_mem_pop hnotin fun q hq => (h.stopped_frame q m hq).2.1.symm.trans hp
      have hreturned := hpop.stop_returned hm hstop hframe
      refine hreturned.set_shutdown hm ?_ fun _ => ?_
      · simp only [modify, Function.update_self]
        exact (h.stop_after m hm (by rw [hstop]; decide)).2.1
      · simp only [modify, Function.update_self]

theorem Inv.stop_replies (h : s.Inv) {m : ℕ} (hm : m < s.next)
    (hstop : (s.members m).stop = .handling)
    (hfinished : (s.instances (s.stopping m)).finished = true) :
    Inv ((s.modify m fun x => { x with stop := .answered }).answer (s.members m).process
      (.stopped m)) := by
  obtain ⟨hlt, howner⟩ := h.stop_target m hm hstop
  refine h.stop_answered hm (.inr hstop) (fun p hin => ?_) (fun e he ho => ?_) fun e he ho _ => ?_
  · have := (h.stop_frame p m hin).2.2
    rw [hstop] at this
    cases this
  · exact h.stop_stopped e he (.inl (ho ▸ hstop))
  · rw [h.owner_inj e he _ hlt (ho.trans howner.symm)]
    exact hfinished

/-- Every orderly step keeps the invariant. -/
theorem Inv.step [DecidableEq ν] [DecidableEq β] (h : s.Inv) {a : ExecutorAction ν β}
    {s' : ExecutorSystem ν β} (hok : s.Orderly a) (hs : s.step a = some s') : s'.Inv := by
  cases a with
  | start_process p b =>
      simp only [ExecutorSystem.step] at hs
      split at hs
      next hp =>
        obtain rfl := Option.some.inj hs
        exact h.start_process b hp
      · cases hs
  | get id =>
      simp only [ExecutorSystem.step] at hs
      split at hs
      · cases hs
      next m hpool =>
        split at hs
        · cases hs
        next hrunning =>
          obtain rfl := Option.some.inj hs
          exact h.get hpool (by simpa using hrunning)
  | create id p =>
      simp only [ExecutorSystem.step] at hs
      split at hs
      next hguard =>
        obtain rfl := Option.some.inj hs
        exact h.create hguard.1 hguard.2.1 hok
      · cases hs
  | request_shutdown m =>
      simp only [ExecutorSystem.step] at hs
      split at hs
      next hguard =>
        obtain rfl := Option.some.inj hs
        exact h.request_shutdown hguard.1 hguard.2.1 hguard.2.2
      · cases hs
  | inner_close m =>
      simp only [ExecutorSystem.step] at hs
      split at hs
      next hguard =>
        split at hs
        next hup =>
          obtain rfl := Option.some.inj hs
          exact h.send_stop hguard.1 hguard.2 hup
        next hdown =>
          obtain rfl := Option.some.inj hs
          exact h.set_shutdown hguard.1 (h.closing_after m hguard.1 hguard.2)
            fun hup => absurd hup hdown
      · cases hs
  | dispatch p =>
      simp only [ExecutorSystem.step] at hs
      split at hs
      · cases hs
      next hr =>
        obtain rfl := Option.some.inj hs
        exact h.dispatch hr
  | init_joined m =>
      simp only [ExecutorSystem.step] at hs
      split at hs
      next hguard =>
        obtain rfl := Option.some.inj hs
        refine h.start_executor hguard.1 (.inr hguard.2) fun p hin => ?_
        have := (h.init_frame p m hin).2.2
        rw [hguard.2] at this
        cases this
      · cases hs
  | stop_ends e =>
      simp only [ExecutorSystem.step] at hs
      split at hs
      next hguard =>
        obtain rfl := Option.some.inj hs
        exact h.stop_ends hguard.1 hguard.2.1 hguard.2.2
      · cases hs
  | stop_replies m =>
      simp only [ExecutorSystem.step] at hs
      split at hs
      next hguard =>
        obtain rfl := Option.some.inj hs
        exact h.stop_replies hguard.1 hguard.2.1 hguard.2.2
      · cases hs
  | reply p =>
      simp only [ExecutorSystem.step] at hs
      split at hs
      next hup =>
        split at hs
        · cases hs
        next hr =>
          obtain rfl := Option.some.inj hs
          exact h.reply hup hr
      · cases hs
  | connection_lost p =>
      simp only [ExecutorSystem.step] at hs
      split at hs
      · obtain rfl := Option.some.inj hs
        exact h.connection_lost
      · cases hs
  | finalize p =>
      simp only [ExecutorSystem.step] at hs
      split at hs
      · obtain rfl := Option.some.inj hs
        exact h.lose
      · cases hs
  | stop_process p =>
      simp only [ExecutorSystem.step] at hs
      split at hs
      next hguard =>
        obtain rfl := Option.some.inj hs
        exact h.stop_process hguard.2
      · cases hs

theorem Inv.initial [Inhabited ν] [Inhabited β] :
    (ExecutorSystem.initial : ExecutorSystem ν β).Inv := by
  constructor <;> simp [ExecutorSystem.initial]

/-- An executor that is stopped, and replaced by one with another URI. -/
def replaced : List (ExecutorAction ℕ ℕ) :=
  [.start_process 0 0, .create ⟨0, 0, 0⟩ 0, .dispatch 0, .reply 0, .request_shutdown 0,
    .inner_close 0, .dispatch 0, .stop_ends 0, .stop_replies 0, .reply 0, .create ⟨0, 1, 0⟩ 0,
    .dispatch 0, .init_joined 1, .reply 0, .get ⟨0, 1, 0⟩]

end Inmanta.ExecutorSystem
