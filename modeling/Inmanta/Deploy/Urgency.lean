import Inmanta.Deploy.Placement
import Inmanta.Deploy.WorkRuns

/-!
# The urgency of scheduled deploys

A request keeps the place of a deploy that is scheduled, or makes it more
urgent: at least as urgent as the request, if that names its resource. `Keeps`
is what carries this through a call.

There is one exception. A resource that is deployed while a second deploy of it
waits may get new blockers. The call takes the running deploy to be the only
one, and replaces the second one by a new request at the priority of the first.
`KeepsPlaces` says that this loses nothing, and `deploys_keep_urgency` is about
runs where it holds.
-/

namespace Inmanta

/-- The priority at which a running deploy is deferred. -/
def DeployRequest.progressPriority (req : DeployRequest) (w : ScheduledWork) (r : ResourceIdStr) :
    TaskPriority :=
  (w.agentQueues.bumpInProgressPriorities (req.resources ∩ req.deploying)
    req.priority).inProgress.getD (.deploy r) req.priority

namespace DeployContext

open ScheduledWork

variable {w : ScheduledWork} {req : DeployRequest} {c c' : DeployContext} {r : ResourceIdStr}
  {named named' : List ResourceIdStr}

/-! ## While the call is under way -/

/-- The deploy of the resource is where it was or more urgent, or it was waiting
while it runs and has been deferred again. -/
def KeptAt (w : ScheduledWork) (req : DeployRequest) (c : DeployContext) (r : ResourceIdStr) :
    Prop :=
  ∀ e₀, w.entry r = some e₀ → ∃ e, c.work.entry r = some e ∧
    (e = e₀ ∨ e.1.value < e₀.1.value ∨
      (r ∈ req.running ∧ r ∈ w.waiting ∧ r ∈ c.work.waiting ∧ r ∉ c.queued ∧
        e.1.value ≤ (req.progressPriority w r).value))

/-- The context after the resources in `named` were scheduled. -/
structure Keeps (w : ScheduledWork) (req : DeployRequest) (named : List ResourceIdStr)
    (c : DeployContext) : Prop where
  placed : c.work.Placed
  idle : ∀ r ∈ c.notScheduled, ¬ c.work.IsScheduled r ∧ r ∉ c.queued
  queued : ∀ r ∈ c.queued, r ∈ req.running ∨ c.work.IsQueued r
  stale : ∀ r ∈ c.queued, r ∈ c.work.waiting → r ∈ w.waiting
  inProgress : c.work.agentQueues.inProgress = (w.agentQueues.bumpInProgressPriorities
    (req.resources ∩ req.deploying) req.priority).inProgress
  kept : ∀ r, KeptAt w req c r
  named : ∀ r ∈ named, ∀ e, c.work.entry r = some e → e.1.value ≤ req.priority.value

/-- Only the deploy of one resource changes. -/
theorem Keeps.change (h : Keeps w req named c) (r : ResourceIdStr) (hplaced : c'.work.Placed)
    (hwait : ∀ x, x ≠ r → (x ∈ c'.work.waiting ↔ x ∈ c.work.waiting))
    (hq : ∀ x, x ≠ r → (c'.work.IsQueued x ↔ c.work.IsQueued x))
    (hentry : ∀ x, x ≠ r → c'.work.entry x = c.work.entry x)
    (hqueued : ∀ x, x ≠ r → (x ∈ c'.queued ↔ x ∈ c.queued))
    (hidle : ∀ x ∈ c'.notScheduled, x ∈ c.notScheduled ∧ x ≠ r)
    (hprog : c'.work.agentQueues.inProgress = c.work.agentQueues.inProgress)
    (hnamed : ∀ x ∈ named', x ≠ r → x ∈ named)
    (hrq : r ∈ c'.queued → r ∈ req.running ∨ c'.work.IsQueued r)
    (hrs : r ∈ c'.queued → r ∈ c'.work.waiting → r ∈ w.waiting)
    (hrk : KeptAt w req c' r)
    (hrn : r ∈ named' → ∀ e, c'.work.entry r = some e → e.1.value ≤ req.priority.value) :
    Keeps w req named' c' where
  placed := hplaced
  idle x hx := by
    obtain ⟨hx, hxr⟩ := hidle x hx
    rw [IsScheduled, hwait x hxr, hq x hxr, hqueued x hxr]
    exact h.idle x hx
  queued x hx := by
    by_cases hxr : x = r
    · rw [hxr] at hx ⊢
      exact hrq hx
    · rw [hq x hxr]
      exact h.queued x ((hqueued x hxr).mp hx)
  stale x hx hw := by
    by_cases hxr : x = r
    · rw [hxr] at hx hw ⊢
      exact hrs hx hw
    · exact h.stale x ((hqueued x hxr).mp hx) ((hwait x hxr).mp hw)
  inProgress := hprog.trans h.inProgress
  kept x := by
    by_cases hxr : x = r
    · rw [hxr]
      exact hrk
    · intro e₀ he₀
      rw [hentry x hxr, hwait x hxr, hqueued x hxr]
      exact h.kept x e₀ he₀
  named x hx e he := by
    by_cases hxr : x = r
    · rw [hxr] at hx he
      exact hrn hx e he
    · exact h.named x (hnamed x hx hxr) e (hentry x hxr ▸ he)

/-- Nothing changes but what the deploys wait for. -/
theorem Keeps.congr (h : Keeps w req named c) (hplaced : c'.work.Placed)
    (hwait : ∀ x, x ∈ c'.work.waiting ↔ x ∈ c.work.waiting)
    (hq : ∀ x, c'.work.IsQueued x ↔ c.work.IsQueued x)
    (hentry : ∀ x, c'.work.entry x = c.work.entry x) (hqueued : c'.queued = c.queued)
    (hidle : c'.notScheduled = c.notScheduled)
    (hprog : c'.work.agentQueues.inProgress = c.work.agentQueues.inProgress) :
    Keeps w req named c' where
  placed := hplaced
  idle x hx := by
    rw [IsScheduled, hwait, hq, hqueued]
    exact h.idle x (hidle ▸ hx)
  queued x hx := by
    rw [hq]
    exact h.queued x (hqueued ▸ hx)
  stale x hx hw := h.stale x (hqueued ▸ hx) ((hwait x).mp hw)
  inProgress := hprog.trans h.inProgress
  kept x e₀ he₀ := by
    rw [hentry, hwait, hqueued]
    exact h.kept x e₀ he₀
  named x hx e he := h.named x hx e (hentry x ▸ he)

theorem Keeps.isScheduled (h : Keeps w req named c) (r : ResourceIdStr) :
    ∃ c' b, c.isScheduled r = (c', b) ∧ Keeps w req named c' ∧ c'.work = c.work ∧
      (∀ x, x ∈ c'.queued → x ∈ c.queued ∨ c.work.IsQueued x) ∧
      (b = false → ¬ c.work.IsScheduled r ∧ r ∉ c'.queued) ∧
      (b = true → r ∈ c.work.waiting ∨ r ∈ c'.queued) := by
  obtain ⟨owner, hp⟩ := h.placed
  unfold DeployContext.isScheduled
  by_cases h₁ : r ∈ c.work.waiting ∨ r ∈ c.queued
  · exact ⟨c, true, if_pos h₁, h, rfl, fun x hx => Or.inl hx, fun hb => Bool.noConfusion hb, fun _ => h₁⟩
  rw [if_neg h₁]
  rw [not_or] at h₁
  by_cases h₂ : r ∈ c.notScheduled
  · exact ⟨c, false, if_pos h₂, h, rfl, fun x hx => Or.inl hx, fun _ => h.idle r h₂,
      fun hb => Bool.noConfusion hb⟩
  rw [if_neg h₂]
  by_cases h₃ : Task.deploy r ∈ c.work.agentQueues
  · refine ⟨_, true, if_pos h₃, ?_, rfl, fun x hx => ?_, fun hb => Bool.noConfusion hb,
      fun _ => Or.inr List.mem_insert_self⟩
    · refine { h with
        idle := fun x hx => ⟨(h.idle x hx).1, fun hq => ?_⟩
        queued := fun x hx => ?_
        stale := fun x hx hw => ?_
        kept := fun x e₀ he₀ => ?_ }
      · obtain rfl | hq := List.mem_insert_iff.mp hq
        · exact h₂ hx
        · exact (h.idle x hx).2 hq
      · obtain rfl | hx := List.mem_insert_iff.mp hx
        · exact Or.inr h₃
        · exact h.queued x hx
      · obtain rfl | hx := List.mem_insert_iff.mp hx
        · exact absurd hw h₁.1
        · exact h.stale x hx hw
      · obtain ⟨e, he, hcase⟩ := h.kept x e₀ he₀
        refine ⟨e, he, hcase.imp_right (Or.imp_right ?_)⟩
        rintro ⟨hrun, hw, hwc, hnq, hle⟩
        refine ⟨hrun, hw, hwc, fun hq => ?_, hle⟩
        obtain rfl | hq := List.mem_insert_iff.mp hq
        · exact h₁.1 hwc
        · exact hnq hq
    · obtain rfl | hx := List.mem_insert_iff.mp hx
      · exact Or.inr h₃
      · exact Or.inl hx
  · have hnot : ¬ c.work.IsScheduled r := fun hs => hs.elim h₁.1 h₃
    refine ⟨_, false, if_neg h₃, ?_, rfl, fun x hx => Or.inl hx, fun _ => ⟨hnot, h₁.2⟩,
      fun hb => Bool.noConfusion hb⟩
    refine { h with idle := fun x hx => ?_ }
    obtain rfl | hx := List.mem_insert_iff.mp hx
    · exact ⟨hnot, h₁.2⟩
    · exact h.idle x hx

theorem Keeps.filterScheduled (h : Keeps w req named c) (rs : List ResourceIdStr) :
    ∃ c' out, c.filterScheduled rs = (c', out) ∧ Keeps w req named c' ∧ c'.work = c.work ∧
      ∀ x, x ∈ c'.queued → x ∈ c.queued ∨ c.work.IsQueued x := by
  have hinv : Keeps w req named (c.filterScheduled rs).1
      ∧ (c.filterScheduled rs).1.work = c.work
      ∧ ∀ x, x ∈ (c.filterScheduled rs).1.queued → x ∈ c.queued ∨ c.work.IsQueued x := foldl_induct
    (I := fun _ (acc : DeployContext × List ResourceIdStr) =>
      Keeps w req named acc.1 ∧ acc.1.work = c.work ∧
        ∀ x, x ∈ acc.1.queued → x ∈ c.queued ∨ c.work.IsQueued x)
    (fun pre r post acc _ hI => by
      obtain ⟨c₁, out⟩ := acc
      obtain ⟨hk, hwork, hqueued⟩ := hI
      obtain ⟨c', b, hc', hk', hwork', hqueued', -⟩ := hk.isScheduled r
      simp only [hc']
      refine ⟨hk', hwork'.trans hwork, fun x hx => ?_⟩
      obtain hx | hx := hqueued' x hx
      · exact hqueued x hx
      · exact Or.inr (hwork ▸ hx))
    ⟨h, rfl, fun x hx => Or.inl hx⟩
  exact ⟨_, _, rfl, hinv⟩

/-- The deploy of a resource waits from now on. -/
theorem Keeps.set (h : Keeps w req named c) {b : BlockedDeploy} {q : AgentQueues}
    (hwork : c'.work = ⟨q, c.work.waiting.set r b⟩) (hplaced : c'.work.Placed)
    (hmem : ∀ x, x ≠ r → (Task.deploy x ∈ q ↔ Task.deploy x ∈ c.work.agentQueues))
    (hview : ∀ x, x ≠ r → q.view.entries (.deploy x) = c.work.agentQueues.view.entries (.deploy x))
    (hprog : q.inProgress = c.work.agentQueues.inProgress)
    (hqueued : ∀ x, x ∈ c'.queued ↔ x ∈ c.queued ∧ x ≠ r)
    (hidle : ∀ x ∈ c'.notScheduled, x ∈ c.notScheduled ∧ x ≠ r)
    (hnamed : ∀ x ∈ named', x ≠ r → x ∈ named)
    (hrk : ∀ e₀, w.entry r = some e₀ → (b.priority, b.requestedAt) = e₀ ∨
      b.priority.value < e₀.1.value ∨ (r ∈ req.running ∧ r ∈ w.waiting ∧
        b.priority.value ≤ (req.progressPriority w r).value))
    (hrn : r ∈ named' → b.priority.value ≤ req.priority.value) : Keeps w req named' c' := by
  have hnq : r ∉ c'.queued := fun hq => ((hqueued r).mp hq).2 rfl
  have hr : c'.work.entry r = some (b.priority, b.requestedAt) := by
    rw [hwork]
    exact entry_of_get? ((Dict.get?_set ..).trans (if_pos rfl))
  have hwait : ∀ x, x ∈ c'.work.waiting ↔ x = r ∨ x ∈ c.work.waiting := fun x => by
    rw [hwork]
    exact Dict.mem_set
  refine h.change r hplaced (fun x hx => (hwait x).trans (or_iff_right hx)) (fun x hx => ?_)
    (fun x hx => ?_) (fun x hx => (hqueued x).trans (and_iff_left hx)) hidle ?_ hnamed
    (fun hq => absurd hq hnq) (fun hq => absurd hq hnq) (fun e₀ he₀ => ?_) fun hn e he => ?_
  · rw [hwork]
    exact hmem x hx
  · rw [hwork]
    unfold entry
    rw [Dict.get?_set, if_neg hx]
    split
    · rfl
    · exact hview x hx
  · rw [hwork]
    exact hprog
  · refine ⟨_, hr, (hrk e₀ he₀).imp_right (Or.imp_right ?_)⟩
    rintro ⟨hrun, hw, hle⟩
    exact ⟨hrun, hw, (hwait r).mpr (Or.inl rfl), hnq, hle⟩
  · obtain rfl := Option.some.inj (hr.symm.trans he)
    exact hrn hn

theorem deferTask_of_some {item : TaskQueueItem} {priority : TaskPriority}
    {newBlockers : List ResourceIdStr}
    (hd : (c.work.agentQueues.discard (.deploy r)).2 = some item) :
    c.deferTask priority r newBlockers =
      { c with
        work := ⟨(c.work.agentQueues.discard (.deploy r)).1, c.work.waiting.set r
          ⟨r, newBlockers, item.priority, item.requestedAt, item.reason⟩⟩
        queued := Inmanta.discard c.queued r } := by
  have hpair : c.work.agentQueues.discard (.deploy r) =
      ((c.work.agentQueues.discard (.deploy r)).1, some item) := Prod.ext rfl hd
  unfold DeployContext.deferTask
  rw [hpair]
  rfl

theorem deferTask_of_none {priority : TaskPriority} {newBlockers : List ResourceIdStr}
    (hd : (c.work.agentQueues.discard (.deploy r)).2 = none) :
    c.deferTask priority r newBlockers =
      { c with
        work := ⟨(c.work.agentQueues.discard (.deploy r)).1.reserveRequestedAt.1,
          c.work.waiting.set r ⟨r, newBlockers,
            (c.work.agentQueues.discard (.deploy r)).1.inProgress.getD (.deploy r) priority,
            (c.work.agentQueues.discard (.deploy r)).1.entryCount,
            some "rescheduling because a dependency was scheduled while it was deploying"⟩⟩
        queued := Inmanta.discard c.queued r } := by
  have hpair : c.work.agentQueues.discard (.deploy r) =
      ((c.work.agentQueues.discard (.deploy r)).1, none) := Prod.ext rfl hd
  unfold DeployContext.deferTask
  rw [hpair]
  rfl

/-- A task that is queued keeps its place when it is deferred. One that only runs is
a new request. -/
theorem Keeps.defer (h : Keeps w req named c)
    (hreq : ∀ x ∈ named, x ∈ req.running →
      (req.progressPriority w x).value ≤ req.priority.value)
    (hr : r ∈ c.queued) (newBlockers : List ResourceIdStr) :
    Keeps w req named (c.deferTask req.priority r newBlockers) := by
  obtain ⟨owner, hp⟩ := h.placed
  have hidle : ∀ x ∈ c.notScheduled, x ∈ c.notScheduled ∧ x ≠ r := fun x hx =>
    ⟨hx, fun he => (h.idle x hx).2 (he ▸ hr)⟩
  have hdisc := hp.discard (.deploy r)
  have hnotq : ¬ IsQueued (c.work.withQueues (c.work.agentQueues.discard (.deploy r)).1) r :=
    fun hq => (AgentQueues.mem_discard.mp hq).2 rfl
  have hview : ∀ x, x ≠ r → (c.work.agentQueues.discard (.deploy r)).1.view.entries (.deploy x) =
      c.work.agentQueues.view.entries (.deploy x) := fun x hx => by
    rw [AgentQueues.view_discard]
    exact if_neg fun he => hx (Task.deploy.inj he)
  have hprog := AgentQueues.discard_inProgress (q := c.work.agentQueues) (t := .deploy r)
  have hmem : ∀ x, x ≠ r → (Task.deploy x ∈ (c.work.agentQueues.discard (.deploy r)).1 ↔
      Task.deploy x ∈ c.work.agentQueues) := fun x hx => by
    rw [AgentQueues.mem_discard]
    exact and_iff_left fun he => hx (Task.deploy.inj he)
  cases hd : (c.work.agentQueues.discard (.deploy r)).2 with
  | some item =>
      obtain ⟨hmemr, hown⟩ := hp.linked.discard_item hd
      have hnw : r ∉ c.work.waiting := fun hw => hp.unique r hw hmemr
      have hsame : c.work.entry r = some (item.priority, item.requestedAt) := by
        rw [entry_of_not_mem hnw, ← AgentQueues.discard_rank, hd]
        rfl
      rw [deferTask_of_some hd]
      refine h.set rfl ⟨_, hdisc.setWaiting rfl hnotq hown⟩ hmem hview hprog
        (fun x => mem_discard) hidle (fun x hx _ => hx) (fun e₀ he₀ => ?_)
        fun hn => h.named r hn _ hsame
      obtain ⟨e, he, hcase⟩ := h.kept r e₀ he₀
      obtain rfl := Option.some.inj (hsame.symm.trans he)
      refine hcase.imp_right (Or.imp_right ?_)
      rintro ⟨-, -, hw, -⟩
      exact absurd hw hnw
  | none =>
      have hnm := (AgentQueues.discard_eq_none hp.linked).mp hd
      have hrun : r ∈ req.running := (h.queued r hr).resolve_right hnm
      have hprogress : (c.work.agentQueues.discard (.deploy r)).1.inProgress.getD (.deploy r)
          req.priority = req.progressPriority w r := by
        rw [hprog, h.inProgress]
        rfl
      have hplaced := (hdisc.reserve (.deploy r)).setWaiting (r := r)
        (b := ⟨r, newBlockers, req.progressPriority w r,
          (c.work.agentQueues.discard (.deploy r)).1.entryCount,
          some "rescheduling because a dependency was scheduled while it was deploying"⟩)
        rfl hnotq (if_pos rfl)
      rw [deferTask_of_none hd, hprogress]
      refine h.set rfl ⟨_, hplaced⟩ hmem
        (fun x hx => by rw [AgentQueues.view_reserve]; exact hview x hx) hprog
        (fun x => mem_discard) hidle (fun x hx _ => hx) (fun e₀ he₀ => ?_)
        fun hn => hreq r hn hrun
      -- it was waiting while it runs
      obtain ⟨e, he, -⟩ := h.kept r e₀ he₀
      have hw : r ∈ c.work.waiting := by
        have hs : c.work.IsScheduled r := by
          by_contra hn
          rw [hp.entry_eq_none.mpr hn] at he
          cases he
        exact hs.resolve_right hnm
      exact Or.inr (Or.inr ⟨hrun, h.stale r hr hw, le_refl _⟩)

/-- The entry does not change when a waiting deploy gets more or fewer blockers. -/
theorem Keeps.setBlockers (h : Keeps w req named c) {b : BlockedDeploy}
    (hb : c.work.waiting.get? r = some b) (blockedOn : List ResourceIdStr)
    (maybeRunnable : List ResourceIdStr) :
    Keeps w req named { c.setWaiting r { b with blockedOn } with maybeRunnable } := by
  obtain ⟨owner, hp⟩ := h.placed
  have hr := Dict.mem_of_get? hb
  refine h.congr ⟨owner, hp.setWaiting (hp.key r b hb) (hp.unique r hr) (hp.waiting r b hb)⟩
    (fun x => mem_setWaiting.trans ⟨fun hx => hx.elim (fun he => he ▸ hr) id, Or.inr⟩)
    (fun x => Iff.rfl) (fun x => ?_) rfl rfl rfl
  refine (entry_setWaiting c.work r _ x).trans ?_
  split
  · next hx => rw [hx, entry_of_get? hb]
  · rfl

theorem Keeps.extendBlockedOn (h : Keeps w req named c)
    (hreq : ∀ x ∈ named, x ∈ req.running →
      (req.progressPriority w x).value ≤ req.priority.value)
    {newBlockers : List ResourceIdStr}
    (hok : c.extendBlockedOn req.priority r newBlockers = .ok c') : Keeps w req named c' := by
  obtain ⟨c₁, b, hc₁, h₁, hwork, -, hfalse, htrue⟩ := h.isScheduled r
  by_cases hne : newBlockers = []
  · rw [DeployContext.extendBlockedOn, if_pos hne] at hok
    exact Except.ok.inj hok ▸ h
  cases b with
  | false =>
      simp [DeployContext.extendBlockedOn, hne, hc₁] at hok
      exact hok ▸ h₁
  | true =>
      by_cases hq : r ∈ c₁.queued
      · simp [DeployContext.extendBlockedOn, hne, hc₁, hq] at hok
        exact hok ▸ h₁.defer hreq hq newBlockers
      · simp only [DeployContext.extendBlockedOn, hne, hc₁, hq, if_false] at hok
        obtain ⟨b, hget⟩ := Dict.mem_iff.mp (hwork ▸ (htrue rfl).resolve_right hq)
        obtain ⟨b', hb, hok⟩ := bind_eq_ok.mp hok
        obtain rfl := Except.ok.inj ((Dict.item_of_get? hget).symm.trans hb)
        exact Except.ok.inj hok ▸ h₁.setBlockers hget _ _

theorem Keeps.dropRequires (h : Keeps w req named c) (dropped : List ResourceIdStr) :
    Keeps w req named (c.dropRequires r dropped) := by
  unfold DeployContext.dropRequires
  split
  · exact h
  · split
    · exact h
    · next b hb => exact h.setBlockers hb _ _

theorem mem_named_of_ne {named : List ResourceIdStr} {x : ResourceIdStr}
    (hx : x ∈ named ++ [r]) (hxr : x ≠ r) : x ∈ named :=
  (List.mem_append.mp hx).resolve_right fun he => hxr (List.mem_singleton.mp he)

/-- A resource that is urgent enough already is named as it is. -/
theorem Keeps.nameUrgent (h : Keeps w req named c)
    (hle : ∀ e, c.work.entry r = some e → e.1.value ≤ req.priority.value) :
    Keeps w req (named ++ [r]) c :=
  { h with
    named := fun x hx e he => by
      by_cases hxr : x = r
      · exact hle e (hxr ▸ he)
      · exact h.named x (mem_named_of_ne hx hxr) e he }

/-- The queue keeps the more urgent of the two priorities. -/
theorem Keeps.bumpQueued (h : Keeps w req named c) (hq : Task.deploy r ∈ c.work.agentQueues) :
    Keeps w req (named ++ [r]) (c.setQueues (c.work.agentQueues.queuePutNowait (.deploy r)
      req.priority none (some req.reason))) := by
  obtain ⟨owner, hp⟩ := h.placed
  have hnw : r ∉ c.work.waiting := fun hw => hp.unique r hw hq
  have hentry := entry_put hp hnw req.priority none (some req.reason)
  obtain ⟨e, he⟩ : ∃ e, c.work.entry r = some e := by
    refine Option.ne_none_iff_exists'.mp fun hn => ?_
    exact hp.entry_eq_none.mp hn (Or.inr hq)
  have hr := hentry r
  rw [if_pos rfl, he] at hr
  dsimp only at hr
  refine h.change r ⟨_, hp.put hnw req.priority none (some req.reason) fun v hv => by cases hv⟩
    (fun x _ => Iff.rfl) (fun x hx => ?_) (fun x hx => (hentry x).trans (if_neg hx))
    (fun x _ => Iff.rfl) (fun x hx => ⟨hx, fun hxr => ?_⟩) ?_ (fun x => mem_named_of_ne) ?_
    (fun hrq hw => absurd hw hnw) (fun e₀ he₀ => ?_) fun _ e' he' => ?_
  · refine AgentQueues.mem_queuePutNowait.trans (or_iff_right fun he => hx (Task.deploy.inj he))
  · exact (h.idle x hx).1 (hxr ▸ Or.inr hq)
  · exact AgentQueues.queuePutNowait_inProgress
  · exact fun _ => Or.inr (AgentQueues.mem_queuePutNowait.mpr (Or.inl rfl))
  · refine ⟨_, hr, ?_⟩
    obtain ⟨e₁, he₁, hcase⟩ := h.kept r e₀ he₀
    obtain rfl := Option.some.inj (he.symm.trans he₁)
    have hcase : e = e₀ ∨ e.1.value < e₀.1.value := by
      obtain hc | hc | ⟨-, -, hw, -⟩ := hcase
      · exact Or.inl hc
      · exact Or.inr hc
      · exact absurd hw hnw
    split
    · exact hcase.imp_right Or.inl
    · next hlt =>
      right; left
      obtain rfl | hc := hcase
      · exact not_le.mp hlt
      · exact lt_trans (not_le.mp hlt) hc
  · obtain rfl := Option.some.inj (hr.symm.trans he')
    split
    · assumption
    · exact le_refl _

/-- A waiting deploy that becomes more urgent gets a place of its own. -/
theorem Keeps.bumpWaiting (h : Keeps w req named c) {b : BlockedDeploy}
    (hb : c.work.waiting.get? r = some b) (hlt : req.priority.value < b.priority.value) :
    Keeps w req (named ++ [r]) ((c.setQueues c.work.agentQueues.reserveRequestedAt.1).setWaiting r
      { b with
        priority := req.priority, requestedAt := c.work.agentQueues.entryCount,
        reason := some req.reason }) := by
  obtain ⟨owner, hp⟩ := h.placed
  have hw := Dict.mem_of_get? hb
  have he := entry_of_get? hb
  have hplaced := (hp.reserve (.deploy r)).setWaiting (r := r)
    (b := { b with
      priority := req.priority, requestedAt := c.work.agentQueues.entryCount,
      reason := some req.reason }) (hp.key r b hb) (hp.unique r hw) (if_pos rfl)
  have hentry : ∀ x, entry ⟨c.work.agentQueues.reserveRequestedAt.1,
      c.work.waiting.set r { b with
        priority := req.priority, requestedAt := c.work.agentQueues.entryCount,
        reason := some req.reason }⟩ x =
      if x = r then some (req.priority, (c.work.agentQueues.entryCount : ℤ))
      else c.work.entry x := fun x => by
    have hreserve : entry (c.work.withQueues c.work.agentQueues.reserveRequestedAt.1) x =
        c.work.entry x :=
      entry_congr (congrArg TaskQueues.entries (AgentQueues.view_reserve _)) x
    refine (entry_setWaiting (c.work.withQueues
      c.work.agentQueues.reserveRequestedAt.1) r _ x).trans ?_
    rw [hreserve]
  have hr := (hentry r).trans (if_pos rfl)
  refine h.change r ⟨_, hplaced⟩ (fun x hx => mem_setWaiting.trans (or_iff_right hx))
    (fun x _ => Iff.rfl) (fun x hx => (hentry x).trans (if_neg hx)) (fun x _ => Iff.rfl)
    (fun x hx => ⟨hx, fun hxr => (h.idle x hx).1 (hxr ▸ Or.inl hw)⟩) rfl
    (fun x => mem_named_of_ne) (fun hrq => h.queued r hrq) (fun hrq _ => h.stale r hrq hw)
    (fun e₀ he₀ => ⟨_, hr, ?_⟩) fun _ e' he' => ?_
  · obtain ⟨e₁, he₁, hcase⟩ := h.kept r e₀ he₀
    obtain rfl := Option.some.inj (he.symm.trans he₁)
    obtain rfl | hc | ⟨hrun, hww, -, hnq, hle⟩ := hcase
    · exact Or.inr (Or.inl hlt)
    · exact Or.inr (Or.inl (lt_trans hlt hc))
    · exact Or.inr (Or.inr ⟨hrun, hww, mem_setWaiting.mpr (Or.inl rfl), hnq,
        le_trans (le_of_lt hlt) hle⟩)
  · obtain rfl := Option.some.inj (hr.symm.trans he')
    exact le_refl _

/-- A resource that is named is at least as urgent as the request. -/
theorem Keeps.bumpPriority (h : Keeps w req named c) (r : ResourceIdStr) :
    Keeps w req (named ++ [r]) (c.bumpPriority req r) := by
  obtain ⟨owner, hp⟩ := h.placed
  unfold DeployContext.bumpPriority
  by_cases hq : Task.deploy r ∈ c.work.agentQueues
  · rw [if_pos hq]
    exact h.bumpQueued hq
  · rw [if_neg hq]
    cases hb : c.work.waiting.get? r with
    | none =>
        refine h.nameUrgent fun e he => ?_
        have hnone := hp.entry_eq_none.mpr fun hs : c.work.IsScheduled r =>
          hs.elim (Dict.not_mem_iff.mpr hb) hq
        rw [hnone] at he
        cases he
    | some b =>
        by_cases hlt : req.priority.value < b.priority.value
        · simp only [if_pos hlt]
          exact h.bumpWaiting hb hlt
        · simp only [if_neg hlt]
          refine h.nameUrgent fun e he => ?_
          obtain rfl := Option.some.inj ((entry_of_get? hb).symm.trans he)
          exact not_lt.mp hlt

/-- A resource that is not scheduled gets a new deploy. -/
theorem Keeps.scheduleNew (h : Keeps w req named c) {requires : RequiresProvidesMapping}
    (hreq : ∀ x ∈ named ++ [r], x ∈ req.running →
      (req.progressPriority w x).value ≤ req.priority.value)
    (hidle : ¬ c.work.IsScheduled r) (hnq : r ∉ c.queued)
    (hok : c.scheduleNew requires req r = .ok c') : Keeps w req (named ++ [r]) c' := by
  obtain ⟨c₁, out, hc₁, h₁, hwork, hqueued⟩ := h.filterScheduled (requires.requires r)
  obtain ⟨owner, hp⟩ := h₁.placed
  have hidle₁ : ¬ c₁.work.IsScheduled r := hwork ▸ hidle
  have hnq₁ : r ∉ c₁.queued := fun hq => by
    obtain hq | hq := hqueued r hq
    · exact hnq hq
    · exact hidle (Or.inr hq)
  have hplaced := (hp.reserve (.deploy r)).setWaiting (r := r)
    (b := ⟨r, out, req.priority, c₁.work.agentQueues.entryCount, some req.reason⟩) rfl
    (fun hq => hidle₁ (Or.inr hq)) (if_pos rfl)
  have h₂ : Keeps w req (named ++ [r]) { (c₁.setQueues
      c₁.work.agentQueues.reserveRequestedAt.1).setWaiting r
        ⟨r, out, req.priority, c₁.work.agentQueues.entryCount, some req.reason⟩ with
      notScheduled := Inmanta.discard c₁.notScheduled r
      maybeRunnable := if out = [] then c₁.maybeRunnable.insert r else c₁.maybeRunnable } := by
    refine h₁.set rfl ⟨_, hplaced⟩ (fun x _ => Iff.rfl)
      (fun x _ => congrFun (congrArg TaskQueues.entries (AgentQueues.view_reserve _)) _) rfl
      (fun x => ⟨fun hx => ⟨hx, fun he => hnq₁ (he ▸ hx)⟩, And.left⟩)
      (fun x hx => mem_discard.mp hx)
      (fun x hx hxr => (List.mem_append.mp hx).resolve_right fun he =>
        hxr (List.mem_singleton.mp he)) (fun e₀ he₀ => ?_) fun _ => le_refl _
    obtain ⟨e, he, -⟩ := h₁.kept r e₀ he₀
    rw [hp.entry_eq_none.mpr hidle₁] at he
    cases he
  simp only [DeployContext.scheduleNew, hc₁] at hok
  exact foldlM_invariant (I := fun _ c => Keeps w req (named ++ [r]) c)
    (fun _ _ _ _ _ _ hI hok => hI.extendBlockedOn hreq hok) h₂ hok

theorem Keeps.scheduleResource (h : Keeps w req named c) {requires : RequiresProvidesMapping}
    (hreq : ∀ x ∈ named ++ [r], x ∈ req.running →
      (req.progressPriority w x).value ≤ req.priority.value)
    (hok : DeployContext.scheduleResource requires req c r = .ok c') :
    Keeps w req (named ++ [r]) c' := by
  obtain ⟨c₁, b, hc₁, h₁, hwork, -, hfalse, -⟩ := h.isScheduled r
  cases b with
  | true =>
      simp only [DeployContext.scheduleResource, hc₁] at hok
      exact Except.ok.inj hok ▸ h₁.bumpPriority r
  | false =>
      obtain ⟨hidle, hnq⟩ := hfalse rfl
      simp only [DeployContext.scheduleResource, hc₁] at hok
      exact h₁.scheduleNew hreq (hwork ▸ hidle) hnq hok

theorem Keeps.addRequires (h : Keeps w req named c)
    (hreq : ∀ x ∈ named, x ∈ req.running →
      (req.progressPriority w x).value ≤ req.priority.value)
    {added : ResourceIdStr × List ResourceIdStr}
    (hok : DeployContext.addRequires req c added = .ok c') : Keeps w req named c' := by
  obtain ⟨c₁, out, hc₁, h₁, -, -⟩ := h.filterScheduled added.2
  simp only [DeployContext.addRequires, hc₁] at hok
  exact h₁.extendBlockedOn hreq hok

end DeployContext

/-! ## The whole call -/

/-- No deploy of a running resource is deferred while another one waits that is at
least as urgent. -/
def DeployRequest.KeepsPlaces (req : DeployRequest) (w : ScheduledWork)
    (requires : RequiresProvidesMapping) : Prop :=
  ∀ r ∈ req.running, req.Deferred w requires r → ∀ b ∈ w.waiting.get? r,
    (req.progressPriority w r).value < b.priority.value

/-- What a call does to the scheduled deploys: it keeps the place of each or makes
it more urgent, and at least as urgent as the request where that names it. -/
structure Kept (w : ScheduledWork) (req : DeployRequest) (w' : ScheduledWork) : Prop where
  placed : w'.Placed
  kept : ∀ r e₀, w.entry r = some e₀ →
    ∃ e, w'.entry r = some e ∧ (e = e₀ ∨ e.1.value < e₀.1.value)
  named : ∀ r ∈ req.resources, ∀ e, w'.entry r = some e → e.1.value ≤ req.priority.value

theorem DeployRequest.mem_deploying {req : DeployRequest} {r : ResourceIdStr}
    (h : r ∈ req.running) : r ∈ req.deploying := by
  unfold DeployRequest.running at h
  split at h
  · exact (mem_removeAll.mp h).1
  · exact h

theorem DeployRequest.progressPriority_le {req : DeployRequest} {w : ScheduledWork}
    {r : ResourceIdStr} (hr : r ∈ req.resources) (hrun : r ∈ req.running)
    (hprog : .deploy r ∈ w.agentQueues.inProgress) :
    (req.progressPriority w r).value ≤ req.priority.value := by
  obtain ⟨p, hp⟩ := Dict.mem_iff.mp hprog
  have hget := AgentQueues.bump_get? w.agentQueues (req.resources ∩ req.deploying) req.priority r
  rw [hp, Option.map_some] at hget
  rw [DeployRequest.progressPriority, Dict.getD_of_get? hget]
  split
  · exact le_refl _
  · next hn => exact not_lt.mp fun hlt => hn ⟨List.mem_inter_iff.mpr ⟨hr, DeployRequest.mem_deploying hrun⟩, hlt⟩

namespace DeployContext

variable {w w' : ScheduledWork} {req : DeployRequest} {requires : RequiresProvidesMapping}
  {c c' : DeployContext}

theorem keeps_init (hw : w.Placed) (req : DeployRequest) : Keeps w req []
    ⟨w.withQueues (w.agentQueues.bumpInProgressPriorities (req.resources ∩ req.deploying)
      req.priority), [], req.running, []⟩ := by
  obtain ⟨owner, hp⟩ := hw
  obtain ⟨hitems, hheaps, hcount⟩ := AgentQueues.bump_eq w.agentQueues
    (req.resources ∩ req.deploying) req.priority
  have htasks := AgentQueues.bumpInProgressPriorities_tasksByResource w.agentQueues
    (req.resources ∩ req.deploying) req.priority
  have hentry := ScheduledWork.entry_congr (w := w)
    (congrArg TaskQueues.entries (AgentQueues.view_congr hitems hheaps htasks))
  exact {
    placed := ⟨owner, ⟨hp.key, fun x hx hq => hp.unique x hx
      (AgentQueues.mem_bumpInProgressPriorities.mp hq)⟩,
      hp.linked.congr hitems hheaps htasks hcount, hp.waiting⟩
    idle := fun x hx => absurd hx List.not_mem_nil
    queued := fun x hx => Or.inl hx
    stale := fun x _ hw => hw
    inProgress := rfl
    kept := fun x e₀ he₀ => ⟨e₀, (hentry x).trans he₀, Or.inl rfl⟩
    named := fun x hx => absurd hx List.not_mem_nil }

theorem Keeps.dropAll {named : List ResourceIdStr} (h : Keeps w req named c) :
    Keeps w req named
      (req.droppedRequires.items.foldl (fun c e => c.dropRequires e.1 e.2) c) :=
  foldl_induct (I := fun _ c => Keeps w req named c)
    (fun _ e _ _ _ hI => hI.dropRequires e.2) h

theorem Keeps.scheduleAll (h : Keeps w req [] c)
    (hreq : ∀ x ∈ req.resources, x ∈ req.running →
      (req.progressPriority w x).value ≤ req.priority.value)
    (hok : req.resources.foldlM (DeployContext.scheduleResource requires req) c = .ok c') :
    Keeps w req req.resources c' :=
  foldlM_invariant (I := fun pre c => Keeps w req pre c)
    (fun pre r post s s' hl hI hs => hI.scheduleResource (fun x hx => hreq x (by
      rw [hl]
      obtain hx | hx := List.mem_append.mp hx
      · exact List.mem_append_left _ hx
      · exact List.mem_append_right _ (List.mem_singleton.mp hx ▸ List.mem_cons_self ..))) hs) h hok

theorem Keeps.addAll {named : List ResourceIdStr} (h : Keeps w req named c)
    (hreq : ∀ x ∈ named, x ∈ req.running →
      (req.progressPriority w x).value ≤ req.priority.value)
    (hok : req.addedRequires.items.foldlM (DeployContext.addRequires req) c = .ok c') :
    Keeps w req named c' :=
  foldlM_invariant (I := fun _ c => Keeps w req named c)
    (fun _ _ _ _ _ _ hI hs => hI.addRequires hreq hs) h hok

/-- Queueing what has become ready changes no entry. -/
theorem queueReady_entry (hp : c.work.Placed)
    (hok : c.maybeRunnable.foldlM (fun (w : ScheduledWork) r => do
      let b ← w.waiting.item r
      return w.queueIfReady b) c.work = Except.ok (ε := PyError) w') :
    w'.Placed ∧ ∀ x, w'.entry x = c.work.entry x := by
  refine foldlM_invariant (I := fun _ (w' : ScheduledWork) =>
    w'.Placed ∧ ∀ x, w'.entry x = c.work.entry x) (fun pre r post s s' _ hI hs => ?_)
    ⟨hp, fun _ => rfl⟩ hok
  obtain ⟨b, hb, hs⟩ := bind_eq_ok.mp hs
  obtain rfl := Except.ok.inj hs
  obtain ⟨hplaced, hentry⟩ := hI.1.queueIfReady (Dict.get?_of_item hb)
  exact ⟨hplaced, fun x => (hentry x).trans (hI.2 x)⟩

/-- Only a running deploy with new blockers was deferred. -/
theorem Keeps.kept_of_tracks {named : List ResourceIdStr} {N : ResourceIdStr → Prop}
    {Old : ResourceIdStr → ResourceIdStr → Prop} (h : Keeps w req named c)
    (ht : Tracks w req.running Old N (fun x d => d ∈ req.newBlockers w requires x) c)
    (hgood : req.KeepsPlaces w requires) (r : ResourceIdStr) (e₀ : TaskPriority × ℤ)
    (he₀ : w.entry r = some e₀) :
    ∃ e, c.work.entry r = some e ∧ (e = e₀ ∨ e.1.value < e₀.1.value) := by
  obtain ⟨e, he, heq | hlt | ⟨hrun, hw, -, hnq, hle⟩⟩ := h.kept r e₀ he₀
  · exact ⟨e, he, Or.inl heq⟩
  · exact ⟨e, he, Or.inr hlt⟩
  · obtain ⟨b, hb⟩ := Dict.mem_iff.mp hw
    obtain rfl := Option.some.inj ((ScheduledWork.entry_of_get? hb).symm.trans he₀)
    have hdef : req.Deferred w requires r := by
      refine ⟨hrun, fun hnil => hnq (ht.runningQueued r hrun ?_)⟩
      rintro ⟨d, hd⟩
      rw [hnil] at hd
      exact List.not_mem_nil hd
    exact ⟨e, he, Or.inr (lt_of_le_of_lt hle (hgood r hrun hdef b hb))⟩

end DeployContext

open DeployContext in
theorem deployWithContext_kept {w w' : ScheduledWork} (hw : w.Placed)
    {requires : RequiresProvidesMapping} {req : DeployRequest}
    (hprog : ∀ r ∈ req.deploying, .deploy r ∈ w.agentQueues.inProgress)
    (hgood : req.KeepsPlaces w requires) (hok : w.deployWithContext requires req = .ok w') :
    Kept w req w' := by
  obtain ⟨owner, hp⟩ := hw
  have hreq : ∀ x ∈ req.resources, x ∈ req.running →
      (req.progressPriority w x).value ≤ req.priority.value := fun x hx hrun =>
    DeployRequest.progressPriority_le hx hrun (hprog x (DeployRequest.mem_deploying hrun))
  have ht₁ := (tracks_init hp.toValid req.running
    (w.agentQueues.bumpInProgressPriorities (req.resources ∩ req.deploying) req.priority)
    (fun t => AgentQueues.mem_bumpInProgressPriorities)
    fun t => AgentQueues.mem_inProgress_bump).dropAll req
  have hk₁ := (keeps_init ⟨owner, hp⟩ req).dropAll
  obtain ⟨c₂, hc₂, ht₂⟩ := ht₁.scheduleAll requires hp.toValid
  obtain ⟨c₃, hc₃, ht₃⟩ := ht₂.addAll hp.toValid
  rw [ScheduledWork.deployWithContext] at hok
  obtain ⟨d₂, hd₂, hok⟩ := bind_eq_ok.mp hok
  obtain rfl := Except.ok.inj (hd₂.symm.trans hc₂)
  obtain ⟨d₃, hd₃, hok⟩ := bind_eq_ok.mp hok
  obtain rfl := Except.ok.inj (hd₃.symm.trans hc₃)
  have hk₃ := (hk₁.scheduleAll hreq hc₂).addAll hreq hc₃
  obtain ⟨hplaced, hentry⟩ := queueReady_entry hk₃.placed hok
  refine ⟨hplaced, fun r e₀ he₀ => ?_, fun r hr e he => ?_⟩
  · rw [hentry]
    exact hk₃.kept_of_tracks ht₃ hgood r e₀ he₀
  · exact hk₃.named r hr e ((hentry r).symm.trans he)

/-! ## The other operations -/

namespace ScheduledWork

variable {w w' : ScheduledWork} {r : ResourceIdStr}

theorem finishedDeploy_entry (h : w.Placed) (requires : RequiresProvidesMapping)
    (r : ResourceIdStr) : (w.finishedDeploy requires r).Placed ∧
      ∀ x, (w.finishedDeploy requires r).entry x = w.entry x := by
  unfold ScheduledWork.finishedDeploy
  split
  · exact ⟨h, fun _ => rfl⟩
  · refine foldl_induct (I := fun _ (w' : ScheduledWork) =>
      w'.Placed ∧ ∀ x, w'.entry x = w.entry x) (fun pre d post w' _ hI => ?_) ⟨h, fun _ => rfl⟩
    unfold ScheduledWork.unblock
    split
    · exact hI
    · next b hb =>
      obtain ⟨⟨owner, hp⟩, hentry⟩ := hI
      have hset := hp.setWaiting (b := { b with blockedOn := discard b.blockedOn r })
        (hp.key d b hb) (hp.unique d (Dict.mem_of_get? hb)) (hp.waiting d b hb)
      obtain ⟨hplaced, hready⟩ := Placed.queueIfReady ⟨owner, hset⟩
        ((Dict.get?_set ..).trans (if_pos rfl))
      refine ⟨hplaced, fun x => (hready x).trans ((entry_setWaiting w' d _ x).trans ?_)⟩
      split
      · next hx => rw [hx, ← hentry, entry_of_get? hb]
      · exact hentry x

/-- The deploy of the resource is dropped, and all others stay. -/
theorem deleteResource_entry (h : w.Placed) (r : ResourceIdStr) :
    (w.deleteResource r).Placed ∧
      ∀ x e, (w.deleteResource r).entry x = some e → w.entry x = some e := by
  obtain ⟨owner, hp⟩ := h
  have hloop := foldl_induct
    (f := fun (q : AgentQueues) (t : Task) => if t.deleteWithResource then (q.discard t).1 else q)
    (I := fun _ q => q.Linked owner ∧ (∀ x, Task.deploy x ∈ q → Task.deploy x ∈ w.agentQueues) ∧
      ∀ t e, q.view.entries t = some e → w.agentQueues.view.entries t = some e)
    (l := w.agentQueues.getTasksForResource r) (s := w.agentQueues)
    (fun pre t post q _ hI => by
      obtain ⟨hl, hmem, hview⟩ := hI
      split
      · refine ⟨hl.discard t, fun x hx => hmem x (AgentQueues.mem_discard.mp hx).1,
          fun t' e he => hview t' e ?_⟩
        rw [AgentQueues.view_discard] at he
        simp only [TaskQueues.leave] at he
        split at he
        · cases he
        · exact he
      · exact ⟨hl, hmem, hview⟩)
    ⟨hp.linked, fun x hx => hx, fun t e he => he⟩
  obtain ⟨hl, hmem, hview⟩ := hloop
  have hwait : ∀ x b, (w.waiting.del r).get? x = some b → w.waiting.get? x = some b :=
    fun x b hb => by
      rw [Dict.get?_del] at hb
      split at hb
      · cases hb
      · exact hb
  refine ⟨⟨owner, hp.toValid.deleteResource, hl, fun x b hb => hp.waiting x b (hwait x b hb)⟩,
    fun x e he => ?_⟩
  unfold entry at he ⊢
  split at he
  · next b hb => rw [hwait x b hb]; exact he
  · next hb =>
    have hx := hview (.deploy x) e he
    cases hw : w.waiting.get? x with
    | none => exact hx
    | some b =>
        have hq : w.IsQueued x := by
          by_contra hn
          rw [(AgentQueues.view_entries_eq_none hp.linked).mpr hn] at hx
          cases hx
        exact absurd hq (hp.unique x (Dict.mem_of_get? hw))

theorem queueGet_entry (h : w.Placed) {agent : String} {q : AgentQueues} {item : TaskQueueItem}
    (hget : w.agentQueues.queueGet agent = some (q, item)) :
    (w.withQueues q).Placed ∧ ∀ x e, (w.withQueues q).entry x = some e → w.entry x = some e := by
  obtain ⟨owner, hp⟩ := h
  obtain ⟨ref, dropped, rest, hc⟩ := AgentQueues.queueGet_consumes hp.linked hget
  have hmem := (AgentQueues.queueGet_spec hget).1
  refine ⟨⟨owner, ⟨hp.key, fun x hx hq => hp.unique x hx ((hmem _).mp hq).1⟩,
    hp.linked.consumes hc, hp.waiting⟩, fun x e he => ?_⟩
  by_cases hx : x ∈ w.waiting
  · obtain ⟨b, hb⟩ := Dict.mem_iff.mp hx
    rw [entry_of_get? (w := w.withQueues q) hb] at he
    rw [entry_of_get? hb]
    exact he
  · rw [entry_withQueues hx, hc.view_entries] at he
    rw [entry_of_not_mem hx]
    simp only [TaskQueues.leave] at he
    split at he
    · cases he
    · exact he

theorem taskDone_entry (h : w.Placed) {t : Task} {q : AgentQueues}
    (hdone : w.agentQueues.taskDone t = .ok q) :
    (w.withQueues q).Placed ∧ ∀ x, (w.withQueues q).entry x = w.entry x := by
  obtain ⟨owner, hp⟩ := h
  rw [AgentQueues.taskDone] at hdone
  obtain ⟨-, -, hok⟩ := bind_eq_ok.mp hdone
  obtain rfl := Except.ok.inj hok
  exact ⟨⟨owner, ⟨hp.key, hp.unique⟩, hp.linked.congr rfl rfl rfl rfl, hp.waiting⟩,
    entry_congr rfl⟩

/-- A deploy of the resource that a heap will yield. -/
def LiveDeploy (w : ScheduledWork) (r : ResourceIdStr) (agent : String) (ref : ℕ) : Prop :=
  ref ∈ w.agentQueues.heap agent ∧ ∃ item : TaskQueueItem,
    w.agentQueues.items[ref]? = some item ∧ item.deleted = false ∧ item.task = .deploy r

/-- There is one scheduled deploy of a resource at most. -/
structure Unique (w : ScheduledWork) : Prop where
  waiting : ∀ r ∈ w.waiting, ∀ agent ref, ¬ w.LiveDeploy r agent ref
  queued : ∀ r agent ref agent' ref', w.LiveDeploy r agent ref → w.LiveDeploy r agent' ref' →
    agent = agent' ∧ ref = ref'
  nodup : ∀ agent, (w.agentQueues.heap agent).Nodup

theorem Placed.unique (h : w.Placed) : w.Unique := by
  obtain ⟨owner, hp⟩ := h
  have hlive : ∀ r agent ref, w.LiveDeploy r agent ref →
      r.agentName = agent ∧ (w.agentQueues.tasksOf r).get? (.deploy r) = some ref := by
    rintro r agent ref ⟨href, item, hi, hdel, htask⟩
    obtain ⟨-, hagent, hfiled⟩ := hp.linked.live agent ref href item hi hdel
      (htask ▸ deploy_ne_shutdownTask r)
    rw [htask] at hagent hfiled
    exact ⟨hagent, hfiled⟩
  refine ⟨fun r hr agent ref hl => ?_, fun r agent ref agent' ref' hl hl' => ?_, hp.linked.nodup⟩
  · exact hp.toValid.unique r hr (Dict.mem_of_get? (hlive r agent ref hl).2)
  · obtain ⟨ha, hf⟩ := hlive r agent ref hl
    obtain ⟨ha', hf'⟩ := hlive r agent' ref' hl'
    exact ⟨ha.symm.trans ha', Option.some.inj (hf.symm.trans hf')⟩

end ScheduledWork

/-! ## Runs -/

/-- A run of the scheduled work, with the scheduled deploys before the last step
and the priorities of the requests that named a resource since its deploy was
scheduled. -/
structure UrgencyRun where
  state : WorkState
  previous : ResourceIdStr → Option (TaskPriority × ℤ)
  requests : ResourceIdStr → List TaskPriority

namespace UrgencyRun

def init (requires : RequiresProvidesMapping) : UrgencyRun :=
  ⟨.init requires, fun _ => none, fun _ => []⟩

/-- The priority of the request, if it names the resource. -/
def named (r : ResourceIdStr) : WorkAction → List TaskPriority
  | .deployWithContext req _ => if r ∈ req.resources then [req.priority] else []
  | _ => []

def step (s : UrgencyRun) (a : WorkAction) : Option UrgencyRun := do
  let state ← s.state.step a
  return {
    state
    previous := s.state.work.entry
    requests := fun r =>
      if state.work.entry r = none then [] else named r a ++ s.requests r }

/-- What is said to be deploying is in progress. -/
def Permitted (s : UrgencyRun) : WorkAction → Prop
  | .deployWithContext req _ =>
      ∀ r ∈ req.deploying, .deploy r ∈ s.state.work.agentQueues.inProgress
  | _ => True

def KeepsPlaces (s : UrgencyRun) : WorkAction → Prop
  | .deployWithContext req requires => req.KeepsPlaces s.state.work requires
  | _ => True

instance (req : DeployRequest) (w : ScheduledWork) (requires : RequiresProvidesMapping) :
    Decidable (req.KeepsPlaces w requires) :=
  inferInstanceAs (Decidable (∀ r ∈ req.running, req.Deferred w requires r →
    ∀ b ∈ w.waiting.get? r, (req.progressPriority w r).value < b.priority.value))

instance (s : UrgencyRun) : DecidablePred s.Permitted
  | .deployWithContext _ _ => inferInstanceAs (Decidable (∀ _ ∈ _, _))
  | .finishedDeploy _ | .deleteResource _ | .queueGet _ | .taskDone _ =>
      inferInstanceAs (Decidable True)

instance (s : UrgencyRun) : DecidablePred s.KeepsPlaces
  | .deployWithContext req requires =>
      inferInstanceAs (Decidable (req.KeepsPlaces s.state.work requires))
  | .finishedDeploy _ | .deleteResource _ | .queueGet _ | .taskDone _ =>
      inferInstanceAs (Decidable True)

/-- Scheduled deploys are unique and have not lost urgency. -/
structure Urgent (s : UrgencyRun) : Prop where
  unique : s.state.work.Unique
  requested : ∀ r e, s.state.work.entry r = some e → ∀ p ∈ s.requests r, e.1.value ≤ p.value
  place : ∀ r e₀ e, s.previous r = some e₀ → s.state.work.entry r = some e →
    e.2 ≠ e₀.2 → e.1.value < e₀.1.value

/-- The invariant of runs. -/
structure Valid (s : UrgencyRun) : Prop extends s.Urgent where
  placed : s.state.work.Placed
  fresh : ∀ r, s.state.work.entry r = none → s.requests r = []

theorem valid_init (requires : RequiresProvidesMapping) : (init requires).Valid where
  unique := ScheduledWork.Placed.unique ⟨_, ScheduledWork.placedBy_empty⟩
  requested _ _ _ _ hp := absurd hp List.not_mem_nil
  place _ _ _ h := by cases h
  placed := ⟨_, ScheduledWork.placedBy_empty⟩
  fresh _ _ := rfl

variable {s s' : UrgencyRun} {a : WorkAction}

/-- What a step does to the scheduled deploys. -/
theorem step_kept (hp : s.state.work.Placed) (hok : s.Permitted a) (hgood : s.KeepsPlaces a)
    {state : WorkState} (hs : s.state.step a = some state) :
    state.work.Placed ∧
      (∀ r e₀ e, s.state.work.entry r = some e₀ → state.work.entry r = some e →
        e = e₀ ∨ e.1.value < e₀.1.value) ∧
      ∀ r e, state.work.entry r = some e → (∀ p ∈ named r a, e.1.value ≤ p.value) := by
  have hsame : ∀ {w' : ScheduledWork}, (∀ r e, w'.entry r = some e → s.state.work.entry r = some e) →
      ∀ r e₀ e, s.state.work.entry r = some e₀ → w'.entry r = some e →
        e = e₀ ∨ e.1.value < e₀.1.value := fun hsub r e₀ e he₀ he =>
    Or.inl (Option.some.inj ((hsub r e he).symm.trans he₀))
  cases a with
  | deployWithContext req requires =>
      rw [WorkState.step] at hs
      cases hw : s.state.work.deployWithContext requires req with
      | error err =>
          rw [hw] at hs
          cases hs
      | ok w' =>
          rw [hw] at hs
          obtain rfl := Option.some.inj hs
          have hkept := deployWithContext_kept hp hok hgood hw
          refine ⟨hkept.placed, fun r e₀ e he₀ he => ?_, fun r e he p hp => ?_⟩
          · obtain ⟨e', he', hcase⟩ := hkept.kept r e₀ he₀
            obtain rfl := Option.some.inj (he'.symm.trans he)
            exact hcase
          · have hp' : p ∈ if r ∈ req.resources then [req.priority] else [] := hp
            by_cases hr : r ∈ req.resources
            · rw [if_pos hr] at hp'
              rw [List.mem_singleton.mp hp']
              exact hkept.named r hr e he
            · rw [if_neg hr] at hp'
              cases hp'
  | finishedDeploy r =>
      obtain rfl := Option.some.inj hs
      obtain ⟨hplaced, hentry⟩ := ScheduledWork.finishedDeploy_entry hp s.state.requires r
      exact ⟨hplaced, hsame fun x e he => (hentry x).symm.trans he, fun _ _ _ p hp => by cases hp⟩
  | deleteResource r =>
      obtain rfl := Option.some.inj hs
      obtain ⟨hplaced, hentry⟩ := ScheduledWork.deleteResource_entry hp r
      exact ⟨hplaced, hsame hentry, fun _ _ _ p hp => by cases hp⟩
  | queueGet agent =>
      simp only [WorkState.step, Option.bind_eq_bind, Option.bind_eq_some_iff] at hs
      obtain ⟨⟨q, item⟩, hget, hs⟩ := hs
      obtain rfl := Option.some.inj hs
      obtain ⟨hplaced, hentry⟩ := ScheduledWork.queueGet_entry hp hget
      exact ⟨hplaced, hsame hentry, fun _ _ _ p hp => by cases hp⟩
  | taskDone t =>
      rw [WorkState.step] at hs
      cases hd : s.state.work.agentQueues.taskDone t with
      | error err =>
          rw [hd] at hs
          cases hs
      | ok q =>
          rw [hd] at hs
          obtain rfl := Option.some.inj hs
          obtain ⟨hplaced, hentry⟩ := ScheduledWork.taskDone_entry hp hd
          exact ⟨hplaced, hsame fun x e he => (hentry x).symm.trans he,
            fun _ _ _ p hp => by cases hp⟩

theorem Valid.step (h : s.Valid) (hok : s.Permitted a) (hgood : s.KeepsPlaces a)
    (hs : s.step a = some s') : s'.Valid := by
  simp only [UrgencyRun.step, Option.bind_eq_bind, Option.bind_eq_some_iff] at hs
  obtain ⟨state, hstate, hs⟩ := hs
  obtain rfl := Option.some.inj hs
  obtain ⟨hplaced, hkept, hnamed⟩ := step_kept h.placed hok hgood hstate
  refine ⟨⟨hplaced.unique, fun r e he p hp => ?_, fun r e₀ e he₀ he hne => ?_⟩, hplaced,
    fun r hr => if_pos hr⟩
  · dsimp only at hp he
    rw [if_neg (by rw [he]; exact Option.some_ne_none e)] at hp
    obtain hp | hp := List.mem_append.mp hp
    · exact hnamed r e he p hp
    · cases he₀ : s.state.work.entry r with
      | none =>
          rw [h.fresh r he₀] at hp
          cases hp
      | some e₀ =>
          have hle := h.requested r e₀ he₀ p hp
          obtain rfl | hlt := hkept r e₀ e he₀ he
          · exact hle
          · exact le_trans (le_of_lt hlt) hle
  · obtain rfl | hlt := hkept r e₀ e he₀ he
    · exact absurd rfl hne
    · exact hlt

end UrgencyRun

/-- A user asks for `r` while it waits, and then `y` is scheduled. -/
def urgentThenDeferred : List WorkAction :=
  WorkState.deferOnce ++ [.deployWithContext ⟨[nullResource "r"], "a test", .userDeploy, [], .empty,
    .empty, false⟩ WorkState.forked, WorkState.redeploy ["y"] ["r"]]

/-- **Scheduled deploys do not lose urgency.** In a run that only defers a running
deploy where no other one waits that is at least as urgent, each resource has one
scheduled deploy at most. As long as it is scheduled it is at least as urgent as
every request that named the resource, and its requested-at value only changes
when it becomes more urgent. -/
theorem deploys_keep_urgency {requires : RequiresProvidesMapping} {actions : List WorkAction}
    (hok : Along UrgencyRun.step UrgencyRun.Permitted (.init requires) actions)
    (hgood : Along UrgencyRun.step UrgencyRun.KeepsPlaces (.init requires) actions) :
    Always UrgencyRun.step UrgencyRun.Urgent (.init requires) actions :=
  (always_of_step (fun _ _ _ h hok hs => h.step hok.1 hok.2 hs)
    (UrgencyRun.valid_init requires) (hok.and hgood)).imp fun _ h => h.toUrgent

theorem deploys_keep_urgency_forked :
    Always UrgencyRun.step UrgencyRun.Urgent (.init WorkState.forked) WorkState.deferOnce :=
  deploys_keep_urgency (by decide) (by decide)

/-- A second deferral replaces the deploy that waits: it has a new requested-at value
at the same priority, and it may be less urgent than what was asked for. -/
theorem deferTwice_loses_place :
    (Along UrgencyRun.step UrgencyRun.Permitted (.init WorkState.forked) WorkState.deferTwice ∧
      ∃ s, run UrgencyRun.step (.init WorkState.forked) WorkState.deferTwice = some s ∧
        ¬ s.Urgent) ∧
    Along UrgencyRun.step UrgencyRun.Permitted (.init WorkState.forked) urgentThenDeferred ∧
      ∃ s, run UrgencyRun.step (.init WorkState.forked) urgentThenDeferred = some s ∧
        ¬ s.Urgent := by
  refine ⟨⟨by decide, ?_⟩, by decide, ?_⟩
  · obtain ⟨s, hrun, hprev, hentry⟩ := exists_run_of_any UrgencyRun.step
      (.init WorkState.forked) WorkState.deferTwice (p := fun s =>
        s.previous (nullResource "r") = some (.newVersionDeploy, 2) ∧
          s.state.work.entry (nullResource "r") = some (.newVersionDeploy, 4)) (by decide)
    exact ⟨s, hrun, fun hu => absurd (hu.place _ _ _ hprev hentry (by decide)) (by decide)⟩
  · obtain ⟨s, hrun, hentry, hreq⟩ := exists_run_of_any UrgencyRun.step
      (.init WorkState.forked) urgentThenDeferred (p := fun s =>
        s.state.work.entry (nullResource "r") = some (.newVersionDeploy, 5) ∧
          TaskPriority.userDeploy ∈ s.requests (nullResource "r")) (by decide)
    exact ⟨s, hrun, fun hu => absurd (hu.requested _ _ hentry _ hreq) (by decide)⟩

end Inmanta
