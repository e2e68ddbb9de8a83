import Inmanta.Deploy.ScheduledWork

/-!
# What `deploy_with_context` does

The operation moves tasks around with three local caches; its effect can
be told without them. Relative to the scheduled work at the start,

- a resource is *busy* if it is scheduled, or running as far as the
  request is concerned, or scheduled by this very call (`Busy`);
- the *new blockers* of a resource are its requirements this call
  schedules, and the busy ones among its added requires
  (`newBlockers`);
- a resource with new blockers waits for them, in addition to what it
  was waiting for unless it counts as running (`Blocker`).

`Tracks` is the invariant that ties the local state to this picture while
the call is under way, and `Deployed` is the result
(`deployWithContext_ok`).
-/

namespace Inmanta

namespace ScheduledWork

/-- The deploy task of the resource is in an agent queue. -/
def IsQueued (w : ScheduledWork) (r : ResourceIdStr) : Prop :=
  Task.deploy r ∈ w.agentQueues

instance (w : ScheduledWork) (r : ResourceIdStr) : Decidable (w.IsQueued r) :=
  inferInstanceAs (Decidable (Task.deploy r ∈ w.agentQueues))

/-- Waiting or queued. -/
def IsScheduled (w : ScheduledWork) (r : ResourceIdStr) : Prop :=
  r ∈ w.waiting ∨ w.IsQueued r

instance (w : ScheduledWork) (r : ResourceIdStr) : Decidable (w.IsScheduled r) :=
  inferInstanceAs (Decidable (_ ∨ _))

/-- What the resource is waiting for. -/
def blockedOn (w : ScheduledWork) (r : ResourceIdStr) : List ResourceIdStr :=
  ((w.waiting.get? r).map (·.blockedOn)).getD []

/-- A waiting deploy is stored under its resource, and each task exists at most
once. -/
structure Valid (w : ScheduledWork) : Prop where
  key : ∀ r b, w.waiting.get? r = some b → b.resource = r
  unique : ∀ r ∈ w.waiting, ¬ w.IsQueued r

theorem Valid.empty : ScheduledWork.empty.Valid where
  key := fun r b h => by simp [ScheduledWork.empty] at h
  unique := fun r h => absurd h (Dict.not_mem_empty r)

theorem blockedOn_of_get? {w : ScheduledWork} {r : ResourceIdStr} {b : BlockedDeploy}
    (h : w.waiting.get? r = some b) : w.blockedOn r = b.blockedOn := by
  simp [blockedOn, h]

theorem blockedOn_of_not_mem {w : ScheduledWork} {r : ResourceIdStr} (h : r ∉ w.waiting) :
    w.blockedOn r = [] := by
  simp [blockedOn, Dict.not_mem_iff.mp h]

end ScheduledWork

namespace DeployRequest

/-- The resources that count as running: those that are deploying, except for
the ones that are deployed by force. -/
def running (req : DeployRequest) : List ResourceIdStr :=
  if req.forceDeploy then req.deploying.removeAll req.resources else req.deploying

def added (req : DeployRequest) (r : ResourceIdStr) : List ResourceIdStr :=
  req.addedRequires.getD r []

def dropped (req : DeployRequest) (r : ResourceIdStr) : List ResourceIdStr :=
  req.droppedRequires.getD r []

/-- A resource for which the call schedules a task. -/
def Fresh (req : DeployRequest) (w : ScheduledWork) (r : ResourceIdStr) : Prop :=
  r ∈ req.resources ∧ ¬ w.IsScheduled r ∧ r ∉ req.running

instance (req : DeployRequest) (w : ScheduledWork) (r : ResourceIdStr) :
    Decidable (req.Fresh w r) :=
  inferInstanceAs (Decidable (_ ∧ _ ∧ _))

/-- Scheduled or running once the call has scheduled its tasks. -/
def Busy (req : DeployRequest) (w : ScheduledWork) (r : ResourceIdStr) : Prop :=
  w.IsScheduled r ∨ r ∈ req.running ∨ req.Fresh w r

instance (req : DeployRequest) (w : ScheduledWork) (r : ResourceIdStr) :
    Decidable (req.Busy w r) :=
  inferInstanceAs (Decidable (_ ∨ _ ∨ _))

/-- The blockers the call adds to a busy resource. -/
def newBlockers (req : DeployRequest) (w : ScheduledWork) (requires : RequiresProvidesMapping)
    (r : ResourceIdStr) : List ResourceIdStr :=
  if req.Busy w r then
    (requires.requires r).filter (fun d => req.Fresh w d ∨ (req.Fresh w r ∧ req.Busy w d))
      ++ (req.added r).filter (fun d => req.Busy w d)
  else []

/-- A running resource that has to be deployed again after its new blockers. -/
def Deferred (req : DeployRequest) (w : ScheduledWork) (requires : RequiresProvidesMapping)
    (r : ResourceIdStr) : Prop :=
  r ∈ req.running ∧ req.newBlockers w requires r ≠ []

instance (req : DeployRequest) (w : ScheduledWork) (requires : RequiresProvidesMapping)
    (r : ResourceIdStr) : Decidable (req.Deferred w requires r) :=
  inferInstanceAs (Decidable (_ ∧ _))

/-- What a waiting resource waits for after the call. -/
def Blocker (req : DeployRequest) (w : ScheduledWork) (requires : RequiresProvidesMapping)
    (r d : ResourceIdStr) : Prop :=
  d ∈ req.newBlockers w requires r
    ∨ (d ∈ w.blockedOn r ∧ d ∉ req.dropped r ∧ ¬ req.Deferred w requires r)

end DeployRequest

/-- What `deployWithContext` does to the scheduled work `w`. -/
structure Deployed (w : ScheduledWork) (requires : RequiresProvidesMapping)
    (req : DeployRequest) (w' : ScheduledWork) : Prop where
  valid : w'.Valid
  scheduled : ∀ r, w'.IsScheduled r ↔
    w.IsScheduled r ∨ req.Fresh w r ∨ req.Deferred w requires r
  waiting : ∀ r ∈ w'.waiting, r ∈ w.waiting ∨ req.Fresh w r
    ∨ req.newBlockers w requires r ≠ []
  blocked : ∀ r ∈ w'.waiting, ∀ d, d ∈ w'.blockedOn r ↔ req.Blocker w requires r d
  nonempty : ∀ r ∈ w'.waiting, w'.blockedOn r = [] → r ∈ w.waiting ∧ w.blockedOn r = []
  queued : ∀ r, w'.IsQueued r →
    (w.IsQueued r ∧ req.newBlockers w requires r = [])
      ∨ ((r ∈ w.waiting ∨ req.Fresh w r) ∧ ∀ d, ¬ req.Blocker w requires r d)
  inProgress : ∀ t, t ∈ w'.agentQueues.inProgress ↔ t ∈ w.agentQueues.inProgress

namespace DeployContext

/-! ## The invariant -/

/-- The context `c` after some tasks, `N`, have been scheduled and some blockers,
`B`, been added. `Old r d`: `r` was waiting for `d`, which is not dropped. -/
structure Tracks (w : ScheduledWork) (running : List ResourceIdStr)
    (Old : ResourceIdStr → ResourceIdStr → Prop) (N : ResourceIdStr → Prop)
    (B : ResourceIdStr → ResourceIdStr → Prop) (c : DeployContext) : Prop where
  key : ∀ r b, c.work.waiting.get? r = some b → b.resource = r
  waiting : ∀ r, r ∈ c.work.waiting ↔
    r ∈ w.waiting ∨ N r ∨ ((r ∈ running ∨ w.IsQueued r) ∧ ∃ d, B r d)
  blocked : ∀ r ∈ c.work.waiting, ∀ d, d ∈ c.work.blockedOn r ↔
    B r d ∨ (Old r d ∧ ¬ (r ∈ running ∧ ∃ d', B r d'))
  isQueued : ∀ r, c.work.IsQueued r ↔ w.IsQueued r ∧ ¬ ∃ d, B r d
  queued : ∀ r ∈ c.queued, (r ∈ running ∨ w.IsQueued r) ∧ ¬ ∃ d, B r d
  runningQueued : ∀ r ∈ running, (¬ ∃ d, B r d) → r ∈ c.queued
  notScheduled : ∀ r ∈ c.notScheduled, ¬ (w.IsScheduled r ∨ r ∈ running ∨ N r)
  fresh : ∀ r, N r → ¬ (w.IsScheduled r ∨ r ∈ running)
  busy : ∀ r d, B r d → w.IsScheduled r ∨ r ∈ running ∨ N r
  maybeWaiting : ∀ r ∈ c.maybeRunnable, r ∈ c.work.waiting
  maybe : ∀ r ∈ c.work.waiting, c.work.blockedOn r = [] →
    r ∈ c.maybeRunnable ∨ (r ∈ w.waiting ∧ w.blockedOn r = [])
  maybeNodup : c.maybeRunnable.Nodup
  inProgress : ∀ t, t ∈ c.work.agentQueues.inProgress ↔ t ∈ w.agentQueues.inProgress

variable {w : ScheduledWork} {running : List ResourceIdStr}
  {Old : ResourceIdStr → ResourceIdStr → Prop} {N : ResourceIdStr → Prop}
  {B : ResourceIdStr → ResourceIdStr → Prop} {c : DeployContext} {r : ResourceIdStr}

theorem Tracks.congr (h : Tracks w running Old N B c) {N' : ResourceIdStr → Prop}
    {B' : ResourceIdStr → ResourceIdStr → Prop} (hN : ∀ r, N r ↔ N' r)
    (hB : ∀ r d, B r d ↔ B' r d) : Tracks w running Old N' B' c := by
  obtain rfl : N = N' := funext fun r => propext (hN r)
  obtain rfl : B = B' := funext fun r => funext fun d => propext (hB r d)
  exact h

/-- The cached check tells whether a resource is busy so far. -/
theorem Tracks.isScheduled (h : Tracks w running Old N B c) (r : ResourceIdStr) :
    ∃ c' b, c.isScheduled r = (c', b) ∧ Tracks w running Old N B c'
      ∧ (b = true ↔ w.IsScheduled r ∨ r ∈ running ∨ N r)
      ∧ (b = true → r ∈ c'.work.waiting ∨ r ∈ c'.queued)
      ∧ c'.work = c.work ∧ c'.maybeRunnable = c.maybeRunnable := by
  unfold DeployContext.isScheduled
  by_cases h₁ : r ∈ c.work.waiting ∨ r ∈ c.queued
  · refine ⟨c, true, if_pos h₁, h, iff_of_true rfl ?_, fun _ => h₁, rfl, rfl⟩
    rcases h₁ with h₁ | h₁
    · rcases (h.waiting r).mp h₁ with hw | hn | ⟨hr | hq, -⟩
      · exact Or.inl (Or.inl hw)
      · exact Or.inr (Or.inr hn)
      · exact Or.inr (Or.inl hr)
      · exact Or.inl (Or.inr hq)
    · rcases (h.queued r h₁).1 with hr | hq
      · exact Or.inr (Or.inl hr)
      · exact Or.inl (Or.inr hq)
  rw [if_neg h₁]
  rw [not_or] at h₁
  by_cases h₂ : r ∈ c.notScheduled
  · exact ⟨c, false, if_pos h₂, h, iff_of_false (by simp) (h.notScheduled r h₂), by simp, rfl, rfl⟩
  rw [if_neg h₂]
  by_cases h₃ : Task.deploy r ∈ c.work.agentQueues
  · obtain ⟨hq, hnb⟩ := (h.isQueued r).mp h₃
    refine ⟨_, true, if_pos h₃, ?_, iff_of_true rfl (Or.inl (Or.inr hq)),
      fun _ => Or.inr List.mem_insert_self, rfl, rfl⟩
    refine { h with queued := fun x hx => ?_, runningQueued := fun x hx hb => ?_ }
    · rcases List.mem_insert_iff.mp hx with rfl | hx
      · exact ⟨Or.inr hq, hnb⟩
      · exact h.queued x hx
    · exact List.mem_insert_of_mem (h.runningQueued x hx hb)
  · have hnone : ¬ (w.IsScheduled r ∨ r ∈ running ∨ N r) := by
      have hnw : r ∉ w.waiting := fun hw => h₁.1 ((h.waiting r).mpr (Or.inl hw))
      have hnb : r ∈ running ∨ w.IsQueued r → ¬ ∃ d, B r d :=
        fun hrq hb => h₁.1 ((h.waiting r).mpr (Or.inr (Or.inr ⟨hrq, hb⟩)))
      rintro ((hw | hq) | hr | hn)
      · exact hnw hw
      · exact h₃ ((h.isQueued r).mpr ⟨hq, hnb (Or.inr hq)⟩)
      · exact h₁.2 (h.runningQueued r hr (hnb (Or.inl hr)))
      · exact h₁.1 ((h.waiting r).mpr (Or.inr (Or.inl hn)))
    refine ⟨_, false, if_neg h₃, ?_, iff_of_false (by simp) hnone, by simp, rfl, rfl⟩
    refine { h with notScheduled := fun x hx => ?_ }
    rcases List.mem_insert_iff.mp hx with rfl | hx
    · exact hnone
    · exact h.notScheduled x hx

theorem Tracks.filterScheduled (h : Tracks w running Old N B c) (rs : List ResourceIdStr) :
    ∃ c' out, c.filterScheduled rs = (c', out) ∧ Tracks w running Old N B c'
      ∧ (∀ d, d ∈ out ↔ d ∈ rs ∧ (w.IsScheduled d ∨ d ∈ running ∨ N d))
      ∧ c'.work = c.work ∧ c'.maybeRunnable = c.maybeRunnable := by
  have hinv : Tracks w running Old N B (c.filterScheduled rs).1
      ∧ (∀ d, d ∈ (c.filterScheduled rs).2 ↔ d ∈ rs ∧ (w.IsScheduled d ∨ d ∈ running ∨ N d))
      ∧ (c.filterScheduled rs).1.work = c.work
      ∧ (c.filterScheduled rs).1.maybeRunnable = c.maybeRunnable := foldl_induct
    (I := fun pre (acc : DeployContext × List ResourceIdStr) =>
      Tracks w running Old N B acc.1
        ∧ (∀ d, d ∈ acc.2 ↔ d ∈ pre ∧ (w.IsScheduled d ∨ d ∈ running ∨ N d))
        ∧ acc.1.work = c.work ∧ acc.1.maybeRunnable = c.maybeRunnable)
    (fun pre r post acc _ hI => by
      obtain ⟨c₁, out⟩ := acc
      obtain ⟨htr, hout, hwork, hmaybe⟩ := hI
      obtain ⟨c', b, hc', htr', hb, -, hwork', hmaybe'⟩ := htr.isScheduled r
      simp only [hc']
      refine ⟨htr', fun d => ?_, hwork'.trans hwork, hmaybe'.trans hmaybe⟩
      cases b with
      | true =>
          have hr := hb.mp rfl
          simp only [if_true, List.mem_insert_iff, hout, List.mem_append, List.mem_singleton]
          constructor
          · rintro (rfl | ⟨hd, hbusy⟩)
            · exact ⟨Or.inr rfl, hr⟩
            · exact ⟨Or.inl hd, hbusy⟩
          · rintro ⟨hd | rfl, hbusy⟩
            · exact Or.inr ⟨hd, hbusy⟩
            · exact Or.inl rfl
      | false =>
          have hr := fun hx => Bool.false_ne_true (hb.mpr hx)
          simp only [Bool.false_eq_true, if_false, hout, List.mem_append, List.mem_singleton]
          constructor
          · exact fun hd => ⟨Or.inl hd.1, hd.2⟩
          · rintro ⟨hd | rfl, hbusy⟩
            · exact ⟨hd, hbusy⟩
            · exact absurd hbusy hr)
    ⟨h, by simp, rfl, rfl⟩
  exact ⟨_, _, rfl, hinv⟩

/-! ## Adding blockers -/

@[simp] theorem setWaiting_get? (c : DeployContext) (r : ResourceIdStr) (b : BlockedDeploy)
    (x : ResourceIdStr) : (c.setWaiting r b).work.waiting.get? x =
      if x = r then some b else c.work.waiting.get? x :=
  Dict.get?_set ..

@[simp] theorem mem_setWaiting {c : DeployContext} {r : ResourceIdStr} {b : BlockedDeploy}
    {x : ResourceIdStr} : x ∈ (c.setWaiting r b).work.waiting ↔ x = r ∨ x ∈ c.work.waiting :=
  Dict.mem_set

theorem blockedOn_of_waiting {w w' : ScheduledWork} {r : ResourceIdStr} {b : BlockedDeploy}
    (h : ∀ x, w'.waiting.get? x = if x = r then some b else w.waiting.get? x)
    (x : ResourceIdStr) : w'.blockedOn x = if x = r then b.blockedOn else w.blockedOn x := by
  unfold ScheduledWork.blockedOn
  rw [h]
  split <;> rfl

theorem mem_of_waiting {w w' : ScheduledWork} {r : ResourceIdStr} {b : BlockedDeploy}
    (h : ∀ x, w'.waiting.get? x = if x = r then some b else w.waiting.get? x)
    (x : ResourceIdStr) : x ∈ w'.waiting ↔ x = r ∨ x ∈ w.waiting := by
  rw [Dict.mem_iff, Dict.mem_iff, h]
  by_cases hx : x = r <;> simp [hx]

theorem key_of_waiting {w w' : ScheduledWork} {r : ResourceIdStr} {b : BlockedDeploy}
    (h : ∀ x, w'.waiting.get? x = if x = r then some b else w.waiting.get? x)
    (hkey : b.resource = r) (hw : ∀ x b', w.waiting.get? x = some b' → b'.resource = x) :
    ∀ x b', w'.waiting.get? x = some b' → b'.resource = x := by
  intro x b' hb'
  rw [h] at hb'
  split at hb'
  · next hx =>
    obtain rfl := Option.some.inj hb'
    exact hkey.trans hx.symm
  · exact hw x b' hb'

theorem blockedOn_setWaiting (c : DeployContext) (r : ResourceIdStr) (b : BlockedDeploy)
    (x : ResourceIdStr) : (c.setWaiting r b).work.blockedOn x =
      if x = r then b.blockedOn else c.work.blockedOn x :=
  blockedOn_of_waiting (setWaiting_get? c r b) x

/-- More blockers of one resource. -/
theorem exists_blocker_or {l : List ResourceIdStr} (hne : l ≠ []) (x : ResourceIdStr) :
    (∃ d, B x d ∨ (x = r ∧ d ∈ l)) ↔ (∃ d, B x d) ∨ x = r := by
  obtain ⟨e, he⟩ := List.exists_mem_of_ne_nil _ hne
  constructor
  · rintro ⟨d, hd | ⟨rfl, -⟩⟩
    · exact Or.inl ⟨d, hd⟩
    · exact Or.inr rfl
  · rintro (⟨d, hd⟩ | rfl)
    · exact ⟨d, Or.inl hd⟩
    · exact ⟨e, Or.inr ⟨rfl, he⟩⟩

/-- A task that is known waits, and what is blocked among those that are busy grows by it. -/
theorem waits_or_iff {known waits new busy blocked : Prop} (h : known → waits ∨ new ∨ busy) :
    known ∨ waits ∨ new ∨ busy ∧ blocked ↔ waits ∨ new ∨ busy ∧ (blocked ∨ known) := by
  constructor
  · rintro (hk | hw | hn | ⟨hx, hb⟩)
    · exact (h hk).imp_right (Or.imp_right fun hx => ⟨hx, Or.inr hk⟩)
    · exact Or.inl hw
    · exact Or.inr (Or.inl hn)
    · exact Or.inr (Or.inr ⟨hx, Or.inl hb⟩)
  · rintro (hw | hn | ⟨hx, hb | hk⟩)
    · exact Or.inr (Or.inl hw)
    · exact Or.inr (Or.inr (Or.inl hn))
    · exact Or.inr (Or.inr (Or.inr ⟨hx, hb⟩))
    · exact Or.inl hk

/-- What deferring a task does to the collections. -/
theorem deferTask_spec (c : DeployContext) (priority : TaskPriority) (r : ResourceIdStr)
    (newBlockers : List ResourceIdStr) :
    ∃ b : BlockedDeploy, b.resource = r ∧ b.blockedOn = newBlockers
      ∧ (∀ x, (c.deferTask priority r newBlockers).work.waiting.get? x =
          if x = r then some b else c.work.waiting.get? x)
      ∧ (∀ t, t ∈ (c.deferTask priority r newBlockers).work.agentQueues ↔
          t ∈ c.work.agentQueues ∧ t ≠ .deploy r)
      ∧ (c.deferTask priority r newBlockers).queued = Inmanta.discard c.queued r
      ∧ (c.deferTask priority r newBlockers).notScheduled = c.notScheduled
      ∧ (c.deferTask priority r newBlockers).maybeRunnable = c.maybeRunnable
      ∧ (c.deferTask priority r newBlockers).work.agentQueues.inProgress
          = c.work.agentQueues.inProgress := by
  unfold deferTask
  have hmem : ∀ t, t ∈ (c.work.agentQueues.discard (.deploy r)).1 ↔
      t ∈ c.work.agentQueues ∧ t ≠ .deploy r := fun t => AgentQueues.mem_discard
  have hprog := AgentQueues.discard_inProgress (q := c.work.agentQueues) (t := .deploy r)
  generalize c.work.agentQueues.discard (.deploy r) = p at hmem hprog ⊢
  obtain ⟨queues, discarded⟩ := p
  cases discarded with
  | some item =>
      exact ⟨⟨r, newBlockers, item.priority, item.requestedAt, item.reason⟩, rfl, rfl,
        fun x => setWaiting_get? _ _ _ _, hmem, rfl, rfl, rfl, hprog⟩
  | none =>
      exact ⟨_, rfl, rfl, fun x => setWaiting_get? _ _ _ _, hmem, rfl, rfl, rfl, hprog⟩

/-- A task that is queued or running is deferred. -/
theorem Tracks.defer (h : Tracks w running Old N B c) (hv : w.Valid)
    (hold : ∀ x d, Old x d → x ∈ w.waiting) (priority : TaskPriority)
    {newBlockers : List ResourceIdStr} (hne : newBlockers ≠ []) (hr : r ∈ c.queued) :
    Tracks w running Old N (fun x d => B x d ∨ (x = r ∧ d ∈ newBlockers))
      (c.deferTask priority r newBlockers) := by
  obtain ⟨hrq, hnb⟩ := h.queued r hr
  obtain ⟨b, hkey, hbl, hget, hmem, hq, hns, hmr, hprog⟩ := c.deferTask_spec priority r newBlockers
  have hex := @exists_blocker_or B r _ hne
  refine
    { key := key_of_waiting hget hkey h.key, waiting := ?_, blocked := ?_, isQueued := ?_
      queued := ?_, runningQueued := ?_, notScheduled := hns ▸ h.notScheduled
      fresh := h.fresh, busy := ?_
      maybeWaiting := ?_, maybe := ?_, maybeNodup := hmr ▸ h.maybeNodup
      inProgress := fun t => by rw [hprog]; exact h.inProgress t }
  · intro x
    rw [mem_of_waiting hget, h.waiting, hex]
    exact waits_or_iff fun hx => Or.inr (Or.inr (hx ▸ hrq))
  · intro x hx d
    rw [blockedOn_of_waiting hget, hex]
    by_cases hxr : x = r
    · subst hxr
      -- nothing is left of what it was waiting for: it runs, or it was not waiting at all
      have hnold : ¬ (Old x d ∧ x ∉ running) := by
        rintro ⟨ho, hnr⟩
        exact hv.unique x (hold x d ho) (hrq.resolve_left hnr)
      have hnbd : ¬ B x d := fun hb => hnb ⟨d, hb⟩
      simp only [if_true, hbl, hnbd, true_and, false_or, or_true, and_true]
      tauto
    · have hxc : x ∈ c.work.waiting := ((mem_of_waiting hget x).mp hx).resolve_left hxr
      rw [if_neg hxr, h.blocked x hxc]
      simp only [hxr, false_and, or_false]
  · intro x
    refine (hmem (.deploy x)).trans ?_
    rw [hex, not_or]
    have := h.isQueued x
    simp only [ScheduledWork.IsQueued] at this ⊢
    rw [this, ne_eq, Task.deploy.injEq, and_assoc]
  · intro x hx
    rw [hq, mem_discard] at hx
    rw [hex, not_or]
    exact ⟨(h.queued x hx.1).1, (h.queued x hx.1).2, hx.2⟩
  · intro x hx hb
    rw [hex, not_or] at hb
    rw [hq, mem_discard]
    exact ⟨h.runningQueued x hx hb.1, hb.2⟩
  · rintro x d (hb | ⟨rfl, -⟩)
    · exact h.busy x d hb
    · rcases hrq with hr | hq
      · exact Or.inr (Or.inl hr)
      · exact Or.inl (Or.inr hq)
  · intro x hx
    exact (mem_of_waiting hget x).mpr (Or.inr (h.maybeWaiting x (hmr ▸ hx)))
  · intro x hx hempty
    rw [blockedOn_of_waiting hget] at hempty
    split at hempty
    · exact absurd (hbl.symm.trans hempty) hne
    · rename_i hxr
      rw [hmr]
      exact h.maybe x (((mem_of_waiting hget x).mp hx).resolve_left hxr) hempty

/-- A task that is waiting gets more blockers. -/
theorem Tracks.extend (h : Tracks w running Old N B c) (hv : w.Valid) {b : BlockedDeploy}
    (hb : c.work.waiting.get? r = some b) {newBlockers : List ResourceIdStr}
    (hne : newBlockers ≠ []) (hr : r ∉ c.queued) :
    Tracks w running Old N (fun x d => B x d ∨ (x = r ∧ d ∈ newBlockers))
      { c.setWaiting r { b with blockedOn := b.blockedOn ∪ newBlockers } with
        maybeRunnable := Inmanta.discard c.maybeRunnable r } := by
  have hrw : r ∈ c.work.waiting := Dict.mem_of_get? hb
  have hold := ScheduledWork.blockedOn_of_get? hb
  obtain ⟨e, he⟩ := List.exists_mem_of_ne_nil _ hne
  -- a waiting task that runs or was queued has been deferred before
  have hbefore : r ∈ running ∨ w.IsQueued r → ∃ d, B r d := by
    intro hrq
    by_contra hnb
    rcases hrq with hrr | hq
    · exact hr (h.runningQueued r hrr hnb)
    · rcases (h.waiting r).mp hrw with hw | hn | ⟨-, hb⟩
      · exact hv.unique r hw hq
      · exact h.fresh r hn (Or.inl (Or.inr hq))
      · exact hnb hb
  have hex := @exists_blocker_or B r _ hne
  refine
    { key := key_of_waiting (setWaiting_get? c r _) (h.key r b hb) h.key, waiting := ?_
      blocked := ?_, isQueued := ?_, queued := ?_, runningQueued := ?_
      notScheduled := h.notScheduled, fresh := h.fresh, busy := ?_
      maybeWaiting := ?_, maybe := ?_, maybeNodup := h.maybeNodup.filter _
      inProgress := h.inProgress }
  · intro x
    rw [mem_setWaiting, h.waiting, hex]
    refine waits_or_iff fun hx => ?_
    subst hx
    exact ((h.waiting x).mp hrw).imp_right (Or.imp_right And.left)
  · intro x hx d
    rw [blockedOn_setWaiting, hex]
    by_cases hxr : x = r
    · subst hxr
      rw [if_pos rfl, List.mem_union_iff, ← hold, h.blocked x hrw]
      simp only [true_and, or_true, and_true]
      have hsame : x ∈ running → ∃ d, B x d := fun hx => hbefore (Or.inl hx)
      tauto
    · rw [if_neg hxr, h.blocked x ((mem_setWaiting.mp hx).resolve_left hxr)]
      simp only [hxr, false_and, or_false]
  · intro x
    rw [hex, not_or]
    refine (h.isQueued x).trans ⟨fun hx => ⟨hx.1, hx.2, ?_⟩, fun hx => ⟨hx.1, hx.2.1⟩⟩
    rintro rfl
    exact hx.2 (hbefore (Or.inr hx.1))
  · intro x hx
    rw [hex, not_or]
    refine ⟨(h.queued x hx).1, (h.queued x hx).2, ?_⟩
    rintro rfl
    exact hr hx
  · intro x hx hnb
    rw [hex, not_or] at hnb
    exact h.runningQueued x hx hnb.1
  · rintro x d (hb | ⟨rfl, -⟩)
    · exact h.busy x d hb
    · rcases (h.waiting x).mp hrw with hw | hn | ⟨hx | hx, -⟩
      · exact Or.inl (Or.inl hw)
      · exact Or.inr (Or.inr hn)
      · exact Or.inr (Or.inl hx)
      · exact Or.inl (Or.inr hx)
  · intro x hx
    exact mem_setWaiting.mpr (Or.inr (h.maybeWaiting x (mem_discard.mp hx).1))
  · intro x hx hempty
    rw [blockedOn_setWaiting] at hempty
    split at hempty
    · have hmem : e ∈ b.blockedOn ∪ newBlockers := List.mem_union_iff.mpr (Or.inr he)
      rw [show b.blockedOn ∪ newBlockers = [] from hempty] at hmem
      exact absurd hmem List.not_mem_nil
    · rename_i hxr
      refine (h.maybe x ((mem_setWaiting.mp hx).resolve_left hxr) hempty).imp_left fun hm => ?_
      exact mem_discard.mpr ⟨hm, hxr⟩

/-- `extend_blocked_on` never fails, and adds the blockers to a busy resource. -/
theorem Tracks.extendBlockedOn (h : Tracks w running Old N B c) (hv : w.Valid)
    (hold : ∀ x d, Old x d → x ∈ w.waiting) (priority : TaskPriority) (r : ResourceIdStr)
    (newBlockers : List ResourceIdStr) :
    ∃ c', c.extendBlockedOn priority r newBlockers = .ok c'
      ∧ Tracks w running Old N
          (fun x d => B x d ∨ (x = r ∧ d ∈ newBlockers
            ∧ (w.IsScheduled r ∨ r ∈ running ∨ N r))) c' := by
  by_cases hne : newBlockers = []
  · refine ⟨c, ?_, h.congr (fun _ => Iff.rfl) fun x d => by simp [hne]⟩
    rw [DeployContext.extendBlockedOn, if_pos hne]
    rfl
  obtain ⟨c₁, b, hc₁, h₁, hb, hwhere, -, -⟩ := h.isScheduled r
  cases b with
  | false =>
      have hidle := fun hx => Bool.false_ne_true (hb.mpr hx)
      refine ⟨c₁, ?_, h₁.congr (fun _ => Iff.rfl) fun x d => ⟨Or.inl, ?_⟩⟩
      · simp [DeployContext.extendBlockedOn, hne, hc₁]
      · rintro (hbd | ⟨rfl, -, hbusy⟩)
        · exact hbd
        · exact absurd hbusy hidle
  | true =>
      have hbusy := hb.mp rfl
      have hcongr : ∀ x d, B x d ∨ (x = r ∧ d ∈ newBlockers) ↔
          B x d ∨ (x = r ∧ d ∈ newBlockers ∧ (w.IsScheduled r ∨ r ∈ running ∨ N r)) :=
        fun x d => by simp only [hbusy, and_true]
      by_cases hq : r ∈ c₁.queued
      · refine ⟨c₁.deferTask priority r newBlockers, ?_,
          (h₁.defer hv hold priority hne hq).congr (fun _ => Iff.rfl) hcongr⟩
        simp [DeployContext.extendBlockedOn, hne, hc₁, hq]
      · obtain ⟨b, hget⟩ := Dict.mem_iff.mp ((hwhere rfl).resolve_right hq)
        refine ⟨_, ?_, (h₁.extend hv hget hne hq).congr (fun _ => Iff.rfl) hcongr⟩
        simp [DeployContext.extendBlockedOn, hne, hc₁, hq, Dict.item_of_get? hget]
        rfl

/-! ## Scheduling tasks -/

/-- Raising a priority moves nothing. -/
theorem Tracks.bumpPriority (h : Tracks w running Old N B c) (req : DeployRequest)
    (r : ResourceIdStr) : Tracks w running Old N B (c.bumpPriority req r) := by
  unfold DeployContext.bumpPriority
  split
  · rename_i hq
    have hmem : ∀ x, Task.deploy x ∈ c.work.agentQueues.queuePutNowait (.deploy r) req.priority
        none (some req.reason) ↔ Task.deploy x ∈ c.work.agentQueues := by
      intro x
      rw [AgentQueues.mem_queuePutNowait]
      exact ⟨fun hx => hx.elim (fun e => e ▸ hq) id, Or.inr⟩
    exact { h with
      isQueued := fun x => (hmem x).trans (h.isQueued x)
      inProgress := fun t => by
        show t ∈ (c.work.agentQueues.queuePutNowait (.deploy r) req.priority none
          (some req.reason)).inProgress ↔ _
        rw [AgentQueues.queuePutNowait_inProgress]
        exact h.inProgress t }
  · split
    · exact h
    · rename_i b hb
      split
      · -- the entry keeps its key and its blockers
        have hget : ∀ x, x ∈ (c.work.waiting.set r { b with
            priority := req.priority, requestedAt := (c.work.agentQueues.entryCount : ℤ),
            reason := some req.reason }) ↔ x ∈ c.work.waiting := by
          intro x
          rw [Dict.mem_set]
          exact ⟨fun hx => hx.elim (fun e => e ▸ Dict.mem_of_get? hb) id, Or.inr⟩
        have hbl : ∀ x, (DeployContext.setWaiting (c.setQueues
            c.work.agentQueues.reserveRequestedAt.1) r { b with
              priority := req.priority, requestedAt := (c.work.agentQueues.entryCount : ℤ),
              reason := some req.reason }).work.blockedOn x = c.work.blockedOn x := by
          intro x
          rw [blockedOn_setWaiting]
          split
          · rename_i hx
            rw [hx, ScheduledWork.blockedOn_of_get? hb]
          · rfl
        exact { h with
          key := key_of_waiting (setWaiting_get? c r _) (h.key r b hb) h.key
          waiting := fun x => (hget x).trans (h.waiting x)
          blocked := fun x hx d => by
            have := h.blocked x ((hget x).mp hx) d
            rwa [← hbl x] at this
          maybeWaiting := fun x hx => (hget x).mpr (h.maybeWaiting x hx)
          maybe := fun x hx hempty =>
            h.maybe x ((hget x).mp hx) ((hbl x).symm.trans hempty) }
      · exact h

/-- A new entry, with its busy requirements for blockers. -/
theorem Tracks.create (h : Tracks w running Old N B c)
    (hold : ∀ x d, Old x d → x ∈ w.waiting) {b : BlockedDeploy} {q : AgentQueues}
    (hq : ∀ t, t ∈ q ↔ t ∈ c.work.agentQueues)
    (hprog : q.inProgress = c.work.agentQueues.inProgress)
    (hkey : b.resource = r) (hidle : ¬ (w.IsScheduled r ∨ r ∈ running ∨ N r)) :
    Tracks w running Old (fun x => N x ∨ x = r)
      (fun x d => B x d ∨ (x = r ∧ d ∈ b.blockedOn))
      { (c.setQueues q).setWaiting r b with
        notScheduled := Inmanta.discard c.notScheduled r
        maybeRunnable := if b.blockedOn = [] then c.maybeRunnable.insert r
          else c.maybeRunnable } := by
  have hnb : ∀ d, ¬ B r d := fun d hd => hidle (h.busy r d hd)
  have hex : ∀ x, x ≠ r → ((∃ d, B x d ∨ (x = r ∧ d ∈ b.blockedOn)) ↔ ∃ d, B x d) :=
    fun x hx => by simp [hx]
  have hrw : r ∉ c.work.waiting := by
    intro hr
    rcases (h.waiting r).mp hr with hw | hn | ⟨-, d, hd⟩
    · exact hidle (Or.inl (Or.inl hw))
    · exact hidle (Or.inr (Or.inr hn))
    · exact hnb d hd
  have hne : ∀ x, x ∈ running ∨ w.IsQueued x → x ≠ r := by
    rintro x (hx | hx) rfl
    · exact hidle (Or.inr (Or.inl hx))
    · exact hidle (Or.inl (Or.inr hx))
  refine
    { key := key_of_waiting (setWaiting_get? (c.setQueues q) r b) hkey h.key, waiting := ?_
      blocked := ?_, isQueued := ?_, queued := ?_, runningQueued := ?_, notScheduled := ?_
      fresh := ?_, busy := ?_, maybeWaiting := ?_, maybe := ?_, maybeNodup := ?_
      inProgress := ?_ }
  · intro x
    refine mem_setWaiting.trans ?_
    by_cases hx : x = r
    · exact iff_of_true (Or.inl hx) (Or.inr (Or.inl (Or.inr hx)))
    · rw [hex x hx]
      simp only [hx, or_false, false_or]
      exact h.waiting x
  · intro x hx d
    rw [blockedOn_setWaiting]
    by_cases hxr : x = r
    · subst hxr
      have hno : ¬ Old x d := fun ho => hidle (Or.inl (Or.inl (hold x d ho)))
      simp [hno, hnb d]
    · rw [if_neg hxr, hex x hxr]
      simp only [hxr, false_and, or_false]
      exact h.blocked x ((mem_setWaiting.mp hx).resolve_left hxr) d
  · intro x
    refine (hq (.deploy x)).trans ((h.isQueued x).trans (and_congr_right fun hx => ?_))
    rw [hex x (hne x (Or.inr hx))]
  · intro x hx
    obtain ⟨hxq, hxb⟩ := h.queued x hx
    exact ⟨hxq, by rwa [hex x (hne x hxq)]⟩
  · intro x hx hxb
    exact h.runningQueued x hx (by rwa [hex x (hne x (Or.inl hx))] at hxb)
  · intro x hx
    obtain ⟨hx, hxr⟩ := mem_discard.mp hx
    have := h.notScheduled x hx
    tauto
  · rintro x (hn | rfl)
    · exact h.fresh x hn
    · exact fun hx => hidle (hx.imp_right Or.inl)
  · rintro x d (hb | ⟨rfl, -⟩)
    · exact (h.busy x d hb).imp_right (Or.imp_right Or.inl)
    · exact Or.inr (Or.inr (Or.inr rfl))
  · intro x hx
    refine mem_setWaiting.mpr ?_
    have hx : x = r ∨ x ∈ c.maybeRunnable := by
      revert hx
      show x ∈ (if b.blockedOn = [] then c.maybeRunnable.insert r else c.maybeRunnable) → _
      split
      · exact List.mem_insert_iff.mp
      · exact Or.inr
    exact hx.imp_right (h.maybeWaiting x)
  · intro x hx hempty
    show x ∈ (if b.blockedOn = [] then c.maybeRunnable.insert r else c.maybeRunnable) ∨ _
    rw [blockedOn_setWaiting] at hempty
    split at hempty
    · rename_i hxr
      rw [if_pos hempty]
      exact Or.inl (List.mem_insert_iff.mpr (Or.inl hxr))
    · rename_i hxr
      refine (h.maybe x ((mem_setWaiting.mp hx).resolve_left hxr) hempty).imp_left fun hm => ?_
      split
      · exact List.mem_insert_of_mem hm
      · exact hm
  · show (if b.blockedOn = [] then c.maybeRunnable.insert r else c.maybeRunnable).Nodup
    split
    · exact h.maybeNodup.insert
    · exact h.maybeNodup
  · intro t
    show t ∈ q.inProgress ↔ _
    rw [hprog]
    exact h.inProgress t

variable {requires : RequiresProvidesMapping} {req : DeployRequest}

/-- A resource that is not busy is scheduled, and its dependants are informed. -/
theorem Tracks.scheduleNew (h : Tracks w running Old N B c) (requires : RequiresProvidesMapping)
    (req : DeployRequest) (hv : w.Valid)
    (hold : ∀ x d, Old x d → x ∈ w.waiting)
    (hidle : ¬ (w.IsScheduled r ∨ r ∈ running ∨ N r)) :
    ∃ c', c.scheduleNew requires req r = .ok c'
      ∧ Tracks w running Old (fun x => N x ∨ x = r)
          (fun x d => B x d
            ∨ (x = r ∧ d ∈ requires.requires r ∧ (w.IsScheduled d ∨ d ∈ running ∨ N d))
            ∨ (d = r ∧ r ∈ requires.requires x
                ∧ (w.IsScheduled x ∨ x ∈ running ∨ N x ∨ x = r))) c' := by
  obtain ⟨c₁, out, hc₁, h₁, hout, -, -⟩ := h.filterScheduled (requires.requires r)
  have h₂ := h₁.create hold (r := r)
    (b := ⟨r, out, req.priority, c₁.work.agentQueues.entryCount, some req.reason⟩)
    (q := c₁.work.agentQueues.reserveRequestedAt.1) (fun t => Iff.rfl) rfl rfl hidle
  obtain ⟨c', hc', h'⟩ := foldlM_ok (ε := PyError)
    (f := fun (c : DeployContext) d => c.extendBlockedOn req.priority d [r])
    (I := fun pre c => Tracks w running Old (fun x => N x ∨ x = r)
      (fun x d => (B x d ∨ (x = r ∧ d ∈ out))
        ∨ (d = r ∧ x ∈ pre ∧ (w.IsScheduled x ∨ x ∈ running ∨ N x ∨ x = r))) c)
    (l := requires.provides r)
    (fun pre d post c _ hI => by
      obtain ⟨c', hc', h'⟩ := hI.extendBlockedOn hv hold req.priority d [r]
      refine ⟨c', hc', h'.congr (fun _ => Iff.rfl) fun x e => ?_⟩
      simp only [List.mem_append, List.mem_singleton]
      constructor
      · rintro ((hb | ⟨he, hx, hbusy⟩) | ⟨rfl, he, hbusy⟩)
        · exact Or.inl hb
        · exact Or.inr ⟨he, Or.inl hx, hbusy⟩
        · exact Or.inr ⟨he, Or.inr rfl, hbusy⟩
      · rintro (hb | ⟨he, hx | rfl, hbusy⟩)
        · exact Or.inl (Or.inl hb)
        · exact Or.inl (Or.inr ⟨he, hx, hbusy⟩)
        · exact Or.inr ⟨rfl, he, hbusy⟩)
    (h₂.congr (fun _ => Iff.rfl) fun x d => by simp)
  refine ⟨c', ?_, h'.congr (fun _ => Iff.rfl) fun x d => ?_⟩
  · rw [DeployContext.scheduleNew, hc₁]
    exact hc'
  · rw [RequiresProvidesMapping.mem_provides, hout, or_assoc]

/-- The blockers among the scheduled tasks once the tasks `N` are. -/
def FreshBlocker (w : ScheduledWork) (requires : RequiresProvidesMapping)
    (running : List ResourceIdStr) (N : ResourceIdStr → Prop) (x d : ResourceIdStr) : Prop :=
  (w.IsScheduled x ∨ x ∈ running ∨ N x) ∧ d ∈ requires.requires x
    ∧ (N d ∨ (N x ∧ (w.IsScheduled d ∨ d ∈ running ∨ N d)))

theorem Tracks.scheduleResource {N' : ResourceIdStr → Prop} (hv : w.Valid)
    (hold : ∀ x d, Old x d → x ∈ w.waiting)
    (h : Tracks w running Old N (FreshBlocker w requires running N) c)
    (hN : ∀ x, N' x ↔ N x ∨ (x = r ∧ ¬ (w.IsScheduled r ∨ r ∈ running))) :
    ∃ c', DeployContext.scheduleResource requires req c r = .ok c'
      ∧ Tracks w running Old N' (FreshBlocker w requires running N') c' := by
  obtain ⟨c₁, b, hc₁, h₁, hb, -, -, -⟩ := h.isScheduled r
  cases b with
  | true =>
      have hbusy := hb.mp rfl
      have hsame : ∀ x, N x ↔ N' x := by
        intro x
        rw [hN]
        refine ⟨Or.inl, fun hx => hx.elim id ?_⟩
        rintro ⟨rfl, hidle⟩
        exact (or_assoc.mpr hbusy).resolve_left hidle
      refine ⟨c₁.bumpPriority req r, ?_, (h₁.bumpPriority req r).congr hsame fun x d => ?_⟩
      · simp [DeployContext.scheduleResource, hc₁]
      · simp only [FreshBlocker, hsame]
  | false =>
      have hidle := fun hx => Bool.false_ne_true (hb.mpr hx)
      obtain ⟨c', hc', h'⟩ :=
        h₁.scheduleNew requires req hv hold hidle
      have hN' : ∀ x, N x ∨ x = r ↔ N' x := by
        intro x
        rw [hN]
        exact or_congr_right ⟨fun e => ⟨e, fun hx => hidle (hx.imp_right Or.inl)⟩, And.left⟩
      refine ⟨c', ?_, h'.congr hN' fun x d => ?_⟩
      · simp only [DeployContext.scheduleResource, hc₁]
        exact hc'
      · simp only [FreshBlocker, ← hN']
        have hlift : ∀ y, (w.IsScheduled y ∨ y ∈ running ∨ N y) →
            w.IsScheduled y ∨ y ∈ running ∨ N y ∨ y = r :=
          fun y hy => hy.imp_right (Or.imp_right Or.inl)
        have hdrop : ∀ y, y ≠ r → (w.IsScheduled y ∨ y ∈ running ∨ N y ∨ y = r) →
            w.IsScheduled y ∨ y ∈ running ∨ N y :=
          fun y hne hy => hy.imp_right (Or.imp_right fun h => h.resolve_right hne)
        constructor
        · rintro (⟨hx, hreq, hd⟩ | ⟨rfl, hreq, hd⟩ | ⟨rfl, hreq, hx⟩)
          · exact ⟨hlift x hx, hreq, hd.imp Or.inl fun hd => ⟨Or.inl hd.1, hlift d hd.2⟩⟩
          · exact ⟨Or.inr (Or.inr (Or.inr rfl)), hreq, Or.inr ⟨Or.inr rfl, hlift d hd⟩⟩
          · exact ⟨hx, hreq, Or.inl (Or.inr rfl)⟩
        · rintro ⟨hx, hreq, hd⟩
          by_cases hdr : d = r
          · exact Or.inr (Or.inr ⟨hdr, hdr ▸ hreq, hx⟩)
          by_cases hxr : x = r
          · refine Or.inr (Or.inl ⟨hxr, hxr ▸ hreq, ?_⟩)
            rcases hd with hd | ⟨-, hd⟩
            · exact Or.inr (Or.inr (hd.resolve_right hdr))
            · exact hdrop d hdr hd
          · refine Or.inl ⟨hdrop x hxr hx, hreq, ?_⟩
            exact hd.imp (fun hd => hd.resolve_right hdr)
              fun hd => ⟨hd.1.resolve_right hxr, hdrop d hdr hd.2⟩

/-! ## The whole call -/

theorem tracks_init (hv : w.Valid) (running : List ResourceIdStr) (q : AgentQueues)
    (hq : ∀ t, t ∈ q ↔ t ∈ w.agentQueues)
    (hprog : ∀ t, t ∈ q.inProgress ↔ t ∈ w.agentQueues.inProgress) :
    Tracks w running (fun x d => d ∈ w.blockedOn x) (fun _ => False) (fun _ _ => False)
      ⟨{ w with agentQueues := q }, [], running, []⟩ where
  key := hv.key
  waiting := fun x => by simp
  blocked := fun x _ d => by
    simp only [false_or, exists_false, and_false, not_false_eq_true, and_true]
    rfl
  isQueued := fun x => by
    simp only [exists_false, not_false_eq_true, and_true]
    exact hq (.deploy x)
  queued := fun x hx => ⟨Or.inl hx, by simp⟩
  runningQueued := fun x hx _ => hx
  notScheduled := by simp
  fresh := by simp
  busy := by simp
  maybeWaiting := by simp
  maybe := fun x hx hempty => Or.inr ⟨hx, hempty⟩
  maybeNodup := List.nodup_nil
  inProgress := hprog

/-- Dropping requires comes first: only what is waited for changes. -/
theorem Tracks.dropRequires
    (h : Tracks w running Old (fun _ => False) (fun _ _ => False) c)
    (dropped : List ResourceIdStr) :
    Tracks w running (fun x d => Old x d ∧ ¬ (x = r ∧ d ∈ dropped)) (fun _ => False)
      (fun _ _ => False) (c.dropRequires r dropped) := by
  have hsame : (∀ d, d ∈ c.work.blockedOn r → d ∉ dropped) ∨ r ∉ c.work.waiting →
      Tracks w running (fun x d => Old x d ∧ ¬ (x = r ∧ d ∈ dropped)) (fun _ => False)
        (fun _ _ => False) c := by
    intro hno
    refine { h with blocked := fun x hx d => ?_ }
    rw [h.blocked x hx]
    simp only [false_or, exists_false, and_false, not_false_eq_true, and_true]
    refine ⟨fun ho => ⟨ho, ?_⟩, And.left⟩
    rintro ⟨rfl, hd⟩
    rcases hno with hno | hno
    · exact hno d ((h.blocked x hx d).mpr (by simpa using ho)) hd
    · exact hno hx
  unfold DeployContext.dropRequires
  by_cases hd : dropped = []
  · rw [if_pos hd]
    exact hsame (Or.inl (by simp [hd]))
  rw [if_neg hd]
  cases hb : c.work.waiting.get? r with
  | none => exact hsame (Or.inr (Dict.not_mem_iff.mpr hb))
  | some b =>
      have hr : r ∈ c.work.waiting := Dict.mem_of_get? hb
      have hmem : ∀ x, x ∈ (c.setWaiting r { b with
          blockedOn := b.blockedOn.removeAll dropped }).work.waiting ↔ x ∈ c.work.waiting := by
        intro x
        rw [mem_setWaiting]
        exact ⟨fun hx => hx.elim (fun e => e ▸ hr) id, Or.inr⟩
      exact { h with
        key := key_of_waiting (setWaiting_get? c r _) (h.key r b hb) h.key
        waiting := fun x => (hmem x).trans (h.waiting x)
        blocked := fun x hx d => by
          rw [blockedOn_setWaiting]
          have hbl := h.blocked x ((hmem x).mp hx) d
          by_cases hxr : x = r
          · subst hxr
            rw [ScheduledWork.blockedOn_of_get? hb] at hbl
            rw [if_pos rfl, mem_removeAll, hbl]
            simp
          · rw [if_neg hxr, hbl]
            simp [hxr]
        maybeWaiting := fun x hx => by
          rcases List.mem_insert_iff.mp hx with rfl | hx
          · exact (hmem x).mpr hr
          · exact (hmem x).mpr (h.maybeWaiting x hx)
        maybe := fun x hx hempty => by
          rw [blockedOn_setWaiting] at hempty
          split at hempty
          · rename_i hxr
            exact Or.inl (List.mem_insert_iff.mpr (Or.inl hxr))
          · exact (h.maybe x ((hmem x).mp hx) hempty).imp_left List.mem_insert_of_mem
        maybeNodup := h.maybeNodup.insert }

theorem Tracks.addRequires (h : Tracks w running Old N B c) (hv : w.Valid)
    (hold : ∀ x d, Old x d → x ∈ w.waiting) (added : ResourceIdStr × List ResourceIdStr) :
    ∃ c', DeployContext.addRequires req c added = .ok c'
      ∧ Tracks w running Old N (fun x d => B x d
          ∨ (x = added.1 ∧ d ∈ added.2 ∧ (w.IsScheduled d ∨ d ∈ running ∨ N d)
            ∧ (w.IsScheduled x ∨ x ∈ running ∨ N x))) c' := by
  obtain ⟨c₁, out, hc₁, h₁, hout, -, -⟩ := h.filterScheduled added.2
  obtain ⟨c', hc', h'⟩ := h₁.extendBlockedOn hv hold req.priority added.1 out
  refine ⟨c', ?_, h'.congr (fun _ => Iff.rfl) fun x d => ?_⟩
  · rw [DeployContext.addRequires, hc₁]
    exact hc'
  · rw [hout]
    refine or_congr_right ⟨?_, ?_⟩
    · rintro ⟨rfl, ⟨hd, hdb⟩, hx⟩
      exact ⟨rfl, hd, hdb, hx⟩
    · rintro ⟨rfl, hd, hdb, hx⟩
      exact ⟨rfl, ⟨hd, hdb⟩, hx⟩

/-- The last pass over the tasks that may have become ready. -/
theorem Tracks.queueReady (h : Tracks w running Old N B c) :
    ∃ w', c.maybeRunnable.foldlM (fun (w : ScheduledWork) r => do
        let b ← w.waiting.item r
        return w.queueIfReady b) c.work = Except.ok (ε := PyError) w'
      ∧ (∀ x, x ∈ w'.waiting ↔
          x ∈ c.work.waiting ∧ ¬ (x ∈ c.maybeRunnable ∧ c.work.blockedOn x = []))
      ∧ (∀ x ∈ w'.waiting, w'.waiting.get? x = c.work.waiting.get? x)
      ∧ (∀ x, w'.IsQueued x ↔
          c.work.IsQueued x ∨ (x ∈ c.maybeRunnable ∧ c.work.blockedOn x = []))
      ∧ ∀ t, t ∈ w'.agentQueues.inProgress ↔ t ∈ c.work.agentQueues.inProgress := by
  refine foldlM_ok (ε := PyError)
    (I := fun pre (w' : ScheduledWork) =>
      (∀ x, x ∈ w'.waiting ↔ x ∈ c.work.waiting ∧ ¬ (x ∈ pre ∧ c.work.blockedOn x = []))
      ∧ (∀ x ∈ w'.waiting, w'.waiting.get? x = c.work.waiting.get? x)
      ∧ (∀ x, w'.IsQueued x ↔ c.work.IsQueued x ∨ (x ∈ pre ∧ c.work.blockedOn x = []))
      ∧ ∀ t, t ∈ w'.agentQueues.inProgress ↔ t ∈ c.work.agentQueues.inProgress)
    ?_ ⟨by simp, fun _ _ => rfl, by simp, fun _ => Iff.rfl⟩
  intro pre r post w' hl hI
  obtain ⟨hw, hget, hq, hprog⟩ := hI
  have hrpre : r ∉ pre := by
    have hnd := h.maybeNodup
    rw [hl, List.nodup_append] at hnd
    exact fun hr => hnd.2.2 r hr r (List.mem_cons_self ..) rfl
  have hrc : r ∈ c.work.waiting := h.maybeWaiting r (by simp [hl])
  have hrw : r ∈ w'.waiting := (hw r).mpr ⟨hrc, fun hx => hrpre hx.1⟩
  obtain ⟨b, hb⟩ := Dict.mem_iff.mp hrw
  have hbc : c.work.waiting.get? r = some b := (hget r hrw).symm.trans hb
  have hkey : b.resource = r := h.key r b hbc
  have hbl : c.work.blockedOn r = b.blockedOn := ScheduledWork.blockedOn_of_get? hbc
  refine ⟨w'.queueIfReady b, by rw [Dict.item_of_get? hb]; rfl, ?_⟩
  simp only [List.mem_append, List.mem_singleton]
  unfold ScheduledWork.queueIfReady
  by_cases hempty : b.blockedOn = []
  · rw [if_neg (by simpa using hempty), hkey]
    have hre : c.work.blockedOn r = [] := hbl.trans hempty
    refine ⟨fun x => ?_, fun x hx => ?_, fun x => ?_, fun t => ?_⟩
    · rw [Dict.mem_del, hw]
      by_cases hx : x = r
      · subst hx; simp [hre]
      · simp [hx]
    · obtain ⟨hxr, hx⟩ := Dict.mem_del.mp hx
      rw [Dict.get?_del, if_neg hxr]
      exact hget x hx
    · refine AgentQueues.mem_queuePutNowait.trans ?_
      show Task.deploy x = .deploy r ∨ w'.IsQueued x ↔ _
      rw [Task.deploy.injEq, hq]
      by_cases hx : x = r
      · subst hx; simp [hre]
      · simp [hx]
    · show t ∈ (w'.agentQueues.queuePutNowait _ _ _ _).inProgress ↔ _
      rw [AgentQueues.queuePutNowait_inProgress]
      exact hprog t
  · rw [if_pos (by simpa using hempty)]
    have hre : c.work.blockedOn r ≠ [] := fun e => hempty (hbl.symm.trans e)
    have hsame : ∀ x, (x ∈ pre ∨ x = r) ∧ c.work.blockedOn x = [] ↔
        x ∈ pre ∧ c.work.blockedOn x = [] := by
      intro x
      refine and_congr_left fun hx => ⟨fun h => h.resolve_right ?_, Or.inl⟩
      rintro rfl
      exact hre hx
    simp only [hsame]
    exact ⟨hw, hget, hq, hprog⟩

theorem newBlockers_iff {r d : ResourceIdStr} : d ∈ req.newBlockers w requires r ↔
    FreshBlocker w requires req.running (req.Fresh w) r d
      ∨ (d ∈ req.added r ∧ req.Busy w d ∧ req.Busy w r) := by
  unfold DeployRequest.newBlockers FreshBlocker
  by_cases hr : req.Busy w r
  · rw [if_pos hr, List.mem_append, List.mem_filter, List.mem_filter, decide_eq_true_iff,
      decide_eq_true_iff]
    exact or_congr (and_iff_right hr).symm (and_congr_right fun _ => (and_iff_left hr).symm)
  · rw [if_neg hr]
    refine iff_of_false List.not_mem_nil ?_
    rintro (h | h)
    · exact hr h.1
    · exact hr h.2.2

theorem mem_getD_nil {d : Dict ResourceIdStr (List ResourceIdStr)} {r x : ResourceIdStr} :
    x ∈ d.getD r [] ↔ ∃ e ∈ d.items, r = e.1 ∧ x ∈ e.2 := by
  constructor
  · intro hx
    cases hr : d.get? r with
    | none => simp [Dict.getD, hr] at hx
    | some l =>
        rw [Dict.getD_of_get? hr] at hx
        exact ⟨(r, l), Dict.get?_eq_some_iff.mp hr, rfl, hx⟩
  · rintro ⟨⟨r, l⟩, he, rfl, hx⟩
    rw [Dict.getD_of_get? (Dict.get?_eq_some_iff.mpr he)]
    exact hx

/-- What a resource goes on waiting for. -/
def OldBlocker (w : ScheduledWork) (req : DeployRequest) (x d : ResourceIdStr) : Prop :=
  d ∈ w.blockedOn x ∧ d ∉ req.dropped x

theorem OldBlocker.waiting {x d : ResourceIdStr} (h : OldBlocker w req x d) :
    x ∈ w.waiting := by
  by_contra hx
  rw [OldBlocker, ScheduledWork.blockedOn_of_not_mem hx] at h
  exact List.not_mem_nil h.1

/-- The loop over the dropped requires. -/
theorem Tracks.dropAll (req : DeployRequest)
    (h : Tracks w running (fun x d => d ∈ w.blockedOn x) (fun _ => False) (fun _ _ => False) c) :
    Tracks w running (OldBlocker w req) (fun _ => False) (fun _ _ => False)
      (req.droppedRequires.items.foldl (fun c e => c.dropRequires e.1 e.2) c) := by
  have hall := foldl_induct
    (f := fun (c : DeployContext) (e : ResourceIdStr × List ResourceIdStr) =>
      c.dropRequires e.1 e.2)
    (I := fun pre c => Tracks w running
      (fun x d => d ∈ w.blockedOn x ∧ ¬ ∃ e ∈ pre, x = e.1 ∧ d ∈ e.2)
      (fun _ => False) (fun _ _ => False) c)
    (l := req.droppedRequires.items) (s := c)
    (fun pre e post c _ hI => by
      have h := hI.dropRequires (r := e.1) e.2
      have hOld : (fun x d => (d ∈ w.blockedOn x ∧ ¬ ∃ e ∈ pre, x = e.1 ∧ d ∈ e.2)
          ∧ ¬ (x = e.1 ∧ d ∈ e.2))
          = fun x d => d ∈ w.blockedOn x ∧ ¬ ∃ e' ∈ pre ++ [e], x = e'.1 ∧ d ∈ e'.2 := by
        funext x d
        simp [or_and_right, exists_or, and_assoc]
      rwa [hOld] at h)
    (by simpa using h)
  have hOld : (fun x d => d ∈ w.blockedOn x
      ∧ ¬ ∃ e ∈ req.droppedRequires.items, x = e.1 ∧ d ∈ e.2) = OldBlocker w req := by
    funext x d
    rw [OldBlocker, DeployRequest.dropped, mem_getD_nil]
  rwa [hOld] at hall

/-- The loop over the requested resources. -/
theorem Tracks.scheduleAll (requires : RequiresProvidesMapping) (hv : w.Valid)
    (h : Tracks w req.running (OldBlocker w req) (fun _ => False) (fun _ _ => False) c) :
    ∃ c', req.resources.foldlM (DeployContext.scheduleResource requires req) c = .ok c'
      ∧ Tracks w req.running (OldBlocker w req) (req.Fresh w)
          (FreshBlocker w requires req.running (req.Fresh w)) c' := by
  obtain ⟨c', hc', h'⟩ := foldlM_ok (ε := PyError)
    (f := DeployContext.scheduleResource requires req)
    (I := fun pre c => Tracks w req.running (OldBlocker w req)
      (fun x => x ∈ pre ∧ ¬ (w.IsScheduled x ∨ x ∈ req.running))
      (FreshBlocker w requires req.running
        fun x => x ∈ pre ∧ ¬ (w.IsScheduled x ∨ x ∈ req.running)) c)
    (l := req.resources)
    (fun pre r post c _ hI => hI.scheduleResource hv (fun _ _ ho => ho.waiting) fun x => by
      rw [List.mem_append, List.mem_singleton]
      constructor
      · rintro ⟨hx | rfl, hidle⟩
        · exact Or.inl ⟨hx, hidle⟩
        · exact Or.inr ⟨rfl, hidle⟩
      · rintro (⟨hx, hidle⟩ | ⟨rfl, hidle⟩)
        · exact ⟨Or.inl hx, hidle⟩
        · exact ⟨Or.inr rfl, hidle⟩)
    (h.congr (by simp) fun x d => by simp [FreshBlocker])
  have hN : (fun x => x ∈ req.resources ∧ ¬ (w.IsScheduled x ∨ x ∈ req.running))
      = req.Fresh w := by
    funext x
    rw [DeployRequest.Fresh, not_or]
  rw [hN] at h'
  exact ⟨c', hc', h'⟩

/-- The loop over the added requires. -/
theorem Tracks.addAll (hv : w.Valid)
    (h : Tracks w req.running (OldBlocker w req) (req.Fresh w)
      (FreshBlocker w requires req.running (req.Fresh w)) c) :
    ∃ c', req.addedRequires.items.foldlM (DeployContext.addRequires req) c = .ok c'
      ∧ Tracks w req.running (OldBlocker w req) (req.Fresh w)
          (fun x d => d ∈ req.newBlockers w requires x) c' := by
  obtain ⟨c', hc', h'⟩ := foldlM_ok (ε := PyError)
    (f := DeployContext.addRequires req)
    (I := fun pre c => Tracks w req.running (OldBlocker w req) (req.Fresh w)
      (fun x d => FreshBlocker w requires req.running (req.Fresh w) x d
        ∨ ((∃ e ∈ pre, x = e.1 ∧ d ∈ e.2) ∧ req.Busy w d ∧ req.Busy w x)) c)
    (l := req.addedRequires.items)
    (fun pre e post c _ hI => by
      obtain ⟨c', hc', h'⟩ := hI.addRequires hv (fun _ _ ho => ho.waiting) e
      refine ⟨c', hc', h'.congr (fun _ => Iff.rfl) fun x d => ?_⟩
      constructor
      · rintro ((hb | ⟨⟨e', he', hx⟩, hbusy⟩) | ⟨hx, hd, hdb, hxb⟩)
        · exact Or.inl hb
        · exact Or.inr ⟨⟨e', List.mem_append_left _ he', hx⟩, hbusy⟩
        · exact Or.inr ⟨⟨e, by simp, hx, hd⟩, hdb, hxb⟩
      · rintro (hb | ⟨⟨e', he', hx⟩, hbusy⟩)
        · exact Or.inl (Or.inl hb)
        · rcases List.mem_append.mp he' with he' | he'
          · exact Or.inl (Or.inr ⟨⟨e', he', hx⟩, hbusy⟩)
          · obtain rfl := List.mem_singleton.mp he'
            exact Or.inr ⟨hx.1, hx.2, hbusy.1, hbusy.2⟩)
    (h.congr (fun _ => Iff.rfl) fun x d => by simp)
  refine ⟨c', hc', h'.congr (fun _ => Iff.rfl) fun x d => ?_⟩
  rw [newBlockers_iff, DeployRequest.added, mem_getD_nil]

/-- What is known at the end of the loops is what the call is described by. -/
theorem Tracks.deployed {w' : ScheduledWork} (hv : w.Valid)
    (h : Tracks w req.running (OldBlocker w req) (req.Fresh w)
      (fun x d => d ∈ req.newBlockers w requires x) c)
    (hwait : ∀ x, x ∈ w'.waiting ↔
      x ∈ c.work.waiting ∧ ¬ (x ∈ c.maybeRunnable ∧ c.work.blockedOn x = []))
    (hget : ∀ x ∈ w'.waiting, w'.waiting.get? x = c.work.waiting.get? x)
    (hq : ∀ x, w'.IsQueued x ↔
      c.work.IsQueued x ∨ (x ∈ c.maybeRunnable ∧ c.work.blockedOn x = []))
    (hprog : ∀ t, t ∈ w'.agentQueues.inProgress ↔ t ∈ c.work.agentQueues.inProgress) :
    Deployed w requires req w' := by
  have hne : ∀ x, (∃ d, d ∈ req.newBlockers w requires x) ↔
      req.newBlockers w requires x ≠ [] := fun x => by
    rw [ne_eq, List.eq_nil_iff_forall_not_mem]
    push Not
    rfl
  have hblocked : ∀ x ∈ c.work.waiting, ∀ d,
      d ∈ c.work.blockedOn x ↔ req.Blocker w requires x d := by
    intro x hx d
    rw [h.blocked x hx, hne, DeployRequest.Blocker, DeployRequest.Deferred, OldBlocker,
      and_assoc]
  have hwait' : ∀ x, x ∈ w'.waiting → x ∈ c.work.waiting := fun x hx => ((hwait x).mp hx).1
  have hbl : ∀ x ∈ w'.waiting, w'.blockedOn x = c.work.blockedOn x := fun x hx => by
    rw [ScheduledWork.blockedOn, ScheduledWork.blockedOn, hget x hx]
  have hsch : ∀ x, w'.IsScheduled x ↔ c.work.IsScheduled x := by
    intro x
    simp only [ScheduledWork.IsScheduled, hwait, hq]
    have := h.maybeWaiting x
    tauto
  refine
    { valid := ⟨fun x b hb => ?_, fun x hx hqx => ?_⟩
      scheduled := fun x => ?_, waiting := fun x hx => ?_
      blocked := fun x hx d => by rw [hbl x hx]; exact hblocked x (hwait' x hx) d
      nonempty := fun x hx hempty => ?_, queued := fun x hx => ?_
      inProgress := fun t => (hprog t).trans (h.inProgress t) }
  · exact h.key x b (hget x (Dict.mem_of_get? hb) ▸ hb)
  · obtain ⟨hxc, hnr⟩ := (hwait x).mp hx
    obtain ⟨hxq, hnb⟩ := (h.isQueued x).mp (((hq x).mp hqx).resolve_right hnr)
    rcases (h.waiting x).mp hxc with hxw | hn | ⟨-, hb⟩
    · exact hv.unique x hxw hxq
    · exact hn.2.1 (Or.inr hxq)
    · exact hnb hb
  · rw [hsch, ScheduledWork.IsScheduled, h.waiting, h.isQueued, ScheduledWork.IsScheduled,
      DeployRequest.Deferred, hne]
    tauto
  · rcases (h.waiting x).mp (hwait' x hx) with hxw | hn | ⟨-, hb⟩
    · exact Or.inl hxw
    · exact Or.inr (Or.inl hn)
    · exact Or.inr (Or.inr ((hne x).mp hb))
  · obtain ⟨hxc, hnr⟩ := (hwait x).mp hx
    rw [hbl x hx] at hempty
    exact (h.maybe x hxc hempty).resolve_left fun hm => hnr ⟨hm, hempty⟩
  · rcases (hq x).mp hx with hxq | ⟨hm, hempty⟩
    · obtain ⟨hxw, hnb⟩ := (h.isQueued x).mp hxq
      rw [hne, not_not] at hnb
      exact Or.inl ⟨hxw, hnb⟩
    · have hxc := h.maybeWaiting x hm
      have hnone : ∀ d, ¬ req.Blocker w requires x d := fun d hd => by
        rw [← hblocked x hxc, hempty] at hd
        exact List.not_mem_nil hd
      refine Or.inr ⟨?_, hnone⟩
      rcases (h.waiting x).mp hxc with hxw | hn | ⟨-, d, hd⟩
      · exact Or.inl hxw
      · exact Or.inr hn
      · exact absurd (Or.inl hd) (hnone d)

end DeployContext

/-- **The call never fails** on valid scheduled work, and does what `Deployed`
says, for every requires relation and every request. -/
theorem deployWithContext_ok {w : ScheduledWork} (hv : w.Valid)
    (requires : RequiresProvidesMapping) (req : DeployRequest) :
    ∃ w', w.deployWithContext requires req = .ok w' ∧ Deployed w requires req w' := by
  have h₁ := (DeployContext.tracks_init hv req.running
    (w.agentQueues.bumpInProgressPriorities (req.resources ∩ req.deploying) req.priority)
    (fun t => AgentQueues.mem_bumpInProgressPriorities)
    fun t => AgentQueues.mem_inProgress_bump).dropAll req
  obtain ⟨c₂, hc₂, h₂⟩ := h₁.scheduleAll requires hv
  obtain ⟨c₃, hc₃, h₃⟩ := h₂.addAll hv
  obtain ⟨w', hw', hwait, hget, hq, hprog⟩ := h₃.queueReady
  refine ⟨w', ?_, h₃.deployed hv hwait hget hq hprog⟩
  rw [ScheduledWork.deployWithContext]
  exact bind_eq_ok.mpr ⟨c₂, hc₂, bind_eq_ok.mpr ⟨c₃, hc₃, hw'⟩⟩

end Inmanta
