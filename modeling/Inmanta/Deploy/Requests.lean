import Inmanta.Deploy.NewVersion

/-!
# What requests and events do

`Requested` is what a deploy request does to the scheduler, whichever
operation makes it, and `EventsSent` is what the end of a deploy does to
the dependants of the resource: those that were skipped for it recover,
and all listeners are scheduled once more.
-/

namespace Inmanta

/-- The resource is managed and nothing blocks it for good. -/
def ModelState.Deployable (s : ModelState) (r : ResourceIdStr) : Prop :=
  r ∈ s.resourceState ∧ ¬ s.IsBlocked r

instance (s : ModelState) (r : ResourceIdStr) : Decidable (s.Deployable r) :=
  inferInstanceAs (Decidable (_ ∧ _))

namespace Scheduler

variable {s s' : Scheduler} {r x : ResourceIdStr}

/-- `rs` have been scheduled, and their timers stopped. A resource that is being
deployed for its latest intent is only scheduled again by force. -/
structure Requested (s : Scheduler) (rs : List ResourceIdStr) (force : Bool) (s' : Scheduler) :
    Prop where
  state : s'.state = s.state
  latest : s'.deployingLatest = s.deployingLatest
  unmanaged : s'.deployingUnmanaged = s.deployingUnmanaged
  workValid : s'.work.Valid
  keeps : ∀ x, s.work.IsScheduled x → s'.work.IsScheduled x
  scheduled : ∀ x ∈ rs, s'.work.IsScheduled x ∨ (x ∈ s.deployingLatest ∧ force = false)
  new : ∀ x, s'.work.IsScheduled x → s.work.IsScheduled x ∨ x ∈ rs ∨ x ∈ s.deployingLatest
  inProgress : ∀ t, t ∈ s'.work.agentQueues.inProgress ↔ t ∈ s.work.agentQueues.inProgress
  config : TimerManager.SameConfig s.timers s'.timers
  armed : ∀ x, s'.timers.IsArmed x ↔ s.timers.IsArmed x ∧ x ∉ rs

theorem Requested.refl (hw : s.work.Valid) (force : Bool) : Requested s [] force s where
  state := rfl
  latest := rfl
  unmanaged := rfl
  workValid := hw
  keeps := fun _ => id
  scheduled := by simp
  new := fun _ => Or.inl
  inProgress := fun _ => Iff.rfl
  config := .refl _
  armed := by simp

theorem schedule_ok (hw : s.work.Valid) (rs : List ResourceIdStr) (reason : String)
    (priority : TaskPriority) (force : Bool) :
    ∃ s', s.schedule rs reason priority force = .ok s' ∧ Requested s rs force s' := by
  let req : DeployRequest := ⟨rs, reason, priority, s.deployingLatest, .empty, .empty, force⟩
  obtain ⟨work, hwork, h⟩ := deployWithContext_ok hw s.state.requires req
  obtain ⟨hc, ha⟩ := TimerManager.stopTimers_spec s.timers rs
  have hrunning : ∀ x ∈ req.running, x ∈ s.deployingLatest := by
    intro x hx
    unfold DeployRequest.running at hx
    split at hx
    · exact (mem_removeAll.mp hx).1
    · exact hx
  refine ⟨{ s with work, timers := s.timers.stopTimers rs }, ?_, rfl, rfl, rfl, h.valid,
    fun x hx => (h.scheduled x).mpr (Or.inl hx), fun x hx => ?_, fun x hx => ?_, h.inProgress, hc, ha⟩
  · rw [schedule]
    exact bind_eq_ok.mpr ⟨work, hwork, rfl⟩
  · by_cases hs : s.work.IsScheduled x
    · exact Or.inl ((h.scheduled x).mpr (Or.inl hs))
    · by_cases hr : x ∈ req.running
      · refine Or.inr ⟨hrunning x hr, ?_⟩
        -- a forced request does not count its own resources as running
        cases force with
        | false => rfl
        | true => exact absurd hx (mem_removeAll.mp hr).2
      · exact Or.inl ((h.scheduled x).mpr (Or.inr (Or.inl ⟨hx, hs, hr⟩)))
  · rcases (h.scheduled x).mp hx with hs | hf | hd
    · exact Or.inl hs
    · exact Or.inr (Or.inl hf.1)
    · exact Or.inr (Or.inr (hrunning x hd.1))

/-! ## Requests -/

/-- Requests only name resources that are dirty, or that may be deployed. -/
def MayRequest (s : Scheduler) (r : ResourceIdStr) : Prop :=
  r ∈ s.state.dirty ∨ s.state.Deployable r

/-- What `deploy`, `repair` and `deployResource` do: maybe more resources are
marked as dirty, then some are scheduled. -/
structure DeployRequested (s : Scheduler) (dirty rs : List ResourceIdStr) (s' : Scheduler) :
    Prop where
  requested : Requested { s with state := { s.state with dirty } } rs false s'
  keeps : ∀ x ∈ s.state.dirty, x ∈ dirty
  marked : ∀ x ∈ dirty, s.MayRequest x
  allowed : ∀ x ∈ rs, s.MayRequest x

theorem deploy_ok (hw : s.work.Valid) (reason : String) (priority : TaskPriority)
    (agent : Option String) (resources : Option (List ResourceIdStr)) :
    ∃ rs s', s.deploy reason priority agent resources = .ok s'
      ∧ DeployRequested s s.state.dirty rs s' := by
  obtain ⟨s', hs', h⟩ := schedule_ok hw (s.state.dirty.filter (s.inScope agent resources)) reason
    priority false
  exact ⟨_, s', hs', h, fun _ => id, fun _ => Or.inl, fun x hx => Or.inl (List.mem_filter.mp hx).1⟩

theorem repair_ok (hv : s.state.Valid) (hw : s.work.Valid) (reason : String)
    (priority : TaskPriority) (agent : Option String) (resources : Option (List ResourceIdStr)) :
    ∃ dirty rs s', s.repair reason priority agent resources = .ok s'
      ∧ DeployRequested s dirty rs s' := by
  let rs := s.repairable agent resources
  have hallowed : ∀ x ∈ rs, s.MayRequest x := by
    intro x hx
    obtain ⟨hbase, hp⟩ := List.mem_filter.mp hx
    refine Or.inr ⟨?_, (of_decide_eq_true hp).2⟩
    cases agent with
    | none => exact (hv.intent x).mp (Dict.mem_keys.mp hbase)
    | some a => exact ((hv.agents a x).mp hbase).1
  let s₁ : Scheduler := { s with state := { s.state with dirty := s.state.dirty ∪ rs } }
  have hw₁ : s₁.work.Valid := hw
  obtain ⟨s', hs', h⟩ := schedule_ok hw₁ rs reason priority false
  refine ⟨s₁.state.dirty, rs, s', hs', h, fun x hx => List.mem_union_iff.mpr (Or.inl hx),
    fun x hx => ?_, hallowed⟩
  exact (List.mem_union_iff.mp hx).elim Or.inl (hallowed x)

theorem deployResource_ok (hw : s.work.Valid) (r : ResourceIdStr) (reason : String)
    (priority : TaskPriority) :
    ∃ rs s', s.deployResource r reason priority = .ok s'
      ∧ DeployRequested s s.state.dirty rs s' := by
  have hnone : DeployRequested s s.state.dirty [] s :=
    ⟨.refl hw false, fun _ => id, fun _ => Or.inl, by simp⟩
  unfold deployResource
  cases hr : s.state.resourceState.get? r with
  | none => exact ⟨[], s, rfl, hnone⟩
  | some rs =>
      simp only
      split
      · exact ⟨[], s, rfl, hnone⟩
      · rename_i hb
        obtain ⟨s', hs', h⟩ := schedule_ok hw [r] reason priority false
        refine ⟨[r], s', hs', h, fun _ => id, fun _ => Or.inl, ?_⟩
        intro x hx
        obtain rfl := List.mem_singleton.mp hx
        refine Or.inr ⟨Dict.mem_of_get? hr, ?_⟩
        rw [ModelState.IsBlocked, ModelState.blocked?_of_get? hr]
        exact fun he => hb (Option.some.inj he)

/-! ## Events -/

/-- The resource `x` was skipped for its dependencies, and `r` is one of them. -/
def SkippedFor (s : ModelState) (r x : ResourceIdStr) : Prop :=
  s.blocked? x = some .temporarilyBlocked ∧ r ∈ s.requiresOf x

instance (s : ModelState) (r x : ResourceIdStr) : Decidable (SkippedFor s r x) :=
  inferInstanceAs (Decidable (_ ∧ _))

/-- The dependants of `r` have been informed of the end of its deploy. -/
structure EventsSent (s : Scheduler) (r : ResourceIdStr) (recovered : Bool) (s' : Scheduler) :
    Prop where
  same : SameButBlocked s.state s'.state
  blocked : ∀ x, s'.state.blocked? x =
    if recovered = true ∧ SkippedFor s.state r x then some .notBlocked else s.state.blocked? x
  dirty : ∀ x, x ∈ s'.state.dirty ↔
    x ∈ s.state.dirty ∨ (recovered = true ∧ SkippedFor s.state r x)
  latest : s'.deployingLatest = s.deployingLatest
  unmanaged : s'.deployingUnmanaged = s.deployingUnmanaged
  workValid : s'.work.Valid
  keeps : ∀ x, s.work.IsScheduled x → s'.work.IsScheduled x
  new : ∀ x, s'.work.IsScheduled x → s.work.IsScheduled x
    ∨ s.state.Deployable x ∨ x ∈ s.deployingLatest
  inProgress : ∀ t, t ∈ s'.work.agentQueues.inProgress ↔ t ∈ s.work.agentQueues.inProgress
  config : TimerManager.SameConfig s.timers s'.timers
  armed : ∀ x, s.timers.IsArmed x → s'.timers.IsArmed x ∨ s'.work.IsScheduled x

theorem EventsSent.refl (hw : s.work.Valid) (r : ResourceIdStr) : EventsSent s r false s where
  same := .refl _
  blocked := by simp
  dirty := by simp
  latest := rfl
  unmanaged := rfl
  workValid := hw
  keeps := fun _ => id
  new := fun _ => Or.inl
  inProgress := fun _ => Iff.rfl
  config := .refl _
  armed := fun _ => Or.inl

/-- What unblocking the dependants that were skipped does. -/
theorem unblockAll_ok (state : ModelState) {rs : List ResourceIdStr}
    (hrs : ∀ x ∈ rs, x ∈ state.resourceState) :
    ∃ state', rs.foldlM unblockSkipped state = .ok state' ∧ SameButBlocked state state'
      ∧ (∀ x, state'.blocked? x = if x ∈ rs then some .notBlocked else state.blocked? x)
      ∧ state'.dirty = state.dirty := by
  refine foldlM_ok (ε := PyError) (I := fun pre (t : ModelState) => SameButBlocked state t
      ∧ (∀ x, t.blocked? x = if x ∈ pre then some .notBlocked else state.blocked? x)
      ∧ t.dirty = state.dirty) ?_ ⟨.refl _, by simp, rfl⟩
  rintro pre y post t hl ⟨hsame, hb, hd⟩
  obtain ⟨st, hst⟩ := Dict.mem_iff.mp (hsame.mem_resourceState.mpr (hrs y (by simp [hl])))
  refine ⟨t.setBlocked y st .notBlocked, by rw [unblockSkipped, Dict.item_of_get? hst]; rfl,
    hsame.trans (.setBlocked hst _), fun x => ?_, hd⟩
  rw [ModelState.blocked?_setBlocked, hb]
  by_cases hx : x = y <;> simp [hx]

/-- The listeners are dependants that may be deployed; those that recover are
the ones that were skipped. -/
theorem eventListeners_ok (hv : s.state.Valid) (sending : ResourceIntent)
    (staleDeploy recovered : Bool) :
    ∃ events recovery, s.eventListeners sending staleDeploy recovered = .ok (events, recovery)
      ∧ (∀ x ∈ events, s.state.Deployable x)
      ∧ ∀ x, x ∈ recovery ↔ recovered = true ∧ SkippedFor s.state sending.resourceId x := by
  have hstate : ∀ x ∈ s.state.providesOf sending.resourceId, ∃ rs,
      s.state.resourceState.get? x = some rs := fun x hx =>
    Dict.mem_iff.mp (hv.closed x _ (ModelState.mem_providesOf.mp hx)).1
  have hevents : ∃ events, filterOk s.isEventListener (s.state.providesOf sending.resourceId)
      = .ok events ∧ ∀ x, x ∈ events ↔ x ∈ s.state.providesOf sending.resourceId
        ∧ ∃ i, s.state.intent.get? x = some i ∧ s.state.blocked? x = some .notBlocked
          ∧ i.attributes.receivesEvents = true := by
    refine filterOk_ok fun x hx => ?_
    obtain ⟨rs, hrs⟩ := hstate x hx
    obtain ⟨i, hi⟩ := Dict.mem_iff.mp ((hv.intent x).mpr (Dict.mem_of_get? hrs))
    refine ⟨rs.blocked = .notBlocked && i.attributes.receivesEvents, ?_, ?_⟩
    · rw [isEventListener, hi]
      simp only [Dict.item_of_get? hrs, ok_bind, pure_eq_ok]
    · simp [hi, ModelState.blocked?_of_get? hrs]
  have hrecovery : ∃ recovery,
      filterOk s.isRecoveryListener (s.state.providesOf sending.resourceId) = .ok recovery
        ∧ ∀ x, x ∈ recovery ↔ x ∈ s.state.providesOf sending.resourceId
          ∧ s.state.blocked? x = some .temporarilyBlocked := by
    refine filterOk_ok fun x hx => ?_
    obtain ⟨rs, hrs⟩ := hstate x hx
    refine ⟨rs.blocked = .temporarilyBlocked, ?_, ?_⟩
    · rw [isRecoveryListener, Dict.item_of_get? hrs, ok_bind, pure_eq_ok]
    · simp [ModelState.blocked?_of_get? hrs]
  obtain ⟨events, he, hmem⟩ := hevents
  obtain ⟨recovery, hr, hmemr⟩ := hrecovery
  refine ⟨if staleDeploy || !sending.attributes.sendsEvents then [] else events,
    if recovered then recovery else [], ?_, ?_, ?_⟩
  · rw [eventListeners, he, hr]
    cases staleDeploy || !sending.attributes.sendsEvents <;> cases recovered <;> rfl
  · intro x hx
    split at hx
    · cases hx
    · obtain ⟨-, i, hi, hb, -⟩ := (hmem x).mp hx
      refine ⟨(hv.intent x).mp (Dict.mem_of_get? hi), fun hblk => ?_⟩
      cases hb.symm.trans hblk
  · intro x
    cases recovered with
    | false => simp
    | true =>
        rw [if_pos rfl, hmemr, ModelState.mem_providesOf, and_comm]
        exact (and_iff_right rfl).symm

/-- **Events can always be sent** while the task of the sender is in progress. -/
theorem sendEvents_ok (hv : s.state.Valid) (hw : s.work.Valid) {sending : ResourceIntent}
    (hr : sending.resourceId = r) (hp : Task.deploy r ∈ s.work.agentQueues.inProgress)
    (staleDeploy recovered : Bool) :
    ∃ s', s.sendEvents sending staleDeploy recovered = .ok s' ∧ EventsSent s r recovered s' := by
  obtain ⟨events, recovery, hl, hevents, hrecovery⟩ :=
    eventListeners_ok hv sending staleDeploy recovered
  rw [hr] at hrecovery
  obtain ⟨state, hstate, hsame, hblocked, hdirty⟩ := unblockAll_ok
    { s.state with dirty := s.state.dirty ∪ recovery } fun x hx =>
      ModelState.mem_resourceState_of_blocked? ((hrecovery x).mp hx).2.1
  let s₁ : Scheduler := { s with state }
  have hw₁ : s₁.work.Valid := hw
  have hlisten : ∀ x ∈ events ∪ recovery, s.state.Deployable x := by
    intro x hx
    rcases List.mem_union_iff.mp hx with hx | hx
    · exact hevents x hx
    · obtain ⟨-, hb, -⟩ := (hrecovery x).mp hx
      exact ⟨ModelState.mem_resourceState_of_blocked? hb, fun hblk => by cases hb.symm.trans hblk⟩
  have hsched : ∃ s', s₁.scheduleListeners r recovered (events ∪ recovery) = .ok s'
      ∧ Requested s₁ (events ∪ recovery) true s' := by
    unfold scheduleListeners
    split
    · rename_i hnil
      rw [hnil]
      exact ⟨s₁, rfl, .refl hw₁ true⟩
    · obtain ⟨priority, hprio⟩ := Dict.mem_iff.mp hp
      have hprio₁ : s₁.work.agentQueues.inProgress.get? (.deploy r) = some priority := hprio
      rw [hprio₁]
      exact schedule_ok hw₁ _ _ _ _
  obtain ⟨s', hs', h⟩ := hsched
  refine ⟨s', ?_, ?_⟩
  · rw [sendEvents, hl, ok_bind]
    refine bind_eq_ok.mpr ⟨state, hstate, ?_⟩
    rw [hr]
    exact hs'
  · refine ⟨?_, fun x => ?_, fun x => ?_, h.latest, h.unmanaged, h.workValid, h.keeps,
      fun x hx => ?_, h.inProgress, h.config, fun x hx => ?_⟩
    · rw [h.state]
      exact (SameButBlocked.setDirty _ _).trans hsame
    · rw [h.state]
      refine (hblocked x).trans ?_
      simp only [hrecovery]
      rfl
    · rw [h.state]
      show x ∈ state.dirty ↔ _
      rw [hdirty, List.mem_union_iff, hrecovery]
    · rcases h.new x hx with hx | hx | hx
      · exact Or.inl hx
      · exact Or.inr (Or.inl (hlisten x hx))
      · exact Or.inr (Or.inr hx)
    · by_cases hxl : x ∈ events ∪ recovery
      · exact Or.inr ((h.scheduled x hxl).resolve_right fun hf => Bool.false_ne_true hf.2.symm)
      · exact Or.inl ((h.armed x).mpr ⟨hx, hxl⟩)

end Scheduler

end Inmanta
