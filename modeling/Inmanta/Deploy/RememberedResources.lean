import Inmanta.Deploy.RegisteredDeploys

/-!
# Remembered resources

With a periodic repair, the scheduler may not forget a resource that is
to be deployed: it is scheduled, or a worker is at it, or its timer will
schedule it again. Tasks are dropped and timers are stopped in many
places, so each step remembers a resource for a reason of its own: what is
dirty is scheduled, what was deployed before gets a timer.

A new version loses a resource that it first blocks and then releases
again while it is dirty (`Drops`), and so does a start that fails. A first
deploy whose report is lost makes the resource look as if it needed
neither.
-/

namespace Inmanta

/-- The resource has been deployed before. -/
def ModelState.Dated (s : ModelState) (r : ResourceIdStr) : Prop :=
  ∃ rs, s.resourceState.get? r = some rs ∧ rs.lastDeployed ≠ none

theorem ModelState.dated_iff {s : ModelState} {r : ResourceIdStr} : s.Dated r ↔
    ∃ rs, (s.resourceState.get? r).map ResourceState.unblocked = some rs
      ∧ rs.lastDeployed ≠ none := by
  unfold ModelState.Dated
  cases s.resourceState.get? r <;> simp [ResourceState.unblocked]

theorem SameButBlocked.dated {s t : ModelState} (h : SameButBlocked s t) (r : ResourceIdStr) :
    t.Dated r ↔ s.Dated r := by
  rw [ModelState.dated_iff, h.state, ModelState.dated_iff]

/-- A resource that complies with its intent has been deployed. -/
def ModelState.DeployedDated (s : ModelState) : Prop :=
  ∀ r, s.compliance? r = some .compliant → s.Dated r

/-! ## New versions -/

namespace VersionUpdate

/-- The update blocks the resource, or blocks it once more, and releases it while it
is dirty: its new task is dropped as that of a blocked resource. -/
def Drops (u : VersionUpdate) (old : ModelState) (r : ResourceIdStr) : Prop :=
  ∃ edited, u.Edited old edited
    ∧ (Reached edited (u.becameUndefined old) u.addedRequires.keys r
      ∨ Cascaded edited (u.becameUndefined old) u.addedRequires.keys r)
    ∧ Released edited (u.becameUndefined old) u.addedRequires.keys
      (u.becameDefined old ∪ u.droppedRequires.keys) r
    ∧ edited.HasDirtyCompliance r

end VersionUpdate

namespace VersionTrace.Applied

variable {t : VersionTrace} {reason : String} {s s' : Scheduler} {w : VersionWrite}
  {r : ResourceIdStr}

theorem mem_dirty_settled (h : t.Applied reason s s' w) : r ∈ t.settled.dirty ↔
    (r ∈ t.unblocked ∧ t.edited.HasDirtyCompliance r) ∨ (r ∈ t.edited.dirty ∧ r ∉ t.blocked) := by
  rw [h.settled.dirty, h.propagated.dirty]

/-- What can be deployed in the end and was blocked on the way was released. -/
theorem unblocked_of_deployable (h : t.Applied reason s s' w) (hd : s'.state.Deployable r)
    (hb : r ∈ t.blocked ∨ t.edited.IsBlocked r) : r ∈ t.unblocked := by
  by_contra hno
  have hdel := h.not_mem_deleted hd.1
  refine hd.2 ?_
  rw [ModelState.IsBlocked, h.blocked?_state hdel]
  refine h.isBlocked_settled.mpr ?_
  rw [ModelState.IsBlocked, h.propagated.blocked, if_neg hno]
  split
  · rfl
  · next hnb => exact hb.resolve_left hnb

/-- Nothing that can be deployed in the end loses its task, unless it is dropped. -/
theorem not_undeployable (hc : s.Consistent) (h : t.Applied reason s s' w)
    (hd : s'.state.Deployable r) (hb : r ∉ t.blocked) : r ∉ t.undeployable s.state := by
  have hdel := h.not_mem_deleted hd.1
  have hund : r ∉ t.update.becameUndefined s.state := fun hu => by
    obtain ⟨hch, hmem, -⟩ := VersionUpdate.mem_becameUndefined.mp hu
    refine hd.2 ((h.consistent hc).undefined r ?_)
    rw [ModelState.IsUndefined, h.compliance?_changed hch, if_pos hmem]
  show r ∉ t.update.deleted ∪ t.update.becameUndefined s.state ∪ t.blocked
  simp only [List.mem_union_iff, not_or]
  exact ⟨⟨hdel, hund⟩, hb⟩

/-- A resource that is dirty is scheduled, or in progress for the latest intent. -/
theorem isScheduled_of_settled_dirty (hc : s.Consistent) (h : t.Applied reason s s' w)
    (hd : s'.state.Deployable r) (hdirty : r ∈ t.settled.dirty)
    (hno : ¬ t.update.Drops s.state r) (hl : r ∉ s'.deployingLatest) : s'.work.IsScheduled r := by
  have hb : r ∉ t.blocked := fun hb => by
    rcases h.mem_dirty_settled.mp hdirty with ⟨hu, hdc⟩ | ⟨-, hnb⟩
    · exact hno ⟨t.edited, h.edited, h.propagated.sound r hb, (h.propagated.unblocked r).mp hu, hdc⟩
    · exact hnb hb
  refine h.isScheduled ?_ (h.not_undeployable hc hd hb)
  by_cases hs : s.work.IsScheduled r
  · exact (h.deployed.scheduled r).mpr (Or.inl hs)
  · exact (h.deployed.scheduled r).mpr (Or.inr (Or.inl ⟨hdirty, hs, hl⟩))

/-- A changed resource that can be deployed is dirty. -/
theorem dirty_of_changed (hc : s.Consistent) (h : t.Applied reason s s' w)
    (hd : s'.state.Deployable r) (hch : t.update.Changes r) : r ∈ t.settled.dirty := by
  have hcompl : t.edited.compliance? r = some .hasUpdate := by
    have hst := h.compliance?_changed hch
    rw [← h.compliance?_state hch.not_deleted, hst]
    split
    · next hund =>
      refine absurd ((h.consistent hc).undefined r ?_) hd.2
      rw [ModelState.IsUndefined, hst, if_pos hund]
    · rfl
  have hdc : t.edited.HasDirtyCompliance r := ⟨_, hcompl, rfl⟩
  rw [h.mem_dirty_settled]
  by_cases hu : r ∈ t.unblocked
  · exact Or.inl ⟨hu, hdc⟩
  · have hnb : r ∉ t.blocked := fun hb => hu (h.unblocked_of_deployable hd (Or.inl hb))
    refine Or.inr ⟨(h.edited.dirtyChanged r hch).mpr ?_, hnb⟩
    have hnot : ¬ t.edited.IsBlocked r := fun hb => hu (h.unblocked_of_deployable hd (Or.inr hb))
    rw [ModelState.IsBlocked, ModelState.blocked?_of_get? (h.edited.stateChanged r hch)] at hnot
    have htemp : (t.update.newState s.state r).blocked ≠ .temporarilyBlocked :=
      VersionUpdate.newState_blocked r
    cases hst : (t.update.newState s.state r).blocked with
    | notBlocked => rfl
    | blocked => exact absurd (congrArg some hst) hnot
    | temporarilyBlocked => exact absurd hst htemp

theorem dated_unchanged (h : t.Applied reason s s' w) (hr : r ∉ t.update.deleted)
    (hch : ¬ t.update.Changes r) : s'.state.Dated r ↔ s.state.Dated r := by
  rw [ModelState.Dated, h.get?_state hr]
  refine (h.settled.same.dated r).trans ((h.propagated.same.dated r).trans ?_)
  rw [ModelState.Dated, h.edited.stateOther r hch, ModelState.Dated]
  split
  · cases s.state.resourceState.get? r <;> simp
  · rfl

/-- What stays deployable and was not released was deployable before. -/
theorem deployable_before (h : t.Applied reason s s' w) (hd : s'.state.Deployable r)
    (hch : ¬ t.update.Changes r) (hu : r ∉ t.unblocked) : s.state.Deployable r := by
  have hdel := h.not_mem_deleted hd.1
  have hmem : r ∈ t.edited.resourceState := h.mem_settled.mp (h.state.mem_resourceState.mp hd.1).2
  refine ⟨((h.edited.mem r).mp hmem).resolve_left hch, fun hb => hu ?_⟩
  refine h.unblocked_of_deployable hd (Or.inr ?_)
  rw [ModelState.IsBlocked, h.blocked?_edited hch, if_neg]
  · exact hb
  · exact fun hrec => by cases hrec.2.1.symm.trans hb

/-- A new version schedules what can be deployed, or arms its timer, or leaves it
as it was. -/
theorem remembers (hc : s.Consistent) (hrep : s.timers.periodicRepairInterval ≠ none)
    (hdated : s.state.DeployedDated) (h : t.Applied reason s s' w) (hd : s'.state.Deployable r)
    (hno : ¬ t.update.Drops s.state r) (hl : r ∉ s'.deployingLatest) :
    s'.work.IsScheduled r ∨ s'.timers.IsArmed r ∨ (s.state.Deployable r
      ∧ ¬ s.work.IsScheduled r ∧ ¬ s.timers.IsArmed r ∧ r ∉ s.deployingLatest
      ∧ (s.state.Dated r → s'.state.Dated r)) := by
  by_cases hdirty : r ∈ t.settled.dirty
  · exact Or.inl (h.isScheduled_of_settled_dirty hc hd hdirty hno hl)
  have hdel := h.not_mem_deleted hd.1
  have hch : ¬ t.update.Changes r := fun hch => hdirty (h.dirty_of_changed hc hd hch)
  obtain ⟨rs, hrs⟩ := Dict.mem_iff.mp hd.1
  have hnb : rs.blocked ≠ .blocked := fun hb => hd.2 (ModelState.isBlocked_iff.mpr ⟨rs, hrs, hb⟩)
  have hsettled := (h.get?_state hdel).symm.trans hrs
  by_cases hu : r ∈ t.unblocked
  · -- clean, so it was deployed before
    have hclean : ¬ t.edited.HasDirtyCompliance r := fun hdc =>
      hdirty (h.mem_dirty_settled.mpr (Or.inl ⟨hu, hdc⟩))
    have hcompl : s.state.compliance? r = some .compliant := by
      have hst := ModelState.compliance?_of_get? hrs
      have hold := (h.compliance?_unchanged hdel hch).symm.trans hst
      cases hcase : rs.compliance with
      | compliant => exact hold.trans (congrArg some hcase)
      | undefined =>
          exact absurd ((h.consistent hc).undefined r (hst.trans (congrArg some hcase))) hd.2
      | _ =>
          refine absurd ⟨rs.compliance, ?_, by rw [hcase]; rfl⟩ hclean
          exact (h.compliance?_state hdel).symm.trans hst
    obtain ⟨rs', hrs', hne⟩ := (h.dated_unchanged hdel hch).mpr (hdated r hcompl)
    obtain rfl := Option.some.inj (hrs.symm.trans hrs')
    exact Or.inr (Or.inl (h.armed hrep r rs hsettled hnb (Or.inr ⟨Or.inl hu, hdirty, hne⟩)))
  · have hb : r ∉ t.blocked := fun hb => hu (h.unblocked_of_deployable hd (Or.inl hb))
    have hund := h.not_undeployable hc hd hb
    by_cases hs : s.work.IsScheduled r
    · exact Or.inl (h.isScheduled ((h.deployed.scheduled r).mpr (Or.inl hs)) hund)
    by_cases ha : s.timers.IsArmed r
    · exact Or.inr (Or.inl (h.armed hrep r rs hsettled hnb (Or.inl ⟨ha, hdirty, hund⟩)))
    · refine Or.inr (Or.inr ⟨h.deployable_before hd hch hu, hs, ha, fun hlat => hl ?_,
        (h.dated_unchanged hdel hch).mpr⟩)
      exact (h.latest r).mpr ⟨hlat, fun hx => (VersionUpdate.mem_changes.mp hx).elim hch hdel, hb⟩

theorem deployedDated (hdated : s.state.DeployedDated) (h : t.Applied reason s s' w) :
    s'.state.DeployedDated := by
  intro r hr
  obtain ⟨rs, hrs, -⟩ := Option.map_eq_some_iff.mp hr
  have hdel := h.not_mem_deleted (Dict.mem_of_get? hrs)
  by_cases hch : t.update.Changes r
  · rw [h.compliance?_changed hch] at hr
    split at hr <;> simp at hr
  · rw [h.compliance?_unchanged hdel hch] at hr
    exact (h.dated_unchanged hdel hch).mpr (hdated r hr)

end VersionTrace.Applied

/-! ## Reports -/

namespace Scheduler

variable {s s' : Scheduler} {r x : ResourceIdStr} {deploy : DeployIntent} {report : DeployReport}
  {finished : Time} {res : Except PyError ResourceState}

theorem EventsSent.deployable {recovered : Bool} (h : EventsSent s r recovered s')
    (x : ResourceIdStr) : s'.state.Deployable x ↔ s.state.Deployable x := by
  rw [ModelState.Deployable, h.same.mem_resourceState, ModelState.Deployable,
    ModelState.IsBlocked, h.blocked, ModelState.IsBlocked]
  split
  · next hskip =>
    rw [hskip.2.1]
    simp
  · rfl

theorem deployable_congr {s s' : ModelState}
    (h : s'.resourceState.get? x = s.resourceState.get? x) :
    (s'.Deployable x ↔ s.Deployable x) ∧ (s'.Dated x ↔ s.Dated x) := by
  refine ⟨?_, by rw [ModelState.Dated, h, ModelState.Dated]⟩
  rw [ModelState.Deployable, ModelState.IsBlocked, ModelState.blocked?, Dict.mem_iff, h,
    ← Dict.mem_iff, ModelState.Deployable, ModelState.IsBlocked, ModelState.blocked?]

/-- A report does not decide whether other resources can be deployed. -/
theorem Reported.deployable_other (h : Reported s deploy report finished s' res)
    (hx : x ≠ report.resourceId) : (s'.state.Deployable x ↔ s.state.Deployable x)
      ∧ (s'.state.Dated x ↔ s.state.Dated x) := by
  have hset : ∀ st, (s.state.setState report.resourceId st).resourceState.get? x =
      s.state.resourceState.get? x := fun st => (Dict.get?_set _ _ _ _).trans (if_neg hx)
  cases h with
  | unmanaged _ => exact ⟨Iff.rfl, Iff.rfl⟩
  | stale _ _ _ _ _ he _ =>
      obtain ⟨hd, hl⟩ := deployable_congr (hset _)
      exact ⟨(he.deployable x).trans hd, (he.same.dated x).trans hl⟩
  | lost _ _ _ _ _ _ => exact deployable_congr (hset _)
  | latest _ _ _ _ _ _ _ hland he _ =>
      obtain ⟨hd, hl⟩ := deployable_congr (hland.other x hx)
      exact ⟨(he.deployable x).trans hd, (he.same.dated x).trans hl⟩

/-- A deploy that is reported counts as the last one, unless the report is lost, which
makes no difference to whether the resource can be deployed, or was before. -/
theorem Reported.dated (h : Reported s deploy report finished s' res) :
    s'.state.Dated report.resourceId
      ∨ ((report.resourceId ∉ s.state.intent ∨ report.resourceId ∈ s.deployingUnmanaged
          ∨ report.resourceId ∉ s.deployingLatest)
        ∧ (s'.state.Deployable report.resourceId → s.state.Deployable report.resourceId)
        ∧ (s.state.Dated report.resourceId → s'.state.Dated report.resourceId)) := by
  cases h with
  | unmanaged hun => exact Or.inr ⟨hun.imp_right Or.inl, id, id⟩
  | stale _ _ _ _ _ he _ =>
      refine Or.inl ((he.same.dated _).mpr ⟨_, (Dict.get?_set _ _ _ _).trans (if_pos rfl), ?_⟩)
      simp [staleState]
  | lost hi hun hrs hhash hund hl =>
      refine Or.inr ⟨Or.inr (Or.inr hl), fun hd => ⟨Dict.mem_of_get? hrs, fun hb => hd.2 ?_⟩, ?_⟩
      · rw [ModelState.IsBlocked, ModelState.blocked?_of_get? hrs] at hb
        refine ModelState.isBlocked_iff.mpr ⟨_, (Dict.get?_set _ _ _ _).trans (if_pos rfl), ?_⟩
        exact Option.some.inj hb
      · rintro ⟨rs', hrs', hne⟩
        obtain rfl := Option.some.inj (hrs.symm.trans hrs')
        exact ⟨_, (Dict.get?_set _ _ _ _).trans (if_pos rfl), hne⟩
  | latest _ _ _ _ _ _ _ hland he _ =>
      refine Or.inl ((he.same.dated _).mpr ⟨_, hland.own, ?_⟩)
      simp [landedState]

/-- A lost report of a first deploy makes the resource look deployed. -/
theorem Reported.deployedDated (h : Reported s deploy report finished s' res)
    (hlost : s.TakesLatest deploy report.resourceId → report.resourceId ∉ s.deployingLatest →
      landedCompliance report = .compliant → s.state.Dated report.resourceId)
    (hdated : s.state.DeployedDated) : s'.state.DeployedDated := by
  intro x hx
  by_cases hxr : x = report.resourceId
  · subst hxr
    cases h with
    | unmanaged _ => exact hdated _ hx
    | stale _ _ _ _ _ he _ =>
        refine (he.same.dated _).mpr ⟨_, (Dict.get?_set _ _ _ _).trans (if_pos rfl), ?_⟩
        simp [staleState]
    | @lost i rs hi hun hrs hhash hund hl =>
        let st : ResourceState := { rs with compliance := landedCompliance report }
        have hst : (s.state.setState report.resourceId st).resourceState.get? report.resourceId
            = some st := (Dict.get?_set _ _ _ _).trans (if_pos rfl)
        have hcompl := ModelState.compliance?_of_get? hst
        obtain ⟨rs', hrs', hne⟩ := hlost ⟨⟨_, hi, hhash⟩, (not_isUndefined_iff hrs).mpr hund, hun⟩ hl
          (Option.some.inj (hcompl.symm.trans hx))
        obtain rfl := Option.some.inj (hrs.symm.trans hrs')
        exact ⟨st, hst, hne⟩
    | latest _ _ _ _ _ _ _ hland he _ =>
        refine (he.same.dated _).mpr ⟨_, hland.own, ?_⟩
        simp [landedState]
  · rw [h.compliance?_other hxr] at hx
    exact (h.deployable_other hxr).2.mpr (hdated x hx)

theorem Reported.armed (h : Reported s deploy report finished s' res)
    (ha : s.timers.IsArmed x) : s'.timers.IsArmed x ∨ s'.work.IsScheduled x := by
  cases h with
  | unmanaged _ => exact Or.inl ha
  | stale _ _ _ _ _ he _ => exact he.armed x ha
  | lost _ _ _ _ _ _ => exact Or.inl ha
  | latest _ _ _ _ _ _ _ hland he _ => exact he.armed x (hland.timers ▸ ha)

theorem Reported.config (h : Reported s deploy report finished s' res) :
    TimerManager.SameConfig s.timers s'.timers := by
  cases h with
  | unmanaged _ => exact .refl _
  | stale _ _ _ _ _ he _ => exact he.config
  | lost _ _ _ _ _ _ => exact .refl _
  | latest _ _ _ _ _ _ _ hland he _ => exact hland.timers ▸ he.config

end Scheduler

/-! ## Runs -/

/-- The end of the deploy is still to come, and with it its timer. -/
def DeployPhase.Ends : DeployPhase → Prop
  | .over => False
  | _ => True

namespace System

variable {s s' : System} {a : Action} {r : ResourceIdStr}

/-- Every resource that can be deployed is scheduled, or in progress, or its timer is
armed; and no other resource is scheduled. -/
structure NothingForgotten (s : System) : Prop where
  remembered : ∀ r, s.scheduler.state.Deployable r → s.scheduler.work.IsScheduled r
    ∨ Task.deploy r ∈ s.scheduler.work.agentQueues.inProgress ∨ s.scheduler.timers.IsArmed r
  scheduled : ∀ r, s.scheduler.work.IsScheduled r → s.scheduler.state.Deployable r

/-- What remembers a resource. A deploy in progress does so until it starts, and as
long as it is for the latest intent; later only if the resource has been deployed,
for only then the end of the deploy arms its timer. -/
def Remembers (s : System) (r : ResourceIdStr) : Prop :=
  s.scheduler.work.IsScheduled r ∨ s.scheduler.timers.IsArmed r
    ∨ r ∈ s.scheduler.deployingLatest ∨ s.progress.get? r = some .picked
    ∨ (s.scheduler.state.Dated r ∧ ∃ phase, s.progress.get? r = some phase ∧ phase.Ends)

structure Remembering (s : System) : Prop where
  enrolled : s.Enrolled
  interval : s.scheduler.timers.periodicRepairInterval ≠ none
  deployed : s.scheduler.state.DeployedDated
  remembered : ∀ r, s.scheduler.state.Deployable r → s.Remembers r

theorem Remembering.init {timers : TimerManager} (complianceReporting : Bool)
    (h : timers.periodicRepairInterval ≠ none) :
    (System.init timers complianceReporting).Remembering where
  enrolled := .init timers complianceReporting
  interval := h
  deployed := fun _ h => by cases h
  remembered := fun r h => absurd h.1 (Dict.not_mem_empty r)

theorem Remembering.nothingForgotten (h : s.Remembering) : s.NothingForgotten where
  remembered := fun r hr => by
    have hprog : ∀ {phase}, s.progress.get? r = some phase →
        Task.deploy r ∈ s.scheduler.work.agentQueues.inProgress := fun hp =>
      (h.enrolled.consistent.progress r).mp (Dict.mem_of_get? hp)
    rcases h.remembered r hr with hs | ha | hl | hp | ⟨-, phase, hp, -⟩
    · exact Or.inl hs
    · exact Or.inr (Or.inr ha)
    · obtain ⟨deploy, hp, -⟩ := h.enrolled.latest r hl
      exact Or.inr (Or.inl (hprog hp))
    · exact Or.inr (Or.inl (hprog hp))
    · exact Or.inr (Or.inl (hprog hp))
  scheduled := h.enrolled.consistent.scheduler.scheduled

/-- A step that touches neither the resource nor its deploy. -/
theorem Remembers.of_same (h : s.Remembers r)
    (hs : s.scheduler.work.IsScheduled r → s'.scheduler.work.IsScheduled r)
    (ha : s.scheduler.timers.IsArmed r → s'.Remembers r)
    (hl : r ∈ s.scheduler.deployingLatest → r ∈ s'.scheduler.deployingLatest)
    (hd : s.scheduler.state.Dated r → s'.scheduler.state.Dated r)
    (hp : s'.progress.get? r = s.progress.get? r) : s'.Remembers r := by
  rcases h with h | h | h | h | ⟨h, hphase⟩
  · exact Or.inl (hs h)
  · exact ha h
  · exact Or.inr (Or.inr (Or.inl (hl h)))
  · exact Or.inr (Or.inr (Or.inr (Or.inl (hp.trans h))))
  · exact Or.inr (Or.inr (Or.inr (Or.inr ⟨hd h, hp ▸ hphase⟩)))

/-- The step loses no resource: a new version does not drop the task of a resource
that it blocks and releases, a deploy can start (or the resource is remembered
anyway), and the report of a first deploy is not lost. -/
def KeepsRemembered (s : System) : Action → Prop
  | .newVersion _ versions _ => ∀ u, s.scheduler.state.prepare versions [] = .ok u →
      ∀ r, ¬ u.Drops s.scheduler.state r
  | .deployStart r _ reachable => s.scheduler.state.Deployable r →
      if s.DependenciesFail r then
        s.scheduler.work.IsScheduled r ∨ s.scheduler.timers.IsArmed r
      else reachable = true
  | .deployReport report _ => ∀ deploy,
      s.progress.get? report.resourceId = some (.started deploy) →
      s.scheduler.TakesLatest deploy report.resourceId →
      report.resourceId ∉ s.scheduler.deployingLatest →
      Scheduler.landedCompliance (s.scheduler.enforceComplianceReportingEntitlement report)
        = .compliant →
      s.scheduler.state.Dated report.resourceId
  | _ => True

theorem KeepsRemembered.writesStart (h : s.KeepsRemembered a) : s.WritesStart a := by
  cases a with
  | deployStart r _ _ =>
      intro hd hno
      have h := h hd
      rwa [if_neg hno] at h
  | _ => trivial

theorem Remembering.newVersion (h : s.Remembering) {t : VersionTrace} {reason : String}
    {scheduler : Scheduler} {w : VersionWrite} {pendingWrite : Option VersionWrite}
    {rows : PersistentStates} (ht : t.Applied reason s.scheduler scheduler w)
    (hno : ∀ r, ¬ t.update.Drops s.scheduler.state r)
    (he : System.Enrolled { s with scheduler, pendingWrite, rows }) :
    System.Remembering { s with scheduler, pendingWrite, rows } := by
  have hc := h.enrolled.consistent.scheduler
  refine ⟨he, ?_, ht.deployedDated h.deployed, fun r hr => ?_⟩
  · rw [ht.config.repair]
    exact h.interval
  by_cases hl : r ∈ scheduler.deployingLatest
  · exact Or.inr (Or.inr (Or.inl hl))
  rcases ht.remembers hc h.interval h.deployed hr (hno r) hl with
    hs | ha | ⟨hd, hns, hna, hl', hdated⟩
  · exact Or.inl hs
  · exact Or.inr (Or.inl ha)
  · exact (h.remembered r hd).of_same (fun hs => absurd hs hns) (fun ha => absurd ha hna)
      (fun hl => absurd hl hl') hdated rfl

theorem Remembering.reported (h : s.Remembering) {report : DeployReport} {finished : Time}
    {intent : DeployIntent} {scheduler : Scheduler} {result : Except PyError ResourceState}
    {phase : DeployPhase} (hphase : phase.Ends)
    (hph : s.progress.get? report.resourceId = some (.started intent))
    (hgood : s.KeepsRemembered (.deployReport report finished))
    (hrep : s.scheduler.Reported intent (s.scheduler.enforceComplianceReportingEntitlement report)
      finished scheduler result)
    (he : System.Enrolled { s.setPhase report.resourceId phase with scheduler }) :
    System.Remembering { s.setPhase report.resourceId phase with scheduler } := by
  obtain ⟨hlatest, -⟩ := h.enrolled.mem_sets hph hrep
  refine ⟨he, ?_, hrep.deployedDated ?_ h.deployed, fun x hx => ?_⟩
  · rw [hrep.config.repair]
    exact h.interval
  · rw [enforce_resourceId]
    exact hgood intent hph
  by_cases hxr : x = report.resourceId
  · subst hxr
    have hself : (s.progress.set report.resourceId phase).get? report.resourceId = some phase :=
      (Dict.get?_set _ _ _ _).trans (if_pos rfl)
    have hdated := hrep.dated
    rw [enforce_resourceId] at hdated
    rcases hdated with hd | ⟨hwhy, hdep, hkeep⟩
    · exact Or.inr (Or.inr (Or.inr (Or.inr ⟨hd, phase, hself, hphase⟩)))
    rcases h.remembered _ (hdep hx) with hs | ha | hl | hp | ⟨hd, -⟩
    · exact Or.inl (hrep.keeps hs)
    · exact (hrep.armed ha).elim (fun ha => Or.inr (Or.inl ha)) Or.inl
    · -- a registered deploy is for a managed resource
      rcases hwhy with hno | hun | hno
      · exact absurd ((h.enrolled.consistent.scheduler.state.intent _).mpr (hdep hx).1) hno
      · exact absurd hun (h.enrolled.disjoint _ hl)
      · exact absurd hl hno
    · cases hph.symm.trans hp
    · exact Or.inr (Or.inr (Or.inr (Or.inr ⟨hkeep hd, phase, hself, hphase⟩)))
  · obtain ⟨hdep, hdated⟩ := hrep.deployable_other (x := x) (by rwa [enforce_resourceId])
    exact (h.remembered x (hdep.mp hx)).of_same hrep.keeps
      (fun ha => (hrep.armed ha).elim (fun ha => Or.inr (Or.inl ha)) Or.inl)
      (fun hl => (hlatest x).mpr ⟨hl, hxr⟩) hdated.mpr ((Dict.get?_set _ _ _ _).trans (if_neg hxr))

theorem Remembering.request (h : s.Remembering) {dirty rs : List ResourceIdStr}
    {scheduler : Scheduler} (hd : s.scheduler.DeployRequested dirty rs scheduler)
    (he : System.Enrolled { s with scheduler }) : System.Remembering { s with scheduler } := by
  have hreq := hd.requested
  have hstate := congrArg ModelState.resourceState hreq.state
  refine ⟨he, ?_, fun x hx => ?_, fun x hx => ?_⟩
  · rw [hreq.config.repair]
    exact h.interval
  · rw [ModelState.compliance?, hstate] at hx
    rw [ModelState.Dated, hstate]
    exact h.deployed x hx
  · have hx : s.scheduler.state.Deployable x :=
      (Scheduler.deployable_congr (congrArg (Dict.get? · x) hstate)).1.mp hx
    have hdated := (Scheduler.deployable_congr (congrArg (Dict.get? · x) hstate)).2.mpr
    refine (h.remembered x hx).of_same (hreq.keeps x) (fun ha => ?_) (fun hl => ?_) hdated rfl
    · by_cases hxr : x ∈ rs
      · rcases hreq.scheduled x hxr with hs | ⟨hl, -⟩
        · exact Or.inl hs
        · exact Or.inr (Or.inr (Or.inl (hreq.latest ▸ hl)))
      · exact Or.inr (Or.inl ((hreq.armed x).mpr ⟨ha, hxr⟩))
    · rw [hreq.latest]
      exact hl

/-- The end of a deploy arms the timer of a resource that has been deployed. -/
theorem Remembering.finished (h : s.Remembering) (hph : s.progress.get? r = some .written)
    (he : System.Enrolled { s.setPhase r .over with scheduler := s.scheduler.finishDeploy r }) :
    System.Remembering { s.setPhase r .over with scheduler := s.scheduler.finishDeploy r } := by
  obtain ⟨-, hs, -⟩ := Scheduler.finishDeploy_work h.enrolled.consistent.scheduler.work r
  have htimers : (s.scheduler.finishDeploy r).timers =
      (s.scheduler.state.resourceState.get? r).elim s.scheduler.timers
        (s.scheduler.timers.updateTimer r) := by
    rw [Scheduler.finishDeploy]
    cases s.scheduler.state.resourceState.get? r <;> rfl
  refine ⟨he, ?_, h.deployed, fun x hx => ?_⟩
  · show (s.scheduler.finishDeploy r).timers.periodicRepairInterval ≠ none
    rw [htimers]
    cases s.scheduler.state.resourceState.get? r with
    | none => exact h.interval
    | some rs =>
        rw [Option.elim_some, (TimerManager.updateTimer_spec _ _ _).config.repair]
        exact h.interval
  have hx : s.scheduler.state.Deployable x := hx
  by_cases hxr : x = r
  · subst hxr
    obtain ⟨rs, hrs⟩ : ∃ rs, s.scheduler.state.resourceState.get? x = some rs :=
      Dict.mem_iff.mp hx.1
    have hnb : rs.blocked ≠ .blocked := fun hb => hx.2 (ModelState.isBlocked_iff.mpr ⟨rs, hrs, hb⟩)
    have hu := TimerManager.updateTimer_spec s.scheduler.timers x rs
    have htimers : (s.scheduler.finishDeploy x).timers = s.scheduler.timers.updateTimer x rs := by
      rw [htimers, hrs, Option.elim_some]
    rw [← htimers] at hu
    rcases h.remembered x hx with h' | h' | h' | h' | ⟨⟨rs', hrs', hne⟩, -⟩
    · exact Or.inl ((hs x).mpr h')
    · exact Or.inr (Or.inl (hu.keeps hnb h.interval h'))
    · obtain ⟨deploy, hp, -⟩ := h.enrolled.latest x h'
      cases hph.symm.trans hp
    · cases hph.symm.trans h'
    · obtain rfl := Option.some.inj (hrs.symm.trans hrs')
      exact Or.inr (Or.inl (hu.armed h.interval hnb hne))
  · refine (h.remembered x hx).of_same (hs x).mpr (fun ha => Or.inr (Or.inl ?_)) id id
      ((Dict.get?_set _ _ _ _).trans (if_neg hxr))
    show (s.scheduler.finishDeploy r).timers.IsArmed x
    rw [htimers]
    cases s.scheduler.state.resourceState.get? r with
    | none => exact ha
    | some rs => exact ((TimerManager.updateTimer_spec _ _ _).other x hxr).mpr ha

/-- A step that only moves a deploy to another phase. -/
theorem Remembering.setPhase (h : s.Remembering) {phase : DeployPhase} {rows : PersistentStates}
    (hself : s.scheduler.state.Deployable r → s.Remembers r →
      System.Remembers { s.setPhase r phase with rows } r)
    (he : System.Enrolled { s.setPhase r phase with rows }) :
    System.Remembering { s.setPhase r phase with rows } := by
  refine ⟨he, h.interval, h.deployed, fun x hx => ?_⟩
  by_cases hxr : x = r
  · subst hxr
    exact hself hx (h.remembered x hx)
  · exact (h.remembered x hx).of_same id (fun ha => Or.inr (Or.inl ha)) id id
      ((Dict.get?_set _ _ _ _).trans (if_neg hxr))

theorem Remembering.step (h : s.Remembering) (hp : a.Permitted s) (hgood : s.KeepsRemembered a)
    (hs : s.step a = some s') : s'.Remembering := by
  have he := h.enrolled.step hp hgood.writesStart hs
  have hstep := stepped h.enrolled.consistent hp hs
  cases hstep with
  | newVersion _ hpr _ ht => exact h.newVersion ht (hgood _ hpr) he
  | writeVersion _ _ => exact ⟨he, h.interval, h.deployed, h.remembered⟩
  | request _ hd => exact h.request hd he
  | @picked agent q item r hq hitem hfree =>
      obtain ⟨hin, -⟩ := AgentQueues.queueGet_spec hq
      refine ⟨he, h.interval, h.deployed, fun x hx => ?_⟩
      by_cases hxr : x = r
      · subst hxr
        exact Or.inr (Or.inr (Or.inr (Or.inl ((Dict.get?_set _ _ _ _).trans (if_pos rfl)))))
      · have hne : Task.deploy x ≠ item.task := by
          rw [hitem]
          exact fun he => hxr (Task.deploy.inj he)
        exact (h.remembered x hx).of_same (Or.imp_right fun hw => (hin _).mpr ⟨hw, hne⟩)
          (fun ha => Or.inr (Or.inl ha)) id id ((Dict.get?_set _ _ _ _).trans (if_neg hxr))
  | other hq hitem =>
      obtain ⟨hin, -⟩ := AgentQueues.queueGet_spec hq
      refine ⟨he, h.interval, h.deployed, fun x hx => ?_⟩
      exact (h.remembered x hx).of_same
        (Or.imp_right fun hw => (hin _).mpr ⟨hw, (hitem x).symm⟩)
        (fun ha => Or.inr (Or.inl ha)) id id rfl
  | @notStarted r now reachable hph hwhy =>
      refine h.setPhase (fun hd hrem => ?_) he
      have hfail : s.DependenciesFail r := hwhy.resolve_left (not_not.mpr hd)
      have hsafe := hgood hd
      rw [if_pos hfail] at hsafe
      exact hsafe.imp_right Or.inl
  | @started r now reachable intent hph hd hi =>
      refine ⟨he, h.interval, h.deployed, fun x hx => ?_⟩
      by_cases hxr : x = r
      · exact Or.inr (Or.inr (Or.inl (List.mem_insert_iff.mpr (Or.inl hxr))))
      · exact (h.remembered x hx).of_same id (fun ha => Or.inr (Or.inl ha))
          (fun hl => List.mem_insert_iff.mpr (Or.inr hl)) id
          ((Dict.get?_set _ _ _ _).trans (if_neg hxr))
  | reported hph hrep => exact h.reported trivial hph hgood hrep he
  | @sent r intent report result finished hph =>
      refine h.setPhase (fun _ hrem => ?_) he
      rcases hrem with h' | h' | h' | h' | ⟨h', -⟩
      · exact Or.inl h'
      · exact Or.inr (Or.inl h')
      · exact Or.inr (Or.inr (Or.inl h'))
      · cases hph.symm.trans h'
      · exact Or.inr (Or.inr (Or.inr (Or.inr ⟨h', .written,
          (Dict.get?_set _ _ _ _).trans (if_pos rfl), trivial⟩)))
  | finished hph => exact h.finished hph he
  | @ended r q hph hq =>
      obtain ⟨hin, -⟩ := AgentQueues.taskDone_spec hq
      refine ⟨he, h.interval, h.deployed, fun x hx => ?_⟩
      have hsched : s.scheduler.work.IsScheduled x → (s.scheduler.setQueues q).work.IsScheduled x :=
        Or.imp_right (hin _).mpr
      by_cases hxr : x = r
      · subst hxr
        rcases h.remembered x hx with h' | h' | h' | h' | ⟨-, phase, h', hends⟩
        · exact Or.inl (hsched h')
        · exact Or.inr (Or.inl h')
        · exact Or.inr (Or.inr (Or.inl h'))
        · cases hph.symm.trans h'
        · obtain rfl := Option.some.inj (hph.symm.trans h')
          exact hends.elim
      · exact (h.remembered x hx).of_same hsched (fun ha => Or.inr (Or.inl ha)) id id
          ((Dict.get?_del _ _ _).trans (if_neg hxr))

/-- Nothing gets blocked where nothing becomes undefined and no requirement is added. -/
theorem not_blocks_of_nil {edited : ModelState} :
    ¬ (Reached edited [] [] r ∨ Cascaded edited [] [] r) := by
  have hprop : ∀ {x}, ¬ Propagated edited [] x := fun h => by
    induction h with
    | source hd _ _ => exact absurd hd List.not_mem_nil
    | step _ _ _ ih => exact ih
  have hback : ∀ {l x}, BackChecked edited [] l x → l ≠ [] := fun h => by
    cases h <;> simp
  rintro ((h | h) | h)
  · exact hprop h
  · exact hback h rfl
  · induction h with
    | source hd _ _ => exact hback hd rfl
    | step _ _ _ ih => exact ih

/-- A sufficient condition that can be evaluated: no version makes a resource undefined
or adds requirements, and deploys can start. -/
def LosesNothing (s : System) : Action → Prop
  | .newVersion _ versions _ => ∀ u, s.scheduler.state.prepare versions [] = .ok u →
      u.becameUndefined s.scheduler.state = [] ∧ u.addedRequires.keys = []
  | .deployStart r _ reachable => ¬ s.DependenciesFail r ∧ reachable = true
  | .deployReport report _ => report.resourceId ∈ s.scheduler.deployingLatest
  | _ => True

instance (s : System) : DecidablePred s.LosesNothing
  | .newVersion _ _ _ => inferInstanceAs (Decidable (∀ _, _ = _ → _ = _ ∧ _ = _))
  | .deployStart _ _ _ => inferInstanceAs (Decidable (¬ _ ∧ _ = _))
  | .deployReport _ _ => inferInstanceAs (Decidable (_ ∈ _))
  | .writeVersion _ | .deploy _ _ _ _ | .repair _ _ _ _ | .deployResource _ _ _ | .timerFires _
  | .queueGet _ | .sendDeployDone _ | .finishDeploy _ | .taskDone _ =>
      inferInstanceAs (Decidable True)

theorem LosesNothing.keepsRemembered (h : s.LosesNothing a) : s.KeepsRemembered a := by
  cases a with
  | newVersion _ _ _ =>
      rintro u hu r ⟨edited, -, hblocks, -, -⟩
      obtain ⟨hund, hreq⟩ := h u hu
      rw [hund, hreq] at hblocks
      exact not_blocks_of_nil hblocks
  | deployStart _ _ _ =>
      intro hd
      rw [if_neg h.1]
      exact h.2
  | deployReport _ _ => exact fun _ _ _ hno => absurd h hno
  | _ => trivial

/-! ### A requirement that is released -/

/-- A single resource is deployed, and deployed once more. -/
def deployTwice : List Action :=
  releaseAll [nullVersion 1 [("a", "h", [])] []]
    ++ deployNext "a" .failed HandlerResourceState.failed_ne_dry
    ++ [.repair "" .userRepair none none]
    ++ deployNext "a" .deployed HandlerResourceState.deployed_ne_dry
    ++ releaseAll [nullVersion 2 [("a", "i", [])] []]

/-- `d` is undefined at first. When it is not any more, `a` requires it. -/
def requireReleased : List Action :=
  releaseAll [nullVersion 1 [("d", "h", []), ("a", "h", [])] ["d"]]
    ++ releaseAll [nullVersion 2 [("d", "i", []), ("a", "h", ["d"])] []]

/-- **Nothing is forgotten**, with a periodic repair, in any state of a run of any
length, as long as no version drops the task of a dirty resource that it blocks
and releases, the deploys can start, and the report of no first deploy is lost. -/
theorem nothing_forgotten {timers : TimerManager} (complianceReporting : Bool)
    (hrepair : timers.periodicRepairInterval ≠ none) {as : List Action}
    (hok : Along step (fun s a => a.Permitted s) (init timers complianceReporting) as)
    (hgood : Along step KeepsRemembered (init timers complianceReporting) as) :
    Always step NothingForgotten (init timers complianceReporting) as := by
  have hstep : ∀ s a s', Remembering s → Action.Permitted s a ∧ KeepsRemembered s a →
      step s a = some s' → Remembering s' := fun s a s' h ha hs => h.step ha.1 ha.2 hs
  exact (always_of_step hstep (.init complianceReporting hrepair) (hok.and hgood)).imp
    fun s h => h.nothingForgotten

theorem nothing_forgotten_deployTwice : Always step NothingForgotten idle deployTwice := by
  have hgood : Along step LosesNothing idle deployTwice := by decide
  exact nothing_forgotten false (by decide) (by decide) (hgood.imp fun _ _ h => h.keepsRemembered)

/-- The second version schedules `a`, which is dirty, and blocks it until it gets to
`d`; then it drops the task of `a` as that of a blocked resource. -/
theorem requireReleased_forgets :
    Along step (fun s a => a.Permitted s) idle requireReleased
      ∧ ∃ s, run step idle requireReleased = some s ∧ ¬ s.NothingForgotten := by
  refine ⟨by decide, ?_⟩
  obtain ⟨s, hrun, hd, hs, hp, ha⟩ := exists_run_of_any step idle requireReleased (p := fun s =>
    s.scheduler.state.Deployable (nullResource "a")
      ∧ ¬ s.scheduler.work.IsScheduled (nullResource "a")
      ∧ ¬ Task.deploy (nullResource "a") ∈ s.scheduler.work.agentQueues.inProgress
      ∧ ¬ s.scheduler.timers.IsArmed (nullResource "a")) (by decide)
  refine ⟨s, hrun, fun h => ?_⟩
  rcases h.remembered _ hd with h | h | h
  · exact hs h
  · exact hp h
  · exact ha h

end System

end Inmanta
