import Inmanta.Deploy.TransitivePhases
import Inmanta.Deploy.VersionEdits
import Inmanta.Deploy.WorkReports

/-!
# What a new version does

`VersionTrace` names the states `newVersion` goes through, and
`VersionTrace.Applied` describes each of them in terms of the previous
one: the edited model (`VersionUpdate.Edited`), the propagation of the
blocked status (`UpdateSpec`), the reset of skipped dependants (`Reset`),
the new deploys (`Deployed`) and the deletions (`DroppedAll`).

`newVersion_spec` says that every call that returns has such a trace, and
`newVersion_terminates` that the call returns if the requires relation of
the new model is acyclic.
-/

namespace Inmanta

open TransitiveUpdate (UpdateSpec UpdateArgs updateTransitiveState_spec
  updateTransitiveState_terminates)

theorem SameButBlocked.valid {s t : ModelState} (h : SameButBlocked s t) (hv : s.Valid) :
    t.Valid where
  intent := fun r => by rw [h.intent, h.mem_resourceState, hv.intent]
  intentId := fun r i hi => hv.intentId r i (h.intent ▸ hi)
  requires := fun r => by rw [h.requires, h.mem_resourceState, hv.requires]
  agents := fun a r => by
    rw [ModelState.agentResources, h.resourcesByAgent, h.mem_resourceState]
    exact hv.agents a r
  closed := fun r d hd => by
    rw [h.mem_resourceState, h.mem_resourceState]
    rw [h.requiresOf] at hd
    exact hv.closed r d hd

theorem SameButBlocked.knownBad {s t : ModelState} (h : SameButBlocked s t)
    (r : ResourceIdStr) : t.KnownBad r ↔ s.KnownBad r := by
  have hst := congrArg (Option.map (·.lastHandlerRunCompliant)) (h.state r)
  simp only [Option.map_map, Function.comp_def, ResourceState.unblocked] at hst
  have hbad : ∀ m : ModelState, m.KnownBad r ↔
      (m.resourceState.get? r).map (·.lastHandlerRunCompliant) = some (some false) := fun m => by
    rw [ModelState.KnownBad, Option.map_eq_some_iff]
  rw [hbad, hbad, hst]

namespace ModelState

variable {s s' : ModelState} {r : ResourceIdStr}

/-! ## The reset of skipped dependants -/

/-- The resource was skipped for its dependencies, but none of them is known to
be bad. -/
def SkippedInVain (s : ModelState) (r : ResourceIdStr) : Prop :=
  s.blocked? r = some .temporarilyBlocked ∧ ∀ d ∈ s.requiresOf r, ¬ s.KnownBad d

instance (s : ModelState) (r : ResourceIdStr) : Decidable (s.SkippedInVain r) :=
  inferInstanceAs (Decidable (_ ∧ _))

/-- What the reset of some resources does. -/
structure Reset (s : ModelState) (rs : List ResourceIdStr) (s' : ModelState) : Prop where
  same : SameButBlocked s s'
  dirty : s'.dirty = s.dirty
  blocked : ∀ x, s'.blocked? x =
    if x ∈ rs ∧ s.SkippedInVain x then some .notBlocked else s.blocked? x

theorem resetSkipped_ok (hv : s.Valid) (hr : r ∈ s.resourceState) :
    ∃ s', s.resetSkipped r = .ok s' ∧ Reset s [r] s' := by
  obtain ⟨rs, hrs⟩ := Dict.mem_iff.mp hr
  obtain ⟨skip, hskip, hiff⟩ := shouldSkipForDependencies_ok (s := s) (r := r)
    fun d hd => (hv.closed r d hd).2
  have hb := blocked?_of_get? hrs
  unfold resetSkipped
  rw [Dict.item_of_get? hrs, ok_bind]
  by_cases ht : rs.blocked = .temporarilyBlocked
  · rw [if_neg (by simpa using ht), hskip, ok_bind]
    cases skip with
    | true =>
        refine ⟨s, rfl, .refl s, rfl, fun x => ?_⟩
        rw [if_neg]
        rintro ⟨hx, -, hno⟩
        obtain rfl := List.mem_singleton.mp hx
        obtain ⟨d, hd, hbad⟩ := hiff.mp rfl
        exact hno d hd hbad
    | false =>
        refine ⟨s.setBlocked r rs .notBlocked, rfl, .setBlocked hrs _, rfl, fun x => ?_⟩
        rw [blocked?_setBlocked]
        by_cases hx : x = r
        · subst hx
          rw [if_pos rfl, if_pos]
          refine ⟨List.mem_singleton.mpr rfl, hb.trans (congrArg some ht), fun d hd hbad => ?_⟩
          exact Bool.false_ne_true (hiff.mpr ⟨d, hd, hbad⟩)
        · rw [if_neg hx, if_neg fun h => hx (List.mem_singleton.mp h.1)]
  · rw [if_pos ht]
    refine ⟨s, rfl, .refl s, rfl, fun x => ?_⟩
    rw [if_neg]
    rintro ⟨hx, htx, -⟩
    obtain rfl := List.mem_singleton.mp hx
    rw [hb] at htx
    exact ht (Option.some.inj htx)

theorem Reset.skippedInVain {rs : List ResourceIdStr} (h : Reset s rs s') (x : ResourceIdStr) :
    s'.SkippedInVain x ↔ s.SkippedInVain x ∧ x ∉ rs := by
  unfold SkippedInVain
  rw [h.blocked]
  simp only [h.same.requiresOf, h.same.knownBad]
  by_cases hx : x ∈ rs ∧ s.SkippedInVain x
  · rw [if_pos hx]
    simp [hx.1]
  · rw [if_neg hx]
    refine ⟨fun hv => ⟨hv, fun hxr => hx ⟨hxr, hv⟩⟩, And.left⟩

theorem resetAll_ok {rs : List ResourceIdStr} (hv : s.Valid) (hrs : ∀ r ∈ rs, r ∈ s.resourceState) :
    ∃ s', rs.foldlM resetSkipped s = .ok s' ∧ Reset s rs s' := by
  refine foldlM_ok (ε := PyError) (I := fun pre s' => Reset s pre s') ?_
    ⟨.refl s, rfl, by simp⟩
  intro pre y post s₁ hl hI
  obtain ⟨s₂, h₂, hr⟩ := resetSkipped_ok (hI.same.valid hv)
    (hI.same.mem_resourceState.mpr (hrs y (by simp [hl])))
  refine ⟨s₂, h₂, hI.same.trans hr.same, hr.dirty.trans hI.dirty, fun x => ?_⟩
  simp only [hr.blocked, hI.skippedInVain, hI.blocked, List.mem_append, List.mem_singleton]
  by_cases hx : x ∈ pre ∧ s.SkippedInVain x
  · rw [if_pos hx, if_pos (⟨Or.inl hx.1, hx.2⟩ : _ ∧ _)]
    split <;> rfl
  · rw [if_neg hx]
    refine if_congr ?_ rfl rfl
    constructor
    · rintro ⟨hxy, hv, -⟩
      exact ⟨Or.inr hxy, hv⟩
    · rintro ⟨hxp | hxy, hv⟩
      · exact absurd ⟨hxp, hv⟩ hx
      · exact ⟨hxy, hv, fun hxp => hx ⟨hxp, hv⟩⟩

/-! ## Dropping the deleted resources -/

/-- What dropping some resources does. -/
structure DroppedAll (s : ModelState) (ds : List ResourceIdStr) (s' : ModelState) : Prop where
  valid : s'.Valid
  version : s'.version = s.version
  resourceSets : s'.resourceSets = s.resourceSets
  intent : ∀ x, s'.intent.get? x = if x ∈ ds then none else s.intent.get? x
  state : ∀ x, s'.resourceState.get? x = if x ∈ ds then none else s.resourceState.get? x
  requiresOf : ∀ x d, d ∈ s'.requiresOf x ↔ x ∉ ds ∧ d ∉ ds ∧ d ∈ s.requiresOf x
  dirty : ∀ x, x ∈ s'.dirty ↔ x ∈ s.dirty ∧ ¬ (x ∈ ds ∧ x ∈ s.resourceState)

theorem dropAll_ok (hv : s.Valid) (ds : List ResourceIdStr) :
    ∃ s', ds.foldlM dropDeleted s = .ok s' ∧ DroppedAll s ds s' := by
  refine foldlM_ok (ε := PyError) (I := fun pre s' => DroppedAll s pre s') ?_
    ⟨hv, rfl, rfl, by simp, by simp, by simp, by simp⟩
  intro pre y post s₁ _ hI
  unfold dropDeleted
  by_cases hy : y ∈ s₁.resourceState
  · obtain ⟨s₂, h₂, hd⟩ := drop_ok hI.valid hy
    refine ⟨s₂, by rw [if_pos hy, h₂], hd.valid hI.valid, hd.version.trans hI.version,
      hd.resourceSets.trans hI.resourceSets, fun x => ?_, fun x => ?_, fun x d => ?_, fun x => ?_⟩
    · rw [hd.intent, hI.intent]
      by_cases hx : x = y <;> simp [hx]
    · rw [hd.state, hI.state]
      by_cases hx : x = y <;> simp [hx]
    · rw [hd.requiresOf, hI.requiresOf]
      simp only [List.mem_append, List.mem_singleton, not_or]
      tauto
    · rw [hd.dirty, hI.dirty]
      have hys : y ∈ s.resourceState := by
        rw [Dict.mem_iff, hI.state] at hy
        split at hy
        · simp at hy
        · exact Dict.mem_iff.mpr hy
      simp only [List.mem_append, List.mem_singleton]
      constructor
      · rintro ⟨⟨hx, hno⟩, hxy⟩
        exact ⟨hx, fun h => h.1.elim (fun hp => hno ⟨hp, h.2⟩) hxy⟩
      · rintro ⟨hx, hno⟩
        exact ⟨⟨hx, fun h => hno ⟨Or.inl h.1, h.2⟩⟩, fun e => hno ⟨Or.inr e, e ▸ hys⟩⟩
  · -- not managed (any more), so nothing mentions it
    have hgone : y ∈ pre ∨ y ∉ s.resourceState := by
      by_cases hp : y ∈ pre
      · exact Or.inl hp
      · refine Or.inr fun hys => hy ?_
        rw [Dict.mem_iff, hI.state, if_neg hp]
        exact Dict.mem_iff.mp hys
    have hnone : ∀ x, x = y → s₁.resourceState.get? x = none :=
      fun x hx => Dict.not_mem_iff.mp (hx ▸ hy)
    have hnoneI : ∀ x, x = y → s₁.intent.get? x = none :=
      fun x hx => Dict.not_mem_iff.mp fun h => hy ((hI.valid.intent y).mp (hx ▸ h))
    refine ⟨s₁, by rw [if_neg hy]; rfl, hI.valid, hI.version, hI.resourceSets, fun x => ?_,
      fun x => ?_, fun x d => ?_, fun x => ?_⟩
    · by_cases hx : x = y
      · rw [hnoneI x hx, if_pos (by simp [hx])]
      · rw [hI.intent]
        simp [hx]
    · by_cases hx : x = y
      · rw [hnone x hx, if_pos (by simp [hx])]
      · rw [hI.state]
        simp [hx]
    · simp only [List.mem_append, List.mem_singleton, not_or]
      constructor
      · intro hd
        obtain ⟨hx₁, hd₁⟩ := hI.valid.closed x d hd
        obtain ⟨hx, hdp, hds⟩ := (hI.requiresOf x d).mp hd
        exact ⟨⟨hx, fun e => hy (e ▸ hx₁)⟩, ⟨hdp, fun e => hy (e ▸ hd₁)⟩, hds⟩
      · rintro ⟨⟨hx, -⟩, ⟨hdp, -⟩, hds⟩
        exact (hI.requiresOf x d).mpr ⟨hx, hdp, hds⟩
    · rw [hI.dirty]
      refine and_congr_right fun _ => not_congr (and_congr_left fun hxs => ?_)
      simp only [List.mem_append, List.mem_singleton]
      refine (or_iff_left_of_imp ?_).symm
      rintro rfl
      exact hgone.resolve_right (not_not.mpr hxs)

theorem DroppedAll.mem_resourceState {ds : List ResourceIdStr} (h : DroppedAll s ds s')
    {x : ResourceIdStr} : x ∈ s'.resourceState ↔ x ∉ ds ∧ x ∈ s.resourceState := by
  rw [Dict.mem_iff, h.state, Dict.mem_iff]
  by_cases hx : x ∈ ds <;> simp [hx]

end ModelState

/-! ## The whole update -/

/-- What a sequence of released versions satisfies: it is not empty, its records
are well-formed, and the resulting model is closed under requires. -/
structure Releasable (s : ModelState) (versions : List ModelVersion) : Prop where
  nonempty : versions ≠ []
  wellFormed : ∀ v ∈ versions, v.WellFormed
  closed : ∀ u, s.prepare versions [] = .ok u → u.Closed s

instance (s : ModelState) (versions : List ModelVersion) : Decidable (Releasable s versions) :=
  decidable_of_iff (versions ≠ [] ∧ (∀ v ∈ versions, v.WellFormed)
      ∧ ∀ u, s.prepare versions [] = .ok u → u.Closed s)
    ⟨fun h => ⟨h.1, h.2.1, h.2.2⟩, fun h => ⟨h.1, h.2, h.3⟩⟩

/-- The states a new version goes through. `settled` is the model state for
which the deploys are scheduled, before the deleted resources are dropped, and
`deployed` the scheduled work before their tasks are. -/
structure VersionTrace where
  update : VersionUpdate
  edited : ModelState
  propagated : ModelState
  unblocked : List ResourceIdStr
  blocked : List ResourceIdStr
  resetRequires : List ResourceIdStr
  settled : ModelState
  deployed : ScheduledWork

namespace VersionTrace

/-- The request for the new deploys. -/
def request (t : VersionTrace) (deployingLatest : List ResourceIdStr) (reason : String) :
    DeployRequest :=
  ⟨t.settled.dirty, reason, .newVersionDeploy, deployingLatest, t.update.addedRequires,
    t.update.droppedRequires, false⟩

/-- The resources whose tasks are dropped. -/
def undeployable (t : VersionTrace) (old : ModelState) : List ResourceIdStr :=
  t.update.deleted ∪ t.update.becameUndefined old ∪ t.blocked

/-- What a new version does to the scheduler `s`. -/
structure Applied (t : VersionTrace) (reason : String) (s s' : Scheduler) (w : VersionWrite) :
    Prop where
  prepared : Prepared s.state t.update
  edited : t.update.Edited s.state t.edited
  propagated : UpdateSpec t.edited (t.update.becameUndefined s.state)
    t.update.addedRequires.keys
    (t.update.becameDefined s.state ∪ t.update.droppedRequires.keys)
    t.propagated t.unblocked t.blocked
  resetRequires : t.resetRequires = (t.update.forceNew s.state).flatMap t.propagated.providesOf
  settled : ModelState.Reset t.propagated t.resetRequires t.settled
  state : ModelState.DroppedAll t.settled t.update.deleted s'.state
  latest : ∀ r, r ∈ s'.deployingLatest ↔
    r ∈ s.deployingLatest ∧ r ∉ t.update.changes ∧ r ∉ t.blocked
  unmanaged : ∀ r, r ∈ s'.deployingUnmanaged ↔ r ∈ s.deployingUnmanaged
    ∨ (r ∈ s.deployingLatest ∧ (r ∈ t.update.new ∨ r ∈ t.update.deleted))
  deployed : Deployed s.work t.settled.requires (t.request s'.deployingLatest reason) t.deployed
  workValid : s'.work.Valid
  waiting : ∀ r, r ∈ s'.work.waiting ↔
    r ∈ t.deployed.waiting ∧ r ∉ t.undeployable s.state
  isQueued : ∀ r, s'.work.IsQueued r ↔ t.deployed.IsQueued r ∧ r ∉ t.undeployable s.state
  inProgress : ∀ x, x ∈ s'.work.agentQueues.inProgress ↔ x ∈ s.work.agentQueues.inProgress
  config : TimerManager.SameConfig s.timers s'.timers
  armed : s.timers.periodicRepairInterval ≠ none → ∀ r rs,
    t.settled.resourceState.get? r = some rs → rs.blocked ≠ .blocked →
    (s.timers.IsArmed r ∧ r ∉ t.settled.dirty ∧ r ∉ t.undeployable s.state)
      ∨ ((r ∈ t.unblocked ∨ r ∈ t.resetRequires) ∧ r ∉ t.settled.dirty
        ∧ rs.lastDeployed ≠ none) →
    s'.timers.IsArmed r
  complianceReporting :
    s'.complianceReportingFeatureEnabled = s.complianceReportingFeatureEnabled
  firstVersion : w.firstVersion = true ↔ s.state.version = 0
  writeIntent : ∀ r, r ∈ w.intent ↔ (t.update.Changes r
    ∨ r ∈ t.update.becameUndefined s.state ∨ r ∈ t.blocked ∨ r ∈ t.unblocked)
      ∧ r ∉ t.update.deleted
  orphans : w.orphans = t.update.orphans

/-- The propagation is called with the arguments it expects. -/
theorem updateArgs {u : VersionUpdate} {old edited : ModelState} (hp : Prepared old u)
    (hv : old.Valid) (he : u.Edited old edited) :
    UpdateArgs edited (u.becameUndefined old) u.addedRequires.keys
      (u.becameDefined old ∪ u.droppedRequires.keys) where
  closed := he.valid.closed
  undefined := by
    intro r hr
    obtain ⟨hc, hu, -⟩ := VersionUpdate.mem_becameUndefined.mp hr
    have hst := he.stateChanged r hc
    rw [ModelState.IsUndefined, ModelState.IsBlocked, ModelState.compliance?_of_get? hst,
      ModelState.blocked?_of_get? hst]
    unfold VersionUpdate.newState
    cases old.resourceState.get? r with
    | none => simp [ModelState.createdState, hu]
    | some rs =>
        simp only
        split
        · simp [ModelState.createdState, hu]
        · simp [ModelState.refreshedState, hu]
  verifyBlocked := by
    intro r hr
    have hr := (hp.mem_addedRequires.mp (Dict.mem_keys.mp hr)).1
    rw [he.mem, ← hv.intent]
    exact hp.changes_or_managed hr
  verifyUnblocked := by
    intro r hr
    rw [he.mem, ← hv.intent]
    rcases List.mem_union_iff.mp hr with hr | hr
    · exact Or.inl (VersionUpdate.mem_becameDefined.mp hr).1
    · exact hp.changes_or_managed (hp.mem_droppedRequires.mp (Dict.mem_keys.mp hr)).1

end VersionTrace

namespace Scheduler

variable {s s' : Scheduler} {fuel : ℕ} {versions : List ModelVersion} {reason : String}
  {w : Option VersionWrite}

/-- Everything after the propagation of the blocked status succeeds. -/
theorem finishVersion_ok (reason : String) {u : VersionUpdate} {edited propagated : ModelState}
    {unblocked blocked : List ResourceIdStr} (hv : s.state.Valid) (hw : s.work.Valid)
    (hp : Prepared s.state u) (he : u.Edited s.state edited)
    (hpr : s.state.prepare versions [] = .ok u) (hne : versions ≠ [])
    (hed : (s.state.updateSets u.model).updateIntent u [] .empty = .ok edited)
    (hprop : edited.updateTransitiveState fuel (u.becameUndefined s.state) u.addedRequires.keys
      (u.becameDefined s.state ∪ u.droppedRequires.keys) = .ok (propagated, unblocked, blocked)) :
    ∃ (t : VersionTrace) (s' : Scheduler) (w : VersionWrite),
      s.newVersion fuel versions [] .empty reason = .ok (s', some w)
        ∧ t.update = u ∧ t.Applied reason s s' w := by
  have hargs := VersionTrace.updateArgs hp hv he
  have hspec := updateTransitiveState_spec hargs hprop
  have hvp := hspec.same.valid he.valid
  let reset := (u.forceNew s.state).flatMap propagated.providesOf
  have hreset : ∀ r ∈ reset, r ∈ propagated.resourceState := by
    intro r hr
    obtain ⟨x, -, hx⟩ := List.mem_flatMap.mp hr
    exact (hvp.closed r x (ModelState.mem_providesOf.mp hx)).1
  obtain ⟨settled, hsettled, hr⟩ := ModelState.resetAll_ok hvp hreset
  let b : BlockedUpdate := ⟨settled, unblocked, blocked, reset⟩
  have hb : u.updateBlocked fuel s.state edited = .ok b := by
    rw [VersionUpdate.updateBlocked, hprop, ok_bind]
    exact bind_eq_ok.mpr ⟨settled, hsettled, rfl⟩
  let s₁ := s.trimDeploying u blocked
  -- the timers
  have hmem : ∀ r, r ∈ settled.resourceState ↔ r ∈ edited.resourceState := fun r =>
    hr.same.mem_resourceState.trans hspec.same.mem_resourceState
  have hunblocked : ∀ r ∈ unblocked, r ∈ settled.resourceState := by
    intro r hru
    refine hr.same.mem_resourceState.mpr (ModelState.mem_resourceState_of_blocked? (b := .notBlocked) ?_)
    rw [hspec.blocked, if_pos hru]
  obtain ⟨hc₁, ha₁⟩ := TimerManager.stopTimers_spec s.timers
    (settled.dirty ∪ u.becameUndefined s.state ∪ blocked)
  obtain ⟨hc₂, ha₂⟩ := TimerManager.removeTimers_spec
    (s.timers.stopTimers (settled.dirty ∪ u.becameUndefined s.state ∪ blocked)) u.deleted
  have hmanaged : ∀ r ∈ [] ∪ (unblocked ∪ reset).removeAll settled.dirty,
      r ∈ settled.resourceState := by
    intro r hru
    rw [List.nil_union, mem_removeAll, List.mem_union_iff] at hru
    exact hru.1.elim (hunblocked r) fun h => hr.same.mem_resourceState.mpr (hreset r h)
  obtain ⟨timers, htimers, hc₃, -, harm, -⟩ := TimerManager.updateTimers_ok
    ((s.timers.stopTimers
      (settled.dirty ∪ u.becameUndefined s.state ∪ blocked)).removeTimers u.deleted) hmanaged
  -- the work
  let req : DeployRequest := ⟨settled.dirty, reason, .newVersionDeploy, s₁.deployingLatest,
    u.addedRequires, u.droppedRequires, false⟩
  obtain ⟨work, hwork, hdep⟩ := deployWithContext_ok hw settled.requires req
  obtain ⟨hwv, hww, hwq, hwp⟩ := ScheduledWork.deleteAll_spec hdep.valid
    (u.deleted ∪ u.becameUndefined s.state ∪ blocked)
  -- the deletions
  obtain ⟨state, hstate, hdrop⟩ := ModelState.dropAll_ok (hr.same.valid hvp) u.deleted
  let t : VersionTrace := ⟨u, edited, propagated, unblocked, blocked, reset, settled, work⟩
  let s' : Scheduler := { s₁ with
    state, timers
    work := (u.deleted ∪ u.becameUndefined s.state ∪ blocked).foldl
      ScheduledWork.deleteResource work }
  let w : VersionWrite :=
    { firstVersion := s.state.version = 0
      intent := (u.new ∪ u.updated ∪ (u.becameUndefined s.state ∪ blocked ∪ unblocked)).removeAll
        u.deleted
      orphans := u.orphans }
  refine ⟨t, s', w, ?_, rfl, hp, he, hspec, rfl, hr, hdrop, fun r => ?_, fun r => ?_, hdep, hwv,
    hww, hwq, fun x => ?_, hc₁.trans (hc₂.trans hc₃), fun hrep r rs hrs hnb hcases => ?_, rfl,
    decide_eq_true_iff, fun r => ?_, rfl⟩
  · rw [newVersion, if_neg hne]
    simp only [hpr, ok_bind, hed, hb]
    refine bind_eq_ok.mpr ⟨timers, htimers, bind_eq_ok.mpr ⟨work, hwork, ?_⟩⟩
    exact bind_eq_ok.mpr ⟨state, hstate, rfl⟩
  · show r ∈ (s.deployingLatest.removeAll u.changes.keys).removeAll blocked ↔ _
    rw [mem_removeAll, mem_removeAll, Dict.mem_keys, and_assoc]
  · show r ∈ s.deployingUnmanaged ∪ (s.deployingLatest ∩ (u.new ∪ u.deleted)) ↔ _
    rw [List.mem_union_iff, List.mem_inter_iff, List.mem_union_iff]
  · show x ∈ ((u.deleted ∪ u.becameUndefined s.state ∪ blocked).foldl
      ScheduledWork.deleteResource work).agentQueues.inProgress ↔ _
    rw [hwp]
    exact hdep.inProgress x
  · refine harm (by rw [hc₂.repair, hc₁.repair]; exact hrep) r rs hrs hnb ?_
    rw [List.nil_union, mem_removeAll, List.mem_union_iff, ha₂, ha₁]
    rcases hcases with ⟨ha, hd, hu⟩ | ⟨hru, hd, hl⟩
    · have hu' : r ∉ u.deleted ∪ u.becameUndefined s.state ∪ blocked := hu
      simp only [List.mem_union_iff, not_or] at hu'
      refine Or.inl ⟨⟨ha, ?_⟩, hu'.1.1⟩
      simp only [List.mem_union_iff, not_or]
      exact ⟨⟨hd, hu'.1.2⟩, hu'.2⟩
    · exact Or.inr ⟨⟨hru, hd⟩, hl⟩
  · show r ∈ (u.new ∪ u.updated ∪ (u.becameUndefined s.state ∪ blocked ∪ unblocked)).removeAll
      u.deleted ↔ _
    rw [mem_removeAll]
    simp only [List.mem_union_iff, VersionUpdate.Changes, or_assoc]
    rfl

/-- **Every call that returns has a trace.** -/
theorem newVersion_spec (hv : s.state.Valid) (hw : s.work.Valid)
    (hrel : Releasable s.state versions)
    (hok : s.newVersion fuel versions [] .empty reason = .ok (s', w)) :
    ∃ (t : VersionTrace) (write : VersionWrite), w = some write
      ∧ s.state.prepare versions [] = .ok t.update ∧ t.Applied reason s s' write := by
  obtain ⟨u, hpr, hp⟩ := prepare_ok hv hrel.nonempty hrel.wellFormed
  obtain ⟨edited, hed, he⟩ := VersionUpdate.edits_ok hv hp (hrel.closed u hpr)
  have hprop : ∃ result, edited.updateTransitiveState fuel (u.becameUndefined s.state)
      u.addedRequires.keys (u.becameDefined s.state ∪ u.droppedRequires.keys) = .ok result := by
    rw [newVersion, if_neg hrel.nonempty] at hok
    simp only [hpr, ok_bind, hed] at hok
    obtain ⟨b, hb, -⟩ := bind_eq_ok.mp hok
    rw [VersionUpdate.updateBlocked] at hb
    obtain ⟨result, hresult, -⟩ := bind_eq_ok.mp hb
    exact ⟨result, hresult⟩
  obtain ⟨⟨propagated, unblocked, blocked⟩, hprop⟩ := hprop
  obtain ⟨t, s₁, write, hok', rfl, ht⟩ := finishVersion_ok reason hv hw hp he hpr
    hrel.nonempty hed hprop
  rw [hok] at hok'
  obtain ⟨rfl, rfl⟩ := Prod.mk.inj (Except.ok.inj hok')
  exact ⟨t, write, rfl, hpr, ht⟩

/-- The call returns for every large enough fuel if the requires relation of the
edited model is acyclic. -/
theorem newVersion_terminates (hv : s.state.Valid) (hw : s.work.Valid)
    (hrel : Releasable s.state versions)
    (hac : ∀ u edited, s.state.prepare versions [] = .ok u → u.Edited s.state edited →
      edited.AcyclicRequires) :
    ∃ n, ∀ fuel ≥ n, ∃ s' write,
      s.newVersion fuel versions [] .empty reason = .ok (s', some write) := by
  obtain ⟨u, hpr, hp⟩ := prepare_ok hv hrel.nonempty hrel.wellFormed
  obtain ⟨edited, hed, he⟩ := VersionUpdate.edits_ok hv hp (hrel.closed u hpr)
  obtain ⟨n, hn⟩ := updateTransitiveState_terminates (VersionTrace.updateArgs hp hv he)
    (hac u edited hpr he)
  refine ⟨n, fun fuel hfuel => ?_⟩
  obtain ⟨⟨propagated, unblocked, blocked⟩, hprop⟩ := hn fuel hfuel
  obtain ⟨t, s', write, hok, -, -⟩ := finishVersion_ok reason hv hw hp he hpr
    hrel.nonempty hed hprop
  exact ⟨s', write, hok⟩

end Scheduler

end Inmanta
