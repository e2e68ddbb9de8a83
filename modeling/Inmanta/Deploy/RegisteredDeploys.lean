import Inmanta.Deploy.DirtyResources
import Inmanta.Deploy.FailedStarts

/-!
# Registered deploys

While a deploy is in progress for the latest intent of its resource, the
resource has to be registered in `_deploying_latest`: `deploy_done` takes
it out there, and raises if it is not in. New versions trim the set where
a resource changes or gets blocked, but `deploy_done` tells on its own
whether the deploy is stale, from the attribute hash.

`Forgets` says when a new version makes the two disagree, and
`deploys_registered_iff` that nothing else does but a start that can not
be written to the database.
-/

namespace Inmanta

/-- The report of the deploy is about the latest intent. -/
structure Scheduler.TakesLatest (s : Scheduler) (deploy : DeployIntent) (r : ResourceIdStr) :
    Prop where
  managed : ∃ intent, s.state.intent.get? r = some intent
    ∧ intent.attributeHash = deploy.intent.attributeHash
  notUndefined : ¬ s.state.IsUndefined r
  notUnmanaged : r ∉ s.deployingUnmanaged

instance (s : Scheduler) (deploy : DeployIntent) (r : ResourceIdStr) :
    Decidable (s.TakesLatest deploy r) :=
  decidable_of_iff ((s.state.intent.get? r).any (fun intent =>
      decide (intent.attributeHash = deploy.intent.attributeHash)) = true
      ∧ ¬ s.state.IsUndefined r ∧ r ∉ s.deployingUnmanaged)
    ⟨fun ⟨hm, hu, hn⟩ => ⟨by simpa [Option.any_eq_true] using hm, hu, hn⟩,
      fun h => ⟨by simpa [Option.any_eq_true] using h.managed, h.notUndefined, h.notUnmanaged⟩⟩

/-! ## New versions -/

namespace VersionUpdate

variable (u : VersionUpdate) (old : ModelState)

/-- The intent of a resource after the update. -/
def intentAfter (r : ResourceIdStr) : Option ResourceIntent :=
  if r ∈ u.deleted then none
  else if u.Changes r then u.model.resources.get? r
  else old.intent.get? r

/-- The resource is undefined after the update. -/
def UndefinedAfter (r : ResourceIdStr) : Prop :=
  if u.Changes r then r ∈ u.model.undefined else old.IsUndefined r

instance (r : ResourceIdStr) : Decidable (u.UndefinedAfter old r) :=
  inferInstanceAs (Decidable (if u.Changes r then r ∈ u.model.undefined else old.IsUndefined r))

/-- The propagation of the blocked status gets to the resource. -/
def Reaches (r : ResourceIdStr) : Prop :=
  ∃ edited, u.Edited old edited
    ∧ Reached edited (u.becameUndefined old) u.addedRequires.keys r

end VersionUpdate

/-- With the update, the intent the deploy has committed to is the latest one, but
the resource is not registered: either it was not any more, and its hash comes
back, or the update takes it out as changed or blocked. -/
structure Scheduler.Forgets (s : Scheduler) (u : VersionUpdate) (deploy : DeployIntent)
    (r : ResourceIdStr) : Prop where
  returns : ∃ intent, u.intentAfter s.state r = some intent
    ∧ intent.attributeHash = deploy.intent.attributeHash
  notUndefined : ¬ u.UndefinedAfter s.state r
  notUnmanaged : r ∉ s.deployingUnmanaged
  notRecreated : r ∈ s.deployingLatest → r ∉ u.new
  unregistered : r ∈ s.deployingLatest → u.Changes r ∨ u.Reaches s.state r

namespace VersionTrace.Applied

variable {t : VersionTrace} {reason : String} {s s' : Scheduler} {w : VersionWrite}
  {r : ResourceIdStr}

theorem intent_state (h : t.Applied reason s s' w) (r : ResourceIdStr) :
    s'.state.intent.get? r = t.update.intentAfter s.state r := by
  rw [h.state.intent, h.settled.same.intent, h.propagated.same.intent, VersionUpdate.intentAfter]
  by_cases hch : t.update.Changes r
  · rw [if_pos hch, h.edited.intentChanged r hch]
  · rw [if_neg hch, h.edited.intentOther r hch]

/-- A changed resource has an update, unless it is undefined. -/
theorem newState_compliance (u : VersionUpdate) (old : ModelState) (r : ResourceIdStr) :
    (u.newState old r).compliance =
      if r ∈ u.model.undefined then .undefined else .hasUpdate := by
  unfold VersionUpdate.newState ModelState.createdState ModelState.refreshedState
  split
  · simp
  · split <;> simp

theorem compliance?_changed (h : t.Applied reason s s' w) (hch : t.update.Changes r) :
    s'.state.compliance? r =
      some (if r ∈ t.update.model.undefined then .undefined else .hasUpdate) := by
  rw [h.compliance?_state hch.not_deleted,
    ModelState.compliance?_of_get? (h.edited.stateChanged r hch), newState_compliance]

theorem compliance?_unchanged (h : t.Applied reason s s' w) (hr : r ∉ t.update.deleted)
    (hch : ¬ t.update.Changes r) : s'.state.compliance? r = s.state.compliance? r := by
  rw [h.compliance?_state hr, ModelState.compliance?, h.edited.stateOther r hch,
    ModelState.compliance?]
  split
  · cases s.state.resourceState.get? r <;> rfl
  · rfl

theorem undefined_state (h : t.Applied reason s s' w) (hr : r ∉ t.update.deleted) :
    s'.state.IsUndefined r ↔ t.update.UndefinedAfter s.state r := by
  rw [ModelState.IsUndefined, VersionUpdate.UndefinedAfter]
  by_cases hch : t.update.Changes r
  · rw [if_pos hch, h.compliance?_changed hch]
    split <;> simp [*]
  · rw [if_neg hch, h.compliance?_unchanged hr hch, ModelState.IsUndefined]

/-- A resource that may be deployed and does not change is blocked just when the
propagation gets there. -/
theorem mem_blocked_iff_reaches (h : t.Applied reason s s' w) (hr : s.state.Deployable r)
    (hch : ¬ t.update.Changes r) : r ∈ t.blocked ↔ t.update.Reaches s.state r := by
  have hnb : ¬ t.edited.IsBlocked r := fun hb => by
    rw [ModelState.IsBlocked, h.blocked?_edited hch] at hb
    split at hb
    · cases hb
    · exact hr.2 hb
  rw [h.mem_blocked_iff hnb]
  constructor
  · exact fun hreached => ⟨t.edited, h.edited, hreached⟩
  · rintro ⟨edited, hed, hreached⟩
    obtain ⟨hreq, hb⟩ := edited_congr hed h.edited
    exact hreached.congr hreq hb

/-- A new version forgets a deploy just when it takes the path of the latest
intent then, and is not registered. -/
theorem forgets_iff (hc : s.Consistent) (h : t.Applied reason s s' w) {deploy : DeployIntent} :
    s.Forgets t.update deploy r ↔ s'.TakesLatest deploy r ∧ r ∉ s'.deployingLatest := by
  constructor
  · rintro ⟨hret, hdef, hun, hnew, hreg⟩
    have hdel : r ∉ t.update.deleted := fun hd => by
      obtain ⟨i, hi, -⟩ := hret
      rw [VersionUpdate.intentAfter, if_pos hd] at hi
      cases hi
    refine ⟨⟨?_, fun hu => hdef ((h.undefined_state hdel).mp hu), fun hu => ?_⟩, fun hl => ?_⟩
    · rw [h.intent_state]
      exact hret
    · rcases (h.unmanaged r).mp hu with hu | ⟨hl, hn | hd⟩
      · exact hun hu
      · exact hnew hl hn
      · exact hdel hd
    · obtain ⟨hl, hch, hb⟩ := (h.latest r).mp hl
      have hch : ¬ t.update.Changes r := fun hx => hch (VersionUpdate.mem_changes.mpr (Or.inl hx))
      have hreach := (hreg hl).resolve_left hch
      exact hb ((h.mem_blocked_iff_reaches (hc.latest r hl) hch).mpr hreach)
  · rintro ⟨⟨hman, hdef, hun⟩, hno⟩
    rw [h.intent_state] at hman
    have hdel : r ∉ t.update.deleted := fun hd => by
      obtain ⟨i, hi, -⟩ := hman
      rw [VersionUpdate.intentAfter, if_pos hd] at hi
      cases hi
    refine ⟨hman, fun hu => hdef ((h.undefined_state hdel).mpr hu),
      fun hu => hun ((h.unmanaged r).mpr (Or.inl hu)),
      fun hl hn => hun ((h.unmanaged r).mpr (Or.inr ⟨hl, Or.inl hn⟩)), fun hl => ?_⟩
    by_cases hch : t.update.Changes r
    · exact Or.inl hch
    · refine Or.inr ((h.mem_blocked_iff_reaches (hc.latest r hl) hch).mp ?_)
      by_contra hb
      refine hno ((h.latest r).mpr ⟨hl, fun hx => ?_, hb⟩)
      exact (VersionUpdate.mem_changes.mp hx).elim hch hdel

end VersionTrace.Applied

/-! ## Reports -/

namespace Scheduler

variable {s s' : Scheduler} {deploy : DeployIntent} {report : DeployReport} {finished : Time}
  {res : Except PyError ResourceState}

/-- A report takes its resource out of both sets. -/
theorem Reported.mem_sets (hc : s.Consistent) (hrep : Reported s deploy report finished s' res)
    (hmatch : report.resourceId ∈ s.deployingLatest → ∀ intent,
      s.state.intent.get? report.resourceId = some intent →
      intent.attributeHash = deploy.intent.attributeHash)
    (hdisjoint : report.resourceId ∈ s.deployingLatest →
      report.resourceId ∉ s.deployingUnmanaged) :
    (∀ x, x ∈ s'.deployingLatest ↔ x ∈ s.deployingLatest ∧ x ≠ report.resourceId)
      ∧ ∀ x, x ∈ s'.deployingUnmanaged ↔
        x ∈ s.deployingUnmanaged ∧ x ≠ report.resourceId := by
  have hkeep : ∀ {l : List ResourceIdStr}, report.resourceId ∉ l → ∀ x,
      x ∈ l ↔ x ∈ l ∧ x ≠ report.resourceId := fun hno x =>
    ⟨fun hx => ⟨hx, fun he => hno (he ▸ hx)⟩, And.left⟩
  cases hrep with
  | unmanaged hun =>
      refine ⟨hkeep fun hl => ?_, fun x => mem_discard⟩
      rcases hun with hno | hun
      · exact hno ((hc.state.intent _).mpr (hc.latest _ hl).1)
      · exact hdisjoint hl hun
  | @stale i st _ _ _ hi hun hrs _ hstale he _ =>
      rw [he.latest, he.unmanaged]
      refine ⟨hkeep fun hl => ?_, hkeep hun⟩
      rcases hstale with hne | hund
      · exact hne (hmatch hl i hi)
      · refine (hc.latest _ hl).2 (hc.undefined _ ?_)
        rw [ModelState.IsUndefined, ModelState.compliance?_of_get? hrs, hund]
  | lost hi hun hrs hhash hund hl => exact ⟨hkeep hl, hkeep hun⟩
  | latest hi hun hrs _ hhash hund hl hland he _ =>
      refine ⟨fun x => ?_, fun x => ?_⟩
      · rw [he.latest]
        exact hland.latest x
      · rw [he.unmanaged, hland.unmanaged]
        exact hkeep hun x

theorem Reported.error_eq (hrep : Reported s deploy report finished s' res)
    (hreg : s.TakesLatest deploy report.resourceId → report.resourceId ∈ s.deployingLatest)
    {e : PyError} (he : res = .error e) : e = .staleResource := by
  cases hrep with
  | unmanaged _ => exact (Except.error.inj he).symm
  | stale => cases he
  | lost hi hun hrs hhash hund hl =>
      refine absurd (hreg ⟨⟨_, hi, hhash⟩, ?_, hun⟩) hl
      exact (not_isUndefined_iff hrs).mpr hund
  | latest => cases he

end Scheduler

/-! ## Runs -/

namespace System

/-- A deploy of the resource has started, and is not reported yet. -/
def Deploying (s : System) (r : ResourceIdStr) : Prop :=
  ∃ deploy, s.progress.get? r = some (.started deploy)

/-- Whatever a deploy in progress reports, it is registered: the update of the
scheduler raises nothing but `StaleResource`, and a report that takes the path of
the latest intent finds its resource. Only deploys in progress are registered. -/
structure DeploysRegistered (s : System) : Prop where
  raises : ∀ deploy report finished e,
    s.progress.get? report.resourceId = some (.started deploy) →
    (s.scheduler.updateSchedulerStateForFinishedDeploy deploy
      (s.scheduler.enforceComplianceReportingEntitlement report) finished).2 = .error e →
    e = .staleResource
  registered : ∀ r deploy, s.progress.get? r = some (.started deploy) →
    s.scheduler.TakesLatest deploy r → r ∈ s.scheduler.deployingLatest
  latest : ∀ r ∈ s.scheduler.deployingLatest, s.Deploying r
  unmanaged : ∀ r ∈ s.scheduler.deployingUnmanaged, s.Deploying r

/-- Only deploys in progress are in the sets, and a registered deploy is for the latest
intent, and not unmanaged. -/
structure Enrolled (s : System) : Prop where
  consistent : s.Consistent
  latest : ∀ r ∈ s.scheduler.deployingLatest, ∃ deploy,
    s.progress.get? r = some (.started deploy) ∧ ∀ intent,
      s.scheduler.state.intent.get? r = some intent →
      intent.attributeHash = deploy.intent.attributeHash
  unmanaged : ∀ r ∈ s.scheduler.deployingUnmanaged, s.Deploying r
  disjoint : ∀ r ∈ s.scheduler.deployingLatest, r ∉ s.scheduler.deployingUnmanaged

/-- The invariant behind it: besides, the deploys in progress are registered. -/
structure Registry (s : System) : Prop where
  consistent : s.Consistent
  registered : ∀ r deploy, s.progress.get? r = some (.started deploy) →
    s.scheduler.TakesLatest deploy r → r ∈ s.scheduler.deployingLatest
  latest : ∀ r ∈ s.scheduler.deployingLatest, ∃ deploy,
    s.progress.get? r = some (.started deploy) ∧ ∀ intent,
      s.scheduler.state.intent.get? r = some intent →
      intent.attributeHash = deploy.intent.attributeHash
  unmanaged : ∀ r ∈ s.scheduler.deployingUnmanaged, s.Deploying r
  disjoint : ∀ r ∈ s.scheduler.deployingLatest, r ∉ s.scheduler.deployingUnmanaged

theorem Enrolled.init (timers : TimerManager) (complianceReporting : Bool) :
    (System.init timers complianceReporting).Enrolled where
  consistent := .init timers complianceReporting
  latest := fun _ h => absurd h List.not_mem_nil
  unmanaged := fun _ h => absurd h List.not_mem_nil
  disjoint := fun _ h => absurd h List.not_mem_nil

variable {s s' : System} {a : Action}

theorem Registry.enrolled (h : s.Registry) : s.Enrolled :=
  ⟨h.consistent, h.latest, h.unmanaged, h.disjoint⟩

theorem Enrolled.registry (h : s.Enrolled)
    (hreg : ∀ r deploy, s.progress.get? r = some (.started deploy) →
      s.scheduler.TakesLatest deploy r → r ∈ s.scheduler.deployingLatest) : s.Registry :=
  ⟨h.consistent, hreg, h.latest, h.unmanaged, h.disjoint⟩

theorem Registry.init (timers : TimerManager) (complianceReporting : Bool) :
    (System.init timers complianceReporting).Registry :=
  (Enrolled.init timers complianceReporting).registry fun _ _ h => by cases h

theorem Registry.deploysRegistered (h : s.Registry) : s.DeploysRegistered where
  raises := fun deploy report finished e hph he => by
    have hc := h.consistent.scheduler
    have hprog : Task.deploy report.resourceId ∈ s.scheduler.work.agentQueues.inProgress :=
      (h.consistent.progress _).mp (Dict.mem_of_get? hph)
    obtain ⟨s₁, res, hs₁, hrep⟩ := Scheduler.reported hc.state hc.work deploy
      (s.scheduler.enforceComplianceReportingEntitlement report) finished
      (by rwa [enforce_resourceId])
    rw [hs₁] at he
    refine hrep.error_eq (fun ht => ?_) he
    rw [enforce_resourceId] at ht ⊢
    exact h.registered _ deploy hph ht
  registered := h.registered
  latest := fun r hr => by
    obtain ⟨deploy, hph, -⟩ := h.latest r hr
    exact ⟨deploy, hph⟩
  unmanaged := h.unmanaged

/-- Only the deploys in progress, the sets and the intent matter. -/
theorem Enrolled.congr (h : s.Enrolled) (hc : s'.Consistent)
    (hstarted : ∀ r deploy, s'.progress.get? r = some (.started deploy) ↔
      s.progress.get? r = some (.started deploy))
    (hintent : s'.scheduler.state.intent = s.scheduler.state.intent)
    (hlatest : s'.scheduler.deployingLatest = s.scheduler.deployingLatest)
    (hunmanaged : s'.scheduler.deployingUnmanaged = s.scheduler.deployingUnmanaged) :
    s'.Enrolled where
  consistent := hc
  latest := fun r hr => by
    obtain ⟨deploy, hph, hhash⟩ := h.latest r (hlatest ▸ hr)
    exact ⟨deploy, (hstarted r deploy).mpr hph, hintent ▸ hhash⟩
  unmanaged := fun r hr => by
    obtain ⟨deploy, hph⟩ := h.unmanaged r (hunmanaged ▸ hr)
    exact ⟨deploy, (hstarted r deploy).mpr hph⟩
  disjoint := fun r hr => by
    rw [hunmanaged]
    exact h.disjoint r (hlatest ▸ hr)

/-- For the registered deploys, it also matters which resources are undefined. -/
theorem Registry.congr (h : s.Registry) (hc : s'.Consistent)
    (hstarted : ∀ r deploy, s'.progress.get? r = some (.started deploy) ↔
      s.progress.get? r = some (.started deploy))
    (hintent : s'.scheduler.state.intent = s.scheduler.state.intent)
    (hundef : ∀ r, s'.scheduler.state.IsUndefined r ↔ s.scheduler.state.IsUndefined r)
    (hlatest : s'.scheduler.deployingLatest = s.scheduler.deployingLatest)
    (hunmanaged : s'.scheduler.deployingUnmanaged = s.scheduler.deployingUnmanaged) :
    s'.Registry := by
  refine (h.enrolled.congr hc hstarted hintent hlatest hunmanaged).registry fun r deploy hph ht => ?_
  rw [hlatest]
  refine h.registered r deploy ((hstarted r deploy).mp hph) ⟨?_, fun hu => ?_, ?_⟩
  · rw [← hintent]
    exact ht.managed
  · exact ht.notUndefined ((hundef r).mpr hu)
  · rw [← hunmanaged]
    exact ht.notUnmanaged

/-- Moving a deploy from a phase other than the start of it to another one. -/
theorem started_setPhase {r : ResourceIdStr} {phase : DeployPhase}
    (hold : ∀ deploy, s.progress.get? r ≠ some (.started deploy))
    (hnew : ∀ deploy, phase ≠ .started deploy) (x : ResourceIdStr) (deploy : DeployIntent) :
    (s.setPhase r phase).progress.get? x = some (.started deploy) ↔
      s.progress.get? x = some (.started deploy) := by
  rw [setPhase, Dict.get?_set]
  split
  · rename_i hxr
    rw [hxr]
    exact iff_of_false (fun he => hnew deploy (Option.some.inj he)) (hold deploy)
  · exact Iff.rfl

theorem Registry.setPhase (h : s.Registry) {r : ResourceIdStr} {phase phase' : DeployPhase}
    (hold : s.progress.get? r = some phase) (hne : ∀ deploy, phase ≠ .started deploy)
    (hne' : ∀ deploy, phase' ≠ .started deploy) (hc : (s.setPhase r phase').Consistent) :
    (s.setPhase r phase').Registry :=
  h.congr hc (started_setPhase (fun deploy he => hne deploy (Option.some.inj (hold.symm.trans he)))
    hne') rfl (fun _ => Iff.rfl) rfl rfl

/-- The deploy that starts is enrolled. -/
theorem Enrolled.started (h : s.Enrolled) {r : ResourceIdStr} {intent : DeployIntent}
    (hph : s.progress.get? r = some .picked)
    (hi : s.scheduler.state.intent.get? r = some intent.intent)
    (hc : System.Consistent { s.setPhase r (.started intent) with
      scheduler := { s.scheduler with
        deployingLatest := s.scheduler.deployingLatest.insert r } }) :
    System.Enrolled { s.setPhase r (.started intent) with
      scheduler := { s.scheduler with
        deployingLatest := s.scheduler.deployingLatest.insert r } } := by
  have hget : ∀ x, x ≠ r → (s.progress.set r (.started intent)).get? x = s.progress.get? x :=
    fun x hx => (Dict.get?_set _ _ _ _).trans (if_neg hx)
  have hself : (s.progress.set r (.started intent)).get? r = some (.started intent) :=
    (Dict.get?_set _ _ _ _).trans (if_pos rfl)
  have hno : ¬ s.Deploying r := fun ⟨deploy, hd⟩ => by cases hph.symm.trans hd
  refine ⟨hc, fun x hx => ?_, fun x hx => ?_, fun x hx => ?_⟩
  · by_cases hxr : x = r
    · rw [hxr]
      refine ⟨intent, hself, fun i hi' => ?_⟩
      rw [Option.some.inj (hi'.symm.trans hi)]
    · obtain ⟨deploy, hd, hhash⟩ := h.latest x ((List.mem_insert_iff.mp hx).resolve_left hxr)
      exact ⟨deploy, (hget x hxr).trans hd, hhash⟩
  · have hxr : x ≠ r := fun he => hno (he ▸ h.unmanaged x hx)
    obtain ⟨deploy, hd⟩ := h.unmanaged x hx
    exact ⟨deploy, (hget x hxr).trans hd⟩
  · rcases List.mem_insert_iff.mp hx with rfl | hx
    · exact fun hun => hno (h.unmanaged x hun)
    · exact h.disjoint x hx

/-- The deploy that starts is registered. -/
theorem Registry.started (h : s.Registry) {r : ResourceIdStr} {intent : DeployIntent}
    (hph : s.progress.get? r = some .picked)
    (hi : s.scheduler.state.intent.get? r = some intent.intent)
    (hc : System.Consistent { s.setPhase r (.started intent) with
      scheduler := { s.scheduler with
        deployingLatest := s.scheduler.deployingLatest.insert r } }) :
    System.Registry { s.setPhase r (.started intent) with
      scheduler := { s.scheduler with
        deployingLatest := s.scheduler.deployingLatest.insert r } } := by
  refine (h.enrolled.started hph hi hc).registry fun x deploy hx ht => ?_
  by_cases hxr : x = r
  · exact List.mem_insert_iff.mpr (Or.inl hxr)
  · have hget : (s.progress.set r (.started intent)).get? x = s.progress.get? x :=
      (Dict.get?_set _ _ _ _).trans (if_neg hxr)
    refine List.mem_insert_iff.mpr (Or.inr (h.registered x deploy (hget.symm.trans hx) ?_))
    exact ⟨ht.managed, ht.notUndefined, ht.notUnmanaged⟩

/-- What the report leaves in the sets. -/
theorem Enrolled.mem_sets (h : s.Enrolled) {report : DeployReport} {finished : Time}
    {intent : DeployIntent} {scheduler : Scheduler} {result : Except PyError ResourceState}
    (hph : s.progress.get? report.resourceId = some (.started intent))
    (hrep : s.scheduler.Reported intent (s.scheduler.enforceComplianceReportingEntitlement report)
      finished scheduler result) :
    (∀ x, x ∈ scheduler.deployingLatest ↔
        x ∈ s.scheduler.deployingLatest ∧ x ≠ report.resourceId)
      ∧ ∀ x, x ∈ scheduler.deployingUnmanaged ↔
        x ∈ s.scheduler.deployingUnmanaged ∧ x ≠ report.resourceId := by
  have hsets := hrep.mem_sets h.consistent.scheduler
    (fun hl i hi => by
      rw [enforce_resourceId] at hl hi
      obtain ⟨deploy, hd, hhash⟩ := h.latest _ hl
      obtain rfl : intent = deploy := by simpa using hph.symm.trans hd
      exact hhash i hi)
    (fun hl => by
      rw [enforce_resourceId] at hl ⊢
      exact h.disjoint _ hl)
  rwa [enforce_resourceId] at hsets

/-- The report takes the deploy out of the sets. -/
theorem Enrolled.reported (h : s.Enrolled) {report : DeployReport} {finished : Time}
    {intent : DeployIntent} {scheduler : Scheduler} {result : Except PyError ResourceState}
    {phase : DeployPhase}
    (hph : s.progress.get? report.resourceId = some (.started intent))
    (hrep : s.scheduler.Reported intent (s.scheduler.enforceComplianceReportingEntitlement report)
      finished scheduler result)
    (hc : System.Consistent { s.setPhase report.resourceId phase with scheduler }) :
    System.Enrolled { s.setPhase report.resourceId phase with scheduler } := by
  have hget : ∀ x, x ≠ report.resourceId →
      (s.progress.set report.resourceId phase).get? x = s.progress.get? x :=
    fun x hx => (Dict.get?_set _ _ _ _).trans (if_neg hx)
  obtain ⟨hlatest, hunmanaged⟩ := h.mem_sets hph hrep
  refine ⟨hc, fun x hx => ?_, fun x hx => ?_, fun x hx hun => ?_⟩
  · obtain ⟨hx, hxr⟩ := (hlatest x).mp hx
    obtain ⟨deploy, hd, hhash⟩ := h.latest x hx
    refine ⟨deploy, (hget x hxr).trans hd, ?_⟩
    rw [hrep.intent]
    exact hhash
  · obtain ⟨hx, hxr⟩ := (hunmanaged x).mp hx
    obtain ⟨deploy, hd⟩ := h.unmanaged x hx
    exact ⟨deploy, (hget x hxr).trans hd⟩
  · exact h.disjoint x ((hlatest x).mp hx).1 ((hunmanaged x).mp hun).1

theorem Registry.reported (h : s.Registry) {report : DeployReport} {finished : Time}
    {intent : DeployIntent} {scheduler : Scheduler} {result : Except PyError ResourceState}
    {phase : DeployPhase} (hne : ∀ deploy, phase ≠ .started deploy)
    (hph : s.progress.get? report.resourceId = some (.started intent))
    (hrep : s.scheduler.Reported intent (s.scheduler.enforceComplianceReportingEntitlement report)
      finished scheduler result)
    (hc : System.Consistent { s.setPhase report.resourceId phase with scheduler }) :
    System.Registry { s.setPhase report.resourceId phase with scheduler } := by
  obtain ⟨hlatest, hunmanaged⟩ := h.enrolled.mem_sets hph hrep
  refine (h.enrolled.reported hph hrep hc).registry fun x deploy hx ht => ?_
  have hx : (s.progress.set report.resourceId phase).get? x = some (.started deploy) := hx
  rw [Dict.get?_set] at hx
  split at hx
  · exact absurd (Option.some.inj hx) (hne deploy)
  · rename_i hxr
    refine (hlatest x).mpr ⟨h.registered x deploy hx ⟨?_, ?_, ?_⟩, hxr⟩
    · rw [← hrep.intent]
      exact ht.managed
    · intro hu
      refine ht.notUndefined ?_
      rw [ModelState.IsUndefined]
      exact (hrep.compliance?_other (by rwa [enforce_resourceId])).trans hu
    · exact fun hun => ht.notUnmanaged ((hunmanaged x).mpr ⟨hun, hxr⟩)

theorem Enrolled.newVersion (h : s.Enrolled) {t : VersionTrace} {reason : String}
    {scheduler : Scheduler} {w : VersionWrite} {pendingWrite : Option VersionWrite}
    {rows : PersistentStates} (ht : t.Applied reason s.scheduler scheduler w)
    (hc : System.Consistent { s with scheduler, pendingWrite, rows }) :
    System.Enrolled { s with scheduler, pendingWrite, rows } := by
  refine ⟨hc, fun r hr => ?_, fun r hr => ?_, fun r hr hun => ?_⟩
  · obtain ⟨hr, hch, -⟩ := (ht.latest r).mp hr
    obtain ⟨deploy, hph, hhash⟩ := h.latest r hr
    refine ⟨deploy, hph, fun i hi => hhash i ?_⟩
    have hi : scheduler.state.intent.get? r = some i := hi
    rw [ht.intent_state, VersionUpdate.intentAfter,
      if_neg fun hd => hch (VersionUpdate.mem_changes.mpr (Or.inr hd)),
      if_neg fun hx => hch (VersionUpdate.mem_changes.mpr (Or.inl hx))] at hi
    exact hi
  · rcases (ht.unmanaged r).mp hr with hr | ⟨hl, -⟩
    · exact h.unmanaged r hr
    · obtain ⟨deploy, hph, -⟩ := h.latest r hl
      exact ⟨deploy, hph⟩
  · obtain ⟨hl, hch, -⟩ := (ht.latest r).mp hr
    rcases (ht.unmanaged r).mp hun with hun | ⟨-, hn | hd⟩
    · exact h.disjoint r hl hun
    · exact hch (VersionUpdate.mem_changes.mpr (Or.inl (Or.inl hn)))
    · exact hch (VersionUpdate.mem_changes.mpr (Or.inr hd))

/-- A new version that forgets no deploy keeps them registered. -/
theorem Registry.newVersion (h : s.Registry) {t : VersionTrace} {reason : String}
    {scheduler : Scheduler} {w : VersionWrite} {pendingWrite : Option VersionWrite}
    {rows : PersistentStates} (ht : t.Applied reason s.scheduler scheduler w)
    (hno : ∀ r deploy, s.progress.get? r = some (.started deploy) →
      ¬ s.scheduler.Forgets t.update deploy r)
    (hc : System.Consistent { s with scheduler, pendingWrite, rows }) :
    System.Registry { s with scheduler, pendingWrite, rows } := by
  refine (h.enrolled.newVersion ht hc).registry fun r deploy hph hlatest => ?_
  by_contra hl
  exact hno r deploy hph ((ht.forgets_iff h.consistent.scheduler).mpr ⟨hlatest, hl⟩)

/-- A deploy that gets as far as the database can be written there. -/
def WritesStart (s : System) : Action → Prop
  | .deployStart r _ reachable =>
      s.scheduler.state.Deployable r → ¬ s.DependenciesFail r → reachable = true
  | _ => True

/-- A deploy that starts has been written, if it could be: where the states of the
requirements can not be told, the set is not touched. -/
theorem Enrolled.reachable (h : s.Enrolled) {r : ResourceIdStr} {now : Time} {reachable : Bool}
    (hph : s.progress.get? r = some .picked) (hd : s.scheduler.state.Deployable r)
    (hgood : ¬ s.DependenciesFail r → reachable = true)
    (hs : s.step (.deployStart r now reachable) = some s')
    (hr : r ∈ s'.scheduler.deployingLatest) : reachable = true := by
  refine hgood fun hfail => ?_
  have hspec := (FailsToStart.spec h.consistent.scheduler.state
    (And.intro hd (Or.inl hfail)) hs).2.2.2
  have hr := (hspec.mp hr).resolve_right (not_not.mpr hfail)
  obtain ⟨deploy, hph', -⟩ := h.latest r hr
  cases hph.symm.trans hph'

theorem Enrolled.step (h : s.Enrolled) (hp : a.Permitted s) (hgood : s.WritesStart a)
    (hs : s.step a = some s') : s'.Enrolled := by
  have hc' := consistent_step h.consistent hp hs
  have hstep := stepped h.consistent hp hs
  cases hstep with
  | newVersion _ hpr _ ht => exact h.newVersion ht hc'
  | writeVersion _ _ => exact h.congr hc' (fun _ _ => Iff.rfl) rfl rfl rfl
  | request _ hd =>
      have hintent := congrArg ModelState.intent hd.requested.state
      exact h.congr hc' (fun _ _ => Iff.rfl) hintent hd.requested.latest hd.requested.unmanaged
  | picked _ _ hfree =>
      refine h.congr hc' (started_setPhase (fun deploy he => ?_) fun _ he => by cases he) rfl rfl rfl
      exact hfree (Dict.mem_of_get? he)
  | other _ _ => exact h.congr hc' (fun _ _ => Iff.rfl) rfl rfl rfl
  | notStarted hph _ =>
      exact h.congr hc' (started_setPhase (fun _ he => by cases hph.symm.trans he)
        fun _ he => by cases he) rfl rfl rfl
  | @started r now reachable intent hph hd hi =>
      obtain rfl := h.reachable hph hd (hgood hd) hs (List.mem_insert_iff.mpr (Or.inl rfl))
      exact h.started hph hi hc'
  | reported hph hrep => exact h.reported hph hrep hc'
  | sent hph =>
      exact h.congr hc' (started_setPhase (fun _ he => by cases hph.symm.trans he)
        fun _ he => by cases he) rfl rfl rfl
  | finished hph =>
      exact h.congr hc' (started_setPhase (fun _ he => by cases hph.symm.trans he)
        fun _ he => by cases he) rfl rfl rfl
  | @ended r q hph _ =>
      refine h.congr hc' (fun x deploy => ?_) rfl rfl rfl
      change Dict.get? (Dict.del _ _) _ = _ ↔ _
      rw [Dict.get?_del]
      split
      · rename_i hxr
        rw [hxr, hph]
        simp
      · exact Iff.rfl

/-- The new version forgets no deploy in progress, and a deploy that starts can be
written to the database. -/
def KeepsRegistered (s : System) : Action → Prop
  | .newVersion _ versions _ => ∀ u, s.scheduler.state.prepare versions [] = .ok u →
      ∀ r deploy, s.progress.get? r = some (.started deploy) → ¬ s.scheduler.Forgets u deploy r
  | .deployStart r _ reachable =>
      s.scheduler.state.Deployable r → ¬ s.DependenciesFail r → reachable = true
  | _ => True

theorem Registry.step (h : s.Registry) (hp : a.Permitted s) (hgood : s.KeepsRegistered a)
    (hs : s.step a = some s') : s'.Registry := by
  have hc' := consistent_step h.consistent hp hs
  have hstep := stepped h.consistent hp hs
  cases hstep with
  | newVersion _ hpr _ ht => exact h.newVersion ht (hgood _ hpr) hc'
  | writeVersion _ _ => exact h.congr hc' (fun _ _ => Iff.rfl) rfl (fun _ => Iff.rfl) rfl rfl
  | request _ hd =>
      have hintent := congrArg ModelState.intent hd.requested.state
      have hstate := congrArg ModelState.resourceState hd.requested.state
      refine h.congr hc' (fun _ _ => Iff.rfl) hintent (fun r => ?_) hd.requested.latest
        hd.requested.unmanaged
      rw [ModelState.IsUndefined, ModelState.compliance?, hstate]
      rfl
  | picked _ _ hfree =>
      refine h.congr hc' (started_setPhase (fun deploy he => ?_) fun _ he => by cases he) rfl
        (fun _ => Iff.rfl) rfl rfl
      exact hfree (Dict.mem_of_get? he)
  | other _ _ => exact h.congr hc' (fun _ _ => Iff.rfl) rfl (fun _ => Iff.rfl) rfl rfl
  | notStarted hph _ => exact h.setPhase hph (fun _ he => by cases he) (fun _ he => by cases he) hc'
  | @started r now reachable intent hph hd hi =>
      obtain rfl := h.enrolled.reachable hph hd (hgood hd) hs (List.mem_insert_iff.mpr (Or.inl rfl))
      exact h.started hph hi hc'
  | reported hph hrep => exact h.reported (fun _ he => by cases he) hph hrep hc'
  | sent hph =>
      exact (h.congr hc' (started_setPhase (fun _ he => by cases hph.symm.trans he)
        fun _ he => by cases he) rfl (fun _ => Iff.rfl) rfl rfl)
  | finished hph =>
      exact (h.congr hc' (started_setPhase (fun _ he => by cases hph.symm.trans he)
        fun _ he => by cases he) rfl (fun _ => Iff.rfl) rfl rfl)
  | @ended r q hph _ =>
      refine h.congr hc' (fun x deploy => ?_) rfl (fun _ => Iff.rfl) rfl rfl
      change Dict.get? (Dict.del _ _) _ = _ ↔ _
      rw [Dict.get?_del]
      split
      · rename_i hxr
        rw [hxr, hph]
        simp
      · exact Iff.rfl

/-- A step that is not good leaves a deploy that is not registered, or a resource
that is without a deploy. -/
theorem Registry.not_registered (h : s.Registry) (hp : a.Permitted s)
    (hbad : ¬ s.KeepsRegistered a) (hs : s.step a = some s') : ¬ s'.DeploysRegistered := by
  cases a with
  | newVersion fuel versions reason =>
      have hstep := stepped h.consistent hp hs
      cases hstep with
      | newVersion _ hpr _ ht =>
          intro hd
          refine hbad fun u hu r deploy hph hforgets => ?_
          obtain rfl := Except.ok.inj (hpr.symm.trans hu)
          obtain ⟨htakes, hno⟩ := (ht.forgets_iff h.consistent.scheduler).mp hforgets
          exact hno (hd.registered r deploy hph htakes)
      | request ha _ => exact ha.elim
  | deployStart r now reachable =>
      intro hd
      refine hbad fun hdep hfail => ?_
      by_contra hne
      have hf : s.FailsToStart r reachable := ⟨hdep, Or.inr (Bool.eq_false_iff.mpr hne)⟩
      obtain ⟨hover, -, -, hlatest⟩ := hf.spec h.consistent.scheduler.state hs
      obtain ⟨deploy, hph⟩ := hd.latest r (hlatest.mpr (Or.inr hfail))
      cases hover.symm.trans hph
  | _ => exact absurd trivial hbad

/-- A sufficient condition that can be evaluated: the hash of a deploy in progress
does not come back. -/
def ReleasesOthers (s : System) : Action → Prop
  | .newVersion _ versions _ => ∀ u, s.scheduler.state.prepare versions [] = .ok u →
      s.progress.keys.all (fun r => (s.progress.get? r).all fun
        | .started deploy => (u.intentAfter s.scheduler.state r).all fun intent =>
            intent.attributeHash ≠ deploy.intent.attributeHash
        | _ => true) = true
  | .deployStart _ _ reachable => reachable = true
  | _ => True

instance (s : System) : DecidablePred s.ReleasesOthers
  | .newVersion _ _ _ => inferInstanceAs (Decidable (∀ _, _ = _ → _ = _))
  | .deployStart _ _ _ => inferInstanceAs (Decidable (_ = _))
  | .writeVersion _ | .deploy _ _ _ _ | .repair _ _ _ _ | .deployResource _ _ _ | .timerFires _
  | .queueGet _ | .deployReport _ _ | .sendDeployDone _ | .finishDeploy _ | .taskDone _ =>
      inferInstanceAs (Decidable True)

theorem ReleasesOthers.keepsRegistered (h : s.ReleasesOthers a) : s.KeepsRegistered a := by
  cases a with
  | newVersion _ _ _ =>
      intro u hu r deploy hph hforgets
      obtain ⟨intent, hi, hhash⟩ := hforgets.returns
      have hr := List.all_eq_true.mp (h u hu) r (Dict.mem_keys.mpr (Dict.mem_of_get? hph))
      rw [hph] at hr
      simp [hi, hhash] at hr
  | deployStart _ _ _ => exact fun _ _ => h
  | _ => trivial

/-! ### A hash that comes back -/

/-- While `a` is deployed it gets another hash, in a version of its own. -/
def changeDeploying : List Action :=
  releaseAll [nullVersion 1 [("a", "h", [])] []]
    ++ [.queueGet "agent1", .deployStart (nullResource "a") 1 true]
    ++ releaseAll [nullVersion 2 [("a", "i", [])] []]

/-- **Registered deploys.** In every state of a run of any length, a finished
deploy is registered whatever it reports, and only deploys in progress are, just
when no new version of the run forgets a deploy in progress, and each deploy that
starts can be written to the database. -/
theorem deploys_registered_iff {timers : TimerManager} {complianceReporting : Bool}
    {as : List Action} {s : System}
    (hok : Along step (fun s a => a.Permitted s) (init timers complianceReporting) as)
    (hrun : run step (init timers complianceReporting) as = some s) :
    Always step DeploysRegistered (init timers complianceReporting) as ↔
      Along step KeepsRegistered (init timers complianceReporting) as :=
  always_iff_along_of_permitted (I := Registry) (fun _ h => h.deploysRegistered)
    (fun _ _ _ h hp hgood hs => h.step hp hgood hs)
    (fun _ _ _ h hp hbad hs => h.not_registered hp hbad hs)
    (.init timers complianceReporting) hok hrun

/-- The deploy is stale then. -/
theorem deploys_registered_iff_changeDeploying :
    Always step DeploysRegistered idle changeDeploying := by
  obtain ⟨s, hrun, -⟩ := exists_run_of_any step idle changeDeploying (p := fun s =>
    nullResource "a" ∉ s.scheduler.deployingLatest) (by decide)
  have hgood : Along step ReleasesOthers idle changeDeploying := by decide
  exact (deploys_registered_iff (by decide) hrun).mpr (hgood.imp fun _ _ h => h.keepsRegistered)

/-- In the next version `a` gets its hash back: its deploy takes the path of the
latest intent again, but is not registered. -/
theorem restoreDeploying_unregistered :
    Along step (fun s a => a.Permitted s) idle
        (changeDeploying ++ releaseAll [nullVersion 3 [("a", "h", [])] []])
      ∧ ∃ s, run step idle (changeDeploying ++ releaseAll [nullVersion 3 [("a", "h", [])] []])
          = some s ∧ ¬ s.DeploysRegistered := by
  refine ⟨by decide, ?_⟩
  obtain ⟨s, hrun, htakes, hno⟩ := exists_run_of_any step idle
    (changeDeploying ++ releaseAll [nullVersion 3 [("a", "h", [])] []]) (p := fun s =>
      (s.progress.get? (nullResource "a")).any (fun
        | .started deploy => decide (s.scheduler.TakesLatest deploy (nullResource "a"))
        | _ => false) = true
      ∧ nullResource "a" ∉ s.scheduler.deployingLatest) (by decide)
  refine ⟨s, hrun, fun hd => ?_⟩
  obtain ⟨phase, hph, hphase⟩ := Option.any_eq_true .. |>.mp htakes
  cases phase with
  | started deploy => exact hno (hd.registered _ deploy hph (of_decide_eq_true hphase))
  | _ => cases hphase

end System

end Inmanta
