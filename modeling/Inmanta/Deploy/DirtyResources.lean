import Inmanta.Deploy.SkippedDependants

/-!
# Dirty resources

The dirty set is what `deploy` requests deploys for, so it has to contain
every resource that may be deployed and needs it (`NeedsDeploy`).
`OutdatedDeploys` is the invariant behind it: while a deploy is in
progress for an intent that is not the latest, the resource counts as
having an update.

Two steps may break this: the reset of skipped dependants in a new
version, which does not mark them as dirty, and a report that is lost.
-/

namespace Inmanta

namespace ModelState

/-- The resource has an update, or its last deploy failed or was skipped. -/
def Unfinished (s : ModelState) (r : ResourceIdStr) : Prop :=
  ∃ rs, s.resourceState.get? r = some rs ∧ (rs.compliance = .hasUpdate
    ∨ (rs.compliance = .nonCompliant
      ∧ (rs.lastHandlerRun = .failed ∨ rs.lastHandlerRun = .skipped)))

instance (s : ModelState) (r : ResourceIdStr) : Decidable (s.Unfinished r) :=
  decidable_of_iff ((s.resourceState.get? r).any (fun rs => decide (rs.compliance = .hasUpdate
      ∨ (rs.compliance = .nonCompliant
        ∧ (rs.lastHandlerRun = .failed ∨ rs.lastHandlerRun = .skipped)))) = true)
    (by simp [Unfinished, Option.any_eq_true])

/-- The resource is to be deployed and nothing blocks it. -/
def NeedsDeploy (s : ModelState) (r : ResourceIdStr) : Prop :=
  s.blocked? r = some .notBlocked ∧ s.Unfinished r

/-- The dirty set contains every resource that needs a deploy. -/
def DirtyEnough (s : ModelState) : Prop :=
  ∀ r, s.NeedsDeploy r → r ∈ s.dirty

/-- The resource has an update that can be deployed, or that is undefined. -/
def Outdated (s : ModelState) (r : ResourceIdStr) : Prop :=
  s.compliance? r = some .hasUpdate ∨ s.compliance? r = some .undefined

theorem DirtyEnough.empty : ModelState.empty.DirtyEnough := fun r h => by
  simp [ModelState.empty, NeedsDeploy, blocked?] at h

end ModelState

theorem SameButBlocked.unfinished {s t : ModelState} (h : SameButBlocked s t)
    (r : ResourceIdStr) : t.Unfinished r ↔ s.Unfinished r := by
  have hall : ∀ m : ModelState, m.Unfinished r ↔
      ∃ rs, (m.resourceState.get? r).map ResourceState.unblocked = some rs
        ∧ (rs.compliance = .hasUpdate ∨ (rs.compliance = .nonCompliant
          ∧ (rs.lastHandlerRun = .failed ∨ rs.lastHandlerRun = .skipped))) := by
    intro m
    rw [ModelState.Unfinished]
    cases m.resourceState.get? r <;> simp [ResourceState.unblocked]
  rw [hall, hall, h.state]

namespace Scheduler

variable {s s' : Scheduler} {r x : ResourceIdStr} {deploy : DeployIntent}
  {report : DeployReport} {finished : Time} {res : Except PyError ResourceState}

/-! ## Reports -/

/-- Reports do not change the intent. -/
theorem Reported.intent (h : Reported s deploy report finished s' res) :
    s'.state.intent = s.state.intent := by
  cases h with
  | unmanaged _ => rfl
  | stale _ _ _ _ _ he _ => exact he.same.intent
  | lost _ _ _ _ _ _ => rfl
  | latest _ _ _ _ _ _ _ hland he _ => exact he.same.intent.trans hland.intent

/-- Reports only change the compliance of their own resource. -/
theorem Reported.compliance?_other (h : Reported s deploy report finished s' res)
    (hx : x ≠ report.resourceId) : s'.state.compliance? x = s.state.compliance? x := by
  have hset : ∀ st, (s.state.setState report.resourceId st).compliance? x
      = s.state.compliance? x := fun st => by
    rw [ModelState.compliance?, ModelState.setState, Dict.get?_set, if_neg hx,
      ModelState.compliance?]
  cases h with
  | unmanaged _ => rfl
  | stale _ _ _ _ _ he _ => exact (he.same.compliance? x).trans (hset _)
  | lost _ _ _ _ _ _ => exact hset _
  | latest _ _ _ _ _ _ _ hland he _ =>
      rw [he.same.compliance?, ModelState.compliance?, hland.other x hx, ModelState.compliance?]

/-- Sending events marks the dependants that recover. -/
theorem EventsSent.dirtyEnough {recovered : Bool} (he : EventsSent s r recovered s')
    (h : s.state.DirtyEnough) : s'.state.DirtyEnough := by
  rintro x ⟨hb, hun⟩
  rw [he.blocked] at hb
  refine (he.dirty x).mpr ?_
  split at hb
  · rename_i hrec
    exact Or.inr hrec
  · exact Or.inl (h x ⟨hb, (he.same.unfinished x).mp hun⟩)

/-- Only the resource itself needs to be looked at. -/
theorem dirtyEnough_of_own {s s' : ModelState} (h : s.DirtyEnough)
    (hother : ∀ x, x ≠ r → s'.resourceState.get? x = s.resourceState.get? x)
    (hdirty : ∀ x, x ≠ r → x ∈ s.dirty → x ∈ s'.dirty)
    (hown : s'.NeedsDeploy r → r ∈ s'.dirty) : s'.DirtyEnough := by
  intro x hx
  by_cases hxr : x = r
  · exact hxr ▸ hown (hxr ▸ hx)
  · refine hdirty x hxr (h x ?_)
    obtain ⟨hb, hun⟩ := hx
    rw [ModelState.blocked?, hother x hxr] at hb
    rw [ModelState.Unfinished, hother x hxr] at hun
    exact ⟨hb, hun⟩

theorem needsDeploy_iff {s : ModelState} {st : ResourceState}
    (h : s.resourceState.get? r = some st) : s.NeedsDeploy r ↔
      st.blocked = .notBlocked ∧ (st.compliance = .hasUpdate ∨ (st.compliance = .nonCompliant
        ∧ (st.lastHandlerRun = .failed ∨ st.lastHandlerRun = .skipped))) := by
  simp [ModelState.NeedsDeploy, ModelState.Unfinished, ModelState.blocked?_of_get? h, h]

theorem Landed.dirtyEnough {st : ResourceState} {result : HandlerResult} {skip : Bool}
    (hland : Landed s st report result finished skip s') (h : s.state.DirtyEnough) :
    s'.state.DirtyEnough := by
  refine dirtyEnough_of_own h hland.other (fun x hx hd => ?_) fun hneeds => ?_
  · rw [hland.dirty, if_neg hx]
    exact hd
  · rw [hland.dirty, if_pos rfl]
    obtain ⟨hb, hc⟩ := (needsDeploy_iff hland.own).mp hneeds
    have hnot : landedCompliance report ≠ .hasUpdate := by
      unfold landedCompliance
      split <;> simp
    refine ⟨?_, fun hs => ?_⟩
    · cases skip with
      | true => simp [landedState] at hb
      | false => rfl
    · rcases hc with hc | ⟨-, hc | hc⟩
      · exact hnot hc
      · cases hs.symm.trans hc
      · cases hs.symm.trans hc

/-- The report is lost, and leaves a resource whose last deploy was not
successful as non-compliant without marking it as dirty. -/
structure LosesReport (s : Scheduler) (deploy : DeployIntent) (report : DeployReport) : Prop where
  managed : ∃ intent, s.state.intent.get? report.resourceId = some intent
    ∧ intent.attributeHash = deploy.intent.attributeHash
  notUnmanaged : report.resourceId ∉ s.deployingUnmanaged
  notLatest : report.resourceId ∉ s.deployingLatest
  notUndefined : ¬ s.state.IsUndefined report.resourceId
  notDeployed : report.resourceState ≠ .deployed
  clean : report.resourceId ∉ s.state.dirty
  notBlocked : s.state.blocked? report.resourceId = some .notBlocked
  unsuccessful : ∃ rs, s.state.resourceState.get? report.resourceId = some rs
    ∧ (rs.lastHandlerRun = .failed ∨ rs.lastHandlerRun = .skipped)

theorem not_isUndefined_iff {s : ModelState} {st : ResourceState}
    (h : s.resourceState.get? r = some st) : ¬ s.IsUndefined r ↔ st.compliance ≠ .undefined := by
  rw [ModelState.IsUndefined, ModelState.compliance?_of_get? h, Option.some.injEq]

theorem Reported.dirtyEnough_iff (hr : Reported s deploy report finished s' res)
    (hout : ∀ i, s.state.intent.get? report.resourceId = some i →
      i.attributeHash ≠ deploy.intent.attributeHash → s.state.Outdated report.resourceId)
    (h : s.state.DirtyEnough) : s'.state.DirtyEnough ↔ ¬ LosesReport s deploy report := by
  cases hr with
  | unmanaged hun =>
      refine iff_of_true h fun hl => ?_
      obtain ⟨i, hi, -⟩ := hl.managed
      exact hun.elim (fun hno => hno (Dict.mem_of_get? hi)) hl.notUnmanaged
  | @stale i st _ result _ hi _ hrs _ hstale he _ =>
      have hnot : ¬ LosesReport s deploy report := by
        intro hl
        obtain ⟨i', hi', hhash⟩ := hl.managed
        obtain rfl := Option.some.inj (hi.symm.trans hi')
        rcases hstale with hne | hund
        · exact hne hhash
        · exact (not_isUndefined_iff hrs).mp hl.notUndefined hund
      have hstale₁ : (s.state.setState report.resourceId
          (staleState st result finished)).DirtyEnough := by
        -- the compliance is about the latest intent, and stays what it was
        refine dirtyEnough_of_own (r := report.resourceId) h
          (fun x hx => (Dict.get?_set _ _ _ _).trans (if_neg hx)) (fun x _ hd => hd)
          fun hneeds => ?_
        have hget : (s.state.setState report.resourceId
            (staleState st result finished)).resourceState.get? report.resourceId
            = some (staleState st result finished) := (Dict.get?_set _ _ _ _).trans (if_pos rfl)
        obtain ⟨hb, hc⟩ := (needsDeploy_iff hget).mp hneeds
        have hupd : st.compliance = .hasUpdate := by
          have hout : st.compliance = .hasUpdate ∨ st.compliance = .undefined := by
            rcases hstale with hne | hund
            · have := hout i hi hne
              rw [ModelState.Outdated, ModelState.compliance?_of_get? hrs] at this
              exact this.imp Option.some.inj Option.some.inj
            · exact Or.inr hund
          rcases hout with hu | hu
          · exact hu
          · have hc : st.compliance = .hasUpdate ∨ (st.compliance = .nonCompliant ∧ _) := hc
            rw [hu] at hc
            simp at hc
        exact h _ ((needsDeploy_iff hrs).mpr ⟨hb, Or.inl hupd⟩)
      exact iff_of_true (he.dirtyEnough hstale₁) hnot
  | @lost i st hi hun hrs hhash hund hl =>
      have hget : (s.state.setState report.resourceId
          { st with compliance := landedCompliance report }).resourceState.get? report.resourceId
          = some { st with compliance := landedCompliance report } :=
        (Dict.get?_set _ _ _ _).trans (if_pos rfl)
      have hneeds : (s.state.setState report.resourceId
          { st with compliance := landedCompliance report }).NeedsDeploy report.resourceId ↔
          st.blocked = .notBlocked ∧ report.resourceState ≠ .deployed
            ∧ (st.lastHandlerRun = .failed ∨ st.lastHandlerRun = .skipped) := by
        rw [needsDeploy_iff hget]
        by_cases hdep : report.resourceState = .deployed <;> simp [landedCompliance, hdep]
      constructor
      · intro hd hloses
        refine hloses.clean (hd _ (hneeds.mpr ⟨?_, hloses.notDeployed, ?_⟩))
        · exact Option.some.inj ((ModelState.blocked?_of_get? hrs).symm.trans hloses.notBlocked)
        · obtain ⟨rs, hrs', hlhr⟩ := hloses.unsuccessful
          obtain rfl := Option.some.inj (hrs.symm.trans hrs')
          exact hlhr
      · intro hno
        refine dirtyEnough_of_own (r := report.resourceId) h (fun x hx => ?_) (fun x _ hd => hd)
          fun hn => ?_
        · exact (Dict.get?_set _ _ _ _).trans (if_neg hx)
        · obtain ⟨hb, hdep, hlhr⟩ := hneeds.mp hn
          by_contra hclean
          exact hno ⟨⟨i, hi, hhash⟩, hun, hl, (not_isUndefined_iff hrs).mpr hund, hdep, hclean,
            (ModelState.blocked?_of_get? hrs).trans (congrArg some hb), st, hrs, hlhr⟩
  | latest hi hun hrs _ hhash hund hl hland he _ =>
      exact iff_of_true (he.dirtyEnough (hland.dirtyEnough h)) fun hno => hno.notLatest hl

end Scheduler

/-! ## New versions -/

namespace VersionUpdate

variable (u : VersionUpdate) (old : ModelState)

/-- The update resets a skipped resource that needs a deploy and is not dirty:
its bad requirements are gone, one that it keeps is re-created, and it is not
blocked for an undefined one. -/
structure ResetsClean (r : ResourceIdStr) : Prop extends u.SkippedForNothing old r where
  reset : ∃ d ∈ u.requiresAfter old r, d ∈ u.forceNew old
  notReached : u.NotReached old r
  unfinished : old.Unfinished r
  clean : r ∉ old.dirty

end VersionUpdate

namespace VersionTrace.Applied

variable {t : VersionTrace} {reason : String} {s s' : Scheduler} {w : VersionWrite}
  {r : ResourceIdStr}

theorem unfinished_state (h : t.Applied reason s s' w) (hr : r ∉ t.update.deleted) :
    s'.state.Unfinished r ↔ t.edited.Unfinished r := by
  rw [ModelState.Unfinished, h.get?_state hr]
  exact (h.settled.same.unfinished r).trans (h.propagated.same.unfinished r)

/-- The edits leave the rest of the state of an unchanged resource alone. -/
theorem unfinished_edited (h : t.Applied reason s s' w) (hr : ¬ t.update.Changes r) :
    t.edited.Unfinished r ↔ s.state.Unfinished r := by
  rw [ModelState.Unfinished, h.edited.stateOther r hr, ModelState.Unfinished]
  split
  · cases s.state.resourceState.get? r <;> simp
  · rfl

theorem mem_dirty_state (h : t.Applied reason s s' w) (hr : r ∉ t.update.deleted) :
    r ∈ s'.state.dirty ↔ (r ∈ t.unblocked ∧ t.edited.HasDirtyCompliance r)
      ∨ (r ∈ t.edited.dirty ∧ r ∉ t.blocked) := by
  rw [h.state.dirty, h.settled.dirty, h.propagated.dirty]
  exact and_iff_left fun hd => hr hd.1

theorem hasDirtyCompliance_of_unfinished {s : ModelState} (h : s.Unfinished r) :
    s.HasDirtyCompliance r := by
  obtain ⟨rs, hrs, hc⟩ := h
  refine ⟨rs.compliance, ModelState.compliance?_of_get? hrs, ?_⟩
  rcases hc with hc | ⟨hc, -⟩ <;> rw [hc] <;> rfl

/-- **A new version keeps the dirty set large enough unless it resets a resource
that is not in it.** -/
theorem dirtyEnough_iff (h : t.Applied reason s s' w) (hd : s.state.DirtyEnough) :
    s'.state.DirtyEnough ↔ ∀ r, ¬ t.update.ResetsClean s.state r := by
  constructor
  · intro hd' r hres
    have hch : ¬ t.update.Changes r := fun hx =>
      hres.unchanged (VersionUpdate.mem_changes.mpr (Or.inl hx))
    have hdel : r ∉ t.update.deleted := fun hx =>
      hres.unchanged (VersionUpdate.mem_changes.mpr (Or.inr hx))
    have hrec := not_recovers hres.toSkippedForNothing
    have hblk := (h.notReached_iff hres.skipped hres.unchanged).mp hres.notReached
    have hprop := h.skipped_propagated_iff.mpr ⟨hres.skipped, hch, hrec, hblk⟩
    have hvain := h.skippedInVain_propagated_iff.mpr ⟨hprop, hres.noneBad⟩
    have hb : s'.state.blocked? r = some .notBlocked := by
      rw [h.blocked?_state hdel, h.settled.blocked,
        if_pos ⟨h.mem_resetRequires.mpr hres.reset, hvain⟩]
    have hun := (h.unfinished_state hdel).mpr ((h.unfinished_edited hch).mpr hres.unfinished)
    rcases (h.mem_dirty_state hdel).mp (hd' r ⟨hb, hun⟩) with ⟨hu, -⟩ | ⟨hdirty, -⟩
    · have hedited : t.edited.blocked? r = some .temporarilyBlocked := by
        rw [h.blocked?_edited hch, if_neg hrec, hres.skipped]
      exact h.not_unblocked hedited hblk hu
    · rw [h.edited.dirtyOther r hch] at hdirty
      exact hdirty.elim hres.clean hrec
  · rintro hno r ⟨hb, hun⟩
    have hdel := h.not_mem_deleted (ModelState.mem_resourceState_of_blocked? hb)
    have hun := (h.unfinished_state hdel).mp hun
    rw [h.blocked?_state hdel, h.settled.blocked] at hb
    refine (h.mem_dirty_state hdel).mpr ?_
    split at hb
    · -- the reset does not make the resource dirty
      rename_i hreset
      obtain ⟨hprop, hgood⟩ := h.skippedInVain_propagated_iff.mp hreset.2
      obtain ⟨hskip, hch, hrec, hblk⟩ := h.skipped_propagated_iff.mp hprop
      have hunch : r ∉ t.update.changes := fun hx =>
        (VersionUpdate.mem_changes.mp hx).elim hch hdel
      refine Or.inr ⟨(h.edited.dirtyOther r hch).mpr (Or.inl ?_), hblk⟩
      by_contra hclean
      exact hno r ⟨skippedForNothing hskip hunch hrec hgood, h.mem_resetRequires.mp hreset.1,
        (h.notReached_iff hskip hunch).mpr hblk, (h.unfinished_edited hch).mp hun, hclean⟩
    · rw [h.propagated.blocked] at hb
      split at hb
      · rename_i hu
        exact Or.inl ⟨hu, hasDirtyCompliance_of_unfinished hun⟩
      · split at hb
        · cases hb
        · rename_i hblk
          refine Or.inr ⟨?_, hblk⟩
          by_cases hch : t.update.Changes r
          · rw [ModelState.blocked?_of_get? (h.edited.stateChanged r hch)] at hb
            exact (h.edited.dirtyChanged r hch).mpr (Option.some.inj hb)
          · rw [h.blocked?_edited hch] at hb
            refine (h.edited.dirtyOther r hch).mpr ?_
            split at hb
            · exact Or.inr ‹_›
            · exact Or.inl (hd r ⟨hb, (h.unfinished_edited hch).mp hun⟩)

/-- A new version only changes the intent of resources that have an update then. -/
theorem intent_or_outdated (h : t.Applied reason s s' w) {i : ResourceIntent}
    (hi : s'.state.intent.get? r = some i) :
    s'.state.Outdated r ∨ (s.state.intent.get? r = some i
      ∧ (s.state.Outdated r → s'.state.Outdated r)) := by
  have hdel : r ∉ t.update.deleted := fun hd => by
    rw [h.state.intent, if_pos hd] at hi
    cases hi
  have hcompl := h.compliance?_state hdel
  by_cases hch : t.update.Changes r
  · left
    rw [ModelState.Outdated, hcompl, ModelState.compliance?_of_get? (h.edited.stateChanged r hch)]
    unfold VersionUpdate.newState ModelState.createdState ModelState.refreshedState
    by_cases hu : r ∈ t.update.model.undefined
    · right
      split
      · simp [hu]
      · split <;> simp [hu]
    · left
      split
      · simp [hu]
      · split <;> simp [hu]
  · right
    rw [h.state.intent, if_neg hdel, h.settled.same.intent, h.propagated.same.intent,
      h.edited.intentOther r hch] at hi
    refine ⟨hi, fun hout => ?_⟩
    have hsame : t.edited.compliance? r = s.state.compliance? r := by
      rw [ModelState.compliance?, h.edited.stateOther r hch, ModelState.compliance?]
      split
      · cases s.state.resourceState.get? r <;> rfl
      · rfl
    rw [ModelState.Outdated, hcompl, hsame]
    exact hout

end VersionTrace.Applied

/-! ## Runs -/

namespace System

/-- A resource with a deploy in progress for an intent that is not the latest
has an update. -/
def OutdatedDeploys (s : System) : Prop :=
  ∀ r intent i, s.progress.get? r = some (.started intent) →
    s.scheduler.state.intent.get? r = some i →
    i.attributeHash ≠ intent.intent.attributeHash → s.scheduler.state.Outdated r

theorem OutdatedDeploys.init (timers : TimerManager) (complianceReporting : Bool) :
    (System.init timers complianceReporting).OutdatedDeploys := fun _ _ _ h => by
  cases h

variable {s s' : System} {a : Action}

/-- Moving a deploy to a phase other than the start of it. -/
theorem OutdatedDeploys.setPhase (h : s.OutdatedDeploys) (r : ResourceIdStr) (phase : DeployPhase)
    (hphase : ∀ intent, phase = .started intent →
      s.scheduler.state.intent.get? r = some intent.intent) :
    (s.setPhase r phase).OutdatedDeploys := by
  intro x intent i hx hi hne
  rw [System.setPhase, Dict.get?_set] at hx
  split at hx
  · rename_i hxr
    subst hxr
    have hget := hphase intent (Option.some.inj hx)
    exact absurd (congrArg _ (Option.some.inj (hi.symm.trans hget))) hne
  · exact h x intent i hx hi hne

/-- Only the intent and the state of the resources matter. -/
theorem OutdatedDeploys.congr (h : s.OutdatedDeploys) (hp : s'.progress = s.progress)
    (hintent : s'.scheduler.state.intent = s.scheduler.state.intent)
    (hstate : s'.scheduler.state.resourceState = s.scheduler.state.resourceState) :
    s'.OutdatedDeploys := by
  intro x intent i hx hi hne
  rw [hintent] at hi
  rw [ModelState.Outdated, ModelState.compliance?, hstate]
  exact h x intent i (hp ▸ hx) hi hne

theorem Stepped.outdatedDeploys (h : Stepped s a s') (ho : s.OutdatedDeploys) :
    s'.OutdatedDeploys := by
  cases h with
  | newVersion _ _ _ ht =>
      intro x intent i hx hi hne
      rcases ht.intent_or_outdated hi with hout | ⟨hold, hkeep⟩
      · exact hout
      · exact hkeep (ho x intent i hx hold hne)
  | writeVersion _ _ => exact ho
  | request _ hd =>
      have hintent := congrArg ModelState.intent hd.requested.state
      have hstate := congrArg ModelState.resourceState hd.requested.state
      exact ho.congr rfl hintent hstate
  | picked _ _ _ => exact (ho.setPhase _ .picked fun _ h => by cases h).congr rfl rfl rfl
  | other _ _ => exact ho.congr rfl rfl rfl
  | notStarted _ _ => exact ho.setPhase _ _ fun _ h => by cases h
  | @started r now reachable intent hph hd hi =>
      refine (ho.setPhase r _ fun intent' h => ?_).congr rfl rfl rfl
      cases reachable with
      | true => cases h; exact hi
      | false => cases h
  | @reported report finished intent scheduler result hph hrep =>
      intro x intent' i hx hi hne
      change Dict.get? (Dict.set _ _ _) _ = _ at hx
      rw [Dict.get?_set] at hx
      split at hx
      · cases hx
      · rename_i hxr
        have hi : s.scheduler.state.intent.get? x = some i := by
          rw [← hrep.intent]
          exact hi
        have hcompl : scheduler.state.compliance? x = s.scheduler.state.compliance? x :=
          hrep.compliance?_other (by rwa [enforce_resourceId])
        have hout := ho x intent' i hx hi hne
        rw [ModelState.Outdated, ← hcompl] at hout
        exact hout
  | sent _ => exact (ho.setPhase _ .written fun _ h => by cases h).congr rfl rfl rfl
  | finished _ => exact (ho.setPhase _ .over fun _ h => by cases h).congr rfl rfl rfl
  | ended _ _ =>
      intro x intent i hx hi hne
      change Dict.get? (Dict.del _ _) _ = _ at hx
      rw [Dict.get?_del] at hx
      split at hx
      · cases hx
      · exact ho x intent i hx hi hne

/-- The new version resets no resource that is not dirty, and the report is not
lost. -/
def KeepsDirty (s : System) : Action → Prop
  | .newVersion _ versions _ => ∀ u, s.scheduler.state.prepare versions [] = .ok u →
      ∀ r, ¬ u.ResetsClean s.scheduler.state r
  | .deployReport report _ => ∀ intent, s.progress.get? report.resourceId = some (.started intent) →
      ¬ s.scheduler.LosesReport intent (s.scheduler.enforceComplianceReportingEntitlement report)
  | _ => True

theorem keepsDirty_of_isRequest (h : a.IsRequest) : s.KeepsDirty a := by
  cases a with
  | newVersion _ _ _ => exact h.elim
  | deployReport _ _ => exact h.elim
  | _ => trivial

theorem Stepped.dirtyEnough_iff (ho : s.OutdatedDeploys) (h : Stepped s a s')
    (hd : s.scheduler.state.DirtyEnough) :
    s'.scheduler.state.DirtyEnough ↔ s.KeepsDirty a := by
  cases h with
  | newVersion _ hpr _ ht =>
      refine (ht.dirtyEnough_iff hd).trans ?_
      exact ⟨fun h u hu => Except.ok.inj (hpr.symm.trans hu) ▸ h, fun h => h _ hpr⟩
  | writeVersion _ _ => exact iff_of_true hd trivial
  | request ha hreq =>
      refine iff_of_true ?_ (keepsDirty_of_isRequest ha)
      rw [hreq.requested.state]
      exact fun r hr => hreq.keeps r (hd r hr)
  | picked _ _ _ => exact iff_of_true hd trivial
  | other _ _ => exact iff_of_true hd trivial
  | notStarted _ _ => exact iff_of_true hd trivial
  | started _ _ _ => exact iff_of_true hd trivial
  | @reported report finished intent scheduler result hph hrep =>
      refine (hrep.dirtyEnough_iff (fun i hi hne => ?_) hd).trans ?_
      · rw [enforce_resourceId] at hi ⊢
        exact ho _ intent i hph hi hne
      · refine ⟨fun h intent' hi => ?_, fun h => h intent hph⟩
        obtain rfl : intent = intent' := by simpa using hph.symm.trans hi
        exact h
  | sent _ => exact iff_of_true hd trivial
  | finished _ => exact iff_of_true hd trivial
  | ended _ _ => exact iff_of_true hd trivial

/-- A sufficient condition that can be evaluated. -/
def ResetsNone (s : System) : Action → Prop
  | .newVersion _ versions _ => ∀ u, s.scheduler.state.prepare versions [] = .ok u →
      u.forceNew s.scheduler.state = []
  | .deployReport report _ => report.resourceId ∈ s.scheduler.deployingLatest
  | _ => True

instance (s : System) : DecidablePred s.ResetsNone
  | .newVersion _ _ _ => inferInstanceAs (Decidable (∀ _, _ = _ → _ = _))
  | .deployReport _ _ => inferInstanceAs (Decidable (_ ∈ _))
  | .writeVersion _ | .deploy _ _ _ _ | .repair _ _ _ _ | .deployResource _ _ _ | .timerFires _
  | .queueGet _ | .deployStart _ _ _ | .sendDeployDone _ | .finishDeploy _ | .taskDone _ =>
      inferInstanceAs (Decidable True)

theorem ResetsNone.keepsDirty (h : s.ResetsNone a) : s.KeepsDirty a := by
  cases a with
  | newVersion _ _ _ =>
      intro u hu r hr
      obtain ⟨d, -, hd⟩ := hr.reset
      rw [h u hu] at hd
      cases hd
  | deployReport report _ =>
      intro intent _ hl
      exact hl.notLatest (by rwa [enforce_resourceId])
  | _ => trivial

/-! ### A requirement that is re-created next to a new one -/

/-- `a` is skipped for `b`, which is deleted and re-created in the versions of one
batch, where `a` gets another requirement. -/
def recreateWithOther : List Action :=
  skipDependant
    ++ releaseAll [nullVersion 2 [("a", "h", ["c"]), ("c", "h", [])] [],
      nullVersion 3 [("a", "h", ["b", "c"]), ("b", "h", []), ("c", "h", [])] []]

/-- **The dirty set** contains every resource that needs a deploy, and only
resources that may be deployed, in every state of a run of any length, just
when no new version of the run resets a resource that is not dirty, and no
report of a failure is lost. -/
theorem dirty_exact_enough_iff {timers : TimerManager} {complianceReporting : Bool}
    {as : List Action} {s : System}
    (hok : Along step (fun s a => a.Permitted s) (init timers complianceReporting) as)
    (hrun : run step (init timers complianceReporting) as = some s) :
    Always step (fun s => s.scheduler.state.DirtyEnough
        ∧ ∀ r ∈ s.scheduler.state.dirty, s.scheduler.state.Deployable r)
      (init timers complianceReporting) as ↔
      Along step KeepsDirty (init timers complianceReporting) as := by
  refine always_iff_along (K := fun s => s.Consistent ∧ s.OutdatedDeploys)
    (fun _ _ _ hk hp h => ?_) (fun s a s' hk hj hp h => ?_)
    ⟨.init timers complianceReporting, .init timers complianceReporting⟩ ?_ hok hrun
  · exact ⟨consistent_step hk.1 hp h, (stepped hk.1 hp h).outdatedDeploys hk.2⟩
  · have hdirty := (consistent_step hk.1 hp h).scheduler.dirty
    exact (and_iff_left hdirty).trans ((stepped hk.1 hp h).dirtyEnough_iff hk.2 hj.1)
  · exact ⟨.empty, fun r hr => absurd hr (List.not_mem_nil)⟩

theorem dirty_exact_enough_iff_dropRequirement :
    Always step (fun s => s.scheduler.state.DirtyEnough
        ∧ ∀ r ∈ s.scheduler.state.dirty, s.scheduler.state.Deployable r) idle dropRequirement := by
  obtain ⟨s, hrun, -⟩ := exists_run_of_any step idle dropRequirement (p := fun s =>
    s.scheduler.state.blocked? (nullResource "a") = some .notBlocked) (by decide)
  have hgood : Along step ResetsNone idle dropRequirement := by decide
  exact (dirty_exact_enough_iff (by decide) hrun).mpr (hgood.imp fun _ _ h => h.keepsDirty)

/-- `a` can be deployed again, was skipped last, and is not dirty. -/
theorem recreateWithOther_clean :
    Along step (fun s a => a.Permitted s) idle recreateWithOther
      ∧ ∃ s, run step idle recreateWithOther = some s
        ∧ ¬ s.scheduler.state.DirtyEnough := by
  refine ⟨by decide, ?_⟩
  obtain ⟨s, hrun, hb, hun, hclean⟩ := exists_run_of_any step idle recreateWithOther (p := fun s =>
    s.scheduler.state.blocked? (nullResource "a") = some .notBlocked
      ∧ s.scheduler.state.Unfinished (nullResource "a")
      ∧ nullResource "a" ∉ s.scheduler.state.dirty) (by decide)
  exact ⟨s, hrun, fun hd => hclean (hd _ ⟨hb, hun⟩)⟩

end System

end Inmanta
