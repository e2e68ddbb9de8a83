import Inmanta.Deploy.SystemSteps

/-!
# Skipped dependants

A resource that was skipped for its dependencies (`TEMPORARILY_BLOCKED`)
waits for one of them to recover, so one of them has to be known to be
bad. Reports keep this up: what a resource reports is passed on to the
dependants that were skipped for it. New versions keep it up unless they
strand a skipped resource (`Strands`): its only bad requirements are
re-created, the edges to them are lost, and nothing looks at it again.
-/

namespace Inmanta

namespace ModelState

/-- Every resource that is skipped for its dependencies requires a bad one. -/
def SkipsJustified (s : ModelState) : Prop :=
  ∀ r, s.blocked? r = some .temporarilyBlocked → ∃ d ∈ s.requiresOf r, s.KnownBad d

theorem SkipsJustified.empty : ModelState.empty.SkipsJustified := fun r h => by
  simp [ModelState.empty, blocked?] at h

/-- Enough requirements stay bad for those that are still skipped. -/
theorem SkipsJustified.of_fewer {s s' : ModelState} (h : s.SkipsJustified)
    (hreq : ∀ r, s'.requiresOf r = s.requiresOf r)
    (hbad : ∀ d, s.KnownBad d → s'.KnownBad d)
    (hskip : ∀ r, s'.blocked? r = some .temporarilyBlocked →
      s.blocked? r = some .temporarilyBlocked) : s'.SkipsJustified := by
  intro r hr
  obtain ⟨d, hd, hb⟩ := h r (hskip r hr)
  exact ⟨d, hreq r ▸ hd, hbad d hb⟩

end ModelState

namespace Scheduler

variable {s s' : Scheduler} {r : ResourceIdStr}

/-! ## Reports -/

/-- A result that does not touch what justifies a skip. -/
theorem setState_skipsJustified (h : s.state.SkipsJustified) {st st' : ResourceState}
    (hst : s.state.resourceState.get? r = some st) (hb : st'.blocked = st.blocked)
    (hc : st'.lastHandlerRunCompliant = st.lastHandlerRunCompliant) :
    (s.state.setState r st').SkipsJustified := by
  have hget : ∀ x, (s.state.setState r st').resourceState.get? x =
      if x = r then some st' else s.state.resourceState.get? x := fun x => Dict.get?_set _ _ _ _
  refine h.of_fewer (fun _ => rfl) (fun d hd => ?_) fun x hx => ?_
  · obtain ⟨rs, hrs, hbad⟩ := hd
    rw [ModelState.KnownBad, hget]
    by_cases hdr : d = r
    · rw [if_pos hdr]
      rw [hdr, hst] at hrs
      obtain rfl := Option.some.inj hrs
      exact ⟨st', rfl, hc.trans hbad⟩
    · rw [if_neg hdr]
      exact ⟨rs, hrs, hbad⟩
  · rw [ModelState.blocked?, hget] at hx
    by_cases hxr : x = r
    · rw [if_pos hxr] at hx
      rw [hxr, ModelState.blocked?_of_get? hst, ← hb]
      exact hx
    · rw [if_neg hxr] at hx
      exact hx

/-- Sending events only lets dependants recover. -/
theorem EventsSent.skipsJustified {recovered : Bool} (he : EventsSent s r recovered s')
    (h : ∀ x, s.state.blocked? x = some .temporarilyBlocked →
      ¬ (recovered = true ∧ SkippedFor s.state r x) →
      ∃ d ∈ s.state.requiresOf x, s.state.KnownBad d) : s'.state.SkipsJustified := by
  intro x hx
  rw [he.blocked] at hx
  split at hx
  · cases hx
  · rename_i hno
    obtain ⟨d, hd, hb⟩ := h x hx hno
    exact ⟨d, he.same.requiresOf x ▸ hd, (he.same.knownBad d).mpr hb⟩

/-- The result of a deploy for the latest intent: what it was bad for recovers
by the event, and the resource itself is only skipped for a bad requirement. -/
theorem Landed.justifies {report : DeployReport} {st : ResourceState} {result : HandlerResult}
    {finished : Time} {skip : Bool}
    (hst : s.state.resourceState.get? report.resourceId = some st)
    (hland : Landed s st report result finished skip s') (h : s.state.SkipsJustified)
    {x : ResourceIdStr} (hx : s'.state.blocked? x = some .temporarilyBlocked)
    (hno : ¬ (decide (Recovered st report) = true ∧ SkippedFor s'.state report.resourceId x)) :
    ∃ d ∈ s'.state.requiresOf x, s'.state.KnownBad d := by
  have hreq : ∀ x, s'.state.requiresOf x = s.state.requiresOf x := fun x => by
    rw [ModelState.requiresOf, hland.requires, ModelState.requiresOf]
  -- a bad requirement stays bad, or recovers right now
  have hstays : ∀ d, s.state.KnownBad d → s'.state.KnownBad d
      ∨ (d = report.resourceId ∧ Recovered st report) := by
    intro d hd
    by_cases hdr : d = report.resourceId
    · obtain ⟨rs, hrs, hbad⟩ := hd
      rw [hdr, hst] at hrs
      obtain rfl := Option.some.inj hrs
      by_cases hdep : report.resourceState = .deployed
      · exact Or.inr ⟨hdr, hbad, hdep⟩
      · exact Or.inl (hdr ▸ ⟨_, hland.own, by simp [landedState, hdep]⟩)
    · refine Or.inl ?_
      rw [ModelState.KnownBad, hland.other d hdr]
      exact hd
  have hold : s.state.blocked? x = some .temporarilyBlocked →
      ∃ d ∈ s'.state.requiresOf x, s'.state.KnownBad d := by
    intro hx₀
    obtain ⟨d, hd, hbad⟩ := h x hx₀
    rcases hstays d hbad with hbad | ⟨rfl, hrec⟩
    · exact ⟨d, hreq x ▸ hd, hbad⟩
    · exact absurd ⟨decide_eq_true hrec, hx, hreq x ▸ hd⟩ hno
  by_cases hxr : x = report.resourceId
  · subst hxr
    cases skip with
    | true => exact (hland.skip.mp rfl).2.2
    | false =>
        rw [ModelState.blocked?_of_get? hland.own] at hx
        have hb := Option.some.inj hx
        simp only [landedState, Bool.false_eq_true, if_false] at hb
        refine hold ((ModelState.blocked?_of_get? hst).trans (congrArg some ?_))
        split at hb
        · cases hb
        · exact hb
  · refine hold ?_
    rw [ModelState.blocked?, hland.other x hxr] at hx
    exact hx

theorem Reported.skipsJustified {deploy : DeployIntent} {report : DeployReport} {finished : Time}
    {res : Except PyError ResourceState} (hr : Reported s deploy report finished s' res)
    (h : s.state.SkipsJustified) : s'.state.SkipsJustified := by
  cases hr with
  | unmanaged _ => exact h
  | @stale _ st _ result _ _ _ hrs _ _ he _ =>
      have h₁ : (s.state.setState report.resourceId
          (staleState st result finished)).SkipsJustified :=
        setState_skipsJustified h hrs rfl rfl
      exact he.skipsJustified fun x hx _ => h₁ x hx
  | lost _ _ hrs _ _ _ => exact setState_skipsJustified h hrs rfl rfl
  | latest _ _ hrs _ _ _ _ hland he _ =>
      exact he.skipsJustified fun x hx hno => hland.justifies hrs h hx hno

end Scheduler

/-! ## New versions -/

namespace VersionUpdate

variable (u : VersionUpdate) (old : ModelState)

/-- The resource is skipped, and after the edits it is for nothing: none of the
requirements that are left is bad. The edits themselves do not change it, and
drop no requirement that is not re-created. -/
structure SkippedForNothing (r : ResourceIdStr) : Prop where
  skipped : old.blocked? r = some .temporarilyBlocked
  unchanged : r ∉ u.changes
  noneBad : ∀ d ∈ u.requiresAfter old r, ¬ u.StaysBad old d
  noneDropped : r ∈ u.editedRequires → ∀ d ∈ old.requiresOf r, d ∉ u.forceNew old →
    d ∈ u.requiresOf r

instance (r : ResourceIdStr) : Decidable (u.SkippedForNothing old r) :=
  decidable_of_iff (old.blocked? r = some .temporarilyBlocked ∧ r ∉ u.changes
      ∧ (∀ d ∈ u.requiresAfter old r, ¬ u.StaysBad old d)
      ∧ (r ∈ u.editedRequires → ∀ d ∈ old.requiresOf r, d ∉ u.forceNew old → d ∈ u.requiresOf r))
    ⟨fun h => ⟨h.1, h.2.1, h.2.2.1, h.2.2.2⟩, fun h => ⟨h.1, h.2, h.3, h.4⟩⟩

/-- And no requirement that is left is re-created, so nothing makes the scheduler
look at the resource. -/
structure Overlooks (r : ResourceIdStr) : Prop extends u.SkippedForNothing old r where
  noneReset : ∀ d ∈ u.requiresAfter old r, d ∉ u.forceNew old

instance (r : ResourceIdStr) : Decidable (u.Overlooks old r) :=
  decidable_of_iff (u.SkippedForNothing old r ∧ ∀ d ∈ u.requiresAfter old r, d ∉ u.forceNew old)
    ⟨fun h => ⟨h.1, h.2⟩, fun h => ⟨h.1, h.2⟩⟩

/-- The propagation of the blocked status does not get to the resource. -/
def NotReached (r : ResourceIdStr) : Prop :=
  ∃ edited, u.Edited old edited
    ∧ ¬ Reached edited (u.becameUndefined old) u.addedRequires.keys r

/-- The update leaves a skipped resource behind: it is overlooked, and not
blocked for an undefined requirement either. -/
structure Strands (r : ResourceIdStr) : Prop extends u.Overlooks old r where
  notReached : u.NotReached old r

end VersionUpdate

namespace VersionTrace.Applied

variable {t : VersionTrace} {reason : String} {s s' : Scheduler} {w : VersionWrite}
  {r d : ResourceIdStr}

theorem edited_congr {u : VersionUpdate} {old s₁ s₂ : ModelState} (h₁ : u.Edited old s₁)
    (h₂ : u.Edited old s₂) : (∀ r d, d ∈ s₁.requiresOf r ↔ d ∈ s₂.requiresOf r)
      ∧ ∀ r, s₁.IsBlocked r ↔ s₂.IsBlocked r := by
  refine ⟨fun r d => h₁.mem_requiresOf.trans h₂.mem_requiresOf.symm, fun r => ?_⟩
  have hget : s₁.resourceState.get? r = s₂.resourceState.get? r := by
    by_cases hr : u.Changes r
    · rw [h₁.stateChanged r hr, h₂.stateChanged r hr]
    · rw [h₁.stateOther r hr, h₂.stateOther r hr]
  rw [ModelState.IsBlocked, ModelState.blocked?, hget]
  rfl

/-- What is bad after the update, and not deleted. -/
theorem knownBad_state (h : t.Applied reason s s' w) (hd : d ∉ t.update.deleted) :
    s'.state.KnownBad d ↔ t.update.StaysBad s.state d := by
  rw [← h.edited.knownBad, ← h.propagated.same.knownBad, ← h.settled.same.knownBad,
    ModelState.KnownBad, h.get?_state hd]
  rfl

/-- The requirements of a resource that is not deleted. -/
theorem mem_requiresOf_state (hv : s.state.Valid) (h : t.Applied reason s s' w)
    (hc : t.update.Closed s.state) (hr : r ∉ t.update.deleted) :
    d ∈ s'.state.requiresOf r ↔ d ∈ t.update.requiresAfter s.state r := by
  rw [h.state.requiresOf, h.settled.same.requiresOf, h.propagated.same.requiresOf,
    h.edited.mem_requiresOf]
  exact ⟨fun hd => hd.2.2, fun hd => ⟨hr, hc.not_deleted h.prepared hv hr hd, hd⟩⟩

/-- A re-created requirement makes the scheduler look at a dependant. -/
theorem mem_resetRequires (h : t.Applied reason s s' w) : r ∈ t.resetRequires ↔
    ∃ d ∈ t.update.requiresAfter s.state r, d ∈ t.update.forceNew s.state := by
  rw [h.resetRequires, List.mem_flatMap]
  simp only [ModelState.mem_providesOf, h.propagated.same.requiresOf, h.edited.mem_requiresOf]
  exact exists_congr fun d => and_comm

/-- What is unblocked was blocked, or is counted as blocked on the way. -/
theorem not_unblocked (h : t.Applied reason s s' w)
    (hr : t.edited.blocked? r = some .temporarilyBlocked) (hb : r ∉ t.blocked) :
    r ∉ t.unblocked := by
  intro hu
  cases (h.propagated.unblocked r).mp hu with
  | intro hprov _ _ _ =>
      rcases hprov with hblk | hreached
      · cases hr.symm.trans hblk
      · exact hb (h.propagated.reached r hreached)

/-- Whether a resource is still skipped before the reset. -/
theorem skipped_propagated_iff (h : t.Applied reason s s' w) :
    t.propagated.blocked? r = some .temporarilyBlocked ↔
      s.state.blocked? r = some .temporarilyBlocked ∧ ¬ t.update.Changes r
        ∧ ¬ t.update.Recovers s.state r ∧ r ∉ t.blocked := by
  have hedited : t.edited.blocked? r = some .temporarilyBlocked ↔
      s.state.blocked? r = some .temporarilyBlocked ∧ ¬ t.update.Changes r
        ∧ ¬ t.update.Recovers s.state r := by
    by_cases hch : t.update.Changes r
    · rw [ModelState.blocked?_of_get? (h.edited.stateChanged r hch)]
      refine iff_of_false (fun he => ?_) fun he => he.2.1 hch
      exact VersionUpdate.newState_blocked r (Option.some.inj he)
    · rw [h.blocked?_edited hch]
      by_cases hrec : t.update.Recovers s.state r <;> simp [hrec, hch]
  have hprop : t.propagated.blocked? r = some .temporarilyBlocked ↔
      t.edited.blocked? r = some .temporarilyBlocked ∧ r ∉ t.blocked := by
    rw [h.propagated.blocked]
    by_cases hu : r ∈ t.unblocked
    · rw [if_pos hu]
      exact iff_of_false (by simp) fun he => h.not_unblocked he.1 he.2 hu
    · rw [if_neg hu]
      by_cases hb : r ∈ t.blocked <;> simp [hb]
  rw [hprop, hedited, and_assoc, and_assoc]

theorem skippedInVain_propagated_iff (h : t.Applied reason s s' w) :
    t.propagated.SkippedInVain r ↔ t.propagated.blocked? r = some .temporarilyBlocked
      ∧ ∀ d ∈ t.update.requiresAfter s.state r, ¬ t.update.StaysBad s.state d := by
  unfold ModelState.SkippedInVain
  simp only [h.propagated.same.requiresOf, h.propagated.same.knownBad, h.edited.mem_requiresOf,
    h.edited.knownBad]

/-- Whether a resource is skipped after the update. -/
theorem skipped_iff (h : t.Applied reason s s' w) :
    s'.state.blocked? r = some .temporarilyBlocked ↔
      s.state.blocked? r = some .temporarilyBlocked ∧ r ∉ t.update.changes
        ∧ ¬ t.update.Recovers s.state r ∧ r ∉ t.blocked
        ∧ ¬ (r ∈ t.resetRequires ∧ ∀ d ∈ t.update.requiresAfter s.state r,
          ¬ t.update.StaysBad s.state d) := by
  have hsettled : t.settled.blocked? r = some .temporarilyBlocked ↔
      t.propagated.blocked? r = some .temporarilyBlocked
        ∧ ¬ (r ∈ t.resetRequires ∧ ∀ d ∈ t.update.requiresAfter s.state r,
          ¬ t.update.StaysBad s.state d) := by
    simp only [h.settled.blocked, h.skippedInVain_propagated_iff]
    by_cases hb : t.propagated.blocked? r = some .temporarilyBlocked
    · simp only [hb, true_and]
      split
      · rename_i hx
        exact iff_of_false (by simp) (not_not.mpr hx)
      · rename_i hx
        exact iff_of_true rfl hx
    · simp [hb]
  have hstate : s'.state.blocked? r = some .temporarilyBlocked ↔
      t.settled.blocked? r = some .temporarilyBlocked ∧ r ∉ t.update.deleted := by
    by_cases hd : r ∈ t.update.deleted
    · refine iff_of_false (fun hs => ?_) fun hs => hs.2 hd
      exact h.not_mem_deleted (ModelState.mem_resourceState_of_blocked? hs) hd
    · rw [h.blocked?_state hd]
      exact (and_iff_left hd).symm
  rw [hstate, hsettled, h.skipped_propagated_iff, VersionUpdate.mem_changes, not_or]
  constructor
  · rintro ⟨⟨⟨hs, hch, hrec, hb⟩, hreset⟩, hd⟩
    exact ⟨hs, ⟨hch, hd⟩, hrec, hb, hreset⟩
  · rintro ⟨hs, ⟨hch, hd⟩, hrec, hb, hreset⟩
    exact ⟨⟨⟨hs, hch, hrec, hb⟩, hreset⟩, hd⟩

/-- A skipped resource is blocked by the update just when the propagation
reaches it. -/
theorem mem_blocked_iff (h : t.Applied reason s s' w) (hnb : ¬ t.edited.IsBlocked r) :
    r ∈ t.blocked ↔
      Reached t.edited (t.update.becameUndefined s.state) t.update.addedRequires.keys r := by
  refine ⟨fun hr => ?_, h.propagated.reached r⟩
  have hprov := (h.propagated.sound r hr).elim Or.inr fun hc => by
    cases hc with
    | source _ _ hprov => exact hprov
    | step _ _ hprov => exact hprov
  exact hprov.resolve_left hnb

/-- A skipped resource that is not changed is not blocked by the edits. -/
theorem not_isBlocked_edited (h : t.Applied reason s s' w)
    (hr : s.state.blocked? r = some .temporarilyBlocked) (hch : r ∉ t.update.changes) :
    ¬ t.edited.IsBlocked r := by
  intro hb
  rw [ModelState.IsBlocked, h.blocked?_edited fun hx => hch
    (VersionUpdate.mem_changes.mpr (Or.inl hx)), hr] at hb
  split at hb <;> cases hb

/-- The propagation blocks a skipped resource just when it gets there. -/
theorem notReached_iff (h : t.Applied reason s s' w)
    (hr : s.state.blocked? r = some .temporarilyBlocked) (hch : r ∉ t.update.changes) :
    t.update.NotReached s.state r ↔ r ∉ t.blocked := by
  rw [h.mem_blocked_iff (h.not_isBlocked_edited hr hch)]
  constructor
  · rintro ⟨edited, hed, hno⟩ hreached
    obtain ⟨hreq, hb⟩ := edited_congr h.edited hed
    exact hno (hreached.congr hreq hb)
  · exact fun hno => ⟨t.edited, h.edited, hno⟩

/-- A resource that is skipped for nothing and drops no requirement that counts
does not recover by the edits. -/
theorem not_recovers {u : VersionUpdate} {old : ModelState} (h : u.SkippedForNothing old r) :
    ¬ u.Recovers old r := by
  rintro ⟨he, -, -, ⟨d, hd, hf, hno⟩, -⟩
  exact hno (h.noneDropped he d hd hf)

/-- A resource that is skipped for nothing in the end was skipped for nothing, as
far as the edits are concerned. -/
theorem skippedForNothing {u : VersionUpdate} {old : ModelState}
    (hr : old.blocked? r = some .temporarilyBlocked) (hch : r ∉ u.changes)
    (hrec : ¬ u.Recovers old r) (hgood : ∀ d ∈ u.requiresAfter old r, ¬ u.StaysBad old d) :
    u.SkippedForNothing old r := by
  refine ⟨hr, hch, hgood, fun he d hd hf => ?_⟩
  by_contra hno
  refine hrec ⟨he, hr, fun hx => hch (VersionUpdate.mem_changes.mpr (Or.inl hx)),
    ⟨d, hd, hf, hno⟩, ?_⟩
  rwa [VersionUpdate.requiresAfter, if_pos he] at hgood

/-- **A new version keeps skips justified unless it strands a resource.** -/
theorem skipsJustified_iff (hv : s.state.Valid) (h : t.Applied reason s s' w)
    (hc : t.update.Closed s.state) :
    s'.state.SkipsJustified ↔ ∀ r, ¬ t.update.Strands s.state r := by
  constructor
  · intro hj r hs
    have hblk := (h.notReached_iff hs.skipped hs.unchanged).mp hs.notReached
    have hreset : r ∉ t.resetRequires := fun hr => by
      obtain ⟨d, hd, hf⟩ := h.mem_resetRequires.mp hr
      exact hs.noneReset d hd hf
    have hdel : r ∉ t.update.deleted := fun hd =>
      hs.unchanged (VersionUpdate.mem_changes.mpr (Or.inr hd))
    obtain ⟨d, hd, hbad⟩ := hj r (h.skipped_iff.mpr ⟨hs.skipped, hs.unchanged,
      not_recovers hs.toSkippedForNothing, hblk, fun hr => hreset hr.1⟩)
    rw [h.mem_requiresOf_state hv hc hdel] at hd
    exact hs.noneBad d hd ((h.knownBad_state (hc.not_deleted h.prepared hv hdel hd)).mp hbad)
  · intro hns r hr
    obtain ⟨hskip, hch, hrec, hblk, hreset⟩ := h.skipped_iff.mp hr
    have hdel : r ∉ t.update.deleted := fun hd =>
      hch (VersionUpdate.mem_changes.mpr (Or.inr hd))
    by_contra hnone
    have hgood : ∀ d ∈ t.update.requiresAfter s.state r, ¬ t.update.StaysBad s.state d := by
      intro d hd hbad
      refine hnone ⟨d, (h.mem_requiresOf_state hv hc hdel).mpr hd, ?_⟩
      exact (h.knownBad_state (hc.not_deleted h.prepared hv hdel hd)).mpr hbad
    refine hns r ⟨⟨skippedForNothing hskip hch hrec hgood, fun d hd hf => ?_⟩,
      (h.notReached_iff hskip hch).mpr hblk⟩
    exact hreset ⟨h.mem_resetRequires.mpr ⟨d, hd, hf⟩, hgood⟩

end VersionTrace.Applied

/-! ## Runs -/

namespace System

/-- The new version strands no skipped resource. -/
def StrandsNone (s : System) : Action → Prop
  | .newVersion _ versions _ => ∀ u, s.scheduler.state.prepare versions [] = .ok u →
      ∀ r, ¬ u.Strands s.scheduler.state r
  | _ => True

variable {s s' : System} {a : Action}

theorem strandsNone_of_isRequest (h : a.IsRequest) : s.StrandsNone a := by
  cases a with
  | newVersion _ _ _ => exact h.elim
  | _ => trivial

theorem Stepped.skipsJustified_iff (hc : s.Consistent) (h : Stepped s a s')
    (hj : s.scheduler.state.SkipsJustified) :
    s'.scheduler.state.SkipsJustified ↔ s.StrandsNone a := by
  cases h with
  | newVersion _ hpr hclosed ht =>
      refine (ht.skipsJustified_iff hc.scheduler.state hclosed).trans ?_
      exact ⟨fun h u hu => Except.ok.inj (hpr.symm.trans hu) ▸ h, fun h => h _ hpr⟩
  | writeVersion _ _ => exact iff_of_true hj trivial
  | request ha hd =>
      refine iff_of_true ?_ (strandsNone_of_isRequest ha)
      refine hj.of_fewer (fun _ => ?_) (fun _ => ?_) fun _ => ?_
      · rw [hd.requested.state]
        rfl
      · rw [hd.requested.state]
        exact id
      · rw [hd.requested.state]
        exact id
  | picked _ _ _ => exact iff_of_true hj trivial
  | other _ _ => exact iff_of_true hj trivial
  | notStarted _ _ => exact iff_of_true hj trivial
  | started _ _ _ => exact iff_of_true hj trivial
  | reported _ hrep => exact iff_of_true (hrep.skipsJustified hj) trivial
  | sent _ => exact iff_of_true hj trivial
  | finished _ => exact iff_of_true hj trivial
  | ended _ _ => exact iff_of_true hj trivial

/-- A sufficient condition that can be evaluated. -/
def OverlooksNone (s : System) : Action → Prop
  | .newVersion _ versions _ => ∀ u, s.scheduler.state.prepare versions [] = .ok u →
      ∀ r ∈ s.scheduler.state.resourceState.keys, ¬ u.Overlooks s.scheduler.state r
  | _ => True

instance (s : System) : DecidablePred s.OverlooksNone
  | .newVersion _ _ _ => inferInstanceAs (Decidable (∀ _, _ = _ → ∀ _ ∈ _, ¬ _))
  | .writeVersion _ | .deploy _ _ _ _ | .repair _ _ _ _ | .deployResource _ _ _ | .timerFires _
  | .queueGet _ | .deployStart _ _ _ | .deployReport _ _ | .sendDeployDone _ | .finishDeploy _
  | .taskDone _ => inferInstanceAs (Decidable True)

theorem OverlooksNone.strandsNone (h : s.OverlooksNone a) : s.StrandsNone a := by
  cases a with
  | newVersion _ _ _ =>
      intro u hu r hs
      have hr := ModelState.mem_resourceState_of_blocked? hs.skipped
      exact h u hu r (Dict.mem_keys.mpr hr) hs.toOverlooks
  | _ => trivial

/-! ### A requirement that is re-created -/

/-- `a` requires `b`, which fails, so `a` is skipped. -/
def skipDependant : List Action :=
  releaseAll [nullVersion 1 [("a", "h", ["b"]), ("b", "h", [])] []]
    ++ deployNext "b" .failed HandlerResourceState.failed_ne_dry
    ++ deployNext "a" .skippedForDependency HandlerResourceState.skippedForDependency_ne_dry

/-- Then `a` drops its requirement, and requires it again. -/
def dropRequirement : List Action :=
  skipDependant ++ releaseAll [nullVersion 2 [("a", "h", []), ("b", "h", [])] []]
    ++ releaseAll [nullVersion 3 [("a", "h", ["b"]), ("b", "h", [])] []]

/-- Or `b` is deleted and re-created in the versions of one batch. -/
def recreateRequirement : List Action :=
  skipDependant
    ++ releaseAll [nullVersion 2 [("a", "h", [])] [],
      nullVersion 3 [("a", "h", ["b"]), ("b", "h", [])] []]

/-- **Every skip is justified** in every state of a run of any length, just when
no new version of the run strands a skipped resource. -/
theorem skips_justified_iff {timers : TimerManager} {complianceReporting : Bool}
    {as : List Action} {s : System}
    (hok : Along step (fun s a => a.Permitted s) (init timers complianceReporting) as)
    (hrun : run step (init timers complianceReporting) as = some s) :
    Always step (fun s => s.scheduler.state.SkipsJustified) (init timers complianceReporting) as ↔
      Along step StrandsNone (init timers complianceReporting) as :=
  always_iff_along (K := Consistent) (fun _ _ _ hc hp h => consistent_step hc hp h)
    (fun _ _ _ hc hj hp h => (stepped hc hp h).skipsJustified_iff hc hj)
    (.init timers complianceReporting) .empty hok hrun

theorem skips_justified_iff_dropRequirement :
    Always step (fun s => s.scheduler.state.SkipsJustified) idle dropRequirement := by
  obtain ⟨s, hrun, -⟩ := exists_run_of_any step idle dropRequirement (p := fun s =>
    s.scheduler.state.blocked? (nullResource "a") = some .notBlocked) (by decide)
  have hgood : Along step OverlooksNone idle dropRequirement := by decide
  exact (skips_justified_iff (by decide) hrun).mpr (hgood.imp fun _ _ h => h.strandsNone)

/-- `a` stays skipped although it requires nothing any more. -/
theorem recreateRequirement_strands :
    Along step (fun s a => a.Permitted s) idle recreateRequirement
      ∧ ∃ s, run step idle recreateRequirement = some s
        ∧ ¬ s.scheduler.state.SkipsJustified := by
  refine ⟨by decide, ?_⟩
  obtain ⟨s, hrun, hskip, hreq⟩ := exists_run_of_any step idle recreateRequirement (p := fun s =>
    s.scheduler.state.blocked? (nullResource "a") = some .temporarilyBlocked
      ∧ s.scheduler.state.requiresOf (nullResource "a") = []) (by decide)
  refine ⟨s, hrun, fun hj => ?_⟩
  obtain ⟨d, hd, -⟩ := hj _ hskip
  rw [hreq] at hd
  cases hd

end System

end Inmanta
