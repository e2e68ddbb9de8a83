import Inmanta.Deploy.Reports

/-!
# What is consistent at all times

`Scheduler.Consistent` is the part of the invariants of the scheduler that
no operation breaks: an undefined resource is blocked, and what is dirty,
scheduled, or deploying for its latest intent may be deployed. It is
preserved by everything an operation may do to the scheduler.
-/

namespace Inmanta

/-- The parts of the scheduler state fit together. -/
structure Scheduler.Consistent (s : Scheduler) : Prop where
  state : s.state.Valid
  work : s.work.Valid
  undefined : ∀ r, s.state.IsUndefined r → s.state.IsBlocked r
  dirty : ∀ r ∈ s.state.dirty, s.state.Deployable r
  latest : ∀ r ∈ s.deployingLatest, s.state.Deployable r
  scheduled : ∀ r, s.work.IsScheduled r → s.state.Deployable r

namespace ModelState

variable {s s' : ModelState} {r : ResourceIdStr}

theorem deployable_iff : s.Deployable r ↔
    s.blocked? r = some .notBlocked ∨ s.blocked? r = some .temporarilyBlocked := by
  constructor
  · rintro ⟨hr, hb⟩
    obtain ⟨rs, hrs⟩ := Dict.mem_iff.mp hr
    rw [IsBlocked, blocked?_of_get? hrs] at hb
    rw [blocked?_of_get? hrs]
    cases h : rs.blocked with
    | blocked => exact absurd (congrArg some h) hb
    | notBlocked => exact Or.inl rfl
    | temporarilyBlocked => exact Or.inr rfl
  · rintro (h | h)
    · exact ⟨mem_resourceState_of_blocked? h, fun hb => by cases h.symm.trans hb⟩
    · exact ⟨mem_resourceState_of_blocked? h, fun hb => by cases h.symm.trans hb⟩

/-- Blocked statuses only move between the deployable ones. -/
theorem Deployable.of_blocked? (h : s'.blocked? r = s.blocked? r ∨ s'.blocked? r = some .notBlocked)
    (hd : s.Deployable r) : s'.Deployable r := by
  rw [deployable_iff] at hd ⊢
  rcases h with h | h
  · rwa [h]
  · exact Or.inl h

theorem isUndefined_iff : s.IsUndefined r ↔
    ∃ rs, s.resourceState.get? r = some rs ∧ rs.compliance = .undefined :=
  Option.map_eq_some_iff

theorem isBlocked_iff : s.IsBlocked r ↔
    ∃ rs, s.resourceState.get? r = some rs ∧ rs.blocked = .blocked :=
  Option.map_eq_some_iff

end ModelState

namespace Scheduler

variable {s s' : Scheduler} {r x : ResourceIdStr} {rs : List ResourceIdStr}

theorem Consistent.init (timers : TimerManager) (complianceReporting : Bool) :
    (Scheduler.init timers complianceReporting).Consistent where
  state := .empty
  work := ScheduledWork.Valid.empty
  undefined := by simp [Scheduler.init, ModelState.empty, ModelState.IsUndefined,
    ModelState.compliance?]
  dirty := by simp [Scheduler.init, ModelState.empty]
  latest := by simp [Scheduler.init]
  scheduled := by
    intro r hr
    rcases hr with hr | hr
    · exact absurd hr (Dict.not_mem_empty r)
    · exact absurd hr (AgentQueues.not_mem_empty _)

theorem Consistent.requested (h : s.Consistent) {force : Bool} (hreq : Requested s rs force s')
    (hrs : ∀ x ∈ rs, s.state.Deployable x) : s'.Consistent where
  state := hreq.state ▸ h.state
  work := hreq.workValid
  undefined := hreq.state ▸ h.undefined
  dirty := hreq.state ▸ h.dirty
  latest := by
    rw [hreq.state, hreq.latest]
    exact h.latest
  scheduled := by
    intro x hx
    rw [hreq.state]
    exact (hreq.new x hx).elim (h.scheduled x) fun hx => hx.elim (hrs x) (h.latest x)

theorem Consistent.deployRequested (h : s.Consistent) {dirty : List ResourceIdStr}
    (hreq : DeployRequested s dirty rs s') : s'.Consistent := by
  have hmay : ∀ x, s.MayRequest x → s.state.Deployable x := fun x hx => hx.elim (h.dirty x) id
  have h₁ : Consistent { s with state := { s.state with dirty } } :=
    ⟨⟨h.state.intent, h.state.intentId, h.state.requires, h.state.agents, h.state.closed⟩, h.work,
      h.undefined, fun x hx => hmay x (hreq.marked x hx), h.latest, h.scheduled⟩
  exact h₁.requested hreq.requested fun x hx => hmay x (hreq.allowed x hx)

theorem Consistent.eventsSent (h : s.Consistent) {recovered : Bool}
    (he : EventsSent s r recovered s') : s'.Consistent := by
  have hb : ∀ x, s'.state.blocked? x = s.state.blocked? x
      ∨ s'.state.blocked? x = some .notBlocked := by
    intro x
    rw [he.blocked]
    split
    · exact Or.inr rfl
    · exact Or.inl rfl
  have hdep : ∀ x, s.state.Deployable x → s'.state.Deployable x := fun x =>
    ModelState.Deployable.of_blocked? (hb x)
  have hskip : ∀ x, SkippedFor s.state r x → s.state.Deployable x := fun x hx =>
    ModelState.deployable_iff.mpr (Or.inr hx.1)
  refine ⟨he.same.valid h.state, he.workValid, fun x hx => ?_, fun x hx => ?_, fun x hx => ?_,
    fun x hx => ?_⟩
  · rw [ModelState.IsUndefined, he.same.compliance?] at hx
    have hblk := h.undefined x hx
    rw [ModelState.IsBlocked, he.blocked, if_neg]
    · exact hblk
    · exact fun hr => (hskip x hr.2).2 hblk
  · rcases (he.dirty x).mp hx with hx | hx
    · exact hdep x (h.dirty x hx)
    · exact hdep x (hskip x hx.2)
  · rw [he.latest] at hx
    exact hdep x (h.latest x hx)
  · rcases he.new x hx with hx | hx | hx
    · exact hdep x (h.scheduled x hx)
    · exact hdep x hx
    · exact hdep x (h.latest x hx)

/-- Overwriting the state of one resource that stays as blocked as it was. -/
theorem Consistent.setState (h : s.Consistent) {st st' : ResourceState}
    (hst : s.state.resourceState.get? r = some st) (hb : st'.blocked = st.blocked)
    (hc : st'.compliance = .undefined → st.compliance = .undefined) :
    Consistent { s with state := s.state.setState r st' } := by
  have hget : ∀ x, (s.state.setState r st').resourceState.get? x =
      if x = r then some st' else s.state.resourceState.get? x := fun x => Dict.get?_set _ _ _ _
  have hblk : ∀ x, (s.state.setState r st').blocked? x = s.state.blocked? x := by
    intro x
    rw [ModelState.blocked?, hget]
    split
    · rename_i hx
      rw [hx, ModelState.blocked?_of_get? hst, ← hb]
      rfl
    · rfl
  have hdep : ∀ x, s.state.Deployable x → (s.state.setState r st').Deployable x := fun x =>
    ModelState.Deployable.of_blocked? (Or.inl (hblk x))
  refine ⟨h.state.setState (Dict.mem_of_get? hst) st', h.work, fun x hx => ?_,
    fun x hx => hdep x (h.dirty x hx), fun x hx => hdep x (h.latest x hx),
    fun x hx => hdep x (h.scheduled x hx)⟩
  rw [ModelState.IsBlocked, hblk]
  refine h.undefined x ?_
  obtain ⟨st₁, hst₁, hun⟩ := ModelState.isUndefined_iff.mp hx
  rw [hget] at hst₁
  split at hst₁
  · rename_i hx
    obtain rfl := Option.some.inj hst₁
    exact ModelState.isUndefined_iff.mpr ⟨st, hx ▸ hst, hc hun⟩
  · exact ModelState.isUndefined_iff.mpr ⟨st₁, hst₁, hun⟩

theorem landedCompliance_defined (report : DeployReport) :
    landedCompliance report ≠ .undefined := by
  unfold landedCompliance
  split <;> simp

/-- A resource that has landed is not blocked if it was not. -/
theorem landedState_blocked {st : ResourceState} {report : DeployReport} {result : HandlerResult}
    {finished : Time} {skip : Bool} (hb : st.blocked ≠ .blocked) :
    (landedState st report result finished skip).blocked ≠ .blocked := by
  unfold landedState
  simp only
  split
  · simp
  · split
    · simp
    · exact hb

theorem Consistent.landed (h : s.Consistent) {report : DeployReport} {st : ResourceState}
    {result : HandlerResult} {finished : Time} {skip : Bool}
    (hst : s.state.resourceState.get? report.resourceId = some st)
    (hl : report.resourceId ∈ s.deployingLatest)
    (hland : Landed s st report result finished skip s') : s'.Consistent := by
  have hnb : st.blocked ≠ .blocked := fun hb =>
    (h.latest _ hl).2 (ModelState.isBlocked_iff.mpr ⟨st, hst, hb⟩)
  have hown : s'.state.Deployable report.resourceId := by
    refine ⟨Dict.mem_of_get? hland.own, fun hb => ?_⟩
    rw [ModelState.IsBlocked, ModelState.blocked?_of_get? hland.own] at hb
    exact landedState_blocked hnb (Option.some.inj hb)
  have hdep : ∀ x, s.state.Deployable x → s'.state.Deployable x := by
    intro x hx
    by_cases hxr : x = report.resourceId
    · exact hxr ▸ hown
    · refine ModelState.Deployable.of_blocked? (Or.inl ?_) hx
      rw [ModelState.blocked?, hland.other x hxr, ModelState.blocked?]
  refine ⟨hland.valid, hland.work ▸ h.work, fun x hx => ?_, fun x hx => ?_, fun x hx => ?_,
    fun x hx => hdep x (h.scheduled x (hland.work ▸ hx))⟩
  · by_cases hxr : x = report.resourceId
    · rw [hxr, ModelState.IsUndefined, ModelState.compliance?_of_get? hland.own] at hx
      exact absurd (Option.some.inj hx) (landedCompliance_defined report)
    · rw [ModelState.IsBlocked, ModelState.blocked?, hland.other x hxr]
      rw [ModelState.IsUndefined, ModelState.compliance?, hland.other x hxr] at hx
      exact h.undefined x hx
  · have hx := (hland.dirty x).mp hx
    by_cases hxr : x = report.resourceId
    · exact hxr ▸ hown
    · rw [if_neg hxr] at hx
      exact hdep x (h.dirty x hx)
  · exact hdep x (h.latest x ((hland.latest x).mp hx).1)

theorem Consistent.reported (h : s.Consistent) {deploy : DeployIntent} {report : DeployReport}
    {finished : Time} {res : Except PyError ResourceState}
    (hr : Reported s deploy report finished s' res) : s'.Consistent := by
  cases hr with
  | unmanaged _ => exact ⟨h.state, h.work, h.undefined, h.dirty, h.latest, h.scheduled⟩
  | @stale _ st _ result _ _ _ hrs _ _ he _ =>
      have h₁ : Consistent { s with
          state := s.state.setState report.resourceId (staleState st result finished) } :=
        h.setState hrs rfl id
      exact h₁.eventsSent he
  | lost _ _ hrs _ _ _ =>
      exact h.setState hrs rfl fun hc => absurd hc (landedCompliance_defined report)
  | latest _ _ hrs _ _ _ hl hland he _ => exact (h.landed hrs hl hland).eventsSent he

end Scheduler

/-! ## New versions -/

namespace VersionTrace.Applied

variable {t : VersionTrace} {reason : String} {s s' : Scheduler} {w : VersionWrite}
  {x : ResourceIdStr}

/-- The reset does not touch blocked resources. -/
theorem isBlocked_settled (h : t.Applied reason s s' w) :
    t.settled.IsBlocked x ↔ t.propagated.IsBlocked x := by
  rw [ModelState.IsBlocked, h.settled.blocked, ModelState.IsBlocked]
  split
  · rename_i hx
    rw [hx.2.1]
    simp
  · rfl

theorem mem_settled (h : t.Applied reason s s' w) :
    x ∈ t.settled.resourceState ↔ x ∈ t.edited.resourceState :=
  h.settled.same.mem_resourceState.trans h.propagated.same.mem_resourceState

theorem compliance_settled (h : t.Applied reason s s' w) (x : ResourceIdStr) :
    t.settled.compliance? x = t.edited.compliance? x :=
  (h.settled.same.compliance? x).trans (h.propagated.same.compliance? x)

/-- Nothing but the drop of the deleted resources happens after the deploys. -/
theorem get?_state (h : t.Applied reason s s' w) (hx : x ∉ t.update.deleted) :
    s'.state.resourceState.get? x = t.settled.resourceState.get? x := by
  rw [h.state.state, if_neg hx]

theorem not_mem_deleted (h : t.Applied reason s s' w) (hx : x ∈ s'.state.resourceState) :
    x ∉ t.update.deleted :=
  (h.state.mem_resourceState.mp hx).1

theorem blocked?_state (h : t.Applied reason s s' w) (hx : x ∉ t.update.deleted) :
    s'.state.blocked? x = t.settled.blocked? x := by
  rw [ModelState.blocked?, h.get?_state hx, ModelState.blocked?]

theorem compliance?_state (h : t.Applied reason s s' w) (hx : x ∉ t.update.deleted) :
    s'.state.compliance? x = t.edited.compliance? x := by
  rw [ModelState.compliance?, h.get?_state hx, ← h.compliance_settled, ModelState.compliance?]

theorem deployable_state (h : t.Applied reason s s' w) (hx : x ∉ t.update.deleted)
    (hd : t.settled.Deployable x) : s'.state.Deployable x := by
  refine ⟨h.state.mem_resourceState.mpr ⟨hx, hd.1⟩, ?_⟩
  rw [ModelState.IsBlocked, h.blocked?_state hx]
  exact hd.2

/-- A known resource that is neither new nor updated is as blocked as it was, or
recovers. -/
theorem blocked?_edited (h : t.Applied reason s s' w) (hx : ¬ t.update.Changes x) :
    t.edited.blocked? x = if t.update.Recovers s.state x then some .notBlocked
      else s.state.blocked? x := by
  rw [ModelState.blocked?, h.edited.stateOther x hx]
  split
  · rename_i hrec
    obtain ⟨rs, hrs, -⟩ := Option.map_eq_some_iff.mp hrec.2.1
    rw [hrs]
    rfl
  · rfl

/-- A resource that could be deployed and can not be any more has become
undefined, or was found to be blocked. -/
theorem deployable_or_undeployable (hc : s.Consistent) (h : t.Applied reason s s' w)
    (hx : s.state.Deployable x) : t.settled.Deployable x ∨
      x ∈ t.update.becameUndefined s.state ∨ x ∈ t.blocked := by
  by_cases hb : t.settled.IsBlocked x
  · right
    obtain ⟨hprov, -⟩ := (h.propagated.isBlocked x).mp (h.isBlocked_settled.mp hb)
    rcases hprov with hb | hr
    · left
      by_cases hch : t.update.Changes x
      · refine VersionUpdate.mem_becameUndefined.mpr ⟨hch, ?_, fun hu => hx.2 (hc.undefined x hu)⟩
        obtain ⟨rs, hrs⟩ := Dict.mem_iff.mp hx.1
        have hnb : rs.blocked ≠ .blocked := fun he =>
          hx.2 (ModelState.isBlocked_iff.mpr ⟨rs, hrs, he⟩)
        by_contra hdef
        rw [ModelState.IsBlocked, ModelState.blocked?_of_get? (h.edited.stateChanged x hch)] at hb
        simp [VersionUpdate.newState, hrs, ModelState.createdState, ModelState.refreshedState,
          hdef, hnb] at hb
        split at hb <;> simp at hb
      · rw [ModelState.IsBlocked, h.blocked?_edited hch] at hb
        split at hb
        · simp at hb
        · exact absurd hb hx.2
    · exact Or.inr (h.propagated.reached x hr)
  · refine Or.inl ⟨h.mem_settled.mpr ?_, hb⟩
    exact (h.edited.mem x).mpr (Or.inr hx.1)

/-- What is dirty after the edits may be deployed. -/
theorem deployable_of_dirty (hc : s.Consistent) (h : t.Applied reason s s' w)
    (hx : x ∈ t.settled.dirty) : t.settled.Deployable x := by
  have hdep : t.propagated.Deployable x := by
    rw [h.settled.dirty] at hx
    rw [ModelState.deployable_iff, h.propagated.blocked]
    by_cases hu : x ∈ t.unblocked
    · rw [if_pos hu]
      exact Or.inl rfl
    · obtain ⟨hx, hnb⟩ := ((h.propagated.dirty x).mp hx).resolve_left fun hx => hu hx.1
      rw [if_neg hu, if_neg hnb]
      by_cases hch : t.update.Changes x
      · rw [ModelState.blocked?_of_get? (h.edited.stateChanged x hch),
          (h.edited.dirtyChanged x hch).mp hx]
        exact Or.inl rfl
      · rw [h.blocked?_edited hch]
        split
        · exact Or.inl rfl
        · rename_i hrec
          have hx := ((h.edited.dirtyOther x hch).mp hx).resolve_right hrec
          exact ModelState.deployable_iff.mp (hc.dirty x hx)
  refine ⟨h.settled.same.mem_resourceState.mpr hdep.1, ?_⟩
  rw [h.isBlocked_settled]
  exact hdep.2

theorem newState_undefined {u : VersionUpdate} {old : ModelState}
    (hu : (u.newState old x).compliance = .undefined) : (u.newState old x).blocked = .blocked := by
  unfold VersionUpdate.newState ModelState.createdState ModelState.refreshedState at hu ⊢
  by_cases hm : x ∈ u.model.undefined
  · split
    · simp [hm]
    · split <;> simp [hm]
  · exfalso
    split at hu
    · simp [hm] at hu
    · split at hu <;> simp [hm] at hu

/-- The propagation leaves undefined resources blocked. -/
theorem undefined_blocked (hc : s.Consistent) (h : t.Applied reason s s' w)
    (hu : t.edited.IsUndefined x) : t.settled.IsBlocked x := by
  have hb : t.edited.IsBlocked x := by
    by_cases hch : t.update.Changes x
    · have hget := h.edited.stateChanged x hch
      rw [ModelState.IsUndefined, ModelState.compliance?_of_get? hget] at hu
      rw [ModelState.IsBlocked, ModelState.blocked?_of_get? hget,
        newState_undefined (Option.some.inj hu)]
    · rw [ModelState.IsBlocked, h.blocked?_edited hch]
      have hold : s.state.IsUndefined x := by
        rw [ModelState.IsUndefined, ModelState.compliance?, h.edited.stateOther x hch] at hu
        split at hu
        · simpa [ModelState.IsUndefined, ModelState.compliance?] using hu
        · exact hu
      have hblk := hc.undefined x hold
      rw [if_neg]
      · exact hblk
      · exact fun hrec => by cases hrec.2.1.symm.trans hblk
  rw [h.isBlocked_settled, h.propagated.isBlocked]
  refine ⟨Or.inl hb, fun hrel => ?_⟩
  cases hrel with
  | intro _ hdef _ _ => exact hdef hu

theorem consistent (hc : s.Consistent) (h : t.Applied reason s s' w) : s'.Consistent := by
  have hlatest : ∀ x ∈ s'.deployingLatest, x ∉ t.update.deleted ∧ t.settled.Deployable x := by
    intro x hx
    obtain ⟨hx, hch, hb⟩ := (h.latest x).mp hx
    refine ⟨fun hd => hch (VersionUpdate.mem_changes.mpr (Or.inr hd)), ?_⟩
    refine (h.deployable_or_undeployable hc (hc.latest x hx)).resolve_right ?_
    rintro (hu | hb')
    · exact hch (VersionUpdate.mem_changes.mpr (Or.inl (VersionUpdate.mem_becameUndefined.mp hu).1))
    · exact hb hb'
  refine ⟨h.state.valid, h.workValid, fun x hx => ?_, fun x hx => ?_, fun x hx => ?_, fun x hx => ?_⟩
  · have hdel : x ∉ t.update.deleted := by
      obtain ⟨rs, hrs, -⟩ := ModelState.isUndefined_iff.mp hx
      exact h.not_mem_deleted (Dict.mem_of_get? hrs)
    rw [ModelState.IsUndefined, h.compliance?_state hdel] at hx
    rw [ModelState.IsBlocked, h.blocked?_state hdel]
    exact h.undefined_blocked hc hx
  · obtain ⟨hx, hno⟩ := (h.state.dirty x).mp hx
    have hdep := h.deployable_of_dirty hc hx
    exact h.deployable_state (fun hd => hno ⟨hd, hdep.1⟩) hdep
  · obtain ⟨hdel, hdep⟩ := hlatest x hx
    exact h.deployable_state hdel hdep
  · -- scheduled before, dirty, or deploying, and not dropped
    have hsched : t.deployed.IsScheduled x ∧ x ∉ t.undeployable s.state := by
      rcases hx with hx | hx
      · obtain ⟨hx, hno⟩ := (h.waiting x).mp hx
        exact ⟨Or.inl hx, hno⟩
      · obtain ⟨hx, hno⟩ := (h.isQueued x).mp hx
        exact ⟨Or.inr hx, hno⟩
    obtain ⟨hsched, hno⟩ := hsched
    have hno : x ∉ t.update.deleted ∪ t.update.becameUndefined s.state ∪ t.blocked := hno
    simp only [List.mem_union_iff, not_or] at hno
    obtain ⟨⟨hdel, hund⟩, hblk⟩ := hno
    rcases (h.deployed.scheduled x).mp hsched with hold | hfresh | hdeferred
    · refine h.deployable_state hdel ?_
      exact (h.deployable_or_undeployable hc (hc.scheduled x hold)).resolve_right
        fun hu => hu.elim hund hblk
    · exact h.deployable_state hdel (h.deployable_of_dirty hc hfresh.1)
    · exact h.deployable_state hdel (hlatest x hdeferred.1).2

end VersionTrace.Applied

end Inmanta
