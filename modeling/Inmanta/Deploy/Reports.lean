import Inmanta.Deploy.Requests

/-!
# What the report of a deploy does

`Reported` lists the four outcomes of
`updateSchedulerStateForFinishedDeploy`. A deploy of a resource that is
unmanaged by now, or was in between, is dropped; one for an intent that
is not the latest, or of a resource that is undefined by now, only counts
as the last deploy; one for the latest intent is registered, unless the
resource is not among those that are deploying for it (`lost`).
-/

namespace Inmanta

/-! ## Results of a handler -/

namespace HandlerResult

theorem fromHandlerResourceState_ok (report : DeployReport) :
    ∃ result, fromHandlerResourceState report.resourceState = .ok result := by
  have hdry := report.notDry
  cases h : report.resourceState with
  | dry => exact absurd h hdry
  | _ => exact ⟨_, rfl⟩

variable {state : HandlerResourceState} {result : HandlerResult}

theorem successful_iff (h : fromHandlerResourceState state = .ok result) :
    result = .successful ↔ state = .deployed ∨ state = .nonCompliant := by
  cases state <;> cases h <;> simp

theorem ne_new (h : fromHandlerResourceState state = .ok result) : result ≠ .new := by
  cases state <;> cases h <;> simp

end HandlerResult

namespace ModelState

variable {s : ModelState} {r : ResourceIdStr} {rs rs' : ResourceState}

@[simp] theorem setState_setState (s : ModelState) (r : ResourceIdStr) (rs rs' : ResourceState) :
    (s.setState r rs).setState r rs' = s.setState r rs' := by
  simp [setState]

/-- Overwriting the state of a managed resource. -/
theorem Valid.setState (hv : s.Valid) (hr : r ∈ s.resourceState) (rs : ResourceState) :
    (s.setState r rs).Valid where
  intent := fun x => by
    rw [ModelState.setState, Dict.mem_set, hv.intent]
    exact (or_iff_right_of_imp fun e => e ▸ hr).symm
  intentId := hv.intentId
  requires := fun x => by
    rw [ModelState.setState, Dict.mem_set]
    exact (hv.requires x).trans (or_iff_right_of_imp fun e => e ▸ hr).symm
  agents := fun a x => by
    rw [ModelState.setState, Dict.mem_set]
    exact (hv.agents a x).trans
      (and_congr_left' (or_iff_right_of_imp fun e => e ▸ hr).symm)
  closed := fun x d hd => by
    obtain ⟨hx, hd'⟩ := hv.closed x d hd
    exact ⟨Dict.mem_set.mpr (Or.inr hx), Dict.mem_set.mpr (Or.inr hd')⟩

end ModelState

namespace Scheduler

variable {s s' : Scheduler} {r x : ResourceIdStr} {rs : ResourceState} {report : DeployReport}
  {result : HandlerResult} {finished : Time}

/-- Whether a reported result brings a resource that was known to be bad into a
good state. -/
def Recovered (rs : ResourceState) (report : DeployReport) : Prop :=
  rs.lastHandlerRunCompliant = some false ∧ report.resourceState = .deployed

instance (rs : ResourceState) (report : DeployReport) : Decidable (Recovered rs report) :=
  inferInstanceAs (Decidable (_ ∧ _))

/-- What a deploy that is not for the latest intent changes. -/
def staleState (rs : ResourceState) (result : HandlerResult) (finished : Time) : ResourceState :=
  { rs with lastHandlerRun := result, lastDeployed := some finished }

/-- The compliance a deploy for the latest intent leads to. -/
def landedCompliance (report : DeployReport) : Compliance :=
  if report.resourceState = .deployed then .compliant else .nonCompliant

/-- The state of a resource after a deploy for its latest intent. -/
def landedState (rs : ResourceState) (report : DeployReport) (result : HandlerResult)
    (finished : Time) (skip : Bool) : ResourceState where
  compliance := landedCompliance report
  lastHandlerRun := result
  blocked :=
    if skip then .temporarilyBlocked
    else if result = .successful ∧ rs.blocked = .temporarilyBlocked then .notBlocked
    else rs.blocked
  lastDeployed := some finished
  lastHandlerRunCompliant := some (report.resourceState = .deployed)

/-- The result of a deploy for the latest intent has been registered. -/
structure Landed (s : Scheduler) (rs : ResourceState) (report : DeployReport)
    (result : HandlerResult) (finished : Time) (skipped : Bool) (s' : Scheduler) : Prop where
  valid : s'.state.Valid
  intent : s'.state.intent = s.state.intent
  requires : s'.state.requires = s.state.requires
  own : s'.state.resourceState.get? report.resourceId
    = some (landedState rs report result finished skipped)
  other : ∀ x, x ≠ report.resourceId →
    s'.state.resourceState.get? x = s.state.resourceState.get? x
  skip : skipped = true ↔ rs.blocked ≠ .blocked ∧ report.resourceState = .skippedForDependency
    ∧ ∃ d ∈ s'.state.requiresOf report.resourceId, s'.state.KnownBad d
  dirty : ∀ x, x ∈ s'.state.dirty ↔
    if x = report.resourceId then skipped = false ∧ result ≠ .successful else x ∈ s.state.dirty
  latest : ∀ x, x ∈ s'.deployingLatest ↔ x ∈ s.deployingLatest ∧ x ≠ report.resourceId
  unmanaged : s'.deployingUnmanaged = s.deployingUnmanaged
  work : s'.work = s.work
  timers : s'.timers = s.timers

/-- The outcomes of a reported deploy. -/
inductive Reported (s : Scheduler) (deploy : DeployIntent) (report : DeployReport)
    (finished : Time) : Scheduler → Except PyError ResourceState → Prop where
  /-- The resource is not managed any more, or was not in between. -/
  | unmanaged :
      report.resourceId ∉ s.state.intent ∨ report.resourceId ∈ s.deployingUnmanaged →
      Reported s deploy report finished
        { s with deployingUnmanaged := discard s.deployingUnmanaged report.resourceId }
        (.error .staleResource)
  /-- The intent is not the latest. -/
  | stale {intent : ResourceIntent} {rs rs' : ResourceState} {result : HandlerResult}
      {s' : Scheduler} :
      s.state.intent.get? report.resourceId = some intent →
      report.resourceId ∉ s.deployingUnmanaged →
      s.state.resourceState.get? report.resourceId = some rs →
      HandlerResult.fromHandlerResourceState report.resourceState = .ok result →
      intent.attributeHash ≠ deploy.intent.attributeHash ∨ rs.compliance = .undefined →
      EventsSent { s with state := s.state.setState report.resourceId (staleState rs result finished) }
        report.resourceId (Recovered rs report) s' →
      s'.state.resourceState.get? report.resourceId = some rs' →
      Reported s deploy report finished s' (.ok rs')
  /-- The intent is the latest, but the resource is not registered as deploying
  for it. -/
  | lost {intent : ResourceIntent} {rs : ResourceState} :
      s.state.intent.get? report.resourceId = some intent →
      report.resourceId ∉ s.deployingUnmanaged →
      s.state.resourceState.get? report.resourceId = some rs →
      intent.attributeHash = deploy.intent.attributeHash → rs.compliance ≠ .undefined →
      report.resourceId ∉ s.deployingLatest →
      Reported s deploy report finished
        { s with
          state := s.state.setState report.resourceId
            { rs with compliance := landedCompliance report } }
        (.error .keyError)
  /-- The intent is the latest. -/
  | latest {intent : ResourceIntent} {rs rs' : ResourceState} {result : HandlerResult}
      {skip : Bool} {s₁ s' : Scheduler} :
      s.state.intent.get? report.resourceId = some intent →
      report.resourceId ∉ s.deployingUnmanaged →
      s.state.resourceState.get? report.resourceId = some rs →
      HandlerResult.fromHandlerResourceState report.resourceState = .ok result →
      intent.attributeHash = deploy.intent.attributeHash → rs.compliance ≠ .undefined →
      report.resourceId ∈ s.deployingLatest →
      Landed s rs report result finished skip s₁ →
      EventsSent s₁ report.resourceId (Recovered rs report) s' →
      s'.state.resourceState.get? report.resourceId = some rs' →
      Reported s deploy report finished s' (.ok rs')

/-- Sending events keeps the resource managed, so its state can be copied. -/
theorem EventsSent.copyState {recovered : Bool} (h : EventsSent s r recovered s')
    (hr : r ∈ s.state.resourceState) :
    ∃ rs, s'.state.resourceState.get? r = some rs ∧ s'.copyState r = .ok rs := by
  obtain ⟨rs, hrs⟩ := Dict.mem_iff.mp (h.same.mem_resourceState.mpr hr)
  exact ⟨rs, hrs, Dict.item_of_get? hrs⟩

/-- A stale report of a recovery sends its events. -/
theorem finishStale_recovered {intent : ResourceIntent} {result : HandlerResult}
    {finished : Time} {s' : Scheduler}
    (h : Scheduler.sendEvents
      { s with state := s.state.setState r (staleState rs result finished) } intent true true
        = .ok s') :
    s.finishStale r intent rs result true finished = (s', s'.copyState r) := by
  rw [staleState] at h
  simp only [finishStale, if_true, h]

theorem finishStale_ok (hv : s.state.Valid) (hw : s.work.Valid) {intent : ResourceIntent}
    (hi : s.state.intent.get? r = some intent) (hrs : s.state.resourceState.get? r = some rs)
    (hp : Task.deploy r ∈ s.work.agentQueues.inProgress) (result : HandlerResult)
    (finished : Time) (recovered : Bool) :
    ∃ s' rs', s.finishStale r intent rs result recovered finished = (s', .ok rs')
      ∧ EventsSent { s with state := s.state.setState r (staleState rs result finished) }
        r recovered s'
      ∧ s'.state.resourceState.get? r = some rs' := by
  have hmem := Dict.mem_of_get? hrs
  let s₁ : Scheduler := { s with state := s.state.setState r (staleState rs result finished) }
  have hv₁ : s₁.state.Valid := hv.setState hmem _
  have hw₁ : s₁.work.Valid := hw
  have hmem₁ : r ∈ s₁.state.resourceState := Dict.mem_set.mpr (Or.inl rfl)
  cases recovered with
  | false =>
      have he : EventsSent s₁ r false s₁ := .refl hw₁ r
      obtain ⟨rs', hrs', hcopy⟩ := he.copyState hmem₁
      exact ⟨s₁, rs', Prod.ext rfl hcopy, he, hrs'⟩
  | true =>
      obtain ⟨s', hs', he⟩ := sendEvents_ok hv₁ hw₁ (hv.intentId r intent hi) hp true true
      obtain ⟨rs', hrs', hcopy⟩ := he.copyState hmem₁
      exact ⟨s', rs', (finishStale_recovered hs').trans (Prod.ext rfl hcopy), he, hrs'⟩

/-- What `registerResult` does. -/
theorem registerResult_spec {s : ModelState} (hrs : s.resourceState.get? r = some rs)
    (result : HandlerResult) (skip : Bool) :
    SameButBlocked s (registerResult s r rs result skip)
      ∧ (registerResult s r rs result skip).resourceState.get? r = some { rs with
          blocked :=
            if skip then .temporarilyBlocked
            else if result = .successful ∧ rs.blocked = .temporarilyBlocked then .notBlocked
            else rs.blocked }
      ∧ (∀ x, x ≠ r →
          (registerResult s r rs result skip).resourceState.get? x = s.resourceState.get? x)
      ∧ ∀ x, x ∈ (registerResult s r rs result skip).dirty ↔
          if x = r then skip = false ∧ result ≠ .successful else x ∈ s.dirty := by
  have hdiscard : ∀ (t : ModelState) x, t.dirty = s.dirty →
      (x ∈ (t.discardDirty r).dirty ↔ if x = r then False else x ∈ s.dirty) := by
    intro t x ht
    rw [ModelState.discardDirty, mem_discard, ht]
    by_cases hx : x = r <;> simp [hx]
  have hset : ∀ b x, (s.setBlocked r rs b).resourceState.get? x =
      if x = r then some { rs with blocked := b } else s.resourceState.get? x := by
    intro b x
    rw [ModelState.setBlocked, ModelState.setState, Dict.get?_set]
  unfold registerResult
  cases skip with
  | true =>
      refine ⟨(SameButBlocked.setBlocked hrs _).trans (.setDirty _ _), (hset _ r).trans (if_pos rfl),
        fun x hx => (hset _ x).trans (if_neg hx), fun x => ?_⟩
      simpa using hdiscard (s.setBlocked r rs .temporarilyBlocked) x rfl
  | false =>
      by_cases hres : result = .successful
      · by_cases hb : rs.blocked = .temporarilyBlocked
        · have hrs' : (s.discardDirty r).resourceState.get? r = some rs := hrs
          simp only [Bool.false_eq_true, if_false, hres, hb, if_true, and_self]
          refine ⟨(SameButBlocked.setDirty s (discard s.dirty r)).trans (.setBlocked hrs' _),
            (hset _ r).trans (if_pos rfl), fun x hx => (hset _ x).trans (if_neg hx), fun x => ?_⟩
          show x ∈ (s.discardDirty r).dirty ↔ _
          simpa using hdiscard s x rfl
        · simp only [Bool.false_eq_true, if_false, hres, hb, if_true, and_false]
          refine ⟨.setDirty _ _, hrs, fun x _ => rfl, fun x => ?_⟩
          simpa using hdiscard s x rfl
      · simp only [Bool.false_eq_true, if_false, hres, false_and]
        refine ⟨.setDirty _ _, hrs, fun x _ => rfl, fun x => ?_⟩
        rw [ModelState.addDirty, List.mem_insert_iff]
        by_cases hx : x = r <;> simp [hx, hres]

/-- Registering the result of a deploy for the latest intent. -/
theorem registerResult_landed (hv : s.state.Valid)
    (hrs : s.state.resourceState.get? report.resourceId = some rs) (result : HandlerResult)
    (finished : Time) {rs₁ : ResourceState}
    (hrs₁ : rs₁ = ⟨landedCompliance report, result, rs.blocked, some finished,
      some (report.resourceState = .deployed)⟩) :
    ∃ skip, shouldBlock (s.state.setState report.resourceId rs₁) report.resourceId rs₁
        report.resourceState = .ok skip
      ∧ Landed s rs report result finished skip
        { s with
          deployingLatest := discard s.deployingLatest report.resourceId
          state := registerResult (s.state.setState report.resourceId rs₁) report.resourceId rs₁
            result skip } := by
  have hmem := Dict.mem_of_get? hrs
  have hv₁ := hv.setState hmem rs₁
  have hget : (s.state.setState report.resourceId rs₁).resourceState.get? report.resourceId
      = some rs₁ := (Dict.get?_set _ _ _ _).trans (if_pos rfl)
  have hblocked : rs₁.blocked = rs.blocked := by rw [hrs₁]
  have hskip : ∃ skip, shouldBlock (s.state.setState report.resourceId rs₁) report.resourceId rs₁
        report.resourceState = .ok skip
      ∧ (skip = true ↔ rs.blocked ≠ .blocked ∧ report.resourceState = .skippedForDependency
        ∧ ∃ d ∈ (s.state.setState report.resourceId rs₁).requiresOf report.resourceId,
          (s.state.setState report.resourceId rs₁).KnownBad d) := by
    obtain ⟨bad, hbad, hiff⟩ := ModelState.shouldSkipForDependencies_ok
      (s := s.state.setState report.resourceId rs₁) (r := report.resourceId)
      fun d hd => (hv₁.closed _ d hd).2
    unfold shouldBlock
    rw [hblocked]
    split
    · rename_i h
      exact ⟨bad, hbad, hiff.trans ⟨fun hx => ⟨h.1, h.2, hx⟩, fun hx => hx.2.2⟩⟩
    · rename_i h
      exact ⟨false, rfl, by simpa using fun h₁ h₂ => absurd ⟨h₁, h₂⟩ h⟩
  obtain ⟨skip, hok, hiff⟩ := hskip
  obtain ⟨hsame, hown, hother, hdirty⟩ := registerResult_spec hget result skip
  refine ⟨skip, hok, hsame.valid hv₁, hsame.intent, hsame.requires, ?_, fun x hx => ?_, ?_,
    hdirty, fun x => mem_discard, rfl, rfl, rfl⟩
  · rw [hown, hrs₁]
    rfl
  · rw [hother x hx]
    exact (Dict.get?_set _ _ _ _).trans (if_neg hx)
  · rw [hiff]
    simp only [hsame.requiresOf, hsame.knownBad]

theorem finishLatest_ok (hv : s.state.Valid) (hw : s.work.Valid) {intent : ResourceIntent}
    (hi : s.state.intent.get? report.resourceId = some intent)
    (hrs : s.state.resourceState.get? report.resourceId = some rs)
    (hp : Task.deploy report.resourceId ∈ s.work.agentQueues.inProgress)
    (hl : report.resourceId ∈ s.deployingLatest) (result : HandlerResult) (finished : Time)
    (recovered : Bool) :
    ∃ skip s₁ s' rs', s.finishLatest intent rs report result recovered finished = (s', .ok rs')
      ∧ Landed s rs report result finished skip s₁
      ∧ EventsSent s₁ report.resourceId recovered s'
      ∧ s'.state.resourceState.get? report.resourceId = some rs' := by
  obtain ⟨skip, hskip, hland⟩ := registerResult_landed hv hrs result finished rfl
  have hi₁ := hland.valid.intentId report.resourceId intent (hland.intent ▸ hi)
  obtain ⟨s', hs', he⟩ := sendEvents_ok hland.valid (hland.work ▸ hw) hi₁ (hland.work ▸ hp) false recovered
  obtain ⟨rs', hrs', hcopy⟩ := he.copyState (Dict.mem_of_get? hland.own)
  refine ⟨skip, _, s', rs', ?_, hland, he, hrs'⟩
  have hcompliance : (if decide (report.resourceState = .deployed) = true then Compliance.compliant
      else Compliance.nonCompliant) = landedCompliance report := by
    simp [landedCompliance]
  unfold finishLatest
  simp only [hcompliance]
  rw [if_neg (not_not.mpr hl)]
  simp only [ModelState.setState_setState, hskip, hs']
  exact Prod.ext rfl hcopy

/-- **The outcomes of a report.** Apart from a resource that is not registered as
deploying for the latest intent, no report fails. -/
theorem reported (hv : s.state.Valid) (hw : s.work.Valid) (deploy : DeployIntent)
    (report : DeployReport) (finished : Time)
    (hp : Task.deploy report.resourceId ∈ s.work.agentQueues.inProgress) :
    ∃ s' res, s.updateSchedulerStateForFinishedDeploy deploy report finished = (s', res)
      ∧ Reported s deploy report finished s' res := by
  obtain ⟨result, hresult⟩ := HandlerResult.fromHandlerResourceState_ok report
  unfold updateSchedulerStateForFinishedDeploy
  simp only [hresult]
  cases hi : s.state.intent.get? report.resourceId with
  | none => exact ⟨_, _, rfl, .unmanaged (Or.inl (Dict.not_mem_iff.mpr hi))⟩
  | some intent =>
      simp only
      by_cases hun : report.resourceId ∈ s.deployingUnmanaged
      · rw [if_pos hun]
        exact ⟨_, _, rfl, .unmanaged (Or.inr hun)⟩
      · obtain ⟨rs, hrs⟩ := Dict.mem_iff.mp ((hv.intent _).mp (Dict.mem_of_get? hi))
        rw [if_neg hun]
        simp only [hrs]
        rw [← Bool.decide_and]
        by_cases hstale : intent.attributeHash ≠ deploy.intent.attributeHash
            ∨ rs.compliance = .undefined
        · obtain ⟨s', rs', hs', he, hrs'⟩ := finishStale_ok hv hw hi hrs hp result finished
            (Recovered rs report)
          rw [if_pos hstale]
          exact ⟨s', .ok rs', hs', .stale hi hun hrs hresult hstale he hrs'⟩
        · rw [if_neg hstale]
          obtain ⟨hhash, hdef⟩ := not_or.mp hstale
          have hhash := not_not.mp hhash
          by_cases hl : report.resourceId ∈ s.deployingLatest
          · obtain ⟨skip, s₁, s', rs', hs', hland, he, hrs'⟩ := finishLatest_ok hv hw hi hrs hp hl result
              finished (Recovered rs report)
            exact ⟨s', .ok rs', hs', .latest hi hun hrs hresult hhash hdef hl hland he hrs'⟩
          · refine ⟨_, _, ?_, .lost hi hun hrs hhash hdef hl⟩
            unfold finishLatest
            simp only
            rw [if_pos hl]
            simp [landedCompliance]

theorem Reported.inProgress {deploy : DeployIntent} {res : Except PyError ResourceState}
    (h : Reported s deploy report finished s' res) (t : Task) :
    t ∈ s'.work.agentQueues.inProgress ↔ t ∈ s.work.agentQueues.inProgress := by
  cases h with
  | unmanaged _ => rfl
  | stale _ _ _ _ _ he _ => exact he.inProgress t
  | lost _ _ _ _ _ _ => rfl
  | latest _ _ _ _ _ _ _ hland he _ => rw [he.inProgress t, hland.work]

/-- What is scheduled stays scheduled. -/
theorem Reported.keeps {deploy : DeployIntent} {res : Except PyError ResourceState}
    (h : Reported s deploy report finished s' res) (hx : s.work.IsScheduled x) :
    s'.work.IsScheduled x := by
  cases h with
  | unmanaged _ => exact hx
  | stale _ _ _ _ _ he _ => exact he.keeps x hx
  | lost _ _ _ _ _ _ => exact hx
  | latest _ _ _ _ _ _ _ hland he _ => exact he.keeps x (hland.work ▸ hx)

theorem Reported.of_mem_latest {deploy : DeployIntent} {res : Except PyError ResourceState}
    (h : Reported s deploy report finished s' res) (hx : x ∈ s'.deployingLatest) :
    x ∈ s.deployingLatest := by
  cases h with
  | unmanaged _ => exact hx
  | stale _ _ _ _ _ he _ => exact he.latest ▸ hx
  | lost _ _ _ _ _ _ => exact hx
  | latest _ _ _ _ _ _ _ hland he _ => exact ((hland.latest x).mp (he.latest ▸ hx)).1

/-! ## The end of a deploy -/

theorem finishDeploy_work (hw : s.work.Valid) (r : ResourceIdStr) :
    (s.finishDeploy r).work.Valid
      ∧ (∀ x, (s.finishDeploy r).work.IsScheduled x ↔ s.work.IsScheduled x)
      ∧ (s.finishDeploy r).work.agentQueues.inProgress = s.work.agentQueues.inProgress := by
  show (s.work.finishedDeploy s.state.requires r).Valid
    ∧ (∀ x, (s.work.finishedDeploy s.state.requires r).IsScheduled x ↔ s.work.IsScheduled x)
    ∧ (s.work.finishedDeploy s.state.requires r).agentQueues.inProgress
      = s.work.agentQueues.inProgress
  by_cases hr : s.work.IsScheduled r
  · rw [ScheduledWork.finishedDeploy_of_isScheduled _ hr]
    exact ⟨hw, fun _ => Iff.rfl, rfl⟩
  · have h := ScheduledWork.finishedDeploy_spec hw s.state.requires hr
    exact ⟨h.valid, fun x => h.isScheduled, h.inProgress⟩

end Scheduler

end Inmanta
