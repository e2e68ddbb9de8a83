import Inmanta.Deploy.SystemSteps

/-!
# Deploys that fail to start

The start of a deploy fails if the states of the requirements can not be
told, or if it can not be written to the database. The task is dropped
then, and nothing is reported to the scheduled work.

`LeavesNoTrace` states what is expected of the state after that, and
`leavesNoTrace_iff` when it is so: `deploy_start` has marked the resource
as deploying by the time it writes to the database, and nobody releases
the dependants that wait for the dropped task.
-/

namespace Inmanta

namespace Scheduler

variable {s s' : Scheduler} {r x : ResourceIdStr}

/-- A resource is picked up by the requests: if it counts as deploying, it is
scheduled too. -/
def PickedUp (s : Scheduler) (r : ResourceIdStr) : Prop :=
  r ∈ s.deployingLatest → s.work.IsScheduled r

theorem Requested.pickedUp {rs : List ResourceIdStr} {force : Bool} (h : Requested s rs force s')
    (hp : s.PickedUp x) : s'.PickedUp x := fun hx =>
  h.keeps x (hp (h.latest ▸ hx))

theorem Requested.isScheduled {rs : List ResourceIdStr} {force : Bool}
    (h : Requested s rs force s') (hp : s.PickedUp x) (hx : x ∈ rs) : s'.work.IsScheduled x := by
  rcases h.scheduled x hx with hs | ⟨hl, -⟩
  · exact hs
  · exact h.keeps x (hp hl)

/-- A request for a single resource that is deploying schedules nothing. -/
theorem schedule_deploying (hw : s.work.Valid) (hr : r ∈ s.deployingLatest)
    (hns : ¬ s.work.IsScheduled r) (reason : String) (priority : TaskPriority) :
    ∃ s', s.schedule [r] reason priority false = .ok s' ∧ ¬ s'.work.IsScheduled r := by
  let req : DeployRequest := ⟨[r], reason, priority, s.deployingLatest, .empty, .empty, false⟩
  obtain ⟨work, hwork, h⟩ := deployWithContext_ok hw s.state.requires req
  refine ⟨{ s with work, timers := s.timers.stopTimers [r] }, ?_, fun hs => ?_⟩
  · rw [schedule]
    exact bind_eq_ok.mpr ⟨work, hwork, rfl⟩
  · have hfresh : ∀ d, ¬ req.Fresh s.work d := fun d hd => by
      obtain rfl : d = r := List.mem_singleton.mp hd.1
      exact hd.2.2 hr
    rcases (h.scheduled r).mp hs with hs | hf | ⟨-, hnew⟩
    · exact hns hs
    · exact hfresh r hf
    · refine hnew ?_
      have hadded : req.added r = [] := rfl
      simp [DeployRequest.newBlockers, hfresh, hadded]

end Scheduler

namespace VersionTrace.Applied

variable {t : VersionTrace} {reason : String} {s s' : Scheduler} {w : VersionWrite}
  {r : ResourceIdStr}

/-- What is scheduled stays so unless it can not be deployed any more. -/
theorem isScheduled (h : t.Applied reason s s' w) (hr : t.deployed.IsScheduled r)
    (hno : r ∉ t.undeployable s.state) : s'.work.IsScheduled r :=
  hr.imp (fun hr => (h.waiting r).mpr ⟨hr, hno⟩) fun hr => (h.isQueued r).mpr ⟨hr, hno⟩

theorem pickedUp (h : t.Applied reason s s' w) (hp : s.PickedUp r) : s'.PickedUp r := by
  intro hr
  obtain ⟨hr, hch, hb⟩ := (h.latest r).mp hr
  refine h.isScheduled ((h.deployed.scheduled r).mpr (Or.inl (hp hr))) ?_
  show r ∉ t.update.deleted ∪ t.update.becameUndefined s.state ∪ t.blocked
  simp only [List.mem_union_iff, not_or]
  refine ⟨⟨fun hd => ?_, fun hu => ?_⟩, hb⟩
  · exact hch (VersionUpdate.mem_changes.mpr (Or.inr hd))
  · exact hch (VersionUpdate.mem_changes.mpr (Or.inl (VersionUpdate.mem_becameUndefined.mp hu).1))

theorem isScheduled_of_dirty (h : t.Applied reason s s' w) (hp : s.PickedUp r)
    (hd : r ∈ t.settled.dirty) (hno : r ∉ t.undeployable s.state) : s'.work.IsScheduled r := by
  refine h.isScheduled ?_ hno
  by_cases hs : s.work.IsScheduled r
  · exact (h.deployed.scheduled r).mpr (Or.inl hs)
  · refine (h.deployed.scheduled r).mpr (Or.inr (Or.inl ⟨hd, hs, fun hrun => ?_⟩))
    exact hs (hp ((h.latest r).mp hrun).1)

end VersionTrace.Applied

namespace System

variable {s s' s₁ : System} {a : Action} {r : ResourceIdStr} {now : Time} {reachable : Bool}

/-! ## Failures -/

/-- Computing the states of the requirements raises. -/
def DependenciesFail (s : System) (r : ResourceIdStr) : Prop :=
  ∃ e, s.scheduler.getLastNonDeployingStateForDependencies r = .error e

instance (s : System) (r : ResourceIdStr) : Decidable (s.DependenciesFail r) :=
  decidable_of_iff
    ((s.scheduler.getLastNonDeployingStateForDependencies r).toOption = none) (by
      unfold DependenciesFail
      cases s.scheduler.getLastNonDeployingStateForDependencies r <;> simp [Except.toOption])

/-- The resource is there to be deployed, but a step of the start raises. -/
def FailsToStart (s : System) (r : ResourceIdStr) (reachable : Bool) : Prop :=
  s.scheduler.state.Deployable r ∧ (s.DependenciesFail r ∨ reachable = false)

/-- A start that fails only touches the set of deploying resources, and only if it
gets as far as the database. -/
theorem FailsToStart.spec (hv : s.scheduler.state.Valid) (hf : s.FailsToStart r reachable)
    (h : s.step (.deployStart r now reachable) = some s₁) :
    s₁.progress.get? r = some .over ∧ s₁.scheduler.state = s.scheduler.state
      ∧ s₁.scheduler.work = s.scheduler.work
      ∧ (r ∈ s₁.scheduler.deployingLatest ↔
        r ∈ s.scheduler.deployingLatest ∨ ¬ s.DependenciesFail r) := by
  obtain ⟨⟨hmem, hb⟩, hfail⟩ := hf
  obtain ⟨rs, hrs⟩ := Dict.mem_iff.mp hmem
  obtain ⟨intent, hi⟩ := Dict.mem_iff.mp ((hv.intent r).mpr hmem)
  have hnb : rs.blocked ≠ .blocked := fun he => hb (ModelState.isBlocked_iff.mpr ⟨rs, hrs, he⟩)
  have hget : s.scheduler.getResourceIntent r = some intent := by
    rw [Scheduler.getResourceIntent, hrs]
    exact (if_neg hnb).trans hi
  rw [step, deployStart] at h
  split at h
  · rw [Scheduler.deployStart, hget] at h
    cases hdeps : s.scheduler.getLastNonDeployingStateForDependencies r with
    | error e =>
        rw [hdeps] at h
        obtain rfl := Option.some.inj h
        refine ⟨(Dict.get?_set _ _ _ _).trans (if_pos rfl), rfl, rfl, ?_⟩
        have hyes : s.DependenciesFail r := ⟨e, hdeps⟩
        exact (or_iff_left (not_not.mpr hyes)).symm
    | ok deps =>
        have hno : ¬ s.DependenciesFail r := by
          rintro ⟨e, he⟩
          cases hdeps.symm.trans he
        obtain rfl := hfail.resolve_left hno
        rw [hdeps] at h
        obtain rfl := Option.some.inj h
        refine ⟨(Dict.get?_set _ _ _ _).trans (if_pos rfl), rfl, rfl, ?_⟩
        exact iff_of_true (List.mem_insert_iff.mpr (Or.inl rfl)) (Or.inr hno)
  · cases h

/-! ## Later requests -/

/-- A worker takes the task of the resource. -/
def Takes (s : System) (r : ResourceIdStr) : Action → Prop
  | .queueGet agent => ∃ q item, s.scheduler.work.agentQueues.queueGet agent = some (q, item)
      ∧ item.task = .deploy r
  | _ => False

/-- The action requests a deploy of the resource. A new version does so for what
is dirty, except for what it blocks or deletes. -/
def Requests (s : System) (r : ResourceIdStr) (s' : System) : Action → Prop
  | .deploy _ _ agent resources => r ∈ s.scheduler.state.dirty
      ∧ s.scheduler.inScope agent resources r = true
  | .repair _ _ agent resources => r ∈ s.scheduler.repairable agent resources
  | .deployResource x _ _ => x = r ∧ s.scheduler.state.Deployable r
  | .newVersion _ _ reason => ∃ t w, VersionTrace.Applied t reason s.scheduler s'.scheduler w
      ∧ r ∈ t.settled.dirty ∧ r ∉ t.undeployable s.scheduler.state
  | _ => False

/-- No deploy of the resource is about to start, and requests pick it up. -/
structure Idle (s : System) (r : ResourceIdStr) : Prop where
  notPicked : s.progress.get? r ≠ some .picked
  pickedUp : s.scheduler.PickedUp r

theorem Stepped.idle (hi : s.Idle r) (ht : ¬ s.Takes r a) (hc : s.Consistent)
    (h : Stepped s a s') : s'.Idle r := by
  have hphase : ∀ {x : ResourceIdStr} {phase : DeployPhase}, (x = r → phase ≠ .picked) →
      (s.progress.set x phase).get? r ≠ some .picked := by
    intro x phase hx
    rw [Dict.get?_set]
    split
    · rename_i hrx
      exact fun he => hx hrx.symm (Option.some.inj he)
    · exact hi.notPicked
  cases h with
  | newVersion _ _ _ hv => exact ⟨hi.notPicked, hv.pickedUp hi.pickedUp⟩
  | writeVersion _ _ => exact ⟨hi.notPicked, hi.pickedUp⟩
  | request _ hd => exact ⟨hi.notPicked, hd.requested.pickedUp hi.pickedUp⟩
  | picked hq hitem _ =>
      obtain ⟨hin, -⟩ := AgentQueues.queueGet_spec hq
      have hne : Task.deploy r ≠ _ := fun he => ht ⟨_, _, hq, he.symm⟩
      refine ⟨hphase fun hx => absurd ⟨_, _, hq, hx ▸ hitem⟩ ht, fun hr => ?_⟩
      exact (hi.pickedUp hr).imp_right fun hr => (hin _).mpr ⟨hr, hne⟩
  | other hq hitem =>
      obtain ⟨hin, -⟩ := AgentQueues.queueGet_spec hq
      refine ⟨hi.notPicked, fun hr => ?_⟩
      exact (hi.pickedUp hr).imp_right fun hr => (hin _).mpr ⟨hr, (hitem r).symm⟩
  | notStarted _ _ => exact ⟨hphase fun _ h => (by cases h), hi.pickedUp⟩
  | @started x now reachable intent hph hd hint =>
      have hne : r ≠ x := fun hx => hi.notPicked (hx ▸ hph)
      refine ⟨hphase fun hx => absurd hx.symm hne, fun hr => hi.pickedUp ?_⟩
      exact (List.mem_insert_iff.mp hr).resolve_left hne
  | reported _ hrep =>
      refine ⟨hphase fun _ h => (by cases h), fun hr => ?_⟩
      exact hrep.keeps (hi.pickedUp (hrep.of_mem_latest hr))
  | sent _ => exact ⟨hphase fun _ h => (by cases h), hi.pickedUp⟩
  | @finished x hph =>
      obtain ⟨-, hs, -⟩ := Scheduler.finishDeploy_work hc.scheduler.work x
      exact ⟨hphase fun _ h => (by cases h), fun hr => (hs r).mpr (hi.pickedUp hr)⟩
  | ended _ hq =>
      obtain ⟨hin, -⟩ := AgentQueues.taskDone_spec hq
      refine ⟨fun hr => ?_, fun hr => (hi.pickedUp hr).imp_right (hin _).mpr⟩
      change Dict.get? (Dict.del _ _) _ = _ at hr
      rw [Dict.get?_del] at hr
      split at hr
      · cases hr
      · exact hi.notPicked hr

/-- Requests for an idle resource schedule it. -/
theorem Idle.isScheduled (hi : s.Idle r) (hc : s.Consistent) (hreq : s.Requests r s' a)
    (h : s.step a = some s') : s'.scheduler.work.IsScheduled r := by
  have hw := hc.scheduler.work
  have hset : ∀ {x : Except PyError Scheduler} {scheduler : Scheduler}, x = .ok scheduler →
      s.setScheduler x = some s' → s'.scheduler = scheduler := by
    rintro _ _ rfl hs
    obtain rfl := Option.some.inj hs
    rfl
  cases a with
  | deploy reason priority agent resources =>
      obtain ⟨s₁, hok, hd⟩ := Scheduler.schedule_ok hw
        (s.scheduler.state.dirty.filter (s.scheduler.inScope agent resources)) reason priority false
      rw [hset hok h]
      exact hd.isScheduled hi.pickedUp (List.mem_filter.mpr hreq)
  | repair reason priority agent resources =>
      let s₀ : Scheduler := { s.scheduler with
        state := { s.scheduler.state with
          dirty := s.scheduler.state.dirty ∪ s.scheduler.repairable agent resources } }
      have hw₀ : s₀.work.Valid := hw
      obtain ⟨s₁, hok, hd⟩ := Scheduler.schedule_ok hw₀ (s.scheduler.repairable agent resources) reason
        priority false
      rw [hset hok h]
      exact hd.isScheduled (x := r) hi.pickedUp hreq
  | deployResource x reason priority =>
      obtain ⟨rfl, hmem, hb⟩ := hreq
      obtain ⟨rs, hrs⟩ := Dict.mem_iff.mp hmem
      have hnb : rs.blocked ≠ .blocked := fun he =>
        hb (ModelState.isBlocked_iff.mpr ⟨rs, hrs, he⟩)
      obtain ⟨s₁, hok, hd⟩ := Scheduler.schedule_ok hw [x] reason priority false
      have hok : s.scheduler.deployResource x reason priority = .ok s₁ := by
        rw [Scheduler.deployResource, hrs]
        exact (if_neg hnb).trans hok
      rw [hset hok h]
      exact hd.isScheduled hi.pickedUp (List.mem_singleton.mpr rfl)
  | newVersion _ _ _ =>
      obtain ⟨t, w, happ, hd, hno⟩ := hreq
      exact happ.isScheduled_of_dirty hi.pickedUp hd hno
  | _ => exact hreq.elim

/-! ## What a failed start leaves behind -/

/-- A failed start of a deploy leaves no trace: the resource does not count as
deploying because of it, every later request schedules it until a worker takes
its task again, and no dependant waits for a task that is gone. -/
structure LeavesNoTrace (s : System) (r : ResourceIdStr) (s₁ : System) : Prop where
  latest : r ∈ s₁.scheduler.deployingLatest → r ∈ s.scheduler.deployingLatest
  requests : ∀ as s₂ a s₃,
    Along step (fun s a => a.Permitted s ∧ ¬ s.Takes r a) s₁ as → run step s₁ as = some s₂ →
    s₂.Requests r s₃ a → s₂.step a = some s₃ → s₃.scheduler.work.IsScheduled r
  dependants : ∀ x, r ∈ s₁.scheduler.work.blockedOn x → s₁.scheduler.work.IsScheduled r

/-- The start fails before it has any effect, or the resource counts as deploying
anyway; and the resource is scheduled again, or it does not count as deploying
and nothing waits for it. -/
structure StartsClean (s : System) (r : ResourceIdStr) : Prop where
  early : s.DependenciesFail r ∨ r ∈ s.scheduler.deployingLatest
  alone : s.scheduler.work.IsScheduled r ∨ (r ∉ s.scheduler.deployingLatest
    ∧ ∀ x, r ∉ s.scheduler.work.blockedOn x)

theorem Idle.run {as : List Action} (hc : s.Consistent) (hi : s.Idle r)
    (hok : Along step (fun s a => a.Permitted s ∧ ¬ s.Takes r a) s as)
    (hrun : run step s as = some s') : s'.Consistent ∧ s'.Idle r := by
  refine run_invariant (I := fun s => s.Consistent ∧ s.Idle r)
    (fun s a s' hk hp h => ?_) ⟨hc, hi⟩ hok hrun
  exact ⟨consistent_step hk.1 hp.1 h, (stepped hk.1 hp.1 h).idle hk.2 hp.2 hk.1⟩

/-- A deployable resource that counts as deploying and is not scheduled is missed
by a request for it. -/
theorem exists_missed_request (hc : s.Consistent) (hd : s.scheduler.state.Deployable r)
    (hl : r ∈ s.scheduler.deployingLatest) (hns : ¬ s.scheduler.work.IsScheduled r) :
    ∃ a s', s.Requests r s' a ∧ s.step a = some s' ∧ ¬ s'.scheduler.work.IsScheduled r := by
  obtain ⟨rs, hrs⟩ := Dict.mem_iff.mp hd.1
  have hnb : rs.blocked ≠ .blocked := fun he =>
    hd.2 (ModelState.isBlocked_iff.mpr ⟨rs, hrs, he⟩)
  obtain ⟨s', hs', hno⟩ := Scheduler.schedule_deploying hc.scheduler.work hl hns "" .userDeploy
  have hok : s.scheduler.deployResource r "" .userDeploy = .ok s' := by
    rw [Scheduler.deployResource, hrs]
    exact (if_neg hnb).trans hs'
  refine ⟨.deployResource r "" .userDeploy, { s with scheduler := s' }, ⟨rfl, hd⟩, ?_, hno⟩
  rw [step, hok]
  rfl

theorem FailsToStart.leavesNoTrace_iff (hc : s.Consistent) (hc₁ : s₁.Consistent)
    (hf : s.FailsToStart r reachable)
    (h : s.step (.deployStart r now reachable) = some s₁) :
    s.LeavesNoTrace r s₁ ↔ s.StartsClean r := by
  obtain ⟨hover, hstate, hwork, hlatest⟩ := hf.spec hc.scheduler.state h
  have hd₁ : s₁.scheduler.state.Deployable r := hstate ▸ hf.1
  constructor
  · rintro ⟨hnew, hreq, hdep⟩
    rw [hwork] at hdep
    have hearly : s.DependenciesFail r ∨ r ∈ s.scheduler.deployingLatest := by
      by_cases hdeps : s.DependenciesFail r
      · exact Or.inl hdeps
      · exact Or.inr (hnew (hlatest.mpr (Or.inr hdeps)))
    refine ⟨hearly, ?_⟩
    by_cases hs : s.scheduler.work.IsScheduled r
    · exact Or.inl hs
    · refine Or.inr ⟨fun hl => ?_, fun x hx => hs (hdep x hx)⟩
      obtain ⟨a, s₃, ha, hstep, hno⟩ := exists_missed_request hc₁ hd₁
        (hlatest.mpr (Or.inl hl)) (hwork ▸ hs)
      exact hno (hreq [] s₁ a s₃ trivial rfl ha hstep)
  · rintro ⟨hearly, halone⟩
    have hsame : r ∈ s₁.scheduler.deployingLatest ↔ r ∈ s.scheduler.deployingLatest :=
      hlatest.trans (or_iff_left_of_imp fun hno => hearly.resolve_left hno)
    have hidle : s₁.Idle r := by
      refine ⟨by simp [hover], fun hl => ?_⟩
      rw [hwork]
      exact halone.resolve_right fun hno => hno.1 (hsame.mp hl)
    refine ⟨hsame.mp, fun as s₂ a s₃ hok hrun hreq hstep => ?_, fun x hx => ?_⟩
    · obtain ⟨hc₂, hi₂⟩ := hidle.run hc₁ hok hrun
      exact hi₂.isScheduled hc₂ hreq hstep
    · rw [hwork] at hx ⊢
      exact halone.resolve_right fun hno => hno.2 x hx

/-! ### Failed starts in runs -/

/-- `b` requires `a`, and a worker has taken the task of `a`. -/
def pickRequirement : List Action :=
  releaseAll [nullVersion 1 [("a", "h", []), ("b", "h", ["a"])] []] ++ [.queueGet "agent1"]

/-- The deploy of `d` ends while it does not count as deploying, because its intent
changed and changed back; so the state of `d` can not be told. `d` and `a`, which
requires it, are blocked meanwhile, and the worker takes the tasks of `u` and `a`
again afterwards. -/
def pickUnknown : List Action :=
  releaseAll [nullVersion 1 [("u", "h", []), ("d", "h", ["u"]), ("a", "h", ["d"])] []]
    ++ deployNext "u" .deployed HandlerResourceState.deployed_ne_dry
    ++ [.queueGet "agent1", .deployStart (nullResource "d") 1 true]
    ++ releaseAll [nullVersion 2 [("u", "h", []), ("d", "h2", ["u"]), ("a", "h", ["d"])] []]
    ++ releaseAll [nullVersion 3 [("u", "h", []), ("d", "h", ["u"]), ("a", "h", ["d"])] []]
    ++ [.deployReport ⟨nullResource "d", .deployed, HandlerResourceState.deployed_ne_dry⟩ 2,
      .sendDeployDone (nullResource "d"),
      .finishDeploy (nullResource "d"), .taskDone (nullResource "d")]
    ++ releaseAll [nullVersion 4 [("u", "h2", []), ("d", "h", ["u"]), ("a", "h", ["d"])] ["u"]]
    ++ releaseAll [nullVersion 5 [("u", "h", []), ("d", "h", ["u"]), ("a", "h", ["d"])] []]
    ++ [.queueGet "agent1", .queueGet "agent1"]

/-- **A failed start leaves no trace**, in any state the scheduler can get into, just
when it fails before it has any effect and nothing waits for the resource, or
the resource is scheduled again. -/
theorem failedStart_leavesNoTrace_iff {timers : TimerManager} {complianceReporting : Bool}
    {as : List Action} {s : System}
    (hok : Along step (fun s a => a.Permitted s) (init timers complianceReporting) as)
    (hrun : run step (init timers complianceReporting) as = some s)
    {r : ResourceIdStr} {now : Time} {reachable : Bool} {s₁ : System}
    (hf : s.FailsToStart r reachable)
    (h : s.step (.deployStart r now reachable) = some s₁) :
    s.LeavesNoTrace r s₁ ↔ s.StartsClean r := by
  have hc : s.Consistent := run_invariant (fun _ _ _ hc hp h => consistent_step hc hp h)
    (.init timers complianceReporting) hok hrun
  have hp : Action.Permitted s (.deployStart r now reachable) := trivial
  exact hf.leavesNoTrace_iff hc (consistent_step hc hp h) h

theorem failedStart_leavesNoTrace_iff_pickUnknown :
    ∃ s s₁, run step idle pickUnknown = some s
      ∧ s.step (.deployStart (nullResource "a") 3 true) = some s₁
      ∧ s.LeavesNoTrace (nullResource "a") s₁ := by
  obtain ⟨s, hrun, hd, hfail, hl, hw, hs⟩ := exists_run_of_any step idle pickUnknown (p := fun s =>
    s.scheduler.state.Deployable (nullResource "a") ∧ s.DependenciesFail (nullResource "a")
      ∧ nullResource "a" ∉ s.scheduler.deployingLatest ∧ s.scheduler.work.waiting.keys = []
      ∧ (s.step (.deployStart (nullResource "a") 3 true)).isSome = true) (by decide)
  obtain ⟨s₁, h⟩ := Option.isSome_iff_exists.mp hs
  refine ⟨s, s₁, hrun, h, ?_⟩
  refine (failedStart_leavesNoTrace_iff (by decide) hrun ⟨hd, Or.inl hfail⟩ h).mpr
    ⟨Or.inl hfail, Or.inr ⟨hl, fun x => ?_⟩⟩
  have hx : x ∉ s.scheduler.work.waiting := fun hx => by
    have hk := Dict.mem_keys.mpr hx
    rw [hw] at hk
    cases hk
  rw [ScheduledWork.blockedOn_of_not_mem hx]
  exact List.not_mem_nil

/-- The start of `a` can not be written to the database. `a` counts as deploying from
then on, and `b` waits for it. -/
theorem pickRequirement_leavesTrace :
    Along step (fun s a => a.Permitted s) idle pickRequirement
      ∧ ∃ s s₁, run step idle pickRequirement = some s
        ∧ s.FailsToStart (nullResource "a") false
        ∧ s.step (.deployStart (nullResource "a") 3 false) = some s₁
        ∧ ¬ s.LeavesNoTrace (nullResource "a") s₁ := by
  refine ⟨by decide, ?_⟩
  obtain ⟨s, hrun, hd, hl, hs⟩ := exists_run_of_any step idle pickRequirement (p := fun s =>
    s.scheduler.state.Deployable (nullResource "a")
      ∧ nullResource "a" ∉ s.scheduler.deployingLatest
      ∧ (s.step (.deployStart (nullResource "a") 3 false)).any (fun s₁ =>
        nullResource "a" ∈ s₁.scheduler.deployingLatest) = true) (by decide)
  obtain ⟨s₁, h, hl₁⟩ := Option.any_eq_true .. |>.mp hs
  exact ⟨s, s₁, hrun, ⟨hd, Or.inr rfl⟩, h, fun hno => hl (hno.latest (of_decide_eq_true hl₁))⟩

end System

end Inmanta
