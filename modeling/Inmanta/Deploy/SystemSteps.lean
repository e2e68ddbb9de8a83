import Inmanta.Deploy.Consistency
import Inmanta.Deploy.System

/-!
# What a step of the scheduler at work does

`Stepped` says once what each action can do, in terms of the effects of
the operations (`Applied`, `DeployRequested`, `Reported`), so that an
invariant of runs is a case analysis over it. `Stepped.consistent` carries
the consistency of the scheduler, and the correspondence between the
deploys in progress and the tasks in progress, through all of them.
-/

namespace Inmanta

/-- Versions are well-formed, and the models they lead to are closed. -/
def Action.Permitted (s : System) : Action → Prop
  | .newVersion _ versions _ => Releasable s.scheduler.state versions
  | _ => True

instance (s : System) : DecidablePred (Action.Permitted s)
  | .newVersion _ _ _ => inferInstanceAs (Decidable (Releasable _ _))
  | .writeVersion _ | .deploy _ _ _ _ | .repair _ _ _ _ | .deployResource _ _ _ | .timerFires _
  | .queueGet _ | .deployStart _ _ _ | .deployReport _ _ | .sendDeployDone _ | .finishDeploy _
  | .taskDone _ => inferInstanceAs (Decidable True)

/-- The actions that only request deploys. -/
def Action.IsRequest : Action → Prop
  | .deploy _ _ _ _ | .repair _ _ _ _ | .deployResource _ _ _ | .timerFires _ => True
  | _ => False

def Scheduler.setQueues (s : Scheduler) (agentQueues : AgentQueues) : Scheduler :=
  { s with work := { s.work with agentQueues } }

@[simp] theorem Scheduler.setQueues_state (s : Scheduler) (q : AgentQueues) :
    (s.setQueues q).state = s.state := rfl

/-- A deploy starts, or the resource is stale or blocked, or the state of one of
its requirements can not be told. -/
theorem Scheduler.deployStart_cases {s : Scheduler} (hv : s.state.Valid) (r : ResourceIdStr)
    (now : Time) :
    (((∃ e, s.deployStart r now = .error e) ∨ ∃ s', s.deployStart r now = .ok (s', none))
      ∧ (¬ s.state.Deployable r
        ∨ ∃ e, s.getLastNonDeployingStateForDependencies r = .error e))
    ∨ ∃ intent : DeployIntent,
      s.deployStart r now
        = .ok ({ s with deployingLatest := s.deployingLatest.insert r }, some intent)
      ∧ s.state.Deployable r ∧ s.state.intent.get? r = some intent.intent := by
  unfold deployStart getResourceIntent
  cases hrs : s.state.resourceState.get? r with
  | none => exact Or.inl ⟨Or.inr ⟨s, rfl⟩, Or.inl fun hd => Dict.not_mem_iff.mpr hrs hd.1⟩
  | some rs =>
      simp only
      have hblk : s.state.IsBlocked r ↔ rs.blocked = .blocked := by
        rw [ModelState.IsBlocked, ModelState.blocked?_of_get? hrs, Option.some.injEq]
      by_cases hb : rs.blocked = .blocked
      · rw [if_pos hb]
        exact Or.inl ⟨Or.inr ⟨s, rfl⟩, Or.inl fun hd => hd.2 (hblk.mpr hb)⟩
      · rw [if_neg hb]
        cases hi : s.state.intent.get? r with
        | none =>
            exact absurd ((hv.intent r).mpr (Dict.mem_of_get? hrs)) (Dict.not_mem_iff.mpr hi)
        | some intent =>
            simp only
            cases hdeps : s.getLastNonDeployingStateForDependencies r with
            | error e => exact Or.inl ⟨Or.inl ⟨e, rfl⟩, Or.inr ⟨e, rfl⟩⟩
            | ok deps =>
                exact Or.inr ⟨⟨s.state.version, intent, deps, now⟩, rfl,
                  ⟨Dict.mem_of_get? hrs, fun h => hb (hblk.mp h)⟩, rfl⟩

namespace System

/-- The rows after `sendDeployDone` for a report with this outcome. -/
def sentRows (rows : PersistentStates) (intent : DeployIntent) (report : DeployReport)
    (finished : Time) : Except PyError ResourceState → PersistentStates
  | .ok state => rows.sendDeployDone intent report (some state) finished
  | .error .staleResource => rows.sendDeployDone intent report none finished
  | .error _ => rows

/-- What the actions do. -/
inductive Stepped (s : System) : Action → System → Prop where
  | newVersion {fuel : ℕ} {versions : List ModelVersion} {reason : String} {t : VersionTrace}
      {scheduler : Scheduler} {w : VersionWrite} :
      s.pendingWrite = none → s.scheduler.state.prepare versions [] = .ok t.update →
      t.update.Closed s.scheduler.state → t.Applied reason s.scheduler scheduler w →
      Stepped s (.newVersion fuel versions reason)
        { s with
          scheduler
          pendingWrite := some w
          rows := versions.foldl PersistentStates.populateForVersion s.rows }
  | writeVersion {maxVersion : ResourceIdStr → Option ℕ} {w : VersionWrite}
      {rows : PersistentStates} :
      s.pendingWrite = some w → s.rows.writeVersion s.scheduler.state w maxVersion = .ok rows →
      Stepped s (.writeVersion maxVersion) { s with rows, pendingWrite := none }
  | request {a : Action} {dirty rs : List ResourceIdStr} {scheduler : Scheduler} :
      a.IsRequest → s.scheduler.DeployRequested dirty rs scheduler →
      Stepped s a { s with scheduler }
  | picked {agent : String} {q : AgentQueues} {item : TaskQueueItem} {r : ResourceIdStr} :
      s.scheduler.work.agentQueues.queueGet agent = some (q, item) → item.task = .deploy r →
      r ∉ s.progress →
      Stepped s (.queueGet agent) { s.setPhase r .picked with scheduler := s.scheduler.setQueues q }
  | other {agent : String} {q : AgentQueues} {item : TaskQueueItem} :
      s.scheduler.work.agentQueues.queueGet agent = some (q, item) →
      (∀ r, item.task ≠ .deploy r) →
      Stepped s (.queueGet agent) { s with scheduler := s.scheduler.setQueues q }
  | notStarted {r : ResourceIdStr} {now : Time} {reachable : Bool} :
      s.progress.get? r = some .picked →
      ¬ s.scheduler.state.Deployable r
        ∨ (∃ e, s.scheduler.getLastNonDeployingStateForDependencies r = .error e) →
      Stepped s (.deployStart r now reachable) (s.setPhase r .over)
  | started {r : ResourceIdStr} {now : Time} {reachable : Bool} {intent : DeployIntent} :
      s.progress.get? r = some .picked → s.scheduler.state.Deployable r →
      s.scheduler.state.intent.get? r = some intent.intent →
      Stepped s (.deployStart r now reachable)
        { s.setPhase r (if reachable then .started intent else .over) with
          scheduler := { s.scheduler with
            deployingLatest := s.scheduler.deployingLatest.insert r } }
  | reported {report : DeployReport} {finished : Time} {intent : DeployIntent}
      {scheduler : Scheduler} {result : Except PyError ResourceState} :
      s.progress.get? report.resourceId = some (.started intent) →
      s.scheduler.Reported intent (s.scheduler.enforceComplianceReportingEntitlement report)
        finished scheduler result →
      Stepped s (.deployReport report finished)
        { s.setPhase report.resourceId (.reported intent
            (s.scheduler.enforceComplianceReportingEntitlement report) result finished) with
          scheduler }
  | sent {r : ResourceIdStr} {intent : DeployIntent} {report : DeployReport}
      {result : Except PyError ResourceState} {finished : Time} :
      s.progress.get? r = some (.reported intent report result finished) →
      Stepped s (.sendDeployDone r)
        { s.setPhase r .written with rows := sentRows s.rows intent report finished result }
  | finished {r : ResourceIdStr} :
      s.progress.get? r = some .written →
      Stepped s (.finishDeploy r)
        { s.setPhase r .over with scheduler := s.scheduler.finishDeploy r }
  | ended {r : ResourceIdStr} {q : AgentQueues} :
      s.progress.get? r = some .over →
      s.scheduler.work.agentQueues.taskDone (.deploy r) = .ok q →
      Stepped s (.taskDone r)
        { s with progress := s.progress.del r, scheduler := s.scheduler.setQueues q }

/-- The scheduler is consistent, and the deploys in progress are the ones whose
task is. -/
structure Consistent (s : System) : Prop where
  scheduler : s.scheduler.Consistent
  progress : ∀ r, r ∈ s.progress ↔ Task.deploy r ∈ s.scheduler.work.agentQueues.inProgress

theorem Consistent.init (timers : TimerManager) (complianceReporting : Bool) :
    (System.init timers complianceReporting).Consistent where
  scheduler := .init timers complianceReporting
  progress := fun r => iff_of_false (Dict.not_mem_empty r) (Dict.not_mem_empty _)

variable {s s' : System} {a : Action}

@[simp] theorem enforce_resourceId (s : Scheduler) (report : DeployReport) :
    (s.enforceComplianceReportingEntitlement report).resourceId = report.resourceId := by
  unfold Scheduler.enforceComplianceReportingEntitlement
  split <;> rfl

theorem stepped_of_request {x : Except PyError Scheduler} (ha : a.IsRequest) (h : s.setScheduler x = some s')
    (hreq : ∃ dirty rs scheduler, x = .ok scheduler
      ∧ s.scheduler.DeployRequested dirty rs scheduler) : Stepped s a s' := by
  obtain ⟨dirty, rs, scheduler, rfl, hd⟩ := hreq
  obtain rfl := Option.some.inj h
  exact .request ha hd

/-- **What a step can do.** -/
theorem stepped (hc : s.Consistent) (hp : a.Permitted s) (h : s.step a = some s') :
    Stepped s a s' := by
  have hv := hc.scheduler.state
  have hw := hc.scheduler.work
  cases a with
  | newVersion fuel versions reason =>
      rw [step, newVersion] at h
      split at h
      · cases h
      · rename_i hnone
        have hnone : s.pendingWrite = none := by simpa using hnone
        cases hn : s.scheduler.newVersion fuel versions [] .empty reason with
        | error e => rw [hn] at h; cases h
        | ok p =>
            obtain ⟨scheduler, write⟩ := p
            obtain ⟨t, w, rfl, hpr, ht⟩ := Scheduler.newVersion_spec hv hw hp hn
            rw [hn] at h
            obtain rfl := Option.some.inj h
            exact .newVersion hnone hpr (hp.closed _ hpr) ht
  | writeVersion maxVersion =>
      simp only [step, writeVersion, Option.bind_eq_bind, Option.bind_eq_some_iff] at h
      obtain ⟨w, hw, rows, hrows, hs⟩ := h
      obtain rfl := Option.some.inj hs
      cases hx : s.rows.writeVersion s.scheduler.state w maxVersion with
      | error e => rw [hx] at hrows; cases hrows
      | ok rows' =>
          rw [hx] at hrows
          obtain rfl := Option.some.inj hrows
          exact .writeVersion hw hx
  | deploy reason priority agent resources =>
      obtain ⟨rs, s₁, hok, hd⟩ := Scheduler.deploy_ok hw reason priority agent resources
      exact stepped_of_request trivial h ⟨_, rs, s₁, hok, hd⟩
  | repair reason priority agent resources =>
      obtain ⟨dirty, rs, s₁, hok, hd⟩ := Scheduler.repair_ok hv hw reason priority agent resources
      exact stepped_of_request trivial h ⟨dirty, rs, s₁, hok, hd⟩
  | deployResource r reason priority =>
      obtain ⟨rs, s₁, hok, hd⟩ := Scheduler.deployResource_ok hw r reason priority
      exact stepped_of_request trivial h ⟨_, rs, s₁, hok, hd⟩
  | timerFires r =>
      simp only [step, timerFires, Option.bind_eq_bind, Option.bind_eq_some_iff] at h
      obtain ⟨t, -, h⟩ := h
      split at h
      · cases h
      · obtain ⟨reason, -, h⟩ := Option.bind_eq_some_iff.mp h
        obtain ⟨priority, -, h⟩ := Option.bind_eq_some_iff.mp h
        obtain ⟨rs, s₁, hok, hd⟩ := Scheduler.deployResource_ok hw r reason priority
        exact stepped_of_request trivial h ⟨_, rs, s₁, hok, hd⟩
  | queueGet agent =>
      simp only [step, queueGet, Option.bind_eq_bind, Option.bind_eq_some_iff] at h
      obtain ⟨⟨q, item⟩, hq, h⟩ := h
      split at h
      · cases h
      · rename_i hfree
        obtain rfl := Option.some.inj h
        cases ht : item.task with
        | deploy r =>
            rw [ht] at hfree
            simp only
            exact .picked hq ht hfree
        | poisonPill _ =>
            simp only
            exact .other hq (by simp [ht])
        | dryRun _ _ _ _ =>
            simp only
            exact .other hq (by simp [ht])
        | refreshFact _ =>
            simp only
            exact .other hq (by simp [ht])
  | deployStart r now reachable =>
      rw [step, deployStart] at h
      split at h
      · rename_i hph
        obtain hs | ⟨intent, hs, hd, hi⟩ := Scheduler.deployStart_cases hv r now
        · obtain ⟨hres, hwhy⟩ := hs
          rcases hres with ⟨e, he⟩ | ⟨s₁, he⟩
          · rw [he] at h
            obtain rfl := Option.some.inj h
            exact .notStarted hph hwhy
          · rw [he] at h
            obtain rfl := Option.some.inj h
            exact .notStarted hph hwhy
        · rw [hs] at h
          obtain rfl := Option.some.inj h
          exact .started hph hd hi
      · cases h
  | deployReport report finished =>
      rw [step, deployReport] at h
      split at h
      · rename_i intent hph
        have hprog : Task.deploy report.resourceId ∈ s.scheduler.work.agentQueues.inProgress :=
          (hc.progress _).mp (Dict.mem_of_get? hph)
        obtain ⟨s₁, res, hs₁, hrep⟩ := Scheduler.reported hv hw intent
          (s.scheduler.enforceComplianceReportingEntitlement report) finished
          (by rwa [enforce_resourceId])
        simp only [hs₁, enforce_resourceId] at h
        obtain rfl := Option.some.inj h
        exact .reported hph hrep
      · cases h
  | sendDeployDone r =>
      rw [step, sendDeployDone] at h
      split at h
      · rename_i intent report result finished hph
        have hsent := Stepped.sent (s := s) hph
        cases result with
        | ok state =>
            obtain rfl := Option.some.inj h
            exact hsent
        | error e =>
            cases e <;> (obtain rfl := Option.some.inj h; exact hsent)
      · cases h
  | finishDeploy r =>
      rw [step, finishDeploy] at h
      split at h
      · rename_i hph
        obtain rfl := Option.some.inj h
        exact .finished hph
      · cases h
  | taskDone r =>
      rw [step, taskDone] at h
      split at h
      · rename_i hph
        split at h
        · rename_i q hq
          obtain rfl := Option.some.inj h
          exact .ended hph hq
        · cases h
      · cases h

/-! ## Consistency -/

theorem consistent_of_queues (hc : s.scheduler.Consistent) {q : AgentQueues}
    (hq : ∀ t, t ∈ q → t ∈ s.scheduler.work.agentQueues) :
    (s.scheduler.setQueues q).Consistent where
  state := hc.state
  work := ⟨hc.work.key, fun r hr hrq => hc.work.unique r hr (hq _ hrq)⟩
  undefined := hc.undefined
  dirty := hc.dirty
  latest := hc.latest
  scheduled := fun r hr => hc.scheduled r (hr.imp_right (hq _))

/-- Every step keeps the system consistent. -/
theorem Stepped.consistent (hc : s.Consistent) (h : Stepped s a s') : s'.Consistent := by
  have hphase : ∀ {r : ResourceIdStr} {phase phase' : DeployPhase},
      s.progress.get? r = some phase → ∀ x, x ∈ s.progress.set r phase' ↔
        Task.deploy x ∈ s.scheduler.work.agentQueues.inProgress := by
    intro r phase phase' hr x
    rw [Dict.mem_set, ← hc.progress]
    exact or_iff_right_of_imp fun e => e ▸ Dict.mem_of_get? hr
  cases h with
  | newVersion hnone hpr _ ht =>
      exact ⟨ht.consistent hc.scheduler, fun r => (hc.progress r).trans (ht.inProgress _).symm⟩
  | writeVersion _ _ => exact ⟨hc.scheduler, hc.progress⟩
  | request _ hd =>
      exact ⟨hc.scheduler.deployRequested hd,
        fun r => (hc.progress r).trans (hd.requested.inProgress _).symm⟩
  | picked hq ht hfree =>
      obtain ⟨hin, hprog⟩ := AgentQueues.queueGet_spec hq
      refine ⟨consistent_of_queues hc.scheduler fun t h => ((hin t).mp h).1, fun x => ?_⟩
      refine Dict.mem_set.trans (Iff.trans ?_ (hprog _).symm)
      rw [ht, Task.deploy.injEq, hc.progress]
  | other hq ht =>
      obtain ⟨hin, hprog⟩ := AgentQueues.queueGet_spec hq
      refine ⟨consistent_of_queues hc.scheduler fun t h => ((hin t).mp h).1, fun x => ?_⟩
      rw [hc.progress]
      exact (or_iff_right (ht x).symm).symm.trans (hprog _).symm
  | notStarted hph _ => exact ⟨hc.scheduler, hphase hph⟩
  | started hph hd hi =>
      refine ⟨?_, hphase hph⟩
      have h := hc.scheduler
      refine ⟨h.state, h.work, h.undefined, h.dirty, fun x hx => ?_, h.scheduled⟩
      rcases List.mem_insert_iff.mp hx with rfl | hx
      · exact hd
      · exact h.latest x hx
  | reported hph hrep =>
      refine ⟨hc.scheduler.reported hrep, fun x => ?_⟩
      rw [hrep.inProgress]
      exact hphase hph x
  | sent hph => exact ⟨hc.scheduler, hphase hph⟩
  | @finished r hph =>
      have h := hc.scheduler
      obtain ⟨hw, hs, hp⟩ := Scheduler.finishDeploy_work h.work r
      refine ⟨⟨h.state, hw, h.undefined, h.dirty, h.latest, fun x hx => h.scheduled x ((hs x).mp hx)⟩,
        fun x => ?_⟩
      show _ ↔ _ ∈ (s.scheduler.finishDeploy r).work.agentQueues.inProgress
      rw [hp]
      exact hphase hph x
  | @ended r q hph hq =>
      obtain ⟨hin, hprog⟩ := AgentQueues.taskDone_spec hq
      refine ⟨consistent_of_queues hc.scheduler fun t h => (hin t).mp h, fun x => ?_⟩
      refine Dict.mem_del.trans (Iff.trans ?_ (hprog _).symm)
      rw [hc.progress, ne_eq, ne_eq, Task.deploy.injEq]

/-- **The system is always consistent.** -/
theorem consistent_step (hc : s.Consistent) (hp : a.Permitted s) (h : s.step a = some s') :
    s'.Consistent :=
  (stepped hc hp h).consistent hc

end System

/-! ## Sample versions and deploys -/

def nullIntent (name hash : String) : ResourceIntent :=
  ⟨nullResource name, hash, ⟨none, none, [], []⟩⟩

/-- A full version with the given names, attribute hashes and requires. -/
def nullVersion (version : ℕ) (resources : List (String × String × List String))
    (undefined : List String) : ModelVersion where
  version := version
  resources := .ofList (resources.map fun e => (nullResource e.1, nullIntent e.1 e.2.1))
  resourceSets := .ofList [(none, resources.map fun e => nullResource e.1)]
  requires := .ofList (resources.map fun e => (nullResource e.1, e.2.2.map nullResource))
  undefined := undefined.map nullResource
  isPartial := false

/-- Release some versions and write them to the database. -/
def releaseAll (versions : List ModelVersion) : List Action :=
  [.newVersion 20 versions "a new version", .writeVersion fun _ => none]

/-- The next deploy of the agent, of the named resource, ends with a result. -/
def deployNext (name : String) (result : HandlerResourceState) (h : result ≠ .dry) :
    List Action :=
  [.queueGet "agent1", .deployStart (nullResource name) 1 true,
    .deployReport ⟨nullResource name, result, h⟩ 2, .sendDeployDone (nullResource name),
    .finishDeploy (nullResource name), .taskDone (nullResource name)]

/-- No work so far, with a repair every minute. -/
def idle : System := .init (.init (some 60) none) false

end Inmanta
