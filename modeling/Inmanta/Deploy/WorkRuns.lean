import Inmanta.Deploy.WorkReports
import Inmanta.Lib.Acyclic
import Inmanta.Lib.Run

/-!
# Runs of the scheduled work

`WorkState.step` takes one call on the scheduled work: a request, a report
of a finished or deleted resource, or a worker that takes or completes a
task. A request comes with the requires relation it is made under. The
state remembers which deploys have been taken and not been reported.

- `deploys_in_order_iff`: the requires relation is enforced among the
  scheduled tasks of a run just when the run defers in order.
- `no_lost_wake_up`: every waiting task waits for something that is
  scheduled or running, in every run that reports what it takes, so
  nothing is left waiting in the end.
-/

namespace Inmanta

structure WorkState where
  requires : RequiresProvidesMapping
  work : ScheduledWork
  unreported : List ResourceIdStr

inductive WorkAction where
  | deployWithContext (req : DeployRequest) (requires : RequiresProvidesMapping)
  | finishedDeploy (resource : ResourceIdStr)
  | deleteResource (resource : ResourceIdStr)
  | queueGet (agent : String)
  | taskDone (task : Task)

namespace WorkState

def init (requires : RequiresProvidesMapping) : WorkState := ⟨requires, .empty, []⟩

def step (s : WorkState) : WorkAction → Option WorkState
  | .deployWithContext req requires =>
      match s.work.deployWithContext requires req with
      | .ok work => some { s with requires, work }
      | .error _ => none
  | .finishedDeploy r =>
      some { s with
        work := s.work.finishedDeploy s.requires r
        unreported := s.unreported.erase r }
  | .deleteResource r => some { s with work := s.work.deleteResource r }
  | .queueGet agent => do
      let (agentQueues, item) ← s.work.agentQueues.queueGet agent
      return { s with
        work := { s.work with agentQueues }
        unreported := match item.task with
          | .deploy r => r :: s.unreported
          | _ => s.unreported }
  | .taskDone t =>
      match s.work.agentQueues.taskDone t with
      | .ok agentQueues => some { s with work := { s.work with agentQueues } }
      | .error _ => none

/-- `diff` lists the edges of `m` that are not in `m'`. -/
def IsDiff (diff : Dict ResourceIdStr (List ResourceIdStr)) (m m' : RequiresProvidesMapping) :
    Prop :=
  ∀ r d, d ∈ diff.getD r [] ↔ d ∈ m.requires r ∧ d ∉ m'.requires r

theorem isDiff_iff {diff : Dict ResourceIdStr (List ResourceIdStr)}
    {m m' : RequiresProvidesMapping} : IsDiff diff m m' ↔
      (∀ e ∈ diff.items, ∀ d ∈ e.2, d ∈ m.requires e.1 ∧ d ∉ m'.requires e.1)
        ∧ ∀ e ∈ m.primary.items, ∀ d ∈ e.2, d ∈ m'.requires e.1 ∨ d ∈ diff.getD e.1 [] := by
  constructor
  · refine fun h => ⟨fun e he d hd => ?_, fun e he d hd => ?_⟩
    · exact (h e.1 d).mp (DeployContext.mem_getD_nil.mpr ⟨e, he, rfl, hd⟩)
    · by_cases hd' : d ∈ m'.requires e.1
      · exact Or.inl hd'
      · exact Or.inr ((h e.1 d).mpr ⟨DeployContext.mem_getD_nil.mpr ⟨e, he, rfl, hd⟩, hd'⟩)
  · rintro ⟨hdiff, hm⟩ r d
    constructor
    · intro hd
      obtain ⟨e, he, rfl, hde⟩ := DeployContext.mem_getD_nil.mp hd
      exact hdiff e he d hde
    · rintro ⟨hd, hd'⟩
      obtain ⟨e, he, rfl, hde⟩ := DeployContext.mem_getD_nil.mp hd
      exact (hm e he d hde).resolve_left hd'

instance (diff : Dict ResourceIdStr (List ResourceIdStr)) (m m' : RequiresProvidesMapping) :
    Decidable (IsDiff diff m m') :=
  decidable_of_iff' _ isDiff_iff

/-- The arguments of a request match the change of the requires relation. -/
structure RequiresChange (old new : RequiresProvidesMapping) (req : DeployRequest) : Prop where
  added : IsDiff req.addedRequires new old
  dropped : IsDiff req.droppedRequires old new

instance (old new : RequiresProvidesMapping) (req : DeployRequest) :
    Decidable (RequiresChange old new req) :=
  decidable_of_iff (_ ∧ _) ⟨fun h => ⟨h.1, h.2⟩, fun h => ⟨h.added, h.dropped⟩⟩

theorem RequiresChange.old_of_new {old new : RequiresProvidesMapping} {req : DeployRequest}
    (h : RequiresChange old new req) {r d : ResourceIdStr} (hd : d ∈ new.requires r) :
    d ∈ req.added r ∨ (d ∈ old.requires r ∧ d ∉ req.dropped r) := by
  by_cases ho : d ∈ old.requires r
  · exact Or.inr ⟨ho, fun hdr => ((h.dropped r d).mp hdr).2 hd⟩
  · exact Or.inl ((h.added r d).mpr ⟨hd, ho⟩)

variable {s s' : WorkState} {a : WorkAction} {requires : RequiresProvidesMapping}
  {req : DeployRequest}

/-! ## One step -/

theorem step_deployWithContext (hv : s.work.Valid)
    (h : s.step (.deployWithContext req requires) = some s') :
    s'.requires = requires ∧ s'.unreported = s.unreported
      ∧ Deployed s.work requires req s'.work := by
  obtain ⟨w', hw', hd⟩ := deployWithContext_ok hv requires req
  rw [step, hw'] at h
  obtain rfl := Option.some.inj h
  exact ⟨rfl, rfl, hd⟩

/-- A worker takes a task from its queue. -/
theorem step_queueGet {agent : String} (h : s.step (.queueGet agent) = some s') :
    s'.requires = s.requires ∧ s'.work.waiting = s.work.waiting
      ∧ ∃ t, (∀ x, s'.work.IsQueued x ↔ s.work.IsQueued x ∧ .deploy x ≠ t)
        ∧ (∀ x, x ∈ s'.unreported ↔ .deploy x = t ∨ x ∈ s.unreported)
        ∧ ∀ t', t' ∈ s'.work.agentQueues.inProgress ↔
            t' = t ∨ t' ∈ s.work.agentQueues.inProgress := by
  simp only [step, Option.bind_eq_bind, Option.bind_eq_some_iff] at h
  obtain ⟨⟨q, item⟩, hget, h⟩ := h
  obtain rfl := Option.some.inj h
  obtain ⟨hq, hprog⟩ := AgentQueues.queueGet_spec hget
  refine ⟨rfl, rfl, item.task, fun x => hq (.deploy x), fun x => ?_, hprog⟩
  cases item.task with
  | deploy r => simp
  | _ => simp

theorem step_taskDone {t : Task} (h : s.step (.taskDone t) = some s') :
    s'.requires = s.requires ∧ s'.unreported = s.unreported
      ∧ s'.work.waiting = s.work.waiting
      ∧ (∀ x, s'.work.IsQueued x ↔ s.work.IsQueued x)
      ∧ ∀ t', t' ∈ s'.work.agentQueues.inProgress ↔
          t' ≠ t ∧ t' ∈ s.work.agentQueues.inProgress := by
  rw [step] at h
  cases hd : s.work.agentQueues.taskDone t with
  | error e => rw [hd] at h; cases h
  | ok q =>
      rw [hd] at h
      obtain rfl := Option.some.inj h
      obtain ⟨hq, hprog⟩ := AgentQueues.taskDone_spec hd
      exact ⟨rfl, rfl, rfl, fun x => hq _, hprog⟩

theorem valid_of_waiting {w w' : ScheduledWork} (hv : w.Valid) (hw : w'.waiting = w.waiting)
    (hq : ∀ x, w'.IsQueued x → w.IsQueued x) : w'.Valid where
  key := fun x b hb => hv.key x b (hw ▸ hb)
  unique := fun x hx hqx => hv.unique x (hw ▸ hx) (hq x hqx)

/-- The scheduled work stays valid, whatever happens to it. -/
theorem step_valid (hv : s.work.Valid) (h : s.step a = some s') : s'.work.Valid := by
  cases a with
  | deployWithContext req requires => exact (step_deployWithContext hv h).2.2.valid
  | finishedDeploy r =>
      obtain rfl := Option.some.inj h
      by_cases hr : s.work.IsScheduled r
      · exact (ScheduledWork.finishedDeploy_of_isScheduled s.requires hr).symm ▸ hv
      · exact (ScheduledWork.finishedDeploy_spec hv s.requires hr).valid
  | deleteResource r =>
      obtain rfl := Option.some.inj h
      exact hv.deleteResource
  | queueGet agent =>
      obtain ⟨-, hw, t, hq, -⟩ := step_queueGet h
      exact valid_of_waiting hv hw fun x hx => ((hq x).mp hx).1
  | taskDone t =>
      obtain ⟨-, -, hw, hq, -⟩ := step_taskDone h
      exact valid_of_waiting hv hw fun x => (hq x).mp

/-! ## The requires order -/

/-- Two tasks of which one requires the other are never both ready, and a task
that waits knows all its requirements that are scheduled. -/
structure Ordered (s : WorkState) : Prop where
  queued : ∀ r, s.work.IsQueued r → ∀ d ∈ s.requires.requires r, ¬ s.work.IsScheduled d
  waiting : ∀ r ∈ s.work.waiting, ∀ d ∈ s.requires.requires r,
    s.work.IsScheduled d → d ∈ s.work.blockedOn r

/-- What the callers guarantee: the requires relation changes with the matching
arguments, and what is deploying is in progress. -/
def Guaranteed (s : WorkState) : WorkAction → Prop
  | .deployWithContext req requires => RequiresChange s.requires requires req
      ∧ ∀ r ∈ req.deploying, .deploy r ∈ s.work.agentQueues.inProgress
  | _ => True

instance (s : WorkState) : DecidablePred s.Guaranteed
  | .deployWithContext _ _ => inferInstanceAs (Decidable (_ ∧ _))
  | .finishedDeploy _ | .deleteResource _ | .queueGet _ | .taskDone _ =>
      inferInstanceAs (Decidable True)

/-- The call does not defer a running resource past a requirement it does not
look at: one that was a requirement before and is scheduled already, or is
itself deferred by the call. -/
structure InOrder (w : ScheduledWork) (requires : RequiresProvidesMapping)
    (req : DeployRequest) : Prop where
  deferred : ∀ r ∈ req.running, req.Deferred w requires r →
    ∀ d ∈ requires.requires r, d ∉ req.added r →
      ¬ w.IsScheduled d ∧ ¬ req.Deferred w requires d
  dependants : ∀ d ∈ req.running, req.Deferred w requires d → ¬ w.IsScheduled d →
    ∀ r ∈ requires.provides d, d ∉ req.added r → w.IsScheduled r → d ∈ w.blockedOn r

instance (w : ScheduledWork) (requires : RequiresProvidesMapping) (req : DeployRequest) :
    Decidable (InOrder w requires req) :=
  decidable_of_iff (_ ∧ _) ⟨fun h => ⟨h.1, h.2⟩, fun h => ⟨h.deferred, h.dependants⟩⟩

/-- The condition on the steps of a run. -/
def DefersInOrder (s : WorkState) : WorkAction → Prop
  | .deployWithContext req requires => InOrder s.work requires req
  | _ => True

instance (s : WorkState) : DecidablePred s.DefersInOrder
  | .deployWithContext _ _ => inferInstanceAs (Decidable (InOrder _ _ _))
  | .finishedDeploy _ | .deleteResource _ | .queueGet _ | .taskDone _ =>
      inferInstanceAs (Decidable True)

/-- Taking tasks away keeps the order. -/
theorem Ordered.of_fewer (ho : s.Ordered) (hreq : s'.requires = s.requires)
    (hq : ∀ x, s'.work.IsQueued x → s.work.IsQueued x)
    (hw : ∀ x ∈ s'.work.waiting, x ∈ s.work.waiting ∧ s'.work.blockedOn x = s.work.blockedOn x) :
    s'.Ordered := by
  have hs : ∀ x, s'.work.IsScheduled x → s.work.IsScheduled x :=
    fun x hx => hx.imp (fun h => (hw x h).1) (hq x)
  refine ⟨fun r hr d hd hds => ?_, fun r hr d hd hds => ?_⟩
  · exact ho.queued r (hq r hr) d (hreq ▸ hd) (hs d hds)
  · rw [(hw r hr).2]
    exact ho.waiting r (hw r hr).1 d (hreq ▸ hd) (hs d hds)

/-- A requirement that is scheduled after the call is a new blocker, unless both
tasks were there before. -/
theorem InOrder.new_or_old {w : ScheduledWork} {old : RequiresProvidesMapping}
    {r d : ResourceIdStr} (hin : InOrder w requires req) (hc : RequiresChange old requires req)
    (hr : w.IsScheduled r ∨ req.Fresh w r ∨ req.Deferred w requires r)
    (hreq : d ∈ requires.requires r)
    (hd : w.IsScheduled d ∨ req.Fresh w d ∨ req.Deferred w requires d) :
    d ∈ req.newBlockers w requires r
      ∨ (w.IsScheduled r ∧ d ∈ old.requires r ∧ ¬ req.Deferred w requires r
        ∧ (w.IsScheduled d ∨ d ∈ w.blockedOn r)) := by
  have hbusy : ∀ x, (w.IsScheduled x ∨ req.Fresh w x ∨ req.Deferred w requires x) →
      req.Busy w x := fun x hx => by
    rcases hx with hx | hx | hx
    · exact Or.inl hx
    · exact Or.inr (Or.inr hx)
    · exact Or.inr (Or.inl hx.1)
  rw [DeployContext.newBlockers_iff]
  by_cases hadded : d ∈ req.added r
  · exact Or.inl (Or.inr ⟨hadded, hbusy d hd, hbusy r hr⟩)
  have hold := (hc.old_of_new hreq).resolve_left hadded
  by_cases hfd : req.Fresh w d
  · exact Or.inl (Or.inl ⟨hbusy r hr, hreq, Or.inl hfd⟩)
  by_cases hfr : req.Fresh w r
  · exact Or.inl (Or.inl ⟨hbusy r hr, hreq, Or.inr ⟨hfr, hbusy d hd⟩⟩)
  by_cases hdef : req.Deferred w requires r
  · obtain ⟨hds, hdd⟩ := hin.deferred r hdef.1 hdef d hreq hadded
    exact absurd hd (by simp [hds, hfd, hdd])
  have hrs : w.IsScheduled r := by simpa [hfr, hdef] using hr
  refine Or.inr ⟨hrs, hold.1, hdef, ?_⟩
  by_cases hds : w.IsScheduled d
  · exact Or.inl hds
  · have hdd : req.Deferred w requires d := by simpa [hds, hfd] using hd
    exact Or.inr (hin.dependants d hdd.1 hdd hds r
      (RequiresProvidesMapping.mem_provides.mpr hreq) hadded hrs)

theorem Ordered.deployWithContext (ho : s.Ordered) (hv : s.work.Valid)
    (hc : RequiresChange s.requires requires req) (hin : InOrder s.work requires req)
    (hreq : s'.requires = requires) (hd : Deployed s.work requires req s'.work) :
    s'.Ordered := by
  -- a requirement both of whose tasks were there before and that is waited for still blocks
  have hkept : ∀ r d, d ∈ requires.requires r → ¬ req.Deferred s.work requires r →
      d ∈ s.work.blockedOn r → req.Blocker s.work requires r d := fun r d hrd hdef hdb =>
    Or.inr ⟨hdb, fun hdr => ((hc.dropped r d).mp hdr).2 hrd, hdef⟩
  have hwaits : ∀ r d, d ∈ s.work.blockedOn r → r ∈ s.work.waiting := fun r d hdb => by
    by_contra hr
    rw [ScheduledWork.blockedOn_of_not_mem hr] at hdb
    exact List.not_mem_nil hdb
  refine ⟨fun r hr d hrd hds => ?_, fun r hr d hrd hds => ?_⟩
  · rw [hreq] at hrd
    have hrs := (hd.scheduled r).mp (Or.inr hr)
    have hcases := hin.new_or_old hc hrs hrd ((hd.scheduled d).mp hds)
    rcases hd.queued r hr with ⟨hrq, hnew⟩ | ⟨hrw, hnone⟩
    · rw [hnew] at hcases
      obtain ⟨-, hold, -, hds | hdb⟩ := hcases.resolve_left List.not_mem_nil
      · exact ho.queued r hrq d hold hds
      · exact hv.unique r (hwaits r d hdb) hrq
    · obtain ⟨hrs, hold, hdef, hdb⟩ := hcases.resolve_left fun hnew => hnone d (Or.inl hnew)
      have hrw : r ∈ s.work.waiting := hrw.resolve_right fun hf => hf.2.1 hrs
      exact hnone d (hkept r d hrd hdef (hdb.elim (ho.waiting r hrw d hold) id))
  · rw [hreq] at hrd
    rw [hd.blocked r hr]
    have hrs := (hd.scheduled r).mp (Or.inl hr)
    rcases hin.new_or_old hc hrs hrd ((hd.scheduled d).mp hds) with hnew | ⟨hrs, hold, hdef, hdb⟩
    · exact Or.inl hnew
    · refine hkept r d hrd hdef (hdb.elim (fun hds => ?_) id)
      rcases hrs with hrw | hrq
      · exact ho.waiting r hrw d hold hds
      · exact absurd hds (ho.queued r hrq d hold)

theorem Ordered.finishedDeploy {r : ResourceIdStr} (ho : s.Ordered) (hv : s.work.Valid)
    (h : s.step (.finishedDeploy r) = some s') : s'.Ordered := by
  obtain rfl := Option.some.inj h
  by_cases hr : s.work.IsScheduled r
  · refine ho.of_fewer rfl (fun x hx => ?_) fun x hx => ?_
    all_goals rw [ScheduledWork.finishedDeploy_of_isScheduled s.requires hr] at *
    · exact hx
    · exact ⟨hx, rfl⟩
  have hu := ScheduledWork.finishedDeploy_spec hv s.requires hr
  refine ⟨fun x hx d hd hds => ?_, fun x hx d hd hds => ?_⟩
  · rw [hu.isScheduled] at hds
    rcases (hu.isQueued x).mp hx with hxq | ⟨hxw, -, hall⟩
    · exact ho.queued x hxq d hd hds
    · obtain rfl := hall d (ho.waiting x hxw d hd hds)
      exact hr hds
  · rw [hu.isScheduled] at hds
    have hxw := ((hu.waiting x).mp hx).1
    refine (hu.blocked x hx d).mpr ⟨ho.waiting x hxw d hd hds, ?_⟩
    rintro ⟨-, rfl⟩
    exact hr hds

/-- The condition is exact: a call that leads to an ordered state meets it. -/
theorem inOrder_of_ordered (hreq : s'.requires = requires)
    (hd : Deployed s.work requires req s'.work) (ho : s'.Ordered) :
    InOrder s.work requires req := by
  -- a scheduled requirement of a scheduled resource is one of its blockers
  have hblocker : ∀ r d, d ∈ requires.requires r → s'.work.IsScheduled r →
      s'.work.IsScheduled d → req.Blocker s.work requires r d := by
    intro r d hrd hr hds
    rcases hr with hr | hr
    · exact (hd.blocked r hr d).mp (ho.waiting r hr d (hreq ▸ hrd) hds)
    · exact absurd hds (ho.queued r hr d (hreq ▸ hrd))
  have hnotNew : ∀ r d, d ∉ req.added r → ¬ req.Fresh s.work r → ¬ req.Fresh s.work d →
      d ∉ req.newBlockers s.work requires r := by
    intro r d hadded hr hd hnew
    rcases DeployContext.newBlockers_iff.mp hnew with ⟨-, -, hf | ⟨hf, -⟩⟩ | ⟨ha, -⟩
    · exact hd hf
    · exact hr hf
    · exact hadded ha
  have hrun : ∀ x, x ∈ req.running → ¬ req.Fresh s.work x := fun x hx hf => hf.2.2 hx
  have hsch : ∀ x, s.work.IsScheduled x → ¬ req.Fresh s.work x := fun x hx hf => hf.2.1 hx
  constructor
  · intro r hr hdef d hrd hadded
    have hrs := (hd.scheduled r).mpr (Or.inr (Or.inr hdef))
    have hno : ¬ req.Fresh s.work d → ¬ s'.work.IsScheduled d := fun hfd hds => by
      rcases hblocker r d hrd hrs hds with hnew | ⟨-, -, hndef⟩
      · exact hnotNew r d hadded (hrun r hr) hfd hnew
      · exact hndef hdef
    refine ⟨fun hds => ?_, fun hdd => ?_⟩
    · exact hno (hsch d hds) ((hd.scheduled d).mpr (Or.inl hds))
    · exact hno (hrun d hdd.1) ((hd.scheduled d).mpr (Or.inr (Or.inr hdd)))
  · intro d hdr hdd hds r hr hadded hrs
    have hrd := RequiresProvidesMapping.mem_provides.mp hr
    rcases hblocker r d hrd ((hd.scheduled r).mpr (Or.inl hrs))
      ((hd.scheduled d).mpr (Or.inr (Or.inr hdd))) with hnew | ⟨hdb, -, -⟩
    · exact absurd hnew (hnotNew r d hadded (hsch r hrs) (hrun d hdr))
    · exact hdb

/-- A step keeps the order just when it defers in order. -/
theorem ordered_step_iff (hv : s.work.Valid) (ho : s.Ordered) (hok : Guaranteed s a)
    (h : s.step a = some s') : s'.Ordered ↔ DefersInOrder s a := by
  cases a with
  | deployWithContext req requires =>
      obtain ⟨hreq, -, hd⟩ := step_deployWithContext hv h
      exact ⟨inOrder_of_ordered hreq hd, fun hin => ho.deployWithContext hv hok.1 hin hreq hd⟩
  | finishedDeploy r => exact iff_of_true (ho.finishedDeploy hv h) trivial
  | deleteResource r =>
      refine iff_of_true ?_ trivial
      obtain rfl := Option.some.inj h
      refine ho.of_fewer rfl (fun x hx => (ScheduledWork.isQueued_deleteResource.mp hx).2)
        fun x hx => ?_
      obtain ⟨hxr, hx⟩ := ScheduledWork.deleteResource_waiting.mp hx
      exact ⟨hx, ScheduledWork.blockedOn_deleteResource hxr⟩
  | queueGet agent =>
      refine iff_of_true ?_ trivial
      obtain ⟨hreq, hw, t, hq, -⟩ := step_queueGet h
      exact ho.of_fewer hreq (fun x hx => ((hq x).mp hx).1) fun x hx =>
        ⟨hw ▸ hx, by rw [ScheduledWork.blockedOn, hw, ScheduledWork.blockedOn]⟩
  | taskDone t =>
      refine iff_of_true ?_ trivial
      obtain ⟨hreq, -, hw, hq, -⟩ := step_taskDone h
      exact ho.of_fewer hreq (fun x => (hq x).mp) fun x hx =>
        ⟨hw ▸ hx, by rw [ScheduledWork.blockedOn, hw, ScheduledWork.blockedOn]⟩

theorem init_ordered (requires : RequiresProvidesMapping) : (init requires).Ordered where
  queued := fun _ hr => absurd hr (AgentQueues.not_mem_empty _)
  waiting := fun r hr => absurd hr (Dict.not_mem_empty r)

/-! ### A resource that is deferred twice -/

/-- `r` requires `x` and `y`. -/
def forked : RequiresProvidesMapping :=
  BidirectionalManyMapping.empty.setItem (nullResource "r") [nullResource "x", nullResource "y"]

/-- Deploy the named resources while others are deploying. -/
def redeploy (names deploying : List String) : WorkAction :=
  .deployWithContext
    ⟨names.map nullResource, "a test", .newVersionDeploy, deploying.map nullResource,
      .empty, .empty, false⟩ forked

/-- `x` is scheduled while `r` is deploying, so `r` waits for it. -/
def deferOnce : List WorkAction :=
  [redeploy ["r"] [], .queueGet "agent1", redeploy ["x"] ["r"]]

/-- Then `y` is scheduled too, and `r` is still deploying. -/
def deferTwice : List WorkAction :=
  deferOnce ++ [redeploy ["y"] ["r"]]

/-- **Deploys run in requires order** in a run of any length, over any requires
relation, just when no request of the run defers a running resource past a
requirement it does not look at. -/
theorem deploys_in_order_iff {as : List WorkAction} {s : WorkState}
    (hok : Along step Guaranteed (init requires) as)
    (hrun : run step (init requires) as = some s) :
    Always step Ordered (init requires) as ↔ Along step DefersInOrder (init requires) as :=
  always_iff_along (K := fun s => s.work.Valid) (fun _ _ _ hv _ h => step_valid hv h)
    (fun _ _ _ hv ho hok h => ordered_step_iff hv ho hok h) ScheduledWork.Valid.empty
    (init_ordered requires)
    hok hrun

theorem deploys_in_order_iff_forked : Always step Ordered (init forked) deferOnce := by
  obtain ⟨s, hrun, -⟩ := exists_run_of_any step (init forked) deferOnce
    (p := fun _ => True) (by decide)
  exact (deploys_in_order_iff (by decide) hrun).mpr (by decide)

/-- `r` forgets that it waits for `x` when it is deferred for `y`. -/
theorem forked_forgets :
    Along step Guaranteed (init forked) deferTwice
      ∧ ∃ s, run step (init forked) deferTwice = some s ∧ ¬ s.Ordered := by
  refine ⟨by decide, ?_⟩
  obtain ⟨s, hrun, hr, hx, hs, hb⟩ := exists_run_of_any step (init forked) deferTwice
    (p := fun s => nullResource "r" ∈ s.work.waiting
      ∧ nullResource "x" ∈ s.requires.requires (nullResource "r")
      ∧ s.work.IsScheduled (nullResource "x")
      ∧ nullResource "x" ∉ s.work.blockedOn (nullResource "r")) (by decide)
  exact ⟨s, hrun, fun ho => hb (ho.waiting _ hr _ hx hs)⟩

/-! ## No lost wake-up -/

/-- What holds of the waiting tasks in the runs that report what they take. -/
structure Justified (s : WorkState) : Prop where
  nonempty : ∀ r ∈ s.work.waiting, s.work.blockedOn r ≠ []
  required : ∀ r ∈ s.work.waiting, ∀ d ∈ s.work.blockedOn r, d ∈ s.requires.requires r
  awaited : ∀ r ∈ s.work.waiting, ∀ d ∈ s.work.blockedOn r,
    s.work.IsScheduled d ∨ d ∈ s.unreported
  taken : ∀ r ∈ s.unreported, Task.deploy r ∈ s.work.agentQueues.inProgress

/-- The callers report every deploy they have taken before it is complete, pass
none that was reported as deploying, and delete no resource that a waiting one
still requires. -/
def Reporting (s : WorkState) : WorkAction → Prop
  | .deployWithContext req requires => RequiresChange s.requires requires req
      ∧ ∀ r ∈ req.deploying, r ∈ s.unreported
  | .deleteResource d => ∀ r ∈ s.work.waiting.keys, r ≠ d → d ∉ s.requires.requires r
  | .taskDone t => ∀ r ∈ s.unreported, t ≠ .deploy r
  | _ => True

instance (s : WorkState) : DecidablePred s.Reporting
  | .deployWithContext _ _ => inferInstanceAs (Decidable (_ ∧ _))
  | .deleteResource _ => inferInstanceAs (Decidable (∀ _ ∈ _, _ ≠ _ → _ ∉ _))
  | .taskDone _ => inferInstanceAs (Decidable (∀ _ ∈ _, _ ≠ _))
  | .finishedDeploy _ | .queueGet _ => inferInstanceAs (Decidable True)

theorem Justified.deployWithContext (hj : s.Justified)
    (hc : RequiresChange s.requires requires req) (hdep : ∀ r ∈ req.deploying, r ∈ s.unreported)
    (hreq : s'.requires = requires) (hu : s'.unreported = s.unreported)
    (hd : Deployed s.work requires req s'.work) : s'.Justified := by
  have hwaits : ∀ r d, d ∈ s.work.blockedOn r → r ∈ s.work.waiting := fun r d hdb => by
    by_contra hr
    rw [ScheduledWork.blockedOn_of_not_mem hr] at hdb
    exact List.not_mem_nil hdb
  have hrunning : ∀ d ∈ req.running, d ∈ s.unreported := fun d hd => by
    unfold DeployRequest.running at hd
    split at hd
    · exact hdep d (mem_removeAll.mp hd).1
    · exact hdep d hd
  refine ⟨fun r hr hempty => ?_, fun r hr d hdb => ?_, fun r hr d hdb => ?_, fun r hr => ?_⟩
  · obtain ⟨hrw, hb⟩ := hd.nonempty r hr hempty
    exact hj.nonempty r hrw hb
  · rw [hreq]
    rcases (hd.blocked r hr d).mp hdb with hnew | ⟨hold, hdrop, -⟩
    · rcases DeployContext.newBlockers_iff.mp hnew with ⟨-, hrd, -⟩ | ⟨hadd, -, -⟩
      · exact hrd
      · exact ((hc.added r d).mp hadd).1
    · by_contra hno
      exact hdrop ((hc.dropped r d).mpr ⟨hj.required r (hwaits r d hold) d hold, hno⟩)
  · rw [hu, hd.scheduled]
    rcases (hd.blocked r hr d).mp hdb with hnew | ⟨hold, -, -⟩
    · have hbusy : req.Busy s.work d := by
        rcases DeployContext.newBlockers_iff.mp hnew with ⟨-, -, hf | ⟨-, hb⟩⟩ | ⟨-, hb, -⟩
        · exact Or.inr (Or.inr hf)
        · exact hb
        · exact hb
      rcases hbusy with hs | hrun | hf
      · exact Or.inl (Or.inl hs)
      · exact Or.inr (hrunning d hrun)
      · exact Or.inl (Or.inr (Or.inl hf))
    · exact (hj.awaited r (hwaits r d hold) d hold).imp_left Or.inl
  · rw [hd.inProgress]
    exact hj.taken r (hu ▸ hr)

theorem Justified.finishedDeploy {r : ResourceIdStr} (hj : s.Justified) (hv : s.work.Valid)
    (h : s.step (.finishedDeploy r) = some s') : s'.Justified := by
  obtain rfl := Option.some.inj h
  by_cases hr : s.work.IsScheduled r
  · have hw := ScheduledWork.finishedDeploy_of_isScheduled s.requires hr
    refine ⟨?_, ?_, fun x hx d hd => ?_, fun x hx => ?_⟩
    · rw [hw]; exact hj.nonempty
    · rw [hw]; exact hj.required
    · rw [hw] at hx hd ⊢
      by_cases hdr : d = r
      · exact Or.inl (hdr ▸ hr)
      · exact (hj.awaited x hx d hd).imp_right (List.mem_erase_of_ne hdr).mpr
    · rw [hw]; exact hj.taken x (List.mem_of_mem_erase hx)
  have hu := ScheduledWork.finishedDeploy_spec hv s.requires hr
  have hold : ∀ x ∈ (s.work.finishedDeploy s.requires r).waiting, x ∈ s.work.waiting :=
    fun x hx => ((hu.waiting x).mp hx).1
  refine ⟨fun x hx hempty => ?_, fun x hx d hd => ?_, fun x hx d hd => ?_, fun x hx => ?_⟩
  · -- a task is queued as soon as it waits for nothing
    obtain ⟨hxw, hno⟩ := (hu.waiting x).mp hx
    have hall : ∀ d ∈ s.work.blockedOn x, r ∈ s.requires.requires x ∧ d = r := fun d hd => by
      by_contra hkeep
      have := (hu.blocked x hx d).mpr ⟨hd, hkeep⟩
      rw [hempty] at this
      exact List.not_mem_nil this
    obtain ⟨d, hd⟩ := List.exists_mem_of_ne_nil _ (hj.nonempty x hxw)
    exact hno ⟨(hall d hd).1, fun d hd => (hall d hd).2⟩
  · exact hj.required x (hold x hx) d ((hu.blocked x hx d).mp hd).1
  · obtain ⟨hdw, hkeep⟩ := (hu.blocked x hx d).mp hd
    have hdr : d ≠ r := fun e =>
      hkeep ⟨e ▸ hj.required x (hold x hx) d hdw, e⟩
    rw [hu.isScheduled]
    exact (hj.awaited x (hold x hx) d hdw).imp_right (List.mem_erase_of_ne hdr).mpr
  · show Task.deploy x ∈ (s.work.finishedDeploy s.requires r).agentQueues.inProgress
    rw [hu.inProgress]
    exact hj.taken x (List.mem_of_mem_erase hx)

theorem Justified.deleteResource {r : ResourceIdStr} (hj : s.Justified)
    (hok : Reporting s (.deleteResource r)) (h : s.step (.deleteResource r) = some s') :
    s'.Justified := by
  obtain rfl := Option.some.inj h
  have hw : ∀ x ∈ (s.work.deleteResource r).waiting, x ∈ s.work.waiting ∧ x ≠ r
      ∧ (s.work.deleteResource r).blockedOn x = s.work.blockedOn x := fun x hx => by
    obtain ⟨hxr, hx⟩ := ScheduledWork.deleteResource_waiting.mp hx
    exact ⟨hx, hxr, ScheduledWork.blockedOn_deleteResource hxr⟩
  refine ⟨fun x hx => ?_, fun x hx d hd => ?_, fun x hx d hd => ?_, fun x hx => ?_⟩
  · obtain ⟨hx, -, hb⟩ := hw x hx
    exact hb ▸ hj.nonempty x hx
  · obtain ⟨hx, -, hb⟩ := hw x hx
    exact hj.required x hx d (hb ▸ hd)
  · obtain ⟨hxw, hxr, hb⟩ := hw x hx
    rw [hb] at hd
    have hdr : d ≠ r := fun e =>
      hok x (Dict.mem_keys.mpr hxw) hxr (e ▸ hj.required x hxw d hd)
    rw [ScheduledWork.isScheduled_deleteResource]
    exact (hj.awaited x hxw d hd).imp_left fun hs => ⟨hdr, hs⟩
  · show Task.deploy x ∈ (s.work.deleteResource r).agentQueues.inProgress
    rw [ScheduledWork.deleteResource_inProgress]
    exact hj.taken x hx

/-- Every step of the kind keeps the waiting tasks justified. -/
theorem Justified.step (hj : s.Justified) (hv : s.work.Valid) (hok : Reporting s a)
    (h : s.step a = some s') : s'.Justified := by
  cases a with
  | deployWithContext req requires =>
      obtain ⟨hreq, hu, hd⟩ := step_deployWithContext hv h
      exact hj.deployWithContext hok.1 hok.2 hreq hu hd
  | finishedDeploy r => exact hj.finishedDeploy hv h
  | deleteResource r => exact hj.deleteResource hok h
  | queueGet agent =>
      obtain ⟨hreq, hw, t, hq, hu, hprog⟩ := step_queueGet h
      have hb : ∀ x, s'.work.blockedOn x = s.work.blockedOn x := fun x => by
        rw [ScheduledWork.blockedOn, hw, ScheduledWork.blockedOn]
      refine ⟨fun x hx => ?_, fun x hx d hd => ?_, fun x hx d hd => ?_, fun x hx => ?_⟩
      · exact hb x ▸ hj.nonempty x (hw ▸ hx)
      · exact hreq ▸ hj.required x (hw ▸ hx) d (hb x ▸ hd)
      · rw [ScheduledWork.IsScheduled, hw, hq, hu]
        by_cases ht : Task.deploy d = t
        · exact Or.inr (Or.inl ht)
        · exact (hj.awaited x (hw ▸ hx) d (hb x ▸ hd)).imp (Or.imp_right fun h => ⟨h, ht⟩) Or.inr
      · rw [hprog]
        exact ((hu x).mp hx).imp_right (hj.taken x)
  | taskDone t =>
      obtain ⟨hreq, hu, hw, hq, hprog⟩ := step_taskDone h
      have hb : ∀ x, s'.work.blockedOn x = s.work.blockedOn x := fun x => by
        rw [ScheduledWork.blockedOn, hw, ScheduledWork.blockedOn]
      refine ⟨fun x hx => ?_, fun x hx d hd => ?_, fun x hx d hd => ?_, fun x hx => ?_⟩
      · exact hb x ▸ hj.nonempty x (hw ▸ hx)
      · exact hreq ▸ hj.required x (hw ▸ hx) d (hb x ▸ hd)
      · rw [ScheduledWork.IsScheduled, hw, hq, hu]
        exact hj.awaited x (hw ▸ hx) d (hb x ▸ hd)
      · rw [hu] at hx
        rw [hprog]
        exact ⟨(hok x hx).symm, hj.taken x hx⟩

theorem init_justified (requires : RequiresProvidesMapping) : (init requires).Justified where
  nonempty := fun r hr => absurd hr (Dict.not_mem_empty r)
  required := fun r hr => absurd hr (Dict.not_mem_empty r)
  awaited := fun r hr => absurd hr (Dict.not_mem_empty r)
  taken := fun _ hr => absurd hr List.not_mem_nil

/-- Every waiting task waits for some of its requirements, each of which has a
task that waits, is queued or is in progress. -/
def WakesUp (s : WorkState) : Prop :=
  ∀ r ∈ s.work.waiting, s.work.blockedOn r ≠ [] ∧ ∀ d ∈ s.work.blockedOn r,
    d ∈ s.requires.requires r
      ∧ (s.work.IsScheduled d ∨ Task.deploy d ∈ s.work.agentQueues.inProgress)

/-- No deploy is queued or in progress. -/
def Idle (s : WorkState) : Prop :=
  ∀ r, ¬ s.work.IsQueued r ∧ Task.deploy r ∉ s.work.agentQueues.inProgress

theorem Justified.wakesUp (hj : s.Justified) : s.WakesUp :=
  fun r hr => ⟨hj.nonempty r hr, fun d hd =>
    ⟨hj.required r hr d hd, (hj.awaited r hr d hd).imp_right (hj.taken d)⟩⟩

/-- Over an acyclic relation a task at the end of the waiting chain waits for
one that is queued or in progress. -/
theorem WakesUp.nothing_waiting (hw : s.WakesUp) (hidle : s.Idle)
    (hac : Acyclic fun r d => d ∈ s.requires.requires r) : ∀ r, r ∉ s.work.waiting :=
  hac.eq_empty_of_successor s.work.waiting.keys (fun _ => Dict.mem_keys.mpr) fun r hr => by
    obtain ⟨hne, hall⟩ := hw r hr
    obtain ⟨d, hd⟩ := List.exists_mem_of_ne_nil _ hne
    obtain ⟨hrd, (hdw | hdq) | hdp⟩ := hall d hd
    · exact ⟨d, hdw, hrd⟩
    · exact absurd hdq (hidle d).1
    · exact absurd hdp (hidle d).2

/-- `r` is deployed again after `x`, and its result is reported once more. -/
def deferAndFinish : List WorkAction :=
  deferOnce ++ [.finishedDeploy (nullResource "r"), .taskDone (.deploy (nullResource "r")),
    .queueGet "agent1", .finishedDeploy (nullResource "x"),
    .taskDone (.deploy (nullResource "x")), .deleteResource (nullResource "x")]

/-- **No lost wake-up.** In every state of a run that reports what it takes,
every waiting task will be woken up; so over an acyclic requires relation
nothing is left waiting when no deploy is queued or in progress. -/
theorem no_lost_wake_up {as : List WorkAction}
    (hok : Along step Reporting (init requires) as) :
    Always step (fun s => s.WakesUp ∧
      ((Acyclic fun r d => d ∈ s.requires.requires r) → s.Idle → ∀ r, r ∉ s.work.waiting))
      (init requires) as :=
  (always_of_step (I := fun s => s.work.Valid ∧ s.Justified)
    (fun _ _ _ hI hok h => ⟨step_valid hI.1 h, hI.2.step hI.1 hok h⟩)
    ⟨ScheduledWork.Valid.empty, init_justified requires⟩ hok).imp
    fun _ hI => ⟨hI.2.wakesUp, fun hac hidle => hI.2.wakesUp.nothing_waiting hidle hac⟩

theorem no_lost_wake_up_forked :
    Always step (fun s => s.WakesUp ∧
      ((Acyclic fun r d => d ∈ s.requires.requires r) → s.Idle → ∀ r, r ∉ s.work.waiting))
      (init forked) deferAndFinish :=
  no_lost_wake_up (by decide)

end WorkState

end Inmanta
