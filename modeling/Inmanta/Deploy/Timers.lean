import Inmanta.Deploy.AgentQueues
import Mathlib.Data.PNat.Basic

/-!
# Resource timers

A `ResourceTimer` schedules the next deploy of one resource; the
`TimerManager` owns one timer per resource and decides from the resource
state when it should fire. Only the per-resource timers are modelled (an
interval is given in seconds; a cron expression sets a global timer).

A timer is armed while it has a scheduled time. When it fires it calls
`deploy_resource`, which stops it, so the moment in between is not
modelled.
-/

namespace Inmanta

structure ResourceTimer where
  nextScheduledTime : Option Time
  reason : Option String
  priority : Option TaskPriority
  deriving DecidableEq

namespace ResourceTimer

def new : ResourceTimer := ⟨none, none, none⟩

def setTimer (t : ResourceTimer) (when_ : Time) (reason : String) (priority : TaskPriority) :
    ResourceTimer :=
  let t := { t with reason := some reason, priority := some priority }
  if t.nextScheduledTime = some when_ then t else { t with nextScheduledTime := some when_ }

def cancel (t : ResourceTimer) : ResourceTimer := { t with nextScheduledTime := none }

end ResourceTimer

/-- The timers, and the intervals of the periodic repairs and deploys (`none`
if they are disabled on a per-resource basis). -/
structure TimerManager where
  resourceTimers : Dict ResourceIdStr ResourceTimer
  periodicRepairInterval : Option ℕ+
  periodicDeployInterval : Option ℕ+

namespace TimerManager

def init (repairInterval deployInterval : Option ℕ+) : TimerManager :=
  ⟨.empty, repairInterval, deployInterval⟩

/-- Change the timer of a resource that has one. -/
def modify (m : TimerManager) (r : ResourceIdStr) (f : ResourceTimer → ResourceTimer) :
    TimerManager :=
  match m.resourceTimers.get? r with
  | none => m
  | some t => { m with resourceTimers := m.resourceTimers.set r (f t) }

/-- Cancel the timer of a resource, if any. -/
def stopTimer (m : TimerManager) (r : ResourceIdStr) : TimerManager :=
  m.modify r ResourceTimer.cancel

def stopTimers (m : TimerManager) (rs : List ResourceIdStr) : TimerManager :=
  rs.foldl stopTimer m

/-- Cancel and remove the timers of resources that have been dropped. -/
def removeTimers (m : TimerManager) (rs : List ResourceIdStr) : TimerManager :=
  let m := m.stopTimers rs
  { m with resourceTimers := rs.foldl Dict.del m.resourceTimers }

def setupRepair (m : TimerManager) (r : ResourceIdStr) (lastDeployed : Time) (interval : ℕ+) :
    TimerManager :=
  let seconds : ℕ := interval
  m.modify r fun t => t.setTimer (lastDeployed + seconds)
    s!"previous repair happened more than {seconds}s ago" .intervalRepair

def setupDeploy (m : TimerManager) (r : ResourceIdStr) (lastDeployed : Time) (interval : ℕ+) :
    TimerManager :=
  let seconds : ℕ := interval
  m.modify r fun t => t.setTimer (lastDeployed + seconds)
    s!"previous deploy happened more than {seconds}s ago" .intervalDeploy

/-- Schedule a repair, or whichever of a repair and a deploy comes first. -/
def setup (m : TimerManager) (r : ResourceIdStr) (repairOnly : Bool) (lastDeployed : Time) :
    TimerManager :=
  match m.periodicRepairInterval, m.periodicDeployInterval with
  | some repair, some deploy =>
      if repairOnly || repair < deploy then m.setupRepair r lastDeployed repair
      else m.setupDeploy r lastDeployed deploy
  | some repair, none => m.setupRepair r lastDeployed repair
  | none, some deploy =>
      if repairOnly then m.stopTimer r else m.setupDeploy r lastDeployed deploy
  | none, none => m.stopTimer r

/-- Whether only repairs are considered for a resource that may be deployed,
`none` if it may not. -/
def repairOnly (state : ResourceState) : Option Bool :=
  match state.blocked with
  | .blocked => none
  | .notBlocked => some (state.compliance = .compliant)
  | .temporarilyBlocked => some true

/-- Make sure that the resource is marked for eventual re-deployment. -/
def updateTimer (m : TimerManager) (r : ResourceIdStr) (state : ResourceState) :
    TimerManager :=
  let m := if r ∈ m.resourceTimers then m
    else { m with resourceTimers := m.resourceTimers.set r .new }
  match repairOnly state with
  | none => m.stopTimer r
  | some only =>
      if m.periodicRepairInterval = none ∧ m.periodicDeployInterval = none then m.stopTimer r
      else
        match state.lastDeployed with
        | none => m  -- should not happen
        | some lastDeployed => m.setup r only lastDeployed

def updateTimers (m : TimerManager) (state : Dict ResourceIdStr ResourceState)
    (rs : List ResourceIdStr) : Except PyError TimerManager :=
  rs.foldlM (fun m r => do
    let rs ← state.item r
    return m.updateTimer r rs) m

/-! ## Which timers are armed -/

variable {m : TimerManager} {r x : ResourceIdStr}

/-- The resource has an armed timer. -/
def IsArmed (m : TimerManager) (r : ResourceIdStr) : Prop :=
  ∃ t, m.resourceTimers.get? r = some t ∧ t.nextScheduledTime.isSome

instance (m : TimerManager) (r : ResourceIdStr) : Decidable (m.IsArmed r) :=
  decidable_of_iff ((m.resourceTimers.get? r).any (·.nextScheduledTime.isSome) = true)
    (by simp [IsArmed, Option.any_eq_true])

/-- The two intervals stay the same. -/
structure SameConfig (m m' : TimerManager) : Prop where
  repair : m'.periodicRepairInterval = m.periodicRepairInterval
  deploy : m'.periodicDeployInterval = m.periodicDeployInterval

theorem SameConfig.refl (m : TimerManager) : SameConfig m m := ⟨rfl, rfl⟩

theorem SameConfig.trans {m m' m'' : TimerManager} (h : SameConfig m m')
    (h' : SameConfig m' m'') : SameConfig m m'' :=
  ⟨h'.repair.trans h.repair, h'.deploy.trans h.deploy⟩

theorem sameConfig_modify (f : ResourceTimer → ResourceTimer) : SameConfig m (m.modify r f) := by
  unfold modify
  split <;> exact ⟨rfl, rfl⟩

theorem get?_modify (f : ResourceTimer → ResourceTimer) :
    (m.modify r f).resourceTimers.get? x =
      if x = r then (m.resourceTimers.get? r).map f else m.resourceTimers.get? x := by
  cases h : m.resourceTimers.get? r with
  | none =>
      simp only [modify, h]
      split
      · rename_i hx
        rw [hx, h]
        rfl
      · rfl
  | some t =>
      simp only [modify, h]
      exact Dict.get?_set _ _ _ _

theorem isArmed_stopTimer : (m.stopTimer r).IsArmed x ↔ m.IsArmed x ∧ x ≠ r := by
  rw [IsArmed, stopTimer, get?_modify]
  by_cases hx : x = r
  · simp [hx, ResourceTimer.cancel]
  · simp [hx, IsArmed]

theorem sameConfig_stopTimer : SameConfig m (m.stopTimer r) :=
  sameConfig_modify _

theorem stopTimers_spec (m : TimerManager) (rs : List ResourceIdStr) :
    SameConfig m (m.stopTimers rs)
      ∧ ∀ x, (m.stopTimers rs).IsArmed x ↔ m.IsArmed x ∧ x ∉ rs := by
  refine foldl_induct (f := stopTimer)
    (I := fun pre m' => SameConfig m m' ∧ ∀ x, m'.IsArmed x ↔ m.IsArmed x ∧ x ∉ pre) ?_
    ⟨.refl m, by simp⟩
  rintro pre y post m' - ⟨hc, ha⟩
  refine ⟨hc.trans sameConfig_stopTimer, fun x => ?_⟩
  rw [isArmed_stopTimer, ha]
  simp only [List.mem_append, List.mem_singleton, not_or, and_assoc]

theorem removeTimers_spec (m : TimerManager) (rs : List ResourceIdStr) :
    SameConfig m (m.removeTimers rs)
      ∧ ∀ x, (m.removeTimers rs).IsArmed x ↔ m.IsArmed x ∧ x ∉ rs := by
  obtain ⟨hc, ha⟩ := stopTimers_spec m rs
  have hget := foldl_induct (f := Dict.del)
    (I := fun pre (d : Dict ResourceIdStr ResourceTimer) => ∀ x, d.get? x =
      if x ∈ pre then none else (m.stopTimers rs).resourceTimers.get? x)
    (l := rs) (s := (m.stopTimers rs).resourceTimers) (fun pre y post d _ hI x => by
      rw [Dict.get?_del, hI]
      by_cases hx : x = y <;> simp [hx]) (by simp)
  refine ⟨⟨hc.repair, hc.deploy⟩, fun x => ?_⟩
  have hx := ha x
  rw [IsArmed] at hx ⊢
  show (∃ t, (rs.foldl Dict.del (m.stopTimers rs).resourceTimers).get? x = some t ∧ _) ↔ _
  rw [hget]
  split
  · rename_i hmem
    simp [hmem]
  · exact hx

theorem isArmed_setTimer {when_ : Time} {reason : String} {priority : TaskPriority}
    (hr : r ∈ m.resourceTimers) :
    (m.modify r fun t => t.setTimer when_ reason priority).IsArmed x ↔ x = r ∨ m.IsArmed x := by
  obtain ⟨t, ht⟩ := Dict.mem_iff.mp hr
  rw [IsArmed, get?_modify]
  by_cases hx : x = r
  · rw [if_pos hx, ht]
    refine iff_of_true ⟨t.setTimer when_ reason priority, rfl, ?_⟩ (Or.inl hx)
    simp only [ResourceTimer.setTimer]
    split
    · rename_i hw
      exact hw ▸ rfl
    · rfl
  · simp [hx, IsArmed]

theorem setup_spec (hr : r ∈ m.resourceTimers) (only : Bool) (lastDeployed : Time) :
    SameConfig m (m.setup r only lastDeployed)
      ∧ (∀ x, x ≠ r → ((m.setup r only lastDeployed).IsArmed x ↔ m.IsArmed x))
      ∧ (m.periodicRepairInterval ≠ none → (m.setup r only lastDeployed).IsArmed r) := by
  have hset : ∀ {w : Time} {reason : String} {p : TaskPriority},
      SameConfig m (m.modify r fun t => t.setTimer w reason p)
        ∧ (∀ x, x ≠ r → ((m.modify r fun t => t.setTimer w reason p).IsArmed x ↔ m.IsArmed x))
        ∧ (m.periodicRepairInterval ≠ none →
          (m.modify r fun t => t.setTimer w reason p).IsArmed r) := fun {w reason p} =>
    ⟨sameConfig_modify _, fun x hx => (isArmed_setTimer hr).trans (or_iff_right hx),
      fun _ => (isArmed_setTimer hr).mpr (Or.inl rfl)⟩
  have hstop : m.periodicRepairInterval = none → SameConfig m (m.stopTimer r)
      ∧ (∀ x, x ≠ r → ((m.stopTimer r).IsArmed x ↔ m.IsArmed x))
      ∧ (m.periodicRepairInterval ≠ none → (m.stopTimer r).IsArmed r) := fun h =>
    ⟨sameConfig_stopTimer, fun x hx => isArmed_stopTimer.trans (and_iff_left hx),
      fun hne => absurd h hne⟩
  unfold setup
  cases hrep : m.periodicRepairInterval with
  | none =>
      rw [hrep] at hstop
      cases m.periodicDeployInterval with
      | none => exact hstop rfl
      | some d =>
          simp only
          split
          · exact hstop rfl
          · rw [hrep] at hset
            exact hset
  | some p =>
      rw [hrep] at hset
      cases m.periodicDeployInterval with
      | none => exact hset
      | some d =>
          simp only
          split <;> exact hset

/-- What `updateTimer` does. With a per-resource repair interval it arms the
timer of every resource that may be deployed and has been before. -/
structure TimerUpdated (m : TimerManager) (r : ResourceIdStr) (state : ResourceState)
    (m' : TimerManager) : Prop where
  config : SameConfig m m'
  other : ∀ x, x ≠ r → (m'.IsArmed x ↔ m.IsArmed x)
  armed : m.periodicRepairInterval ≠ none → state.blocked ≠ .blocked →
    state.lastDeployed ≠ none → m'.IsArmed r
  keeps : state.blocked ≠ .blocked → m.periodicRepairInterval ≠ none →
    m.IsArmed r → m'.IsArmed r
  blocked : state.blocked = .blocked → ¬ m'.IsArmed r

theorem updateTimer_spec (m : TimerManager) (r : ResourceIdStr) (state : ResourceState) :
    TimerUpdated m r state (m.updateTimer r state) := by
  let m₁ := if r ∈ m.resourceTimers then m
    else { m with resourceTimers := m.resourceTimers.set r .new }
  have hc : SameConfig m m₁ := by
    simp only [m₁]
    split <;> exact ⟨rfl, rfl⟩
  have hr : r ∈ m₁.resourceTimers := by
    simp only [m₁]
    split
    · assumption
    · exact Dict.mem_set.mpr (Or.inl rfl)
  have ha : ∀ x, m₁.IsArmed x ↔ m.IsArmed x := by
    intro x
    simp only [m₁]
    split
    · rfl
    · rename_i hno
      rw [IsArmed, IsArmed, Dict.get?_set]
      split
      · rename_i hx
        rw [hx, Dict.not_mem_iff.mp hno]
        simp [ResourceTimer.new]
      · rfl
  show TimerUpdated m r state (match repairOnly state with
    | none => m₁.stopTimer r
    | some only =>
        if m₁.periodicRepairInterval = none ∧ m₁.periodicDeployInterval = none then m₁.stopTimer r
        else
          match state.lastDeployed with
          | none => m₁
          | some lastDeployed => m₁.setup r only lastDeployed)
  have hstop : ∀ x, x ≠ r → ((m₁.stopTimer r).IsArmed x ↔ m.IsArmed x) := fun x hx =>
    isArmed_stopTimer.trans ((and_iff_left hx).trans (ha x))
  cases hb : repairOnly state with
  | none =>
      have hblocked : state.blocked = .blocked := by
        unfold repairOnly at hb
        split at hb
        · assumption
        · cases hb
        · cases hb
      exact ⟨hc.trans sameConfig_stopTimer, hstop, fun _ hnb => absurd hblocked hnb,
        fun hnb => absurd hblocked hnb, fun _ h => (isArmed_stopTimer.mp h).2 rfl⟩
  | some only =>
      have hnb : state.blocked ≠ .blocked := by
        rintro he
        rw [repairOnly, he] at hb
        cases hb
      simp only
      split
      · rename_i hnone
        rw [hc.repair] at hnone
        exact ⟨hc.trans sameConfig_stopTimer, hstop, fun h => absurd hnone.1 h,
          fun _ h => absurd hnone.1 h, fun h => absurd h hnb⟩
      · cases hd : state.lastDeployed with
        | none => exact ⟨hc, fun x _ => ha x, fun _ _ h => absurd hd h, fun _ _ => (ha r).mpr,
            fun h => absurd h hnb⟩
        | some lastDeployed =>
            obtain ⟨hc', hother, harm⟩ := setup_spec hr only lastDeployed
            rw [hc.repair] at harm
            exact ⟨hc.trans hc', fun x hx => (hother x hx).trans (ha x), fun h _ _ => harm h,
              fun _ h _ => harm h, fun h => absurd h hnb⟩

/-- Updating the timers of managed resources. -/
theorem updateTimers_ok (m : TimerManager) {state : Dict ResourceIdStr ResourceState}
    {rs : List ResourceIdStr} (h : ∀ r ∈ rs, r ∈ state) :
    ∃ m', m.updateTimers state rs = .ok m' ∧ SameConfig m m'
      ∧ (∀ x, x ∉ rs → (m'.IsArmed x ↔ m.IsArmed x))
      ∧ (m.periodicRepairInterval ≠ none → ∀ x s, state.get? x = some s →
          s.blocked ≠ .blocked → (m.IsArmed x ∨ (x ∈ rs ∧ s.lastDeployed ≠ none)) →
          m'.IsArmed x)
      ∧ ∀ x s, state.get? x = some s → s.blocked = .blocked → m'.IsArmed x → m.IsArmed x := by
  refine foldlM_ok (ε := PyError)
    (I := fun pre m' => SameConfig m m' ∧ (∀ x, x ∉ pre → (m'.IsArmed x ↔ m.IsArmed x))
      ∧ (m.periodicRepairInterval ≠ none → ∀ x s, state.get? x = some s →
          s.blocked ≠ .blocked → (m.IsArmed x ∨ (x ∈ pre ∧ s.lastDeployed ≠ none)) →
          m'.IsArmed x)
      ∧ ∀ x s, state.get? x = some s → s.blocked = .blocked → m'.IsArmed x → m.IsArmed x)
    ?_ ⟨.refl m, fun _ _ => Iff.rfl, fun _ x s _ _ h => h.elim id fun h => absurd h.1 (by simp),
      fun _ _ _ _ => id⟩
  rintro pre r post m' hl ⟨hc, hother, harm, hblk⟩
  obtain ⟨s, hs⟩ := Dict.mem_iff.mp (h r (by simp [hl]))
  have hu := updateTimer_spec m' r s
  refine ⟨m'.updateTimer r s, by rw [Dict.item_of_get? hs]; rfl, hc.trans hu.config, ?_, ?_, ?_⟩
  · intro x hx
    rw [List.mem_append, List.mem_singleton, not_or] at hx
    exact (hu.other x hx.2).trans (hother x hx.1)
  · intro hrep x s' hs' hnb hx
    by_cases hxr : x = r
    · subst hxr
      obtain rfl := Option.some.inj (hs.symm.trans hs')
      by_cases hd : s.lastDeployed = none
      · have hx := hx.resolve_right fun h => h.2 hd
        exact hu.keeps hnb (by rw [hc.repair]; exact hrep) (harm hrep x s hs hnb (Or.inl hx))
      · exact hu.armed (by rw [hc.repair]; exact hrep) hnb hd
    · rw [hu.other x hxr]
      refine harm hrep x s' hs' hnb (hx.imp_right fun h => ⟨?_, h.2⟩)
      exact (List.mem_append.mp h.1).resolve_right fun h => hxr (List.mem_singleton.mp h)
  · intro x s' hs' hb hx
    by_cases hxr : x = r
    · subst hxr
      obtain rfl := Option.some.inj (hs.symm.trans hs')
      exact absurd hx (hu.blocked hb)
    · exact hblk x s' hs' hb ((hu.other x hxr).mp hx)

end TimerManager

end Inmanta
