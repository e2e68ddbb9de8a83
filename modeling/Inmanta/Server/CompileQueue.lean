import Inmanta.Server.CompilerService

/-!
# The compile queue does not stall

A call attends to an environment while it may still start the next compile
of it; a run does until it has found out, under the lock, that there is
nothing to start. What carries the result is `Attended`: an environment
with work is attended to. `Consistent` says that the runs that are
registered are the ones that are active.

Only the end of a run removes its registration: a run that raises before
it has the lock, or that finds the service stopping, leaves it behind
(`runRaises_stalls`).
-/

namespace Inmanta

variable {ε κ : Type}

def CompileCaller.Covers : CompileCaller ε → ε → Prop
  | .one environment, e | .run environment, e => environment = e
  | .all, _ => True

namespace CompilePhase

/-- The call may still start a compile of the environment. -/
def Serves : CompilePhase ε κ → ε → Prop
  | .answered compiles, e => ∃ c ∈ compiles, c.environment = e
  | .environment compile compiles, e => compile.environment = e ∨ ∃ c ∈ compiles, c.environment = e
  | .halted compile compiles isHalted, e =>
      isHalted = false ∧ compile.environment = e ∨ ∃ c ∈ compiles, c.environment = e
  | .over, _ => False
  | _, _ => True

/-- What a run finds is at most one compile, of its environment. -/
def Single : CompilePhase ε κ → ε → Prop
  | .answered compiles, e => compiles = [] ∨ ∃ c, compiles = [c] ∧ c.environment = e
  | .environment compile compiles, e | .halted compile compiles _, e =>
      compile.environment = e ∧ compiles = []
  | _, _ => True

theorem Locked.not_isOver {phase : CompilePhase ε κ} (h : phase.Locked) : ¬ phase.IsOver := by
  cases phase <;> first | exact id | exact False.elim h

theorem Serves.not_isOver {phase : CompilePhase ε κ} {e : ε} (h : phase.Serves e) :
    ¬ phase.IsOver := by
  cases phase <;> first | exact id | exact False.elim h

theorem serves_of_not_locked {phase : CompilePhase ε κ} (h : ¬ phase.Locked)
    (ho : ¬ phase.IsOver) (e : ε) : phase.Serves e := by
  cases phase <;> first | trivial | exact absurd trivial h | exact absurd trivial ho

end CompilePhase

namespace CompilerService

/-- The run of an environment is active. -/
def ActiveRun (s : CompilerService ε κ) (e : ε) (r : ℕ) : Prop :=
  (s.tasks r).caller = .run e ∧ ¬ (s.tasks r).phase.IsOver

/-- A compile of the environment is queued and may run. -/
def Work (s : CompilerService ε κ) (e : ε) : Prop :=
  s.fullyReady = true ∧ s.stopping = false ∧ s.halted e = false ∧ ∃ c ∈ s.queue, c.environment = e

def Serves (s : CompilerService ε κ) (p : ℕ) (e : ε) : Prop :=
  (s.tasks p).caller.Covers e ∧ (s.tasks p).phase.Serves e

/-- An environment with work is attended to. -/
def Attended (s : CompilerService ε κ) : Prop :=
  ∀ e, s.Work e → ∃ p, s.Serves p e

theorem serves_setPhase {s : CompilerService ε κ} {p q : ℕ} {e : ε} {phase : CompilePhase ε κ} :
    (s.setPhase p phase).Serves q e ↔
      if q = p then (s.tasks p).caller.Covers e ∧ phase.Serves e else s.Serves q e := by
  simp only [Serves, setPhase, Function.update_apply]
  split <;> rfl

/-- What an attended environment may be attended by after a step. -/
theorem Attended.imp {s s' : CompilerService ε κ} (h : s.Attended) (hwork : ∀ e, s'.Work e → s.Work e)
    (hs : ∀ p e, s.Work e → s.Serves p e → ∃ q, s'.Serves q e) : s'.Attended := fun e he => by
  obtain ⟨p, hp⟩ := h e (hwork e he)
  exact hs p e (hwork e he) hp

/-- A call waits for something else, with the same in prospect. -/
theorem Attended.setPhase {s : CompilerService ε κ} {p : ℕ} {phase : CompilePhase ε κ}
    (h : s.Attended)
    (hs : ∀ e, s.Work e → (s.tasks p).caller.Covers e → (s.tasks p).phase.Serves e →
      phase.Serves e ∨ ∃ q, q ≠ p ∧ s.Serves q e) : (s.setPhase p phase).Attended := by
  refine h.imp (fun _ he => he) fun q e he hq => ?_
  have hother : (∃ q, q ≠ p ∧ s.Serves q e) → ∃ q, (s.setPhase p phase).Serves q e := by
    rintro ⟨q, hne, hq⟩
    exact ⟨q, serves_setPhase.mpr (by rw [if_neg hne]; exact hq)⟩
  by_cases hqp : q = p
  · subst hqp
    obtain hp | hp := hs e he hq.1 hq.2
    · exact ⟨q, serves_setPhase.mpr (by rw [if_pos rfl]; exact ⟨hq.1, hp⟩)⟩
    · exact hother hp
  · exact hother ⟨q, hqp, hq⟩

variable [DecidableEq ε]

structure Consistent (s : CompilerService ε κ) : Prop where
  registered : ∀ e r, s.envToCompileTask.get? e = some r ↔ s.ActiveRun e r
  lock : ∀ p, s.writeLock = some p ↔ (s.tasks p).phase.Locked
  fresh : ∀ p, s.next ≤ p → (s.tasks p).phase.IsOver
  finishing : ∀ p e, (s.tasks p).caller = .run e → (s.tasks p).phase.Locked →
    (s.tasks p).finishingCompileTask = some p
  single : ∀ p e, (s.tasks p).caller = .run e → (s.tasks p).phase.Single e

variable {s : CompilerService ε κ} {p : ℕ} {e : ε} {phase : CompilePhase ε κ}

namespace Consistent

theorem lt_next (h : s.Consistent) (hp : ¬ (s.tasks p).phase.IsOver) : p < s.next := by
  by_contra hge
  exact hp (h.fresh p (not_lt.mp hge))

/-- Two runs of one environment are the same. -/
theorem activeRun_unique (h : s.Consistent) {r r' : ℕ} (hr : s.ActiveRun e r)
    (hr' : s.ActiveRun e r') : r = r' :=
  Option.some.inj (((h.registered e r).mpr hr).symm.trans ((h.registered e r').mpr hr'))

/-- A call waits for something else than before. -/
theorem setPhase (h : s.Consistent) (ho : ¬ (s.tasks p).phase.IsOver) (ho' : ¬ phase.IsOver)
    (hlock : phase.Locked ↔ (s.tasks p).phase.Locked)
    (hsingle : ∀ e, (s.tasks p).caller = .run e → phase.Single e) :
    (s.setPhase p phase).Consistent := by
  refine ⟨fun e r => ?_, fun q => ?_, fun q hq => ?_, fun q e hq hl => ?_, fun q e hq => ?_⟩
  · refine (h.registered e r).trans ?_
    simp only [ActiveRun, CompilerService.setPhase, Function.update_apply]
    split
    · next hr =>
      subst hr
      simp only [ho, ho', not_false_eq_true]
    · rfl
  · refine (h.lock q).trans ?_
    simp only [CompilerService.setPhase, Function.update_apply]
    split
    · next hqp =>
      subst hqp
      exact hlock.symm
    · rfl
  · have hne : q ≠ p := by
      rintro rfl
      exact absurd (h.lt_next ho) (not_lt.mpr hq)
    simp only [CompilerService.setPhase, Function.update_of_ne hne]
    exact h.fresh q hq
  · simp only [CompilerService.setPhase, Function.update_apply] at hq hl ⊢
    split at hq
    · next hqp =>
      subst hqp
      rw [if_pos rfl] at hl ⊢
      exact h.finishing q e hq (hlock.mp hl)
    · next hqp =>
      rw [if_neg hqp] at hl ⊢
      exact h.finishing q e hq hl
  · simp only [CompilerService.setPhase, Function.update_apply] at hq ⊢
    split at hq
    · next hqp =>
      subst hqp
      rw [if_pos rfl]
      exact hsingle e hq
    · next hqp =>
      rw [if_neg hqp]
      exact h.single q e hq

/-- What the calls do not read. -/
theorem congr (h : s.Consistent) {s' : CompilerService ε κ} (htasks : s'.tasks = s.tasks)
    (hreg : ∀ e, s'.envToCompileTask.get? e = s.envToCompileTask.get? e)
    (hlock : s'.writeLock = s.writeLock)
    (hnext : s'.next = s.next) : s'.Consistent := by
  refine ⟨?_, ?_, ?_, ?_, ?_⟩
  · simp only [ActiveRun, htasks, hreg]
    exact h.registered
  · simp only [htasks, hlock]
    exact h.lock
  · simp only [htasks, hnext]
    exact h.fresh
  · simp only [htasks]
    exact h.finishing
  · simp only [htasks]
    exact h.single

/-- A new call that is not a run. -/
theorem spawn (h : s.Consistent) {caller : CompileCaller ε} (hc : ∀ e, caller ≠ .run e) :
    (s.spawn caller .connecting).Consistent := by
  have hover : ∀ q, ¬ (s.tasks q).phase.IsOver → q ≠ s.next := fun q hq =>
    (h.lt_next hq).ne
  refine ⟨fun e r => ?_, fun q => ?_, fun q hq => ?_, fun q e hq hl => ?_, fun q e hq => ?_⟩
  · refine (h.registered e r).trans ?_
    simp only [ActiveRun, CompilerService.spawn, Function.update_apply]
    split
    · next hr =>
      subst hr
      exact iff_of_false (fun hr => hover _ hr.2 rfl) fun hr => hc e hr.1
    · rfl
  · refine (h.lock q).trans ?_
    simp only [CompilerService.spawn, Function.update_apply]
    split
    · next hq =>
      subst hq
      exact iff_of_false (fun hl => hover _ hl.not_isOver rfl) id
    · rfl
  · have hne : q ≠ s.next := (Nat.lt_of_succ_le hq).ne'
    simp only [CompilerService.spawn, Function.update_of_ne hne]
    exact h.fresh q (Nat.le_of_succ_le hq)
  · simp only [CompilerService.spawn, Function.update_apply] at hq hl ⊢
    split at hq
    · exact absurd hq (hc e)
    · next hqn =>
      rw [if_neg hqn] at hl ⊢
      exact h.finishing q e hq hl
  · simp only [CompilerService.spawn, Function.update_apply] at hq ⊢
    split at hq
    · exact absurd hq (hc e)
    · next hqn =>
      rw [if_neg hqn]
      exact h.single q e hq

/-- A run is started for an environment without one. -/
theorem spawnRun (h : s.Consistent) (compile : Compile ε κ) (he : e ∉ s.envToCompileTask) :
    { s.spawn (.run e) (.backoff compile) with
      envToCompileTask := s.envToCompileTask.set e s.next }.Consistent := by
  have hover : ∀ q, ¬ (s.tasks q).phase.IsOver → q ≠ s.next := fun q hq =>
    (h.lt_next hq).ne
  have hnone := Dict.not_mem_iff.mp he
  refine ⟨fun e' r => ?_, fun q => ?_, fun q hq => ?_, fun q e' hq hl => ?_, fun q e' hq => ?_⟩
  · simp only [ActiveRun, CompilerService.spawn, Function.update_apply, Dict.get?_set]
    by_cases hee : e' = e
    · subst hee
      rw [if_pos rfl]
      by_cases hr : r = s.next
      · subst hr
        rw [if_pos rfl]
        exact iff_of_true rfl ⟨rfl, id⟩
      · rw [if_neg hr]
        refine iff_of_false (fun hs => hr (Option.some.inj hs).symm) fun hact => ?_
        have := (h.registered e' r).mpr hact
        rw [hnone] at this
        cases this
    · rw [if_neg hee, h.registered]
      by_cases hr : r = s.next
      · subst hr
        rw [if_pos rfl]
        exact iff_of_false (fun hact => hover _ hact.2 rfl)
          fun hact => hee (CompileCaller.run.inj hact.1).symm
      · rw [if_neg hr]
        rfl
  · refine (h.lock q).trans ?_
    simp only [CompilerService.spawn, Function.update_apply]
    split
    · next hq =>
      subst hq
      exact iff_of_false (fun hl => hover _ hl.not_isOver rfl) id
    · rfl
  · have hne : q ≠ s.next := (Nat.lt_of_succ_le hq).ne'
    simp only [CompilerService.spawn, Function.update_of_ne hne]
    exact h.fresh q (Nat.le_of_succ_le hq)
  · simp only [CompilerService.spawn, Function.update_apply] at hq hl ⊢
    split at hq
    · next hqn =>
      rw [if_pos hqn] at hl
      exact False.elim hl
    · next hqn =>
      rw [if_neg hqn] at hl ⊢
      exact h.finishing q e' hq hl
  · simp only [CompilerService.spawn, Function.update_apply] at hq ⊢
    split at hq
    · next hqn =>
      rw [if_pos hqn]
      trivial
    · next hqn =>
      rw [if_neg hqn]
      exact h.single q e' hq

/-- A call that does not finish a run is over. -/
theorem dropCall (h : s.Consistent) (hc : ∀ e, (s.tasks p).caller ≠ .run e)
    (writeLock : Option ℕ) (hlock : ∀ q, writeLock = some q ↔ s.writeLock = some q ∧ q ≠ p) :
    ({ s with writeLock }.setPhase p .over).Consistent := by
  refine ⟨fun e r => ?_, fun q => ?_, fun q hq => ?_, fun q e hq hl => ?_, fun q e hq => ?_⟩
  · refine (h.registered e r).trans ?_
    simp only [ActiveRun, CompilerService.setPhase, Function.update_apply]
    split
    · next hr =>
      subst hr
      exact iff_of_false (fun hr => hc e hr.1) fun hr => hc e hr.1
    · rfl
  · refine (hlock q).trans ?_
    simp only [CompilerService.setPhase, Function.update_apply]
    split
    · next hqp =>
      exact iff_of_false (fun hl => hl.2 hqp) id
    · next hqp =>
      rw [and_iff_left hqp]
      exact h.lock q
  · simp only [CompilerService.setPhase, Function.update_apply]
    split
    · trivial
    · exact h.fresh q hq
  · simp only [CompilerService.setPhase, Function.update_apply] at hq hl ⊢
    split at hq
    · exact absurd hq (hc e)
    · next hqp =>
      rw [if_neg hqp] at hl ⊢
      exact h.finishing q e hq hl
  · simp only [CompilerService.setPhase, Function.update_apply] at hq ⊢
    split at hq
    · exact absurd hq (hc e)
    · next hqp =>
      rw [if_neg hqp]
      exact h.single q e hq

/-- A run is over, with its registration. -/
theorem dropRun (h : s.Consistent) (hc : (s.tasks p).caller = .run e)
    (ho : ¬ (s.tasks p).phase.IsOver) {writeLock : Option ℕ}
    (hlock : ∀ q, writeLock = some q ↔ s.writeLock = some q ∧ q ≠ p) :
    ({ s with
      writeLock
      envToCompileTask := s.envToCompileTask.del e }.setPhase p .over).Consistent := by
  have hreg := (h.registered e p).mpr ⟨hc, ho⟩
  refine ⟨fun e' r => ?_, fun q => ?_, fun q hq => ?_, fun q e' hq hl => ?_, fun q e' hq => ?_⟩
  · simp only [ActiveRun, CompilerService.setPhase, Function.update_apply, Dict.get?_del]
    by_cases hr : r = p
    · subst hr
      rw [if_pos rfl]
      refine iff_of_false (fun hs => ?_) fun hact => hact.2 trivial
      split at hs
      · cases hs
      · next hne =>
        have hact := ((h.registered e' r).mp hs).1
        rw [hc] at hact
        exact hne (CompileCaller.run.inj hact).symm
    · rw [if_neg hr]
      split
      · next heq =>
        subst heq
        refine iff_of_false (by simp) fun hact => hr ?_
        exact (Option.some.inj (hreg.symm.trans ((h.registered e' r).mpr hact))).symm
      · exact h.registered e' r
  · refine (hlock q).trans ?_
    simp only [CompilerService.setPhase, Function.update_apply]
    split
    · next hqp =>
      exact iff_of_false (fun hl => hl.2 hqp) id
    · next hqp =>
      rw [and_iff_left hqp]
      exact h.lock q
  · simp only [CompilerService.setPhase, Function.update_apply]
    split
    · trivial
    · exact h.fresh q hq
  · simp only [CompilerService.setPhase, Function.update_apply] at hq hl ⊢
    split at hq
    · next hqp =>
      rw [if_pos hqp] at hl
      exact False.elim hl
    · next hqp =>
      rw [if_neg hqp] at hl ⊢
      exact h.finishing q e' hq hl
  · simp only [CompilerService.setPhase, Function.update_apply] at hq ⊢
    split at hq
    · next hqp =>
      rw [if_pos hqp]
      trivial
    · next hqp =>
      rw [if_neg hqp]
      exact h.single q e' hq

/-- The call that has the lock is the only one. -/
theorem lock_iff (h : s.Consistent) (hl : (s.tasks p).phase.Locked) (q : ℕ) :
    none = some q ↔ s.writeLock = some q ∧ q ≠ p := by
  refine iff_of_false (by simp) fun hq => hq.2 ?_
  exact (Option.some.inj (((h.lock p).mpr hl).symm.trans hq.1)).symm

theorem finish (h : s.Consistent) (hl : (s.tasks p).phase.Locked) : (s.finish p).Consistent := by
  have hlock := h.lock_iff hl
  unfold CompilerService.finish
  cases hc : (s.tasks p).caller with
  | run e =>
      have hfin := h.finishing p e hc hl
      have hreg := (h.registered e p).mpr ⟨hc, hl.not_isOver⟩
      simp only [hfin, hreg, if_true]
      exact h.dropRun hc hl.not_isOver hlock
  | one e => exact h.dropCall (by rw [hc]; exact fun _ h => by cases h) _ hlock
  | all => exact h.dropCall (by rw [hc]; exact fun _ h => by cases h) _ hlock

/-- A call has the lock. -/
theorem take (h : s.Consistent) (hphase : (s.tasks p).phase = .lock) (hnone : s.writeLock = none)
    {f : Option ℕ} (hf : ∀ e, (s.tasks p).caller = .run e → f = some p) :
    ({ s with
      writeLock := some p
      tasks := Function.update s.tasks p { s.tasks p with
        phase := .nextRun
        finishingCompileTask := f } } : CompilerService ε κ).Consistent := by
  have hfree : ∀ q, ¬ (s.tasks q).phase.Locked := fun q hq => by
    have := (h.lock q).mpr hq
    rw [hnone] at this
    cases this
  have hlt : p < s.next := h.lt_next (by rw [hphase]; exact id)
  refine ⟨fun e r => ?_, fun q => ?_, fun q hq => ?_, fun q e hq hl => ?_, fun q e hq => ?_⟩
  · refine (h.registered e r).trans ?_
    simp only [ActiveRun, Function.update_apply]
    split
    · next hr =>
      subst hr
      rw [hphase]
      rfl
    · rfl
  · simp only [Function.update_apply]
    split
    · next hqp => exact iff_of_true (by rw [hqp]) trivial
    · next hqp => exact iff_of_false (fun hs => hqp (Option.some.inj hs).symm) (hfree q)
  · have hne : q ≠ p := by
      rintro rfl
      exact absurd hlt (not_lt.mpr hq)
    simp only [Function.update_of_ne hne]
    exact h.fresh q hq
  · simp only [Function.update_apply] at hq hl ⊢
    split at hq
    · next hqp =>
      subst hqp
      rw [if_pos rfl]
      exact hf e hq
    · next hqp =>
      rw [if_neg hqp] at hl
      exact absurd hl (hfree q)
  · simp only [Function.update_apply] at hq ⊢
    split at hq
    · next hqp =>
      rw [if_pos hqp]
      trivial
    · next hqp =>
      rw [if_neg hqp]
      exact h.single q e hq

theorem locked (h : s.Consistent) (hphase : (s.tasks p).phase = .lock) (hnone : s.writeLock = none) :
    (s.locked p).Consistent := by
  have ho : ¬ (s.tasks p).phase.IsOver := by rw [hphase]; exact id
  have hlock : ∀ q, s.writeLock = some q ↔ s.writeLock = some q ∧ q ≠ p := fun q => by
    rw [hnone]
    simp
  unfold CompilerService.locked
  split
  · cases hc : (s.tasks p).caller with
    | run e => exact h.dropRun hc ho hlock
    | one e => exact h.dropCall (by rw [hc]; exact fun _ h => by cases h) _ hlock
    | all => exact h.dropCall (by rw [hc]; exact fun _ h => by cases h) _ hlock
  · cases hc : (s.tasks p).caller with
    | run e =>
        have htake := h.take hphase hnone (f := s.envToCompileTask.get? e) fun e' he' => by
          rw [hc] at he'
          obtain rfl := CompileCaller.run.inj he'
          exact (h.registered e p).mpr ⟨hc, ho⟩
        exact htake
    | one e =>
        exact h.take hphase hnone fun e' he' => by rw [hc] at he'; cases he'
    | all =>
        exact h.take hphase hnone fun e' he' => by rw [hc] at he'; cases he'

/-- A run that another was started for keeps the registration of that one. -/
theorem finish_replaced {task : ℕ} (hc : (s.tasks p).caller = .run e)
    (hfin : (s.tasks p).finishingCompileTask = some task)
    (hne : s.envToCompileTask.get? e ≠ some task) :
    s.finish p = { s with writeLock := none }.setPhase p .over := by
  simp only [CompilerService.finish, hc, hfin, hne, if_false]

/-- A run starts the next one in its place. -/
theorem replace (h : s.Consistent) (hc : (s.tasks p).caller = .run e)
    (hl : (s.tasks p).phase.Locked) {compile : Compile ε κ} :
    { { s.spawn (.run e) (.backoff compile) with
      envToCompileTask := s.envToCompileTask.set e s.next } with
      writeLock := none }.setPhase p .over |>.Consistent := by
  have hlt := h.lt_next hl.not_isOver
  have hdrop := (h.dropRun hc hl.not_isOver (h.lock_iff hl)).spawnRun (e := e) compile
    (by simp [CompilerService.setPhase])
  refine hdrop.congr ?_ (fun e' => ?_) rfl rfl
  · simp only [CompilerService.setPhase, CompilerService.spawn, Function.update_of_ne hlt.ne]
    exact Function.update_comm hlt.ne' _ _ _
  · simp only [CompilerService.setPhase, CompilerService.spawn, Dict.get?_set, Dict.get?_del]
    split <;> rfl

end Consistent

/-! ## Who attends to an environment -/

theorem Consistent.serves_spawn (h : s.Consistent) {caller : CompileCaller ε} {q : ℕ}
    (hq : s.Serves q e) : (s.spawn caller phase).Serves q e := by
  have hne : q ≠ s.next := (h.lt_next hq.2.not_isOver).ne
  simp only [Serves, CompilerService.spawn, Function.update_of_ne hne]
  exact hq

omit [DecidableEq ε] in
theorem serves_spawned {caller : CompileCaller ε} (hc : caller.Covers e) (hp : phase.Serves e) :
    (s.spawn caller phase).Serves s.next e := by
  simp only [Serves, spawn, Function.update_self]
  exact ⟨hc, hp⟩

/-- Only a new call adds work. -/
theorem Consistent.attended_spawn (h : s.Consistent) (ha : s.Attended)
    (s₁ : CompilerService ε κ) (htasks : s₁.tasks = s.tasks) (hnext : s₁.next = s.next)
    {caller : CompileCaller ε} (hwork : ∀ e, s₁.Work e → s.Work e ∨ caller.Covers e) :
    (s₁.spawn caller .connecting).Attended := fun e he => by
  obtain hw | hc := hwork e he
  · obtain ⟨q, hq⟩ := ha e hw
    have hne : q ≠ s₁.next := by
      rw [hnext]
      exact (h.lt_next hq.2.not_isOver).ne
    refine ⟨q, ?_⟩
    simp only [Serves, CompilerService.spawn, Function.update_of_ne hne, htasks]
    exact hq
  · exact ⟨_, serves_spawned hc trivial⟩

theorem finish_tasks : (s.finish p).tasks =
    Function.update s.tasks p { s.tasks p with phase := .over } := by
  unfold finish
  cases (s.tasks p).caller <;> cases (s.tasks p).finishingCompileTask <;> try rfl
  dsimp only
  split <;> rfl

theorem work_finish : (s.finish p).Work e ↔ s.Work e := by
  unfold finish
  cases (s.tasks p).caller <;> cases (s.tasks p).finishingCompileTask <;> try rfl
  dsimp only
  split <;> rfl

theorem Attended.finish (ha : s.Attended)
    (hs : ∀ e, s.Work e → s.Serves p e → ∃ q, q ≠ p ∧ s.Serves q e) : (s.finish p).Attended := by
  have hserves : ∀ q e, (s.setPhase p .over).Serves q e → (s.finish p).Serves q e :=
    fun q e hq => by
      rw [Serves, finish_tasks]
      exact hq
  have hover : (s.setPhase p .over).Attended :=
    ha.setPhase fun e he hc hp => .inr (hs e he ⟨hc, hp⟩)
  refine hover.imp (fun e he => ?_) fun q e _ hq => ⟨q, hserves q e hq⟩
  exact (show s.Work e from work_finish.mp he)

/-! ## Steps -/

/-- The invariant of the service. -/
def Inv (s : CompilerService ε κ) : Prop :=
  s.Consistent ∧ s.Attended

theorem Inv.goOn (h : s.Inv) (hl : (s.tasks p).phase.Locked) {compiles : List (Compile ε κ)}
    (hsingle : ∀ e, (s.tasks p).caller = .run e →
      compiles = [] ∨ ∃ c, compiles = [c] ∧ c.environment = e)
    (hs : ∀ e, s.Work e → s.Serves p e →
      (∃ c ∈ compiles, c.environment = e) ∨ ∃ q, q ≠ p ∧ s.Serves q e) :
    (s.goOn p compiles).Inv := by
  cases compiles with
  | nil =>
      refine ⟨h.1.finish hl, h.2.finish fun e he hp => (hs e he hp).resolve_left ?_⟩
      simp
  | cons c compiles =>
      refine ⟨h.1.setPhase hl.not_isOver id (iff_of_true trivial hl) fun e hc => ?_,
        h.2.setPhase fun e he hc hp => (hs e he ⟨hc, hp⟩).imp_left fun hcs => ?_⟩
      · obtain hnil | ⟨c', heq, hc'⟩ := hsingle e hc
        · cases hnil
        · obtain ⟨rfl, rfl⟩ := List.cons.inj heq
          exact ⟨hc', rfl⟩
      · obtain ⟨c', hmem, hc'⟩ := hcs
        obtain rfl | hmem := List.mem_cons.mp hmem
        · exact .inl hc'
        · exact .inr ⟨c', hmem, hc'⟩

omit [DecidableEq ε] in
theorem exists_run {caller : CompileCaller ε} (h : replaces caller = true) :
    ∃ e, caller = .run e := by
  cases caller with
  | run e => exact ⟨e, rfl⟩
  | one _ => cases h
  | all => cases h

/-- The environment of a compile is known to be halted or not. -/
theorem Inv.proceed (h : s.Inv) {compile : Compile ε κ} {compiles : List (Compile ε κ)}
    {isHalted : Bool} (hphase : (s.tasks p).phase = .halted compile compiles isHalted) :
    ((s.processCompile compile (replaces (s.tasks p).caller) isHalted).goOn p compiles).Inv := by
  have hl : (s.tasks p).phase.Locked := by rw [hphase]; trivial
  have hsingle : ∀ e, (s.tasks p).caller = .run e → compile.environment = e ∧ compiles = [] :=
    fun e hc => by
      have := h.1.single p e hc
      rw [hphase] at this
      exact this
  have hserves : ∀ e, s.Serves p e →
      isHalted = false ∧ compile.environment = e ∨ ∃ c ∈ compiles, c.environment = e :=
    fun e hp => by
      have := hp.2
      rw [hphase] at this
      exact this
  have hskip : (∀ e, s.Work e → isHalted = false ∧ compile.environment = e →
      ∃ q, q ≠ p ∧ s.Serves q e) → (s.goOn p compiles).Inv := fun hs =>
    h.goOn hl (fun e hc => .inl (hsingle e hc).2) fun e he hp =>
      (hserves e hp).elim (fun hh => .inr (hs e he hh)) .inl
  unfold processCompile
  by_cases hh : isHalted = true
  · rw [if_pos hh]
    refine hskip fun e _ hfalse => ?_
    rw [hh] at hfalse
    cases hfalse.1
  rw [if_neg hh]
  by_cases hstart : replaces (s.tasks p).caller = true ∨ compile.environment ∉ s.envToCompileTask
  · rw [if_pos hstart]
    have htask : (s.spawn (.run compile.environment) (.backoff compile)).tasks p = s.tasks p :=
      Function.update_of_ne (h.1.lt_next hl.not_isOver).ne _ _
    have hnew : (s.spawn (.run compile.environment) (.backoff compile)).Serves s.next
        compile.environment := serves_spawned rfl trivial
    cases hrun : replaces (s.tasks p).caller with
    | true =>
        obtain ⟨e, hc⟩ := exists_run hrun
        obtain ⟨rfl, rfl⟩ := hsingle e hc
        have hfin := h.1.finishing p _ hc hl
        rw [CompilerService.goOn, Consistent.finish_replaced (by exact htask ▸ hc) (by exact htask ▸ hfin)
          (by simp [Dict.get?_set, (h.1.lt_next hl.not_isOver).ne'])]
        refine ⟨h.1.replace hc hl, ?_⟩
        have hstarted : (s.spawn (.run compile.environment) (.backoff compile)).Attended :=
          h.2.imp (fun _ he => he) fun q e _ hq => ⟨q, h.1.serves_spawn hq⟩
        refine (hstarted.setPhase (p := p) fun e he hcov _ => ?_).imp
          (fun _ he => he) fun q e _ hq => ⟨q, hq⟩
        rw [htask, hc] at hcov
        refine .inr ⟨s.next, (h.1.lt_next hl.not_isOver).ne', ?_⟩
        rw [← show compile.environment = e from hcov]
        exact hnew
    | false =>
        have hreg := hstart.resolve_left (by rw [hrun]; decide)
        have hstarted : { s.spawn (.run compile.environment) (.backoff compile) with
            envToCompileTask := s.envToCompileTask.set compile.environment s.next }.Inv :=
          ⟨h.1.spawnRun compile hreg,
            h.2.imp (fun _ he => he) fun q e _ hq => ⟨q, h.1.serves_spawn hq⟩⟩
        refine hstarted.goOn (by exact htask ▸ hl) (fun e hc => ?_) fun e _ hp => ?_
        · rw [show ({ s.spawn (.run compile.environment) (.backoff compile) with
            envToCompileTask := s.envToCompileTask.set compile.environment s.next } :
              CompilerService ε κ).tasks p = s.tasks p from htask] at hc
          rw [hc] at hrun
          cases hrun
        · have hp' : s.Serves p e := by
            rw [Serves, ← htask]
            exact hp
          obtain ⟨_, rfl⟩ | hcs := hserves e hp'
          · exact .inr ⟨s.next, (h.1.lt_next hl.not_isOver).ne', hnew⟩
          · exact .inl hcs
  · rw [if_neg hstart]
    obtain ⟨hrun, hreg⟩ := not_or.mp hstart
    obtain ⟨r, hr⟩ := Dict.mem_iff.mp (not_not.mp hreg)
    have hact := (h.1.registered _ r).mp hr
    have hne : r ≠ p := by
      rintro rfl
      rw [hact.1] at hrun
      exact hrun rfl
    refine hskip fun e _ hhe => ⟨r, hne, ?_⟩
    rw [← hhe.2]
    refine ⟨by rw [hact.1]; rfl, CompilePhase.serves_of_not_locked (fun hlr => hne ?_) hact.2 _⟩
    exact Option.some.inj (((h.1.lock r).mpr hlr).symm.trans ((h.1.lock p).mpr hl))

/-- The call has the lock, or is over as the service does not run. -/
theorem Inv.acquire (h : s.Inv) (hphase : (s.tasks p).phase = .lock) (hnone : s.writeLock = none) :
    (s.locked p).Inv := by
  refine ⟨h.1.locked hphase hnone, ?_⟩
  unfold CompilerService.locked
  by_cases hready : ¬ s.fullyReady = true ∨ s.stopping = true
  · have hidle : ∀ e, ¬ s.Work e := fun e he => by
      obtain hr | hr := hready
      · exact hr he.1
      · rw [he.2.1] at hr
        cases hr
    rw [if_pos hready]
    split <;> exact fun e he => absurd he (hidle e)
  · rw [if_neg hready]
    have hwait : (s.setPhase p .nextRun).Attended := h.2.setPhase fun e _ _ _ => .inl trivial
    have hserves : ∀ {f : Option ℕ} q e, (s.setPhase p .nextRun).Serves q e →
        ({ s with
          writeLock := some p
          tasks := Function.update s.tasks p { s.tasks p with
            phase := .nextRun
            finishingCompileTask := f } } : CompilerService ε κ).Serves q e := fun q e hq => by
      rw [serves_setPhase] at hq
      simp only [Serves, Function.update_apply]
      split
      · next hqp => rwa [if_pos hqp] at hq
      · next hqp => rwa [if_neg hqp] at hq
    split
    · exact hwait.imp (fun _ he => he) fun q e _ hq => ⟨q, hserves q e hq⟩
    · exact hwait.imp (fun _ he => he) fun q e _ hq => ⟨q, hserves q e hq⟩

theorem getNextRun_environment {c : Compile ε κ} (h : s.getNextRun e = some c) :
    c.environment = e := by
  have hc := List.find?_some h
  exact of_decide_eq_true hc

theorem exists_getNextRun (h : ∃ c ∈ s.queue, c.environment = e) :
    ∃ c, s.getNextRun e = some c ∧ c.environment = e := by
  obtain ⟨c, hc, he⟩ := h
  have hsome : (s.getNextRun e).isSome := by
    rw [getNextRun, List.find?_isSome]
    exact ⟨c, hc, decide_eq_true he⟩
  obtain ⟨c', hc'⟩ := Option.isSome_iff_exists.mp hsome
  exact ⟨c', hc', getNextRun_environment hc'⟩

/-- The database answers with the next compiles. -/
theorem Inv.answer (h : s.Inv) (hphase : (s.tasks p).phase = .nextRun) :
    (s.setPhase p (.answered (match (s.tasks p).caller with
      | .all => s.getNextRunAll
      | .one environment | .run environment => (s.getNextRun environment).toList))).Inv := by
  have hl : (s.tasks p).phase.Locked := by rw [hphase]; trivial
  refine ⟨h.1.setPhase hl.not_isOver id (iff_of_true trivial hl) fun e hc => ?_,
    h.2.setPhase fun e he hcov _ => .inl ?_⟩
  · rw [hc]
    show (s.getNextRun e).toList = [] ∨ ∃ c, (s.getNextRun e).toList = [c] ∧ c.environment = e
    cases hrun : s.getNextRun e with
    | none => exact .inl rfl
    | some c => exact .inr ⟨c, rfl, getNextRun_environment hrun⟩
  · obtain ⟨c, hc, hce⟩ := exists_getNextRun he.2.2.2
    cases hcaller : (s.tasks p).caller with
    | all =>
        have hmem : c ∈ s.queue := List.mem_of_find?_eq_some hc
        refine ⟨c, List.mem_filter.mpr ⟨hmem, ?_⟩, hce⟩
        rw [hce, hc]
        exact decide_eq_true rfl
    | one e' | run e' =>
        rw [hcaller] at hcov
        obtain rfl : e' = e := hcov
        refine ⟨c, ?_, hce⟩
        show c ∈ (s.getNextRun e').toList
        rw [hc]
        exact List.mem_singleton_self c

/-- A new call that is not a run, with what it is called for. -/
theorem Inv.spawn (h : s.Inv) {s₁ : CompilerService ε κ} {caller : CompileCaller ε}
    (htasks : s₁.tasks = s.tasks) (hreg : s₁.envToCompileTask = s.envToCompileTask)
    (hlock : s₁.writeLock = s.writeLock) (hnext : s₁.next = s.next)
    (hc : replaces caller = false) (hwork : ∀ e, s₁.Work e → s.Work e ∨ caller.Covers e) :
    (s₁.spawn caller .connecting).Inv := by
  have hs₁ : s₁.Consistent := h.1.congr htasks (fun _ => by rw [hreg]) hlock hnext
  refine ⟨hs₁.spawn fun e he => ?_, h.1.attended_spawn h.2 s₁ htasks hnext hwork⟩
  rw [he] at hc
  cases hc

/-- Compiles are completed. -/
theorem Inv.dequeue (h : s.Inv) {queue : List (Compile ε κ)} (hsub : queue ⊆ s.queue) :
    ({ s with queue } : CompilerService ε κ).Inv :=
  ⟨h.1.congr rfl (fun _ => rfl) rfl rfl,
    h.2.imp (fun _ he => ⟨he.1, he.2.1, he.2.2.1, he.2.2.2.imp fun _ hc => ⟨hsub hc.1, hc.2⟩⟩)
      fun q _ _ hq => ⟨q, hq⟩⟩

/-- A call outside the lock waits for something else. -/
theorem Inv.move (h : s.Inv) (ho : ¬ (s.tasks p).phase.IsOver)
    (hl : ¬ (s.tasks p).phase.Locked) (ho' : ¬ phase.IsOver) (hl' : ¬ phase.Locked)
    (hsingle : ∀ e, phase.Single e) : (s.setPhase p phase).Inv :=
  ⟨h.1.setPhase ho ho' (iff_of_false hl' hl) fun e _ => hsingle e,
    h.2.setPhase fun e _ _ _ => .inl (CompilePhase.serves_of_not_locked hl' ho' e)⟩

theorem Inv.init (halted : ε → Bool) (queue : List (Compile ε κ)) :
    (CompilerService.init halted queue).Inv := by
  refine ⟨⟨fun e r => ?_, fun p => ?_, fun _ _ => trivial, fun _ _ _ hl => ?_, fun _ _ _ => trivial⟩,
    fun e he => ?_⟩
  · exact iff_of_false (fun h => by cases h) fun h => h.2 trivial
  · exact iff_of_false (fun h => by cases h) id
  · exact False.elim hl
  · cases he.1

/-- What holds of the compile queue at every await point. -/
structure Safe (s : CompilerService ε κ) : Prop where
  one : ∀ e r r', s.ActiveRun e r → s.ActiveRun e r' → r = r'
  active : ∀ e r, s.ActiveRun e r → s.envToCompileTask.get? e = some r
  registered : ∀ e r, s.envToCompileTask.get? e = some r → s.ActiveRun e r
  /-- With no call in progress that is about the environment. -/
  noStall : ∀ e, s.Work e → (∀ p, replaces (s.tasks p).caller = false →
      (s.tasks p).caller.Covers e → (s.tasks p).phase.IsOver) →
    ∃ r, s.envToCompileTask.get? e = some r ∧ s.ActiveRun e r

theorem Inv.safe (h : s.Inv) : s.Safe where
  one := fun _ _ _ => h.1.activeRun_unique
  active := fun e r => (h.1.registered e r).mpr
  registered := fun e r => (h.1.registered e r).mp
  noStall := fun e he hidle => by
    obtain ⟨p, hcov, hp⟩ := h.2 e he
    cases hrun : replaces (s.tasks p).caller with
    | false => exact absurd (hidle p hrun hcov) hp.not_isOver
    | true =>
        obtain ⟨e', hc⟩ := exists_run hrun
        rw [hc] at hcov
        obtain rfl : e' = e := hcov
        have hact : s.ActiveRun e' p := ⟨hc, hp.not_isOver⟩
        exact ⟨p, (h.1.registered e' p).mpr hact, hact⟩

variable [DecidableEq κ]

/-- A step that leaves nothing behind: no run ends because the service stops or
raises before it has the lock, and a call that raises was not the only one to
attend to an environment with work. -/
def LeavesNothing (s : CompilerService ε κ) : CompileAction ε κ → Prop
  | .completeMerged _ => s.stopping = false
  | .raises p => (replaces (s.tasks p).caller = true → (s.tasks p).phase.Locked) ∧
      ∀ e, s.Work e → s.Serves p e → ∃ q, q ≠ p ∧ s.Serves q e
  | _ => True

theorem Inv.step (h : s.Inv) {s' : CompilerService ε κ} {a : CompileAction ε κ}
    (hok : s.LeavesNothing a) (hs : s.step a = some s') : s'.Inv := by
  have hinsert : ∀ c : Compile ε κ, ((s.insert c).spawn (.one c.environment) .connecting).Inv :=
    fun c => by
      refine h.spawn (by rfl) (by rfl) (by rfl) (by rfl) rfl fun e he => ?_
      obtain ⟨hr, hst, hh, c', hc', hce⟩ := he
      obtain rfl | hc' := (List.mem_orderedInsert _).mp hc'
      · exact .inr hce
      · exact .inl ⟨hr, hst, hh, c', hc', hce⟩
  cases a with
  | requestRecompile c =>
      obtain rfl := Option.some.inj hs
      exact hinsert c
  | commit c =>
      obtain rfl := Option.some.inj hs
      exact hinsert c
  | halt e =>
      obtain rfl := Option.some.inj hs
      refine ⟨h.1.congr rfl (fun _ => rfl) rfl rfl, h.2.imp (fun e' he => ?_)
        fun q _ _ hq => ⟨q, hq⟩⟩
      obtain ⟨hr, hst, hh, hc⟩ := he
      simp only [Function.update_apply] at hh
      split at hh
      · cases hh
      · exact ⟨hr, hst, hh, hc⟩
  | resumeEnvironment e =>
      obtain rfl := Option.some.inj hs
      refine h.spawn (by rfl) (by rfl) (by rfl) (by rfl) rfl fun e' he => ?_
      obtain ⟨hr, hst, hh, hc⟩ := he
      simp only [Function.update_apply] at hh
      split at hh
      · next heq => exact .inr heq.symm
      · exact .inl ⟨hr, hst, hh, hc⟩
  | recover =>
      obtain rfl := Option.some.inj hs
      exact h.spawn (by rfl) (by rfl) (by rfl) (by rfl) rfl fun _ _ => .inr trivial
  | stop =>
      obtain rfl := Option.some.inj hs
      exact ⟨h.1.congr rfl (fun _ => rfl) rfl rfl, fun e he => by cases he.2.1⟩
  | start p =>
      simp only [CompilerService.step] at hs
      split at hs
      · next compile hphase =>
        obtain rfl := Option.some.inj hs
        exact h.move (by rw [hphase]; exact id) (by rw [hphase]; exact id) id id fun _ => trivial
      · cases hs
  | complete p =>
      simp only [CompilerService.step] at hs
      split at hs
      · next compile _ hphase =>
        obtain rfl := Option.some.inj hs
        exact (h.dequeue List.filter_sublist.subset).move (by rw [hphase]; exact id)
          (by rw [hphase]; exact id) id id fun _ => trivial
      · cases hs
  | completeMerged p =>
      simp only [CompilerService.step] at hs
      split at hs
      · next merged hphase =>
        obtain rfl := Option.some.inj hs
        rw [if_neg (by rw [show s.stopping = false from hok]; decide)]
        exact (h.dequeue List.filter_sublist.subset).move (by rw [hphase]; exact id)
          (by rw [hphase]; exact id) id id fun _ => trivial
      · cases hs
  | notified p =>
      simp only [CompilerService.step] at hs
      split at hs
      · next hphase =>
        obtain rfl := Option.some.inj hs
        exact h.move (by rw [hphase]; exact id) (by rw [hphase]; exact id) id id fun _ => trivial
      · cases hs
  | connect p =>
      simp only [CompilerService.step] at hs
      split at hs
      · next hphase =>
        obtain rfl := Option.some.inj hs
        exact h.move (by rw [hphase]; exact id) (by rw [hphase]; exact id) id id fun _ => trivial
      · cases hs
  | acquire p =>
      simp only [CompilerService.step] at hs
      split at hs
      · next hphase hnone =>
        obtain rfl := Option.some.inj hs
        exact h.acquire hphase hnone
      · cases hs
  | answer p =>
      simp only [CompilerService.step] at hs
      split at hs
      · next hphase =>
        obtain rfl := Option.some.inj hs
        exact h.answer hphase
      · next compile compiles hphase =>
        obtain rfl := Option.some.inj hs
        have hl : (s.tasks p).phase.Locked := by rw [hphase]; trivial
        refine ⟨h.1.setPhase hl.not_isOver id (iff_of_true trivial hl) fun e hc => ?_,
          h.2.setPhase fun e he _ hp => .inl ?_⟩
        · have := h.1.single p e hc
          rw [hphase] at this
          exact this
        · rw [hphase] at hp
          refine hp.imp_left fun hce => ⟨?_, hce⟩
          rw [hce]
          exact he.2.2.1
      · cases hs
  | proceed p =>
      simp only [CompilerService.step] at hs
      split at hs
      · next compiles hphase =>
        obtain rfl := Option.some.inj hs
        refine h.goOn (by rw [hphase]; trivial) (fun e hc => ?_) fun e _ hp => .inl ?_
        · have := h.1.single p e hc
          rw [hphase] at this
          exact this
        · have := hp.2
          rw [hphase] at this
          exact this
      · next compile compiles isHalted hphase =>
        obtain rfl := Option.some.inj hs
        exact h.proceed hphase
      · cases hs
  | raises p =>
      simp only [CompilerService.step] at hs
      split at hs
      · cases hs
      · next ho =>
        split at hs
        · next hl =>
          obtain rfl := Option.some.inj hs
          exact ⟨h.1.finish hl, h.2.finish hok.2⟩
        · next hl =>
          obtain rfl := Option.some.inj hs
          refine ⟨h.1.dropCall (fun e hc => hl (hok.1 ?_)) s.writeLock fun q => ?_,
            h.2.setPhase fun e he hc hp => .inr (hok.2 e he ⟨hc, hp⟩)⟩
          · rw [hc]
            rfl
          · refine ⟨fun hq => ⟨hq, ?_⟩, And.left⟩
            rintro rfl
            exact hl ((h.1.lock q).mp hq)

/-- **The compile queue does not stall.** In a run in which no call that ends
leaves work behind, the runs that are registered are the active ones, one for
each environment, and an environment with work has one or is about to. -/
theorem never_stalls (halted : ε → Bool) (queue : List (Compile ε κ))
    {as : List (CompileAction ε κ)} {r : CompilerService ε κ}
    (hok : Along CompilerService.step LeavesNothing (CompilerService.init halted queue) as)
    (hrun : run CompilerService.step (CompilerService.init halted queue) as = some r) : r.Safe :=
  (run_invariant (fun _ _ _ h hok hs => Inv.step h hok hs) (Inv.init halted queue) hok hrun).safe

/-- No call raises and no run ends while the service stops. -/
def Undisturbed (s : CompilerService ε κ) : CompileAction ε κ → Prop
  | .completeMerged _ => s.stopping = false
  | .raises _ => False
  | _ => True

instance (s : CompilerService ε κ) : DecidablePred s.Undisturbed := fun a => by
  cases a <;> unfold Undisturbed <;> infer_instance

omit [DecidableEq ε] [DecidableEq κ] in
theorem Undisturbed.leavesNothing {s : CompilerService ε κ} {a : CompileAction ε κ}
    (h : s.Undisturbed a) : s.LeavesNothing a := by
  cases a <;> first | exact h | trivial

def queued : Compile String Unit := ⟨0, "env", 0, ()⟩

/-- The recovery starts a compile that was queued. -/
def recovered : List (CompileAction String Unit) :=
  [.recover, .connect 0, .acquire 0, .answer 0, .proceed 0, .answer 0, .proceed 0]

/-- Another compile is requested while the first one runs, which starts it. -/
def nextStarted : List (CompileAction String Unit) :=
  recovered ++ [.start 1, .requestRecompile ⟨1, "env", 1, ()⟩, .connect 2, .acquire 2, .answer 2,
    .proceed 2, .answer 2, .proceed 2, .complete 1, .completeMerged 1, .notified 1, .connect 1,
    .acquire 1, .answer 1, .proceed 1, .answer 1, .proceed 1]

theorem never_stalls_nextStarted : ∃ r,
    run CompilerService.step (CompilerService.init (fun _ => false) [queued]) nextStarted = some r ∧
      r.envToCompileTask.get? "env" = some 3 ∧ r.Safe := by
  obtain ⟨r, hr, hreg⟩ : ∃ r, run CompilerService.step
      (CompilerService.init (fun _ => false) [queued]) nextStarted = some r ∧
        r.envToCompileTask.get? "env" = some 3 :=
    exists_run_of_any _ _ _ (by decide +kernel)
  have hcalm : Along CompilerService.step Undisturbed
      (CompilerService.init (fun _ => false) [queued]) nextStarted := by decide +kernel
  exact ⟨r, hr, hreg, never_stalls _ _ (hcalm.imp fun _ _ => Undisturbed.leavesNothing) hr⟩

/-- A query of a run raises. -/
def runRaises : List (CompileAction String Unit) :=
  recovered ++ [.raises 1]

theorem runRaises_stalls : ∃ r,
    run CompilerService.step (CompilerService.init (fun _ => false) [queued]) runRaises = some r ∧
      ¬ r.Safe := by
  obtain ⟨r, hr, hreg, hover⟩ : ∃ r, run CompilerService.step
      (CompilerService.init (fun _ => false) [queued]) runRaises = some r ∧
        (r.envToCompileTask.get? "env" = some 1 ∧ (r.tasks 1).phase.IsOver) :=
    exists_run_of_any _ _ _ (by decide +kernel)
  exact ⟨r, hr, fun h => (h.registered _ _ hreg).2 hover⟩

end CompilerService

end Inmanta
