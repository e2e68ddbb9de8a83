import Inmanta.Ast.EagerPromises
import Inmanta.Lib.Run
import Mathlib.Data.Finset.Card
import Mathlib.Data.List.Nodup
import Mathlib.Logic.Function.Basic

/-!
# Tracking of promises

A relation variable counts the promises it handed out and those that were
fulfilled, and is frozen when no provider is left to wait for. Eager promises
are acquired by a hook, once the variable exists, which may be before or after
the holder executed.

Holders are emitted at any time and in any number, so that whatever a program
nests and in whatever order the scheduler works is among the runs. A lazy
operator fulfills its promises when its first operand is known, but for a first
operand that is unknown. This makes no difference, as no expression holds any
(`promises_released`).
-/

namespace Inmanta

/-- What is emitted, and executes when its requirements are met. -/
inductive Holder where
  | statement (s : Statement)
  | expression (e : ExpressionStatement)

namespace Holder

def ownEagerPromises : Holder → List StaticEagerPromise
  | statement s => s.ownEagerPromises
  | expression e => e.ownEagerPromises

/-- The operator of a `LazyBooleanOperator`, which does not fulfill its promises
in `execute`, but in `resume`. -/
def lazyOperator : Holder → Option LazyOperator
  | expression (.lazyBooleanOperator op _ _) => some op
  | statement (.expression (.lazyBooleanOperator op _ _)) => some op
  | _ => none

theorem ownEagerPromises_of_lazyOperator {x : Holder} (h : x.lazyOperator ≠ none) :
    x.ownEagerPromises = [] := by
  unfold lazyOperator at h
  split at h
  · next op op1 op2 =>
      exact ExpressionStatement.ownEagerPromises_eq_nil (.lazyBooleanOperator op op1 op2)
  · next op op1 op2 =>
      exact ExpressionStatement.ownEagerPromises_eq_nil (.lazyBooleanOperator op op1 op2)
  · exact absurd rfl h

end Holder

/-- A promise of a variable: that of an eager promise, by the holder and its
place among the promises of the holder, or one to set a value. -/
inductive Promise where
  | progression (holder index : ℕ)
  | set (provider : ℕ)
  deriving DecidableEq

/-- A `DelayedResultVariable`. A variable that is frozen, and one of another
class, tracks no promises. -/
structure DelayedVariable where
  promises : Option (List Promise)
  donePromises : Option (Finset Promise)

namespace DelayedVariable

/-- `get_promise` and `get_progression_promise`. -/
def track (v : DelayedVariable) (p : Promise) : DelayedVariable :=
  { v with promises := v.promises.map (· ++ [p]) }

def fulfill (v : DelayedVariable) (p : Promise) : DelayedVariable :=
  { v with donePromises := v.donePromises.map (insert p) }

def freeze (_ : DelayedVariable) : DelayedVariable := ⟨none, none⟩

def getWaitingProviders (v : DelayedVariable) : Except String ℕ :=
  match v.promises with
  | none => .ok 0
  | some promises =>
      if promises.length < (v.donePromises.getD ∅).card then
        .error "SEVERE: COMPILER STATE CORRUPT: provide count negative"
      else .ok (promises.length - (v.donePromises.getD ∅).card)

end DelayedVariable

structure EagerPromise where
  /-- The variable of which a promise was acquired. -/
  promise : Option ℕ
  fulfilled : Bool
  /-- The hook still waits for the variable. -/
  hooked : Bool

/-- `executed`: the result is known. A lazy operator whose first operand does
not decide waits for the second one. -/
inductive HolderPhase where
  | emitted
  | resumed
  | executed
  deriving DecidableEq

structure Execution where
  holder : Holder
  phase : HolderPhase
  eagerPromises : List EagerPromise

structure PromiseState where
  executions : ℕ → Option Execution
  /-- The variable of a promise to set a value, and whether it was set. -/
  providers : ℕ → Option (ℕ × Bool)
  vars : ℕ → DelayedVariable

def Execution.setPromise (x : Execution) (i : ℕ) (e : EagerPromise) : Execution :=
  { x with eagerPromises := x.eagerPromises.set i e }

/-- All promises are fulfilled, and the holder goes on to a phase. -/
def Execution.fulfillAll (x : Execution) (phase : HolderPhase) : Execution :=
  { x with
    phase := phase
    eagerPromises := x.eagerPromises.map fun e => { e with fulfilled := true } }

inductive PromiseAction where
  | emit (h : ℕ) (holder : Holder)
  /-- The variable of an eager promise exists. -/
  | variableResume (h i v : ℕ)
  | execute (h : ℕ)
  /-- The first operand of a lazy operator; `none` is unknown. -/
  | resume (h : ℕ) (result : Option Bool)
  /-- The second operand of a lazy operator is known. -/
  | finish (h : ℕ)
  | getPromise (k v : ℕ)
  | setValue (k : ℕ)
  | freeze (v : ℕ)

namespace PromiseState

def init (isDelayed : ℕ → Bool) : PromiseState where
  executions _ := none
  providers _ := none
  vars v := if isDelayed v then ⟨some [], some ∅⟩ else ⟨none, none⟩

def setExecution (s : PromiseState) (h : ℕ) (x : Execution) : PromiseState :=
  { s with executions := Function.update s.executions h (some x) }

/-- `EagerPromise.fulfill` of the promises from the place `i` on. -/
def fulfillFrom (h : ℕ) : ℕ → List EagerPromise → (ℕ → DelayedVariable) → ℕ → DelayedVariable
  | _, [], vars => vars
  | i, e :: es, vars =>
      fulfillFrom h (i + 1) es
        (match e.promise with
        | none => vars
        | some v => Function.update vars v ((vars v).fulfill (.progression h i)))

/-- `_fulfill_promises` -/
def fulfillPromises (s : PromiseState) (h : ℕ) (x : Execution) (phase : HolderPhase) :
    PromiseState :=
  { s.setExecution h (x.fulfillAll phase) with vars := fulfillFrom h 0 x.eagerPromises s.vars }

/-- `EagerPromise._acquire`, in `variable_resume`. -/
def acquire (s : PromiseState) (h i v : ℕ) (x : Execution) (e : EagerPromise) : PromiseState :=
  if e.fulfilled then s.setExecution h (x.setPromise i { e with hooked := false })
  else
    { s.setExecution h (x.setPromise i
        { e with promise := (s.vars v).promises.map fun _ => v, hooked := false }) with
      vars := Function.update s.vars v ((s.vars v).track (.progression h i)) }

def step (s : PromiseState) : PromiseAction → Option PromiseState
  | .emit h holder =>
      match s.executions h with
      | some _ => none
      | none => some (s.setExecution h
          ⟨holder, .emitted, holder.ownEagerPromises.map fun _ => ⟨none, false, true⟩⟩)
  | .variableResume h i v => do
      let x ← s.executions h
      let e ← x.eagerPromises[i]?
      if e.hooked then some (s.acquire h i v x e) else none
  | .execute h => do
      let x ← s.executions h
      if x.phase = .emitted ∧ x.holder.lazyOperator = none then
        some (s.fulfillPromises h x .executed)
      else none
  | .resume h result => do
      let x ← s.executions h
      let op ← x.holder.lazyOperator
      if x.phase = .emitted then
        match result with
        | none => some (s.setExecution h { x with phase := .executed })
        | some b => some (s.fulfillPromises h x (if op.isFinal b then .executed else .resumed))
      else none
  | .finish h => do
      let x ← s.executions h
      if x.phase = .resumed then some (s.setExecution h { x with phase := .executed }) else none
  | .getPromise k v =>
      match s.providers k with
      | some _ => none
      | none => some { s with
          providers := Function.update s.providers k (some (v, false))
          vars := Function.update s.vars v ((s.vars v).track (.set k)) }
  | .setValue k => do
      let (v, _) ← s.providers k
      some { s with
        providers := Function.update s.providers k (some (v, true))
        vars := Function.update s.vars v ((s.vars v).fulfill (.set k)) }
  | .freeze v =>
      some { s with vars := Function.update s.vars v (s.vars v).freeze }

/-- The holder of the promise has executed. -/
def released (s : PromiseState) : Promise → Bool
  | .progression h _ => (s.executions h).any fun x => x.phase = .executed
  | .set k => (s.providers k).any fun x => x.2

/-! ## The invariant -/

end PromiseState

/-- A promise of the variable `v` was acquired for the place `i`. -/
def Execution.Acquired (x : Execution) (i v : ℕ) : Prop :=
  ∃ e, x.eagerPromises[i]? = some e ∧ e.promise = some v

/-- An eager promise is fulfilled when its holder has executed, and one that has
its hook has acquired nothing. -/
structure Execution.Settled (x : Execution) : Prop where
  lazy : x.holder.lazyOperator ≠ none → x.eagerPromises = []
  resumed : x.phase = .resumed → x.holder.lazyOperator ≠ none
  fulfilled : ∀ e ∈ x.eagerPromises, e.fulfilled = true ↔ x.phase = .executed
  hooked : ∀ e ∈ x.eagerPromises, e.hooked = true → e.promise = none

namespace PromiseState

def Acquired (s : PromiseState) (h i v : ℕ) : Prop :=
  ∃ x, s.executions h = some x ∧ x.Acquired i v

def Executed (s : PromiseState) (h : ℕ) : Prop :=
  ∃ x, s.executions h = some x ∧ x.phase = .executed

/-- What a variable tracks: the promises that were acquired of it, each once,
and of these the ones whose holder has executed. -/
structure Tracks (s : PromiseState) (v : ℕ) (promises : List Promise) (done : Finset Promise) :
    Prop where
  nodup : promises.Nodup
  progression : ∀ h i, .progression h i ∈ promises ↔ s.Acquired h i v
  set : ∀ k, .set k ∈ promises ↔ ∃ b, s.providers k = some (v, b)
  done : ∀ p, p ∈ done ↔ p ∈ promises ∧ s.released p = true

structure Inv (s : PromiseState) : Prop where
  settled : ∀ h x, s.executions h = some x → x.Settled
  vars : ∀ v, (s.vars v = ⟨none, none⟩) ∨
    ∃ promises done, s.vars v = ⟨some promises, some done⟩ ∧ s.Tracks v promises done

theorem inv_init (isDelayed : ℕ → Bool) : (init isDelayed).Inv where
  settled h x hx := by cases hx
  vars v := by
    unfold init
    by_cases hv : isDelayed v = true
    · refine .inr ⟨[], ∅, if_pos hv, List.nodup_nil, fun h i => ?_, fun k => ?_, fun p => ?_⟩
      · exact iff_of_false List.not_mem_nil fun ⟨x, hx, _⟩ => by cases hx
      · exact iff_of_false List.not_mem_nil fun ⟨b, hb⟩ => by cases hb
      · simp
    · exact .inl (if_neg hv)

variable {s s' : PromiseState} {h i v k : ℕ} {x x' : Execution} {e : EagerPromise}
  {promises : List Promise} {done : Finset Promise} {phase : HolderPhase}

theorem released_progression : s.released (.progression h i) = true ↔ s.Executed h := by
  rw [released, Option.any_eq_true]
  simp [Executed]

theorem released_set : s.released (.set k) = true ↔ ∃ v, s.providers k = some (v, true) := by
  rw [released, Option.any_eq_true]
  constructor
  · rintro ⟨⟨v, b⟩, hk, rfl⟩
    exact ⟨v, hk⟩
  · rintro ⟨v, hk⟩
    exact ⟨(v, true), hk, rfl⟩

/-- What the promises of a variable depend on. -/
theorem Tracks.congr (ht : s.Tracks v promises done)
    (hacquired : ∀ h i, s'.Acquired h i v ↔ s.Acquired h i v)
    (hproviders : ∀ k b, s'.providers k = some (v, b) ↔ s.providers k = some (v, b))
    (hexecuted : ∀ h i, s.Acquired h i v → (s'.Executed h ↔ s.Executed h)) :
    s'.Tracks v promises done where
  nodup := ht.nodup
  progression h i := (ht.progression h i).trans (hacquired h i).symm
  set k := (ht.set k).trans (exists_congr fun b => (hproviders k b).symm)
  done p := by
    refine (ht.done p).trans (and_congr_right fun hp => ?_)
    cases p with
    | progression h i =>
        rw [released_progression, released_progression]
        exact (hexecuted h i ((ht.progression h i).mp hp)).symm
    | set k =>
        obtain ⟨b, hb⟩ := (ht.set k).mp hp
        rw [released_set, released_set]
        have hb' := (hproviders k b).mpr hb
        simp [hb, hb']

theorem executions_setExecution (h' : ℕ) : (s.setExecution h x').executions h' =
    if h' = h then some x' else s.executions h' := by
  rw [setExecution]
  exact Function.update_apply ..

theorem acquired_setExecution (hacquired : ∀ i v, x'.Acquired i v ↔ s.Acquired h i v)
    (h' i v : ℕ) : (s.setExecution h x').Acquired h' i v ↔ s.Acquired h' i v := by
  by_cases hh : h' = h
  · subst hh
    rw [← hacquired, Acquired, executions_setExecution, if_pos rfl]
    simp
  · rw [Acquired, executions_setExecution, if_neg hh]
    rfl

theorem executed_setExecution (h' : ℕ) : (s.setExecution h x').Executed h' ↔
    if h' = h then x'.phase = .executed else s.Executed h' := by
  rw [Executed, executions_setExecution]
  by_cases hh : h' = h
  · simp [hh]
  · simp [hh, Executed]

theorem settled_setExecution (hs : s.Inv) (hsettled : x'.Settled) (h' : ℕ) (y : Execution)
    (hy : (s.setExecution h x').executions h' = some y) : y.Settled := by
  rw [executions_setExecution] at hy
  split at hy
  · rwa [← Option.some.inj hy]
  · exact hs.settled h' y hy

/-- A holder goes on without a promise being acquired or fulfilled. -/
theorem Inv.setExecution (hs : s.Inv) (hsettled : x'.Settled)
    (hacquired : ∀ i v, x'.Acquired i v ↔ s.Acquired h i v)
    (hphase : ∀ i v, x'.Acquired i v → (x'.phase = .executed ↔ s.Executed h)) :
    (s.setExecution h x').Inv where
  settled := settled_setExecution hs hsettled
  vars v := by
    obtain hv | ⟨promises, done, hv, ht⟩ := hs.vars v
    · exact .inl hv
    · refine .inr ⟨promises, done, hv, ht.congr (fun h' i => acquired_setExecution hacquired h' i v)
        (fun k b => Iff.rfl) fun h' i ha => ?_⟩
      rw [executed_setExecution]
      split
      · next hh =>
        subst hh
        exact hphase i v ((hacquired i v).mpr ha)
      · exact Iff.rfl

/-! ## Holders -/

theorem acquired_iff (hx : s.executions h = some x) (i v : ℕ) :
    s.Acquired h i v ↔ x.Acquired i v := by
  simp [Acquired, hx]

theorem executed_iff (hx : s.executions h = some x) : s.Executed h ↔ x.phase = .executed := by
  simp [Executed, hx]

theorem not_acquired_of_nil (hx : x.eagerPromises = []) (i v : ℕ) : ¬ x.Acquired i v := by
  rintro ⟨e, he, -⟩
  rw [hx] at he
  cases he

theorem Inv.emit (hs : s.Inv) (hfresh : s.executions h = none) (holder : Holder) :
    (s.setExecution h
      ⟨holder, .emitted, holder.ownEagerPromises.map fun _ => ⟨none, false, true⟩⟩).Inv := by
  have hnew : ∀ e ∈ holder.ownEagerPromises.map (fun _ => (⟨none, false, true⟩ : EagerPromise)),
      e = ⟨none, false, true⟩ := by
    intro e he
    obtain ⟨p, -, rfl⟩ := List.mem_map.mp he
    rfl
  have hnone : ∀ i v, ¬ Execution.Acquired ⟨holder, .emitted,
      holder.ownEagerPromises.map fun _ => ⟨none, false, true⟩⟩ i v := by
    rintro i v ⟨e, he, hv⟩
    rw [hnew e (List.mem_of_getElem? he)] at hv
    cases hv
  refine hs.setExecution ⟨fun hlazy => ?_, fun hphase => ?_, fun e he => ?_, fun e he _ => ?_⟩
    (fun i v => iff_of_false (hnone i v) ?_) fun i v ha => absurd ha (hnone i v)
  · rw [Holder.ownEagerPromises_of_lazyOperator hlazy]
    rfl
  · cases hphase
  · rw [hnew e he]
    exact iff_of_false Bool.false_ne_true fun hphase => by cases hphase
  · rw [hnew e he]
  · rintro ⟨x, hx, -⟩
    rw [hfresh] at hx
    cases hx

/-- A holder without promises goes on. -/
theorem Inv.setPhase (hs : s.Inv) (hx : s.executions h = some x)
    (hlazy : x.holder.lazyOperator ≠ none) (phase : HolderPhase) :
    (s.setExecution h { x with phase := phase }).Inv := by
  have hnil := (hs.settled h x hx).lazy hlazy
  have hnone : ∀ i v, ¬ Execution.Acquired { x with phase := phase } i v :=
    not_acquired_of_nil hnil
  have hno : ∀ e, e ∉ x.eagerPromises := fun e he => by
    rw [hnil] at he
    cases he
  refine hs.setExecution ⟨fun _ => hnil, fun _ => hlazy, fun e he => absurd he (hno e),
    fun e he => absurd he (hno e)⟩ (fun i v => iff_of_false (hnone i v) ?_)
    fun i v ha => absurd ha (hnone i v)
  rw [acquired_iff hx]
  exact not_acquired_of_nil hnil i v

theorem acquired_setPromise (he : x.eagerPromises[i]? = some e) (e' : EagerPromise) (j v : ℕ) :
    (x.setPromise i e').Acquired j v ↔ if j = i then e'.promise = some v else x.Acquired j v := by
  obtain ⟨hlt, -⟩ := List.getElem?_eq_some_iff.mp he
  rw [Execution.Acquired, Execution.setPromise]
  simp only [List.getElem?_set]
  by_cases hj : j = i
  · simp [hj, hlt]
  · simp [hj, Ne.symm hj, Execution.Acquired]

theorem settled_setPromise (hx : x.Settled) (he : x.eagerPromises[i]? = some e)
    {e' : EagerPromise} (hfulfilled : e'.fulfilled = e.fulfilled) (hhooked : e'.hooked = false) :
    (x.setPromise i e').Settled where
  lazy hlazy := by
    rw [hx.lazy hlazy] at he
    cases he
  resumed := hx.resumed
  fulfilled e'' he'' := by
    obtain he'' | rfl := List.mem_or_eq_of_mem_set he''
    · exact hx.fulfilled e'' he''
    · rw [hfulfilled]
      exact hx.fulfilled e (List.mem_of_getElem? he)
  hooked e'' he'' hh := by
    obtain he'' | rfl := List.mem_or_eq_of_mem_set he''
    · exact hx.hooked e'' he'' hh
    · rw [hhooked] at hh
      cases hh

/-- A promise is acquired of a variable that tracks promises. -/
theorem Inv.acquireTracked (hs : s.Inv) (hx : s.executions h = some x)
    (he : x.eagerPromises[i]? = some e) (hnot : ∀ w, ¬ x.Acquired i w)
    (hfulfilled : e.fulfilled = false) (hv : s.vars v = ⟨some promises, some done⟩)
    (ht : s.Tracks v promises done) :
    Inv { s.setExecution h (x.setPromise i { e with promise := some v, hooked := false }) with
      vars := Function.update s.vars v ⟨some (promises ++ [.progression h i]), some done⟩ } := by
  have hsettled := hs.settled h x hx
  have hrunning : ¬ s.Executed h := fun hexec => by
    have := (hsettled.fulfilled e (List.mem_of_getElem? he)).mpr ((executed_iff hx).mp hexec)
    rw [hfulfilled] at this
    cases this
  generalize hx' : x.setPromise i { e with promise := some v, hooked := false } = x'
  have hacquired : ∀ h' j w, (s.setExecution h x').Acquired h' j w ↔
      s.Acquired h' j w ∨ h' = h ∧ j = i ∧ w = v := by
    intro h' j w
    by_cases hh : h' = h
    · subst hh
      have hexec : (s.setExecution h' x').executions h' = some x' := by
        rw [executions_setExecution, if_pos rfl]
      rw [acquired_iff hexec, acquired_iff hx, ← hx', acquired_setPromise he]
      by_cases hj : j = i
      · subst hj
        simp [hnot w, eq_comm]
      · simp [hj]
    · rw [Acquired, executions_setExecution, if_neg hh]
      simp [hh, Acquired]
  have hexecuted : ∀ h', (s.setExecution h x').Executed h' ↔ s.Executed h' := by
    intro h'
    rw [executed_setExecution]
    split
    · next hh =>
      subst hh
      rw [executed_iff hx, ← hx']
      rfl
    · exact Iff.rfl
  refine ⟨settled_setExecution hs ?_, fun w => ?_⟩
  · rw [← hx']
    exact settled_setPromise hsettled he rfl rfl
  show Function.update s.vars v _ w = _ ∨ ∃ ps ds, Function.update s.vars v _ w = _ ∧ _
  by_cases hw : w = v
  · subst hw
    rw [Function.update_self]
    have hfresh : Promise.progression h i ∉ promises := fun hp =>
      hnot w ((acquired_iff hx i w).mp ((ht.progression h i).mp hp))
    refine .inr ⟨_, _, rfl, ?_, fun h' j => ?_, fun k => ?_, fun p => ?_⟩
    · exact List.nodup_append.mpr ⟨ht.nodup, List.nodup_singleton _, fun a ha b hb hab =>
        hfresh (List.mem_singleton.mp hb ▸ hab ▸ ha)⟩
    · refine (?_ : _ ↔ _).trans (hacquired h' j w).symm
      rw [List.mem_append, ht.progression, List.mem_singleton, Promise.progression.injEq]
      simp
    · rw [List.mem_append, ht.set, List.mem_singleton]
      exact or_iff_left (fun hk => by cases hk)
    · rw [ht.done, List.mem_append, List.mem_singleton]
      cases p with
      | progression h' j =>
          rw [released_progression, released_progression]
          refine ((and_congr_right fun _ => (hexecuted h').symm).trans ?_)
          refine (and_congr_left fun hexec => (or_iff_left ?_).symm)
          rintro heq
          obtain ⟨rfl, -⟩ := Promise.progression.inj heq
          exact hrunning ((hexecuted h').mp hexec)
      | set k => exact and_congr_left fun _ => (or_iff_left fun hk => by cases hk).symm
  · rw [Function.update_of_ne hw]
    obtain hv' | ⟨promises', done', hv', ht'⟩ := hs.vars w
    · exact .inl hv'
    · refine .inr ⟨promises', done', hv', ht'.congr (fun h' j => ?_) (fun k b => Iff.rfl)
        fun h' j _ => hexecuted h'⟩
      exact (hacquired h' j w).trans (or_iff_left fun hand => hw hand.2.2)

theorem Inv.acquire (hs : s.Inv) (hx : s.executions h = some x)
    (he : x.eagerPromises[i]? = some e) (hhooked : e.hooked = true) (v : ℕ) :
    (s.acquire h i v x e).Inv := by
  have hsettled := hs.settled h x hx
  have hmem := List.mem_of_getElem? he
  have hnone := hsettled.hooked e hmem hhooked
  have hnot : ∀ w, ¬ x.Acquired i w := by
    rintro w ⟨e', he', hw⟩
    obtain rfl := Option.some.inj (he.symm.trans he')
    rw [hnone] at hw
    cases hw
  -- as long as nothing is acquired, the holder only loses its hook
  have hunhook : ∀ e' : EagerPromise, e'.fulfilled = e.fulfilled → e'.hooked = false →
      e'.promise = none → (s.setExecution h (x.setPromise i e')).Inv := by
    intro e' hfulfilled hhooked' hnone'
    refine hs.setExecution (settled_setPromise hsettled he hfulfilled hhooked') (fun j w => ?_)
      fun j w _ => (executed_iff hx).symm
    rw [acquired_setPromise he, acquired_iff hx, hnone']
    split
    · next hj =>
      subst hj
      exact iff_of_false (fun hw => by cases hw) (hnot w)
    · exact Iff.rfl
  rw [PromiseState.acquire]
  split
  · exact hunhook { e with hooked := false } rfl rfl hnone
  · next hfulfilled =>
    obtain hv | ⟨promises, done, hv, ht⟩ := hs.vars v
    · have hsame : Function.update s.vars v ((s.vars v).track (.progression h i)) = s.vars := by
        rw [Function.update_eq_self_iff, hv]
        rfl
      rw [hsame, hv]
      exact hunhook { e with promise := none, hooked := false } rfl rfl rfl
    · rw [hv]
      exact hs.acquireTracked hx he hnot (Bool.eq_false_iff.mpr hfulfilled) hv ht

/-! ## Fulfilling -/

/-- Fulfilling marks exactly what was acquired of a variable as done. -/
theorem fulfillFrom_spec (h n : ℕ) (es : List EagerPromise) (vars : ℕ → DelayedVariable) (v : ℕ) :
    (vars v = ⟨none, none⟩ → fulfillFrom h n es vars v = ⟨none, none⟩) ∧
    ∀ promises done, vars v = ⟨some promises, some done⟩ → ∃ done',
      fulfillFrom h n es vars v = ⟨some promises, some done'⟩ ∧
      ∀ p, p ∈ done' ↔ p ∈ done ∨
        ∃ i e, es[i]? = some e ∧ e.promise = some v ∧ p = .progression h (n + i) := by
  induction es generalizing n vars with
  | nil =>
      exact ⟨fun hv => hv, fun promises done hv => ⟨done, hv, fun p => by simp⟩⟩
  | cons e es ih =>
      rw [fulfillFrom]
      obtain ⟨hfrozen, htracked⟩ := ih (n + 1) (match e.promise with
        | none => vars
        | some v => Function.update vars v ((vars v).fulfill (.progression h n)))
      have hshift : ∀ p, (∃ i e', (e :: es)[i]? = some e' ∧ e'.promise = some v ∧
          p = Promise.progression h (n + i)) ↔ (e.promise = some v ∧ p = .progression h n) ∨
            ∃ i e', es[i]? = some e' ∧ e'.promise = some v ∧ p = .progression h (n + 1 + i) := by
        intro p
        constructor
        · rintro ⟨_ | i, e', he', hv, rfl⟩
          · obtain rfl := Option.some.inj he'
            exact .inl ⟨hv, rfl⟩
          · exact .inr ⟨i, e', he', hv, by rw [Nat.add_assoc, Nat.add_comm 1 i]⟩
        · rintro (⟨hv, rfl⟩ | ⟨i, e', he', hv, rfl⟩)
          · exact ⟨0, e, rfl, hv, rfl⟩
          · exact ⟨i + 1, e', he', hv, by rw [Nat.add_assoc, Nat.add_comm 1 i]⟩
      by_cases hpromise : e.promise = some v
      · rw [hpromise] at hfrozen htracked ⊢
        simp only [Function.update_self] at hfrozen htracked ⊢
        constructor
        · intro hv
          exact hfrozen (by rw [hv]; rfl)
        · intro promises done hv
          obtain ⟨done', hd, hmem⟩ := htracked promises (insert (.progression h n) done)
            (by rw [hv]; rfl)
          refine ⟨done', hd, fun p => ?_⟩
          rw [hmem, hshift, Finset.mem_insert, hpromise]
          tauto
      · have hsame : (match e.promise with
            | none => vars
            | some v => Function.update vars v ((vars v).fulfill (.progression h n))) v = vars v := by
          cases hp : e.promise with
          | none => rfl
          | some w => exact Function.update_of_ne (fun hw => hpromise (by rw [hp, hw])) ..
        refine ⟨fun hv => hfrozen (hsame.trans hv), fun promises done hv => ?_⟩
        obtain ⟨done', hd, hmem⟩ := htracked promises done (hsame.trans hv)
        refine ⟨done', hd, fun p => ?_⟩
        rw [hmem, hshift]
        simp [hpromise]

theorem acquired_fulfillAll (i v : ℕ) : (x.fulfillAll phase).Acquired i v ↔ x.Acquired i v := by
  rw [Execution.Acquired, Execution.fulfillAll]
  simp only [List.getElem?_map, Option.map_eq_some_iff]
  constructor
  · rintro ⟨_, ⟨e, he, rfl⟩, hv⟩
    exact ⟨e, he, hv⟩
  · rintro ⟨e, he, hv⟩
    exact ⟨_, ⟨e, he, rfl⟩, hv⟩

/-- A holder that executes fulfills its promises. One that does not execute yet
has none. -/
theorem Inv.fulfillPromises (hs : s.Inv) (hx : s.executions h = some x)
    (hphase : phase = .executed ∨ x.holder.lazyOperator ≠ none) :
    (s.fulfillPromises h x phase).Inv := by
  have hsettled := hs.settled h x hx
  have hexec : ∀ i v, x.Acquired i v → phase = .executed := fun i v ha =>
    hphase.resolve_right fun hlazy => not_acquired_of_nil (hsettled.lazy hlazy) i v ha
  have hacquired : ∀ h' i v, (s.setExecution h (x.fulfillAll phase)).Acquired h' i v ↔
      s.Acquired h' i v := acquired_setExecution fun i v => by
    rw [acquired_fulfillAll, acquired_iff hx]
  have hsettled' : (x.fulfillAll phase).Settled := by
    refine ⟨fun hlazy => ?_, fun hresumed => ?_, fun e he => ?_, fun e he hh => ?_⟩
    · show x.eagerPromises.map _ = []
      rw [hsettled.lazy hlazy]
      rfl
    · exact hphase.resolve_left fun hexec => by
        rw [show (x.fulfillAll phase).phase = phase from rfl, hexec] at hresumed
        cases hresumed
    · obtain ⟨e', he', rfl⟩ := List.mem_map.mp he
      refine iff_of_true rfl (hphase.resolve_right fun hlazy => ?_)
      rw [hsettled.lazy hlazy] at he'
      cases he'
    · obtain ⟨e', he', rfl⟩ := List.mem_map.mp he
      exact hsettled.hooked e' he' hh
  refine ⟨settled_setExecution hs hsettled', fun v => ?_⟩
  obtain ⟨hfrozen, htracked⟩ := fulfillFrom_spec h 0 x.eagerPromises s.vars v
  obtain hv | ⟨promises, done, hv, ht⟩ := hs.vars v
  · exact .inl (hfrozen hv)
  obtain ⟨done', hv', hmem⟩ := htracked promises done hv
  refine .inr ⟨promises, done', hv', ht.nodup, fun h' i => ?_, ht.set, fun p => ?_⟩
  · exact (ht.progression h' i).trans (hacquired h' i v).symm
  rw [hmem, ht.done]
  cases p with
  | set k =>
      refine or_iff_left ?_
      rintro ⟨i, e, -, -, hp⟩
      cases hp
  | progression h' j =>
      rw [released_progression, released_progression, ht.progression]
      show _ ↔ _ ∧ (s.setExecution h (x.fulfillAll phase)).Executed h'
      rw [executed_setExecution]
      by_cases hh : h' = h
      · subst hh
        rw [if_pos rfl, acquired_iff hx]
        constructor
        · rintro (⟨ha, -⟩ | ⟨i, e, he, hv, hp⟩)
          · exact ⟨ha, hexec j v ha⟩
          · obtain ⟨-, rfl⟩ := Promise.progression.inj hp
            have ha : x.Acquired (0 + i) v := ⟨e, by rw [Nat.zero_add]; exact he, hv⟩
            exact ⟨ha, hexec _ v ha⟩
        · rintro ⟨⟨e, he, hv⟩, -⟩
          exact .inr ⟨j, e, he, hv, by rw [Nat.zero_add]⟩
      · rw [if_neg hh]
        refine or_iff_left ?_
        rintro ⟨i, e, _, _, hp⟩
        exact hh (Promise.progression.inj hp).1

/-! ## Providers -/

/-- A step that changes one variable, and nothing else that the others track. -/
theorem Inv.update (hs : s.Inv) (v : ℕ) (y : DelayedVariable) (providers : ℕ → Option (ℕ × Bool))
    (hother : ∀ w, w ≠ v → ∀ k b, providers k = some (w, b) ↔ s.providers k = some (w, b))
    (hv : (s.vars v = ⟨none, none⟩ → y = ⟨none, none⟩) ∧ ∀ promises done,
      s.vars v = ⟨some promises, some done⟩ → s.Tracks v promises done →
        y = ⟨none, none⟩ ∨ ∃ promises' done', y = ⟨some promises', some done'⟩ ∧
          Tracks { s with providers := providers } v promises' done') :
    Inv { s with providers := providers, vars := Function.update s.vars v y } := by
  refine ⟨hs.settled, fun w => ?_⟩
  show Function.update s.vars v y w = _ ∨ ∃ ps ds, Function.update s.vars v y w = _ ∧ _
  by_cases hw : w = v
  · subst hw
    rw [Function.update_self]
    obtain hfrozen | ⟨promises, done, htracked, ht⟩ := hs.vars w
    · exact .inl (hv.1 hfrozen)
    · obtain hy | ⟨promises', done', hy, ht'⟩ := hv.2 promises done htracked ht
      · exact .inl hy
      · exact .inr ⟨promises', done', hy, ht'.congr (fun _ _ => Iff.rfl) (fun _ _ => Iff.rfl)
          fun _ _ _ => Iff.rfl⟩
  · rw [Function.update_of_ne hw]
    obtain hfrozen | ⟨promises, done, htracked, ht⟩ := hs.vars w
    · exact .inl hfrozen
    · exact .inr ⟨promises, done, htracked, ht.congr (fun _ _ => Iff.rfl) (hother w hw)
        fun _ _ _ => Iff.rfl⟩

theorem Inv.getPromise (hs : s.Inv) (hk : s.providers k = none) (v : ℕ) :
    Inv { s with
      providers := Function.update s.providers k (some (v, false))
      vars := Function.update s.vars v ((s.vars v).track (.set k)) } := by
  have hat : ∀ k' w b, Function.update s.providers k (some (v, false)) k' = some (w, b) ↔
      s.providers k' = some (w, b) ∨ k' = k ∧ w = v ∧ b = false := by
    intro k' w b
    rw [Function.update_apply]
    by_cases hkk : k' = k
    · simp [hkk, hk, eq_comm]
    · simp [hkk]
  refine hs.update v _ _ (fun w hw k' b => ?_) ⟨fun hv => by rw [hv]; rfl,
    fun promises done hv ht => .inr ⟨promises ++ [.set k], done, by rw [hv]; rfl, ?_⟩⟩
  · exact (hat k' w b).trans (or_iff_left fun hand => hw hand.2.1)
  have hfresh : Promise.set k ∉ promises := fun hp => by
    obtain ⟨b, hb⟩ := (ht.set k).mp hp
    rw [hk] at hb
    cases hb
  refine ⟨?_, fun h i => ?_, fun k' => ?_, fun p => ?_⟩
  · exact List.nodup_append.mpr ⟨ht.nodup, List.nodup_singleton _, fun a ha b hb hab =>
      hfresh (List.mem_singleton.mp hb ▸ hab ▸ ha)⟩
  · rw [List.mem_append, ht.progression, List.mem_singleton]
    exact or_iff_left fun hp => by cases hp
  · rw [List.mem_append, ht.set, List.mem_singleton, Promise.set.injEq]
    simp only [hat, exists_or, true_and, exists_and_left, exists_eq, and_true]
  · rw [ht.done, List.mem_append, List.mem_singleton]
    cases p with
    | progression h i => exact and_congr_left fun _ => (or_iff_left fun hp => by cases hp).symm
    | set k' =>
        rw [released_set, released_set, Promise.set.injEq]
        simp only [hat, Bool.true_eq_false, and_false, or_false]
        refine and_congr_left ?_
        rintro ⟨w, hw⟩
        refine (or_iff_left ?_).symm
        rintro rfl
        rw [hk] at hw
        cases hw

theorem Inv.setValue (hs : s.Inv) {b : Bool} (hk : s.providers k = some (v, b)) :
    Inv { s with
      providers := Function.update s.providers k (some (v, true))
      vars := Function.update s.vars v ((s.vars v).fulfill (.set k)) } := by
  have hat : ∀ k' w c, Function.update s.providers k (some (v, true)) k' = some (w, c) ↔
      if k' = k then w = v ∧ c = true else s.providers k' = some (w, c) := by
    intro k' w c
    rw [Function.update_apply]
    split
    · rw [Option.some.injEq, Prod.mk.injEq, eq_comm, @eq_comm _ true]
    · exact Iff.rfl
  refine hs.update v _ _ (fun w hw k' c => ?_) ⟨fun hv => by rw [hv]; rfl,
    fun promises done hv ht => .inr ⟨promises, insert (.set k) done, by rw [hv]; rfl, ?_⟩⟩
  · rw [hat]
    split
    · next hkk =>
      rw [hkk, hk]
      exact iff_of_false (fun hand => hw hand.1) fun heq => by
        cases heq
        exact hw rfl
    · exact Iff.rfl
  refine ⟨ht.nodup, ht.progression, fun k' => ?_, fun p => ?_⟩
  · rw [ht.set]
    simp only [hat]
    by_cases hkk : k' = k
    · rw [hkk, hk]
      simp
    · simp [hkk]
  · rw [Finset.mem_insert, ht.done]
    cases p with
    | progression h i => exact (or_iff_right fun hp => by cases hp)
    | set k' =>
        rw [released_set, released_set, Promise.set.injEq]
        simp only [hat]
        by_cases hkk : k' = k
        · subst hkk
          have hp := (ht.set k').mpr ⟨b, hk⟩
          simp [hp]
        · simp [hkk]

theorem Inv.freeze (hs : s.Inv) (v : ℕ) :
    Inv { s with vars := Function.update s.vars v (s.vars v).freeze } :=
  hs.update v _ s.providers (fun _ _ _ _ => Iff.rfl) ⟨fun _ => rfl, fun _ _ _ _ => .inl rfl⟩

/-! ## Runs -/

theorem Inv.step (hs : s.Inv) {a : PromiseAction} (h : s.step a = some s') : s'.Inv := by
  cases a with
  | emit h' holder =>
      rw [PromiseState.step] at h
      split at h
      · cases h
      · next hfresh => exact Option.some.inj h ▸ hs.emit hfresh holder
  | variableResume h' i v =>
      obtain ⟨x, hx, h⟩ := Option.bind_eq_some_iff.mp h
      obtain ⟨e, he, h⟩ := Option.bind_eq_some_iff.mp h
      split at h
      · next hhooked => exact Option.some.inj h ▸ hs.acquire hx he hhooked v
      · cases h
  | execute h' =>
      obtain ⟨x, hx, h⟩ := Option.bind_eq_some_iff.mp h
      split at h
      · exact Option.some.inj h ▸ hs.fulfillPromises hx (.inl rfl)
      · cases h
  | resume h' result =>
      obtain ⟨x, hx, h⟩ := Option.bind_eq_some_iff.mp h
      obtain ⟨op, hop, h⟩ := Option.bind_eq_some_iff.mp h
      have hlazy : x.holder.lazyOperator ≠ none := by rw [hop]; exact Option.some_ne_none op
      split at h
      · cases result with
        | none => exact Option.some.inj h ▸ hs.setPhase hx hlazy _
        | some b => exact Option.some.inj h ▸ hs.fulfillPromises hx (.inr hlazy)
      · cases h
  | finish h' =>
      obtain ⟨x, hx, h⟩ := Option.bind_eq_some_iff.mp h
      split at h
      · next hphase =>
        exact Option.some.inj h ▸ hs.setPhase hx ((hs.settled h' x hx).resumed hphase) _
      · cases h
  | getPromise k v =>
      rw [PromiseState.step] at h
      split at h
      · cases h
      · next hk => exact Option.some.inj h ▸ hs.getPromise hk v
  | setValue k =>
      obtain ⟨⟨v, b⟩, hk, h⟩ := Option.bind_eq_some_iff.mp h
      exact Option.some.inj h ▸ hs.setValue hk
  | freeze v => exact Option.some.inj h ▸ hs.freeze v

theorem inv_of_run {isDelayed : ℕ → Bool} {as : List PromiseAction}
    (h : run PromiseState.step (init isDelayed) as = some s) : s.Inv :=
  run_invariant (fun _ _ _ hs _ h => hs.step h) (inv_init isDelayed)
    (along_of_forall (fun _ _ => trivial) _ _) h

/-- A variable waits for the promises whose holder has not executed. -/
theorem Tracks.waiting (ht : s.Tracks v promises done) :
    done.card + promises.countP (fun p => !s.released p) = promises.length := by
  have hdone : done = (promises.filter s.released).toFinset := by
    ext p
    rw [ht.done, List.mem_toFinset, List.mem_filter]
  have hcard : done.card = promises.countP s.released := by
    rw [hdone, List.toFinset_card_of_nodup (ht.nodup.filter _), List.countP_eq_length_filter]
  rw [hcard, List.length_eq_countP_add_countP s.released]
  simp

theorem Inv.getWaitingProviders (hs : s.Inv) (v : ℕ) : (s.vars v).getWaitingProviders =
    .ok (((s.vars v).promises.getD []).countP fun p => !s.released p) := by
  obtain hv | ⟨promises, done, hv, ht⟩ := hs.vars v
  · rw [hv]
    rfl
  · have hwaiting := ht.waiting
    rw [hv, DelayedVariable.getWaitingProviders]
    simp only [Option.getD_some]
    rw [if_neg (by omega), show promises.length - done.card = promises.countP
      (fun p => !s.released p) by omega]

/-- The hook of a fulfilled promise acquires nothing. -/
theorem variableResume_vars (hs : s.Inv) (hexec : s.Executed h)
    (hstep : s.step (.variableResume h i v) = some s') : s'.vars = s.vars := by
  obtain ⟨x, hx, hstep⟩ := Option.bind_eq_some_iff.mp hstep
  obtain ⟨e, he, hstep⟩ := Option.bind_eq_some_iff.mp hstep
  have hfulfilled := ((hs.settled h x hx).fulfilled e (List.mem_of_getElem? he)).mpr
    ((executed_iff hx).mp hexec)
  split at hstep
  · obtain rfl := Option.some.inj hstep
    rw [acquire, if_pos hfulfilled]
    rfl
  · cases hstep

/-- Only of a lazy operator the result can be known with promises that are not
fulfilled, namely when the first operand is unknown. -/
theorem resume_unknown (hstep : s.step (.resume h none) = some s') :
    s'.Executed h ∧ s'.vars = s.vars ∧ ∀ i v, s'.Acquired h i v ↔ s.Acquired h i v := by
  obtain ⟨x, hx, hstep⟩ := Option.bind_eq_some_iff.mp hstep
  obtain ⟨op, -, hstep⟩ := Option.bind_eq_some_iff.mp hstep
  split at hstep
  · obtain rfl := Option.some.inj hstep
    refine ⟨?_, rfl, fun i v => acquired_setExecution (fun j w => ?_) h i v⟩
    · rw [executed_setExecution, if_pos rfl]
    · exact (acquired_iff hx j w).symm
  · cases hstep

/-- **Eager promises are released.** In every run, whatever is nested in what,
whatever the conditions are and in whatever order variables become available:
the eager promises of a holder whose result is known are fulfilled, its hooks
acquire nothing any more, and every variable waits for exactly the promises
whose holder has not executed. -/
theorem promises_released (isDelayed : ℕ → Bool) (as : List PromiseAction) (s : PromiseState)
    (hrun : run PromiseState.step (init isDelayed) as = some s) :
    (∀ h x, s.executions h = some x → x.phase = .executed →
      (∀ e ∈ x.eagerPromises, e.fulfilled = true) ∧
        ∀ i v s', s.step (.variableResume h i v) = some s' → s'.vars = s.vars) ∧
    ∀ v, (s.vars v).getWaitingProviders =
      .ok (((s.vars v).promises.getD []).countP fun p => !s.released p) := by
  have hs := inv_of_run hrun
  refine ⟨fun h x hx hphase => ⟨fun e he => ?_, fun i v s' hstep => ?_⟩, hs.getWaitingProviders⟩
  · exact ((hs.settled h x hx).fulfilled e he).mpr hphase
  · exact variableResume_vars hs ((executed_iff hx).mpr hphase) hstep

/-- An assignment in an `if` in a loop, whose variable exists after the loop
has executed but before the `if` has. -/
def nestedIf : Statement :=
  .ifStatement .basic (.mk [] [.setAttribute none .basic ⟨"host", [], "files"⟩]) (.mk [] [])

def nestedRun : List PromiseAction :=
  [.emit 0 (.statement (.forLoop .basic (.mk ["item"] [nestedIf]))), .execute 0,
    .emit 1 (.statement nestedIf), .variableResume 0 0 5, .variableResume 1 0 5, .getPromise 0 5,
    .setValue 0]

theorem promises_released_nestedRun :
    ∃ s, run PromiseState.step (init fun _ => true) nestedRun = some s ∧
      (s.vars 5).getWaitingProviders =
        .ok (((s.vars 5).promises.getD []).countP fun p => !s.released p) := by
  obtain ⟨s, hrun, -⟩ := exists_run_of_any PromiseState.step (init fun _ => true) nestedRun
    (p := fun s => s.released (.progression 0 0) = true) (by decide +kernel)
  exact ⟨s, hrun, (promises_released _ _ s hrun).2 5⟩

end PromiseState

end Inmanta
