import Inmanta.Agent.Cache
import Inmanta.Lib.Run
import Mathlib.Logic.Function.Basic

/-!
# Concurrent calls of `get_or_else`

`get_or_else` looks a value up, and if it is not there takes a lock for its key
from a table, looks again, runs the function and caches what it returned. Every
caller that took a lock from the table deletes its entry in the end, whether it
made it or not, unless its function raised.

So the table is right as long as an entry is deleted by the last caller that
uses it, and the others leave by an exception (`Orderly`). Then the callers of a
key have one lock (`Inv`), and everything one expects of a double-checked lock
follows (`Safe`). Two callers that both return break it (`second_waiter_fails`),
and so does one whose function raises alone (`lock_stays_behind`).
-/

namespace Inmanta

structure CacheCall where
  key : String
  resource : Option String
  cacheNone : Bool

def CacheCall.cacheKey (c : CacheCall) : String := AgentCache.getKey c.key c.resource

inductive CallFailure where
  /-- The function raised. -/
  | raised
  /-- There was no entry to delete. -/
  | keyError
  | sameItemTwice
  deriving DecidableEq

/-- Where a thread is in `get_or_else`. The number is its lock for the key. -/
inductive CallerPhase (ν : Type) where
  | idle
  | called
  /-- The value was not found. -/
  | missed
  | waiting (lock : ℕ)
  | entered (lock : ℕ)
  | running (lock : ℕ)
  /-- The function has returned. -/
  | computed (lock : ℕ) (value : Option ν)
  /-- At the end of the block, with the value or an exception. -/
  | leaving (lock : ℕ) (result : Except CallFailure (Option ν))
  /-- The lock is released, and its entry is deleted next. -/
  | cleaning (value : Option ν)
  | done (result : Except CallFailure (Option ν))

namespace CallerPhase

variable {ν : Type}

def InProgress : CallerPhase ν → Prop
  | idle | done _ => False
  | _ => True

/-- The thread took a lock from the table, and will delete its entry. -/
def Pending : CallerPhase ν → Prop
  | waiting _ | entered _ | running _ | computed _ _ | leaving _ (.ok _) | cleaning _ => True
  | _ => False

def lock : CallerPhase ν → Option ℕ
  | waiting l | entered l | running l | computed l _ | leaving l _ => some l
  | _ => none

def holds : CallerPhase ν → Option ℕ
  | entered l | running l | computed l _ | leaving l _ => some l
  | _ => none

/-- The function runs, or what it returned is not cached yet. -/
def Busy : CallerPhase ν → Prop
  | running _ | computed _ _ => True
  | _ => False

/-- What the call comes to, once that is known. -/
def outcome : CallerPhase ν → Option (Except CallFailure (Option ν))
  | computed _ v | cleaning v => some (.ok v)
  | leaving _ r | done r => some r
  | _ => none

attribute [simp] Pending lock holds Busy outcome

end CallerPhase

structure LockedCache (θ ν : Type) where
  cache : Dict String (Option ν)
  addLocks : Dict String ℕ
  /-- How many locks were made. -/
  locks : ℕ
  /-- The thread that holds a lock. -/
  holder : Dict ℕ θ
  call : θ → CacheCall
  phase : θ → CallerPhase ν
  /-- What the function returned for each key of the cache, the last one first. -/
  runs : List (String × Option ν)
  /-- What the function of the thread returned in its call. -/
  own : θ → Option (Option ν)

inductive CacheEvent (θ ν : Type) where
  | call (t : θ) (c : CacheCall)
  /-- `find`, before and after the lock was acquired -/
  | find (t : θ)
  /-- The first block under `addLock`. -/
  | takeLock (t : θ)
  | acquire (t : θ)
  /-- None if the function raises. -/
  | functionEnds (t : θ) (value : Option (Option ν))
  | cacheValue (t : θ)
  | release (t : θ)
  /-- The second block under `addLock`. -/
  | deleteLock (t : θ)
  /-- An item is evicted, by whomever. -/
  | evict (key : String)

namespace LockedCache

variable {θ ν : Type} [DecidableEq θ]

def init (call : θ → CacheCall) : LockedCache θ ν :=
  ⟨.empty, .empty, 0, .empty, call, fun _ => .idle, [], fun _ => none⟩

def move (s : LockedCache θ ν) (t : θ) (p : CallerPhase ν) : LockedCache θ ν :=
  { s with phase := Function.update s.phase t p }

def step (s : LockedCache θ ν) : CacheEvent θ ν → Option (LockedCache θ ν)
  | .call t c =>
      match s.phase t with
      | .idle | .done _ => some ({ s with
          call := Function.update s.call t c
          own := Function.update s.own t none }.move t .called)
      | _ => none
  | .find t =>
      match s.phase t, s.cache.get? (s.call t).cacheKey with
      | .called, some v => some (s.move t (.done (.ok v)))
      | .called, none => some (s.move t .missed)
      | .entered l, some v => some (s.move t (.leaving l (.ok v)))
      | .entered l, none => some (s.move t (.running l))
      | _, _ => none
  | .takeLock t =>
      match s.phase t with
      | .missed =>
          match s.addLocks.get? (s.call t).key with
          | some l => some (s.move t (.waiting l))
          | none => some ({ s with
              addLocks := s.addLocks.set (s.call t).key s.locks
              locks := s.locks + 1 }.move t (.waiting s.locks))
      | _ => none
  | .acquire t =>
      match s.phase t with
      | .waiting l =>
          if l ∈ s.holder then none
          else some ({ s with holder := s.holder.set l t }.move t (.entered l))
      | _ => none
  | .functionEnds t value =>
      match s.phase t, value with
      | .running l, none => some (s.move t (.leaving l (.error .raised)))
      | .running l, some v => some ({ s with
          runs := ((s.call t).cacheKey, v) :: s.runs
          own := Function.update s.own t (some v) }.move t (.computed l v))
      | _, _ => none
  | .cacheValue t =>
      match s.phase t with
      | .computed l v =>
          if (s.call t).cacheNone ∨ v.isSome then
            if (s.call t).cacheKey ∈ s.cache then
              some (s.move t (.leaving l (.error .sameItemTwice)))
            else
              some ({ s with cache := s.cache.set (s.call t).cacheKey v }.move t
                (.leaving l (.ok v)))
          else some (s.move t (.leaving l (.ok v)))
      | _ => none
  | .release t =>
      match s.phase t with
      | .leaving l (.ok v) => some ({ s with holder := s.holder.del l }.move t (.cleaning v))
      | .leaving l (.error e) =>
          some ({ s with holder := s.holder.del l }.move t (.done (.error e)))
      | _ => none
  | .deleteLock t =>
      match s.phase t with
      | .cleaning v =>
          if (s.call t).key ∈ s.addLocks then
            some ({ s with addLocks := s.addLocks.del (s.call t).key }.move t (.done (.ok v)))
          else some (s.move t (.done (.error .keyError)))
      | _ => none
  | .evict key => some { s with cache := s.cache.del key }

/-! ## What is expected of the calls -/

structure Safe (s : LockedCache θ ν) : Prop where
  once_at_a_time : ∀ t t' l l', s.phase t = .running l → s.phase t' = .running l' →
    (s.call t).key = (s.call t').key ∨ (s.call t).cacheKey = (s.call t').cacheKey → t = t'
  /-- While an item is in the cache, the function does not run for it. -/
  not_again : ∀ t l, s.phase t = .running l → (s.call t).cacheKey ∉ s.cache
  /-- An item has the value that the function returned last. -/
  cached : ∀ k v, s.cache.get? k = some v → s.runs.lookup k = some v
  /-- A call returns what its function returned, if it ran, and else what another one did. -/
  own : ∀ t r v, s.phase t = .done r → s.own t = some v → r = .ok v
  returned : ∀ t v, s.phase t = .done (.ok v) → ((s.call t).cacheKey, v) ∈ s.runs
  no_internal_error : ∀ t e, s.phase t = .done (.error e) → e = .raised
  unlocked : ∀ k, (∀ t, (s.call t).key = k → ¬ (s.phase t).InProgress) → k ∉ s.addLocks

/-- An entry is deleted by the last caller that uses it, and an exception of the function does
not leave one behind. Calls for one item have one key. -/
def Orderly (s : LockedCache θ ν) : CacheEvent θ ν → Prop
  | .takeLock t => ∀ t', (s.phase t').Pending → (s.call t').cacheKey = (s.call t).cacheKey →
      (s.call t').key = (s.call t).key
  | .functionEnds t none => ∃ t', t' ≠ t ∧ (s.call t').key = (s.call t).key
      ∧ (s.phase t').Pending
  | .deleteLock t => ∀ t', (s.phase t').Pending → (s.call t').key = (s.call t).key → t' = t
  | _ => True

/-! ## The invariant -/

structure ThreadOk (s : LockedCache θ ν) (t : θ) : Prop where
  /-- The lock is the one in the table. -/
  entry : (s.phase t).Pending → ∃ l, s.addLocks.get? (s.call t).key = some l
    ∧ ∀ l', (s.phase t).lock = some l' → l' = l
  holder : ∀ l, (s.phase t).holds = some l → s.holder.get? l = some t
  absent : (s.phase t).Busy → s.cache.get? (s.call t).cacheKey = none
  last : ∀ l v, s.phase t = .computed l v → s.runs.lookup (s.call t).cacheKey = some v
  ran : ∀ v, (s.phase t).outcome = some (.ok v) → ((s.call t).cacheKey, v) ∈ s.runs
  own : ∀ v, s.own t = some v → (s.phase t).outcome = some (.ok v)
  failure : ∀ e, (s.phase t).outcome = some (.error e) → e = .raised

structure Inv (s : LockedCache θ ν) : Prop where
  threads : ∀ t, s.ThreadOk t
  used : ∀ k l, s.addLocks.get? k = some l → ∃ t, (s.call t).key = k ∧ (s.phase t).Pending
  same_key : ∀ t t', (s.phase t).Pending → (s.phase t').Pending →
    (s.call t).cacheKey = (s.call t').cacheKey → (s.call t).key = (s.call t').key
  cached : ∀ k v, s.cache.get? k = some v → s.runs.lookup k = some v

variable {s s' : LockedCache θ ν} {t t' : θ} {l l' : ℕ} {p : CallerPhase ν} {k : String}

omit [DecidableEq θ] in
/-- What a step of another thread has to leave alone. -/
theorem ThreadOk.frame (h : s.ThreadOk t) (hphase : s'.phase t = s.phase t)
    (hcall : s'.call t = s.call t) (hown : s'.own t = s.own t)
    (hentry : (s.phase t).Pending →
      s'.addLocks.get? (s.call t).key = s.addLocks.get? (s.call t).key)
    (hholder : ∀ l, (s.phase t).holds = some l → s'.holder.get? l = s.holder.get? l)
    (habsent : (s.phase t).Busy → s.cache.get? (s.call t).cacheKey = none →
      s'.cache.get? (s.call t).cacheKey = none)
    (hlast : (s.phase t).Busy →
      s'.runs.lookup (s.call t).cacheKey = s.runs.lookup (s.call t).cacheKey)
    (hruns : s.runs ⊆ s'.runs) : s'.ThreadOk t := by
  constructor
  · rw [hphase, hcall]
    intro hp
    rw [hentry hp]
    exact h.entry hp
  · rw [hphase]
    intro l hl
    rw [hholder l hl]
    exact h.holder l hl
  · rw [hphase, hcall]
    exact fun hb => habsent hb (h.absent hb)
  · rw [hphase, hcall]
    intro l v hv
    rw [hlast (by rw [hv]; trivial)]
    exact h.last l v hv
  · rw [hphase, hcall]
    exact fun v hv => hruns (h.ran v hv)
  · rw [hphase, hown]
    exact h.own
  · rw [hphase]
    exact h.failure

/-- What `ThreadOk` says of a thread that is at `p`. -/
structure PhaseOk (s : LockedCache θ ν) (t : θ) (p : CallerPhase ν) : Prop where
  entry : p.Pending → ∃ l, s.addLocks.get? (s.call t).key = some l
    ∧ ∀ l', p.lock = some l' → l' = l
  holder : ∀ l, p.holds = some l → s.holder.get? l = some t
  absent : p.Busy → s.cache.get? (s.call t).cacheKey = none
  last : ∀ l v, p = .computed l v → s.runs.lookup (s.call t).cacheKey = some v
  ran : ∀ v, p.outcome = some (.ok v) → ((s.call t).cacheKey, v) ∈ s.runs
  own : ∀ v, s.own t = some v → p.outcome = some (.ok v)
  failure : ∀ e, p.outcome = some (.error e) → e = .raised

theorem PhaseOk.threadOk (h : s.PhaseOk t p) : (s.move t p).ThreadOk t := by
  have hself : (s.move t p).phase t = p := Function.update_self ..
  exact
    { entry := by rw [hself]; exact h.entry
      holder := by rw [hself]; exact h.holder
      absent := by rw [hself]; exact h.absent
      last := by rw [hself]; exact h.last
      ran := by rw [hself]; exact h.ran
      own := by rw [hself]; exact h.own
      failure := by rw [hself]; exact h.failure }

namespace Inv

omit [DecidableEq θ] in
theorem pending_of_busy (hb : (s.phase t).Busy) :
    (s.phase t).Pending ∧ ∃ l, (s.phase t).holds = some l ∧ (s.phase t).lock = some l := by
  cases hp : s.phase t <;> rw [hp] at hb
  case running l => exact ⟨trivial, l, rfl, rfl⟩
  case computed l v => exact ⟨trivial, l, rfl, rfl⟩
  all_goals exact absurd hb id

omit [DecidableEq θ] in
theorem phaseOk (h : s.Inv) (hp : s.phase t = p) : s.PhaseOk t p := by
  subst hp
  obtain ⟨hentry, hholder, habsent, hlast, hran, hown, hfailure⟩ := h.threads t
  exact ⟨hentry, hholder, habsent, hlast, hran, hown, hfailure⟩

omit [DecidableEq θ] in
/-- The callers of a key have one lock, which one thread holds. -/
theorem busy_unique (h : s.Inv) (hb : (s.phase t).Busy) (hb' : (s.phase t').Busy)
    (hkey : (s.call t).key = (s.call t').key) : t = t' := by
  obtain ⟨hp, l, hholds, hlock⟩ := pending_of_busy hb
  obtain ⟨hp', l', hholds', hlock'⟩ := pending_of_busy hb'
  obtain ⟨m, hm, hml⟩ := (h.threads t).entry hp
  obtain ⟨m', hm', hml'⟩ := (h.threads t').entry hp'
  rw [hkey] at hm
  obtain rfl := Option.some.inj (hm.symm.trans hm')
  obtain rfl := hml l hlock
  obtain rfl := hml' l' hlock'
  exact Option.some.inj (((h.threads t).holder _ hholds).symm.trans
    ((h.threads t').holder _ hholds'))

omit [DecidableEq θ] in
theorem busy_unique_of_cacheKey (h : s.Inv) (hb : (s.phase t).Busy) (hb' : (s.phase t').Busy)
    (hkey : (s.call t).cacheKey = (s.call t').cacheKey) : t = t' :=
  h.busy_unique hb hb'
    (h.same_key t t' (pending_of_busy hb).1 (pending_of_busy hb').1 hkey)

/-- A step of one thread that is pending before and after, or neither. -/
theorem moved (h : s.Inv) (t : θ) (hphase : s'.phase = Function.update s.phase t p)
    (hcall : ∀ t', t' ≠ t → s'.call t' = s.call t') (hcallt : p.Pending → s'.call t = s.call t)
    (hown : ∀ t', t' ≠ t → s'.own t' = s.own t') (hlocks : s'.addLocks = s.addLocks)
    (hpending : p.Pending ↔ (s.phase t).Pending)
    (hholder : ∀ t', t' ≠ t → ∀ l, (s.phase t').holds = some l →
      s'.holder.get? l = s.holder.get? l)
    (habsent : ∀ t', t' ≠ t → (s.phase t').Busy →
      s.cache.get? (s.call t').cacheKey = none → s'.cache.get? (s.call t').cacheKey = none)
    (hlast : ∀ t', t' ≠ t → (s.phase t').Busy →
      s'.runs.lookup (s.call t').cacheKey = s.runs.lookup (s.call t').cacheKey)
    (hruns : s.runs ⊆ s'.runs)
    (hcached : ∀ k v, s'.cache.get? k = some v → s'.runs.lookup k = some v)
    (ht : s'.ThreadOk t) : s'.Inv := by
  have hother : ∀ t', t' ≠ t → s'.phase t' = s.phase t' := fun t' hne => by
    rw [hphase, Function.update_of_ne hne]
  have hself : s'.phase t = p := by rw [hphase, Function.update_self]
  have hsame : ∀ t', (s'.phase t').Pending → (s.phase t').Pending ∧ s'.call t' = s.call t' := by
    intro t' hp
    by_cases hne : t' = t
    · subst hne
      rw [hself] at hp
      exact ⟨hpending.mp hp, hcallt hp⟩
    · rw [hother t' hne] at hp
      exact ⟨hp, hcall t' hne⟩
  refine ⟨fun t' => ?_, fun k l hl => ?_, fun t₁ t₂ h₁ h₂ hkey => ?_, hcached⟩
  · by_cases hne : t' = t
    · exact hne ▸ ht
    · exact (h.threads t').frame (hother t' hne) (hcall t' hne) (hown t' hne)
        (fun _ => by rw [hlocks]) (hholder t' hne) (habsent t' hne) (hlast t' hne) hruns
  · rw [hlocks] at hl
    obtain ⟨t', hk, hp⟩ := h.used k l hl
    refine ⟨t', ?_⟩
    by_cases hne : t' = t
    · subst hne
      have hp' := hpending.mpr hp
      exact ⟨hcallt hp' ▸ hk, hself ▸ hp'⟩
    · exact ⟨hcall t' hne ▸ hk, hother t' hne ▸ hp⟩
  · obtain ⟨hp₁, hc₁⟩ := hsame t₁ h₁
    obtain ⟨hp₂, hc₂⟩ := hsame t₂ h₂
    rw [hc₁, hc₂] at hkey ⊢
    exact h.same_key t₁ t₂ hp₁ hp₂ hkey

/-- A step that only moves a thread. -/
theorem moved_only (h : s.Inv) (hpending : p.Pending ↔ (s.phase t).Pending)
    (ht : s.PhaseOk t p) : (s.move t p).Inv :=
  h.moved t rfl (fun _ _ => rfl) (fun _ => rfl) (fun _ _ => rfl) rfl hpending
    (fun _ _ _ _ => rfl) (fun _ _ _ => id) (fun _ _ _ => rfl) (fun _ hx => hx) h.cached
    ht.threadOk

theorem called (h : s.Inv) (c : CacheCall) (hp : ¬ (s.phase t).Pending) :
    ({ s with
      call := Function.update s.call t c
      own := Function.update s.own t none }.move t .called : LockedCache θ ν).Inv := by
  refine h.moved t rfl (fun t' hne => Function.update_of_ne hne ..) (fun hp => absurd hp id)
    (fun t' hne => Function.update_of_ne hne ..) rfl (iff_of_false id hp) (fun _ _ _ _ => rfl)
    (fun _ _ _ => id) (fun _ _ _ => rfl) (fun _ hx => hx) h.cached (PhaseOk.threadOk ?_)
  exact
    { entry := fun hp => hp.elim
      holder := fun _ hl => by cases hl
      absent := fun hb => hb.elim
      last := fun _ _ hc => by cases hc
      ran := fun _ hv => by cases hv
      own := fun v hv => by cases (Function.update_self t none s.own).symm.trans hv
      failure := fun _ he => by cases he }

omit [DecidableEq θ] in
theorem mem_runs (h : s.Inv) {v : Option ν} (hget : s.cache.get? k = some v) :
    (k, v) ∈ s.runs := by
  obtain ⟨l₁, l₂, heq, -⟩ := List.lookup_eq_some_iff.mp (h.cached k v hget)
  exact heq ▸ List.mem_append_right _ (List.mem_cons_self ..)

theorem foundFirst (h : s.Inv) {v : Option ν} (hp : s.phase t = .called)
    (hget : s.cache.get? (s.call t).cacheKey = some v) : (s.move t (.done (.ok v))).Inv := by
  have hmem := h.mem_runs hget
  exact h.moved_only (by rw [hp]; rfl)
    { h.phaseOk hp with
      last := fun _ _ hc => by cases hc
      ran := fun _ hv => by cases hv; exact hmem
      own := fun w hw => by cases (h.phaseOk hp).own w hw
      failure := fun _ he => by cases he }

theorem missedFirst (h : s.Inv) (hp : s.phase t = .called) : (s.move t .missed).Inv :=
  h.moved_only (by rw [hp]; rfl) { h.phaseOk hp with last := fun _ _ hc => by cases hc }

theorem foundAgain (h : s.Inv) {v : Option ν} (hp : s.phase t = .entered l)
    (hget : s.cache.get? (s.call t).cacheKey = some v) :
    (s.move t (.leaving l (.ok v))).Inv := by
  have hmem := h.mem_runs hget
  exact h.moved_only (by rw [hp]; rfl)
    { h.phaseOk hp with
      last := fun _ _ hc => by cases hc
      ran := fun _ hv => by cases hv; exact hmem
      own := fun w hw => by cases (h.phaseOk hp).own w hw
      failure := fun _ he => by cases he }

theorem missedAgain (h : s.Inv) (hp : s.phase t = .entered l)
    (hget : s.cache.get? (s.call t).cacheKey = none) : (s.move t (.running l)).Inv :=
  h.moved_only (by rw [hp]; rfl)
    { h.phaseOk hp with
      absent := fun _ => hget
      last := fun _ _ hc => by cases hc }

theorem acquired (h : s.Inv) (hp : s.phase t = .waiting l) (hfree : l ∉ s.holder) :
    ({ s with holder := s.holder.set l t }.move t (.entered l) : LockedCache θ ν).Inv := by
  refine h.moved t rfl (fun _ _ => rfl) (fun _ => rfl) (fun _ _ => rfl) rfl (by rw [hp]; rfl)
    (fun t' _ l' hl' => ?_) (fun _ _ _ => id) (fun _ _ _ => rfl) (fun _ hx => hx) h.cached
    (PhaseOk.threadOk ?_)
  · have hne : l' ≠ l := fun heq =>
      hfree (heq ▸ Dict.mem_of_get? ((h.threads t').holder l' hl'))
    simp [move, hne]
  · exact
      { h.phaseOk hp with
        holder := fun l' hl' => by
          cases hl'
          exact (Dict.get?_set ..).trans (if_pos rfl)
        last := fun _ _ hc => by cases hc }

theorem returned (h : s.Inv) (v : Option ν) (hp : s.phase t = .running l) :
    ({ s with
      runs := ((s.call t).cacheKey, v) :: s.runs
      own := Function.update s.own t (some v) }.move t (.computed l v) : LockedCache θ ν).Inv := by
  have hbusy : (s.phase t).Busy := by rw [hp]; trivial
  refine h.moved t rfl (fun _ _ => rfl) (fun _ => rfl) (fun t' hne => Function.update_of_ne hne ..)
    rfl (by rw [hp]; rfl) (fun _ _ _ _ => rfl) (fun _ _ _ => id) (fun t' hne hb => ?_)
    (List.subset_cons_self _ _) (fun k w hw => ?_) (PhaseOk.threadOk ?_)
  · have hkey : (s.call t').cacheKey ≠ (s.call t).cacheKey := fun heq =>
      hne (h.busy_unique_of_cacheKey hb hbusy heq)
    simp [move, Dict.lookup_cons_ite, hkey]
  · have hkey : k ≠ (s.call t).cacheKey := fun heq => by
      have habsent := (h.threads t).absent hbusy
      rw [← heq] at habsent
      cases habsent.symm.trans hw
    have hcached := h.cached k w hw
    simp [move, Dict.lookup_cons_ite, hkey, hcached]
  · exact
      { h.phaseOk hp with
        last := fun _ _ hc => by
          cases hc
          exact List.lookup_cons_self
        ran := fun _ hv => by
          cases hv
          exact List.mem_cons_self
        own := fun w hw => by
          cases (Function.update_self t (some v) s.own).symm.trans hw
          rfl
        failure := fun _ he => by cases he }

theorem stored (h : s.Inv) {v : Option ν} (hp : s.phase t = .computed l v) :
    ({ s with cache := s.cache.set (s.call t).cacheKey v }.move t
      (.leaving l (.ok v)) : LockedCache θ ν).Inv := by
  have hbusy : (s.phase t).Busy := by rw [hp]; trivial
  refine h.moved t rfl (fun _ _ => rfl) (fun _ => rfl) (fun _ _ => rfl)
    rfl (by rw [hp]; rfl) (fun _ _ _ _ => rfl) (fun t' hne hb hnone => ?_) (fun _ _ _ => rfl)
    (fun _ hx => hx) (fun k w hw => ?_) (PhaseOk.threadOk ?_)
  · have hkey : (s.call t').cacheKey ≠ (s.call t).cacheKey := fun heq =>
      hne (h.busy_unique_of_cacheKey hb hbusy heq)
    simp [move, hkey, hnone]
  · have hlast := (h.threads t).last l v hp
    have hcached := h.cached k w
    simp only [move, Dict.get?_set] at hw ⊢
    split_ifs at hw with hk
    · obtain rfl := Option.some.inj hw
      rw [hk, hlast]
    · exact hcached hw
  · exact
      { h.phaseOk hp with
        absent := fun hb => hb.elim
        last := fun _ _ hc => by cases hc }

theorem notStored (h : s.Inv) {v : Option ν} (hp : s.phase t = .computed l v) :
    (s.move t (.leaving l (.ok v))).Inv :=
  h.moved_only (by rw [hp]; rfl)
    { h.phaseOk hp with
      absent := fun hb => hb.elim
      last := fun _ _ hc => by cases hc }

/-- A lock is only released by the thread that holds it. -/
theorem released (h : s.Inv) {r : Except CallFailure (Option ν)} (hp : s.phase t = .leaving l r)
    (hpending : p.Pending ↔ (s.phase t).Pending) (hlock : p.lock = none) (hholds : p.holds = none)
    (hbusy : ¬ p.Busy) (houtcome : p.outcome = some r) :
    ({ s with holder := s.holder.del l }.move t p : LockedCache θ ν).Inv := by
  refine h.moved t rfl (fun _ _ => rfl) (fun _ => rfl) (fun _ _ => rfl)
    rfl hpending (fun t' hne l' hl' => ?_) (fun _ _ _ => id) (fun _ _ _ => rfl)
    (fun _ hx => hx) h.cached (PhaseOk.threadOk ?_)
  · have hl : l' ≠ l := fun heq => by
      have hheld := (h.threads t).holder l (by rw [hp]; rfl)
      have hheld' := (h.threads t').holder l' hl'
      rw [heq] at hheld'
      exact hne (Option.some.inj (hheld'.symm.trans hheld))
    simp [move, hl]
  · obtain ⟨hentry, -, -, -, hran, hown, hfailure⟩ := h.threads t
    have hr : (s.phase t).outcome = p.outcome := by
      rw [hp, houtcome]
      rfl
    rw [hr] at hran hown hfailure
    exact
      { entry := fun hp' => by
          obtain ⟨m, hm, -⟩ := hentry (hpending.mp hp')
          refine ⟨m, hm, fun l' hl' => ?_⟩
          cases hlock.symm.trans hl'
        holder := fun l' hl' => by cases hholds.symm.trans hl'
        absent := fun hb => absurd hb hbusy
        last := fun _ _ hc => absurd (hc ▸ trivial) hbusy
        ran := hran
        own := hown
        failure := hfailure }

/-- The lock in the table is taken. -/
theorem joined (h : s.Inv) (hp : s.phase t = .missed)
    (hget : s.addLocks.get? (s.call t).key = some l)
    (hkeys : ∀ t', (s.phase t').Pending → (s.call t').cacheKey = (s.call t).cacheKey →
      (s.call t').key = (s.call t).key) : (s.move t (.waiting l)).Inv := by
  have hother : ∀ t', t' ≠ t → (s.move t (.waiting l)).phase t' = s.phase t' := fun t' hne =>
    Function.update_of_ne hne ..
  refine ⟨fun t' => ?_, fun k m hm => ?_, fun t₁ t₂ h₁ h₂ hkey => ?_, h.cached⟩
  · by_cases hne : t' = t
    · subst hne
      exact PhaseOk.threadOk
        { h.phaseOk hp with
          entry := fun _ => ⟨l, hget, fun l' hl' => by cases hl'; rfl⟩
          last := fun _ _ hc => by cases hc }
    · exact (h.threads t').frame (hother t' hne) rfl rfl (fun _ => rfl) (fun _ _ => rfl)
        (fun _ => id) (fun _ => rfl) fun _ hx => hx
  · obtain ⟨t', hk, hpending⟩ := h.used k m hm
    have hne : t' ≠ t := fun heq => by
      rw [heq, hp] at hpending
      exact hpending
    exact ⟨t', hk, (hother t' hne).symm ▸ hpending⟩
  · by_cases hne₁ : t₁ = t
    · by_cases hne₂ : t₂ = t
      · rw [hne₁, hne₂]
      · rw [hother t₂ hne₂] at h₂
        exact hne₁ ▸ (hkeys t₂ h₂ (hne₁ ▸ hkey).symm).symm
    · rw [hother t₁ hne₁] at h₁
      by_cases hne₂ : t₂ = t
      · exact hne₂ ▸ hkeys t₁ h₁ (hne₂ ▸ hkey)
      · rw [hother t₂ hne₂] at h₂
        exact h.same_key t₁ t₂ h₁ h₂ hkey

/-- A new lock is as good as one that was in the table. -/
theorem added (h : s.Inv) (hp : s.phase t = .missed)
    (hget : s.addLocks.get? (s.call t).key = none)
    (hkeys : ∀ t', (s.phase t').Pending → (s.call t').cacheKey = (s.call t).cacheKey →
      (s.call t').key = (s.call t).key) :
    ({ s with
      addLocks := s.addLocks.set (s.call t).key s.locks
      locks := s.locks + 1 }.move t (.waiting s.locks) : LockedCache θ ν).Inv := by
  have hnone : ∀ t', (s.phase t').Pending → (s.call t').key ≠ (s.call t).key :=
    fun t' hpending heq => by
      obtain ⟨m, hm, -⟩ := (h.threads t').entry hpending
      rw [heq, hget] at hm
      cases hm
  refine ⟨fun t' => ?_, fun k m hm => ?_, fun t₁ t₂ h₁ h₂ hkey => ?_, h.cached⟩
  · by_cases hne : t' = t
    · subst hne
      exact PhaseOk.threadOk
        { h.phaseOk hp with
          entry := fun _ => ⟨s.locks, (Dict.get?_set ..).trans (if_pos rfl), fun l' hl' => by
            cases hl'
            rfl⟩
          last := fun _ _ hc => by cases hc }
    · exact (h.threads t').frame (Function.update_of_ne hne ..) rfl rfl
        (fun hpending => by simp [move, hnone t' hpending]) (fun _ _ => rfl)
        (fun _ => id) (fun _ => rfl) fun _ hx => hx
  · simp only [move, Dict.get?_set] at hm ⊢
    split_ifs at hm with hk
    · exact ⟨t, hk.symm, by simp⟩
    · obtain ⟨t', hk', hpending⟩ := h.used k m hm
      have hne : t' ≠ t := fun heq => by
        rw [heq, hp] at hpending
        exact hpending
      exact ⟨t', hk', by rwa [Function.update_of_ne hne]⟩
  · simp only [move] at h₁ h₂ hkey ⊢
    by_cases hne₁ : t₁ = t
    · by_cases hne₂ : t₂ = t
      · rw [hne₁, hne₂]
      · rw [Function.update_of_ne hne₂] at h₂
        exact hne₁ ▸ (hkeys t₂ h₂ (hne₁ ▸ hkey).symm).symm
    · rw [Function.update_of_ne hne₁] at h₁
      by_cases hne₂ : t₂ = t
      · exact hne₂ ▸ hkeys t₁ h₁ (hne₂ ▸ hkey)
      · rw [Function.update_of_ne hne₂] at h₂
        exact h.same_key t₁ t₂ h₁ h₂ hkey

/-- Another caller is left to delete the entry. -/
theorem functionRaised (h : s.Inv) (hp : s.phase t = .running l)
    (hleft : ∃ t', t' ≠ t ∧ (s.call t').key = (s.call t).key ∧ (s.phase t').Pending) :
    (s.move t (.leaving l (.error .raised))).Inv := by
  have hother : ∀ t', t' ≠ t →
      (s.move t (.leaving l (.error .raised))).phase t' = s.phase t' := fun t' hne =>
    Function.update_of_ne hne ..
  have hpending : ∀ t', ((s.move t (.leaving l (.error .raised))).phase t').Pending →
      (s.phase t').Pending := fun t' ht' => by
    by_cases hne : t' = t
    · subst hne
      simp only [move, Function.update_self] at ht'
      exact absurd ht' id
    · rwa [hother t' hne] at ht'
  refine ⟨fun t' => ?_, fun k m hm => ?_,
    fun t₁ t₂ h₁ h₂ => h.same_key t₁ t₂ (hpending t₁ h₁) (hpending t₂ h₂), h.cached⟩
  · by_cases hne : t' = t
    · subst hne
      exact PhaseOk.threadOk
        { h.phaseOk hp with
          entry := fun hp => hp.elim
          absent := fun hb => hb.elim
          last := fun _ _ hc => by cases hc
          ran := fun _ hv => by cases hv
          own := fun w hw => by cases (h.phaseOk hp).own w hw
          failure := fun _ he => by cases he; rfl }
    · exact (h.threads t').frame (hother t' hne) rfl rfl (fun _ => rfl) (fun _ _ => rfl)
        (fun _ => id) (fun _ => rfl) fun _ hx => hx
  · obtain ⟨t', hk, ht'⟩ := h.used k m hm
    by_cases hne : t' = t
    · obtain ⟨t'', hne', hk', ht''⟩ := hleft
      exact ⟨t'', (hk'.trans (hne ▸ hk)), (hother t'' hne').symm ▸ ht''⟩
    · exact ⟨t', hk, (hother t' hne).symm ▸ ht'⟩

/-- The last caller of the key deletes the entry. -/
theorem deleted (h : s.Inv) {v : Option ν} (hp : s.phase t = .cleaning v)
    (hlast : ∀ t', (s.phase t').Pending → (s.call t').key = (s.call t).key → t' = t) :
    ({ s with addLocks := s.addLocks.del (s.call t).key }.move t
      (.done (.ok v)) : LockedCache θ ν).Inv := by
  have hpending : ∀ t', (Function.update s.phase t (.done (.ok v)) t').Pending →
      t' ≠ t ∧ (s.phase t').Pending := fun t' ht' => by
    by_cases hne : t' = t
    · subst hne
      rw [Function.update_self] at ht'
      exact absurd ht' id
    · rw [Function.update_of_ne hne] at ht'
      exact ⟨hne, ht'⟩
  refine ⟨fun t' => ?_, fun k m hm => ?_,
    fun t₁ t₂ h₁ h₂ => h.same_key t₁ t₂ (hpending t₁ h₁).2 (hpending t₂ h₂).2, h.cached⟩
  · by_cases hne : t' = t
    · subst hne
      exact PhaseOk.threadOk
        { h.phaseOk hp with
          entry := fun hp => hp.elim
          last := fun _ _ hc => by cases hc }
    · refine (h.threads t').frame (Function.update_of_ne hne ..) rfl rfl (fun ht' => ?_)
        (fun _ _ => rfl) (fun _ => id) (fun _ => rfl) fun _ hx => hx
      have hk : (s.call t').key ≠ (s.call t).key := fun heq => hne (hlast t' ht' heq)
      simp [move, hk]
  · simp only [move, Dict.get?_del] at hm ⊢
    split_ifs at hm with hk
    obtain ⟨t', hk', ht'⟩ := h.used k m hm
    have hne : t' ≠ t := fun heq => hk (by rw [← hk', heq])
    exact ⟨t', hk', by rwa [Function.update_of_ne hne]⟩

omit [DecidableEq θ] in
theorem evicted (h : s.Inv) (k : String) : ({ s with cache := s.cache.del k } :
    LockedCache θ ν).Inv := by
  refine ⟨fun t => (h.threads t).frame rfl rfl rfl (fun _ => rfl) (fun _ _ => rfl)
    (fun _ hnone => ?_) (fun _ => rfl) fun _ hx => hx, h.used, h.same_key, fun k' v hv => ?_⟩
  · rw [Dict.get?_del, hnone]
    split <;> rfl
  · simp only [Dict.get?_del] at hv
    split_ifs at hv
    exact h.cached k' v hv

end Inv

theorem Inv.step (h : s.Inv) {e : CacheEvent θ ν} (ho : s.Orderly e) (hs : s.step e = some s') :
    s'.Inv := by
  cases e with
  | call t c =>
      rw [LockedCache.step] at hs
      split at hs
      · rename_i hp
        obtain rfl := Option.some.inj hs
        exact h.called c (by rw [hp]; exact id)
      · rename_i hp
        obtain rfl := Option.some.inj hs
        exact h.called c (by rw [hp]; exact id)
      · cases hs
  | find t =>
      rw [LockedCache.step] at hs
      split at hs
      · rename_i hp hget
        obtain rfl := Option.some.inj hs
        exact h.foundFirst hp hget
      · rename_i hp hget
        obtain rfl := Option.some.inj hs
        exact h.missedFirst hp
      · rename_i l v hp hget
        obtain rfl := Option.some.inj hs
        exact h.foundAgain hp hget
      · rename_i l hp hget
        obtain rfl := Option.some.inj hs
        exact h.missedAgain hp hget
      · cases hs
  | takeLock t =>
      rw [LockedCache.step] at hs
      split at hs
      · rename_i hp
        split at hs
        · rename_i l hget
          obtain rfl := Option.some.inj hs
          exact h.joined hp hget ho
        · rename_i hget
          obtain rfl := Option.some.inj hs
          exact h.added hp hget ho
      · cases hs
  | acquire t =>
      rw [LockedCache.step] at hs
      split at hs
      · rename_i l hp
        split_ifs at hs with hfree
        obtain rfl := Option.some.inj hs
        exact h.acquired hp hfree
      · cases hs
  | functionEnds t value =>
      unfold LockedCache.step at hs
      dsimp only at hs
      split at hs
      · rename_i l hp
        obtain rfl := Option.some.inj hs
        exact h.functionRaised hp ho
      · rename_i l v hp
        obtain rfl := Option.some.inj hs
        exact h.returned v hp
      · cases hs
  | cacheValue t =>
      rw [LockedCache.step] at hs
      split at hs
      · rename_i l v hp
        have habsent := Dict.not_mem_iff.mpr ((h.threads t).absent (by rw [hp]; trivial))
        rw [if_neg habsent] at hs
        split_ifs at hs
        · obtain rfl := Option.some.inj hs
          exact h.stored hp
        · obtain rfl := Option.some.inj hs
          exact h.notStored hp
      · cases hs
  | release t =>
      rw [LockedCache.step] at hs
      split at hs
      · rename_i l v hp
        obtain rfl := Option.some.inj hs
        exact h.released hp (by rw [hp]; rfl) rfl rfl id rfl
      · rename_i l e hp
        obtain rfl := Option.some.inj hs
        exact h.released hp (by rw [hp]; rfl) rfl rfl id rfl
      · cases hs
  | deleteLock t =>
      rw [LockedCache.step] at hs
      split at hs
      · rename_i v hp
        obtain ⟨l, hl, -⟩ := (h.threads t).entry (by rw [hp]; trivial)
        rw [if_pos (Dict.mem_of_get? hl)] at hs
        obtain rfl := Option.some.inj hs
        exact h.deleted hp ho
      · cases hs
  | evict k =>
      obtain rfl := Option.some.inj hs
      exact h.evicted k

omit [DecidableEq θ] in
theorem inv_init (call : θ → CacheCall) : (init call : LockedCache θ ν).Inv := by
  refine ⟨fun t => ?_, fun k l hl => (by cases hl), fun t t' ht => absurd ht id,
    fun k v hv => (by cases hv)⟩
  constructor <;> simp [init]

omit [DecidableEq θ] in
theorem Inv.safe (h : s.Inv) : s.Safe where
  once_at_a_time t t' l l' hp hp' hkey := by
    have hb : (s.phase t).Busy := by rw [hp]; trivial
    have hb' : (s.phase t').Busy := by rw [hp']; trivial
    obtain hkey | hkey := hkey
    · exact h.busy_unique hb hb' hkey
    · exact h.busy_unique_of_cacheKey hb hb' hkey
  not_again t l hp := Dict.not_mem_iff.mpr ((h.threads t).absent (by rw [hp]; trivial))
  cached := h.cached
  own t r v hp hv := by
    have hown := (h.threads t).own v hv
    rw [hp] at hown
    exact Option.some.inj hown
  returned t v hp := (h.threads t).ran v (by rw [hp]; rfl)
  no_internal_error t e hp := (h.threads t).failure e (by rw [hp]; rfl)
  unlocked k hk hmem := by
    obtain ⟨l, hl⟩ := Dict.mem_iff.mp hmem
    obtain ⟨t, hkey, hpending⟩ := h.used k l hl
    refine hk t hkey ?_
    cases hp : s.phase t <;> rw [hp] at hpending <;> trivial

/-- **If every entry is deleted by the last caller that uses it, concurrent calls are safe.** -/
theorem safe_of_orderly (call : θ → CacheCall) {es : List (CacheEvent θ ν)}
    (ho : Along step Orderly (init call) es) : Always step Safe (init call) es :=
  Always.imp (fun _ h => h.safe)
    (always_of_step (fun _ _ _ h ho hs => h.step ho hs) (inv_init call) ho)

/-! ## What goes wrong -/

/-- Both callers miss the item. The second one waits for the lock of the first one. -/
def twoCallers : List (CacheEvent Bool ℕ) :=
  [.find false, .find true, .takeLock false, .takeLock true, .acquire false, .find false,
    .functionEnds false (some (some 5)), .cacheValue false, .release false, .deleteLock false,
    .acquire true, .find true, .release true, .deleteLock true]

def sameCall (t : Bool) : CacheEvent Bool ℕ := .call t ⟨"key", none, true⟩

/-- The second of two callers finds the item, but no entry to delete. -/
theorem second_waiter_fails :
    ∃ r, run step (init fun _ => ⟨"key", none, true⟩)
        (sameCall false :: sameCall true :: twoCallers) = some r
      ∧ r.phase true = .done (.error .keyError) ∧ ¬ r.Safe := by
  obtain ⟨r, hr, hp⟩ : ∃ r, run step (init fun _ => ⟨"key", none, true⟩)
      (sameCall false :: sameCall true :: twoCallers) = some r
        ∧ r.phase true = .done (.error .keyError) := ⟨_, rfl, rfl⟩
  exact ⟨r, hr, hp, fun h => by cases h.no_internal_error true _ hp⟩

/-- The function of the only caller raises, and the entry for its key stays. -/
theorem lock_stays_behind :
    ∃ r, run step (init fun _ => ⟨"key", none, true⟩)
        [sameCall false, .find false, .takeLock false, .acquire false, .find false,
          .functionEnds false none, .release false] = some r
      ∧ (∀ t, ¬ (r.phase t).InProgress) ∧ "key" ∈ r.addLocks := by
  refine ⟨_, rfl, fun t => ?_, rfl⟩
  cases t <;> exact id

/-- One caller after the other: the second one finds the item. -/
theorem one_after_the_other :
    Always step Safe (init fun _ => ⟨"key", none, true⟩)
      [sameCall false, .find false, .takeLock false, .acquire false, .find false,
        .functionEnds false (some (some 5)), .cacheValue false, .release false,
        .deleteLock false, sameCall true, .find true] := by
  refine safe_of_orderly _ ⟨trivial, trivial, fun t' ht' _ => ?_, trivial, trivial, trivial, trivial,
    trivial, fun t' ht' _ => ?_, trivial, trivial, trivial⟩
  · cases t' <;> exact absurd ht' id
  · cases t'
    · rfl
    · exact absurd ht' id

end LockedCache

end Inmanta
