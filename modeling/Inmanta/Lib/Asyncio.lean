import Inmanta.Lib.Dict
import Mathlib.Data.List.Pairwise

/-!
# The locks and events of asyncio

Tasks of one event loop run until they wait for a future, so what is of
interest of a lock is who waits for it, and which of the waiting tasks
will run next: a `Wake` is the future a task waits for, together with a
cancellation of the task that has not reached it yet.

`Lock.Serves` says that a lock is held by one task at most, and that a
task is on its way if the lock is free. The operations keep it, and say
which tasks hold the lock and wait for it afterwards.
-/

namespace Inmanta

namespace Asyncio

/-- The future a task waits for. -/
inductive Wake where
  | pending
  /-- It has a result. -/
  | woken
  /-- It was cancelled before it had a result. -/
  | cancelled
  /-- It has a result, but the task is cancelled before it gets to it. -/
  | wokenCancelled
  deriving DecidableEq

namespace Wake

def setResult : Wake → Wake
  | .pending => .woken
  | w => w

def cancel : Wake → Wake
  | .pending => .cancelled
  | .woken => .wokenCancelled
  | w => w

/-- The future has a result. -/
def IsWoken (w : Wake) : Prop := w = .woken ∨ w = .wokenCancelled

instance (w : Wake) : Decidable w.IsWoken := inferInstanceAs (Decidable (_ ∨ _))

@[simp] theorem not_isWoken_pending : ¬ Wake.pending.IsWoken := by decide

@[simp] theorem not_isWoken_cancelled : ¬ Wake.cancelled.IsWoken := by decide

@[simp] theorem isWoken_cancel {w : Wake} : w.cancel.IsWoken ↔ w.IsWoken := by
  cases w <;> decide

@[simp] theorem cancel_ne_pending (w : Wake) : w.cancel ≠ .pending := by
  cases w <;> decide

@[simp] theorem setResult_ne_pending (w : Wake) : w.setResult ≠ .pending := by
  cases w <;> decide

end Wake

/-- The tasks that wait, first come first served. -/
abbrev Waiters (ι : Type) := List (ι × Wake)

section Waiters

variable {ι : Type}

/-- Where a task is woken behind none, at most one is woken. -/
theorem Waiters.woken_unique {ws : Waiters ι} (h : ws.Pairwise fun _ q => ¬ q.2.IsWoken)
    {p q : ι × Wake} (hp : p ∈ ws) (hq : q ∈ ws) (hpw : p.2.IsWoken) (hqw : q.2.IsWoken) :
    p = q := by
  induction h with
  | nil => cases hp
  | cons hall _ ih =>
      rcases List.mem_cons.mp hp with rfl | hp
      · rcases List.mem_cons.mp hq with rfl | hq
        · rfl
        · exact absurd hqw (hall q hq)
      · exact absurd hpw (hall p hp)

variable [DecidableEq ι]

def Waiters.remove (ws : Waiters ι) (c : ι) : Waiters ι := ws.filter (·.1 ≠ c)

def Waiters.cancel (ws : Waiters ι) (c : ι) : Waiters ι :=
  ws.map fun p => if p.1 = c then (p.1, p.2.cancel) else p

/-- The future of a task. -/
def Waiters.future? (ws : Waiters ι) (c : ι) : Option Wake := ws.lookup c

@[simp] theorem Waiters.map_fst_cancel (ws : Waiters ι) (c : ι) :
    (ws.cancel c).map Prod.fst = ws.map Prod.fst := by
  rw [Waiters.cancel, List.map_map]
  refine List.map_congr_left fun p _ => ?_
  simp only [Function.comp]
  split <;> rfl

@[simp] theorem Waiters.mem_remove {ws : Waiters ι} {c x : ι} :
    x ∈ (ws.remove c).map Prod.fst ↔ x ∈ ws.map Prod.fst ∧ x ≠ c := by
  simp [Waiters.remove]

theorem Waiters.mem_of_future? {ws : Waiters ι} {c : ι} {w : Wake} (h : ws.future? c = some w) :
    (c, w) ∈ ws := by
  induction ws with
  | nil => cases h
  | cons p ws ih =>
      obtain ⟨x, v⟩ := p
      rw [Waiters.future?, Dict.lookup_cons_ite] at h
      by_cases hx : c = x
      · subst hx
        rw [if_pos rfl] at h
        obtain rfl := Option.some.inj h
        exact List.mem_cons_self
      · rw [if_neg hx] at h
        exact List.mem_cons_of_mem _ (ih h)

theorem Waiters.exists_future? {ws : Waiters ι} {c : ι} :
    (∃ w, ws.future? c = some w) ↔ c ∈ ws.map Prod.fst := by
  induction ws with
  | nil => simp [Waiters.future?]
  | cons p ws ih =>
      obtain ⟨x, v⟩ := p
      rw [Waiters.future?, Dict.lookup_cons_ite]
      by_cases hx : c = x
      · simp [hx]
      · rw [if_neg hx, List.map_cons, List.mem_cons, or_iff_right hx]
        exact ih

end Waiters

/-! ## Locks -/

structure Lock (ι : Type) where
  locked : Bool
  waiters : Waiters ι

namespace Lock

variable {ι : Type}

def new : Lock ι := ⟨false, []⟩

/-- Nobody holds the lock, or is going to. -/
def free (l : Lock ι) : Bool := !l.locked && l.waiters.all (·.2 = .cancelled)

/-- Whether the task gets the lock at once; if not, it waits. -/
def acquire (l : Lock ι) (c : ι) : Lock ι × Bool :=
  if l.free then ({ l with locked := true }, true)
  else ({ l with waiters := l.waiters ++ [(c, .pending)] }, false)

def wakeUpFirst (l : Lock ι) : Lock ι :=
  match l.waiters with
  | [] => l
  | (c, w) :: ws => { l with waiters := (c, w.setResult) :: ws }

/-- `none`: the lock is not acquired. -/
def release (l : Lock ι) : Option (Lock ι) :=
  if l.locked then some { l with locked := false }.wakeUpFirst else none

/-- Only the first task in line may have been woken, if the lock is free; and then
it has been, or is about to make way. -/
structure Valid (l : Lock ι) : Prop where
  nodup : (l.waiters.map Prod.fst).Nodup
  behind : l.waiters.Pairwise fun _ q => ¬ q.2.IsWoken
  locked : l.locked = true → ∀ p ∈ l.waiters, ¬ p.2.IsWoken
  head : l.locked = false → ∀ p, l.waiters.head? = some p → p.2 ≠ .pending

/-- The lock is held by the one task that owns it, and the tasks that wait for it
stand in line. -/
structure Serves (l : Lock ι) (owns waits : ι → Prop) : Prop where
  valid : l.Valid
  waiting : ∀ c, c ∈ l.waiters.map Prod.fst ↔ waits c
  locked : l.locked = true ↔ ∃ c, owns c
  unique : ∀ c c', owns c → owns c' → c = c'

@[simp] theorem serves_new : (new : Lock ι).Serves (fun _ => False) (fun _ => False) where
  valid := ⟨List.nodup_nil, .nil, fun _ _ h => absurd h List.not_mem_nil, fun _ _ h => (by cases h)⟩
  waiting := fun _ => iff_of_false List.not_mem_nil id
  locked := iff_of_false Bool.false_ne_true fun ⟨_, h⟩ => h
  unique := fun _ _ h => h.elim

variable {l l' : Lock ι} {owns waits owns' waits' : ι → Prop} {c : ι}

theorem Serves.congr (h : l.Serves owns waits) (ho : ∀ x, owns' x ↔ owns x)
    (hw : ∀ x, waits' x ↔ waits x) : l.Serves owns' waits' := by
  obtain rfl : owns' = owns := funext fun x => propext (ho x)
  obtain rfl : waits' = waits := funext fun x => propext (hw x)
  exact h

@[simp] theorem acquire_new (c : ι) : (new : Lock ι).acquire c = (⟨true, []⟩, true) := rfl

@[simp] theorem release_taken : (⟨true, []⟩ : Lock ι).release = some new := rfl

/-- Waking the first task in line of a lock that is free. -/
theorem valid_wakeUpFirst (hn : (l.waiters.map Prod.fst).Nodup)
    (hb : l.waiters.Pairwise fun _ q => ¬ q.2.IsWoken) (hl : l.locked = false) :
    l.wakeUpFirst.Valid ∧ l.wakeUpFirst.locked = false
      ∧ l.wakeUpFirst.waiters.map Prod.fst = l.waiters.map Prod.fst := by
  unfold wakeUpFirst
  cases hw : l.waiters with
  | nil =>
      simp only
      refine ⟨⟨hn, hb, fun h => ?_, fun _ p hp => ?_⟩, hl, by rw [hw]⟩
      · cases hl.symm.trans h
      · rw [hw] at hp
        cases hp
  | cons p ws =>
      obtain ⟨x, w⟩ := p
      rw [hw] at hn hb
      simp only
      refine ⟨⟨hn, ?_, fun h => ?_, fun _ p hp => ?_⟩, hl, rfl⟩
      · rw [List.pairwise_cons] at hb ⊢
        exact hb
      · cases hl.symm.trans h
      · obtain rfl := Option.some.inj hp
        exact w.setResult_ne_pending

/-- Nobody has to wait for a lock that nobody uses. -/
theorem Serves.acquire_of_unused (h : l.Serves owns waits) (ho : ∀ x, ¬ owns x)
    (hw : ∀ x, ¬ waits x) (c : ι) : ∃ l', l.acquire c = (l', true) := by
  have hl : l.locked = false := by
    by_contra hl
    obtain ⟨x, hx⟩ := h.locked.mp (Bool.not_eq_false _ ▸ hl)
    exact ho x hx
  have hnil : l.waiters = [] := by
    rw [List.eq_nil_iff_forall_not_mem]
    exact fun p hp => hw p.1 ((h.waiting p.1).mp (List.mem_map_of_mem hp))
  refine ⟨_, if_pos ?_⟩
  simp [free, hl, hnil]

theorem Serves.release (h : l.Serves owns waits) (hc : owns c) :
    ∃ l', l.release = some l' ∧ l'.Serves (fun x => owns x ∧ x ≠ c) waits := by
  have hl := h.locked.mpr ⟨c, hc⟩
  obtain ⟨hv, hf, hw⟩ := valid_wakeUpFirst (l := { l with locked := false }) h.valid.nodup
    h.valid.behind rfl
  refine ⟨_, by rw [Lock.release, if_pos hl], hv, fun x => ?_, iff_of_false ?_ ?_, ?_⟩
  · rw [hw]
    exact h.waiting x
  · rw [hf]
    exact Bool.false_ne_true
  · exact fun ⟨x, hx, hne⟩ => hne (h.unique x c hx hc)
  · exact fun x y hx hy => h.unique x y hx.1 hy.1

/-- A task that is neither waiting nor the owner tries to get the lock. -/
theorem Serves.acquire (h : l.Serves owns waits) (hc : ¬ waits c) :
    (∃ l', l.acquire c = (l', true) ∧ (∀ x, ¬ owns x) ∧ l'.Serves (fun x => x = c) waits)
      ∨ ∃ l', l.acquire c = (l', false) ∧ l'.Serves owns (fun x => waits x ∨ x = c) := by
  unfold Lock.acquire
  by_cases hf : l.free = true
  · rw [if_pos hf]
    rw [free, Bool.and_eq_true, Bool.not_eq_true', List.all_eq_true] at hf
    obtain ⟨hl, hall⟩ := hf
    refine Or.inl ⟨_, rfl, fun x hx => ?_, ⟨h.valid.nodup, h.valid.behind, fun _ p hp => ?_,
      fun hl => by cases hl⟩, h.waiting, iff_of_true rfl ⟨c, rfl⟩, fun x y hx hy => hx.trans hy.symm⟩
    · cases hl.symm.trans (h.locked.mpr ⟨x, hx⟩)
    · rw [of_decide_eq_true (hall p hp)]
      decide
  · rw [if_neg hf]
    refine Or.inr ⟨_, rfl, ⟨?_, ?_, fun hl p hp => ?_, fun hl p hp => ?_⟩, fun x => ?_, h.locked,
      h.unique⟩
    · rw [List.map_append, List.nodup_append]
      refine ⟨h.valid.nodup, List.nodup_singleton _, fun x hx y hy he => hc ?_⟩
      obtain rfl : x = c := he.trans (List.mem_singleton.mp hy)
      exact (h.waiting x).mp hx
    · rw [List.pairwise_append]
      refine ⟨h.valid.behind, List.pairwise_singleton _ _, fun _ _ q hq => ?_⟩
      rw [List.mem_singleton.mp hq]
      exact Wake.not_isWoken_pending
    · rcases List.mem_append.mp hp with hp | hp
      · exact h.valid.locked hl p hp
      · rw [List.mem_singleton.mp hp]
        exact Wake.not_isWoken_pending
    · cases hw : l.waiters with
      | nil =>
          refine absurd ?_ hf
          simp only [free, hw, List.all_nil, Bool.and_true]
          exact congrArg (!·) hl
      | cons q ws =>
          simp only [hw, List.cons_append, List.head?_cons] at hp
          refine h.valid.head hl p ?_
          rw [hw]
          exact hp
    · rw [List.map_append, List.mem_append, h.waiting]
      exact or_congr_right List.mem_singleton

variable [DecidableEq ι]

/-- The task that waits for the lock runs again, `none` if its future is not done. It has
the lock then, or was cancelled. -/
def resume (l : Lock ι) (c : ι) : Option (Lock ι × Bool) :=
  let l' := { l with waiters := l.waiters.remove c }
  match l.waiters.future? c with
  | none | some .pending => none
  | some .woken => some ({ l' with locked := true }, true)
  | some .cancelled | some .wokenCancelled =>
      some (if l'.locked then l' else l'.wakeUpFirst, false)

def cancel (l : Lock ι) (c : ι) : Lock ι := { l with waiters := l.waiters.cancel c }

/-- No task is cancelled while it waits for the lock. -/
def Uncancelled (l : Lock ι) : Prop :=
  ∀ p ∈ l.waiters, p.2 = .pending ∨ p.2 = .woken

omit [DecidableEq ι] in
@[simp] theorem uncancelled_new : (new : Lock ι).Uncancelled :=
  fun _ hp => absurd hp List.not_mem_nil

omit [DecidableEq ι] in
theorem Uncancelled.acquire (h : l.Uncancelled) (c : ι) : (l.acquire c).1.Uncancelled := by
  unfold Lock.acquire
  split
  · exact h
  · intro p hp
    obtain hp | hp := List.mem_append.mp hp
    · exact h p hp
    · rw [List.mem_singleton.mp hp]
      exact .inl rfl

omit [DecidableEq ι] in
theorem Uncancelled.wakeUpFirst (h : l.Uncancelled) : l.wakeUpFirst.Uncancelled := by
  unfold Lock.wakeUpFirst
  cases hw : l.waiters with
  | nil => exact h
  | cons q ws =>
      intro p hp
      rw [Uncancelled, hw] at h
      obtain rfl | hp := List.mem_cons.mp hp
      · obtain hq | hq := h q List.mem_cons_self <;> rw [hq] <;> exact .inr rfl
      · exact h p (List.mem_cons_of_mem q hp)

omit [DecidableEq ι] in
theorem Uncancelled.release (h : l.Uncancelled) (hr : l.release = some l') : l'.Uncancelled := by
  unfold Lock.release at hr
  split at hr
  · obtain rfl := Option.some.inj hr
    have h₀ : { l with locked := false }.Uncancelled := h
    exact h₀.wakeUpFirst
  · cases hr

theorem Uncancelled.resume (h : l.Uncancelled) {acquired : Bool}
    (hr : l.resume c = some (l', acquired)) : l'.Uncancelled := by
  have hremove : { l with waiters := l.waiters.remove c }.Uncancelled := fun p hp =>
    h p (List.mem_of_mem_filter hp)
  unfold Lock.resume at hr
  split at hr
  · cases hr
  · cases hr
  · obtain ⟨rfl, rfl⟩ := Prod.mk.inj (Option.some.inj hr)
    exact hremove
  all_goals
    obtain ⟨rfl, rfl⟩ := Prod.mk.inj (Option.some.inj hr)
    split
    · exact hremove
    · exact hremove.wakeUpFirst

theorem Uncancelled.future? (h : l.Uncancelled) :
    l.waiters.future? c ≠ some .cancelled ∧ l.waiters.future? c ≠ some .wokenCancelled := by
  refine ⟨fun hc => ?_, fun hc => ?_⟩ <;>
    obtain hw | hw := h _ (Waiters.mem_of_future? hc) <;> cases hw

theorem exists_resume {w : Wake} (h : l.waiters.future? c = some w) (hw : w ≠ .pending) :
    ∃ r, l.resume c = some r ∧ (w = .woken → r.2 = true) := by
  unfold resume
  rw [h]
  cases w with
  | pending => exact absurd rfl hw
  | woken => exact ⟨_, rfl, fun _ => rfl⟩
  | cancelled => exact ⟨_, rfl, fun he => (by cases he)⟩
  | wokenCancelled => exact ⟨_, rfl, fun he => (by cases he)⟩

/-- A task that waits is not done, or gets the lock, or was cancelled and makes way. -/
theorem Serves.resume (h : l.Serves owns waits) {r : Lock ι × Bool} (hr : l.resume c = some r) :
    if r.2 then l.waiters.future? c = some .woken ∧ (∀ x, ¬ owns x)
        ∧ r.1.Serves (fun x => x = c) (fun x => waits x ∧ x ≠ c)
      else r.1.Serves owns (fun x => waits x ∧ x ≠ c) := by
  have hsub : (l.waiters.remove c).Sublist l.waiters := List.filter_sublist
  have hn := List.Nodup.sublist (hsub.map Prod.fst) h.valid.nodup
  have hb := h.valid.behind.sublist hsub
  have hw : ∀ x, x ∈ (l.waiters.remove c).map Prod.fst ↔ waits x ∧ x ≠ c := fun x =>
    Waiters.mem_remove.trans (and_congr_left' (h.waiting x))
  have hmake : (if l.locked then { l with waiters := l.waiters.remove c }
      else { l with waiters := l.waiters.remove c }.wakeUpFirst).Serves owns
        (fun x => waits x ∧ x ≠ c) := by
    cases hl : l.locked with
    | true =>
        simp only [if_true]
        refine ⟨⟨hn, hb, fun _ p hp => h.valid.locked hl p (hsub.subset hp), fun hf => ?_⟩, hw, ?_,
          h.unique⟩
        · cases hf
        · exact hl ▸ h.locked
    | false =>
        obtain ⟨hv, hf, hwaiters⟩ :=
          valid_wakeUpFirst (l := { l with waiters := l.waiters.remove c }) hn hb hl
        rw [if_neg Bool.false_ne_true]
        rw [hl] at hv hf hwaiters
        refine ⟨hv, fun x => ?_, ?_, h.unique⟩
        · rw [hwaiters]
          exact hw x
        · rw [hf, ← hl]
          exact h.locked
  unfold Lock.resume at hr
  cases hfut : l.waiters.future? c with
  | none => rw [hfut] at hr; cases hr
  | some w =>
      have hmem := Waiters.mem_of_future? hfut
      rw [hfut] at hr
      cases w with
      | pending => cases hr
      | woken =>
          have hl : l.locked = false := by
            by_contra hl
            exact h.valid.locked (Bool.not_eq_false _ ▸ hl) _ hmem (Or.inl rfl)
          obtain rfl := Option.some.inj hr
          refine ⟨rfl, fun x hx => ?_, ⟨hn, hb, fun _ p hp hwoken => ?_, fun hf => by cases hf⟩, hw,
            iff_of_true rfl ⟨c, rfl⟩, fun x y hx hy => hx.trans hy.symm⟩
          · cases hl.symm.trans (h.locked.mpr ⟨x, hx⟩)
          · -- the woken task was the first, so nobody else is woken
            obtain ⟨hp, hne⟩ := List.mem_filter.mp hp
            obtain rfl := Waiters.woken_unique h.valid.behind hp hmem hwoken (Or.inl rfl)
            exact of_decide_eq_true hne rfl
      | cancelled =>
          obtain rfl := Option.some.inj hr
          exact hmake
      | wokenCancelled =>
          obtain rfl := Option.some.inj hr
          exact hmake

theorem Serves.cancel (h : l.Serves owns waits) (c : ι) : (l.cancel c).Serves owns waits := by
  have hwake : ∀ p : ι × Wake, (if p.1 = c then (p.1, p.2.cancel) else p).2.IsWoken ↔ p.2.IsWoken :=
    fun p => by
      split
      · exact Wake.isWoken_cancel
      · rfl
  refine ⟨⟨?_, ?_, fun hl p hp => ?_, fun hl p hp => ?_⟩, fun x => ?_, h.locked, h.unique⟩
  · exact (Waiters.map_fst_cancel l.waiters c).symm ▸ h.valid.nodup
  · refine List.pairwise_map.mpr (h.valid.behind.imp fun {_ q} hq => ?_)
    rwa [hwake]
  · obtain ⟨q, hq, rfl⟩ := List.mem_map.mp hp
    rw [hwake]
    exact h.valid.locked hl q hq
  · change (List.map _ l.waiters).head? = some p at hp
    rw [List.head?_map] at hp
    obtain ⟨q, hq, rfl⟩ := Option.map_eq_some_iff.mp hp
    split
    · exact q.2.cancel_ne_pending
    · exact h.valid.head hl q hq
  · change x ∈ (l.waiters.cancel c).map Prod.fst ↔ _
    rw [Waiters.map_fst_cancel]
    exact h.waiting x

/-- A free lock with tasks in line: the first of them runs. -/
theorem Serves.exists_done (h : l.Serves owns waits) (hno : ∀ x, ¬ owns x) (hc : waits c) :
    ∃ x w, waits x ∧ l.waiters.future? x = some w ∧ w ≠ .pending := by
  have hl : l.locked = false := by
    by_contra hl
    obtain ⟨x, hx⟩ := h.locked.mp (Bool.not_eq_false _ ▸ hl)
    exact hno x hx
  cases hw : l.waiters with
  | nil =>
      have hm := (h.waiting c).mpr hc
      rw [hw] at hm
      cases hm
  | cons p ws =>
      obtain ⟨x, w⟩ := p
      refine ⟨x, w, (h.waiting x).mp (by simp [hw]), by simp [Waiters.future?], ?_⟩
      exact h.valid.head hl (x, w) (by rw [hw]; rfl)

end Lock

/-! ## Events -/

structure Event (ι : Type) where
  value : Bool
  waiters : Waiters ι

namespace Event

variable {ι : Type}

def new : Event ι := ⟨false, []⟩

def set (e : Event ι) : Event ι :=
  if e.value then e else ⟨true, e.waiters.map fun p => (p.1, p.2.setResult)⟩

def clear (e : Event ι) : Event ι := { e with value := false }

/-- Whether the event is set; if not, the task waits. -/
def wait (e : Event ι) (c : ι) : Event ι × Bool :=
  if e.value then (e, true) else ({ e with waiters := e.waiters ++ [(c, .pending)] }, false)

/-- The tasks that wait are woken, unless they have been. -/
theorem set_spec {e : Event ι} (h : e.value = true → ∀ p ∈ e.waiters, p.2 ≠ .pending) :
    e.set.waiters.map Prod.fst = e.waiters.map Prod.fst
      ∧ ∀ p ∈ e.set.waiters, p.2 ≠ .pending := by
  unfold set
  split
  · rename_i hv
    exact ⟨rfl, h hv⟩
  · refine ⟨?_, fun p hp => ?_⟩
    · rw [List.map_map]
      rfl
    · obtain ⟨q, -, rfl⟩ := List.mem_map.mp hp
      exact q.2.setResult_ne_pending

variable [DecidableEq ι]

/-- The task that waits for the event runs again, `none` if its future is not done. It was
woken, or cancelled. -/
def resume (e : Event ι) (c : ι) : Option (Event ι × Bool) :=
  let e' := { e with waiters := e.waiters.remove c }
  match e.waiters.future? c with
  | none | some .pending => none
  | some .woken => some (e', true)
  | some .cancelled | some .wokenCancelled => some (e', false)

theorem exists_resume {e : Event ι} {c : ι} {w : Wake} (h : e.waiters.future? c = some w)
    (hw : w ≠ .pending) : ∃ r, e.resume c = some r := by
  unfold resume
  rw [h]
  cases w with
  | pending => exact absurd rfl hw
  | woken => exact ⟨_, rfl⟩
  | cancelled => exact ⟨_, rfl⟩
  | wokenCancelled => exact ⟨_, rfl⟩

theorem resume_spec {e : Event ι} {c : ι} {r : Event ι × Bool} (h : e.resume c = some r) :
    r.1 = { e with waiters := e.waiters.remove c }
      ∧ (r.2 = true → e.waiters.future? c = some .woken) := by
  unfold resume at h
  cases hfut : e.waiters.future? c with
  | none => rw [hfut] at h; cases h
  | some w =>
      rw [hfut] at h
      cases w with
      | pending => cases h
      | woken =>
          obtain rfl := Option.some.inj h
          exact ⟨rfl, fun _ => rfl⟩
      | cancelled =>
          obtain rfl := Option.some.inj h
          exact ⟨rfl, fun he => (by cases he)⟩
      | wokenCancelled =>
          obtain rfl := Option.some.inj h
          exact ⟨rfl, fun he => (by cases he)⟩

def cancel (e : Event ι) (c : ι) : Event ι := { e with waiters := e.waiters.cancel c }

end Event

end Asyncio

end Inmanta
