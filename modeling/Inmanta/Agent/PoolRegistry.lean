import Inmanta.Agent.ResourcePool
import Inmanta.Lib.Run
import Inmanta.Util.UncancelledLock
import Mathlib.Algebra.Order.Group.Int

/-!
# The registry of a pool

While a task creates a member it holds the lock of its id and the member
that is registered under the id, if any, does not run (`Inv.free`); so a
member that runs is never replaced, and only its own termination takes it
out of the pool. `request_shutdown` waits for all the locks, so that nobody
creates a member when it returns.
-/

namespace Inmanta

variable {ι π β τ : Type}

namespace PoolPhase

/-- The task is about to create a member, under the lock. -/
def Creates (phase : PoolPhase π τ) (memberId : π) : Prop :=
  phase = .preReplace memberId ∨ phase = .preCreateCapacityCheck memberId ∨
    phase = .createMember memberId

/-- The time of a cleanup that is going on. -/
def oldestTime? : PoolPhase π τ → Option τ
  | .cleanup t _ | .cleanupLock t _ _ | .closing t _ | .cleanupLeaving t _ => some t
  | _ => none

/-- The task creates no member, and has none to return. -/
def aside : PoolPhase π τ → Bool
  | .preReplace _ | .preCreateCapacityCheck _ | .createMember _ | .leaving (some _) => false
  | _ => true

theorem not_creates_of_aside {phase : PoolPhase π τ} (h : phase.aside = true) (memberId : π) :
    ¬ phase.Creates memberId := by
  rintro (rfl | rfl | rfl) <;> cases h

theorem not_leaving_of_aside {phase : PoolPhase π τ} (h : phase.aside = true) (m : ℕ) :
    phase ≠ .leaving (some m) := by
  rintro rfl
  cases h

end PoolPhase

namespace PoolManager

variable [AddCommGroup τ] [LinearOrder τ]

/-- What the pool, the locks and the tasks agree on. -/
structure Inv (ids : PoolIds π β) (retentionTime : τ) [DecidableEq β] (s : PoolManager ι π β τ) :
    Prop where
  locks : s.locks.Calm
  held : ∀ c i, (s.phase c).Creates i →
    s.locks.phase c = .holding (ids.getLockNameFor (ids.idToInternal i))
  pool : ∀ b m, s.pool.get? b = some m → (s.members m).id = b ∧ m < s.next
  registered : ∀ m, m < s.next → (s.members m).Running →
    s.pool.get? (s.members m).id = some m
  free : ∀ c i, (s.phase c).Creates i → ∀ m, s.pool.get? (ids.idToInternal i) = some m →
    ¬ (s.members m).Running
  running : ∀ c i, (s.phase c).Creates i → s.Running
  leaving : ∀ c m, s.phase c = .leaving (some m) → m < s.next
  returned : ∀ m ∈ s.returned, m < s.next
  oldest : ∀ c t, (s.phase c).oldestTime? = some t → t + retentionTime ≤ s.clock

variable [DecidableEq ι] [DecidableEq β] {ids : PoolIds π β} {retentionTime : τ}
  {s s' : PoolManager ι π β τ} {c : ι} {phase : PoolPhase π τ}

namespace Inv

/-- A task is somewhere else, in the locks and in what it does. -/
theorem move (h : s.Inv ids retentionTime) {locks : LockTasks ι} (hl : locks.Calm)
    (hother : ∀ d, d ≠ c → locks.phase d = s.locks.phase d)
    (hcreates : ∀ i, phase.Creates i →
      locks.phase c = .holding (ids.getLockNameFor (ids.idToInternal i)) ∧ s.Running ∧
        ∀ m, s.pool.get? (ids.idToInternal i) = some m → ¬ (s.members m).Running)
    (hleaving : ∀ m, phase = .leaving (some m) → m < s.next)
    (holdest : ∀ t, phase.oldestTime? = some t → t + retentionTime ≤ s.clock) :
    ({ s with locks }.setPhase c phase).Inv ids retentionTime := by
  have hphase : ∀ d, ({ s with locks }.setPhase c phase).phase d =
      if d = c then phase else s.phase d := fun d => Function.update_apply _ _ _ _
  refine ⟨hl, fun d i hd => ?_, h.pool, h.registered, fun d i hd => ?_, fun d i hd => ?_,
    fun d m hd => ?_, h.returned, fun d t hd => ?_⟩
  · rw [hphase] at hd
    split at hd
    · next hdc =>
      rw [hdc]
      exact (hcreates i hd).1
    · next hdc => exact (hother d hdc).trans (h.held d i hd)
  · rw [hphase] at hd
    split at hd
    · exact (hcreates i hd).2.2
    · exact h.free d i hd
  · rw [hphase] at hd
    split at hd
    · exact (hcreates i hd).2.1
    · exact h.running d i hd
  · rw [hphase] at hd
    split at hd
    · exact hleaving m hd
    · exact h.leaving d m hd
  · rw [hphase] at hd
    split at hd
    · exact holdest t hd
    · exact h.oldest d t hd

/-- A task does something else, and keeps what it holds. -/
theorem setPhase (h : s.Inv ids retentionTime)
    (hcreates : ∀ i, phase.Creates i →
      s.locks.phase c = .holding (ids.getLockNameFor (ids.idToInternal i)) ∧ s.Running ∧
        ∀ m, s.pool.get? (ids.idToInternal i) = some m → ¬ (s.members m).Running)
    (hleaving : ∀ m, phase = .leaving (some m) → m < s.next)
    (holdest : ∀ t, phase.oldestTime? = some t → t + retentionTime ≤ s.clock) :
    (s.setPhase c phase).Inv ids retentionTime :=
  h.move h.locks (fun _ _ => rfl) hcreates hleaving holdest

/-- A task that creates nothing takes a step of the locks. -/
theorem stepLocks (h : s.Inv ids retentionTime) {locks : LockTasks ι} (hl : locks.Calm)
    (hother : ∀ d, d ≠ c → locks.phase d = s.locks.phase d)
    (hcreates : ∀ i, ¬ (s.phase c).Creates i) : { s with locks }.Inv ids retentionTime := by
  have hmove : ({ s with locks }.setPhase c (s.phase c)).Inv ids retentionTime :=
    h.move hl hother (fun i hi => absurd hi (hcreates i)) (fun m => h.leaving c m)
      fun t => h.oldest c t
  rw [PoolManager.setPhase, Function.update_eq_self] at hmove
  exact hmove

omit [DecidableEq ι] in
/-- A member is used, may be cleaned up or not, or starts to shut down. -/
theorem setMember (h : s.Inv ids retentionTime) {m : ℕ} {member : PoolMember β τ}
    (hid : member.id = (s.members m).id) (hrun : member.Running → (s.members m).Running) :
    (s.setMember m member).Inv ids retentionTime := by
  have hmembers : ∀ m', ((s.setMember m member).members m').id = (s.members m').id ∧
      (((s.setMember m member).members m').Running → (s.members m').Running) := fun m' => by
    simp only [PoolManager.setMember, Function.update_apply]
    split
    · next heq =>
      subst heq
      exact ⟨hid, hrun⟩
    · exact ⟨rfl, id⟩
  refine ⟨h.locks, h.held, fun b m' hb => ?_, fun m' hm' hr => ?_, fun d i hd m' hm' hr => ?_,
    h.running, h.leaving, h.returned, h.oldest⟩
  · rw [(hmembers m').1]
    exact h.pool b m' hb
  · rw [(hmembers m').1]
    exact h.registered m' hm' ((hmembers m').2 hr)
  · exact h.free d i hd m' hm' ((hmembers m').2 hr)

/-- Two tasks do not create members with one lock. -/
theorem creates_unique (h : s.Inv ids retentionTime) {d : ι} {i j : π}
    (hi : (s.phase c).Creates i) (hj : (s.phase d).Creates j)
    (hij : ids.idToInternal i = ids.idToInternal j) : c = d := by
  have hc := h.held c i hi
  have hd := h.held d j hj
  rw [← hij] at hd
  exact h.locks.inv.safe.mutex _ c d hc hd

/-- A member is created and takes the place of one that does not run. -/
theorem register (h : s.Inv ids retentionTime) {i : π} (hc : s.phase c = .createMember i)
    {member : PoolMember β τ} (hid : member.id = ids.idToInternal i) :
    (s.register c member).Inv ids retentionTime := by
  have hcreates : (s.phase c).Creates i := by rw [hc]; exact .inr (.inr rfl)
  have hphase : ∀ d, (s.register c member).phase d =
      if d = c then .leaving (some s.next) else s.phase d := fun d => Function.update_apply _ _ _ _
  have hmembers : ∀ m, m < s.next → (s.register c member).members m = s.members m := fun m hm =>
    Function.update_of_ne hm.ne _ _
  have hnew : (s.register c member).members s.next = member := Function.update_self _ _ _
  have hpool : ∀ b, (s.register c member).pool.get? b =
      if b = member.id then some s.next else s.pool.get? b := fun b => Dict.get?_set _ _ _ _
  refine ⟨h.locks, fun d j hd => ?_, fun b m hb => ?_, fun m hm hr => ?_, fun d j hd m hm => ?_,
    fun d j hd => ?_, fun d m hd => ?_, fun m hm => Nat.lt_succ_of_lt (h.returned m hm),
    fun d t hd => ?_⟩
  · rw [hphase] at hd
    split at hd
    · obtain hd | hd | hd := hd <;> cases hd
    · exact h.held d j hd
  · rw [hpool] at hb
    split at hb
    · next heq =>
      obtain rfl := Option.some.inj hb
      rw [hnew]
      exact ⟨heq.symm, Nat.lt_succ_self _⟩
    · obtain ⟨hb, hlt⟩ := h.pool b m hb
      rw [hmembers m hlt]
      exact ⟨hb, Nat.lt_succ_of_lt hlt⟩
  · rw [hpool]
    obtain hlt | rfl := Nat.lt_succ_iff_lt_or_eq.mp hm
    · rw [hmembers m hlt] at hr ⊢
      have hreg := h.registered m hlt hr
      rw [if_neg, hreg]
      intro heq
      rw [heq, hid] at hreg
      exact h.free c i hcreates m hreg hr
    · rw [hnew, if_pos rfl]
  · rw [hphase] at hd
    split at hd
    · obtain hd | hd | hd := hd <;> cases hd
    · next hdc =>
      have hne : ids.idToInternal j ≠ member.id := fun heq =>
        hdc (h.creates_unique hd hcreates (heq.trans hid))
      rw [hpool, if_neg hne] at hm
      rw [hmembers m (h.pool _ m hm).2]
      exact h.free d j hd m hm
  · rw [hphase] at hd
    split at hd
    · obtain hd | hd | hd := hd <;> cases hd
    · exact h.running d j hd
  · rw [hphase] at hd
    split at hd
    · cases hd
      exact Nat.lt_succ_self _
    · exact Nat.lt_succ_of_lt (h.leaving d m hd)
  · rw [hphase] at hd
    split at hd
    · cases hd
    · exact h.oldest d t hd

omit [DecidableEq ι] in
/-- A member that has shut down is taken out. -/
theorem notified (h : s.Inv ids retentionTime) {m : ℕ} (hm : (s.members m).shutDown = true) :
    (s.notifyMemberShutdown m).Inv ids retentionTime := by
  unfold PoolManager.notifyMemberShutdown
  split
  · exact h
  · next registered hreg =>
    split
    · exact h
    · next heq =>
      obtain rfl := not_not.mp heq
      refine ⟨h.locks, h.held, fun b m' hb => ?_, fun m' hm' hr => ?_, fun d i hd m' hm' => ?_,
        h.running, h.leaving, h.returned, h.oldest⟩
      · rw [Dict.get?_del] at hb
        split at hb
        · cases hb
        · exact h.pool b m' hb
      · have hreg' := h.registered m' hm' hr
        rw [Dict.get?_del, if_neg, hreg']
        intro hid
        rw [hid, hreg] at hreg'
        obtain rfl := Option.some.inj hreg'
        rw [hr.2] at hm
        cases hm
      · rw [Dict.get?_del] at hm'
        split at hm'
        · cases hm'
        · exact h.free d i hd m' hm'

end Inv

/-! ## Steps -/

/-- `get` has the lock. -/
theorem Inv.getLocked (h : s.Inv ids retentionTime) {i : π}
    (hl : s.locks.phase c = .holding (ids.getLockNameFor (ids.idToInternal i))) :
    (s.getLocked c ids i).Inv ids retentionTime := by
  unfold PoolManager.getLocked
  split
  · refine h.setPhase (fun j hj => ?_) (fun m hm => by cases hm) fun t ht => by cases ht
    obtain hj | hj | hj := hj <;> cases hj
  · next hrunning =>
    split
    · next it hit =>
      obtain ⟨-, hlt⟩ := h.pool _ it hit
      split
      · have hmember : (s.setMember it { s.members it with lastUsed := s.clock }).Inv ids
            retentionTime := h.setMember rfl id
        refine hmember.setPhase (fun j hj => ?_) (fun m hm => ?_) fun t ht => by cases ht
        · obtain hj | hj | hj := hj <;> cases hj
        · cases hm
          exact hlt
      · next hdown =>
        refine h.setPhase (fun j hj => ?_) (fun m hm => by cases hm) fun t ht => by cases ht
        obtain hj | hj | hj := hj <;> cases hj
        refine ⟨hl, not_not.mp hrunning, fun m hm hr => ?_⟩
        obtain rfl := Option.some.inj (hit.symm.trans hm)
        rw [hr.1] at hdown
        exact hdown (by decide)
    · next hnone =>
      refine h.setPhase (fun j hj => ?_) (fun m hm => by cases hm) fun t ht => by cases ht
      obtain hj | hj | hj := hj <;> cases hj
      refine ⟨hl, not_not.mp hrunning, fun m hm => ?_⟩
      rw [hnone] at hm
      cases hm

/-- A task goes on with the creation of a member. -/
theorem Inv.goOn (h : s.Inv ids retentionTime) {i : π} (hc : (s.phase c).Creates i)
    (hphase : ∀ j, phase.Creates j → j = i) (hleaving : ∀ m, phase ≠ .leaving (some m))
    (holdest : phase.oldestTime? = none) : (s.setPhase c phase).Inv ids retentionTime := by
  refine h.setPhase (fun j hj => ?_) (fun m hm => absurd hm (hleaving m)) fun t ht => ?_
  · obtain rfl := hphase j hj
    exact ⟨h.held c j hc, h.running c j hc, h.free c j hc⟩
  · rw [holdest] at ht
    cases ht

/-- A task that creates nothing gets on, in the cleanup it is in if it is in one. -/
theorem Inv.setAside (h : s.Inv ids retentionTime) (haside : phase.aside = true)
    (holdest : phase.oldestTime? = none ∨ phase.oldestTime? = (s.phase c).oldestTime?) :
    (s.setPhase c phase).Inv ids retentionTime := by
  refine h.setPhase (fun j hj => absurd hj (PoolPhase.not_creates_of_aside haside j))
    (fun m hm => absurd hm (PoolPhase.not_leaving_of_aside haside m)) fun t ht => ?_
  obtain hnone | hsame := holdest
  · cases hnone.symm.trans ht
  · exact h.oldest c t (hsame.symm.trans ht)

/-- A task that creates nothing asks for a lock, or gives one back. -/
theorem Inv.lockAndMove (h : s.Inv ids retentionTime) {a : LockAction ι} {locks : LockTasks ι}
    (ha : ∀ d, a ≠ .cancel d) (hlocks : s.locks.step a = some locks) (haside : phase.aside = true)
    (holdest : phase.oldestTime? = none ∨ phase.oldestTime? = (s.phase a.task).oldestTime?) :
    ({ s with locks }.setPhase a.task phase).Inv ids retentionTime := by
  refine h.move (h.locks.step ha hlocks) (fun _ hd => LockTasks.step_phase hlocks hd)
    (fun j hj => absurd hj (PoolPhase.not_creates_of_aside haside j))
    (fun m hm => absurd hm (PoolPhase.not_leaving_of_aside haside m)) fun t ht => ?_
  obtain hnone | hsame := holdest
  · cases hnone.symm.trans ht
  · exact h.oldest _ t (hsame.symm.trans ht)

theorem Inv.step (h : s.Inv ids retentionTime) {a : PoolAction ι π β τ}
    (hs : s.step ids retentionTime a = some s') : s'.Inv ids retentionTime := by
  cases a with
  | start =>
      obtain rfl := Option.some.inj hs
      exact ⟨h.locks, h.held, h.pool, h.registered, h.free, fun _ _ _ => ⟨rfl, rfl⟩, h.leaving,
        h.returned, h.oldest⟩
  | advance now =>
      simp only [PoolManager.step, Option.ite_none_left_eq_some, Option.some.injEq] at hs
      obtain ⟨hnow, rfl⟩ := hs
      exact ⟨h.locks, h.held, h.pool, h.registered, h.free, h.running, h.leaving, h.returned,
        fun c t ht => (h.oldest c t ht).trans (not_lt.mp hnow)⟩
  | get c i =>
      simp only [PoolManager.step] at hs
      split at hs
      · obtain ⟨locks, hlocks, rfl⟩ := Option.map_eq_some_iff.mp hs
        exact h.lockAndMove (by simp) hlocks rfl (.inl rfl)
      · cases hs
  | resume c =>
      obtain ⟨locks, hlocks, rfl⟩ := Option.map_eq_some_iff.mp hs
      refine h.stepLocks (h.locks.step (by simp) hlocks)
        (fun d hd => LockTasks.step_phase hlocks hd) fun i hi => ?_
      rw [LockTasks.step, h.held c i hi] at hlocks
      cases hlocks
  | getLocked c =>
      simp only [PoolManager.step] at hs
      split at hs
      · split at hs
        · next hl =>
          obtain rfl := Option.some.inj hs
          exact h.getLocked hl
        · cases hs
      · cases hs
  | preReplaced c =>
      simp only [PoolManager.step] at hs
      split at hs
      · next i hc =>
        obtain rfl := Option.some.inj hs
        refine h.goOn (i := i) (by rw [hc]; exact .inl rfl) (fun j hj => ?_) (by simp) rfl
        obtain hj | hj | hj := hj <;> cases hj
        rfl
      · cases hs
  | capacityChecked c =>
      simp only [PoolManager.step] at hs
      split at hs
      · next i hc =>
        obtain rfl := Option.some.inj hs
        refine h.goOn (i := i) (by rw [hc]; exact .inr (.inl rfl)) (fun j hj => ?_) (by simp) rfl
        obtain hj | hj | hj := hj <;> cases hj
        rfl
      · cases hs
  | created c shuttingDown shutDown canBeCleanedUp =>
      simp only [PoolManager.step] at hs
      split at hs
      · next i hc =>
        obtain rfl := Option.some.inj hs
        exact h.register hc rfl
      · cases hs
  | fails c =>
      have hleave : (s.setPhase c (.leaving none)).Inv ids retentionTime :=
        h.setAside rfl (.inl rfl)
      simp only [PoolManager.step] at hs
      split at hs
      · obtain rfl := Option.some.inj hs
        exact hleave
      · obtain rfl := Option.some.inj hs
        exact hleave
      · obtain rfl := Option.some.inj hs
        exact hleave
      · next oldestTime members hc =>
        obtain rfl := Option.some.inj hs
        exact h.setAside rfl (.inr (congrArg PoolPhase.oldestTime? hc).symm)
      · cases hs
  | release c =>
      have hrelease : ∀ {locks}, s.locks.step (.release c) = some locks →
          (∀ i, ¬ (s.phase c).Creates i) → { s with locks }.Inv ids retentionTime :=
        fun hlocks hno => h.stepLocks (h.locks.step (by simp) hlocks)
          (fun d hd => LockTasks.step_phase hlocks hd) hno
      simp only [PoolManager.step] at hs
      split at hs
      · next m hc =>
        obtain ⟨locks, hlocks, rfl⟩ := Option.map_eq_some_iff.mp hs
        refine hrelease hlocks fun i hi => ?_
        rw [hc] at hi
        obtain hi | hi | hi := hi <;> cases hi
      · next oldestTime members hc =>
        obtain ⟨locks, hlocks, rfl⟩ := Option.map_eq_some_iff.mp hs
        exact hrelease hlocks fun i => hc ▸ PoolPhase.not_creates_of_aside rfl i
      · cases hs
  | released c =>
      have hidle : (s.setPhase c .idle).Inv ids retentionTime :=
        h.setAside rfl (.inl rfl)
      simp only [PoolManager.step] at hs
      split at hs
      · split at hs
        · next m hc =>
          obtain rfl := Option.some.inj hs
          refine ⟨hidle.locks, hidle.held, hidle.pool, hidle.registered, hidle.free, hidle.running,
            hidle.leaving, fun m' hm' => ?_, hidle.oldest⟩
          obtain rfl | hm' := List.mem_cons.mp hm'
          · exact h.leaving c _ hc
          · exact h.returned m' hm'
        · obtain rfl := Option.some.inj hs
          exact hidle
        · next oldestTime members hc =>
          obtain rfl := Option.some.inj hs
          exact h.setAside rfl (.inr (congrArg PoolPhase.oldestTime? hc).symm)
        · cases hs
      · cases hs
  | requestShutdown c =>
      simp only [PoolManager.step] at hs
      split at hs
      · obtain ⟨locks, hlocks, rfl⟩ := Option.map_eq_some_iff.mp hs
        exact h.lockAndMove (by simp) hlocks rfl (.inl rfl)
      · cases hs
  | shutDown c =>
      simp only [PoolManager.step] at hs
      split at hs
      · obtain ⟨locks, hlocks, rfl⟩ := Option.map_eq_some_iff.mp hs
        -- nobody holds the lock of an id while the global lock is held
        have hexclusive : s.locks.phase c = .exclusive := by
          by_contra hne
          rw [LockTasks.step, if_neg hne] at hlocks
          cases hlocks
        have hnone : ∀ d i, ¬ (s.phase d).Creates i := fun d i hd =>
          h.locks.inv.safe.exclusive c hexclusive _ d (h.held d i hd)
        have hmove : ({ s with locks }.setPhase c .idle).Inv ids retentionTime :=
          h.lockAndMove (by simp) hlocks rfl (.inl rfl)
        refine ⟨hmove.locks, hmove.held, hmove.pool, hmove.registered, hmove.free,
          fun d i hd => ?_, hmove.leaving, hmove.returned, hmove.oldest⟩
        simp only [PoolManager.setPhase, Function.update_apply] at hd
        split at hd
        · obtain hd | hd | hd := hd <;> cases hd
        · exact absurd hd (hnone d i)
      · cases hs
  | cleanup c =>
      simp only [PoolManager.step] at hs
      split at hs
      · obtain rfl := Option.some.inj hs
        refine h.setPhase (fun i hi => absurd hi (PoolPhase.not_creates_of_aside rfl i))
          (fun m hm => by cases hm) fun t ht => ?_
        obtain rfl := Option.some.inj ht
        rw [sub_add_cancel]
      · cases hs
  | cleanupNext c =>
      simp only [PoolManager.step] at hs
      split at hs
      · obtain rfl := Option.some.inj hs
        exact h.setAside rfl (.inl rfl)
      · next oldestTime m members hc =>
        split at hs
        · obtain ⟨locks, hlocks, rfl⟩ := Option.map_eq_some_iff.mp hs
          exact h.lockAndMove (by simp) hlocks rfl (.inr (congrArg PoolPhase.oldestTime? hc).symm)
        · obtain rfl := Option.some.inj hs
          exact h.setAside rfl (.inr (congrArg PoolPhase.oldestTime? hc).symm)
      · cases hs
  | cleanupLocked c =>
      simp only [PoolManager.step] at hs
      split at hs
      · next oldestTime m members hc =>
        split at hs
        · split at hs
          · obtain rfl := Option.some.inj hs
            have hmember : (s.setMember m { s.members m with shuttingDown := true }).Inv ids
                retentionTime := h.setMember rfl fun hr => by cases hr.1
            exact hmember.setAside rfl (.inr (congrArg PoolPhase.oldestTime? hc).symm)
          · obtain rfl := Option.some.inj hs
            exact h.setAside rfl (.inr (congrArg PoolPhase.oldestTime? hc).symm)
        · cases hs
      · cases hs
  | closed c =>
      simp only [PoolManager.step] at hs
      split at hs
      · next oldestTime members hc =>
        obtain rfl := Option.some.inj hs
        exact h.setAside rfl (.inr (congrArg PoolPhase.oldestTime? hc).symm)
      · cases hs
  | memberRequestShutdown m =>
      obtain rfl := Option.some.inj hs
      exact h.setMember rfl fun hr => by cases hr.1
  | setShutdown m =>
      obtain rfl := Option.some.inj hs
      exact h.setMember rfl fun hr => by cases hr.1
  | notifyMemberShutdown m =>
      simp only [PoolManager.step, Option.ite_none_right_eq_some, Option.some.injEq] at hs
      obtain ⟨⟨-, hdown, -⟩, rfl⟩ := hs
      exact h.notified hdown
  | setCanBeCleanedUp m value =>
      obtain rfl := Option.some.inj hs
      exact h.setMember rfl id

omit [LinearOrder τ] [AddCommGroup τ] in
theorem getLocked_next (s : PoolManager ι π β τ) (c : ι) (i : π) :
    (s.getLocked c ids i).next = s.next := by
  unfold PoolManager.getLocked
  split
  · rfl
  · split
    · split <;> rfl
    · rfl

omit [LinearOrder τ] [AddCommGroup τ] [DecidableEq ι] in
theorem notifyMemberShutdown_next (s : PoolManager ι π β τ) (m : ℕ) :
    (s.notifyMemberShutdown m).next = s.next := by
  unfold PoolManager.notifyMemberShutdown
  split
  · rfl
  · split <;> rfl

/-- Members are made by `create_member` only. -/
theorem step_next {a : PoolAction ι π β τ} (hs : s.step ids retentionTime a = some s') :
    s'.next = s.next ∨ ∃ c i, s.phase c = .createMember i := by
  cases a with
  | created c shuttingDown shutDown canBeCleanedUp =>
      simp only [PoolManager.step] at hs
      split at hs
      · next i hc => exact .inr ⟨c, i, hc⟩
      · cases hs
  | getLocked c =>
      simp only [PoolManager.step] at hs
      split at hs
      · split at hs
        · obtain rfl := Option.some.inj hs
          exact .inl (getLocked_next s c _)
        · cases hs
      · cases hs
  | notifyMemberShutdown m =>
      simp only [PoolManager.step, Option.ite_none_right_eq_some, Option.some.injEq] at hs
      obtain ⟨-, rfl⟩ := hs
      exact .inl (notifyMemberShutdown_next s m)
  | _ =>
      left
      simp only [PoolManager.step] at hs
      repeat' split at hs
      all_goals first
        | (obtain rfl := Option.some.inj hs; rfl)
        | (obtain ⟨_, _, rfl⟩ := Option.map_eq_some_iff.mp hs; rfl)
        | cases hs

/-- Only `start` makes a manager run again. -/
theorem step_stopped {a : PoolAction ι π β τ} (ha : a ≠ .start) (hstop : ¬ s.Running)
    (hs : s.step ids retentionTime a = some s') : ¬ s'.Running := by
  have hlocked : ∀ c i, ¬ (s.getLocked c ids i).Running := fun c i => by
    unfold PoolManager.getLocked
    rw [if_pos hstop]
    exact hstop
  have hnotified : ∀ m, ¬ (s.notifyMemberShutdown m).Running := fun m => by
    unfold PoolManager.notifyMemberShutdown
    split
    · exact hstop
    · split <;> exact hstop
  cases a with
  | start => exact absurd rfl ha
  | getLocked c =>
      simp only [PoolManager.step] at hs
      split at hs
      · split at hs
        · obtain rfl := Option.some.inj hs
          exact hlocked c _
        · cases hs
      · cases hs
  | notifyMemberShutdown m =>
      simp only [PoolManager.step, Option.ite_none_right_eq_some, Option.some.injEq] at hs
      obtain ⟨-, rfl⟩ := hs
      exact hnotified m
  | shutDown c =>
      simp only [PoolManager.step] at hs
      split at hs
      · obtain ⟨_, _, rfl⟩ := Option.map_eq_some_iff.mp hs
        exact fun h => by cases h.1
      · cases hs
  | _ =>
      simp only [PoolManager.step] at hs
      repeat' split at hs
      all_goals first
        | (obtain rfl := Option.some.inj hs; exact hstop)
        | (obtain ⟨_, _, rfl⟩ := Option.map_eq_some_iff.mp hs; exact hstop)
        | cases hs

/-- What holds of the registry at every await point. -/
structure Safe (s : PoolManager ι π β τ) : Prop where
  one : ∀ m m', m ∈ s.pool.values → m' ∈ s.pool.values → (s.members m).id = (s.members m').id →
    m = m'
  stays : ∀ m ∈ s.returned, (s.members m).Running → s.pool.get? (s.members m).id = some m

/-- What a step does to the registry. -/
structure SafeStep (retentionTime : τ) (s : PoolManager ι π β τ) (a : PoolAction ι π β τ)
    (s' : PoolManager ι π β τ) : Prop where
  stale : ∀ m, a = .notifyMemberShutdown m → ∀ b m', s.pool.get? b = some m' → m' ≠ m →
    s'.pool.get? b = some m'
  valid : ∀ c m, a = .getLocked c → s'.phase c = .leaving (some m) →
    m ∈ s.pool.values ∧ (s.members m).shuttingDown = false
  stopped : ∀ c, a = .shutDown c → ¬ s'.Running
  cleanup : ∀ c m, a = .cleanupLocked c → (s.members m).shuttingDown = false →
    (s'.members m).shuttingDown = true →
    (s.members m).canBeCleanedUp = true ∧ retentionTime < s.clock - (s.members m).lastUsed ∧
      (s.members m).Running

omit [DecidableEq ι] in
theorem Inv.safe (h : s.Inv ids retentionTime) : s.Safe where
  one := fun m m' hm hm' hid => by
    obtain ⟨b, hb⟩ := Dict.mem_values.mp hm
    obtain ⟨b', hb'⟩ := Dict.mem_values.mp hm'
    rw [(h.pool b m hb).1, (h.pool b' m' hb').1] at hid
    subst hid
    exact Option.some.inj (hb.symm.trans hb')
  stays := fun m hm hr => h.registered m (h.returned m hm) hr

theorem Inv.safeStep [IsOrderedAddMonoid τ] (h : s.Inv ids retentionTime)
    {a : PoolAction ι π β τ} (hs : s.step ids retentionTime a = some s') :
    s.SafeStep retentionTime a s' where
  stale := by
    rintro m rfl b m' hb hne
    simp only [PoolManager.step, Option.ite_none_right_eq_some, Option.some.injEq] at hs
    obtain ⟨-, rfl⟩ := hs
    unfold PoolManager.notifyMemberShutdown
    split
    · exact hb
    · next registered hreg =>
      split
      · exact hb
      · next heq =>
        obtain rfl := not_not.mp heq
        rw [Dict.get?_del, if_neg, hb]
        rintro rfl
        exact hne (Option.some.inj (hb.symm.trans hreg))
  valid := by
    rintro c m rfl hm
    simp only [PoolManager.step] at hs
    split at hs
    · next i _ =>
      split at hs
      · obtain rfl := Option.some.inj hs
        unfold PoolManager.getLocked at hm
        have hphase : ∀ {s₁ : PoolManager ι π β τ} {phase : PoolPhase π τ},
            (s₁.setPhase c phase).phase c = phase := Function.update_self _ _ _
        split at hm
        · rw [hphase] at hm
          cases hm
        · split at hm
          · next it hit =>
            split at hm
            · next hdown =>
              rw [hphase] at hm
              cases hm
              exact ⟨Dict.mem_values.mpr ⟨_, hit⟩, Bool.not_eq_true _ ▸ hdown⟩
            · rw [hphase] at hm
              cases hm
          · rw [hphase] at hm
            cases hm
      · cases hs
    · cases hs
  stopped := by
    rintro c rfl
    simp only [PoolManager.step] at hs
    split at hs
    · obtain ⟨_, _, rfl⟩ := Option.map_eq_some_iff.mp hs
      exact fun h => by cases h.1
    · cases hs
  cleanup := by
    rintro c m rfl hup hdown
    simp only [PoolManager.step] at hs
    split at hs
    · next oldestTime m' members hc =>
      split at hs
      · split at hs
        · next hexpired =>
          obtain rfl := Option.some.inj hs
          simp only [PoolManager.setPhase, PoolManager.setMember, Function.update_apply] at hdown
          split at hdown
          · next heq =>
            subst heq
            obtain ⟨hclean, hlast, hrun⟩ := hexpired
            refine ⟨hclean, ?_, hrun⟩
            have hold : oldestTime + retentionTime ≤ s.clock := h.oldest c _ (by rw [hc]; rfl)
            have hlt := add_lt_add_of_le_of_lt (le_refl retentionTime) hlast
            rw [lt_sub_iff_add_lt]
            exact hlt.trans_le (by rwa [add_comm])
          · rw [hup] at hdown
            cases hdown
        · obtain rfl := Option.some.inj hs
          rw [show (s.setPhase c (.cleanupLeaving oldestTime members)).members m = s.members m
            from rfl, hup] at hdown
          cases hdown
      · cases hs
    · cases hs

omit [DecidableEq ι] in
theorem Inv.init (blank : PoolMember β τ) (clock : τ) :
    (init blank clock : PoolManager ι π β τ).Inv ids retentionTime := by
  have hidle : ∀ i, ¬ (PoolPhase.idle : PoolPhase π τ).Creates i := fun i =>
    PoolPhase.not_creates_of_aside rfl i
  exact ⟨.init, fun _ i hc => absurd hc (hidle i), fun _ _ hb => (by cases hb),
    fun m hm => absurd hm (Nat.not_lt_zero m), fun _ i hc => absurd hc (hidle i),
    fun _ i hc => absurd hc (hidle i), fun _ _ hc => (by cases hc), fun _ hm => (by cases hm),
    fun _ _ ht => (by cases ht)⟩

/-- **The registry of a pool is safe.** In every state of every run the members
that are registered have different ids and a member that was returned and runs is
registered; a step keeps what `SafeStep` says; and nobody creates a member between
the end of a shutdown and the next start. -/
theorem registry_safe [IsOrderedAddMonoid τ] (ids : PoolIds π β) (retentionTime : τ)
    (blank : PoolMember β τ) (clock : τ) {as : List (PoolAction ι π β τ)}
    {r : PoolManager ι π β τ}
    (hrun : run (step ids retentionTime) (PoolManager.init blank clock) as = some r) :
    r.Safe ∧ (∀ a r', r.step ids retentionTime a = some r' → r.SafeStep retentionTime a r') ∧
      ∀ bs r', ¬ r.Running → Along (step ids retentionTime) (fun _ b => b ≠ .start) r bs →
        run (step ids retentionTime) r bs = some r' → r'.next = r.next := by
  have hany : Along (step ids retentionTime) (fun _ _ => True) (PoolManager.init blank clock) as :=
    along_of_forall (fun _ _ => trivial) _ _
  have h : r.Inv ids retentionTime :=
    run_invariant (fun _ _ _ h _ hs => h.step hs) (Inv.init blank clock) hany hrun
  refine ⟨h.safe, fun a r' hs => h.safeStep hs, fun bs r' hstop hbs hrun' => ?_⟩
  have hinv := run_invariant
    (I := fun s : PoolManager ι π β τ =>
      s.Inv ids retentionTime ∧ ¬ s.Running ∧ s.next = r.next)
    (fun s a s' ⟨hi, hstop, hnext⟩ ha hs => ⟨hi.step hs, step_stopped ha hstop hs, by
      obtain hsame | ⟨c, i, hc⟩ := step_next hs
      · rw [hsame, hnext]
      · exact absurd (hi.running c i (by rw [hc]; exact .inr (.inr rfl))) hstop⟩)
    ⟨h, hstop, rfl⟩ hbs hrun'
  exact hinv.2.2

/-- A member is cleaned up while it is asked for again; the pool shuts down with
its replacement. -/
def replaceMember : List (PoolAction (Fin 2) String String ℤ) :=
  [.get 0 "a", .getLocked 0, .capacityChecked 0, .created 0 false false true, .release 0,
    .released 0, .advance 100, .cleanup 1, .cleanupNext 1, .cleanupLocked 1, .get 0 "a",
    .closed 1, .release 1, .released 1, .resume 0, .getLocked 0, .preReplaced 0,
    .capacityChecked 0, .setShutdown 0, .created 0 false false true, .release 0, .released 0,
    .notifyMemberShutdown 0, .requestShutdown 0, .shutDown 0]

theorem registry_safe_replaceMember : ∃ r,
    run (step ⟨id, id⟩ 60) (PoolManager.init ⟨"", 0, false, false, false, false⟩ 0) replaceMember =
      some r ∧ r.returned = [1, 0] ∧ r.Safe := by
  obtain ⟨r, hr, hreturned⟩ : ∃ r, run (step ⟨id, id⟩ 60)
      (PoolManager.init ⟨"", 0, false, false, false, false⟩ 0) replaceMember = some r ∧
        r.returned = [1, 0] :=
    exists_run_of_any _ _ _ (by decide +kernel)
  exact ⟨r, hr, hreturned, (registry_safe _ _ _ _ hr).1⟩

end PoolManager

end Inmanta
