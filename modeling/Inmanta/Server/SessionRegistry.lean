import Inmanta.Lib.Dict
import Inmanta.Lib.Run
import Mathlib.Logic.Function.Basic

/-!
# The session registry of the server

The server has one registered session for each environment and name. A
connection that opens a session evicts an older one with the same key:
`register_session` takes it out of the registry, closes its connection,
tells the listeners, and only then stores the new session. A connection
that is closed or lost takes its own session out, in
`notify_close_session`. `SessionRegistry.step` interleaves these calls at
the points where they wait: for a message to be written, or for a listener.

Nothing is looked at again when the eviction is over, and a listener that
is slow to learn of an opening does not hold up the closing.
`registry_exact` says that the registry is exact when neither matters, and
`registry_not_exact` what happens otherwise.
-/

namespace Inmanta

/-- Where a `register_session` waits, with the listeners that its loop has
still to tell. -/
inductive RegisterPhase (ι ℓ : Type) where
  /-- There is none for the session, or it has returned. -/
  | idle
  | begun
  /-- The `CloseSession` message is written to an older session. -/
  | writing (old : ι)
  | tellingClosed (old : ι) (rest : List ℓ)
  | tellingOpened (rest : List ℓ)
  deriving DecidableEq

namespace RegisterPhase

variable {ι ℓ : Type}

/-- The older session that is evicted. -/
def evicts : RegisterPhase ι ℓ → Option ι
  | .writing old | .tellingClosed old _ => some old
  | _ => none

/-- The session has been stored in the registry. -/
def Stored : RegisterPhase ι ℓ → Prop
  | .idle | .tellingOpened _ => True
  | _ => False

/-- The listeners that are still to be told that the session is opened. -/
def restOpened : RegisterPhase ι ℓ → List ℓ
  | .tellingOpened rest => rest
  | _ => []

end RegisterPhase

inductive ListenerCall (ι ℓ : Type) where
  | opened (listener : ℓ) (session : ι)
  | closed (listener : ℓ) (session : ι)
  deriving DecidableEq

structure SessionRegistry (ι κ ℓ : Type) where
  sessions : Dict κ ι
  /-- The sessions that `register_session` has been called for. -/
  opened : List ι
  closed : List ι
  phase : ι → RegisterPhase ι ℓ
  /-- The `notify_close_session` calls that wait, with the listeners that are
  still to be told. -/
  closing : ι → Option (List ℓ)
  /-- What the listeners have been told, the last call first. -/
  told : List (ListenerCall ι ℓ)

inductive RegistryAction (ι : Type) where
  | openSession (session : ι)
  | resume (session : ι)
  /-- The connection of the session is lost, or it is closed gracefully. -/
  | closeSession (session : ι)
  | resumeClosing (session : ι)

namespace SessionRegistry

variable {ι κ ℓ : Type} [DecidableEq ι] [DecidableEq κ] (key : ι → κ) (listeners : List ℓ)

def init : SessionRegistry ι κ ℓ := ⟨.empty, [], [], fun _ => .idle, fun _ => none, []⟩

/-- The loop of `_notify_session_opened` goes on. -/
def tellOpened (s : SessionRegistry ι κ ℓ) (x : ι) : SessionRegistry ι κ ℓ :=
  match s.phase x with
  | .tellingOpened (l :: rest) => { s with
      told := .opened l x :: s.told
      phase := Function.update s.phase x (.tellingOpened rest) }
  | .tellingOpened [] => { s with phase := Function.update s.phase x .idle }
  | _ => s

def store (s : SessionRegistry ι κ ℓ) (x : ι) : SessionRegistry ι κ ℓ :=
  tellOpened { s with
    sessions := s.sessions.set (key x) x
    phase := Function.update s.phase x (.tellingOpened listeners) } x

/-- The loop of `_notify_session_closed` goes on in a `notify_close_session`. -/
def tellClosing (s : SessionRegistry ι κ ℓ) (x : ι) : SessionRegistry ι κ ℓ :=
  match s.closing x with
  | some (l :: rest) => { s with
      told := .closed l x :: s.told
      closing := Function.update s.closing x (some rest) }
  | some [] => { s with closing := Function.update s.closing x none }
  | none => s

def notifyCloseSession (s : SessionRegistry ι κ ℓ) (x : ι) : SessionRegistry ι κ ℓ :=
  if s.sessions.get? (key x) = some x then
    tellClosing { s with
      sessions := s.sessions.del (key x)
      closing := Function.update s.closing x (some listeners) } x
  else s

def closeSession (s : SessionRegistry ι κ ℓ) (x : ι) : SessionRegistry ι κ ℓ :=
  if x ∈ s.closed then s
  else notifyCloseSession key listeners { s with closed := x :: s.closed } x

/-- The loop of `_notify_session_closed` goes on for the evicted session, and then
the new session is stored. -/
def tellEvicted (s : SessionRegistry ι κ ℓ) (x : ι) : SessionRegistry ι κ ℓ :=
  match s.phase x with
  | .tellingClosed old (l :: rest) => { s with
      told := .closed l old :: s.told
      phase := Function.update s.phase x (.tellingClosed old rest) }
  | .tellingClosed _ [] => s.store key listeners x
  | _ => s

/-- After the message has been written to the older session, or failed to be. -/
def closeOld (s : SessionRegistry ι κ ℓ) (x old : ι) : SessionRegistry ι κ ℓ :=
  let s := s.closeSession key listeners old
  tellEvicted key listeners
    { s with phase := Function.update s.phase x (.tellingClosed old listeners) } x

def registerSession (s : SessionRegistry ι κ ℓ) (x : ι) : SessionRegistry ι κ ℓ :=
  match s.sessions.get? (key x) with
  | some old =>
      let s := { s with
        sessions := s.sessions.del (key x)
        phase := Function.update s.phase x (.writing old) }
      if old ∈ s.closed then s.closeOld key listeners x old else s
  | none => s.store key listeners x

def step (s : SessionRegistry ι κ ℓ) : RegistryAction ι → Option (SessionRegistry ι κ ℓ)
  | .openSession x =>
      if x ∈ s.opened then none
      else some (registerSession key listeners { s with
        opened := x :: s.opened
        phase := Function.update s.phase x .begun } x)
  | .resume x =>
      match s.phase x with
      | .idle | .begun => none
      | .writing old => some (s.closeOld key listeners x old)
      | .tellingClosed _ _ => some (s.tellEvicted key listeners x)
      | .tellingOpened _ => some (s.tellOpened x)
  | .closeSession x => if x ∈ s.opened then some (s.closeSession key listeners x) else none
  | .resumeClosing x => if s.closing x = none then none else some (s.tellClosing x)

/-- The telling of a closing does not overtake that of the opening. -/
def NotAhead (s : SessionRegistry ι κ ℓ) (l : ℓ) (x : ι) : Prop :=
  ∀ rest, s.phase x = .tellingOpened rest → l ∉ rest

def Stored (s : SessionRegistry ι κ ℓ) (x : ι) : Prop := x ∈ s.opened ∧ (s.phase x).Stored

/-- Nothing is told closed before it is told opened. -/
def InOrder : List (ListenerCall ι ℓ) → Prop
  | [] => True
  | .closed l x :: told => .opened l x ∈ told ∧ InOrder told
  | .opened _ _ :: told => InOrder told

structure Inv (s : SessionRegistry ι κ ℓ) : Prop where
  registered : ∀ k x, s.sessions.get? k = some x → key x = k ∧ s.Stored x ∧ x ∉ s.closed
  storedOpen : ∀ x, s.Stored x → x ∉ s.closed →
    s.sessions.get? (key x) = some x ∨ ∃ z, s.phase z = .writing x
  evicted : ∀ z x, (s.phase z).evicts = some x →
    s.Stored x ∧ (∀ k, s.sessions.get? k ≠ some x) ∧ s.closing x = none
  evictedOnce : ∀ z z' x, (s.phase z).evicts = some x → (s.phase z').evicts = some x → z = z'
  evictedClosed : ∀ z x rest, s.phase z = .tellingClosed x rest → x ∈ s.closed
  closing : ∀ x rest, s.closing x = some rest → s.Stored x ∧ x ∈ s.closed
  active : ∀ x, s.phase x ≠ .idle → x ∈ s.opened
  closed : ∀ x ∈ s.closed, x ∈ s.opened
  toldOpened : ∀ l x, .opened l x ∈ s.told ↔ l ∈ listeners ∧ s.Stored x ∧ s.NotAhead l x
  toldClosed : ∀ l x, .closed l x ∈ s.told ↔ l ∈ listeners ∧ s.Stored x ∧ x ∈ s.closed
    ∧ (∀ z, s.phase z ≠ .writing x) ∧ (∀ z rest, s.phase z = .tellingClosed x rest → l ∉ rest)
    ∧ ∀ rest, s.closing x = some rest → l ∉ rest
  rest : ∀ x, (∀ rest, s.phase x = .tellingOpened rest → rest.Sublist listeners)
    ∧ (∀ old rest, s.phase x = .tellingClosed old rest → rest.Sublist listeners)
    ∧ ∀ rest, s.closing x = some rest → rest.Sublist listeners
  nodup : s.told.Nodup
  inOrder : InOrder s.told

variable {key listeners} {s s' : SessionRegistry ι κ ℓ} {x y z : ι}

omit [DecidableEq κ] in
/-- A call that waits somewhere else has stored its session, or not, as before. -/
theorem stored_congr {p : RegisterPhase ι ℓ} (hopened : s'.opened = s.opened)
    (hphase : s'.phase = Function.update s.phase x p) (h : p.Stored ↔ (s.phase x).Stored) (z : ι) :
    s'.Stored z ↔ s.Stored z := by
  rw [Stored, Stored, hopened, hphase, Function.update_apply]
  by_cases hz : z = x
  · rw [if_pos hz, h, hz]
  · rw [if_neg hz]

omit [DecidableEq κ] in
theorem closing_self_iff {rest rest' : List ℓ} :
    Function.update s.closing x (some rest) x = some rest' ↔ rest = rest' := by
  rw [Function.update_self, Option.some.injEq]

omit [DecidableEq κ] in
theorem phase_self_iff {p q : RegisterPhase ι ℓ} :
    Function.update s.phase x p x = q ↔ p = q := by
  rw [Function.update_self]

omit [DecidableEq κ] in
theorem phase_eq_iff {p q : RegisterPhase ι ℓ} (hp : p ≠ q) (hx : s.phase x ≠ q) (z : ι) :
    Function.update s.phase x p z = q ↔ s.phase z = q := by
  rw [Function.update_apply]
  split
  next hz => exact iff_of_false hp (hz ▸ hx)
  · rfl

omit [DecidableEq κ] in
theorem evicts_congr {p : RegisterPhase ι ℓ} (h : p.evicts = (s.phase x).evicts) (z : ι) :
    (Function.update s.phase x p z).evicts = (s.phase z).evicts := by
  rw [Function.update_apply]
  split
  next hz => rw [h, hz]
  · rfl

/-- An older session is taken out of the registry, to be closed. -/
theorem Inv.evict (h : s.Inv key listeners) (hx : s.phase x = .begun)
    (hy : s.sessions.get? (key x) = some y) :
    Inv key listeners { s with
      sessions := s.sessions.del (key x)
      phase := Function.update s.phase x (.writing y) } := by
  have hst : ∀ z, Stored { s with
      sessions := s.sessions.del (key x)
      phase := Function.update s.phase x (.writing y) } z ↔ s.Stored z :=
    stored_congr rfl rfl (by rw [hx]; exact .rfl)
  obtain ⟨hkey, hys, hopen⟩ := h.registered _ _ hy
  have hnone : s.closing y = none :=
    Option.eq_none_iff_forall_ne_some.mpr fun rest hr => hopen (h.closing y rest hr).2
  have hevicted : ∀ z, (s.phase z).evicts ≠ some y := fun z hz => (h.evicted z y hz).2.1 _ hy
  have hopening : ∀ z rest, Function.update s.phase x (.writing y) z = .tellingOpened rest ↔
      s.phase z = .tellingOpened rest := fun z rest => phase_eq_iff (by simp) (by simp [hx]) z
  have htelling : ∀ z old rest, Function.update s.phase x (.writing y) z
      = .tellingClosed old rest ↔ s.phase z = .tellingClosed old rest :=
    fun z old rest => phase_eq_iff (by simp) (by simp [hx]) z
  have hdel : ∀ k z, (s.sessions.del (key x)).get? k = some z →
      k ≠ key x ∧ s.sessions.get? k = some z := by
    intro k z hz
    rw [Dict.get?_del] at hz
    split at hz
    · cases hz
    next hk => exact ⟨hk, hz⟩
  -- what is evicted now is `y`, or was evicted before
  have hevicts : ∀ w z, (Function.update s.phase x (.writing y) w).evicts = some z →
      w = x ∧ z = y ∨ w ≠ x ∧ (s.phase w).evicts = some z := by
    intro w z hw
    by_cases hwx : w = x
    · subst hwx
      rw [Function.update_self] at hw
      exact .inl ⟨rfl, (Option.some.inj hw).symm⟩
    · rw [Function.update_of_ne hwx] at hw
      exact .inr ⟨hwx, hw⟩
  exact
    { h with
      registered := by
        intro k z hz
        obtain ⟨hk, hz, hzo⟩ := h.registered k z (hdel k z hz).2
        exact ⟨hk, (hst z).mpr hz, hzo⟩
      storedOpen := by
        intro z hz hzo
        obtain hreg | ⟨w, hw⟩ := h.storedOpen z ((hst z).mp hz) hzo
        · by_cases hk : key z = key x
          · rw [hk, hy] at hreg
            obtain rfl := Option.some.inj hreg
            exact .inr ⟨x, Function.update_self ..⟩
          · refine .inl ?_
            rw [Dict.get?_del, if_neg hk]
            exact hreg
        · refine .inr ⟨w, (Function.update_of_ne ?_ ..).trans hw⟩
          rintro rfl
          cases hx.symm.trans hw
      evicted := by
        intro w z hw
        obtain ⟨-, rfl⟩ | ⟨-, hw⟩ := hevicts w z hw
        · refine ⟨(hst z).mpr hys, fun k hz => ?_, hnone⟩
          obtain ⟨hk, hz⟩ := hdel k z hz
          exact hk ((h.registered k z hz).1.symm.trans hkey)
        · obtain ⟨hz, hno, hlost⟩ := h.evicted w z hw
          exact ⟨(hst z).mpr hz, fun k hk => hno k (hdel k z hk).2, hlost⟩
      evictedOnce := by
        intro w w' z hw hw'
        obtain ⟨rfl, rfl⟩ | ⟨-, hold⟩ := hevicts w z hw
        · obtain ⟨rfl, -⟩ | ⟨-, hold'⟩ := hevicts w' z hw'
          · rfl
          · exact absurd hold' (hevicted w')
        · obtain ⟨-, rfl⟩ | ⟨-, hold'⟩ := hevicts w' z hw'
          · exact absurd hold (hevicted w)
          · exact h.evictedOnce w w' z hold hold'
      evictedClosed := by simpa only [htelling] using h.evictedClosed
      closing := by simpa only [hst] using h.closing
      active := by
        intro z hz
        by_cases hzx : z = x
        · exact hzx ▸ h.active x (by simp [hx])
        · exact h.active z fun hidle => hz ((Function.update_of_ne hzx ..).trans hidle)
      toldOpened := by simpa only [hst, NotAhead, hopening] using h.toldOpened
      toldClosed := by
        intro l z
        rw [h.toldClosed l z]
        by_cases hzy : z = y
        · subst hzy
          exact iff_of_false (fun htold => hopen htold.2.2.1) fun htold => hopen htold.2.2.1
        · have hwriting : ∀ w, Function.update s.phase x (.writing y) w = .writing z ↔
              s.phase w = .writing z :=
            fun w => phase_eq_iff (by simp [Ne.symm hzy]) (by simp [hx]) w
          simp only [hst, ne_eq, hwriting, htelling]
      rest := by simpa only [hopening, htelling] using h.rest }

omit [DecidableEq ι] in
/-- A session is closed that is not registered. -/
theorem Inv.mark (h : s.Inv key listeners) (hy : y ∈ s.opened) (hc : y ∉ s.closed)
    (hno : s.sessions.get? (key y) ≠ some y) :
    Inv key listeners { s with closed := y :: s.closed } := by
  exact
    { h with
      registered := by
        intro k x hx
        obtain ⟨hk, hst, hopen⟩ := h.registered k x hx
        refine ⟨hk, hst, fun hm => ?_⟩
        obtain rfl | hm := List.mem_cons.mp hm
        · exact hno (hk ▸ hx)
        · exact hopen hm
      storedOpen := fun x hx hm =>
        h.storedOpen x hx fun hclosed => hm (List.mem_cons_of_mem _ hclosed)
      evictedClosed := fun z x rest hz => List.mem_cons_of_mem _ (h.evictedClosed z x rest hz)
      closing := fun x rest hx => (h.closing x rest hx).imp_right (List.mem_cons_of_mem _)
      closed := List.forall_mem_cons.mpr ⟨hy, h.closed⟩
      toldClosed := by
        intro l x
        refine (h.toldClosed l x).trans ?_
        by_cases hx : x = y
        · subst hx
          -- it is not told yet, as it is not stored or is being evicted
          refine iff_of_false (fun htold => hc htold.2.2.1) ?_
          rintro ⟨-, hst, -, hwriting, -⟩
          obtain hreg | ⟨z, hz⟩ := h.storedOpen x hst hc
          · exact hno hreg
          · exact hwriting z hz
        · simp only [List.mem_cons, hx, false_or]
          exact .rfl }

/-- A registered session is closed. -/
theorem Inv.unregister (h : s.Inv key listeners) (hy : s.sessions.get? (key y) = some y) :
    Inv key listeners { s with
      closed := y :: s.closed
      sessions := s.sessions.del (key y)
      closing := Function.update s.closing y (some listeners) } := by
  obtain ⟨-, hys, hopen⟩ := h.registered _ _ hy
  have hevicted : ∀ z x, (s.phase z).evicts = some x → x ≠ y := by
    rintro z x hz rfl
    exact (h.evicted z x hz).2.1 _ hy
  exact
    { h with
      registered := by
        intro k x hx
        rw [Dict.get?_del] at hx
        split at hx
        · cases hx
        next hk =>
          obtain ⟨rfl, hst, hxo⟩ := h.registered k x hx
          refine ⟨rfl, hst, fun hm => ?_⟩
          obtain rfl | hm := List.mem_cons.mp hm
          · exact hk rfl
          · exact hxo hm
      storedOpen := by
        intro x hx hm
        rw [List.mem_cons, not_or] at hm
        refine (h.storedOpen x hx hm.2).imp_left fun hreg => ?_
        rw [Dict.get?_del, if_neg fun hk => ?_]
        · exact hreg
        · rw [hk, hy] at hreg
          exact hm.1 (Option.some.inj hreg).symm
      evicted := by
        intro z x hz
        obtain ⟨hst, hno, hnone⟩ := h.evicted z x hz
        refine ⟨hst, fun k hk => ?_, ?_⟩
        · rw [Dict.get?_del] at hk
          split at hk
          · cases hk
          · exact hno k hk
        · exact (Function.update_of_ne (hevicted z x hz) ..).trans hnone
      evictedClosed := fun z x rest hz => List.mem_cons_of_mem _ (h.evictedClosed z x rest hz)
      closing := by
        intro x rest hx
        by_cases hxy : x = y
        · subst hxy
          exact ⟨hys, List.mem_cons_self⟩
        · exact (h.closing x rest ((Function.update_of_ne hxy ..).symm.trans hx)).imp_right
            (List.mem_cons_of_mem _)
      closed := List.forall_mem_cons.mpr ⟨hys.1, h.closed⟩
      toldClosed := by
        intro l x
        refine (h.toldClosed l x).trans ?_
        by_cases hxy : x = y
        · subst hxy
          refine iff_of_false (fun htold => hopen htold.2.2.1) ?_
          rintro ⟨hl, -, -, -, -, hrest⟩
          exact hrest _ (Function.update_self ..) hl
        · simp only [List.mem_cons, hxy, false_or, Function.update_of_ne hxy]
          exact .rfl
      rest := by
        intro x
        refine ⟨(h.rest x).1, (h.rest x).2.1, fun rest hx => ?_⟩
        by_cases hxy : x = y
        · subst hxy
          rw [← closing_self_iff.mp hx]
        · exact (h.rest x).2.2 rest ((Function.update_of_ne hxy ..).symm.trans hx) }

/-- The loop over the listeners that are told the closing begins. -/
theorem Inv.startEviction (h : s.Inv key listeners) (hx : s.phase x = .writing y)
    (hc : y ∈ s.closed) :
    Inv key listeners { s with
      phase := Function.update s.phase x (.tellingClosed y listeners) } := by
  have hst : ∀ z, Stored { s with
      phase := Function.update s.phase x (.tellingClosed y listeners) } z ↔ s.Stored z :=
    stored_congr rfl rfl (by rw [hx]; exact .rfl)
  have hevicts := evicts_congr (s := s) (x := x) (p := .tellingClosed y listeners) (by rw [hx]; rfl)
  have hopening : ∀ z rest, Function.update s.phase x (.tellingClosed y listeners) z
      = .tellingOpened rest ↔ s.phase z = .tellingOpened rest :=
    fun z rest => phase_eq_iff (by simp) (by simp [hx]) z
  exact
    { h with
      registered := by simpa only [hst] using h.registered
      storedOpen := by
        intro z hz hopen
        refine (h.storedOpen z ((hst z).mp hz) hopen).imp_right ?_
        rintro ⟨w, hw⟩
        refine ⟨w, (Function.update_of_ne ?_ ..).trans hw⟩
        rintro rfl
        exact hopen (RegisterPhase.writing.inj (hx.symm.trans hw) ▸ hc)
      evicted := by simpa only [hst, hevicts] using h.evicted
      evictedOnce := by simpa only [hevicts] using h.evictedOnce
      evictedClosed := by
        intro w z rest hw
        by_cases hwx : w = x
        · subst hwx
          exact (RegisterPhase.tellingClosed.inj (phase_self_iff.mp hw)).1 ▸ hc
        · exact h.evictedClosed w z rest ((Function.update_of_ne hwx ..).symm.trans hw)
      closing := by simpa only [hst] using h.closing
      active := by
        intro z hz
        by_cases hzx : z = x
        · exact hzx ▸ h.active x (by simp [hx])
        · exact h.active z fun hidle => hz ((Function.update_of_ne hzx ..).trans hidle)
      toldOpened := by simpa only [hst, NotAhead, hopening] using h.toldOpened
      toldClosed := by
        intro l z
        rw [h.toldClosed l z]
        by_cases hzy : z = y
        · subst hzy
          refine iff_of_false (fun htold => htold.2.2.2.1 x hx) ?_
          rintro ⟨hl, -, -, -, htelling, -⟩
          exact htelling x _ (Function.update_self ..) hl
        · have hwriting : ∀ w, Function.update s.phase x (.tellingClosed y listeners) w
              = .writing z ↔ s.phase w = .writing z :=
            fun w => phase_eq_iff (by simp) (by simp [hx, Ne.symm hzy]) w
          have htelling : ∀ w rest, Function.update s.phase x (.tellingClosed y listeners) w
              = .tellingClosed z rest ↔ s.phase w = .tellingClosed z rest :=
            fun w rest => phase_eq_iff (by simp [Ne.symm hzy]) (by simp [hx]) w
          simp only [hst, ne_eq, hwriting, htelling]
      rest := by
        intro z
        refine ⟨by simpa only [hopening] using (h.rest z).1, fun old rest hz => ?_, (h.rest z).2.2⟩
        by_cases hzx : z = x
        · subst hzx
          rw [← (RegisterPhase.tellingClosed.inj (phase_self_iff.mp hz)).2]
        · exact (h.rest z).2.1 old rest ((Function.update_of_ne hzx ..).symm.trans hz) }

/-- The session is stored, where no other one is. -/
theorem Inv.register (h : s.Inv key listeners)
    (hx : s.phase x = .begun ∨ ∃ old, s.phase x = .tellingClosed old []) (hc : x ∉ s.closed)
    (hfree : key x ∉ s.sessions) :
    Inv key listeners { s with
      sessions := s.sessions.set (key x) x
      phase := Function.update s.phase x (.tellingOpened listeners) } := by
  have hns : ¬ s.Stored x := by
    rintro ⟨-, hs⟩
    rcases hx with hx | ⟨old, hx⟩ <;> rw [hx] at hs <;> exact hs
  have hxo : x ∈ s.opened := h.active x (by rcases hx with hx | ⟨old, hx⟩ <;> simp [hx])
  have hst : ∀ z, z ≠ x → (Stored { s with
      sessions := s.sessions.set (key x) x
      phase := Function.update s.phase x (.tellingOpened listeners) } z ↔ s.Stored z) := by
    intro z hz
    simp only [Stored, Function.update_of_ne hz]
  have hstx : Stored { s with
      sessions := s.sessions.set (key x) x
      phase := Function.update s.phase x (.tellingOpened listeners) } x := by
    refine ⟨hxo, ?_⟩
    simp only [Function.update_self]
    trivial
  have hne : ∀ z, s.Stored z → z ≠ x := by
    rintro z hz rfl
    exact hns hz
  have hfree := Dict.not_mem_iff.mp hfree
  have hwriting : ∀ w z, Function.update s.phase x (.tellingOpened listeners) w = .writing z ↔
      s.phase w = .writing z := fun w z =>
    phase_eq_iff (by simp) (by rcases hx with hx | ⟨old, hx⟩ <;> simp [hx]) w
  have hevicts : ∀ w z, (Function.update s.phase x (.tellingOpened listeners) w).evicts = some z →
      (s.phase w).evicts = some z := by
    intro w z hw
    rw [Function.update_apply] at hw
    split at hw
    · cases hw
    · exact hw
  have htelling : ∀ w z rest, Function.update s.phase x (.tellingOpened listeners) w
      = .tellingClosed z rest → s.phase w = .tellingClosed z rest := by
    intro w z rest hw
    rw [Function.update_apply] at hw
    split at hw
    · cases hw
    · exact hw
  exact
    { h with
      registered := by
        intro k z hz
        rw [Dict.get?_set] at hz
        split at hz
        next hk =>
          obtain rfl := Option.some.inj hz
          exact ⟨hk.symm, hstx, hc⟩
        · obtain ⟨hk, hz, hzo⟩ := h.registered k z hz
          exact ⟨hk, (hst z (hne z hz)).mpr hz, hzo⟩
      storedOpen := by
        intro z hz hzo
        rw [Dict.get?_set]
        by_cases hzx : z = x
        · subst hzx
          exact .inl (if_pos rfl)
        · obtain hreg | ⟨w, hw⟩ := h.storedOpen z ((hst z hzx).mp hz) hzo
          · refine .inl ((if_neg fun hk => ?_).trans hreg)
            rw [hk, hfree] at hreg
            cases hreg
          · exact .inr ⟨w, (hwriting w z).mpr hw⟩
      evicted := by
        intro w z hw
        obtain ⟨hz, hno, hlost⟩ := h.evicted w z (hevicts w z hw)
        refine ⟨(hst z (hne z hz)).mpr hz, fun k hk => ?_, hlost⟩
        rw [Dict.get?_set] at hk
        split at hk
        · exact hne z hz (Option.some.inj hk).symm
        · exact hno k hk
      evictedOnce := fun w w' z hw hw' => h.evictedOnce w w' z (hevicts w z hw) (hevicts w' z hw')
      evictedClosed := fun w z rest hw => h.evictedClosed w z rest (htelling w z rest hw)
      closing := by
        intro z rest hz
        obtain ⟨hz, hzc⟩ := h.closing z rest hz
        exact ⟨(hst z (hne z hz)).mpr hz, hzc⟩
      active := by
        intro z hz
        by_cases hzx : z = x
        · exact hzx ▸ hxo
        · exact h.active z fun hidle => hz ((Function.update_of_ne hzx ..).trans hidle)
      toldOpened := by
        intro l z
        rw [h.toldOpened l z]
        by_cases hzx : z = x
        · subst hzx
          refine iff_of_false (fun htold => hns htold.2.1) ?_
          rintro ⟨hl, -, hahead⟩
          exact hahead _ (Function.update_self ..) hl
        · simp only [hst z hzx, NotAhead, Function.update_of_ne hzx]
      toldClosed := by
        intro l z
        rw [h.toldClosed l z]
        by_cases hzx : z = x
        · subst hzx
          exact iff_of_false (fun htold => hc htold.2.2.1) fun htold => hc htold.2.2.1
        · have hrest : (∀ w rest, s.phase w = .tellingClosed z rest → l ∉ rest) ↔
              ∀ w rest, Function.update s.phase x (.tellingOpened listeners) w
                = .tellingClosed z rest → l ∉ rest := by
            refine ⟨fun hrest w rest hw => hrest w rest (htelling w z rest hw),
              fun hrest w rest hw => ?_⟩
            by_cases hwx : w = x
            · subst hwx
              obtain hx | ⟨old, hx⟩ := hx
              · cases hx.symm.trans hw
              · rw [← (RegisterPhase.tellingClosed.inj (hx.symm.trans hw)).2]
                exact List.not_mem_nil
            · exact hrest w rest ((Function.update_of_ne hwx ..).trans hw)
          simp only [hst z hzx, ne_eq, hwriting, hrest]
      rest := by
        intro z
        refine ⟨fun rest hz => ?_, fun old rest hz => ?_, (h.rest z).2.2⟩
        · by_cases hzx : z = x
          · subst hzx
            rw [← RegisterPhase.tellingOpened.inj (phase_self_iff.mp hz)]
          · exact (h.rest z).1 rest ((Function.update_of_ne hzx ..).symm.trans hz)
        · exact (h.rest z).2.1 old rest (htelling z old rest hz) }

/-- A listener is told that the evicted session is closed. -/
theorem Inv.tellOld (h : s.Inv key listeners) (hl : listeners.Nodup) {l : ℓ} {rest : List ℓ}
    (hx : s.phase x = .tellingClosed y (l :: rest)) (hahead : s.NotAhead l y) :
    Inv key listeners { s with
      told := .closed l y :: s.told
      phase := Function.update s.phase x (.tellingClosed y rest) } := by
  have hst : ∀ z, Stored { s with
      told := .closed l y :: s.told
      phase := Function.update s.phase x (.tellingClosed y rest) } z ↔ s.Stored z :=
    stored_congr rfl rfl (by rw [hx]; exact .rfl)
  have hevicts := evicts_congr (s := s) (x := x) (p := .tellingClosed y rest) (by rw [hx]; rfl)
  have hopening : ∀ z r, Function.update s.phase x (.tellingClosed y rest) z
      = .tellingOpened r ↔ s.phase z = .tellingOpened r :=
    fun z r => phase_eq_iff (by simp) (by simp [hx]) z
  have hwriting : ∀ w z, Function.update s.phase x (.tellingClosed y rest) w = .writing z ↔
      s.phase w = .writing z := fun w z => phase_eq_iff (by simp) (by simp [hx]) w
  have hsub := (h.rest x).2.1 y _ hx
  have hmem : l ∈ listeners := hsub.subset List.mem_cons_self
  have hnot : l ∉ rest := (List.nodup_cons.mp (hl.sublist hsub)).1
  have hxy : (s.phase x).evicts = some y := by rw [hx]; rfl
  obtain ⟨hst', -, hnone⟩ := h.evicted x y hxy
  have hclosed := h.evictedClosed x y _ hx
  have honce : ∀ z, (s.phase z).evicts = some y → z = x := fun z hz => h.evictedOnce z x y hz hxy
  have huntold : .closed l y ∉ s.told := fun htold =>
    ((h.toldClosed l y).mp htold).2.2.2.2.1 x _ hx List.mem_cons_self
  exact
    { h with
      registered := by simpa only [hst] using h.registered
      storedOpen := by simpa only [hst, hwriting] using h.storedOpen
      evicted := by simpa only [hst, hevicts] using h.evicted
      evictedOnce := by simpa only [hevicts] using h.evictedOnce
      evictedClosed := by
        intro w z r hw
        by_cases hwx : w = x
        · subst hwx
          exact (RegisterPhase.tellingClosed.inj (phase_self_iff.mp hw)).1 ▸ hclosed
        · exact h.evictedClosed w z r ((Function.update_of_ne hwx ..).symm.trans hw)
      closing := by simpa only [hst] using h.closing
      active := by
        intro z hz
        by_cases hzx : z = x
        · exact hzx ▸ h.active x (by simp [hx])
        · exact h.active z fun hidle => hz ((Function.update_of_ne hzx ..).trans hidle)
      toldOpened := by
        intro l' z
        rw [List.mem_cons, or_iff_right fun heq => by cases heq]
        simpa only [hst, NotAhead, hopening] using h.toldOpened l' z
      toldClosed := by
        intro l' z
        rw [List.mem_cons, h.toldClosed l' z]
        by_cases hzy : z = y
        · subst hzy
          have hwrites : ∀ w, s.phase w ≠ .writing z := by
            intro w hw
            obtain rfl := honce w (by rw [hw]; rfl)
            cases hx.symm.trans hw
          have hlost : ∀ r, s.closing z = some r → l' ∉ r := by
            intro r hr
            cases hnone.symm.trans hr
          simp only [hst, ne_eq, hwriting]
          constructor
          · rintro (heq | ⟨hl', -, -, -, htelling, -⟩)
            · cases heq
              refine ⟨hmem, hst', hclosed, hwrites, fun w r hw => ?_, hlost⟩
              by_cases hwx : w = x
              · subst hwx
                rw [← (RegisterPhase.tellingClosed.inj (phase_self_iff.mp hw)).2]
                exact hnot
              · rw [Function.update_of_ne hwx] at hw
                exact absurd (honce w (by rw [hw]; rfl)) hwx
            · refine ⟨hl', hst', hclosed, hwrites, fun w r hw hin => ?_, hlost⟩
              by_cases hwx : w = x
              · subst hwx
                rw [← (RegisterPhase.tellingClosed.inj (phase_self_iff.mp hw)).2] at hin
                exact htelling w _ hx (List.mem_cons_of_mem _ hin)
              · rw [Function.update_of_ne hwx] at hw
                exact htelling w r hw hin
          · rintro ⟨hl', -, -, -, htelling, -⟩
            by_cases heq : l' = l
            · exact .inl (by rw [heq])
            · refine .inr ⟨hl', hst', hclosed, hwrites, fun w r hw => ?_, hlost⟩
              obtain rfl := honce w (by rw [hw]; rfl)
              rw [← (RegisterPhase.tellingClosed.inj (hx.symm.trans hw)).2, List.mem_cons, not_or]
              exact ⟨heq, htelling w rest (Function.update_self ..)⟩
        · have htelling : ∀ w r, Function.update s.phase x (.tellingClosed y rest) w
              = .tellingClosed z r ↔ s.phase w = .tellingClosed z r :=
            fun w r => phase_eq_iff (by simp [Ne.symm hzy]) (by simp [hx, Ne.symm hzy]) w
          simp only [ListenerCall.closed.injEq, hzy, and_false, false_or, hst, ne_eq, hwriting,
            htelling]
      rest := by
        intro z
        refine ⟨by simpa only [hopening] using (h.rest z).1, fun old r hz => ?_, (h.rest z).2.2⟩
        by_cases hzx : z = x
        · subst hzx
          rw [← (RegisterPhase.tellingClosed.inj (phase_self_iff.mp hz)).2]
          exact (List.sublist_cons_self l rest).trans hsub
        · exact (h.rest z).2.1 old r ((Function.update_of_ne hzx ..).symm.trans hz)
      nodup := List.nodup_cons.mpr ⟨huntold, h.nodup⟩
      inOrder := ⟨(h.toldOpened l y).mpr ⟨hmem, hst', hahead⟩, h.inOrder⟩ }

/-- A listener is told that a session is closed. -/
theorem Inv.tellLost (h : s.Inv key listeners) (hl : listeners.Nodup) {l : ℓ} {rest : List ℓ}
    (hx : s.closing x = some (l :: rest)) (hahead : s.NotAhead l x) :
    Inv key listeners { s with
      told := .closed l x :: s.told
      closing := Function.update s.closing x (some rest) } := by
  obtain ⟨hst, hclosed⟩ := h.closing x _ hx
  have hsub := (h.rest x).2.2 _ hx
  have hmem : l ∈ listeners := hsub.subset List.mem_cons_self
  have hnot : l ∉ rest := (List.nodup_cons.mp (hl.sublist hsub)).1
  have hevicted : ∀ z y, (s.phase z).evicts = some y → y ≠ x := by
    rintro z y hz rfl
    cases hx.symm.trans (h.evicted z y hz).2.2
  have huntold : .closed l x ∉ s.told := fun htold =>
    ((h.toldClosed l x).mp htold).2.2.2.2.2 _ hx List.mem_cons_self
  exact
    { h with
      evicted := by
        intro z y hz
        obtain ⟨hys, hno, hnone⟩ := h.evicted z y hz
        exact ⟨hys, hno, (Function.update_of_ne (hevicted z y hz) ..).trans hnone⟩
      closing := by
        intro y rest' hy
        by_cases hyx : y = x
        · subst hyx
          exact ⟨hst, hclosed⟩
        · exact h.closing y rest' ((Function.update_of_ne hyx ..).symm.trans hy)
      toldOpened := fun l' y =>
        (List.mem_cons.trans (or_iff_right fun heq => by cases heq)).trans (h.toldOpened l' y)
      toldClosed := by
        intro l' y
        rw [List.mem_cons, h.toldClosed l' y]
        by_cases hyx : y = x
        · subst hyx
          have hphase : (∀ z, s.phase z ≠ .writing y) ∧
              ∀ z rest, s.phase z = .tellingClosed y rest → l' ∉ rest := by
            constructor
            · exact fun z hz => hevicted z y (by rw [hz]; rfl) rfl
            · exact fun z rest hz => absurd rfl (hevicted z y (by rw [hz]; rfl))
          constructor
          · rintro (heq | ⟨hl', -, -, -, -, hrest⟩)
            · cases heq
              refine ⟨hmem, hst, hclosed, hphase.1, hphase.2, fun rest' hr => ?_⟩
              rw [← closing_self_iff.mp hr]
              exact hnot
            · refine ⟨hl', hst, hclosed, hphase.1, hphase.2, fun rest' hr hin => ?_⟩
              rw [← closing_self_iff.mp hr] at hin
              exact hrest _ hx (List.mem_cons_of_mem _ hin)
          · rintro ⟨hl', -, -, -, -, hrest⟩
            by_cases heq : l' = l
            · exact .inl (by rw [heq])
            · refine .inr ⟨hl', hst, hclosed, hphase.1, hphase.2, fun rest' hr => ?_⟩
              rw [← Option.some.inj (hx.symm.trans hr), List.mem_cons, not_or]
              exact ⟨heq, hrest rest (Function.update_self ..)⟩
        · simp only [ListenerCall.closed.injEq, hyx, and_false, false_or,
            Function.update_of_ne hyx]
          exact .rfl
      rest := by
        intro y
        refine ⟨(h.rest y).1, (h.rest y).2.1, fun rest' hy => ?_⟩
        by_cases hyx : y = x
        · subst hyx
          rw [← closing_self_iff.mp hy]
          exact (List.sublist_cons_self l rest).trans hsub
        · exact (h.rest y).2.2 rest' ((Function.update_of_ne hyx ..).symm.trans hy)
      nodup := List.nodup_cons.mpr ⟨huntold, h.nodup⟩
      inOrder := ⟨(h.toldOpened l x).mpr ⟨hmem, hst, hahead⟩, h.inOrder⟩ }

theorem Inv.toldLost (h : s.Inv key listeners) (hx : s.closing x = some []) :
    Inv key listeners { s with closing := Function.update s.closing x none } := by
  have hnone : ∀ y rest, Function.update s.closing x none y = some rest →
      s.closing y = some rest := by
    intro y rest hy
    rw [Function.update_apply] at hy
    split at hy
    · cases hy
    · exact hy
  have hrest : ∀ l y, (∀ rest, s.closing y = some rest → l ∉ rest) ↔
      ∀ rest, Function.update s.closing x none y = some rest → l ∉ rest := by
    intro l y
    refine ⟨fun hrest rest hy => hrest rest (hnone y rest hy), fun hrest rest hy => ?_⟩
    by_cases hyx : y = x
    · subst hyx
      rw [← Option.some.inj (hx.symm.trans hy)]
      exact List.not_mem_nil
    · exact hrest rest ((Function.update_of_ne hyx ..).trans hy)
  exact
    { h with
      evicted := by
        intro z y hz
        obtain ⟨hys, hno, hclosing⟩ := h.evicted z y hz
        refine ⟨hys, hno, Option.eq_none_iff_forall_ne_some.mpr fun rest hy => ?_⟩
        cases hclosing.symm.trans (hnone y rest hy)
      closing := fun y rest hy => h.closing y rest (hnone y rest hy)
      toldClosed := by
        intro l y
        rw [h.toldClosed l y, hrest l y]
        exact .rfl
      rest := fun y => ⟨(h.rest y).1, (h.rest y).2.1, fun rest hy =>
        (h.rest y).2.2 rest (hnone y rest hy)⟩ }

/-- A listener is told that a session is opened. -/
theorem Inv.tellNew (h : s.Inv key listeners) (hl : listeners.Nodup) {l : ℓ} {rest : List ℓ}
    (hx : s.phase x = .tellingOpened (l :: rest)) :
    Inv key listeners { s with
      told := .opened l x :: s.told
      phase := Function.update s.phase x (.tellingOpened rest) } := by
  have hst : ∀ z, Stored { s with
      told := .opened l x :: s.told
      phase := Function.update s.phase x (.tellingOpened rest) } z ↔ s.Stored z :=
    stored_congr rfl rfl (by rw [hx]; exact .rfl)
  have hevicts := evicts_congr (s := s) (x := x) (p := .tellingOpened rest) (by rw [hx]; rfl)
  have hwriting : ∀ z y, Function.update s.phase x (.tellingOpened rest) z = .writing y ↔
      s.phase z = .writing y := fun z y => phase_eq_iff (by simp) (by simp [hx]) z
  have htelling : ∀ z y r, Function.update s.phase x (.tellingOpened rest) z
      = .tellingClosed y r ↔ s.phase z = .tellingClosed y r :=
    fun z y r => phase_eq_iff (by simp) (by simp [hx]) z
  have hsub := (h.rest x).1 _ hx
  have hmem : l ∈ listeners := hsub.subset List.mem_cons_self
  have hnot : l ∉ rest := (List.nodup_cons.mp (hl.sublist hsub)).1
  have hxo : x ∈ s.opened := h.active x (by simp [hx])
  have hxs : s.Stored x := ⟨hxo, by rw [hx]; trivial⟩
  have huntold : .opened l x ∉ s.told := fun htold =>
    ((h.toldOpened l x).mp htold).2.2 _ hx List.mem_cons_self
  exact
    { h with
      registered := by simpa only [hst] using h.registered
      storedOpen := by simpa only [hst, hwriting] using h.storedOpen
      evicted := by simpa only [hst, hevicts] using h.evicted
      evictedOnce := by simpa only [hevicts] using h.evictedOnce
      evictedClosed := by simpa only [htelling] using h.evictedClosed
      closing := by simpa only [hst] using h.closing
      active := by
        intro z hz
        by_cases hzx : z = x
        · exact hzx ▸ hxo
        · exact h.active z fun hidle => hz ((Function.update_of_ne hzx ..).trans hidle)
      toldOpened := by
        intro l' z
        rw [List.mem_cons, h.toldOpened l' z, hst z]
        by_cases hzx : z = x
        · subst hzx
          constructor
          · rintro (heq | ⟨hl', -, hahead⟩)
            · cases heq
              refine ⟨hmem, hxs, fun r hr => ?_⟩
              rw [← RegisterPhase.tellingOpened.inj (phase_self_iff.mp hr)]
              exact hnot
            · refine ⟨hl', hxs, fun r hr hin => ?_⟩
              rw [← RegisterPhase.tellingOpened.inj (phase_self_iff.mp hr)] at hin
              exact hahead _ hx (List.mem_cons_of_mem _ hin)
          · rintro ⟨hl', -, hahead⟩
            by_cases heq : l' = l
            · exact .inl (by rw [heq])
            · refine .inr ⟨hl', hxs, fun r hr => ?_⟩
              rw [← RegisterPhase.tellingOpened.inj (hx.symm.trans hr), List.mem_cons, not_or]
              exact ⟨heq, hahead rest (Function.update_self ..)⟩
        · simp only [ListenerCall.opened.injEq, hzx, and_false, false_or, NotAhead,
            Function.update_of_ne hzx]
      toldClosed := by
        intro l' z
        rw [List.mem_cons, or_iff_right fun heq => by cases heq]
        simpa only [hst, ne_eq, hwriting, htelling] using h.toldClosed l' z
      rest := by
        intro z
        refine ⟨fun r hz => ?_, by simpa only [htelling] using (h.rest z).2.1, (h.rest z).2.2⟩
        by_cases hzx : z = x
        · subst hzx
          rw [← RegisterPhase.tellingOpened.inj (phase_self_iff.mp hz)]
          exact (List.sublist_cons_self l rest).trans hsub
        · exact (h.rest z).1 r ((Function.update_of_ne hzx ..).symm.trans hz)
      nodup := List.nodup_cons.mpr ⟨huntold, h.nodup⟩ }

theorem Inv.toldNew (h : s.Inv key listeners) (hx : s.phase x = .tellingOpened []) :
    Inv key listeners { s with phase := Function.update s.phase x .idle } := by
  have hst : ∀ z, Stored { s with phase := Function.update s.phase x .idle } z ↔ s.Stored z :=
    stored_congr rfl rfl (by rw [hx]; exact .rfl)
  have hevicts := evicts_congr (s := s) (x := x) (p := .idle) (by rw [hx]; rfl)
  have hwriting : ∀ z y, Function.update s.phase x .idle z = .writing y ↔ s.phase z = .writing y :=
    fun z y => phase_eq_iff (by simp) (by simp [hx]) z
  have htelling : ∀ z y rest, Function.update s.phase x .idle z = .tellingClosed y rest ↔
      s.phase z = .tellingClosed y rest := fun z y rest => phase_eq_iff (by simp) (by simp [hx]) z
  have hopening : ∀ z rest, Function.update s.phase x .idle z = .tellingOpened rest →
      s.phase z = .tellingOpened rest := by
    intro z rest hz
    rw [Function.update_apply] at hz
    split at hz
    · cases hz
    · exact hz
  exact
    { h with
      registered := by simpa only [hst] using h.registered
      storedOpen := by simpa only [hst, hwriting] using h.storedOpen
      evicted := by simpa only [hst, hevicts] using h.evicted
      evictedOnce := by simpa only [hevicts] using h.evictedOnce
      evictedClosed := by simpa only [htelling] using h.evictedClosed
      closing := by simpa only [hst] using h.closing
      active := by
        intro z hz
        refine h.active z fun hidle => hz ?_
        by_cases hzx : z = x
        · subst hzx
          exact Function.update_self ..
        · exact (Function.update_of_ne hzx ..).trans hidle
      toldOpened := by
        intro l z
        rw [h.toldOpened l z, hst z]
        refine and_congr_right fun _ => and_congr_right fun _ => ?_
        refine ⟨fun hahead rest hz => hahead rest (hopening z rest hz), fun hahead rest hz => ?_⟩
        by_cases hzx : z = x
        · subst hzx
          rw [← RegisterPhase.tellingOpened.inj (hx.symm.trans hz)]
          exact List.not_mem_nil
        · exact hahead rest ((Function.update_of_ne hzx ..).trans hz)
      toldClosed := by simpa only [hst, ne_eq, hwriting, htelling] using h.toldClosed
      rest := by
        intro z
        refine ⟨fun rest hz => (h.rest z).1 rest (hopening z rest hz), ?_, (h.rest z).2.2⟩
        simpa only [htelling] using (h.rest z).2.1 }

theorem Inv.begin (h : s.Inv key listeners) (hx : x ∉ s.opened) :
    Inv key listeners { s with
      opened := x :: s.opened
      phase := Function.update s.phase x .begun } := by
  have hst : ∀ y, Stored { s with
      opened := x :: s.opened
      phase := Function.update s.phase x .begun } y ↔ s.Stored y := by
    intro y
    simp only [Stored, Function.update_apply, List.mem_cons]
    by_cases hy : y = x
    · subst hy; simp [hx, RegisterPhase.Stored]
    · simp [hy]
  have hidle : s.phase x = .idle := by
    by_contra hn
    exact hx (h.active x hn)
  have hevicts := evicts_congr (s := s) (x := x) (p := .begun) (by rw [hidle]; rfl)
  have hwriting : ∀ z y, Function.update s.phase x .begun z = .writing y ↔ s.phase z = .writing y :=
    fun z y => phase_eq_iff (by simp) (by simp [hidle]) z
  have htelling : ∀ z y rest, Function.update s.phase x .begun z = .tellingClosed y rest ↔
      s.phase z = .tellingClosed y rest :=
    fun z y rest => phase_eq_iff (by simp) (by simp [hidle]) z
  have hopening : ∀ z rest, Function.update s.phase x .begun z = .tellingOpened rest ↔
      s.phase z = .tellingOpened rest := fun z rest => phase_eq_iff (by simp) (by simp [hidle]) z
  exact
    { h with
      registered := by simpa only [hst] using h.registered
      storedOpen := by simpa only [hst, hwriting] using h.storedOpen
      evicted := by simpa only [hst, hevicts] using h.evicted
      evictedOnce := by simpa only [hevicts] using h.evictedOnce
      evictedClosed := by simpa only [htelling] using h.evictedClosed
      closing := by simpa only [hst] using h.closing
      active := by
        intro z hz
        by_cases hzx : z = x
        · exact hzx ▸ List.mem_cons_self
        · exact List.mem_cons_of_mem _ (h.active z fun hidle =>
            hz ((Function.update_of_ne hzx ..).trans hidle))
      closed := fun z hz => List.mem_cons_of_mem _ (h.closed z hz)
      toldOpened := by simpa only [hst, NotAhead, hopening] using h.toldOpened
      toldClosed := by simpa only [hst, ne_eq, hwriting, htelling] using h.toldClosed
      rest := by simpa only [hopening, htelling] using h.rest }

/-! ## Steps -/

theorem Inv.tellOpened (h : s.Inv key listeners) (hl : listeners.Nodup) (x : ι) :
    (s.tellOpened x).Inv key listeners := by
  unfold SessionRegistry.tellOpened
  split
  · exact h.tellNew hl ‹_›
  · exact h.toldNew ‹_›
  · exact h

theorem Inv.store (h : s.Inv key listeners) (hl : listeners.Nodup)
    (hx : s.phase x = .begun ∨ ∃ old, s.phase x = .tellingClosed old []) (hc : x ∉ s.closed)
    (hfree : key x ∉ s.sessions) : (s.store key listeners x).Inv key listeners :=
  (h.register hx hc hfree).tellOpened hl x

theorem Inv.tellClosing (h : s.Inv key listeners) (hl : listeners.Nodup)
    (hahead : ∀ l rest, s.closing x = some (l :: rest) → s.NotAhead l x) :
    (s.tellClosing x).Inv key listeners := by
  unfold SessionRegistry.tellClosing
  split
  · exact h.tellLost hl ‹_› (hahead _ _ ‹_›)
  · exact h.toldLost ‹_›
  · exact h

theorem Inv.closeSession (h : s.Inv key listeners) (hl : listeners.Nodup) (hx : x ∈ s.opened)
    (hahead : ∀ l ∈ listeners.head?, s.NotAhead l x) :
    (s.closeSession key listeners x).Inv key listeners := by
  unfold SessionRegistry.closeSession notifyCloseSession
  split
  · exact h
  split
  · rename_i hc hreg
    refine (h.unregister hreg).tellClosing hl fun l rest hr => ?_
    simp only [Function.update_self, Option.some.injEq] at hr
    exact hahead l (by rw [hr]; rfl)
  · exact h.mark hx ‹_› ‹_›

/-- The next listener is told that the evicted session is closed, or the new
session is stored. -/
theorem Inv.tellEvicted (h : s.Inv key listeners) (hl : listeners.Nodup) {rest : List ℓ}
    (hx : s.phase x = .tellingClosed y rest) (hahead : ∀ l ∈ rest.head?, s.NotAhead l y)
    (hstore : rest = [] → x ∉ s.closed ∧ key x ∉ s.sessions) :
    (s.tellEvicted key listeners x).Inv key listeners := by
  unfold SessionRegistry.tellEvicted
  rw [hx]
  cases rest with
  | nil =>
      obtain ⟨hc, hfree⟩ := hstore rfl
      exact h.store hl (.inr ⟨y, hx⟩) hc hfree
  | cons l rest => exact h.tellOld hl hx (hahead l rfl)

/-- Closing an evicted session does nothing but set its flag. -/
theorem Inv.closeSession_evicted (h : s.Inv key listeners) (hx : s.phase x = .writing y) :
    ∃ closed, s.closeSession key listeners y = { s with closed } ∧ y ∈ closed
      ∧ (∀ z, z ∈ closed ↔ z = y ∨ z ∈ s.closed) := by
  obtain ⟨hys, hno, -⟩ := h.evicted x y (by rw [hx]; rfl)
  unfold SessionRegistry.closeSession notifyCloseSession
  split
  · rename_i hc
    exact ⟨s.closed, rfl, hc, fun z => ⟨.inr, fun hz => hz.elim (fun e => e ▸ hc) id⟩⟩
  · rw [if_neg (hno (key y))]
    exact ⟨y :: s.closed, rfl, List.mem_cons_self, fun z => List.mem_cons⟩

theorem Inv.closeOld (h : s.Inv key listeners) (hl : listeners.Nodup)
    (hx : s.phase x = .writing y) (hahead : ∀ l ∈ listeners.head?, s.NotAhead l y)
    (hstore : listeners = [] → x ∉ s.closed ∧ key x ∉ s.sessions) :
    (s.closeOld key listeners x y).Inv key listeners := by
  obtain ⟨hys, hno, -⟩ := h.evicted x y (by rw [hx]; rfl)
  have hxy : x ≠ y := by
    rintro rfl
    have := hys.2
    rw [hx] at this
    exact this
  have hclosed := h.closeSession hl hys.1 hahead
  obtain ⟨closed, hs, hyc, hmem⟩ := h.closeSession_evicted hx
  rw [hs] at hclosed
  unfold SessionRegistry.closeOld
  rw [hs]
  refine (hclosed.startEviction hx hyc).tellEvicted hl (Function.update_self ..) (fun l hm => ?_)
    fun hnil => ?_
  · intro rest hr
    simp only [Function.update_apply, if_neg hxy.symm] at hr
    exact hahead l hm rest hr
  · refine (hstore hnil).imp_left fun hc hm => ?_
    rcases (hmem x).mp hm with he | hm
    · exact hxy he
    · exact hc hm

theorem Inv.openSession (h : s.Inv key listeners) (hl : listeners.Nodup) (hx : x ∉ s.opened) :
    Inv key listeners (registerSession key listeners { s with
      opened := x :: s.opened
      phase := Function.update s.phase x .begun } x) := by
  have hb := h.begin hx
  have hxc : x ∉ s.closed := fun hc => hx (h.closed x hc)
  unfold registerSession
  split
  · rename_i old hold
    have hoc : old ∉ s.closed := (h.registered _ old hold).2.2
    simp only [if_neg hoc]
    exact hb.evict (Function.update_self ..) hold
  · rename_i hfree
    exact hb.store hl (.inl (Function.update_self ..)) hxc (Dict.not_mem_iff.mpr hfree)

variable (key listeners) in
/-- The steps on which the registry relies. An eviction ends with the session
still open and the key still free. A listener is told the closing of a session
after its opening. -/
def Safe (s : SessionRegistry ι κ ℓ) : RegistryAction ι → Prop
  | .openSession _ => True
  | .resume x =>
      match s.phase x with
      | .writing old => (∀ l ∈ listeners.head?, s.NotAhead l old)
          ∧ (listeners = [] → x ∉ s.closed ∧ key x ∉ s.sessions)
      | .tellingClosed old rest => (∀ l ∈ rest.head?, s.NotAhead l old)
          ∧ (rest = [] → x ∉ s.closed ∧ key x ∉ s.sessions)
      | _ => True
  | .closeSession x => ∀ l ∈ listeners.head?, s.NotAhead l x
  | .resumeClosing x => ∀ l rest, s.closing x = some (l :: rest) → s.NotAhead l x

instance decidableNotAhead [DecidableEq ℓ] (s : SessionRegistry ι κ ℓ) (l : ℓ) (x : ι) :
    Decidable (s.NotAhead l x) :=
  decidable_of_iff (l ∉ (s.phase x).restOpened) <| by
    rw [NotAhead]
    cases s.phase x <;> simp [RegisterPhase.restOpened]

instance decidableSafe [DecidableEq ℓ] (s : SessionRegistry ι κ ℓ) :
    DecidablePred (s.Safe key listeners)
  | .openSession _ => isTrue trivial
  | .resume x =>
      match hx : s.phase x with
      | .writing old => decidable_of_iff ((∀ l ∈ listeners.head?, s.NotAhead l old)
          ∧ (listeners = [] → x ∉ s.closed ∧ key x ∉ s.sessions)) (by simp only [Safe, hx])
      | .tellingClosed old rest => decidable_of_iff ((∀ l ∈ rest.head?, s.NotAhead l old)
          ∧ (rest = [] → x ∉ s.closed ∧ key x ∉ s.sessions)) (by simp only [Safe, hx])
      | .idle | .begun | .tellingOpened _ => isTrue (by simp only [Safe, hx])
  | .closeSession x => inferInstanceAs (Decidable (∀ l ∈ listeners.head?, s.NotAhead l x))
  | .resumeClosing x =>
      match hx : s.closing x with
      | some (l :: rest) => decidable_of_iff (s.NotAhead l x) (by simp [Safe, hx])
      | some [] | none => isTrue (by simp [Safe, hx])

theorem Inv.step {a : RegistryAction ι} (h : s.Inv key listeners) (hl : listeners.Nodup)
    (hsafe : s.Safe key listeners a) (hs : s.step key listeners a = some s') :
    s'.Inv key listeners := by
  cases a with
  | openSession x =>
      rw [SessionRegistry.step] at hs
      split at hs
      · cases hs
      · obtain rfl := Option.some.inj hs
        exact h.openSession hl ‹_›
  | resume x =>
      rw [SessionRegistry.step] at hs
      simp only [Safe] at hsafe
      cases hx : s.phase x with
      | idle => rw [hx] at hs; cases hs
      | begun => rw [hx] at hs; cases hs
      | writing old =>
          rw [hx] at hs hsafe
          obtain rfl := Option.some.inj hs
          exact h.closeOld hl hx hsafe.1 hsafe.2
      | tellingClosed old rest =>
          rw [hx] at hs hsafe
          obtain rfl := Option.some.inj hs
          exact h.tellEvicted hl hx hsafe.1 hsafe.2
      | tellingOpened rest =>
          rw [hx] at hs
          obtain rfl := Option.some.inj hs
          exact h.tellOpened hl x
  | closeSession x =>
      rw [SessionRegistry.step] at hs
      split at hs
      · obtain rfl := Option.some.inj hs
        exact h.closeSession hl ‹_› hsafe
      · cases hs
  | resumeClosing x =>
      rw [SessionRegistry.step] at hs
      split at hs
      · cases hs
      · obtain rfl := Option.some.inj hs
        exact h.tellClosing hl hsafe

omit [DecidableEq ι] in
theorem inv_init : (init : SessionRegistry ι κ ℓ).Inv key listeners := by
  have hst : ∀ x, ¬ (init : SessionRegistry ι κ ℓ).Stored x := fun x h => List.not_mem_nil h.1
  refine ⟨fun k x h => (by cases h), fun x h => absurd h (hst x), fun z x h => (by cases h),
    fun z z' x h => (by cases h), fun z x rest h => (by cases h), fun x rest h => (by cases h),
    fun x h => absurd rfl h, fun x h => absurd h List.not_mem_nil, fun l x => ?_, fun l x => ?_,
    fun x => ⟨fun rest h => (by cases h), fun old rest h => (by cases h),
      fun rest h => (by cases h)⟩, List.nodup_nil, trivial⟩
  · exact iff_of_false List.not_mem_nil fun h => hst x h.2.1
  · exact iff_of_false List.not_mem_nil fun h => hst x h.2.1

/-! ## The registry -/

/-- No `register_session` or `notify_close_session` is in progress. -/
def Quiet (s : SessionRegistry ι κ ℓ) : Prop :=
  ∀ x ∈ s.opened, s.phase x = .idle ∧ s.closing x = none

instance [DecidableEq ℓ] (s : SessionRegistry ι κ ℓ) : Decidable s.Quiet :=
  inferInstanceAs (Decidable (∀ x ∈ s.opened, _ ∧ _))

variable (key) in
/-- What the registry owes: while nothing is in progress the open sessions are
the registered ones, each under its own key, and what was told opened and is
closed was told closed. At any time a listener has been told the opening and the
closing of a session at most once, in that order. -/
structure ExactRegistry (s : SessionRegistry ι κ ℓ) : Prop where
  registered : s.Quiet → ∀ x ∈ s.opened, x ∉ s.closed → s.sessions.get? (key x) = some x
  opened : s.Quiet → ∀ k x, s.sessions.get? k = some x → key x = k ∧ x ∉ s.closed
  toldClosed : s.Quiet → ∀ l x, .opened l x ∈ s.told → x ∈ s.closed → .closed l x ∈ s.told
  once : s.told.Nodup
  inOrder : InOrder s.told

omit [DecidableEq ι] in
theorem Inv.exact (h : s.Inv key listeners) : s.ExactRegistry key := by
  have hnone : s.Quiet → ∀ z, s.phase z = .idle := fun hq z => by
    by_contra hz
    exact hz (hq z (h.active z hz)).1
  refine ⟨fun hq x hx hc => ?_, fun _ k x hx => ?_, fun hq l x hl hc => ?_, h.nodup, h.inOrder⟩
  · have hs : s.Stored x := ⟨hx, by rw [hnone hq x]; trivial⟩
    refine (h.storedOpen x hs hc).resolve_right ?_
    rintro ⟨z, hz⟩
    rw [hnone hq z] at hz
    cases hz
  · obtain ⟨hk, -, hc⟩ := h.registered k x hx
    exact ⟨hk, hc⟩
  · obtain ⟨hm, hs, -⟩ := (h.toldOpened l x).mp hl
    refine (h.toldClosed l x).mpr
      ⟨hm, hs, hc, fun z hz => ?_, fun z rest hz => ?_, fun rest hr => ?_⟩
    · rw [hnone hq z] at hz
      cases hz
    · rw [hnone hq z] at hz
      cases hz
    · rw [(hq x hs.1).2] at hr
      cases hr

/-- **The registry is exact in every run whose steps are safe**: evictions end
with the new session open and its key free, and the tellings of openings are not
overtaken. -/
theorem registry_exact (hl : listeners.Nodup) {as : List (RegistryAction ι)}
    (hsafe : Along (step key listeners) (Safe key listeners) init as) :
    Always (step key listeners) (ExactRegistry key) init as :=
  (always_of_step (fun _ _ _ h hsafe hs => h.step hl hsafe hs) inv_init hsafe).imp
    fun _ h => h.exact

/-- A second session with the same key, after the first one has been opened. -/
def replaced : List (RegistryAction ℕ) :=
  [.openSession 0, .resume 0, .openSession 1, .resume 1, .resume 1, .resume 1]

theorem registry_exact_replaced :
    Always (step (fun _ => ()) [()]) (ExactRegistry fun _ => ()) init replaced :=
  registry_exact (by decide) (by decide)

/-- While the session 1 closes the session 0, a third one with the same key is
opened, and overwritten. Or the session 1 is lost, and registered nevertheless.
Or the closing of a session overtakes its opening on the way to the second
listener. -/
theorem registry_not_exact :
    (∃ s, run (step (fun _ => ()) [()]) init
        [.openSession 0, .resume 0, .openSession 1, .openSession 2, .resume 2, .resume 1, .resume 1,
          .resume 1] = some s
      ∧ s.Quiet ∧ 2 ∈ s.opened ∧ 2 ∉ s.closed ∧ s.sessions.get? () = some 1 ∧ 1 ∉ s.closed
      ∧ ¬ s.ExactRegistry (fun _ : ℕ => ()))
    ∧ (∃ s, run (step (fun _ => ()) [()]) init
        [.openSession 0, .resume 0, .openSession 1, .closeSession 1, .resume 1, .resume 1,
          .resume 1] = some s
      ∧ s.Quiet ∧ s.sessions.get? () = some 1 ∧ 1 ∈ s.closed
      ∧ ¬ s.ExactRegistry (fun _ : ℕ => ()))
    ∧ ∃ s, run (step (fun _ => ()) [0, 1]) init
        [.openSession 0, .closeSession 0, .resumeClosing 0, .resume 0] = some s
      ∧ s.told = [.opened 1 0, .closed 1 0, .closed 0 0, .opened 0 0]
      ∧ ¬ s.ExactRegistry (fun _ : ℕ => ()) := by
  refine ⟨⟨_, rfl, by decide, by decide, by decide, by decide, by decide, fun h => ?_⟩,
    ⟨_, rfl, by decide, by decide, by decide, fun h => ?_⟩, ⟨_, rfl, by decide, fun h => ?_⟩⟩
  · exact absurd (h.registered (by decide) 2 (by decide) (by decide)) (by decide)
  · exact absurd (h.opened (by decide) () 1 (by decide)).2 (by decide)
  · exact absurd h.inOrder.1 (by decide)

end SessionRegistry

end Inmanta
