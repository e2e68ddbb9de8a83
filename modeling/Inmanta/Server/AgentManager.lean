import Inmanta.Lib.Dict
import Inmanta.Lib.Run

/-!
# The sessions of the agent manager

The agent manager keeps the sessions of the schedulers twice: by
environment, to find the client of a scheduler, and by id. It is told when
a session is opened and when it is closed, and handles both under the
session lock, in the order in which it is told (`SessionNotifications`).

A registration is refused if the environment has a session already. When
the refused session is closed it is expired all the same, and
`_expire_session` removes what is registered for the environment, whichever
session that is. `schedulers_agree_iff` says that nothing else goes wrong.
-/

namespace Inmanta

/-- What the agent manager looks at of a session. -/
structure Session (ι ε : Type) where
  id : ι
  environment : ε
  name : String
  deriving DecidableEq

/-- The maps of the agent manager. -/
structure AgentManager (ι ε : Type) where
  schedulerForEnv : Dict ε (Session ι ε)
  sessions : Dict ι (Session ι ε)

namespace AgentManager

variable {ι ε : Type} [DecidableEq ι] [DecidableEq ε]

def init : AgentManager ι ε := ⟨.empty, .empty⟩

/-- Under the session lock. `none`: the registration is refused as a duplicate. -/
def registerSession (m : AgentManager ι ε) (session : Session ι ε) : Option (AgentManager ι ε) :=
  if session.environment ∈ m.schedulerForEnv ∨ session.id ∈ m.sessions then none
  else some
    { schedulerForEnv := m.schedulerForEnv.set session.environment session
      sessions := m.sessions.set session.id session }

/-- Under the session lock. -/
def expireSession (m : AgentManager ι ε) (session : Session ι ε) : AgentManager ι ε where
  schedulerForEnv := m.schedulerForEnv.del session.environment
  sessions := m.sessions.del session.id

/-- The session whose client is returned for an environment. -/
def getAgentClient (m : AgentManager ι ε) (tid : ε) : Option (Session ι ε) :=
  m.schedulerForEnv.get? tid

/-- Both maps hold the same sessions, each under its own environment and id. -/
structure SameSessions (m : AgentManager ι ε) : Prop where
  environments : ∀ e s, m.schedulerForEnv.get? e = some s →
    s.environment = e ∧ m.sessions.get? s.id = some s
  ids : ∀ i s, m.sessions.get? i = some s →
    s.id = i ∧ m.schedulerForEnv.get? s.environment = some s

theorem get?_expireSession (m : AgentManager ι ε) (session : Session ι ε) (e : ε) :
    (m.expireSession session).schedulerForEnv.get? e =
      if e = session.environment then none else m.schedulerForEnv.get? e :=
  Dict.get?_del ..

theorem get?_expireSession_id (m : AgentManager ι ε) (session : Session ι ε) (i : ι) :
    (m.expireSession session).sessions.get? i =
      if i = session.id then none else m.sessions.get? i :=
  Dict.get?_del ..

/-- Registering a session that is not refused. -/
theorem SameSessions.register {m m' : AgentManager ι ε} {session : Session ι ε}
    (h : m.SameSessions) (hm : m.registerSession session = some m') :
    m'.SameSessions ∧ (∀ e, m'.schedulerForEnv.get? e =
      if e = session.environment then some session else m.schedulerForEnv.get? e)
      ∧ m.schedulerForEnv.get? session.environment = none := by
  unfold registerSession at hm
  split at hm
  · cases hm
  rename_i hno
  obtain ⟨henv, hid⟩ := not_or.mp hno
  obtain rfl := Option.some.inj hm
  refine ⟨⟨fun e s he => ?_, fun i s hi => ?_⟩, fun e => Dict.get?_set .., Dict.not_mem_iff.mp henv⟩
  · simp only [Dict.get?_set] at he ⊢
    split at he
    · rename_i hes
      obtain rfl := Option.some.inj he
      exact ⟨hes.symm, if_pos rfl⟩
    · obtain ⟨hse, hs⟩ := h.environments e s he
      refine ⟨hse, ?_⟩
      rw [if_neg (show s.id ≠ session.id from fun hsid => hid (hsid ▸ Dict.mem_of_get? hs))]
      exact hs
  · simp only [Dict.get?_set] at hi ⊢
    split at hi
    · rename_i his
      obtain rfl := Option.some.inj hi
      exact ⟨his.symm, if_pos rfl⟩
    · obtain ⟨hsi, hs⟩ := h.ids i s hi
      refine ⟨hsi, ?_⟩
      rw [if_neg (show s.environment ≠ session.environment from
        fun hse => henv (hse ▸ Dict.mem_of_get? hs))]
      exact hs

/-- Expiring a session whose environment has no other one. -/
theorem SameSessions.expire {m : AgentManager ι ε} {session : Session ι ε} (h : m.SameSessions)
    (hown : ∀ s, m.schedulerForEnv.get? session.environment = some s → s = session)
    (hid : ∀ i s, m.sessions.get? i = some s → s.id = session.id → s = session) :
    (m.expireSession session).SameSessions := by
  refine ⟨fun e s he => ?_, fun i s hi => ?_⟩
  · rw [get?_expireSession] at he
    split at he
    · cases he
    rename_i hne
    obtain ⟨hse, hs⟩ := h.environments e s he
    refine ⟨hse, ?_⟩
    rw [get?_expireSession_id, if_neg fun hsid => hne ?_]
    · exact hs
    · rw [← hse, hid s.id s hs hsid]
  · rw [get?_expireSession_id] at hi
    split at hi
    · cases hi
    rename_i hne
    obtain ⟨hsi, hs⟩ := h.ids i s hi
    refine ⟨hsi, ?_⟩
    rw [get?_expireSession, if_neg fun hse => hne ?_]
    · exact hs
    · rw [← hsi, hown s (hse ▸ hs)]

end AgentManager

/-! ## Notifications -/

inductive SessionNotification (ι ε : Type) where
  | opened (session : Session ι ε)
  | closed (session : Session ι ε)
  deriving DecidableEq

/-- The agent manager and the notifications that wait for the session lock,
first come first served. The lists say which sessions it has been told to be
opened and closed, which registrations have been accepted, and which sessions
have been expired. -/
structure SessionNotifications (ι ε : Type) where
  manager : AgentManager ι ε
  lock : List (SessionNotification ι ε)
  opened : List (Session ι ε)
  closed : List (Session ι ε)
  registered : List (Session ι ε)
  expired : List (Session ι ε)

inductive SessionAction (ι ε : Type) where
  | sessionOpened (session : Session ι ε)
  | sessionClosed (session : Session ι ε)
  /-- The notification that waits longest gets the session lock. -/
  | locked

namespace SessionNotifications

variable {ι ε : Type} [DecidableEq ι] [DecidableEq ε]

def init : SessionNotifications ι ε := ⟨.init, [], [], [], [], []⟩

/-- A session is opened once, and closed at most once after that. -/
def step (s : SessionNotifications ι ε) :
    SessionAction ι ε → Option (SessionNotifications ι ε)
  | .sessionOpened session =>
      if session.id ∈ s.opened.map Session.id then none
      else some { s with lock := s.lock ++ [.opened session], opened := session :: s.opened }
  | .sessionClosed session =>
      if session ∈ s.opened ∧ session ∉ s.closed then
        some { s with lock := s.lock ++ [.closed session], closed := session :: s.closed }
      else none
  | .locked =>
      match s.lock with
      | [] => none
      | .opened session :: rest =>
          match s.manager.registerSession session with
          | none => some { s with lock := rest }
          | some manager =>
              some { s with manager, lock := rest, registered := session :: s.registered }
      | .closed session :: rest =>
          some { s with
            manager := s.manager.expireSession session
            lock := rest
            expired := session :: s.expired }

/-- What is owed at any time: the maps agree, and a session that was registered
and has not been expired is returned for its environment. -/
structure SchedulersAgree (s : SessionNotifications ι ε) : Prop where
  same : s.manager.SameSessions
  live : ∀ session ∈ s.registered, session ∉ s.expired →
    s.manager.getAgentClient session.environment = some session

/-- The closing of a session removes no other session. -/
def RemovesNoOther (s : SessionNotifications ι ε) : SessionAction ι ε → Prop
  | .locked => ∀ session rest, s.lock = .closed session :: rest → ∀ other, other ≠ session →
      (∀ e, s.manager.schedulerForEnv.get? e = some other →
        (s.manager.expireSession session).schedulerForEnv.get? e = some other)
      ∧ ∀ i, s.manager.sessions.get? i = some other →
        (s.manager.expireSession session).sessions.get? i = some other
  | _ => True

/-- The environment of the session that is expired has no other session. -/
def ClosesOwn (s : SessionNotifications ι ε) : SessionAction ι ε → Prop
  | .locked => ∀ session rest, s.lock = .closed session :: rest →
      ∀ other, s.manager.schedulerForEnv.get? session.environment = some other → other = session
  | _ => True

/-- What is known of the notifications that wait. -/
structure Inv (s : SessionNotifications ι ε) : Prop extends s.SchedulersAgree where
  ids : ∀ x ∈ s.opened, ∀ y ∈ s.opened, x.id = y.id → x = y
  registered : ∀ x ∈ s.registered, x ∈ s.opened ∧ .opened x ∉ s.lock
  managed : ∀ e x, s.manager.schedulerForEnv.get? e = some x → x ∈ s.registered ∧ x ∉ s.expired
  closed : ∀ x ∈ s.closed, x ∈ s.opened
  expired : ∀ x ∈ s.expired, x ∈ s.closed ∧ .opened x ∉ s.lock ∧ .closed x ∉ s.lock
  waitingOpened : ∀ x, .opened x ∈ s.lock → x ∈ s.opened
  waitingClosed : ∀ x, .closed x ∈ s.lock → x ∈ s.closed
  nodup : s.lock.Nodup
  order : s.lock.Pairwise fun n n' => ∀ x, n = .closed x → n' ≠ .opened x

theorem inv_init : (init : SessionNotifications ι ε).Inv where
  same := ⟨fun e x h => (by cases h), fun i x h => (by cases h)⟩
  live x h := absurd h List.not_mem_nil
  ids x h := absurd h List.not_mem_nil
  registered x h := absurd h List.not_mem_nil
  managed e x h := by cases h
  closed x h := absurd h List.not_mem_nil
  expired x h := absurd h List.not_mem_nil
  waitingOpened x h := absurd h List.not_mem_nil
  waitingClosed x h := absurd h List.not_mem_nil
  nodup := List.nodup_nil
  order := .nil

variable {s s' : SessionNotifications ι ε}

/-- The sessions of the manager are known by their ids. -/
theorem Inv.unique (h : s.Inv) {x : Session ι ε} (hx : x ∈ s.opened) {i : ι} {y : Session ι ε}
    (hy : s.manager.sessions.get? i = some y) (hid : y.id = x.id) : y = x :=
  h.ids y (h.registered y (h.managed _ y (h.same.ids i y hy).2).1).1 x hx hid

theorem Inv.sessionOpened (h : s.Inv) {x : Session ι ε} (hx : x.id ∉ s.opened.map Session.id) :
    Inv { s with lock := s.lock ++ [.opened x], opened := x :: s.opened } := by
  have hnew : x ∉ s.opened := fun hm => hx (List.mem_map_of_mem hm)
  have hlock : ∀ n, n ∈ s.lock ++ [.opened x] ↔ n ∈ s.lock ∨ n = .opened x := by simp
  refine ⟨⟨h.same, h.live⟩, fun y hy z hz hyz => ?_, fun y hy => ?_, h.managed, fun y hy => ?_,
    fun y hy => ?_, fun y hy => ?_, fun y hy => ?_, ?_, ?_⟩
  · rcases List.mem_cons.mp hy with hyx | hy <;> rcases List.mem_cons.mp hz with hzx | hz
    · exact hyx.trans hzx.symm
    · exact absurd (List.mem_map.mpr ⟨z, hz, by rw [← hyz, hyx]⟩) hx
    · exact absurd (List.mem_map.mpr ⟨y, hy, by rw [hyz, hzx]⟩) hx
    · exact h.ids y hy z hz hyz
  · obtain ⟨hyo, hyl⟩ := h.registered y hy
    refine ⟨List.mem_cons_of_mem _ hyo, fun hm => ?_⟩
    rcases (hlock _).mp hm with hm | hm
    · exact hyl hm
    · exact hnew (SessionNotification.opened.inj hm ▸ hyo)
  · exact List.mem_cons_of_mem _ (h.closed y hy)
  · obtain ⟨hyc, hyo, hyl⟩ := h.expired y hy
    refine ⟨hyc, fun hm => ?_, fun hm => ?_⟩
    · rcases (hlock _).mp hm with hm | hm
      · exact hyo hm
      · exact hnew (SessionNotification.opened.inj hm ▸ h.closed y hyc)
    · rcases (hlock _).mp hm with hm | hm
      · exact hyl hm
      · cases hm
  · rcases (hlock _).mp hy with hy | hy
    · exact List.mem_cons_of_mem _ (h.waitingOpened y hy)
    · exact SessionNotification.opened.inj hy ▸ List.mem_cons_self
  · rcases (hlock _).mp hy with hy | hy
    · exact h.waitingClosed y hy
    · cases hy
  · refine List.nodup_append.mpr ⟨h.nodup, List.nodup_singleton _, fun n hn m hm => ?_⟩
    obtain rfl := List.mem_singleton.mp hm
    rintro rfl
    exact hnew (h.waitingOpened x hn)
  · refine List.pairwise_append.mpr ⟨h.order, List.pairwise_singleton _ _, fun n hn m hm y hy => ?_⟩
    obtain rfl := List.mem_singleton.mp hm
    rintro he
    obtain rfl := SessionNotification.opened.inj he
    exact hnew (h.closed x (h.waitingClosed x (hy ▸ hn)))

theorem Inv.sessionClosed (h : s.Inv) {x : Session ι ε} (hx : x ∈ s.opened ∧ x ∉ s.closed) :
    Inv { s with lock := s.lock ++ [.closed x], closed := x :: s.closed } := by
  have hlock : ∀ n, n ∈ s.lock ++ [.closed x] ↔ n ∈ s.lock ∨ n = .closed x := by simp
  refine ⟨⟨h.same, h.live⟩, h.ids, fun y hy => ?_, h.managed, fun y hy => ?_,
    fun y hy => ?_, fun y hy => ?_, fun y hy => ?_, ?_, ?_⟩
  · obtain ⟨hyo, hyl⟩ := h.registered y hy
    refine ⟨hyo, fun hm => ?_⟩
    rcases (hlock _).mp hm with hm | hm
    · exact hyl hm
    · cases hm
  · rcases List.mem_cons.mp hy with rfl | hy
    · exact hx.1
    · exact h.closed y hy
  · obtain ⟨hyc, hyo, hyl⟩ := h.expired y hy
    refine ⟨List.mem_cons_of_mem _ hyc, fun hm => ?_, fun hm => ?_⟩
    · rcases (hlock _).mp hm with hm | hm
      · exact hyo hm
      · cases hm
    · rcases (hlock _).mp hm with hm | hm
      · exact hyl hm
      · exact hx.2 (SessionNotification.closed.inj hm ▸ hyc)
  · rcases (hlock _).mp hy with hy | hy
    · exact h.waitingOpened y hy
    · cases hy
  · rcases (hlock _).mp hy with hy | hy
    · exact List.mem_cons_of_mem _ (h.waitingClosed y hy)
    · exact SessionNotification.closed.inj hy ▸ List.mem_cons_self
  · refine List.nodup_append.mpr ⟨h.nodup, List.nodup_singleton _, fun n hn m hm => ?_⟩
    obtain rfl := List.mem_singleton.mp hm
    rintro rfl
    exact hx.2 (h.waitingClosed x hn)
  · refine List.pairwise_append.mpr ⟨h.order, List.pairwise_singleton _ _, fun n hn m hm y hy => ?_⟩
    obtain rfl := List.mem_singleton.mp hm
    exact fun he => by cases he

/-- A session is registered, or refused. -/
theorem Inv.register (h : s.Inv) {x : Session ι ε} {rest : List (SessionNotification ι ε)}
    (hlock : s.lock = .opened x :: rest) :
    Inv { s with lock := rest }
      ∧ ∀ manager, s.manager.registerSession x = some manager →
        Inv { s with manager, lock := rest, registered := x :: s.registered } := by
  have hsub : ∀ n, n ∈ rest → n ∈ s.lock := fun n hn => hlock ▸ List.mem_cons_of_mem _ hn
  have hx : .opened x ∈ s.lock := hlock ▸ List.mem_cons_self
  have hnodup := h.nodup
  have horder := h.order
  rw [hlock] at hnodup horder
  obtain ⟨hxr, hnodup⟩ := List.nodup_cons.mp hnodup
  have horder := (List.pairwise_cons.mp horder).2
  have hrest : Inv { s with lock := rest } :=
    ⟨⟨h.same, h.live⟩, h.ids, fun y hy => (h.registered y hy).imp_right (mt (hsub _)), h.managed,
      h.closed, fun y hy => (h.expired y hy).imp_right fun hl => hl.imp (mt (hsub _)) (mt (hsub _)),
      fun y hy => h.waitingOpened y (hsub _ hy), fun y hy => h.waitingClosed y (hsub _ hy),
      hnodup, horder⟩
  refine ⟨hrest, fun manager hm => ?_⟩
  obtain ⟨hsame, hget, hfree⟩ := h.same.register hm
  refine ⟨⟨hsame, fun y hy hye => ?_⟩, hrest.ids, fun y hy => ?_, fun e y hy => ?_, hrest.closed,
    hrest.expired, hrest.waitingOpened, hrest.waitingClosed, hnodup, horder⟩
  · rw [AgentManager.getAgentClient, hget]
    rcases List.mem_cons.mp hy with rfl | hy
    · exact if_pos rfl
    · have hlive := h.live y hy hye
      rw [if_neg]
      · exact hlive
      · intro he
        rw [AgentManager.getAgentClient, he, hfree] at hlive
        cases hlive
  · rcases List.mem_cons.mp hy with rfl | hy
    · exact ⟨h.waitingOpened y hx, hxr⟩
    · exact hrest.registered y hy
  · rw [hget] at hy
    split at hy
    · obtain rfl := Option.some.inj hy
      exact ⟨List.mem_cons_self, fun he => (h.expired x he).2.1 hx⟩
    · exact (h.managed e y hy).imp_left (List.mem_cons_of_mem _)

/-- A session is expired whose environment has no other. -/
theorem Inv.expire (h : s.Inv) {x : Session ι ε} {rest : List (SessionNotification ι ε)}
    (hlock : s.lock = .closed x :: rest)
    (hown : ∀ y, s.manager.schedulerForEnv.get? x.environment = some y → y = x) :
    Inv { s with
      manager := s.manager.expireSession x
      lock := rest
      expired := x :: s.expired } := by
  have hsub : ∀ n, n ∈ rest → n ∈ s.lock := fun n hn => hlock ▸ List.mem_cons_of_mem _ hn
  have hx : .closed x ∈ s.lock := hlock ▸ List.mem_cons_self
  have hxo : x ∈ s.opened := h.closed x (h.waitingClosed x hx)
  have hnodup := h.nodup
  have horder := h.order
  rw [hlock] at hnodup horder
  obtain ⟨hxr, hnodup⟩ := List.nodup_cons.mp hnodup
  obtain ⟨hxorder, horder⟩ := List.pairwise_cons.mp horder
  refine ⟨⟨h.same.expire hown fun i y hy hid => h.unique hxo hy hid, fun y hy hye => ?_⟩, h.ids,
    fun y hy => (h.registered y hy).imp_right (mt (hsub _)), fun e y hy => ?_, h.closed,
    fun y hy => ?_, fun y hy => h.waitingOpened y (hsub _ hy),
    fun y hy => h.waitingClosed y (hsub _ hy), hnodup, horder⟩
  · obtain ⟨hyx, hye⟩ := not_or.mp (mt List.mem_cons.mpr hye)
    have hlive := h.live y hy hye
    rw [AgentManager.getAgentClient, AgentManager.get?_expireSession, if_neg]
    · exact hlive
    · exact fun he => hyx (hown y (he ▸ hlive))
  · rw [AgentManager.get?_expireSession] at hy
    split at hy
    · cases hy
    rename_i hne
    refine ⟨(h.managed e y hy).1, fun hm => ?_⟩
    rcases List.mem_cons.mp hm with rfl | hm
    · exact hne (h.same.environments e y hy).1.symm
    · exact (h.managed e y hy).2 hm
  · rcases List.mem_cons.mp hy with rfl | hy
    · exact ⟨h.waitingClosed y hx, fun hm => hxorder _ hm y rfl rfl, hxr⟩
    · exact (h.expired y hy).imp_right fun hl => hl.imp (mt (hsub _)) (mt (hsub _))

theorem Inv.step {a : SessionAction ι ε} (h : s.Inv) (hown : s.ClosesOwn a)
    (hs : s.step a = some s') : s'.Inv := by
  cases a with
  | sessionOpened x =>
      rw [SessionNotifications.step] at hs
      split at hs
      · cases hs
      · obtain rfl := Option.some.inj hs
        exact h.sessionOpened ‹_›
  | sessionClosed x =>
      rw [SessionNotifications.step] at hs
      split at hs
      · obtain rfl := Option.some.inj hs
        exact h.sessionClosed ‹_›
      · cases hs
  | locked =>
      rw [SessionNotifications.step] at hs
      cases hlock : s.lock with
      | nil => rw [hlock] at hs; cases hs
      | cons n rest =>
          rw [hlock] at hs
          cases n with
          | opened x =>
              obtain ⟨hrefused, hregistered⟩ := h.register hlock
              cases hm : s.manager.registerSession x with
              | none =>
                  simp only [hm, Option.some.injEq] at hs
                  exact hs ▸ hrefused
              | some manager =>
                  simp only [hm, Option.some.injEq] at hs
                  exact hs ▸ hregistered manager hm
          | closed x =>
              obtain rfl := Option.some.inj hs
              exact h.expire hlock (hown x rest hlock)

/-- Another session of the environment is lost when a session is expired. -/
theorem Inv.not_agree {a : SessionAction ι ε} (h : s.Inv) (hown : ¬ s.ClosesOwn a)
    (hs : s.step a = some s') : ¬ s'.SchedulersAgree := by
  cases a with
  | sessionOpened x => exact absurd trivial hown
  | sessionClosed x => exact absurd trivial hown
  | locked =>
      simp only [ClosesOwn, not_forall] at hown
      obtain ⟨x, rest, hlock, y, hy, hyx⟩ := hown
      rw [SessionNotifications.step, hlock] at hs
      obtain rfl := Option.some.inj hs
      intro hagree
      obtain ⟨hyr, hye⟩ := h.managed _ y hy
      have hlive := hagree.live y hyr (by simpa [hyx] using hye)
      rw [AgentManager.getAgentClient, AgentManager.get?_expireSession,
        if_pos (h.same.environments _ y hy).1] at hlive
      cases hlive

theorem Inv.removesNoOther {a : SessionAction ι ε} (h : s.Inv) (hown : s.ClosesOwn a) :
    s.RemovesNoOther a := by
  cases a with
  | sessionOpened x => trivial
  | sessionClosed x => trivial
  | locked =>
      intro x rest hlock y hyx
      have hxo : x ∈ s.opened := h.closed x (h.waitingClosed x (hlock ▸ List.mem_cons_self))
      refine ⟨fun e he => ?_, fun i hi => ?_⟩
      · rw [AgentManager.get?_expireSession, if_neg]
        · exact he
        · exact fun hex => hyx (hown x rest hlock y (hex ▸ he))
      · rw [AgentManager.get?_expireSession_id, if_neg]
        · exact hi
        · exact fun hix => hyx (h.unique hxo hi ((h.same.ids i y hi).1.trans hix))

/-- **The agent manager keeps every live scheduler if and only if no session is
expired while another one is registered for its environment.** -/
theorem schedulers_agree_iff {as : List (SessionAction ι ε)} {r : SessionNotifications ι ε}
    (hrun : run step init as = some r) :
    Always step SchedulersAgree init as ∧ Along step RemovesNoOther init as ↔
      Along step ClosesOwn init as := by
  have hiff := always_iff_along_of_strengthening (J := SchedulersAgree)
    (fun s (hI : s.Inv) => hI.toSchedulersAgree) (fun s a s' hI hown hs => hI.step hown hs)
    (fun s a s' hI hown hs => hI.not_agree hown hs) inv_init hrun
  refine ⟨fun h => hiff.mp h.1, fun hown => ⟨hiff.mpr hown, ?_⟩⟩
  exact hown.of_invariant (fun s a s' (hI : s.Inv) hown hs => hI.step hown hs)
    (fun s a hI hown => hI.removesNoOther hown) inv_init

/-- The session of the scheduler of environment 0 and, under another name, a
second one that is refused. -/
def refusedSession : List (SessionAction ℕ ℕ) :=
  [.sessionOpened ⟨0, 0, "scheduler"⟩, .locked, .sessionOpened ⟨1, 0, "other"⟩, .locked]

theorem schedulers_agree_iff_refused :
    Always step SchedulersAgree init refusedSession
        ∧ Along step RemovesNoOther init refusedSession ↔
      Along step ClosesOwn init refusedSession :=
  schedulers_agree_iff (show run step init refusedSession = some ⟨⟨⟨[(0, ⟨0, 0, "scheduler"⟩)], by
    decide⟩, ⟨[(0, ⟨0, 0, "scheduler"⟩)], by decide⟩⟩, [], [⟨1, 0, "other"⟩, ⟨0, 0, "scheduler"⟩],
    [], [⟨0, 0, "scheduler"⟩], []⟩ from rfl)

/-- When the refused session is closed, the scheduler is not found any more,
although its session is registered and open. -/
theorem refused_session_closed :
    ∃ s, run step init (refusedSession ++ [.sessionClosed ⟨1, 0, "other"⟩, .locked]) = some s
      ∧ (⟨0, 0, "scheduler"⟩ : Session ℕ ℕ) ∈ s.registered
      ∧ (⟨0, 0, "scheduler"⟩ : Session ℕ ℕ) ∉ s.closed
      ∧ s.manager.getAgentClient 0 = none
      ∧ s.manager.sessions.get? 0 = some ⟨0, 0, "scheduler"⟩
      ∧ ¬ s.SchedulersAgree := by
  obtain ⟨s, hs, hr, hc, hno, hid⟩ := exists_run_of_any step init
    (refusedSession ++ [.sessionClosed ⟨1, 0, "other"⟩, .locked])
    (p := fun s => (⟨0, 0, "scheduler"⟩ : Session ℕ ℕ) ∈ s.registered
      ∧ (⟨0, 0, "scheduler"⟩ : Session ℕ ℕ) ∉ s.closed
      ∧ s.manager.getAgentClient 0 = none
      ∧ s.manager.sessions.get? 0 = some ⟨0, 0, "scheduler"⟩) (by decide)
  refine ⟨s, hs, hr, hc, hno, hid, fun h => ?_⟩
  have := (h.same.ids 0 _ hid).2
  rw [show s.manager.schedulerForEnv.get? 0 = none from hno] at this
  cases this

end SessionNotifications

end Inmanta
