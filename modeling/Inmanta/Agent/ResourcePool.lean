import Inmanta.Util.NamedLock
import Mathlib.Algebra.Order.Group.Defs

/-!
# The pool of slow objects

A `PoolManager` keeps one member for an internal id, and creates it under
the named lock of that id. Members terminate at any moment, and tell the
manager without a lock; a member that is shutting down is replaced when it
is asked for.

`PoolManager.step` runs any number of tasks that get members, clean up or
shut the manager down, from one await point to the next. The named locks
are those of `LockTasks`. Creating a member and shutting it down are
arbitrary asynchronous steps that may fail; what a member allows and how
it ends is up to its surroundings.
-/

namespace Inmanta

/-- How an id is stored and locked. -/
structure PoolIds (π β : Type) where
  idToInternal : π → β
  getLockNameFor : β → String

/-- `canBeCleanedUp` is what `can_be_cleaned_up` returns at the moment, and
`listening` that the manager is told when the member has shut down. -/
structure PoolMember (β τ : Type) where
  id : β
  lastUsed : τ
  shuttingDown : Bool
  shutDown : Bool
  canBeCleanedUp : Bool
  listening : Bool

def PoolMember.Running {β τ : Type} (m : PoolMember β τ) : Prop :=
  m.shuttingDown = false ∧ m.shutDown = false

instance {β τ : Type} (m : PoolMember β τ) : Decidable m.Running :=
  inferInstanceAs (Decidable (_ ∧ _))

/-- What a task of the pool does. -/
inductive PoolPhase (π τ : Type) where
  | idle
  /-- `get`, up to the lock. -/
  | get (memberId : π)
  | preReplace (memberId : π)
  | preCreateCapacityCheck (memberId : π)
  | createMember (memberId : π)
  /-- `get` leaves the lock and returns a member, or raises. -/
  | leaving (member : Option ℕ)
  | requestShutdown
  /-- The loop of the cleanup. -/
  | cleanup (oldestTime : τ) (members : List ℕ)
  /-- The cleanup, up to the lock of a member. -/
  | cleanupLock (oldestTime : τ) (member : ℕ) (members : List ℕ)
  /-- The cleanup has asked the member to shut down. -/
  | closing (oldestTime : τ) (members : List ℕ)
  | cleanupLeaving (oldestTime : τ) (members : List ℕ)

structure PoolManager (ι π β τ : Type) where
  shutDown : Bool
  shuttingDown : Bool
  locks : LockTasks ι
  pool : Dict β ℕ
  members : ℕ → PoolMember β τ
  next : ℕ
  phase : ι → PoolPhase π τ
  clock : τ
  returned : List ℕ

inductive PoolAction (ι π β τ : Type) where
  | start
  | advance (now : τ)
  | get (task : ι) (memberId : π)
  /-- A task that waits for a lock runs on. -/
  | resume (task : ι)
  /-- `get` has the lock. -/
  | getLocked (task : ι)
  | preReplaced (task : ι)
  | capacityChecked (task : ι)
  /-- `create_member` returns a member; it may have been shut down already. -/
  | created (task : ι) (shuttingDown shutDown canBeCleanedUp : Bool)
  /-- What the task waits for under the lock raises. -/
  | fails (task : ι)
  | release (task : ι)
  /-- The lock is released. -/
  | released (task : ι)
  | requestShutdown (task : ι)
  /-- `request_shutdown` has the global lock; it returns. -/
  | shutDown (task : ι)
  | cleanup (task : ι)
  | cleanupNext (task : ι)
  /-- The cleanup has the lock of the member. -/
  | cleanupLocked (task : ι)
  /-- The request to the member to shut down is done. -/
  | closed (task : ι)
  | memberRequestShutdown (member : ℕ)
  | setShutdown (member : ℕ)
  | notifyMemberShutdown (member : ℕ)
  | setCanBeCleanedUp (member : ℕ) (value : Bool)

namespace PoolManager

variable {ι π β τ : Type}

def Running (s : PoolManager ι π β τ) : Prop :=
  s.shuttingDown = false ∧ s.shutDown = false

instance (s : PoolManager ι π β τ) : Decidable s.Running :=
  inferInstanceAs (Decidable (_ ∧ _))

def setMember (s : PoolManager ι π β τ) (m : ℕ) (member : PoolMember β τ) :
    PoolManager ι π β τ :=
  { s with members := Function.update s.members m member }

variable [DecidableEq ι]

def setPhase (s : PoolManager ι π β τ) (c : ι) (phase : PoolPhase π τ) : PoolManager ι π β τ :=
  { s with phase := Function.update s.phase c phase }

variable [DecidableEq β]

/-- `blank` stands for the members that there are not yet. -/
def init (blank : PoolMember β τ) (clock : τ) : PoolManager ι π β τ where
  shutDown := false
  shuttingDown := false
  locks := .init
  pool := .empty
  members := fun _ => blank
  next := 0
  phase := fun _ => .idle
  clock
  returned := []

def notifyMemberShutdown (s : PoolManager ι π β τ) (m : ℕ) : PoolManager ι π β τ :=
  match s.pool.get? (s.members m).id with
  | none => s
  | some registered =>
      if registered ≠ m then s else { s with pool := s.pool.del (s.members m).id }

/-- `get`, under the lock. -/
def getLocked (s : PoolManager ι π β τ) (c : ι) (ids : PoolIds π β) (memberId : π) :
    PoolManager ι π β τ :=
  if ¬ s.Running then s.setPhase c (.leaving none)
  else
    match s.pool.get? (ids.idToInternal memberId) with
    | some it =>
        if ¬ (s.members it).shuttingDown then
          (s.setMember it { s.members it with lastUsed := s.clock }).setPhase c (.leaving (some it))
        else s.setPhase c (.preReplace memberId)
    | none => s.setPhase c (.preCreateCapacityCheck memberId)

/-- The end of `_create_or_replace`. -/
def register (s : PoolManager ι π β τ) (c : ι) (member : PoolMember β τ) : PoolManager ι π β τ :=
  { s with
    members := Function.update s.members s.next member
    next := s.next + 1
    pool := s.pool.set member.id s.next }.setPhase c (.leaving (some s.next))

variable [AddGroup τ] [LinearOrder τ]

/-- The cleanup may shut the member down. -/
def Expired (s : PoolManager ι π β τ) (oldestTime : τ) (m : ℕ) : Prop :=
  (s.members m).canBeCleanedUp = true ∧ (s.members m).lastUsed < oldestTime ∧ (s.members m).Running

instance (s : PoolManager ι π β τ) (oldestTime : τ) : DecidablePred (s.Expired oldestTime) :=
  fun _ => inferInstanceAs (Decidable (_ ∧ _))

def step (ids : PoolIds π β) (retentionTime : τ) (s : PoolManager ι π β τ) :
    PoolAction ι π β τ → Option (PoolManager ι π β τ)
  | .start => some { s with shutDown := false, shuttingDown := false }
  | .advance now => if now < s.clock then none else some { s with clock := now }
  | .get c memberId =>
      match s.phase c with
      | .idle =>
          (s.locks.step (.acquire c (ids.getLockNameFor (ids.idToInternal memberId)))).map
            fun locks => { s with locks }.setPhase c (.get memberId)
      | _ => none
  | .resume c => (s.locks.step (.resume c)).map fun locks => { s with locks }
  | .getLocked c =>
      match s.phase c with
      | .get memberId =>
          if s.locks.phase c = .holding (ids.getLockNameFor (ids.idToInternal memberId)) then
            some (s.getLocked c ids memberId)
          else none
      | _ => none
  | .preReplaced c =>
      match s.phase c with
      | .preReplace memberId => some (s.setPhase c (.preCreateCapacityCheck memberId))
      | _ => none
  | .capacityChecked c =>
      match s.phase c with
      | .preCreateCapacityCheck memberId => some (s.setPhase c (.createMember memberId))
      | _ => none
  | .created c shuttingDown shutDown canBeCleanedUp =>
      match s.phase c with
      | .createMember memberId => some (s.register c
          { id := ids.idToInternal memberId, lastUsed := s.clock, shuttingDown, shutDown,
            canBeCleanedUp, listening := true })
      | _ => none
  | .fails c =>
      match s.phase c with
      | .preReplace _ | .preCreateCapacityCheck _ | .createMember _ =>
          some (s.setPhase c (.leaving none))
      | .closing oldestTime members => some (s.setPhase c (.cleanupLeaving oldestTime members))
      | _ => none
  | .release c =>
      match s.phase c with
      | .leaving _ | .cleanupLeaving _ _ =>
          (s.locks.step (.release c)).map fun locks => { s with locks }
      | _ => none
  | .released c =>
      if s.locks.phase c = .idle then
        match s.phase c with
        | .leaving (some m) => some { s.setPhase c .idle with returned := m :: s.returned }
        | .leaving none => some (s.setPhase c .idle)
        | .cleanupLeaving oldestTime members => some (s.setPhase c (.cleanup oldestTime members))
        | _ => none
      else none
  | .requestShutdown c =>
      match s.phase c with
      | .idle => (s.locks.step (.globalExclusive c)).map fun locks =>
          { s with locks }.setPhase c .requestShutdown
      | _ => none
  | .shutDown c =>
      match s.phase c with
      | .requestShutdown =>
          (s.locks.step (.leave c)).map fun locks =>
            { s with locks, shutDown := true, shuttingDown := true }.setPhase c .idle
      | _ => none
  | .cleanup c =>
      match s.phase c with
      | .idle => some (s.setPhase c (.cleanup (s.clock - retentionTime) s.pool.values))
      | _ => none
  | .cleanupNext c =>
      match s.phase c with
      | .cleanup _ [] => some (s.setPhase c .idle)
      | .cleanup oldestTime (m :: members) =>
          if s.Expired oldestTime m then
            (s.locks.step (.acquire c (ids.getLockNameFor (s.members m).id))).map fun locks =>
              { s with locks }.setPhase c (.cleanupLock oldestTime m members)
          else some (s.setPhase c (.cleanup oldestTime members))
      | _ => none
  | .cleanupLocked c =>
      match s.phase c with
      | .cleanupLock oldestTime m members =>
          if s.locks.phase c = .holding (ids.getLockNameFor (s.members m).id) then
            if s.Expired oldestTime m then
              some ((s.setMember m { s.members m with shuttingDown := true }).setPhase c
                (.closing oldestTime members))
            else some (s.setPhase c (.cleanupLeaving oldestTime members))
          else none
      | _ => none
  | .closed c =>
      match s.phase c with
      | .closing oldestTime members => some (s.setPhase c (.cleanupLeaving oldestTime members))
      | _ => none
  | .memberRequestShutdown m =>
      some (s.setMember m { s.members m with shuttingDown := true })
  | .setShutdown m =>
      some (s.setMember m { s.members m with shuttingDown := true, shutDown := true })
  | .notifyMemberShutdown m =>
      if m < s.next ∧ (s.members m).shutDown = true ∧ (s.members m).listening = true then
        some (s.notifyMemberShutdown m)
      else none
  | .setCanBeCleanedUp m value => some (s.setMember m { s.members m with canBeCleanedUp := value })

end PoolManager

end Inmanta
