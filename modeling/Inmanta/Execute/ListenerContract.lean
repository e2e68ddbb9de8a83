import Inmanta.Lib.Run
import Mathlib.Data.List.Nodup
import Mathlib.Data.List.Perm.Basic
import Mathlib.Logic.Function.Basic

/-!
# Listeners of relation lists

A collector runs code of its own when it receives a value, and that code can
assign to any list, this one included. A state therefore has the calls that have
not returned yet, as a stack, and what a collector does is an action like those
of the rest of the model.

`Phase` says for a collector and a list what was received, what is still to come
from the loops on the stack, and where the collector is listed. Each step keeps
it (`Inv.step`). The one thing the loops do not survive is an answer that comes
when the collector is no longer listed, or while another loop still has it in
its copy of the table (`orderly`).
-/

namespace Inmanta

/-- There is no table of listeners after the list is frozen. -/
structure ListVariable (V C : Type) where
  value : List V
  hasValue : Bool
  listeners : Option (List C)
  nbGradualWaiters : ℕ

/-- What does not change: the upper arity of a list, the values its type accepts, the list at the
other end of a relation with the value it gets, and what kind a collector is of. -/
structure ListSetting (ι V C : Type) where
  high : ι → Option ℕ
  valid : ι → V → Bool
  counterpart : ι → V → Option (ι × V)
  pureGradual : C → Bool

/-- A call that has not returned. `current` is the collector whose code runs. -/
inductive ListCall (ι V C : Type) where
  | setting (i : ι) (v : V) (recur : Bool)
  | settingList (i : ι) (vs : List V)
  | notifying (i : ι) (v : V) (rest : List C) (current : Option C)
  | settingCounterpart (i : ι) (v : V) (recur : Bool)
  | checkingHigh (i : ι)
  | replaying (i : ι) (c : C) (next : ℕ) (busy : Bool)

/-- The lists and the calls, with what every collector received from each list, and where it was
registered and answered that it is done. -/
structure Lists (ι V C : Type) where
  vars : ι → ListVariable V C
  stack : List (ListCall ι V C)
  received : ι → C → List V
  registered : ι → C → Bool
  done : ι → C → Bool

inductive ListAction (ι V C : Type) where
  | set (i : ι) (v : V)
  | setList (i : ι) (vs : List V)
  | setNull (i : ι)
  | freeze (i : ι)
  | listen (i : ι) (c : C)
  | answer (done : Bool)
  /-- The code of the lists goes on. -/
  | proceed

inductive ListError where
  /-- An error of the model that is compiled. -/
  | model
  /-- A failed assertion, a `KeyError`, or the table is `None`. -/
  | internal
  deriving DecidableEq

variable {ι V C : Type}

namespace ListVariable

def empty : ListVariable V C := ⟨[], false, some [], 0⟩

def freeze (x : ListVariable V C) : ListVariable V C :=
  { x with hasValue := true, listeners := none }

/-- Who is listed. -/
def table (x : ListVariable V C) : List C := x.listeners.getD []

end ListVariable

variable [DecidableEq ι] [DecidableEq C]

namespace Lists

def init : Lists ι V C := ⟨fun _ => .empty, [], fun _ _ => [], fun _ _ => false, fun _ _ => false⟩

def setVar (s : Lists ι V C) (i : ι) (x : ListVariable V C) : Lists ι V C :=
  { s with vars := Function.update s.vars i x }

def mark (b : ι → C → Bool) (i : ι) (c : C) : ι → C → Bool :=
  fun j d => if j = i ∧ d = c then true else b j d

/-- `resultcollector.receive_result(value)` is called. -/
def deliver (s : Lists ι V C) (i : ι) (c : C) (v : V) : Lists ι V C :=
  { s with received := fun j d => if j = i ∧ d = c then s.received j d ++ [v]
      else s.received j d }

/-- Code other than that of the lists runs: there is no call, or a collector has been called. -/
def canCall (s : Lists ι V C) : Bool :=
  match s.stack with
  | [] => true
  | .notifying _ _ _ (some _) :: _ => true
  | .replaying _ _ _ true :: _ => true
  | _ => false

end Lists

namespace ListSetting

variable [DecidableEq V]

/-- `set_value` for one value, until the listeners are notified -/
def setValue (r : ListSetting ι V C) (s : Lists ι V C) (i : ι) (v : V) (recur : Bool)
    (calls : List (ListCall ι V C)) : Except ListError (Lists ι V C) :=
  let x := s.vars i
  if x.hasValue then
    if v ∈ x.value then .ok { s with stack := calls } else .error .model
  else if r.valid i v then
    if v ∈ x.value then .ok { s with stack := calls }
    else
      match x.listeners with
      | none => .error .internal
      | some l => .ok { s.setVar i { x with value := x.value ++ [v] } with
          stack := .notifying i v l none :: .settingCounterpart i v recur :: calls }
  else .error .model

/-- The end of `set_value` -/
def checkHigh (r : ListSetting ι V C) (s : Lists ι V C) (i : ι)
    (calls : List (ListCall ι V C)) : Except ListError (Lists ι V C) :=
  let x := s.vars i
  match r.high i with
  | none => .ok { s with stack := calls }
  | some high =>
      if high < x.value.length then .error .model
      else if high = x.value.length then .ok { s.setVar i x.freeze with stack := calls }
      else .ok { s with stack := calls }

/-- The end of `listener`, when there are no more values -/
def register (r : ListSetting ι V C) (s : Lists ι V C) (i : ι) (c : C)
    (calls : List (ListCall ι V C)) : Except ListError (Lists ι V C) :=
  let x := s.vars i
  if x.hasValue then .ok { s with stack := calls }
  else
    match x.listeners with
    | none => .error .internal
    | some l =>
        if c ∈ l then
          .ok { s.setVar i { x with nbGradualWaiters := x.nbGradualWaiters + 1 } with
            stack := calls }
        else
          .ok { s.setVar i { x with
              listeners := some (l ++ [c])
              nbGradualWaiters := x.nbGradualWaiters + (r.pureGradual c).toNat } with
            stack := calls }

/-- `_notify_listeners`, when a collector has answered that it is done -/
def unregister (r : ListSetting ι V C) (s : Lists ι V C) (i : ι) (c : C)
    (calls : List (ListCall ι V C)) : Except ListError (Lists ι V C) :=
  let x := s.vars i
  match x.listeners with
  | none => .error .internal
  | some l =>
      if c ∈ l then
        .ok { s.setVar i { x with
            listeners := some (l.erase c)
            nbGradualWaiters := x.nbGradualWaiters + (!r.pureGradual c).toNat } with
          stack := calls
          done := Lists.mark s.done i c }
      else .error .internal

def proceed (r : ListSetting ι V C) (s : Lists ι V C) :
    Option (Except ListError (Lists ι V C)) :=
  match s.stack with
  | [] => none
  | .setting i v recur :: calls => some (r.setValue s i v recur calls)
  | .settingList _ [] :: calls => some (.ok { s with stack := calls })
  | .settingList i (v :: vs) :: calls =>
      some (.ok { s with stack := .setting i v true :: .settingList i vs :: calls })
  | .notifying _ _ [] none :: calls => some (.ok { s with stack := calls })
  | .notifying i v (c :: rest) none :: calls =>
      some (.ok ({ s with stack := .notifying i v rest (some c) :: calls }.deliver i c v))
  | .notifying _ _ _ (some _) :: _ => none
  | .settingCounterpart i v true :: calls =>
      match r.counterpart i v with
      | none => some (.ok { s with stack := .checkingHigh i :: calls })
      | some (j, w) =>
          some (.ok { s with stack := .setting j w false :: .checkingHigh i :: calls })
  | .settingCounterpart i _ false :: calls =>
      some (.ok { s with stack := .checkingHigh i :: calls })
  | .checkingHigh i :: calls => some (r.checkHigh s i calls)
  | .replaying i c next false :: calls =>
      match (s.vars i).value[next]? with
      | some v =>
          some (.ok ({ s with stack := .replaying i c (next + 1) true :: calls }.deliver i c v))
      | none => some (r.register s i c calls)
  | .replaying _ _ _ true :: _ => none

/-- A collector returns from `receive_result`. While values are replayed the answer is not
looked at. -/
def answer (r : ListSetting ι V C) (s : Lists ι V C) (done : Bool) :
    Option (Except ListError (Lists ι V C)) :=
  match s.stack with
  | .notifying i v rest (some c) :: calls =>
      if done then some (r.unregister s i c (.notifying i v rest none :: calls))
      else some (.ok { s with stack := .notifying i v rest none :: calls })
  | .replaying i c next true :: calls =>
      some (.ok { s with
        stack := .replaying i c next false :: calls
        done := if done then Lists.mark s.done i c else s.done })
  | _ => none

/-- A call from other code. -/
def call (s : Lists ι V C) : ListAction ι V C → Option (Except ListError (Lists ι V C))
  | .set i v => some (.ok { s with stack := .setting i v true :: s.stack })
  | .setList i vs =>
      if (s.vars i).hasValue ∧ ∃ v ∈ vs, v ∉ (s.vars i).value then some (.error .model)
      else some (.ok { s with stack := .settingList i vs :: s.stack })
  | .setNull i =>
      if (s.vars i).value = [] then some (.ok (s.setVar i (s.vars i).freeze))
      else some (.error .model)
  | .freeze i => some (.ok (s.setVar i (s.vars i).freeze))
  | .listen i c => some (.ok { s with
      stack := .replaying i c 0 false :: s.stack
      registered := Lists.mark s.registered i c })
  | .answer _ => none
  | .proceed => none

def step (r : ListSetting ι V C) (s : Lists ι V C) :
    ListAction ι V C → Option (Except ListError (Lists ι V C))
  | .proceed => r.proceed s
  | .answer done => r.answer s done
  | a => if s.canCall then call s a else none

/-- A step without an error. -/
def stepOk (r : ListSetting ι V C) (s : Lists ι V C) (a : ListAction ι V C) :
    Option (Lists ι V C) :=
  match r.step s a with
  | some (.ok s') => some s'
  | _ => none

end ListSetting

/-! ## What is still to come -/

/-- The values of a list that the loops on the stack have yet to give to a collector. -/
def pending (i : ι) (c : C) : List (ListCall ι V C) → List V
  | [] => []
  | .notifying j v rest _ :: calls =>
      if j = i ∧ c ∈ rest then v :: pending i c calls else pending i c calls
  | .setting .. :: calls => pending i c calls
  | .settingList .. :: calls => pending i c calls
  | .settingCounterpart .. :: calls => pending i c calls
  | .checkingHigh .. :: calls => pending i c calls
  | .replaying .. :: calls => pending i c calls

/-- How far the replays of a list to a collector are. -/
def replays (i : ι) (c : C) : List (ListCall ι V C) → List ℕ
  | [] => []
  | .replaying j d next _ :: calls =>
      if j = i ∧ d = c then next :: replays i c calls else replays i c calls
  | .setting .. :: calls => replays i c calls
  | .settingList .. :: calls => replays i c calls
  | .settingCounterpart .. :: calls => replays i c calls
  | .checkingHigh .. :: calls => replays i c calls
  | .notifying .. :: calls => replays i c calls

/-- A collector is registered once at a list. It answers that it is done to the notification of a
value while it is listed and no other loop still has it in its copy of the table, or to the last
value of a frozen list. -/
def orderly (s : Lists ι V C) : ListAction ι V C → Bool
  | .listen i c => !s.registered i c
  | .answer true =>
      match s.stack with
      | .notifying i _ _ (some c) :: calls => c ∈ (s.vars i).table ∧ pending i c calls = []
      | .replaying i _ next true :: _ => (s.vars i).hasValue ∧ next = (s.vars i).value.length
      | _ => true
  | _ => true

/-! ## The invariant -/

/-- Where a collector is with a list. -/
inductive Phase (x : ListVariable V C) (c : C) (pend : List V) (reps : List ℕ)
    (received : List V) : Bool → Bool → Prop where
  | unregistered (hreps : reps = []) (hpend : pend = []) (htable : c ∉ x.table)
      (hreceived : received = []) : Phase x c pend reps received false false
  | replayed (next : ℕ) (hreps : reps = [next]) (hnext : next ≤ x.value.length)
      (hpend : pend = []) (htable : c ∉ x.table) (hreceived : received = x.value.take next) :
      Phase x c pend reps received true false
  | listed (hreps : reps = []) (htable : x.hasValue = true ∨ c ∈ x.table)
      (hreceived : (received ++ pend).Perm x.value) : Phase x c pend reps received true false
  | completed (hreps : reps = [] ∨ reps = [x.value.length] ∧ x.hasValue = true)
      (hpend : pend = []) (htable : c ∉ x.table) : Phase x c pend reps received true true

/-- The table is there until the list is frozen. -/
structure TableOk (x : ListVariable V C) : Prop where
  frozen : x.hasValue = true → x.listeners = none
  listeners : x.hasValue = false → x.listeners = some x.table
  nodupTable : x.table.Nodup
  nodup : x.value.Nodup

/-- A loop has every collector once, and is past the one whose code runs. -/
def CallOk : ListCall ι V C → Prop
  | .notifying _ _ rest current => rest.Nodup ∧ ∀ c, current = some c → c ∉ rest
  | _ => True

structure Lists.Inv (s : Lists ι V C) : Prop where
  table : ∀ i, TableOk (s.vars i)
  calls : ∀ f ∈ s.stack, CallOk f
  /-- A collector whose code runs in a loop is registered, and its replay is over. -/
  current : ∀ i c v rest, .notifying i v rest (some c) ∈ s.stack →
    s.registered i c = true ∧ replays i c s.stack = []
  phase : ∀ i c, Phase (s.vars i) c (pending i c s.stack) (replays i c s.stack)
    (s.received i c) (s.registered i c) (s.done i c)

/-! ## Calls that hold nothing back -/

section Calls

variable {s : Lists ι V C} {f : ListCall ι V C} {calls calls' : List (ListCall ι V C)}
  {i : ι} {c : C} {v : V} {rest : List C}

/-- A change of the calls that the collectors do not notice. -/
theorem Lists.Inv.setCalls (hs : ({ s with stack := calls } : Lists ι V C).Inv)
    (hcalls : ∀ f ∈ calls', CallOk f)
    (hcurrent : ∀ i v rest c, .notifying i v rest (some c) ∈ calls' →
      .notifying i v rest (some c) ∈ calls)
    (hpending : ∀ i c, pending i c calls' = pending i c calls)
    (hreplays : ∀ i c, replays i c calls' = replays i c calls) :
    ({ s with stack := calls' } : Lists ι V C).Inv := by
  refine ⟨hs.table, hcalls, fun i c v rest hmem => ?_, fun i c => ?_⟩
  · have h := hs.current i c v rest (hcurrent i v rest c hmem)
    exact ⟨h.1, (hreplays i c).trans h.2⟩
  · have h := hs.phase i c
    simp only at h ⊢
    rw [hpending, hreplays]
    exact h

/-- A call that is not a loop over collectors or values. -/
def ListCall.quiet : ListCall ι V C → Bool
  | .notifying .. => false
  | .replaying .. => false
  | _ => true

theorem pending_quiet (h : f.quiet = true) : pending i c (f :: calls) = pending i c calls := by
  cases f with
  | notifying => cases h
  | replaying => cases h
  | _ => rfl

theorem replays_quiet (h : f.quiet = true) : replays i c (f :: calls) = replays i c calls := by
  cases f with
  | notifying => cases h
  | replaying => cases h
  | _ => rfl

theorem Lists.Inv.push (hs : ({ s with stack := calls } : Lists ι V C).Inv)
    (h : f.quiet = true) : ({ s with stack := f :: calls } : Lists ι V C).Inv := by
  refine hs.setCalls (List.forall_mem_cons.mpr ⟨?_, hs.calls⟩) (fun i v rest c hmem => ?_)
    (fun i c => pending_quiet h) fun i c => replays_quiet h
  · cases f with
    | notifying => cases h
    | _ => trivial
  · obtain rfl | hmem := List.mem_cons.mp hmem
    · cases h
    · exact hmem

theorem Lists.Inv.pop (hs : ({ s with stack := f :: calls } : Lists ι V C).Inv)
    (h : f.quiet = true) : ({ s with stack := calls } : Lists ι V C).Inv :=
  hs.setCalls (fun g hg => hs.calls g (List.mem_cons_of_mem _ hg))
    (fun _ _ _ _ hmem => List.mem_cons_of_mem _ hmem) (fun _ _ => (pending_quiet h).symm)
    fun _ _ => (replays_quiet h).symm

/-- A loop that has called every collector ends. -/
theorem Lists.Inv.endLoop
    (hs : ({ s with stack := .notifying i v [] none :: calls } : Lists ι V C).Inv) :
    ({ s with stack := calls } : Lists ι V C).Inv :=
  hs.setCalls (fun g hg => hs.calls g (List.mem_cons_of_mem _ hg))
    (fun _ _ _ _ hmem => List.mem_cons_of_mem _ hmem)
    (fun _ _ => by rw [pending, if_neg fun h => List.not_mem_nil h.2]) fun _ _ => rfl

/-- The code of a collector in a loop returns. -/
theorem Lists.Inv.returned
    (hs : ({ s with stack := .notifying i v rest (some c) :: calls } : Lists ι V C).Inv) :
    ({ s with stack := .notifying i v rest none :: calls } : Lists ι V C).Inv := by
  have hcalls := List.forall_mem_cons.mp hs.calls
  refine hs.setCalls (List.forall_mem_cons.mpr ⟨⟨hcalls.1.1, fun c h => by cases h⟩, hcalls.2⟩)
    (fun j w rest' d hmem => ?_) (fun _ _ => rfl) fun _ _ => rfl
  obtain hmem | hmem := List.mem_cons.mp hmem
  · cases hmem
  · exact List.mem_cons_of_mem _ hmem

end Calls

/-! ## The table -/

section Table

variable {s : Lists ι V C} {calls : List (ListCall ι V C)} {i j : ι} {c d : C} {v : V}
  {x y : ListVariable V C} {pend : List V} {reps : List ℕ} {received : List V} {b b' : Bool}
  {rest l : List C} {next : ℕ}

omit [DecidableEq ι] [DecidableEq C] in
theorem TableOk.freeze (h : TableOk x) : TableOk x.freeze :=
  ⟨fun _ => rfl, fun h => (by cases h), List.nodup_nil, h.nodup⟩

omit [DecidableEq ι] [DecidableEq C] in
theorem Phase.freeze (h : Phase x c pend reps received b b') :
    Phase x.freeze c pend reps received b b' := by
  cases h with
  | unregistered hreps hpend htable hreceived =>
      exact .unregistered hreps hpend List.not_mem_nil hreceived
  | replayed next hreps hnext hpend htable hreceived =>
      exact .replayed next hreps hnext hpend List.not_mem_nil hreceived
  | listed hreps htable hreceived => exact .listed hreps (.inl rfl) hreceived
  | completed hreps hpend htable =>
      exact .completed (hreps.imp_right fun h => ⟨h.1, rfl⟩) hpend List.not_mem_nil

omit [DecidableEq ι] [DecidableEq C] in
/-- For a collector, only its own entry in the table matters. -/
theorem Phase.setTable (h : Phase x c pend reps received b b') (hvalue : y.value = x.value)
    (hhas : y.hasValue = x.hasValue) (htable : c ∈ y.table ↔ c ∈ x.table) :
    Phase y c pend reps received b b' := by
  cases h with
  | unregistered hreps hpend hc hreceived =>
      exact .unregistered hreps hpend (mt htable.mp hc) hreceived
  | replayed next hreps hnext hpend hc hreceived =>
      exact .replayed next hreps (hvalue ▸ hnext) hpend (mt htable.mp hc) (hvalue ▸ hreceived)
  | listed hreps hc hreceived =>
      exact .listed hreps (hc.imp (hhas ▸ ·) htable.mpr) (hvalue ▸ hreceived)
  | completed hreps hpend hc =>
      exact .completed (hvalue ▸ hhas ▸ hreps) hpend (mt htable.mp hc)

omit [DecidableEq C] in
theorem vars_setVar (s : Lists ι V C) (i : ι) (x : ListVariable V C) (j : ι) :
    (s.setVar i x).vars j = if j = i then x else s.vars j := by
  by_cases hj : j = i
  · subst hj
    simp [Lists.setVar]
  · simp [Lists.setVar, hj]

theorem Lists.Inv.setVar (hs : s.Inv) (htable : TableOk x)
    (hphase : ∀ c, Phase x c (pending i c s.stack) (replays i c s.stack) (s.received i c)
      (s.registered i c) (s.done i c)) : (s.setVar i x).Inv := by
  refine ⟨fun j => ?_, hs.calls, hs.current, fun j d => ?_⟩
  · rw [vars_setVar]
    split
    · exact htable
    · exact hs.table j
  · rw [vars_setVar]
    by_cases hj : j = i
    · subst hj
      rw [if_pos rfl]
      exact hphase d
    · rw [if_neg hj]
      exact hs.phase j d

theorem Lists.Inv.freeze (hs : s.Inv) (i : ι) : (s.setVar i (s.vars i).freeze).Inv :=
  hs.setVar (hs.table i).freeze fun c => (hs.phase i c).freeze

/-! ## One value -/

/-- A new value is still to come for those who are listed, and for nobody else. -/
theorem Phase.append (h : Phase x c pend reps received b b') (hhas : x.hasValue = false) (v : V) :
    Phase { x with value := x.value ++ [v] } c (if c ∈ x.table then v :: pend else pend) reps
      received b b' := by
  cases h with
  | unregistered hreps hpend hc hreceived =>
      rw [if_neg hc]
      exact .unregistered hreps hpend hc hreceived
  | replayed next hreps hnext hpend hc hreceived =>
      rw [if_neg hc]
      refine .replayed next hreps ?_ hpend hc ?_
      · rw [List.length_append]
        exact Nat.le_add_right_of_le hnext
      · rw [hreceived, List.take_append_of_le_length hnext]
  | listed hreps hc hreceived =>
      have hc := hc.resolve_left (by simp [hhas])
      rw [if_pos hc]
      refine .listed hreps (.inr hc) ?_
      calc received ++ v :: pend
        _ |>.Perm (v :: (received ++ pend)) := List.perm_middle
        _ |>.Perm (v :: x.value) := hreceived.cons v
        _ |>.Perm (x.value ++ [v]) := (List.perm_append_singleton v x.value).symm
  | completed hreps hpend hc =>
      rw [if_neg hc]
      refine .completed (.inl (hreps.resolve_right fun h => ?_)) hpend hc
      rw [hhas] at h
      cases h.2

theorem Lists.Inv.append (hs : s.Inv) (hhas : (s.vars i).hasValue = false)
    (hl : (s.vars i).listeners = some l) (hv : v ∉ (s.vars i).value) :
    ({ s.setVar i { s.vars i with value := (s.vars i).value ++ [v] } with
        stack := .notifying i v l none :: s.stack } : Lists ι V C).Inv := by
  have htable : (s.vars i).table = l := by rw [ListVariable.table, hl]; rfl
  have hok := hs.table i
  refine ⟨fun j => ?_,
    List.forall_mem_cons.mpr ⟨⟨htable ▸ hok.nodupTable, fun c h => ?_⟩, hs.calls⟩,
    fun j d w rest hmem => ?_, fun j d => ?_⟩
  · simp only [vars_setVar]
    split
    · refine ⟨hok.frozen, hok.listeners, hok.nodupTable, ?_⟩
      exact List.nodup_append.mpr ⟨hok.nodup, List.nodup_singleton v, fun a ha b hb hab =>
        hv (List.mem_singleton.mp hb ▸ hab ▸ ha)⟩
    · exact hs.table j
  · cases h
  · obtain hmem | hmem := List.mem_cons.mp hmem
    · cases hmem
    · exact hs.current j d w rest hmem
  · simp only [vars_setVar]
    by_cases hj : j = i
    · subst hj
      have h := (hs.phase j d).append hhas v
      rw [htable] at h
      simp only [pending, replays, true_and]
      exact h
    · rw [if_neg hj, pending, if_neg fun h => hj h.1.symm]
      exact hs.phase j d

/-- The next collector of a loop is called. -/
theorem Lists.Inv.deliverNext
    (hs : ({ s with stack := .notifying i v (c :: rest) none :: calls } : Lists ι V C).Inv) :
    (({ s with stack := .notifying i v rest (some c) :: calls } : Lists ι V C).deliver i c v).Inv
      ∧ s.done i c = false := by
  have hcalls := List.forall_mem_cons.mp hs.calls
  have hnodup := List.nodup_cons.mp hcalls.1.1
  have hlisted : Phase (s.vars i) c (pending i c calls) (replays i c calls)
      (s.received i c ++ [v]) (s.registered i c) (s.done i c)
      ∧ s.registered i c = true ∧ replays i c calls = [] ∧ s.done i c = false := by
    have h := hs.phase i c
    simp only [pending, replays, List.mem_cons_self, and_self, if_true] at h
    generalize s.registered i c = b at h ⊢
    generalize s.done i c = b' at h ⊢
    cases h with
    | unregistered hreps hpend => cases hpend
    | replayed next hreps hnext hpend => cases hpend
    | listed hreps htable hreceived =>
        refine ⟨.listed hreps htable ?_, rfl, hreps, rfl⟩
        rwa [List.append_assoc]
    | completed hreps hpend => cases hpend
  refine ⟨⟨hs.table, List.forall_mem_cons.mpr ⟨⟨hnodup.2, fun d hd => ?_⟩, hcalls.2⟩,
    fun j d w rest' hmem => ?_, fun j d => ?_⟩, hlisted.2.2.2⟩
  · obtain rfl := Option.some.inj hd
    exact hnodup.1
  · obtain hmem | hmem := List.mem_cons.mp hmem
    · cases hmem
      exact ⟨hlisted.2.1, hlisted.2.2.1⟩
    · exact hs.current j d w rest' (List.mem_cons_of_mem _ hmem)
  · simp only [Lists.deliver]
    by_cases hjd : j = i ∧ d = c
    · obtain ⟨rfl, rfl⟩ := hjd
      rw [if_pos ⟨rfl, rfl⟩, pending, if_neg fun h => hnodup.1 h.2]
      exact hlisted.1
    · have hrest : (i = j ∧ d ∈ c :: rest) ↔ (i = j ∧ d ∈ rest) := by
        refine and_congr_right fun hij => ?_
        rw [List.mem_cons, or_iff_right fun hdc => hjd ⟨hij.symm, hdc⟩]
      have h := hs.phase j d
      simp only [pending, replays, hrest] at h
      rw [if_neg hjd]
      exact h

/-! ## Registering and completing -/

/-- A collector that no loop has to reach any more is taken off the table. -/
theorem Lists.Inv.unregister (hs : s.Inv) (hregistered : s.registered i c = true)
    (hreplays : replays i c s.stack = []) (hpending : pending i c s.stack = [])
    (hl : (s.vars i).listeners = some l) (n : ℕ) :
    ({ s.setVar i { s.vars i with listeners := some (l.erase c), nbGradualWaiters := n } with
        done := mark s.done i c } : Lists ι V C).Inv := by
  have htable : (s.vars i).table = l := by rw [ListVariable.table, hl]; rfl
  have hok := hs.table i
  have hl' := htable ▸ hok.nodupTable
  refine ⟨fun j => ?_, hs.calls, hs.current, fun j d => ?_⟩
  · simp only [vars_setVar]
    split
    · refine ⟨fun h => ?_, fun _ => rfl, hl'.erase c, hok.nodup⟩
      rw [hok.frozen h] at hl
      cases hl
    · exact hs.table j
  · simp only [vars_setVar, mark]
    by_cases hjd : j = i ∧ d = c
    · obtain ⟨rfl, rfl⟩ := hjd
      rw [if_pos rfl, if_pos ⟨rfl, rfl⟩]
      have h : Phase { s.vars j with listeners := some (l.erase d), nbGradualWaiters := n } d
          (pending j d s.stack) (replays j d s.stack) (s.received j d) (s.registered j d) true := by
        rw [hregistered]
        exact .completed (.inl hreplays) hpending fun h => (hl'.mem_erase_iff.mp h).1 rfl
      exact h
    · rw [if_neg hjd]
      split
      · next hj =>
          subst hj
          refine (hs.phase j d).setTable rfl rfl ?_
          rw [htable]
          exact List.mem_erase_of_ne fun hdc => hjd ⟨rfl, hdc⟩
      · exact hs.phase j d

/-- Other collectors do not notice a replay. -/
theorem replays_of_ne {busy : Bool} (h : ¬ (j = i ∧ d = c)) :
    replays j d (.replaying (V := V) i c next busy :: calls) = replays j d calls := by
  rw [replays, if_neg fun h' => h ⟨h'.1.symm, h'.2.symm⟩]

theorem replays_self {busy : Bool} :
    replays i c (.replaying (V := V) i c next busy :: calls) = next :: replays i c calls := by
  rw [replays, if_pos ⟨rfl, rfl⟩]

/-- A collector is registered for the first time. -/
theorem Lists.Inv.listen (hs : s.Inv) (hregistered : s.registered i c = false) :
    ({ s with
        stack := .replaying i c 0 false :: s.stack
        registered := mark s.registered i c } : Lists ι V C).Inv := by
  refine ⟨hs.table, List.forall_mem_cons.mpr ⟨trivial, hs.calls⟩, fun j d w rest hmem => ?_,
    fun j d => ?_⟩
  · obtain hmem | hmem := List.mem_cons.mp hmem
    · cases hmem
    · have h := hs.current j d w rest hmem
      have hjd : ¬ (j = i ∧ d = c) := by
        rintro ⟨rfl, rfl⟩
        rw [hregistered] at h
        cases h.1
      refine ⟨?_, ?_⟩
      · simp only [mark]
        split
        · rfl
        · exact h.1
      · exact (replays_of_ne hjd).trans h.2
  · have h := hs.phase j d
    by_cases hjd : j = i ∧ d = c
    · obtain ⟨rfl, rfl⟩ := hjd
      simp only [mark, replays, pending, and_self, if_true]
      rw [hregistered] at h
      generalize s.done j d = b' at h ⊢
      cases h with
      | unregistered hreps hpend htable hreceived =>
          exact .replayed 0 (by rw [hreps]) (Nat.zero_le _) hpend htable hreceived
    · simp only [mark, replays_of_ne hjd, pending, if_neg hjd]
      exact h

omit [DecidableEq C] in
/-- What the replay of a collector knows. -/
theorem Phase.of_replay (h : Phase x c pend (next :: reps) received b b') :
    reps = [] ∧ pend = [] ∧ c ∉ x.table ∧ b = true
      ∧ (next ≤ x.value.length ∧ received = x.value.take next ∧ b' = false
        ∨ next = x.value.length ∧ x.hasValue = true ∧ b' = true) := by
  cases h with
  | unregistered hreps => cases hreps
  | replayed next' hreps hnext hpend htable hreceived =>
      obtain ⟨rfl, rfl⟩ := List.cons.inj hreps
      exact ⟨rfl, hpend, htable, rfl, .inl ⟨hnext, hreceived, rfl⟩⟩
  | listed hreps => cases hreps
  | completed hreps hpend htable =>
      obtain ⟨hreps, hhas⟩ := hreps.resolve_left (List.cons_ne_nil _ _)
      obtain ⟨rfl, rfl⟩ := List.cons.inj hreps
      exact ⟨rfl, hpend, htable, rfl, .inr ⟨rfl, hhas, rfl⟩⟩

/-- The next value is replayed. -/
theorem Lists.Inv.replayNext
    (hs : ({ s with stack := .replaying i c next false :: calls } : Lists ι V C).Inv)
    (hv : (s.vars i).value[next]? = some v) :
    (({ s with stack := .replaying i c (next + 1) true :: calls } : Lists ι V C).deliver i c v).Inv
      ∧ s.done i c = false := by
  have hself := hs.phase i c
  simp only [replays_self] at hself
  obtain ⟨hlt, hget⟩ := List.getElem?_eq_some_iff.mp hv
  obtain ⟨hreps, hpend, htable, hregistered, hcase⟩ := hself.of_replay
  obtain ⟨-, hreceived, hdone⟩ := hcase.resolve_right fun h => by omega
  refine ⟨⟨hs.table, fun f hf => ?_, fun j d w rest hmem => ?_, fun j d => ?_⟩, hdone⟩
  · obtain rfl | hf := List.mem_cons.mp hf
    · trivial
    · exact hs.calls f (List.mem_cons_of_mem _ hf)
  · obtain hmem | hmem := List.mem_cons.mp hmem
    · cases hmem
    · have h := hs.current j d w rest (List.mem_cons_of_mem _ hmem)
      have hjd : ¬ (j = i ∧ d = c) := by
        rintro ⟨rfl, rfl⟩
        rw [replays_self] at h
        cases h.2
      rw [replays_of_ne hjd] at h
      refine ⟨h.1, ?_⟩
      simp only [Lists.deliver, replays_of_ne hjd]
      exact h.2
  · simp only [Lists.deliver]
    by_cases hjd : j = i ∧ d = c
    · obtain ⟨rfl, rfl⟩ := hjd
      rw [if_pos ⟨rfl, rfl⟩, replays_self, hregistered, hdone, hreps]
      refine .replayed (next + 1) rfl hlt hpend htable ?_
      rw [hreceived, List.take_succ_eq_append_getElem hlt, hget]
    · have h := hs.phase j d
      simp only [replays_of_ne hjd] at h
      rw [if_neg hjd, replays_of_ne hjd]
      exact h

/-- A collector in a replay returns. It may be done when it has had the last value of a frozen
list. -/
theorem Lists.Inv.replayReturned
    (hs : ({ s with stack := .replaying i c next true :: calls } : Lists ι V C).Inv)
    {done : Bool} (hdone : done = true → (s.vars i).hasValue = true
      ∧ next = (s.vars i).value.length) :
    ({ s with
        stack := .replaying i c next false :: calls
        done := if done then mark s.done i c else s.done } : Lists ι V C).Inv := by
  have hcalls : ({ s with stack := .replaying i c next false :: calls } : Lists ι V C).Inv := by
    refine hs.setCalls (List.forall_mem_cons.mpr ⟨trivial, (List.forall_mem_cons.mp hs.calls).2⟩)
      (fun j w rest d hmem => ?_) (fun _ _ => rfl) fun _ _ => rfl
    obtain hmem | hmem := List.mem_cons.mp hmem
    · cases hmem
    · exact List.mem_cons_of_mem _ hmem
  cases done with
  | false => exact hcalls
  | true =>
      obtain ⟨hhas, hnext⟩ := hdone rfl
      refine ⟨hcalls.table, hcalls.calls, hcalls.current, fun j d => ?_⟩
      have h := hcalls.phase j d
      simp only [mark, if_true]
      by_cases hjd : j = i ∧ d = c
      · obtain ⟨rfl, rfl⟩ := hjd
        simp only [replays_self] at h
        simp only [replays_self, and_self, if_true]
        obtain ⟨hreps, hpend, htable, hregistered, -⟩ := h.of_replay
        rw [hregistered]
        exact .completed (.inr ⟨by rw [hreps, hnext], hhas⟩) hpend htable
      · rw [if_neg hjd]
        exact h

/-- A replay ends. The collector is listed now, or the list is frozen. -/
theorem Lists.Inv.endReplay
    (hs : ({ s with stack := .replaying i c next false :: calls } : Lists ι V C).Inv)
    (hnext : (s.vars i).value.length ≤ next) (htableOk : TableOk x)
    (hvalue : x.value = (s.vars i).value) (hhas : x.hasValue = (s.vars i).hasValue)
    (hothers : ∀ d, d ≠ c → (d ∈ x.table ↔ d ∈ (s.vars i).table))
    (hself : x.hasValue = true ∧ c ∉ x.table ∨ x.hasValue = false ∧ c ∈ x.table) :
    ({ s.setVar i x with stack := calls } : Lists ι V C).Inv := by
  refine ⟨fun j => ?_, (List.forall_mem_cons.mp hs.calls).2, fun j d w rest hmem => ?_,
    fun j d => ?_⟩
  · simp only [vars_setVar]
    split
    · exact htableOk
    · exact hs.table j
  · have h := hs.current j d w rest (List.mem_cons_of_mem _ hmem)
    refine ⟨h.1, ?_⟩
    have hreplays := h.2
    simp only at hreplays ⊢
    by_cases hjd : j = i ∧ d = c
    · obtain ⟨rfl, rfl⟩ := hjd
      rw [replays_self] at hreplays
      cases hreplays
    · rwa [replays_of_ne hjd] at hreplays
  · simp only [vars_setVar]
    have h := hs.phase j d
    by_cases hjd : j = i ∧ d = c
    · obtain ⟨rfl, rfl⟩ := hjd
      simp only [replays_self] at h
      obtain ⟨hreps, hpend, -, hregistered, hcase⟩ := h.of_replay
      have hpend' : pending j d calls = [] := hpend
      rw [if_pos rfl]
      show Phase x d (pending j d calls) (replays j d calls) (s.received j d)
        (s.registered j d) (s.done j d)
      rw [hregistered, hreps, hpend']
      obtain ⟨hle, hreceived, hdone⟩ | ⟨-, hfrozen, hdone⟩ := hcase
      · rw [hdone]
        refine .listed rfl (hself.imp And.left And.right) ?_
        rw [List.append_nil, hreceived, hvalue, List.take_of_length_le hnext]
      · rw [hdone]
        refine .completed (.inl rfl) rfl (hself.resolve_right fun h => ?_).2
        rw [hhas, hfrozen] at h
        cases h.1
    · simp only [replays_of_ne hjd] at h
      split
      · next hj =>
          subst hj
          exact h.setTable hvalue hhas (hothers d fun hdc => hjd ⟨rfl, hdc⟩)
      · exact h

end Table

/-! ## Steps -/

/-- A collector that is done receives nothing. -/
def CompletedKept (s s' : Lists ι V C) : Prop :=
  ∀ i c, s.done i c = true → s'.done i c = true ∧ s'.received i c = s.received i c

/-- The invariant holds after a step, those who are done receive nothing, and an error is one of
the model. -/
def StepOk (s : Lists ι V C) : Except ListError (Lists ι V C) → Prop
  | .ok s' => s'.Inv ∧ CompletedKept s s'
  | .error e => e = .model

section Steps

variable {s s' : Lists ι V C} {f : ListCall ι V C} {calls : List (ListCall ι V C)} {i : ι} {c : C}
  {v : V} {rest : List C}

omit [DecidableEq ι] [DecidableEq C] in
theorem completedKept_of_eq (hreceived : s'.received = s.received) (hdone : s'.done = s.done) :
    CompletedKept s s' := fun i c h => by rw [hreceived, hdone]; exact ⟨h, rfl⟩

theorem completedKept_mark (hreceived : s'.received = s.received)
    (hdone : s'.done = Lists.mark s.done i c) : CompletedKept s s' := fun j d h => by
  rw [hreceived, hdone, Lists.mark]
  refine ⟨?_, rfl⟩
  split
  · rfl
  · exact h

theorem completedKept_deliver (hdone : s.done i c = false)
    (hreceived : s'.received = (s.deliver i c v).received) (hdone' : s'.done = s.done) :
    CompletedKept s s' := fun j d h => by
  rw [hreceived, hdone', Lists.deliver]
  refine ⟨h, if_neg ?_⟩
  rintro ⟨rfl, rfl⟩
  rw [hdone] at h
  cases h

theorem Lists.Inv.eta (hs : s.Inv) (h : s.stack = calls) :
    ({ s with stack := calls } : Lists ι V C).Inv := by
  subst h
  exact hs

namespace ListSetting

variable [DecidableEq V] {r : ListSetting ι V C}

theorem setValue_ok (hs : ({ s with stack := calls } : Lists ι V C).Inv) (recur : Bool) :
    StepOk s (r.setValue s i v recur calls) := by
  rw [setValue]
  by_cases hhas : (s.vars i).hasValue = true
  · simp only [if_pos hhas]
    split
    · exact ⟨hs, completedKept_of_eq rfl rfl⟩
    · rfl
  · simp only [if_neg hhas]
    have hfalse := Bool.eq_false_iff.mpr hhas
    split
    · split
      · exact ⟨hs, completedKept_of_eq rfl rfl⟩
      · next hv =>
          split
          · next hl =>
              have htable := (hs.table i).listeners hfalse
              cases hl.symm.trans htable
          · next l hl =>
              have hpush := hs.push (f := .settingCounterpart i v recur) rfl
              exact ⟨hpush.append hfalse hl hv, completedKept_of_eq rfl rfl⟩
    · rfl

omit [DecidableEq V] in
theorem checkHigh_ok (hs : ({ s with stack := calls } : Lists ι V C).Inv) :
    StepOk s (r.checkHigh s i calls) := by
  rw [checkHigh]
  split
  · exact ⟨hs, completedKept_of_eq rfl rfl⟩
  · split
    · rfl
    · split
      · exact ⟨hs.freeze i, completedKept_of_eq rfl rfl⟩
      · exact ⟨hs, completedKept_of_eq rfl rfl⟩

omit [DecidableEq V] in
theorem register_ok {next : ℕ}
    (hs : ({ s with stack := .replaying i c next false :: calls } : Lists ι V C).Inv)
    (hnext : (s.vars i).value.length ≤ next) : StepOk s (r.register s i c calls) := by
  have hok : TableOk (s.vars i) := hs.table i
  have hphase := hs.phase i c
  simp only [replays_self] at hphase
  obtain ⟨-, -, hc, -⟩ := hphase.of_replay
  have hc : c ∉ (s.vars i).table := hc
  rw [register]
  by_cases hhas : (s.vars i).hasValue = true
  · have h := hs.endReplay hnext hok rfl rfl (fun _ _ => Iff.rfl) (.inl ⟨hhas, hc⟩)
    have hself : s.setVar i (s.vars i) = s := by rw [Lists.setVar, Function.update_eq_self]
    rw [hself] at h
    simp only [if_pos hhas]
    exact ⟨h, completedKept_of_eq rfl rfl⟩
  · have hfalse := Bool.eq_false_iff.mpr hhas
    have hl := hok.listeners hfalse
    simp only [if_neg hhas]
    split
    · next hnone => cases hnone.symm.trans hl
    · next l hl' =>
        obtain rfl := Option.some.inj (hl.symm.trans hl')
        rw [if_neg hc]
        refine ⟨hs.endReplay hnext ⟨fun h => absurd h hhas, fun _ => rfl, ?_, hok.nodup⟩ rfl rfl
          (fun d hd => ?_) (.inr ⟨hfalse, List.mem_append_right _ (List.mem_singleton_self c)⟩),
          completedKept_of_eq rfl rfl⟩
        · exact List.nodup_append.mpr ⟨hok.nodupTable, List.nodup_singleton c,
            fun a ha b hb hab => hc (List.mem_singleton.mp hb ▸ hab ▸ ha)⟩
        · refine ⟨fun h => ?_, fun h => List.mem_append_left _ h⟩
          exact (List.mem_append.mp h).resolve_right fun h => hd (List.mem_singleton.mp h)

omit [DecidableEq V] in
theorem unregister_ok
    (hs : ({ s with stack := .notifying i v rest (some c) :: calls } : Lists ι V C).Inv)
    (hc : c ∈ (s.vars i).table) (hpending : pending i c calls = []) :
    StepOk s (r.unregister s i c (.notifying i v rest none :: calls)) := by
  have hok : TableOk (s.vars i) := hs.table i
  have hcurrent := hs.current i c v rest (List.mem_cons_self ..)
  have hrest := (hs.calls _ (List.mem_cons_self ..)).2 c rfl
  have hl : (s.vars i).listeners = some (s.vars i).table := by
    cases hhas : (s.vars i).hasValue with
    | false => exact hok.listeners hhas
    | true =>
        rw [ListVariable.table, hok.frozen hhas] at hc
        cases hc
  rw [unregister]
  split
  · next hnone => cases hnone.symm.trans hl
  next l hl' =>
  obtain rfl := Option.some.inj (hl.symm.trans hl')
  rw [if_pos hc]
  refine ⟨hs.returned.unregister hcurrent.1 hcurrent.2 ?_ hl _, completedKept_mark rfl rfl⟩
  show pending i c (.notifying i v rest none :: calls) = []
  rw [pending, if_neg fun h => hrest h.2]
  exact hpending

theorem proceed_ok (hs : s.Inv) {o : Except ListError (Lists ι V C)} (h : r.proceed s = some o) :
    StepOk s o := by
  rw [proceed] at h
  split at h
  · cases h
  · next i v recur calls hstack =>
      obtain rfl := Option.some.inj h
      exact setValue_ok ((hs.eta hstack).pop rfl) recur
  · next i calls hstack =>
      obtain rfl := Option.some.inj h
      exact ⟨(hs.eta hstack).pop rfl, completedKept_of_eq rfl rfl⟩
  · next i v vs calls hstack =>
      obtain rfl := Option.some.inj h
      have hpop := (hs.eta hstack).pop rfl
      have hpush := (hpop.push (f := .settingList i vs) rfl).push (f := .setting i v true) rfl
      exact ⟨hpush, completedKept_of_eq rfl rfl⟩
  · next i v calls hstack =>
      obtain rfl := Option.some.inj h
      exact ⟨(hs.eta hstack).endLoop, completedKept_of_eq rfl rfl⟩
  · next i v c rest calls hstack =>
      obtain rfl := Option.some.inj h
      obtain ⟨hinv, hdone⟩ := (hs.eta hstack).deliverNext
      exact ⟨hinv, completedKept_deliver hdone rfl rfl⟩
  · cases h
  · next i v calls hstack =>
      have hpop := (hs.eta hstack).pop rfl
      have hcheck := hpop.push (f := .checkingHigh i) rfl
      split at h
      · obtain rfl := Option.some.inj h
        exact ⟨hcheck, completedKept_of_eq rfl rfl⟩
      · next j w hcounterpart =>
          obtain rfl := Option.some.inj h
          exact ⟨hcheck.push (f := .setting j w false) rfl, completedKept_of_eq rfl rfl⟩
  · next i v calls hstack =>
      obtain rfl := Option.some.inj h
      have hpop := (hs.eta hstack).pop rfl
      exact ⟨hpop.push (f := .checkingHigh i) rfl, completedKept_of_eq rfl rfl⟩
  · next i calls hstack =>
      obtain rfl := Option.some.inj h
      exact checkHigh_ok ((hs.eta hstack).pop rfl)
  · next i c next calls hstack =>
      split at h
      · next v hv =>
          obtain rfl := Option.some.inj h
          obtain ⟨hinv, hdone⟩ := (hs.eta hstack).replayNext hv
          exact ⟨hinv, completedKept_deliver hdone rfl rfl⟩
      · next hv =>
          obtain rfl := Option.some.inj h
          exact register_ok (hs.eta hstack) (List.getElem?_eq_none_iff.mp hv)
  · cases h

omit [DecidableEq V] in
theorem answer_ok (hs : s.Inv) {done : Bool} (hok : orderly s (.answer done) = true)
    {o : Except ListError (Lists ι V C)} (h : r.answer s done = some o) : StepOk s o := by
  rw [answer] at h
  split at h
  · next i v rest c calls hstack =>
      cases done with
      | false =>
          obtain rfl := Option.some.inj h
          exact ⟨(hs.eta hstack).returned, completedKept_of_eq rfl rfl⟩
      | true =>
          obtain rfl := Option.some.inj h
          simp only [orderly, hstack, decide_eq_true_eq] at hok
          exact unregister_ok (hs.eta hstack) hok.1 hok.2
  · next i c next calls hstack =>
      obtain rfl := Option.some.inj h
      have hdone : done = true → (s.vars i).hasValue = true
          ∧ next = (s.vars i).value.length := by
        rintro rfl
        simpa only [orderly, hstack, decide_eq_true_eq] using hok
      refine ⟨(hs.eta hstack).replayReturned hdone, ?_⟩
      cases done with
      | false => exact completedKept_of_eq rfl rfl
      | true => exact completedKept_mark rfl rfl
  · cases h

theorem call_ok (hs : s.Inv) {a : ListAction ι V C} (hok : orderly s a = true)
    {o : Except ListError (Lists ι V C)} (h : call s a = some o) : StepOk s o := by
  have hs' : ({ s with stack := s.stack } : Lists ι V C).Inv := hs
  cases a with
  | set i v =>
      obtain rfl := Option.some.inj h
      exact ⟨hs'.push (f := .setting i v true) rfl, completedKept_of_eq rfl rfl⟩
  | setList i vs =>
      rw [call] at h
      split at h
      · obtain rfl := Option.some.inj h
        rfl
      · obtain rfl := Option.some.inj h
        exact ⟨hs'.push (f := .settingList i vs) rfl, completedKept_of_eq rfl rfl⟩
  | setNull i =>
      rw [call] at h
      split at h
      · obtain rfl := Option.some.inj h
        exact ⟨hs.freeze i, completedKept_of_eq rfl rfl⟩
      · obtain rfl := Option.some.inj h
        rfl
  | freeze i =>
      obtain rfl := Option.some.inj h
      exact ⟨hs.freeze i, completedKept_of_eq rfl rfl⟩
  | listen i c =>
      obtain rfl := Option.some.inj h
      have hfresh : s.registered i c = false := by simpa only [orderly, Bool.not_eq_true'] using hok
      exact ⟨hs.listen hfresh, completedKept_of_eq rfl rfl⟩
  | answer done => cases h
  | proceed => cases h

theorem step_ok (hs : s.Inv) {a : ListAction ι V C} (hok : orderly s a = true)
    {o : Except ListError (Lists ι V C)} (h : r.step s a = some o) : StepOk s o := by
  have hcall : (if s.canCall then call s a else none) = some o → StepOk s o := fun h => by
    split at h
    · exact call_ok hs hok h
    · cases h
  cases a with
  | proceed => exact proceed_ok hs h
  | answer done => exact answer_ok hs hok h
  | set i v => exact hcall h
  | setList i vs => exact hcall h
  | setNull i => exact hcall h
  | freeze i => exact hcall h
  | listen i c => exact hcall h

theorem stepOk_ok (hs : s.Inv) {a : ListAction ι V C} (hok : orderly s a = true)
    (h : r.stepOk s a = some s') : s'.Inv ∧ CompletedKept s s' := by
  rw [stepOk] at h
  split at h
  · next s'' hstep =>
      obtain rfl := Option.some.inj h
      exact step_ok hs hok hstep
  · cases h

end ListSetting

end Steps

/-! ## Runs -/

section Runs

variable [DecidableEq V] {r : ListSetting ι V C} {s s' : Lists ι V C}
  {actions : List (ListAction ι V C)}

omit [DecidableEq V] in
theorem inv_init : (Lists.init : Lists ι V C).Inv :=
  ⟨fun _ => ⟨fun h => (by cases h), fun _ => rfl, List.nodup_nil, List.nodup_nil⟩,
    fun _ h => (by cases h), fun _ _ _ _ h => (by cases h),
    fun _ _ => .unregistered rfl rfl List.not_mem_nil rfl⟩

/-- In a run, the collectors that are done receive nothing more. -/
theorem completed_run (hs : s.Inv)
    (hok : Along r.stepOk (fun s a => orderly s a = true) s actions)
    (hrun : run r.stepOk s actions = some s') : CompletedKept s s' := by
  have h : s'.Inv ∧ CompletedKept s s' := by
    refine run_invariant (I := fun t => t.Inv ∧ CompletedKept s t) ?_
      ⟨hs, completedKept_of_eq rfl rfl⟩ hok hrun
    rintro t a t' ⟨ht, hkept⟩ hok hstep
    obtain ⟨ht', hkept'⟩ := ListSetting.stepOk_ok ht hok hstep
    refine ⟨ht', fun i c h => ?_⟩
    obtain ⟨hdone, hreceived⟩ := hkept i c h
    obtain ⟨hdone', hreceived'⟩ := hkept' i c hdone
    exact ⟨hdone', hreceived'.trans hreceived⟩
  exact h.2

/-- **The listener contract.** When all calls have returned, a collector that was registered and
never answered that it is done has received every element of the list exactly once. A collector
that is done receives nothing any more. No step fails inside the code of the lists. -/
theorem listener_contract (r : ListSetting ι V C)
    (hok : Along r.stepOk (fun s a => orderly s a = true) .init actions)
    (hrun : run r.stepOk .init actions = some s) :
    (∀ i c, s.registered i c = true → s.done i c = false → s.stack = [] →
      (s.received i c).Perm (s.vars i).value ∧ (s.vars i).value.Nodup)
    ∧ (∀ i c more s', s.done i c = true →
      Along r.stepOk (fun s a => orderly s a = true) s more → run r.stepOk s more = some s' →
      s'.received i c = s.received i c)
    ∧ ∀ a, orderly s a = true → r.step s a ≠ some (.error .internal) := by
  have hs : s.Inv := run_invariant (fun t a t' ht hok hstep =>
    (ListSetting.stepOk_ok ht hok hstep).1) inv_init hok hrun
  refine ⟨fun i c hregistered hdone hstack => ⟨?_, (hs.table i).nodup⟩, ?_, fun a hok h => ?_⟩
  · have h := hs.phase i c
    rw [hstack, hregistered, hdone] at h
    cases h with
    | replayed next hreps => cases hreps
    | listed hreps htable hreceived =>
        rwa [pending, List.append_nil] at hreceived
  · intro i c more s' hdone hmore hrun'
    exact (completed_run hs hmore hrun' i c hdone).2
  · cases ListSetting.step_ok hs hok h

end Runs

/-! ## Runs of two collectors -/

/-- Lists of at most three values, and collectors that are purely gradual. -/
def threeValues : ListSetting ℕ ℕ ℕ := ⟨fun _ => some 3, fun _ _ => true, fun _ _ => none,
  fun _ => true⟩

/-- The second collector is done with the first value, and the first one assigns the next value
when it receives it. -/
def listened : List (ListAction ℕ ℕ ℕ) :=
  [.listen 0 7, .proceed, .listen 0 8, .proceed, .set 0 1, .proceed, .proceed, .answer false,
    .proceed, .answer true, .proceed, .proceed, .proceed, .set 0 2, .proceed, .proceed, .set 0 3,
    .proceed, .proceed, .answer false, .proceed, .proceed, .proceed, .answer false, .proceed,
    .proceed, .proceed]

theorem listener_contract_listened : ∃ s, run threeValues.stepOk .init listened = some s
    ∧ (s.received 0 7).Perm (s.vars 0).value ∧ (s.vars 0).value = [1, 2, 3]
    ∧ s.received 0 8 = [1] := by
  have hex : ∃ s, run threeValues.stepOk .init listened = some s
      ∧ (s.registered 0 7 = true ∧ s.done 0 7 = false ∧ s.stack.isEmpty = true
        ∧ (s.vars 0).value = [1, 2, 3] ∧ s.received 0 8 = [1]) :=
    exists_run_of_any _ _ _ (by decide)
  obtain ⟨s, hs, hregistered, hdone, hstack, hvalue, hreceived⟩ := hex
  have h := (listener_contract threeValues (by decide) hs).1 0 7 hregistered hdone
    (List.isEmpty_iff.mp hstack)
  exact ⟨s, hs, h.1, hvalue, hreceived⟩

/-- The answer to a replayed value is lost: the collector is done and receives the next value. -/
theorem completed_collector_receives :
    ¬ ∀ (actions more : List (ListAction ℕ ℕ ℕ)) (s s' : Lists ℕ ℕ ℕ),
      run threeValues.stepOk .init actions = some s → run threeValues.stepOk s more = some s' →
      ∀ i c, s.done i c = true → s'.received i c = s.received i c := by
  intro h
  have hex : ∃ s, run threeValues.stepOk .init [.set 0 1, .proceed, .proceed, .proceed, .proceed,
      .listen 0 7, .proceed, .answer true, .proceed] = some s
      ∧ (s.done 0 7 = true ∧ s.received 0 7 = [1] ∧ (run threeValues.stepOk s
        [.set 0 2, .proceed, .proceed]).any (fun s' => decide (s'.received 0 7 = [1, 2])) = true) :=
    exists_run_of_any _ _ _ (by decide)
  obtain ⟨s, hs, hdone, hreceived, hmore⟩ := hex
  obtain ⟨s', hs', hreceived'⟩ := exists_run_of_any _ _ _ hmore
  have hsame := h _ _ s s' hs hs' 0 7 hdone
  rw [hreceived, hreceived'] at hsame
  exact absurd hsame (by decide)

/-- A collector assigns the value that fills the list, and then is done: there is no table to
remove it from. -/
theorem full_list_fails : ∃ s, run threeValues.stepOk .init [.listen 0 7, .proceed,
      .setList 0 [1, 2], .proceed, .proceed, .proceed, .answer false, .proceed, .proceed, .proceed, .proceed, .proceed,
      .proceed, .set 0 3, .proceed, .proceed, .answer false, .proceed, .proceed, .proceed] = some s
    ∧ threeValues.step s (.answer true) = some (.error .internal) :=
  ⟨_, rfl, rfl⟩

/-- A collector is done with a value that it assigns when it receives another one: it is removed
twice. -/
theorem removed_twice_fails : ∃ s, run threeValues.stepOk .init [.listen 0 7, .proceed, .set 0 1,
      .proceed, .proceed, .set 0 2, .proceed, .proceed, .answer true, .proceed, .proceed,
      .proceed] = some s
    ∧ threeValues.step s (.answer true) = some (.error .internal) :=
  ⟨_, rfl, rfl⟩

end Inmanta
