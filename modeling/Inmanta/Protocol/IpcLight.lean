import Inmanta.Lib.Dict
import Inmanta.Lib.Run

/-!
# Calls over an IPC connection

An `IPCClient` keeps the futures of its outstanding calls in a table until
the replies come in, or the connection is lost. The server runs a task for
each request it receives, which replies what becomes of the method.
`IpcConnection.step` interleaves both ends with the frames on their way
between them, with callers that cancel their futures, and with the loss of
the connection.

A future that is done can not be completed again: `set_result` and
`set_exception` raise then. `calls_resolved_iff` says when that, or a
server that does not reply, leaves a caller waiting for ever.
-/

namespace Inmanta

/-- What becomes of a method. `pickles`: the value, or the exception, can be pickled. -/
inductive IpcOutcome (ν ε : Type) where
  | returned (value : ν) (pickles : Bool)
  | raised (exception : ε) (pickles : Bool)
  /-- The method raised `ConnectionLost` itself. -/
  | connectionLost
  /-- The method raised an exception that is no `Exception`, such as a cancellation. -/
  | baseException

/-- What a future is completed with. -/
inductive IpcReply (ν ε : Type) where
  | result (value : ν)
  | exception (exception : ε)
  /-- The result of the method can not be pickled. -/
  | picklingError
  /-- The traceback of an exception that can not be pickled. -/
  | traceback (exception : ε)
  | connectionLost

/-- What the server replies, if it does. -/
def IpcOutcome.reply {ν ε : Type} : IpcOutcome ν ε → Option (IpcReply ν ε)
  | .returned value true => some (.result value)
  | .returned _ false => some .picklingError
  | .raised exception true => some (.exception exception)
  | .raised exception false => some (.traceback exception)
  | .connectionLost | .baseException => none

inductive IpcFuture (ν ε : Type) where
  | pending
  | cancelled
  | done (reply : IpcReply ν ε)

/-- Both ends of a connection. A request without an identifier wants no reply. -/
structure IpcConnection (ι ν ε φ : Type) where
  /-- The keys of the request table of the client, in the order of the calls. -/
  requests : List ι
  /-- The futures of all calls so far, which the callers share with the table. -/
  futures : Dict ι (IpcFuture ν ε)
  toServer : List (Option ι)
  /-- The requests whose methods are running. -/
  dispatching : List (Option ι)
  toClient : List (ι × IpcReply ν ε)
  clientClosing : Bool
  serverClosing : Bool
  /-- `connection_lost` has been called on the client. -/
  lost : Bool
  finalizers : List φ
  /-- The finalizers that were started. -/
  started : List φ
  /-- What became of the methods so far. -/
  outcomes : Dict ι (IpcOutcome ν ε)
  /-- The completions of futures so far. -/
  completions : List (ι × IpcReply ν ε)

inductive IpcAction (ι ν ε φ : Type) where
  | call (id : ι)
  | callNoReply
  | cancel (id : ι)
  | addFinalizer (finalizer : φ)
  /-- `readable`: the frame can be unpickled. -/
  | deliverRequest (readable : Bool)
  | methodEnds (request : Option ι) (outcome : IpcOutcome ν ε)
  | deliverReply (readable : Bool)
  /-- The server side of the connection is closing. -/
  | serverCloses
  | connectionLost

namespace IpcConnection

variable {ι ν ε φ : Type} [DecidableEq ι]

def init : IpcConnection ι ν ε φ where
  requests := []
  futures := .empty
  toServer := []
  dispatching := []
  toClient := []
  clientClosing := false
  serverClosing := false
  lost := false
  finalizers := []
  started := []
  outcomes := .empty
  completions := []

/-- `set_result` or `set_exception`, which raise if the future is done. -/
def complete (s : IpcConnection ι ν ε φ) (id : ι) (reply : IpcReply ν ε) :
    Option (IpcConnection ι ν ε φ) :=
  match s.futures.get? id with
  | some .pending => some { s with
      futures := s.futures.set id (.done reply)
      completions := s.completions ++ [(id, reply)] }
  | _ => none

/-- `IPCClient.call`. The identifier is a new one. -/
def call (s : IpcConnection ι ν ε φ) (id : ι) : Option (IpcConnection ι ν ε φ) :=
  if s.clientClosing ∨ id ∈ s.futures then none
  else some { s with
    requests := s.requests ++ [id]
    futures := s.futures.set id .pending
    toServer := s.toServer ++ [some id] }

def callNoReply (s : IpcConnection ι ν ε φ) : Option (IpcConnection ι ν ε φ) :=
  if s.clientClosing then none else some { s with toServer := s.toServer ++ [none] }

/-- The caller cancels its future, if it is not done. -/
def cancel (s : IpcConnection ι ν ε φ) (id : ι) : Option (IpcConnection ι ν ε φ) :=
  match s.futures.get? id with
  | some .pending => some { s with futures := s.futures.set id .cancelled }
  | _ => none

/-- A request that can not be unpickled makes the server drop the connection. -/
def deliverRequest (s : IpcConnection ι ν ε φ) (readable : Bool) :
    Option (IpcConnection ι ν ε φ) :=
  match s.toServer with
  | [] => none
  | request :: toServer =>
      if s.serverClosing then none
      else if readable then some { s with
        toServer
        dispatching := s.dispatching ++ [request] }
      else some { s with toServer, serverClosing := true }

/-- `send_frame` raises `ConnectionLost` if the connection is closing. -/
def sendReply (s : IpcConnection ι ν ε φ) (id : ι) (reply : IpcReply ν ε) :
    IpcConnection ι ν ε φ :=
  if s.serverClosing then s else { s with toClient := s.toClient ++ [(id, reply)] }

/-- `IPCServer.dispatch`, when the method is over. -/
def methodEnds (s : IpcConnection ι ν ε φ) (request : Option ι) (outcome : IpcOutcome ν ε) :
    Option (IpcConnection ι ν ε φ) :=
  if request ∈ s.dispatching then
    let s := { s with dispatching := s.dispatching.erase request }
    match request with
    | none => some s
    | some id =>
        let s := { s with outcomes := s.outcomes.set id outcome }
        match outcome.reply with
        | none => some s
        | some reply => some (s.sendReply id reply)
  else none

/-- `IPCClient.process_reply`. A future that is done keeps its place in the table, since
completing it raises. -/
def processReply (s : IpcConnection ι ν ε φ) (id : ι) (reply : IpcReply ν ε) :
    IpcConnection ι ν ε φ :=
  if id ∈ s.requests then
    match s.complete id reply with
    | none => s
    | some s => { s with requests := discard s.requests id }
  else s

/-- A reply that can not be unpickled makes the client drop the connection. -/
def deliverReply (s : IpcConnection ι ν ε φ) (readable : Bool) : Option (IpcConnection ι ν ε φ) :=
  match s.toClient with
  | [] => none
  | (id, reply) :: toClient =>
      if s.lost then none
      else if readable then some ({ s with toClient }.processReply id reply)
      else some { s with toClient, clientClosing := true }

/-- Complete the futures one after the other, until one raises. -/
def failAll (s : IpcConnection ι ν ε φ) : List ι → IpcConnection ι ν ε φ × Bool
  | [] => (s, true)
  | id :: ids =>
      match s.complete id .connectionLost with
      | none => (s, false)
      | some s => s.failAll ids

/-- `FinalizingIPCClient.connection_lost`, which the transport calls once. -/
def connectionLost (s : IpcConnection ι ν ε φ) : Option (IpcConnection ι ν ε φ) :=
  if s.lost then none
  else
    let s := { s with lost := true, clientClosing := true, serverClosing := true }
    match s.failAll s.requests with
    | (s, false) => some s
    | (s, true) => some { s with requests := [], started := s.finalizers }

def step (s : IpcConnection ι ν ε φ) : IpcAction ι ν ε φ → Option (IpcConnection ι ν ε φ)
  | .call id => s.call id
  | .callNoReply => s.callNoReply
  | .cancel id => s.cancel id
  | .addFinalizer finalizer =>
      if s.lost then none else some { s with finalizers := s.finalizers ++ [finalizer] }
  | .deliverRequest readable => s.deliverRequest readable
  | .methodEnds request outcome => s.methodEnds request outcome
  | .deliverReply readable => s.deliverReply readable
  | .serverCloses => some { s with serverClosing := true }
  | .connectionLost => s.connectionLost

/-! ## What is expected -/

/-- The future waits for its completion. -/
def Waits (s : IpcConnection ι ν ε φ) (id : ι) : Prop := s.futures.get? id = some .pending

/-- The request of the call, or the reply, is still on its way, or the connection is
being lost. -/
def OnItsWay (s : IpcConnection ι ν ε φ) (id : ι) : Prop :=
  some id ∈ s.toServer ∨ some id ∈ s.dispatching ∨ (∃ reply, (id, reply) ∈ s.toClient)
    ∨ s.clientClosing = true ∨ s.serverClosing = true

/-- Every call is resolved, and once. -/
structure Resolved (s : IpcConnection ι ν ε φ) : Prop where
  own : ∀ id reply, s.futures.get? id = some (.done reply) →
    (reply = .connectionLost ∧ s.lost = true)
      ∨ ∃ outcome, s.outcomes.get? id = some outcome ∧ outcome.reply = some reply
  once : (s.completions.map Prod.fst).Nodup
  completed : ∀ id reply, (id, reply) ∈ s.completions ↔ s.futures.get? id = some (.done reply)
  waits : ∀ id, s.Waits id → s.lost = false ∧ s.OnItsWay id
  finalized : s.lost = true → s.started = s.finalizers

/-- Behind the first future in the table that is done, there is one that is not, or
there are finalizers. -/
def Strands (s : IpcConnection ι ν ε φ) : Prop :=
  ∃ ids id rest, s.requests = ids ++ id :: rest ∧ (∀ x ∈ ids, s.Waits x) ∧ ¬ s.Waits id
    ∧ (s.finalizers ≠ [] ∨ ∃ x ∈ rest, s.Waits x)

/-- A method replies, unless nobody waits for it; and the loss of the connection
finds no cancelled future in the way. -/
def KeepsPromises (s : IpcConnection ι ν ε φ) : IpcAction ι ν ε φ → Prop
  | .methodEnds request outcome => ∀ id, request = some id → s.Waits id →
      outcome.reply ≠ none ∨ s.clientClosing = true ∨ s.serverClosing = true
  | .connectionLost => ¬ s.Strands
  | _ => True

/-! ## Completions -/

variable {s s' : IpcConnection ι ν ε φ} {id : ι} {reply : IpcReply ν ε}

/-- The futures that are done are done once, for a reason. -/
structure Records (s : IpcConnection ι ν ε φ) : Prop where
  own : ∀ id reply, s.futures.get? id = some (.done reply) →
    (reply = .connectionLost ∧ s.lost = true)
      ∨ ∃ outcome, s.outcomes.get? id = some outcome ∧ outcome.reply = some reply
  once : (s.completions.map Prod.fst).Nodup
  completed : ∀ id reply, (id, reply) ∈ s.completions ↔ s.futures.get? id = some (.done reply)

theorem complete_eq (hw : s.Waits id) (reply : IpcReply ν ε) :
    s.complete id reply = some { s with
      futures := s.futures.set id (.done reply)
      completions := s.completions ++ [(id, reply)] } := by
  rw [complete, hw]

theorem complete_eq_none (hw : ¬ s.Waits id) (reply : IpcReply ν ε) :
    s.complete id reply = none := by
  unfold complete
  split
  · rename_i h
    exact absurd h hw
  · rfl

theorem Records.complete (h : s.Records) (hw : s.Waits id)
    (hwhy : (reply = .connectionLost ∧ s.lost = true)
      ∨ ∃ outcome, s.outcomes.get? id = some outcome ∧ outcome.reply = some reply) :
    Records { s with
      futures := s.futures.set id (.done reply)
      completions := s.completions ++ [(id, reply)] } := by
  have hnot : ∀ r, (id, r) ∉ s.completions := fun r hm => by
    cases hw.symm.trans ((h.completed id r).mp hm)
  refine ⟨fun x r hx => ?_, ?_, fun x r => ?_⟩
  · rw [Dict.get?_set] at hx
    split at hx
    · rename_i he
      obtain rfl := IpcFuture.done.inj (Option.some.inj hx)
      rw [he]
      exact hwhy
    · exact h.own x r hx
  · rw [List.map_append, List.nodup_append]
    refine ⟨h.once, List.nodup_singleton _, fun x hx y hy he => ?_⟩
    obtain ⟨⟨x', r⟩, hm, rfl⟩ := List.mem_map.mp hx
    obtain rfl : x' = id := he.trans (List.mem_singleton.mp hy)
    exact hnot r hm
  · rw [List.mem_append, List.mem_singleton, Dict.get?_set, Prod.mk.injEq]
    split
    · rename_i he
      subst he
      rw [or_iff_right (hnot r), Option.some.injEq, IpcFuture.done.injEq]
      exact ⟨fun hx => hx.2.symm, fun hx => ⟨rfl, hx.symm⟩⟩
    · rename_i he
      rw [or_iff_left fun hx => he hx.1]
      exact h.completed x r

/-- Which futures are done does not change. -/
theorem Records.congr (h : s.Records)
    (hf : ∀ x r, s'.futures.get? x = some (.done r) ↔ s.futures.get? x = some (.done r))
    (hc : s'.completions = s.completions) (hl : s.lost = true → s'.lost = true)
    (ho : ∀ x r o, s.futures.get? x = some (.done r) → s.outcomes.get? x = some o →
      s'.outcomes.get? x = some o) : s'.Records := by
  refine ⟨fun x r hx => ?_, hc ▸ h.once, fun x r => ?_⟩
  · have hx := (hf x r).mp hx
    rcases h.own x r hx with ⟨hr, hlost⟩ | ⟨o, hout, hrep⟩
    · exact Or.inl ⟨hr, hl hlost⟩
    · exact Or.inr ⟨o, ho x r o hx hout, hrep⟩
  · rw [hc, hf]
    exact h.completed x r

/-- What the loop over the outstanding requests does: it gets to the first future that
is done. -/
theorem failAll_spec {ids : List ι} (h : s.Records) (hl : s.lost = true) (hn : ids.Nodup) :
    ∃ pre rest futures completions, ids = pre ++ rest
      ∧ s.failAll ids = ({ s with futures, completions }, rest.isEmpty)
      ∧ (∀ x ∈ pre, s.Waits x) ∧ (∀ x, rest.head? = some x → ¬ s.Waits x)
      ∧ (∀ x, futures.get? x = if x ∈ pre then some (.done .connectionLost)
        else s.futures.get? x)
      ∧ Records { s with futures, completions } := by
  induction ids generalizing s with
  | nil => exact ⟨[], [], s.futures, s.completions, rfl, rfl, by simp, by simp, by simp, h⟩
  | cons id ids ih =>
      by_cases hw : s.Waits id
      · obtain ⟨hid, hn⟩ := List.nodup_cons.mp hn
        have hr := h.complete hw (Or.inl ⟨rfl, hl⟩)
        obtain ⟨pre, rest, futures, completions, hids, hfail, hpre, hrest, hget, hrec⟩ :=
          ih hr hl hn
        have hwaits : ∀ x, x ∈ ids → (s.futures.set id (.done .connectionLost)).get? x
            = s.futures.get? x := fun x hx =>
          (Dict.get?_set _ _ _ _).trans (if_neg fun he : x = id => hid (he ▸ hx))
        refine ⟨id :: pre, rest, futures, completions, by rw [hids]; rfl, ?_, fun x hx => ?_,
          fun x hx hwx => ?_, fun x => ?_, hrec⟩
        · rw [failAll, complete_eq hw]
          exact hfail
        · rcases List.mem_cons.mp hx with rfl | hx
          · exact hw
          · have := hpre x hx
            rw [Waits, hwaits x (hids ▸ List.mem_append_left _ hx)] at this
            exact this
        · refine hrest x hx ?_
          rw [Waits, hwaits x (hids ▸ List.mem_append_right _ (List.mem_of_head? hx))]
          exact hwx
        · rw [hget]
          by_cases hx : x ∈ pre
          · rw [if_pos hx, if_pos (List.mem_cons_of_mem _ hx)]
          · rw [if_neg hx, Dict.get?_set]
            by_cases he : x = id
            · rw [if_pos he, if_pos (by simp [he])]
            · rw [if_neg he, if_neg (by simp [he, hx])]
      · refine ⟨[], id :: ids, s.futures, s.completions, rfl, ?_, by simp, fun x hx => ?_, by simp,
          h⟩
        · rw [failAll, complete_eq_none hw]
          rfl
        · obtain rfl := Option.some.inj hx
          exact hw

/-! ## The invariant -/

structure Inv (s : IpcConnection ι ν ε φ) : Prop where
  records : s.Records
  waits : ∀ id, s.Waits id → s.lost = false ∧ s.OnItsWay id
  finalized : s.lost = true → s.started = s.finalizers
  unstarted : s.lost = false → s.started = []
  nodup : s.requests.Nodup
  listed : ∀ id, s.Waits id → id ∈ s.requests
  cancelled : s.lost = false → ∀ id ∈ s.requests, s.Waits id ∨ s.futures.get? id = some .cancelled
  replies : ∀ p ∈ s.toClient, ∃ outcome, s.outcomes.get? p.1 = some outcome
    ∧ outcome.reply = some p.2
  single : ∀ id, s.toServer.count (some id) + s.dispatching.count (some id) ≤ 1
  running : ∀ id, some id ∈ s.toServer ∨ some id ∈ s.dispatching →
    id ∉ s.outcomes ∧ id ∈ s.futures
  known : ∀ id, id ∈ s.outcomes ∨ id ∈ s.requests → id ∈ s.futures
  closing : s.lost = true → s.clientClosing = true

theorem Inv.init : (init : IpcConnection ι ν ε φ).Inv where
  records := ⟨fun _ _ h => (by cases h), List.nodup_nil, fun _ _ =>
    iff_of_false List.not_mem_nil fun h => by cases h⟩
  waits := fun _ h => by cases h
  finalized := fun h => by cases h
  unstarted := fun _ => rfl
  nodup := List.nodup_nil
  listed := fun _ h => by cases h
  cancelled := fun _ _ h => absurd h List.not_mem_nil
  replies := fun _ h => absurd h List.not_mem_nil
  single := fun _ => Nat.zero_le _
  running := fun _ h => h.elim (absurd · List.not_mem_nil) (absurd · List.not_mem_nil)
  known := fun _ h => h.elim (absurd · (Dict.not_mem_empty _)) (absurd · List.not_mem_nil)
  closing := fun h => by cases h

theorem Inv.resolved (h : s.Inv) : s.Resolved :=
  ⟨h.records.own, h.records.once, h.records.completed, h.waits, h.finalized⟩

/-! ## Steps -/

theorem Inv.call (h : s.Inv) (hs : s.call id = some s') : s'.Inv := by
  rw [IpcConnection.call] at hs
  split at hs
  · cases hs
  · rename_i hno
    obtain ⟨hclosing, hfresh⟩ := not_or.mp hno
    obtain rfl := Option.some.inj hs
    have hlost : s.lost = false := by
      by_contra hl
      exact hclosing (h.closing (Bool.not_eq_false _ ▸ hl))
    have hget : ∀ x, (s.futures.set id .pending).get? x =
        if x = id then some .pending else s.futures.get? x := fun x => Dict.get?_set _ _ _ _
    have hreq : id ∉ s.requests := fun hm => hfresh (h.known id (Or.inr hm))
    have hold : ∀ x, x ∈ s.futures → x ≠ id := fun x hx he => hfresh (he ▸ hx)
    refine ⟨h.records.congr (fun x r => ?_) rfl (fun hl => hl) fun _ _ _ _ ho => ho, fun x hx => ⟨hlost, ?_⟩,
      fun hl => (by cases hlost.symm.trans hl), h.unstarted, ?_, fun x hx => ?_, fun _ x hx => ?_, h.replies,
      fun x => ?_, fun x hx => ?_, fun x hx => ?_, h.closing⟩
    · rw [hget]
      split
      · rename_i he
        rw [he, Dict.not_mem_iff.mp hfresh]
        exact iff_of_false (fun hx => by cases hx) fun hx => by cases hx
      · rfl
    · rw [Waits, hget] at hx
      split at hx
      · rename_i he
        exact Or.inl (by simp [he])
      · exact (h.waits x hx).2.imp_left (List.mem_append_left _)
    · rw [List.nodup_append]
      refine ⟨h.nodup, List.nodup_singleton _, fun x hx y hy he => hreq ?_⟩
      rwa [← List.mem_singleton.mp hy, ← he]
    · rw [Waits, hget] at hx
      split at hx
      · rename_i he
        exact List.mem_append_right _ (List.mem_singleton.mpr he)
      · exact List.mem_append_left _ (h.listed x hx)
    · rw [Waits, hget]
      rcases List.mem_append.mp hx with hx | hx
      · have hne := hold x (h.known x (Or.inr hx))
        rw [if_neg hne]
        exact h.cancelled hlost x hx
      · rw [if_pos (List.mem_singleton.mp hx)]
        exact Or.inl rfl
    · have hcount := h.single x
      by_cases he : x = id
      · subst he
        have h0 : s.toServer.count (some x) = 0 := List.count_eq_zero.mpr fun hm =>
          hfresh (h.running x (Or.inl hm)).2
        have h0' : s.dispatching.count (some x) = 0 := List.count_eq_zero.mpr fun hm =>
          hfresh (h.running x (Or.inr hm)).2
        simp [List.count_append, h0, h0']
      · have hne : some id ≠ some x := fun hx => he (Option.some.inj hx).symm
        rw [List.count_append, List.count_singleton, if_neg (by simpa using hne)]
        exact hcount
    · have hx' : (some x ∈ s.toServer ∨ some x ∈ s.dispatching) ∨ x = id := by
        rcases hx with hx | hx
        · rcases List.mem_append.mp hx with hx | hx
          · exact Or.inl (Or.inl hx)
          · exact Or.inr (Option.some.inj (List.mem_singleton.mp hx))
        · exact Or.inl (Or.inr hx)
      rcases hx' with hx | rfl
      · exact ⟨(h.running x hx).1, Dict.mem_set.mpr (Or.inr (h.running x hx).2)⟩
      · exact ⟨fun hm => hfresh (h.known x (Or.inl hm)), Dict.mem_set.mpr (Or.inl rfl)⟩
    · refine Dict.mem_set.mpr ?_
      rcases hx with hx | hx
      · exact Or.inr (h.known x (Or.inl hx))
      · rcases List.mem_append.mp hx with hx | hx
        · exact Or.inr (h.known x (Or.inr hx))
        · exact Or.inl (List.mem_singleton.mp hx)

theorem Inv.cancel (h : s.Inv) (hs : s.cancel id = some s') : s'.Inv := by
  rw [IpcConnection.cancel] at hs
  split at hs
  · rename_i hw
    obtain rfl := Option.some.inj hs
    have hget : ∀ x, (s.futures.set id .cancelled).get? x =
        if x = id then some .cancelled else s.futures.get? x := fun x => Dict.get?_set _ _ _ _
    have hwaits : ∀ x, (s.futures.set id .cancelled).get? x = some .pending → s.Waits x :=
      fun x hx => by
        rw [hget] at hx
        split at hx
        · cases hx
        · exact hx
    refine ⟨h.records.congr (fun x r => ?_) rfl (fun hl => hl) fun _ _ _ _ ho => ho,
      fun x hx => h.waits x (hwaits x hx), h.finalized, h.unstarted, h.nodup, fun x hx => h.listed x (hwaits x hx),
      fun hl x hx => ?_, h.replies, h.single, fun x hx => ?_, fun x hx => ?_, h.closing⟩
    · rw [hget]
      split
      · rename_i he
        rw [he, hw]
        exact iff_of_false (fun hx => by cases hx) fun hx => by cases hx
      · rfl
    · rw [Waits, hget]
      split
      · exact Or.inr rfl
      · exact h.cancelled hl x hx
    · exact ⟨(h.running x hx).1, Dict.mem_set.mpr (Or.inr (h.running x hx).2)⟩
    · exact Dict.mem_set.mpr (Or.inr (h.known x hx))
  · cases hs

/-- A step that leaves the futures and the table alone, and only takes frames away
where it closes the connection. -/
theorem Inv.of_frames (h : s.Inv) (hs' : s' = { s with
      toServer := s'.toServer, dispatching := s'.dispatching, toClient := s'.toClient,
      clientClosing := s'.clientClosing, serverClosing := s'.serverClosing })
    (hway : ∀ x, s.Waits x → s.OnItsWay x → s'.OnItsWay x)
    (hreplies : ∀ p ∈ s'.toClient, p ∈ s.toClient)
    (hcount : ∀ x, s'.toServer.count (some x) + s'.dispatching.count (some x)
      ≤ s.toServer.count (some x) + s.dispatching.count (some x))
    (hclosing : s.clientClosing = true → s'.clientClosing = true) : s'.Inv := by
  obtain ⟨hf, hr, hl, hfin, hst, hout, hcomp⟩ : s'.futures = s.futures ∧ s'.requests = s.requests
      ∧ s'.lost = s.lost ∧ s'.finalizers = s.finalizers ∧ s'.started = s.started
      ∧ s'.outcomes = s.outcomes ∧ s'.completions = s.completions := by
    rw [hs']
    exact ⟨rfl, rfl, rfl, rfl, rfl, rfl, rfl⟩
  have hwaits : ∀ x, s'.Waits x ↔ s.Waits x := fun x => by rw [Waits, Waits, hf]
  refine ⟨h.records.congr (by simp [hf]) hcomp (by simp [hl]) (by simp [hout]), fun x hx => ?_, ?_,
    ?_, hr ▸ h.nodup, fun x hx => hr ▸ h.listed x ((hwaits x).mp hx), ?_, fun p hp => ?_,
    fun x => Nat.le_trans (hcount x) (h.single x), fun x hx => ?_, ?_, fun hx => hclosing (h.closing (hl ▸ hx))⟩
  · have hx := (hwaits x).mp hx
    obtain ⟨hlost, hon⟩ := h.waits x hx
    exact ⟨hl ▸ hlost, hway x hx hon⟩
  · rw [hl, hst, hfin]
    exact h.finalized
  · rw [hl, hst]
    exact h.unstarted
  · rw [hl, hr]
    intro hlost x hx
    rw [hwaits, hf]
    exact h.cancelled hlost x hx
  · rw [hout]
    exact h.replies p (hreplies p hp)
  · rw [hout, hf]
    refine h.running x ?_
    have hpos : 0 < s'.toServer.count (some x) + s'.dispatching.count (some x) := by
      rcases hx with hx | hx
      · exact Nat.add_pos_left (List.count_pos_iff.mpr hx) _
      · exact Nat.add_pos_right _ (List.count_pos_iff.mpr hx)
    have hpos := Nat.lt_of_lt_of_le hpos (hcount x)
    by_contra hno
    rw [not_or] at hno
    rw [List.count_eq_zero.mpr hno.1, List.count_eq_zero.mpr hno.2] at hpos
    exact Nat.lt_irrefl 0 hpos
  · rw [hout, hr, hf]
    exact h.known

theorem Inv.deliverRequest (h : s.Inv) {readable : Bool}
    (hs : s.deliverRequest readable = some s') : s'.Inv := by
  rw [IpcConnection.deliverRequest] at hs
  split at hs
  · cases hs
  · rename_i request toServer hto
    split at hs
    · cases hs
    · split at hs
      · obtain rfl := Option.some.inj hs
        refine h.of_frames rfl (fun x _ hon => ?_) (fun _ => id) (fun x => ?_) id
        · rcases hon with hx | hx | hx
          · rw [hto] at hx
            rcases List.mem_cons.mp hx with hx | hx
            · exact Or.inr (Or.inl (List.mem_append_right _ (List.mem_singleton.mpr hx)))
            · exact Or.inl hx
          · exact Or.inr (Or.inl (List.mem_append_left _ hx))
          · exact Or.inr (Or.inr hx)
        · rw [hto]
          simp only [List.count_append, List.count_cons, List.count_nil]
          omega
      · obtain rfl := Option.some.inj hs
        refine h.of_frames rfl (fun x _ _ => ?_) (fun _ => id) (fun x => ?_) id
        · exact Or.inr (Or.inr (Or.inr (Or.inr rfl)))
        · rw [hto]
          simp only [List.count_cons]
          omega

/-- A method that is over is not running any more, and has not been before. -/
theorem Inv.over (h : s.Inv) (hd : some id ∈ s.dispatching) :
    id ∉ s.outcomes ∧ id ∈ s.futures ∧ some id ∉ s.toServer
      ∧ some id ∉ s.dispatching.erase (some id) ∧ ∀ r, (id, r) ∉ s.toClient := by
  obtain ⟨hout, hfut⟩ := h.running id (Or.inr hd)
  have hcount := h.single id
  have hpos := List.count_pos_iff.mpr hd
  refine ⟨hout, hfut, fun hm => ?_, fun hm => ?_, fun r hm => ?_⟩
  · have := List.count_pos_iff.mpr hm
    omega
  · have herase := List.count_pos_iff.mpr hm
    rw [List.count_erase_self] at herase
    omega
  · obtain ⟨o, ho, -⟩ := h.replies _ hm
    exact hout (Dict.mem_of_get? ho)

/-- What the end of the method of a call does, whatever the server replies. -/
theorem Inv.outcome (h : s.Inv) (hd : some id ∈ s.dispatching) {outcome : IpcOutcome ν ε}
    {toClient : List (ι × IpcReply ν ε)}
    (hto : ∀ p, p ∈ toClient ↔ p ∈ s.toClient
      ∨ (s.serverClosing = false ∧ p.1 = id ∧ outcome.reply = some p.2))
    (hgood : s.Waits id → outcome.reply ≠ none ∨ s.clientClosing = true ∨ s.serverClosing = true) :
    Inv { s with
      dispatching := s.dispatching.erase (some id)
      outcomes := s.outcomes.set id outcome
      toClient } := by
  obtain ⟨hout, hfut, hserver, hdisp, hclient⟩ := h.over hd
  have hget : ∀ x, x ≠ id → (s.outcomes.set id outcome).get? x = s.outcomes.get? x :=
    fun x hx => (Dict.get?_set _ _ _ _).trans (if_neg hx)
  have hself : (s.outcomes.set id outcome).get? id = some outcome :=
    (Dict.get?_set _ _ _ _).trans (if_pos rfl)
  refine ⟨h.records.congr (fun _ _ => Iff.rfl) rfl (fun hl => hl) fun x r o _ ho => ?_,
    fun x hx => ?_, h.finalized, h.unstarted, h.nodup, h.listed, h.cancelled, fun p hp => ?_, fun x => ?_,
    fun x hx => ?_, fun x hx => ?_, h.closing⟩
  · have hne : x ≠ id := fun he => hout (he ▸ Dict.mem_of_get? ho)
    exact (hget x hne).trans ho
  · obtain ⟨hlost, hon⟩ := h.waits x hx
    refine ⟨hlost, ?_⟩
    by_cases he : x = id
    · subst he
      rcases hgood hx with hrep | hc | hc
      · by_cases hclosing : s.serverClosing = true
        · exact Or.inr (Or.inr (Or.inr (Or.inr hclosing)))
        · obtain ⟨r, hr⟩ := Option.ne_none_iff_exists'.mp hrep
          refine Or.inr (Or.inr (Or.inl ⟨r, (hto _).mpr (Or.inr ⟨?_, rfl, hr⟩)⟩))
          exact Bool.eq_false_iff.mpr hclosing
      · exact Or.inr (Or.inr (Or.inr (Or.inl hc)))
      · exact Or.inr (Or.inr (Or.inr (Or.inr hc)))
    · rcases hon with hm | hm | ⟨r, hm⟩ | hc
      · exact Or.inl hm
      · have hne : some x ≠ some id := fun hx => he (Option.some.inj hx)
        exact Or.inr (Or.inl ((List.mem_erase_of_ne hne).mpr hm))
      · exact Or.inr (Or.inr (Or.inl ⟨r, (hto _).mpr (Or.inl hm)⟩))
      · exact Or.inr (Or.inr (Or.inr hc))
  · rcases (hto p).mp hp with hp | ⟨-, he, hrep⟩
    · obtain ⟨o, ho, hrep⟩ := h.replies p hp
      have hne : p.1 ≠ id := fun he => hout (he ▸ Dict.mem_of_get? ho)
      exact ⟨o, (hget _ hne).trans ho, hrep⟩
    · rw [he]
      exact ⟨outcome, hself, hrep⟩
  · have hle : (s.dispatching.erase (some id)).count (some x) ≤ s.dispatching.count (some x) :=
      List.Sublist.count_le _ List.erase_sublist
    exact Nat.le_trans (Nat.add_le_add_left hle _) (h.single x)
  · have hx' : some x ∈ s.toServer ∨ some x ∈ s.dispatching :=
      hx.imp_right List.mem_of_mem_erase
    have hne : x ≠ id := fun he => by
      subst he
      exact hx.elim hserver hdisp
    obtain ⟨hout', hfut'⟩ := h.running x hx'
    refine ⟨fun hm => ?_, hfut'⟩
    exact (Dict.mem_set.mp hm).elim hne hout'
  · rcases hx with hx | hx
    · rcases Dict.mem_set.mp hx with rfl | hx
      · exact hfut
      · exact h.known x (Or.inl hx)
    · exact h.known x (Or.inr hx)

theorem Inv.methodEnds (h : s.Inv) {request : Option ι} {outcome : IpcOutcome ν ε}
    (hgood : s.KeepsPromises (.methodEnds request outcome))
    (hs : s.methodEnds request outcome = some s') : s'.Inv := by
  rw [IpcConnection.methodEnds] at hs
  split at hs
  · rename_i hd
    cases request with
    | none =>
        obtain rfl := Option.some.inj hs
        refine h.of_frames rfl (fun x _ hon => ?_) (fun _ hp => hp) (fun x => ?_) fun hc => hc
        · rcases hon with hm | hm | hm
          · exact Or.inl hm
          · exact Or.inr (Or.inl ((List.mem_erase_of_ne (Option.some_ne_none x)).mpr hm))
          · exact Or.inr (Or.inr hm)
        · have hle : (s.dispatching.erase none).count (some x) ≤ s.dispatching.count (some x) :=
            List.Sublist.count_le _ List.erase_sublist
          simp only
          omega
    | some id =>
        cases hrep : outcome.reply with
        | none =>
            rw [hrep] at hs
            obtain rfl := Option.some.inj hs
            exact h.outcome hd (by simp [hrep]) (hgood id rfl)
        | some reply =>
            rw [hrep] at hs
            obtain rfl := Option.some.inj hs
            simp only [sendReply]
            split
            · rename_i hclosing
              exact h.outcome hd (by simp [hclosing]) (hgood id rfl)
            · rename_i hclosing
              refine h.outcome hd (fun p => ?_) (hgood id rfl)
              rw [List.mem_append, List.mem_singleton, hrep, Option.some.injEq,
                Bool.eq_false_iff]
              refine or_congr_right ⟨fun he => ?_, fun ⟨_, he, hr⟩ => Prod.ext he hr.symm⟩
              rw [he]
              exact ⟨hclosing, rfl, rfl⟩
  · cases hs

theorem Inv.deliverReply (h : s.Inv) {readable : Bool}
    (hs : s.deliverReply readable = some s') : s'.Inv := by
  rw [IpcConnection.deliverReply] at hs
  split at hs
  · cases hs
  · rename_i id reply toClient hto
    split at hs
    · cases hs
    · rename_i hlost
      have htail : ∀ p ∈ toClient, p ∈ s.toClient := fun p hp => by
        rw [hto]
        exact List.mem_cons_of_mem _ hp
      -- a reply that nobody waits for
      have hdrop : ¬ s.Waits id → Inv { s with toClient } := fun hno => by
        refine h.of_frames rfl (fun x hx hon => ?_) htail (fun _ => Nat.le_refl _) fun hc => hc
        rcases hon with hm | hm | ⟨r, hm⟩ | hc
        · exact Or.inl hm
        · exact Or.inr (Or.inl hm)
        · rw [hto] at hm
          rcases List.mem_cons.mp hm with he | hm
          · exact absurd ((Prod.mk.inj he).1 ▸ hx) hno
          · exact Or.inr (Or.inr (Or.inl ⟨r, hm⟩))
        · exact Or.inr (Or.inr (Or.inr hc))
      split at hs
      · obtain rfl := Option.some.inj hs
        rw [processReply]
        by_cases hw : s.Waits id
        · have hin : id ∈ s.requests := h.listed id hw
          have hw' : ({ s with toClient } : IpcConnection ι ν ε φ).Waits id := hw
          simp only [hin, if_true, complete_eq hw']
          obtain ⟨o, ho, hrep⟩ := h.replies (id, reply) (by rw [hto]; exact List.mem_cons_self)
          have hrec := h.records.complete hw (Or.inr ⟨o, ho, hrep⟩)
          have hget : ∀ x, (s.futures.set id (.done reply)).get? x =
              if x = id then some (.done reply) else s.futures.get? x := fun x => Dict.get?_set _ _ _ _
          have hwaits : ∀ x, (s.futures.set id (.done reply)).get? x = some .pending →
              s.Waits x ∧ x ≠ id := fun x hx => by
            rw [hget] at hx
            split at hx
            · cases hx
            · exact ⟨hx, ‹_›⟩
          refine ⟨hrec.congr (fun _ _ => Iff.rfl) rfl (fun hl => hl) fun _ _ _ _ ho => ho,
            fun x hx => ?_, h.finalized, h.unstarted, h.nodup.filter _, fun x hx => ?_, fun hl x hx => ?_,
            fun p hp => h.replies p (htail p hp), h.single, fun x hx => ?_, fun x hx => ?_, h.closing⟩
          · obtain ⟨hx, hne⟩ := hwaits x hx
            obtain ⟨hl, hon⟩ := h.waits x hx
            refine ⟨hl, ?_⟩
            rcases hon with hm | hm | ⟨r, hm⟩ | hc
            · exact Or.inl hm
            · exact Or.inr (Or.inl hm)
            · rw [hto] at hm
              rcases List.mem_cons.mp hm with he | hm
              · exact absurd (Prod.mk.inj he).1 hne
              · exact Or.inr (Or.inr (Or.inl ⟨r, hm⟩))
            · exact Or.inr (Or.inr (Or.inr hc))
          · obtain ⟨hx, hne⟩ := hwaits x hx
            exact mem_discard.mpr ⟨h.listed x hx, hne⟩
          · obtain ⟨hx, hne⟩ := mem_discard.mp hx
            rw [Waits, hget, if_neg hne]
            exact h.cancelled hl x hx
          · exact ⟨(h.running x hx).1, Dict.mem_set.mpr (Or.inr (h.running x hx).2)⟩
          · refine Dict.mem_set.mpr (Or.inr (h.known x (hx.imp_right fun hx => ?_)))
            exact (mem_discard.mp hx).1
        · have hw' : ¬ ({ s with toClient } : IpcConnection ι ν ε φ).Waits id := hw
          rw [complete_eq_none hw']
          split <;> exact hdrop hw
      · obtain rfl := Option.some.inj hs
        refine h.of_frames rfl (fun _ _ _ => ?_) htail (fun _ => Nat.le_refl _) fun _ => rfl
        exact Or.inr (Or.inr (Or.inr (Or.inl rfl)))

/-- What the loss of the connection does to the futures. -/
theorem Inv.connectionLost_spec (h : s.Inv) (hs : s.connectionLost = some s') :
    ∃ pre rest futures completions, s.requests = pre ++ rest
      ∧ (∀ x ∈ pre, s.Waits x) ∧ (∀ x, rest.head? = some x → ¬ s.Waits x)
      ∧ (∀ x, futures.get? x = if x ∈ pre then some (.done .connectionLost)
        else s.futures.get? x)
      ∧ Records { s with lost := true, futures, completions }
      ∧ s' = { s with
          lost := true, clientClosing := true, serverClosing := true, futures, completions
          requests := if rest.isEmpty then [] else s.requests
          started := if rest.isEmpty then s.finalizers else s.started } := by
  rw [IpcConnection.connectionLost] at hs
  split at hs
  · cases hs
  · have hrec : Records { s with lost := true, clientClosing := true, serverClosing := true } :=
      h.records.congr (fun _ _ => Iff.rfl) rfl (fun _ => rfl) fun _ _ _ _ ho => ho
    obtain ⟨pre, rest, futures, completions, hreq, hfail, hpre, hrest, hget, hrec'⟩ :=
      failAll_spec hrec rfl h.nodup
    refine ⟨pre, rest, futures, completions, hreq, hpre, hrest, hget,
      hrec'.congr (fun _ _ => Iff.rfl) rfl (fun hl => hl) fun _ _ _ _ ho => ho, ?_⟩
    simp only [hfail] at hs
    cases hempty : rest.isEmpty with
    | true =>
        rw [hempty] at hs
        obtain rfl := Option.some.inj hs
        rfl
    | false =>
        rw [hempty] at hs
        obtain rfl := Option.some.inj hs
        rfl

theorem Inv.connectionLost (h : s.Inv) (hgood : ¬ s.Strands) (hs : s.connectionLost = some s') :
    s'.Inv := by
  have hlost : s.lost = false := by
    rw [IpcConnection.connectionLost] at hs
    split at hs
    · cases hs
    · exact Bool.eq_false_iff.mpr ‹_›
  obtain ⟨pre, rest, futures, completions, hreq, hpre, hrest, hget, hrec, rfl⟩ :=
    h.connectionLost_spec hs
  have hnone : ∀ x, futures.get? x ≠ some .pending := fun x hx => by
    rw [hget] at hx
    split at hx
    · cases hx
    · rename_i hno
      have hmem := h.listed x hx
      rw [hreq] at hmem
      have hmem := (List.mem_append.mp hmem).resolve_left hno
      cases rest with
      | nil => cases hmem
      | cons id rest =>
          rcases List.mem_cons.mp hmem with rfl | hmem
          · exact hrest x rfl hx
          · exact hgood ⟨pre, id, rest, hreq, hpre, hrest id rfl, Or.inr ⟨x, hmem, hx⟩⟩
  have hmem : ∀ x, x ∈ s.futures → x ∈ futures := fun x hx => by
    obtain ⟨v, hv⟩ := Dict.mem_iff.mp hx
    rw [Dict.mem_iff, hget]
    split
    · exact ⟨_, rfl⟩
    · exact ⟨v, hv⟩
  refine ⟨hrec.congr (fun _ _ => Iff.rfl) rfl (fun hl => hl) fun _ _ _ _ ho => ho,
    fun x hx => absurd hx (hnone x), fun _ => ?_, fun hl => (by cases hl), ?_,
    fun x hx => absurd hx (hnone x), fun hl => (by cases hl), h.replies, h.single, fun x hx => ?_,
    fun x hx => hmem x (h.known x (hx.imp_right fun hx => ?_)), fun _ => rfl⟩
  · cases rest with
    | nil => rfl
    | cons id rest =>
        refine (h.unstarted hlost).trans ?_
        by_contra hne
        exact hgood ⟨pre, id, rest, hreq, hpre, hrest id rfl, Or.inl (Ne.symm hne)⟩
  · cases rest.isEmpty
    · exact h.nodup
    · exact List.nodup_nil
  · exact ⟨(h.running x hx).1, hmem x (h.running x hx).2⟩
  · cases hempty : rest.isEmpty
    · rw [hempty] at hx
      exact hx
    · rw [hempty] at hx
      exact absurd hx List.not_mem_nil

omit [DecidableEq ι] in
/-- The first future in a list that is done. -/
theorem split_unique {p : ι → Prop} {pre rest ids rest' : List ι} {id : ι}
    (h : pre ++ rest = ids ++ id :: rest') (hpre : ∀ x ∈ pre, p x)
    (hrest : ∀ x, rest.head? = some x → ¬ p x) (hids : ∀ x ∈ ids, p x) (hid : ¬ p id) :
    pre = ids ∧ rest = id :: rest' := by
  induction pre generalizing ids with
  | nil =>
      cases ids with
      | nil => exact ⟨rfl, h⟩
      | cons y ids =>
          rw [List.nil_append] at h
          exact absurd (hids y List.mem_cons_self) (hrest y (by rw [h]; rfl))
  | cons y pre ih =>
      cases ids with
      | nil =>
          obtain ⟨rfl, -⟩ := List.cons.inj h
          exact absurd (hpre y List.mem_cons_self) hid
      | cons z ids =>
          obtain ⟨rfl, htail⟩ := List.cons.inj h
          obtain ⟨rfl, hr⟩ := ih htail (fun x hx => hpre x (List.mem_cons_of_mem _ hx))
            fun x hx => hids x (List.mem_cons_of_mem _ hx)
          exact ⟨rfl, hr⟩

theorem Inv.step {a : IpcAction ι ν ε φ} (h : s.Inv) (hgood : s.KeepsPromises a)
    (hs : s.step a = some s') : s'.Inv := by
  cases a with
  | call id => exact h.call hs
  | callNoReply =>
      rw [IpcConnection.step, callNoReply] at hs
      split at hs
      · cases hs
      · obtain rfl := Option.some.inj hs
        refine h.of_frames rfl (fun x _ hon => hon.imp_left (List.mem_append_left _))
          (fun _ hp => hp) (fun x => ?_) fun hc => hc
        simp [List.count_append]
  | cancel id => exact h.cancel hs
  | addFinalizer finalizer =>
      rw [IpcConnection.step] at hs
      split at hs
      · cases hs
      · rename_i hlost
        obtain rfl := Option.some.inj hs
        exact ⟨h.records.congr (fun _ _ => Iff.rfl) rfl (fun hl => hl) fun _ _ _ _ ho => ho,
          h.waits, fun hl => absurd hl hlost, h.unstarted, h.nodup, h.listed, h.cancelled, h.replies,
          h.single, h.running, h.known, h.closing⟩
  | deliverRequest readable => exact h.deliverRequest hs
  | methodEnds request outcome => exact h.methodEnds hgood hs
  | deliverReply readable => exact h.deliverReply hs
  | serverCloses =>
      obtain rfl := Option.some.inj hs
      exact h.of_frames rfl (fun _ _ _ => Or.inr (Or.inr (Or.inr (Or.inr rfl)))) (fun _ hp => hp)
        (fun _ => Nat.le_refl _) fun hc => hc
  | connectionLost => exact h.connectionLost hgood hs

/-- Where a promise is broken, a caller waits for ever, or finalizers do not start. -/
theorem Inv.not_resolved {a : IpcAction ι ν ε φ} (h : s.Inv) (hbad : ¬ s.KeepsPromises a)
    (hs : s.step a = some s') : ¬ s'.Resolved := by
  cases a with
  | methodEnds request outcome =>
      intro hres
      refine hbad fun id hreq hw => ?_
      subst hreq
      rw [IpcConnection.step, IpcConnection.methodEnds] at hs
      split at hs
      · rename_i hd
        by_contra hno
        rw [not_or, not_or, not_not] at hno
        obtain ⟨hrep, hclient, hserver⟩ := hno
        rw [hrep] at hs
        obtain rfl := Option.some.inj hs
        obtain ⟨-, -, hto, hdisp, hreplies⟩ := h.over hd
        rcases (hres.waits id hw).2 with hm | hm | ⟨r, hm⟩ | hc | hc
        · exact hto hm
        · exact hdisp hm
        · exact hreplies r hm
        · exact hclient hc
        · exact hserver hc
      · cases hs
  | connectionLost =>
      intro hres
      refine hbad fun ⟨ids, id, rest', hreq', hids, hid, hwhy⟩ => ?_
      have hlost : s.lost = false := by
        rw [IpcConnection.step, IpcConnection.connectionLost] at hs
        split at hs
        · cases hs
        · exact Bool.eq_false_iff.mpr ‹_›
      obtain ⟨pre, rest, futures, completions, hreq, hpre, hrest, hget, -, rfl⟩ :=
        h.connectionLost_spec hs
      obtain ⟨rfl, rfl⟩ := split_unique (hreq.symm.trans hreq') hpre hrest hids hid
      rcases hwhy with hfin | ⟨x, hx, hw⟩
      · have hstarted := (hres.finalized rfl).symm
        exact hfin (hstarted.trans (h.unstarted hlost))
      · have hn := h.nodup
        rw [hreq', List.nodup_append] at hn
        have hno : x ∉ pre := fun hm => hn.2.2 x hm x (List.mem_cons_of_mem _ hx) rfl
        have hw' : futures.get? x = some .pending := by
          rw [hget, if_neg hno]
          exact hw
        cases (hres.waits x hw').1
  | _ => exact absurd trivial hbad

instance (s : IpcConnection ι ν ε φ) (id : ι) : Decidable (s.Waits id) :=
  match h : s.futures.get? id with
  | some .pending => isTrue h
  | none | some .cancelled | some (.done _) => isFalse fun hw => by cases h.symm.trans hw

/-- A sufficient condition that can be evaluated: every method replies, and no future is
cancelled when the connection is lost. -/
def RepliesToAll (s : IpcConnection ι ν ε φ) : IpcAction ι ν ε φ → Prop
  | .methodEnds _ outcome => outcome.reply.isSome = true
  | .connectionLost => ∀ id ∈ s.requests, s.Waits id
  | _ => True

instance (s : IpcConnection ι ν ε φ) : DecidablePred s.RepliesToAll
  | .methodEnds _ _ => inferInstanceAs (Decidable (_ = _))
  | .connectionLost => inferInstanceAs (Decidable (∀ id ∈ s.requests, s.Waits id))
  | .call _ | .callNoReply | .cancel _ | .addFinalizer _ | .deliverRequest _ | .deliverReply _
  | .serverCloses => inferInstanceAs (Decidable True)

theorem RepliesToAll.keepsPromises {a : IpcAction ι ν ε φ} (h : s.RepliesToAll a) :
    s.KeepsPromises a := by
  cases a with
  | methodEnds _ _ => exact fun _ _ _ => Or.inl (Option.isSome_iff_ne_none.mp h)
  | connectionLost =>
      rintro ⟨ids, id, rest, hreq, -, hid, -⟩
      exact hid (h id (by rw [hreq]; simp))
  | _ => trivial

/-! ### Calls that are cancelled -/

/-- Two calls, which are answered in the other order, and the loss of the connection. -/
def answerBoth : List (IpcAction ℕ ℕ ℕ ℕ) :=
  [.addFinalizer 1, .call 1, .call 2, .deliverRequest true, .deliverRequest true,
    .methodEnds (some 2) (.returned 20 true), .methodEnds (some 1) (.raised 10 false),
    .deliverReply true, .deliverReply true, .call 3, .connectionLost]

/-- The caller of the first of two calls cancels it, then the connection is lost. -/
def cancelFirst : List (IpcAction ℕ ℕ ℕ ℕ) :=
  [.addFinalizer 1, .call 1, .call 2, .cancel 1, .connectionLost]

/-- **Every call is resolved once** in every state of a run of any length, just when in
the run every method that somebody waits for replies, and no cancelled future is
in the way when the connection is lost. -/
theorem calls_resolved_iff {as : List (IpcAction ι ν ε φ)} {s : IpcConnection ι ν ε φ}
    (hrun : run step init as = some s) :
    Always step Resolved init as ↔ Along step KeepsPromises init as :=
  always_iff_along_of_strengthening (I := Inv) (fun _ h => h.resolved)
    (fun _ _ _ h hgood hs => h.step hgood hs) (fun _ _ _ h hbad hs => h.not_resolved hbad hs)
    .init hrun

theorem calls_resolved_iff_answerBoth : Always step Resolved init answerBoth := by
  obtain ⟨s, hrun, -⟩ := exists_run_of_any step init answerBoth (p := fun s =>
    s.started = [1]) (by decide)
  have hgood : Along step RepliesToAll init answerBoth := by decide
  exact (calls_resolved_iff hrun).mpr (hgood.imp fun _ _ h => h.keepsPromises)

/-- Completing the cancelled future raises, so the second caller waits for ever, and no
finalizer is started. -/
theorem cancelFirst_strands : ∃ s, run step init cancelFirst = some s ∧ s.lost = true
    ∧ s.Waits 2 ∧ s.started = [] ∧ ¬ s.Resolved := by
  obtain ⟨s, hrun, hlost, hw, hst⟩ := exists_run_of_any step init cancelFirst (p := fun s =>
    s.lost = true ∧ s.Waits 2 ∧ s.started = []) (by decide)
  refine ⟨s, hrun, hlost, hw, hst, fun h => ?_⟩
  cases hlost.symm.trans (h.waits 2 hw).1

end IpcConnection

end Inmanta
