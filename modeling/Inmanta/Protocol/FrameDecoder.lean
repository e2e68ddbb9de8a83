import Inmanta.Lib.Dict
import Inmanta.Lib.Run

/-!
# Calls over a websocket session

A `WebsocketFrameDecoder` keeps the futures of its outstanding calls in a
table until the replies come in. Background tasks write the calls and guard
them with a timeout; the session is opened and closed by messages, by the
connection, and locally. `FrameDecoder.step` interleaves all of these, each
up to where it waits.

`close_session` completes what is outstanding, but the two messages that
close a session do not go through it. `calls_settled_iff` says when that
leaves a call of a closed session waiting.
-/

namespace Inmanta

/-- The flags of a session. -/
structure SessionFlags where
  closed : Bool
  confirmed : Bool

def SessionFlags.active (f : SessionFlags) : Bool := !f.closed && f.confirmed

/-- What a future is completed with. -/
inductive RpcResult (ι ρ : Type) where
  /-- What an `RPC_Reply` with this id contains. -/
  | reply (replyId : ι) (result : ρ)
  /-- The call has no reply. -/
  | noReply
  | failedToSend
  | sessionClosed
  | cancelled

inductive WSMessage (ι ρ : Type) where
  | openSession
  | sessionOpened
  | rejectSession
  | closeSession
  | rpcReply (replyId : ι) (result : ρ)

/-- A decoder and its background tasks. The futures of the calls are numbered. -/
structure FrameDecoder (ι ρ : Type) where
  session : Option SessionFlags
  replies : Dict ι ℕ
  /-- The number of calls so far. -/
  next : ℕ
  /-- The reply id of a call. -/
  replyId : ℕ → Option ι
  /-- The calls that are being written. -/
  sending : List ℕ
  /-- The calls that are guarded by `handle_timeout`. -/
  timeouts : List ℕ
  /-- The completions of futures so far. -/
  completions : List (ℕ × RpcResult ι ρ)
  /-- The calls before this one were made before a session was closed. -/
  before : ℕ

inductive DecoderAction (ι ρ : Type) where
  /-- The reply id is a new one. -/
  | rpcCall (replyId : Option ι)
  | written (call : ℕ)
  | writeFails (call : ℕ)
  | timeout (call : ℕ)
  | timeoutEnds (call : ℕ)
  | onMessage (msg : WSMessage ι ρ)
  /-- `on_open_session` has returned on the server. -/
  | confirmOpen
  /-- Of the connection that is lost, of `close_connection`, and of `_reconnect`. -/
  | closeSession
  | createSession

namespace FrameDecoder

variable {ι ρ : Type} {s s' : FrameDecoder ι ρ} {x : ℕ} {result : RpcResult ι ρ}

/-- A decoder with the session that a client creates at the start, if it is one. -/
def init (session : Option SessionFlags) : FrameDecoder ι ρ :=
  ⟨session, .empty, 0, fun _ => none, [], [], [], 0⟩

/-- `future.done()` -/
def Done (s : FrameDecoder ι ρ) (call : ℕ) : Prop := call ∈ s.completions.map Prod.fst

instance (s : FrameDecoder ι ρ) (call : ℕ) : Decidable (s.Done call) :=
  inferInstanceAs (Decidable (_ ∈ _))

/-- Complete a future that is not done. -/
def complete (s : FrameDecoder ι ρ) (call : ℕ) (result : RpcResult ι ρ) : FrameDecoder ι ρ :=
  if s.Done call then s else { s with completions := (call, result) :: s.completions }

theorem done_complete {y : ℕ} : (s.complete x result).Done y ↔ y = x ∨ s.Done y := by
  unfold complete
  split
  · rename_i h
    exact ⟨.inr, fun hy => hy.elim (fun e => e ▸ h) id⟩
  · rw [Done, List.map_cons, List.mem_cons]
    rfl

/-- Only the completions change. -/
theorem complete_fields (s : FrameDecoder ι ρ) (x : ℕ) (result : RpcResult ι ρ) :
    (s.complete x result).replies = s.replies ∧ (s.complete x result).next = s.next
      ∧ (s.complete x result).replyId = s.replyId ∧ (s.complete x result).before = s.before
      ∧ (s.complete x result).timeouts = s.timeouts := by
  unfold complete
  split <;> exact ⟨rfl, rfl, rfl, rfl, rfl⟩

theorem foldl_complete_session (s : FrameDecoder ι ρ) (l : List ℕ)
    (session : Option SessionFlags) (before : ℕ) :
    l.foldl (fun s call => s.complete call .sessionClosed) { s with session, before } =
      { l.foldl (fun s call => s.complete call .sessionClosed) s with session, before } := by
  induction l generalizing s with
  | nil => rfl
  | cons x l ih =>
      rw [List.foldl_cons, List.foldl_cons, ← ih]
      congr 1
      unfold FrameDecoder.complete
      by_cases hd : s.Done x
      · rw [if_pos hd, if_pos (show Done { s with session, before } x from hd)]
      · rw [if_neg hd, if_neg (show ¬ Done { s with session, before } x from hd)]

variable [DecidableEq ι]

/-- Complete the outstanding futures and forget them. -/
def resolvePending (s : FrameDecoder ι ρ) : FrameDecoder ι ρ :=
  { s.replies.values.foldl (fun s call => s.complete call .sessionClosed) s with
    replies := .empty }

/-- The flag of the session. -/
def markClosed (s : FrameDecoder ι ρ) (flags : SessionFlags) : FrameDecoder ι ρ :=
  { s with session := some { flags with closed := true }, before := s.next }

def close (s : FrameDecoder ι ρ) : FrameDecoder ι ρ :=
  match s.session with
  | none => s
  | some flags => if flags.closed then s else (s.markClosed flags).resolvePending

def call (s : FrameDecoder ι ρ) (replyId : Option ι) : FrameDecoder ι ρ :=
  let s := { s with
    next := s.next + 1
    replyId := Function.update s.replyId s.next replyId
    sending := s.next :: s.sending }
  match replyId with
  | some id => { s with
      replies := s.replies.set id (s.next - 1)
      timeouts := (s.next - 1) :: s.timeouts }
  | none => s.complete (s.next - 1) .noReply

def handle (s : FrameDecoder ι ρ) : WSMessage ι ρ → FrameDecoder ι ρ
  | .openSession =>
      match s.session with
      | some _ => s
      | none => { s with session := some ⟨false, false⟩ }
  | .sessionOpened =>
      match s.session with
      | none => s
      | some flags => { s with session := some { flags with confirmed := true } }
  | .rejectSession =>
      match s.session with
      | none => s
      | some flags =>
          { s with session := none, before := if flags.closed then s.before else s.next }
  | .closeSession =>
      match s.session with
      | none => s
      | some flags => if flags.active then s.markClosed flags else s
  | .rpcReply replyId result =>
      if s.session.any (·.active) then
        match s.replies.get? replyId with
        | none => s
        | some call =>
            { s with replies := s.replies.del replyId }.complete call (.reply replyId result)
      else s

def step (s : FrameDecoder ι ρ) : DecoderAction ι ρ → Option (FrameDecoder ι ρ)
  | .rpcCall replyId =>
      if ∃ call < s.next, s.replyId call = replyId ∧ replyId ≠ none then none
      else some (s.call replyId)
  | .written call =>
      if call ∈ s.sending then some { s with sending := discard s.sending call } else none
  | .writeFails call =>
      if call ∈ s.sending then
        let s := { s with sending := discard s.sending call }
        match s.replyId call with
        | none => some s
        | some id =>
            match s.replies.get? id with
            | none => some s
            | some future =>
                some ({ s with replies := s.replies.del id }.complete future .failedToSend)
      else none
  | .timeout call =>
      if call ∈ s.timeouts then some (s.complete call .cancelled) else none
  | .timeoutEnds call =>
      if call ∈ s.timeouts ∧ s.Done call then
        match s.replyId call with
        | none => none
        | some id => some { s with
            timeouts := discard s.timeouts call
            replies := s.replies.del id }
      else none
  | .onMessage msg => some (s.handle msg)
  | .confirmOpen =>
      match s.session with
      | none => none
      | some flags => some { s with session := some { flags with confirmed := true } }
  | .closeSession => some s.close
  | .createSession => some { s with session := some ⟨false, false⟩ }

/-- What is owed at any time: a future is completed once, by a reply only if it
is the one to its call; until then it is outstanding. The calls that were made
before a session was closed are settled. -/
structure CallsSettled (s : FrameDecoder ι ρ) : Prop where
  once : (s.completions.map Prod.fst).Nodup
  own : ∀ call id result, (call, .reply id result) ∈ s.completions → s.replyId call = some id
  outstanding : ∀ call < s.next, ¬ s.Done call →
    ∃ id, s.replyId call = some id ∧ s.replies.get? id = some call
  completed : ∀ call < s.before, s.Done call
  forgotten : ∀ id call, s.replies.get? id = some call → s.before ≤ call

/-- No call is outstanding when a message closes the session. -/
def ClosedIdle (s : FrameDecoder ι ρ) : DecoderAction ι ρ → Prop
  | .onMessage .closeSession =>
      (∃ flags, s.session = some flags ∧ flags.active = true) → ∀ id, id ∉ s.replies
  | .onMessage .rejectSession =>
      (∃ flags, s.session = some flags ∧ flags.closed = false) → ∀ id, id ∉ s.replies
  | _ => True

/-- The futures in the table are those of its ids. -/
structure Inv (s : FrameDecoder ι ρ) : Prop extends s.CallsSettled where
  before_le : s.before ≤ s.next
  replies : ∀ id call, s.replies.get? id = some call → call < s.next ∧ s.replyId call = some id
  timeouts : ∀ call ∈ s.timeouts, call < s.next ∧ s.replyId call ≠ none
  unique : ∀ x y id, x < s.next → y < s.next → s.replyId x = some id → s.replyId y = some id →
    x = y
  started : ∀ call, s.Done call → call < s.next

theorem inv_init (session : Option SessionFlags) :
    (init session : FrameDecoder ι ρ).Inv where
  once := List.nodup_nil
  own _ _ _ h := absurd h List.not_mem_nil
  outstanding _ h := absurd h (Nat.not_lt_zero _)
  completed _ h := absurd h (Nat.not_lt_zero _)
  forgotten _ _ h := by cases h
  before_le := Nat.le_refl _
  replies _ _ h := by cases h
  timeouts _ h := absurd h List.not_mem_nil
  unique _ _ _ h := absurd h (Nat.not_lt_zero _)
  started _ h := absurd h List.not_mem_nil

/-! ## Completing a future -/

/-- Completing a future once more changes nothing, and a reply completes the
future of its own call. -/
theorem Inv.complete (h : s.Inv) (hx : x < s.next)
    (hown : ∀ id r, result = .reply id r → s.replyId x = some id) : (s.complete x result).Inv := by
  obtain ⟨hr, hn, hid, hb, ht⟩ := complete_fields s x result
  refine ⟨⟨?_, fun call id r hm => ?_, fun call hc hd => ?_, fun call hc => ?_, ?_⟩, ?_, ?_, ?_, ?_,
    fun call hd => ?_⟩
  · unfold FrameDecoder.complete
    split
    · exact h.once
    · exact List.nodup_cons.mpr ⟨‹_›, h.once⟩
  · rw [hid]
    unfold FrameDecoder.complete at hm
    split at hm
    · exact h.own call id r hm
    · rcases List.mem_cons.mp hm with hm | hm
      · obtain ⟨rfl, rfl⟩ := Prod.mk.inj hm
        exact hown id r rfl
      · exact h.own call id r hm
  · rw [hid, hr]
    exact h.outstanding call (hn ▸ hc) fun hs => hd (done_complete.mpr (.inr hs))
  · exact done_complete.mpr (.inr (h.completed call (hb ▸ hc)))
  · rw [hr, hb]; exact h.forgotten
  · rw [hb, hn]; exact h.before_le
  · rw [hr, hn, hid]; exact h.replies
  · rw [ht, hn, hid]; exact h.timeouts
  · rw [hn, hid]; exact h.unique
  · rw [hn]
    exact (done_complete.mp hd).elim (fun e => e ▸ hx) (h.started call)

/-- An entry of the table is removed together with its future, or after that. -/
theorem Inv.forget (h : s.Inv) {id : ι}
    (hdone : ∀ call, s.replies.get? id = some call → s.Done call) :
    Inv { s with replies := s.replies.del id } := by
  have hget : ∀ i call, (s.replies.del id).get? i = some call →
      i ≠ id ∧ s.replies.get? i = some call := by
    intro i call hc
    rw [Dict.get?_del] at hc
    split at hc
    · cases hc
    · exact ⟨‹_›, hc⟩
  refine ⟨⟨h.once, h.own, fun call hc hd => ?_, h.completed,
    fun i call hc => h.forgotten i call (hget i call hc).2⟩, h.before_le,
    fun i call hc => h.replies i call (hget i call hc).2, h.timeouts, h.unique, h.started⟩
  obtain ⟨i, hi, hir⟩ := h.outstanding call hc hd
  refine ⟨i, hi, ?_⟩
  show (s.replies.del id).get? i = some call
  rw [Dict.get?_del, if_neg (show i ≠ id from fun he => hd (hdone call (he ▸ hir)))]
  exact hir

/-- Take an entry from the table and complete its future: in either order. -/
theorem Inv.take (h : s.Inv) {id : ι} {future : ℕ} (hf : s.replies.get? id = some future)
    (hown : ∀ i r, result = .reply i r → i = id) :
    Inv ({ s with replies := s.replies.del id }.complete future result) := by
  obtain ⟨hx, hid⟩ := h.replies id future hf
  have hc : (s.complete future result).Inv := h.complete hx fun i r he => hown i r he ▸ hid
  have hf' : (s.complete future result).replies.get? id = some future := by
    rw [(complete_fields s future result).1, hf]
  have := hc.forget fun call hcall => by
    obtain rfl := Option.some.inj (hf'.symm.trans hcall)
    exact done_complete.mpr (.inl rfl)
  unfold FrameDecoder.complete at this ⊢
  by_cases hd : s.Done future
  · rw [if_pos hd] at this
    rw [if_pos (show Done { s with replies := s.replies.del id } future from hd)]
    exact this
  · rw [if_neg hd] at this
    rw [if_neg (show ¬ Done { s with replies := s.replies.del id } future from hd)]
    exact this

/-! ## Closing a session -/

/-- All outstanding futures are completed. -/
theorem Inv.foldl_complete (h : s.Inv) (l : List ℕ) (hl : ∀ x ∈ l, x < s.next) :
    (l.foldl (fun s call => s.complete call .sessionClosed) s).Inv
      ∧ (∀ y, (l.foldl (fun s call => s.complete call .sessionClosed) s).Done y ↔
          y ∈ l ∨ s.Done y)
      ∧ (l.foldl (fun s call => s.complete call .sessionClosed) s).next = s.next
      ∧ (l.foldl (fun s call => s.complete call .sessionClosed) s).replyId = s.replyId
      ∧ (l.foldl (fun s call => s.complete call .sessionClosed) s).replies = s.replies := by
  induction l generalizing s with
  | nil => exact ⟨h, fun y => by simp, rfl, rfl, rfl⟩
  | cons x l ih =>
      obtain ⟨hr, hn, hid, -, -⟩ := complete_fields s x .sessionClosed
      have hx : (s.complete x .sessionClosed).Inv :=
        h.complete (hl x List.mem_cons_self) fun id r he => by cases he
      obtain ⟨h₁, h₂, h₃, h₄, h₅⟩ := ih hx fun y hy => by
        rw [hn]
        exact hl y (List.mem_cons_of_mem _ hy)
      refine ⟨h₁, fun y => ?_, h₃.trans hn, h₄.trans hid, h₅.trans hr⟩
      rw [List.foldl_cons, h₂, done_complete, List.mem_cons]
      tauto

/-- A session is closed while no call is outstanding. -/
theorem Inv.closed (h : s.Inv) (hidle : ∀ id, id ∉ s.replies) (session : Option SessionFlags) :
    Inv { s with session, before := s.next } := by
  have hno : ∀ id call, s.replies.get? id ≠ some call :=
    fun id call hc => hidle id (Dict.mem_of_get? hc)
  refine ⟨⟨h.once, h.own, h.outstanding, fun call hc => ?_,
    fun id call hc => absurd hc (hno id call)⟩,
    Nat.le_refl _, h.replies, h.timeouts, h.unique, h.started⟩
  by_contra hd
  obtain ⟨id, -, hir⟩ := h.outstanding call hc hd
  exact hno id call hir

theorem Inv.session (h : s.Inv) (session : Option SessionFlags) : Inv { s with session } :=
  ⟨⟨h.once, h.own, h.outstanding, h.completed, h.forgotten⟩, h.before_le, h.replies, h.timeouts,
    h.unique, h.started⟩

/-- The path that all closings but those by a message take. -/
theorem Inv.close (h : s.Inv) : s.close.Inv := by
  unfold FrameDecoder.close
  split
  · exact h
  rename_i flags _
  split
  · exact h
  obtain ⟨hI, hdone, hn, hid, hr⟩ := h.foldl_complete s.replies.values fun x hx => by
    obtain ⟨id, hid⟩ := Dict.mem_values.mp hx
    exact (h.replies id x hid).1
  rw [resolvePending, markClosed, foldl_complete_session]
  -- every call so far is completed
  have hall : ∀ call < s.next,
      (s.replies.values.foldl (fun s call => s.complete call .sessionClosed) s).Done call := by
    intro call hc
    by_contra hd
    obtain ⟨id, -, hir⟩ := hI.outstanding call (hn.symm ▸ hc) hd
    exact hd ((hdone call).mpr (.inl (Dict.mem_values.mpr ⟨id, hr ▸ hir⟩)))
  exact ⟨⟨hI.once, hI.own, fun call hc hd => absurd (hall call (hn ▸ hc)) hd, hall,
    fun id call hc => (by cases hc)⟩, hn.symm ▸ Nat.le_refl _, fun id call hc => (by cases hc),
    hI.timeouts, hI.unique, hI.started⟩

/-! ## Steps -/

theorem Inv.call (h : s.Inv) {replyId : Option ι}
    (hnew : ¬ ∃ call < s.next, s.replyId call = replyId ∧ replyId ≠ none) :
    (s.call replyId).Inv := by
  have hold : ∀ call < s.next, Function.update s.replyId s.next replyId call = s.replyId call :=
    fun call hc => Function.update_of_ne (Nat.ne_of_lt hc) ..
  have hself : Function.update s.replyId s.next replyId s.next = replyId := Function.update_self ..
  have hunique : ∀ x y id, x < s.next + 1 → y < s.next + 1 →
      Function.update s.replyId s.next replyId x = some id →
      Function.update s.replyId s.next replyId y = some id → x = y := by
    intro x y id hx hy hxi hyi
    rcases Nat.lt_succ_iff_lt_or_eq.mp hx with hx | rfl <;>
      rcases Nat.lt_succ_iff_lt_or_eq.mp hy with hy | rfl
    · rw [hold x hx] at hxi
      rw [hold y hy] at hyi
      exact h.unique x y id hx hy hxi hyi
    · rw [hold x hx] at hxi
      rw [hself] at hyi
      exact absurd ⟨x, hx, hxi.trans hyi.symm, by simp [hyi]⟩ hnew
    · rw [hself] at hxi
      rw [hold y hy] at hyi
      exact absurd ⟨y, hy, hyi.trans hxi.symm, by simp [hxi]⟩ hnew
    · rfl
  have hown : ∀ call id r, (call, RpcResult.reply id r) ∈ s.completions →
      Function.update s.replyId s.next replyId call = some id := by
    intro call id r hm
    have hd : s.Done call := List.mem_map.mpr ⟨_, hm, rfl⟩
    exact (hold call (h.started call hd)).trans (h.own call id r hm)
  have hreplies : ∀ id call, s.replies.get? id = some call →
      call < s.next + 1 ∧ Function.update s.replyId s.next replyId call = some id := by
    intro id call hc
    obtain ⟨hlt, hid⟩ := h.replies id call hc
    exact ⟨Nat.lt_succ_of_lt hlt, (hold call hlt).trans hid⟩
  have htimeouts : ∀ call ∈ s.timeouts,
      call < s.next + 1 ∧ Function.update s.replyId s.next replyId call ≠ none := by
    intro call hc
    obtain ⟨hlt, hid⟩ := h.timeouts call hc
    exact ⟨Nat.lt_succ_of_lt hlt, (hold call hlt).symm ▸ hid⟩
  cases replyId with
  | none =>
      -- the future is completed at once
      have hnd : ¬ s.Done s.next := fun hd => Nat.lt_irrefl _ (h.started _ hd)
      have hcall : s.call none = { s with
          next := s.next + 1
          replyId := Function.update s.replyId s.next none
          sending := s.next :: s.sending
          completions := (s.next, .noReply) :: s.completions } := by
        unfold FrameDecoder.call FrameDecoder.complete
        exact if_neg hnd
      rw [hcall]
      have hdone : ∀ call, Done { s with
          next := s.next + 1
          replyId := Function.update s.replyId s.next none
          sending := s.next :: s.sending
          completions := (s.next, .noReply) :: s.completions } call ↔ call = s.next ∨ s.Done call :=
        fun call => List.mem_cons
      refine ⟨⟨List.nodup_cons.mpr ⟨hnd, h.once⟩, fun call i r hm => ?_, fun call hc hd => ?_,
        fun call hc => (hdone call).mpr (.inr (h.completed call hc)), h.forgotten⟩,
        Nat.le_succ_of_le h.before_le, hreplies, htimeouts, hunique, fun call hd => ?_⟩
      · rcases List.mem_cons.mp hm with hm | hm
        · cases hm
        · exact hown call i r hm
      · obtain ⟨hne, hd⟩ := not_or.mp (mt (hdone call).mpr hd)
        have hc : call < s.next := by
          have : call < s.next + 1 := hc
          omega
        obtain ⟨id, hid, hir⟩ := h.outstanding call hc hd
        exact ⟨id, (hold call hc).trans hid, hir⟩
      · rcases (hdone call).mp hd with rfl | hd
        · exact Nat.lt_succ_self _
        · exact Nat.lt_succ_of_lt (h.started call hd)
  | some id =>
      have hget : ∀ i call, (s.replies.set id s.next).get? i = some call →
          (i = id ∧ call = s.next) ∨ s.replies.get? i = some call := by
        intro i call hc
        rw [Dict.get?_set] at hc
        split at hc
        · exact .inl ⟨‹_›, (Option.some.inj hc).symm⟩
        · exact .inr hc
      refine ⟨⟨h.once, hown, fun call hc hd => ?_, h.completed, fun i call hc => ?_⟩,
        Nat.le_succ_of_le h.before_le, fun i call hc => ?_, fun call hc => ?_, hunique,
        fun call hd => Nat.lt_succ_of_lt (h.started call hd)⟩
      · show ∃ i, Function.update s.replyId s.next (some id) call = some i
          ∧ (s.replies.set id s.next).get? i = some call
        rcases Nat.lt_succ_iff_lt_or_eq.mp hc with hlt | rfl
        · obtain ⟨i, hi, hir⟩ := h.outstanding call hlt hd
          refine ⟨i, (hold call hlt).trans hi, ?_⟩
          rw [Dict.get?_set, if_neg]
          · exact hir
          · rintro rfl
            exact hnew ⟨call, hlt, hi, by simp⟩
        · exact ⟨id, hself, by rw [Dict.get?_set, if_pos rfl]⟩
      · rcases hget i call hc with ⟨-, rfl⟩ | hc
        · exact h.before_le
        · exact h.forgotten i call hc
      · rcases hget i call hc with ⟨rfl, rfl⟩ | hc
        · exact ⟨Nat.lt_succ_self _, hself⟩
        · exact hreplies i call hc
      · rcases List.mem_cons.mp hc with rfl | hc
        · exact ⟨Nat.lt_succ_self _, by
            show Function.update s.replyId s.next (some id) s.next ≠ none
            rw [hself]
            exact Option.some_ne_none id⟩
        · exact htimeouts call hc

theorem Inv.handle (h : s.Inv) {msg : WSMessage ι ρ} (hgood : s.ClosedIdle (.onMessage msg)) :
    (s.handle msg).Inv := by
  cases msg with
  | openSession =>
      simp only [FrameDecoder.handle]
      split
      · exact h
      · exact h.session _
  | sessionOpened =>
      simp only [FrameDecoder.handle]
      split
      · exact h
      · exact h.session _
  | rejectSession =>
      simp only [FrameDecoder.handle]
      split
      · exact h
      rename_i flags hsession
      by_cases hc : flags.closed = true
      · simp only [if_pos hc]
        exact h.session none
      · simp only [if_neg hc]
        exact h.closed (hgood ⟨flags, hsession, Bool.eq_false_iff.mpr hc⟩) none
  | closeSession =>
      simp only [FrameDecoder.handle]
      split
      · exact h
      rename_i flags hsession
      split
      · exact h.closed (hgood ⟨flags, hsession, ‹_›⟩) _
      · exact h
  | rpcReply id result =>
      simp only [FrameDecoder.handle]
      split
      · split
        · exact h
        · rename_i hf
          exact h.take hf fun i r he => (RpcResult.reply.inj he).1.symm
      · exact h

theorem Inv.step {a : DecoderAction ι ρ} (h : s.Inv) (hgood : s.ClosedIdle a)
    (hs : s.step a = some s') : s'.Inv := by
  cases a with
  | rpcCall replyId =>
      rw [FrameDecoder.step] at hs
      split at hs
      · cases hs
      · obtain rfl := Option.some.inj hs
        exact h.call ‹_›
  | written call =>
      rw [FrameDecoder.step] at hs
      split at hs
      · obtain rfl := Option.some.inj hs
        exact ⟨⟨h.once, h.own, h.outstanding, h.completed, h.forgotten⟩, h.before_le, h.replies,
          h.timeouts, h.unique, h.started⟩
      · cases hs
  | writeFails call =>
      simp only [FrameDecoder.step] at hs
      split at hs
      swap
      · cases hs
      have hsent : Inv { s with sending := discard s.sending call } :=
        ⟨⟨h.once, h.own, h.outstanding, h.completed, h.forgotten⟩, h.before_le, h.replies,
          h.timeouts, h.unique, h.started⟩
      split at hs
      · obtain rfl := Option.some.inj hs
        exact hsent
      · split at hs
        · obtain rfl := Option.some.inj hs
          exact hsent
        · rename_i hf
          obtain rfl := Option.some.inj hs
          exact hsent.take hf fun i r he => by cases he
  | timeout call =>
      rw [FrameDecoder.step] at hs
      split at hs
      · obtain rfl := Option.some.inj hs
        exact h.complete (h.timeouts call ‹_›).1 fun i r he => by cases he
      · cases hs
  | timeoutEnds call =>
      rw [FrameDecoder.step] at hs
      split at hs
      swap
      · cases hs
      rename_i hc
      split at hs
      · cases hs
      · rename_i id hid
        obtain rfl := Option.some.inj hs
        have hended : Inv { s with timeouts := discard s.timeouts call } :=
          ⟨⟨h.once, h.own, h.outstanding, h.completed, h.forgotten⟩, h.before_le, h.replies,
            fun x hx => h.timeouts x (mem_discard.mp hx).1, h.unique, h.started⟩
        refine hended.forget fun x hx => ?_
        obtain ⟨hlt, hxid⟩ := h.replies id x hx
        obtain rfl := h.unique x call id hlt (h.timeouts call hc.1).1 hxid hid
        exact hc.2
  | onMessage msg =>
      obtain rfl := Option.some.inj hs
      exact h.handle hgood
  | confirmOpen =>
      rw [FrameDecoder.step] at hs
      split at hs
      · cases hs
      · obtain rfl := Option.some.inj hs
        exact h.session _
  | closeSession =>
      obtain rfl := Option.some.inj hs
      exact h.close
  | createSession =>
      obtain rfl := Option.some.inj hs
      exact h.session _

/-- A call that is outstanding when a message closes the session stays in the
table. -/
theorem Inv.not_settled {a : DecoderAction ι ρ} (h : s.Inv) (hbad : ¬ s.ClosedIdle a)
    (hs : s.step a = some s') : ¬ s'.CallsSettled := by
  have hleft : ∀ session, (∃ id, id ∈ s.replies) →
      ¬ CallsSettled { s with session, before := s.next } := by
    rintro session ⟨id, hid⟩ hsettled
    obtain ⟨call, hc⟩ := Dict.mem_iff.mp hid
    exact Nat.not_lt.mpr (hsettled.forgotten id call hc) (h.replies id call hc).1
  cases a with
  | onMessage msg =>
      obtain rfl := Option.some.inj hs
      cases msg with
      | closeSession =>
          simp only [ClosedIdle, not_forall, not_not] at hbad
          obtain ⟨⟨flags, hsession, hactive⟩, hid⟩ := hbad
          simp only [FrameDecoder.handle, hsession, if_pos hactive]
          exact hleft _ hid
      | rejectSession =>
          simp only [ClosedIdle, not_forall, not_not] at hbad
          obtain ⟨⟨flags, hsession, hopen⟩, hid⟩ := hbad
          simp only [FrameDecoder.handle, hsession, hopen, Bool.false_eq_true, if_false]
          exact hleft _ hid
      | openSession => exact absurd trivial hbad
      | sessionOpened => exact absurd trivial hbad
      | rpcReply id result => exact absurd trivial hbad
  | rpcCall _ => exact absurd trivial hbad
  | written _ => exact absurd trivial hbad
  | writeFails _ => exact absurd trivial hbad
  | timeout _ => exact absurd trivial hbad
  | timeoutEnds _ => exact absurd trivial hbad
  | confirmOpen => exact absurd trivial hbad
  | closeSession => exact absurd trivial hbad
  | createSession => exact absurd trivial hbad

/-- **No call outlives its session if and only if no call is outstanding when a
message closes the session.** -/
theorem calls_settled_iff {session : Option SessionFlags} {as : List (DecoderAction ι ρ)}
    {r : FrameDecoder ι ρ} (hrun : run step (init session) as = some r) :
    Always step CallsSettled (init session) as ↔ Along step ClosedIdle (init session) as :=
  always_iff_along_of_strengthening (fun _ hI => hI.toCallsSettled)
    (fun _ _ _ hI hgood hs => hI.step hgood hs) (fun _ _ _ hI hbad hs => hI.not_settled hbad hs)
    (inv_init session) hrun

/-- The session of a client is confirmed, a call is made, and the server closes
the session. Then the connection is lost. -/
def closedByServer : List (DecoderAction ℕ ℕ) :=
  [.onMessage .sessionOpened, .rpcCall (some 7), .written 0, .onMessage .closeSession,
    .closeSession]

theorem calls_settled_iff_closedByServer :
    Always step CallsSettled (init (some ⟨false, false⟩)) closedByServer ↔
      Along step ClosedIdle (init (some ⟨false, false⟩)) closedByServer :=
  calls_settled_iff (show run step (init (some ⟨false, false⟩)) closedByServer
    = some ⟨some ⟨true, true⟩, ⟨[(7, 0)], by decide⟩, 1, Function.update (fun _ => none) 0 (some 7),
      [], [0], [], 1⟩ from rfl)

/-- The call waits for its timeout, although its session is closed and closing
it once more does not help. -/
theorem closed_by_server_waiting :
    ∃ s : FrameDecoder ℕ ℕ, run step (init (some ⟨false, false⟩)) closedByServer = some s
      ∧ (∃ flags, s.session = some flags ∧ flags.closed = true)
      ∧ 0 < s.before ∧ ¬ s.Done 0 ∧ s.replies.get? 7 = some 0 ∧ ¬ s.CallsSettled :=
  ⟨_, rfl, ⟨_, rfl, rfl⟩, by decide, by decide, rfl,
    fun h => absurd (h.completed 0 (by decide)) (by decide)⟩

end FrameDecoder

end Inmanta
