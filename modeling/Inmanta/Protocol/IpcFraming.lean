import Inmanta.Lib.Framing
import Mathlib

/-!
# Frames over an IPC connection

`send_frame` writes the length of a pickled frame, in four bytes, and the
frame. `data_received` keeps what it received in a buffer and remembers a
length it has read until the whole block is there. Between two chunks this is
what `Framing` does with the buffer alone (`dataReceived_eq`), so that the
blocks arrive however the stream is cut (`blocks_received`).
-/

namespace Inmanta

abbrev Bytes := List UInt8

/-- `struct.pack("!L", n)`, for a number that fits. -/
def pack (n : ℕ) : Bytes := [n / 2 ^ 24, n / 2 ^ 16, n / 2 ^ 8, n].map UInt8.ofNat

/-- `struct.unpack_from("!L", buffer)`, where there are at least four bytes. -/
def unpackFrom : Bytes → ℕ
  | a :: b :: c :: d :: _ => a.toNat * 2 ^ 24 + b.toNat * 2 ^ 16 + c.toNat * 2 ^ 8 + d.toNat
  | _ => 0

inductive SendError where
  | connectionLost
  | picklingError
  /-- The length does not fit. -/
  | structError
  deriving DecidableEq

structure IpcTransport where
  closing : Bool
  /-- What was written so far. -/
  written : Bytes

section SendFrame

variable {φ : Type} (dumps : φ → Option Bytes)

/-- `dumps` has no bytes for what can not be pickled. -/
def sendFrame (t : IpcTransport) (frame : φ) : Except SendError IpcTransport :=
  if t.closing then .error .connectionLost
  else
    match dumps frame with
    | none => .error .picklingError
    | some buffer =>
        if buffer.length < 2 ^ 32 then
          .ok { t with written := t.written ++ (pack buffer.length ++ buffer) }
        else .error .structError

end SendFrame

structure IpcFrameProtocol where
  /-- None if there is no frame in flight, which is -1 in the source. -/
  frameSize : Option ℕ
  /-- None before the first chunk. -/
  frameBuffer : Option Bytes

namespace IpcFrameProtocol

def init : IpcFrameProtocol := ⟨none, none⟩

/-- The size of the frame at the start of the buffer, if it is known. -/
def expectedSize (frameSize : Option ℕ) (buffer : Bytes) : Option ℕ :=
  match frameSize with
  | none => if buffer.length < 4 then none else some (unpackFrom buffer)
  | some size => some size

/-- The loop of `data_received`, with the blocks it hands to `_block_received`. -/
def eatFrames (frameSize : Option ℕ) (buffer : Bytes) : List Bytes × IpcFrameProtocol :=
  match expectedSize frameSize buffer with
  | none => ([], ⟨frameSize, some buffer⟩)
  | some size =>
      if size + 4 ≤ buffer.length then
        let (blocks, p) := eatFrames none (buffer.drop (size + 4))
        ((buffer.take (size + 4)).drop 4 :: blocks, p)
      else ([], ⟨some size, some buffer⟩)
termination_by buffer.length

def dataReceived (p : IpcFrameProtocol) (data : Bytes) : List Bytes × IpcFrameProtocol :=
  eatFrames p.frameSize (p.frameBuffer.getD [] ++ data)

/-- A chunk comes in, after some blocks have been dispatched. -/
def receive (x : List Bytes × IpcFrameProtocol) (data : Bytes) : List Bytes × IpcFrameProtocol :=
  let (blocks, p) := x.2.dataReceived data
  (x.1 ++ blocks, p)

end IpcFrameProtocol

/-! ## The length field -/

@[simp] theorem length_pack (n : ℕ) : (pack n).length = 4 := rfl

theorem unpackFrom_pack {n : ℕ} (h : n < 2 ^ 32) (s : Bytes) : unpackFrom (pack n ++ s) = n := by
  have hbytes : unpackFrom (pack n ++ s)
      = (UInt8.ofNat (n / 2 ^ 24)).toNat * 2 ^ 24 + (UInt8.ofNat (n / 2 ^ 16)).toNat * 2 ^ 16
        + (UInt8.ofNat (n / 2 ^ 8)).toNat * 2 ^ 8 + (UInt8.ofNat n).toNat := rfl
  rw [hbytes]
  simp only [UInt8.toNat_ofNat']
  omega

theorem pack_unpackFrom {s : Bytes} (h : 4 ≤ s.length) : pack (unpackFrom s) ++ s.drop 4 = s := by
  match s, h with
  | a :: b :: c :: d :: s, _ =>
      have ha := a.toNat_lt
      have hb := b.toNat_lt
      have hc := c.toNat_lt
      have hd := d.toNat_lt
      have hpack : pack (unpackFrom (a :: b :: c :: d :: s)) = [a, b, c, d] := by
        simp only [pack, unpackFrom, List.map_cons, List.map_nil, List.cons.injEq, and_true,
          ← UInt8.toNat_inj, UInt8.toNat_ofNat']
        omega
      rw [hpack]
      rfl

theorem unpackFrom_append {s : Bytes} (h : 4 ≤ s.length) (t : Bytes) :
    unpackFrom (s ++ t) = unpackFrom s := by
  match s, h with
  | a :: b :: c :: d :: s, _ => rfl

theorem unpackFrom_lt (s : Bytes) : unpackFrom s < 2 ^ 32 := by
  match s with
  | a :: b :: c :: d :: s =>
      have ha := a.toNat_lt
      have hb := b.toNat_lt
      have hc := c.toNat_lt
      have hd := d.toNat_lt
      rw [unpackFrom]
      omega
  | [] | [_] | [_, _] | [_, _, _] => exact Nat.two_pow_pos 32

/-- A block with its length. -/
def ipcFraming : Framing UInt8 Bytes where
  Valid block := block.length < 2 ^ 32
  encode block := pack block.length ++ block
  next s :=
    if 4 ≤ s.length ∧ unpackFrom s + 4 ≤ s.length then
      some ((s.take (unpackFrom s + 4)).drop 4, s.drop (unpackFrom s + 4))
    else none
  encode_ne_nil := List.append_ne_nil_of_left_ne_nil (by simp [pack]) _
  next_eq_some_iff {s b r} := by
    constructor
    · intro h
      split_ifs at h with hs
      obtain ⟨rfl, rfl⟩ := Prod.mk.inj (Option.some.inj h)
      have hlength : ((s.take (unpackFrom s + 4)).drop 4).length = unpackFrom s := by
        rw [List.length_drop, List.length_take]
        omega
      refine ⟨by rw [hlength]; exact unpackFrom_lt s, ?_⟩
      rw [hlength, List.append_assoc, List.drop_take, Nat.add_sub_cancel, Nat.add_comm,
        ← List.drop_drop, List.take_append_drop, pack_unpackFrom hs.1]
    · rintro ⟨hb, rfl⟩
      rw [List.append_assoc, unpackFrom_pack hb, if_pos]
      · have htake : (pack b.length ++ (b ++ r)).take (b.length + 4) = pack b.length ++ b := by
          rw [← List.append_assoc]
          exact List.take_left' (by simp [Nat.add_comm])
        have hdrop : (pack b.length ++ (b ++ r)).drop (b.length + 4) = r := by
          rw [← List.append_assoc]
          exact List.drop_left' (by simp [Nat.add_comm])
        rw [htake, hdrop]
        rfl
      · simp only [List.length_append, length_pack]
        omega

/-! ## The protocol and its framing -/

namespace IpcFrameProtocol

/-- What is remembered is the length at the start of the buffer. -/
def Consistent (frameSize : Option ℕ) (buffer : Bytes) : Prop :=
  ∀ size, frameSize = some size → 4 ≤ buffer.length ∧ unpackFrom buffer = size

variable {frameSize : Option ℕ} {buffer data : Bytes}

theorem Consistent.append (h : Consistent frameSize buffer) (data : Bytes) :
    Consistent frameSize (buffer ++ data) := fun size hsize => by
  obtain ⟨hlength, rfl⟩ := h size hsize
  refine ⟨?_, unpackFrom_append hlength data⟩
  rw [List.length_append]
  omega

theorem consistent_none : Consistent none buffer := fun _ h => by cases h

theorem expectedSize_eq (h : Consistent frameSize buffer) :
    expectedSize frameSize buffer
      = if 4 ≤ buffer.length then some (unpackFrom buffer) else none := by
  cases frameSize with
  | none =>
      rw [expectedSize]
      split_ifs <;> first | rfl | omega
  | some size =>
      obtain ⟨hlength, hsize⟩ := h size rfl
      rw [if_pos hlength, hsize]
      rfl

/-- The loop drains the buffer, and is consistent again when it waits for data. -/
theorem eatFrames_spec (h : Consistent frameSize buffer) :
    ∃ frameSize', eatFrames frameSize buffer
        = ((ipcFraming.drain buffer).1, ⟨frameSize', some (ipcFraming.drain buffer).2⟩)
      ∧ Consistent frameSize' (ipcFraming.drain buffer).2 := by
  induction hn : buffer.length using Nat.strongRecOn generalizing frameSize buffer with
  | ind n ih =>
      rw [eatFrames, expectedSize_eq h]
      by_cases h4 : 4 ≤ buffer.length
      · rw [if_pos h4]
        by_cases hwhole : unpackFrom buffer + 4 ≤ buffer.length
        · have hnext : ipcFraming.next buffer
              = some ((buffer.take (unpackFrom buffer + 4)).drop 4,
                  buffer.drop (unpackFrom buffer + 4)) := if_pos ⟨h4, hwhole⟩
          obtain ⟨frameSize', heat, hcons⟩ := ih (buffer.drop (unpackFrom buffer + 4)).length
            (hn ▸ ipcFraming.next_length hnext) consistent_none rfl
          refine ⟨frameSize', ?_⟩
          rw [ipcFraming.drain_of_some hnext]
          simp only [if_pos hwhole, heat]
          exact ⟨trivial, hcons⟩
        · rw [ipcFraming.drain_of_none (if_neg fun h => hwhole h.2)]
          refine ⟨some (unpackFrom buffer), by simp only [if_neg hwhole], fun size hsize => ?_⟩
          exact ⟨h4, Option.some.inj hsize⟩
      · rw [ipcFraming.drain_of_none (if_neg fun h => h4 h.1), if_neg h4]
        exact ⟨frameSize, rfl, h⟩

/-- The buffer holds what the framing has left, once something was received. -/
def Holds (p : IpcFrameProtocol) (rest : Bytes) : Prop :=
  p.frameBuffer.getD [] = rest ∧ Consistent p.frameSize rest

theorem dataReceived_eq {p : IpcFrameProtocol} {rest : Bytes} (h : p.Holds rest) (data : Bytes) :
    ∃ frameSize, p.dataReceived data
        = ((ipcFraming.drain (rest ++ data)).1,
            ⟨frameSize, some (ipcFraming.drain (rest ++ data)).2⟩)
      ∧ Consistent frameSize (ipcFraming.drain (rest ++ data)).2 := by
  obtain ⟨rfl, hcons⟩ := h
  exact eatFrames_spec (hcons.append data)

theorem receive_refines {x : List Bytes × IpcFrameProtocol} {y : List Bytes × Bytes}
    (hblocks : x.1 = y.1) (h : x.2.Holds y.2) (data : Bytes) :
    (receive x data).1 = (ipcFraming.receive y data).1
      ∧ (receive x data).2.frameBuffer = some (ipcFraming.receive y data).2
      ∧ (receive x data).2.Holds (ipcFraming.receive y data).2 := by
  obtain ⟨frameSize, heq, hcons⟩ := dataReceived_eq h data
  simp only [receive, heq, hblocks]
  exact ⟨rfl, rfl, rfl, hcons⟩

/-- Any number of chunks. -/
theorem receive_run (chunks : List Bytes) :
    (chunks.foldl receive ([], init)).1 = (ipcFraming.drain chunks.flatten).1
      ∧ (chunks.foldl receive ([], init)).2.Holds (ipcFraming.drain chunks.flatten).2
      ∧ (chunks ≠ [] → (chunks.foldl receive ([], init)).2.frameBuffer
          = some (ipcFraming.drain chunks.flatten).2) := by
  rw [← ipcFraming.receive_eq_drain]
  induction chunks using List.reverseRecOn with
  | nil => exact ⟨rfl, ⟨rfl, consistent_none⟩, fun h => absurd rfl h⟩
  | append_singleton chunks data ih =>
      obtain ⟨hblocks, hholds, -⟩ := ih
      obtain ⟨hblocks, hbuffer, hholds⟩ := receive_refines hblocks hholds data
      rw [List.foldl_append, List.foldl_append]
      exact ⟨hblocks, hholds, fun _ => hbuffer⟩

end IpcFrameProtocol

/-! ## Both ends -/

section Both

variable {φ : Type} {dumps : φ → Option Bytes}

theorem sendFrame_run {frames : List φ} {blocks : List Bytes}
    (hdumps : frames.map dumps = blocks.map some) (hsize : ∀ b ∈ blocks, b.length < 2 ^ 32)
    (written : Bytes) :
    frames.foldlM (sendFrame dumps) ⟨false, written⟩
      = .ok ⟨false, written ++ blocks.flatMap ipcFraming.encode⟩ := by
  induction frames generalizing blocks written with
  | nil =>
      obtain rfl := List.map_eq_nil_iff.mp hdumps.symm
      rw [List.flatMap_nil, List.append_nil]
      rfl
  | cons frame frames ih =>
      cases blocks with
      | nil => cases hdumps
      | cons block blocks =>
          obtain ⟨hframe, hframes⟩ := List.cons.inj hdumps
          obtain ⟨hblock, hblocks⟩ := List.forall_mem_cons.mp hsize
          have hsend : sendFrame dumps ⟨false, written⟩ frame
              = .ok ⟨false, written ++ ipcFraming.encode block⟩ := by
            rw [sendFrame, hframe]
            exact if_pos hblock
          rw [List.foldlM_cons, hsend, List.flatMap_cons, ← List.append_assoc]
          exact ih hframes hblocks _

/-- **However the stream is cut, the blocks arrive in order, and the buffer
holds what was not dispatched yet.** -/
theorem blocks_received (frames : List φ) (blocks : List Bytes)
    (hdumps : frames.map dumps = blocks.map some) (hsize : ∀ b ∈ blocks, b.length < 2 ^ 32) :
    ∃ t, frames.foldlM (sendFrame dumps) ⟨false, []⟩ = .ok t
      ∧ ∀ chunks : List Bytes, chunks.flatten = t.written →
        (chunks.foldl IpcFrameProtocol.receive ([], .init)).1 = blocks
        ∧ ∀ received after, chunks = received ++ after → received ≠ [] →
          ∃ k buffer,
            (received.foldl IpcFrameProtocol.receive ([], .init)).1 = blocks.take k
            ∧ (received.foldl IpcFrameProtocol.receive ([], .init)).2.frameBuffer = some buffer
            ∧ ((blocks.take k).flatMap fun b => pack b.length ++ b) ++ buffer = received.flatten
            ∧ ∀ b ∈ blocks.drop k, ¬ (pack b.length ++ b) <+: buffer := by
  refine ⟨_, sendFrame_run hdumps hsize [], fun chunks hcut => ?_⟩
  rw [List.nil_append] at hcut
  refine ⟨?_, ?_⟩
  · rw [(IpcFrameProtocol.receive_run chunks).1, hcut, ipcFraming.drain_encode hsize]
  · rintro received after rfl hne
    obtain ⟨hblocks, -, hbuffer⟩ := IpcFrameProtocol.receive_run received
    rw [List.flatten_append] at hcut
    have htake := ipcFraming.drain_prefix hsize hcut
    refine ⟨_, _, hblocks.trans htake, hbuffer hne, ?_, fun b hb hprefix => ?_⟩
    · rw [← htake]
      exact ipcFraming.flatMap_encode_drain received.flatten
    · obtain ⟨r, hr⟩ := hprefix
      have hnext := ipcFraming.next_eq_some_iff.mpr
        ⟨hsize b (List.mem_of_mem_drop hb), hr.symm⟩
      rw [ipcFraming.next_drain] at hnext
      cases hnext

/-- An empty block and a block of one byte, cut inside the length field of the second. -/
theorem blocks_received_in_three_chunks :
    ([[0, 0, 0, 0, 0, 0], [], [0, 1, 7]].foldl IpcFrameProtocol.receive ([], .init)).1
      = [[], [7]] := by
  obtain ⟨t, ht, hreceived⟩ := @blocks_received Bytes some [[], [7]] [[], [7]] rfl (by simp)
  obtain rfl := Except.ok.inj ht
  exact (hreceived _ rfl).1

end Both

end Inmanta
