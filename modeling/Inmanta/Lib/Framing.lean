import Mathlib.Data.List.Basic

/-!
# Frames in a stream

A framing tells where the first frame of a stream ends. A receiver that is fed
the stream in chunks keeps what it has not dispatched yet, and dispatches the
frames that are whole. How the stream is cut does not matter: `receive_eq_drain`
says that the chunks dispatch the frames of the whole stream.
-/

namespace Inmanta

structure Framing (α β : Type) where
  Valid : β → Prop
  encode : β → List α
  /-- The first frame, and what follows it. -/
  next : List α → Option (β × List α)
  encode_ne_nil : ∀ {b}, encode b ≠ []
  next_eq_some_iff : ∀ {s b r}, next s = some (b, r) ↔ Valid b ∧ s = encode b ++ r

namespace Framing

variable {α β : Type} (F : Framing α β) {s t r : List α} {b : β}

theorem next_length (h : F.next s = some (b, r)) : r.length < s.length := by
  obtain ⟨-, rfl⟩ := F.next_eq_some_iff.mp h
  have := List.length_pos_of_ne_nil (F.encode_ne_nil (b := b))
  rw [List.length_append]
  omega

theorem next_append (h : F.next s = some (b, r)) (t : List α) :
    F.next (s ++ t) = some (b, r ++ t) := by
  obtain ⟨hb, rfl⟩ := F.next_eq_some_iff.mp h
  exact F.next_eq_some_iff.mpr ⟨hb, List.append_assoc ..⟩

theorem next_nil : F.next [] = none := by
  cases h : F.next [] with
  | none => rfl
  | some x => exact absurd (F.next_length h) (Nat.not_lt_zero _)

/-- The whole frames of a stream, and what is left of it. -/
def drain (s : List α) : List β × List α :=
  match h : F.next s with
  | none => ([], s)
  | some (b, r) =>
      have := F.next_length h
      (b :: (drain r).1, (drain r).2)
termination_by s.length

theorem drain_of_none (h : F.next s = none) : F.drain s = ([], s) := by
  rw [drain]
  split
  · rfl
  · rename_i heq
    rw [h] at heq
    cases heq

theorem drain_of_some (h : F.next s = some (b, r)) :
    F.drain s = (b :: (F.drain r).1, (F.drain r).2) := by
  rw [drain]
  split
  · rename_i heq
    rw [h] at heq
    cases heq
  · rename_i heq
    obtain ⟨rfl, rfl⟩ := Prod.mk.inj (Option.some.inj (h.symm.trans heq))
    rfl

/-- What is left does not hold a whole frame. -/
theorem next_drain (s : List α) : F.next (F.drain s).2 = none := by
  induction s using drain.induct F with
  | case1 s h => rwa [F.drain_of_none h]
  | case2 s b r h hlt ih => rwa [F.drain_of_some h]

/-- Nothing is lost: the frames and what is left make up the stream. -/
theorem flatMap_encode_drain (s : List α) :
    (F.drain s).1.flatMap F.encode ++ (F.drain s).2 = s := by
  induction s using drain.induct F with
  | case1 s h => rw [F.drain_of_none h]; rfl
  | case2 s b r h hlt ih =>
      rw [F.drain_of_some h, List.flatMap_cons, List.append_assoc, ih]
      exact (F.next_eq_some_iff.mp h).2.symm

/-- The frames of a stream come first in every longer stream. -/
theorem drain_append (s t : List α) :
    F.drain (s ++ t)
      = ((F.drain s).1 ++ (F.drain ((F.drain s).2 ++ t)).1, (F.drain ((F.drain s).2 ++ t)).2) := by
  induction s using drain.induct F with
  | case1 s h => rw [F.drain_of_none h]; rfl
  | case2 s b r h hlt ih =>
      rw [F.drain_of_some (F.next_append h t), F.drain_of_some h, ih]
      rfl

theorem drain_encode {bs : List β} (h : ∀ b ∈ bs, F.Valid b) :
    F.drain (bs.flatMap F.encode) = (bs, []) := by
  induction bs with
  | nil => exact F.drain_of_none F.next_nil
  | cons b bs ih =>
      obtain ⟨hb, hbs⟩ := List.forall_mem_cons.mp h
      have hnext : F.next ((b :: bs).flatMap F.encode) = some (b, bs.flatMap F.encode) :=
        F.next_eq_some_iff.mpr ⟨hb, List.flatMap_cons ..⟩
      rw [F.drain_of_some hnext, ih hbs]

/-- A chunk comes in. -/
def receive (x : List β × List α) (chunk : List α) : List β × List α :=
  (x.1 ++ (F.drain (x.2 ++ chunk)).1, (F.drain (x.2 ++ chunk)).2)

theorem receive_drain (s chunk : List α) : F.receive (F.drain s) chunk = F.drain (s ++ chunk) :=
  (F.drain_append s chunk).symm

theorem receive_eq_drain (chunks : List (List α)) :
    chunks.foldl F.receive ([], []) = F.drain chunks.flatten := by
  have hrun : ∀ chunks s, List.foldl F.receive (F.drain s) chunks = F.drain (s ++ chunks.flatten) := by
    intro chunks
    induction chunks with
    | nil => exact fun s => congrArg F.drain (List.append_nil s).symm
    | cons chunk chunks ih =>
        intro s
        rw [List.foldl_cons, F.receive_drain, ih, List.flatten_cons, List.append_assoc]
  have hnil := F.drain_of_none F.next_nil
  rw [← hnil, hrun, List.nil_append]

/-- The frames of the first part of a stream are the first ones. -/
theorem drain_prefix {bs : List β} (h : ∀ b ∈ bs, F.Valid b) (hst : s ++ t = bs.flatMap F.encode) :
    (F.drain s).1 = bs.take (F.drain s).1.length := by
  have hdrain := F.drain_append s t
  rw [hst, F.drain_encode h] at hdrain
  have hbs := (Prod.mk.inj hdrain).1
  rw [hbs, List.take_left]

end Framing

end Inmanta
