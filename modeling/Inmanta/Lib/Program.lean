/-!
# Programs with state and exceptions

A `Program σ ε α` runs in a state and gives a value or raises an exception; the
changes it made to the state up to there stay. `tryCatch` goes on from the state
the exception was raised in, as `except` clauses do.

`AtMost` bounds what a program adds to a measure of the state, whichever way it
ends. `Keeps` and `Ensures` are about the state it leaves behind.
-/

namespace Inmanta

def Program (σ ε α : Type) : Type := σ → Except ε α × σ

namespace Program

variable {σ ε α β : Type}

def pure (a : α) : Program σ ε α := fun s => (.ok a, s)

def raise (e : ε) : Program σ ε α := fun s => (.error e, s)

def bind (m : Program σ ε α) (f : α → Program σ ε β) : Program σ ε β := fun s =>
  match m s with
  | (.ok a, s') => f a s'
  | (.error e, s') => (.error e, s')

/-- Run the handler in the state the exception was raised in. -/
def tryCatch (m : Program σ ε α) (handler : ε → Program σ ε α) : Program σ ε α := fun s =>
  match m s with
  | (.ok a, s') => (.ok a, s')
  | (.error e, s') => handler e s'

def modify (f : σ → σ) : Program σ ε Unit := fun s => (.ok (), f s)

instance : Monad (Program σ ε) where
  pure := pure
  bind := bind

theorem bind_ok {m : Program σ ε α} {f : α → Program σ ε β} {s s' : σ} {a : α}
    (h : m s = (.ok a, s')) : (m >>= f) s = f a s' := by
  change bind m f s = f a s'
  rw [bind, h]

theorem bind_error {m : Program σ ε α} {f : α → Program σ ε β} {s s' : σ} {e : ε}
    (h : m s = (.error e, s')) : (m >>= f) s = (.error e, s') := by
  change bind m f s = _
  rw [bind, h]

/-- A sequence that succeeds: its first part did. -/
theorem bind_eq_ok {m : Program σ ε α} {f : α → Program σ ε β} {s s'' : σ} {b : β}
    (h : (m >>= f) s = (.ok b, s'')) : ∃ a s', m s = (.ok a, s') ∧ f a s' = (.ok b, s'') := by
  cases hm : m s with
  | mk r s' =>
      cases r with
      | ok a =>
          rw [bind_ok hm] at h
          exact ⟨a, s', rfl, h⟩
      | error e =>
          rw [bind_error hm] at h
          cases h

/-! ## Bounds -/

/-- The program adds no more than `k` to the measure. -/
def AtMost (measure : σ → Nat) (k : Nat) (m : Program σ ε α) : Prop :=
  ∀ s, measure (m s).2 ≤ measure s + k

namespace AtMost

variable {measure : σ → Nat} {k l : Nat} {m : Program σ ε α}

theorem mono (h : AtMost measure k m) (hkl : k ≤ l) : AtMost measure l m :=
  fun s => Nat.le_trans (h s) (Nat.add_le_add_left hkl _)

theorem pure (a : α) : AtMost measure 0 (Pure.pure a : Program σ ε α) := fun _ => Nat.le_refl _

theorem raise (e : ε) : AtMost measure 0 (Program.raise e : Program σ ε α) :=
  fun _ => Nat.le_refl _

theorem bind {f : α → Program σ ε β} (hm : AtMost measure k m)
    (hf : ∀ a, AtMost measure l (f a)) : AtMost measure (k + l) (m >>= f) := by
  intro s
  have hs := hm s
  cases hms : m s with
  | mk r s' =>
      rw [hms] at hs
      cases r with
      | ok a =>
          rw [bind_ok hms]
          have := hf a s'
          simp only at hs
          omega
      | error e =>
          rw [bind_error hms]
          simp only at hs ⊢
          omega

theorem tryCatch {handler : ε → Program σ ε α} (hm : AtMost measure k m)
    (hh : ∀ e, AtMost measure l (handler e)) :
    AtMost measure (k + l) (Program.tryCatch m handler) := by
  intro s
  have hs := hm s
  unfold Program.tryCatch
  cases hms : m s with
  | mk r s' =>
      rw [hms] at hs
      cases r with
      | ok a =>
          simp only at hs ⊢
          omega
      | error e =>
          have := hh e s'
          simp only at hs ⊢
          omega

theorem modify {f : σ → σ} (h : ∀ s, measure (f s) ≤ measure s + k) :
    AtMost measure k (Program.modify f : Program σ ε Unit) := h

end AtMost

/-! ## The state left behind -/

def Keeps (P : σ → Prop) (m : Program σ ε α) : Prop := ∀ s, P s → P (m s).2

def Ensures (P : σ → Prop) (m : Program σ ε α) : Prop := ∀ s, P (m s).2

theorem Keeps.bind {P : σ → Prop} {m : Program σ ε α} {f : α → Program σ ε β}
    (hm : Keeps P m) (hf : ∀ a, Keeps P (f a)) : Keeps P (m >>= f) := by
  intro s hs
  have hs' := hm s hs
  cases hms : m s with
  | mk r s' =>
      rw [hms] at hs'
      cases r with
      | ok a =>
          rw [bind_ok hms]
          exact hf a s' hs'
      | error e =>
          rw [bind_error hms]
          exact hs'

/-- What the first part ensures and the rest keeps. -/
theorem Ensures.bind {P : σ → Prop} {m : Program σ ε α} {f : α → Program σ ε β}
    (hm : Ensures P m) (hf : ∀ a, Keeps P (f a)) : Ensures P (m >>= f) := by
  intro s
  have hs' := hm s
  cases hms : m s with
  | mk r s' =>
      rw [hms] at hs'
      cases r with
      | ok a =>
          rw [bind_ok hms]
          exact hf a s' hs'
      | error e =>
          rw [bind_error hms]
          exact hs'

/-- What holds where the program succeeds, and where an exception was handled. -/
theorem Ensures.tryCatch {P : σ → Prop} {m : Program σ ε α} {handler : ε → Program σ ε α}
    (hm : ∀ s a s', m s = (.ok a, s') → P s') (hh : ∀ e, Ensures P (handler e)) :
    Ensures P (Program.tryCatch m handler) := by
  intro s
  unfold Program.tryCatch
  cases hms : m s with
  | mk r s' =>
      cases r with
      | ok a => exact hm s a s' hms
      | error e => exact hh e s'

theorem Keeps.tryCatch {P : σ → Prop} {m : Program σ ε α} {handler : ε → Program σ ε α}
    (hm : Keeps P m) (hh : ∀ e, Keeps P (handler e)) : Keeps P (Program.tryCatch m handler) := by
  intro s hs
  have hs' := hm s hs
  unfold Program.tryCatch
  cases hms : m s with
  | mk r s' =>
      rw [hms] at hs'
      cases r with
      | ok a => exact hs'
      | error e => exact hh e s' hs'

/-! ## Programs that do not raise -/

def Succeeds (m : Program σ ε α) : Prop := ∀ s, ∃ a s', m s = (.ok a, s')

theorem Succeeds.bind {m : Program σ ε α} {f : α → Program σ ε β} (hm : Succeeds m)
    (hf : ∀ a, Succeeds (f a)) : Succeeds (m >>= f) := by
  intro s
  obtain ⟨a, s', hs⟩ := hm s
  rw [bind_ok hs]
  exact hf a s'

/-- Whatever is raised is handled. -/
theorem Succeeds.tryCatch {m : Program σ ε α} {handler : ε → Program σ ε α}
    (hh : ∀ e, Succeeds (handler e)) : Succeeds (Program.tryCatch m handler) := by
  intro s
  unfold Program.tryCatch
  cases hms : m s with
  | mk r s' =>
      cases r with
      | ok a => exact ⟨a, s', rfl⟩
      | error e => exact hh e s'

end Program

end Inmanta
