import Mathlib.Data.List.Basic

/-!
# Runs of a transition system

A transition system is a partial step function `step : σ → α → Option σ`
(`none`: the action is not possible there). `run` iterates it along a list
of actions, so a run is data and can be computed. `Along` states a
condition on the actions of a run at the states they are taken in, and
`run_invariant` is the one induction over runs: what every permitted step
preserves holds at the end of every permitted run. `Always` states a
condition on all the states of a run, and `always_iff_along` says when it
is the same as a condition on the steps.
-/

namespace Inmanta

variable {σ α : Type}

/-- Take the actions of a list one after the other. -/
def run (step : σ → α → Option σ) : σ → List α → Option σ
  | s, [] => some s
  | s, a :: as =>
      match step s a with
      | none => none
      | some s' => run step s' as

/-- Every action of the run satisfies `ok` in the state it is taken in. -/
def Along (step : σ → α → Option σ) (ok : σ → α → Prop) : σ → List α → Prop
  | _, [] => True
  | s, a :: as =>
      ok s a ∧
        match step s a with
        | none => True
        | some s' => Along step ok s' as

instance decidableAlong (step : σ → α → Option σ) (ok : σ → α → Prop)
    [∀ s, DecidablePred (ok s)] : ∀ s as, Decidable (Along step ok s as)
  | _, [] => inferInstanceAs (Decidable True)
  | s, a :: as =>
      match hs : step s a with
      | none => decidable_of_iff (ok s a) (by rw [Along, hs, and_true])
      | some s' =>
          have := decidableAlong step ok s' as
          decidable_of_iff (ok s a ∧ Along step ok s' as) (by rw [Along, hs])

/-- Every state the run goes through satisfies `I`, the first and the last one
included. -/
def Always (step : σ → α → Option σ) (I : σ → Prop) : σ → List α → Prop
  | s, [] => I s
  | s, a :: as =>
      I s ∧
        match step s a with
        | none => True
        | some s' => Always step I s' as

theorem Always.head {step : σ → α → Option σ} {I : σ → Prop} {s : σ} {as : List α}
    (h : Always step I s as) : I s := by
  cases as with
  | nil => exact h
  | cons _ _ => exact h.1

theorem run_cons_inv {step : σ → α → Option σ} {s r : σ} {a : α} {as : List α}
    (h : run step s (a :: as) = some r) :
    ∃ s', step s a = some s' ∧ run step s' as = some r := by
  rw [run] at h
  cases hs : step s a with
  | none => rw [hs] at h; cases h
  | some s' => rw [hs] at h; exact ⟨s', rfl, h⟩

/-- A property of the last state of a run that can be evaluated. -/
theorem exists_run_of_any (step : σ → α → Option σ) (s : σ) (as : List α) {p : σ → Prop}
    [DecidablePred p] (h : (run step s as).any (fun r => decide (p r)) = true) :
    ∃ r, run step s as = some r ∧ p r := by
  cases hr : run step s as with
  | none => rw [hr] at h; cases h
  | some r =>
      rw [hr] at h
      exact ⟨r, rfl, of_decide_eq_true h⟩

theorem Along.head {step : σ → α → Option σ} {ok : σ → α → Prop} {s : σ} {a : α}
    {as : List α} (h : Along step ok s (a :: as)) : ok s a :=
  h.1

theorem Along.tail {step : σ → α → Option σ} {ok : σ → α → Prop} {s s' : σ} {a : α}
    {as : List α} (h : Along step ok s (a :: as)) (hs : step s a = some s') :
    Along step ok s' as := by
  have h' := h.2
  rw [hs] at h'
  exact h'

/-- **Run induction.** An invariant that holds initially and that every step
permitted by `ok` preserves holds at the end of every run of such steps. -/
theorem run_invariant {step : σ → α → Option σ} {ok : σ → α → Prop} {I : σ → Prop}
    (hstep : ∀ s a s', I s → ok s a → step s a = some s' → I s')
    {s r : σ} {as : List α} (h0 : I s) (hok : Along step ok s as)
    (hrun : run step s as = some r) : I r := by
  induction as generalizing s with
  | nil =>
      obtain rfl := Option.some.inj hrun
      exact h0
  | cons a as ih =>
      obtain ⟨s', hs, hr⟩ := run_cons_inv hrun
      exact ih (hstep s a s' h0 hok.head hs) (hok.tail hs) hr

theorem Along.imp {step : σ → α → Option σ} {ok ok' : σ → α → Prop}
    (h : ∀ s a, ok s a → ok' s a) {s : σ} {as : List α} (hok : Along step ok s as) :
    Along step ok' s as := by
  induction as generalizing s with
  | nil => trivial
  | cons a as ih =>
      refine ⟨h s a hok.head, ?_⟩
      cases hs : step s a with
      | none => trivial
      | some s' => exact ih (hok.tail hs)

theorem Along.and {step : σ → α → Option σ} {ok ok' : σ → α → Prop} {s : σ} {as : List α}
    (h : Along step ok s as) (h' : Along step ok' s as) :
    Along step (fun s a => ok s a ∧ ok' s a) s as := by
  induction as generalizing s with
  | nil => trivial
  | cons a as ih =>
      refine ⟨⟨h.head, h'.head⟩, ?_⟩
      cases hs : step s a with
      | none => trivial
      | some s' => exact ih (h.tail hs) (h'.tail hs)

/-- A condition on the steps of a run that is the same as another wherever the
invariant holds. -/
theorem Along.iff_of_invariant {step : σ → α → Option σ} {I : σ → Prop}
    {ok ok' : σ → α → Prop} (hstep : ∀ s a s', I s → step s a = some s' → I s')
    (h : ∀ s a, I s → (ok s a ↔ ok' s a)) {s : σ} (h0 : I s) (as : List α) :
    Along step ok s as ↔ Along step ok' s as := by
  induction as generalizing s with
  | nil => exact Iff.rfl
  | cons a as ih =>
      rw [Along, Along]
      refine and_congr (h s a h0) ?_
      cases hs : step s a with
      | none => exact Iff.rfl
      | some s' => exact ih (hstep s a s' h0 hs)

/-- An invariant that holds initially and that every step permitted by `ok`
preserves holds in every state of a run of such steps. -/
theorem always_of_step {step : σ → α → Option σ} {ok : σ → α → Prop} {I : σ → Prop}
    (hstep : ∀ s a s', I s → ok s a → step s a = some s' → I s')
    {s : σ} {as : List α} (h0 : I s) (hok : Along step ok s as) : Always step I s as := by
  induction as generalizing s with
  | nil => exact h0
  | cons a as ih =>
      refine ⟨h0, ?_⟩
      cases hs : step s a with
      | none => trivial
      | some s' => exact ih (hstep s a s' h0 hok.head hs) (hok.tail hs)

theorem Always.imp {step : σ → α → Option σ} {I J : σ → Prop} (h : ∀ s, I s → J s)
    {s : σ} {as : List α} (hI : Always step I s as) : Always step J s as := by
  induction as generalizing s with
  | nil => exact h s hI
  | cons a as ih =>
      obtain ⟨h0, hrest⟩ := hI
      refine ⟨h s h0, ?_⟩
      cases hs : step s a with
      | none => trivial
      | some s' =>
          rw [hs] at hrest
          exact ih hrest

/-- **Exact step conditions.** Let `K` be preserved by every permitted step.
If, where `K` and `J` hold, a permitted step leads to `J` just when it is
`good`, then `J` holds in every state of a completed run just when all the
steps of the run are good. -/
theorem always_iff_along {step : σ → α → Option σ} {ok good : σ → α → Prop} {K J : σ → Prop}
    (hK : ∀ s a s', K s → ok s a → step s a = some s' → K s')
    (hJ : ∀ s a s', K s → J s → ok s a → step s a = some s' → (J s' ↔ good s a))
    {s r : σ} {as : List α} (hK0 : K s) (hJ0 : J s) (hok : Along step ok s as)
    (hrun : run step s as = some r) : Always step J s as ↔ Along step good s as := by
  induction as generalizing s with
  | nil => exact iff_of_true hJ0 trivial
  | cons a as ih =>
      obtain ⟨s', hs, hr⟩ := run_cons_inv hrun
      have hK' := hK s a s' hK0 hok.head hs
      have hiff := hJ s a s' hK0 hJ0 hok.head hs
      rw [Always, Along, hs]
      constructor
      · rintro ⟨-, h⟩
        have hJ' := h.head
        exact ⟨hiff.mp hJ', (ih hK' hJ' (hok.tail hs) hr).mp h⟩
      · rintro ⟨hg, h⟩
        exact ⟨hJ0, (ih hK' (hiff.mpr hg) (hok.tail hs) hr).mpr h⟩

/-- **Exact step conditions, for a property that is not inductive.** If `I`
implies `J`, every good step preserves `I`, and a step that is not good leads
from `I` to a state without `J`, then `J` holds in every state of a completed
run of permitted steps just when all the steps of the run are good. -/
theorem always_iff_along_of_permitted {step : σ → α → Option σ} {ok good : σ → α → Prop}
    {I J : σ → Prop} (hIJ : ∀ s, I s → J s)
    (hgood : ∀ s a s', I s → ok s a → good s a → step s a = some s' → I s')
    (hbad : ∀ s a s', I s → ok s a → ¬ good s a → step s a = some s' → ¬ J s')
    {s r : σ} {as : List α} (h0 : I s) (hok : Along step ok s as)
    (hrun : run step s as = some r) :
    Always step J s as ↔ Along step good s as := by
  constructor
  · intro h
    induction as generalizing s with
    | nil => trivial
    | cons a as ih =>
        obtain ⟨s', hs, hr⟩ := run_cons_inv hrun
        rw [Always, hs] at h
        have hg : good s a := by
          by_contra hn
          exact hbad s a s' h0 hok.head hn hs h.2.head
        rw [Along, hs]
        exact ⟨hg, ih (hgood s a s' h0 hok.head hg hs) (hok.tail hs) hr h.2⟩
  · intro h
    have hstep : ∀ s a s', I s → ok s a ∧ good s a → step s a = some s' → I s' :=
      fun s a s' hI ha => hgood s a s' hI ha.1 ha.2
    exact (always_of_step hstep h0 (hok.and h)).imp hIJ

/-- What a good step does where an invariant of good steps holds, every step of
a good run does. -/
theorem Along.of_invariant {step : σ → α → Option σ} {good P : σ → α → Prop} {I : σ → Prop}
    (hstep : ∀ s a s', I s → good s a → step s a = some s' → I s')
    (hP : ∀ s a, I s → good s a → P s a) {s : σ} {as : List α} (h0 : I s)
    (hgood : Along step good s as) : Along step P s as := by
  induction as generalizing s with
  | nil => trivial
  | cons a as ih =>
      refine ⟨hP s a h0 hgood.head, ?_⟩
      cases hs : step s a with
      | none => trivial
      | some s' => exact ih (hstep s a s' h0 hgood.head hs) (hgood.tail hs)

theorem along_of_forall {step : σ → α → Option σ} {ok : σ → α → Prop} (h : ∀ s a, ok s a) (s : σ)
    (as : List α) : Along step ok s as := by
  induction as generalizing s with
  | nil => trivial
  | cons a as ih =>
      refine ⟨h s a, ?_⟩
      cases step s a with
      | none => trivial
      | some s' => exact ih s'

/-- The same where every step is permitted. -/
theorem always_iff_along_of_strengthening {step : σ → α → Option σ} {good : σ → α → Prop}
    {I J : σ → Prop} (hIJ : ∀ s, I s → J s)
    (hgood : ∀ s a s', I s → good s a → step s a = some s' → I s')
    (hbad : ∀ s a s', I s → ¬ good s a → step s a = some s' → ¬ J s')
    {s r : σ} {as : List α} (h0 : I s) (hrun : run step s as = some r) :
    Always step J s as ↔ Along step good s as :=
  always_iff_along_of_permitted hIJ (fun s a s' hI _ => hgood s a s' hI)
    (fun s a s' hI _ => hbad s a s' hI) h0 (along_of_forall (fun _ _ => trivial) s as) hrun

end Inmanta
