import Mathlib.Data.List.Forall2
import Inmanta.Lib.Run

/-!
# Simulation

Two transition systems over the same actions simulate each other along a
relation of their states if in related states the same actions are possible
and lead to related states again. Then the same runs are possible and lead to
related states (`Simulates.run`).
-/

namespace Inmanta

variable {σ τ α β γ : Type}

/-- Neither is there, or both are and are related. -/
def BothOrNone (R : β → γ → Prop) (x : Option β) (y : Option γ) : Prop :=
  (x = none ∧ y = none) ∨ ∃ b c, x = some b ∧ y = some c ∧ R b c

theorem BothOrNone.map {β' γ' : Type} {R : β → γ → Prop} {R' : β' → γ' → Prop} {x : Option β}
    {y : Option γ} {f : β → β'} {g : γ → γ'} (h : BothOrNone R x y)
    (hR : ∀ b c, R b c → R' (f b) (g c)) : BothOrNone R' (x.map f) (y.map g) := by
  rcases h with ⟨rfl, rfl⟩ | ⟨b, c, rfl, rfl, hbc⟩
  · exact .inl ⟨rfl, rfl⟩
  · exact .inr ⟨f b, g c, rfl, rfl, hR b c hbc⟩

theorem bothOrNone_getElem? {R : β → γ → Prop} {xs : List β} {ys : List γ}
    (h : List.Forall₂ R xs ys) (k : Nat) : BothOrNone R xs[k]? ys[k]? := by
  induction h generalizing k with
  | nil => exact .inl ⟨rfl, rfl⟩
  | @cons x y xs ys hxy _ ih =>
      cases k with
      | zero => exact .inr ⟨x, y, rfl, rfl, hxy⟩
      | succ k => exact ih k

theorem forall₂_set {R : β → γ → Prop} {xs : List β} {ys : List γ} (h : List.Forall₂ R xs ys)
    {x : β} {y : γ} (hxy : R x y) (k : Nat) : List.Forall₂ R (xs.set k x) (ys.set k y) := by
  induction h generalizing k with
  | nil => exact .nil
  | cons hhead htail ih =>
      cases k with
      | zero => exact .cons hxy htail
      | succ k => exact .cons hhead (ih k)

theorem forall₂_concat {R : β → γ → Prop} {xs : List β} {ys : List γ} (h : List.Forall₂ R xs ys)
    {x : β} {y : γ} (hxy : R x y) : List.Forall₂ R (xs ++ [x]) (ys ++ [y]) := by
  induction h with
  | nil => exact .cons hxy .nil
  | cons hhead _ ih => exact .cons hhead ih

def Simulates (R : σ → τ → Prop) (step : σ → α → Option σ) (step' : τ → α → Option τ) : Prop :=
  ∀ s t a, R s t → BothOrNone R (step s a) (step' t a)

theorem Simulates.run {R : σ → τ → Prop} {step : σ → α → Option σ} {step' : τ → α → Option τ}
    (h : Simulates R step step') {s : σ} {t : τ} (hst : R s t) (as : List α) :
    BothOrNone R (run step s as) (run step' t as) := by
  induction as generalizing s t with
  | nil => exact .inr ⟨s, t, rfl, rfl, hst⟩
  | cons a as ih =>
      rcases h s t a hst with ⟨hs, ht⟩ | ⟨s', t', hs, ht, hst'⟩
      · rw [Inmanta.run, Inmanta.run, hs, ht]
        exact .inl ⟨rfl, rfl⟩
      · rw [Inmanta.run, Inmanta.run, hs, ht]
        exact ih hst'

theorem Simulates.invariant {R : σ → τ → Prop} {step : σ → α → Option σ}
    {step' : τ → α → Option τ} (h : Simulates R step step') {ok : σ → α → Prop} {I : τ → Prop}
    (hstep : ∀ s t a t', I t → ok s a → step' t a = some t' → I t') {s r : σ} {t : τ}
    (hst : R s t) (ht : I t) {as : List α} (hok : Along step ok s as)
    (hrun : Inmanta.run step s as = some r) : ∃ t', R r t' ∧ I t' := by
  refine run_invariant (I := fun s => ∃ t, R s t ∧ I t) ?_ ⟨t, hst, ht⟩ hok hrun
  rintro s a s' ⟨t, hst, ht⟩ ha hs
  rcases h s t a hst with ⟨hnone, -⟩ | ⟨s₁, t', hs₁, ht', hst'⟩
  · cases hs.symm.trans hnone
  · obtain rfl := Option.some.inj (hs.symm.trans hs₁)
    exact ⟨t', hst', hstep s t a t' ht ha ht'⟩

end Inmanta
