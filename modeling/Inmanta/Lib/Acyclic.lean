import Mathlib.Data.Fintype.Card
import Mathlib.Data.Set.Finite.List
import Mathlib.Logic.Relation

/-!
# Finite acyclic relations

A relation without cycles whose sources come from a finite list is
well-founded in both directions of use: induction towards the targets
(`Acyclic.wellFounded`), and hence no finite set is closed under "has a
successor in the set" (`Acyclic.eq_empty_of_successor`).
-/

namespace Inmanta

open Relation (TransGen ReflTransGen)

variable {α : Type}

/-- No element reaches itself in one or more steps. -/
def Acyclic (r : α → α → Prop) : Prop :=
  ∀ a, ¬ TransGen r a a

theorem Acyclic.swap {r : α → α → Prop} (h : Acyclic r) : Acyclic (Function.swap r) :=
  fun a ha => h a (Relation.transGen_swap.mp ha)

theorem Acyclic.mono {r s : α → α → Prop} (h : Acyclic s) (hrs : ∀ a b, r a b → s a b) :
    Acyclic r :=
  fun a ha => h a (TransGen.mono hrs a a ha)

/-- A relation along which a rank grows has no cycles. -/
theorem acyclic_of_rank {r : α → α → Prop} (rank : α → ℕ)
    (h : ∀ a b, r a b → rank b < rank a) : Acyclic r := by
  have hgen : ∀ a b, TransGen r a b → rank b < rank a := by
    intro a b hab
    induction hab with
    | single hab => exact h _ _ hab
    | tail _ hbc ih => exact (h _ _ hbc).trans ih
  exact fun a ha => lt_irrefl _ (hgen a a ha)

/-- Induction from an element towards what it is related to, for an acyclic
relation with finitely many sources. -/
theorem Acyclic.wellFounded {r : α → α → Prop} (h : Acyclic r) (l : List α)
    (hl : ∀ a b, r a b → a ∈ l) : WellFounded (fun b a => r a b) := by
  have hwf : WellFounded (fun b a : {a // a ∈ l} => TransGen r a.1 b.1) := by
    have : IsTrans {a // a ∈ l} (fun b a => TransGen r a.1 b.1) :=
      ⟨fun _ _ _ hab hbc => TransGen.trans hbc hab⟩
    have : Std.Irrefl (fun b a : {a // a ∈ l} => TransGen r a.1 b.1) :=
      ⟨fun a ha => h a.1 ha⟩
    have : Finite {a // a ∈ l} := List.finite_toSet l
    exact Finite.wellFounded_of_trans_of_irrefl _
  -- an element outside the list is related to nothing
  have hout : ∀ a, a ∉ l → Acc (fun b a => r a b) a :=
    fun a ha => ⟨a, fun b hab => absurd (hl a b hab) ha⟩
  have hin : ∀ a : {a // a ∈ l}, Acc (fun b a => r a b) a.1 := by
    intro a
    induction a using hwf.induction with
    | _ a ih =>
      refine ⟨a.1, fun b hab => ?_⟩
      by_cases hb : b ∈ l
      · exact ih ⟨b, hb⟩ (TransGen.single hab)
      · exact hout b hb
  refine ⟨fun a => ?_⟩
  by_cases ha : a ∈ l
  · exact hin ⟨a, ha⟩
  · exact hout a ha

/-- In a finite acyclic relation a set whose every element is related to
another element of the set is empty. -/
theorem Acyclic.eq_empty_of_successor {r : α → α → Prop} (h : Acyclic r) {p : α → Prop}
    (l : List α) (hl : ∀ a, p a → a ∈ l) (hsucc : ∀ a, p a → ∃ b, p b ∧ r a b) :
    ∀ a, ¬ p a := by
  have hac : Acyclic (fun a b => p a ∧ r a b) := h.mono fun _ _ hab => hab.2
  have hwf := hac.wellFounded l fun a _ hab => hl a hab.1
  intro a
  induction a using hwf.induction with
  | _ a ih =>
    intro ha
    obtain ⟨b, hb, hab⟩ := hsucc a ha
    exact ih b ⟨ha, hab⟩ hb

end Inmanta
