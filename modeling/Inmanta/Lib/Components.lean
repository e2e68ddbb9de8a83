import Mathlib.Logic.Relation

/-!
# Mutual reachability under a new edge

The strong components of a relation, and what becomes of them when one edge is
added: the elements on a path from its target back to its source become one
component, and no other component changes (`mutual_addEdge`).
-/

namespace Inmanta

open Relation (ReflTransGen)

variable {α : Type} {r : α → α → Prop} {a b x y : α}

/-- The two are on a loop, or the same. -/
def Mutual (r : α → α → Prop) (x y : α) : Prop :=
  ReflTransGen r x y ∧ ReflTransGen r y x

theorem Mutual.refl (x : α) : Mutual r x x :=
  ⟨.refl, .refl⟩

theorem Mutual.symm (h : Mutual r x y) : Mutual r y x :=
  ⟨h.2, h.1⟩

theorem Mutual.trans {z : α} (h : Mutual r x y) (h' : Mutual r y z) : Mutual r x z :=
  ⟨h.1.trans h'.1, h'.2.trans h.2⟩

/-- The relation with one edge more. -/
def AddEdge (r : α → α → Prop) (a b x y : α) : Prop :=
  r x y ∨ (x = a ∧ y = b)

/-- A path with the new edge takes it once. -/
theorem reflTransGen_addEdge : ReflTransGen (AddEdge r a b) x y ↔
    ReflTransGen r x y ∨ (ReflTransGen r x a ∧ ReflTransGen r b y) := by
  constructor
  · intro h
    induction h with
    | refl => exact .inl .refl
    | tail _ hstep ih =>
      rcases hstep with hstep | ⟨rfl, rfl⟩
      · rcases ih with h | ⟨h, h'⟩
        · exact .inl (h.tail hstep)
        · exact .inr ⟨h, h'.tail hstep⟩
      · rcases ih with h | ⟨h, -⟩
        · exact .inr ⟨h, .refl⟩
        · exact .inr ⟨h, .refl⟩
  · have hmono : ∀ {u v}, ReflTransGen r u v → ReflTransGen (AddEdge r a b) u v :=
      fun h => ReflTransGen.mono (fun _ _ => .inl) _ _ h
    rintro (h | ⟨h, h'⟩)
    · exact hmono h
    · exact ((hmono h).tail (.inr ⟨rfl, rfl⟩)).trans (hmono h')

/-- On a path from the target of a new edge back to its source. -/
def Closes (r : α → α → Prop) (a b x : α) : Prop :=
  ReflTransGen r b x ∧ ReflTransGen r x a

theorem Closes.of_mutual (h : Closes r a b x) (hxy : Mutual r x y) : Closes r a b y :=
  ⟨h.1.trans hxy.1, hxy.2.trans h.2⟩

theorem mutual_addEdge : Mutual (AddEdge r a b) x y ↔
    Mutual r x y ∨ (Closes r a b x ∧ Closes r a b y) := by
  rw [Mutual, reflTransGen_addEdge, reflTransGen_addEdge]
  constructor
  · rintro ⟨h | ⟨hxa, hby⟩, h' | ⟨hya, hbx⟩⟩
    · exact .inl ⟨h, h'⟩
    · exact .inr ⟨⟨hbx, h.trans hya⟩, ⟨hbx.trans h, hya⟩⟩
    · exact .inr ⟨⟨hby.trans h', hxa⟩, ⟨hby, h'.trans hxa⟩⟩
    · exact .inr ⟨⟨hbx, hxa⟩, ⟨hby, hya⟩⟩
  · rintro (h | ⟨hx, hy⟩)
    · exact ⟨.inl h.1, .inl h.2⟩
    · exact ⟨.inr ⟨hx.2, hy.1⟩, .inr ⟨hy.2, hx.1⟩⟩

/-- A path out of a set leaves it for the first time. -/
theorem exists_exit {C : α → Prop} (h : ReflTransGen r x y) (hx : C x) (hy : ¬ C y) :
    ∃ u v, C u ∧ ReflTransGen r x u ∧ r u v ∧ ¬ C v ∧ ReflTransGen r v y := by
  induction h with
  | refl => exact absurd hx hy
  | @tail u v hxu huv ih =>
    by_cases hu : C u
    · exact ⟨u, v, hu, hxu, huv, hy, .refl⟩
    · obtain ⟨w, z, hw, hxw, hwz, hz, hzu⟩ := ih hu
      exact ⟨w, z, hw, hxw, hwz, hz, hzu.tail huv⟩

end Inmanta
