import Mathlib.Data.List.Basic
import Inmanta.Lib.Dict

/-!
# Trees of lists and dictionaries

The shape of JSON values, over any keys and leaves: where a leaf is
(`Tree.leafAt`), the replacement of what is at a location (`Tree.update`) and
the tree that comes from putting a tree for every leaf (`Tree.graft`).

Updates at the locations of leaves never meet, so none of them has to be moved
past another: each turns one graft into another graft of the same tree
(`Tree.update_graft`), and two grafts are compared at the leaves only
(`Tree.graft_congr`).
-/

namespace Inmanta

/-- A step into a list or into a dictionary. -/
inductive PathStep (κ : Type) where
  | index (i : ℕ)
  | field (name : κ)
  deriving DecidableEq

abbrev Location (κ : Type) := List (PathStep κ)

inductive Tree (κ α : Type) where
  | leaf (a : α)
  | list (children : List (Tree κ α))
  | dict (items : List (κ × Tree κ α))

namespace Tree

variable {κ α β : Type}

mutual

/-- Keys of dictionaries are distinct. -/
def WellFormed : Tree κ α → Prop
  | leaf _ => True
  | list children => childrenWellFormed children
  | dict items => (items.map Prod.fst).Nodup ∧ itemsWellFormed items

def childrenWellFormed : List (Tree κ α) → Prop
  | [] => True
  | t :: ts => t.WellFormed ∧ childrenWellFormed ts

def itemsWellFormed : List (κ × Tree κ α) → Prop
  | [] => True
  | (_, t) :: items => t.WellFormed ∧ itemsWellFormed items

end

mutual

/-- Put a tree for every leaf, by where it is and what it is. -/
def graft (f : Location κ → α → Tree κ β) : Tree κ α → Tree κ β
  | leaf a => f [] a
  | list children => list (graftChildren f 0 children)
  | dict items => dict (graftItems f items)

def graftChildren (f : Location κ → α → Tree κ β) : ℕ → List (Tree κ α) → List (Tree κ β)
  | _, [] => []
  | i, t :: ts => t.graft (fun l => f (.index i :: l)) :: graftChildren f (i + 1) ts

def graftItems (f : Location κ → α → Tree κ β) : List (κ × Tree κ α) → List (κ × Tree κ β)
  | [] => []
  | (k, t) :: items => (k, t.graft fun l => f (.field k :: l)) :: graftItems f items

end

theorem childrenWellFormed_iff {ts : List (Tree κ α)} :
    childrenWellFormed ts ↔ ∀ t ∈ ts, t.WellFormed := by
  induction ts with
  | nil => simp [childrenWellFormed]
  | cons t ts ih => simp [childrenWellFormed, ih]

theorem itemsWellFormed_iff {items : List (κ × Tree κ α)} :
    itemsWellFormed items ↔ ∀ e ∈ items, e.2.WellFormed := by
  induction items with
  | nil => simp [itemsWellFormed]
  | cons e items ih => simp [itemsWellFormed, ih]

theorem graftChildren_eq (f : Location κ → α → Tree κ β) (i : ℕ) (ts : List (Tree κ α)) :
    graftChildren f i ts = ts.mapIdx fun j t => t.graft fun l => f (.index (i + j) :: l) := by
  induction ts generalizing i with
  | nil => rfl
  | cons t ts ih =>
      rw [graftChildren, ih, List.mapIdx_cons]
      simp only [Nat.add_zero, Nat.add_assoc, Nat.add_comm 1]

theorem graftItems_eq (f : Location κ → α → Tree κ β) (items : List (κ × Tree κ α)) :
    graftItems f items = items.map fun e => (e.1, e.2.graft fun l => f (.field e.1 :: l)) := by
  induction items with
  | nil => rfl
  | cons e items ih => rw [graftItems, ih, List.map_cons]

variable [DecidableEq κ]

def child : Tree κ α → PathStep κ → Option (Tree κ α)
  | list children, .index i => children[i]?
  | dict items, .field k => items.lookup k
  | _, _ => none

def leafAt : Tree κ α → Location κ → Option α
  | leaf a, [] => some a
  | _, [] => none
  | t, s :: l => (t.child s).bind (·.leafAt l)

/-- Replace what is at a location, if there is anything. -/
def update (x : Tree κ α) : Tree κ α → Location κ → Tree κ α
  | _, [] => x
  | list children, .index i :: l => list (children.modify i (update x · l))
  | dict items, .field k :: l =>
      dict (items.map fun e => if e.1 = k then (e.1, update x e.2 l) else e)
  | t, _ :: _ => t

/-- In a dictionary with distinct keys an item is what its key leads to. -/
theorem child_field {items : List (κ × Tree κ α)} (h : (items.map Prod.fst).Nodup) {k : κ}
    {t : Tree κ α} : (dict items).child (.field k) = some t ↔ (k, t) ∈ items :=
  Dict.lookup_eq_some_iff_mem h

theorem leafAt_cons (t : Tree κ α) (s : PathStep κ) (l : Location κ) :
    t.leafAt (s :: l) = (t.child s).bind (·.leafAt l) := by
  cases t <;> rfl

/-- A step to a leaf leads to a child. -/
theorem leafAt_cons_eq_some_iff {t : Tree κ α} {s : PathStep κ} {l : Location κ} {a : α} :
    t.leafAt (s :: l) = some a ↔ ∃ c, t.child s = some c ∧ c.leafAt l = some a := by
  rw [leafAt_cons, Option.bind_eq_some_iff]

mutual

/-- What is put where there is no leaf does not matter. -/
theorem graft_congr {f g : Location κ → α → Tree κ β} : ∀ t : Tree κ α, t.WellFormed →
    (∀ l a, t.leafAt l = some a → f l a = g l a) → t.graft f = t.graft g
  | leaf a, _, h => h [] a rfl
  | list ts, hwf, h => by
      rw [graft, graft, graftChildren_congr ts 0 hwf fun i t ht l a hl => ?_]
      rw [Nat.zero_add]
      exact h (.index i :: l) a (leafAt_cons_eq_some_iff.mpr ⟨t, ht, hl⟩)
  | dict items, hwf, h => by
      rw [graft, graft, graftItems_congr items hwf.2 fun k t ht l a hl => ?_]
      exact h (.field k :: l) a
        (leafAt_cons_eq_some_iff.mpr ⟨t, (child_field hwf.1).mpr ht, hl⟩)

theorem graftChildren_congr {f g : Location κ → α → Tree κ β} : ∀ (ts : List (Tree κ α)) (i : ℕ),
    childrenWellFormed ts →
    (∀ j t, ts[j]? = some t → ∀ l a, t.leafAt l = some a →
      f (.index (i + j) :: l) a = g (.index (i + j) :: l) a) →
    graftChildren f i ts = graftChildren g i ts
  | [], _, _, _ => rfl
  | t :: ts, i, hwf, h => by
      rw [graftChildren, graftChildren,
        graft_congr t hwf.1 fun l a hl => by simpa using h 0 t rfl l a hl,
        graftChildren_congr ts (i + 1) hwf.2 fun j t' ht' l a hl => ?_]
      rw [Nat.add_right_comm]
      exact h (j + 1) t' ht' l a hl

theorem graftItems_congr {f g : Location κ → α → Tree κ β} : ∀ items : List (κ × Tree κ α),
    itemsWellFormed items →
    (∀ k t, (k, t) ∈ items → ∀ l a, t.leafAt l = some a →
      f (.field k :: l) a = g (.field k :: l) a) →
    graftItems f items = graftItems g items
  | [], _, _ => rfl
  | (k, t) :: items, hwf, h => by
      rw [graftItems, graftItems, graft_congr t hwf.1 fun l a hl => h k t List.mem_cons_self l a hl,
        graftItems_congr items hwf.2 fun k' t' ht' => h k' t' (List.mem_cons_of_mem _ ht')]

end

/-- An update at the location of a leaf changes what was put for that leaf. -/
theorem update_graft (x : Tree κ β) {t : Tree κ α} (hwf : t.WellFormed) {loc : Location κ} {a : α}
    (h : t.leafAt loc = some a) (f : Location κ → α → Tree κ β) :
    update x (t.graft f) loc = t.graft fun l b => if l = loc then x else f l b := by
  induction loc generalizing t f with
  | nil =>
      cases t with
      | leaf b => rw [update, graft, if_pos rfl]
      | list ts => cases h
      | dict items => cases h
  | cons s loc ih =>
      obtain ⟨c, hc, hl⟩ := leafAt_cons_eq_some_iff.mp h
      cases t with
      | leaf b => cases hc
      | list ts =>
          cases s with
          | field k => cases hc
          | index i =>
              have hi : ts[i]? = some c := hc
              rw [graft, graft, update, graftChildren_eq, graftChildren_eq]
              congr 1
              refine List.ext_getElem? fun j => ?_
              rw [List.getElem?_modify, List.getElem?_mapIdx, List.getElem?_mapIdx,
                Option.map_eq_map, Option.map_map]
              refine Option.map_congr fun t' ht' => ?_
              by_cases hij : i = j
              · subst hij
                have htc : t' = c := Option.some.inj (ht'.symm.trans hi)
                subst htc
                have ht'wf := childrenWellFormed_iff.mp hwf t' (List.mem_of_getElem? hi)
                simp only [Function.comp_apply, if_pos, Nat.zero_add, ih ht'wf hl]
                simp
              · have hji : ¬ j = i := fun h' => hij h'.symm
                simp [Function.comp_apply, hij, hji]
      | dict items =>
          cases s with
          | index i => cases hc
          | field k =>
              have hk : (k, c) ∈ items := (child_field hwf.1).mp hc
              rw [graft, graft, update, graftItems_eq, graftItems_eq, List.map_map]
              congr 1
              refine List.map_congr_left fun e he => ?_
              by_cases hek : e.1 = k
              · have hec : e.2 = c := by
                  have h1 := (child_field hwf.1).mpr (show (e.1, e.2) ∈ items from he)
                  rw [hek, hc] at h1
                  exact (Option.some.inj h1).symm
                have hcwf := itemsWellFormed_iff.mp hwf.2 _ hk
                simp only [Function.comp_apply, hek, if_pos, hec, ih hcwf hl]
                simp
              · simp [Function.comp_apply, hek]

/-! ## What else is there -/

theorem lookup_map (g : κ → α → β) (items : List (κ × α)) (k : κ) :
    (items.map fun e => (e.1, g e.1 e.2)).lookup k = (items.lookup k).map (g k) := by
  induction items with
  | nil => rfl
  | cons e items ih =>
      rw [List.map_cons, Dict.lookup_cons_ite, Dict.lookup_cons_ite, ih]
      by_cases h : k = e.1
      · subst h
        rw [if_pos rfl, if_pos rfl]
        rfl
      · rw [if_neg h, if_neg h]

/-- What is at a location. -/
def get : Tree κ α → Location κ → Option (Tree κ α)
  | t, [] => some t
  | t, s :: l => (t.child s).bind (·.get l)

/-- An update goes to one child and leaves the others. -/
theorem child_update (x t : Tree κ α) (s s' : PathStep κ) (l : Location κ) :
    (update x t (s' :: l)).child s =
      if s = s' then (t.child s).map (update x · l) else t.child s := by
  cases t with
  | leaf a => cases s' <;> exact (ite_self none).symm
  | list ts =>
      cases s with
      | field k => cases s' <;> exact (ite_self none).symm
      | index i =>
          cases s' with
          | field k => exact (if_neg fun h => by cases h).symm
          | index j =>
              rw [update, child, child, List.getElem?_modify]
              by_cases h : i = j
              · simp [h]
              · have h' : ¬ j = i := fun h' => h h'.symm
                simp [h, h']
  | dict items =>
      cases s with
      | index i => cases s' <;> exact (ite_self none).symm
      | field k =>
          cases s' with
          | index j => exact (if_neg fun h => by cases h).symm
          | field k' =>
              have hmap : (items.map fun e => if e.1 = k' then (e.1, update x e.2 l) else e) =
                  items.map fun e => (e.1, if e.1 = k' then update x e.2 l else e.2) :=
                List.map_congr_left fun e _ => by split <;> rfl
              rw [update, hmap, child, child,
                lookup_map (fun key t => if key = k' then update x t l else t)]
              by_cases h : k = k'
              · simp [h]
              · simp [h]

theorem child_graft (f : Location κ → α → Tree κ β) {t c : Tree κ α} {s : PathStep κ}
    (h : t.child s = some c) :
    (t.graft f).child s = some (c.graft fun l => f (s :: l)) := by
  cases t with
  | leaf a => cases h
  | list ts =>
      cases s with
      | field k => cases h
      | index i =>
          have hi : ts[i]? = some c := h
          rw [graft, child, graftChildren_eq, List.getElem?_mapIdx, hi, Nat.zero_add]
          rfl
  | dict items =>
      cases s with
      | index i => cases h
      | field k =>
          have hk : items.lookup k = some c := h
          rw [graft, child, graftItems_eq,
            lookup_map (fun key (t : Tree κ α) => t.graft fun l => f (.field key :: l)), hk]
          rfl

theorem get_graft (f : Location κ → α → Tree κ β) {t : Tree κ α} {l : Location κ} {a : α}
    (h : t.leafAt l = some a) : (t.graft f).get l = some (f l a) := by
  induction l generalizing t f with
  | nil =>
      cases t with
      | leaf b =>
          injection h with h
          rw [h, graft, get]
      | list ts => cases h
      | dict items => cases h
  | cons s l ih =>
      obtain ⟨c, hc, hl⟩ := leafAt_cons_eq_some_iff.mp h
      rw [get, child_graft f hc, Option.bind_some, ih _ hl]

/-- There is nothing at the location but a leaf. -/
def LeafOrNone (t : Tree κ α) (l : Location κ) : Prop := ∀ u, t.get l = some u → ∃ a, u = leaf a

/-- Only an update at the location itself puts something else there, if what is
put has no children. -/
theorem LeafOrNone.update {x t : Tree κ α} (hx : ∀ s, x.child s = none) {l l' : Location κ}
    (hne : l' ≠ l) (h : t.LeafOrNone l) : (Tree.update x t l').LeafOrNone l := by
  induction l' generalizing t l with
  | nil =>
      cases l with
      | nil => exact absurd rfl hne
      | cons s l =>
          intro u hu
          rw [Tree.update, get, hx, Option.bind_none] at hu
          cases hu
  | cons s' l' ih =>
      cases l with
      | nil =>
          obtain ⟨a, rfl⟩ := h t rfl
          rintro u hu
          cases hu
          exact ⟨a, by cases s' <;> rfl⟩
      | cons s l =>
          intro u hu
          rw [get, child_update] at hu
          by_cases hs : s = s'
          · subst hs
            rw [if_pos rfl] at hu
            cases hc : t.child s with
            | none =>
                rw [hc] at hu
                cases hu
            | some c =>
                rw [hc] at hu
                refine ih (t := c) (l := l) (fun heq => hne (congrArg (s :: ·) heq)) ?_ u hu
                intro u' hu'
                exact h u' (by rw [get, hc]; exact hu')
          · rw [if_neg hs] at hu
            exact h u (by rw [get]; exact hu)

end Tree

end Inmanta
