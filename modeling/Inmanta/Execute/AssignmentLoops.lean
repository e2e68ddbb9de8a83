import Inmanta.Execute.RootCause
import Inmanta.Lib.Components
import Inmanta.Lib.Loop
import Mathlib.Data.Finset.Card

/-!
# Assignment loops in the dataflow graph

The dataflow graph of the compiler keeps, for every node, the equivalence of the nodes
that it is in a loop of assignments with. An assignment of a node to another merges the
equivalences on the paths from the one back to the other.

After any assignments the equivalences are the loops (`equivalences_are_loops`), so no
path through them ever comes back and the search for the leaves of a node ends and finds
just these (`leaves_found`); the graph that the root cause analysis reads is built from it.
-/

namespace Inmanta

namespace AssignmentLoops

open Relation (ReflTransGen)

/-- An assignment to a node: a reference to a node, a value or an instance. -/
inductive Assign (ν V I : Type) where
  | assignAssignable (lhs rhs : ν)
  | assignValue (lhs : ν) (value : V)
  | assignInstance (lhs : ν) (inst : I)

/-- The node that is assigned to. -/
def Assign.lhs {ν V I : Type} : Assign ν V I → ν
  | .assignAssignable lhs _ => lhs
  | .assignValue lhs _ => lhs
  | .assignInstance lhs _ => lhs

/-- The fields of all nodes; the nodes of an equivalence are in any order. -/
structure DataflowGraph (ν V I : Type) where
  assignableAssignments : ν → List ν
  valueAssignments : ν → List V
  instanceAssignments : ν → List I
  equivalence : ν → List ν

inductive Failure where
  /-- The recursion is too deep. -/
  | recursion
  /-- "Inconsistent state: an equivalence should always have at least one leaf" -/
  | inconsistentState
  deriving DecidableEq

variable {ν V I : Type} [DecidableEq ν]

/-- `Equivalence.merge` -/
def merge (e other : List ν) : List ν := e ++ other.filter (· ∉ e)

namespace DataflowGraph

def empty : DataflowGraph ν V I := ⟨fun _ => [], fun _ => [], fun _ => [], fun n => [n]⟩

variable (g : DataflowGraph ν V I)

/-- The right-hand sides of `external_assignable_assignments`. -/
def externalAssignableAssignments (e : List ν) : List ν :=
  (e.flatMap g.assignableAssignments).filter (· ∉ e)

/-- `Equivalence.equivalences_on_path` -/
def equivalencesOnPath (node : ν) : ℕ → List ν → Except Failure (List (List ν))
  | 0, _ => .error .recursion
  | depth + 1, e =>
      if node ∈ e then .ok [e]
      else do
        let childPaths ← (g.externalAssignableAssignments e).mapM fun n =>
          equivalencesOnPath node depth (g.equivalence n)
        return if childPaths.flatten.isEmpty then [] else e :: childPaths.flatten

/-- The node has a value or an instance. -/
def explicit (n : ν) : Bool :=
  !(g.valueAssignments n).isEmpty || !(g.instanceAssignments n).isEmpty

/-- `Equivalence.is_leaf` -/
def isLeaf (e : List ν) : Bool :=
  e.any g.explicit || (g.externalAssignableAssignments e).isEmpty

/-- What `Equivalence.leaves` yields of its own nodes. -/
def ownLeaves (e : List ν) : List ν :=
  if g.isLeaf e then if (e.filter g.explicit).isEmpty then e else e.filter g.explicit else []

/-- `AssignableNodeReference.leaves`, of the reference to a node: the leaves of the node, or
the reference itself. -/
def orSelf (n : ν) (leaves : List ν) : List ν := if leaves.isEmpty then [n] else leaves

/-- `Equivalence.leaves` -/
def leaves : ℕ → List ν → Except Failure (List ν)
  | 0, _ => .error .recursion
  | depth + 1, e => do
      let children ← (g.externalAssignableAssignments e).mapM fun n => do
        return orSelf n (← leaves depth (g.equivalence n))
      return g.ownLeaves e ++ children.flatten

/-- `Equivalence.propagate_tentative_instance`, when there is none. -/
def propagateTentativeInstance (depth : ℕ) (n : ν) : Except Failure (DataflowGraph ν V I) := do
  if (← g.leaves depth (g.equivalence n)).isEmpty then throw .inconsistentState
  return g

/-- The nodes of the equivalence get it. -/
def setEquivalence (e : List ν) : DataflowGraph ν V I :=
  { g with equivalence := fun n => if n ∈ e then e else g.equivalence n }

def addAssignable (lhs rhs : ν) : DataflowGraph ν V I :=
  { g with
    assignableAssignments :=
      Function.update g.assignableAssignments lhs (g.assignableAssignments lhs ++ [rhs]) }

def addValue (lhs : ν) (value : V) : DataflowGraph ν V I :=
  { g with
    valueAssignments :=
      Function.update g.valueAssignments lhs (g.valueAssignments lhs ++ [value]) }

def addInstance (lhs : ν) (inst : I) : DataflowGraph ν V I :=
  { g with
    instanceAssignments :=
      Function.update g.instanceAssignments lhs (g.instanceAssignments lhs ++ [inst]) }

/-- `AssignableNode.assign` -/
def assign (depth : ℕ) : Assign ν V I → Except Failure (DataflowGraph ν V I)
  | .assignAssignable lhs rhs => do
      let equivalenceTrail ← g.equivalencesOnPath lhs depth (g.equivalence rhs)
      let newEquivalence := equivalenceTrail.foldl merge []
      ((g.addAssignable lhs rhs).setEquivalence newEquivalence).propagateTentativeInstance depth lhs
  | .assignValue lhs value => return g.addValue lhs value
  | .assignInstance lhs inst => (g.addInstance lhs inst).propagateTentativeInstance depth lhs

end DataflowGraph

/-- The graph after some assignments. -/
def assignAll (depth : ℕ) (as : List (Assign ν V I)) : Except Failure (DataflowGraph ν V I) :=
  as.foldlM (fun g a => g.assign depth a) .empty

/-! ## Loops and leaves of assignments -/

/-- A node is assigned to another, directly or over others. -/
def Reaches (as : List (Assign ν V I)) (n m : ν) : Prop :=
  ReflTransGen (fun a b => .assignAssignable a b ∈ as) n m

/-- A value or an instance is assigned to the node. -/
def Explicit (as : List (Assign ν V I)) (n : ν) : Prop :=
  (∃ v, .assignValue n v ∈ as) ∨ ∃ i, .assignInstance n i ∈ as

/-- A leaf has a value or an instance, or it is in a loop that nothing is assigned to from
outside: no value, no instance and no other node. -/
def Leaf (as : List (Assign ν V I)) (m : ν) : Prop :=
  Explicit as m ∨ ∀ u, Reaches as m u → Reaches as u m ∧ ¬ Explicit as u

/-- A loop of which every step comes back does so, with what the steps give. -/
theorem exists_mapM_ok {α β ε : Type} {f : α → Except ε β} {P : α → β → Prop} {l : List α}
    (h : ∀ a ∈ l, ∃ b, f a = .ok b ∧ P a b) : ∃ bs, l.mapM f = .ok bs ∧
      (∀ a ∈ l, ∃ b ∈ bs, P a b) ∧ ∀ b ∈ bs, ∃ a ∈ l, P a b := by
  induction l with
  | nil =>
    exact ⟨[], rfl, fun _ ha => absurd ha List.not_mem_nil, fun _ hb => absurd hb List.not_mem_nil⟩
  | cons a l ih =>
    obtain ⟨b, hb, hab⟩ := h a List.mem_cons_self
    obtain ⟨bs, hbs, hto, hfrom⟩ := ih fun x hx => h x (List.mem_cons_of_mem a hx)
    refine ⟨b :: bs, ?_, fun x hx => ?_, fun y hy => ?_⟩
    · rw [List.mapM_cons, hb, ok_bind, hbs]
      rfl
    · rcases List.mem_cons.mp hx with rfl | hx
      · exact ⟨b, List.mem_cons_self, hab⟩
      · obtain ⟨y, hy, hxy⟩ := hto x hx
        exact ⟨y, List.mem_cons_of_mem b hy, hxy⟩
    · rcases List.mem_cons.mp hy with rfl | hy
      · exact ⟨a, List.mem_cons_self, hab⟩
      · obtain ⟨x, hx, hxy⟩ := hfrom y hy
        exact ⟨x, List.mem_cons_of_mem a hx, hxy⟩

/-! ## The equivalences of a graph are its loops -/

namespace DataflowGraph

variable {g : DataflowGraph ν V I}

def Edge (g : DataflowGraph ν V I) (a b : ν) : Prop := b ∈ g.assignableAssignments a

structure Loops (g : DataflowGraph ν V I) : Prop where
  mem_iff : ∀ n m, m ∈ g.equivalence n ↔ Mutual g.Edge n m
  same : ∀ n m, m ∈ g.equivalence n → g.equivalence m = g.equivalence n
  nodup : ∀ n, (g.equivalence n).Nodup

/-- All assignments on paths from the node are to nodes of the set. -/
def Bounded (g : DataflowGraph ν V I) (S : Finset ν) (n : ν) : Prop :=
  ∀ m, ReflTransGen g.Edge n m → g.assignableAssignments m ≠ [] → m ∈ S

/-- The trail is of equivalences, and they have the nodes on the paths from `n` to the node. -/
def OnPath (g : DataflowGraph ν V I) (node n : ν) (trail : List (List ν)) : Prop :=
  (∀ e ∈ trail, ∃ x, e = g.equivalence x) ∧
    ∀ m, (∃ e ∈ trail, m ∈ e) ↔ Closes g.Edge node n m

theorem mem_external {e : List ν} {k : ν} :
    k ∈ g.externalAssignableAssignments e ↔ (∃ u ∈ e, g.Edge u k) ∧ k ∉ e := by
  rw [externalAssignableAssignments, List.mem_filter, List.mem_flatMap, decide_eq_true_eq]
  rfl

theorem mem_of_mem_ownLeaves {e : List ν} {m : ν} (hm : m ∈ g.ownLeaves e) : m ∈ e := by
  unfold ownLeaves at hm
  split at hm
  · split at hm
    · exact hm
    · exact List.mem_of_mem_filter hm
  · exact absurd hm List.not_mem_nil

theorem ownLeaves_ne_nil {e : List ν} (hext : g.externalAssignableAssignments e = [])
    (he : e ≠ []) : g.ownLeaves e ≠ [] := by
  have hleaf : g.isLeaf e = true := by rw [isLeaf, hext]; exact Bool.or_true _
  rw [ownLeaves, if_pos hleaf]
  split
  · exact he
  · rename_i hne
    exact fun heq => hne (List.isEmpty_iff.mpr heq)

/-- A node is a leaf of its equivalence if it has a value or an instance, or no node of it has
and nothing is assigned from outside. -/
theorem mem_ownLeaves {e : List ν} {m : ν} (hm : m ∈ e) : m ∈ g.ownLeaves e ↔
    g.explicit m = true ∨
      ((∀ u ∈ e, g.explicit u = false) ∧ g.externalAssignableAssignments e = []) := by
  by_cases hany : ∃ u ∈ e, g.explicit u = true
  · obtain ⟨u, hu, hexp⟩ := hany
    have hleaf : g.isLeaf e = true := by
      rw [isLeaf, List.any_eq_true.mpr ⟨u, hu, hexp⟩]
      rfl
    have hne : ¬ (e.filter g.explicit).isEmpty = true := fun hempty =>
      List.ne_nil_of_mem (List.mem_filter.mpr ⟨hu, hexp⟩) (List.isEmpty_iff.mp hempty)
    rw [ownLeaves, if_pos hleaf, if_neg hne, List.mem_filter]
    constructor
    · exact fun hm => .inl hm.2
    · rintro (hm' | ⟨hnone, -⟩)
      · exact ⟨hm, hm'⟩
      · rw [hnone u hu] at hexp
        cases hexp
  · have hnone : ∀ u ∈ e, g.explicit u = false :=
      fun u hu => Bool.eq_false_iff.mpr fun hexp => hany ⟨u, hu, hexp⟩
    have hfilter : e.filter g.explicit = [] :=
      List.filter_eq_nil_iff.mpr fun u hu hexp => hany ⟨u, hu, hexp⟩
    have hanyf : e.any g.explicit = false := by
      rw [← Bool.not_eq_true, List.any_eq_true]
      exact hany
    rw [ownLeaves, isLeaf, hanyf, hfilter, hnone m hm, Bool.false_or]
    rcases g.externalAssignableAssignments e with _ | ⟨k, ks⟩
    · exact ⟨fun _ => .inr ⟨hnone, rfl⟩, fun _ => hm⟩
    · constructor
      · exact fun hm' => absurd hm' List.not_mem_nil
      · rintro (hexp | ⟨-, hext⟩)
        · cases hexp
        · cases hext

namespace Loops

variable (h : g.Loops) {n m k : ν}

include h

omit [DecidableEq ν] in
theorem mem_self (n : ν) : n ∈ g.equivalence n :=
  (h.mem_iff n n).mpr (.refl n)

theorem reaches_external (hk : k ∈ g.externalAssignableAssignments (g.equivalence n)) :
    ReflTransGen g.Edge n k := by
  obtain ⟨⟨u, hu, huk⟩, -⟩ := mem_external.mp hk
  exact ((h.mem_iff n u).mp hu).1.tail huk

/-- A path out of an equivalence starts with an assignment from outside of it. -/
theorem exists_external (hpath : ReflTransGen g.Edge n m) (hm : m ∉ g.equivalence n) :
    ∃ k ∈ g.externalAssignableAssignments (g.equivalence n), ReflTransGen g.Edge k m := by
  obtain ⟨u, k, hu, -, huk, hk, hkm⟩ :=
    exists_exit (C := (· ∈ g.equivalence n)) hpath (h.mem_self n) hm
  exact ⟨k, mem_external.mpr ⟨⟨u, hu, huk⟩, hk⟩, hkm⟩

/-- Behind an assignment from outside there is one assigned node less: no path comes back. -/
theorem bounded_external {S : Finset ν} (hS : g.Bounded S n)
    (hk : k ∈ g.externalAssignableAssignments (g.equivalence n)) :
    ∃ S', g.Bounded S' k ∧ S'.card < S.card := by
  obtain ⟨⟨u, hu, huk⟩, hkn⟩ := mem_external.mp hk
  have hnu := (h.mem_iff n u).mp hu
  have huS : u ∈ S := hS u hnu.1 (List.ne_nil_of_mem huk)
  refine ⟨S.erase u, fun m hkm hm => Finset.mem_erase.mpr ⟨?_, ?_⟩, Finset.card_erase_lt_of_mem huS⟩
  · rintro rfl
    exact hkn ((h.mem_iff n k).mpr ⟨hnu.1.tail huk, hkm.trans hnu.2⟩)
  · exact hS m ((h.reaches_external hk).trans hkm) hm

omit [DecidableEq ν] in
/-- The node is in the equivalence itself: the trail ends here. -/
theorem onPath_here {node : ν} (hnode : node ∈ g.equivalence n) :
    g.OnPath node n [g.equivalence n] := by
  have hn := (h.mem_iff n node).mp hnode
  refine ⟨fun e he => ⟨n, List.mem_singleton.mp he⟩, fun m => ⟨?_, ?_⟩⟩
  · rintro ⟨e, he, hm⟩
    rw [List.mem_singleton.mp he] at hm
    have hnm := (h.mem_iff n m).mp hm
    exact ⟨hnm.1, hnm.2.trans hn.1⟩
  · rintro ⟨hnm, hmn⟩
    exact ⟨_, List.mem_singleton_self _, (h.mem_iff n m).mpr ⟨hnm, hmn.trans hn.2⟩⟩

/-- The node is further on: a trail goes on over the nodes outside that are assigned. -/
theorem onPath_further {node : ν} (hnode : node ∉ g.equivalence n) {rest : List (List ν)}
    (hrest : ∀ e ∈ rest, ∃ x, e = g.equivalence x)
    (hon : ∀ m, (∃ e ∈ rest, m ∈ e) ↔
      ∃ k ∈ g.externalAssignableAssignments (g.equivalence n), Closes g.Edge node k m) :
    g.OnPath node n (if rest.isEmpty then [] else g.equivalence n :: rest) := by
  rcases rest with _ | ⟨e₀, rest⟩
  · refine ⟨fun e he => absurd he List.not_mem_nil, fun m => ⟨?_, ?_⟩⟩
    · rintro ⟨e, he, -⟩
      exact absurd he List.not_mem_nil
    · -- a path to the node leaves the equivalence
      rintro ⟨hnm, hmn⟩
      obtain ⟨k, hk, hkn⟩ := h.exists_external (hnm.trans hmn) hnode
      obtain ⟨e, he, -⟩ := (hon k).mpr ⟨k, hk, .refl, hkn⟩
      exact absurd he List.not_mem_nil
  · have hpath : ReflTransGen g.Edge n node := by
      obtain ⟨x, hx⟩ := hrest e₀ List.mem_cons_self
      obtain ⟨k, hk, hkx, hxn⟩ := (hon x).mp ⟨e₀, List.mem_cons_self, hx ▸ h.mem_self x⟩
      exact (h.reaches_external hk).trans (hkx.trans hxn)
    refine ⟨fun e he => ?_, fun m => ⟨?_, ?_⟩⟩
    · rcases List.mem_cons.mp he with rfl | he
      · exact ⟨n, rfl⟩
      · exact hrest e he
    · rintro ⟨e, he, hm⟩
      rcases List.mem_cons.mp he with rfl | he
      · have hnm := (h.mem_iff n m).mp hm
        exact ⟨hnm.1, hnm.2.trans hpath⟩
      · obtain ⟨k, hk, hkm, hmn⟩ := (hon m).mp ⟨e, he, hm⟩
        exact ⟨(h.reaches_external hk).trans hkm, hmn⟩
    · rintro ⟨hnm, hmn⟩
      by_cases hm : m ∈ g.equivalence n
      · exact ⟨_, List.mem_cons_self, hm⟩
      · obtain ⟨k, hk, hkm⟩ := h.exists_external hnm hm
        obtain ⟨e, he, hme⟩ := (hon m).mpr ⟨k, hk, hkm, hmn⟩
        exact ⟨e, List.mem_cons_of_mem _ he, hme⟩

/-- The equivalences on the paths between two nodes are found, and the search ends. -/
theorem equivalencesOnPath_ok (node : ν) (depth : ℕ) : ∀ n S, g.Bounded S n → S.card < depth →
    ∃ trail, g.equivalencesOnPath node depth (g.equivalence n) = .ok trail ∧
      g.OnPath node n trail := by
  induction depth with
  | zero => intro n S _ hlt; exact absurd hlt (Nat.not_lt_zero _)
  | succ depth ih =>
    intro n S hS hlt
    by_cases hnode : node ∈ g.equivalence n
    · exact ⟨[g.equivalence n], if_pos hnode, h.onPath_here hnode⟩
    · have hchild : ∀ k ∈ g.externalAssignableAssignments (g.equivalence n), ∃ trail,
          g.equivalencesOnPath node depth (g.equivalence k) = .ok trail ∧
          g.OnPath node k trail := by
        intro k hk
        obtain ⟨S', hS', hcard⟩ := h.bounded_external hS hk
        exact ih k S' hS' (by omega)
      obtain ⟨trails, hmap, hto, hfrom⟩ := exists_mapM_ok hchild
      have hrun : g.equivalencesOnPath node (depth + 1) (g.equivalence n) =
          .ok (if trails.flatten.isEmpty then [] else g.equivalence n :: trails.flatten) := by
        rw [equivalencesOnPath, if_neg hnode, hmap]
        rfl
      refine ⟨_, hrun, h.onPath_further hnode (fun e he => ?_) fun m => ⟨?_, ?_⟩⟩
      · obtain ⟨trail, htrail, hetrail⟩ := List.mem_flatten.mp he
        obtain ⟨k, -, hx, -⟩ := hfrom trail htrail
        exact hx e hetrail
      · rintro ⟨e, he, hm⟩
        obtain ⟨trail, htrail, hetrail⟩ := List.mem_flatten.mp he
        obtain ⟨k, hk, -, hclose⟩ := hfrom trail htrail
        exact ⟨k, hk, (hclose m).mp ⟨e, hetrail, hm⟩⟩
      · rintro ⟨k, hk, hm⟩
        obtain ⟨trail, htrail, -, hclose⟩ := hto k hk
        obtain ⟨e, he, hme⟩ := (hclose m).mpr hm
        exact ⟨e, List.mem_flatten.mpr ⟨trail, htrail, he⟩, hme⟩

/-- The nodes of the equivalences that are reached, and that are leaves there, are found. -/
theorem leaves_ok (depth : ℕ) : ∀ n S, g.Bounded S n → S.card < depth →
    ∃ l, g.leaves depth (g.equivalence n) = .ok l ∧ l ≠ [] ∧
      ∀ m, m ∈ l ↔ ReflTransGen g.Edge n m ∧ m ∈ g.ownLeaves (g.equivalence m) := by
  induction depth with
  | zero => intro n S _ hlt; exact absurd hlt (Nat.not_lt_zero _)
  | succ depth ih =>
    intro n S hS hlt
    have hchild : ∀ k ∈ g.externalAssignableAssignments (g.equivalence n), ∃ l,
        (do return orSelf k (← g.leaves depth (g.equivalence k))) = .ok l ∧ l ≠ [] ∧
        ∀ m, m ∈ l ↔ ReflTransGen g.Edge k m ∧ m ∈ g.ownLeaves (g.equivalence m) := by
      intro k hk
      obtain ⟨S', hS', hcard⟩ := h.bounded_external hS hk
      obtain ⟨l, hl, hne, hm⟩ := ih k S' hS' (by omega)
      refine ⟨l, ?_, hne, hm⟩
      rw [hl, ok_bind, orSelf, if_neg (by simpa using hne)]
      rfl
    obtain ⟨ls, hmap, hto, hfrom⟩ := exists_mapM_ok hchild
    refine ⟨g.ownLeaves (g.equivalence n) ++ ls.flatten, ?_, ?_, fun m => ?_⟩
    · rw [leaves, hmap]
      rfl
    · rcases hext : g.externalAssignableAssignments (g.equivalence n) with _ | ⟨k, ks⟩
      · have hne := ownLeaves_ne_nil hext (List.ne_nil_of_mem (h.mem_self n))
        exact fun heq => hne (List.append_eq_nil_iff.mp heq).1
      · obtain ⟨l, hl, hne, -⟩ := hto k (hext ▸ List.mem_cons_self)
        obtain ⟨x, hx⟩ := List.exists_mem_of_ne_nil l hne
        exact List.ne_nil_of_mem (List.mem_append_right _ (List.mem_flatten.mpr ⟨l, hl, hx⟩))
    · constructor
      · intro hm
        rcases List.mem_append.mp hm with hm | hm
        · have hmn := mem_of_mem_ownLeaves hm
          exact ⟨((h.mem_iff n m).mp hmn).1, (h.same n m hmn).symm ▸ hm⟩
        · obtain ⟨l, hl, hml⟩ := List.mem_flatten.mp hm
          obtain ⟨k, hk, -, hkl⟩ := hfrom l hl
          obtain ⟨hkm, hown⟩ := (hkl m).mp hml
          exact ⟨(h.reaches_external hk).trans hkm, hown⟩
      · rintro ⟨hnm, hown⟩
        by_cases hmn : m ∈ g.equivalence n
        · exact List.mem_append_left _ (h.same n m hmn ▸ hown)
        · obtain ⟨k, hk, hkm⟩ := h.exists_external hnm hmn
          obtain ⟨l, hl, -, hkl⟩ := hto k hk
          exact List.mem_append_right _ (List.mem_flatten.mpr ⟨l, hl, (hkl m).mpr ⟨hkm, hown⟩⟩)

end Loops

omit [DecidableEq ν] in
theorem explicit_eq_true {n : ν} : g.explicit n = true ↔
    (∃ v, v ∈ g.valueAssignments n) ∨ ∃ i, i ∈ g.instanceAssignments n := by
  rw [explicit, Bool.or_eq_true, Bool.not_eq_true', Bool.not_eq_true',
    List.isEmpty_eq_false_iff_exists_mem, List.isEmpty_eq_false_iff_exists_mem]

end DataflowGraph

/-! ## Assignments keep the equivalences right -/

theorem mem_merge {e other : List ν} {m : ν} : m ∈ merge e other ↔ m ∈ e ∨ m ∈ other := by
  rw [merge, List.mem_append, List.mem_filter, decide_eq_true_eq]
  constructor
  · exact Or.imp_right And.left
  · rintro (hm | hm)
    · exact .inl hm
    · by_cases hme : m ∈ e
      · exact .inl hme
      · exact .inr ⟨hm, hme⟩

theorem nodup_merge {e other : List ν} (he : e.Nodup) (ho : other.Nodup) :
    (merge e other).Nodup := by
  refine List.nodup_append'.mpr ⟨he, ho.filter _, fun m hm hm' => ?_⟩
  exact of_decide_eq_true (List.mem_filter.mp hm').2 hm

theorem mem_foldl_merge {trail : List (List ν)} {e : List ν} {m : ν} :
    m ∈ trail.foldl merge e ↔ m ∈ e ∨ ∃ e' ∈ trail, m ∈ e' := by
  induction trail generalizing e with
  | nil => exact ⟨.inl, fun h => h.elim id fun ⟨_, h, _⟩ => absurd h List.not_mem_nil⟩
  | cons e' trail ih => rw [List.foldl_cons, ih, mem_merge, List.exists_mem_cons_iff, or_assoc]

theorem nodup_foldl_merge {trail : List (List ν)} {e : List ν} (he : e.Nodup)
    (ht : ∀ e' ∈ trail, e'.Nodup) : (trail.foldl merge e).Nodup := by
  induction trail generalizing e with
  | nil => exact he
  | cons e' trail ih =>
    obtain ⟨he', ht⟩ := List.forall_mem_cons.mp ht
    exact ih (nodup_merge he he') ht

/-- What is appended to the list of one node. -/
theorem mem_update_append {β : Type} {f : ν → List β} {a n : ν} {b x : β} :
    x ∈ Function.update f a (f a ++ [b]) n ↔ x ∈ f n ∨ (n = a ∧ x = b) := by
  by_cases hn : n = a
  · subst hn
    rw [Function.update_self, List.mem_append, List.mem_singleton]
    exact or_congr_right ⟨fun h => ⟨rfl, h⟩, And.right⟩
  · rw [Function.update_of_ne hn]
    exact ⟨.inl, fun h => h.resolve_right fun h => hn h.1⟩

namespace DataflowGraph

variable {g : DataflowGraph ν V I}

/-- One more assignment of a node: what is on a path back becomes one equivalence. -/
theorem Loops.addAssignable (h : g.Loops) {lhs rhs : ν} {e : List ν}
    (he : ∀ m, m ∈ e ↔ Closes g.Edge lhs rhs m) (hnodup : e.Nodup) :
    ((g.addAssignable lhs rhs).setEquivalence e).Loops := by
  have hedge : ((g.addAssignable lhs rhs).setEquivalence e).Edge = AddEdge g.Edge lhs rhs :=
    funext fun _ => funext fun _ => propext mem_update_append
  constructor
  · intro n m
    rw [hedge, mutual_addEdge]
    simp only [DataflowGraph.setEquivalence, DataflowGraph.addAssignable]
    split
    · rename_i hn
      have hn' := (he n).mp hn
      rw [he m]
      exact ⟨fun hm => .inr ⟨hn', hm⟩, fun hm => hm.elim hn'.of_mutual And.right⟩
    · rename_i hn
      rw [h.mem_iff]
      exact ⟨.inl, fun hm => hm.resolve_right fun hm => hn ((he n).mpr hm.1)⟩
  · intro n m
    simp only [DataflowGraph.setEquivalence, DataflowGraph.addAssignable]
    split
    · intro hm
      rw [if_pos hm]
    · rename_i hn
      intro hm
      have hm' : m ∉ e := fun hme => hn ((he n).mpr
        (((he m).mp hme).of_mutual ((h.mem_iff n m).mp hm).symm))
      rw [if_neg hm', h.same n m hm]
  · intro n
    simp only [DataflowGraph.setEquivalence, DataflowGraph.addAssignable]
    split
    · exact hnodup
    · exact h.nodup n

end DataflowGraph

/-- The graph is right after the assignments. -/
structure After (as : List (Assign ν V I)) (g : DataflowGraph ν V I) : Prop where
  loops : g.Loops
  assignable : ∀ a b, b ∈ g.assignableAssignments a ↔ .assignAssignable a b ∈ as
  value : ∀ n v, v ∈ g.valueAssignments n ↔ .assignValue n v ∈ as
  inst : ∀ n i, i ∈ g.instanceAssignments n ↔ .assignInstance n i ∈ as

namespace After

variable {as : List (Assign ν V I)} {g : DataflowGraph ν V I} {depth : ℕ}

omit [DecidableEq ν] in
theorem reaches_iff (h : After as g) {n m : ν} : Reaches as n m ↔ ReflTransGen g.Edge n m := by
  have hedge : g.Edge = fun a b => .assignAssignable a b ∈ as :=
    funext fun a => funext fun b => propext (h.assignable a b)
  rw [hedge]
  rfl

theorem bounded (h : After as g) (n : ν) : g.Bounded (as.map Assign.lhs).toFinset n := by
  intro m _ hm
  obtain ⟨k, hk⟩ := List.exists_mem_of_ne_nil _ hm
  exact List.mem_toFinset.mpr (List.mem_map.mpr ⟨_, (h.assignable m k).mp hk, rfl⟩)

theorem card_lt (hd : as.length < depth) : (as.map Assign.lhs).toFinset.card < depth :=
  ((List.toFinset_card_le _).trans_eq (List.length_map _)).trans_lt hd

theorem propagate_ok (h : After as g) (hd : as.length < depth) (n : ν) :
    g.propagateTentativeInstance depth n = .ok g := by
  obtain ⟨l, hl, hne, -⟩ := h.loops.leaves_ok depth n _ (h.bounded n) (card_lt hd)
  rw [DataflowGraph.propagateTentativeInstance, hl, ok_bind, if_neg (by simpa using hne)]
  rfl

/-- One more assignment. -/
theorem assign_ok (h : After as g) (hd : as.length + 1 < depth) (a : Assign ν V I) :
    ∃ g', g.assign depth a = .ok g' ∧ After (as ++ [a]) g' := by
  have hd' : (as ++ [a]).length < depth := by rw [List.length_append]; exact hd
  have hold : ∀ {b : Assign ν V I}, b ≠ a → (b ∈ as ++ [a] ↔ b ∈ as) := fun hb => by
    rw [List.mem_append, List.mem_singleton, or_iff_left hb]
  have hnew : ∀ {b : Assign ν V I} {p q : Prop}, (p ↔ b ∈ as) → (q ↔ b = a) →
      (p ∨ q ↔ b ∈ as ++ [a]) := fun hp hq => by
    rw [List.mem_append, List.mem_singleton, hp, hq]
  cases a with
  | assignAssignable lhs rhs =>
    obtain ⟨trail, htrail, heq, hclose⟩ := h.loops.equivalencesOnPath_ok lhs depth rhs _
      (h.bounded rhs) (card_lt (Nat.lt_of_succ_lt hd))
    have hnodup : (trail.foldl merge []).Nodup := by
      refine nodup_foldl_merge List.nodup_nil fun e he => ?_
      obtain ⟨x, rfl⟩ := heq e he
      exact h.loops.nodup x
    have hmem : ∀ m, m ∈ trail.foldl merge [] ↔ Closes g.Edge lhs rhs m := fun m => by
      rw [mem_foldl_merge, or_iff_right List.not_mem_nil]
      exact hclose m
    have hafter : After (as ++ [.assignAssignable lhs rhs])
        ((g.addAssignable lhs rhs).setEquivalence (trail.foldl merge [])) :=
      ⟨h.loops.addAssignable hmem hnodup,
        fun a b => mem_update_append.trans (hnew (h.assignable a b) (by simp)),
        fun n v => (h.value n v).trans (hold (by simp)).symm,
        fun n i => (h.inst n i).trans (hold (by simp)).symm⟩
    refine ⟨_, ?_, hafter⟩
    rw [DataflowGraph.assign, htrail, ok_bind]
    exact hafter.propagate_ok hd' lhs
  | assignValue lhs value =>
    exact ⟨g.addValue lhs value, rfl, ⟨h.loops.mem_iff, h.loops.same, h.loops.nodup⟩,
      fun a b => (h.assignable a b).trans (hold (by simp)).symm,
      fun n v => mem_update_append.trans (hnew (h.value n v) (by simp)),
      fun n i => (h.inst n i).trans (hold (by simp)).symm⟩
  | assignInstance lhs inst =>
    have hafter : After (as ++ [.assignInstance lhs inst]) (g.addInstance lhs inst) :=
      ⟨⟨h.loops.mem_iff, h.loops.same, h.loops.nodup⟩,
        fun a b => (h.assignable a b).trans (hold (by simp)).symm,
        fun n v => (h.value n v).trans (hold (by simp)).symm,
        fun n i => mem_update_append.trans (hnew (h.inst n i) (by simp))⟩
    exact ⟨_, hafter.propagate_ok hd' lhs, hafter⟩

omit [DecidableEq ν] in
theorem empty : After [] (DataflowGraph.empty : DataflowGraph ν V I) := by
  have hreach : ∀ {n m : ν}, ReflTransGen (DataflowGraph.empty : DataflowGraph ν V I).Edge n m →
      m = n := fun h => by
    induction h with
    | refl => rfl
    | tail _ hstep _ => exact absurd hstep List.not_mem_nil
  have hnone : ∀ {β : Type} {x : β} {a : Assign ν V I}, x ∈ ([] : List β) ↔ a ∈ [] :=
    ⟨fun hx => absurd hx List.not_mem_nil, fun ha => absurd ha List.not_mem_nil⟩
  refine ⟨⟨fun n m => ?_, fun n m hm => ?_, fun n => List.nodup_singleton n⟩,
    fun _ _ => hnone, fun _ _ => hnone, fun _ _ => hnone⟩
  · refine ⟨fun hm => ?_, fun hm => List.mem_singleton.mpr (hreach hm.1)⟩
    rw [List.mem_singleton.mp hm]
    exact .refl n
  · rw [List.mem_singleton.mp hm]

/-- The nodes that are leaves of their equivalence are the leaves. -/
theorem mem_ownLeaves_iff (h : After as g) {m : ν} :
    m ∈ g.ownLeaves (g.equivalence m) ↔ Leaf as m := by
  have hexp : ∀ u, g.explicit u = true ↔ Explicit as u := fun u => by
    rw [DataflowGraph.explicit_eq_true, exists_congr (h.value u), exists_congr (h.inst u)]
    rfl
  rw [DataflowGraph.mem_ownLeaves (h.loops.mem_self m), Leaf, hexp]
  refine or_congr_right ⟨?_, fun hall => ⟨fun u hu => ?_, ?_⟩⟩
  · rintro ⟨hnone, hext⟩ u hmu
    have hu : u ∈ g.equivalence m := by
      by_contra hu
      obtain ⟨k, hk, -⟩ := h.loops.exists_external (h.reaches_iff.mp hmu) hu
      rw [hext] at hk
      exact List.not_mem_nil hk
    refine ⟨h.reaches_iff.mpr ((h.loops.mem_iff m u).mp hu).2, fun hu' => ?_⟩
    rw [← hexp, hnone u hu] at hu'
    cases hu'
  · have hmu := ((h.loops.mem_iff m u).mp hu).1
    exact Bool.eq_false_iff.mpr fun hu' => (hall u (h.reaches_iff.mpr hmu)).2 ((hexp u).mp hu')
  · refine List.eq_nil_iff_forall_not_mem.mpr fun k hk => ?_
    have hmk := h.loops.reaches_external hk
    obtain ⟨hkm, -⟩ := hall k (h.reaches_iff.mpr hmk)
    exact (DataflowGraph.mem_external.mp hk).2
      ((h.loops.mem_iff m k).mpr ⟨hmk, h.reaches_iff.mp hkm⟩)

end After

/-- No assignment fails, and the graph is right after them. -/
theorem assignAll_ok {depth : ℕ} (as : List (Assign ν V I)) :
    as.length < depth → ∃ g, assignAll depth as = .ok g ∧ After as g := by
  induction as using List.reverseRecOn with
  | nil => exact fun _ => ⟨_, rfl, .empty⟩
  | append_singleton as a ih =>
    intro hd
    rw [List.length_append] at hd
    obtain ⟨g, hg, hafter⟩ := ih (Nat.lt_of_succ_lt hd)
    obtain ⟨g', hg', hafter'⟩ := hafter.assign_ok hd a
    refine ⟨g', ?_, hafter'⟩
    rw [assignAll, List.foldlM_append, ← assignAll, hg, ok_bind, List.foldlM_cons, hg']
    rfl

/-- `x = y`, `y = z`, `z = x` and `z = 1`. -/
def threeLoop : List (Assign String ℕ Unit) :=
  [.assignAssignable "x" "y", .assignAssignable "y" "z", .assignAssignable "z" "x",
    .assignValue "z" 1]

/-- What the analysis reads; `indexAttributes` are those of an instance. -/
def rootCauseGraph (g : DataflowGraph ν V I) (h : g.Loops) (indexAttributes : I → List ν) :
    RootCause.DataflowGraph ν where
  assignableAssignments n := (g.assignableAssignments n).map fun m => ⟨[m], none⟩
  instanceAssignments n := (g.instanceAssignments n).map indexAttributes
  hasValue n := !(g.valueAssignments n).isEmpty
  equivalence := g.equivalence
  mem_equivalence := h.mem_self
  equivalence_eq := h.same
  nodup := h.nodup

omit [DecidableEq ν] in
/-- Without index attributes it has no cycles but those inside an equivalence. -/
theorem rootCauseGraph_noCycles {g : DataflowGraph ν V I} (h : g.Loops) :
    RootCause.NoCycles (rootCauseGraph g h fun _ => []) := by
  have hedge : ∀ {n c rule}, c ∈ (rootCauseGraph g h fun _ => []).steps rule n → g.Edge n c := by
    intro n c rule hc
    cases rule with
    | assignment =>
      obtain ⟨a, ha, hca⟩ := List.mem_flatMap.mp hc
      obtain ⟨m, hm, rfl⟩ := List.mem_map.mp ha
      exact List.mem_singleton.mp hca ▸ hm
    | parentInstance =>
      obtain ⟨a, ha, hca⟩ := List.mem_flatMap.mp hc
      obtain ⟨m, hm, rfl⟩ := List.mem_map.mp ha
      exact absurd hca List.not_mem_nil
    | childAttribute =>
      obtain ⟨l, hl, hcl⟩ := List.mem_flatten.mp hc
      obtain ⟨i, -, rfl⟩ := List.mem_map.mp hl
      exact absurd hcl List.not_mem_nil
  have hnext : ∀ {n c}, ReflTransGen (RootCause.Next (rootCauseGraph g h fun _ => [])) n c →
      ReflTransGen g.Edge n c := by
    intro n c hpath
    induction hpath with
    | refl => exact .refl
    | tail _ hstep ih =>
      rcases hstep.2 with ⟨rule, hrule⟩ | hmem
      · exact ih.tail (hedge hrule)
      · exact ih.trans ((h.mem_iff _ _).mp hmem).1
  rintro n c - ⟨peer, hpeer, rule, hrule, hc⟩ hback
  have hn := (h.mem_iff n peer).mp hpeer
  exact hc ((h.mem_iff n c).mpr ⟨hn.1.tail (hedge hrule), hnext hback⟩)

end AssignmentLoops

end Inmanta
