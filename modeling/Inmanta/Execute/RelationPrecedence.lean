import Inmanta.Lib.Acyclic
import Inmanta.Lib.Dict
import Mathlib.Tactic.Tauto

/-!
# The relation precedence graph

The precedence rules of a project say which relations are frozen before which.
`RelationPrecedenceGraph.ofRules` builds the graph rule by rule and keeps the
nodes that nothing precedes as roots. `getFreezeOrder` works the graph off from
the roots. Its work set is iterated in an order nobody knows, so that the order
is a parameter here.

What is in the work set is not frozen, and can be reached by one rule
(`Frozen`). If no node in it is ready, or if it is empty too early, the nodes
that are not frozen all wait for each other (`Frozen.waits`), so that exactly
the cycles are reported (`freeze_order_is_topological_sort`).
-/

namespace Inmanta

structure CycleInRelationPrecedencePolicyError where
  deriving DecidableEq

/-- The relations a relation is frozen before and after. -/
structure RelationPrecedenceGraphNode (α : Type) where
  dependents : List α
  dependencies : List α

/-- Every relation has one node, so that a relation stands for its node. -/
structure RelationPrecedenceGraph (α : Type) where
  rootNodes : List α
  attributeToNode : Dict α (RelationPrecedenceGraphNode α)

/-- The order in which a set is iterated, which may change from one moment to another. -/
structure WorkIteration (α : Type) where
  order : List α → List α → List α
  perm : ∀ result work, (order result work).Perm work

namespace RelationPrecedenceGraph

variable {α : Type} [DecidableEq α]

section Model

variable (g : RelationPrecedenceGraph α)

def node (a : α) : RelationPrecedenceGraphNode α := g.attributeToNode.getD a ⟨[], []⟩

def getOrCreateNode (a : α) (attachToRoot : Bool) : RelationPrecedenceGraph α :=
  if a ∈ g.attributeToNode then g
  else
    { rootNodes := if attachToRoot then g.rootNodes.insert a else g.rootNodes
      attributeToNode := g.attributeToNode.set a ⟨[], []⟩ }

def addDependent (first dependent : α) : RelationPrecedenceGraph α :=
  let firstNode := g.node first
  let nodes := g.attributeToNode.set first
    { firstNode with dependents := firstNode.dependents.insert dependent }
  let thenNode := nodes.getD dependent ⟨[], []⟩
  let nodes := nodes.set dependent
    { thenNode with dependencies := thenNode.dependencies.insert first }
  { g with attributeToNode := nodes }

def addPrecedenceRule (rule : α × α) : RelationPrecedenceGraph α :=
  let g := (g.getOrCreateNode rule.1 true).getOrCreateNode rule.2 false
  addDependent { g with rootNodes := discard g.rootNodes rule.2 } rule.1 rule.2

/-- `__init__` -/
def ofRules (attributes : List α) (freezeDependents : α → List α) : RelationPrecedenceGraph α :=
  attributes.foldl
    (fun g first => (freezeDependents first).foldl (fun g a => g.addPrecedenceRule (first, a)) g)
    ⟨[], .empty⟩

/-- The relations that are not frozen. -/
def unfrozen (result : List α) : List α := g.attributeToNode.keys.filter (· ∉ result)

def nextReadyItem (it : WorkIteration α) (work result : List α) : Option α :=
  (it.order result work).find? fun a => (g.node a).dependencies.all (· ∈ result)

variable {g} {it : WorkIteration α} {work result : List α} {a : α}

theorem mem_work_of_nextReadyItem (h : g.nextReadyItem it work result = some a) : a ∈ work :=
  (it.perm result work).mem_iff.mp (List.mem_of_find?_eq_some h)

theorem length_unfrozen_lt (ha : a ∈ g.attributeToNode) (hr : a ∉ result) :
    (g.unfrozen (result ++ [a])).length < (g.unfrozen result).length := by
  have hfilter : g.unfrozen (result ++ [a]) = (g.unfrozen result).filter (· ≠ a) := by
    rw [unfrozen, unfrozen, List.filter_filter]
    refine List.filter_congr fun b _ => ?_
    simp [not_or, and_comm]
  rw [hfilter]
  refine List.length_filter_lt_length_iff_exists.mpr ⟨a, ?_, by simp⟩
  exact List.mem_filter.mpr ⟨Dict.mem_keys.mpr ha, by simpa using hr⟩

theorem node_of_not_mem (ha : a ∉ g.attributeToNode) : g.node a = ⟨[], []⟩ :=
  Dict.getD_of_not_mem ha _

theorem length_unfrozen_le (result : List α) (a : α) :
    (g.unfrozen (result ++ [a])).length ≤ (g.unfrozen result).length := by
  refine (List.monotone_filter_right _ fun b hb => ?_).length_le
  simp only [List.mem_append, not_or, decide_eq_true_eq] at hb
  exact decide_eq_true hb.1

variable (g it) in
/-- The loop of `get_freeze_order`. Every turn freezes a relation, or works off one that
has no node. -/
def freezeLoop (work result : List α) : Except CycleInRelationPrecedencePolicyError (List α) :=
  if work = [] then .ok result
  else
    match _h : g.nextReadyItem it work result with
    | none => .error ⟨⟩
    | some a =>
        if _hr : a ∈ result then .error ⟨⟩
        else freezeLoop ((g.node a).dependents ∪ discard work a) (result ++ [a])
termination_by ((g.unfrozen result).length, work.length)
decreasing_by
  by_cases ha : a ∈ g.attributeToNode
  · exact Prod.Lex.left _ _ (length_unfrozen_lt ha _hr)
  · rw [node_of_not_mem ha]
    refine Prod.Lex.right' _ (length_unfrozen_le result a) ?_
    exact List.length_filter_lt_length_iff_exists.mpr
      ⟨a, mem_work_of_nextReadyItem _h, by simp⟩

variable (g it) in
def getFreezeOrder : Except CycleInRelationPrecedencePolicyError (List α) :=
  if g.attributeToNode.keys = [] then .ok []
  else do
    let result ← g.freezeLoop it g.rootNodes []
    if result.length ≠ g.attributeToNode.keys.length then .error ⟨⟩
    else .ok result

end Model

/-! ## The rules of a graph -/

/-- The graph has exactly these rules. -/
structure Represents (g : RelationPrecedenceGraph α) (P : α → α → Prop) : Prop where
  mem_nodes : ∀ a, a ∈ g.attributeToNode ↔ ∃ b, P a b ∨ P b a
  mem_dependents : ∀ a b, b ∈ (g.node a).dependents ↔ P a b
  mem_dependencies : ∀ a b, b ∈ (g.node a).dependencies ↔ P b a
  mem_roots : ∀ a, a ∈ g.rootNodes ↔ (∃ b, P a b) ∧ ∀ b, ¬ P b a

section Rules

variable {g : RelationPrecedenceGraph α} {P : α → α → Prop} {x y a b : α} {root : Bool}

theorem mem_getOrCreateNode :
    a ∈ (g.getOrCreateNode x root).attributeToNode ↔ a ∈ g.attributeToNode ∨ a = x := by
  rw [getOrCreateNode]
  by_cases hx : x ∈ g.attributeToNode
  · rw [if_pos hx]
    exact ⟨.inl, fun h => h.elim id fun h => h ▸ hx⟩
  · rw [if_neg hx]
    exact Dict.mem_set.trans or_comm

/-- A new node has no rules yet. -/
theorem node_getOrCreateNode : (g.getOrCreateNode x root).node a = g.node a := by
  rw [getOrCreateNode]
  by_cases hx : x ∈ g.attributeToNode
  · rw [if_pos hx]
  · rw [if_neg hx, node, Dict.getD_set]
    split_ifs with ha
    · rw [ha, node_of_not_mem hx]
    · rfl

theorem mem_roots_getOrCreateNode :
    a ∈ (g.getOrCreateNode x root).rootNodes
      ↔ a ∈ g.rootNodes ∨ root = true ∧ a = x ∧ x ∉ g.attributeToNode := by
  rw [getOrCreateNode]
  split_ifs with hx hroot
  · simp [hx]
  · simp [hx, hroot, or_comm]
  · simp [hroot]

theorem mem_addDependent : a ∈ (g.addDependent x y).attributeToNode
    ↔ a ∈ g.attributeToNode ∨ a = x ∨ a = y := by
  simp only [addDependent, Dict.mem_set]
  tauto

theorem dependents_addDependent : b ∈ ((g.addDependent x y).node a).dependents
    ↔ b ∈ (g.node a).dependents ∨ a = x ∧ b = y := by
  simp only [addDependent, node, Dict.getD_set]
  split_ifs <;> simp_all [or_comm]

theorem dependencies_addDependent : b ∈ ((g.addDependent x y).node a).dependencies
    ↔ b ∈ (g.node a).dependencies ∨ b = x ∧ a = y := by
  simp only [addDependent, node, Dict.getD_set]
  split_ifs <;> simp_all [or_comm]

theorem Represents.addPrecedenceRule (h : g.Represents P) (x y : α) :
    (g.addPrecedenceRule (x, y)).Represents fun a b => P a b ∨ a = x ∧ b = y where
  mem_nodes a := by
    rw [RelationPrecedenceGraph.addPrecedenceRule, mem_addDependent]
    simp only [mem_getOrCreateNode, h.mem_nodes]
    constructor
    · rintro (((⟨b, hb⟩ | rfl) | rfl) | rfl | rfl)
      · exact ⟨b, hb.imp .inl .inl⟩
      · exact ⟨y, .inl (.inr ⟨rfl, rfl⟩)⟩
      · exact ⟨x, .inr (.inr ⟨rfl, rfl⟩)⟩
      · exact ⟨y, .inl (.inr ⟨rfl, rfl⟩)⟩
      · exact ⟨x, .inr (.inr ⟨rfl, rfl⟩)⟩
    · rintro ⟨b, (hb | ⟨rfl, rfl⟩) | hb | ⟨rfl, rfl⟩⟩
      · exact .inl (.inl (.inl ⟨b, .inl hb⟩))
      · exact .inr (.inl rfl)
      · exact .inl (.inl (.inl ⟨b, .inr hb⟩))
      · exact .inr (.inr rfl)
  mem_dependents a b := by
    rw [RelationPrecedenceGraph.addPrecedenceRule, dependents_addDependent]
    have hnode : ((g.getOrCreateNode x true).getOrCreateNode y false).node a = g.node a :=
      node_getOrCreateNode.trans node_getOrCreateNode
    exact or_congr_left ((iff_of_eq (congrArg (b ∈ ·.dependents) hnode)).trans
      (h.mem_dependents a b))
  mem_dependencies a b := by
    rw [RelationPrecedenceGraph.addPrecedenceRule, dependencies_addDependent]
    have hnode : ((g.getOrCreateNode x true).getOrCreateNode y false).node a = g.node a :=
      node_getOrCreateNode.trans node_getOrCreateNode
    exact or_congr_left ((iff_of_eq (congrArg (b ∈ ·.dependencies) hnode)).trans
      (h.mem_dependencies a b))
  mem_roots a := by
    have hroots : a ∈ (g.addPrecedenceRule (x, y)).rootNodes
        ↔ (a ∈ g.rootNodes ∨ a = x ∧ x ∉ g.attributeToNode) ∧ a ≠ y := by
      rw [RelationPrecedenceGraph.addPrecedenceRule, addDependent, mem_discard,
        mem_roots_getOrCreateNode, mem_roots_getOrCreateNode]
      simp
    rw [hroots, h.mem_roots, h.mem_nodes]
    constructor
    · rintro ⟨⟨⟨b, hb⟩, hno⟩ | ⟨rfl, hx⟩, hy⟩
      · exact ⟨⟨b, .inl hb⟩, fun c hc => hc.elim (hno c) fun hc => hy hc.2⟩
      · refine ⟨⟨y, .inr ⟨rfl, rfl⟩⟩, fun c hc => ?_⟩
        obtain hc | ⟨-, hc⟩ := hc
        · exact hx ⟨c, .inr hc⟩
        · exact hy hc
    · rintro ⟨⟨b, hb⟩, hno⟩
      have hP : ∀ c, ¬ P c a := fun c hc => hno c (.inl hc)
      refine ⟨?_, fun hy => hno x (.inr ⟨rfl, hy⟩)⟩
      by_cases hsome : ∃ b, P a b
      · exact .inl ⟨hsome, hP⟩
      · obtain hb | ⟨rfl, -⟩ := hb
        · exact absurd ⟨b, hb⟩ hsome
        · refine .inr ⟨rfl, ?_⟩
          rintro ⟨c, hc | hc⟩
          · exact hsome ⟨c, hc⟩
          · exact hP c hc

theorem Represents.congr {Q : α → α → Prop} (h : g.Represents P) (hPQ : ∀ a b, P a b ↔ Q a b) :
    g.Represents Q := by
  have : P = Q := funext fun a => funext fun b => propext (hPQ a b)
  exact this ▸ h

theorem represents_foldl (h : g.Represents P) (rules : List (α × α)) :
    (rules.foldl RelationPrecedenceGraph.addPrecedenceRule g).Represents
      fun a b => P a b ∨ (a, b) ∈ rules := by
  induction rules generalizing g P with
  | nil => exact h.congr fun a b => by simp
  | cons rule rules ih =>
      refine (ih (h.addPrecedenceRule rule.1 rule.2)).congr fun a b => ?_
      rw [List.mem_cons, ← or_assoc, Prod.ext_iff]

/-- `a` has to be frozen before `b`. -/
def Precedes (attributes : List α) (freezeDependents : α → List α) (a b : α) : Prop :=
  a ∈ attributes ∧ b ∈ freezeDependents a

theorem represents_ofRules (attributes : List α) (freezeDependents : α → List α) :
    (ofRules attributes freezeDependents).Represents (Precedes attributes freezeDependents) := by
  have hempty : (⟨[], .empty⟩ : RelationPrecedenceGraph α).Represents fun _ _ => False := by
    constructor <;> simp [node, Dict.getD]
  have hrules : ofRules attributes freezeDependents
      = (attributes.flatMap fun a => (freezeDependents a).map (a, ·)).foldl
          RelationPrecedenceGraph.addPrecedenceRule ⟨[], .empty⟩ := by
    rw [ofRules, List.foldl_flatMap]
    simp only [List.foldl_map]
  rw [hrules]
  refine (represents_foldl hempty _).congr fun a b => ?_
  simp only [Precedes, false_or, List.mem_flatMap, List.mem_map, Prod.mk.injEq]
  constructor
  · rintro ⟨_, ha, _, hb, rfl, rfl⟩
    exact ⟨ha, hb⟩
  · rintro ⟨ha, hb⟩
    exact ⟨a, ha, b, hb, rfl, rfl⟩

end Rules

/-! ## Freezing -/

/-- Every relation that was frozen came after those it waits for. What is in the work set
can be reached by one rule, and is not frozen. -/
structure Frozen (P : α → α → Prop) (work result : List α) : Prop where
  nodup : result.Nodup
  ruled : ∀ a ∈ result, ∃ b, P a b ∨ P b a
  ordered : ∀ pre b post, result = pre ++ b :: post → ∀ a, P a b → a ∈ pre
  mem_work : ∀ a, a ∈ work ↔ a ∉ result ∧ (∃ b, P a b ∨ P b a)
    ∧ ((∀ b, ¬ P b a) ∨ ∃ b ∈ result, P b a)

section Freezing

variable {g : RelationPrecedenceGraph α} {P : α → α → Prop} {it : WorkIteration α}
  {work result : List α} {a b : α}

theorem frozen_roots (h : g.Represents P) : Frozen P g.rootNodes [] where
  nodup := List.nodup_nil
  ruled a ha := absurd ha List.not_mem_nil
  ordered pre b post heq := by simp at heq
  mem_work a := by
    rw [h.mem_roots]
    constructor
    · rintro ⟨⟨b, hb⟩, hno⟩
      exact ⟨List.not_mem_nil, ⟨b, .inl hb⟩, .inl hno⟩
    · rintro ⟨-, ⟨b, hb⟩, hno | ⟨c, hc, -⟩⟩
      · exact ⟨⟨b, hb.resolve_right (hno b)⟩, hno⟩
      · exact absurd hc List.not_mem_nil

omit [DecidableEq α] in
theorem Frozen.closed (h : Frozen P work result) (hb : b ∈ result) (hab : P a b) :
    a ∈ result := by
  obtain ⟨pre, post, rfl⟩ := List.append_of_mem hb
  exact List.mem_append_left _ (h.ordered pre b post rfl a hab)

theorem Frozen.freeze (h : Frozen P work result) (hg : g.Represents P) (ha : a ∈ work)
    (hready : ∀ b, P b a → b ∈ result) :
    Frozen P ((g.node a).dependents ∪ discard work a) (result ++ [a]) := by
  obtain ⟨hnot, hruled, -⟩ := (h.mem_work a).mp ha
  refine ⟨?_, fun b hb => ?_, fun pre b post heq c hc => ?_, fun b => ?_⟩
  · exact List.nodup_append.mpr ⟨h.nodup, List.nodup_singleton a, fun b hb c hc hbc =>
      hnot (List.mem_singleton.mp hc ▸ hbc ▸ hb)⟩
  · obtain hb | hb := List.mem_append.mp hb
    · exact h.ruled b hb
    · exact List.mem_singleton.mp hb ▸ hruled
  · rcases List.eq_nil_or_concat post with rfl | ⟨post, d, rfl⟩
    · obtain ⟨rfl, hb⟩ := List.append_inj' heq rfl
      obtain rfl := List.singleton_inj.mp hb
      exact hready c hc
    · have heq' : result ++ [a] = (pre ++ b :: post) ++ [d] := by simpa using heq
      obtain ⟨rfl, -⟩ := List.append_inj' heq' rfl
      exact h.ordered pre b post rfl c hc
  · have hex : (∃ c ∈ result ++ [a], P c b) ↔ (∃ c ∈ result, P c b) ∨ P a b := by
      simp [or_and_right, exists_or]
    rw [List.mem_union_iff, hg.mem_dependents, mem_discard, h.mem_work, hex, List.mem_append,
      List.mem_singleton, not_or]
    constructor
    · rintro (hab | ⟨⟨hb, hr, hc⟩, hne⟩)
      · -- what waits for the relation is not frozen, and is not the relation itself
        refine ⟨⟨fun hb => hnot (h.closed hb hab), ?_⟩, ⟨a, .inr hab⟩, .inr (.inr hab)⟩
        rintro rfl
        exact hnot (hready b hab)
      · exact ⟨⟨hb, hne⟩, hr, hc.imp_right .inl⟩
    · rintro ⟨⟨hb, hne⟩, hr, hc | hc | hab⟩
      · exact .inr ⟨⟨hb, hr, .inl hc⟩, hne⟩
      · exact .inr ⟨⟨hb, hr, .inr hc⟩, hne⟩
      · exact .inl hab

theorem nextReadyItem_spec (hg : g.Represents P) (h : g.nextReadyItem it work result = some a) :
    a ∈ work ∧ ∀ b, P b a → b ∈ result := by
  refine ⟨mem_work_of_nextReadyItem h, fun b hb => ?_⟩
  have hall := List.find?_some h
  exact of_decide_eq_true
    (List.all_eq_true.mp hall b ((hg.mem_dependencies a b).mpr hb))

theorem nextReadyItem_none (hg : g.Represents P) (h : g.nextReadyItem it work result = none)
    (ha : a ∈ work) : ∃ b, P b a ∧ b ∉ result := by
  have hnone := List.find?_eq_none.mp h a ((it.perm result work).mem_iff.mpr ha)
  rw [Bool.not_eq_true, List.all_eq_false] at hnone
  obtain ⟨b, hb, hnot⟩ := hnone
  exact ⟨b, (hg.mem_dependencies a b).mp hb, by simpa using hnot⟩

/-- If nothing that can be reached is ready, every relation left waits for another one. -/
theorem Frozen.waits (h : Frozen P work result)
    (hwork : ∀ a ∈ work, ∃ b, P b a ∧ b ∉ result) (hr : ∃ b, P a b ∨ P b a) (ha : a ∉ result) :
    ∃ b, ((∃ c, P b c ∨ P c b) ∧ b ∉ result) ∧ P b a := by
  by_cases haw : a ∈ work
  · obtain ⟨b, hb, hnot⟩ := hwork a haw
    exact ⟨b, ⟨⟨a, .inl hb⟩, hnot⟩, hb⟩
  · have hno : ¬ ((∀ b, ¬ P b a) ∨ ∃ b ∈ result, P b a) := fun hc =>
      haw ((h.mem_work a).mpr ⟨ha, hr, hc⟩)
    rw [not_or, not_forall_not] at hno
    obtain ⟨⟨b, hb⟩, hnot⟩ := hno
    exact ⟨b, ⟨⟨a, .inl hb⟩, fun hbr => hnot ⟨b, hbr, hb⟩⟩, hb⟩

/-- Without cycles, nothing is left when nothing is ready. -/
theorem Frozen.complete (h : Frozen P work result) (hg : g.Represents P) (hac : Acyclic P)
    (hwork : ∀ a ∈ work, ∃ b, P b a ∧ b ∉ result) (hr : ∃ b, P a b ∨ P b a) : a ∈ result := by
  by_contra ha
  refine hac.swap.eq_empty_of_successor
    (p := fun a => (∃ b, P a b ∨ P b a) ∧ a ∉ result) g.attributeToNode.keys
    (fun b hb => Dict.mem_keys.mpr ((hg.mem_nodes b).mpr hb.1))
    (fun b hb => ?_) a ⟨hr, ha⟩
  exact h.waits hwork hb.1 hb.2

theorem Frozen.acyclic (h : Frozen P work result)
    (hall : ∀ a, (∃ b, P a b ∨ P b a) → a ∈ result) : Acyclic P := by
  refine (acyclic_of_rank (r := Function.swap P) result.idxOf fun b a hab => ?_).swap
  obtain ⟨pre, post, heq⟩ := List.append_of_mem (hall b ⟨a, .inr hab⟩)
  have ha := h.ordered pre b post heq a hab
  have hb : b ∉ pre := fun hb => by
    have hnodup := heq ▸ h.nodup
    exact (List.nodup_append.mp hnodup).2.2 b hb b (List.mem_cons_self ..) rfl
  rw [heq, List.idxOf_append_of_mem ha, List.idxOf_append_of_notMem hb, List.idxOf_cons_self]
  have := List.idxOf_lt_length_of_mem ha
  omega

theorem freezeLoop_nil : g.freezeLoop it [] result = .ok result := by
  rw [freezeLoop, if_pos rfl]

theorem freezeLoop_of_none (hne : work ≠ []) (h : g.nextReadyItem it work result = none) :
    g.freezeLoop it work result = .error ⟨⟩ := by
  rw [freezeLoop, if_neg hne]
  split
  · rfl
  · rename_i heq
    cases h.symm.trans heq

theorem freezeLoop_of_some (h : g.nextReadyItem it work result = some a) (ha : a ∉ result) :
    g.freezeLoop it work result
      = g.freezeLoop it ((g.node a).dependents ∪ discard work a) (result ++ [a]) := by
  rw [freezeLoop, if_neg (List.ne_nil_of_mem (mem_work_of_nextReadyItem h))]
  split
  · rename_i heq
    cases h.symm.trans heq
  · rename_i heq
    obtain rfl := Option.some.inj (h.symm.trans heq)
    rw [dif_neg ha]

/-- The loop freezes until nothing can be reached, or until nothing is ready. -/
theorem freezeLoop_spec (hg : g.Represents P) (h : Frozen P work result) :
    (∃ order, g.freezeLoop it work result = .ok order ∧ Frozen P [] order)
      ∨ g.freezeLoop it work result = .error ⟨⟩ ∧ ¬ Acyclic P := by
  induction work, result using freezeLoop.induct g it with
  | case1 result => exact .inl ⟨result, freezeLoop_nil, h⟩
  | case2 work result hne hnone =>
      refine .inr ⟨freezeLoop_of_none hne hnone, fun hac => ?_⟩
      obtain ⟨a, ha⟩ := List.exists_mem_of_ne_nil work hne
      obtain ⟨hnot, hr, -⟩ := (h.mem_work a).mp ha
      exact hnot (h.complete hg hac (fun b => nextReadyItem_none hg hnone) hr)
  | case3 work result hne a hsome ha =>
      exact absurd ha ((h.mem_work a).mp (mem_work_of_nextReadyItem hsome)).1
  | case4 work result hne a hsome ha ih =>
      obtain ⟨haw, hready⟩ := nextReadyItem_spec hg hsome
      rw [freezeLoop_of_some hsome ha]
      exact ih (h.freeze hg haw hready)

theorem length_eq_iff (hg : g.Represents P) {order : List α} (h : Frozen P [] order) :
    order.length = g.attributeToNode.keys.length ↔ ∀ a, (∃ b, P a b ∨ P b a) → a ∈ order := by
  have hsub : order ⊆ g.attributeToNode.keys := fun a ha =>
    Dict.mem_keys.mpr ((hg.mem_nodes a).mpr (h.ruled a ha))
  have hsubperm := List.subperm_of_subset h.nodup hsub
  constructor
  · intro hlength a hr
    exact (hsubperm.perm_of_length_le hlength.ge).mem_iff.mpr
      (Dict.mem_keys.mpr ((hg.mem_nodes a).mpr hr))
  · intro hall
    refine le_antisymm hsubperm.length_le (List.subperm_of_subset g.attributeToNode.nodup ?_).length_le
    exact fun a ha => hall a ((hg.mem_nodes a).mp (Dict.mem_keys.mp ha))

/-- Every relation with a rule once, and after the relations it waits for. -/
structure IsFreezeOrder (P : α → α → Prop) (order : List α) : Prop where
  nodup : order.Nodup
  mem_iff : ∀ a, a ∈ order ↔ ∃ b, P a b ∨ P b a
  ordered : ∀ pre b post, order = pre ++ b :: post → ∀ a, P a b → a ∈ pre

theorem getFreezeOrder_spec (hg : g.Represents P) (it : WorkIteration α) :
    (Acyclic P → ∃ order, g.getFreezeOrder it = .ok order ∧ IsFreezeOrder P order)
      ∧ (¬ Acyclic P → g.getFreezeOrder it = .error ⟨⟩) := by
  rw [getFreezeOrder]
  by_cases hkeys : g.attributeToNode.keys = []
  · have hno : ∀ a b, ¬ P a b := fun a b hab => by
      have ha := Dict.mem_keys.mpr ((hg.mem_nodes a).mpr ⟨b, .inl hab⟩)
      exact List.not_mem_nil (hkeys ▸ ha)
    have hac : Acyclic P := (acyclic_of_rank (r := P) (fun _ => 0) fun a b hab =>
      absurd hab (hno a b))
    rw [if_pos hkeys]
    refine ⟨fun _ => ⟨[], rfl, List.nodup_nil, fun a => ?_, fun pre b post heq => ?_⟩,
      fun hcyc => absurd hac hcyc⟩
    · simp [hno]
    · simp at heq
  · rw [if_neg hkeys]
    obtain ⟨order, hloop, h⟩ | ⟨hloop, hcyc⟩ :=
      @freezeLoop_spec α _ g P it g.rootNodes [] hg (frozen_roots hg)
    · rw [hloop]
      have hiff := length_eq_iff hg h
      constructor
      · intro hac
        have hall := fun a => h.complete (a := a) hg hac fun b hb => absurd hb List.not_mem_nil
        refine ⟨order, ?_, h.nodup, fun a => ⟨h.ruled a, hall a⟩, h.ordered⟩
        exact if_neg fun hne => hne (hiff.mpr hall)
      · intro hcyc
        exact if_pos fun hlength => hcyc (h.acyclic (hiff.mp hlength))
    · rw [hloop]
      exact ⟨fun hac => absurd hac hcyc, fun _ => rfl⟩

end Freezing

/-- **The relations are frozen in the order of their rules, or the cycle is reported.** -/
theorem freeze_order_is_topological_sort (attributes : List α) (freezeDependents : α → List α)
    (it : WorkIteration α) :
    (Acyclic (Precedes attributes freezeDependents) →
      ∃ order, (ofRules attributes freezeDependents).getFreezeOrder it = .ok order
        ∧ IsFreezeOrder (Precedes attributes freezeDependents) order)
      ∧ (¬ Acyclic (Precedes attributes freezeDependents) →
          (ofRules attributes freezeDependents).getFreezeOrder it = .error ⟨⟩) :=
  getFreezeOrder_spec (represents_ofRules attributes freezeDependents) it

end RelationPrecedenceGraph

end Inmanta
