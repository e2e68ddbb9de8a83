import Inmanta.Lib.Acyclic
import Mathlib.Data.Finset.Union
import Mathlib.Data.List.Dedup

/-!
# Root causes of unset attributes

`UnsetRootCauseAnalyzer.root_causes` looks for the attributes that are to blame for
others being unset, by a depth-first search over the assignments of the dataflow
graph. It treats an equivalence as one node, stops at nodes that have a value and
leaves a node at the first successor that has a root.

An equivalence is marked only after its successors, so the search never comes back
from a cycle that it enters (`root_causes_iff`). Where it comes back it is exact.
-/

namespace Inmanta

namespace RootCause

variable {ν : Type}

/-- The right-hand side of an assignment of a reference: the nodes that it refers to,
and those of the variable before the dot if it refers to an attribute. -/
structure AssignableAssignment (ν : Type) where
  nodes : List ν
  instanceVarNodes : Option (List ν)

/-- What the search reads of a dataflow graph. -/
structure DataflowGraph (ν : Type) where
  assignableAssignments : ν → List (AssignableAssignment ν)
  /-- The index attributes of the instances that are assigned. -/
  instanceAssignments : ν → List (List ν)
  hasValue : ν → Bool
  equivalence : ν → List ν
  mem_equivalence : ∀ n, n ∈ equivalence n
  equivalence_eq : ∀ n, ∀ m ∈ equivalence n, equivalence m = equivalence n
  nodup : ∀ n, (equivalence n).Nodup

/-- The steps of the search in the order in which a node takes them. -/
inductive Rule where
  | assignment
  | parentInstance
  | childAttribute
  deriving DecidableEq

/-- The steps before a step. -/
def Rule.before : Rule → List Rule
  | assignment => []
  | parentInstance => [assignment]
  | childAttribute => [assignment, parentInstance]

namespace DataflowGraph

variable (g : DataflowGraph ν)

/-- `_assignment_step`, `_parent_instance_step` and `_child_attribute_step`. -/
def steps : Rule → ν → List ν
  | .assignment, n => (g.assignableAssignments n).flatMap (·.nodes)
  | .parentInstance, n =>
      (g.assignableAssignments n).flatMap fun a => a.instanceVarNodes.getD []
  | .childAttribute, n => (g.instanceAssignments n).flatten

end DataflowGraph

/-- The attribute nodes to analyze: none of them has a value. -/
structure UnsetNodes (g : DataflowGraph ν) where
  nodes : List ν
  unset : ∀ n ∈ nodes, g.hasValue n = false

/-- An order in which sets are gone through. -/
structure VisitOrder [DecidableEq ν] (g : DataflowGraph ν) (unset : UnsetNodes g) where
  nodes : List ν
  mem_nodes : ∀ n, n ∈ nodes ↔ n ∈ unset.nodes
  peers : List ν → List ν
  mem_peers : ∀ n, ∀ m, m ∈ peers (g.equivalence n) ↔ m ∈ g.equivalence n
  steps : Rule → ν → List ν
  mem_steps : ∀ rule n m, m ∈ steps rule n ↔ m ∈ g.steps rule n
  nodup_peers : ∀ n, (peers (g.equivalence n)).Nodup
  nodup_steps : ∀ rule n, (steps rule n).Nodup

structure State (ν : Type) where
  roots : Finset ν
  ignoreRoots : Finset ν
  seen : Finset ν

section Search

variable [DecidableEq ν] {g : DataflowGraph ν} {unset : UnsetNodes g}

namespace VisitOrder

variable (v : VisitOrder g unset)

/-- What the search goes through for the equivalence of a node. -/
def subnodes (n : ν) : List ν :=
  ((v.peers (g.equivalence n)).flatMap fun peer =>
    v.steps .assignment peer ++ v.steps .parentInstance peer ++ v.steps .childAttribute peer).filter
    fun m => decide (m ∉ g.equivalence n)

/-- `any(has_root(subnode) for ...)` -/
def anyRoot (hasRoot : ν → State ν → Option (Bool × State ν)) :
    List ν → State ν → Option (Bool × State ν)
  | [], s => some (false, s)
  | n :: rest, s =>
      match hasRoot n s with
      | none => none
      | some (true, s) => some (true, s)
      | some (false, s) => anyRoot hasRoot rest s

/-- `has_root`, for a stack of a depth; `none`: the stack is used up. -/
def hasRoot : ℕ → ν → State ν → Option (Bool × State ν)
  | 0, _, _ => none
  | depth + 1, n, s =>
      if n ∈ s.seen then some (decide (n ∉ s.ignoreRoots), s)
      else if g.hasValue n then some (false, s)
      else
        match anyRoot (hasRoot depth) (v.subnodes n) s with
        | none => none
        | some (found, s) =>
            let s := { s with seen := s.seen ∪ (g.equivalence n).toFinset }
            if found then some (true, s)
            else
              let anyroots := unset.nodes.toFinset ∩ (g.equivalence n).toFinset
              if anyroots = ∅ then
                some (false,
                  { s with ignoreRoots := s.ignoreRoots ∪ (g.equivalence n).toFinset })
              else some (true, { s with roots := s.roots ∪ anyroots })

/-- The loop of `root_causes`. -/
def loop (depth : ℕ) : List ν → State ν → Option (State ν)
  | [], s => some s
  | n :: rest, s =>
      match v.hasRoot depth n s with
      | none => none
      | some (_, s) => loop depth rest s

def rootCauses (depth : ℕ) : Option (Finset ν) :=
  (v.loop depth v.nodes ⟨∅, ∅, ∅⟩).map State.roots

/-- Deep enough stacks all give the result. -/
def Returns (roots : Finset ν) : Prop :=
  ∃ depth, ∀ depth', depth ≤ depth' → v.rootCauses depth' = some roots

end VisitOrder

end Search

/-! ## The cause relation -/

section Causes

variable (g : DataflowGraph ν) (unset : UnsetNodes g)

/-- What is a cause of a node by one rule; the nodes of an equivalence are causes of
each other, as they are assigned to each other in a loop. A node with a value has no
causes. -/
def Next (n c : ν) : Prop :=
  g.hasValue n = false ∧ ((∃ rule, c ∈ g.steps rule n) ∨ c ∈ g.equivalence n)

/-- A node outside the equivalence that is a cause of it. -/
def Sub (n c : ν) : Prop :=
  ∃ peer ∈ g.equivalence n, ∃ rule, c ∈ g.steps rule peer ∧ c ∉ g.equivalence n

def IsCause (c n : ν) : Prop := Relation.TransGen (Next g) n c

/-- No node of the set outside its equivalence is a cause of the node. -/
def IsRootCause (n : ν) : Prop :=
  n ∈ unset.nodes ∧ ∀ c ∈ unset.nodes, c ∉ g.equivalence n → ¬ IsCause g c n

/-- There are no cycles but those inside an equivalence. -/
def NoCycles : Prop :=
  ∀ n c, g.hasValue n = false → Sub g n c → ¬ Relation.ReflTransGen (Next g) c n

/-- A node of the set is the node or a cause of it. -/
def Below (n : ν) : Prop := ∃ c ∈ unset.nodes, Relation.ReflTransGen (Next g) n c

/-- The search can come from a node to another: no step that the node takes before
leads to a root. -/
def Visits (n m : ν) : Prop :=
  g.hasValue n = false ∧ g.hasValue m = false ∧
    ∃ peer ∈ g.equivalence n, ∃ rule, m ∈ g.steps rule peer ∧ m ∉ g.equivalence n ∧
      ∀ rule' ∈ rule.before, ∀ d ∈ g.steps rule' peer, d ∉ g.equivalence n → ¬ Below g unset d

/-- The nodes of an equivalence all have a value, or none has. -/
def Uniform : Prop := ∀ n, ∀ m ∈ g.equivalence n, g.hasValue m = g.hasValue n

end Causes

section Facts

variable {g : DataflowGraph ν} {unset : UnsetNodes g} {n m c : ν}

theorem Below.unvalued (h : Below g unset n) :
    g.hasValue n = false := by
  obtain ⟨c, hc, hpath⟩ := h
  rcases Relation.ReflTransGen.cases_head hpath with rfl | ⟨m, hnext, -⟩
  · exact unset.unset n hc
  · exact hnext.1

/-- A path to a node stays in the equivalence, or leaves it for the first time. -/
theorem leaves (h : Relation.ReflTransGen (Next g) m c) (hm : m ∈ g.equivalence n) :
    c ∈ g.equivalence n ∨ ∃ d, Sub g n d ∧ Relation.ReflTransGen (Next g) d c := by
  induction h using Relation.ReflTransGen.head_induction_on with
  | refl => exact Or.inl hm
  | @head m d hnext hrest ih =>
      by_cases hd : d ∈ g.equivalence n
      · exact ih hd
      · rcases hnext.2 with ⟨rule, hstep⟩ | hpeer
        · exact Or.inr ⟨d, ⟨m, hm, rule, hstep, hd⟩, hrest⟩
        · rw [g.equivalence_eq n m hm] at hpeer
          exact absurd hpeer hd

/-- A node leaves its equivalence for a cause of it. -/
theorem path_of_sub (hu : Uniform g) (hn : g.hasValue n = false) (h : Sub g n m) :
    Relation.TransGen (Next g) n m := by
  obtain ⟨peer, hpeer, rule, hstep, -⟩ := h
  have hvalue : g.hasValue peer = false := (hu n peer hpeer).trans hn
  exact Relation.TransGen.tail (Relation.TransGen.single ⟨hn, Or.inr hpeer⟩)
    ⟨hvalue, Or.inl ⟨rule, hstep⟩⟩

theorem below_iff (hu : Uniform g) (hn : g.hasValue n = false) : Below g unset n ↔
    (∃ c ∈ unset.nodes, c ∈ g.equivalence n) ∨ ∃ m, Sub g n m ∧ Below g unset m := by
  constructor
  · rintro ⟨c, hc, hpath⟩
    rcases leaves hpath (g.mem_equivalence n) with hmem | ⟨d, hsub, hrest⟩
    · exact Or.inl ⟨c, hc, hmem⟩
    · exact Or.inr ⟨d, hsub, c, hc, hrest⟩
  · rintro (⟨c, hc, hmem⟩ | ⟨m, hsub, c, hc, hrest⟩)
    · exact ⟨c, hc, Relation.ReflTransGen.single ⟨hn, Or.inr hmem⟩⟩
    · exact ⟨c, hc, (path_of_sub hu hn hsub).to_reflTransGen.trans hrest⟩

theorem isRootCause_iff (hu : Uniform g) (hcycles : NoCycles g) (hn : n ∈ unset.nodes) :
    IsRootCause g unset n ↔ ∀ m, Sub g n m → ¬ Below g unset m := by
  have hvalue := unset.unset n hn
  constructor
  · rintro ⟨-, h⟩ m hsub ⟨c, hc, hrest⟩
    refine h c hc (fun hmem => ?_) (Relation.TransGen.trans_left (path_of_sub hu hvalue hsub) hrest)
    refine hcycles n m hvalue hsub (hrest.tail ⟨unset.unset c hc, Or.inr ?_⟩)
    rw [g.equivalence_eq n c hmem]
    exact g.mem_equivalence n
  · intro h
    refine ⟨hn, fun c hc hmem hcause => ?_⟩
    rcases leaves hcause.to_reflTransGen (g.mem_equivalence n) with hc' | ⟨d, hsub, hrest⟩
    · exact hmem hc'
    · exact h d hsub ⟨c, hc, hrest⟩

theorem sub_congr (hm : m ∈ g.equivalence n) : Sub g m c ↔ Sub g n c := by
  rw [Sub, Sub, g.equivalence_eq n m hm]

theorem below_congr (hu : Uniform g) (hn : g.hasValue n = false) (hm : m ∈ g.equivalence n) :
    Below g unset m ↔ Below g unset n := by
  rw [below_iff hu hn, below_iff hu ((hu n m hm).trans hn), g.equivalence_eq n m hm]
  exact or_congr_right (exists_congr fun _ => and_congr_left fun _ => sub_congr hm)

end Facts

/-! ## What the search finds -/

section Exactness

variable {g : DataflowGraph ν} {unset : UnsetNodes g} {s s' : State ν} {n m : ν} {found : Bool}

/-- What the search knows: the roots of the nodes that it has seen, and which of these
have none. -/
structure Inv (unset : UnsetNodes g) (s : State ν) : Prop where
  closed : ∀ n ∈ s.seen, ∀ m ∈ g.equivalence n, m ∈ s.seen
  unvalued : ∀ n ∈ s.seen, g.hasValue n = false
  ignored : ∀ n ∈ s.seen, (n ∉ s.ignoreRoots ↔ Below g unset n)
  ignored_seen : ∀ n ∈ s.ignoreRoots, n ∈ s.seen
  roots : ∀ n, n ∈ s.roots ↔ n ∈ s.seen ∧ n ∈ unset.nodes ∧ ∀ m, Sub g n m → ¬ Below g unset m

theorem Inv.init : Inv unset (⟨∅, ∅, ∅⟩ : State ν) := by
  refine ⟨?_, ?_, ?_, ?_, ?_⟩ <;> simp

/-- What a call leaves behind: more nodes are seen, and what is found is true. -/
structure Found (unset : UnsetNodes g) (n : ν) (s : State ν) (found : Bool) (s' : State ν) :
    Prop where
  inv : Inv unset s'
  mono : s.seen ⊆ s'.seen
  found_iff : found = true ↔ Below g unset n
  seen : g.hasValue n = false → n ∈ s'.seen

/-- The loop over successors, for a search of which every call does its work. -/
theorem anyRoot_found {f : ν → State ν → Option (Bool × State ν)} {l : List ν}
    (hf : ∀ n ∈ l, ∀ s found s', Inv unset s → f n s = some (found, s') →
      Found unset n s found s') (hs : Inv unset s)
    (h : VisitOrder.anyRoot f l s = some (found, s')) :
    Inv unset s' ∧ s.seen ⊆ s'.seen ∧ (found = true ↔ ∃ n ∈ l, Below g unset n) := by
  induction l generalizing s with
  | nil =>
      obtain ⟨rfl, rfl⟩ := Prod.mk.inj (Option.some.inj h)
      exact ⟨hs, Finset.Subset.refl _, by simp⟩
  | cons n l ih =>
      rw [VisitOrder.anyRoot] at h
      cases hn : f n s with
      | none => rw [hn] at h; cases h
      | some r =>
          obtain ⟨b, t⟩ := r
          have ht := hf n List.mem_cons_self s b t hs hn
          rw [hn] at h
          cases b with
          | true =>
              obtain ⟨rfl, rfl⟩ := Prod.mk.inj (Option.some.inj h)
              exact ⟨ht.inv, ht.mono, iff_of_true rfl ⟨n, List.mem_cons_self, ht.found_iff.mp rfl⟩⟩
          | false =>
              obtain ⟨hinv, hmono, hiff⟩ :=
                ih (fun m hm => hf m (List.mem_cons_of_mem _ hm)) ht.inv h
              refine ⟨hinv, ht.mono.trans hmono, hiff.trans ?_⟩
              have hnot : ¬ Below g unset n := fun hb => by cases ht.found_iff.mpr hb
              simp [hnot]

variable [DecidableEq ν] {v : VisitOrder g unset}

theorem mem_subnodes : m ∈ v.subnodes n ↔ Sub g n m := by
  simp only [VisitOrder.subnodes, List.mem_filter, List.mem_flatMap, List.mem_append,
    v.mem_peers, v.mem_steps, decide_eq_true_eq, Sub]
  constructor
  · rintro ⟨⟨peer, hpeer, (h | h) | h⟩, hm⟩
    · exact ⟨peer, hpeer, .assignment, h, hm⟩
    · exact ⟨peer, hpeer, .parentInstance, h, hm⟩
    · exact ⟨peer, hpeer, .childAttribute, h, hm⟩
  · rintro ⟨peer, hpeer, rule, h, hm⟩
    refine ⟨⟨peer, hpeer, ?_⟩, hm⟩
    cases rule
    · exact Or.inl (Or.inl h)
    · exact Or.inl (Or.inr h)
    · exact Or.inr h

/-- The state when the successors of an equivalence are done. -/
theorem Inv.finish (hu : Uniform g) (hs : Inv unset s) (hn : g.hasValue n = false)
    {roots ignoreRoots : Finset ν}
    (hignore : ∀ m, m ∈ ignoreRoots ↔
      m ∈ s.ignoreRoots ∨ m ∈ g.equivalence n ∧ ¬ Below g unset n)
    (hroots : ∀ m, m ∈ roots ↔ m ∈ s.roots ∨
      m ∈ g.equivalence n ∧ m ∈ unset.nodes ∧ ∀ c, Sub g n c → ¬ Below g unset c) :
    Inv unset ⟨roots, ignoreRoots, s.seen ∪ (g.equivalence n).toFinset⟩ := by
  have hmem : ∀ m, m ∈ s.seen ∪ (g.equivalence n).toFinset ↔ m ∈ s.seen ∨ m ∈ g.equivalence n :=
    fun m => by rw [Finset.mem_union, List.mem_toFinset]
  refine ⟨fun m hm c hc => ?_, fun m hm => ?_, fun m hm => ?_, fun m hm => ?_, fun m => ?_⟩
  · rw [hmem] at hm ⊢
    rcases hm with hm | hm
    · exact Or.inl (hs.closed m hm c hc)
    · rw [g.equivalence_eq n m hm] at hc
      exact Or.inr hc
  · rcases (hmem m).mp hm with hm | hm
    · exact hs.unvalued m hm
    · exact (hu n m hm).trans hn
  · rw [hignore]
    constructor
    · intro h
      obtain ⟨hold, hnew⟩ := not_or.mp h
      rcases (hmem m).mp hm with hm | hm
      · exact (hs.ignored m hm).mp hold
      · rw [below_congr hu hn hm]
        by_contra hb
        exact hnew ⟨hm, hb⟩
    · rintro hb (h | ⟨hm', hnot⟩)
      · exact (hs.ignored m (hs.ignored_seen m h)).mpr hb h
      · exact hnot ((below_congr hu hn hm').mp hb)
  · rcases (hignore m).mp hm with h | h
    · exact (hmem m).mpr (Or.inl (hs.ignored_seen m h))
    · exact (hmem m).mpr (Or.inr h.1)
  · rw [hroots, hs.roots, hmem]
    constructor
    · rintro (⟨hm, hset, hroot⟩ | ⟨hm, hset, hroot⟩)
      · exact ⟨Or.inl hm, hset, hroot⟩
      · exact ⟨Or.inr hm, hset, fun c hc => hroot c ((sub_congr hm).mp hc)⟩
    · rintro ⟨hm | hm, hset, hroot⟩
      · exact Or.inl ⟨hm, hset, hroot⟩
      · exact Or.inr ⟨hm, hset, fun c hc => hroot c ((sub_congr hm).mpr hc)⟩

/-- Whatever a call returns is true, and so is what it adds. -/
theorem hasRoot_found (hu : Uniform g) (depth : ℕ) : ∀ (n : ν) (s : State ν) (found : Bool)
    (s' : State ν), Inv unset s → v.hasRoot depth n s = some (found, s') →
      Found unset n s found s' := by
  induction depth with
  | zero => exact fun _ _ _ _ _ h => by cases h
  | succ depth ih =>
      intro n s found s' hs h
      rw [VisitOrder.hasRoot] at h
      split at h
      · next hseen =>
          obtain ⟨rfl, rfl⟩ := Prod.mk.inj (Option.some.inj h)
          exact ⟨hs, Finset.Subset.refl _, by rw [decide_eq_true_eq, hs.ignored n hseen],
            fun _ => hseen⟩
      next hseen =>
      split at h
      · next hvalue =>
          obtain ⟨rfl, rfl⟩ := Prod.mk.inj (Option.some.inj h)
          refine ⟨hs, Finset.Subset.refl _, iff_of_false (fun h => by cases h) (fun hb => ?_),
            fun hno => ?_⟩
          · rw [hb.unvalued] at hvalue
            cases hvalue
          · rw [hno] at hvalue
            cases hvalue
      next hvalue =>
      have hn : g.hasValue n = false := Bool.eq_false_iff.mpr hvalue
      cases hany : VisitOrder.anyRoot (v.hasRoot depth) (v.subnodes n) s with
      | none => rw [hany] at h; cases h
      | some r =>
          obtain ⟨b, t⟩ := r
          obtain ⟨ht, hmono, hb⟩ := anyRoot_found (fun m _ => ih m) hs hany
          have hb : b = true ↔ ∃ m, Sub g n m ∧ Below g unset m := by
            rw [hb]
            exact exists_congr fun m => and_congr_left fun _ => mem_subnodes
          rw [hany] at h
          have hself : n ∈ t.seen ∪ (g.equivalence n).toFinset :=
            Finset.mem_union_right _ (List.mem_toFinset.mpr (g.mem_equivalence n))
          have hsub : s.seen ⊆ t.seen ∪ (g.equivalence n).toFinset :=
            hmono.trans Finset.subset_union_left
          have hbelow : Below g unset n ↔ _ := below_iff hu hn
          dsimp only at h
          cases b with
          | true =>
              obtain ⟨rfl, rfl⟩ := Prod.mk.inj (Option.some.inj h)
              have hsubs := hb.mp rfl
              have hn' : Below g unset n := hbelow.mpr (Or.inr hsubs)
              refine ⟨ht.finish hu hn (fun m => ?_) (fun m => ?_), hsub, iff_of_true rfl hn',
                fun _ => hself⟩
              · exact (or_iff_left fun h => h.2 hn').symm
              · obtain ⟨c, hc, hcb⟩ := hsubs
                exact (or_iff_left fun h => h.2.2 c hc hcb).symm
          | false =>
              have hsubs : ∀ c, Sub g n c → ¬ Below g unset c := fun c hc hcb => by
                cases hb.mpr ⟨c, hc, hcb⟩
              rw [if_neg (by decide)] at h
              have hset : ∀ m, m ∈ unset.nodes.toFinset ∩ (g.equivalence n).toFinset ↔
                  m ∈ g.equivalence n ∧ m ∈ unset.nodes := fun m => by
                rw [Finset.mem_inter, List.mem_toFinset, List.mem_toFinset, and_comm]
              split at h
              · next hempty =>
                  obtain ⟨rfl, rfl⟩ := Prod.mk.inj (Option.some.inj h)
                  have hnone : ∀ m ∈ g.equivalence n, m ∉ unset.nodes := fun m hm hmu =>
                    Finset.eq_empty_iff_forall_notMem.mp hempty m ((hset m).mpr ⟨hm, hmu⟩)
                  have hn' : ¬ Below g unset n := by
                    rw [hbelow]
                    rintro (⟨c, hc, hmem⟩ | ⟨c, hc, hcb⟩)
                    · exact hnone c hmem hc
                    · exact hsubs c hc hcb
                  refine ⟨ht.finish hu hn (fun m => ?_) (fun m => ?_), hsub,
                    iff_of_false (fun h => by cases h) hn', fun _ => hself⟩
                  · rw [Finset.mem_union, List.mem_toFinset, and_iff_left hn']
                  · exact (or_iff_left fun h => hnone m h.1 h.2.1).symm
              · next hsome =>
                  obtain ⟨rfl, rfl⟩ := Prod.mk.inj (Option.some.inj h)
                  obtain ⟨c, hc⟩ := Finset.nonempty_iff_ne_empty.mpr hsome
                  obtain ⟨hc, hcu⟩ := (hset c).mp hc
                  have hn' : Below g unset n := hbelow.mpr (Or.inl ⟨c, hcu, hc⟩)
                  refine ⟨ht.finish hu hn (fun m => ?_) (fun m => ?_), hsub,
                    iff_of_true rfl hn', fun _ => hself⟩
                  · exact (or_iff_left fun h => h.2 hn').symm
                  · rw [Finset.mem_union, hset]
                    exact or_congr_right (and_congr_right fun _ => (and_iff_left hsubs).symm)

/-- What the loop leaves behind. -/
theorem loop_found (hu : Uniform g) {depth : ℕ} {l : List ν} (hl : ∀ n ∈ l, n ∈ unset.nodes)
    (hs : Inv unset s) (h : v.loop depth l s = some s') :
    Inv unset s' ∧ s.seen ⊆ s'.seen ∧ ∀ n ∈ l, n ∈ s'.seen := by
  induction l generalizing s with
  | nil =>
      obtain rfl := Option.some.inj h
      exact ⟨hs, Finset.Subset.refl _, fun n hn => by cases hn⟩
  | cons n l ih =>
      obtain ⟨hn, hl⟩ := List.forall_mem_cons.mp hl
      rw [VisitOrder.loop] at h
      cases hr : v.hasRoot depth n s with
      | none => rw [hr] at h; cases h
      | some r =>
          rw [hr] at h
          have ht := hasRoot_found hu depth n s r.1 r.2 hs hr
          obtain ⟨hinv, hmono, hseen⟩ := ih hl ht.inv h
          refine ⟨hinv, ht.mono.trans hmono, List.forall_mem_cons.mpr ⟨?_, hseen⟩⟩
          exact hmono (ht.seen (unset.unset n hn))

/-- The nodes that a finished search returns. -/
theorem rootCauses_found (hu : Uniform g) {depth : ℕ} {roots : Finset ν}
    (h : v.rootCauses depth = some roots) (n : ν) :
    n ∈ roots ↔ n ∈ unset.nodes ∧ ∀ m, Sub g n m → ¬ Below g unset m := by
  obtain ⟨s, hs, rfl⟩ := Option.map_eq_some_iff.mp h
  obtain ⟨hinv, -, hseen⟩ := loop_found hu (fun m hm => (v.mem_nodes m).mp hm) Inv.init hs
  rw [hinv.roots]
  exact ⟨fun h => h.2, fun h => ⟨hseen n ((v.mem_nodes n).mpr h.1), h⟩⟩

end Exactness

/-! ## When the search comes back -/

section Termination

variable {g : DataflowGraph ν} {unset : UnsetNodes g} {s s' : State ν} {n m d : ν} {k : ℕ}

/-- No cycle that the search can go around. -/
def NoTrap (g : DataflowGraph ν) (unset : UnsetNodes g) : Prop :=
  ∀ n ∈ unset.nodes, ∀ m, Relation.ReflTransGen (Visits g unset) n m →
    ¬ Relation.TransGen (Visits g unset) m m

theorem NoTrap.acc [Fintype ν] (h : NoTrap g unset) (hn : n ∈ unset.nodes) :
    Acc (fun m n => Visits g unset n m) n := by
  let r : ν → ν → Prop := fun a b =>
    Relation.ReflTransGen (Visits g unset) n a ∧ Visits g unset a b
  have hacyclic : Acyclic r := by
    intro a ha
    have hreach : Relation.ReflTransGen (Visits g unset) n a := by
      obtain ⟨b, hab, -⟩ := Relation.TransGen.head'_iff.mp ha
      exact hab.1
    exact h n hn a hreach (Relation.TransGen.mono (fun _ _ hab => hab.2) a a ha)
  have hwf := hacyclic.wellFounded Finset.univ.toList
    (fun a b _ => Finset.mem_toList.mpr (Finset.mem_univ a))
  have hall : ∀ a, Acc (fun m n => r n m) a → Relation.ReflTransGen (Visits g unset) n a →
      Acc (fun m n => Visits g unset n m) a := by
    intro a hacc
    induction hacc with
    | intro a _ ih =>
        exact fun hreach => ⟨a, fun b hb => ih b ⟨hreach, hb⟩ (hreach.tail hb)⟩
  exact hall n (hwf.apply n) .refl

variable [DecidableEq ν] {v : VisitOrder g unset}

/-- From every state the call comes back, with a stack of this depth. -/
def ComesBack (v : VisitOrder g unset) (n : ν) (k : ℕ) : Prop :=
  ∀ depth, k ≤ depth → ∀ s, Inv unset s → ∃ r, v.hasRoot depth n s = some r

theorem ComesBack.mono {k' : ℕ} (h : ComesBack v n k) (hk : k ≤ k') : ComesBack v n k' :=
  fun depth hdepth => h depth (hk.trans hdepth)

/-- One depth for all nodes of a list. -/
theorem exists_depth (l : List ν) : ∃ k, ∀ n ∈ l, (∃ k, ComesBack v n k) → ComesBack v n k := by
  induction l with
  | nil => exact ⟨0, fun n hn => by cases hn⟩
  | cons n l ih =>
      obtain ⟨k, hk⟩ := ih
      by_cases hn : ∃ k, ComesBack v n k
      · obtain ⟨k', hk'⟩ := hn
        refine ⟨max k k', List.forall_mem_cons.mpr ⟨fun _ => hk'.mono (le_max_right _ _), ?_⟩⟩
        exact fun m hm h => (hk m hm h).mono (le_max_left _ _)
      · exact ⟨k, List.forall_mem_cons.mpr ⟨fun h => absurd h hn, hk⟩⟩

/-- The loop over successors comes back if each of them does that it gets to. -/
theorem anyRoot_comesBack (hu : Uniform g) {l : List ν}
    (hl : ∀ pre d post, l = pre ++ d :: post → (∀ e ∈ pre, ¬ Below g unset e) → ComesBack v d k)
    {depth : ℕ} (hk : k ≤ depth) (hs : Inv unset s) :
    ∃ r, VisitOrder.anyRoot (v.hasRoot depth) l s = some r := by
  induction l generalizing s with
  | nil => exact ⟨_, rfl⟩
  | cons n l ih =>
      obtain ⟨r, hr⟩ := hl [] n l rfl (fun e he => by cases he) depth hk s hs
      obtain ⟨b, t⟩ := r
      have ht := hasRoot_found hu depth n s b t hs hr
      rw [VisitOrder.anyRoot, hr]
      cases b with
      | true => exact ⟨_, rfl⟩
      | false =>
          refine ih (fun pre d post heq hpre => ?_) ht.inv
          refine hl (n :: pre) d post (by rw [heq]; rfl) (List.forall_mem_cons.mpr ⟨?_, hpre⟩)
          exact fun hb => by cases ht.found_iff.mpr hb

theorem split_append {α : Type} {l l' pre post : List α} {d : α}
    (h : l ++ l' = pre ++ d :: post) :
    (∃ post', l = pre ++ d :: post') ∨ d ∈ l' ∧ ∀ e ∈ l, e ∈ pre := by
  rcases List.append_eq_append_iff.mp h with ⟨a, rfl, ha⟩ | ⟨c, rfl, hc⟩
  · refine Or.inr ⟨?_, fun e he => List.mem_append_left _ he⟩
    rw [ha]
    exact List.mem_append_right _ List.mem_cons_self
  · cases c with
    | nil =>
        refine Or.inr ⟨?_, fun e he => by simpa using he⟩
        rw [← List.nil_append l', ← hc]
        exact List.mem_cons_self
    | cons x c =>
        obtain ⟨rfl, -⟩ := List.cons.inj hc
        exact Or.inl ⟨c, rfl⟩

theorem split_flatMap {α β : Type} {f : α → List β} {l : List α} {pre post : List β} {d : β}
    (h : l.flatMap f = pre ++ d :: post) :
    ∃ x ∈ l, ∃ pre' post', f x = pre' ++ d :: post' ∧ ∀ e ∈ pre', e ∈ pre := by
  induction l generalizing pre with
  | nil => simp at h
  | cons x l ih =>
      rw [List.flatMap_cons] at h
      rcases List.append_eq_append_iff.mp h with ⟨a, rfl, ha⟩ | ⟨c, hx, hc⟩
      · obtain ⟨y, hy, pre', post', heq, hpre⟩ := ih ha
        exact ⟨y, List.mem_cons_of_mem _ hy, pre', post', heq,
          fun e he => List.mem_append_right _ (hpre e he)⟩
      · cases c with
        | nil =>
            have hrest : l.flatMap f = [] ++ d :: post := hc.symm
            obtain ⟨y, hy, pre', post', heq, hpre⟩ := ih hrest
            exact ⟨y, List.mem_cons_of_mem _ hy, pre', post', heq,
              fun e he => by cases hpre e he⟩
        | cons z c =>
            obtain ⟨rfl, -⟩ := List.cons.inj hc
            exact ⟨x, List.mem_cons_self, pre, c, hx, fun e he => he⟩

/-- The search comes to a successor only if no step before led to a root. -/
theorem visits_of_split (hn : g.hasValue n = false) (hd : g.hasValue d = false)
    {pre post : List ν} (h : v.subnodes n = pre ++ d :: post)
    (hpre : ∀ e ∈ pre, ¬ Below g unset e) : Visits g unset n d := by
  have hmem : d ∉ g.equivalence n := by
    have : d ∈ v.subnodes n := by
      rw [h]
      exact List.mem_append_right _ List.mem_cons_self
    obtain ⟨-, -, -, -, hmem⟩ := mem_subnodes.mp this
    exact hmem
  rw [VisitOrder.subnodes, List.filter_flatMap] at h
  obtain ⟨peer, hpeer, pre', post', heq, hpre'⟩ := split_flatMap h
  have hpeer : peer ∈ g.equivalence n := (v.mem_peers n peer).mp hpeer
  have hbelow : ∀ rule, (∀ e ∈ (v.steps rule peer).filter fun m => decide (m ∉ g.equivalence n),
      e ∈ pre') → ∀ e ∈ g.steps rule peer, e ∉ g.equivalence n → ¬ Below g unset e :=
    fun rule hall e he hout => hpre e (hpre' e (hall e (List.mem_filter.mpr
      ⟨(v.mem_steps rule peer e).mpr he, decide_eq_true hout⟩)))
  have hstep : ∀ rule, d ∈ (v.steps rule peer).filter (fun m => decide (m ∉ g.equivalence n)) →
      d ∈ g.steps rule peer := fun rule h => (v.mem_steps rule peer d).mp (List.mem_filter.mp h).1
  rw [List.filter_append, List.filter_append] at heq
  refine ⟨hn, hd, peer, hpeer, ?_⟩
  rcases split_append heq with ⟨post₁, hleft⟩ | ⟨hc, hboth⟩
  · rcases split_append hleft with ⟨post₂, ha⟩ | ⟨hb, hall⟩
    · refine ⟨.assignment, hstep _ ?_, hmem, fun rule' hrule => by cases hrule⟩
      rw [ha]
      exact List.mem_append_right _ List.mem_cons_self
    · refine ⟨.parentInstance, hstep _ hb, hmem, fun rule' hrule => ?_⟩
      obtain rfl := List.mem_singleton.mp hrule
      exact hbelow _ hall
  · refine ⟨.childAttribute, hstep _ hc, hmem, fun rule' hrule => ?_⟩
    rcases List.mem_cons.mp hrule with rfl | hrule
    · exact hbelow _ fun e he => hboth e (List.mem_append_left _ he)
    · obtain rfl := List.mem_singleton.mp hrule
      exact hbelow _ fun e he => hboth e (List.mem_append_right _ he)

theorem comesBack_of_value (hn : g.hasValue n = true) : ComesBack v n 1 := by
  intro depth hdepth s hs
  obtain ⟨depth, rfl⟩ : ∃ d, depth = d + 1 := ⟨depth - 1, by omega⟩
  rw [VisitOrder.hasRoot]
  split
  · exact ⟨_, rfl⟩
  · exact ⟨_, rfl⟩

/-- By induction towards the nodes that the search can come to. -/
theorem comesBack_of_acc (hu : Uniform g) (h : Acc (fun m n => Visits g unset n m) n) :
    ∃ k, ComesBack v n k := by
  induction h with
  | intro n _ ih =>
      by_cases hvalue : g.hasValue n = true
      · exact ⟨1, comesBack_of_value hvalue⟩
      have hn : g.hasValue n = false := Bool.eq_false_iff.mpr hvalue
      obtain ⟨k, hk⟩ := exists_depth (v := v) (v.subnodes n)
      refine ⟨k + 1, fun depth hdepth s hs => ?_⟩
      obtain ⟨depth, rfl⟩ : ∃ d, depth = d + 1 := ⟨depth - 1, by omega⟩
      have hback : ∃ r, VisitOrder.anyRoot (v.hasRoot depth) (v.subnodes n) s = some r := by
        refine anyRoot_comesBack hu (fun pre d post heq hpre => ?_)
          (Nat.le_of_succ_le_succ hdepth) hs
        refine hk d (by rw [heq]; exact List.mem_append_right _ List.mem_cons_self) ?_
        by_cases hd : g.hasValue d = true
        · exact ⟨1, comesBack_of_value hd⟩
        · exact ih d (visits_of_split hn (Bool.eq_false_iff.mpr hd) heq hpre)
      obtain ⟨⟨b, t⟩, hr⟩ := hback
      by_cases hseen : n ∈ s.seen
      · exact ⟨_, by rw [VisitOrder.hasRoot, if_pos hseen]⟩
      rw [VisitOrder.hasRoot, if_neg hseen, if_neg hvalue, hr]
      cases b with
      | true => exact ⟨_, rfl⟩
      | false =>
          dsimp only
          rw [if_neg (by decide)]
          split
          · exact ⟨_, rfl⟩
          · exact ⟨_, rfl⟩

theorem loop_comesBack (hu : Uniform g) {l : List ν} (hl : ∀ n ∈ l, ComesBack v n k) {depth : ℕ}
    (hk : k ≤ depth) (hs : Inv unset s) : ∃ s', v.loop depth l s = some s' := by
  induction l generalizing s with
  | nil => exact ⟨_, rfl⟩
  | cons n l ih =>
      obtain ⟨hn, hl⟩ := List.forall_mem_cons.mp hl
      obtain ⟨r, hr⟩ := hn depth hk s hs
      rw [VisitOrder.loop, hr]
      exact ih hl (hasRoot_found hu depth n s r.1 r.2 hs hr).inv

/-- The search comes back with the same roots from every depth that is deep enough. -/
theorem exists_returns [Fintype ν] (hu : Uniform g) (h : NoTrap g unset)
    (v : VisitOrder g unset) : ∃ roots, v.Returns roots := by
  obtain ⟨k, hk⟩ := exists_depth (v := v) v.nodes
  have hback : ∀ depth, k ≤ depth → ∃ roots, v.rootCauses depth = some roots := by
    intro depth hdepth
    obtain ⟨s, hs⟩ := loop_comesBack (s := ⟨∅, ∅, ∅⟩) hu
      (fun n hn => hk n hn (comesBack_of_acc hu (h.acc ((v.mem_nodes n).mp hn)))) hdepth Inv.init
    exact ⟨s.roots, by rw [VisitOrder.rootCauses, hs]; rfl⟩
  obtain ⟨roots, hroots⟩ := hback k le_rfl
  refine ⟨roots, k, fun depth hdepth => ?_⟩
  obtain ⟨roots', hroots'⟩ := hback depth hdepth
  rw [hroots']
  congr 1
  ext n
  rw [rootCauses_found hu hroots', rootCauses_found hu hroots]

end Termination

/-! ## When it does not -/

section Divergence

variable {g : DataflowGraph ν} {unset : UnsetNodes g} {s s' : State ν} {n m : ν}

/-- The search can get from the node to a cycle. -/
def Trapped (g : DataflowGraph ν) (unset : UnsetNodes g) (n : ν) : Prop :=
  ∃ m, Relation.ReflTransGen (Visits g unset) n m ∧ Relation.TransGen (Visits g unset) m m

theorem Trapped.exists_visits (h : Trapped g unset n) :
    ∃ m, Visits g unset n m ∧ Trapped g unset m := by
  obtain ⟨m, hpath, hcycle⟩ := h
  rcases Relation.ReflTransGen.cases_head hpath with rfl | ⟨d, hvisit, hrest⟩
  · obtain ⟨d, hvisit, hrest⟩ := Relation.TransGen.head'_iff.mp hcycle
    exact ⟨d, hvisit, n, hrest, hcycle⟩
  · exact ⟨d, hvisit, m, hrest, hcycle⟩

theorem Trapped.unvalued (h : Trapped g unset n) : g.hasValue n = false := by
  obtain ⟨m, hvisit, -⟩ := h.exists_visits
  exact hvisit.1

theorem visits_congr (hu : Uniform g) (hm : m ∈ g.equivalence n) {d : ν} :
    Visits g unset m d ↔ Visits g unset n d := by
  rw [Visits, Visits, g.equivalence_eq n m hm, hu n m hm]

theorem trapped_congr (hu : Uniform g) (hm : m ∈ g.equivalence n) :
    Trapped g unset m ↔ Trapped g unset n := by
  have hstep : ∀ a b, (∀ d, Visits g unset a d → Visits g unset b d) →
      Trapped g unset a → Trapped g unset b := by
    intro a b hab h
    obtain ⟨d, hvisit, c, hpath, hcycle⟩ := h.exists_visits
    exact ⟨c, Relation.ReflTransGen.head (hab d hvisit) hpath, hcycle⟩
  exact ⟨hstep m n fun d => (visits_congr hu hm).mp, hstep n m fun d => (visits_congr hu hm).mpr⟩

/-- No trapped node is marked as seen, and no call on one comes back. -/
def Stuck (f : ν → State ν → Option (Bool × State ν)) (unset : UnsetNodes g) : Prop :=
  ∀ n s found s', Inv unset s → (∀ m ∈ s.seen, ¬ Trapped g unset m) →
    f n s = some (found, s') → ¬ Trapped g unset n ∧ ∀ m ∈ s'.seen, ¬ Trapped g unset m

theorem anyRoot_stuck {f : ν → State ν → Option (Bool × State ν)} (hf : Stuck f unset)
    (hfound : ∀ n s found s', Inv unset s → f n s = some (found, s') → Found unset n s found s')
    {l : List ν} {found : Bool} (hs : Inv unset s) (hseen : ∀ m ∈ s.seen, ¬ Trapped g unset m)
    (h : VisitOrder.anyRoot f l s = some (found, s')) :
    (∀ m ∈ s'.seen, ¬ Trapped g unset m) ∧
      ∀ pre m post, l = pre ++ m :: post → (∀ e ∈ pre, ¬ Below g unset e) →
        ¬ Trapped g unset m := by
  induction l generalizing s with
  | nil =>
      obtain ⟨-, rfl⟩ := Prod.mk.inj (Option.some.inj h)
      exact ⟨hseen, fun pre m post heq => by simp at heq⟩
  | cons n l ih =>
      rw [VisitOrder.anyRoot] at h
      cases hn : f n s with
      | none => rw [hn] at h; cases h
      | some r =>
          obtain ⟨b, t⟩ := r
          obtain ⟨hfree, hseen'⟩ := hf n s b t hs hseen hn
          have ht := hfound n s b t hs hn
          rw [hn] at h
          cases b with
          | true =>
              obtain ⟨-, rfl⟩ := Prod.mk.inj (Option.some.inj h)
              refine ⟨hseen', fun pre m post heq hpre => ?_⟩
              cases pre with
              | nil => exact (List.cons.inj heq).1 ▸ hfree
              | cons e pre =>
                  have he := (List.cons.inj heq).1
                  exact absurd (ht.found_iff.mp rfl) (he ▸ hpre e List.mem_cons_self)
          | false =>
              obtain ⟨hseen'', hrest⟩ := ih ht.inv hseen' h
              refine ⟨hseen'', fun pre m post heq hpre => ?_⟩
              cases pre with
              | nil => exact (List.cons.inj heq).1 ▸ hfree
              | cons e pre =>
                  exact hrest pre m post (List.cons.inj heq).2
                    fun e he => hpre e (List.mem_cons_of_mem _ he)

/-- What is chosen for a trapped equivalence. -/
def Leads (g : DataflowGraph ν) (unset : UnsetNodes g) (l : List ν) (x : ν × ν) : Prop :=
  x.1 ∈ l ∧ Trapped g unset x.2 ∧ ∃ rule, x.2 ∈ g.steps rule x.1 ∧ x.2 ∉ l ∧
    ∀ rule' ∈ rule.before, ∀ d ∈ g.steps rule' x.1, d ∉ l → ¬ Below g unset d

theorem exists_leads (g : DataflowGraph ν) (unset : UnsetNodes g) :
    ∃ pick : List ν → Option (ν × ν), ∀ n, Trapped g unset n →
      ∃ x, pick (g.equivalence n) = some x ∧ Leads g unset (g.equivalence n) x := by
  have hall : ∀ l : List ν, ∃ y : Option (ν × ν), ∀ n, Trapped g unset n →
      g.equivalence n = l → ∃ x, y = some x ∧ Leads g unset l x := by
    intro l
    by_cases hex : ∃ n, Trapped g unset n ∧ g.equivalence n = l
    · obtain ⟨n, htrap, rfl⟩ := hex
      obtain ⟨m, ⟨-, -, peer, hpeer, rule, hstep, hout, hbefore⟩, hm⟩ := htrap.exists_visits
      exact ⟨some (peer, m), fun _ _ _ =>
        ⟨(peer, m), rfl, hpeer, hm, rule, hstep, hout, hbefore⟩⟩
    · exact ⟨none, fun n htrap heq => absurd ⟨n, htrap, heq⟩ hex⟩
  choose pick hpick using hall
  exact ⟨pick, fun n htrap => hpick _ n htrap rfl⟩

variable [DecidableEq ν] {v : VisitOrder g unset}

/-- In this order the search goes to the cycle before it finds a root. -/
def GoesFirst (v : VisitOrder g unset) : Prop :=
  ∀ n, Trapped g unset n → ∃ pre m post, v.subnodes n = pre ++ m :: post ∧
    Trapped g unset m ∧ ∀ e ∈ pre, ¬ Below g unset e

theorem hasRoot_stuck (hu : Uniform g) (hv : GoesFirst v) (depth : ℕ) :
    Stuck (v.hasRoot depth) unset := by
  induction depth with
  | zero => exact fun _ _ _ _ _ _ h => by cases h
  | succ depth ih =>
      intro n s found s' hs hseen h
      rw [VisitOrder.hasRoot] at h
      split at h
      · next hmem =>
          obtain ⟨-, rfl⟩ := Prod.mk.inj (Option.some.inj h)
          exact ⟨hseen n hmem, hseen⟩
      split at h
      · next hvalue =>
          obtain ⟨-, rfl⟩ := Prod.mk.inj (Option.some.inj h)
          refine ⟨fun htrap => ?_, hseen⟩
          rw [htrap.unvalued] at hvalue
          cases hvalue
      cases hany : VisitOrder.anyRoot (v.hasRoot depth) (v.subnodes n) s with
      | none => rw [hany] at h; cases h
      | some r =>
          obtain ⟨b, t⟩ := r
          obtain ⟨hseen', hfree⟩ := anyRoot_stuck ih (hasRoot_found hu depth) hs hseen hany
          have hn : ¬ Trapped g unset n := fun htrap => by
            obtain ⟨pre, m, post, heq, hm, hpre⟩ := hv n htrap
            exact hfree pre m post heq hpre hm
          have hall : ∀ m ∈ t.seen ∪ (g.equivalence n).toFinset, ¬ Trapped g unset m := by
            intro m hm
            rcases Finset.mem_union.mp hm with hm | hm
            · exact hseen' m hm
            · exact fun htrap => hn ((trapped_congr hu (List.mem_toFinset.mp hm)).mp htrap)
          refine ⟨hn, ?_⟩
          rw [hany] at h
          dsimp only at h
          split at h
          · obtain ⟨-, rfl⟩ := Prod.mk.inj (Option.some.inj h)
            exact hall
          split at h
          · obtain ⟨-, rfl⟩ := Prod.mk.inj (Option.some.inj h)
            exact hall
          · obtain ⟨-, rfl⟩ := Prod.mk.inj (Option.some.inj h)
            exact hall

theorem loop_stuck (hu : Uniform g) (hv : GoesFirst v) {depth : ℕ} {l : List ν}
    (hs : Inv unset s) (hseen : ∀ m ∈ s.seen, ¬ Trapped g unset m)
    (h : v.loop depth l s = some s') : ∀ n ∈ l, ¬ Trapped g unset n := by
  induction l generalizing s with
  | nil => exact fun n hn => by cases hn
  | cons n l ih =>
      rw [VisitOrder.loop] at h
      cases hr : v.hasRoot depth n s with
      | none => rw [hr] at h; cases h
      | some r =>
          rw [hr] at h
          obtain ⟨hn, hseen'⟩ := hasRoot_stuck hu hv depth n s r.1 r.2 hs hseen hr
          exact List.forall_mem_cons.mpr
            ⟨hn, ih (hasRoot_found hu depth n s r.1 r.2 hs hr).inv hseen' h⟩

theorem noTrap_of_rootCauses (hu : Uniform g) (hv : GoesFirst v) {depth : ℕ} {roots : Finset ν}
    (h : v.rootCauses depth = some roots) : NoTrap g unset := by
  obtain ⟨s, hs, -⟩ := Option.map_eq_some_iff.mp h
  intro n hn m hpath hcycle
  exact loop_stuck hu hv Inv.init (fun m hm => by simp at hm) hs n ((v.mem_nodes n).mpr hn)
    ⟨m, hpath, hcycle⟩

/-- The list with an element brought to its front. -/
def front (x : Option ν) (l : List ν) : List ν :=
  match x with
  | some x => if x ∈ l then x :: l.erase x else l
  | none => l

theorem front_perm (x : Option ν) (l : List ν) : (front x l).Perm l := by
  unfold front
  split
  · split
    · next hx => exact (List.perm_cons_erase hx).symm
    · exact List.Perm.refl l
  · exact List.Perm.refl l

theorem front_some {x : ν} {l : List ν} (h : x ∈ l) : front (some x) l = x :: l.erase x :=
  if_pos h

/-- The order that takes a chosen node of an equivalence first, and a chosen successor
first in each of its steps. -/
def frontOrder (g : DataflowGraph ν) (unset : UnsetNodes g)
    (pick : List ν → Option (ν × ν)) : VisitOrder g unset where
  nodes := unset.nodes
  mem_nodes := fun _ => Iff.rfl
  peers := fun l => front ((pick l).map Prod.fst) l
  mem_peers := fun n _ => (front_perm _ (g.equivalence n)).mem_iff
  steps := fun rule n => front ((pick (g.equivalence n)).map Prod.snd) (g.steps rule n).dedup
  mem_steps := fun _ _ _ => (front_perm _ _).mem_iff.trans List.mem_dedup
  nodup_peers := fun n => (front_perm _ _).nodup_iff.mpr (g.nodup n)
  nodup_steps := fun _ _ => (front_perm _ _).nodup_iff.mpr (List.nodup_dedup _)

theorem filter_front {x : ν} {l : List ν} {p : ν → Bool} (hx : x ∈ l) (hp : p x = true) :
    ∃ rest, (front (some x) l).filter p = x :: rest := by
  rw [front_some hx, List.filter_cons, if_pos hp]
  exact ⟨_, rfl⟩

theorem exists_goesFirst (g : DataflowGraph ν) (unset : UnsetNodes g) :
    ∃ v : VisitOrder g unset, GoesFirst v := by
  obtain ⟨pick, hpick⟩ := exists_leads g unset
  refine ⟨frontOrder g unset pick, fun n htrap => ?_⟩
  obtain ⟨⟨peer, m⟩, hx, hpeer, hm, rule, hstep, hout, hbefore⟩ := hpick n htrap
  have hclass : g.equivalence peer = g.equivalence n := g.equivalence_eq n peer hpeer
  let p : ν → Bool := fun m => decide (m ∉ g.equivalence n)
  let f : Rule → List ν := fun rule => ((frontOrder g unset pick).steps rule peer).filter p
  have hpeers : (frontOrder g unset pick).peers (g.equivalence n)
      = peer :: (g.equivalence n).erase peer := by
    show front ((pick (g.equivalence n)).map Prod.fst) (g.equivalence n) = _
    rw [hx]
    exact front_some hpeer
  obtain ⟨tail, htail⟩ : ∃ tail, (frontOrder g unset pick).subnodes n =
      f .assignment ++ f .parentInstance ++ f .childAttribute ++ tail := by
    rw [VisitOrder.subnodes, hpeers, List.flatMap_cons, List.filter_append, List.filter_append,
      List.filter_append]
    exact ⟨_, rfl⟩
  obtain ⟨rest, hrest⟩ : ∃ rest, f rule = m :: rest := by
    show ∃ rest, (front ((pick (g.equivalence peer)).map Prod.snd)
      (g.steps rule peer).dedup).filter p = m :: rest
    rw [hclass, hx]
    exact filter_front (List.mem_dedup.mpr hstep) (decide_eq_true hout)
  have hpre : ∀ rule' ∈ rule.before, ∀ e ∈ f rule', ¬ Below g unset e := by
    intro rule' hrule e he
    obtain ⟨he, hp⟩ := List.mem_filter.mp he
    exact hbefore rule' hrule e (((frontOrder g unset pick).mem_steps rule' peer e).mp he)
      (of_decide_eq_true hp)
  cases rule with
  | assignment =>
      refine ⟨[], m, rest ++ f .parentInstance ++ f .childAttribute ++ tail, ?_, hm, by simp⟩
      rw [htail, hrest]
      simp
  | parentInstance =>
      refine ⟨f .assignment, m, rest ++ f .childAttribute ++ tail, ?_, hm,
        hpre .assignment List.mem_cons_self⟩
      rw [htail, hrest]
      simp
  | childAttribute =>
      refine ⟨f .assignment ++ f .parentInstance, m, rest ++ tail, ?_, hm, fun e he => ?_⟩
      · rw [htail, hrest]
        simp
      · rcases List.mem_append.mp he with he | he
        · exact hpre .assignment List.mem_cons_self e he
        · exact hpre .parentInstance (List.mem_cons_of_mem _ List.mem_cons_self) e he

end Divergence

/-! ## Exact root causes -/

section Main

variable [DecidableEq ν]

theorem returns_exact {g : DataflowGraph ν} {unset : UnsetNodes g} {v : VisitOrder g unset}
    (hu : Uniform g) (hcycles : NoCycles g) {roots : Finset ν} (h : v.Returns roots) (n : ν) :
    n ∈ roots ↔ IsRootCause g unset n := by
  obtain ⟨depth, hdepth⟩ := h
  rw [rootCauses_found hu (hdepth depth le_rfl)]
  constructor
  · rintro ⟨hn, hroot⟩
    exact (isRootCause_iff hu hcycles hn).mpr hroot
  · intro hroot
    exact ⟨hroot.1, (isRootCause_iff hu hcycles hroot.1).mp hroot⟩

end Main

/-- An attribute that is assigned another one, which is never assigned. -/
def assigned : DataflowGraph Bool where
  assignableAssignments
    | true => [⟨[false], none⟩]
    | false => []
  instanceAssignments := fun _ => []
  hasValue := fun _ => false
  equivalence := fun n => [n]
  mem_equivalence := fun _ => List.mem_cons_self
  equivalence_eq := fun _ _ h => by rw [List.mem_singleton.mp h]
  nodup := fun n => List.nodup_singleton n

def assignedUnset : UnsetNodes assigned := ⟨[true, false], fun _ _ => rfl⟩

theorem assigned_visits {n m : Bool} (h : Visits assigned assignedUnset n m) :
    n = true ∧ m = false := by
  obtain ⟨-, -, peer, hpeer, rule, hstep, -, -⟩ := h
  obtain rfl := List.mem_singleton.mp hpeer
  cases rule <;> cases peer <;> revert hstep <;> revert m <;> decide

/-- The variables `x` and `y` and the attributes of their instances. -/
inductive Var where
  | x
  | xOther
  | y
  | yOther
  deriving DecidableEq

/-- `x = A(other=y)` and `y = B(other=x)`, with an index on `other` for both. -/
def crossed : DataflowGraph Var where
  assignableAssignments
    | .xOther => [⟨[.y], none⟩]
    | .yOther => [⟨[.x], none⟩]
    | _ => []
  instanceAssignments
    | .x => [[.xOther]]
    | .y => [[.yOther]]
    | _ => []
  hasValue := fun _ => false
  equivalence := fun n => [n]
  mem_equivalence := fun _ => List.mem_cons_self
  equivalence_eq := fun _ _ h => by rw [List.mem_singleton.mp h]
  nodup := fun n => List.nodup_singleton n

def crossedUnset : UnsetNodes crossed := ⟨[.xOther, .yOther], fun _ _ => rfl⟩

theorem crossed_visits {n m : Var} (rule : Rule) (hstep : m ∈ crossed.steps rule n)
    (hne : m ≠ n) (hbefore : ∀ rule' ∈ rule.before, crossed.steps rule' n = []) :
    Visits crossed crossedUnset n m := by
  refine ⟨rfl, rfl, n, List.mem_cons_self, rule, hstep, fun h => hne (List.mem_singleton.mp h),
    fun rule' hrule d hd => ?_⟩
  rw [hbefore rule' hrule] at hd
  cases hd

end RootCause

end Inmanta
