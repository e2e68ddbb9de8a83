import Inmanta.Lib.Dict
import Mathlib.Data.List.Chain
import Mathlib.Data.List.Sort
import Mathlib.Data.String.Basic
import Mathlib.Logic.Relation

/-!
# Depth-first sorting

`stable_depth_first` of `util/__init__.py`: a depth-first search with the path
to the node as an argument (`seen`) and one list of finished nodes (`out`).

What a search that succeeds does to the list is `Extends`, of one node and of
a list of nodes alike; `Ordered` is what the list keeps throughout. What a
search that fails reports is `Blames`: a chain of edges from the node that was
searched to one on its path, until the path has been left as far as that node,
and a cycle from then on.

`sort_entities` of the compiler has a traversal of its own, which takes the
entities as they come.
-/

namespace Inmanta

namespace StableDepthFirst

variable {α : Type}

/-! ## The search -/

structure CycleException (α : Type) where
  nodes : List α
  done : Bool
  deriving DecidableEq, Repr

def CycleException.new (node : α) : CycleException α := ⟨[node], false⟩

def CycleException.add [DecidableEq α] (self : CycleException α) (node : α) : CycleException α :=
  if self.done then self
  else if node ∉ self.nodes then { self with nodes := node :: self.nodes }
  else { self with done := true }

section

variable [DecidableEq α]

/-- The nodes with edges that are not on the path: there is one less in every nested search. -/
def unseen (edges : Dict α (List α)) (seen : List α) : List α :=
  edges.keys.filter (· ∉ seen)

theorem unseen_cons_lt {edges : Dict α (List α)} {node : α} {seen targets : List α}
    (hseen : node ∉ seen) (h : edges.get? node = some targets) :
    (unseen edges (node :: seen)).length < (unseen edges seen).length := by
  have hsub : unseen edges (node :: seen) = (unseen edges seen).filter (· ≠ node) := by
    rw [unseen, unseen, List.filter_filter]
    refine List.filter_congr fun x _ => ?_
    by_cases hx : x = node <;> simp [hx]
  have hmem : node ∈ unseen edges seen :=
    List.mem_filter.mpr ⟨Dict.mem_keys.mpr (Dict.mem_of_get? h), by simpa using hseen⟩
  rw [hsub]
  exact List.length_filter_lt_length_iff_exists.mpr ⟨node, hmem, by simp⟩

mutual

def dfs (edges : Dict α (List α)) (node : α) (seen out : List α) :
    Except (CycleException α) (List α) :=
  if node ∈ out then .ok out
  else if node ∈ seen then .error (.new node)
  else match _hget : edges.get? node with
    | none => .ok (out ++ [node])
    | some targets =>
        match dfsEach edges targets (node :: seen) out with
        | .ok out => .ok (out ++ [node])
        | .error e => .error (e.add node)
termination_by ((unseen edges seen).length, 0, 0)
decreasing_by exact Prod.Lex.left _ _ (unseen_cons_lt ‹_› ‹_›)

/-- The loop over a list of nodes: the edges of a node, and the nodes given. -/
def dfsEach (edges : Dict α (List α)) (nodes : List α) (seen out : List α) :
    Except (CycleException α) (List α) :=
  match nodes with
  | [] => .ok out
  | node :: nodes =>
      match dfs edges node seen out with
      | .ok out => dfsEach edges nodes seen out
      | .error e => .error e
termination_by ((unseen edges seen).length, 1, nodes.length)

end

end

/-- `sorted`. -/
def sorted [LinearOrder α] (l : List α) : List α :=
  l.insertionSort (· ≤ ·)

def stableDepthFirst [LinearOrder α] (nodes : List α) (edges : Dict α (List α)) :
    Except (CycleException α) (List α) :=
  dfsEach (edges.mapValues sorted) (sorted nodes) [] []

/-! ## What is said about it -/

section

variable [DecidableEq α]

def Edge (edges : Dict α (List α)) (x y : α) : Prop :=
  ∃ targets, edges.get? x = some targets ∧ y ∈ targets

/-- Every node once, and after all nodes that it has an edge to. -/
structure Ordered (edges : Dict α (List α)) (out : List α) : Prop where
  nodup : out.Nodup
  after : ∀ pre x post, out = pre ++ x :: post → ∀ y, Edge edges x y → y ∈ pre

/-- The nodes follow each other's edges, from the last back to the first as well. -/
structure IsCycle (edges : Dict α (List α)) (nodes : List α) : Prop where
  nodup : nodes.Nodup
  chain : nodes.IsChain (Edge edges)
  closes : ∃ first ∈ nodes.head?, ∃ last ∈ nodes.getLast?, Edge edges last first

variable {edges : Dict α (List α)} {seen out out' nodes : List α} {node x y : α}

/-! ## A search that succeeds -/

/-- A search from these nodes has added to the list what they reach, and nothing on the path. -/
structure Extends (edges : Dict α (List α)) (nodes seen out out' : List α) : Prop where
  ordered : Ordered edges out'
  pre : out <+: out'
  found : ∀ n ∈ nodes, n ∈ out'
  reached : ∀ x ∈ out', x ∈ out ∨ (∃ n ∈ nodes, Relation.ReflTransGen (Edge edges) n x) ∧ x ∉ seen

theorem Ordered.mem_of_edge (h : Ordered edges out) (hxy : Edge edges x y) (hx : x ∈ out) :
    y ∈ out := by
  obtain ⟨pre, post, rfl⟩ := List.append_of_mem hx
  exact List.mem_append_left _ (h.after pre x post rfl y hxy)

theorem Ordered.snoc (h : Ordered edges out) (hnode : node ∉ out)
    (hedges : ∀ y, Edge edges node y → y ∈ out) : Ordered edges (out ++ [node]) := by
  refine ⟨h.nodup.append (List.nodup_singleton node) ?_, ?_⟩
  · intro z hz hz'
    obtain rfl := List.mem_singleton.mp hz'
    exact hnode hz
  · intro pre x post hsplit y hxy
    rcases List.eq_nil_or_concat post with rfl | ⟨post', z, rfl⟩
    · obtain ⟨rfl, hlast⟩ := List.append_inj' hsplit rfl
      obtain rfl := List.singleton_inj.mp hlast
      exact hedges y hxy
    · rw [List.concat_eq_append, ← List.cons_append, ← List.append_assoc] at hsplit
      obtain ⟨hinit, -⟩ := List.append_inj' hsplit rfl
      exact h.after pre x post' hinit y hxy

theorem Extends.of_mem (h : Ordered edges out) (hnode : node ∈ out) :
    Extends edges [node] seen out out where
  ordered := h
  pre := List.prefix_rfl
  found := fun _ hn => List.mem_singleton.mp hn ▸ hnode
  reached := fun _ hx => Or.inl hx

theorem Extends.nil (h : Ordered edges out) : Extends edges [] seen out out where
  ordered := h
  pre := List.prefix_rfl
  found := fun _ hn => absurd hn List.not_mem_nil
  reached := fun _ hx => Or.inl hx

theorem Extends.leaf (h : Ordered edges out) (hout : node ∉ out) (hseen : node ∉ seen)
    (hget : edges.get? node = none) : Extends edges [node] seen out (out ++ [node]) where
  ordered := h.snoc hout fun y ⟨targets, htargets, _⟩ => by rw [hget] at htargets; cases htargets
  pre := List.prefix_append out [node]
  found := fun _ hn => List.mem_append_right _ hn
  reached := by
    intro x hx
    rcases List.mem_append.mp hx with hx | hx
    · exact Or.inl hx
    · obtain rfl := List.mem_singleton.mp hx
      exact Or.inr ⟨⟨x, List.mem_singleton_self x, Relation.ReflTransGen.refl⟩, hseen⟩

/-- A node is finished after the nodes that it has an edge to. -/
theorem Extends.finish {targets : List α} (hout : node ∉ out) (hseen : node ∉ seen)
    (hget : edges.get? node = some targets) (h : Extends edges targets (node :: seen) out out') :
    Extends edges [node] seen out (out' ++ [node]) where
  ordered := by
    refine h.ordered.snoc ?_ ?_
    · intro hmem
      rcases h.reached node hmem with hold | ⟨-, hnew⟩
      · exact hout hold
      · exact hnew List.mem_cons_self
    · rintro y ⟨targets', htargets', hy⟩
      obtain rfl := Option.some.inj (hget.symm.trans htargets')
      exact h.found y hy
  pre := h.pre.trans (List.prefix_append out' [node])
  found := fun _ hn => List.mem_append_right _ hn
  reached := by
    intro x hx
    rcases List.mem_append.mp hx with hx | hx
    · rcases h.reached x hx with hold | ⟨⟨n, hn, hreach⟩, hnew⟩
      · exact Or.inl hold
      · exact Or.inr ⟨⟨node, List.mem_singleton_self node, .head ⟨targets, hget, hn⟩ hreach⟩,
          fun hx => hnew (List.mem_cons_of_mem _ hx)⟩
    · obtain rfl := List.mem_singleton.mp hx
      exact Or.inr ⟨⟨x, List.mem_singleton_self x, Relation.ReflTransGen.refl⟩, hseen⟩

theorem Extends.cons {out'' : List α} (h : Extends edges [node] seen out out')
    (hs : Extends edges nodes seen out' out'') :
    Extends edges (node :: nodes) seen out out'' where
  ordered := hs.ordered
  pre := h.pre.trans hs.pre
  found := by
    intro n hn
    rcases List.mem_cons.mp hn with rfl | hn
    · exact hs.pre.subset (h.found n (List.mem_singleton_self n))
    · exact hs.found n hn
  reached := by
    intro x hx
    rcases hs.reached x hx with hx | ⟨⟨n, hn, hreach⟩, hnew⟩
    · rcases h.reached x hx with hold | ⟨⟨n, hn, hreach⟩, hnew⟩
      · exact Or.inl hold
      · exact Or.inr ⟨⟨n, List.mem_cons.mpr (Or.inl (List.mem_singleton.mp hn)), hreach⟩, hnew⟩
    · exact Or.inr ⟨⟨n, List.mem_cons_of_mem _ hn, hreach⟩, hnew⟩

mutual

theorem dfs_extends (node : α) (seen out : List α) {out' : List α} (hout : Ordered edges out)
    (h : dfs edges node seen out = .ok out') : Extends edges [node] seen out out' := by
  unfold dfs at h
  split at h
  · next hmem =>
      obtain rfl := Except.ok.inj h
      exact .of_mem hout hmem
  next hnew =>
  split at h
  · cases h
  next hseen =>
  split at h
  · next hget =>
      obtain rfl := Except.ok.inj h
      exact .leaf hout hnew hseen hget
  · next targets hget =>
      split at h
      · next out₁ hrec =>
          obtain rfl := Except.ok.inj h
          exact .finish hnew hseen hget (dfsEach_extends targets (node :: seen) out hout hrec)
      · cases h
termination_by ((unseen edges seen).length, 0, 0)
decreasing_by exact Prod.Lex.left _ _ (unseen_cons_lt ‹_› ‹_›)

theorem dfsEach_extends (nodes : List α) (seen out : List α) {out' : List α}
    (hout : Ordered edges out) (h : dfsEach edges nodes seen out = .ok out') :
    Extends edges nodes seen out out' := by
  unfold dfsEach at h
  cases nodes with
  | nil =>
      obtain rfl := Except.ok.inj h
      exact .nil hout
  | cons node nodes =>
      simp only at h
      split at h
      · next out₁ hrec =>
          have hfirst := dfs_extends node seen out hout hrec
          exact hfirst.cons (dfsEach_extends nodes seen out₁ hfirst.ordered h)
      · cases h
termination_by ((unseen edges seen).length, 1, nodes.length)

end

/-! ## A search that fails -/

/-- What the exception carries when it leaves the search from one of these nodes. -/
inductive Blames (edges : Dict α (List α)) (nodes seen : List α) :
    CycleException α → Prop
  | pending {first last : α} {chain : List α} (hfirst : first ∈ nodes)
      (hhead : (chain ++ [last]).head? = some first) (hlast : last ∈ seen)
      (hchain : (chain ++ [last]).IsChain (Edge edges)) (hnodup : (chain ++ [last]).Nodup)
      (hnew : ∀ x ∈ chain, x ∉ seen)
      (hreach : ∀ x ∈ chain ++ [last], Relation.ReflTransGen (Edge edges) first x) :
      Blames edges nodes seen ⟨chain ++ [last], false⟩
  | complete {first : α} {cycle : List α} (hfirst : first ∈ nodes) (hcycle : IsCycle edges cycle)
      (hreach : ∀ x ∈ cycle, Relation.ReflTransGen (Edge edges) first x) :
      Blames edges nodes seen ⟨cycle, true⟩

theorem Blames.mono {nodes' : List α} {e : CycleException α} (h : Blames edges nodes seen e)
    (hsub : ∀ x ∈ nodes, x ∈ nodes') : Blames edges nodes' seen e := by
  cases h with
  | pending hfirst hhead hlast hchain hnodup hnew hreach =>
      exact .pending (hsub _ hfirst) hhead hlast hchain hnodup hnew hreach
  | complete hfirst hcycle hreach => exact .complete (hsub _ hfirst) hcycle hreach

/-- The search meets a node of its path. -/
theorem Blames.new (hseen : node ∈ seen) : Blames edges [node] seen (.new node) := by
  refine @Blames.pending _ _ edges [node] seen node node [] (List.mem_singleton_self node) rfl
    hseen (.singleton node) (List.nodup_singleton node) (fun _ hx => absurd hx List.not_mem_nil) ?_
  intro x hx
  obtain rfl := List.mem_singleton.mp hx
  exact .refl

/-- The exception leaves the search from a node: it is put in front, unless it is the one that
was met again. -/
theorem Blames.add {targets : List α} {e : CycleException α} (hseen : node ∉ seen)
    (hget : edges.get? node = some targets) (h : Blames edges targets (node :: seen) e) :
    Blames edges [node] seen (e.add node) := by
  cases h with
  | complete hfirst hcycle hreach =>
      refine .complete (List.mem_singleton_self node) hcycle fun x hx => ?_
      exact .head ⟨targets, hget, hfirst⟩ (hreach x hx)
  | @pending first last chain hfirst hhead hlast hchain hnodup hnew hreach =>
      have hedge : Edge edges node first := ⟨targets, hget, hfirst⟩
      by_cases hnode : node ∈ chain ++ [last]
      · have hnl : node = last := by
          rcases List.mem_append.mp hnode with hmem | hmem
          · exact absurd List.mem_cons_self (hnew node hmem)
          · exact List.mem_singleton.mp hmem
        have hadd : CycleException.add ⟨chain ++ [last], false⟩ node
            = ⟨chain ++ [last], true⟩ := by
          simp [CycleException.add, hnode]
        rw [hadd]
        refine .complete (List.mem_singleton_self node)
          ⟨hnodup, hchain, first, hhead, last, List.getLast?_concat, hnl ▸ hedge⟩ fun x hx => ?_
        exact .head hedge (hreach x hx)
      · have hadd : CycleException.add ⟨chain ++ [last], false⟩ node
            = ⟨(node :: chain) ++ [last], false⟩ := by
          simp [CycleException.add, hnode]
        rw [hadd]
        refine .pending (List.mem_singleton_self node) rfl ?_ ?_ ?_ ?_ ?_
        · rcases List.mem_cons.mp hlast with rfl | hmem
          · exact absurd (List.mem_append_right _ (List.mem_singleton_self _)) hnode
          · exact hmem
        · rw [List.cons_append, List.isChain_cons]
          refine ⟨fun y hy => ?_, hchain⟩
          obtain rfl := Option.some.inj (hhead.symm.trans hy)
          exact hedge
        · exact List.nodup_cons.mpr ⟨hnode, hnodup⟩
        · intro x hx
          rcases List.mem_cons.mp hx with rfl | hx
          · exact hseen
          · exact fun hmem => hnew x hx (List.mem_cons_of_mem _ hmem)
        · intro x hx
          rcases List.mem_cons.mp hx with rfl | hx
          · exact .refl
          · exact .head hedge (hreach x hx)

mutual

theorem dfs_blames (node : α) (seen out : List α) {e : CycleException α}
    (h : dfs edges node seen out = .error e) : Blames edges [node] seen e := by
  unfold dfs at h
  split at h
  · cases h
  split at h
  · next hseen =>
      obtain rfl := Except.error.inj h
      exact .new hseen
  next hseen =>
  split at h
  · cases h
  · next targets hget =>
      split at h
      · cases h
      · next e' hrec =>
          obtain rfl := Except.error.inj h
          exact .add hseen hget (dfsEach_blames targets (node :: seen) out hrec)
termination_by ((unseen edges seen).length, 0, 0)
decreasing_by exact Prod.Lex.left _ _ (unseen_cons_lt ‹_› ‹_›)

theorem dfsEach_blames (nodes : List α) (seen out : List α) {e : CycleException α}
    (h : dfsEach edges nodes seen out = .error e) : Blames edges nodes seen e := by
  unfold dfsEach at h
  cases nodes with
  | nil => cases h
  | cons node nodes =>
      simp only at h
      split at h
      · next out₁ hrec =>
          exact (dfsEach_blames nodes seen out₁ h).mono fun x hx => List.mem_cons_of_mem _ hx
      · next e' hrec =>
          obtain rfl := Except.error.inj h
          refine (dfs_blames node seen out hrec).mono fun x hx => ?_
          exact List.mem_cons.mpr (Or.inl (List.mem_singleton.mp hx))
termination_by ((unseen edges seen).length, 1, nodes.length)

end

/-! ## Both together -/

/-- A cycle that a search from these nodes meets. -/
def CycleFrom (edges : Dict α (List α)) (nodes : List α) : Prop :=
  ∃ n ∈ nodes, ∃ x, Relation.ReflTransGen (Edge edges) n x ∧ Relation.TransGen (Edge edges) x x

theorem Ordered.mem_of_reach (h : Ordered edges out) (hxy : Relation.ReflTransGen (Edge edges) x y)
    (hx : x ∈ out) : y ∈ out := by
  induction hxy with
  | refl => exact hx
  | tail _ hedge ih => exact h.mem_of_edge hedge ih

theorem Ordered.not_transGen_self (h : Ordered edges out) (hx : x ∈ out) :
    ¬ Relation.TransGen (Edge edges) x x := by
  intro hcyc
  obtain ⟨pre, post, hsplit⟩ := List.append_of_mem hx
  -- whatever is reached from `x` stands before it
  have hbefore : ∀ y, Relation.TransGen (Edge edges) x y → y ∈ pre := by
    intro y hy
    induction hy with
    | single hedge => exact h.after pre x post hsplit _ hedge
    | @tail y z _ hedge ih =>
        obtain ⟨pre', post', hpre⟩ := List.append_of_mem ih
        have hz := h.after pre' y (post' ++ x :: post) (by rw [hsplit, hpre]; simp) z hedge
        rw [hpre]
        exact List.mem_append_left _ hz
  have hnodup := hsplit ▸ h.nodup
  exact (List.nodup_append.mp hnodup).2.2 x (hbefore x hcyc) x List.mem_cons_self rfl

theorem IsCycle.transGen (h : IsCycle edges nodes) :
    ∃ x ∈ nodes, Relation.TransGen (Edge edges) x x := by
  obtain ⟨first, hfirst, last, hlast, hclose⟩ := h.closes
  have hreach : Relation.ReflTransGen (Edge edges) first last := by
    cases nodes with
    | nil => cases hfirst
    | cons a l =>
        obtain rfl := Option.some.inj hfirst
        rw [List.getLast?_eq_some_getLast (List.cons_ne_nil a l)] at hlast
        obtain rfl := Option.some.inj hlast
        exact List.relationReflTransGen_of_exists_isChain_cons l h.chain rfl
  exact ⟨last, List.mem_of_getLast? hlast, .head' hclose hreach⟩

theorem dfsEach_error_iff :
    (∃ e, dfsEach edges nodes [] [] = .error e) ↔ CycleFrom edges nodes := by
  constructor
  · rintro ⟨e, h⟩
    cases dfsEach_blames nodes [] [] h with
    | pending _ _ hlast => cases hlast
    | @complete first cycle hfirst hcycle hreach =>
        obtain ⟨x, hx, hcyc⟩ := hcycle.transGen
        exact ⟨first, hfirst, x, hreach x hx, hcyc⟩
  · rintro ⟨n, hn, x, hreach, hcyc⟩
    cases hrun : dfsEach edges nodes [] [] with
    | error e => exact ⟨e, rfl⟩
    | ok out =>
        have hout : Ordered edges ([] : List α) :=
          ⟨List.nodup_nil, fun pre x post hsplit => by simp at hsplit⟩
        have hext := dfsEach_extends nodes [] [] hout hrun
        have hx := hext.ordered.mem_of_reach hreach (hext.found n hn)
        exact absurd hcyc (hext.ordered.not_transGen_self hx)

/-! ## The order of the lists -/

mutual

/-- The search reads the edges of single nodes. -/
theorem dfs_congr {edges' : Dict α (List α)} (hget : ∀ k, edges.get? k = edges'.get? k) (node : α)
    (seen out : List α) : dfs edges node seen out = dfs edges' node seen out := by
  unfold dfs
  split
  · rfl
  split
  · rfl
  next hseen =>
  cases htargets : edges.get? node with
  | none => rw [← hget, htargets]
  | some targets =>
      rw [← hget, htargets]
      simp only
      rw [dfsEach_congr hget targets (node :: seen) out]
termination_by ((unseen edges seen).length, 0, 0)
decreasing_by exact Prod.Lex.left _ _ (unseen_cons_lt ‹_› ‹_›)

theorem dfsEach_congr {edges' : Dict α (List α)} (hget : ∀ k, edges.get? k = edges'.get? k)
    (nodes : List α) (seen out : List α) :
    dfsEach edges nodes seen out = dfsEach edges' nodes seen out := by
  unfold dfsEach
  cases nodes with
  | nil => rfl
  | cons node nodes =>
      simp only
      rw [dfs_congr hget node seen out]
      split
      · exact dfsEach_congr hget nodes seen _
      · rfl
termination_by ((unseen edges seen).length, 1, nodes.length)

end

end

section

variable [LinearOrder α] {nodes nodes' : List α} {edges edges' : Dict α (List α)} {x y : α}

@[simp] theorem mem_sorted {l : List α} : x ∈ sorted l ↔ x ∈ l :=
  List.mem_insertionSort _

theorem sorted_congr {l l' : List α} (h : l.Perm l') : sorted l = sorted l' :=
  (((List.perm_insertionSort _ l).trans h).trans
    (List.perm_insertionSort _ l').symm).eq_of_sortedLE
    List.sortedLE_insertionSort List.sortedLE_insertionSort

theorem edge_sorted : Edge (edges.mapValues sorted) x y ↔ Edge edges x y := by
  rw [Edge, Edge, Dict.get?_mapValues]
  constructor
  · rintro ⟨targets, htargets, hy⟩
    obtain ⟨l, hl, rfl⟩ := Option.map_eq_some_iff.mp htargets
    exact ⟨l, hl, mem_sorted.mp hy⟩
  · rintro ⟨l, hl, hy⟩
    exact ⟨sorted l, by rw [hl]; rfl, mem_sorted.mpr hy⟩

theorem edge_sorted_eq : Edge (edges.mapValues sorted) = Edge edges := by
  funext x y
  exact propext edge_sorted

theorem stableDepthFirst_congr (hnodes : nodes.Perm nodes')
    (hedges : ∀ k, Option.Rel List.Perm (edges.get? k) (edges'.get? k)) :
    stableDepthFirst nodes edges = stableDepthFirst nodes' edges' := by
  rw [stableDepthFirst, stableDepthFirst, sorted_congr hnodes]
  refine dfsEach_congr (fun k => ?_) (sorted nodes') [] []
  rw [Dict.get?_mapValues, Dict.get?_mapValues]
  have hk := hedges k
  cases hl : edges.get? k with
  | none =>
      rw [hl] at hk
      cases hl' : edges'.get? k with
      | none => rfl
      | some l' =>
          rw [hl'] at hk
          cases hk
  | some l =>
      rw [hl] at hk
      cases hl' : edges'.get? k with
      | none =>
          rw [hl'] at hk
          cases hk
      | some l' =>
          rw [hl'] at hk
          cases hk with
          | some hperm => exact congrArg some (sorted_congr hperm)

/-- Nodes that are reached, each once and after what it has an edge to. -/
structure IsStableSort (nodes : List α) (edges : Dict α (List α)) (order : List α) : Prop where
  ordered : Ordered edges order
  complete : ∀ x, x ∈ order ↔ ∃ n ∈ nodes, Relation.ReflTransGen (Edge edges) n x

theorem stableDepthFirst_ok {order : List α} (h : stableDepthFirst nodes edges = .ok order) :
    IsStableSort nodes edges order := by
  have hout : Ordered (edges.mapValues sorted) ([] : List α) :=
    ⟨List.nodup_nil, fun pre x post hsplit => by simp at hsplit⟩
  have hext := dfsEach_extends (sorted nodes) [] [] hout h
  have hord : Ordered edges order :=
    ⟨hext.ordered.nodup, fun pre x post hsplit y hxy =>
      hext.ordered.after pre x post hsplit y (edge_sorted.mpr hxy)⟩
  refine ⟨hord, fun x => ⟨fun hx => ?_, ?_⟩⟩
  · rcases hext.reached x hx with hx | ⟨⟨n, hn, hreach⟩, -⟩
    · cases hx
    · rw [edge_sorted_eq] at hreach
      exact ⟨n, mem_sorted.mp hn, hreach⟩
  · rintro ⟨n, hn, hreach⟩
    exact hord.mem_of_reach hreach (hext.found n (mem_sorted.mpr hn))

theorem stableDepthFirst_error_iff :
    (∃ e, stableDepthFirst nodes edges = .error e) ↔ CycleFrom edges nodes := by
  rw [stableDepthFirst, dfsEach_error_iff, CycleFrom, CycleFrom, edge_sorted_eq]
  simp only [mem_sorted]

theorem stableDepthFirst_error {e : CycleException α}
    (h : stableDepthFirst nodes edges = .error e) : IsCycle edges e.nodes := by
  cases dfsEach_blames (sorted nodes) [] [] h with
  | pending _ _ hlast => cases hlast
  | complete _ hcycle =>
      obtain ⟨first, hfirst, last, hlast, hclose⟩ := hcycle.closes
      exact ⟨hcycle.nodup, hcycle.chain.imp fun _ _ => edge_sorted.mp, first, hfirst, last, hlast,
        edge_sorted.mp hclose⟩

/-- The nodes that are reached in an order that depends on the graph alone, or a cycle that is
reached. -/
theorem stableDepthFirst_spec (nodes : List α) (edges : Dict α (List α)) :
    (¬ CycleFrom edges nodes →
      ∃ order, stableDepthFirst nodes edges = .ok order ∧ IsStableSort nodes edges order) ∧
    ((∃ e, stableDepthFirst nodes edges = .error e) ↔ CycleFrom edges nodes) ∧
    (∀ e, stableDepthFirst nodes edges = .error e → IsCycle edges e.nodes) ∧
    ∀ (nodes' : List α) (edges' : Dict α (List α)), nodes.Perm nodes' →
      (∀ k, Option.Rel List.Perm (edges.get? k) (edges'.get? k)) →
      stableDepthFirst nodes' edges' = stableDepthFirst nodes edges := by
  refine ⟨fun hcyc => ?_, stableDepthFirst_error_iff, fun e => stableDepthFirst_error,
    fun nodes' edges' hnodes hedges => (stableDepthFirst_congr hnodes hedges).symm⟩
  cases hrun : stableDepthFirst nodes edges with
  | error e => exact absurd (stableDepthFirst_error_iff.mp ⟨e, hrun⟩) hcyc
  | ok order => exact ⟨order, rfl, stableDepthFirst_ok hrun⟩

end

/-! ## The entities of the compiler -/

/-- The exception of the compiler: the entities on the way up, until the one that was met. -/
structure EntityCycle where
  types : List String
  complete : Bool
  finalName : String
  deriving DecidableEq, Repr

def EntityCycle.add (self : EntityCycle) (element : String) : EntityCycle :=
  if self.complete then self
  else
    { self with
      complete := element == self.finalName
      types := self.types ++ [element] }

structure SortState where
  entityMap : Dict String (List String)
  acc : List String
  loopstack : List String

mutual

/-- An entity with the full names of its parents. Every entity that is worked on leaves the map,
so the recursion is no deeper than the map is large. -/
def doSortEntities : ℕ → String → SortState → Except EntityCycle SortState
  | 0, _, s => .ok s
  | depth + 1, name, s =>
      let parents := s.entityMap.getD name []
      let s := { s with entityMap := s.entityMap.del name, loopstack := s.loopstack.insert name }
      match sortParents depth parents s with
      | .ok s =>
          .ok { s with loopstack := discard s.loopstack name, acc := s.acc ++ [name] }
      | .error e => .error (e.add name)

def sortParents (depth : ℕ) : List String → SortState → Except EntityCycle SortState
  | [], s => .ok s
  | p :: parents, s =>
      if p ∈ s.loopstack then .error ⟨[], false, p⟩
      else if p ∈ s.entityMap then
        match doSortEntities depth p s with
        | .ok s => sortParents depth parents s
        | .error e => .error e
      else sortParents depth parents s

end

/-- The loop of `sort_entities`: always on with the first entity left. -/
def sortEntitiesFrom : ℕ → SortState → Except EntityCycle (List String)
  | 0, s => .ok s.acc
  | left + 1, s =>
      match s.entityMap.keys with
      | [] => .ok s.acc
      | workon :: _ =>
          match doSortEntities s.entityMap.keys.length workon s with
          | .ok s => sortEntitiesFrom left s
          | .error e => .error e

def sortEntities (entityMap : Dict String (List String)) : Except EntityCycle (List String) :=
  sortEntitiesFrom entityMap.keys.length ⟨entityMap, [], []⟩

/-- Two entities without parents: they are taken in the order of the map, which makes no
difference to `stableDepthFirst`. -/
theorem sortEntities_not_stable :
    ∃ entityMap entityMap' : Dict String (List String),
      sortEntities entityMap = .ok ["b", "a"] ∧ sortEntities entityMap' = .ok ["a", "b"] ∧
      stableDepthFirst entityMap.keys entityMap = stableDepthFirst entityMap'.keys entityMap' := by
  refine ⟨⟨[("b", []), ("a", [])], by decide⟩, ⟨[("a", []), ("b", [])], by decide⟩, ?_, ?_, ?_⟩
  · simp [sortEntities, sortEntitiesFrom, doSortEntities, sortParents, Dict.keys, Dict.getD,
      Dict.get?, Dict.del, discard]
  · simp [sortEntities, sortEntitiesFrom, doSortEntities, sortParents, Dict.keys, Dict.getD,
      Dict.get?, Dict.del, discard]
  · refine stableDepthFirst_congr (List.Perm.swap "a" "b" []) fun k => ?_
    simp only [Dict.get?, Dict.lookup_cons_ite]
    by_cases hb : k = "b"
    · subst hb
      simp
    · by_cases ha : k = "a" <;> simp [ha, hb]

end StableDepthFirst

end Inmanta
