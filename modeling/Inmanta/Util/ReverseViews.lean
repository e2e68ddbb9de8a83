import Inmanta.Util.BidirectionalManyMapping

/-!
# A mapping and its reverse views

A reverse view holds the two dictionaries of the mapping with their roles
swapped, and the view of a view is the mapping itself. No object ever gets
another dictionary, so all of them are two dictionaries and a side to look from.

The two directions are updated one edge at a time, and `set.remove` raises a
`KeyError` for an edge that is missing. It never does: the mapping with both
directions in step (`BidirectionalManyMapping`) is what the two dictionaries are
after every run (`run_setItem`, `run_delItem`, `run_setReverse`).
-/

namespace Inmanta

namespace ReverseViews

/-- A set, in the order in which it is gone through. -/
abbrev ElementSet (α : Type) := { l : List α // l.Nodup }

/-- The two dictionaries that an object holds. -/
structure Maps (κ ν : Type) where
  primary : Dict κ (List ν)
  reverse : Dict ν (List κ)

inductive MappingError where
  /-- The `KeyError` of `__delitem__`. -/
  | missingKey
  /-- The `KeyError` of `set.remove` or of the reverse dictionary. -/
  | missingEdge

inductive Operation (κ ν : Type) where
  | setItem (key : κ) (values : ElementSet ν)
  | delItem (key : κ)
  | setReverse (key : ν) (values : ElementSet κ)

/-- An operation on the mapping or on one of its views. -/
inductive Call (κ ν : Type) where
  | onMapping (op : Operation κ ν)
  | onView (op : Operation ν κ)

variable {κ ν : Type} [DecidableEq κ] [DecidableEq ν]

/-- `reverse[v].remove(key)` -/
def removeEdge (key : κ) (reverse : Dict ν (List κ)) (v : ν) :
    Except MappingError (Dict ν (List κ)) :=
  match reverse.get? v with
  | some keys =>
      if key ∈ keys then .ok (reverse.set v (discard keys key)) else .error .missingEdge
  | none => .error .missingEdge

namespace Maps

def empty : Maps κ ν := ⟨.empty, .empty⟩

/-- What a reverse view holds. -/
def view (m : Maps κ ν) : Maps ν κ := ⟨m.reverse, m.primary⟩

def get (m : Maps κ ν) (key : κ) : List ν := m.primary.getD key []

def getReverse (m : Maps κ ν) (key : ν) : List κ := m.reverse.getD key []

/-- `_set` -/
def set (m : Maps κ ν) (key : κ) (values : List ν) : Except MappingError (Maps κ ν) := do
  let current := m.primary.getD key []
  let new := values.removeAll current
  let missing := current.removeAll values
  let reverse ← missing.foldlM (removeEdge key) (new.foldl (addKey key) m.reverse)
  return ⟨m.primary.set key values, reverse⟩

def construct : Option (Dict κ (ElementSet ν)) → Except MappingError (Maps κ ν)
  | none => .ok empty
  | some mapping => mapping.items.foldlM (fun m item => m.set item.1 item.2) empty

end Maps

def Operation.run : Operation κ ν → Maps κ ν → Except MappingError (Maps κ ν)
  | setItem key values, m => m.set key values
  | delItem key, m =>
      if key ∈ m.primary then do
        let m' ← m.set key []
        return { m' with primary := m'.primary.del key }
      else .error .missingKey
  | setReverse key values, m => (m.view.set key values).map Maps.view

def Call.run : Call κ ν → Maps κ ν → Except MappingError (Maps κ ν)
  | onMapping op, m => op.run m
  | onView op, m => (op.run m.view).map Maps.view

/-- The calls one after the other. Whoever deletes a key that is missing may go on;
the other `KeyError` would leave the update half done. -/
def run : List (Call κ ν) → Maps κ ν → Except MappingError (Maps κ ν)
  | [], m => .ok m
  | call :: calls, m =>
      match call.run m with
      | .ok m' => run calls m'
      | .error .missingKey => run calls m
      | .error .missingEdge => .error .missingEdge

/-! ## No edge is missing -/

/-- Both directions have the same edges, each once. -/
structure Maps.InStep (m : Maps κ ν) : Prop where
  coupled : Coupled m.primary m.reverse
  primary_nodup : ∀ k, (m.get k).Nodup
  reverse_nodup : ∀ v, (m.getReverse v).Nodup

theorem Maps.InStep.view {m : Maps κ ν} (h : m.InStep) : m.view.InStep :=
  ⟨h.coupled.symm, h.reverse_nodup, h.primary_nodup⟩

theorem Maps.inStep_empty : (Maps.empty : Maps κ ν).InStep :=
  ⟨fun _ _ => by simp [Maps.empty, Dict.getD], fun _ => List.nodup_nil, fun _ => List.nodup_nil⟩

theorem removeEdge_eq {key : κ} {reverse : Dict ν (List κ)} {v : ν}
    (h : key ∈ reverse.getD v []) : removeEdge key reverse v = .ok (removeKey key reverse v) := by
  rw [removeEdge, removeKey]
  rw [Dict.getD] at h ⊢
  cases hget : reverse.get? v with
  | none =>
      rw [hget] at h
      cases h
  | some keys =>
      rw [hget] at h
      exact if_pos h

theorem foldlM_removeEdge {key : κ} {vs : List ν} (hvs : vs.Nodup) {reverse : Dict ν (List κ)}
    (h : ∀ v ∈ vs, key ∈ reverse.getD v []) :
    vs.foldlM (removeEdge key) reverse = .ok (vs.foldl (removeKey key) reverse) := by
  induction vs generalizing reverse with
  | nil => rfl
  | cons w vs ih =>
      obtain ⟨hw, hvs⟩ := List.nodup_cons.mp hvs
      rw [List.foldlM_cons, removeEdge_eq (h w List.mem_cons_self)]
      refine ih hvs fun v hv => ?_
      have hne : v ≠ w := fun heq => hw (heq ▸ hv)
      rw [removeKey, Dict.getD_set, if_neg hne]
      exact h v (List.mem_cons_of_mem w hv)

theorem nodup_foldl_addKey {key : κ} {vs : List ν} {reverse : Dict ν (List κ)}
    (h : ∀ v, (reverse.getD v []).Nodup) (v : ν) :
    ((vs.foldl (addKey key) reverse).getD v []).Nodup := by
  induction vs generalizing reverse with
  | nil => exact h v
  | cons w vs ih =>
      refine ih fun u => ?_
      rw [addKey, Dict.getD_set]
      split
      · exact (h w).insert
      · exact h u

theorem nodup_foldl_removeKey {key : κ} {vs : List ν} {reverse : Dict ν (List κ)}
    (h : ∀ v, (reverse.getD v []).Nodup) (v : ν) :
    ((vs.foldl (removeKey key) reverse).getD v []).Nodup := by
  induction vs generalizing reverse with
  | nil => exact h v
  | cons w vs ih =>
      refine ih fun u => ?_
      rw [removeKey, Dict.getD_set]
      split
      · exact (h w).filter _
      · exact h u

/-- An update is that of the mapping with both directions in step. -/
theorem Maps.InStep.set_eq {m : Maps κ ν} (h : m.InStep) (key : κ) (values : List ν) :
    m.set key values = .ok ⟨(setBoth m.primary m.reverse key values).1,
      (setBoth m.primary m.reverse key values).2⟩ := by
  have hmissing : ((m.primary.getD key []).removeAll values).Nodup :=
    (h.primary_nodup key).filter _
  rw [Maps.set, foldlM_removeEdge hmissing]
  · rfl
  · intro v hv
    rw [mem_removeAll] at hv
    exact (mem_foldl_addKey key _ m.reverse key v).mpr (.inl ((h.coupled key v).mp hv.1))

theorem Maps.InStep.setBoth {m : Maps κ ν} (h : m.InStep) (key : κ) (values : ElementSet ν) :
    (⟨(Inmanta.setBoth m.primary m.reverse key values.1).1,
      (Inmanta.setBoth m.primary m.reverse key values.1).2⟩ : Maps κ ν).InStep := by
  refine ⟨h.coupled.setBoth key values.1, fun k => ?_,
    nodup_foldl_removeKey (nodup_foldl_addKey h.reverse_nodup)⟩
  simp only [Inmanta.setBoth, Maps.get, Dict.getD_set]
  split
  · exact values.2
  · exact h.primary_nodup k

section Refines

variable {m : BidirectionalManyMapping κ ν}

/-- The dictionaries of a mapping. -/
def Maps.ofMapping (m : BidirectionalManyMapping κ ν) : Maps κ ν := ⟨m.primary, m.reverse⟩

theorem run_setItem (h : (Maps.ofMapping m).InStep) (key : κ) (values : ElementSet ν) :
    (Operation.setItem key values).run (Maps.ofMapping m) =
      .ok (Maps.ofMapping (m.setItem key values.1)) :=
  h.set_eq key values.1

theorem run_delItem (h : (Maps.ofMapping m).InStep) (key : κ) :
    (Operation.delItem key).run (Maps.ofMapping m) =
      match m.delItem key with
      | some m' => .ok (Maps.ofMapping m')
      | none => .error .missingKey := by
  rw [Operation.run, BidirectionalManyMapping.delItem]
  by_cases hkey : key ∈ m.primary
  · rw [if_pos hkey, if_pos (show key ∈ (Maps.ofMapping m).primary from hkey), h.set_eq]
    rfl
  · rw [if_neg hkey]
    exact if_neg hkey

theorem run_setReverse (h : (Maps.ofMapping m).InStep) (key : ν) (values : ElementSet κ) :
    (Operation.setReverse key values).run (Maps.ofMapping m) =
      .ok (Maps.ofMapping (m.setReverse key values.1)) := by
  rw [Operation.run, h.view.set_eq]
  rfl

end Refines

/-! ## Runs -/

/-- What an operation does to the pairs of the object it is called on. -/
def Operation.Right : Operation κ ν → Maps κ ν → Prop
  | setItem key values, m => ∃ m', (setItem key values).run m = .ok m' ∧ m'.InStep ∧
      ∀ k v, v ∈ m'.get k ↔ if k = key then v ∈ values.1 else v ∈ m.get k
  | delItem key, m =>
      if key ∈ m.primary then
        ∃ m', (delItem key).run m = .ok m' ∧ m'.InStep ∧ key ∉ m'.primary ∧
          ∀ k v, v ∈ m'.get k ↔ k ≠ key ∧ v ∈ m.get k
      else (delItem key).run m = .error .missingKey
  | setReverse key values, m => ∃ m', (setReverse key values).run m = .ok m' ∧ m'.InStep ∧
      ∀ k v, v ∈ m'.get k ↔ if v = key then k ∈ values.1 else v ∈ m.get k

def Call.Right : Call κ ν → Maps κ ν → Prop
  | onMapping op, m => op.Right m
  | onView op, m => op.Right m.view

section Steps

variable {m : Maps κ ν}

theorem Maps.InStep.mem_getReverse (h : m.InStep) {k : κ} {v : ν} :
    k ∈ m.getReverse v ↔ v ∈ m.get k :=
  (h.coupled k v).symm

theorem Maps.InStep.setItem (h : m.InStep) (key : κ) (values : ElementSet ν) :
    ∃ m', m.set key values.1 = .ok m' ∧ m'.InStep ∧ m'.primary = m.primary.set key values.1 ∧
      ∀ k v, v ∈ m'.get k ↔ if k = key then v ∈ values.1 else v ∈ m.get k := by
  refine ⟨_, h.set_eq key values.1, h.setBoth key values, rfl, fun k v => ?_⟩
  rw [Maps.get]
  simp only [Inmanta.setBoth, Dict.getD_set]
  split
  · exact Iff.rfl
  · exact Iff.rfl

theorem Maps.InStep.operation_right (h : m.InStep) (op : Operation κ ν) : op.Right m := by
  cases op with
  | setItem key values =>
      obtain ⟨m', hrun, hm', -, hget⟩ := h.setItem key values
      exact ⟨m', hrun, hm', hget⟩
  | delItem key =>
      rw [Operation.Right]
      split
      · next hkey =>
        obtain ⟨m', hrun, hm', hprimary, hget⟩ := h.setItem key ⟨[], List.nodup_nil⟩
        have hempty : m'.primary.getD key [] = [] := by
          refine List.eq_nil_iff_forall_not_mem.mpr fun v hv => ?_
          have hv' := (hget key v).mp hv
          rw [if_pos rfl] at hv'
          cases hv'
        have hdel (k : κ) :
            (m'.primary.del key).getD k [] = if k = key then [] else m'.primary.getD k [] := by
          rw [Dict.getD_del]
        refine ⟨⟨m'.primary.del key, m'.reverse⟩, ?_, ⟨hm'.coupled.del hempty, fun k => ?_,
          hm'.reverse_nodup⟩, ?_, fun k v => ?_⟩
        · rw [Operation.run, if_pos hkey, hrun]
          rfl
        · rw [Maps.get, hdel]
          split
          · exact List.nodup_nil
          · exact hm'.primary_nodup k
        · rw [Dict.mem_del]
          exact fun hmem => hmem.1 rfl
        · rw [Maps.get, hdel]
          split
          · next heq => exact iff_of_false List.not_mem_nil fun hv => hv.1 heq
          · next hne =>
            have hv := hget k v
            rw [if_neg hne] at hv
            exact hv.trans (and_iff_right hne).symm
      · next hkey => exact if_neg hkey
  | setReverse key values =>
      obtain ⟨m', hrun, hm', -, hget⟩ := h.view.setItem key values
      refine ⟨m'.view, by rw [Operation.run, hrun]; rfl, hm'.view, fun k v => ?_⟩
      refine hm'.mem_getReverse.trans ((hget v k).trans ?_)
      split
      · exact Iff.rfl
      · exact h.mem_getReverse

theorem Operation.Right.inStep {op : Operation κ ν} (h : op.Right m) :
    (∃ m', op.run m = .ok m' ∧ m'.InStep) ∨ op.run m = .error .missingKey := by
  cases op with
  | setItem key values =>
      obtain ⟨m', hrun, hm', -⟩ := h
      exact .inl ⟨m', hrun, hm'⟩
  | delItem key =>
      rw [Operation.Right] at h
      split at h
      · obtain ⟨m', hrun, hm', -⟩ := h
        exact .inl ⟨m', hrun, hm'⟩
      · exact .inr h
  | setReverse key values =>
      obtain ⟨m', hrun, hm', -⟩ := h
      exact .inl ⟨m', hrun, hm'⟩

theorem Maps.InStep.call_right (h : m.InStep) (call : Call κ ν) : call.Right m := by
  cases call with
  | onMapping op => exact h.operation_right op
  | onView op => exact h.view.operation_right op

theorem Call.Right.inStep {call : Call κ ν} (h : call.Right m) :
    (∃ m', call.run m = .ok m' ∧ m'.InStep) ∨ call.run m = .error .missingKey := by
  cases call with
  | onMapping op => exact Operation.Right.inStep h
  | onView op =>
      rcases Operation.Right.inStep h with ⟨m', hrun, hm'⟩ | hrun
      · exact .inl ⟨m'.view, by rw [Call.run, hrun]; rfl, hm'.view⟩
      · exact .inr (by rw [Call.run, hrun]; rfl)

theorem Maps.InStep.run (h : m.InStep) (calls : List (Call κ ν)) :
    ∃ m', ReverseViews.run calls m = .ok m' ∧ m'.InStep := by
  induction calls generalizing m with
  | nil => exact ⟨m, rfl, h⟩
  | cons call calls ih =>
      rw [ReverseViews.run]
      rcases (h.call_right call).inStep with ⟨m', hrun, hm'⟩ | hrun
      · rw [hrun]
        exact ih hm'
      · rw [hrun]
        exact ih h

end Steps

theorem construct_items {items : List (κ × ElementSet ν)} (hitems : (items.map Prod.fst).Nodup)
    {m : Maps κ ν} (h : m.InStep) :
    ∃ m', items.foldlM (fun m item => m.set item.1 item.2) m = .ok m' ∧ m'.InStep ∧
      ∀ k v, v ∈ m'.get k ↔ (∃ values, items.lookup k = some values ∧ v ∈ values.1) ∨
        (items.lookup k = none ∧ v ∈ m.get k) := by
  induction items generalizing m with
  | nil => exact ⟨m, rfl, h, fun k v => by simp⟩
  | cons item items ih =>
      obtain ⟨key, values⟩ := item
      obtain ⟨hkey, hitems⟩ := List.nodup_cons.mp hitems
      obtain ⟨m₁, hset, h₁, -, hget₁⟩ := h.setItem key values
      obtain ⟨m', hrun, hm', hget⟩ := ih hitems h₁
      refine ⟨m', by rw [List.foldlM_cons, hset]; exact hrun, hm', fun k v => ?_⟩
      rw [hget, hget₁, Dict.lookup_cons_ite]
      by_cases hk : k = key
      · subst hk
        have hnone : items.lookup k = none := by
          refine List.lookup_eq_none_iff.mpr fun item hitem => bne_iff_ne.mpr fun heq => hkey ?_
          exact List.mem_map.mpr ⟨item, hitem, heq.symm⟩
        simp [hnone]
      · simp [hk]

/-- The mapping that is constructed has the pairs of the argument. -/
theorem construct_ok (mapping : Option (Dict κ (ElementSet ν))) :
    ∃ m, Maps.construct mapping = .ok m ∧ m.InStep ∧ ∀ k v, v ∈ m.get k ↔
      ∃ values, mapping.bind (·.get? k) = some values ∧ v ∈ values.1 := by
  cases mapping with
  | none => exact ⟨.empty, rfl, Maps.inStep_empty, fun k v => by simp [Maps.empty, Maps.get,
      Dict.getD]⟩
  | some mapping =>
      obtain ⟨m, hrun, hm, hget⟩ := construct_items mapping.nodup Maps.inStep_empty
      refine ⟨m, hrun, hm, fun k v => (hget k v).trans (or_iff_left ?_)⟩
      rintro ⟨-, hv⟩
      cases hv

/-- Both directions stay in step, and every operation does what it says, on the
mapping and on its views. -/
theorem views_stay_coupled (mapping : Option (Dict κ (ElementSet ν)))
    (calls : List (Call κ ν)) :
    ∃ m₀ m, Maps.construct mapping = .ok m₀ ∧
      (∀ k v, v ∈ m₀.get k ↔
        ∃ values, mapping.bind (·.get? k) = some values ∧ v ∈ values.1) ∧
      run calls m₀ = .ok m ∧
      (∀ k v, v ∈ m.get k ↔ k ∈ m.getReverse v) ∧ ∀ call, Call.Right call m := by
  obtain ⟨m₀, hconstruct, h₀, hpairs⟩ := construct_ok mapping
  obtain ⟨m, hrun, hm⟩ := h₀.run calls
  exact ⟨m₀, m, hconstruct, hpairs, hrun, hm.coupled, hm.call_right⟩

end ReverseViews

end Inmanta
