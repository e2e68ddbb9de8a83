import Inmanta.Lib.Dict

/-!
# A many-to-many mapping with both directions

`BidirectionalManyMapping` keeps a primary dictionary and its reverse.
Both are updated by hand on every change, one edge at a time; that they
describe the same edges is the field `coupled`, so a mapping whose two
directions disagree cannot be built. In particular the `remove` of an
edge that was dropped from the primary side never misses.

Clients use the two views `get` and `getReverse` and their update laws;
`reverseMapping` is the coupled view from the other side.
-/

namespace Inmanta

/-! ## Updating the reverse direction -/

section Edges

variable {κ ν : Type} [DecidableEq κ] [DecidableEq ν]

/-- `reverse[v].add(key)`, with `reverse[v]` created if it is missing. -/
def addKey (key : κ) (reverse : Dict ν (List κ)) (v : ν) : Dict ν (List κ) :=
  reverse.set v ((reverse.getD v []).insert key)

/-- `reverse[v].remove(key)`. -/
def removeKey (key : κ) (reverse : Dict ν (List κ)) (v : ν) : Dict ν (List κ) :=
  reverse.set v (discard (reverse.getD v []) key)

theorem mem_foldl_addKey (key : κ) (vs : List ν) (reverse : Dict ν (List κ)) (k : κ) (v : ν) :
    k ∈ (vs.foldl (addKey key) reverse).getD v []
      ↔ k ∈ reverse.getD v [] ∨ (k = key ∧ v ∈ vs) := by
  induction vs generalizing reverse with
  | nil => simp
  | cons w vs ih =>
      rw [List.foldl_cons, ih, addKey, Dict.getD_set]
      by_cases h : v = w
      · subst h; simp; tauto
      · simp [h]

theorem mem_foldl_removeKey (key : κ) (vs : List ν) (reverse : Dict ν (List κ)) (k : κ)
    (v : ν) :
    k ∈ (vs.foldl (removeKey key) reverse).getD v []
      ↔ k ∈ reverse.getD v [] ∧ ¬ (k = key ∧ v ∈ vs) := by
  induction vs generalizing reverse with
  | nil => simp
  | cons w vs ih =>
      rw [List.foldl_cons, ih, removeKey, Dict.getD_set]
      by_cases h : v = w
      · subst h; simp; tauto
      · simp [h]

theorem mem_foldl_removeKey_keys (key : κ) (vs : List ν) (reverse : Dict ν (List κ)) (v : ν) :
    v ∈ vs.foldl (removeKey key) reverse ↔ v ∈ reverse ∨ v ∈ vs := by
  induction vs generalizing reverse with
  | nil => simp
  | cons w vs ih =>
      rw [List.foldl_cons, ih, removeKey, Dict.mem_set, List.mem_cons]
      tauto

/-- `_set`: store `values` under `key` on the primary side and update the
reverse side edge by edge. -/
def setBoth (primary : Dict κ (List ν)) (reverse : Dict ν (List κ)) (key : κ)
    (values : List ν) : Dict κ (List ν) × Dict ν (List κ) :=
  let current := primary.getD key []
  let new := values.removeAll current
  let missing := current.removeAll values
  (primary.set key values,
    missing.foldl (removeKey key) (new.foldl (addKey key) reverse))

/-- The two dictionaries describe the same edges. -/
def Coupled (primary : Dict κ (List ν)) (reverse : Dict ν (List κ)) : Prop :=
  ∀ k v, v ∈ primary.getD k [] ↔ k ∈ reverse.getD v []

theorem Coupled.symm {primary : Dict κ (List ν)} {reverse : Dict ν (List κ)}
    (h : Coupled primary reverse) : Coupled reverse primary :=
  fun v k => (h k v).symm

theorem Coupled.setBoth {primary : Dict κ (List ν)} {reverse : Dict ν (List κ)}
    (h : Coupled primary reverse) (key : κ) (values : List ν) :
    Coupled (setBoth primary reverse key values).1 (setBoth primary reverse key values).2 := by
  intro k v
  simp only [Inmanta.setBoth, Dict.getD_set, mem_foldl_removeKey, mem_foldl_addKey,
    mem_removeAll]
  rw [← h k v]
  by_cases hk : k = key
  · subst hk; simp only [if_true, true_and]; tauto
  · simp [hk]

theorem Coupled.del {primary : Dict κ (List ν)} {reverse : Dict ν (List κ)}
    (h : Coupled primary reverse) {key : κ} (hkey : primary.getD key [] = []) :
    Coupled (primary.del key) reverse := by
  intro k v
  rw [← h k v, Dict.getD_del]
  split
  · rename_i hk; rw [hk, hkey]
  · rfl

end Edges

/-! ## The mapping -/

structure BidirectionalManyMapping (κ ν : Type) [DecidableEq κ] [DecidableEq ν] where
  primary : Dict κ (List ν)
  reverse : Dict ν (List κ)
  coupled : Coupled primary reverse

namespace BidirectionalManyMapping

variable {κ ν : Type} [DecidableEq κ] [DecidableEq ν]

def empty : BidirectionalManyMapping κ ν := ⟨.empty, .empty, fun _ _ => by simp [Dict.getD]⟩

instance : Inhabited (BidirectionalManyMapping κ ν) := ⟨empty⟩

/-- `m.get(k, set())`. -/
def get (m : BidirectionalManyMapping κ ν) (k : κ) : List ν := m.primary.getD k []

/-- `m.get_reverse(v, set())`. -/
def getReverse (m : BidirectionalManyMapping κ ν) (v : ν) : List κ := m.reverse.getD v []

/-- `reverse_mapping()`: the coupled view from the other side. -/
def reverseMapping (m : BidirectionalManyMapping κ ν) : BidirectionalManyMapping ν κ :=
  ⟨m.reverse, m.primary, m.coupled.symm⟩

/-- `m[key] = values`. -/
def setItem (m : BidirectionalManyMapping κ ν) (key : κ) (values : List ν) :
    BidirectionalManyMapping κ ν :=
  ⟨_, _, m.coupled.setBoth key values⟩

/-- `m.set_reverse(key, values)`. -/
def setReverse (m : BidirectionalManyMapping κ ν) (key : ν) (values : List κ) :
    BidirectionalManyMapping κ ν :=
  (m.reverseMapping.setItem key values).reverseMapping

@[simp] theorem mem_reverseMapping_get {m : BidirectionalManyMapping κ ν} {k : κ} {v : ν} :
    k ∈ m.reverseMapping.get v ↔ v ∈ m.get k :=
  (m.coupled k v).symm

@[simp] theorem mem_getReverse {m : BidirectionalManyMapping κ ν} {k : κ} {v : ν} :
    k ∈ m.getReverse v ↔ v ∈ m.get k :=
  (m.coupled k v).symm

@[simp] theorem reverseMapping_primary (m : BidirectionalManyMapping κ ν) :
    m.reverseMapping.primary = m.reverse := rfl

@[simp] theorem get_empty (k : κ) : (empty : BidirectionalManyMapping κ ν).get k = [] := rfl

@[simp] theorem get_setItem (m : BidirectionalManyMapping κ ν) (key : κ) (values : List ν)
    (k : κ) : (m.setItem key values).get k = if k = key then values else m.get k :=
  Dict.getD_set ..

@[simp] theorem mem_setItem_primary {m : BidirectionalManyMapping κ ν} {key : κ}
    {values : List ν} {k : κ} : k ∈ (m.setItem key values).primary ↔ k = key ∨ k ∈ m.primary :=
  Dict.mem_set

theorem getD_setItem_nil (m : BidirectionalManyMapping κ ν) (key : κ) :
    (m.setItem key []).primary.getD key [] = [] := by
  have := get_setItem m key [] key
  rwa [if_pos rfl] at this

/-- `del m[key]`, a `KeyError` (here `none`) if the key is missing. -/
def delItem (m : BidirectionalManyMapping κ ν) (key : κ) :
    Option (BidirectionalManyMapping κ ν) :=
  if key ∈ m.primary then
    let trimmed := m.setItem key []
    some ⟨trimmed.primary.del key, trimmed.reverse, trimmed.coupled.del (m.getD_setItem_nil key)⟩
  else none

/-- `with suppress(KeyError): del m[key]`. -/
def delIfPresent (m : BidirectionalManyMapping κ ν) (key : κ) :
    BidirectionalManyMapping κ ν :=
  (m.delItem key).getD m

theorem get_of_not_mem {m : BidirectionalManyMapping κ ν} {k : κ} (h : k ∉ m.primary) :
    m.get k = [] :=
  Dict.getD_of_not_mem h []

theorem get_delItem {m m' : BidirectionalManyMapping κ ν} {key : κ}
    (h : m.delItem key = some m') (k : κ) :
    m'.get k = if k = key then [] else m.get k := by
  unfold delItem at h
  split at h
  · obtain rfl := Option.some.inj h
    show ((m.setItem key []).primary.del key).getD k [] = _
    rw [Dict.getD_del]
    have hset := m.get_setItem key [] k
    split
    · rfl
    · rename_i hk
      rwa [if_neg hk] at hset
  · cases h

/-- A deletion, possible or not, leaves the key without values and every
other key as it was. -/
@[simp] theorem get_delIfPresent (m : BidirectionalManyMapping κ ν) (key k : κ) :
    (m.delIfPresent key).get k = if k = key then [] else m.get k := by
  unfold delIfPresent
  cases h : m.delItem key with
  | some m' => exact get_delItem h k
  | none =>
      by_cases hk : k = key
      · have hkey : key ∉ m.primary := fun hm => by simp [delItem, hm] at h
        subst hk
        simp [get_of_not_mem hkey]
      · simp [hk]

@[simp] theorem mem_delIfPresent_primary {m : BidirectionalManyMapping κ ν} {key k : κ} :
    k ∈ (m.delIfPresent key).primary ↔ k ≠ key ∧ k ∈ m.primary := by
  unfold delIfPresent delItem
  by_cases hkey : key ∈ m.primary
  · simp only [hkey, if_true, Option.getD_some, Dict.mem_del, mem_setItem_primary]
    tauto
  · have : k ∈ m.primary → k ≠ key := fun h e => hkey (e ▸ h)
    simp only [hkey, if_false, Option.getD_none]
    tauto

/-- Deleting a value on the reverse side removes it from every key. -/
theorem mem_get_delReverse {m : BidirectionalManyMapping κ ν} {w : ν} {k : κ} {v : ν} :
    v ∈ (m.reverseMapping.delIfPresent w).reverseMapping.get k ↔ v ≠ w ∧ v ∈ m.get k := by
  rw [mem_reverseMapping_get, get_delIfPresent]
  by_cases hv : v = w <;> simp [hv]

/-- Deleting a value keeps every key, possibly without values. -/
theorem mem_delReverse_primary {m : BidirectionalManyMapping κ ν} {w : ν} {k : κ} :
    k ∈ (m.reverseMapping.delIfPresent w).reverseMapping.primary ↔ k ∈ m.primary := by
  rw [reverseMapping_primary, delIfPresent, delItem]
  split
  · show k ∈ (m.reverseMapping.setItem w []).reverse ↔ k ∈ m.primary
    have hcur : ∀ k ∈ m.reverseMapping.primary.getD w [], k ∈ m.primary := by
      intro k hk
      by_contra hn
      have hw : w ∈ m.primary.getD k [] := (m.coupled k w).mpr hk
      rw [Dict.getD_of_not_mem hn] at hw
      exact List.not_mem_nil hw
    simp only [setItem, setBoth, List.removeAll_nil, mem_foldl_removeKey_keys]
    constructor
    · rintro (hk | hk)
      · exact hk
      · exact hcur k hk
    · exact fun hk => Or.inl hk
  · rfl

end BidirectionalManyMapping

end Inmanta
