import Mathlib.Data.List.Basic
import Mathlib.Data.List.Nodup

/-!
# Insertion-ordered dictionaries and list sets

The container layer of the development, independent of what is stored.

`Dict` is an association list whose keys are distinct *by construction*:
storing under a known key overwrites in place, storing under a new key
appends, so iteration follows insertion order. Everything downstream
reads a dictionary through `Dict.get?` and the two update laws
`get?_set` and `get?_del`; `get?_eq_some_iff` is the bridge to
iteration.

Sets are plain lists read through membership. The operations are those
of the list library (`insert`, `∪`, `∩`, `removeAll`) plus `discard`;
a loop over a set follows the list, so a statement about every list is
a statement about every iteration order.
-/

namespace Inmanta

/-! ## List sets -/

section ListSet

variable {α : Type} [DecidableEq α]

/-- Remove an element from a set, if it is there. -/
def discard (s : List α) (a : α) : List α :=
  s.filter (· ≠ a)

@[simp] theorem mem_discard {s : List α} {a b : α} :
    b ∈ discard s a ↔ b ∈ s ∧ b ≠ a := by
  simp [discard]

@[simp] theorem mem_removeAll {s t : List α} {a : α} :
    a ∈ s.removeAll t ↔ a ∈ s ∧ a ∉ t := by
  simp [List.removeAll]

theorem removeAll_eq_nil {s t : List α} :
    s.removeAll t = [] ↔ ∀ a ∈ s, a ∈ t := by
  simp [List.eq_nil_iff_forall_not_mem]

end ListSet

/-! ## Dictionaries -/

/-- An insertion-ordered map with distinct keys. -/
structure Dict (κ ν : Type) where
  items : List (κ × ν)
  nodup : (items.map Prod.fst).Nodup

namespace Dict

variable {κ ν : Type}

def empty : Dict κ ν := ⟨[], List.nodup_nil⟩

instance : Inhabited (Dict κ ν) := ⟨empty⟩

def keys (d : Dict κ ν) : List κ := d.items.map Prod.fst

def values (d : Dict κ ν) : List ν := d.items.map Prod.snd

/-- The values mapped, under the same keys. -/
def mapValues {μ : Type} (g : ν → μ) (d : Dict κ ν) : Dict κ μ :=
  ⟨d.items.map fun p => (p.1, g p.2), by
    rw [List.map_map]
    exact d.nodup⟩

variable [DecidableEq κ]

def get? (d : Dict κ ν) (k : κ) : Option ν := d.items.lookup k

def getD (d : Dict κ ν) (k : κ) (v : ν) : ν := (d.get? k).getD v

instance : Membership κ (Dict κ ν) := ⟨fun d k => (d.get? k).isSome⟩

instance (k : κ) (d : Dict κ ν) : Decidable (k ∈ d) :=
  inferInstanceAs (Decidable ((d.get? k).isSome = true))

/-- Overwrite in place, or append. -/
def setItems : List (κ × ν) → κ → ν → List (κ × ν)
  | [], k, v => [(k, v)]
  | (k', v') :: l, k, v =>
      if k' = k then (k, v) :: l else (k', v') :: setItems l k v

theorem setItems_keys (l : List (κ × ν)) (k : κ) (v : ν) :
    (setItems l k v).map Prod.fst
      = if k ∈ l.map Prod.fst then l.map Prod.fst else l.map Prod.fst ++ [k] := by
  induction l with
  | nil => simp [setItems]
  | cons p l ih =>
      obtain ⟨k', v'⟩ := p
      by_cases h : k' = k
      · subst h; simp [setItems]
      · have h' : k ≠ k' := fun hk => h hk.symm
        by_cases hm : k ∈ l.map Prod.fst
        · rw [if_pos hm] at ih
          simp only [setItems, if_neg h, List.map_cons, ih, List.mem_cons, hm, or_true,
            if_true]
        · rw [if_neg hm] at ih
          simp only [setItems, if_neg h, List.map_cons, ih, List.mem_cons, h', hm, or_self,
            if_false, List.cons_append]

theorem setItems_nodup {l : List (κ × ν)} (k : κ) (v : ν)
    (h : (l.map Prod.fst).Nodup) : ((setItems l k v).map Prod.fst).Nodup := by
  rw [setItems_keys]
  split
  · exact h
  · rename_i hk
    exact List.nodup_append.mpr ⟨h, List.nodup_singleton k, fun a ha b hb =>
      fun hab => hk (List.mem_singleton.mp hb ▸ hab ▸ ha)⟩

def set (d : Dict κ ν) (k : κ) (v : ν) : Dict κ ν :=
  ⟨setItems d.items k v, setItems_nodup k v d.nodup⟩

def del (d : Dict κ ν) (k : κ) : Dict κ ν :=
  ⟨d.items.filter (·.1 ≠ k), d.nodup.sublist ((List.filter_sublist).map Prod.fst)⟩

/-- `d.update(other)`: store every item of `other`, in order. -/
def update (d other : Dict κ ν) : Dict κ ν :=
  other.items.foldl (fun acc p => acc.set p.1 p.2) d

def ofList (l : List (κ × ν)) : Dict κ ν :=
  l.foldl (fun acc p => acc.set p.1 p.2) empty

/-! ## Lookup laws -/

@[simp] theorem get?_empty (k : κ) : (empty : Dict κ ν).get? k = none := rfl

theorem lookup_cons_ite [BEq κ] [LawfulBEq κ] (k : κ) (v : ν) (l : List (κ × ν)) (k' : κ) :
    ((k, v) :: l).lookup k' = if k' = k then some v else l.lookup k' := by
  by_cases h : k' = k
  · subst h; simp
  · rw [List.lookup_cons, beq_false_of_ne h, if_neg h]

theorem setItems_of_lookup [BEq κ] [LawfulBEq κ] {l : List (κ × ν)} {k : κ} {v : ν}
    (h : l.lookup k = some v) : setItems l k v = l := by
  induction l with
  | nil => cases h
  | cons p l ih =>
      obtain ⟨k', v'⟩ := p
      rw [lookup_cons_ite] at h
      rw [setItems]
      by_cases hk : k' = k
      · rw [if_pos hk.symm] at h
        obtain rfl := Option.some.inj h
        rw [if_pos hk, hk]
      · rw [if_neg (fun heq => hk heq.symm)] at h
        rw [if_neg hk, ih h]

/-- Storing what is there already. -/
theorem set_of_get? {d : Dict κ ν} {k : κ} {v : ν} (h : d.get? k = some v) : d.set k v = d := by
  obtain ⟨items, nodup⟩ := d
  simp only [set, mk.injEq]
  exact setItems_of_lookup h

theorem lookup_setItems [BEq κ] [LawfulBEq κ] (l : List (κ × ν)) (k : κ) (v : ν) (k' : κ) :
    (setItems l k v).lookup k' = if k' = k then some v else l.lookup k' := by
  induction l with
  | nil => by_cases h : k' = k <;> simp [setItems, h]
  | cons p l ih =>
      obtain ⟨k₀, v₀⟩ := p
      by_cases h₀ : k₀ = k
      · subst h₀
        by_cases h : k' = k₀ <;> simp [setItems, lookup_cons_ite, h]
      · by_cases h : k' = k₀
        · subst h; simp [setItems, h₀]
        · simp [setItems, lookup_cons_ite, h₀, h, ih]

@[simp] theorem get?_set (d : Dict κ ν) (k : κ) (v : ν) (k' : κ) :
    (d.set k v).get? k' = if k' = k then some v else d.get? k' :=
  lookup_setItems d.items k v k'

theorem setItems_setItems (l : List (κ × ν)) (k : κ) (v v' : ν) :
    setItems (setItems l k v) k v' = setItems l k v' := by
  induction l with
  | nil => simp [setItems]
  | cons p l ih => by_cases h : p.1 = k <;> simp [setItems, h, ih]

@[simp] theorem set_set (d : Dict κ ν) (k : κ) (v v' : ν) : (d.set k v).set k v' = d.set k v' := by
  simp [set, setItems_setItems]

theorem lookup_filter_ne [BEq κ] [LawfulBEq κ] (l : List (κ × ν)) (k k' : κ) :
    (l.filter (·.1 ≠ k)).lookup k' = if k' = k then none else l.lookup k' := by
  induction l with
  | nil => simp
  | cons p l ih =>
      obtain ⟨k₀, v₀⟩ := p
      by_cases h₀ : k₀ = k
      · subst h₀
        rw [List.filter_cons_of_neg (by simp), ih]
        by_cases h : k' = k₀ <;> simp [lookup_cons_ite, h]
      · rw [List.filter_cons_of_pos (by simpa using h₀), lookup_cons_ite, ih,
          lookup_cons_ite]
        by_cases h : k' = k₀
        · subst h; simp [h₀]
        · simp [h]

@[simp] theorem get?_del (d : Dict κ ν) (k k' : κ) :
    (d.del k).get? k' = if k' = k then none else d.get? k' :=
  lookup_filter_ne d.items k k'

theorem mem_iff {d : Dict κ ν} {k : κ} : k ∈ d ↔ ∃ v, d.get? k = some v :=
  Option.isSome_iff_exists

theorem not_mem_iff {d : Dict κ ν} {k : κ} : k ∉ d ↔ d.get? k = none := by
  rw [mem_iff]
  cases d.get? k <;> simp

theorem mem_of_get? {d : Dict κ ν} {k : κ} {v : ν} (h : d.get? k = some v) : k ∈ d :=
  mem_iff.mpr ⟨v, h⟩

@[simp] theorem not_mem_empty (k : κ) : k ∉ (empty : Dict κ ν) := by
  rw [not_mem_iff, get?_empty]

@[simp] theorem mem_set {d : Dict κ ν} {k k' : κ} {v : ν} :
    k' ∈ d.set k v ↔ k' = k ∨ k' ∈ d := by
  rw [mem_iff, mem_iff, get?_set]
  by_cases h : k' = k <;> simp [h]

@[simp] theorem mem_del {d : Dict κ ν} {k k' : κ} :
    k' ∈ d.del k ↔ k' ≠ k ∧ k' ∈ d := by
  rw [mem_iff, mem_iff, get?_del]
  by_cases h : k' = k <;> simp [h]

/-! ## Iteration -/

theorem lookup_eq_some_iff_mem {l : List (κ × ν)} (h : (l.map Prod.fst).Nodup)
    {k : κ} {v : ν} : l.lookup k = some v ↔ (k, v) ∈ l := by
  induction l with
  | nil => simp
  | cons p l ih =>
      obtain ⟨k₀, v₀⟩ := p
      rw [List.map_cons, List.nodup_cons] at h
      by_cases hk : k = k₀
      · subst hk
        have hnot : (k, v) ∉ l := fun hm => h.1 (List.mem_map.mpr ⟨(k, v), hm, rfl⟩)
        simp [hnot, eq_comm]
      · simp [lookup_cons_ite, hk, ih h.2]

theorem get?_eq_some_iff {d : Dict κ ν} {k : κ} {v : ν} :
    d.get? k = some v ↔ (k, v) ∈ d.items :=
  lookup_eq_some_iff_mem d.nodup

@[simp] theorem mem_keys {d : Dict κ ν} {k : κ} : k ∈ d.keys ↔ k ∈ d := by
  rw [mem_iff, keys, List.mem_map]
  constructor
  · rintro ⟨⟨k', v⟩, hm, rfl⟩
    exact ⟨v, get?_eq_some_iff.mpr hm⟩
  · rintro ⟨v, hv⟩
    exact ⟨(k, v), get?_eq_some_iff.mp hv, rfl⟩

theorem getD_of_get? {d : Dict κ ν} {k : κ} {v : ν} (h : d.get? k = some v) (v' : ν) :
    d.getD k v' = v := by
  simp [getD, h]

theorem getD_of_not_mem {d : Dict κ ν} {k : κ} (h : k ∉ d) (v : ν) : d.getD k v = v := by
  simp [getD, not_mem_iff.mp h]

theorem getD_set (d : Dict κ ν) (k : κ) (v : ν) (k' : κ) (v' : ν) :
    (d.set k v).getD k' v' = if k' = k then v else d.getD k' v' := by
  by_cases h : k' = k <;> simp [getD, h]

theorem getD_del (d : Dict κ ν) (k k' : κ) (v' : ν) :
    (d.del k).getD k' v' = if k' = k then v' else d.getD k' v' := by
  by_cases h : k' = k <;> simp [getD, h]

/-! ## Values and whole-dictionary operations -/

theorem mem_values {d : Dict κ ν} {v : ν} : v ∈ d.values ↔ ∃ k, d.get? k = some v := by
  rw [values, List.mem_map]
  constructor
  · rintro ⟨⟨k, v'⟩, hm, rfl⟩
    exact ⟨k, get?_eq_some_iff.mpr hm⟩
  · rintro ⟨k, hk⟩
    exact ⟨(k, v), get?_eq_some_iff.mp hk, rfl⟩

theorem get?_mapValues {μ : Type} (g : ν → μ) (d : Dict κ ν) (k : κ) :
    (d.mapValues g).get? k = (d.get? k).map g := by
  have h : ∀ l : List (κ × ν), (l.map fun p => (p.1, g p.2)).lookup k = (l.lookup k).map g := by
    intro l
    induction l with
    | nil => rfl
    | cons p l ih =>
        rw [List.map_cons, lookup_cons_ite, lookup_cons_ite]
        split
        · rfl
        · exact ih
  exact h d.items

/-- Keep the items that pass a check of their value. -/
def filterValues (d : Dict κ ν) (p : ν → Bool) : Dict κ ν :=
  ⟨d.items.filter fun item => p item.2, d.nodup.sublist ((List.filter_sublist).map Prod.fst)⟩

theorem get?_filterValues {d : Dict κ ν} {p : ν → Bool} {k : κ} {v : ν} :
    (d.filterValues p).get? k = some v ↔ d.get? k = some v ∧ p v = true := by
  rw [get?_eq_some_iff, get?_eq_some_iff, filterValues, List.mem_filter]

theorem get?_foldl_set {l : List (κ × ν)} {d : Dict κ ν} {k : κ} {v : ν}
    (h : (l.foldl (fun acc p => acc.set p.1 p.2) d).get? k = some v) :
    (k, v) ∈ l ∨ d.get? k = some v ∧ k ∉ l.map Prod.fst := by
  induction l generalizing d with
  | nil => exact Or.inr ⟨h, List.not_mem_nil⟩
  | cons p l ih =>
      obtain hmem | ⟨hd, hnot⟩ := ih h
      · exact Or.inl (List.mem_cons_of_mem _ hmem)
      · rw [get?_set] at hd
        split at hd
        · next hk =>
          obtain rfl := Option.some.inj hd
          exact Or.inl (hk ▸ List.mem_cons_self ..)
        · next hk => exact Or.inr ⟨hd, by simpa [hk] using hnot⟩

theorem mem_foldl_set {l : List (κ × ν)} {d : Dict κ ν} {k : κ} :
    k ∈ l.foldl (fun acc p => acc.set p.1 p.2) d ↔ k ∈ l.map Prod.fst ∨ k ∈ d := by
  induction l generalizing d with
  | nil => simp
  | cons p l ih =>
      rw [List.foldl_cons, ih, mem_set, List.map_cons, List.mem_cons]
      exact or_left_comm.trans or_assoc.symm

theorem get?_ofList {l : List (κ × ν)} {k : κ} {v : ν} (h : (ofList l).get? k = some v) :
    (k, v) ∈ l := by
  obtain hmem | ⟨hd, -⟩ := get?_foldl_set h
  · exact hmem
  · cases hd

theorem mem_ofList {l : List (κ × ν)} {k : κ} : k ∈ ofList l ↔ k ∈ l.map Prod.fst := by
  rw [ofList, mem_foldl_set]
  simp

theorem get?_update {d other : Dict κ ν} {k : κ} {v : ν}
    (h : (d.update other).get? k = some v) :
    other.get? k = some v ∨ d.get? k = some v ∧ k ∉ other := by
  obtain hmem | ⟨hd, hnot⟩ := get?_foldl_set h
  · exact Or.inl (get?_eq_some_iff.mpr hmem)
  · exact Or.inr ⟨hd, fun hk => hnot (mem_keys.mpr hk)⟩

theorem mem_update {d other : Dict κ ν} {k : κ} : k ∈ d.update other ↔ k ∈ other ∨ k ∈ d := by
  rw [update, mem_foldl_set]
  exact or_congr_left mem_keys

/-- The other dictionary takes precedence. -/
theorem get?_update_eq (d other : Dict κ ν) (k : κ) :
    (d.update other).get? k = (other.get? k).or (d.get? k) := by
  by_cases hk : k ∈ d.update other
  · obtain ⟨v, hv⟩ := mem_iff.mp hk
    rw [hv]
    rcases get?_update hv with ho | ⟨hd, hno⟩
    · rw [ho, Option.some_or]
    · rw [not_mem_iff.mp hno, Option.none_or, hd]
  · obtain ⟨ho, hd⟩ := not_or.mp (mt mem_update.mpr hk)
    rw [not_mem_iff.mp hk, not_mem_iff.mp ho, not_mem_iff.mp hd, Option.none_or]

end Dict

end Inmanta
