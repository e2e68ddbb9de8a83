import Inmanta.Lib.Dict

/-!
# Dictionaries from lists

Storing under new keys appends, so a dictionary that is made from a list with
distinct keys has the items of the list, and one that is updated with other
keys has the items of both. `group` collects the values of a list by their
keys; it undoes writing each value of a list with its key
(`items_group_flatMap`), except that a key without values is lost.
-/

namespace Inmanta.Dict

variable {κ ν μ : Type} [DecidableEq κ]

/-! ## Items -/

theorem setItems_of_not_mem {l : List (κ × ν)} {k : κ} {v : ν} (h : k ∉ l.map Prod.fst) :
    setItems l k v = l ++ [(k, v)] := by
  induction l with
  | nil => rfl
  | cons x l ih =>
      obtain ⟨hx, hl⟩ := not_or.mp (mt List.mem_cons.mpr h)
      rw [setItems, if_neg (Ne.symm hx), ih hl, List.cons_append]

theorem setItems_concat {l : List (κ × ν)} {k : κ} {v v' : ν} (h : k ∉ l.map Prod.fst) :
    setItems (l ++ [(k, v)]) k v' = l ++ [(k, v')] := by
  rw [← setItems_of_not_mem h, setItems_setItems, setItems_of_not_mem h]

theorem items_foldl_set {l : List (κ × ν)} {d : Dict κ ν}
    (h : (d.items.map Prod.fst ++ l.map Prod.fst).Nodup) :
    (l.foldl (fun acc x => acc.set x.1 x.2) d).items = d.items ++ l := by
  induction l generalizing d with
  | nil => exact (List.append_nil _).symm
  | cons x l ih =>
      have hx : x.1 ∉ d.items.map Prod.fst := fun hmem =>
        (List.nodup_append.mp h).2.2 _ hmem _ (List.mem_cons_self ..) rfl
      have hitems : (d.set x.1 x.2).items = d.items ++ [x] := setItems_of_not_mem hx
      rw [List.foldl_cons, ih, hitems, List.append_assoc, List.singleton_append]
      rw [hitems, List.map_append, List.append_assoc]
      exact h

theorem items_ofList {l : List (κ × ν)} (h : (l.map Prod.fst).Nodup) : (ofList l).items = l :=
  items_foldl_set h

theorem items_update {d other : Dict κ ν}
    (h : ∀ k ∈ d.items.map Prod.fst, k ∉ other.items.map Prod.fst) :
    (d.update other).items = d.items ++ other.items :=
  items_foldl_set (List.nodup_append.mpr
    ⟨d.nodup, other.nodup, fun k hk _ hk' hkk => h k hk (hkk ▸ hk')⟩)

theorem lookup_map (l : List (κ × ν)) (f : ν → μ) (k : κ) :
    (l.map fun x => (x.1, f x.2)).lookup k = (l.lookup k).map f := by
  induction l with
  | nil => rfl
  | cons x l ih =>
      obtain ⟨k', v⟩ := x
      rw [List.map_cons, lookup_cons_ite, lookup_cons_ite, ih]
      split <;> rfl

theorem lookup_filter_key {l : List (κ × ν)} {p : κ → Bool} (k : κ) :
    (l.filter fun x => p x.1).lookup k = if p k then l.lookup k else none := by
  induction l with
  | nil => simp
  | cons x l ih =>
      obtain ⟨k', v⟩ := x
      rw [lookup_cons_ite, List.filter_cons]
      by_cases hk : k = k'
      · subst hk
        cases hp : p k with
        | true => simp
        | false => simp [ih, hp]
      · rw [if_neg hk, ← ih]
        split
        · rw [lookup_cons_ite, if_neg hk]
        · rfl

theorem lookup_map_keys {l : List κ} {f : κ → ν} (k : κ) :
    (l.map fun k => (k, f k)).lookup k = if k ∈ l then some (f k) else none := by
  induction l with
  | nil => rfl
  | cons k' l ih =>
      rw [List.map_cons, lookup_cons_ite, ih]
      by_cases hk : k = k'
      · subst hk
        simp
      · simp [hk]

theorem setItems_map_keys {l : List κ} (h : l.Nodup) {f : κ → ν} {k : κ} (hk : k ∈ l) (v : ν) :
    setItems (l.map fun k => (k, f k)) k v = l.map fun k' => (k', if k' = k then v else f k') := by
  induction l with
  | nil => exact absurd hk List.not_mem_nil
  | cons k' l ih =>
      obtain ⟨hnot, hl⟩ := List.nodup_cons.mp h
      rw [List.map_cons, List.map_cons, setItems]
      by_cases heq : k' = k
      · subst heq
        rw [if_pos rfl, if_pos rfl]
        refine congrArg _ (List.map_congr_left fun k'' hk'' => ?_)
        rw [if_neg fun (h : k'' = k') => hnot (h ▸ hk'')]
      · rw [if_neg heq, if_neg heq, ih hl ((List.mem_cons.mp hk).resolve_left (Ne.symm heq))]

omit [DecidableEq κ] in
/-- Only the item with the key contributes. -/
theorem flatMap_eq_of_mem {l : List (κ × ν)} (h : (l.map Prod.fst).Nodup) {f : κ × ν → List μ}
    {x : κ × ν} (hx : x ∈ l) (hf : ∀ y ∈ l, y.1 ≠ x.1 → f y = []) : l.flatMap f = f x := by
  induction l with
  | nil => exact absurd hx List.not_mem_nil
  | cons y l ih =>
      obtain ⟨hy, hl⟩ := List.nodup_cons.mp h
      obtain ⟨hfy, hrest⟩ := List.forall_mem_cons.mp hf
      rw [List.flatMap_cons]
      obtain rfl | hx := List.mem_cons.mp hx
      · have hnil : l.flatMap f = [] := List.flatMap_eq_nil_iff.mpr fun z hz =>
          hrest z hz fun hzx => hy (List.mem_map.mpr ⟨z, hz, hzx⟩)
        rw [hnil, List.append_nil]
      · have hne : y.1 ≠ x.1 := fun hyx => hy (hyx ▸ List.mem_map.mpr ⟨x, hx, rfl⟩)
        rw [hfy hne, List.nil_append, ih hl hx hrest]

/-! ## Grouping -/

/-- The values of each key. -/
def group (l : List (κ × ν)) : Dict κ (List ν) :=
  l.foldl (fun d x => d.set x.1 (d.getD x.1 [] ++ [x.2])) empty

theorem items_foldl_block {k : κ} {vs ws : List ν} {d : Dict κ (List ν)}
    {l : List (κ × List ν)} (hk : k ∉ l.map Prod.fst) (hd : d.items = l ++ [(k, ws)]) :
    ((vs.map (k, ·)).foldl (fun d x => d.set x.1 (d.getD x.1 [] ++ [x.2])) d).items
      = l ++ [(k, ws ++ vs)] := by
  induction vs generalizing d ws with
  | nil => rw [List.append_nil]; exact hd
  | cons v vs ih =>
      have hget : d.getD k [] = ws := getD_of_get? (get?_eq_some_iff.mpr (by simp [hd])) []
      have hset : (d.set k (d.getD k [] ++ [v])).items = l ++ [(k, ws ++ [v])] := by
        rw [hget]
        exact (congrArg (setItems · k (ws ++ [v])) hd).trans (setItems_concat hk)
      rw [List.map_cons, List.foldl_cons, ih hset, List.append_assoc, List.singleton_append]

/-- A list that is written value by value is collected again, without the keys
that have no value. -/
theorem items_group_flatMap {l : List (κ × List ν)} (h : (l.map Prod.fst).Nodup) :
    (group (l.flatMap fun x => x.2.map (x.1, ·))).items = l.filter (·.2 ≠ []) := by
  suffices hgen : ∀ d : Dict κ (List ν), (d.items.map Prod.fst ++ l.map Prod.fst).Nodup →
      ((l.flatMap fun x => x.2.map (x.1, ·)).foldl
        (fun d x => d.set x.1 (d.getD x.1 [] ++ [x.2])) d).items
        = d.items ++ l.filter (·.2 ≠ []) from hgen empty h
  clear h
  induction l with
  | nil => exact fun d _ => (List.append_nil _).symm
  | cons x l ih =>
      obtain ⟨k, vs⟩ := x
      intro d hd
      rw [List.flatMap_cons, List.foldl_append]
      have hk : k ∉ d.items.map Prod.fst := fun hmem =>
        (List.nodup_append.mp hd).2.2 _ hmem _ (List.mem_cons_self ..) rfl
      cases vs with
      | nil =>
          rw [List.map_nil, List.foldl_nil, List.filter_cons_of_neg (by simp)]
          refine ih d (hd.sublist ?_)
          exact (List.Sublist.refl _).append (List.sublist_cons_self ..)
      | cons v vs =>
          have hget : d.getD k [] = [] :=
            getD_of_not_mem (fun hmem => hk (mem_keys.mpr hmem)) []
          have hset : (d.set k (d.getD k [] ++ [v])).items = d.items ++ [(k, [v])] := by
            rw [hget]
            exact setItems_of_not_mem hk
          have hblock := @items_foldl_block κ ν _ k vs [v] _ d.items hk hset
          rw [List.map_cons, List.foldl_cons, ih, hblock, List.append_assoc,
            List.filter_cons_of_pos (by simp)]
          · rfl
          · rw [hblock, List.map_append, List.append_assoc]
            exact hd

end Inmanta.Dict
