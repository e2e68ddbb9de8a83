import Mathlib.Data.List.Basic

/-!
# Replacing a text

`replaceAll old new s` is what `str.replace` does: the occurrences of a text are
replaced from left to right, and what was put in is not looked at again.
`countText` counts them. A text that does not overlap with itself can be cut out
wherever it occurs (`replaceAll_cut`).
-/

namespace Inmanta

variable {α : Type} [DecidableEq α]

/-- Replace all occurrences of a text that is not empty. -/
def replaceAll (old new : List α) : List α → List α
  | [] => []
  | c :: s =>
      if old <+: c :: s ∧ old ≠ [] then new ++ replaceAll old new ((c :: s).drop old.length)
      else c :: replaceAll old new s
termination_by s => s.length
decreasing_by
  · rename_i h
    have := List.length_pos_of_ne_nil h.2
    simp only [List.length_drop, List.length_cons]
    omega
  · simp

/-- How often a text occurs that is not empty. -/
def countText (old : List α) : List α → ℕ
  | [] => 0
  | c :: s =>
      if old <+: c :: s ∧ old ≠ [] then countText old ((c :: s).drop old.length) + 1
      else countText old s
termination_by s => s.length
decreasing_by
  · rename_i h
    have := List.length_pos_of_ne_nil h.2
    simp only [List.length_drop, List.length_cons]
    omega
  · simp

variable {old new s x y : List α}

@[simp] theorem replaceAll_nil : replaceAll old new [] = [] := by
  rw [replaceAll]

@[simp] theorem countText_nil : countText old [] = 0 := by
  rw [countText]

theorem replaceAll_append (h : old ≠ []) :
    replaceAll old new (old ++ s) = new ++ replaceAll old new s := by
  obtain ⟨c, old, rfl⟩ := List.exists_cons_of_ne_nil h
  rw [List.cons_append, replaceAll, if_pos ⟨⟨s, rfl⟩, h⟩, ← List.cons_append, List.drop_left]

theorem countText_append (h : old ≠ []) : countText old (old ++ s) = countText old s + 1 := by
  obtain ⟨c, old, rfl⟩ := List.exists_cons_of_ne_nil h
  rw [List.cons_append, countText, if_pos ⟨⟨s, rfl⟩, h⟩, ← List.cons_append, List.drop_left]

theorem replaceAll_skip {c : α} (h : ¬ old <+: c :: s) :
    replaceAll old new (c :: s) = c :: replaceAll old new s := by
  rw [replaceAll, if_neg fun hc => h hc.1]

theorem countText_skip {c : α} (h : ¬ old <+: c :: s) :
    countText old (c :: s) = countText old s := by
  rw [countText, if_neg fun hc => h hc.1]

/-- By the occurrence of a text at the start, or none. -/
theorem text_cases {motive : List α → Prop} (h : old ≠ []) (nil : motive [])
    (occurs : ∀ s, motive s → motive (old ++ s))
    (skip : ∀ c s, ¬ old <+: c :: s → motive s → motive (c :: s)) (s : List α) : motive s := by
  induction hn : s.length using Nat.strongRecOn generalizing s with
  | ind n ih =>
      cases s with
      | nil => exact nil
      | cons c s =>
          by_cases hc : old <+: c :: s
          · obtain ⟨t, ht⟩ := hc
            rw [← ht]
            refine occurs t (ih t.length ?_ t rfl)
            have hlength := congrArg List.length ht
            have hpos := List.length_pos_of_ne_nil h
            rw [List.length_append] at hlength
            omega
          · exact skip c s hc (ih s.length (hn ▸ Nat.lt_succ_self _) s rfl)

theorem length_replaceAll (h : old ≠ []) (s : List α) :
    (replaceAll old new s).length + countText old s * old.length
      = s.length + countText old s * new.length := by
  induction s using text_cases h with
  | nil => simp
  | occurs s ih =>
      rw [replaceAll_append h, countText_append h, List.length_append, List.length_append,
        Nat.succ_mul, Nat.succ_mul]
      omega
  | skip c s hc ih =>
      rw [replaceAll_skip hc, countText_skip hc, List.length_cons, List.length_cons]
      omega

theorem replaceAll_self (h : old ≠ []) (s : List α) : replaceAll old old s = s := by
  induction s using text_cases h with
  | nil => exact replaceAll_nil
  | occurs s ih => rw [replaceAll_append h, ih]
  | skip c s hc ih => rw [replaceAll_skip hc, ih]

theorem replaceAll_of_count (h : old ≠ []) (hs : countText old s = 0) :
    replaceAll old new s = s := by
  induction s using text_cases h with
  | nil => exact replaceAll_nil
  | occurs s ih =>
      rw [countText_append h] at hs
      cases hs
  | skip c s hc ih =>
      rw [countText_skip hc] at hs
      rw [replaceAll_skip hc, ih hs]

/-- A text is the same afterwards if there is nothing to replace. -/
theorem replaceAll_eq_self_iff (h : old ≠ []) :
    replaceAll old new s = s ↔ countText old s = 0 ∨ new = old := by
  constructor
  · intro hs
    by_contra hnot
    obtain ⟨hcount, hne⟩ := not_or.mp hnot
    have hlength := @length_replaceAll _ _ old new h s
    rw [hs] at hlength
    have hold : new.length = old.length :=
      Nat.eq_of_mul_eq_mul_left (Nat.pos_of_ne_zero hcount) (Nat.add_left_cancel hlength).symm
    induction s using text_cases h with
    | nil => exact hcount countText_nil
    | occurs s ih =>
        rw [replaceAll_append h] at hs
        exact hne (List.append_inj_left hs hold)
    | skip c s hc ih =>
        rw [replaceAll_skip hc] at hs
        rw [countText_skip hc] at hcount hlength hnot
        refine ih (List.cons.inj hs).2 hnot hcount ?_
        simp only [List.length_cons] at hlength
        omega
  · rintro (hs | rfl)
    · exact replaceAll_of_count h hs
    · exact replaceAll_self h s

/-- No end of the text is a start of it. -/
def Borderless (old : List α) : Prop :=
  ∀ u v, u ≠ [] → v ≠ [] → old = u ++ v → ¬ v <+: old

omit [DecidableEq α] in
/-- Nothing is found across the start of an occurrence. -/
theorem prefix_cut (hold : Borderless old) {c : α} (h : old <+: c :: x ++ (old ++ y)) :
    old <+: c :: x := by
  obtain ⟨t, ht⟩ := h
  rcases List.append_eq_append_iff.mp ht with ⟨u, hx, -⟩ | ⟨v, hv, hy⟩
  · exact ⟨u, hx.symm⟩
  · by_cases hne : v = []
    · subst hne
      rw [List.append_nil] at hv
      exact hv ▸ List.prefix_rfl
    · have hlt : v.length ≤ old.length := by
        have := congrArg List.length hv
        rw [List.length_append] at this
        omega
      refine absurd ?_ (hold (c :: x) v (List.cons_ne_nil c x) hne hv)
      exact List.prefix_of_prefix_length_le ⟨t, hy.symm⟩ (List.prefix_append old y) hlt

/-- A text that does not overlap with itself can be cut out where it occurs. -/
theorem replaceAll_cut (h : old ≠ []) (hold : Borderless old) (x y : List α) :
    replaceAll old new (x ++ (old ++ y)) = replaceAll old new x ++ (new ++ replaceAll old new y)
      ∧ countText old (x ++ (old ++ y)) = countText old x + (countText old y + 1) := by
  induction x using text_cases h with
  | nil => simp [replaceAll_append h, countText_append h]
  | occurs x ih =>
      rw [List.append_assoc, replaceAll_append h, countText_append h, replaceAll_append h,
        countText_append h, ih.1, ih.2, List.append_assoc]
      exact ⟨rfl, by omega⟩
  | skip c x hc ih =>
      have hc' : ¬ old <+: c :: (x ++ (old ++ y)) := fun hp => hc (prefix_cut hold hp)
      rw [List.cons_append, replaceAll_skip hc', countText_skip hc', replaceAll_skip hc,
        countText_skip hc, ih.1, ih.2]
      exact ⟨rfl, rfl⟩

end Inmanta
