import Mathlib.Data.List.Basic
import Mathlib.Order.WellFounded

/-!
# Loops with a fallible body

Two loop shapes, each with its induction packaged once.

- `drain` works off a stack: a step consumes the top element and pushes
  the elements it uncovers. It is bounded by fuel, since a step may push
  for ever; `drain_of_wf` is the termination argument (pushed elements
  are smaller) and `drain_invariant` the partial-correctness rule.
- `List.foldlM` over a list that is fixed beforehand: `foldlM_ok` carries
  an invariant indexed by the processed prefix and discharges the
  failure case at the same time. `foldl_induct` is its pure counterpart.
-/

namespace Inmanta

variable {ε α σ : Type}

/-! ## Sequencing -/

section Bind

variable {β : Type}

@[simp] theorem ok_bind (a : α) (f : α → Except ε β) : (Except.ok a >>= f) = f a := rfl

@[simp] theorem error_bind (e : ε) (f : α → Except ε β) : (Except.error e >>= f) = .error e :=
  rfl

@[simp] theorem pure_eq_ok (a : α) : (pure a : Except ε α) = .ok a := rfl

/-- A sequence completes if and only if both parts do. -/
theorem bind_eq_ok {x : Except ε α} {f : α → Except ε β} {b : β} :
    (x >>= f) = .ok b ↔ ∃ a, x = .ok a ∧ f a = .ok b := by
  cases x <;> simp

/-- A condition on the value of a computation, if it has one. -/
instance decidableForallOk (x : Except ε α) (p : α → Prop) [DecidablePred p] :
    Decidable (∀ a, x = .ok a → p a) :=
  match x with
  | .error _ => isTrue fun _ h => nomatch h
  | .ok a => decidable_of_iff (p a) ⟨fun h _ hb => Except.ok.inj hb ▸ h, fun h => h a rfl⟩

/-- A property of the result of a computation that can be evaluated. -/
theorem exists_ok_of_any {x : Except ε α} {p : α → Prop} [DecidablePred p]
    (h : x.toOption.any (fun a => decide (p a)) = true) : ∃ a, x = .ok a ∧ p a := by
  cases x with
  | error e => cases h
  | ok a => exact ⟨a, rfl, of_decide_eq_true h⟩

end Bind

/-! ## Working off a stack -/

/-- Work off a stack, top element first. `step a s` processes `a` in state
`s` and returns the elements it pushes; `stuck` is reported when the fuel
runs out before the stack is empty. -/
def drain (stuck : ε) (step : α → σ → Except ε (σ × List α)) :
    ℕ → List α → σ → Except ε σ
  | _, [], s => .ok s
  | 0, _ :: _, _ => .error stuck
  | n + 1, a :: w, s =>
      match step a s with
      | .error e => .error e
      | .ok (s', push) => drain stuck step n (push ++ w) s'

section Drain

variable {stuck : ε} {step : α → σ → Except ε (σ × List α)}

@[simp] theorem drain_nil (n : ℕ) (s : σ) : drain stuck step n [] s = .ok s := by
  cases n <;> rfl

theorem drain_cons_ok {n : ℕ} {a : α} {w push : List α} {s s' : σ}
    (h : step a s = .ok (s', push)) :
    drain stuck step (n + 1) (a :: w) s = drain stuck step n (push ++ w) s' := by
  rw [drain, h]

/-- A completed run consumed its top element by a successful step. -/
theorem drain_cons_inv {n : ℕ} {a : α} {w : List α} {s r : σ}
    (h : drain stuck step n (a :: w) s = .ok r) :
    ∃ m s' push, n = m + 1 ∧ step a s = .ok (s', push)
      ∧ drain stuck step m (push ++ w) s' = .ok r := by
  cases n with
  | zero => cases h
  | succ m =>
      rw [drain] at h
      cases hs : step a s with
      | error e => rw [hs] at h; cases h
      | ok p =>
          obtain ⟨s', push⟩ := p
          rw [hs] at h
          exact ⟨m, s', push, rfl, rfl, h⟩

/-- More fuel does not change a result. -/
theorem drain_mono {n m : ℕ} {w : List α} {s r : σ}
    (h : drain stuck step n w s = .ok r) (hnm : n ≤ m) :
    drain stuck step m w s = .ok r := by
  induction n generalizing m w s with
  | zero =>
      cases w with
      | nil => simpa using h
      | cons a w => cases h
  | succ n ih =>
      cases w with
      | nil => simpa using h
      | cons a w =>
          obtain ⟨k, s', push, hk, hs, hd⟩ := drain_cons_inv h
          obtain ⟨m', rfl⟩ : ∃ m', m = m' + 1 := ⟨m - 1, by omega⟩
          obtain rfl : k = n := by omega
          rw [drain_cons_ok hs]
          exact ih hd (by omega)

/-- The top part of a stack can be worked off first. -/
theorem drain_append {n m : ℕ} {w₁ w₂ : List α} {s s₁ r : σ}
    (h₁ : drain stuck step n w₁ s = .ok s₁) (h₂ : drain stuck step m w₂ s₁ = .ok r) :
    drain stuck step (n + m) (w₁ ++ w₂) s = .ok r := by
  induction n generalizing w₁ s with
  | zero =>
      cases w₁ with
      | nil => simp only [drain_nil, Except.ok.injEq] at h₁; subst h₁; simpa using h₂
      | cons a w => cases h₁
  | succ n ih =>
      cases w₁ with
      | nil =>
          simp only [drain_nil, Except.ok.injEq] at h₁
          subst h₁
          exact drain_mono h₂ (by omega)
      | cons a w =>
          obtain ⟨k, s', push, hk, hs, hd⟩ := drain_cons_inv h₁
          obtain rfl : k = n := by omega
          rw [show k + 1 + m = (k + m) + 1 by omega, List.cons_append, drain_cons_ok hs,
            ← List.append_assoc]
          exact ih hd

/-- Partial correctness: an invariant of state and stack that every
successful step keeps holds, with the empty stack, of the result. -/
theorem drain_invariant {I : σ → List α → Prop}
    (hstep : ∀ a w s s' push, I s (a :: w) → step a s = .ok (s', push) → I s' (push ++ w))
    {n : ℕ} {w : List α} {s r : σ} (h : drain stuck step n w s = .ok r) (hI : I s w) :
    I r [] := by
  induction n generalizing w s with
  | zero =>
      cases w with
      | nil => simp only [drain_nil, Except.ok.injEq] at h; exact h ▸ hI
      | cons a w => cases h
  | succ n ih =>
      cases w with
      | nil => simp only [drain_nil, Except.ok.injEq] at h; exact h ▸ hI
      | cons a w =>
          obtain ⟨k, s', push, hk, hs, hd⟩ := drain_cons_inv h
          obtain rfl : k = n := by omega
          exact ih hd (hstep a w s s' push hI hs)

variable (stuck) in
/-- Termination by a well-founded order on the elements: an element only
pushes smaller ones. -/
theorem drain_of_wf {r : α → α → Prop} (hr : WellFounded r) {I : σ → List α → Prop}
    (hstep : ∀ a w s, I s (a :: w) →
      ∃ s' push, step a s = .ok (s', push) ∧ I s' (push ++ w) ∧ ∀ b ∈ push, r b a)
    (w : List α) (s : σ) (hI : I s w) :
    ∃ n s', drain stuck step n w s = .ok s' ∧ I s' [] := by
  have hone : ∀ a w s, I s (a :: w) → ∃ n s', drain stuck step n [a] s = .ok s' ∧ I s' w := by
    intro a
    induction a using hr.induction with
    | _ a ih =>
      intro w s hI
      obtain ⟨s', push, hs, hI', hlt⟩ := hstep a w s hI
      -- the pushed elements are worked off one by one, each by the induction hypothesis
      have hpush : ∀ l : List α, (∀ b ∈ l, r b a) → ∀ t, I t (l ++ w) →
          ∃ n t', drain stuck step n l t = .ok t' ∧ I t' w := by
        intro l
        induction l with
        | nil => exact fun _ t ht => ⟨0, t, by simp, ht⟩
        | cons b l ihl =>
            intro hl t ht
            obtain ⟨n₁, t₁, h₁, ht₁⟩ := ih b (hl b (List.mem_cons_self ..)) (l ++ w) t ht
            obtain ⟨n₂, t₂, h₂, ht₂⟩ :=
              ihl (fun c hc => hl c (List.mem_cons_of_mem _ hc)) t₁ ht₁
            exact ⟨n₁ + n₂, t₂, drain_append h₁ h₂, ht₂⟩
      obtain ⟨n, t, hd, ht⟩ := hpush push hlt s' hI'
      exact ⟨n + 1, t, by rw [drain_cons_ok hs, List.append_nil]; exact hd, ht⟩
  induction w generalizing s with
  | nil => exact ⟨0, s, by simp, hI⟩
  | cons a w ih =>
      obtain ⟨n₁, s₁, h₁, hI₁⟩ := hone a w s hI
      obtain ⟨n₂, s₂, h₂, hI₂⟩ := ih s₁ hI₁
      exact ⟨n₁ + n₂, s₂, drain_append h₁ h₂, hI₂⟩

variable (stuck) in
/-- Termination by a measure of the state: a step that pushes lowers it. -/
theorem drain_of_measure (μ : σ → ℕ) {I : σ → List α → Prop}
    (hstep : ∀ a w s, I s (a :: w) → ∃ s' push, step a s = .ok (s', push) ∧ I s' (push ++ w)
      ∧ (μ s' < μ s ∨ push = [] ∧ μ s' = μ s))
    (w : List α) (s : σ) (hI : I s w) :
    ∃ n s', drain stuck step n w s = .ok s' ∧ I s' [] := by
  induction hm : μ s using Nat.strong_induction_on generalizing w s with
  | _ m ih =>
    induction w generalizing s with
    | nil => exact ⟨0, s, drain_nil 0 s, hI⟩
    | cons a w ihw =>
        obtain ⟨s', push, hs, hI', hlt | ⟨rfl, heq⟩⟩ := hstep a w s hI
        · obtain ⟨n, r, hd, hr⟩ := ih (μ s') (hm ▸ hlt) (push ++ w) s' hI' rfl
          exact ⟨n + 1, r, by rw [drain_cons_ok hs, hd], hr⟩
        · obtain ⟨n, r, hd, hr⟩ := ihw s' hI' (heq.trans hm)
          exact ⟨n + 1, r, by rw [drain_cons_ok hs, List.nil_append, hd], hr⟩

/-- A loop that never empties its stack runs out of any fuel. -/
theorem drain_stuck {I : σ → List α → Prop}
    (hstep : ∀ a w s, I s (a :: w) → ∃ s' push, step a s = .ok (s', push) ∧ I s' (push ++ w))
    (hnil : ∀ s, ¬ I s []) (n : ℕ) (w : List α) (s : σ) (hI : I s w) :
    drain stuck step n w s = .error stuck := by
  induction n generalizing w s with
  | zero =>
      cases w with
      | nil => exact absurd hI (hnil s)
      | cons a w => rfl
  | succ n ih =>
      cases w with
      | nil => exact absurd hI (hnil s)
      | cons a w =>
          obtain ⟨s', push, hs, hI'⟩ := hstep a w s hI
          rw [drain_cons_ok hs]
          exact ih (push ++ w) s' hI'

end Drain

/-! ## Loops over a fixed list -/

/-- A loop whose body never fails under an invariant of the processed
prefix completes, and the invariant holds of the whole list. -/
theorem foldlM_ok {f : σ → α → Except ε σ} {I : List α → σ → Prop} {l : List α}
    (hstep : ∀ pre a post s, l = pre ++ a :: post → I pre s →
      ∃ s', f s a = .ok s' ∧ I (pre ++ [a]) s')
    {s : σ} (h0 : I [] s) : ∃ s', l.foldlM f s = .ok s' ∧ I l s' := by
  suffices h : ∀ post pre s, l = pre ++ post → I pre s →
      ∃ s', post.foldlM f s = .ok s' ∧ I l s' from h l [] s rfl h0
  intro post
  induction post with
  | nil =>
      intro pre s hl hI
      rw [List.append_nil] at hl
      exact ⟨s, rfl, hl ▸ hI⟩
  | cons a post ih =>
      intro pre s hl hI
      obtain ⟨s', hf, hI'⟩ := hstep pre a post s hl hI
      obtain ⟨r, hr, hIr⟩ := ih (pre ++ [a]) s' (by simp [hl]) hI'
      exact ⟨r, by rw [List.foldlM_cons, hf]; exact hr, hIr⟩

/-- The invariant of the processed prefix, for a loop that completes. -/
theorem foldlM_invariant {f : σ → α → Except ε σ} {I : List α → σ → Prop} {l : List α}
    (hstep : ∀ pre a post s s', l = pre ++ a :: post → I pre s → f s a = .ok s' → I (pre ++ [a]) s')
    {s s' : σ} (h0 : I [] s) (h : l.foldlM f s = .ok s') : I l s' := by
  suffices hall : ∀ post pre s, l = pre ++ post → I pre s → post.foldlM f s = .ok s' → I l s' from
    hall l [] s rfl h0 h
  intro post
  induction post with
  | nil =>
      intro pre s hl hI h
      rw [List.append_nil] at hl
      obtain rfl := Except.ok.inj h
      exact hl ▸ hI
  | cons a post ih =>
      intro pre s hl hI h
      obtain ⟨s₁, hs, h⟩ := bind_eq_ok.mp (show (f s a >>= fun s => post.foldlM f s) = _ from h)
      exact ih (pre ++ [a]) s₁ (by simp [hl]) (hstep pre a post s s₁ hl hI hs) h

/-- The invariant of the processed prefix, for a loop that cannot fail. -/
theorem foldl_induct {f : σ → α → σ} {I : List α → σ → Prop} {l : List α}
    (hstep : ∀ pre a post s, l = pre ++ a :: post → I pre s → I (pre ++ [a]) (f s a))
    {s : σ} (h0 : I [] s) : I l (l.foldl f s) := by
  suffices h : ∀ post pre s, l = pre ++ post → I pre s → I l (post.foldl f s) from
    h l [] s rfl h0
  intro post
  induction post with
  | nil =>
      intro pre s hl hI
      rw [List.append_nil] at hl
      exact hl ▸ hI
  | cons a post ih =>
      intro pre s hl hI
      exact ih (pre ++ [a]) (f s a) (by simp [hl]) (hstep pre a post s hl hI)

/-! ## Loops over a list -/

theorem forM_ok {f : α → Except ε Unit} {l : List α} (h : l.forM f = .ok ()) :
    ∀ a ∈ l, f a = .ok () := by
  induction l with
  | nil => exact fun a ha => absurd ha List.not_mem_nil
  | cons b l ih =>
      obtain ⟨u, hb, hl⟩ := bind_eq_ok.mp (show (f b >>= fun _ => l.forM f) = .ok () from h)
      intro a ha
      obtain rfl | ha := List.mem_cons.mp ha
      · exact hb
      · exact ih hl a ha

theorem mapM_map_ok {β : Type} {f : β → Except ε α} {g : α → β} {l : List α}
    (h : ∀ a ∈ l, f (g a) = .ok a) : (l.map g).mapM f = .ok l := by
  induction l with
  | nil => rfl
  | cons a l ih =>
      rw [List.map_cons, List.mapM_cons, h a (by simp), ih fun b hb => h b (by simp [hb])]
      rfl

theorem mapM_ok {β : Type} {f : α → Except ε β} {l : List α} {l' : List β}
    (h : l.mapM f = .ok l') :
    (∀ a ∈ l, ∃ b ∈ l', f a = .ok b) ∧ ∀ b ∈ l', ∃ a ∈ l, f a = .ok b := by
  induction l generalizing l' with
  | nil =>
      obtain rfl := Except.ok.inj h
      exact ⟨fun a ha => absurd ha List.not_mem_nil, fun b hb => absurd hb List.not_mem_nil⟩
  | cons a l ih =>
      rw [List.mapM_cons] at h
      obtain ⟨b, hb, h⟩ := bind_eq_ok.mp h
      obtain ⟨l'', hl, h⟩ := bind_eq_ok.mp h
      obtain rfl := Except.ok.inj h
      obtain ⟨hto, hfrom⟩ := ih hl
      constructor
      · intro x hx
        obtain rfl | hx := List.mem_cons.mp hx
        · exact ⟨b, List.mem_cons_self .., hb⟩
        · obtain ⟨y, hy, hf⟩ := hto x hx
          exact ⟨y, List.mem_cons_of_mem _ hy, hf⟩
      · intro y hy
        obtain rfl | hy := List.mem_cons.mp hy
        · exact ⟨a, List.mem_cons_self .., hb⟩
        · obtain ⟨x, hx, hf⟩ := hfrom y hy
          exact ⟨x, List.mem_cons_of_mem _ hx, hf⟩

/-- A loop whose body accepts what comes from some `t`. -/
theorem mapM_eq_ok_iff {β γ : Type} {f : α → Except ε β} {P : γ → Prop} {g : γ → α} {h : γ → β}
    (hf : ∀ a b, f a = .ok b ↔ ∃ t, P t ∧ a = g t ∧ b = h t) {l : List α} {l' : List β} :
    l.mapM f = .ok l' ↔ ∃ ts : List γ, (∀ t ∈ ts, P t) ∧ l = ts.map g ∧ l' = ts.map h := by
  induction l generalizing l' with
  | nil =>
      constructor
      · intro hl
        exact ⟨[], fun t ht => absurd ht List.not_mem_nil, rfl, (Except.ok.inj hl).symm⟩
      · rintro ⟨ts, -, hl, rfl⟩
        rw [List.map_eq_nil_iff.mp hl.symm]
        rfl
  | cons a l ih =>
      rw [List.mapM_cons]
      constructor
      · intro hl
        obtain ⟨b, hb, hl⟩ := bind_eq_ok.mp hl
        obtain ⟨l'', hl'', hl⟩ := bind_eq_ok.mp hl
        obtain rfl := Except.ok.inj hl
        obtain ⟨t, ht, rfl, rfl⟩ := (hf a b).mp hb
        obtain ⟨ts, hts, rfl, rfl⟩ := ih.mp hl''
        exact ⟨t :: ts, List.forall_mem_cons.mpr ⟨ht, hts⟩, rfl, rfl⟩
      · rintro ⟨_ | ⟨t, ts⟩, hts, hl, rfl⟩
        · cases hl
        · obtain ⟨rfl, rfl⟩ := List.cons.inj hl
          obtain ⟨ht, hts⟩ := List.forall_mem_cons.mp hts
          rw [(hf _ _).mpr ⟨t, ht, rfl, rfl⟩, ih.mpr ⟨ts, hts, rfl, rfl⟩]
          rfl

/-- A loop over the images of a list whose body accepts what satisfies `A`. -/
theorem mapM_map_eq_ok_iff {β γ : Type} {f : α → Except ε β} {A : γ → Prop} {g : γ → α} {h : γ → β}
    {l : List γ} {l' : List β} (hf : ∀ t ∈ l, ∀ b, f (g t) = .ok b ↔ A t ∧ b = h t) :
    (l.map g).mapM f = .ok l' ↔ (∀ t ∈ l, A t) ∧ l' = l.map h := by
  induction l generalizing l' with
  | nil => exact ⟨fun hl => ⟨fun t ht => absurd ht List.not_mem_nil, (Except.ok.inj hl).symm⟩,
      fun hl => congrArg Except.ok hl.2.symm⟩
  | cons t l ih =>
      obtain ⟨ht, hl⟩ := List.forall_mem_cons.mp hf
      rw [List.map_cons, List.mapM_cons, List.forall_mem_cons]
      constructor
      · intro h
        obtain ⟨b, hb, h⟩ := bind_eq_ok.mp h
        obtain ⟨l'', hl'', h⟩ := bind_eq_ok.mp h
        obtain rfl := Except.ok.inj h
        obtain ⟨hA, rfl⟩ := (ht b).mp hb
        obtain ⟨hall, rfl⟩ := (ih hl).mp hl''
        exact ⟨⟨hA, hall⟩, rfl⟩
      · rintro ⟨⟨hA, hall⟩, rfl⟩
        rw [(ht _).mpr ⟨hA, rfl⟩, (ih hl).mpr ⟨hall, rfl⟩]
        rfl

/-! ## Filtering -/

/-- Keep the elements that pass a check that may fail. -/
def filterOk (p : α → Except ε Bool) : List α → Except ε (List α)
  | [] => .ok []
  | a :: l => do
      let keep ← p a
      let rest ← filterOk p l
      return if keep then a :: rest else rest

/-- A check that decides a predicate filters by it. -/
theorem filterOk_ok {p : α → Except ε Bool} {P : α → Prop} {l : List α}
    (h : ∀ a ∈ l, ∃ b, p a = .ok b ∧ (b = true ↔ P a)) :
    ∃ l', filterOk p l = .ok l' ∧ ∀ a, a ∈ l' ↔ a ∈ l ∧ P a := by
  induction l with
  | nil => exact ⟨[], rfl, by simp⟩
  | cons a l ih =>
      obtain ⟨b, hb, hP⟩ := h a (List.mem_cons_self ..)
      obtain ⟨l', hl', hmem⟩ := ih fun x hx => h x (List.mem_cons_of_mem _ hx)
      refine ⟨if b then a :: l' else l', by rw [filterOk, hb, ok_bind, hl']; rfl, fun x => ?_⟩
      have hcons : x ∈ (if b then a :: l' else l') ↔ (b = true ∧ x = a) ∨ x ∈ l' := by
        cases b <;> simp
      rw [hcons, hmem, hP, List.mem_cons]
      constructor
      · rintro (⟨hPa, rfl⟩ | ⟨hx, hPx⟩)
        · exact ⟨Or.inl rfl, hPa⟩
        · exact ⟨Or.inr hx, hPx⟩
      · rintro ⟨rfl | hx, hPx⟩
        · exact Or.inl ⟨hPx, rfl⟩
        · exact Or.inr ⟨hx, hPx⟩

/-- A loop that looks its argument up first is the loop over what is found. -/
theorem foldlM_lookup {β : Type} {f : σ → β → Except ε σ} {look : α → Except ε β} {found : α → β}
    {l : List α} (h : ∀ a ∈ l, look a = .ok (found a)) (s : σ) :
    l.foldlM (fun s a => do let b ← look a; f s b) s = (l.map found).foldlM f s := by
  induction l generalizing s with
  | nil => rfl
  | cons a l ih =>
      rw [List.map_cons, List.foldlM_cons, List.foldlM_cons, h a (List.mem_cons_self ..), ok_bind]
      cases f s (found a) with
      | error e => rfl
      | ok s' => exact ih (fun x hx => h x (List.mem_cons_of_mem _ hx)) s'

end Inmanta
