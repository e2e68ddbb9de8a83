import Inmanta.Deploy.TransitiveState

/-!
# What the propagation reaches

The abstract side of `ModelState.updateTransitiveState`: which resources
each phase blocks and which ones it releases, as inductive predicates of
the model at entry and of the three parameter sets. Nothing here mentions
a worklist, a cache or the set of definitely blocked resources.

- `Propagated` (phase 2) follows the provides relation from the newly
  undefined resources;
- `BackChecked` (phase 3) is indexed by the list of resources to check,
  because the loop looks one step back only and in the order of the list;
- `Released` (phase 4) is the least set of resources whose blocked
  requirements are all released themselves.

`HardBlocked.not_released` is the justification of the shortcut over
definitely blocked resources.
-/

namespace Inmanta

/-! ## Up to the blocked status -/

/-- The resource state without its blocked status. -/
def ResourceState.unblocked (rs : ResourceState) : ResourceState :=
  { rs with blocked := .notBlocked }

/-- Two model states that differ at most in blocked statuses and in the dirty
set. -/
structure SameButBlocked (s t : ModelState) : Prop where
  version : t.version = s.version
  intent : t.intent = s.intent
  resourceSets : t.resourceSets = s.resourceSets
  requires : t.requires = s.requires
  resourcesByAgent : t.resourcesByAgent = s.resourcesByAgent
  state : ∀ r, (t.resourceState.get? r).map ResourceState.unblocked
    = (s.resourceState.get? r).map ResourceState.unblocked

namespace SameButBlocked

variable {s t u : ModelState}

theorem refl (s : ModelState) : SameButBlocked s s :=
  ⟨rfl, rfl, rfl, rfl, rfl, fun _ => rfl⟩

theorem trans (h : SameButBlocked s t) (h' : SameButBlocked t u) : SameButBlocked s u :=
  ⟨h'.version.trans h.version, h'.intent.trans h.intent, h'.resourceSets.trans h.resourceSets,
    h'.requires.trans h.requires, h'.resourcesByAgent.trans h.resourcesByAgent,
    fun r => (h'.state r).trans (h.state r)⟩

theorem requiresOf (h : SameButBlocked s t) (r : ResourceIdStr) :
    t.requiresOf r = s.requiresOf r := by
  simp only [ModelState.requiresOf, h.requires]

theorem mem_resourceState (h : SameButBlocked s t) {r : ResourceIdStr} :
    r ∈ t.resourceState ↔ r ∈ s.resourceState := by
  have hr := congrArg Option.isSome (h.state r)
  simp only [Option.isSome_map] at hr
  show (t.resourceState.get? r).isSome = true ↔ (s.resourceState.get? r).isSome = true
  rw [hr]

theorem compliance? (h : SameButBlocked s t) (r : ResourceIdStr) :
    t.compliance? r = s.compliance? r := by
  have hr := congrArg (Option.map (·.compliance)) (h.state r)
  simpa only [Option.map_map, Function.comp_def, ResourceState.unblocked,
    ModelState.compliance?] using hr

/-- The state of a resource on the other side, up to its blocked status. -/
theorem get? (h : SameButBlocked s t) {r : ResourceIdStr} {rs : ResourceState}
    (hr : t.resourceState.get? r = some rs) :
    ∃ rs₀, s.resourceState.get? r = some rs₀ ∧ rs = { rs₀ with blocked := rs.blocked } := by
  have hst := h.state r
  rw [hr, Option.map_some] at hst
  obtain ⟨rs₀, hrs₀, heq⟩ := Option.map_eq_some_iff.mp hst.symm
  obtain ⟨c, l, b, d, lc⟩ := rs
  obtain ⟨c₀, l₀, b₀, d₀, lc₀⟩ := rs₀
  simp only [ResourceState.unblocked, ResourceState.mk.injEq] at heq
  exact ⟨_, hrs₀, by simp only [heq.1, heq.2.1, heq.2.2.2.1, heq.2.2.2.2]⟩

/-- Overwriting one blocked status. -/
theorem setBlocked {r : ResourceIdStr} {rs : ResourceState}
    (hr : s.resourceState.get? r = some rs) (b : Blocked) :
    SameButBlocked s (s.setBlocked r rs b) := by
  refine ⟨rfl, rfl, rfl, rfl, rfl, fun x => ?_⟩
  rw [ModelState.setBlocked, ModelState.setState, Dict.get?_set]
  split
  · rename_i hx
    subst hx
    rw [hr]
    rfl
  · rfl

theorem setDirty (s : ModelState) (dirty : List ResourceIdStr) :
    SameButBlocked s { s with dirty } :=
  ⟨rfl, rfl, rfl, rfl, rfl, fun _ => rfl⟩

end SameButBlocked

namespace ModelState

variable {s : ModelState} {r : ResourceIdStr}

/-- The requires relation has no cycles. -/
def AcyclicRequires (s : ModelState) : Prop :=
  Acyclic fun r d => d ∈ s.requiresOf r

/-- The resource itself or a transitive requirement is undefined. -/
def NeedsUndefined (s : ModelState) (r : ResourceIdStr) : Prop :=
  ∃ u, Relation.ReflTransGen (fun a b => b ∈ s.requiresOf a) r u ∧ s.IsUndefined u

/-- The compliance a deployable resource is dirty with. -/
def HasDirtyCompliance (s : ModelState) (r : ResourceIdStr) : Prop :=
  ∃ c, s.compliance? r = some c ∧ c.isDirty = true

instance (s : ModelState) (r : ResourceIdStr) : Decidable (s.HasDirtyCompliance r) :=
  decidable_of_iff ((s.compliance? r).any (·.isDirty) = true)
    (by simp [HasDirtyCompliance, Option.any_eq_true])

/-- What blocking a resource does. -/
theorem blockResourceTransitive_ok (h : r ∈ s.resourceState) :
    ∃ t, s.blockResourceTransitive r = .ok t ∧ SameButBlocked s t
      ∧ (∀ x, t.blocked? x = if x = r then some .blocked else s.blocked? x)
      ∧ ∀ x, x ∈ t.dirty ↔ x ∈ s.dirty ∧ x ≠ r := by
  obtain ⟨rs, hrs⟩ := Dict.mem_iff.mp h
  refine ⟨(s.setBlocked r rs .blocked).discardDirty r, ?_, ?_, ?_, ?_⟩
  · rw [blockResourceTransitive, Dict.item_of_get? hrs]
    rfl
  · exact (SameButBlocked.setBlocked hrs _).trans (.setDirty _ _)
  · exact fun x => blocked?_setBlocked s r rs .blocked x
  · exact fun x => mem_discard

/-- What unblocking a resource does. -/
theorem unblockResource_ok (h : r ∈ s.resourceState) :
    ∃ t, s.unblockResource r = .ok t ∧ SameButBlocked s t
      ∧ (∀ x, t.blocked? x = if x = r then some .notBlocked else s.blocked? x)
      ∧ ∀ x, x ∈ t.dirty ↔ x ∈ s.dirty ∨ (x = r ∧ s.HasDirtyCompliance r) := by
  obtain ⟨rs, hrs⟩ := Dict.mem_iff.mp h
  have hdirty : s.HasDirtyCompliance r ↔ rs.compliance.isDirty = true := by
    simp [HasDirtyCompliance, compliance?_of_get? hrs]
  refine ⟨if rs.compliance.isDirty then (s.setBlocked r rs .notBlocked).addDirty r
    else s.setBlocked r rs .notBlocked, ?_, ?_, ?_, ?_⟩
  · rw [unblockResource, Dict.item_of_get? hrs]
    rfl
  · split
    · exact (SameButBlocked.setBlocked hrs _).trans (.setDirty _ _)
    · exact SameButBlocked.setBlocked hrs _
  · intro x
    have := blocked?_setBlocked s r rs .notBlocked x
    split <;> exact this
  · intro x
    rw [hdirty]
    split
    · rename_i hd
      simp [addDirty, setBlocked, setState, hd, or_comm]
    · rename_i hd
      simp [setBlocked, setState, hd]

/-- The search for a blocked requirement is complete. -/
theorem firstBlocked_ok {l : List ResourceIdStr} (h : ∀ d ∈ l, d ∈ s.resourceState) :
    ∃ o, s.firstBlocked l = .ok o ∧ (∀ d, o = some d → d ∈ l ∧ s.IsBlocked d)
      ∧ (o = none → ∀ d ∈ l, ¬ s.IsBlocked d) := by
  induction l with
  | nil => exact ⟨none, rfl, by simp, by simp⟩
  | cons d ds ih =>
      obtain ⟨rs, hrs⟩ := Dict.mem_iff.mp (h d (List.mem_cons_self ..))
      have hd : s.IsBlocked d ↔ rs.blocked = .blocked := by
        simp [IsBlocked, blocked?_of_get? hrs]
      by_cases hb : rs.blocked = .blocked
      · refine ⟨some d, ?_, ?_, by simp⟩
        · rw [firstBlocked, Dict.item_of_get? hrs, ok_bind, if_pos hb, pure_eq_ok]
        · rintro _ ⟨⟩
          exact ⟨List.mem_cons_self .., hd.mpr hb⟩
      · obtain ⟨o, ho, hsome, hnone⟩ := ih fun x hx => h x (List.mem_cons_of_mem _ hx)
        refine ⟨o, ?_, ?_, ?_⟩
        · rw [firstBlocked, Dict.item_of_get? hrs, ok_bind, if_neg hb, ho]
        · intro x hx
          exact ⟨List.mem_cons_of_mem _ (hsome x hx).1, (hsome x hx).2⟩
        · intro hn x hx
          rcases List.mem_cons.mp hx with rfl | hx
          · exact fun hbx => hb (hd.mp hbx)
          · exact hnone hn x hx

end ModelState

/-! ## What the phases reach -/

section Reach

variable (s : ModelState)

/-- Phase 2: a resource that is not blocked, downstream of a newly undefined
one through resources that are not blocked. -/
inductive Propagated (newUndefined : List ResourceIdStr) : ResourceIdStr → Prop where
  | source {d r : ResourceIdStr} : d ∈ newUndefined → d ∈ s.requiresOf r → ¬ s.IsBlocked r →
      Propagated newUndefined r
  | step {d r : ResourceIdStr} : Propagated newUndefined d → d ∈ s.requiresOf r →
      ¬ s.IsBlocked r → Propagated newUndefined r

/-- Blocked when phase 2 is done. -/
def BlockedByUndefined (newUndefined : List ResourceIdStr) (r : ResourceIdStr) : Prop :=
  s.IsBlocked r ∨ Propagated s newUndefined r

/-- Phase 3, back check in the order of the list: a resource that directly
requires one that is blocked by then. -/
inductive BackChecked (newUndefined : List ResourceIdStr) :
    List ResourceIdStr → ResourceIdStr → Prop where
  | start {before after : List ResourceIdStr} {d r : ResourceIdStr} :
      ¬ BlockedByUndefined s newUndefined r → d ∈ s.requiresOf r →
      BlockedByUndefined s newUndefined d →
      BackChecked newUndefined (before ++ r :: after) r
  | step {before after : List ResourceIdStr} {d r : ResourceIdStr} :
      ¬ BlockedByUndefined s newUndefined r → d ∈ s.requiresOf r →
      BackChecked newUndefined before d →
      BackChecked newUndefined (before ++ r :: after) r

variable (newUndefined verifyBlocked verifyUnblocked : List ResourceIdStr)

/-- Newly blocked by phase 2 or 3. -/
def Reached (r : ResourceIdStr) : Prop :=
  Propagated s newUndefined r ∨ BackChecked s newUndefined verifyBlocked r

/-- Blocked when phase 4 starts: for the time being, since phase 4 may find
that the blocker of a back-checked resource is deployable after all. -/
def Provisional (r : ResourceIdStr) : Prop :=
  s.IsBlocked r ∨ Reached s newUndefined verifyBlocked r

/-- Phase 3, propagation: a blocked resource downstream of a back-checked one
through blocked resources. It is blocked once more. -/
inductive Cascaded : ResourceIdStr → Prop where
  | source {d r : ResourceIdStr} : BackChecked s newUndefined verifyBlocked d →
      d ∈ s.requiresOf r → Provisional s newUndefined verifyBlocked r → Cascaded r
  | step {d r : ResourceIdStr} : Cascaded d → d ∈ s.requiresOf r →
      Provisional s newUndefined verifyBlocked r → Cascaded r

/-- Phase 4: a provisionally blocked resource that is defined and whose blocked
requirements are all released, if the check comes by. -/
inductive Released : ResourceIdStr → Prop where
  | intro {r : ResourceIdStr} : Provisional s newUndefined verifyBlocked r →
      ¬ s.IsUndefined r →
      (∀ d ∈ s.requiresOf r, Provisional s newUndefined verifyBlocked d → Released d) →
      (r ∈ verifyUnblocked
        ∨ ∃ d ∈ s.requiresOf r, Provisional s newUndefined verifyBlocked d) →
      Released r

/-- Provisionally blocked for good: there is an undefined resource at the end
of a path of blocked resources. -/
inductive HardBlocked : ResourceIdStr → Prop where
  | undefined {r : ResourceIdStr} : s.IsUndefined r →
      Provisional s newUndefined verifyBlocked r → HardBlocked r
  | step {d r : ResourceIdStr} : HardBlocked d → d ∈ s.requiresOf r →
      Provisional s newUndefined verifyBlocked r → HardBlocked r

variable {s newUndefined verifyBlocked verifyUnblocked}

theorem HardBlocked.provisional {r : ResourceIdStr}
    (h : HardBlocked s newUndefined verifyBlocked r) :
    Provisional s newUndefined verifyBlocked r := by
  cases h with
  | undefined _ hp => exact hp
  | step _ _ hp => exact hp

theorem Released.provisional {r : ResourceIdStr}
    (h : Released s newUndefined verifyBlocked verifyUnblocked r) :
    Provisional s newUndefined verifyBlocked r := by
  cases h with
  | intro hp _ _ _ => exact hp

/-- The shortcut over definitely blocked resources loses nothing. -/
theorem HardBlocked.not_released {r : ResourceIdStr}
    (h : HardBlocked s newUndefined verifyBlocked r) :
    ¬ Released s newUndefined verifyBlocked verifyUnblocked r := by
  induction h with
  | undefined hu _ => rintro ⟨_, hnu, _, _⟩; exact hnu hu
  | step hd hreq _ ih => rintro ⟨_, _, hall, _⟩; exact ih (hall _ hreq hd.provisional)

theorem Propagated.not_isBlocked {r : ResourceIdStr} (h : Propagated s newUndefined r) :
    ¬ s.IsBlocked r := by
  cases h with
  | source _ _ hb => exact hb
  | step _ _ hb => exact hb

theorem BackChecked.not_blockedByUndefined {l : List ResourceIdStr} {r : ResourceIdStr}
    (h : BackChecked s newUndefined l r) : ¬ BlockedByUndefined s newUndefined r := by
  cases h with
  | start hb _ _ => exact hb
  | step hb _ _ => exact hb

theorem Reached.not_isBlocked {r : ResourceIdStr}
    (h : Reached s newUndefined verifyBlocked r) : ¬ s.IsBlocked r := by
  rcases h with h | h
  · exact h.not_isBlocked
  · exact fun hb => h.not_blockedByUndefined (Or.inl hb)

theorem BackChecked.append {l : List ResourceIdStr} {r : ResourceIdStr}
    (h : BackChecked s newUndefined l r) (post : List ResourceIdStr) :
    BackChecked s newUndefined (l ++ post) r := by
  cases h with
  | start hb hreq hd =>
      rw [List.append_assoc, List.cons_append]
      exact .start hb hreq hd
  | step hb hreq hd =>
      rw [List.append_assoc, List.cons_append]
      exact .step hb hreq hd

theorem BackChecked.mem {l : List ResourceIdStr} {r : ResourceIdStr}
    (h : BackChecked s newUndefined l r) : r ∈ l := by
  cases h <;> simp

/-- Everything a checked prefix leaves blocked. -/
def BlockedAfter (s : ModelState) (newUndefined pre : List ResourceIdStr)
    (r : ResourceIdStr) : Prop :=
  BlockedByUndefined s newUndefined r ∨ BackChecked s newUndefined pre r

/-- One more resource is checked. -/
theorem backChecked_concat {pre : List ResourceIdStr} {a r : ResourceIdStr} :
    BackChecked s newUndefined (pre ++ [a]) r ↔
      BackChecked s newUndefined pre r
        ∨ (r = a ∧ ¬ BlockedByUndefined s newUndefined a
            ∧ ∃ d ∈ s.requiresOf a, BlockedAfter s newUndefined pre d) := by
  constructor
  · intro h
    generalize hl : pre ++ [a] = l at h
    cases h with
    | @start before after d _ hb hreq hd =>
        rcases List.eq_nil_or_concat' after with rfl | ⟨after', x, rfl⟩
        · obtain ⟨rfl, h⟩ := List.append_inj' hl rfl
          obtain rfl := List.singleton_inj.mp h
          exact Or.inr ⟨rfl, hb, d, hreq, Or.inl hd⟩
        · rw [← List.cons_append, ← List.append_assoc] at hl
          obtain ⟨rfl, -⟩ := List.append_inj' hl rfl
          exact Or.inl (.start hb hreq hd)
    | @step before after d _ hb hreq hd =>
        rcases List.eq_nil_or_concat' after with rfl | ⟨after', x, rfl⟩
        · obtain ⟨rfl, h⟩ := List.append_inj' hl rfl
          obtain rfl := List.singleton_inj.mp h
          exact Or.inr ⟨rfl, hb, d, hreq, Or.inr hd⟩
        · rw [← List.cons_append, ← List.append_assoc] at hl
          obtain ⟨rfl, -⟩ := List.append_inj' hl rfl
          exact Or.inl (.step hb hreq hd)
  · rintro (h | ⟨rfl, hb, d, hreq, hd | hd⟩)
    · exact h.append [a]
    · exact .start hb hreq hd
    · exact .step hb hreq hd

theorem not_backChecked_nil {r : ResourceIdStr} : ¬ BackChecked s newUndefined [] r :=
  fun h => List.not_mem_nil h.mem

/-! ### They only look at the requires relation and at what is blocked -/

section Congr

variable {t : ModelState} {r : ResourceIdStr}

theorem Propagated.congr (hreq : ∀ r d, d ∈ s.requiresOf r → d ∈ t.requiresOf r)
    (hb : ∀ r, s.IsBlocked r ↔ t.IsBlocked r) (h : Propagated s newUndefined r) :
    Propagated t newUndefined r := by
  induction h with
  | source hd hr hnb => exact .source hd (hreq _ _ hr) (mt (hb _).mpr hnb)
  | step _ hr hnb ih => exact .step ih (hreq _ _ hr) (mt (hb _).mpr hnb)

theorem blockedByUndefined_congr (hreq : ∀ r d, d ∈ s.requiresOf r ↔ d ∈ t.requiresOf r)
    (hb : ∀ r, s.IsBlocked r ↔ t.IsBlocked r) :
    BlockedByUndefined s newUndefined r ↔ BlockedByUndefined t newUndefined r :=
  or_congr (hb r) ⟨.congr (fun r d => (hreq r d).mp) hb,
    .congr (fun r d => (hreq r d).mpr) fun r => (hb r).symm⟩

theorem Reached.congr (hreq : ∀ r d, d ∈ s.requiresOf r ↔ d ∈ t.requiresOf r)
    (hb : ∀ r, s.IsBlocked r ↔ t.IsBlocked r) (h : Reached s newUndefined verifyBlocked r) :
    Reached t newUndefined verifyBlocked r := by
  have hbu : ∀ r, BlockedByUndefined s newUndefined r ↔ BlockedByUndefined t newUndefined r :=
    fun r => blockedByUndefined_congr hreq hb
  rcases h with h | h
  · exact Or.inl (h.congr (fun r d => (hreq r d).mp) hb)
  · refine Or.inr ?_
    induction h with
    | start hnb hr hd => exact .start (mt (hbu _).mpr hnb) ((hreq _ _).mp hr) ((hbu _).mp hd)
    | step hnb hr _ ih => exact .step (mt (hbu _).mpr hnb) ((hreq _ _).mp hr) ih

end Congr

end Reach

end Inmanta
