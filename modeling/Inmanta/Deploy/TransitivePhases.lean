import Inmanta.Deploy.TransitiveReach

/-!
# The phases of the propagation

Each loop of `ModelState.updateTransitiveState` meets its description in
`Inmanta.Deploy.TransitiveReach`: one invariant per loop over the update
and the worklist (`Propagating`, `Checking`, `Cascading`, `Releasing`), a
lemma that one iteration keeps it, and the loop rule. The results are
assembled in `updateTransitiveState_spec` (what a completed update did)
and `updateTransitiveState_terminates` (an update of an acyclic model
completes).
-/

namespace Inmanta

/-! ## Bookkeeping common to the phases -/

namespace TransitiveUpdate

/-- The state of the update is the initial one, with the reported resources
blocked or unblocked. -/
structure Accounted (s : ModelState) (t : TransitiveUpdate) : Prop where
  same : SameButBlocked s t.state
  blocked : ∀ r, t.state.blocked? r =
    if r ∈ t.outUnblocked then some .notBlocked
    else if r ∈ t.outBlocked then some .blocked else s.blocked? r
  dirty : ∀ r, r ∈ t.state.dirty ↔
    (r ∈ t.outUnblocked ∧ s.HasDirtyCompliance r) ∨ (r ∈ s.dirty ∧ r ∉ t.outBlocked)
  known : ∀ r d, t.knownBlockers.get? r = some d → d ∈ s.requiresOf r

variable {s : ModelState} {t t' : TransitiveUpdate} {r : ResourceIdStr}

theorem Accounted.isBlocked (h : Accounted s t) (x : ResourceIdStr) :
    t.state.IsBlocked x ↔ x ∉ t.outUnblocked ∧ (x ∈ t.outBlocked ∨ s.IsBlocked x) := by
  simp only [ModelState.IsBlocked, h.blocked x]
  by_cases hu : x ∈ t.outUnblocked <;> by_cases ho : x ∈ t.outBlocked <;> simp [hu, ho]

theorem Accounted.init (s : ModelState) (newUndefined : List ResourceIdStr) :
    Accounted s (init s newUndefined) :=
  ⟨.refl s, fun _ => by simp [TransitiveUpdate.init], fun _ => by simp [TransitiveUpdate.init],
    fun _ _ h => by simp [TransitiveUpdate.init] at h⟩

theorem Accounted.markBlocked (h : Accounted s t) : Accounted s (t.markBlocked r) :=
  ⟨h.same, h.blocked, h.dirty, h.known⟩

theorem Accounted.providesOf (h : Accounted s t) (d : ResourceIdStr) :
    t.state.providesOf d = s.providesOf d := by
  simp only [ModelState.providesOf, h.same.requires]

/-- Blocking one more resource. -/
theorem Accounted.block (h : Accounted s t) (hr : r ∈ s.resourceState)
    (hu : t.outUnblocked = []) :
    ∃ t', t.block r = .ok t' ∧ Accounted s t' ∧ t'.isBlocked = t.isBlocked
      ∧ t'.outBlocked = t.outBlocked.insert r ∧ t'.outUnblocked = [] := by
  obtain ⟨state, hs, hsame, hb, hd⟩ :=
    ModelState.blockResourceTransitive_ok (h.same.mem_resourceState.mpr hr)
  refine ⟨{ t with state, outBlocked := t.outBlocked.insert r }, ?_, ⟨?_, ?_, ?_, h.known⟩,
    rfl, rfl, hu⟩
  · rw [TransitiveUpdate.block, hs]
    rfl
  · exact h.same.trans hsame
  · intro x
    rw [hb, h.blocked, hu]
    by_cases hx : x = r <;> simp [hx]
  · intro x
    rw [hd, h.dirty, hu]
    by_cases hx : x = r <;> simp [hx]

theorem Accounted.get? (h : Accounted s t) (hr : r ∈ s.resourceState) :
    ∃ rs, t.state.resourceState.get? r = some rs
      ∧ (rs.blocked = .blocked ↔ t.state.IsBlocked r)
      ∧ (rs.compliance = .undefined ↔ s.IsUndefined r) := by
  obtain ⟨rs, hrs⟩ := Dict.mem_iff.mp (h.same.mem_resourceState.mpr hr)
  refine ⟨rs, hrs, ?_, ?_⟩
  · simp [ModelState.IsBlocked, ModelState.blocked?_of_get? hrs]
  · simp [ModelState.IsUndefined, ← h.same.compliance? r, ModelState.compliance?_of_get? hrs]

/-- The check for a blocked requirement, with or without the cache, finds one
if there is one and changes nothing but the cache. -/
theorem Accounted.blockedDependency (h : Accounted s t) (hcl : s.Closed) (r : ResourceIdStr) :
    ∃ t' o, t.blockedDependency r = .ok (t', o) ∧ Accounted s t'
      ∧ t'.state = t.state ∧ t'.isBlocked = t.isBlocked ∧ t'.outBlocked = t.outBlocked
      ∧ t'.outUnblocked = t.outUnblocked
      ∧ (∀ d, o = some d → d ∈ s.requiresOf r ∧ t.state.IsBlocked d)
      ∧ (o = none → ∀ d ∈ s.requiresOf r, ¬ t.state.IsBlocked d) := by
  -- the search, from a state that agrees with `t` but for the cache
  have hsearch : ∀ u : TransitiveUpdate, Accounted s u → u.state = t.state →
      ∃ t' o, u.searchBlocker r = .ok (t', o) ∧ Accounted s t' ∧ t'.state = t.state
        ∧ t'.isBlocked = u.isBlocked ∧ t'.outBlocked = u.outBlocked
        ∧ t'.outUnblocked = u.outUnblocked
        ∧ (∀ d, o = some d → d ∈ s.requiresOf r ∧ t.state.IsBlocked d)
        ∧ (o = none → ∀ d ∈ s.requiresOf r, ¬ t.state.IsBlocked d) := by
    intro u hu hstate
    obtain ⟨o, ho, hsome, hnone⟩ :=
      ModelState.firstBlocked_ok (s := u.state) (l := u.state.requiresOf r) fun d hd =>
        hu.same.mem_resourceState.mpr (hcl r d (hu.same.requiresOf r ▸ hd)).2
    rw [hu.same.requiresOf r, hstate] at hsome hnone
    cases o with
    | none =>
        refine ⟨u, none, ?_, hu, hstate, rfl, rfl, rfl, by simp, fun _ => hnone rfl⟩
        rw [searchBlocker, ho]
        rfl
    | some d =>
        refine ⟨{ u with knownBlockers := u.knownBlockers.set r d }, some d, ?_,
          ⟨hu.same, hu.blocked, hu.dirty, ?_⟩, hstate, rfl, rfl, rfl, hsome, by simp⟩
        · rw [searchBlocker, ho]
          rfl
        · intro x y hxy
          rw [Dict.get?_set] at hxy
          split at hxy
          · rename_i hx
            obtain rfl := Option.some.inj hxy
            exact hx ▸ (hsome d rfl).1
          · exact hu.known x y hxy
  cases hc : t.knownBlockers.get? r with
  | none =>
      have hcached : t.cachedBlocker r = .ok (t, none) := by rw [cachedBlocker, hc]; rfl
      rw [TransitiveUpdate.blockedDependency, hcached]
      exact hsearch t h rfl
  | some d =>
      obtain ⟨rs, hrs, hb, -⟩ := h.get? (hcl r d (h.known r d hc)).2
      by_cases hblocked : rs.blocked = .blocked
      · refine ⟨t, some d, ?_, h, rfl, rfl, rfl, rfl, ?_, by simp⟩
        · have hcached : t.cachedBlocker r = .ok (t, some d) := by
            simp only [cachedBlocker, hc, Dict.item_of_get? hrs, ok_bind, hblocked, if_true,
              pure_eq_ok]
          rw [TransitiveUpdate.blockedDependency, hcached]
          rfl
        · rintro _ ⟨⟩
          exact ⟨h.known r d hc, hb.mp hblocked⟩
      · have hcached : t.cachedBlocker r
            = .ok ({ t with knownBlockers := t.knownBlockers.del r }, none) := by
          simp only [cachedBlocker, hc, Dict.item_of_get? hrs, ok_bind, hblocked, if_false,
            pure_eq_ok]
        rw [TransitiveUpdate.blockedDependency, hcached]
        refine hsearch { t with knownBlockers := t.knownBlockers.del r }
          ⟨h.same, h.blocked, h.dirty, fun x y hxy => h.known x y ?_⟩ rfl
        rw [Dict.get?_del] at hxy
        split at hxy
        · cases hxy
        · exact hxy

/-! ## Phase 2 -/

/-- The resources passed to the update exist, and the newly undefined ones have
been blocked already. -/
structure UpdateArgs (s : ModelState)
    (newUndefined verifyBlocked verifyUnblocked : List ResourceIdStr) : Prop where
  closed : s.Closed
  undefined : ∀ r ∈ newUndefined, s.IsUndefined r ∧ s.IsBlocked r
  verifyBlocked : ∀ r ∈ verifyBlocked, r ∈ s.resourceState
  verifyUnblocked : ∀ r ∈ verifyUnblocked, r ∈ s.resourceState

/-- Newly undefined, or downstream of such a resource: a source of phase 2. -/
def Source (s : ModelState) (newUndefined : List ResourceIdStr) (d : ResourceIdStr) : Prop :=
  d ∈ newUndefined ∨ Propagated s newUndefined d

theorem Source.propagated {newUndefined : List ResourceIdStr} {d r : ResourceIdStr}
    (h : Source s newUndefined d) (hreq : d ∈ s.requiresOf r) (hb : ¬ s.IsBlocked r) :
    Propagated s newUndefined r := by
  rcases h with h | h
  · exact .source h hreq hb
  · exact .step h hreq hb

/-- The invariant of phase 2: what is blocked is downstream of a newly
undefined resource, and no dependant of a source is overlooked. -/
structure Propagating (s : ModelState) (newUndefined : List ResourceIdStr)
    (t : TransitiveUpdate) (work : List ResourceIdStr) : Prop where
  accounted : Accounted s t
  outUnblocked : t.outUnblocked = []
  sound : ∀ r ∈ t.outBlocked, Propagated s newUndefined r
  hard : ∀ r ∈ t.isBlocked, r ∈ newUndefined
    ∨ ∃ d, Source s newUndefined d ∧ d ∈ s.requiresOf r
  hardBlocked : ∀ r ∈ t.isBlocked, t.state.IsBlocked r
  waiting : ∀ r ∈ work, ∃ d, Source s newUndefined d ∧ d ∈ s.requiresOf r
  pending : ∀ d r, d ∈ newUndefined ∨ d ∈ t.outBlocked → d ∈ s.requiresOf r →
    r ∈ t.isBlocked ∨ r ∈ work

section Propagating

variable {newUndefined verifyBlocked verifyUnblocked work : List ResourceIdStr}

theorem Propagating.init (hargs : UpdateArgs s newUndefined verifyBlocked verifyUnblocked) :
    Propagating s newUndefined (init s newUndefined)
      (newUndefined.flatMap s.providesOf).reverse where
  accounted := .init s newUndefined
  outUnblocked := rfl
  sound := by simp [TransitiveUpdate.init]
  hard := fun r hr => Or.inl hr
  hardBlocked := fun r hr => (hargs.undefined r hr).2
  waiting := by
    intro r hr
    simp only [List.mem_reverse, List.mem_flatMap, ModelState.mem_providesOf] at hr
    obtain ⟨d, hd, hreq⟩ := hr
    exact ⟨d, Or.inl hd, hreq⟩
  pending := by
    intro d r hd hreq
    right
    simp only [TransitiveUpdate.init, List.not_mem_nil, or_false] at hd
    simp only [List.mem_reverse, List.mem_flatMap, ModelState.mem_providesOf]
    exact ⟨d, hd, hreq⟩

/-- A resource that is settled leaves the worklist. -/
theorem Propagating.skip (h : Propagating s newUndefined t (r :: work))
    (hr : r ∈ t.isBlocked) : Propagating s newUndefined t work where
  accounted := h.accounted
  outUnblocked := h.outUnblocked
  sound := h.sound
  hard := h.hard
  hardBlocked := h.hardBlocked
  waiting := fun x hx => h.waiting x (List.mem_cons_of_mem _ hx)
  pending := by
    intro d x hd hreq
    rcases h.pending d x hd hreq with hx | hx
    · exact Or.inl hx
    · rcases List.mem_cons.mp hx with rfl | hx
      · exact Or.inl hr
      · exact Or.inr hx

/-- A dependant that was blocked all along is definitely blocked. -/
theorem Propagating.mark (h : Propagating s newUndefined t (r :: work))
    (hb : t.state.IsBlocked r) : Propagating s newUndefined (t.markBlocked r) work := by
  have hmark : Propagating s newUndefined (t.markBlocked r) (r :: work) := by
    refine ⟨h.accounted.markBlocked, h.outUnblocked, h.sound, ?_, ?_, h.waiting, ?_⟩
    · intro x hx
      rcases List.mem_insert_iff.mp hx with rfl | hx
      · exact Or.inr (h.waiting x (List.mem_cons_self ..))
      · exact h.hard x hx
    · intro x hx
      rcases List.mem_insert_iff.mp hx with rfl | hx
      · exact hb
      · exact h.hardBlocked x hx
    · intro d x hd hreq
      exact (h.pending d x hd hreq).imp_left (List.mem_insert_of_mem)
  exact hmark.skip (List.mem_insert_self)

theorem Propagating.step (hcl : s.Closed) (h : Propagating s newUndefined t (r :: work)) :
    ∃ t' push, propagateUndefined r t = .ok (t', push)
      ∧ Propagating s newUndefined t' (push ++ work) ∧ ∀ x ∈ push, r ∈ s.requiresOf x := by
  obtain ⟨d, hsource, hreq⟩ := h.waiting r (List.mem_cons_self ..)
  have hr : r ∈ s.resourceState := (hcl r d hreq).1
  obtain ⟨rs, hrs, hb, -⟩ := h.accounted.get? hr
  by_cases hm : r ∈ t.isBlocked
  · exact ⟨t, [], by rw [propagateUndefined, if_pos hm]; rfl, h.skip hm, by simp⟩
  by_cases hblocked : rs.blocked = .blocked
  · refine ⟨t.markBlocked r, [], ?_, h.mark (hb.mp hblocked), by simp⟩
    simp only [propagateUndefined, if_neg hm]
    rw [show (t.markBlocked r).state = t.state from rfl, Dict.item_of_get? hrs]
    simp only [ok_bind, if_pos hblocked, pure_eq_ok]
  -- a resource that is blocked now: its dependants become work
  have hnb : ¬ t.state.IsBlocked r := fun hx => hblocked (hb.mpr hx)
  have hprop : Propagated s newUndefined r := by
    refine hsource.propagated hreq fun hs => hnb ((h.accounted.isBlocked r).mpr ⟨?_, Or.inr hs⟩)
    simp [h.outUnblocked]
  obtain ⟨t', ht', hacc, hisb, hout, hun⟩ :=
    (h.accounted.markBlocked (r := r)).block hr h.outUnblocked
  refine ⟨t', (t'.state.providesOf r).reverse, ?_, ?_, ?_⟩
  · simp only [propagateUndefined, if_neg hm]
    rw [show (t.markBlocked r).state = t.state from rfl, Dict.item_of_get? hrs]
    simp only [ok_bind, if_neg hblocked, ht', pure_eq_ok]
  · have hmono : ∀ x, t.state.IsBlocked x → t'.state.IsBlocked x := by
      intro x hx
      rw [hacc.isBlocked, hun, hout]
      rw [h.accounted.isBlocked] at hx
      refine ⟨by simp, hx.2.imp_left List.mem_insert_of_mem⟩
    refine ⟨hacc, hun, ?_, ?_, ?_, ?_, ?_⟩
    · intro x hx
      rw [hout] at hx
      rcases List.mem_insert_iff.mp hx with rfl | hx
      · exact hprop
      · exact h.sound x hx
    · intro x hx
      rw [hisb] at hx
      rcases List.mem_insert_iff.mp hx with rfl | hx
      · exact Or.inr ⟨d, hsource, hreq⟩
      · exact h.hard x hx
    · intro x hx
      rw [hisb] at hx
      rcases List.mem_insert_iff.mp hx with rfl | hx
      · rw [hacc.isBlocked, hun, hout]
        exact ⟨by simp, Or.inl (List.mem_insert_self)⟩
      · exact hmono x (h.hardBlocked x hx)
    · intro x hx
      rw [hacc.providesOf, List.mem_append, List.mem_reverse, ModelState.mem_providesOf] at hx
      rcases hx with hx | hx
      · exact ⟨r, Or.inr hprop, hx⟩
      · exact h.waiting x (List.mem_cons_of_mem _ hx)
    · intro y x hy hxreq
      rw [hout] at hy
      rw [hisb, hacc.providesOf, List.mem_append, List.mem_reverse, ModelState.mem_providesOf]
      have hy : (y ∈ newUndefined ∨ y ∈ t.outBlocked) ∨ y = r := by
        rcases hy with hy | hy
        · exact Or.inl (Or.inl hy)
        · rcases List.mem_insert_iff.mp hy with rfl | hy
          · exact Or.inr rfl
          · exact Or.inl (Or.inr hy)
      rcases hy with hy | rfl
      · rcases h.pending y x hy hxreq with hx | hx
        · exact Or.inl (List.mem_insert_of_mem hx)
        · rcases List.mem_cons.mp hx with rfl | hx
          · exact Or.inl (List.mem_insert_self)
          · exact Or.inr (Or.inr hx)
      · exact Or.inr (Or.inl hxreq)
  · intro x hx
    rwa [hacc.providesOf, List.mem_reverse, ModelState.mem_providesOf] at hx

/-- Phase 2 blocks exactly what is downstream of a newly undefined resource. -/
theorem Propagating.outBlocked (h : Propagating s newUndefined t []) (x : ResourceIdStr) :
    x ∈ t.outBlocked ↔ Propagated s newUndefined x := by
  constructor
  · exact h.sound x
  · intro hx
    have hout : ∀ d r, d ∈ newUndefined ∨ d ∈ t.outBlocked → d ∈ s.requiresOf r →
        ¬ s.IsBlocked r → r ∈ t.outBlocked := by
      intro d r hd hreq hb
      rcases h.pending d r hd hreq with hr | hr
      · have hr := h.hardBlocked r hr
        rw [h.accounted.isBlocked] at hr
        exact hr.2.resolve_right hb
      · exact absurd hr List.not_mem_nil
    induction hx with
    | source hd hreq hb => exact hout _ _ (Or.inl hd) hreq hb
    | step _ hreq hb ih => exact hout _ _ (Or.inr ih) hreq hb

theorem Propagating.isBlocked (h : Propagating s newUndefined t []) (x : ResourceIdStr) :
    t.state.IsBlocked x ↔ BlockedByUndefined s newUndefined x := by
  rw [h.accounted.isBlocked, h.outUnblocked, h.outBlocked, BlockedByUndefined, or_comm]
  simp

/-- A source of phase 2 is blocked for good. -/
theorem Source.hardBlocked (hargs : UpdateArgs s newUndefined verifyBlocked verifyUnblocked)
    {d : ResourceIdStr} (h : Source s newUndefined d) :
    HardBlocked s newUndefined verifyBlocked d := by
  have hbase : ∀ d ∈ newUndefined, HardBlocked s newUndefined verifyBlocked d := fun d hd =>
    .undefined (hargs.undefined d hd).1 (Or.inl (hargs.undefined d hd).2)
  rcases h with h | h
  · exact hbase d h
  · induction h with
    | source hd hreq hb =>
        exact .step (hbase _ hd) hreq (Or.inr (Or.inl (.source hd hreq hb)))
    | step hd hreq hb ih => exact .step ih hreq (Or.inr (Or.inl (.step hd hreq hb)))

end Propagating

/-! ## Phase 3, back check -/

/-- The invariant of the back check after the resources `pre`. -/
structure Checking (s : ModelState) (newUndefined verifyBlocked pre : List ResourceIdStr)
    (t : TransitiveUpdate) (work : List ResourceIdStr) : Prop where
  accounted : Accounted s t
  outUnblocked : t.outUnblocked = []
  outBlocked : ∀ r, r ∈ t.outBlocked ↔
    Propagated s newUndefined r ∨ BackChecked s newUndefined pre r
  hard : ∀ r ∈ t.isBlocked, HardBlocked s newUndefined verifyBlocked r
  hardBlocked : ∀ r ∈ t.isBlocked, t.state.IsBlocked r
  waiting : ∀ r ∈ work, BackChecked s newUndefined verifyBlocked r

section Checking

variable {newUndefined verifyBlocked verifyUnblocked pre post work : List ResourceIdStr}

theorem Checking.init (hargs : UpdateArgs s newUndefined verifyBlocked verifyUnblocked)
    (h : Propagating s newUndefined t []) :
    Checking s newUndefined verifyBlocked [] t [] where
  accounted := h.accounted
  outUnblocked := h.outUnblocked
  outBlocked := fun r => by simp [h.outBlocked, not_backChecked_nil]
  hard := by
    intro r hr
    rcases h.hard r hr with hnu | ⟨d, hd, hreq⟩
    · exact Source.hardBlocked hargs (Or.inl hnu)
    · refine .step (hd.hardBlocked hargs) hreq ?_
      rcases (h.isBlocked r).mp (h.hardBlocked r hr) with hb | hp
      · exact Or.inl hb
      · exact Or.inr (Or.inl hp)
  hardBlocked := h.hardBlocked
  waiting := by simp

theorem Checking.isBlocked (h : Checking s newUndefined verifyBlocked pre t work)
    (x : ResourceIdStr) : t.state.IsBlocked x ↔ BlockedAfter s newUndefined pre x := by
  rw [h.accounted.isBlocked, h.outUnblocked, h.outBlocked, BlockedAfter, BlockedByUndefined]
  simp
  tauto

/-- A check that finds no reason to block. -/
theorem Checking.skip (h : Checking s newUndefined verifyBlocked pre t work)
    {t' : TransitiveUpdate} {a : ResourceIdStr} (hacc : Accounted s t')
    (hstate : t'.state = t.state) (hisb : t'.isBlocked = t.isBlocked)
    (hout : t'.outBlocked = t.outBlocked) (hun : t'.outUnblocked = t.outUnblocked)
    (hno : t.state.IsBlocked a ∨ ∀ d ∈ s.requiresOf a, ¬ t.state.IsBlocked d) :
    Checking s newUndefined verifyBlocked (pre ++ [a]) t' work where
  accounted := hacc
  outUnblocked := hun.trans h.outUnblocked
  outBlocked := by
    intro r
    rw [hout, h.outBlocked, backChecked_concat]
    refine or_congr_right ⟨Or.inl, ?_⟩
    rintro (hr | ⟨rfl, hnb, d, hreq, hd⟩)
    · exact hr
    · rcases hno with hb | hno
      · exact ((h.isBlocked r).mp hb).resolve_left hnb
      · exact absurd ((h.isBlocked d).mpr hd) (hno d hreq)
  hard := fun r hr => h.hard r (hisb ▸ hr)
  hardBlocked := fun r hr => hstate ▸ h.hardBlocked r (hisb ▸ hr)
  waiting := h.waiting

theorem Checking.step (hargs : UpdateArgs s newUndefined verifyBlocked verifyUnblocked)
    {a : ResourceIdStr} (hvb : verifyBlocked = pre ++ a :: post)
    (h : Checking s newUndefined verifyBlocked pre t work) :
    ∃ t' blocked, t.updateBlockedStatusToBlocked a = .ok (t', blocked)
      ∧ Checking s newUndefined verifyBlocked (pre ++ [a]) t'
          (if blocked then a :: work else work) := by
  have ha : a ∈ s.resourceState := hargs.verifyBlocked a (by simp [hvb])
  obtain ⟨rs, hrs, hb, -⟩ := h.accounted.get? ha
  by_cases hm : a ∈ t.isBlocked
  · refine ⟨t, false, by rw [updateBlockedStatusToBlocked, if_pos hm]; rfl, ?_⟩
    exact h.skip h.accounted rfl rfl rfl rfl (Or.inl (h.hardBlocked a hm))
  by_cases hblocked : rs.blocked = .blocked
  · refine ⟨t, false, ?_, h.skip h.accounted rfl rfl rfl rfl (Or.inl (hb.mp hblocked))⟩
    simp only [updateBlockedStatusToBlocked, if_neg hm, Dict.item_of_get? hrs, ok_bind,
      if_pos hblocked, pure_eq_ok]
  obtain ⟨t₁, o, ho, hacc, hstate, hisb, hout, hun, hsome, hnone⟩ :=
    h.accounted.blockedDependency hargs.closed a
  cases o with
  | none =>
      refine ⟨t₁, false, ?_, h.skip hacc hstate hisb hout hun (Or.inr (hnone rfl))⟩
      simp only [updateBlockedStatusToBlocked, if_neg hm, Dict.item_of_get? hrs, ok_bind,
        if_neg hblocked, ho, pure_eq_ok]
  | some d =>
      obtain ⟨hreq, hdb⟩ := hsome d rfl
      have hna : ¬ t.state.IsBlocked a := fun hx => hblocked (hb.mpr hx)
      have hnew : BackChecked s newUndefined (pre ++ [a]) a :=
        backChecked_concat.mpr (Or.inr ⟨rfl, fun hbu => hna ((h.isBlocked a).mpr (Or.inl hbu)),
          d, hreq, (h.isBlocked d).mp hdb⟩)
      have hnewvb : BackChecked s newUndefined verifyBlocked a := by
        have := hnew.append post
        rwa [List.append_assoc, List.singleton_append, ← hvb] at this
      -- both outcomes of the test on the blocker only differ in the marks
      have hmark : ∃ u : TransitiveUpdate,
          (if d ∈ t₁.isBlocked then t₁.markBlocked a else t₁) = u ∧ Accounted s u
            ∧ u.state = t.state ∧ u.outBlocked = t.outBlocked ∧ u.outUnblocked = []
            ∧ ∀ x ∈ u.isBlocked, x ∈ t.isBlocked
                ∨ (x = a ∧ HardBlocked s newUndefined verifyBlocked a) := by
        by_cases hd : d ∈ t₁.isBlocked
        · refine ⟨t₁.markBlocked a, if_pos hd, hacc.markBlocked, hstate, hout,
            hun.trans h.outUnblocked, fun x hx => ?_⟩
          rcases List.mem_insert_iff.mp hx with rfl | hx
          · exact Or.inr ⟨rfl, .step (h.hard d (hisb ▸ hd)) hreq (Or.inr (Or.inr hnewvb))⟩
          · exact Or.inl (hisb ▸ hx)
        · exact ⟨t₁, if_neg hd, hacc, hstate, hout, hun.trans h.outUnblocked,
            fun x hx => Or.inl (hisb ▸ hx)⟩
      obtain ⟨u, hu, huacc, hustate, huout, huun, humarks⟩ := hmark
      obtain ⟨t', ht', hacc', hisb', hout', hun'⟩ := huacc.block ha huun
      refine ⟨t', true, ?_, hacc', hun', ?_, ?_, ?_, ?_⟩
      · simp only [updateBlockedStatusToBlocked, if_neg hm, Dict.item_of_get? hrs, ok_bind,
          if_neg hblocked, ho, hu, ht', pure_eq_ok]
      · intro r
        rw [hout', huout, List.mem_insert_iff, h.outBlocked, backChecked_concat]
        constructor
        · rintro (rfl | hr)
          · exact Or.inr (backChecked_concat.mp hnew)
          · exact hr.imp_right Or.inl
        · rintro (hr | hr | ⟨rfl, -, -⟩)
          · exact Or.inr (Or.inl hr)
          · exact Or.inr (Or.inr hr)
          · exact Or.inl rfl
      · intro r hr
        rcases humarks r (hisb' ▸ hr) with hr | ⟨rfl, hhard⟩
        · exact h.hard r hr
        · exact hhard
      · intro r hr
        rw [hacc'.isBlocked, hun', hout', huout]
        refine ⟨by simp, ?_⟩
        rcases humarks r (hisb' ▸ hr) with hr | ⟨rfl, -⟩
        · have hrb := h.hardBlocked r hr
          rw [h.accounted.isBlocked] at hrb
          exact hrb.2.imp_left List.mem_insert_of_mem
        · exact Or.inl (List.mem_insert_self)
      · intro r hr
        rcases List.mem_cons.mp hr with rfl | hr
        · exact hnewvb
        · exact h.waiting r hr

/-- The back check as a whole. -/
theorem backCheck_ok (hargs : UpdateArgs s newUndefined verifyBlocked verifyUnblocked)
    (h : Propagating s newUndefined t []) :
    ∃ t' work, t.backCheck verifyBlocked = .ok (t', work)
      ∧ Checking s newUndefined verifyBlocked verifyBlocked t' work := by
  obtain ⟨⟨t', work⟩, hok, hI⟩ : ∃ acc, t.backCheck verifyBlocked = .ok acc
      ∧ Checking s newUndefined verifyBlocked verifyBlocked acc.1 acc.2 := foldlM_ok
    (I := fun pre (acc : TransitiveUpdate × List ResourceIdStr) =>
      Checking s newUndefined verifyBlocked pre acc.1 acc.2)
    (fun pre a post acc hl hI => by
      obtain ⟨t₁, work⟩ := acc
      obtain ⟨t', blocked, ht', hchk⟩ := hI.step hargs hl
      exact ⟨(t', if blocked then a :: work else work), by dsimp only at ht' ⊢; rw [ht']; rfl,
        hchk⟩)
    (Checking.init hargs h)
  exact ⟨t', work, hok, hI⟩

end Checking

/-! ## Phase 3, propagation -/

/-- The invariant of the propagation of phase 3. It only ever blocks what is
blocked already. -/
structure Cascading (s : ModelState) (newUndefined verifyBlocked : List ResourceIdStr)
    (t : TransitiveUpdate) (work : List ResourceIdStr) : Prop where
  accounted : Accounted s t
  outUnblocked : t.outUnblocked = []
  sound : ∀ r ∈ t.outBlocked, Reached s newUndefined verifyBlocked r
    ∨ Cascaded s newUndefined verifyBlocked r
  reached : ∀ r, Reached s newUndefined verifyBlocked r → r ∈ t.outBlocked
  hard : ∀ r ∈ t.isBlocked, Provisional s newUndefined verifyBlocked r →
    HardBlocked s newUndefined verifyBlocked r
  waiting : ∀ r ∈ work, BackChecked s newUndefined verifyBlocked r
    ∨ Cascaded s newUndefined verifyBlocked r

section Cascading

variable {newUndefined verifyBlocked verifyUnblocked work pushed : List ResourceIdStr}

theorem Cascading.init
    (h : Checking s newUndefined verifyBlocked verifyBlocked t work) :
    Cascading s newUndefined verifyBlocked t work where
  accounted := h.accounted
  outUnblocked := h.outUnblocked
  sound := fun r hr => Or.inl ((h.outBlocked r).mp hr)
  reached := fun r hr => (h.outBlocked r).mpr hr
  hard := fun r hr _ => h.hard r hr
  waiting := fun r hr => Or.inl (h.waiting r hr)

theorem provisional_of_cascaded (h : Cascaded s newUndefined verifyBlocked r) :
    Provisional s newUndefined verifyBlocked r := by
  cases h with
  | source _ _ hp => exact hp
  | step _ _ hp => exact hp

theorem Cascading.isBlocked (h : Cascading s newUndefined verifyBlocked t work)
    (x : ResourceIdStr) :
    t.state.IsBlocked x ↔ Provisional s newUndefined verifyBlocked x := by
  rw [h.accounted.isBlocked, h.outUnblocked]
  constructor
  · rintro ⟨-, hx | hx⟩
    · rcases h.sound x hx with hx | hx
      · exact Or.inr hx
      · exact provisional_of_cascaded hx
    · exact Or.inl hx
  · rintro (hx | hx)
    · exact ⟨by simp, Or.inr hx⟩
    · exact ⟨by simp, Or.inl (h.reached x hx)⟩

/-- One dependant of an already blocked resource. -/
theorem Cascading.dependant (hcl : s.Closed) {a x : ResourceIdStr} {isHardBlock : Bool}
    (h : Cascading s newUndefined verifyBlocked t (pushed ++ work))
    (ha : BackChecked s newUndefined verifyBlocked a ∨ Cascaded s newUndefined verifyBlocked a)
    (hhard : isHardBlock = true → HardBlocked s newUndefined verifyBlocked a)
    (hx : a ∈ s.requiresOf x) :
    ∃ acc, propagateBlockedTo isHardBlock (t, pushed) x = .ok acc
      ∧ Cascading s newUndefined verifyBlocked acc.1 (acc.2 ++ work)
      ∧ (acc.2 = pushed ∨ acc.2 = x :: pushed) := by
  have hxs : x ∈ s.resourceState := (hcl x a hx).1
  have hmark : ∃ u, (if isHardBlock then t.markBlocked x else t) = u
      ∧ Cascading s newUndefined verifyBlocked u (pushed ++ work) := by
    cases isHardBlock with
    | false => exact ⟨t, rfl, h⟩
    | true =>
        refine ⟨t.markBlocked x, rfl, h.accounted.markBlocked, h.outUnblocked, h.sound,
          h.reached, fun r hr hp => ?_, h.waiting⟩
        rcases List.mem_insert_iff.mp hr with rfl | hr
        · exact .step (hhard rfl) hx hp
        · exact h.hard r hr hp
  obtain ⟨u, hu, hcas⟩ := hmark
  obtain ⟨rs, hrs, hb, -⟩ := hcas.accounted.get? hxs
  by_cases hblocked : rs.blocked = .blocked
  · obtain ⟨t', ht', hacc, hisb, hout, hun⟩ := hcas.accounted.block hxs hcas.outUnblocked
    have hcasc : Cascaded s newUndefined verifyBlocked x := by
      have hp := (hcas.isBlocked x).mp (hb.mp hblocked)
      rcases ha with ha | ha
      · exact .source ha hx hp
      · exact .step ha hx hp
    refine ⟨(t', x :: pushed), ?_, ⟨hacc, hun, ?_, ?_, ?_, ?_⟩, Or.inr rfl⟩
    · simp only [propagateBlockedTo, hu, Dict.item_of_get? hrs, ok_bind, hblocked,
        ne_eq, not_true_eq_false, if_false, ht', pure_eq_ok]
    · intro r hr
      rcases List.mem_insert_iff.mp (hout ▸ hr) with rfl | hr
      · exact Or.inr hcasc
      · exact hcas.sound r hr
    · exact fun r hr => hout ▸ List.mem_insert_of_mem (hcas.reached r hr)
    · exact fun r hr => hcas.hard r (hisb ▸ hr)
    · intro r hr
      rcases List.mem_cons.mp hr with rfl | hr
      · exact Or.inr hcasc
      · exact hcas.waiting r hr
  · refine ⟨(u, pushed), ?_, hcas, Or.inl rfl⟩
    simp only [propagateBlockedTo, hu, Dict.item_of_get? hrs, ok_bind, ne_eq, hblocked,
      not_false_eq_true, if_true, pure_eq_ok]

theorem Cascading.step (hcl : s.Closed) {a : ResourceIdStr}
    (h : Cascading s newUndefined verifyBlocked t (a :: work)) :
    ∃ t' push, propagateBlocked a t = .ok (t', push)
      ∧ Cascading s newUndefined verifyBlocked t' (push ++ work)
      ∧ ∀ x ∈ push, a ∈ s.requiresOf x := by
  have ha := h.waiting a (List.mem_cons_self ..)
  have hprov : Provisional s newUndefined verifyBlocked a := by
    rcases ha with ha | ha
    · exact Or.inr (Or.inr ha)
    · exact provisional_of_cascaded ha
  have hrest : Cascading s newUndefined verifyBlocked t ([] ++ work) :=
    ⟨h.accounted, h.outUnblocked, h.sound, h.reached, h.hard,
      fun r hr => h.waiting r (List.mem_cons_of_mem _ hr)⟩
  have hhard : decide (a ∈ t.isBlocked) = true → HardBlocked s newUndefined verifyBlocked a :=
    fun hd => h.hard a (of_decide_eq_true hd) hprov
  obtain ⟨⟨t', push⟩, hok, hI, hpush⟩ := foldlM_ok
    (I := fun _ (acc : TransitiveUpdate × List ResourceIdStr) =>
      Cascading s newUndefined verifyBlocked acc.1 (acc.2 ++ work)
        ∧ ∀ x ∈ acc.2, a ∈ s.requiresOf x)
    (f := propagateBlockedTo (a ∈ t.isBlocked)) (l := t.state.providesOf a) (s := (t, []))
    (fun pre x post acc hl hI => by
      obtain ⟨u, pushed⟩ := acc
      have hx : a ∈ s.requiresOf x := by
        rw [← ModelState.mem_providesOf, ← h.accounted.providesOf, hl]
        simp
      obtain ⟨acc', hacc', hcas, hcase⟩ := hI.1.dependant hcl ha hhard hx
      refine ⟨acc', hacc', hcas, fun y hy => ?_⟩
      rcases hcase with hcase | hcase
      · exact hI.2 y (hcase ▸ hy)
      · rcases List.mem_cons.mp (hcase ▸ hy) with rfl | hy
        · exact hx
        · exact hI.2 y hy)
    ⟨hrest, by simp⟩
  exact ⟨t', push, hok, hI, hpush⟩

end Cascading

/-! ## Phase 4 -/

/-- The invariant of phase 4: what is unblocked is released, and a candidate
that is still blocked is on the worklist or has a reason to be blocked. -/
structure Releasing (s : ModelState)
    (newUndefined verifyBlocked verifyUnblocked outBlocked : List ResourceIdStr)
    (t : TransitiveUpdate) (work : List ResourceIdStr) : Prop where
  accounted : Accounted s t
  outBlocked : t.outBlocked = outBlocked
  isBlocked : ∀ r, t.state.IsBlocked r ↔
    Provisional s newUndefined verifyBlocked r ∧ r ∉ t.outUnblocked
  sound : ∀ r ∈ t.outUnblocked, Released s newUndefined verifyBlocked verifyUnblocked r
  hard : ∀ r ∈ t.isBlocked, Provisional s newUndefined verifyBlocked r →
    HardBlocked s newUndefined verifyBlocked r
  waiting : ∀ r ∈ work, r ∈ s.resourceState
    ∧ (r ∈ verifyUnblocked ∨ ∃ d ∈ s.requiresOf r, d ∈ t.outUnblocked)
  pending : ∀ r, Provisional s newUndefined verifyBlocked r → r ∉ t.outUnblocked →
    (r ∈ verifyUnblocked ∨ ∃ d ∈ s.requiresOf r, d ∈ t.outUnblocked) →
    r ∈ work ∨ r ∈ t.isBlocked ∨ ∃ d ∈ s.requiresOf r, t.state.IsBlocked d

section Releasing

variable {newUndefined verifyBlocked verifyUnblocked outBlocked work : List ResourceIdStr}

theorem Releasing.init (hargs : UpdateArgs s newUndefined verifyBlocked verifyUnblocked)
    (h : Cascading s newUndefined verifyBlocked t []) :
    Releasing s newUndefined verifyBlocked verifyUnblocked t.outBlocked t
      verifyUnblocked.reverse where
  accounted := h.accounted
  outBlocked := rfl
  isBlocked := fun r => by simp [h.isBlocked, h.outUnblocked]
  sound := by simp [h.outUnblocked]
  hard := h.hard
  waiting := by
    intro r hr
    rw [List.mem_reverse] at hr
    exact ⟨hargs.verifyUnblocked r hr, Or.inl hr⟩
  pending := by
    intro r _ _ hr
    left
    simpa [h.outUnblocked] using hr

/-- A resource that stays as it is for a reason leaves the worklist. -/
theorem Releasing.skip
    (h : Releasing s newUndefined verifyBlocked verifyUnblocked outBlocked t (r :: work))
    {t' : TransitiveUpdate} (hacc : Accounted s t') (hstate : t'.state = t.state)
    (hout : t'.outBlocked = t.outBlocked) (hun : t'.outUnblocked = t.outUnblocked)
    (hmono : ∀ x ∈ t.isBlocked, x ∈ t'.isBlocked)
    (hhard : ∀ x ∈ t'.isBlocked, Provisional s newUndefined verifyBlocked x →
      HardBlocked s newUndefined verifyBlocked x)
    (hreason : ¬ t.state.IsBlocked r ∨ r ∈ t'.isBlocked
      ∨ ∃ d ∈ s.requiresOf r, t.state.IsBlocked d) :
    Releasing s newUndefined verifyBlocked verifyUnblocked outBlocked t' work where
  accounted := hacc
  outBlocked := hout.trans h.outBlocked
  isBlocked := fun x => by rw [hstate, hun]; exact h.isBlocked x
  sound := fun x hx => h.sound x (hun ▸ hx)
  hard := hhard
  waiting := fun x hx => by rw [hun]; exact h.waiting x (List.mem_cons_of_mem _ hx)
  pending := by
    intro x hx hxun hcand
    rw [hun] at hxun hcand
    rw [hstate]
    rcases h.pending x hx hxun hcand with hw | hw | hw
    · rcases List.mem_cons.mp hw with rfl | hw
      · rcases hreason with hnb | hreason
        · exact absurd ((h.isBlocked x).mpr ⟨hx, hxun⟩) hnb
        · exact Or.inr hreason
      · exact Or.inl hw
    · exact Or.inr (Or.inl (hmono x hw))
    · exact Or.inr (Or.inr hw)

/-- A resource without a blocked requirement is unblocked. -/
theorem Releasing.release
    (h : Releasing s newUndefined verifyBlocked verifyUnblocked outBlocked t (r :: work))
    (hb : t.state.IsBlocked r) (hdef : ¬ s.IsUndefined r)
    (hreq : ∀ d ∈ s.requiresOf r, ¬ t.state.IsBlocked d) :
    Released s newUndefined verifyBlocked verifyUnblocked r := by
  have hreleased : ∀ d ∈ s.requiresOf r, Provisional s newUndefined verifyBlocked d →
      d ∈ t.outUnblocked := by
    intro d hd hp
    by_contra hn
    exact hreq d hd ((h.isBlocked d).mpr ⟨hp, hn⟩)
  refine .intro ((h.isBlocked r).mp hb).1 hdef
    (fun d hd hp => h.sound d (hreleased d hd hp)) ?_
  rcases (h.waiting r (List.mem_cons_self ..)).2 with hvu | ⟨d, hd, hdun⟩
  · exact Or.inl hvu
  · exact Or.inr ⟨d, hd, (h.sound d hdun).provisional⟩

end Releasing

/-- Unblocking one more resource. -/
theorem Accounted.unblock (h : Accounted s t) (hr : r ∈ s.resourceState) :
    ∃ state, t.state.unblockResource r = .ok state
      ∧ Accounted s { t with state, outUnblocked := t.outUnblocked.insert r }
      ∧ ∀ x, state.IsBlocked x ↔ x ≠ r ∧ t.state.IsBlocked x := by
  obtain ⟨state, hs, hsame, hb, hd⟩ :=
    ModelState.unblockResource_ok (h.same.mem_resourceState.mpr hr)
  refine ⟨state, hs, ⟨h.same.trans hsame, fun x => ?_, fun x => ?_, h.known⟩, fun x => ?_⟩
  · rw [hb, h.blocked]
    by_cases hx : x = r <;> simp [hx]
  · have hcompl : t.state.HasDirtyCompliance r ↔ s.HasDirtyCompliance r := by
      simp only [ModelState.HasDirtyCompliance, h.same.compliance?]
    rw [hd, h.dirty, hcompl]
    by_cases hx : x = r
    · subst hx
      simp
      tauto
    · simp [hx]
  · rw [ModelState.IsBlocked, ModelState.IsBlocked, hb]
    by_cases hx : x = r <;> simp [hx]

section Releasing

variable {newUndefined verifyBlocked verifyUnblocked outBlocked work : List ResourceIdStr}

theorem Releasing.step (hcl : s.Closed)
    (h : Releasing s newUndefined verifyBlocked verifyUnblocked outBlocked t (r :: work)) :
    ∃ t' push, TransitiveUpdate.verifyUnblocked r t = .ok (t', push)
      ∧ Releasing s newUndefined verifyBlocked verifyUnblocked outBlocked t' (push ++ work)
      ∧ ∀ x ∈ push, r ∈ s.requiresOf x := by
  have hr : r ∈ s.resourceState := (h.waiting r (List.mem_cons_self ..)).1
  obtain ⟨rs, hrs, hb, hundef⟩ := h.accounted.get? hr
  by_cases hm : r ∈ t.isBlocked
  · refine ⟨t, [], ?_, h.skip h.accounted rfl rfl rfl (fun _ hx => hx) h.hard
      (Or.inr (Or.inl hm)), by simp⟩
    rw [TransitiveUpdate.verifyUnblocked, updateBlockedStatus, if_pos hm]
    rfl
  by_cases hblocked : rs.blocked = .blocked
  swap
  · refine ⟨t, [], ?_, h.skip h.accounted rfl rfl rfl (fun _ hx => hx) h.hard
      (Or.inl fun hx => hblocked (hb.mpr hx)), by simp⟩
    simp [TransitiveUpdate.verifyUnblocked, updateBlockedStatus, Dict.item_of_get? hrs,
      hblocked]
  by_cases hu : rs.compliance = .undefined
  · refine ⟨t.markBlocked r, [], ?_, h.skip h.accounted.markBlocked rfl rfl rfl
      (fun _ hx => List.mem_insert_of_mem hx) ?_ (Or.inr (Or.inl List.mem_insert_self)),
      by simp⟩
    · simp [TransitiveUpdate.verifyUnblocked, updateBlockedStatus, if_neg hm,
        Dict.item_of_get? hrs, hblocked, hu]
    · intro x hx hp
      rcases List.mem_insert_iff.mp hx with rfl | hx
      · exact .undefined (hundef.mp hu) hp
      · exact h.hard x hx hp
  obtain ⟨t₁, o, ho, hacc, hstate, hisb, hout, hun, hsome, hnone⟩ :=
    h.accounted.blockedDependency hcl r
  cases o with
  | some d =>
      obtain ⟨hreq, hdb⟩ := hsome d rfl
      refine ⟨t₁, [], ?_, h.skip hacc hstate hout hun (fun x hx => hisb ▸ hx)
        (fun x hx => h.hard x (hisb ▸ hx)) (Or.inr (Or.inr ⟨d, hreq, hdb⟩)), by simp⟩
      simp [TransitiveUpdate.verifyUnblocked, updateBlockedStatus, if_neg hm,
        Dict.item_of_get? hrs, hblocked, hu, ho]
  | none =>
      have hrel := h.release (hb.mp hblocked) (fun hx => hu (hundef.mpr hx)) (hnone rfl)
      obtain ⟨state, hs, hacc', hblk⟩ := hacc.unblock hr
      simp only [hstate] at hblk
      refine ⟨{ t₁ with state, outUnblocked := t₁.outUnblocked.insert r },
        (state.providesOf r).reverse, ?_, ⟨hacc', ?_, ?_, ?_, ?_, ?_, ?_⟩, ?_⟩
      · simp [TransitiveUpdate.verifyUnblocked, updateBlockedStatus, if_neg hm,
          Dict.item_of_get? hrs, hblocked, hu, ho, hs]
      · exact hout.trans h.outBlocked
      · intro x
        rw [hblk, h.isBlocked, hun]
        simp only [List.mem_insert_iff, not_or]
        tauto
      · intro x hx
        rcases List.mem_insert_iff.mp hx with rfl | hx
        · exact hrel
        · exact h.sound x (hun ▸ hx)
      · exact fun x hx => h.hard x (hisb ▸ hx)
      · intro x hx
        rw [List.mem_append, List.mem_reverse, ModelState.mem_providesOf, hacc'.same.requiresOf]
          at hx
        rcases hx with hx | hx
        · exact ⟨(hcl x r hx).1, Or.inr ⟨r, hx, List.mem_insert_self⟩⟩
        · refine ⟨(h.waiting x (List.mem_cons_of_mem _ hx)).1, ?_⟩
          refine (h.waiting x (List.mem_cons_of_mem _ hx)).2.imp_right ?_
          rintro ⟨d, hd, hdun⟩
          exact ⟨d, hd, List.mem_insert_of_mem (hun ▸ hdun)⟩
      · intro x hx hxun hcand
        rw [List.mem_append, List.mem_reverse, ModelState.mem_providesOf, hacc'.same.requiresOf]
        simp only [List.mem_insert_iff, not_or, hun] at hxun hcand
        -- a dependant of the released resource is pushed, any other keeps its reason
        by_cases hreq : r ∈ s.requiresOf x
        · exact Or.inl (Or.inl hreq)
        have hcand' : x ∈ verifyUnblocked ∨ ∃ d ∈ s.requiresOf x, d ∈ t.outUnblocked := by
          refine hcand.imp_right ?_
          rintro ⟨d, hd, rfl | hdun⟩
          · exact absurd hd hreq
          · exact ⟨d, hd, hdun⟩
        rcases h.pending x hx hxun.2 hcand' with hw | hw | ⟨d, hd, hdb⟩
        · rcases List.mem_cons.mp hw with rfl | hw
          · exact absurd rfl hxun.1
          · exact Or.inl (Or.inr hw)
        · exact Or.inr (Or.inl (hisb.symm ▸ hw))
        · exact Or.inr (Or.inr ⟨d, hd, (hblk d).mpr ⟨fun e => hreq (e ▸ hd), hdb⟩⟩)
      · intro x hx
        rwa [List.mem_reverse, ModelState.mem_providesOf, hacc'.same.requiresOf]
          at hx

/-- Phase 4 unblocks exactly the released resources. -/
theorem Releasing.outUnblocked
    (h : Releasing s newUndefined verifyBlocked verifyUnblocked outBlocked t [])
    (x : ResourceIdStr) :
    x ∈ t.outUnblocked ↔ Released s newUndefined verifyBlocked verifyUnblocked x := by
  constructor
  · exact h.sound x
  · intro hx
    induction hx with
    | @intro r hp hdef hall hcand ih =>
      by_contra hn
      have hcand' : r ∈ verifyUnblocked ∨ ∃ d ∈ s.requiresOf r, d ∈ t.outUnblocked := by
        refine hcand.imp_right ?_
        rintro ⟨d, hd, hpd⟩
        exact ⟨d, hd, ih d hd hpd⟩
      rcases h.pending r hp hn hcand' with hw | hw | ⟨d, hd, hdb⟩
      · exact absurd hw List.not_mem_nil
      · exact (h.hard r hw hp).not_released (.intro hp hdef hall hcand)
      · obtain ⟨hpd, hdn⟩ := (h.isBlocked d).mp hdb
        exact hdn (ih d hd hpd)

end Releasing

/-! ## The whole update -/

/-- What a completed update did. -/
structure UpdateSpec (s : ModelState)
    (newUndefined verifyBlocked verifyUnblocked : List ResourceIdStr)
    (s' : ModelState) (outUnblocked outBlocked : List ResourceIdStr) : Prop where
  same : SameButBlocked s s'
  blocked : ∀ r, s'.blocked? r =
    if r ∈ outUnblocked then some .notBlocked
    else if r ∈ outBlocked then some .blocked else s.blocked? r
  dirty : ∀ r, r ∈ s'.dirty ↔
    (r ∈ outUnblocked ∧ s.HasDirtyCompliance r) ∨ (r ∈ s.dirty ∧ r ∉ outBlocked)
  unblocked : ∀ r, r ∈ outUnblocked ↔
    Released s newUndefined verifyBlocked verifyUnblocked r
  reached : ∀ r, Reached s newUndefined verifyBlocked r → r ∈ outBlocked
  sound : ∀ r ∈ outBlocked, Reached s newUndefined verifyBlocked r
    ∨ Cascaded s newUndefined verifyBlocked r
  isBlocked : ∀ r, s'.IsBlocked r ↔
    Provisional s newUndefined verifyBlocked r
      ∧ ¬ Released s newUndefined verifyBlocked verifyUnblocked r

section Update

variable {newUndefined verifyBlocked verifyUnblocked : List ResourceIdStr}

theorem Releasing.spec {u : TransitiveUpdate}
    (hcas : Cascading s newUndefined verifyBlocked u [])
    (h : Releasing s newUndefined verifyBlocked verifyUnblocked u.outBlocked t []) :
    UpdateSpec s newUndefined verifyBlocked verifyUnblocked t.state t.outUnblocked
      t.outBlocked where
  same := h.accounted.same
  blocked := h.accounted.blocked
  dirty := h.accounted.dirty
  unblocked := h.outUnblocked
  reached := fun r hr => h.outBlocked ▸ hcas.reached r hr
  sound := fun r hr => hcas.sound r (h.outBlocked ▸ hr)
  isBlocked := fun r => by rw [h.isBlocked, h.outUnblocked]

/-- **The propagation does what it is described to do**, for every model whose
requires relation is closed and all parameter sets. -/
theorem updateTransitiveState_spec {fuel : ℕ} {s' : ModelState}
    {outUnblocked outBlocked : List ResourceIdStr}
    (hargs : UpdateArgs s newUndefined verifyBlocked verifyUnblocked)
    (hok : s.updateTransitiveState fuel newUndefined verifyBlocked verifyUnblocked
      = .ok (s', outUnblocked, outBlocked)) :
    UpdateSpec s newUndefined verifyBlocked verifyUnblocked s' outUnblocked outBlocked := by
  rw [ModelState.updateTransitiveState] at hok
  obtain ⟨t₂, h₂, hok⟩ := bind_eq_ok.mp hok
  have hprop : Propagating s newUndefined t₂ [] :=
    drain_invariant (fun a w t t' push hI hs => by
      obtain ⟨t'', push', hs', hI', -⟩ := hI.step hargs.closed
      obtain ⟨rfl, rfl⟩ := Prod.mk.inj (Except.ok.inj (hs'.symm.trans hs))
      exact hI') h₂ (.init hargs)
  obtain ⟨t₃, work, h₃, hchk⟩ := backCheck_ok hargs hprop
  rw [h₃, ok_bind] at hok
  obtain ⟨t₄, h₄, hok⟩ := bind_eq_ok.mp hok
  have hcas : Cascading s newUndefined verifyBlocked t₄ [] :=
    drain_invariant (fun a w t t' push hI hs => by
      obtain ⟨t'', push', hs', hI', -⟩ := hI.step hargs.closed
      obtain ⟨rfl, rfl⟩ := Prod.mk.inj (Except.ok.inj (hs'.symm.trans hs))
      exact hI') h₄ (.init hchk)
  obtain ⟨t₅, h₅, hok⟩ := bind_eq_ok.mp hok
  have hrel : Releasing s newUndefined verifyBlocked verifyUnblocked t₄.outBlocked t₅ [] :=
    drain_invariant (fun a w t t' push hI hs => by
      obtain ⟨t'', push', hs', hI', -⟩ := hI.step hargs.closed
      obtain ⟨rfl, rfl⟩ := Prod.mk.inj (Except.ok.inj (hs'.symm.trans hs))
      exact hI') h₅ (.init hargs hcas)
  obtain ⟨rfl, heq⟩ := Prod.mk.inj (Except.ok.inj hok)
  obtain ⟨rfl, rfl⟩ := Prod.mk.inj heq
  exact hrel.spec hcas

/-- **The propagation completes** on a model whose requires relation has no
cycles: every loop pushes dependants of the resource it takes. -/
theorem updateTransitiveState_terminates
    (hargs : UpdateArgs s newUndefined verifyBlocked verifyUnblocked)
    (hac : s.AcyclicRequires) :
    ∃ n, ∀ fuel ≥ n, ∃ result,
      s.updateTransitiveState fuel newUndefined verifyBlocked verifyUnblocked = .ok result := by
  have hwf : WellFounded fun r d => d ∈ s.requiresOf r :=
    hac.swap.wellFounded s.resourceState.keys fun d r hd => Dict.mem_keys.mpr (hargs.closed r d hd).2
  obtain ⟨n₂, t₂, h₂, hprop⟩ := drain_of_wf PyError.outOfFuel hwf
    (fun a w t (hI : Propagating s newUndefined t (a :: w)) => hI.step hargs.closed)
    _ _ (Propagating.init hargs)
  obtain ⟨t₃, work, h₃, hchk⟩ := backCheck_ok hargs hprop
  obtain ⟨n₄, t₄, h₄, hcas⟩ := drain_of_wf PyError.outOfFuel hwf
    (fun a w t (hI : Cascading s newUndefined verifyBlocked t (a :: w)) => hI.step hargs.closed)
    _ _ (Cascading.init hchk)
  obtain ⟨n₅, t₅, h₅, -⟩ := drain_of_wf PyError.outOfFuel hwf
    (fun a w t (hI : Releasing s newUndefined verifyBlocked verifyUnblocked t₄.outBlocked t
      (a :: w)) => hI.step hargs.closed)
    _ _ (Releasing.init hargs hcas)
  refine ⟨n₂ + n₄ + n₅, fun fuel hfuel => ⟨(t₅.state, t₅.outUnblocked, t₅.outBlocked), ?_⟩⟩
  rw [ModelState.updateTransitiveState]
  simp only [drain_mono h₂ (show n₂ ≤ fuel by omega), h₃, ok_bind,
    drain_mono h₄ (show n₄ ≤ fuel by omega), drain_mono h₅ (show n₅ ≤ fuel by omega),
    pure_eq_ok]

end Update

end TransitiveUpdate

end Inmanta
