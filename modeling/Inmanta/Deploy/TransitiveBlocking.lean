import Inmanta.Deploy.ModelEdits
import Inmanta.Deploy.TransitivePhases

/-!
# Blocked if and only if something undefined is required

What the propagation owes the scheduler: when the blocked status was exact
before a set of edits (`ExactFlags`), it is exact again once
`ModelState.updateTransitiveState` has run with the parameter sets of the
edits (`EditArgs`).

Half of it holds. `blocked_has_reason` is the statement about phase 4: no
resource stays blocked without an undefined transitive requirement. The
other half has an exception: the propagation of phase 3 skips the
dependants that are not blocked, the ones it is there for, so a dependant
of a back-checked resource is only found by its own back check.
`undefined_blocks_iff` states exactly when that matters.
-/

namespace Inmanta

namespace ModelState

variable {s s₁ s₂ s' : ModelState} {r : ResourceIdStr}

/-! ## Exact blocked statuses -/

/-- A resource is blocked exactly when it or a transitive requirement is
undefined, and no blocked resource is dirty. -/
structure ExactFlags (s : ModelState) : Prop where
  valid : s.Valid
  blocked : ∀ r, s.IsBlocked r ↔ s.NeedsUndefined r
  dirty : ∀ r ∈ s.dirty, ¬ s.IsBlocked r

theorem IsUndefined.needsUndefined (h : s.IsUndefined r) : s.NeedsUndefined r :=
  ⟨r, .refl, h⟩

theorem NeedsUndefined.of_requires {d : ResourceIdStr} (hd : d ∈ s.requiresOf r)
    (h : s.NeedsUndefined d) : s.NeedsUndefined r := by
  obtain ⟨u, hdu, hu⟩ := h
  exact ⟨u, .head hd hdu, hu⟩

/-- The first step towards the undefined resource. -/
theorem needsUndefined_iff : s.NeedsUndefined r ↔
    s.IsUndefined r ∨ ∃ d ∈ s.requiresOf r, s.NeedsUndefined d := by
  constructor
  · rintro ⟨u, hru, hu⟩
    rcases Relation.ReflTransGen.cases_head hru with rfl | ⟨d, hd, hdu⟩
    · exact Or.inl hu
    · exact Or.inr ⟨d, hd, u, hdu, hu⟩
  · rintro (hu | ⟨d, hd, hdu⟩)
    · exact IsUndefined.needsUndefined hu
    · exact hdu.of_requires hd

theorem mem_resourceState_of_compliance? {c : Compliance} (h : s.compliance? r = some c) :
    r ∈ s.resourceState := by
  obtain ⟨rs, hrs, -⟩ := Option.map_eq_some_iff.mp h
  exact Dict.mem_of_get? hrs

/-- In an acyclic model it is enough that every status agrees with the direct
requirements. -/
theorem blocked_iff_needsUndefined (hv : s.Valid) (hac : s.AcyclicRequires)
    (hlocal : ∀ r, s.IsBlocked r ↔
      s.IsUndefined r ∨ ∃ d ∈ s.requiresOf r, s.IsBlocked d) (r : ResourceIdStr) :
    s.IsBlocked r ↔ s.NeedsUndefined r := by
  have hwf : WellFounded fun d r => d ∈ s.requiresOf r :=
    hac.wellFounded s.resourceState.keys fun r d hd => Dict.mem_keys.mpr (hv.closed r d hd).1
  induction r using hwf.induction with
  | _ r ih =>
    rw [hlocal, needsUndefined_iff]
    exact or_congr_right ⟨fun ⟨d, hd, hb⟩ => ⟨d, hd, (ih d hd).mp hb⟩,
      fun ⟨d, hd, hb⟩ => ⟨d, hd, (ih d hd).mpr hb⟩⟩

/-! ## Sets of edits -/

/-- Managed once the updates are applied. -/
def ManagedAfter (s : ModelState) (us : List ResourceUpdate) (x : ResourceIdStr) : Prop :=
  (∃ u ∈ us, u.resource = x) ∨ x ∈ s.resourceState

instance (s : ModelState) (us : List ResourceUpdate) (x : ResourceIdStr) :
    Decidable (s.ManagedAfter us x) :=
  inferInstanceAs (Decidable (_ ∨ _))

/-- A set of edits: every resource is added or changed at most once (none is
created anew), gets its requires at most once, and the requires of the
resulting model are in the model. -/
structure EditSet (s : ModelState) (us : List ResourceUpdate)
    (es : List (ResourceIdStr × List ResourceIdStr)) : Prop where
  distinct : (us.map ResourceUpdate.resource).Nodup
  consistent : ∀ u ∈ us, ¬ (u.undefined = true ∧ u.knownCompliant = true)
  keeps : ∀ u ∈ us, ¬ s.Recreates u
  distinctRequires : (es.map Prod.fst).Nodup
  managed : ∀ e ∈ es, s.ManagedAfter us e.1 ∧ ∀ d ∈ e.2, s.ManagedAfter us d

/-- Apply the updates of the resources, then those of the requires relation. -/
def edit (s : ModelState) (us : List ResourceUpdate)
    (es : List (ResourceIdStr × List ResourceIdStr)) : Except PyError ModelState := do
  let s ← s.applyUpdates us
  s.applyRequires es

/-- The parameter sets that go with the edits that turned `s` into `s₂`: the
resources that became undefined, those that added a requirement, and those that
became defined or dropped one. -/
structure EditArgs (s s₂ : ModelState)
    (newUndefined verifyBlocked verifyUnblocked : List ResourceIdStr) : Prop where
  newUndefined : ∀ r, r ∈ newUndefined ↔ s₂.IsUndefined r ∧ ¬ s.IsUndefined r
  verifyBlocked : ∀ r, r ∈ verifyBlocked ↔ ∃ d ∈ s₂.requiresOf r, d ∉ s.requiresOf r
  verifyUnblocked : ∀ r, r ∈ verifyUnblocked ↔
    (s.IsUndefined r ∧ ¬ s₂.IsUndefined r) ∨ ∃ d ∈ s.requiresOf r, d ∉ s₂.requiresOf r

/-- What is known of the model after a set of edits. -/
structure Edited (s s₂ : ModelState) : Prop where
  valid : s₂.Valid
  mono : ∀ r ∈ s.resourceState, r ∈ s₂.resourceState
  blocked : ∀ r, s₂.IsBlocked r ↔ s.IsBlocked r ∨ s₂.IsUndefined r
  dirty : ∀ r ∈ s₂.dirty, ¬ s₂.IsBlocked r
  freed : ∀ r, s₂.blocked? r = some .notBlocked → s.blocked? r ≠ some .notBlocked →
    s₂.HasDirtyCompliance r → r ∈ s₂.dirty

theorem updatedState_compliance {u : ResourceUpdate}
    (hu : ¬ (u.undefined = true ∧ u.knownCompliant = true)) :
    (s.updatedState u).compliance = .undefined ↔ u.undefined = true := by
  unfold updatedState
  cases hn : u.forceNew <;> cases hd : u.undefined <;> cases hk : u.knownCompliant <;>
    cases s.resourceState.get? u.resource <;> simp_all [createdState, refreshedState]

theorem updatedState_blocked {u : ResourceUpdate} (hu : ¬ s.Recreates u) :
    (s.updatedState u).blocked = .blocked ↔ s.IsBlocked u.resource ∨ u.undefined = true := by
  cases hrs : s.resourceState.get? u.resource with
  | none => cases hd : u.undefined <;> simp [updatedState, hrs, createdState, IsBlocked, blocked?, hd]
  | some rs =>
      have hnew : u.forceNew = false := by
        by_contra h
        exact hu ⟨by simpa using h, Dict.mem_of_get? hrs⟩
      cases hd : u.undefined <;> cases hb : rs.blocked <;>
        simp [updatedState, hrs, hnew, refreshedState, IsBlocked, blocked?, hd, hb]

/-- Either the resource is updated, or it is as before. -/
theorem touched_or_untouched (us : List ResourceUpdate) (x : ResourceIdStr) :
    (∃ u ∈ us, u.resource = x) ∨ Untouched us x := by
  by_cases h : ∃ u ∈ us, u.resource = x
  · exact Or.inl h
  · exact Or.inr fun u hu hux => h ⟨u, hu, hux⟩

theorem UpdatedAll.edited {us : List ResourceUpdate} (h : UpdatedAll s us s₁)
    (hs : ExactFlags s)
    (hcons : ∀ u ∈ us, ¬ (u.undefined = true ∧ u.knownCompliant = true))
    (hkeeps : ∀ u ∈ us, ¬ s.Recreates u) : Edited s s₁ := by
  have hget : ∀ u ∈ us, s₁.resourceState.get? u.resource = some (s.updatedState u) := h.state
  refine ⟨h.valid, fun r hr => h.mem_resourceState.mpr (Or.inr hr), ?_, ?_, ?_⟩
  · intro r
    rcases touched_or_untouched us r with ⟨u, hu, rfl⟩ | hr
    · have hund : s₁.IsUndefined u.resource ↔ u.undefined = true := by
        rw [IsUndefined, compliance?_of_get? (hget u hu), Option.some.injEq,
          updatedState_compliance (hcons u hu)]
      rw [hund, IsBlocked, blocked?_of_get? (hget u hu), Option.some.injEq,
        updatedState_blocked (hkeeps u hu)]
    · have hb : s₁.IsBlocked r ↔ s.IsBlocked r := by
        rw [IsBlocked, blocked?, h.stateOther r hr, IsBlocked, blocked?]
      have hund : s₁.IsUndefined r ↔ s.IsUndefined r := by
        rw [IsUndefined, compliance?, h.stateOther r hr, IsUndefined, compliance?]
      rw [hb, hund]
      exact ⟨Or.inl, fun hx => hx.elim id fun hu =>
        (hs.blocked r).mpr (IsUndefined.needsUndefined hu)⟩
  · intro r hd
    rcases touched_or_untouched us r with ⟨u, hu, rfl⟩ | hr
    · rw [IsBlocked, blocked?_of_get? (hget u hu), ((h.dirty u hu).mp hd).2]
      simp
    · rw [IsBlocked, blocked?, h.stateOther r hr]
      exact hs.dirty r ((h.dirtyOther r hr).mp hd)
  · intro r hnb hnb₀ hc
    rcases touched_or_untouched us r with ⟨u, hu, rfl⟩ | hr
    · refine (h.dirty u hu).mpr ⟨?_, by simpa [blocked?_of_get? (hget u hu)] using hnb⟩
      obtain ⟨c, hc, hcd⟩ := hc
      rw [compliance?_of_get? (hget u hu), Option.some.injEq] at hc
      cases hk : u.knownCompliant with
      | false => rfl
      | true =>
          have : (s.updatedState u).compliance = .compliant := by
            unfold updatedState
            cases s.resourceState.get? u.resource <;> cases u.forceNew <;>
              simp [createdState, refreshedState, hk]
          rw [← hc, this] at hcd
          exact absurd hcd (by decide)
    · rw [blocked?, h.stateOther r hr] at hnb
      exact absurd hnb hnb₀

theorem RequiresUpdatedAll.compliance? {es : List (ResourceIdStr × List ResourceIdStr)}
    (h : RequiresUpdatedAll s es s₁) (r : ResourceIdStr) :
    s₁.compliance? r = s.compliance? r := by
  rw [ModelState.compliance?, ModelState.compliance?, h.state]
  split
  · cases s.resourceState.get? r <;> rfl
  · rfl

theorem RequiresUpdatedAll.blocked? {es : List (ResourceIdStr × List ResourceIdStr)}
    (h : RequiresUpdatedAll s es s₁) (r : ResourceIdStr) :
    s₁.blocked? r = if s.RecoversIn es r then some .notBlocked else s.blocked? r := by
  rw [ModelState.blocked?, h.state]
  split
  · rename_i hrec
    obtain ⟨e, -, rfl, hrec⟩ := hrec
    obtain ⟨rs, hrs, -⟩ := Option.map_eq_some_iff.mp hrec.1
    simp [hrs]
  · rfl

theorem RecoversIn.blocked? {es : List (ResourceIdStr × List ResourceIdStr)}
    (h : s.RecoversIn es r) : s.blocked? r = some .temporarilyBlocked := by
  obtain ⟨e, -, rfl, hrec⟩ := h
  exact hrec.1

theorem RequiresUpdatedAll.isBlocked {es : List (ResourceIdStr × List ResourceIdStr)}
    (h : RequiresUpdatedAll s es s₁) (r : ResourceIdStr) : s₁.IsBlocked r ↔ s.IsBlocked r := by
  rw [IsBlocked, h.blocked?]
  split
  · rename_i hrec
    simp [IsBlocked, hrec.blocked?]
  · rfl

theorem Edited.requires {es : List (ResourceIdStr × List ResourceIdStr)}
    (h : Edited s s₁) (h₁ : RequiresUpdatedAll s₁ es s₂) : Edited s s₂ where
  valid := h₁.valid
  mono := fun r hr => h₁.mem_resourceState.mpr (h.mono r hr)
  blocked := fun r => by rw [h₁.isBlocked, h.blocked, IsUndefined, IsUndefined, h₁.compliance?]
  dirty := by
    intro r hr
    rw [h₁.isBlocked]
    rcases (h₁.dirty r).mp hr with hr | hr
    · exact h.dirty r hr
    · simp [IsBlocked, hr.blocked?]
  freed := by
    intro r hnb hnb₀ hc
    rw [h₁.dirty]
    rw [h₁.blocked?] at hnb
    split at hnb
    · rename_i hrec
      exact Or.inr hrec
    · simp only [HasDirtyCompliance, h₁.compliance?] at hc
      exact Or.inl (h.freed r hnb hnb₀ hc)

/-- A set of edits can be applied to a valid model. -/
theorem edit_ok {us : List ResourceUpdate} {es : List (ResourceIdStr × List ResourceIdStr)}
    (hs : ExactFlags s) (he : EditSet s us es) : ∃ s₂, s.edit us es = .ok s₂ ∧ Edited s s₂ := by
  obtain ⟨s₁, h₁, hupd⟩ := applyUpdates_ok hs.valid he.distinct he.consistent
  have hmem : ∀ x, s.ManagedAfter us x → x ∈ s₁.resourceState :=
    fun x => hupd.mem_resourceState.mpr
  obtain ⟨s₂, h₂, hreq⟩ := applyRequires_ok hupd.valid he.distinctRequires fun e hm =>
    ⟨hmem _ (he.managed e hm).1, fun d hd => hmem d ((he.managed e hm).2 d hd)⟩
  refine ⟨s₂, ?_, (hupd.edited hs he.consistent he.keeps).requires hreq⟩
  rw [edit, h₁]
  exact h₂

/-! ## The propagation after a set of edits -/

section Propagation

variable {newUndefined verifyBlocked verifyUnblocked : List ResourceIdStr}
  {outUnblocked outBlocked : List ResourceIdStr}

theorem Edited.updateArgs (hs : ExactFlags s) (h : Edited s s₂)
    (ha : EditArgs s s₂ newUndefined verifyBlocked verifyUnblocked) :
    TransitiveUpdate.UpdateArgs s₂ newUndefined verifyBlocked verifyUnblocked where
  closed := h.valid.closed
  undefined := fun r hr =>
    have hu := ((ha.newUndefined r).mp hr).1
    ⟨hu, (h.blocked r).mpr (Or.inr hu)⟩
  verifyBlocked := by
    intro r hr
    obtain ⟨d, hd, -⟩ := (ha.verifyBlocked r).mp hr
    exact (h.valid.closed r d hd).1
  verifyUnblocked := by
    intro r hr
    rcases (ha.verifyUnblocked r).mp hr with ⟨hu, -⟩ | ⟨d, hd, -⟩
    · exact h.mono r (mem_resourceState_of_compliance? hu)
    · exact h.mono r (hs.valid.closed r d hd).1

/-- A resource that requires a provisionally blocked one is provisionally
blocked itself, or its requirement was blocked by the back check. -/
theorem Edited.dependant (hs : ExactFlags s) (h : Edited s s₂)
    (ha : EditArgs s s₂ newUndefined verifyBlocked verifyUnblocked) {d t : ResourceIdStr}
    (hd : Provisional s₂ newUndefined verifyBlocked d) (hreq : d ∈ s₂.requiresOf t) :
    Provisional s₂ newUndefined verifyBlocked t
      ∨ BackChecked s₂ newUndefined verifyBlocked d := by
  by_cases ht : BlockedByUndefined s₂ newUndefined t
  · exact Or.inl (ht.imp_right Or.inl)
  have hnb : ¬ s₂.IsBlocked t := fun hb => ht (Or.inl hb)
  rcases hd with hb | hp | hbc
  · by_cases hold : d ∈ s.requiresOf t
    · -- an old edge: the requirement became undefined just now
      have hnot : ¬ s.IsBlocked d := fun hbd =>
        hnb ((h.blocked t).mpr (Or.inl ((hs.blocked t).mpr
          (((hs.blocked d).mp hbd).of_requires hold))))
      have hund : s₂.IsUndefined d := ((h.blocked d).mp hb).resolve_left hnot
      have hnew : d ∈ newUndefined := (ha.newUndefined d).mpr
        ⟨hund, fun hu => hnot ((hs.blocked d).mpr (IsUndefined.needsUndefined hu))⟩
      exact absurd (Or.inr (.source hnew hreq hnb)) ht
    · -- a new edge: the dependant is checked
      obtain ⟨pre, post, hvb⟩ :=
        List.append_of_mem ((ha.verifyBlocked t).mpr ⟨d, hreq, hold⟩)
      exact Or.inl (Or.inr (Or.inr (hvb ▸ .start ht hreq (Or.inl hb))))
  · exact absurd (Or.inr (.step hp hreq hnb)) ht
  · exact Or.inr hbc

/-- A released resource requires nothing undefined, if what does is
provisionally blocked. -/
theorem not_needsUndefined_of_released
    (hall : ∀ x, s₂.NeedsUndefined x → Provisional s₂ newUndefined verifyBlocked x)
    (h : Released s₂ newUndefined verifyBlocked verifyUnblocked r) :
    ¬ s₂.NeedsUndefined r := by
  induction h with
  | @intro r _ hdef _ _ ih =>
    intro hn
    rcases needsUndefined_iff.mp hn with hu | ⟨d, hd, hdn⟩
    · exact hdef hu
    · exact ih d hd (hall d hdn) hdn

theorem needsUndefined_congr (hsame : SameButBlocked s₂ s') (r : ResourceIdStr) :
    s'.NeedsUndefined r ↔ s₂.NeedsUndefined r := by
  simp only [NeedsUndefined, IsUndefined, hsame.requiresOf, hsame.compliance?]

/-- A resource that is blocked afterwards is not dirty. -/
theorem Edited.not_dirty (h : Edited s s₂)
    (hspec : TransitiveUpdate.UpdateSpec s₂ newUndefined verifyBlocked verifyUnblocked s'
      outUnblocked outBlocked) (hb : s'.IsBlocked r) : r ∉ s'.dirty := by
  rw [hspec.dirty]
  obtain ⟨hp, hrel⟩ := (hspec.isBlocked r).mp hb
  rintro (⟨hun, -⟩ | ⟨hd, hout⟩)
  · exact hrel ((hspec.unblocked r).mp hun)
  · rcases hp with hp | hp
    · exact h.dirty r hd hp
    · exact hout (hspec.reached r hp)

/-- A resource that stays blocked is undefined or requires a blocked one: if it
lost its reason in the edits, phase 4 checks it. -/
theorem Edited.reason (hs : ExactFlags s) (h : Edited s s₂)
    (ha : EditArgs s s₂ newUndefined verifyBlocked verifyUnblocked)
    (hspec : TransitiveUpdate.UpdateSpec s₂ newUndefined verifyBlocked verifyUnblocked s'
      outUnblocked outBlocked) (r : ResourceIdStr) (hb : s'.IsBlocked r) :
    s'.IsUndefined r ∨ ∃ d ∈ s'.requiresOf r, s'.IsBlocked d := by
  rw [IsUndefined, hspec.same.compliance?, hspec.same.requiresOf]
  by_cases hu : s₂.IsUndefined r
  · exact Or.inl hu
  right
  by_contra hno
  obtain ⟨hp, hrel⟩ := (hspec.isBlocked r).mp hb
  have hall : ∀ d ∈ s₂.requiresOf r, Provisional s₂ newUndefined verifyBlocked d →
      Released s₂ newUndefined verifyBlocked verifyUnblocked d := by
    intro d hd hpd
    by_contra hn
    exact hno ⟨d, hd, (hspec.isBlocked d).mpr ⟨hpd, hn⟩⟩
  refine hrel (.intro hp hu hall ?_)
  -- what makes phase 4 come by
  rcases hp with hbl | (hp | hp)
  · have hbs : s.IsBlocked r := ((h.blocked r).mp hbl).resolve_right hu
    rcases needsUndefined_iff.mp ((hs.blocked r).mp hbs) with hus | ⟨d, hd, hdn⟩
    · exact Or.inl ((ha.verifyUnblocked r).mpr (Or.inl ⟨hus, hu⟩))
    · by_cases hkept : d ∈ s₂.requiresOf r
      · exact Or.inr ⟨d, hkept,
          Or.inl ((h.blocked d).mpr (Or.inl ((hs.blocked d).mpr hdn)))⟩
      · exact Or.inl ((ha.verifyUnblocked r).mpr (Or.inr ⟨d, hd, hkept⟩))
  · cases hp with
    | source hd hreq _ =>
        exact Or.inr ⟨_, hreq, Or.inl ((h.blocked _).mpr (Or.inr
          ((ha.newUndefined _).mp hd).1))⟩
    | step hd hreq _ => exact Or.inr ⟨_, hreq, Or.inr (Or.inl hd)⟩
  · generalize hl : verifyBlocked = l at hp
    cases hp with
    | start _ hreq hd => exact Or.inr ⟨_, hreq, hd.imp_right Or.inl⟩
    | step _ hreq hd => exact Or.inr ⟨_, hreq, Or.inr (Or.inr (hl ▸ hd.append _))⟩

/-- What became deployable is dirty if its compliance says so. -/
theorem Edited.freed_dirty (h : Edited s s₂)
    (hspec : TransitiveUpdate.UpdateSpec s₂ newUndefined verifyBlocked verifyUnblocked s'
      outUnblocked outBlocked) (hnb : s'.blocked? r = some .notBlocked)
    (hnb₀ : s.blocked? r ≠ some .notBlocked) (hc : s₂.HasDirtyCompliance r) :
    r ∈ s'.dirty := by
  rw [hspec.dirty]
  rw [hspec.blocked] at hnb
  by_cases hun : r ∈ outUnblocked
  · exact Or.inl ⟨hun, hc⟩
  · rw [if_neg hun] at hnb
    split at hnb
    · simp at hnb
    · rename_i hout
      exact Or.inr ⟨h.freed r hnb hnb₀ hc, hout⟩

/-- Under the condition on the back check every resource that needs something
undefined is blocked when phase 4 starts. -/
theorem Edited.provisional_of_needsUndefined (hs : ExactFlags s) (h : Edited s s₂)
    (ha : EditArgs s s₂ newUndefined verifyBlocked verifyUnblocked)
    (hcond : ∀ d t, BackChecked s₂ newUndefined verifyBlocked d → s₂.NeedsUndefined d →
      d ∈ s₂.requiresOf t → Provisional s₂ newUndefined verifyBlocked t)
    (hr : s₂.NeedsUndefined r) : Provisional s₂ newUndefined verifyBlocked r := by
  obtain ⟨u, hru, hu⟩ := hr
  induction hru using Relation.ReflTransGen.head_induction_on with
  | refl => exact Or.inl ((h.blocked u).mpr (Or.inr hu))
  | @head t d htd hdu ih =>
    rcases h.dependant hs ha ih htd with ht | hbc
    · exact ht
    · exact hcond d t hbc ⟨u, hdu, hu⟩ htd

end Propagation

/-! ## Checking a concrete model

The hypotheses above quantify over all resources; on a concrete model it is
enough to look at the managed ones. -/

theorem ExactFlags.empty : ExactFlags .empty where
  valid := .empty
  blocked := fun r => blocked_iff_needsUndefined .empty
    (acyclic_of_rank (fun _ => 0) fun a b hab => by
      simp [ModelState.empty, requiresOf, RequiresProvidesMapping.requires] at hab)
    (fun r => by
      simp [ModelState.empty, IsBlocked, IsUndefined, blocked?, compliance?, requiresOf,
        RequiresProvidesMapping.requires]) r
  dirty := by simp [ModelState.empty]

theorem Valid.requiresOf_of_not_mem (hv : s.Valid) (h : r ∉ s.resourceState) :
    s.requiresOf r = [] :=
  BidirectionalManyMapping.get_of_not_mem fun hp => h ((hv.requires r).mp hp)

theorem AcyclicRequires.of_rank (hv : s.Valid) (rank : ResourceIdStr → ℕ)
    (h : ∀ r ∈ s.resourceState.keys, ∀ d ∈ s.requiresOf r, rank d < rank r) :
    s.AcyclicRequires :=
  acyclic_of_rank rank fun r d hd => h r (Dict.mem_keys.mpr (hv.closed r d hd).1) d hd

theorem ExactFlags.of_keys (hv : s.Valid) (hac : s.AcyclicRequires)
    (h : ∀ r ∈ s.resourceState.keys,
      s.IsBlocked r ↔ s.IsUndefined r ∨ ∃ d ∈ s.requiresOf r, s.IsBlocked d)
    (hd : ∀ r ∈ s.dirty, ¬ s.IsBlocked r) : ExactFlags s := by
  refine ⟨hv, blocked_iff_needsUndefined hv hac fun r => ?_, hd⟩
  by_cases hr : r ∈ s.resourceState
  · exact h r (Dict.mem_keys.mpr hr)
  · simp [IsBlocked, IsUndefined, blocked?, compliance?, Dict.not_mem_iff.mp hr,
      hv.requiresOf_of_not_mem hr]

theorem EditArgs.of_keys {newUndefined verifyBlocked verifyUnblocked : List ResourceIdStr}
    (hv : s.Valid) (h : Edited s s₂)
    (hk : ∀ r ∈ newUndefined ++ verifyBlocked ++ verifyUnblocked, r ∈ s₂.resourceState)
    (hu : ∀ r ∈ s₂.resourceState.keys,
      r ∈ newUndefined ↔ s₂.IsUndefined r ∧ ¬ s.IsUndefined r)
    (hvb : ∀ r ∈ s₂.resourceState.keys,
      r ∈ verifyBlocked ↔ ∃ d ∈ s₂.requiresOf r, d ∉ s.requiresOf r)
    (hvu : ∀ r ∈ s₂.resourceState.keys, r ∈ verifyUnblocked ↔
      (s.IsUndefined r ∧ ¬ s₂.IsUndefined r) ∨ ∃ d ∈ s.requiresOf r, d ∉ s₂.requiresOf r) :
    EditArgs s s₂ newUndefined verifyBlocked verifyUnblocked := by
  have hout : ∀ r, r ∉ s₂.resourceState → r ∉ newUndefined ∧ r ∉ verifyBlocked
      ∧ r ∉ verifyUnblocked ∧ ¬ s₂.IsUndefined r ∧ ¬ s.IsUndefined r
      ∧ s₂.requiresOf r = [] ∧ s.requiresOf r = [] := by
    intro r hr
    have hrs : r ∉ s.resourceState := fun hm => hr (h.mono r hm)
    refine ⟨fun hm => hr (hk r (by simp [hm])), fun hm => hr (hk r (by simp [hm])),
      fun hm => hr (hk r (by simp [hm])),
      fun hx => hr (mem_resourceState_of_compliance? hx),
      fun hx => hrs (mem_resourceState_of_compliance? hx),
      h.valid.requiresOf_of_not_mem hr, hv.requiresOf_of_not_mem hrs⟩
  refine ⟨fun r => ?_, fun r => ?_, fun r => ?_⟩ <;> by_cases hr : r ∈ s₂.resourceState
  · exact hu r (Dict.mem_keys.mpr hr)
  · obtain ⟨h₁, -, -, h₂, -⟩ := hout r hr
    simp [h₁, h₂]
  · exact hvb r (Dict.mem_keys.mpr hr)
  · obtain ⟨-, h₁, -, -, -, h₂, -⟩ := hout r hr
    simp [h₁, h₂]
  · exact hvu r (Dict.mem_keys.mpr hr)
  · obtain ⟨-, -, h₁, -, h₂, -, h₃⟩ := hout r hr
    simp [h₁, h₂, h₃]

/-! ## A chain of three resources

`b` requires `a`, and the undefined `x` stands alone until `a` requires it. -/

def nullUpdate (name hash : String) (undefined : Bool) : ResourceUpdate :=
  ⟨⟨nullResource name, hash, ⟨none, none, [], []⟩⟩, false, undefined, false, none⟩

def separate : ModelState :=
  ((ModelState.empty.edit
    [nullUpdate "x" "0" true, nullUpdate "a" "0" false, nullUpdate "b" "0" false]
    [(nullResource "b", [nullResource "a"])]).toOption).getD .empty

def chained : ModelState :=
  ((separate.edit [] [(nullResource "a", [nullResource "x"])]).toOption).getD .empty

def chainRank (r : ResourceIdStr) : ℕ :=
  [nullResource "x", nullResource "a", nullResource "b"].idxOf r

theorem separate_edits : EditSet .empty
    [nullUpdate "x" "0" true, nullUpdate "a" "0" false, nullUpdate "b" "0" false]
    [(nullResource "b", [nullResource "a"])] := by
  constructor <;> decide

theorem separate_exact : ExactFlags separate := by
  obtain ⟨s, hs, hed⟩ := edit_ok .empty separate_edits
  have hv : separate.Valid := by
    rw [separate, hs]
    exact hed.valid
  exact .of_keys hv (.of_rank hv chainRank (by decide)) (by decide) (by decide)

theorem chained_edits : EditSet separate [] [(nullResource "a", [nullResource "x"])] := by
  constructor <;> decide

theorem edit_separate :
    separate.edit [] [(nullResource "a", [nullResource "x"])] = .ok chained
      ∧ Edited separate chained := by
  obtain ⟨s, hs, hed⟩ := edit_ok separate_exact chained_edits
  have heq : ModelState.chained = s := by rw [ModelState.chained, hs]; rfl
  exact ⟨heq ▸ hs, heq ▸ hed⟩

theorem chained_acyclic : chained.AcyclicRequires :=
  .of_rank edit_separate.2.valid chainRank (by decide)

theorem chained_args : EditArgs separate chained [] [nullResource "a"] [] :=
  .of_keys separate_exact.valid edit_separate.2 (by decide) (by decide) (by decide) (by decide)

/-! ## Exactness after a set of edits -/

section Exactness

variable {newUndefined verifyBlocked verifyUnblocked : List ResourceIdStr}

/-- **Nothing is blocked without a reason.** After a set of edits of a model
with exact flags the propagation leaves a resource blocked only if it is
undefined or requires a blocked resource, hence only if it transitively needs
an undefined one. What it unblocks, and what the edits freed, is dirty if its
compliance says so. -/
theorem blocked_has_reason {us : List ResourceUpdate}
    {es : List (ResourceIdStr × List ResourceIdStr)}
    (hs : ExactFlags s) (he : EditSet s us es) (hok : s.edit us es = .ok s₂)
    (hac : s₂.AcyclicRequires)
    (ha : EditArgs s s₂ newUndefined verifyBlocked verifyUnblocked) :
    ∃ n, ∀ fuel ≥ n, ∃ s' outUnblocked outBlocked,
      s₂.updateTransitiveState fuel newUndefined verifyBlocked verifyUnblocked
        = .ok (s', outUnblocked, outBlocked)
      ∧ (∀ r, s'.IsBlocked r → s'.IsUndefined r ∨ ∃ d ∈ s'.requiresOf r, s'.IsBlocked d)
      ∧ (∀ r, s'.IsBlocked r → s'.NeedsUndefined r)
      ∧ (∀ r ∈ outUnblocked, s'.HasDirtyCompliance r → r ∈ s'.dirty)
      ∧ (∀ r, s'.blocked? r = some .notBlocked → s.blocked? r ≠ some .notBlocked →
          s'.HasDirtyCompliance r → r ∈ s'.dirty) := by
  obtain ⟨s₂', hok', hed⟩ := edit_ok hs he
  obtain rfl := Except.ok.inj (hok'.symm.trans hok)
  have hargs := hed.updateArgs hs ha
  obtain ⟨n, hn⟩ := TransitiveUpdate.updateTransitiveState_terminates hargs hac
  refine ⟨n, fun fuel hfuel => ?_⟩
  obtain ⟨⟨s', outUnblocked, outBlocked⟩, hrun⟩ := hn fuel hfuel
  have hspec := TransitiveUpdate.updateTransitiveState_spec hargs hrun
  have hreason := hed.reason hs ha hspec
  have hdirty : ∀ r, s'.HasDirtyCompliance r ↔ s₂'.HasDirtyCompliance r := fun r => by
    simp only [HasDirtyCompliance, hspec.same.compliance?]
  refine ⟨s', outUnblocked, outBlocked, hrun, hreason, ?_, ?_, ?_⟩
  · have hwf : WellFounded fun d r => d ∈ s₂'.requiresOf r :=
      hac.wellFounded s₂'.resourceState.keys fun r d hd =>
        Dict.mem_keys.mpr (hed.valid.closed r d hd).1
    intro r
    induction r using hwf.induction with
    | _ r ih =>
      intro hb
      rcases hreason r hb with hu | ⟨d, hd, hdb⟩
      · exact hu.needsUndefined
      · exact (ih d (hspec.same.requiresOf r ▸ hd) hdb).of_requires hd
  · intro r hr hc
    exact (hspec.dirty r).mpr (Or.inl ⟨hr, (hdirty r).mp hc⟩)
  · intro r hnb hnb₀ hc
    exact hed.freed_dirty hspec hnb hnb₀ ((hdirty r).mp hc)

theorem blocked_has_reason_chained :
    ∃ n, ∀ fuel ≥ n, ∃ s' outUnblocked outBlocked,
      chained.updateTransitiveState fuel [] [nullResource "a"] []
        = .ok (s', outUnblocked, outBlocked)
      ∧ (∀ r, s'.IsBlocked r → s'.IsUndefined r ∨ ∃ d ∈ s'.requiresOf r, s'.IsBlocked d)
      ∧ (∀ r, s'.IsBlocked r → s'.NeedsUndefined r)
      ∧ (∀ r ∈ outUnblocked, s'.HasDirtyCompliance r → r ∈ s'.dirty)
      ∧ (∀ r, s'.blocked? r = some .notBlocked → separate.blocked? r ≠ some .notBlocked →
          s'.HasDirtyCompliance r → r ∈ s'.dirty) :=
  blocked_has_reason separate_exact chained_edits edit_separate.1 chained_acyclic chained_args

/-- **What needs something undefined is blocked**, and is not dirty, exactly
if every dependant of a resource that the back check blocks, and that needs
something undefined itself, is blocked by other means: before the propagation,
below a newly undefined resource, or by its own back check. -/
theorem undefined_blocks_iff {us : List ResourceUpdate}
    {es : List (ResourceIdStr × List ResourceIdStr)}
    (hs : ExactFlags s) (he : EditSet s us es) (hok : s.edit us es = .ok s₂)
    (hac : s₂.AcyclicRequires)
    (ha : EditArgs s s₂ newUndefined verifyBlocked verifyUnblocked) :
    ∃ n, ∀ fuel ≥ n, ∃ s' outUnblocked outBlocked,
      s₂.updateTransitiveState fuel newUndefined verifyBlocked verifyUnblocked
        = .ok (s', outUnblocked, outBlocked)
      ∧ ((∀ r, s'.NeedsUndefined r → s'.IsBlocked r ∧ r ∉ s'.dirty)
        ↔ ∀ d t, BackChecked s₂ newUndefined verifyBlocked d → s₂.NeedsUndefined d →
            d ∈ s₂.requiresOf t → Provisional s₂ newUndefined verifyBlocked t) := by
  obtain ⟨s₂', hok', hed⟩ := edit_ok hs he
  obtain rfl := Except.ok.inj (hok'.symm.trans hok)
  have hargs := hed.updateArgs hs ha
  obtain ⟨n, hn⟩ := TransitiveUpdate.updateTransitiveState_terminates hargs hac
  refine ⟨n, fun fuel hfuel => ?_⟩
  obtain ⟨⟨s', outUnblocked, outBlocked⟩, hrun⟩ := hn fuel hfuel
  have hspec := TransitiveUpdate.updateTransitiveState_spec hargs hrun
  refine ⟨s', outUnblocked, outBlocked, hrun, ?_, ?_⟩
  · intro hall d t _ hdn hreq
    have hb := (hall t ((needsUndefined_congr hspec.same t).mpr (hdn.of_requires hreq))).1
    exact ((hspec.isBlocked t).mp hb).1
  · intro hcond
    have hprov : ∀ r, s₂'.NeedsUndefined r →
        Provisional s₂' newUndefined verifyBlocked r :=
      fun r hr => hed.provisional_of_needsUndefined hs ha hcond hr
    intro r hr
    rw [needsUndefined_congr hspec.same] at hr
    have hb : s'.IsBlocked r := (hspec.isBlocked r).mpr
      ⟨hprov r hr, fun hrel => not_needsUndefined_of_released hprov hrel hr⟩
    exact ⟨hb, hed.not_dirty hspec hb⟩

theorem undefined_blocks_iff_chained :
    ∃ n, ∀ fuel ≥ n, ∃ s' outUnblocked outBlocked,
      chained.updateTransitiveState fuel [] [nullResource "a"] []
        = .ok (s', outUnblocked, outBlocked)
      ∧ ((∀ r, s'.NeedsUndefined r → s'.IsBlocked r ∧ r ∉ s'.dirty)
        ↔ ∀ d t, BackChecked chained [] [nullResource "a"] d → chained.NeedsUndefined d →
            d ∈ chained.requiresOf t → Provisional chained [] [nullResource "a"] t) :=
  undefined_blocks_iff separate_exact chained_edits edit_separate.1 chained_acyclic chained_args

/-- `a` is blocked by its back check, and `b` stays deployable although it needs
the undefined `x`. -/
theorem chained_not_blocked :
    ExactFlags separate ∧ EditSet separate [] [(nullResource "a", [nullResource "x"])]
      ∧ separate.edit [] [(nullResource "a", [nullResource "x"])] = .ok chained
      ∧ chained.AcyclicRequires ∧ EditArgs separate chained [] [nullResource "a"] []
      ∧ ∃ s', chained.updateTransitiveState 10 [] [nullResource "a"] []
          = .ok (s', [], [nullResource "a"])
        ∧ s'.NeedsUndefined (nullResource "b") ∧ ¬ s'.IsBlocked (nullResource "b") := by
  refine ⟨separate_exact, chained_edits, edit_separate.1, chained_acyclic, chained_args, ?_⟩
  obtain ⟨⟨s', outUnblocked, outBlocked⟩, hrun, hout, hba, hax, hx, hb⟩ := exists_ok_of_any
    (x := chained.updateTransitiveState 10 [] [nullResource "a"] [])
    (p := fun p => p.2 = ([], [nullResource "a"])
      ∧ nullResource "a" ∈ p.1.requiresOf (nullResource "b")
      ∧ nullResource "x" ∈ p.1.requiresOf (nullResource "a")
      ∧ p.1.IsUndefined (nullResource "x") ∧ ¬ p.1.IsBlocked (nullResource "b")) (by decide)
  obtain ⟨rfl, rfl⟩ := Prod.mk.inj hout
  exact ⟨s', hrun, ⟨nullResource "x", .head hba (.single hax), hx⟩, hb⟩

end Exactness

end ModelState

end Inmanta
