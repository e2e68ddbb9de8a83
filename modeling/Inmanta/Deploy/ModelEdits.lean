import Inmanta.Deploy.ModelState
import Inmanta.Lib.Loop

/-!
# What the operations on the model state do

One description per operation of `ModelState`, in terms of the lookups
the rest of the development uses: `Dropped` for `drop`, `Updated` for
`updateResource`, `RequiresUpdated` for `updateRequires`. On a valid
model state none of them fails and each keeps the state valid.

The two loops of a version update run over distinct resources, so their
effect can be read off the initial state: `UpdatedAll` and
`RequiresUpdatedAll` do not mention the order of the loop.
-/

namespace Inmanta

namespace ModelState

variable {s s' : ModelState} {r : ResourceIdStr}

/-! ## Dropping a resource -/

theorem mem_requiresOf_dropRequires {x d : ResourceIdStr} :
    d ∈ (s.dropRequires r).requiresOf x ↔ x ≠ r ∧ d ≠ r ∧ d ∈ s.requiresOf x := by
  rw [requiresOf, RequiresProvidesMapping.requires, dropRequires,
    BidirectionalManyMapping.mem_get_delReverse, BidirectionalManyMapping.get_delIfPresent]
  by_cases hx : x = r <;> simp [hx, requiresOf, RequiresProvidesMapping.requires]

theorem mem_primary_dropRequires {x : ResourceIdStr} :
    x ∈ (s.dropRequires r).requires.primary ↔ x ≠ r ∧ x ∈ s.requires.primary := by
  rw [dropRequires, BidirectionalManyMapping.mem_delReverse_primary,
    BidirectionalManyMapping.mem_delIfPresent_primary]

/-- What `drop` does. -/
structure Dropped (s : ModelState) (r : ResourceIdStr) (s' : ModelState) : Prop where
  version : s'.version = s.version
  resourceSets : s'.resourceSets = s.resourceSets
  intent : ∀ x, s'.intent.get? x = if x = r then none else s.intent.get? x
  state : ∀ x, s'.resourceState.get? x = if x = r then none else s.resourceState.get? x
  requiresOf : ∀ x d, d ∈ s'.requiresOf x ↔ x ≠ r ∧ d ≠ r ∧ d ∈ s.requiresOf x
  primary : ∀ x, x ∈ s'.requires.primary ↔ x ≠ r ∧ x ∈ s.requires.primary
  agents : ∀ a x, x ∈ s'.agentResources a ↔ x ∈ s.agentResources a ∧ x ≠ r
  dirty : ∀ x, x ∈ s'.dirty ↔ x ∈ s.dirty ∧ x ≠ r

theorem drop_ok (hv : s.Valid) (hr : r ∈ s.resourceState) :
    ∃ s', s.drop r = .ok s' ∧ Dropped s r s' := by
  obtain ⟨i, hi⟩ := Dict.mem_iff.mp ((hv.intent r).mpr hr)
  have hid := hv.intentId r i hi
  obtain ⟨rs, hrs⟩ := Dict.mem_iff.mp hr
  let s₁ := { s with intent := s.intent.del r, resourceState := s.resourceState.del r }
  refine ⟨((s₁.dropRequires r).removeFromAgent i.resourceId.agentName r).discardDirty r, ?_, ?_⟩
  · rw [drop, Dict.item_of_get? hi, ok_bind, Dict.item_of_get? hrs]
    rfl
  exact
    { version := rfl
      resourceSets := rfl
      intent := fun x => Dict.get?_del s.intent r x
      state := fun x => Dict.get?_del s.resourceState r x
      requiresOf := fun x d => mem_requiresOf_dropRequires (s := s₁)
      primary := fun x => mem_primary_dropRequires (s := s₁)
      agents := fun a x => by
        refine (agentResources_removeFromAgent (s₁.dropRequires r) _ r a x).trans ?_
        show x ∈ s.agentResources a ∧ _ ↔ _
        refine and_congr_right fun hx => not_congr (and_iff_left_of_imp ?_)
        rintro rfl
        rw [hid]
        exact ((hv.agents a x).mp hx).2
      dirty := fun x => mem_discard (s := s.dirty) }

theorem Dropped.mem_resourceState (h : Dropped s r s') {x : ResourceIdStr} :
    x ∈ s'.resourceState ↔ x ≠ r ∧ x ∈ s.resourceState := by
  rw [Dict.mem_iff, Dict.mem_iff, h.state]
  by_cases hx : x = r <;> simp [hx]

theorem Dropped.valid (h : Dropped s r s') (hv : s.Valid) : s'.Valid where
  intent := by
    intro x
    rw [h.mem_resourceState, ← hv.intent x, Dict.mem_iff, Dict.mem_iff, h.intent]
    by_cases hx : x = r <;> simp [hx]
  intentId := by
    intro x i hi
    rw [h.intent] at hi
    split at hi
    · cases hi
    · exact hv.intentId x i hi
  requires := fun x => by rw [h.primary, h.mem_resourceState, hv.requires]
  agents := fun a x => by
    rw [h.agents, h.mem_resourceState, hv.agents]
    tauto
  closed := by
    intro x d hd
    obtain ⟨hx, hdr, hd⟩ := (h.requiresOf x d).mp hd
    obtain ⟨hxs, hds⟩ := hv.closed x d hd
    exact ⟨h.mem_resourceState.mpr ⟨hx, hxs⟩, h.mem_resourceState.mpr ⟨hdr, hds⟩⟩

/-! ## Updating a resource -/

/-- The arguments of one call of `updateResource`. -/
structure ResourceUpdate where
  intent : ResourceIntent
  forceNew : Bool
  undefined : Bool
  knownCompliant : Bool
  lastDeployed : Option Time

/-- The updated resource. -/
def ResourceUpdate.resource (u : ResourceUpdate) : ResourceIdStr := u.intent.resourceId

def applyUpdate (s : ModelState) (u : ResourceUpdate) : Except PyError ModelState :=
  s.updateResource u.intent u.forceNew u.undefined u.knownCompliant u.lastDeployed

/-- A known resource that is considered new: it is dropped and created again. -/
def Recreates (s : ModelState) (u : ResourceUpdate) : Prop :=
  u.forceNew = true ∧ u.resource ∈ s.resourceState

instance (s : ModelState) (u : ResourceUpdate) : Decidable (s.Recreates u) :=
  inferInstanceAs (Decidable (_ ∧ _))

/-- The state of the updated resource. -/
def updatedState (s : ModelState) (u : ResourceUpdate) : ResourceState :=
  match s.resourceState.get? u.resource with
  | none => createdState u.undefined u.knownCompliant u.lastDeployed
  | some rs =>
      if u.forceNew then createdState u.undefined u.knownCompliant u.lastDeployed
      else refreshedState rs u.undefined u.knownCompliant

/-- What `updateResource` does. -/
structure Updated (s : ModelState) (u : ResourceUpdate) (s' : ModelState) : Prop where
  version : s'.version = s.version
  resourceSets : s'.resourceSets = s.resourceSets
  intent : ∀ x, s'.intent.get? x = if x = u.resource then some u.intent else s.intent.get? x
  state : ∀ x, s'.resourceState.get? x =
    if x = u.resource then some (s.updatedState u) else s.resourceState.get? x
  requiresOf : ∀ x d, d ∈ s'.requiresOf x ↔
    d ∈ s.requiresOf x ∧ (s.Recreates u → x ≠ u.resource ∧ d ≠ u.resource)
  primary : ∀ x, x ∈ s'.requires.primary ↔ x = u.resource ∨ x ∈ s.requires.primary
  agents : ∀ a x, x ∈ s'.agentResources a ↔
    (x = u.resource ∧ a = u.resource.agentName) ∨ x ∈ s.agentResources a
  dirty : ∀ x, x ∈ s'.dirty ↔
    if x = u.resource then u.knownCompliant = false ∧ (s.updatedState u).blocked = .notBlocked
    else x ∈ s.dirty

/-- Creating the entry of an unknown resource. -/
theorem create_spec (s : ModelState) (i : ResourceIntent) (u k : Bool) (d : Option Time) :
    (s.create i u k d).version = s.version
      ∧ (s.create i u k d).resourceSets = s.resourceSets
      ∧ (s.create i u k d).intent = s.intent
      ∧ (s.create i u k d).dirty = s.dirty
      ∧ (∀ x, (s.create i u k d).resourceState.get? x =
          if x = i.resourceId then some (createdState u k d) else s.resourceState.get? x)
      ∧ (∀ x, x ∈ (s.create i u k d).requires.primary ↔
          x = i.resourceId ∨ x ∈ s.requires.primary)
      ∧ (∀ x, (s.create i u k d).requiresOf x = s.requiresOf x)
      ∧ (∀ a x, x ∈ (s.create i u k d).agentResources a ↔
          (x = i.resourceId ∧ a = i.resourceId.agentName) ∨ x ∈ s.agentResources a) := by
  unfold create
  by_cases hp : i.resourceId ∈ (s.setState i.resourceId (createdState u k d)).requires.primary
  · simp only [if_pos hp]
    refine ⟨rfl, rfl, rfl, rfl, fun x => Dict.get?_set _ _ _ _, fun x => ?_, fun x => rfl,
      fun a x => agentResources_addToAgent _ _ _ a x⟩
    constructor
    · exact Or.inr
    · rintro (rfl | hx)
      · exact hp
      · exact hx
  · simp only [if_neg hp]
    refine ⟨rfl, rfl, rfl, rfl, fun x => Dict.get?_set _ _ _ _,
      fun x => BidirectionalManyMapping.mem_setItem_primary, fun x => ?_,
      fun a x => agentResources_addToAgent _ _ _ a x⟩
    refine (BidirectionalManyMapping.get_setItem s.requires i.resourceId [] x).trans ?_
    split
    · rename_i hx
      subst hx
      exact (BidirectionalManyMapping.get_of_not_mem hp).symm
    · rfl

/-- The part of `Updated` that is in place once the entry is. -/
structure Entered (s : ModelState) (u : ResourceUpdate) (s' : ModelState) : Prop where
  version : s'.version = s.version
  resourceSets : s'.resourceSets = s.resourceSets
  intent : ∀ x, x ≠ u.resource → s'.intent.get? x = s.intent.get? x
  state : ∀ x, s'.resourceState.get? x =
    if x = u.resource then some (s.updatedState u) else s.resourceState.get? x
  requiresOf : ∀ x d, d ∈ s'.requiresOf x ↔
    d ∈ s.requiresOf x ∧ (s.Recreates u → x ≠ u.resource ∧ d ≠ u.resource)
  primary : ∀ x, x ∈ s'.requires.primary ↔ x = u.resource ∨ x ∈ s.requires.primary
  agents : ∀ a x, x ∈ s'.agentResources a ↔
    (x = u.resource ∧ a = u.resource.agentName) ∨ x ∈ s.agentResources a
  dirty : ∀ x, x ≠ u.resource → (x ∈ s'.dirty ↔ x ∈ s.dirty)

theorem enter_ok (hv : s.Valid) (u : ResourceUpdate) :
    ∃ s', s.enter u.intent u.forceNew u.undefined u.knownCompliant u.lastDeployed = .ok s'
      ∧ Entered s u s' := by
  have hintent := hv.intent u.resource
  by_cases hknown : u.resource ∈ s.resourceState
  · obtain ⟨rs, hrs⟩ := Dict.mem_iff.mp hknown
    cases hnew : u.forceNew with
    | true =>
        -- known, but considered new
        obtain ⟨s₁, h₁, hd⟩ := drop_ok hv hknown
        obtain ⟨cver, csets, cint, cdirty, cstate, cprim, creq, cagents⟩ :=
          s₁.create_spec u.intent u.undefined u.knownCompliant u.lastDeployed
        refine ⟨s₁.create u.intent u.undefined u.knownCompliant u.lastDeployed, ?_, ?_⟩
        · rw [enter, show u.intent.resourceId = u.resource from rfl]
          simp only [hintent.mpr hknown, decide_true, Bool.and_self, if_true, h₁, ok_bind,
            Bool.or_true, pure_eq_ok]
        · refine ⟨cver.trans hd.version, csets.trans hd.resourceSets, ?_, ?_, ?_, ?_, ?_, ?_⟩
          · intro x hx
            rw [cint, hd.intent, if_neg hx]
          · intro x
            rw [cstate, hd.state, show u.intent.resourceId = u.resource from rfl]
            simp only [updatedState, hrs, hnew, if_true]
            split <;> rfl
          · intro x d
            rw [creq, hd.requiresOf]
            simp only [Recreates, hnew, hknown, true_and, forall_const]
            tauto
          · intro x
            rw [cprim, hd.primary, show u.intent.resourceId = u.resource from rfl]
            by_cases hx : x = u.resource <;> simp [hx]
          · intro a x
            rw [cagents, hd.agents, show u.intent.resourceId = u.resource from rfl]
            by_cases hx : x = u.resource
            · subst hx
              simp [hv.agents, hknown]
            · simp [hx]
          · intro x hx
            rw [cdirty, hd.dirty]
            simp [hx]
    | false =>
        refine ⟨s.setState u.resource (refreshedState rs u.undefined u.knownCompliant), ?_, ?_⟩
        · rw [enter, show u.intent.resourceId = u.resource from rfl]
          simp [hintent.mpr hknown, Dict.item_of_get? hrs]
        · refine ⟨rfl, rfl, fun _ _ => rfl, ?_, ?_, ?_, ?_, fun _ _ => Iff.rfl⟩
          · intro x
            simp only [updatedState, hrs, hnew]
            exact Dict.get?_set _ _ _ _
          · intro x d
            simp only [Recreates, hnew, Bool.false_eq_true, false_and, false_implies, and_true]
            rfl
          · intro x
            refine ⟨Or.inr, ?_⟩
            rintro (rfl | hx)
            · exact (hv.requires _).mpr hknown
            · exact hx
          · refine fun a x => ⟨Or.inr, ?_⟩
            rintro (⟨rfl, rfl⟩ | hx)
            · exact (hv.agents _ _).mpr ⟨hknown, rfl⟩
            · exact hx
  · -- not known (any more)
    obtain ⟨cver, csets, cint, cdirty, cstate, cprim, creq, cagents⟩ :=
      s.create_spec u.intent u.undefined u.knownCompliant u.lastDeployed
    have hni : u.resource ∉ s.intent := fun h => hknown (hintent.mp h)
    refine ⟨s.create u.intent u.undefined u.knownCompliant u.lastDeployed, ?_,
      ⟨cver, csets, fun x _ => by rw [cint], ?_, ?_, cprim, cagents, fun x _ => by rw [cdirty]⟩⟩
    · rw [enter, show u.intent.resourceId = u.resource from rfl]
      simp [hni]
    · intro x
      rw [cstate]
      simp only [updatedState, Dict.not_mem_iff.mp hknown]
      rfl
    · intro x d
      rw [creq]
      simp only [Recreates, hknown, and_false, false_implies, and_true]

/-- A valid model state accepts any update that is not contradictory. -/
theorem applyUpdate_ok {u : ResourceUpdate} (hv : s.Valid)
    (hu : ¬ (u.undefined = true ∧ u.knownCompliant = true)) :
    ∃ s', s.applyUpdate u = .ok s' ∧ Updated s u s' := by
  have hthrow : (u.undefined && u.knownCompliant) = false := by
    cases h₁ : u.undefined <;> cases h₂ : u.knownCompliant <;> simp_all
  obtain ⟨s₂, h₂, he⟩ := enter_ok hv u
  have hrs : s₂.resourceState.get? u.resource = some (s.updatedState u) := by
    rw [he.state, if_pos rfl]
  let s₃ := { s₂ with intent := s₂.intent.set u.resource u.intent }
  refine ⟨if !u.knownCompliant && (s.updatedState u).blocked = .notBlocked
    then s₃.addDirty u.resource else s₃.discardDirty u.resource, ?_, ?_⟩
  · rw [applyUpdate, updateResource, hthrow, h₂]
    simp only [Bool.false_eq_true, if_false, ok_bind,
      show u.intent.resourceId = u.resource from rfl, Dict.item_of_get? hrs, pure_eq_ok]
    rfl
  · refine ⟨?_, ?_, ?_, ?_, ?_, ?_, ?_, ?_⟩
    · split <;> exact he.version
    · split <;> exact he.resourceSets
    · intro x
      have hx : (s₂.intent.set u.resource u.intent).get? x =
          if x = u.resource then some u.intent else s.intent.get? x := by
        rw [Dict.get?_set]
        split
        · rfl
        · rename_i hx
          exact he.intent x hx
      split <;> exact hx
    · intro x
      split <;> exact he.state x
    · intro x d
      split <;> exact he.requiresOf x d
    · intro x
      split <;> exact he.primary x
    · intro a x
      split <;> exact he.agents a x
    · intro x
      by_cases hx : x = u.resource
      · subst hx
        cases hk : u.knownCompliant <;> by_cases hb : (s.updatedState u).blocked = .notBlocked <;>
          simp [hb, addDirty, discardDirty]
      · rw [if_neg hx, ← he.dirty x hx]
        split
        · simp [addDirty, hx, s₃]
        · simp [discardDirty, hx, s₃]

theorem Updated.mem_resourceState {u : ResourceUpdate} (h : Updated s u s')
    {x : ResourceIdStr} :
    x ∈ s'.resourceState ↔ x = u.resource ∨ x ∈ s.resourceState := by
  rw [Dict.mem_iff, Dict.mem_iff, h.state]
  by_cases hx : x = u.resource <;> simp [hx]

theorem Updated.valid {u : ResourceUpdate} (h : Updated s u s') (hv : s.Valid) :
    s'.Valid where
  intent := by
    intro x
    rw [h.mem_resourceState, ← hv.intent x, Dict.mem_iff, Dict.mem_iff, h.intent]
    by_cases hx : x = u.resource <;> simp [hx]
  intentId := by
    intro x i hi
    rw [h.intent] at hi
    split at hi
    · rename_i hx
      obtain rfl := Option.some.inj hi
      exact hx.symm
    · exact hv.intentId x i hi
  requires := fun x => by rw [h.primary, h.mem_resourceState, hv.requires]
  agents := fun a x => by
    rw [h.agents, h.mem_resourceState, hv.agents]
    constructor
    · rintro (⟨rfl, rfl⟩ | ⟨hx, ha⟩)
      · exact ⟨Or.inl rfl, rfl⟩
      · exact ⟨Or.inr hx, ha⟩
    · rintro ⟨rfl | hx, ha⟩
      · exact Or.inl ⟨rfl, ha⟩
      · exact Or.inr ⟨hx, ha⟩
  closed := by
    intro x d hd
    obtain ⟨hxs, hds⟩ := hv.closed x d ((h.requiresOf x d).mp hd).1
    exact ⟨h.mem_resourceState.mpr (Or.inr hxs), h.mem_resourceState.mpr (Or.inr hds)⟩

/-! ## Updating the requires relation -/

/-- The last deploy of the resource is known to have been bad. -/
def KnownBad (s : ModelState) (r : ResourceIdStr) : Prop :=
  ∃ rs, s.resourceState.get? r = some rs ∧ rs.lastHandlerRunCompliant = some false

instance (s : ModelState) (r : ResourceIdStr) : Decidable (s.KnownBad r) :=
  decidable_of_iff
    ((s.resourceState.get? r).any (·.lastHandlerRunCompliant = some false) = true)
    (by simp [KnownBad, Option.any_eq_true])

theorem shouldSkipForDependencies_ok (h : ∀ d ∈ s.requiresOf r, d ∈ s.resourceState) :
    ∃ b, s.shouldSkipForDependencies r = .ok b
      ∧ (b = true ↔ ∃ d ∈ s.requiresOf r, s.KnownBad d) := by
  rw [shouldSkipForDependencies]
  refine foldlM_ok (I := fun pre b => b = true ↔ ∃ d ∈ pre, s.KnownBad d) ?_ (by simp)
  intro pre d post b hl hI
  obtain ⟨rs, hrs⟩ := Dict.mem_iff.mp (h d (by simp [hl]))
  have hbad : s.KnownBad d ↔ rs.lastHandlerRunCompliant = some false := by
    simp [KnownBad, hrs]
  cases b with
  | true =>
      obtain ⟨x, hx, hb⟩ := hI.mp rfl
      exact ⟨true, rfl, iff_of_true rfl ⟨x, List.mem_append_left _ hx, hb⟩⟩
  | false =>
      refine ⟨decide (rs.lastHandlerRunCompliant = some false), ?_, ?_⟩
      · simp only [Bool.false_eq_true, if_false, Dict.item_of_get? hrs, ok_bind, pure_eq_ok]
      · have hnone : ¬ ∃ x ∈ pre, s.KnownBad x := fun hx => Bool.false_ne_true (hI.mpr hx)
        rw [decide_eq_true_iff, ← hbad]
        constructor
        · exact fun hd => ⟨d, by simp, hd⟩
        · rintro ⟨x, hx, hxb⟩
          rcases List.mem_append.mp hx with hx | hx
          · exact absurd ⟨x, hx, hxb⟩ hnone
          · exact List.mem_singleton.mp hx ▸ hxb

/-- A resource that was skipped for its dependencies gets another chance when
it drops a requirement and none of the others is known to be bad. -/
def Recovers (s : ModelState) (r : ResourceIdStr) (requires : List ResourceIdStr) : Prop :=
  s.blocked? r = some .temporarilyBlocked ∧ (∃ d ∈ s.requiresOf r, d ∉ requires)
    ∧ ∀ d ∈ requires, ¬ s.KnownBad d

instance (s : ModelState) (r : ResourceIdStr) (requires : List ResourceIdStr) :
    Decidable (s.Recovers r requires) :=
  inferInstanceAs (Decidable (_ ∧ _))

/-- What `updateRequires` does. -/
structure RequiresUpdated (s : ModelState) (r : ResourceIdStr)
    (requires : List ResourceIdStr) (s' : ModelState) : Prop where
  version : s'.version = s.version
  intent : s'.intent = s.intent
  resourceSets : s'.resourceSets = s.resourceSets
  resourcesByAgent : s'.resourcesByAgent = s.resourcesByAgent
  state : ∀ x, s'.resourceState.get? x =
    if x = r ∧ s.Recovers r requires
    then (s.resourceState.get? x).map fun rs => { rs with blocked := .notBlocked }
    else s.resourceState.get? x
  requiresOf : ∀ x, s'.requiresOf x = if x = r then requires else s.requiresOf x
  primary : ∀ x, x ∈ s'.requires.primary ↔ x = r ∨ x ∈ s.requires.primary
  dirty : ∀ x, x ∈ s'.dirty ↔ x ∈ s.dirty ∨ (x = r ∧ s.Recovers r requires)

theorem updateRequires_ok {requires : List ResourceIdStr} (hv : s.Valid)
    (hr : r ∈ s.resourceState) (hreq : ∀ d ∈ requires, d ∈ s.resourceState) :
    ∃ s', s.updateRequires r requires = .ok s' ∧ RequiresUpdated s r requires s' := by
  obtain ⟨rs, hrs⟩ := Dict.mem_iff.mp hr
  obtain ⟨old, hold⟩ := Dict.mem_iff.mp ((hv.requires r).mpr hr)
  let s₁ := { s with requires := s.requires.setItem r requires }
  have hreqs : ∀ x, s₁.requiresOf x = if x = r then requires else s.requiresOf x :=
    fun x => BidirectionalManyMapping.get_setItem _ _ _ _
  have hprim : ∀ x, x ∈ s₁.requires.primary ↔ x = r ∨ x ∈ s.requires.primary :=
    fun x => BidirectionalManyMapping.mem_setItem_primary
  have hsame : s.requiresOf r = old := Dict.getD_of_get? hold []
  obtain ⟨skip, hskip, hiff⟩ := shouldSkipForDependencies_ok (s := s₁) (r := r) (by
    intro d hd
    rw [hreqs, if_pos rfl] at hd
    exact hreq d hd)
  rw [hreqs, if_pos rfl] at hiff
  have hcheck : (rs.blocked = .temporarilyBlocked ∧ old.removeAll requires ≠ [])
      ∧ skip = false ↔ s.Recovers r requires := by
    rw [Recovers, blocked?_of_get? hrs, hsame, ne_eq, removeAll_eq_nil, Option.some.injEq,
      and_assoc]
    refine and_congr_right fun _ => and_congr (by simp) ?_
    rw [← Bool.not_eq_true, hiff]
    push Not
    rfl
  have hs' : s.updateRequires r requires = .ok (if s.Recovers r requires
      then (s₁.setBlocked r rs .notBlocked).addDirty r else s₁) := by
    rw [updateRequires, Dict.item_of_get? hrs, ok_bind, Dict.item_of_get? hold, ok_bind]
    by_cases hc : rs.blocked = .temporarilyBlocked ∧ old.removeAll requires ≠ []
    · have hdec : (rs.blocked = .temporarilyBlocked && old.removeAll requires ≠ []) = true := by
        simpa using hc
      simp only [hdec, if_true, hskip, ok_bind, pure_eq_ok, s₁]
      cases skip with
      | false => rw [if_pos (hcheck.mp ⟨hc, rfl⟩)]; rfl
      | true => rw [if_pos rfl, if_neg fun h => by simpa using (hcheck.mpr h).2]
    · have hdec : (rs.blocked = .temporarilyBlocked && old.removeAll requires ≠ []) = false := by
        simpa using hc
      simp only [hdec, Bool.false_eq_true, if_false, pure_eq_ok]
      rw [if_neg fun h => hc (hcheck.mpr h).1]
  refine ⟨_, hs', ?_⟩
  by_cases hrec : s.Recovers r requires
  · rw [if_pos hrec]
    refine ⟨rfl, rfl, rfl, rfl, fun x => ?_, hreqs, hprim, fun x => ?_⟩
    · show (s.resourceState.set r { rs with blocked := .notBlocked }).get? x = _
      rw [Dict.get?_set]
      by_cases hx : x = r
      · subst hx; simp [hrec, hrs]
      · simp [hx]
    · show x ∈ s.dirty.insert r ↔ _
      simp [hrec, or_comm]
  · rw [if_neg hrec]
    exact ⟨rfl, rfl, rfl, rfl, fun x => by simp [hrec, s₁], hreqs, hprim,
      fun x => by simp [hrec, s₁]⟩

theorem RequiresUpdated.mem_resourceState {requires : List ResourceIdStr}
    (h : RequiresUpdated s r requires s') {x : ResourceIdStr} :
    x ∈ s'.resourceState ↔ x ∈ s.resourceState := by
  rw [Dict.mem_iff, Dict.mem_iff, h.state]
  split <;> simp

theorem RequiresUpdated.valid {requires : List ResourceIdStr}
    (h : RequiresUpdated s r requires s') (hv : s.Valid) (hr : r ∈ s.resourceState)
    (hreq : ∀ d ∈ requires, d ∈ s.resourceState) : s'.Valid where
  intent := fun x => by rw [h.intent, h.mem_resourceState, hv.intent]
  intentId := fun x i hi => hv.intentId x i (h.intent ▸ hi)
  requires := by
    intro x
    rw [h.primary, h.mem_resourceState, hv.requires]
    exact ⟨fun hx => hx.elim (fun e => e ▸ hr) id, Or.inr⟩
  agents := fun a x => by
    rw [agentResources, h.resourcesByAgent, h.mem_resourceState]
    exact hv.agents a x
  closed := by
    intro x d hd
    rw [h.requiresOf] at hd
    rw [h.mem_resourceState, h.mem_resourceState]
    split at hd
    · rename_i hx
      exact ⟨hx ▸ hr, hreq d hd⟩
    · exact hv.closed x d hd

/-! ## The loops of a version update -/

def applyUpdates (s : ModelState) (us : List ResourceUpdate) : Except PyError ModelState :=
  us.foldlM applyUpdate s

def applyRequires (s : ModelState) (edits : List (ResourceIdStr × List ResourceIdStr)) :
    Except PyError ModelState :=
  edits.foldlM (fun s e => s.updateRequires e.1 e.2) s

/-- No update is about the resource. -/
def Untouched (us : List ResourceUpdate) (x : ResourceIdStr) : Prop :=
  ∀ u ∈ us, u.resource ≠ x

/-- What a series of updates of distinct resources does. -/
structure UpdatedAll (s : ModelState) (us : List ResourceUpdate) (s' : ModelState) :
    Prop where
  valid : s'.Valid
  version : s'.version = s.version
  resourceSets : s'.resourceSets = s.resourceSets
  intent : ∀ u ∈ us, s'.intent.get? u.resource = some u.intent
  intentOther : ∀ x, Untouched us x → s'.intent.get? x = s.intent.get? x
  state : ∀ u ∈ us, s'.resourceState.get? u.resource = some (s.updatedState u)
  stateOther : ∀ x, Untouched us x → s'.resourceState.get? x = s.resourceState.get? x
  requiresOf : ∀ x d, d ∈ s'.requiresOf x ↔
    d ∈ s.requiresOf x ∧ ∀ u ∈ us, s.Recreates u → x ≠ u.resource ∧ d ≠ u.resource
  dirty : ∀ u ∈ us, (u.resource ∈ s'.dirty ↔
    u.knownCompliant = false ∧ (s.updatedState u).blocked = .notBlocked)
  dirtyOther : ∀ x, Untouched us x → (x ∈ s'.dirty ↔ x ∈ s.dirty)

theorem UpdatedAll.nil (hv : s.Valid) : UpdatedAll s [] s where
  valid := hv
  version := rfl
  resourceSets := rfl
  intent := by simp
  intentOther := fun _ _ => rfl
  state := by simp
  stateOther := fun _ _ => rfl
  requiresOf := by simp
  dirty := by simp
  dirtyOther := fun _ _ => Iff.rfl

theorem untouched_concat {us : List ResourceUpdate} {u : ResourceUpdate} {x : ResourceIdStr} :
    Untouched (us ++ [u]) x ↔ Untouched us x ∧ u.resource ≠ x := by
  simp only [Untouched, List.mem_append, List.mem_singleton]
  exact ⟨fun h => ⟨fun v hv => h v (Or.inl hv), h u (Or.inr rfl)⟩,
    fun h v hv => hv.elim (h.1 v) fun e => e ▸ h.2⟩

theorem UpdatedAll.concat {us : List ResourceUpdate} {u : ResourceUpdate} {s₁ s₂ : ModelState}
    (h : UpdatedAll s us s₁) (hu : Untouched us u.resource) (h₁ : Updated s₁ u s₂) :
    UpdatedAll s (us ++ [u]) s₂ := by
  have hget := h.stateOther u.resource hu
  have hstate : s₁.updatedState u = s.updatedState u := by rw [updatedState, updatedState, hget]
  have hrec : s₁.Recreates u ↔ s.Recreates u := by
    rw [Recreates, Recreates, Dict.mem_iff, Dict.mem_iff, hget]
  have hother : ∀ v ∈ us, v.resource ≠ u.resource := hu
  refine
    { valid := h₁.valid h.valid
      version := h₁.version.trans h.version
      resourceSets := h₁.resourceSets.trans h.resourceSets
      intent := ?_, intentOther := ?_, state := ?_, stateOther := ?_, requiresOf := ?_
      dirty := ?_, dirtyOther := ?_ }
  · intro v hv
    rw [h₁.intent]
    rcases List.mem_append.mp hv with hv | hv
    · rw [if_neg (hother v hv), h.intent v hv]
    · obtain rfl := List.mem_singleton.mp hv
      rw [if_pos rfl]
  · intro x hx
    obtain ⟨hx, hxu⟩ := untouched_concat.mp hx
    rw [h₁.intent, if_neg (Ne.symm hxu), h.intentOther x hx]
  · intro v hv
    rw [h₁.state]
    rcases List.mem_append.mp hv with hv | hv
    · rw [if_neg (hother v hv), h.state v hv]
    · obtain rfl := List.mem_singleton.mp hv
      rw [if_pos rfl, hstate]
  · intro x hx
    obtain ⟨hx, hxu⟩ := untouched_concat.mp hx
    rw [h₁.state, if_neg (Ne.symm hxu), h.stateOther x hx]
  · intro x d
    rw [h₁.requiresOf, h.requiresOf, hrec]
    simp only [List.mem_append, List.mem_singleton]
    constructor
    · rintro ⟨⟨hd, hus⟩, hu'⟩
      exact ⟨hd, fun v hv => hv.elim (hus v) fun e => e ▸ hu'⟩
    · rintro ⟨hd, hall⟩
      exact ⟨⟨hd, fun v hv => hall v (Or.inl hv)⟩, hall u (Or.inr rfl)⟩
  · intro v hv
    rw [h₁.dirty]
    rcases List.mem_append.mp hv with hv | hv
    · rw [if_neg (hother v hv), h.dirty v hv]
    · obtain rfl := List.mem_singleton.mp hv
      rw [if_pos rfl, hstate]
  · intro x hx
    obtain ⟨hx, hxu⟩ := untouched_concat.mp hx
    rw [h₁.dirty, if_neg (Ne.symm hxu), h.dirtyOther x hx]

/-- Updates of distinct resources, whatever their order. -/
theorem applyUpdates_ok {us : List ResourceUpdate} (hv : s.Valid)
    (hdistinct : (us.map ResourceUpdate.resource).Nodup)
    (hus : ∀ u ∈ us, ¬ (u.undefined = true ∧ u.knownCompliant = true)) :
    ∃ s', s.applyUpdates us = .ok s' ∧ UpdatedAll s us s' := by
  refine foldlM_ok (I := fun pre s' => UpdatedAll s pre s') ?_ (UpdatedAll.nil hv)
  intro pre u post s₁ hl hI
  obtain ⟨s₂, h₂, hupd⟩ := applyUpdate_ok (u := u) hI.valid (hus u (by simp [hl]))
  refine ⟨s₂, h₂, hI.concat ?_ hupd⟩
  rw [hl, List.map_append, List.map_cons, List.nodup_append] at hdistinct
  exact fun v hvp => hdistinct.2.2 _ (List.mem_map_of_mem hvp) _ (List.mem_cons_self ..)

theorem UpdatedAll.mem_resourceState {us : List ResourceUpdate} (h : UpdatedAll s us s')
    {x : ResourceIdStr} :
    x ∈ s'.resourceState ↔ (∃ u ∈ us, u.resource = x) ∨ x ∈ s.resourceState := by
  by_cases hx : ∃ u ∈ us, u.resource = x
  · obtain ⟨u, hu, rfl⟩ := hx
    exact iff_of_true (Dict.mem_of_get? (h.state u hu)) (Or.inl ⟨u, hu, rfl⟩)
  · have hun : Untouched us x := fun u hu hux => hx ⟨u, hu, hux⟩
    rw [Dict.mem_iff, Dict.mem_iff, h.stateOther x hun]
    simp [hx]

/-- A requires edit that gives the resource another chance. -/
def RecoversIn (s : ModelState) (edits : List (ResourceIdStr × List ResourceIdStr))
    (x : ResourceIdStr) : Prop :=
  ∃ e ∈ edits, e.1 = x ∧ s.Recovers x e.2

instance (s : ModelState) (edits : List (ResourceIdStr × List ResourceIdStr))
    (x : ResourceIdStr) : Decidable (s.RecoversIn edits x) :=
  inferInstanceAs (Decidable (∃ e ∈ edits, e.1 = x ∧ s.Recovers x e.2))

/-- What a series of requires updates of distinct resources does. -/
structure RequiresUpdatedAll (s : ModelState)
    (edits : List (ResourceIdStr × List ResourceIdStr)) (s' : ModelState) : Prop where
  valid : s'.Valid
  version : s'.version = s.version
  intent : s'.intent = s.intent
  resourceSets : s'.resourceSets = s.resourceSets
  state : ∀ x, s'.resourceState.get? x =
    if s.RecoversIn edits x
    then (s.resourceState.get? x).map fun rs => { rs with blocked := .notBlocked }
    else s.resourceState.get? x
  requiresOf : ∀ e ∈ edits, s'.requiresOf e.1 = e.2
  requiresOther : ∀ x, (∀ e ∈ edits, e.1 ≠ x) → s'.requiresOf x = s.requiresOf x
  dirty : ∀ x, x ∈ s'.dirty ↔ x ∈ s.dirty ∨ s.RecoversIn edits x

theorem RequiresUpdatedAll.nil (hv : s.Valid) : RequiresUpdatedAll s [] s where
  valid := hv
  version := rfl
  intent := rfl
  resourceSets := rfl
  state := fun x => by simp [RecoversIn]
  requiresOf := by simp
  requiresOther := fun _ _ => rfl
  dirty := fun x => by simp [RecoversIn]

theorem RequiresUpdatedAll.knownBad {edits : List (ResourceIdStr × List ResourceIdStr)}
    (h : RequiresUpdatedAll s edits s') (d : ResourceIdStr) : s'.KnownBad d ↔ s.KnownBad d := by
  rw [KnownBad, KnownBad, h.state]
  split
  · cases s.resourceState.get? d <;> simp
  · rfl

theorem recoversIn_concat {edits : List (ResourceIdStr × List ResourceIdStr)}
    {r x : ResourceIdStr} {requires : List ResourceIdStr} :
    s.RecoversIn (edits ++ [(r, requires)]) x ↔
      s.RecoversIn edits x ∨ (r = x ∧ s.Recovers x requires) := by
  simp [RecoversIn, or_and_right, exists_or]

theorem RequiresUpdatedAll.mem_resourceState
    {edits : List (ResourceIdStr × List ResourceIdStr)}
    (h : RequiresUpdatedAll s edits s') {x : ResourceIdStr} :
    x ∈ s'.resourceState ↔ x ∈ s.resourceState := by
  rw [Dict.mem_iff, Dict.mem_iff, h.state]
  split <;> simp

theorem RequiresUpdatedAll.concat {edits : List (ResourceIdStr × List ResourceIdStr)}
    {requires : List ResourceIdStr} {s₁ s₂ : ModelState} (h : RequiresUpdatedAll s edits s₁)
    (hr : ∀ e ∈ edits, e.1 ≠ r) (h₁ : RequiresUpdated s₁ r requires s₂) (hv₂ : s₂.Valid) :
    RequiresUpdatedAll s (edits ++ [(r, requires)]) s₂ := by
  have hnot : ¬ s.RecoversIn edits r := fun ⟨e, he, her, _⟩ => hr e he her
  have hrec : s₁.Recovers r requires ↔ s.Recovers r requires := by
    rw [Recovers, Recovers, blocked?, blocked?, h.state, if_neg hnot, h.requiresOther r hr]
    simp only [h.knownBad]
  refine
    { valid := hv₂
      version := h₁.version.trans h.version
      intent := h₁.intent.trans h.intent
      resourceSets := h₁.resourceSets.trans h.resourceSets
      state := ?_, requiresOf := ?_, requiresOther := ?_, dirty := ?_ }
  · intro x
    rw [h₁.state, h.state]
    by_cases hx : x = r
    · subst hx
      simp [recoversIn_concat, hnot, hrec]
    · have hx' : ¬ r = x := fun e => hx e.symm
      simp [recoversIn_concat, hx, hx']
  · intro e he
    rw [h₁.requiresOf]
    rcases List.mem_append.mp he with he | he
    · rw [if_neg (hr e he), h.requiresOf e he]
    · obtain rfl := List.mem_singleton.mp he
      rw [if_pos rfl]
  · intro x hx
    have hxr : x ≠ r := fun e => hx (r, requires) (by simp) e.symm
    rw [h₁.requiresOf, if_neg hxr,
      h.requiresOther x fun e he => hx e (List.mem_append_left _ he)]
  · intro x
    rw [h₁.dirty, h.dirty, recoversIn_concat, hrec]
    constructor
    · rintro ((hx | hx) | ⟨rfl, hx⟩)
      · exact Or.inl hx
      · exact Or.inr (Or.inl hx)
      · exact Or.inr (Or.inr ⟨rfl, hx⟩)
    · rintro (hx | hx | ⟨rfl, hx⟩)
      · exact Or.inl (Or.inl hx)
      · exact Or.inl (Or.inr hx)
      · exact Or.inr ⟨rfl, hx⟩

/-- Requires updates of distinct resources, whatever their order. -/
theorem applyRequires_ok {edits : List (ResourceIdStr × List ResourceIdStr)} (hv : s.Valid)
    (hdistinct : (edits.map Prod.fst).Nodup)
    (hedits : ∀ e ∈ edits, e.1 ∈ s.resourceState ∧ ∀ d ∈ e.2, d ∈ s.resourceState) :
    ∃ s', s.applyRequires edits = .ok s' ∧ RequiresUpdatedAll s edits s' := by
  refine foldlM_ok (I := fun pre s' => RequiresUpdatedAll s pre s') ?_ (.nil hv)
  intro pre e post s₁ hl hI
  obtain ⟨hr, hreq⟩ := hedits e (by simp [hl])
  have hr₁ : e.1 ∈ s₁.resourceState := hI.mem_resourceState.mpr hr
  have hreq₁ : ∀ d ∈ e.2, d ∈ s₁.resourceState := fun d hd =>
    hI.mem_resourceState.mpr (hreq d hd)
  obtain ⟨s₂, h₂, hupd⟩ := updateRequires_ok hI.valid hr₁ hreq₁
  refine ⟨s₂, h₂, hI.concat ?_ hupd (hupd.valid hI.valid hr₁ hreq₁)⟩
  rw [hl, List.map_append, List.map_cons, List.nodup_append] at hdistinct
  exact fun e' he' => hdistinct.2.2 _ (List.mem_map_of_mem he') _ (List.mem_cons_self ..)

end ModelState

end Inmanta
