import Inmanta.Deploy.Scheduler

/-!
# The edits of a new version

The first half of `newVersion`: the versions are consolidated into one
`VersionUpdate`, and its changes of intent and of the requires relation
are applied to the model state. `Edited` is the model state this leads
to, in terms of the old one and of the update.

A resource that is deleted and re-created within the versions is
considered new although it is managed (`forceNew`). It is dropped first,
with every edge of the requires relation from or to it; only the edges of
resources whose requires differ from the old ones are set again.
-/

namespace Inmanta

/-! ## The pre-processed versions -/

namespace VersionUpdate

variable {u : VersionUpdate} {r : ResourceIdStr}

theorem mem_new : r ∈ u.new ↔ u.changes.get? r = some .new := by
  rw [new, List.mem_filter, Dict.mem_keys, decide_eq_true_iff]
  exact ⟨And.right, fun h => ⟨Dict.mem_of_get? h, h⟩⟩

theorem mem_updated : r ∈ u.updated ↔ u.changes.get? r = some .updated := by
  rw [updated, List.mem_filter, Dict.mem_keys, decide_eq_true_iff]
  exact ⟨And.right, fun h => ⟨Dict.mem_of_get? h, h⟩⟩

theorem mem_deleted : r ∈ u.deleted ↔ ∃ v, u.changes.get? r = some (.deleted v) := by
  rw [deleted, List.mem_filter, Dict.mem_keys, Option.any_eq_true]
  constructor
  · rintro ⟨-, change, hc, hd⟩
    cases change with
    | deleted v => exact ⟨v, hc⟩
    | _ => cases hd
  · rintro ⟨v, hv⟩
    exact ⟨Dict.mem_of_get? hv, _, hv, rfl⟩

/-- The resource is new or updated. -/
def Changes (u : VersionUpdate) (r : ResourceIdStr) : Prop :=
  r ∈ u.new ∨ r ∈ u.updated

instance (u : VersionUpdate) (r : ResourceIdStr) : Decidable (u.Changes r) :=
  inferInstanceAs (Decidable (_ ∨ _))

theorem mem_changes : r ∈ u.changes ↔ u.Changes r ∨ r ∈ u.deleted := by
  rw [Changes, mem_new, mem_updated, mem_deleted, Dict.mem_iff]
  constructor
  · rintro ⟨change, hc⟩
    cases change with
    | new => exact Or.inl (Or.inl hc)
    | updated => exact Or.inl (Or.inr hc)
    | deleted v => exact Or.inr ⟨v, hc⟩
  · rintro ((h | h) | ⟨v, h⟩)
    · exact ⟨_, h⟩
    · exact ⟨_, h⟩
    · exact ⟨_, h⟩

theorem Changes.not_deleted (h : u.Changes r) : r ∉ u.deleted := by
  intro hd
  obtain ⟨v, hv⟩ := mem_deleted.mp hd
  rcases h with h | h
  · rw [mem_new, hv] at h; cases h
  · rw [mem_updated, hv] at h; cases h

theorem mem_forceNew {s : ModelState} : r ∈ u.forceNew s ↔ r ∈ s.intent ∧ r ∈ u.new := by
  rw [forceNew, List.mem_inter_iff, Dict.mem_keys]

theorem mem_becameUndefined {s : ModelState} : r ∈ u.becameUndefined s ↔
    u.Changes r ∧ r ∈ u.model.undefined ∧ ¬ s.IsUndefined r := by
  simp only [becameUndefined, List.mem_filter, List.mem_union_iff, decide_eq_true_eq]
  rfl

theorem mem_becameDefined {s : ModelState} : r ∈ u.becameDefined s ↔
    u.Changes r ∧ r ∉ u.model.undefined ∧ s.IsUndefined r := by
  simp only [becameDefined, List.mem_filter, List.mem_union_iff, decide_eq_true_eq]
  rfl

/-- The new requirements of a resource of the versions. -/
def requiresOf (u : VersionUpdate) (r : ResourceIdStr) : List ResourceIdStr :=
  u.model.requires.getD r []

end VersionUpdate

/-- What is known of the pre-processed versions. -/
structure Prepared (s : ModelState) (u : VersionUpdate) : Prop where
  changed : IntentChanged s u.model u.changes
  added : ∀ r, u.addedRequires.getD r [] =
    if r ∈ u.model.resources then (u.requiresOf r).removeAll (s.requiresOf r) else []
  dropped : ∀ r, u.droppedRequires.getD r [] =
    if r ∈ u.model.resources then (s.requiresOf r).removeAll (u.requiresOf r) else []
  addedKeys : ∀ r, r ∈ u.addedRequires ↔ u.addedRequires.getD r [] ≠ []
  droppedKeys : ∀ r, r ∈ u.droppedRequires ↔ u.droppedRequires.getD r [] ≠ []

/-- A dictionary of non-empty sets that is filled key by key. -/
theorem foldl_setNonEmpty (m : Dict ResourceIdStr (List ResourceIdStr))
    (f : ResourceIdStr → List ResourceIdStr → List ResourceIdStr) :
    let d := m.items.foldl (fun d e => setNonEmpty d e.1 (f e.1 e.2)) .empty
    (∀ r, d.getD r [] = if r ∈ m then f r (m.getD r []) else []) ∧ ∀ r, r ∈ d ↔ d.getD r [] ≠ [] := by
  have hall := foldl_induct
    (f := fun (d : Dict ResourceIdStr (List ResourceIdStr)) e => setNonEmpty d e.1 (f e.1 e.2))
    (I := fun pre d => (∀ r, r ∈ pre.map Prod.fst → d.getD r [] = f r (m.getD r []))
      ∧ (∀ r, r ∉ pre.map Prod.fst → r ∉ d) ∧ ∀ r, r ∈ d ↔ d.getD r [] ≠ [])
    (l := m.items) (s := .empty)
    (fun pre e post d hl hI => by
      obtain ⟨hin, hout, hne⟩ := hI
      have hget : m.getD e.1 [] = e.2 :=
        Dict.getD_of_get? (Dict.get?_eq_some_iff.mpr (by simp [hl])) []
      have hfresh : e.1 ∉ pre.map Prod.fst := by
        have hnd := m.nodup
        rw [hl, List.map_append, List.map_cons, List.nodup_append] at hnd
        exact fun hmem => hnd.2.2 _ hmem _ (List.mem_cons_self ..) rfl
      have hmap : (pre ++ [e]).map Prod.fst = pre.map Prod.fst ++ [e.1] := by simp
      unfold setNonEmpty
      split
      · rename_i hempty
        refine ⟨fun r hr => ?_, fun r hr => ?_, hne⟩
        · rw [hmap, List.mem_append, List.mem_singleton] at hr
          rcases hr with hr | rfl
          · exact hin r hr
          · rw [hget, hempty, Dict.getD_of_not_mem (hout _ hfresh)]
        · rw [hmap, List.mem_append, not_or] at hr
          exact hout r hr.1
      · rename_i hsome
        refine ⟨fun r hr => ?_, fun r hr => ?_, fun r => ?_⟩
        · rw [Dict.getD_set]
          split
          · rename_i h
            rw [h, hget]
          · rename_i h
            rw [hmap, List.mem_append, List.mem_singleton] at hr
            exact hin r (hr.resolve_right h)
        · rw [hmap, List.mem_append, List.mem_singleton, not_or] at hr
          rw [Dict.mem_set, not_or]
          exact ⟨hr.2, hout r hr.1⟩
        · rw [Dict.mem_set, Dict.getD_set]
          split
          · rename_i h
            exact iff_of_true (Or.inl h) hsome
          · rename_i h
            rw [← hne]
            exact or_iff_right h)
    ⟨by simp, by simp, fun r => by simp [Dict.getD]⟩
  refine ⟨fun r => ?_, hall.2.2⟩
  by_cases hr : r ∈ m
  · rw [if_pos hr]
    exact hall.1 r (Dict.mem_keys.mpr hr)
  · rw [if_neg hr]
    exact Dict.getD_of_not_mem (hall.2.1 r fun h => hr (Dict.mem_keys.mp h)) []

theorem prepare_ok {s : ModelState} {versions : List ModelVersion} (hv : s.Valid)
    (hne : versions ≠ []) (hwf : ∀ v ∈ versions, v.WellFormed) :
    ∃ u, s.prepare versions [] = .ok u ∧ Prepared s u := by
  obtain ⟨model, changes, hg, hc⟩ := getIntentChanges_ok hv hne hwf
  obtain ⟨hadd, haddk⟩ :=
    foldl_setNonEmpty model.requires fun r l => l.removeAll (s.requiresOf r)
  obtain ⟨hdrop, hdropk⟩ :=
    foldl_setNonEmpty model.requires fun r l => (s.requiresOf r).removeAll l
  refine ⟨⟨model, changes, s.addedRequires model, s.droppedRequires model⟩, ?_, hc, fun r => ?_,
    fun r => ?_, haddk, hdropk⟩
  · rw [ModelState.prepare, hg]
    rfl
  · refine (hadd r).trans ?_
    simp only [hc.requires]
    rfl
  · refine (hdrop r).trans ?_
    simp only [hc.requires]
    rfl

namespace Prepared

variable {s : ModelState} {u : VersionUpdate} {r d : ResourceIdStr}

theorem mem_resources (h : Prepared s u) (hr : u.Changes r) : r ∈ u.model.resources :=
  hr.elim (fun hn => h.changed.new r (VersionUpdate.mem_new.mp hn))
    fun hu => (h.changed.updated r (VersionUpdate.mem_updated.mp hu)).1

/-- A resource of the versions is new or updated, or managed. -/
theorem changes_or_managed (h : Prepared s u) (hr : r ∈ u.model.resources) :
    u.Changes r ∨ r ∈ s.intent := by
  by_cases hc : r ∈ u.changes
  · rcases VersionUpdate.mem_changes.mp hc with hc | hd
    · exact Or.inl hc
    · obtain ⟨v, hv⟩ := VersionUpdate.mem_deleted.mp hd
      exact absurd hr (h.changed.deleted r v hv)
  · obtain ⟨i, hi⟩ := Dict.mem_iff.mp hr
    obtain ⟨managed, hm, -⟩ := h.changed.unchanged r i hc hi
    exact Or.inr (Dict.mem_of_get? hm)

theorem mem_added (h : Prepared s u) : d ∈ u.addedRequires.getD r [] ↔
    r ∈ u.model.resources ∧ d ∈ u.requiresOf r ∧ d ∉ s.requiresOf r := by
  rw [h.added]
  split
  · rename_i hr
    rw [mem_removeAll, and_iff_right hr]
  · rename_i hr
    simp [hr]

theorem mem_dropped (h : Prepared s u) : d ∈ u.droppedRequires.getD r [] ↔
    r ∈ u.model.resources ∧ d ∈ s.requiresOf r ∧ d ∉ u.requiresOf r := by
  rw [h.dropped]
  split
  · rename_i hr
    rw [mem_removeAll, and_iff_right hr]
  · rename_i hr
    simp [hr]

theorem mem_addedRequires (h : Prepared s u) : r ∈ u.addedRequires ↔
    r ∈ u.model.resources ∧ ∃ d ∈ u.requiresOf r, d ∉ s.requiresOf r := by
  rw [h.addedKeys, ne_eq, List.eq_nil_iff_forall_not_mem]
  simp only [h.mem_added]
  push Not
  simp

theorem mem_droppedRequires (h : Prepared s u) : r ∈ u.droppedRequires ↔
    r ∈ u.model.resources ∧ ∃ d ∈ s.requiresOf r, d ∉ u.requiresOf r := by
  rw [h.droppedKeys, ne_eq, List.eq_nil_iff_forall_not_mem]
  simp only [h.mem_dropped]
  push Not
  simp

/-- The requires of a resource of the versions are set if they differ. -/
theorem mem_editedRequires (h : Prepared s u) : r ∈ u.editedRequires ↔
    r ∈ u.model.resources ∧ ¬ ∀ d, d ∈ u.requiresOf r ↔ d ∈ s.requiresOf r := by
  rw [VersionUpdate.editedRequires, List.mem_union_iff, Dict.mem_keys, Dict.mem_keys,
    h.mem_addedRequires, h.mem_droppedRequires, ← and_or_left]
  refine and_congr_right fun _ => ⟨?_, fun hne => ?_⟩
  · rintro (⟨d, hd, hno⟩ | ⟨d, hd, hno⟩) hall
    · exact hno ((hall d).mp hd)
    · exact hno ((hall d).mpr hd)
  · by_contra hno
    push Not at hno
    exact hne fun d => ⟨hno.1 d, hno.2 d⟩

end Prepared

/-! ## Applying the edits -/

namespace VersionUpdate

variable (u : VersionUpdate) (old : ModelState)

/-- The state a new or updated resource gets. -/
def newState (r : ResourceIdStr) : ResourceState :=
  match old.resourceState.get? r with
  | none => ModelState.createdState (r ∈ u.model.undefined) false none
  | some rs =>
      if r ∈ u.new then ModelState.createdState (r ∈ u.model.undefined) false none
      else ModelState.refreshedState rs (r ∈ u.model.undefined) false

/-- The resource was known to be bad and is not reset. -/
def StaysBad (d : ResourceIdStr) : Prop :=
  old.KnownBad d ∧ d ∉ u.new

instance (d : ResourceIdStr) : Decidable (u.StaysBad old d) :=
  inferInstanceAs (Decidable (_ ∧ _))

/-- A resource that was skipped for its dependencies gets another chance because
it drops one that was not re-created and no bad one is left. -/
def Recovers (r : ResourceIdStr) : Prop :=
  r ∈ u.editedRequires ∧ old.blocked? r = some .temporarilyBlocked ∧ ¬ u.Changes r
    ∧ (∃ d ∈ old.requiresOf r, d ∉ u.forceNew old ∧ d ∉ u.requiresOf r)
    ∧ ∀ d ∈ u.requiresOf r, ¬ u.StaysBad old d

instance (r : ResourceIdStr) : Decidable (u.Recovers old r) :=
  inferInstanceAs (Decidable (_ ∧ _))

/-- The resulting model is closed under requires: what is required is in the
versions, or managed, and was not deleted. -/
structure Closed : Prop where
  listed : ∀ r ∈ u.model.resources, ∀ d ∈ u.requiresOf r,
    (d ∈ u.model.resources ∨ d ∈ old.intent) ∧ d ∉ u.deleted
  other : ∀ r ∈ old.intent, r ∉ u.model.resources → r ∉ u.deleted →
    ∀ d ∈ old.requiresOf r, d ∉ u.deleted

instance : Decidable (u.Closed old) :=
  decidable_of_iff ((∀ r ∈ u.model.resources.keys, ∀ d ∈ u.requiresOf r,
        (d ∈ u.model.resources ∨ d ∈ old.intent) ∧ d ∉ u.deleted)
      ∧ ∀ r ∈ old.intent.keys, r ∉ u.model.resources → r ∉ u.deleted →
        ∀ d ∈ old.requiresOf r, d ∉ u.deleted)
    ⟨fun h => ⟨fun r hr => h.1 r (Dict.mem_keys.mpr hr), fun r hr => h.2 r (Dict.mem_keys.mpr hr)⟩,
      fun h => ⟨fun r hr => h.listed r (Dict.mem_keys.mp hr),
        fun r hr => h.other r (Dict.mem_keys.mp hr)⟩⟩

/-- The requirements a resource is left with: the edges from and to re-created
resources are lost unless the requires of the resource are set. -/
def requiresAfter (r : ResourceIdStr) : List ResourceIdStr :=
  if r ∈ u.editedRequires then u.requiresOf r
  else if r ∈ u.forceNew old then [] else (old.requiresOf r).removeAll (u.forceNew old)

/-- What the edits do to the model state `old`. -/
structure Edited (s : ModelState) : Prop where
  valid : s.Valid
  version : s.version = u.model.version
  resourceSets : s.resourceSets = (old.updateSets u.model).resourceSets
  mem : ∀ r, r ∈ s.resourceState ↔ u.Changes r ∨ r ∈ old.resourceState
  intentChanged : ∀ r, u.Changes r → s.intent.get? r = u.model.resources.get? r
  intentOther : ∀ r, ¬ u.Changes r → s.intent.get? r = old.intent.get? r
  stateChanged : ∀ r, u.Changes r → s.resourceState.get? r = some (u.newState old r)
  stateOther : ∀ r, ¬ u.Changes r → s.resourceState.get? r =
    if u.Recovers old r
    then (old.resourceState.get? r).map fun rs => { rs with blocked := .notBlocked }
    else old.resourceState.get? r
  requiresEdited : ∀ r ∈ u.editedRequires, s.requiresOf r = u.requiresOf r
  requiresOther : ∀ r, r ∉ u.editedRequires → ∀ d, d ∈ s.requiresOf r ↔
    d ∈ old.requiresOf r ∧ r ∉ u.forceNew old ∧ d ∉ u.forceNew old
  dirtyChanged : ∀ r, u.Changes r →
    (r ∈ s.dirty ↔ (u.newState old r).blocked = .notBlocked)
  dirtyOther : ∀ r, ¬ u.Changes r → (r ∈ s.dirty ↔ r ∈ old.dirty ∨ u.Recovers old r)

variable {u old}

theorem newState_blocked (r : ResourceIdStr) :
    (u.newState old r).blocked ≠ .temporarilyBlocked := by
  unfold newState ModelState.createdState ModelState.refreshedState
  split
  · simp only
    split <;> simp
  · split
    · simp only
      split <;> simp
    · simp only
      split
      · simp
      · split <;> simp

theorem newState_bad {r : ResourceIdStr} :
    (u.newState old r).lastHandlerRunCompliant = some false ↔ u.StaysBad old r := by
  unfold newState StaysBad
  cases hr : old.resourceState.get? r with
  | none => simp [ModelState.createdState, ModelState.KnownBad, hr]
  | some rs =>
      by_cases hn : r ∈ u.new
      · simp [hn, ModelState.createdState]
      · simp [hn, ModelState.refreshedState, ModelState.KnownBad, hr]

theorem Edited.knownBad {s : ModelState} (h : u.Edited old s) (d : ResourceIdStr) :
    s.KnownBad d ↔ u.StaysBad old d := by
  by_cases hd : u.Changes d
  · rw [← newState_bad, ModelState.KnownBad, h.stateChanged d hd]
    simp
  · rw [ModelState.KnownBad, h.stateOther d hd]
    refine Iff.trans ?_ (and_iff_left fun hn => hd (Or.inl hn)).symm
    split
    · cases hrs : old.resourceState.get? d <;> simp [ModelState.KnownBad, hrs]
    · rfl

theorem Edited.mem_requiresOf {s : ModelState} (h : u.Edited old s) {r d : ResourceIdStr} :
    d ∈ s.requiresOf r ↔ d ∈ u.requiresAfter old r := by
  unfold requiresAfter
  split
  · rename_i hr
    rw [h.requiresEdited r hr]
  · rename_i hr
    rw [h.requiresOther r hr]
    split
    · rename_i hf
      simp [hf]
    · rename_i hf
      rw [mem_removeAll]
      simp [hf]

/-- What the resources that are left require is not deleted. -/
theorem Closed.not_deleted (hc : u.Closed old) (hp : Prepared old u) (hv : old.Valid)
    {r d : ResourceIdStr} (hr : r ∉ u.deleted) (hd : d ∈ u.requiresAfter old r) :
    d ∉ u.deleted := by
  by_cases hm : r ∈ u.model.resources
  · have hd' : d ∈ u.requiresOf r := by
      unfold requiresAfter at hd
      split at hd
      · exact hd
      · rename_i he
        have hsame : ∀ d, d ∈ u.requiresOf r ↔ d ∈ old.requiresOf r := by
          by_contra hne
          exact he (hp.mem_editedRequires.mpr ⟨hm, hne⟩)
        split at hd
        · cases hd
        · exact (hsame d).mpr (mem_removeAll.mp hd).1
    exact (hc.listed r hm d hd').2
  · have he : r ∉ u.editedRequires := fun he => hm (hp.mem_editedRequires.mp he).1
    unfold requiresAfter at hd
    rw [if_neg he] at hd
    split at hd
    · cases hd
    · have hd := (mem_removeAll.mp hd).1
      exact hc.other r ((hv.intent r).mpr (hv.closed r d hd).1) hm hr d hd

/-- The update of a new or updated resource. -/
def callOf (u : VersionUpdate) (r : ResourceIdStr) : ModelState.ResourceUpdate :=
  ⟨(u.model.resources.get? r).getD ⟨r, "", ⟨none, none, [], []⟩⟩, u.changes.get? r = some .new,
    r ∈ u.model.undefined, false, none⟩

theorem callOf_spec (hp : Prepared old u) {r : ResourceIdStr} (hr : u.Changes r) :
    u.model.resources.get? r = some (u.callOf r).intent ∧ (u.callOf r).resource = r
      ∧ ModelState.changeOf u .empty r = .ok (u.callOf r)
      ∧ old.updatedState (u.callOf r) = u.newState old r := by
  obtain ⟨i, hi⟩ := Dict.mem_iff.mp (hp.mem_resources hr)
  have hint : (u.callOf r).intent = i := by simp [callOf, hi]
  have hres : (u.callOf r).resource = r :=
    (congrArg ResourceIntent.resourceId hint).trans (hp.changed.ids r i hi)
  refine ⟨hi.trans (congrArg some hint.symm), hres, ?_, ?_⟩
  · rw [ModelState.changeOf, Dict.item_of_get? hi, ok_bind]
    simp [callOf, hi]
  · rw [ModelState.updatedState, newState, hres]
    cases old.resourceState.get? r with
    | none => rfl
    | some rs => simp [callOf, mem_new]

/-- The model state after the updates of the resources. -/
structure Refreshed (u : VersionUpdate) (old s : ModelState) : Prop where
  valid : s.Valid
  version : s.version = u.model.version
  resourceSets : s.resourceSets = (old.updateSets u.model).resourceSets
  intentChanged : ∀ r, u.Changes r → s.intent.get? r = u.model.resources.get? r
  intentOther : ∀ r, ¬ u.Changes r → s.intent.get? r = old.intent.get? r
  stateChanged : ∀ r, u.Changes r → s.resourceState.get? r = some (u.newState old r)
  stateOther : ∀ r, ¬ u.Changes r → s.resourceState.get? r = old.resourceState.get? r
  requiresOf : ∀ r d, d ∈ s.requiresOf r ↔
    d ∈ old.requiresOf r ∧ r ∉ u.forceNew old ∧ d ∉ u.forceNew old
  dirtyChanged : ∀ r, u.Changes r →
    (r ∈ s.dirty ↔ (u.newState old r).blocked = .notBlocked)
  dirtyOther : ∀ r, ¬ u.Changes r → (r ∈ s.dirty ↔ r ∈ old.dirty)

theorem updates_ok (hv : old.Valid) (hp : Prepared old u) :
    ∃ s, (u.new ∪ u.updated).foldlM (fun s r => do
        let call ← ModelState.changeOf u .empty r
        s.applyUpdate call) (old.updateSets u.model) = .ok s ∧ Refreshed u old s := by
  have hv₀ : (old.updateSets u.model).Valid :=
    ⟨hv.intent, hv.intentId, hv.requires, hv.agents, hv.closed⟩
  have hspec : ∀ r ∈ u.new ∪ u.updated, _ := fun r hr => callOf_spec hp (List.mem_union_iff.mp hr)
  have hnodup : ((u.new ∪ u.updated).map fun r => (u.callOf r).resource).Nodup := by
    have hkeys : (u.new ∪ u.updated).Nodup :=
      List.Nodup.union _ (u.changes.nodup.filter _)
    rwa [List.map_congr_left fun r hr => (hspec r hr).2.1, List.map_id']
  have hcalls : ∀ c ∈ (u.new ∪ u.updated).map u.callOf,
      ¬ (c.undefined = true ∧ c.knownCompliant = true) := by
    intro c hcm
    obtain ⟨r, -, rfl⟩ := List.mem_map.mp hcm
    simp [callOf]
  obtain ⟨s, hs, h⟩ := ModelState.applyUpdates_ok hv₀ (by rwa [List.map_map]) hcalls
  refine ⟨s, (foldlM_lookup (fun r hr => (hspec r hr).2.2.1) _).trans hs, ?_⟩
  have hmem : ∀ r, u.Changes r → u.callOf r ∈ (u.new ∪ u.updated).map u.callOf :=
    fun r hr => List.mem_map_of_mem (List.mem_union_iff.mpr hr)
  have hother : ∀ r, ¬ u.Changes r →
      ModelState.Untouched ((u.new ∪ u.updated).map u.callOf) r := by
    intro r hr c hcm
    obtain ⟨x, hx, rfl⟩ := List.mem_map.mp hcm
    rw [(hspec x hx).2.1]
    rintro rfl
    exact hr (List.mem_union_iff.mp hx)
  have hspec' : ∀ r, u.Changes r → _ := fun r hr => callOf_spec hp hr
  have hstate : ∀ r, (old.updateSets u.model).updatedState (u.callOf r)
      = old.updatedState (u.callOf r) := fun _ => rfl
  refine ⟨h.valid, h.version, h.resourceSets, fun r hr => ?_,
    fun r hr => h.intentOther r (hother r hr), fun r hr => ?_,
    fun r hr => h.stateOther r (hother r hr), fun r d => ?_, fun r hr => ?_,
    fun r hr => h.dirtyOther r (hother r hr)⟩
  · obtain ⟨hget, hres, -, -⟩ := hspec' r hr
    have := h.intent _ (hmem r hr)
    rwa [hres, ← hget] at this
  · obtain ⟨-, hres, -, hst⟩ := hspec' r hr
    have := h.state _ (hmem r hr)
    rwa [hres, hstate, hst] at this
  · rw [h.requiresOf]
    refine and_congr_right fun hd => ?_
    obtain ⟨hr₀, hd₀⟩ := hv.closed r d hd
    have hforce : ∀ x ∈ old.resourceState, x ∉ u.forceNew old ↔
        ∀ c ∈ (u.new ∪ u.updated).map u.callOf, (old.updateSets u.model).Recreates c →
          x ≠ c.resource := by
      intro x hx
      rw [mem_forceNew, hv.intent, and_iff_right hx]
      constructor
      · rintro hnew c hcm hrec rfl
        obtain ⟨y, hy, rfl⟩ := List.mem_map.mp hcm
        rw [(hspec y hy).2.1] at hnew
        exact hnew (mem_new.mpr (of_decide_eq_true hrec.1))
      · intro hall hnew
        have hc : u.Changes x := Or.inl hnew
        have hres := (hspec' x hc).2.1
        refine hall _ (hmem x hc) ⟨decide_eq_true (mem_new.mp hnew), ?_⟩ hres.symm
        rw [hres]
        exact hx
    rw [hforce r hr₀, hforce d hd₀]
    exact ⟨fun hall => ⟨fun c hc hrec => (hall c hc hrec).1, fun c hc hrec => (hall c hc hrec).2⟩,
      fun hall c hc hrec => ⟨hall.1 c hc hrec, hall.2 c hc hrec⟩⟩
  · obtain ⟨-, hres, -, hst⟩ := hspec' r hr
    have := h.dirty _ (hmem r hr)
    rw [hres, hstate, hst] at this
    exact this.trans (and_iff_right rfl)

theorem Refreshed.mem {s : ModelState} (h : Refreshed u old s) (r : ResourceIdStr) :
    r ∈ s.resourceState ↔ u.Changes r ∨ r ∈ old.resourceState := by
  by_cases hr : u.Changes r
  · exact iff_of_true (Dict.mem_of_get? (h.stateChanged r hr)) (Or.inl hr)
  · rw [Dict.mem_iff, Dict.mem_iff, h.stateOther r hr]
    exact (or_iff_right hr).symm

theorem Refreshed.knownBad {s : ModelState} (h : Refreshed u old s) (d : ResourceIdStr) :
    s.KnownBad d ↔ u.StaysBad old d := by
  by_cases hd : u.Changes d
  · rw [← newState_bad, ModelState.KnownBad, h.stateChanged d hd]
    simp
  · rw [ModelState.KnownBad, h.stateOther d hd]
    exact (and_iff_left fun hn => hd (Or.inl hn)).symm

theorem Refreshed.recovers {s : ModelState} (h : Refreshed u old s)
    {r : ResourceIdStr} (hr : r ∈ u.editedRequires) :
    s.Recovers r (u.requiresOf r) ↔ u.Recovers old r := by
  simp only [ModelState.Recovers, Recovers, hr, true_and, h.knownBad]
  by_cases hc : u.Changes r
  · have hb : s.blocked? r ≠ some .temporarilyBlocked := by
      rw [ModelState.blocked?_of_get? (h.stateChanged r hc)]
      exact fun he => newState_blocked r (Option.some.inj he)
    exact iff_of_false (fun hx => hb hx.1) fun hx => hx.2.1 hc
  · have hforce : r ∉ u.forceNew old := fun hx => hc (Or.inl (mem_forceNew.mp hx).2)
    have hb : s.blocked? r = old.blocked? r := by
      rw [ModelState.blocked?, h.stateOther r hc, ModelState.blocked?]
    simp only [hb, h.requiresOf, hc, hforce, not_false_eq_true, true_and, and_assoc]

/-- The calls of `updateResource` and `updateRequires` succeed. -/
theorem edits_ok (hv : old.Valid) (hp : Prepared old u) (hc : u.Closed old) :
    ∃ s, (old.updateSets u.model).updateIntent u [] .empty = .ok s ∧ u.Edited old s := by
  obtain ⟨s₁, hs₁, h₁⟩ := updates_ok hv hp
  have hmem : ∀ r ∈ u.editedRequires, r ∈ u.model.resources := fun r hr =>
    (hp.mem_editedRequires.mp hr).1
  have hmanaged : ∀ r, r ∈ u.model.resources ∨ r ∈ old.intent → r ∈ s₁.resourceState := by
    intro r hr
    rw [h₁.mem, ← hv.intent]
    exact hr.elim hp.changes_or_managed Or.inr
  have hdistinct : ((u.editedRequires.map fun r => (r, u.requiresOf r)).map Prod.fst).Nodup := by
    rw [List.map_map]
    show (u.editedRequires.map id).Nodup
    rw [List.map_id]
    exact List.Nodup.union _ u.droppedRequires.nodup
  have hknown : ∀ e ∈ u.editedRequires.map fun r => (r, u.requiresOf r),
      e.1 ∈ s₁.resourceState ∧ ∀ d ∈ e.2, d ∈ s₁.resourceState := by
    intro e he
    obtain ⟨r, hr, rfl⟩ := List.mem_map.mp he
    exact ⟨hmanaged r (Or.inl (hmem r hr)), fun d hd =>
      hmanaged d (hc.listed r (hmem r hr) d hd).1⟩
  obtain ⟨s, hs, h⟩ := ModelState.applyRequires_ok h₁.valid hdistinct hknown
  have hrec : ∀ r, s₁.RecoversIn (u.editedRequires.map fun r => (r, u.requiresOf r)) r ↔
      u.Recovers old r := by
    intro r
    constructor
    · rintro ⟨e, he, rfl, hx⟩
      obtain ⟨x, hx', rfl⟩ := List.mem_map.mp he
      exact (h₁.recovers hx').mp hx
    · exact fun hx => ⟨_, List.mem_map_of_mem hx.1, rfl, (h₁.recovers hx.1).mpr hx⟩
  have hedits : ∀ r, r ∉ u.editedRequires →
      ∀ e ∈ u.editedRequires.map fun r => (r, u.requiresOf r), e.1 ≠ r := by
    rintro r hr e he rfl
    obtain ⟨x, hx, rfl⟩ := List.mem_map.mp he
    exact hr hx
  have hnot : ∀ r, u.Changes r → ¬ u.Recovers old r := fun r hr hx => hx.2.2.1 hr
  refine ⟨s, ?_,
    { valid := h.valid
      version := h.version.trans h₁.version
      resourceSets := h.resourceSets.trans h₁.resourceSets
      mem := fun r => h.mem_resourceState.trans (h₁.mem r)
      intentChanged := fun r hr => by rw [h.intent, h₁.intentChanged r hr]
      intentOther := fun r hr => by rw [h.intent, h₁.intentOther r hr]
      stateChanged := fun r hr => by
        rw [h.state, if_neg (mt (hrec r).mp (hnot r hr)), h₁.stateChanged r hr]
      stateOther := fun r hr => by
        simp only [h.state, hrec, h₁.stateOther r hr]
      requiresEdited := fun r hr => h.requiresOf _ (List.mem_map_of_mem hr)
      requiresOther := fun r hr d => by rw [h.requiresOther r (hedits r hr), h₁.requiresOf]
      dirtyChanged := fun r hr => by
        rw [h.dirty, h₁.dirtyChanged r hr]
        exact or_iff_left (mt (hrec r).mp (hnot r hr))
      dirtyOther := fun r hr => by rw [h.dirty, h₁.dirtyOther r hr, hrec] }⟩
  have hlook : ∀ r ∈ u.editedRequires, u.model.requires.item r = .ok (u.requiresOf r) := by
    intro r hr
    obtain ⟨l, hl⟩ := Dict.mem_iff.mp ((hp.changed.requires r).mpr (hmem r hr))
    rw [Dict.item_of_get? hl, requiresOf, Dict.getD_of_get? hl]
  rw [ModelState.updateIntent, List.foldlM_nil, pure_eq_ok, ok_bind, hs₁, ok_bind]
  have hfound : ∀ r ∈ u.editedRequires, (do
      let requires ← u.model.requires.item r
      return (r, requires) : Except PyError (ResourceIdStr × List ResourceIdStr))
        = .ok (r, u.requiresOf r) := fun r hr => by rw [hlook r hr]; rfl
  have hloop := foldlM_lookup
    (f := fun (s : ModelState) (e : ResourceIdStr × List ResourceIdStr) => s.updateRequires e.1 e.2)
    hfound s₁
  refine Eq.trans ?_ (hloop.trans hs)
  simp only [bind_assoc, pure_bind]

end VersionUpdate

end Inmanta
