import Inmanta.Deploy.SystemSteps
import Mathlib.Data.List.Induction
import Mathlib.Data.Set.Basic

/-!
# Consolidated changes describe the sequence

`IntentModel` is a whole model, whatever it is read from: what is specified of
each resource, and the resource sets. `IntentModel.apply` is what a version
does to it. `modelAfter` is the model after some versions, so that the
sequence of models `M0 … Mn` is `modelAfter s` over the prefixes of the
versions.

`Consolidates` says what `getIntentChanges` owes its caller in these terms.
Its loop invariant is `IntentOverlay.Consolidated`, and
`IntentOverlay.Processed` is what one version does to the overlay.
-/

namespace Inmanta

/-! ## Whole models -/

/-- What a model specifies of one of its resources. -/
structure Specified where
  intent : ResourceIntent
  requires : List ResourceIdStr
  isUndefined : Bool

/-- A whole model. A set that is not there has no resources. -/
@[ext] structure IntentModel where
  version : ℕ
  resources : ResourceIdStr → Option Specified
  sets : Option String → Set ResourceIdStr

instance : Membership ResourceIdStr IntentModel := ⟨fun M r => (M.resources r).isSome⟩

/-- What a version specifies of a resource. -/
def ModelVersion.specified (v : ModelVersion) (r : ResourceIdStr) : Option Specified :=
  (v.resources.get? r).map fun i => ⟨i, v.requires.getD r [], r ∈ v.undefined⟩

/-- The resources a version has in a set. -/
def ModelVersion.setOf (v : ModelVersion) (name : Option String) : Set ResourceIdStr :=
  {r | r ∈ v.resourceSets.getD name []}

namespace IntentModel

variable {M : IntentModel} {r x : ResourceIdStr}

theorem mem_iff : r ∈ M ↔ ∃ spec, M.resources r = some spec := Option.isSome_iff_exists

theorem not_mem_iff : r ∉ M ↔ M.resources r = none := by
  rw [mem_iff, Option.eq_none_iff_forall_ne_some]
  simp

/-- A partial version leaves a resource that is not in its sets alone. -/
def Keeps (M : IntentModel) (v : ModelVersion) (r : ResourceIdStr) : Prop :=
  v.isPartial = true ∧ ∀ name ∈ v.resourceSets, r ∉ M.sets name

open Classical in
/-- A full version replaces the model. A partial one replaces the sets it
contains: their resources are gone, unless the version has them. -/
noncomputable def apply (M : IntentModel) (v : ModelVersion) : IntentModel where
  version := v.version
  resources r := (v.specified r).or (if M.Keeps v r then M.resources r else none)
  sets name := if v.isPartial = true ∧ name ∉ v.resourceSets then M.sets name else v.setOf name

/-- The resources are those of the sets, and each is in one of them. -/
structure Partitioned (M : IntentModel) : Prop where
  resources : ∀ r, r ∈ M ↔ ∃ name, r ∈ M.sets name
  disjoint : ∀ r name name', r ∈ M.sets name → r ∈ M.sets name' → name = name'

section Apply

variable {v : ModelVersion}

theorem apply_of_mem {i : ResourceIntent} (h : v.resources.get? x = some i) :
    (M.apply v).resources x = some ⟨i, v.requires.getD x [], x ∈ v.undefined⟩ := by
  simp only [apply, ModelVersion.specified, h, Option.map_some, Option.some_or]

theorem apply_of_keeps (h : x ∉ v.resources) (hk : M.Keeps v x) :
    (M.apply v).resources x = M.resources x := by
  simp only [apply, ModelVersion.specified, Dict.not_mem_iff.mp h, Option.map_none,
    Option.none_or, if_pos hk]

theorem apply_of_not_keeps (h : x ∉ v.resources) (hk : ¬ M.Keeps v x) :
    (M.apply v).resources x = none := by
  simp only [apply, ModelVersion.specified, Dict.not_mem_iff.mp h, Option.map_none,
    Option.none_or, if_neg hk]

theorem sets_apply_of_not_mem {name : Option String} (hp : v.isPartial = true)
    (h : name ∉ v.resourceSets) : (M.apply v).sets name = M.sets name :=
  if_pos ⟨hp, h⟩

theorem sets_apply {name : Option String} (h : v.isPartial = true → name ∈ v.resourceSets) :
    (M.apply v).sets name = v.setOf name :=
  if_neg fun hn => hn.2 (h hn.1)

end Apply

end IntentModel

/-- The managed model. -/
def ModelState.intentModel (s : ModelState) : IntentModel where
  version := s.version
  resources r := (s.intent.get? r).map fun i => ⟨i, s.requiresOf r, s.IsUndefined r⟩
  sets name := {r | r ∈ s.resourceSets.getD name []}

/-- The model after some versions. -/
noncomputable def modelAfter (s : ModelState) (versions : List ModelVersion) : IntentModel :=
  versions.foldl IntentModel.apply s.intentModel

/-- The specification of a resource differs from the managed one in its
attribute hash or in being undefined. -/
def ModelState.Differs (s : ModelState) (M : IntentModel) (r : ResourceIdStr) : Prop :=
  ∃ spec managed, M.resources r = some spec ∧ s.intent.get? r = some managed
    ∧ (spec.intent.attributeHash ≠ managed.attributeHash
      ∨ ¬ (spec.isUndefined = true ↔ s.IsUndefined r))

/-- A version has the resources of its sets, and no others. -/
def ModelVersion.ListsItsSets (v : ModelVersion) : Prop :=
  ∀ r, r ∈ v.resources ↔ ∃ name ∈ v.resourceSets, r ∈ v.resourceSets.getD name []

instance (v : ModelVersion) : Decidable v.ListsItsSets :=
  decidable_of_iff ((∀ r ∈ v.resources.keys, ∃ name ∈ v.resourceSets.keys,
        r ∈ v.resourceSets.getD name [])
      ∧ ∀ name ∈ v.resourceSets.keys, ∀ r ∈ v.resourceSets.getD name [], r ∈ v.resources) <| by
    simp only [Dict.mem_keys, ModelVersion.ListsItsSets]
    exact ⟨fun h r => ⟨h.1 r, fun ⟨name, hn, hr⟩ => h.2 name hn r hr⟩,
      fun h => ⟨fun r => (h r).mp, fun name hn r hr => (h r).mpr ⟨name, hn, hr⟩⟩⟩

/-- The change of a resource, by what the sequence of models says of it. -/
structure ClassifiedAt (s : ModelState) (versions : List ModelVersion) (r : ResourceIdStr)
    (change : Option ResourceIntentChange) : Prop where
  deleted : (∃ last, change = some (.deleted last)) ↔
    r ∉ modelAfter s versions ∧ ∃ p, p <+: versions ∧ r ∈ modelAfter s p
  lastSeen : ∀ last, change = some (.deleted last) →
    ∃ p, p <+: versions ∧ r ∈ modelAfter s p ∧ (modelAfter s p).version = last
      ∧ ∀ q, q <+: versions → r ∈ modelAfter s q → q.length ≤ p.length
  new : change = some .new ↔
    r ∈ modelAfter s versions ∧ ∃ p, p <+: versions ∧ r ∉ modelAfter s p
  updated : change = some .updated ↔
    (∀ p, p <+: versions → r ∈ modelAfter s p)
      ∧ ∃ p, p <+: versions ∧ s.Differs (modelAfter s p) r

/-- What the consolidated model and changes say about the sequence of models. -/
structure Consolidates (s : ModelState) (versions : List ModelVersion) (model : ModelVersion)
    (changes : Dict ResourceIdStr ResourceIntentChange) : Prop where
  overlay : s.intentModel.apply model = modelAfter s versions
  classified : ∀ r, ClassifiedAt s versions r (changes.get? r)

section ModelAfter

variable {s : ModelState} {pre versions : List ModelVersion} {v : ModelVersion}
  {r x : ResourceIdStr}

theorem modelAfter_concat (s : ModelState) (pre : List ModelVersion) (v : ModelVersion) :
    modelAfter s (pre ++ [v]) = (modelAfter s pre).apply v := by
  rw [modelAfter, modelAfter, List.foldl_concat]

theorem mem_intentModel : r ∈ s.intentModel ↔ r ∈ s.intent := by
  rw [IntentModel.mem_iff, Dict.mem_iff]
  constructor
  · rintro ⟨spec, h⟩
    obtain ⟨i, hi, -⟩ := Option.map_eq_some_iff.mp h
    exact ⟨i, hi⟩
  · rintro ⟨i, hi⟩
    exact ⟨_, Option.map_eq_some_iff.mpr ⟨i, hi, rfl⟩⟩

/-- Partial or full, a version that lists its sets keeps resources and sets
together. -/
theorem IntentModel.Partitioned.apply {M : IntentModel} (h : M.Partitioned)
    (hv : v.ListsItsSets)
    (hdisj : ∀ r name name', r ∈ (M.apply v).sets name → r ∈ (M.apply v).sets name' →
      name = name') : (M.apply v).Partitioned := by
  refine ⟨fun r => ?_, hdisj⟩
  by_cases hr : r ∈ v.resources
  · obtain ⟨name, hn, hrn⟩ := (hv r).mp hr
    obtain ⟨i, hi⟩ := Dict.mem_iff.mp hr
    exact iff_of_true (mem_iff.mpr ⟨_, apply_of_mem hi⟩)
      ⟨name, (sets_apply fun _ => hn).symm ▸ hrn⟩
  have hout : ∀ name, r ∉ v.setOf name := by
    intro name hrn
    by_cases hn : name ∈ v.resourceSets
    · exact hr ((hv r).mpr ⟨name, hn, hrn⟩)
    · rw [ModelVersion.setOf, Dict.getD_of_not_mem hn] at hrn
      exact List.not_mem_nil hrn
  by_cases hk : M.Keeps v r
  · rw [mem_iff, apply_of_keeps hr hk, ← mem_iff, h.resources]
    constructor
    · rintro ⟨name, hn⟩
      exact ⟨name, (sets_apply_of_not_mem hk.1 fun hl => hk.2 name hl hn).symm ▸ hn⟩
    · rintro ⟨name, hn⟩
      by_cases hl : name ∈ v.resourceSets
      · exact absurd ((sets_apply fun _ => hl) ▸ hn) (hout name)
      · exact ⟨name, (sets_apply_of_not_mem hk.1 hl) ▸ hn⟩
  · refine iff_of_false (not_mem_iff.mpr (apply_of_not_keeps hr hk)) ?_
    rintro ⟨name, hn⟩
    by_cases hl : v.isPartial = true ∧ name ∉ v.resourceSets
    · rw [sets_apply_of_not_mem hl.1 hl.2] at hn
      exact hk ⟨hl.1, fun name' hl' hn' => hl.2 (h.disjoint r _ _ hn' hn ▸ hl')⟩
    · rw [sets_apply fun hp => by_contra fun hno => hl ⟨hp, hno⟩] at hn
      exact hout name hn

end ModelAfter

/-! ## What one version does to the overlay -/

namespace IntentOverlay

variable {s : ModelState} {c c' : IntentOverlay} {v : ModelVersion} {r x : ResourceIdStr}
  {i : ResourceIntent}

/-- The overlays say the same of a resource. -/
structure SameAt (c c' : IntentOverlay) (x : ResourceIdStr) : Prop where
  intent : c'.intent.get? x = c.intent.get? x
  requires : c'.resourceRequires.getD x [] = c.resourceRequires.getD x []
  undefined : x ∈ c'.undefined ↔ x ∈ c.undefined
  changes : c'.intentChanges.get? x = c.intentChanges.get? x

theorem SameAt.refl (c : IntentOverlay) (x : ResourceIdStr) : SameAt c c x := ⟨rfl, rfl, .rfl, rfl⟩

theorem SameAt.trans {c'' : IntentOverlay} (h : SameAt c c' x) (h' : SameAt c' c'' x) :
    SameAt c c'' x :=
  ⟨h'.intent.trans h.intent, h'.requires.trans h.requires, h'.undefined.trans h.undefined,
    h'.changes.trans h.changes⟩

/-- The overlay says of a resource what the version does. -/
structure RegisteredAt (s : ModelState) (c : IntentOverlay) (v : ModelVersion)
    (x : ResourceIdStr) (i : ResourceIntent) (c' : IntentOverlay) : Prop where
  intent : c'.intent.get? x = some i
  requires : c'.resourceRequires.getD x [] = v.requires.getD x []
  undefined : x ∈ c'.undefined ↔ x ∈ v.undefined
  changes : c'.intentChanges.get? x = registeredChange s c v x i

theorem RegisteredAt.trans {c'' : IntentOverlay} (h : RegisteredAt s c v x i c')
    (h' : SameAt c' c'' x) : RegisteredAt s c v x i c'' :=
  ⟨h'.intent.trans h.intent, h'.requires.trans h.requires, h'.undefined.trans h.undefined,
    h'.changes.trans h.changes⟩

/-- What is gone keeps the version it was last seen in. -/
def goneChange (c : IntentOverlay) (x : ResourceIdStr) : Option ResourceIntentChange :=
  if (c.intentChanges.get? x).any (·.isDeleted) then c.intentChanges.get? x
  else some (.deleted c.previousVersion)

/-- What one version does to the overlay. -/
structure Processed (s : ModelState) (c : IntentOverlay) (v : ModelVersion) (c' : IntentOverlay) :
    Prop where
  isPartial : c'.isPartial = (c.trackSets v).isPartial
  resourceSets : c'.resourceSets = (c.trackSets v).resourceSets
  previousVersion : c'.previousVersion = v.version
  registered : ∀ x i, v.resources.get? x = some i → RegisteredAt s c v x i c'
  gone : ∀ x, x ∉ v.resources → x ∈ c.knownResources s v →
    c'.intent.get? x = none ∧ c'.intentChanges.get? x = c.goneChange x
  kept : ∀ x, x ∉ v.resources → x ∉ c.knownResources s v → SameAt c c' x

theorem delete_sameAt (h : x ≠ r) : SameAt c (c.delete r) x where
  intent := by
    show (c.intent.del r).get? x = _
    rw [Dict.get?_del, if_neg h]
  requires := by
    show (if r ∈ c.intent then c.resourceRequires.del r else c.resourceRequires).getD x [] = _
    split
    · rw [Dict.getD_del, if_neg h]
    · rfl
  undefined := by
    show x ∈ discard c.undefined r ↔ _
    simp [h]
  changes := by
    rcases get?_delete_intentChanges c r x with ⟨rfl, -⟩ | ⟨-, he⟩
    · exact absurd rfl h
    · exact he

theorem delete_self (c : IntentOverlay) (r : ResourceIdStr) :
    (c.delete r).intent.get? r = none ∧ (c.delete r).intentChanges.get? r = c.goneChange r := by
  constructor
  · show (c.intent.del r).get? r = _
    rw [Dict.get?_del, if_pos rfl]
  · show (if (c.intentChanges.get? r).any (·.isDeleted) then c.intentChanges
      else c.intentChanges.set r (.deleted c.previousVersion)).get? r = _
    unfold goneChange
    split
    · rfl
    · rw [Dict.get?_set, if_pos rfl]

theorem goneChange_isDeleted (c : IntentOverlay) (x : ResourceIdStr) :
    (c.goneChange x).any (·.isDeleted) = true := by
  unfold goneChange
  split
  · assumption
  · rfl

/-- The loop over the resources that are gone. -/
theorem foldl_delete (c : IntentOverlay) (l : List ResourceIdStr) :
    (l.foldl delete c).isPartial = c.isPartial ∧ (l.foldl delete c).resourceSets = c.resourceSets
      ∧ (l.foldl delete c).previousVersion = c.previousVersion
      ∧ ∀ x, (x ∈ l → (l.foldl delete c).intent.get? x = none
          ∧ (l.foldl delete c).intentChanges.get? x = c.goneChange x)
        ∧ (x ∉ l → SameAt c (l.foldl delete c) x) := by
  refine foldl_induct (f := delete) (I := fun pre c' => c'.isPartial = c.isPartial
    ∧ c'.resourceSets = c.resourceSets ∧ c'.previousVersion = c.previousVersion
    ∧ ∀ x, (x ∈ pre → c'.intent.get? x = none ∧ c'.intentChanges.get? x = c.goneChange x)
      ∧ (x ∉ pre → SameAt c c' x)) (fun pre a post c' hl hI => ?_)
    ⟨rfl, rfl, rfl, fun x => ⟨fun h => absurd h List.not_mem_nil, fun _ => .refl c x⟩⟩
  obtain ⟨hp, hs, hv, hI⟩ := hI
  refine ⟨hp, hs, hv, fun x => ⟨fun hx => ?_, fun hx => ?_⟩⟩
  · by_cases hxa : x = a
    · subst hxa
      refine ⟨(delete_self c' x).1, (delete_self c' x).2.trans ?_⟩
      by_cases hpre : x ∈ pre
      · have he := ((hI x).1 hpre).2
        rw [goneChange, if_pos (he ▸ goneChange_isDeleted c x), he]
      · rw [goneChange, goneChange, ((hI x).2 hpre).changes, hv]
    · have hpre : x ∈ pre := (List.mem_append.mp hx).resolve_right (by simpa using hxa)
      have hsame : SameAt c' (c'.delete a) x := delete_sameAt hxa
      exact ⟨hsame.intent.trans ((hI x).1 hpre).1, hsame.changes.trans ((hI x).1 hpre).2⟩
  · obtain ⟨hpre, hxa⟩ := not_or.mp (mt List.mem_append.mpr hx)
    exact ((hI x).2 hpre).trans (delete_sameAt (by simpa using hxa))

theorem registeredChange_congr (h : c'.intentChanges.get? r = c.intentChanges.get? r) :
    registeredChange s c' v r i = registeredChange s c v r i := by
  have hmem : r ∈ c'.intentChanges ↔ r ∈ c.intentChanges := by
    rw [Dict.mem_iff, Dict.mem_iff, h]
  simp only [registeredChange, h, hmem]

theorem Registered.sameAt (h : Registered s v c r i c') (hx : x ≠ r) : SameAt c c' x where
  intent := by rw [h.intent, Dict.get?_set, if_neg hx]
  requires := by rw [h.resourceRequires, Dict.getD_set, if_neg hx]
  undefined := by rw [h.undefined, if_neg hx]
  changes := by rw [h.intentChanges, if_neg hx]

theorem Registered.registeredAt (h : Registered s v c r i c') : RegisteredAt s c v r i c' where
  intent := by rw [h.intent, Dict.get?_set, if_pos rfl]
  requires := by rw [h.resourceRequires, Dict.getD_set, if_pos rfl]
  undefined := by rw [h.undefined, if_pos rfl]
  changes := by rw [h.intentChanges, if_pos rfl]

/-- The loop over the resources of the version. -/
theorem foldlM_register (hv : s.Valid) (v : ModelVersion) (c : IntentOverlay) :
    ∃ c', v.resources.items.foldlM (register s [] v) c = .ok c'
      ∧ c'.isPartial = c.isPartial ∧ c'.resourceSets = c.resourceSets
      ∧ c'.previousVersion = c.previousVersion
      ∧ (∀ x i, v.resources.get? x = some i → RegisteredAt s c v x i c')
      ∧ ∀ x, x ∉ v.resources → SameAt c c' x := by
  obtain ⟨c', hok, hp, hs, hver, hin, hout⟩ := foldlM_ok (ε := PyError)
    (f := register s [] v) (l := v.resources.items)
    (I := fun pre c' => c'.isPartial = c.isPartial ∧ c'.resourceSets = c.resourceSets
      ∧ c'.previousVersion = c.previousVersion
      ∧ (∀ x i, (x, i) ∈ pre → RegisteredAt s c v x i c')
      ∧ ∀ x, x ∉ pre.map Prod.fst → SameAt c c' x)
    (fun pre e post c' hl hI => by
      obtain ⟨hp, hs, hver, hin, hout⟩ := hI
      obtain ⟨r, i⟩ := e
      obtain ⟨c'', hok, hreg⟩ := register_ok hv v c' r i
      -- the key has not been processed before
      have hnew : r ∉ pre.map Prod.fst := by
        have hnd := v.resources.nodup
        rw [hl, List.map_append, List.map_cons] at hnd
        exact fun hr => (List.nodup_append.mp hnd).2.2 r hr r (List.mem_cons_self ..) rfl
      refine ⟨c'', hok, hreg.isPartial.trans hp, hreg.resourceSets.trans hs,
        hreg.previousVersion.trans hver, fun x j hx => ?_, fun x hx => ?_⟩
      · rcases List.mem_append.mp hx with hx | hx
        · exact (hin x j hx).trans (hreg.sameAt fun he => hnew (he ▸ List.mem_map_of_mem hx))
        · obtain ⟨rfl, rfl⟩ := Prod.mk.inj (List.mem_singleton.mp hx)
          have h := hreg.registeredAt
          exact ⟨h.intent, h.requires, h.undefined,
            h.changes.trans (registeredChange_congr (hout x hnew).changes)⟩
      · rw [List.map_append, List.mem_append, not_or] at hx
        exact (hout x hx.1).trans (hreg.sameAt (by simpa using hx.2)))
    (s := c) ⟨rfl, rfl, rfl, fun _ _ h => absurd h List.not_mem_nil, fun x _ => .refl c x⟩
  exact ⟨c', hok, hp, hs, hver, fun x i hx => hin x i (Dict.get?_eq_some_iff.mp hx),
    fun x hx => hout x fun hm => hx (Dict.mem_keys.mp hm)⟩

theorem trackSets_sameAt (c : IntentOverlay) (v : ModelVersion) (x : ResourceIdStr) :
    SameAt c (c.trackSets v) x := by
  unfold trackSets
  split <;> exact ⟨rfl, rfl, .rfl, rfl⟩

theorem process_ok (hv : s.Valid) (v : ModelVersion) (c : IntentOverlay) :
    ∃ c', process s [] c v = .ok c' ∧ Processed s c v c' := by
  obtain ⟨hp, hs, hver, hgone⟩ := foldl_delete (c.trackSets v)
    ((c.knownResources s v).removeAll v.resources.keys)
  obtain ⟨c', hok, hp', hs', -, hin, hout⟩ := foldlM_register hv v
    (((c.knownResources s v).removeAll v.resources.keys).foldl delete (c.trackSets v))
  have hmem : ∀ x, x ∈ (c.knownResources s v).removeAll v.resources.keys ↔
      x ∈ c.knownResources s v ∧ x ∉ v.resources := fun x => by
    rw [mem_removeAll, Dict.mem_keys]
  have hprev : (c.trackSets v).previousVersion = c.previousVersion := by
    unfold trackSets
    split <;> rfl
  refine ⟨{ c' with previousVersion := v.version }, bind_eq_ok.mpr ⟨c', hok, rfl⟩,
    hp'.trans hp, hs'.trans hs, rfl, fun x i hx => ?_, fun x hx hk => ?_, fun x hx hk => ?_⟩
  · have hreg := hin x i hx
    have hsame := (trackSets_sameAt c v x).trans
      ((hgone x).2 fun hm => ((hmem x).mp hm).2 (Dict.mem_of_get? hx))
    exact ⟨hreg.intent, hreg.requires, hreg.undefined,
      hreg.changes.trans (registeredChange_congr hsame.changes)⟩
  · have hsame := hout x hx
    obtain ⟨hi, hc⟩ := (hgone x).1 ((hmem x).mpr ⟨hk, hx⟩)
    refine ⟨hsame.intent.trans hi, (hsame.changes.trans hc).trans ?_⟩
    rw [goneChange, goneChange, (trackSets_sameAt c v x).changes, hprev]
  · have h := ((trackSets_sameAt c v x).trans
      ((hgone x).2 fun hm => hk ((hmem x).mp hm).1)).trans (hout x hx)
    exact ⟨h.intent, h.requires, h.undefined, h.changes⟩

end IntentOverlay

/-! ## The change of a resource, version by version -/

section Classified

open IntentOverlay

variable {s : ModelState} {c : IntentOverlay} {pre : List ModelVersion} {v : ModelVersion}
  {r : ResourceIdStr} {i : ResourceIntent} {change : Option ResourceIntentChange}

theorem ClassifiedAt.nil (s : ModelState) (r : ResourceIdStr) : ClassifiedAt s [] r none where
  deleted := by simp
  lastSeen := by simp
  new := by
    simp only [reduceCtorEq, List.prefix_nil, exists_eq_left, false_iff, not_and, not_not, imp_self]
  updated := by
    simp only [reduceCtorEq, List.prefix_nil, forall_eq, exists_eq_left, false_iff, not_and]
    rintro - ⟨spec, managed, hspec, hm, hd⟩
    have hmap : (s.intentModel).resources r = some ⟨managed, s.requiresOf r, s.IsUndefined r⟩ :=
      congrArg (Option.map _) hm
    obtain rfl := Option.some.inj (hspec.symm.trans hmap)
    simp at hd

theorem differs_congr {M M' : IntentModel} (h : M'.resources r = M.resources r) :
    s.Differs M' r ↔ s.Differs M r := by
  simp only [ModelState.Differs, h]

/-- A version that leaves the resource alone. -/
theorem ClassifiedAt.kept (h : ClassifiedAt s pre r change)
    (he : (modelAfter s (pre ++ [v])).resources r = (modelAfter s pre).resources r) :
    ClassifiedAt s (pre ++ [v]) r change := by
  have hm : r ∈ modelAfter s (pre ++ [v]) ↔ r ∈ modelAfter s pre := by
    rw [IntentModel.mem_iff, IntentModel.mem_iff, he]
  -- the new model is as good as the one before
  have hex : ∀ P : IntentModel → Prop, (P (modelAfter s (pre ++ [v])) → P (modelAfter s pre)) →
      ((∃ p, p <+: pre ++ [v] ∧ P (modelAfter s p)) ↔ ∃ p, p <+: pre ∧ P (modelAfter s p)) := by
    intro P hP
    constructor
    · rintro ⟨p, hp, h⟩
      rcases List.prefix_concat_iff.mp hp with rfl | hp
      · exact ⟨pre, List.prefix_rfl, hP h⟩
      · exact ⟨p, hp, h⟩
    · rintro ⟨p, hp, h⟩
      exact ⟨p, hp.trans (List.prefix_append pre [v]), h⟩
  refine ⟨?_, fun last hl => ?_, ?_, ?_⟩
  · rw [h.deleted, hm, hex (r ∈ ·) hm.mp]
  · obtain ⟨p, hp, hr, hver, hmax⟩ := h.lastSeen last hl
    refine ⟨p, hp.trans (List.prefix_append pre [v]), hr, hver, fun q hq hrq => ?_⟩
    rcases List.prefix_concat_iff.mp hq with rfl | hq
    · exact absurd (hm.mp hrq) (h.deleted.mp ⟨last, hl⟩).1
    · exact hmax q hq hrq
  · rw [h.new, hm, hex (r ∉ ·) (mt hm.mpr)]
  · rw [h.updated, hex (s.Differs · r) (differs_congr he).mp]
    refine and_congr_left fun _ => ⟨fun hall p hp => ?_, fun hall p hp =>
      hall p (hp.trans (List.prefix_append pre [v]))⟩
    rcases List.prefix_concat_iff.mp hp with rfl | hp
    · exact hm.mpr (hall pre List.prefix_rfl)
    · exact hall p hp

/-- A version that the resource is gone from. -/
theorem ClassifiedAt.gone (h : ClassifiedAt s pre r (c.intentChanges.get? r))
    (hversion : c.previousVersion = (modelAfter s pre).version)
    (hnot : r ∉ modelAfter s (pre ++ [v]))
    (hseen : ¬ (∃ last, c.intentChanges.get? r = some (.deleted last)) → r ∈ modelAfter s pre) :
    ClassifiedAt s (pre ++ [v]) r (c.goneChange r) := by
  obtain ⟨last, hgone, p, hp, hr, hver, hmax⟩ : ∃ last, c.goneChange r = some (.deleted last)
      ∧ ∃ p, p <+: pre ∧ r ∈ modelAfter s p ∧ (modelAfter s p).version = last
        ∧ ∀ q, q <+: pre → r ∈ modelAfter s q → q.length ≤ p.length := by
    unfold goneChange
    by_cases hd : ∃ last, c.intentChanges.get? r = some (.deleted last)
    · obtain ⟨last, hl⟩ := hd
      rw [hl, if_pos (show (some (ResourceIntentChange.deleted last)).any (·.isDeleted) = true
        from rfl)]
      exact ⟨last, rfl, h.lastSeen last hl⟩
    · rw [if_neg]
      · exact ⟨_, rfl, pre, List.prefix_rfl, hseen hd, hversion.symm, fun q hq _ => hq.length_le⟩
      · intro hany
        obtain ⟨change, hc, hdel⟩ := (Option.any_eq_true _ _).mp hany
        cases change with
        | deleted last => exact hd ⟨last, hc⟩
        | new => cases hdel
        | updated => cases hdel
  rw [hgone]
  refine ⟨iff_of_true ⟨last, rfl⟩ ⟨hnot, p, hp.trans (List.prefix_append pre [v]), hr⟩,
    fun last' hl => ?_, iff_of_false (by simp) fun hn => hnot hn.1,
    iff_of_false (by simp) fun hu => hnot (hu.1 _ List.prefix_rfl)⟩
  obtain rfl : last = last' := by simpa using hl
  refine ⟨p, hp.trans (List.prefix_append pre [v]), hr, hver, fun q hq hrq => ?_⟩
  rcases List.prefix_concat_iff.mp hq with rfl | hq
  · exact absurd hrq hnot
  · exact hmax q hq hrq

/-- The test for a new resource looks for a model without it. -/
theorem ClassifiedAt.missed_iff (h : ClassifiedAt s pre r (c.intentChanges.get? r)) :
    (r ∉ s.intent
        ∨ (c.intentChanges.get? r).any (fun change => change.isDeleted || change = .new) = true) ↔
      ∃ p, p <+: pre ∧ r ∉ modelAfter s p := by
  constructor
  · rintro (hs | hany)
    · exact ⟨[], List.nil_prefix, mt mem_intentModel.mp hs⟩
    · obtain ⟨change, hc, hkind⟩ := (Option.any_eq_true _ _).mp hany
      cases change with
      | deleted last => exact ⟨pre, List.prefix_rfl, (h.deleted.mp ⟨last, hc⟩).1⟩
      | new => exact (h.new.mp hc).2
      | updated => cases hkind
  · rintro ⟨p, hp, hr⟩
    by_cases hs : r ∈ s.intent
    · right
      by_cases hpre : r ∈ modelAfter s pre
      · rw [h.new.mpr ⟨hpre, p, hp, hr⟩]
        rfl
      · obtain ⟨last, hl⟩ := h.deleted.mpr ⟨hpre, [], List.nil_prefix, mem_intentModel.mpr hs⟩
        rw [hl]
        rfl
    · exact .inl hs

/-- A version with the resource. -/
theorem ClassifiedAt.registered (h : ClassifiedAt s pre r (c.intentChanges.get? r))
    {requires : List ResourceIdStr}
    (hspec : (modelAfter s (pre ++ [v])).resources r = some ⟨i, requires, r ∈ v.undefined⟩) :
    ClassifiedAt s (pre ++ [v]) r (registeredChange s c v r i) := by
  have hr : r ∈ modelAfter s (pre ++ [v]) := IntentModel.mem_iff.mpr ⟨_, hspec⟩
  by_cases hmissed : r ∉ s.intent
      ∨ (c.intentChanges.get? r).any (fun change => change.isDeleted || change = .new) = true
  · obtain ⟨p, hp, hrp⟩ := h.missed_iff.mp hmissed
    have hp := hp.trans (List.prefix_append pre [v])
    rw [registeredChange, if_pos hmissed]
    exact ⟨iff_of_false (by simp) fun hd => hd.1 hr, by simp, iff_of_true rfl ⟨hr, p, hp, hrp⟩,
      iff_of_false (by simp) fun hu => hrp (hu.1 p hp)⟩
  have hall : ∀ p, p <+: pre → r ∈ modelAfter s p := fun p hp =>
    by_contra fun hn => hmissed (h.missed_iff.mpr ⟨p, hp, hn⟩)
  have hall' : ∀ p, p <+: pre ++ [v] → r ∈ modelAfter s p := by
    intro p hp
    rcases List.prefix_concat_iff.mp hp with rfl | hp
    · exact hr
    · exact hall p hp
  obtain ⟨managed, hm⟩ := Dict.mem_iff.mp (not_not.mp fun hs => hmissed (.inl hs))
  have hdiffers : s.Differs (modelAfter s (pre ++ [v])) r ↔
      i.attributeHash ≠ managed.attributeHash ∨ ¬ (r ∈ v.undefined ↔ s.IsUndefined r) := by
    simp [ModelState.Differs, hspec, hm]
  -- the change is that of before, or of this version
  have hupdated : registeredChange s c v r i = some .updated ↔
      s.Differs (modelAfter s (pre ++ [v])) r ∨ c.intentChanges.get? r = some .updated := by
    have hchange : c.intentChanges.get? r = none ∨ c.intentChanges.get? r = some .updated := by
      cases hc : c.intentChanges.get? r with
      | none => exact .inl rfl
      | some change =>
          cases change with
          | updated => exact .inr rfl
          | new => exact absurd (.inr (by rw [hc]; rfl)) hmissed
          | deleted last => exact absurd (.inr (by rw [hc]; rfl)) hmissed
    rw [hdiffers, registeredChange, if_neg hmissed, hm]
    rcases hchange with hc | hc <;> by_cases hh : i.attributeHash = managed.attributeHash <;>
      by_cases hu : r ∈ v.undefined ↔ s.IsUndefined r <;> simp [Dict.mem_iff, hc, hh, hu]
  refine ⟨iff_of_false ?_ fun hd => hd.1 hr, ?_, iff_of_false ?_ ?_, ?_⟩
  · rintro ⟨last, hl⟩
    rcases registeredChange_spec hl with he | ⟨he, -⟩ <;> cases he
  · intro last hl
    rcases registeredChange_spec hl with he | ⟨he, -⟩ <;> cases he
  · intro hn
    rw [registeredChange, if_neg hmissed] at hn
    split at hn
    · cases hn
    split at hn
    · exact hmissed (.inr (by rw [hn]; rfl))
    split at hn <;> cases hn
  · rintro ⟨-, p, hp, hrp⟩
    exact hrp (hall' p hp)
  · rw [hupdated, and_iff_right hall', h.updated, and_iff_right hall]
    constructor
    · rintro (hd | ⟨p, hp, hd⟩)
      · exact ⟨_, List.prefix_rfl, hd⟩
      · exact ⟨p, hp.trans (List.prefix_append pre [v]), hd⟩
    · rintro ⟨p, hp, hd⟩
      rcases List.prefix_concat_iff.mp hp with rfl | hp
      · exact .inl hd
      · exact .inr ⟨p, hp, hd⟩

end Classified

/-! ## The loop -/

namespace IntentOverlay

variable {s : ModelState} {c c' : IntentOverlay} {pre : List ModelVersion} {v : ModelVersion}
  {r : ResourceIdStr}

/-- The overlay over the managed model is the model after the versions so far.
As long as it is partial, it has touched the resources of the sets it tracks,
and no other managed ones. -/
structure Consolidated (s : ModelState) (pre : List ModelVersion) (c : IntentOverlay) : Prop where
  version : c.previousVersion = (modelAfter s pre).version
  sets : ∀ name r, r ∈ (modelAfter s pre).sets name ↔ r ∈ c.resourceSet s name
  held : ∀ r i, c.intent.get? r = some i →
    (modelAfter s pre).resources r = some ⟨i, c.resourceRequires.getD r [], r ∈ c.undefined⟩
  absent : ∀ r, r ∉ c.intent → c.isPartial = false ∨ r ∈ c.intentChanges → r ∉ modelAfter s pre
  managed : ∀ r, r ∉ c.intent → c.isPartial = true → r ∉ c.intentChanges →
    (modelAfter s pre).resources r = s.intentModel.resources r
  touched : c.isPartial = true → ∀ r ∈ s.intent, (r ∈ c.intent ∨ r ∈ c.intentChanges) ↔
    ∃ name ∈ c.resourceSets, r ∈ s.resourceSets.getD name []
  classified : ∀ r, ClassifiedAt s pre r (c.intentChanges.get? r)

theorem consolidated_init (s : ModelState) : Consolidated s [] (init s) where
  version := rfl
  sets name r := by
    show _ ↔ r ∈ if true = true then s.resourceSets.getD name [] else []
    rw [if_pos rfl]
    rfl
  held r i h := by cases h
  absent r _ h := by
    rcases h with h | h
    · cases h
    · exact absurd h (Dict.not_mem_empty r)
  managed r _ _ _ := rfl
  touched _ r _ := by
    refine iff_of_false ?_ ?_
    · rintro (h | h) <;> exact Dict.not_mem_empty r h
    · rintro ⟨name, h, -⟩
      exact Dict.not_mem_empty name h
  classified r := .nil s r

/-- What is in the overlay is in the model. -/
theorem Consolidated.mem (h : Consolidated s pre c) (hr : r ∈ c.intent) : r ∈ modelAfter s pre := by
  obtain ⟨i, hi⟩ := Dict.mem_iff.mp hr
  exact IntentModel.mem_iff.mpr ⟨_, h.held r i hi⟩

/-- A version that leaves resources alone is partial, or has nothing to leave. -/
theorem mem_knownResources : r ∈ c.knownResources s v ↔
    if v.isPartial = true then ∃ name ∈ v.resourceSets, r ∈ c.resourceSet s name
    else r ∈ c.intent ∨ (c.isPartial = true ∧ r ∈ s.intent) := by
  unfold knownResources
  split
  · simp only [List.mem_flatMap, Dict.mem_keys]
  · rw [List.mem_append, Dict.mem_keys]
    refine or_congr_right ?_
    split
    · rename_i hp
      rw [Dict.mem_keys, and_iff_right hp]
    · rename_i hp
      exact iff_of_false List.not_mem_nil fun hx => hp hx.1

/-- The known resources are those that the version does not keep, if the model
has them. -/
theorem Consolidated.resources_of_not_known (h : Consolidated s pre c) (hr : r ∉ v.resources)
    (hk : r ∉ c.knownResources s v) :
    (modelAfter s (pre ++ [v])).resources r = (modelAfter s pre).resources r := by
  rw [modelAfter_concat]
  rw [mem_knownResources] at hk
  split at hk
  · rename_i hp
    exact IntentModel.apply_of_keeps hr ⟨hp, fun name hn hm => hk ⟨name, hn, (h.sets name r).mp hm⟩⟩
  · rename_i hp
    obtain ⟨hint, hman⟩ := not_or.mp hk
    rw [IntentModel.apply_of_not_keeps hr fun hkeep => hp hkeep.1, eq_comm,
      ← IntentModel.not_mem_iff]
    by_cases hpart : c.isPartial = true ∧ r ∉ c.intentChanges
    · rw [IntentModel.not_mem_iff, h.managed r hint hpart.1 hpart.2, ← IntentModel.not_mem_iff]
      exact fun hm => hman ⟨hpart.1, mem_intentModel.mp hm⟩
    · refine h.absent r hint ?_
      by_cases hc : c.isPartial = true
      · exact .inr (not_not.mp fun hn => hpart ⟨hc, hn⟩)
      · exact .inl (Bool.eq_false_iff.mpr hc)

theorem Consolidated.not_mem_of_known (h : Consolidated s pre c) (hr : r ∉ v.resources)
    (hk : r ∈ c.knownResources s v) : r ∉ modelAfter s (pre ++ [v]) := by
  rw [modelAfter_concat, IntentModel.not_mem_iff]
  refine IntentModel.apply_of_not_keeps hr fun hkeep => ?_
  rw [mem_knownResources, if_pos hkeep.1] at hk
  obtain ⟨name, hn, hrn⟩ := hk
  exact hkeep.2 name hn ((h.sets name r).mpr hrn)

/-- A known resource is in the model, unless it was deleted before. -/
theorem Consolidated.seen (h : Consolidated s pre c) (hpart : (modelAfter s pre).Partitioned)
    (hk : r ∈ c.knownResources s v)
    (hd : ¬ ∃ last, c.intentChanges.get? r = some (.deleted last)) : r ∈ modelAfter s pre := by
  rw [mem_knownResources] at hk
  split at hk
  · obtain ⟨name, -, hrn⟩ := hk
    exact (hpart.resources r).mpr ⟨name, (h.sets name r).mpr hrn⟩
  · by_cases hint : r ∈ c.intent
    · exact h.mem hint
    obtain ⟨hp, hs⟩ := hk.resolve_left hint
    by_cases hc : r ∈ c.intentChanges
    · obtain ⟨change, hc⟩ := Dict.mem_iff.mp hc
      cases change with
      | deleted last => exact absurd ⟨last, hc⟩ hd
      | new => exact ((h.classified r).new.mp hc).1
      | updated => exact ((h.classified r).updated.mp hc).1 pre List.prefix_rfl
    · obtain ⟨i, hi⟩ := Dict.mem_iff.mp hs
      rw [IntentModel.mem_iff, h.managed r hint hp hc]
      exact ⟨_, congrArg (Option.map _) hi⟩

/-- The tracked sets are those of the model. -/
theorem Consolidated.sets_process (h : Consolidated s pre c) (hc : Processed s c v c')
    (name : Option String) (r : ResourceIdStr) :
    r ∈ (modelAfter s (pre ++ [v])).sets name ↔ r ∈ c'.resourceSet s name := by
  rw [modelAfter_concat, resourceSet, hc.isPartial, hc.resourceSets]
  unfold trackSets
  by_cases hp : v.isPartial = true
  · rw [if_pos hp]
    dsimp only
    rw [Dict.get?_update_eq]
    by_cases hn : name ∈ v.resourceSets
    · obtain ⟨rs, hrs⟩ := Dict.mem_iff.mp hn
      rw [IntentModel.sets_apply fun _ => hn, hrs, Option.some_or, ModelVersion.setOf,
        Dict.getD_of_get? hrs]
      rfl
    · rw [IntentModel.sets_apply_of_not_mem hp hn, Dict.not_mem_iff.mp hn, Option.none_or]
      exact h.sets name r
  · rw [if_neg hp, IntentModel.sets_apply fun hv => absurd hv hp]
    dsimp only
    rw [ModelVersion.setOf, Dict.getD]
    cases v.resourceSets.get? name <;> simp

/-- The resource sets of a managed resource are tracked as soon as it is
touched: it cannot get into two of them. -/
theorem Consolidated.touched_process (h : Consolidated s pre c) (hc : Processed s c v c')
    (h0 : s.intentModel.Partitioned) (hv : v.ListsItsSets)
    (hpre : (modelAfter s pre).Partitioned) (hpost : (modelAfter s (pre ++ [v])).Partitioned)
    (hp : c'.isPartial = true) (hr : r ∈ s.intent) :
    (r ∈ c'.intent ∨ r ∈ c'.intentChanges) ↔
      ∃ name ∈ c'.resourceSets, r ∈ s.resourceSets.getD name [] := by
  have hvp : v.isPartial = true ∧ c.isPartial = true := by
    rw [hc.isPartial, trackSets] at hp
    split at hp
    · exact ⟨‹_›, hp⟩
    · cases hp
  have hsets : ∀ name, name ∈ c'.resourceSets ↔ name ∈ v.resourceSets ∨ name ∈ c.resourceSets := by
    intro name
    rw [hc.resourceSets, trackSets, if_pos hvp.1]
    exact Dict.mem_update
  -- the set of the resource in the managed model
  obtain ⟨own, hown⟩ := (h0.resources r).mp (mem_intentModel.mpr hr)
  have honly : (∃ name ∈ c'.resourceSets, r ∈ s.resourceSets.getD name []) ↔
      own ∈ c'.resourceSets := by
    constructor
    · rintro ⟨name, hn, hrn⟩
      exact h0.disjoint r name own hrn hown ▸ hn
    · exact fun hn => ⟨own, hn, hown⟩
  have honly' : (∃ name ∈ c.resourceSets, r ∈ s.resourceSets.getD name []) ↔
      own ∈ c.resourceSets := by
    constructor
    · rintro ⟨name, hn, hrn⟩
      exact h0.disjoint r name own hrn hown ▸ hn
    · exact fun hn => ⟨own, hn, hown⟩
  have hown' : own ∉ c.resourceSets → r ∈ c.resourceSet s own := by
    intro hn
    rw [resourceSet, Dict.not_mem_iff.mp hn]
    simp only [hvp.2, if_true]
    exact hown
  rw [honly, hsets]
  by_cases hrv : r ∈ v.resources
  · obtain ⟨i, hi⟩ := Dict.mem_iff.mp hrv
    refine iff_of_true (.inl (Dict.mem_of_get? (hc.registered r i hi).intent)) ?_
    by_contra hno
    obtain ⟨hnv, hnc⟩ := not_or.mp hno
    obtain ⟨name, hn, hrn⟩ := (hv r).mp hrv
    have h₁ : r ∈ (modelAfter s (pre ++ [v])).sets name := by
      rw [modelAfter_concat, IntentModel.sets_apply fun _ => hn]
      exact hrn
    have h₂ : r ∈ (modelAfter s (pre ++ [v])).sets own := by
      rw [modelAfter_concat, IntentModel.sets_apply_of_not_mem hvp.1 hnv]
      exact (h.sets own r).mpr (hown' hnc)
    exact hnv (hpost.disjoint r name own h₁ h₂ ▸ hn)
  by_cases hk : r ∈ c.knownResources s v
  · obtain ⟨-, hch⟩ := hc.gone r hrv hk
    refine iff_of_true (.inr ?_) ?_
    · obtain ⟨change, hg, -⟩ := (Option.any_eq_true _ _).mp (goneChange_isDeleted c r)
      exact Dict.mem_of_get? (hch.trans hg)
    · rw [mem_knownResources, if_pos hvp.1] at hk
      obtain ⟨name, hn, hrn⟩ := hk
      by_contra hno
      obtain ⟨hnv, hnc⟩ := not_or.mp hno
      exact hnv (hpre.disjoint r name own ((h.sets name r).mpr hrn)
        ((h.sets own r).mpr (hown' hnc)) ▸ hn)
  · have hsame := hc.kept r hrv hk
    have hiff : (r ∈ c'.intent ∨ r ∈ c'.intentChanges) ↔ r ∈ c.intent ∨ r ∈ c.intentChanges := by
      rw [Dict.mem_iff, Dict.mem_iff, Dict.mem_iff, Dict.mem_iff, hsame.intent, hsame.changes]
    rw [hiff, h.touched hvp.2 r hr, honly']
    refine ⟨.inr, fun hor => by_contra fun hnc => hk (mem_knownResources.mpr ?_)⟩
    rw [if_pos hvp.1]
    exact ⟨own, hor.resolve_right hnc, hown' hnc⟩

theorem Consolidated.process (h : Consolidated s pre c) (hc : Processed s c v c')
    (h0 : s.intentModel.Partitioned) (hv : v.ListsItsSets)
    (hpre : (modelAfter s pre).Partitioned) (hpost : (modelAfter s (pre ++ [v])).Partitioned) :
    Consolidated s (pre ++ [v]) c' := by
  have hpart : c'.isPartial = true → c.isPartial = true := by
    rw [hc.isPartial, trackSets]
    split
    · exact id
    · exact fun hf => by cases hf
  have hspec : ∀ r i, v.resources.get? r = some i →
      (modelAfter s (pre ++ [v])).resources r
        = some ⟨i, v.requires.getD r [], r ∈ v.undefined⟩ := by
    intro r i hi
    rw [modelAfter_concat]
    exact IntentModel.apply_of_mem hi
  refine ⟨by rw [hc.previousVersion, modelAfter_concat]; rfl, h.sets_process hc, fun r i hi => ?_,
    fun r hi hch => ?_, fun r hi hp hch => ?_,
    fun hp r hr => h.touched_process hc h0 hv hpre hpost hp hr, fun r => ?_⟩ <;>
    by_cases hr : r ∈ v.resources
  -- what the overlay holds
  · obtain ⟨j, hj⟩ := Dict.mem_iff.mp hr
    have hreg := hc.registered r j hj
    obtain rfl := Option.some.inj (hi.symm.trans hreg.intent)
    simp only [hspec r i hj, hreg.requires, hreg.undefined]
  · by_cases hk : r ∈ c.knownResources s v
    · rw [(hc.gone r hr hk).1] at hi
      cases hi
    · have hsame := hc.kept r hr hk
      rw [h.resources_of_not_known hr hk, h.held r i (hsame.intent.symm.trans hi)]
      simp only [hsame.requires, hsame.undefined]
  -- what is absent
  · obtain ⟨j, hj⟩ := Dict.mem_iff.mp hr
    exact absurd (Dict.mem_of_get? (hc.registered r j hj).intent) hi
  · by_cases hk : r ∈ c.knownResources s v
    · exact h.not_mem_of_known hr hk
    · have hsame := hc.kept r hr hk
      rw [IntentModel.not_mem_iff, h.resources_of_not_known hr hk, ← IntentModel.not_mem_iff]
      have hint : r ∉ c.intent := by
        rwa [Dict.not_mem_iff, ← hsame.intent, ← Dict.not_mem_iff]
      by_cases hp : v.isPartial = true
      · refine h.absent r hint (hch.imp (fun hf => ?_) fun hm => ?_)
        · rwa [hc.isPartial, trackSets, if_pos hp] at hf
        · rwa [Dict.mem_iff, ← hsame.changes, ← Dict.mem_iff]
      · by_cases hcp : c.isPartial = true ∧ r ∉ c.intentChanges
        · rw [mem_knownResources, if_neg hp] at hk
          rw [IntentModel.not_mem_iff, h.managed r hint hcp.1 hcp.2, ← IntentModel.not_mem_iff,
            mem_intentModel]
          exact fun hs => hk (.inr ⟨hcp.1, hs⟩)
        · refine h.absent r hint ?_
          by_cases hcb : c.isPartial = true
          · exact .inr (not_not.mp fun hn => hcp ⟨hcb, hn⟩)
          · exact .inl (Bool.eq_false_iff.mpr hcb)
  -- what is as in the managed model
  · obtain ⟨j, hj⟩ := Dict.mem_iff.mp hr
    exact absurd (Dict.mem_of_get? (hc.registered r j hj).intent) hi
  · by_cases hk : r ∈ c.knownResources s v
    · obtain ⟨change, hg, -⟩ := (Option.any_eq_true _ _).mp (goneChange_isDeleted c r)
      exact absurd (Dict.mem_of_get? ((hc.gone r hr hk).2.trans hg)) hch
    · have hsame := hc.kept r hr hk
      rw [h.resources_of_not_known hr hk]
      refine h.managed r ?_ (hpart hp) ?_
      · rwa [Dict.not_mem_iff, ← hsame.intent, ← Dict.not_mem_iff]
      · rwa [Dict.not_mem_iff, ← hsame.changes, ← Dict.not_mem_iff]
  -- the changes
  · obtain ⟨j, hj⟩ := Dict.mem_iff.mp hr
    rw [(hc.registered r j hj).changes]
    exact (h.classified r).registered (hspec r j hj)
  · by_cases hk : r ∈ c.knownResources s v
    · rw [(hc.gone r hr hk).2]
      exact (h.classified r).gone h.version (h.not_mem_of_known hr hk) (h.seen hpre hk)
    · rw [(hc.kept r hr hk).changes]
      exact (h.classified r).kept (h.resources_of_not_known hr hk)

/-- The view over the managed model is the model after all versions. -/
theorem Consolidated.overlay (h : Consolidated s pre c) :
    s.intentModel.apply ⟨c.previousVersion, c.intent, c.resourceSets, c.resourceRequires,
      c.undefined, c.isPartial⟩ = modelAfter s pre := by
  refine IntentModel.ext h.version (funext fun r => ?_) (funext fun name => Set.ext fun r => ?_)
  · cases hi : c.intent.get? r with
    | some i => exact (IntentModel.apply_of_mem hi).trans (h.held r i hi).symm
    | none =>
        have hint := Dict.not_mem_iff.mpr hi
        by_cases hkeep : s.intentModel.Keeps ⟨c.previousVersion, c.intent, c.resourceSets,
            c.resourceRequires, c.undefined, c.isPartial⟩ r
        · rw [IntentModel.apply_of_keeps hint hkeep]
          by_cases hch : r ∈ c.intentChanges
          · -- deleted, but not one of the managed resources
            have hs : r ∉ s.intent := by
              intro hs
              obtain ⟨name, hn, hrn⟩ := (h.touched hkeep.1 r hs).mp (.inr hch)
              exact hkeep.2 name hn hrn
            rw [IntentModel.not_mem_iff.mp (mt mem_intentModel.mp hs),
              IntentModel.not_mem_iff.mp (h.absent r hint (.inr hch))]
          · exact (h.managed r hint hkeep.1 hch).symm
        · rw [IntentModel.apply_of_not_keeps hint hkeep, eq_comm, ← IntentModel.not_mem_iff]
          by_cases hp : c.isPartial = true
          · by_cases hs : r ∈ s.intent
            · obtain ⟨name, hn, hrn⟩ : ∃ name ∈ c.resourceSets,
                  r ∈ s.resourceSets.getD name [] := by
                by_contra hno
                exact hkeep ⟨hp, fun name hn hrn => hno ⟨name, hn, hrn⟩⟩
              exact h.absent r hint
                (.inr (((h.touched hp r hs).mpr ⟨name, hn, hrn⟩).resolve_left hint))
            · by_cases hch : r ∈ c.intentChanges
              · exact h.absent r hint (.inr hch)
              · rw [IntentModel.not_mem_iff, h.managed r hint hp hch, ← IntentModel.not_mem_iff]
                exact mt mem_intentModel.mp hs
          · exact h.absent r hint (.inl (Bool.eq_false_iff.mpr hp))
  · rw [h.sets]
    by_cases hn : c.isPartial = true ∧ name ∉ c.resourceSets
    · rw [IntentModel.sets_apply_of_not_mem hn.1 hn.2, resourceSet, Dict.not_mem_iff.mp hn.2]
      simp only [hn.1, if_true]
      rfl
    · rw [IntentModel.sets_apply fun hp => by_contra fun hno => hn ⟨hp, hno⟩]
      show r ∈ c.resourceSets.getD name [] ↔ _
      rw [resourceSet, Dict.getD]
      cases hrs : c.resourceSets.get? name with
      | some rs => rfl
      | none =>
          rw [if_neg fun hp => hn ⟨hp, Dict.not_mem_iff.mpr hrs⟩]
          rfl

end IntentOverlay

/-- The models of the sequence are partitioned if each has every resource in at
most one set. -/
theorem modelAfter_partitioned {s : ModelState} {versions : List ModelVersion}
    (h0 : s.intentModel.Partitioned) (hlists : ∀ v ∈ versions, v.ListsItsSets)
    (hone : ∀ p, p <+: versions → ∀ r name name', r ∈ (modelAfter s p).sets name →
      r ∈ (modelAfter s p).sets name' → name = name')
    {p : List ModelVersion} (hp : p <+: versions) : (modelAfter s p).Partitioned := by
  induction p using List.reverseRecOn with
  | nil => exact h0
  | append_singleton p v ih =>
      have hv : v ∈ versions := hp.subset (by simp)
      rw [modelAfter_concat]
      exact (ih ((List.prefix_append p [v]).trans hp)).apply (hlists v hv)
        (modelAfter_concat s p v ▸ hone _ hp)

/-- **The consolidated changes describe the sequence of models**, for every
valid model state and every non-empty sequence of versions that list their
sets, if each model of the sequence has every resource in at most one set. -/
theorem getIntentChanges_consolidates {s : ModelState} {versions : List ModelVersion}
    (hv : s.Valid) (h0 : s.intentModel.Partitioned) (hne : versions ≠ [])
    (hlists : ∀ v ∈ versions, v.ListsItsSets)
    (hone : ∀ p, p <+: versions → ∀ r name name', r ∈ (modelAfter s p).sets name →
      r ∈ (modelAfter s p).sets name' → name = name') :
    ∃ model changes, getIntentChanges s versions [] = .ok (model, changes)
      ∧ Consolidates s versions model changes := by
  have hpart : ∀ p, p <+: versions → (modelAfter s p).Partitioned :=
    fun p hp => modelAfter_partitioned h0 hlists hone hp
  obtain ⟨c, hc, h⟩ := foldlM_ok (ε := PyError) (f := IntentOverlay.process s [])
    (I := fun pre c => c.Consolidated s pre) (l := versions)
    (fun pre v post c hl hI => by
      obtain ⟨c', hc', hproc⟩ := IntentOverlay.process_ok hv v c
      have hpre : pre ++ [v] <+: versions := ⟨post, by simp [hl]⟩
      exact ⟨c', hc', hI.process hproc h0 (hlists v (by simp [hl]))
        (hpart pre ((List.prefix_append pre [v]).trans hpre)) (hpart _ hpre)⟩)
    (IntentOverlay.consolidated_init s)
  refine ⟨⟨c.previousVersion, c.intent, c.resourceSets, c.resourceRequires, c.undefined,
    c.isPartial⟩, c.intentChanges, ?_, h.overlay, h.classified⟩
  rw [getIntentChanges, if_neg hne]
  exact bind_eq_ok.mpr ⟨c, hc, rfl⟩

/-- The resource `a` in the default set, and the same set deleted. -/
def addedAndDeleted : List ModelVersion :=
  [nullVersion 1 [("a", "0", [])] [], { nullVersion 2 [] [] with isPartial := true }]

theorem getIntentChanges_consolidates_addedAndDeleted :
    ∃ model changes, getIntentChanges .empty addedAndDeleted [] = .ok (model, changes)
      ∧ Consolidates .empty addedAndDeleted model changes := by
  have hdefault : ∀ v ∈ addedAndDeleted, ∀ name, ∀ r ∈ v.setOf name, name = none := by
    intro v hv name r hr
    cases name with
    | none => rfl
    | some name =>
        rcases List.mem_pair.mp hv with rfl | rfl <;> exact absurd hr List.not_mem_nil
  have hsets : ∀ p, p <+: addedAndDeleted → ∀ name, ∀ r ∈ (modelAfter .empty p).sets name,
      name = none := by
    intro p
    induction p using List.reverseRecOn with
    | nil => exact fun _ name r hr => absurd hr List.not_mem_nil
    | append_singleton p v ih =>
        intro hp name r hr
        have hv : v ∈ addedAndDeleted := hp.subset (by simp)
        rw [modelAfter_concat] at hr
        by_cases hn : v.isPartial = true ∧ name ∉ v.resourceSets
        · rw [IntentModel.sets_apply_of_not_mem hn.1 hn.2] at hr
          exact ih ((List.prefix_append p [v]).trans hp) name r hr
        · rw [IntentModel.sets_apply fun hp => by_contra fun hno => hn ⟨hp, hno⟩] at hr
          exact hdefault v hv name r hr
  refine getIntentChanges_consolidates .empty ⟨fun r => ?_, fun r name name' h => ?_⟩ (by decide)
    (by decide) fun p hp r name name' h h' => ?_
  · refine iff_of_false (fun h => ?_) fun ⟨name, h⟩ => List.not_mem_nil h
    exact Dict.not_mem_empty r (mem_intentModel.mp h)
  · exact absurd h List.not_mem_nil
  · rw [hsets p hp name r h, hsets p hp name' r h']

end Inmanta
