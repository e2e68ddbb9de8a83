import Inmanta.Deploy.ResourceState
import Inmanta.Lib.Loop
import Mathlib.Data.List.Dedup
import Mathlib.Data.List.Perm.Basic
import Mathlib.Data.List.Perm.Subperm

/-!
# Partial exports

A partial export updates some resource sets of the last version and removes
others. `PartialUpdateMerger` merges the exported resources with the resources
of the base version that are not in a named set, the shared ones.

Of the attributes of a resource the code reads `requires`, and a hash of the
others. The hash is an argument: nothing depends on how it is computed.
The sets of the source are lists here.
-/

namespace Inmanta

/-- An id with a version, as the exporter sends it. -/
structure ResourceVersionId where
  resourceStr : ResourceIdStr
  version : ℕ

inductive ExportedState where
  | available
  | undefined
  deriving DecidableEq

section

variable (A : Type)

/-- A resource as it is exported. The attributes are the ones other than
`requires`, which may be missing. -/
structure ApiResource where
  id : ResourceVersionId
  requires : Option (List ResourceVersionId)
  attributes : A

structure ResourceDTO where
  resourceId : ResourceIdStr
  requires : Option (List ResourceIdStr)
  attributes : A
  isUndefined : Bool
  /-- `none` is the shared set. -/
  resourceSet : Option String

end

inductive PartialExportError where
  | superfluousIds (ids : List ResourceIdStr)
  | danglingDependencies (ids : List ResourceIdStr)
  | move (id : ResourceIdStr) (old new : Option String)
  | crossResourceSetDependency (id dependency : ResourceIdStr)
  | sharedUpdate (id : ResourceIdStr)
  | keyError (attr : String)
  deriving DecidableEq

variable {A H : Type} [DecidableEq H]

namespace ResourceDTO

/-- `attributes.get("requires", [])`. -/
def getRequires (r : ResourceDTO A) : List ResourceIdStr := r.requires.getD []

def isShared (r : ResourceDTO A) : Bool := r.resourceSet.isNone

end ResourceDTO

/-! ## The exported resources -/

def ApiResource.toDto (resourceState : Dict ResourceIdStr ExportedState)
    (resourceSets : Dict ResourceIdStr (Option String)) (r : ApiResource A) : ResourceDTO A where
  resourceId := r.id.resourceStr
  requires := r.requires.map fun l => l.map (·.resourceStr)
  attributes := r.attributes
  isUndefined := resourceState.get? r.id.resourceStr = some .undefined
  resourceSet := resourceSets.getD r.id.resourceStr none

def createDtoResourcesFromApiResources (resources : List (ApiResource A))
    (resourceState : Dict ResourceIdStr ExportedState)
    (resourceSets : Dict ResourceIdStr (Option String)) :
    Except PartialExportError (Dict ResourceIdStr (ResourceDTO A)) :=
  let ridToResource := Dict.ofList (resources.map fun r =>
    (r.id.resourceStr, r.toDto resourceState resourceSets))
  let allRequires := resources.flatMap fun r =>
    (r.requires.getD []).map (·.resourceStr)
  let superfluous := resourceSets.keys.filter (· ∉ ridToResource)
  let dangling := allRequires.filter (· ∉ ridToResource)
  if superfluous ≠ [] then throw (.superfluousIds superfluous)
  else if dangling ≠ [] then throw (.danglingDependencies dangling)
  else return ridToResource

/-! ## Dependencies across resource sets -/

/-- `ResourceSetValidator`: the resource set of each of the resources. -/
def ridToResourceSet (resources : List (ResourceDTO A)) : Dict ResourceIdStr (Option String) :=
  Dict.ofList (resources.map fun r => (r.resourceId, r.resourceSet))

def isCrossResourceSetDependency (ridToResourceSet : Dict ResourceIdStr (Option String))
    (res : ResourceDTO A) (ridDependency : ResourceIdStr) : Bool :=
  match res.resourceSet with
  | none => false
  | some name =>
      match ridToResourceSet.get? ridDependency with
      | none => true
      | some none => false
      | some (some name') => name ≠ name'

def ensureNoCrossResourceSetDependencies (resources : List (ResourceDTO A)) :
    Except PartialExportError Unit :=
  resources.forM fun res => res.getRequires.forM fun req =>
    if isCrossResourceSetDependency (ridToResourceSet resources) res req then
      throw (.crossResourceSetDependency res.resourceId req)
    else return ()

/-! ## The merger -/

structure PartialUpdateMerger (A : Type) where
  updatedResourceSets : List String
  deletedResourceSets : List String
  /-- The resources of the base version in an updated set or the shared one. -/
  updatedAndSharedResourcesOld : Dict ResourceIdStr (ResourceDTO A)
  ridsDeletedResourceSets : List ResourceIdStr

namespace PartialUpdateMerger

/-- A resource set that the partial export updates or deletes. -/
def isModified (m : PartialUpdateMerger A) : Option String → Bool
  | none => false
  | some name => name ∈ m.updatedResourceSets ∨ name ∈ m.deletedResourceSets

def create (base : Dict ResourceIdStr (ResourceDTO A))
    (updatedResourceSets deletedResourceSets : List String) : PartialUpdateMerger A where
  updatedResourceSets := updatedResourceSets
  deletedResourceSets := deletedResourceSets
  updatedAndSharedResourcesOld := base.filterValues fun r =>
    r.resourceSet.all (· ∈ updatedResourceSets)
  ridsDeletedResourceSets := (base.filterValues fun r =>
    r.resourceSet.any (· ∈ deletedResourceSets)).keys

def nonSharedResourcesInPartialUpdateOld (m : PartialUpdateMerger A) :
    Dict ResourceIdStr (ResourceDTO A) :=
  m.updatedAndSharedResourcesOld.filterValues fun r => !r.isShared

def sharedResourcesOld (m : PartialUpdateMerger A) : Dict ResourceIdStr (ResourceDTO A) :=
  m.updatedAndSharedResourcesOld.filterValues (·.isShared)

def validateMove (m : PartialUpdateMerger A) (res : ResourceDTO A) :
    Except PartialExportError Unit :=
  match m.updatedAndSharedResourcesOld.get? res.resourceId with
  | none => return ()
  | some old =>
      if res.resourceSet ≠ old.resourceSet ∧ m.isModified old.resourceSet = false then
        throw (.move res.resourceId old.resourceSet res.resourceSet)
      else return ()

def validateConstraints (m : PartialUpdateMerger A) (new : Dict ResourceIdStr (ResourceDTO A)) :
    Except PartialExportError Unit := do
  new.values.forM m.validateMove
  ensureNoCrossResourceSetDependencies new.values

def shouldKeepDependencyOldSharedResources (m : PartialUpdateMerger A)
    (ridDependency : ResourceIdStr) : Bool :=
  ridDependency ∉ m.ridsDeletedResourceSets
    ∧ ridDependency ∉ m.nonSharedResourcesInPartialUpdateOld

/-- The exported resource with the merged requires, and whether these differ
from the old ones. -/
def mergeRequiresOfSharedResource (m : PartialUpdateMerger A) (old new : ResourceDTO A) :
    ResourceDTO A × Bool :=
  let oldRequires := old.getRequires
  let oldRequiresCleaned :=
    (oldRequires.filter m.shouldKeepDependencyOldSharedResources).dedup
  let mergedRequires := (oldRequiresCleaned ++ new.getRequires).dedup
  ({ new with requires := some mergedRequires },
    oldRequiresCleaned.length ≠ oldRequires.length
      ∨ mergedRequires.length ≠ oldRequires.length)

/-- One shared resource of the new version, and whether it is an update. -/
def mergeSharedResource (m : PartialUpdateMerger A) (makeAttributeHash : ResourceIdStr → A → H)
    (new : Dict ResourceIdStr (ResourceDTO A)) (rid : ResourceIdStr) :
    Except PartialExportError (ResourceDTO A × Bool) :=
  match new.get? rid, m.sharedResourcesOld.get? rid with
  | some newResource, some oldResource =>
      if makeAttributeHash rid oldResource.attributes
          ≠ makeAttributeHash rid newResource.attributes then throw (.sharedUpdate rid)
      else return m.mergeRequiresOfSharedResource oldResource newResource
  | some newResource, none => return (newResource, true)
  | none, some oldResource =>
      match oldResource.requires with
      | none => throw (.keyError "requires")
      | some requires => return ({ oldResource with
          requires := some (requires.filter m.shouldKeepDependencyOldSharedResources) }, true)
  | none, none => throw (.keyError rid.text)

/-- `none`: nothing changed versus the base version. -/
def mergeSharedResources (m : PartialUpdateMerger A)
    (makeAttributeHash : ResourceIdStr → A → H) (new : Dict ResourceIdStr (ResourceDTO A)) :
    Except PartialExportError (Option (List (ResourceDTO A))) := do
  let allRidsSharedResources := (m.sharedResourcesOld.keys ++ new.keys).dedup
  let result ← allRidsSharedResources.mapM (m.mergeSharedResource makeAttributeHash new)
  return if result.any Prod.snd then some (result.map Prod.fst) else none

def mergeUpdatedAndSharedResources (m : PartialUpdateMerger A)
    (makeAttributeHash : ResourceIdStr → A → H) (new : Dict ResourceIdStr (ResourceDTO A)) :
    Except PartialExportError (Dict ResourceIdStr (ResourceDTO A)) := do
  m.validateConstraints new
  let sharedResources := new.filterValues (·.isShared)
  let updatedResources := new.filterValues fun r => !r.isShared
  let merged ← m.mergeSharedResources makeAttributeHash sharedResources
  let sharedResourcesMerged := Dict.ofList ((merged.getD []).map fun r => (r.resourceId, r))
  return sharedResourcesMerged.update updatedResources

/-! ## The new version -/

/-- The resources of the new version: the named sets that are not modified, the
result of the merge, and the old shared set if the merge has none. -/
def newVersion (m : PartialUpdateMerger A) (base merged : Dict ResourceIdStr (ResourceDTO A)) :
    List (ResourceDTO A) :=
  base.values.filter (fun r => !r.isShared && !m.isModified r.resourceSet) ++ merged.values ++
    if merged.values.any (·.isShared) then [] else m.sharedResourcesOld.values

end PartialUpdateMerger

/-- What is required of the base version: resources are filed under their id, have
a requires attribute, require resources that exist, and if they are in a named
set none of another named set. -/
structure WellFormedVersion (base : Dict ResourceIdStr (ResourceDTO A)) : Prop where
  filed : ∀ rid r, base.get? rid = some r → r.resourceId = rid
  hasRequires : ∀ rid r, base.get? rid = some r → r.requires.isSome = true
  closed : ∀ rid r, base.get? rid = some r → ∀ q ∈ r.getRequires, q ∈ base
  isolated : ∀ rid r, base.get? rid = some r → ∀ q ∈ r.getRequires, ∀ r',
    base.get? q = some r' → ∀ name name', r.resourceSet = some name →
      r'.resourceSet = some name' → name = name'

/-! ## What is accepted -/

/-- The exported resources are filed under their id and require each other
only. -/
theorem createDtoResources_spec {resources : List (ApiResource A)}
    {resourceState : Dict ResourceIdStr ExportedState}
    {resourceSets : Dict ResourceIdStr (Option String)}
    {new : Dict ResourceIdStr (ResourceDTO A)}
    (h : createDtoResourcesFromApiResources resources resourceState resourceSets = .ok new)
    {rid : ResourceIdStr} {r : ResourceDTO A} (hr : new.get? rid = some r) :
    r.resourceId = rid ∧ ∀ q ∈ r.getRequires, q ∈ new := by
  unfold createDtoResourcesFromApiResources at h
  dsimp only at h
  split at h
  · cases h
  · split at h
    · cases h
    · next hclosed =>
      obtain rfl := Except.ok.inj h
      obtain ⟨a, ha, hrid⟩ := List.mem_map.mp (Dict.get?_ofList hr)
      obtain ⟨rfl, rfl⟩ := Prod.mk.inj hrid
      refine ⟨rfl, fun q hq => ?_⟩
      by_contra hn
      refine hclosed fun hnil => List.not_mem_nil (hnil ▸ List.mem_filter.mpr ⟨?_, by simpa using hn⟩)
      refine List.mem_flatMap.mpr ⟨a, ha, ?_⟩
      cases hreq : a.requires with
      | none => simp [ResourceDTO.getRequires, ApiResource.toDto, hreq] at hq
      | some l => simpa [ResourceDTO.getRequires, ApiResource.toDto, hreq] using hq

theorem ensureNoCrossResourceSetDependencies_spec {resources : List (ResourceDTO A)}
    (h : ensureNoCrossResourceSetDependencies resources = .ok ()) {r : ResourceDTO A}
    (hr : r ∈ resources) {q : ResourceIdStr} (hq : q ∈ r.getRequires) {name : String}
    (hname : r.resourceSet = some name) :
    ∃ r' ∈ resources, r'.resourceId = q ∧
      (r'.resourceSet = none ∨ r'.resourceSet = some name) := by
  have hok := forM_ok (forM_ok h r hr) q hq
  split at hok
  · cases hok
  · next hcross =>
    unfold isCrossResourceSetDependency at hcross
    rw [hname] at hcross
    dsimp only at hcross
    split at hcross
    · exact absurd rfl hcross
    · next hget =>
      obtain ⟨r', hr', hpair⟩ := List.mem_map.mp (Dict.get?_ofList hget)
      obtain ⟨rfl, hset⟩ := Prod.mk.inj hpair
      exact ⟨r', hr', rfl, Or.inl hset⟩
    · next name' hget =>
      obtain ⟨r', hr', hpair⟩ := List.mem_map.mp (Dict.get?_ofList hget)
      obtain ⟨rfl, hset⟩ := Prod.mk.inj hpair
      refine ⟨r', hr', rfl, Or.inr ?_⟩
      have : name = name' := by simpa using hcross
      rw [hset, this]

namespace PartialUpdateMerger

variable {m : PartialUpdateMerger A} {base new merged : Dict ResourceIdStr (ResourceDTO A)}
  {makeAttributeHash : ResourceIdStr → A → H} {rid : ResourceIdStr} {r : ResourceDTO A}

/-- The requires of a shared resource of the new version: the exported ones, and
the old ones that are kept. -/
def Requires (m : PartialUpdateMerger A) (new : Dict ResourceIdStr (ResourceDTO A))
    (rid q : ResourceIdStr) : Prop :=
  (∃ r, new.get? rid = some r ∧ q ∈ r.getRequires) ∨
    ∃ r, m.sharedResourcesOld.get? rid = some r ∧ q ∈ r.getRequires ∧
      m.shouldKeepDependencyOldSharedResources q = true

theorem mergeRequires_spec (old new : ResourceDTO A) (q : ResourceIdStr) :
    q ∈ (m.mergeRequiresOfSharedResource old new).1.getRequires ↔ q ∈ new.getRequires ∨
      (q ∈ old.getRequires ∧ m.shouldKeepDependencyOldSharedResources q = true) := by
  simp only [mergeRequiresOfSharedResource, ResourceDTO.getRequires, Option.getD_some,
    List.mem_dedup, List.mem_append, List.mem_filter]
  exact or_comm

/-- A merge that is no update leaves the old requires. -/
theorem mergeRequires_of_not_update {old new : ResourceDTO A}
    (h : (m.mergeRequiresOfSharedResource old new).2 = false) (q : ResourceIdStr) :
    q ∈ (m.mergeRequiresOfSharedResource old new).1.getRequires ↔ q ∈ old.getRequires := by
  have hlen := not_or.mp (of_decide_eq_false h)
  simp only [mergeRequiresOfSharedResource, ResourceDTO.getRequires, Option.getD_some, ne_eq,
    not_not] at hlen ⊢
  obtain ⟨hcleaned, hmerged⟩ := hlen
  have hsub : ((old.requires.getD []).filter m.shouldKeepDependencyOldSharedResources).dedup.Sublist
      (old.requires.getD []) := (List.dedup_sublist _).trans List.filter_sublist
  have heq := hsub.eq_of_length hcleaned
  rw [heq] at hmerged ⊢
  have hnodup : (old.requires.getD []).Nodup := heq ▸ List.nodup_dedup _
  -- the old requires and the merged ones are equally many
  have hold : (old.requires.getD []).Subset
      ((old.requires.getD [] ++ new.requires.getD []).dedup) := fun x hx =>
    List.mem_dedup.mpr (List.mem_append_left _ hx)
  have hperm := (List.subperm_of_subset hnodup hold).perm_of_length_le (by omega)
  exact hperm.mem_iff.symm

/-- A shared resource of the new version, by the branches of the loop. -/
theorem mergeSharedResource_spec {update : Bool}
    (hfiled : ∀ rid r, base.get? rid = some r → r.resourceId = rid)
    (hnew : ∀ rid r, new.get? rid = some r → r.resourceId = rid)
    (hm : ∀ rid r, m.sharedResourcesOld.get? rid = some r →
      base.get? rid = some r ∧ r.resourceSet = none)
    (h : m.mergeSharedResource makeAttributeHash (new.filterValues (·.isShared)) rid =
      .ok (r, update)) :
    r.resourceId = rid ∧ r.resourceSet = none ∧
      (∀ q, q ∈ r.getRequires ↔ m.Requires (new.filterValues (·.isShared)) rid q) ∧
      (update = false → ∃ old, m.sharedResourcesOld.get? rid = some old ∧
        ∀ q, q ∈ old.getRequires ↔ q ∈ r.getRequires) := by
  unfold mergeSharedResource at h
  split at h
  · next newResource oldResource hn ho =>
    split at h
    · cases h
    · obtain ⟨hn', hshared⟩ := Dict.get?_filterValues.mp hn
      have hr : r = (m.mergeRequiresOfSharedResource oldResource newResource).1 :=
        congrArg Prod.fst (Except.ok.inj h).symm
      have hu : update = (m.mergeRequiresOfSharedResource oldResource newResource).2 :=
        congrArg Prod.snd (Except.ok.inj h).symm
      have hid := hnew _ _ hn'
      rw [hr]
      refine ⟨hid, Option.isNone_iff_eq_none.mp hshared, fun q => ?_, fun hf =>
        ⟨oldResource, ho, fun q => (mergeRequires_of_not_update (hu ▸ hf) q).symm⟩⟩
      rw [mergeRequires_spec, Requires, hn, ho]
      simp
  · next newResource hn ho =>
    obtain ⟨hn', hshared⟩ := Dict.get?_filterValues.mp hn
    obtain ⟨rfl, rfl⟩ := Prod.mk.inj (Except.ok.inj h)
    refine ⟨hnew _ _ hn', Option.isNone_iff_eq_none.mp hshared, fun q => ?_, fun hf => by cases hf⟩
    rw [Requires, hn, ho]
    simp
  · next oldResource hn ho =>
    obtain ⟨hbase, hset⟩ := hm _ _ ho
    have hid := hfiled _ _ hbase
    split at h
    · cases h
    · next requires hreq =>
      obtain ⟨rfl, rfl⟩ := Prod.mk.inj (Except.ok.inj h)
      refine ⟨hid, hset, fun q => ?_, fun hf => by cases hf⟩
      rw [Requires, hn, ho]
      simp [ResourceDTO.getRequires, hreq]
  · cases h

/-- What the new version holds of the shared set: the result of the merge if it
has one, and the old shared set otherwise. -/
structure SharedSet (m : PartialUpdateMerger A) (new : Dict ResourceIdStr (ResourceDTO A))
    (shared : List (ResourceDTO A)) : Prop where
  isShared : ∀ r ∈ shared, r.resourceSet = none
  ids : ∀ rid, (∃ r ∈ shared, r.resourceId = rid) ↔ rid ∈ m.sharedResourcesOld ∨ rid ∈ new
  requires : ∀ r ∈ shared, ∀ q, q ∈ r.getRequires ↔ m.Requires new r.resourceId q

theorem mergeSharedResources_spec {result : Option (List (ResourceDTO A))}
    (hfiled : ∀ rid r, base.get? rid = some r → r.resourceId = rid)
    (hnew : ∀ rid r, new.get? rid = some r → r.resourceId = rid)
    (hm : ∀ rid r, m.sharedResourcesOld.get? rid = some r →
      base.get? rid = some r ∧ r.resourceSet = none)
    (h : m.mergeSharedResources makeAttributeHash (new.filterValues (·.isShared)) =
      .ok result) :
    m.SharedSet (new.filterValues (·.isShared)) (result.getD m.sharedResourcesOld.values) ∧
      (∀ l, result = some l → l ≠ []) := by
  unfold mergeSharedResources at h
  obtain ⟨rs, hrs, h⟩ := bind_eq_ok.mp h
  obtain ⟨hto, hfrom⟩ := mapM_ok hrs
  have hids : ∀ rid, rid ∈ (m.sharedResourcesOld.keys ++
      (new.filterValues (·.isShared)).keys).dedup ↔
      rid ∈ m.sharedResourcesOld ∨ rid ∈ new.filterValues (·.isShared) := fun rid => by
    rw [List.mem_dedup, List.mem_append, Dict.mem_keys, Dict.mem_keys]
  have hspec : ∀ p ∈ rs, ∃ rid, (rid ∈ m.sharedResourcesOld ∨
      rid ∈ new.filterValues (·.isShared)) ∧ p.1.resourceId = rid ∧ p.1.resourceSet = none ∧
      (∀ q, q ∈ p.1.getRequires ↔ m.Requires (new.filterValues (·.isShared)) rid q) ∧
      (p.2 = false → ∃ old, m.sharedResourcesOld.get? rid = some old ∧
        ∀ q, q ∈ old.getRequires ↔ q ∈ p.1.getRequires) := fun p hp => by
    obtain ⟨rid, hrid, hf⟩ := hfrom p hp
    exact ⟨rid, (hids rid).mp hrid, mergeSharedResource_spec hfiled hnew hm hf⟩
  split at h
  · next hany =>
    obtain rfl := Except.ok.inj h
    refine ⟨⟨fun r hr => ?_, fun rid => ⟨?_, fun hrid => ?_⟩, fun r hr q => ?_⟩, fun l hl => ?_⟩
    · obtain ⟨p, hp, rfl⟩ := List.mem_map.mp hr
      obtain ⟨rid, -, -, hset, -⟩ := hspec p hp
      exact hset
    · rintro ⟨r, hr, rfl⟩
      obtain ⟨p, hp, rfl⟩ := List.mem_map.mp hr
      obtain ⟨rid, hrid, hid, -⟩ := hspec p hp
      rw [hid]
      exact hrid
    · obtain ⟨p, hp, hf⟩ := hto rid ((hids rid).mpr hrid)
      exact ⟨p.1, List.mem_map.mpr ⟨p, hp, rfl⟩,
        (mergeSharedResource_spec hfiled hnew hm hf).1⟩
    · obtain ⟨p, hp, rfl⟩ := List.mem_map.mp hr
      obtain ⟨rid, -, hid, -, hreq, -⟩ := hspec p hp
      rw [hid]
      exact hreq q
    · obtain rfl := Option.some.inj hl
      rintro hnil
      obtain ⟨p, hp, -⟩ := List.any_eq_true.mp hany
      exact absurd (List.mem_map.mpr ⟨p, hp, rfl⟩) (hnil ▸ List.not_mem_nil)
  · next hany =>
    obtain rfl := Except.ok.inj h
    -- nothing is an update: every resource has an old one with the same requires
    have hsame : ∀ rid, (rid ∈ m.sharedResourcesOld ∨ rid ∈ new.filterValues (·.isShared)) →
        ∃ old, m.sharedResourcesOld.get? rid = some old ∧
          ∀ q, q ∈ old.getRequires ↔ m.Requires (new.filterValues (·.isShared)) rid q :=
      fun rid hrid => by
        obtain ⟨p, hp, hf⟩ := hto rid ((hids rid).mpr hrid)
        obtain ⟨-, -, hreq, hold⟩ := mergeSharedResource_spec hfiled hnew hm hf
        obtain ⟨old, ho, hq⟩ := hold (Bool.eq_false_iff.mpr fun hu =>
          hany (List.any_eq_true.mpr ⟨p, hp, hu⟩))
        exact ⟨old, ho, fun q => (hq q).trans (hreq q)⟩
    refine ⟨⟨fun r hr => ?_, fun rid => ⟨?_, fun hrid => ?_⟩, fun r hr q => ?_⟩,
      fun l hl => by cases hl⟩
    · obtain ⟨rid, hr⟩ := Dict.mem_values.mp hr
      exact (hm rid r hr).2
    · rintro ⟨r, hr, rfl⟩
      obtain ⟨rid, hr⟩ := Dict.mem_values.mp hr
      rw [hfiled _ _ (hm rid r hr).1]
      exact Or.inl (Dict.mem_of_get? hr)
    · obtain ⟨old, ho, -⟩ := hsame rid hrid
      exact ⟨old, Dict.mem_values.mpr ⟨rid, ho⟩, hfiled _ _ (hm rid old ho).1⟩
    · obtain ⟨rid, hr⟩ := Dict.mem_values.mp hr
      obtain ⟨old, ho, hreq⟩ := hsame rid (Or.inl (Dict.mem_of_get? hr))
      obtain rfl := Option.some.inj (ho.symm.trans hr)
      rw [hfiled _ _ (hm rid old hr).1]
      exact hreq q

/-! ## The resources of the new version -/

section Created

variable {updated deleted : List String}

theorem sharedResourcesOld_create :
    (create base updated deleted).sharedResourcesOld.get? rid = some r ↔
      base.get? rid = some r ∧ r.resourceSet = none := by
  rw [sharedResourcesOld, Dict.get?_filterValues, create, Dict.get?_filterValues]
  constructor
  · rintro ⟨⟨h, -⟩, hs⟩
    exact ⟨h, Option.isNone_iff_eq_none.mp hs⟩
  · rintro ⟨h, hs⟩
    exact ⟨⟨h, by simp [hs]⟩, Option.isNone_iff_eq_none.mpr hs⟩

theorem isModified_eq_false {name : String} : m.isModified (some name) = false ↔
    name ∉ m.updatedResourceSets ∧ name ∉ m.deletedResourceSets :=
  decide_eq_false_iff_not.trans not_or

/-- The dependencies that are dropped are the ones on a resource that was in a
modified set. -/
theorem shouldKeep_create :
    (create base updated deleted).shouldKeepDependencyOldSharedResources rid = true ↔
      ∀ r, base.get? rid = some r →
        (create base updated deleted).isModified r.resourceSet = false := by
  have hdeleted : rid ∈ (create base updated deleted).ridsDeletedResourceSets ↔
      ∃ r, base.get? rid = some r ∧ r.resourceSet.any (· ∈ deleted) = true := by
    rw [create, Dict.mem_keys, Dict.mem_iff]
    exact exists_congr fun r => Dict.get?_filterValues
  have hupdated : rid ∈ (create base updated deleted).nonSharedResourcesInPartialUpdateOld ↔
      ∃ r, base.get? rid = some r ∧ r.resourceSet.all (· ∈ updated) = true ∧
        r.isShared = false := by
    rw [nonSharedResourcesInPartialUpdateOld, create, Dict.mem_iff]
    refine exists_congr fun r => ?_
    rw [Dict.get?_filterValues, Dict.get?_filterValues, and_assoc]
    simp
  rw [shouldKeepDependencyOldSharedResources, decide_eq_true_iff, hdeleted, hupdated]
  constructor
  · rintro ⟨hd, hu⟩ r hr
    cases hset : r.resourceSet with
    | none => rfl
    | some name =>
        refine isModified_eq_false.mpr
          ⟨fun (hmem : name ∈ updated) => ?_, fun (hmem : name ∈ deleted) => ?_⟩
        · exact hu ⟨r, hr, by simpa [hset] using hmem, by simp [ResourceDTO.isShared, hset]⟩
        · exact hd ⟨r, hr, by simpa [hset] using hmem⟩
  · intro h
    constructor
    · rintro ⟨r, hr, hd⟩
      have hmod := h r hr
      cases hset : r.resourceSet with
      | none => simp [hset] at hd
      | some name =>
          rw [hset] at hmod hd
          exact (isModified_eq_false.mp hmod).2 (show name ∈ deleted by simpa using hd)
    · rintro ⟨r, hr, hu, hshared⟩
      have hmod := h r hr
      cases hset : r.resourceSet with
      | none => simp [ResourceDTO.isShared, hset] at hshared
      | some name =>
          rw [hset] at hmod hu
          exact (isModified_eq_false.mp hmod).1 (show name ∈ updated by simpa using hu)

end Created

/-- The resources of the new version, by where they come from. -/
structure VersionParts (m : PartialUpdateMerger A) (base new : Dict ResourceIdStr (ResourceDTO A))
    (version shared : List (ResourceDTO A)) : Prop where
  cases : ∀ r ∈ version, (∃ rid name, base.get? rid = some r ∧ r.resourceSet = some name ∧
    m.isModified (some name) = false) ∨
    (∃ rid name, new.get? rid = some r ∧ r.resourceSet = some name) ∨ r ∈ shared
  unmodified : ∀ rid r name, base.get? rid = some r → r.resourceSet = some name →
    m.isModified (some name) = false → r ∈ version
  exported : ∀ rid r name, new.get? rid = some r → r.resourceSet = some name → r ∈ version
  shared : ∀ rid, (∃ r ∈ shared, r.resourceId = rid) → ∃ r ∈ version, r ∈ shared ∧
    r.resourceId = rid

theorem validateMove_ok {old : ResourceDTO A} (h : m.validateMove r = .ok ())
    (hold : m.updatedAndSharedResourcesOld.get? r.resourceId = some old) :
    r.resourceSet = old.resourceSet ∨ m.isModified old.resourceSet = true := by
  unfold validateMove at h
  rw [hold] at h
  dsimp only at h
  split at h
  · cases h
  · next hn =>
    by_contra hc
    obtain ⟨h₁, h₂⟩ := not_or.mp hc
    exact hn ⟨h₁, Bool.eq_false_iff.mpr h₂⟩

/-- A shared resource stays shared. -/
theorem validateConstraints_stay {updated deleted : List String}
    (hnew : ∀ rid r, new.get? rid = some r → r.resourceId = rid)
    (h : (create base updated deleted).validateConstraints new = .ok ()) {rid : ResourceIdStr}
    {r r' : ResourceDTO A} (hr : new.get? rid = some r) (hr' : base.get? rid = some r')
    (hs : r'.resourceSet = none) : r.resourceSet = none := by
  obtain ⟨u, hmove, -⟩ := bind_eq_ok.mp h
  have hok := forM_ok hmove r (Dict.mem_values.mpr ⟨rid, hr⟩)
  have hold : (create base updated deleted).updatedAndSharedResourcesOld.get? r.resourceId =
      some r' := by
    rw [hnew rid r hr]
    exact Dict.get?_filterValues.mpr ⟨hr', by simp [hs]⟩
  obtain heq | hmod := validateMove_ok hok hold
  · exact heq.trans hs
  · rw [hs] at hmod
    cases hmod

theorem get?_named {rid : ResourceIdStr} : (new.filterValues fun r => !r.isShared).get? rid =
    some r ↔ new.get? rid = some r ∧ ∃ name, r.resourceSet = some name := by
  rw [Dict.get?_filterValues]
  refine and_congr_right fun _ => ?_
  cases hs : r.resourceSet with
  | none => simp [ResourceDTO.isShared, hs]
  | some name => simp [ResourceDTO.isShared, hs]

/-- Where the merge has its resources from: the exported resources of the named
sets, and the list of merged shared resources. -/
structure MergeParts (new merged : Dict ResourceIdStr (ResourceDTO A))
    (result : List (ResourceDTO A)) : Prop where
  named : ∀ rid r name, new.get? rid = some r → r.resourceSet = some name →
    merged.get? rid = some r
  cases : ∀ rid r, merged.get? rid = some r →
    (new.get? rid = some r ∧ ∃ name, r.resourceSet = some name) ∨
      (r ∈ result ∧ r.resourceId = rid)
  shared : ∀ r ∈ result, ∃ r' ∈ result, r'.resourceId = r.resourceId ∧
    merged.get? r.resourceId = some r'
  isShared : ∀ r ∈ result, r.resourceSet = none

theorem mergeParts_update {result : List (ResourceDTO A)}
    (hs : ∀ r ∈ result, r.resourceSet = none)
    (hsep : ∀ r ∈ result, ∀ r', new.get? r.resourceId = some r' → r'.resourceSet = none) :
    MergeParts new (Dict.update (Dict.ofList (result.map fun r => (r.resourceId, r)))
      (new.filterValues fun r => !r.isShared)) result := by
  have hcases : ∀ rid r, (Dict.update (Dict.ofList (result.map fun r => (r.resourceId, r)))
      (new.filterValues fun r => !r.isShared)).get? rid = some r →
      (new.get? rid = some r ∧ ∃ name, r.resourceSet = some name) ∨
        (r ∈ result ∧ r.resourceId = rid) := fun rid r hr => by
    obtain hr | ⟨hr, -⟩ := Dict.get?_update hr
    · exact Or.inl (get?_named.mp hr)
    · obtain ⟨r', hr', hpair⟩ := List.mem_map.mp (Dict.get?_ofList hr)
      obtain ⟨rfl, rfl⟩ := Prod.mk.inj hpair
      exact Or.inr ⟨hr', rfl⟩
  refine ⟨fun rid r name hr hname => ?_, hcases, fun r hr => ?_, hs⟩
  · have hget := get?_named.mpr ⟨hr, name, hname⟩
    obtain ⟨r', hr'⟩ := Dict.mem_iff.mp (Dict.mem_update.mpr (Or.inl (Dict.mem_of_get? hget)))
    obtain hv | ⟨-, hn⟩ := Dict.get?_update hr'
    · exact hr'.trans (hv.symm.trans hget)
    · exact absurd (Dict.mem_of_get? hget) hn
  · have hmem : r.resourceId ∈ Dict.ofList (result.map fun r => (r.resourceId, r)) :=
      Dict.mem_ofList.mpr (List.mem_map.mpr ⟨_, List.mem_map.mpr ⟨r, hr, rfl⟩, rfl⟩)
    obtain ⟨r', hr'⟩ := Dict.mem_iff.mp (Dict.mem_update.mpr (Or.inr hmem))
    obtain ⟨hexp, name, hname⟩ | ⟨hmem', hid⟩ := hcases _ _ hr'
    · rw [hsep r hr r' hexp] at hname
      cases hname
    · exact ⟨r', hmem', hid, hr'⟩

/-- The merge has a shared resource if some shared resource was merged. -/
theorem MergeParts.any_isShared {result : List (ResourceDTO A)}
    (h : MergeParts new merged result) :
    merged.values.any (·.isShared) = true ↔ result ≠ [] := by
  rw [List.any_eq_true]
  constructor
  · rintro ⟨r, hr, hs⟩ hnil
    obtain ⟨rid, hr⟩ := Dict.mem_values.mp hr
    obtain ⟨-, name, hname⟩ | ⟨hmem, -⟩ := h.cases rid r hr
    · simp [ResourceDTO.isShared, hname] at hs
    · rw [hnil] at hmem
      exact List.not_mem_nil hmem
  · intro hne
    obtain ⟨r, hr⟩ := List.exists_mem_of_ne_nil result hne
    obtain ⟨r', hr', -, hget⟩ := h.shared r hr
    exact ⟨r', Dict.mem_values.mpr ⟨_, hget⟩, Option.isNone_iff_eq_none.mpr (h.isShared r' hr')⟩

/-- The new version has the old shared set where no shared resource was merged. -/
theorem MergeParts.mem_newVersion {result : List (ResourceDTO A)}
    (h : MergeParts new merged result) :
    r ∈ m.newVersion base merged ↔ (r ∈ base.values ∧ (!r.isShared && !m.isModified r.resourceSet))
      ∨ r ∈ merged.values ∨ (result = [] ∧ r ∈ m.sharedResourcesOld.values) := by
  unfold newVersion
  rw [List.mem_append, List.mem_append, List.mem_filter, or_assoc]
  refine or_congr_right (or_congr_right ?_)
  by_cases hnil : result = []
  · rw [if_neg fun hany => h.any_isShared.mp hany hnil, and_iff_right hnil]
  · rw [if_pos (h.any_isShared.mpr hnil)]
    exact ⟨fun hr => absurd hr List.not_mem_nil, fun hr => absurd hr.1 hnil⟩

theorem MergeParts.versionParts {result shared : List (ResourceDTO A)}
    (h : MergeParts new merged result)
    (hshared : ∀ r, r ∈ shared ↔
      r ∈ result ∨ (result = [] ∧ r ∈ m.sharedResourcesOld.values)) :
    m.VersionParts base new (m.newVersion base merged) shared := by
  refine ⟨fun r hr => ?_, fun rid r name hr hs hmod => ?_, fun rid r name hr hs => ?_, ?_⟩
  · obtain ⟨hr, hp⟩ | hr | hr := h.mem_newVersion.mp hr
    · obtain ⟨rid, hr⟩ := Dict.mem_values.mp hr
      obtain ⟨hs, hmod⟩ := Bool.and_eq_true_iff.mp hp
      cases hname : r.resourceSet with
      | none => simp [ResourceDTO.isShared, hname] at hs
      | some name =>
          rw [hname] at hmod
          exact Or.inl ⟨rid, name, hr, rfl, by simpa using hmod⟩
    · obtain ⟨rid, hr⟩ := Dict.mem_values.mp hr
      obtain ⟨hexp, name, hs⟩ | ⟨hmem, -⟩ := h.cases rid r hr
      · exact Or.inr (Or.inl ⟨rid, name, hexp, hs⟩)
      · exact Or.inr (Or.inr ((hshared r).mpr (Or.inl hmem)))
    · exact Or.inr (Or.inr ((hshared r).mpr (Or.inr hr)))
  · refine h.mem_newVersion.mpr (Or.inl ⟨Dict.mem_values.mpr ⟨rid, hr⟩, ?_⟩)
    rw [hs, hmod]
    simp [ResourceDTO.isShared, hs]
  · exact h.mem_newVersion.mpr (Or.inr (Or.inl
      (Dict.mem_values.mpr ⟨rid, h.named rid r name hr hs⟩)))
  · rintro rid ⟨r, hr, rfl⟩
    obtain hr' | hold := (hshared r).mp hr
    · obtain ⟨r', hmem, hid, hget⟩ := h.shared r hr'
      exact ⟨r', h.mem_newVersion.mpr (Or.inr (Or.inl (Dict.mem_values.mpr ⟨_, hget⟩))),
        (hshared r').mpr (Or.inl hmem), hid⟩
    · exact ⟨r, h.mem_newVersion.mpr (Or.inr (Or.inr hold)), hr, rfl⟩

theorem newVersion_parts {updated deleted : List String}
    (hfiled : ∀ rid r, base.get? rid = some r → r.resourceId = rid)
    (hnew : ∀ rid r, new.get? rid = some r → r.resourceId = rid)
    (h : (create base updated deleted).mergeUpdatedAndSharedResources makeAttributeHash new =
      .ok merged) :
    ∃ shared, (create base updated deleted).SharedSet (new.filterValues (·.isShared)) shared ∧
      (create base updated deleted).VersionParts base new
        ((create base updated deleted).newVersion base merged) shared ∧
      ∀ rid r r', new.get? rid = some r → base.get? rid = some r' → r'.resourceSet = none →
        r.resourceSet = none := by
  unfold mergeUpdatedAndSharedResources at h
  obtain ⟨u, hval, h⟩ := bind_eq_ok.mp h
  obtain ⟨result, hresult, h⟩ := bind_eq_ok.mp h
  obtain rfl := Except.ok.inj h
  obtain ⟨hset, hne⟩ := mergeSharedResources_spec hfiled hnew
    (fun rid r hr => sharedResourcesOld_create.mp hr) hresult
  have hstay : ∀ rid r r', new.get? rid = some r → base.get? rid = some r' →
      r'.resourceSet = none → r.resourceSet = none := fun rid r r' =>
    validateConstraints_stay hnew hval
  have hmem : ∀ r ∈ result.getD [], r ∈ result.getD
      (create base updated deleted).sharedResourcesOld.values := by
    cases result with
    | none => exact fun r hr => absurd hr List.not_mem_nil
    | some l => exact fun r hr => hr
  -- a shared id is not the id of an exported resource of a named set
  have hsep : ∀ r ∈ result.getD [], ∀ r', new.get? r.resourceId = some r' →
      r'.resourceSet = none := fun r hr r' hr' => by
    obtain hid | hid := (hset.ids _).mp ⟨r, hmem r hr, rfl⟩
    · obtain ⟨old, ho⟩ := Dict.mem_iff.mp hid
      obtain ⟨hb, hn⟩ := sharedResourcesOld_create.mp ho
      exact hstay _ r' old hr' hb hn
    · obtain ⟨r'', hr''⟩ := Dict.mem_iff.mp hid
      obtain ⟨hget, hn⟩ := Dict.get?_filterValues.mp hr''
      obtain rfl := Option.some.inj (hget.symm.trans hr')
      exact Option.isNone_iff_eq_none.mp hn
  have hparts := mergeParts_update (fun r hr => hset.isShared r (hmem r hr)) hsep
  refine ⟨_, hset, hparts.versionParts fun r => ?_, hstay⟩
  cases hl : result with
  | none =>
      exact ⟨fun hr => Or.inr ⟨rfl, hr⟩, fun hr => hr.elim (fun hn => absurd hn List.not_mem_nil)
        fun hr => hr.2⟩
  | some l => exact ⟨Or.inl, fun hr => hr.elim id fun hr => absurd hr.1 (hne l hl)⟩

theorem merge_validated {m : PartialUpdateMerger A} {makeAttributeHash : ResourceIdStr → A → H}
    {new merged : Dict ResourceIdStr (ResourceDTO A)}
    (h : m.mergeUpdatedAndSharedResources makeAttributeHash new = .ok merged) :
    ensureNoCrossResourceSetDependencies new.values = .ok () := by
  obtain ⟨u, hval, -⟩ := bind_eq_ok.mp h
  obtain ⟨u', -, hcross⟩ := bind_eq_ok.mp hval
  exact hcross

/-- What is known of an export that is accepted, and of the version it makes. -/
structure AcceptedExport (m : PartialUpdateMerger A) (base new : Dict ResourceIdStr (ResourceDTO A))
    (version shared : List (ResourceDTO A)) : Prop where
  wellFormed : WellFormedVersion base
  filed : ∀ rid r, new.get? rid = some r → r.resourceId = rid
  closed : ∀ rid r, new.get? rid = some r → ∀ q ∈ r.getRequires, q ∈ new
  cross : ensureNoCrossResourceSetDependencies new.values = .ok ()
  checked : ∀ rid ∈ new, ∀ r name, base.get? rid = some r → r.resourceSet = some name →
    m.isModified (some name) = true
  stay : ∀ rid r r', new.get? rid = some r → base.get? rid = some r' → r'.resourceSet = none →
    r.resourceSet = none
  created : ∃ updated deleted, m = create base updated deleted
  sharedSet : m.SharedSet (new.filterValues (·.isShared)) shared
  parts : m.VersionParts base new version shared

namespace AcceptedExport

variable {m : PartialUpdateMerger A} {base new : Dict ResourceIdStr (ResourceDTO A)}
  {version shared : List (ResourceDTO A)} {rid q : ResourceIdStr} {r r' : ResourceDTO A}

theorem sharedResourcesOld (h : m.AcceptedExport base new version shared) :
    m.sharedResourcesOld.get? rid = some r ↔ base.get? rid = some r ∧ r.resourceSet = none := by
  obtain ⟨updated, deleted, rfl⟩ := h.created
  exact sharedResourcesOld_create

theorem shouldKeep (h : m.AcceptedExport base new version shared) :
    m.shouldKeepDependencyOldSharedResources rid = true ↔
      ∀ r, base.get? rid = some r → m.isModified r.resourceSet = false := by
  obtain ⟨updated, deleted, rfl⟩ := h.created
  exact shouldKeep_create

theorem exists_of_base_shared (h : m.AcceptedExport base new version shared)
    (hr : base.get? rid = some r) (hs : r.resourceSet = none) :
    ∃ r' ∈ version, r'.resourceId = rid := by
  have hold := Dict.mem_of_get? (h.sharedResourcesOld.mpr ⟨hr, hs⟩)
  obtain ⟨r', hr', -, hid⟩ := h.parts.shared rid ((h.sharedSet.ids rid).mpr (Or.inl hold))
  exact ⟨r', hr', hid⟩

theorem exists_of_base (h : m.AcceptedExport base new version shared)
    (hr : base.get? rid = some r) (hmod : m.isModified r.resourceSet = false) :
    ∃ r' ∈ version, r'.resourceId = rid := by
  cases hs : r.resourceSet with
  | none => exact h.exists_of_base_shared hr hs
  | some name =>
      rw [hs] at hmod
      exact ⟨r, h.parts.unmodified rid r name hr hs hmod, h.wellFormed.filed rid r hr⟩

theorem exists_of_exported (h : m.AcceptedExport base new version shared) (hrid : rid ∈ new) :
    ∃ r' ∈ version, r'.resourceId = rid := by
  obtain ⟨r, hr⟩ := Dict.mem_iff.mp hrid
  cases hs : r.resourceSet with
  | none =>
      have hnew := Dict.mem_of_get? (Dict.get?_filterValues.mpr
        ⟨hr, show r.isShared = true from Option.isNone_iff_eq_none.mpr hs⟩)
      obtain ⟨r', hr', -, hid⟩ := h.parts.shared rid ((h.sharedSet.ids rid).mpr (Or.inr hnew))
      exact ⟨r', hr', hid⟩
  | some name => exact ⟨r, h.parts.exported rid r name hr hs, h.filed rid r hr⟩

/-- Every required resource exists. -/
theorem closed_version (h : m.AcceptedExport base new version shared) (hr : r ∈ version)
    (hq : q ∈ r.getRequires) : ∃ r' ∈ version, r'.resourceId = q := by
  obtain ⟨rid, name, hb, hs, hmod⟩ | ⟨rid, name, hexp, hs⟩ | hsh := h.parts.cases r hr
  · obtain ⟨d, hd⟩ := Dict.mem_iff.mp (h.wellFormed.closed rid r hb q hq)
    refine h.exists_of_base hd ?_
    cases hds : d.resourceSet with
    | none => rfl
    | some name' =>
        rw [← h.wellFormed.isolated rid r hb q hq d hd name name' hs hds]
        exact hmod
  · exact h.exists_of_exported (h.closed rid r hexp q hq)
  · obtain ⟨e, he, hqe⟩ | ⟨o, ho, hqo, hkeep⟩ := (h.sharedSet.requires r hsh q).mp hq
    · exact h.exists_of_exported (h.closed _ e (Dict.get?_filterValues.mp he).1 q hqe)
    · obtain ⟨hob, -⟩ := h.sharedResourcesOld.mp ho
      obtain ⟨d, hd⟩ := Dict.mem_iff.mp (h.wellFormed.closed _ o hob q hqo)
      exact h.exists_of_base hd (h.shouldKeep.mp hkeep d hd)

/-- A resource of an exported named set requires exported resources of this set
or the shared one. -/
theorem exported_requires (h : m.AcceptedExport base new version shared)
    (hr : new.get? rid = some r) {name : String} (hs : r.resourceSet = some name)
    (hq : q ∈ r.getRequires) :
    ∃ e, new.get? q = some e ∧ (e.resourceSet = none ∨ e.resourceSet = some name) := by
  obtain ⟨e, he, hid, hset⟩ := ensureNoCrossResourceSetDependencies_spec h.cross
    (Dict.mem_values.mpr ⟨rid, hr⟩) hq hs
  obtain ⟨k, hk⟩ := Dict.mem_values.mp he
  rw [← hid, h.filed k e hk]
  exact ⟨e, hk, hset⟩

/-- A resource of an unmodified named set requires resources of the base in this
set or the shared one, and these are not exported to a named set. -/
theorem unmodified_requires (h : m.AcceptedExport base new version shared)
    (hr : base.get? rid = some r) {name : String} (hs : r.resourceSet = some name)
    (hmod : m.isModified (some name) = false) (hq : q ∈ r.getRequires) {e : ResourceDTO A}
    (he : new.get? q = some e) : e.resourceSet = none := by
  obtain ⟨d, hd⟩ := Dict.mem_iff.mp (h.wellFormed.closed rid r hr q hq)
  cases hds : d.resourceSet with
  | none => exact h.stay q e d he hd hds
  | some name' =>
      rw [h.wellFormed.isolated rid r hr q hq d hd name name' hs hds,
        h.checked q (Dict.mem_of_get? he) d name' hd hds] at hmod
      cases hmod

/-- No resource of a named set requires one of another named set. -/
theorem isolated_version (h : m.AcceptedExport base new version shared) (hr : r ∈ version)
    (hr' : r' ∈ version) (hq : r'.resourceId ∈ r.getRequires) {name name' : String}
    (hs : r.resourceSet = some name) (hs' : r'.resourceSet = some name') : name = name' := by
  obtain ⟨rid, n, hb, hn, hmod⟩ | ⟨rid, n, hexp, hn⟩ | hsh := h.parts.cases r hr
  · obtain rfl := Option.some.inj (hn.symm.trans hs)
    obtain ⟨rid', n', hb', hn', -⟩ | ⟨rid', n', hexp', hn'⟩ | hsh' := h.parts.cases r' hr'
    · have hid := h.wellFormed.filed rid' r' hb'
      exact h.wellFormed.isolated rid r hb _ hq r' (hid.symm ▸ hb') n name' hn hs'
    · rw [h.filed rid' r' hexp'] at hq
      rw [h.unmodified_requires hb hn hmod hq hexp'] at hs'
      cases hs'
    · rw [h.sharedSet.isShared r' hsh'] at hs'
      cases hs'
  · obtain rfl := Option.some.inj (hn.symm.trans hs)
    obtain ⟨e, he, hset⟩ := h.exported_requires hexp hn hq
    obtain ⟨rid', n', hb', hn', hmod'⟩ | ⟨rid', n', hexp', hn'⟩ | hsh' := h.parts.cases r' hr'
    · rw [h.wellFormed.filed rid' r' hb'] at he
      rw [h.checked rid' (Dict.mem_of_get? he) r' n' hb' hn'] at hmod'
      cases hmod'
    · rw [h.filed rid' r' hexp'] at he
      obtain rfl := Option.some.inj (he.symm.trans hexp')
      obtain hnone | hsame := hset
      · rw [hnone] at hs'
        cases hs'
      · exact Option.some.inj (hsame.symm.trans hs')
    · rw [h.sharedSet.isShared r' hsh'] at hs'
      cases hs'
  · rw [h.sharedSet.isShared r hsh] at hs
    cases hs

/-- The shared resources of the base are shared. -/
theorem shared_version (h : m.AcceptedExport base new version shared)
    (hr : base.get? rid = some r) (hs : r.resourceSet = none) (hr' : r' ∈ version)
    (hid : r'.resourceId = rid) : r'.resourceSet = none := by
  obtain ⟨k, name, hb, -, -⟩ | ⟨k, name, hexp, -⟩ | hsh := h.parts.cases r' hr'
  · have hk : k = rid := (h.wellFormed.filed k r' hb).symm.trans hid
    subst hk
    obtain rfl := Option.some.inj (hb.symm.trans hr)
    exact hs
  · have hk : k = rid := (h.filed k r' hexp).symm.trans hid
    subst hk
    exact h.stay k r' r hexp hr hs
  · exact h.sharedSet.isShared r' hsh

/-- A resource that is shared in the new version is shared in the export, if it
is exported. -/
theorem exported_shared (h : m.AcceptedExport base new version shared) (hr : r ∈ shared)
    {e : ResourceDTO A} (he : new.get? r.resourceId = some e) : e.resourceSet = none := by
  obtain hold | hexp := (h.sharedSet.ids r.resourceId).mp ⟨r, hr, rfl⟩
  · obtain ⟨o, ho⟩ := Dict.mem_iff.mp hold
    obtain ⟨hob, hos⟩ := h.sharedResourcesOld.mp ho
    exact h.stay _ e o he hob hos
  · obtain ⟨e', he'⟩ := Dict.mem_iff.mp hexp
    obtain ⟨he'', hes⟩ := Dict.get?_filterValues.mp he'
    obtain rfl := Option.some.inj (he''.symm.trans he)
    exact Option.isNone_iff_eq_none.mp hes

theorem requires_version (h : m.AcceptedExport base new version shared) (hr : r ∈ version)
    (hs : r.resourceSet = none) :
    q ∈ r.getRequires ↔ (∃ r', new.get? r.resourceId = some r' ∧ q ∈ r'.getRequires) ∨
      ∃ r', base.get? r.resourceId = some r' ∧ r'.resourceSet = none ∧ q ∈ r'.getRequires ∧
        ∀ d, base.get? q = some d → m.isModified d.resourceSet = false := by
  obtain ⟨k, name, -, hn, -⟩ | ⟨k, name, -, hn⟩ | hsh := h.parts.cases r hr
  · rw [hs] at hn
    cases hn
  · rw [hs] at hn
    cases hn
  · rw [h.sharedSet.requires r hsh q, Requires]
    refine or_congr (exists_congr fun e => and_congr_left fun _ => ?_)
      (exists_congr fun o => ?_)
    · exact ⟨fun he => (Dict.get?_filterValues.mp he).1, fun he => Dict.get?_filterValues.mpr
        ⟨he, Option.isNone_iff_eq_none.mpr (h.exported_shared hsh he)⟩⟩
    · rw [h.sharedResourcesOld, h.shouldKeep, and_assoc]

end AcceptedExport

end PartialUpdateMerger

open PartialUpdateMerger

def sharedHost : ResourceDTO Unit where
  resourceId := ⟨"std::Host", "internal", "name", "host"⟩
  requires := some []
  attributes := ()
  isUndefined := false
  resourceSet := none

/-- A file of the set `files` that requires the host, exported together with
it. -/
def fileExport : List (ApiResource Unit) :=
  [⟨⟨sharedHost.resourceId, 0⟩, some [], ()⟩,
    ⟨⟨⟨"std::File", "internal", "path", "motd"⟩, 0⟩, some [⟨sharedHost.resourceId, 0⟩], ()⟩]

def fileSets : Dict ResourceIdStr (Option String) :=
  Dict.ofList [(⟨"std::File", "internal", "path", "motd"⟩, some "files")]

def fileBase : Dict ResourceIdStr (ResourceDTO Unit) :=
  Dict.ofList [(sharedHost.resourceId, sharedHost)]

def fileMerger : PartialUpdateMerger Unit :=
  create fileBase (fileSets.values.filterMap id) []

end Inmanta
