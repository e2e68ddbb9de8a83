import Inmanta.Deploy.ModelEdits

/-!
# Consolidated intent changes

The scheduler may process several released versions at once.
`getIntentChanges` applies them one after the other to a view of the
intent (`IntentOverlay`) that lies over the intent of the model state,
and keeps track of what changed relative to the model state: a resource
is new, updated or deleted.

`Tracked` is what the loop knows about the overlay and the changes, and
`getIntentChanges_ok` says that the loop never fails on a valid model
state.
-/

namespace Inmanta

/-- A version of the model, or the part of one that changed relative to the
previous version (`isPartial`): then it has the resource sets that changed,
with all their resources, a deleted set being empty. -/
structure ModelVersion where
  version : ℕ
  resources : Dict ResourceIdStr ResourceIntent
  resourceSets : Dict (Option String) (List ResourceIdStr)
  requires : Dict ResourceIdStr (List ResourceIdStr)
  undefined : List ResourceIdStr
  isPartial : Bool

inductive ResourceIntentChange where
  | new
  | updated
  | deleted (lastSeenVersion : ℕ)
  deriving DecidableEq

def ResourceIntentChange.isDeleted : ResourceIntentChange → Bool
  | .deleted _ => true
  | _ => false

/-- The local variables of `_get_intent_changes`. As long as `isPartial`, the
overlay only has what the versions so far contain. -/
structure IntentOverlay where
  isPartial : Bool
  intent : Dict ResourceIdStr ResourceIntent
  resourceSets : Dict (Option String) (List ResourceIdStr)
  resourceRequires : Dict ResourceIdStr (List ResourceIdStr)
  intentChanges : Dict ResourceIdStr ResourceIntentChange
  undefined : List ResourceIdStr
  previousVersion : ℕ

namespace IntentOverlay

def init (s : ModelState) : IntentOverlay where
  isPartial := true
  intent := .empty
  resourceSets := .empty
  resourceRequires := .empty
  intentChanges := .empty
  undefined := []
  previousVersion := s.version

/-- The tracked resource set, or that of the model state where appropriate. -/
def resourceSet (c : IntentOverlay) (s : ModelState) (name : Option String) :
    List ResourceIdStr :=
  match c.resourceSets.get? name with
  | some rs => rs
  | none => if c.isPartial then s.resourceSets.getD name [] else []

/-- The known resources that are in scope for a version. -/
def knownResources (c : IntentOverlay) (s : ModelState) (model : ModelVersion) :
    List ResourceIdStr :=
  if model.isPartial then model.resourceSets.keys.flatMap (c.resourceSet s)
  else c.intent.keys ++ (if c.isPartial then s.intent.keys else [])

/-- Track the resource sets of a version. -/
def trackSets (c : IntentOverlay) (model : ModelVersion) : IntentOverlay :=
  if model.isPartial then { c with resourceSets := c.resourceSets.update model.resourceSets }
  else { c with isPartial := false, resourceSets := model.resourceSets }

/-- The resource is gone. -/
def delete (c : IntentOverlay) (r : ResourceIdStr) : IntentOverlay :=
  { c with
    intent := c.intent.del r
    resourceRequires := if r ∈ c.intent then c.resourceRequires.del r else c.resourceRequires
    intentChanges :=
      if (c.intentChanges.get? r).any (·.isDeleted) then c.intentChanges
      else c.intentChanges.set r (.deleted c.previousVersion)
    undefined := discard c.undefined r }

def setChange (c : IntentOverlay) (r : ResourceIdStr) (change : ResourceIntentChange) :
    IntentOverlay :=
  { c with intentChanges := c.intentChanges.set r change }

/-- Register new intent and requires, overriding previous information. -/
def enter (c : IntentOverlay) (model : ModelVersion) (r : ResourceIdStr)
    (intent : ResourceIntent) : IntentOverlay :=
  { c with
    intent := c.intent.set r intent
    resourceRequires := c.resourceRequires.set r (model.requires.getD r []) }

/-- Determine the change of intent relative to the managed version. A resource
that was deleted in a previously processed version is considered new. -/
def compareIntent (c : IntentOverlay) (s : ModelState) (r : ResourceIdStr)
    (intent : ResourceIntent) : Except PyError IntentOverlay :=
  if r ∉ s.intent
      ∨ (c.intentChanges.get? r).any (fun change => change.isDeleted || change = .new) then
    return c.setChange r .new
  else do
    let managed ← s.intent.item r
    return if intent.attributeHash ≠ managed.attributeHash then c.setChange r .updated else c

/-- Determine the new defined status; a change of it is a change of intent. -/
def compareDefined (c : IntentOverlay) (s : ModelState) (model : ModelVersion)
    (r : ResourceIdStr) : Except PyError IntentOverlay := do
  let isUndefined : Bool := r ∈ model.undefined
  let c := { c with
    undefined := if isUndefined then c.undefined.insert r else discard c.undefined r }
  if r ∈ c.intentChanges then return c
  let rs ← s.resourceState.item r
  return if isUndefined ≠ (rs.compliance = .undefined : Bool) then c.setChange r .updated else c

/-- One resource of a version. -/
def register (s : ModelState) (upToDate : List ResourceIdStr) (model : ModelVersion)
    (c : IntentOverlay) (e : ResourceIdStr × ResourceIntent) :
    Except PyError IntentOverlay := do
  let c := c.enter model e.1 e.2
  if e.1 ∈ upToDate then return c
  let c ← c.compareIntent s e.1 e.2
  c.compareDefined s model e.1

/-- One version. -/
def process (s : ModelState) (upToDate : List ResourceIdStr) (c : IntentOverlay)
    (model : ModelVersion) : Except PyError IntentOverlay := do
  let gone := (c.knownResources s model).removeAll model.resources.keys
  let c := gone.foldl delete (c.trackSets model)
  let c ← model.resources.items.foldlM (register s upToDate model) c
  return { c with previousVersion := model.version }

end IntentOverlay

/-- A consolidated overview of the changes to resource intent: the resulting
(possibly partial) model version, and the change of intent per resource. -/
def getIntentChanges (s : ModelState) (newVersions : List ModelVersion)
    (upToDate : List ResourceIdStr) :
    Except PyError (ModelVersion × Dict ResourceIdStr ResourceIntentChange) := do
  if newVersions = [] then throw .valueError
  let c ← newVersions.foldlM (IntentOverlay.process s upToDate) (.init s)
  return (⟨c.previousVersion, c.intent, c.resourceSets, c.resourceRequires, c.undefined,
    c.isPartial⟩, c.intentChanges)

/-! ## What the loop knows -/

/-- What a version is known to satisfy when it is read from the database: the
records are stored under their ids, and only resources of the version have
requires. -/
structure ModelVersion.WellFormed (model : ModelVersion) : Prop where
  ids : ∀ r i, model.resources.get? r = some i → i.resourceId = r
  requires : ∀ r ∈ model.requires, r ∈ model.resources
  undefined : ∀ r ∈ model.undefined, r ∈ model.resources

instance (model : ModelVersion) : Decidable model.WellFormed :=
  decidable_of_iff ((∀ e ∈ model.resources.items, e.2.resourceId = e.1)
      ∧ (∀ r ∈ model.requires.keys, r ∈ model.resources)
      ∧ ∀ r ∈ model.undefined, r ∈ model.resources)
    ⟨fun h => ⟨fun r i hi => h.1 (r, i) (Dict.get?_eq_some_iff.mp hi),
        fun r hr => h.2.1 r (Dict.mem_keys.mpr hr), h.2.2⟩,
      fun h => ⟨fun e he => h.ids e.1 e.2 (Dict.get?_eq_some_iff.mpr he),
        fun r hr => h.requires r (Dict.mem_keys.mp hr), h.undefined⟩⟩

namespace IntentOverlay

variable {s : ModelState} {c c' : IntentOverlay} {r x : ResourceIdStr}

/-- The overlay contains the resources that are new or updated, not the deleted
ones, and what it contains without a change is as in the model state. -/
structure Tracked (s : ModelState) (c : IntentOverlay) : Prop where
  requires : ∀ r, r ∈ c.resourceRequires ↔ r ∈ c.intent
  ids : ∀ r i, c.intent.get? r = some i → i.resourceId = r
  undefined : ∀ r ∈ c.undefined, r ∈ c.intent
  deleted : ∀ r v, c.intentChanges.get? r = some (.deleted v) → r ∉ c.intent
  new : ∀ r, c.intentChanges.get? r = some .new → r ∈ c.intent
  updated : ∀ r, c.intentChanges.get? r = some .updated → r ∈ c.intent ∧ r ∈ s.intent
  unchanged : ∀ r i, r ∉ c.intentChanges → c.intent.get? r = some i →
    ∃ managed, s.intent.get? r = some managed ∧ i.attributeHash = managed.attributeHash
      ∧ (r ∈ c.undefined ↔ s.IsUndefined r)

theorem tracked_init (s : ModelState) : Tracked s (init s) where
  requires := fun _ => Iff.rfl
  ids := fun _ _ h => by cases h
  undefined := fun _ h => absurd h List.not_mem_nil
  deleted := fun _ _ h => by cases h
  new := fun _ h => by cases h
  updated := fun _ h => by cases h
  unchanged := fun _ _ _ h => by cases h

theorem get?_delete_intentChanges (c : IntentOverlay) (r x : ResourceIdStr) :
    (x = r ∧ ∃ v, (c.delete r).intentChanges.get? x = some (.deleted v))
      ∨ (x ≠ r ∧ (c.delete r).intentChanges.get? x = c.intentChanges.get? x) := by
  unfold delete
  by_cases hx : x = r
  · subst hx
    refine Or.inl ⟨rfl, ?_⟩
    simp only
    split
    · rename_i h
      obtain ⟨change, hc, hd⟩ := Option.any_eq_true _ _ |>.mp h
      cases change with
      | deleted v => exact ⟨v, hc⟩
      | _ => cases hd
    · exact ⟨c.previousVersion, by rw [Dict.get?_set, if_pos rfl]⟩
  · refine Or.inr ⟨hx, ?_⟩
    simp only
    split
    · rfl
    · rw [Dict.get?_set, if_neg hx]

theorem Tracked.delete (h : Tracked s c) (r : ResourceIdStr) : Tracked s (c.delete r) := by
  have hintent : ∀ x, x ∈ (c.delete r).intent ↔ x ≠ r ∧ x ∈ c.intent := fun x => Dict.mem_del
  have hget : ∀ x i, (c.delete r).intent.get? x = some i → x ≠ r ∧ c.intent.get? x = some i := by
    intro x i hi
    rw [show (c.delete r).intent.get? x = (c.intent.del r).get? x from rfl, Dict.get?_del] at hi
    split at hi
    · cases hi
    · rename_i hx
      exact ⟨hx, hi⟩
  refine ⟨fun x => ?_, fun x i hi => h.ids x i (hget x i hi).2, fun x hx => ?_,
    fun x v hv => ?_, fun x hv => ?_, fun x hv => ?_, fun x i hn hi => ?_⟩
  · rw [hintent, ← h.requires]
    show (x ∈ if r ∈ c.intent then c.resourceRequires.del r else c.resourceRequires) ↔ _
    split
    · exact Dict.mem_del
    · rename_i hr
      refine ⟨fun hx => ⟨?_, hx⟩, And.right⟩
      rintro rfl
      exact hr ((h.requires x).mp hx)
  · obtain ⟨hx, hxr⟩ := mem_discard.mp hx
    exact (hintent x).mpr ⟨hxr, h.undefined x hx⟩
  · rw [hintent]
    rcases get?_delete_intentChanges c r x with ⟨rfl, -⟩ | ⟨-, he⟩
    · exact fun hx => hx.1 rfl
    · exact fun hx => h.deleted x v (he ▸ hv) hx.2
  · rcases get?_delete_intentChanges c r x with ⟨-, v, he⟩ | ⟨hxr, he⟩
    · rw [he] at hv
      cases hv
    · exact (hintent x).mpr ⟨hxr, h.new x (he ▸ hv)⟩
  · rcases get?_delete_intentChanges c r x with ⟨-, v, he⟩ | ⟨hxr, he⟩
    · rw [he] at hv
      cases hv
    · obtain ⟨hx, hs⟩ := h.updated x (he ▸ hv)
      exact ⟨(hintent x).mpr ⟨hxr, hx⟩, hs⟩
  · obtain ⟨hxr, hi⟩ := hget x i hi
    rcases get?_delete_intentChanges c r x with ⟨rfl, -⟩ | ⟨-, he⟩
    · exact absurd rfl hxr
    · have hnc : x ∉ c.intentChanges := Dict.not_mem_iff.mpr (he ▸ Dict.not_mem_iff.mp hn)
      obtain ⟨m, hm, hh, hu⟩ := h.unchanged x i hnc hi
      refine ⟨m, hm, hh, Iff.trans ?_ hu⟩
      show x ∈ discard c.undefined r ↔ x ∈ c.undefined
      simp [hxr]

/-- How the change of a resource that is registered is determined. -/
def registeredChange (s : ModelState) (c : IntentOverlay) (model : ModelVersion)
    (r : ResourceIdStr) (i : ResourceIntent) : Option ResourceIntentChange :=
  if r ∉ s.intent
      ∨ (c.intentChanges.get? r).any (fun change => change.isDeleted || change = .new)
  then some .new
  else if (s.intent.get? r).any (fun managed => i.attributeHash ≠ managed.attributeHash)
  then some .updated
  else if r ∈ c.intentChanges then c.intentChanges.get? r
  else if r ∈ model.undefined ↔ s.IsUndefined r then none
  else some .updated

/-- What registering a resource does. -/
structure Registered (s : ModelState) (model : ModelVersion) (c : IntentOverlay)
    (r : ResourceIdStr) (i : ResourceIntent) (c' : IntentOverlay) : Prop where
  isPartial : c'.isPartial = c.isPartial
  resourceSets : c'.resourceSets = c.resourceSets
  previousVersion : c'.previousVersion = c.previousVersion
  intent : c'.intent = c.intent.set r i
  resourceRequires : c'.resourceRequires = c.resourceRequires.set r (model.requires.getD r [])
  undefined : ∀ x, x ∈ c'.undefined ↔
    if x = r then r ∈ model.undefined else x ∈ c.undefined
  intentChanges : ∀ x, c'.intentChanges.get? x =
    if x = r then registeredChange s c model r i else c.intentChanges.get? x

theorem register_ok (hv : s.Valid) (model : ModelVersion) (c : IntentOverlay)
    (r : ResourceIdStr) (intent : ResourceIntent) :
    ∃ c', register s [] model c (r, intent) = .ok c' ∧ Registered s model c r intent c' := by
  have hundef : ∀ x, (x ∈ if decide (r ∈ model.undefined) = true then c.undefined.insert r
      else discard c.undefined r) ↔ if x = r then r ∈ model.undefined else x ∈ c.undefined := by
    intro x
    by_cases hr : r ∈ model.undefined <;> by_cases hx : x = r <;> simp [hr, hx]
  have hset : ∀ change x, (c.intentChanges.set r change).get? x =
      if x = r then some change else c.intentChanges.get? x :=
    fun change x => Dict.get?_set _ _ _ _
  unfold register
  simp only [List.not_mem_nil, if_false]
  unfold compareIntent
  by_cases hnew : r ∉ s.intent
      ∨ (c.intentChanges.get? r).any (fun change => change.isDeleted || change = .new)
  · -- new, or deleted and back again
    refine ⟨{ (c.enter model r intent).setChange r .new with
      undefined := if decide (r ∈ model.undefined) = true then c.undefined.insert r
        else discard c.undefined r }, ?_, ?_⟩
    · simp only [show (c.enter model r intent).intentChanges = c.intentChanges from rfl, hnew,
        if_true, pure_eq_ok, ok_bind, compareDefined, setChange, Dict.mem_set, true_or]
      rfl
    · refine ⟨rfl, rfl, rfl, rfl, rfl, hundef, fun x => ?_⟩
      rw [registeredChange, if_pos hnew]
      exact hset .new x
  obtain ⟨managed, hm⟩ := Dict.mem_iff.mp (not_not.mp fun h => hnew (Or.inl h))
  simp only [show (c.enter model r intent).intentChanges = c.intentChanges from rfl, hnew,
    if_false, Dict.item_of_get? hm, ok_bind, pure_eq_ok]
  have hany : (s.intent.get? r).any (fun managed =>
      decide (intent.attributeHash ≠ managed.attributeHash)) = true ↔
        intent.attributeHash ≠ managed.attributeHash := by
    rw [hm]
    exact decide_eq_true_iff
  by_cases hhash : intent.attributeHash ≠ managed.attributeHash
  · refine ⟨{ (c.enter model r intent).setChange r .updated with
      undefined := if decide (r ∈ model.undefined) = true then c.undefined.insert r
        else discard c.undefined r }, ?_, ?_⟩
    · simp only [hhash, if_true, compareDefined, setChange, Dict.mem_set, true_or, pure_eq_ok,
        ne_eq, not_false_eq_true]
      rfl
    · refine ⟨rfl, rfl, rfl, rfl, rfl, hundef, fun x => ?_⟩
      rw [registeredChange, if_neg hnew, if_pos (hany.mpr hhash)]
      exact hset .updated x
  rw [if_neg hhash]
  have hreg : registeredChange s c model r intent =
      if r ∈ c.intentChanges then c.intentChanges.get? r
      else if r ∈ model.undefined ↔ s.IsUndefined r then none else some .updated := by
    rw [registeredChange, if_neg hnew, if_neg (mt hany.mp hhash)]
  unfold compareDefined
  simp only [show (c.enter model r intent).intentChanges = c.intentChanges from rfl]
  by_cases hchanged : r ∈ c.intentChanges
  · refine ⟨{ c.enter model r intent with
      undefined := if decide (r ∈ model.undefined) = true then c.undefined.insert r
        else discard c.undefined r }, ?_, ?_⟩
    · rw [if_pos hchanged]
      rfl
    · refine ⟨rfl, rfl, rfl, rfl, rfl, hundef, fun x => ?_⟩
      rw [hreg, if_pos hchanged]
      show c.intentChanges.get? x = _
      by_cases hx : x = r
      · rw [if_pos hx, hx]
      · rw [if_neg hx]
  · obtain ⟨rs, hrs⟩ := Dict.mem_iff.mp ((hv.intent r).mp (Dict.mem_of_get? hm))
    have hisu : s.IsUndefined r ↔ rs.compliance = .undefined := by
      simp [ModelState.IsUndefined, ModelState.compliance?_of_get? hrs]
    rw [if_neg hchanged, Dict.item_of_get? hrs, ok_bind]
    by_cases hsame : r ∈ model.undefined ↔ s.IsUndefined r
    · refine ⟨{ c.enter model r intent with
        undefined := if decide (r ∈ model.undefined) = true then c.undefined.insert r
          else discard c.undefined r }, ?_, ?_⟩
      · rw [if_neg (by rw [hisu] at hsame; simp [hsame])]
        rfl
      · refine ⟨rfl, rfl, rfl, rfl, rfl, hundef, fun x => ?_⟩
        rw [hreg, if_neg hchanged, if_pos hsame]
        show c.intentChanges.get? x = _
        by_cases hx : x = r
        · rw [if_pos hx, hx]
          exact Dict.not_mem_iff.mp hchanged
        · rw [if_neg hx]
    · refine ⟨{ (c.enter model r intent).setChange r .updated with
        undefined := if decide (r ∈ model.undefined) = true then c.undefined.insert r
          else discard c.undefined r }, ?_, ?_⟩
      · rw [if_pos (by rw [hisu] at hsame; simpa using hsame)]
        rfl
      · refine ⟨rfl, rfl, rfl, rfl, rfl, hundef, fun x => ?_⟩
        rw [hreg, if_neg hchanged, if_neg hsame]
        exact hset .updated x

/-- A registered resource that has no change is as in the model state. -/
theorem registeredChange_eq_none {model : ModelVersion} {intent : ResourceIntent}
    (h : registeredChange s c model r intent = none) :
    ∃ managed, s.intent.get? r = some managed
      ∧ intent.attributeHash = managed.attributeHash
      ∧ (r ∈ model.undefined ↔ s.IsUndefined r) ∧ r ∉ c.intentChanges := by
  unfold registeredChange at h
  split at h
  · cases h
  rename_i hnew
  split at h
  · cases h
  rename_i hhash
  obtain ⟨managed, hm⟩ := Dict.mem_iff.mp (not_not.mp fun h => hnew (Or.inl h))
  rw [hm] at hhash
  split at h
  · rename_i hc
    exact absurd h (by simpa [Dict.mem_iff, Option.eq_none_iff_forall_ne_some] using hc)
  rename_i hc
  split at h
  · rename_i hsame
    exact ⟨managed, hm, by simpa using hhash, hsame, hc⟩
  · cases h

/-- A registered resource is never deleted, and updated only if it is managed. -/
theorem registeredChange_spec {model : ModelVersion} {intent : ResourceIntent}
    {change : ResourceIntentChange}
    (h : registeredChange s c model r intent = some change) :
    change = .new ∨ (change = .updated ∧ r ∈ s.intent) := by
  unfold registeredChange at h
  split at h
  · exact Or.inl (Option.some.inj h).symm
  rename_i hnew
  obtain ⟨hmanaged, hkind⟩ := not_or.mp hnew
  rw [not_not] at hmanaged
  split at h
  · exact Or.inr ⟨(Option.some.inj h).symm, hmanaged⟩
  split at h
  · rw [h] at hkind
    cases change with
    | new => exact Or.inl rfl
    | updated => exact Or.inr ⟨rfl, hmanaged⟩
    | deleted v => exact absurd rfl hkind
  split at h
  · cases h
  · exact Or.inr ⟨(Option.some.inj h).symm, hmanaged⟩

theorem Tracked.register {model : ModelVersion} {intent : ResourceIntent}
    (h : Tracked s c) (hid : intent.resourceId = r) (hr : Registered s model c r intent c') :
    Tracked s c' := by
  have hintent : ∀ x, x ∈ c'.intent ↔ x = r ∨ x ∈ c.intent := fun x => by
    rw [hr.intent]
    exact Dict.mem_set
  refine ⟨fun x => ?_, fun x i hi => ?_, fun x hx => ?_, fun x v hv => ?_, fun x hv => ?_,
    fun x hv => ?_, fun x i hn hi => ?_⟩
  · rw [hintent, hr.resourceRequires, Dict.mem_set, h.requires]
  · rw [hr.intent, Dict.get?_set] at hi
    split at hi
    · rename_i hx
      obtain rfl := Option.some.inj hi
      exact hid.trans hx.symm
    · exact h.ids x i hi
  · rw [hr.undefined] at hx
    rw [hintent]
    split at hx
    · exact Or.inl ‹_›
    · exact Or.inr (h.undefined x hx)
  · rw [hr.intentChanges] at hv
    rw [hintent]
    split at hv
    · rcases registeredChange_spec hv with he | ⟨he, -⟩ <;> cases he
    · rename_i hx
      exact fun hm => h.deleted x v hv (hm.resolve_left hx)
  · rw [hr.intentChanges] at hv
    rw [hintent]
    split at hv
    · exact Or.inl ‹_›
    · exact Or.inr (h.new x hv)
  · rw [hr.intentChanges] at hv
    rw [hintent]
    split at hv
    · rename_i hx
      rcases registeredChange_spec hv with he | ⟨-, hs⟩
      · cases he
      · exact ⟨Or.inl hx, hx ▸ hs⟩
    · exact (h.updated x hv).imp_left Or.inr
  · rw [Dict.not_mem_iff, hr.intentChanges] at hn
    rw [hr.intent, Dict.get?_set] at hi
    rw [hr.undefined]
    by_cases hx : x = r
    · subst hx
      rw [if_pos rfl] at hn hi ⊢
      obtain rfl := Option.some.inj hi
      obtain ⟨managed, hm, hh, hu, -⟩ := registeredChange_eq_none hn
      exact ⟨managed, hm, hh, hu⟩
    · rw [if_neg hx] at hn hi ⊢
      exact h.unchanged x i (Dict.not_mem_iff.mpr hn) hi

/-- Only the tracked sets differ. -/
theorem Tracked.of_eq (h : Tracked s c) (hi : c'.intent = c.intent)
    (hq : c'.resourceRequires = c.resourceRequires) (hc : c'.intentChanges = c.intentChanges)
    (hu : c'.undefined = c.undefined) : Tracked s c' := by
  refine ⟨?_, ?_, ?_, ?_, ?_, ?_, ?_⟩ <;> rw [hi] <;> try rw [hc]
  · rw [hq]; exact h.requires
  · exact h.ids
  · rw [hu]; exact h.undefined
  · exact h.deleted
  · exact h.new
  · exact h.updated
  · rw [hu]; exact h.unchanged

/-- One version keeps track. -/
theorem Tracked.process {model : ModelVersion} (hv : s.Valid) (h : Tracked s c)
    (hm : model.WellFormed) :
    ∃ c', IntentOverlay.process s [] c model = .ok c' ∧ Tracked s c' := by
  have hsets : Tracked s (c.trackSets model) := by
    unfold trackSets
    split
    · exact h.of_eq rfl rfl rfl rfl
    · exact h.of_eq rfl rfl rfl rfl
  have hgone := foldl_induct (f := IntentOverlay.delete) (I := fun _ c => Tracked s c)
    (l := (c.knownResources s model).removeAll model.resources.keys)
    (fun _ x _ _ _ hI => hI.delete x) hsets
  obtain ⟨c₂, hc₂, h₂⟩ := foldlM_ok (ε := PyError) (f := IntentOverlay.register s [] model)
    (I := fun _ c => Tracked s c) (l := model.resources.items)
    (fun pre e post c hl hI => by
      obtain ⟨c', hc', hr⟩ := register_ok hv model c e.1 e.2
      exact ⟨c', hc', hI.register (hm.ids e.1 e.2 (Dict.get?_eq_some_iff.mpr (by simp [hl]))) hr⟩)
    hgone
  refine ⟨{ c₂ with previousVersion := model.version }, ?_, h₂.of_eq rfl rfl rfl rfl⟩
  rw [IntentOverlay.process]
  exact bind_eq_ok.mpr ⟨c₂, hc₂, rfl⟩

end IntentOverlay

/-- What the consolidated changes satisfy, relative to the model state. -/
structure IntentChanged (s : ModelState) (model : ModelVersion)
    (changes : Dict ResourceIdStr ResourceIntentChange) : Prop where
  requires : ∀ r, r ∈ model.requires ↔ r ∈ model.resources
  ids : ∀ r i, model.resources.get? r = some i → i.resourceId = r
  undefined : ∀ r ∈ model.undefined, r ∈ model.resources
  deleted : ∀ r v, changes.get? r = some (.deleted v) → r ∉ model.resources
  new : ∀ r, changes.get? r = some .new → r ∈ model.resources
  updated : ∀ r, changes.get? r = some .updated → r ∈ model.resources ∧ r ∈ s.intent
  unchanged : ∀ r i, r ∉ changes → model.resources.get? r = some i →
    ∃ managed, s.intent.get? r = some managed ∧ i.attributeHash = managed.attributeHash
      ∧ (r ∈ model.undefined ↔ s.IsUndefined r)

/-- **The changes can always be consolidated**, for every non-empty sequence of
well-formed versions. -/
theorem getIntentChanges_ok {s : ModelState} {versions : List ModelVersion} (hv : s.Valid)
    (hne : versions ≠ []) (hwf : ∀ v ∈ versions, v.WellFormed) :
    ∃ model changes, getIntentChanges s versions [] = .ok (model, changes)
      ∧ IntentChanged s model changes := by
  obtain ⟨c, hc, h⟩ := foldlM_ok (ε := PyError) (f := IntentOverlay.process s [])
    (I := fun _ c => c.Tracked s) (l := versions)
    (fun pre v post c hl hI => hI.process hv (hwf v (by simp [hl]))) (IntentOverlay.tracked_init s)
  refine ⟨⟨c.previousVersion, c.intent, c.resourceSets, c.resourceRequires, c.undefined,
    c.isPartial⟩, c.intentChanges, ?_, h.requires, h.ids, h.undefined, h.deleted, h.new,
    h.updated, h.unchanged⟩
  rw [getIntentChanges, if_neg hne]
  exact bind_eq_ok.mpr ⟨c, hc, rfl⟩

namespace IntentOverlay

/-- A version brings no resources into the overlay but its own. -/
theorem process_mem {s : ModelState} (hv : s.Valid) {model : ModelVersion}
    {c c' : IntentOverlay} (h : IntentOverlay.process s [] c model = .ok c') :
    ∀ r ∈ c'.intent, r ∈ c.intent ∨ r ∈ model.resources := by
  have htrack : (c.trackSets model).intent = c.intent := by
    unfold trackSets
    split <;> rfl
  have hgone := foldl_induct (f := IntentOverlay.delete)
    (I := fun _ c₁ => ∀ r ∈ c₁.intent, r ∈ c.intent)
    (l := (c.knownResources s model).removeAll model.resources.keys) (s := c.trackSets model)
    (fun _ x _ c₁ _ hI r hr => hI r (Dict.mem_del.mp hr).2) (fun r hr => htrack ▸ hr)
  obtain ⟨c₂, hc₂, hok⟩ := bind_eq_ok.mp h
  obtain rfl := Except.ok.inj hok
  have hall : ∀ r ∈ c₂.intent, r ∈ c.intent ∨ r ∈ model.resources := by
    refine foldlM_invariant (I := fun _ (c₁ : IntentOverlay) => ∀ r ∈ c₁.intent,
      r ∈ c.intent ∨ r ∈ model.resources) (fun pre e post c₁ c₃ hl hI hreg r hr => ?_)
      (fun r hr => Or.inl (hgone r hr)) hc₂
    obtain ⟨c₄, hc₄, hspec⟩ := register_ok hv model c₁ e.1 e.2
    obtain rfl := Except.ok.inj (hc₄.symm.trans hreg)
    rw [hspec.intent] at hr
    rcases Dict.mem_set.mp hr with rfl | hr
    · refine Or.inr (Dict.mem_of_get? (Dict.get?_eq_some_iff.mpr (?_ : (e.1, e.2) ∈ _)))
      rw [hl]
      exact List.mem_append_right _ (List.mem_cons_self ..)
    · exact hI r hr
  exact hall

end IntentOverlay

/-- The resources of the consolidated version are resources of the versions. -/
theorem getIntentChanges_mem {s : ModelState} {versions : List ModelVersion} (hv : s.Valid)
    {model : ModelVersion} {changes : Dict ResourceIdStr ResourceIntentChange}
    (h : getIntentChanges s versions [] = .ok (model, changes)) :
    ∀ r ∈ model.resources, ∃ v ∈ versions, r ∈ v.resources := by
  rw [getIntentChanges] at h
  split at h
  · cases h
  · obtain ⟨c, hc, hok⟩ := bind_eq_ok.mp h
    obtain ⟨rfl, -⟩ := Prod.mk.inj (Except.ok.inj hok)
    refine foldlM_invariant (I := fun (pre : List ModelVersion) (c : IntentOverlay) =>
      ∀ r ∈ c.intent, ∃ v ∈ pre, r ∈ v.resources) (fun pre v post c₁ c₂ _ hI hproc r hr => ?_)
      (fun r hr => absurd hr (Dict.not_mem_empty r)) hc
    rcases IntentOverlay.process_mem hv hproc r hr with hr | hr
    · obtain ⟨v', hv', hr⟩ := hI r hr
      exact ⟨v', List.mem_append_left _ hv', hr⟩
    · exact ⟨v, List.mem_append_right _ (List.mem_singleton.mpr rfl), hr⟩

end Inmanta
