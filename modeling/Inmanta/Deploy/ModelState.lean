import Inmanta.Deploy.ResourceState
import Inmanta.Util.BidirectionalManyMapping

/-!
# The model state

`ModelState` holds the intent and the state of every managed resource,
the requires relation between them, and the set of dirty resources, with
the operations that register a change of one resource: `updateResource`,
`updateRequires` and `drop`. The propagation of the blocked status along
the requires relation is in `Inmanta.Deploy.TransitiveState`.

An operation fails exactly where the source raises; `ModelState.Valid`
is the part of the documented invariant ("all resources in the current
model, and only those, exist in the resources and state mappings") that
rules the failures out.
-/

namespace Inmanta

abbrev RequiresProvidesMapping := BidirectionalManyMapping ResourceIdStr ResourceIdStr

/-- The requires view: the direct requirements of a resource. -/
def RequiresProvidesMapping.requires (m : RequiresProvidesMapping) (r : ResourceIdStr) :
    List ResourceIdStr :=
  m.get r

/-- The provides view: the direct dependants of a resource. -/
def RequiresProvidesMapping.provides (m : RequiresProvidesMapping) (r : ResourceIdStr) :
    List ResourceIdStr :=
  m.getReverse r

@[simp] theorem RequiresProvidesMapping.mem_provides {m : RequiresProvidesMapping}
    {r d : ResourceIdStr} :
    r ∈ RequiresProvidesMapping.provides m d ↔ d ∈ RequiresProvidesMapping.requires m r :=
  BidirectionalManyMapping.mem_getReverse

structure ModelState where
  version : ℕ
  intent : Dict ResourceIdStr ResourceIntent
  resourceSets : Dict (Option String) (List ResourceIdStr)
  requires : RequiresProvidesMapping
  resourceState : Dict ResourceIdStr ResourceState
  dirty : List ResourceIdStr
  resourcesByAgent : Dict String (List ResourceIdStr)

namespace ModelState

def empty : ModelState where
  version := 0
  intent := .empty
  resourceSets := .empty
  requires := .empty
  resourceState := .empty
  dirty := []
  resourcesByAgent := .empty

/-- Direct requirements in the current model. -/
def requiresOf (s : ModelState) (r : ResourceIdStr) : List ResourceIdStr :=
  RequiresProvidesMapping.requires s.requires r

/-- Direct dependants in the current model. -/
def providesOf (s : ModelState) (r : ResourceIdStr) : List ResourceIdStr :=
  RequiresProvidesMapping.provides s.requires r

@[simp] theorem mem_providesOf {s : ModelState} {r d : ResourceIdStr} :
    r ∈ s.providesOf d ↔ d ∈ s.requiresOf r :=
  RequiresProvidesMapping.mem_provides

/-- The blocked status of a managed resource. -/
def blocked? (s : ModelState) (r : ResourceIdStr) : Option Blocked :=
  (s.resourceState.get? r).map (·.blocked)

/-- The compliance of a managed resource. -/
def compliance? (s : ModelState) (r : ResourceIdStr) : Option Compliance :=
  (s.resourceState.get? r).map (·.compliance)

def IsBlocked (s : ModelState) (r : ResourceIdStr) : Prop :=
  s.blocked? r = some .blocked

def IsUndefined (s : ModelState) (r : ResourceIdStr) : Prop :=
  s.compliance? r = some .undefined

instance (s : ModelState) (r : ResourceIdStr) : Decidable (s.IsBlocked r) :=
  inferInstanceAs (Decidable (_ = _))

instance (s : ModelState) (r : ResourceIdStr) : Decidable (s.IsUndefined r) :=
  inferInstanceAs (Decidable (_ = _))

def setState (s : ModelState) (r : ResourceIdStr) (rs : ResourceState) : ModelState :=
  { s with resourceState := s.resourceState.set r rs }

def setBlocked (s : ModelState) (r : ResourceIdStr) (rs : ResourceState) (b : Blocked) :
    ModelState :=
  s.setState r { rs with blocked := b }

theorem mem_resourceState_of_blocked? {s : ModelState} {r : ResourceIdStr} {b : Blocked} (h : s.blocked? r = some b) :
    r ∈ s.resourceState := by
  obtain ⟨rs, hrs, -⟩ := Option.map_eq_some_iff.mp h
  exact Dict.mem_of_get? hrs

theorem blocked?_of_get? {s : ModelState} {r : ResourceIdStr} {rs : ResourceState} (h : s.resourceState.get? r = some rs) :
    s.blocked? r = some rs.blocked := by
  simp [blocked?, h]

theorem compliance?_of_get? {s : ModelState} {r : ResourceIdStr} {rs : ResourceState} (h : s.resourceState.get? r = some rs) :
    s.compliance? r = some rs.compliance := by
  simp [compliance?, h]

@[simp] theorem blocked?_setBlocked (s : ModelState) (r : ResourceIdStr) (rs : ResourceState)
    (b : Blocked) (x : ResourceIdStr) :
    (s.setBlocked r rs b).blocked? x = if x = r then some b else s.blocked? x := by
  by_cases h : x = r <;> simp [blocked?, setBlocked, setState, h]

def addDirty (s : ModelState) (r : ResourceIdStr) : ModelState :=
  { s with dirty := s.dirty.insert r }

def discardDirty (s : ModelState) (r : ResourceIdStr) : ModelState :=
  { s with dirty := discard s.dirty r }

/-- Remove a resource from the per-agent grouping, which drops empty groups. -/
def removeFromAgent (s : ModelState) (agent : String) (r : ResourceIdStr) : ModelState :=
  let rest := discard (s.resourcesByAgent.getD agent []) r
  { s with
    resourcesByAgent :=
      if rest = [] then s.resourcesByAgent.del agent else s.resourcesByAgent.set agent rest }

def addToAgent (s : ModelState) (agent : String) (r : ResourceIdStr) : ModelState :=
  { s with
    resourcesByAgent :=
      s.resourcesByAgent.set agent ((s.resourcesByAgent.getD agent []).insert r) }

theorem agentResources_removeFromAgent (s : ModelState) (agent : String) (r : ResourceIdStr)
    (a : String) (x : ResourceIdStr) :
    x ∈ (s.removeFromAgent agent r).resourcesByAgent.getD a [] ↔
      x ∈ s.resourcesByAgent.getD a [] ∧ ¬ (x = r ∧ a = agent) := by
  have hrest : ∀ x, x ∈ discard (s.resourcesByAgent.getD agent []) r ↔
      x ∈ s.resourcesByAgent.getD agent [] ∧ x ≠ r := fun x => mem_discard
  unfold removeFromAgent
  by_cases ha : a = agent
  · subst ha
    simp only [and_true]
    split
    · rename_i hnil
      rw [Dict.getD_del, if_pos rfl, ← hrest, hnil]
    · rw [Dict.getD_set, if_pos rfl, hrest]
  · simp only [ha, and_false, not_false_eq_true, and_true]
    split
    · rw [Dict.getD_del, if_neg ha]
    · rw [Dict.getD_set, if_neg ha]

theorem agentResources_addToAgent (s : ModelState) (agent : String) (r : ResourceIdStr)
    (a : String) (x : ResourceIdStr) :
    x ∈ (s.addToAgent agent r).resourcesByAgent.getD a [] ↔
      (x = r ∧ a = agent) ∨ x ∈ s.resourcesByAgent.getD a [] := by
  rw [addToAgent, Dict.getD_set]
  by_cases ha : a = agent
  · rw [if_pos ha, List.mem_insert_iff, ha, and_iff_left rfl]
  · simp [ha]

/-- Remove a resource from both directions of the requires relation. -/
def dropRequires (s : ModelState) (r : ResourceIdStr) : ModelState :=
  let trimmed : RequiresProvidesMapping := s.requires.delIfPresent r
  { s with requires := (trimmed.reverseMapping.delIfPresent r).reverseMapping }

/-- Completely remove a resource from the resource state. -/
def drop (s : ModelState) (r : ResourceIdStr) : Except PyError ModelState := do
  let intent ← s.intent.item r
  let _ ← s.resourceState.item r
  let s := { s with intent := s.intent.del r, resourceState := s.resourceState.del r }
  return ((s.dropRequires r).removeFromAgent intent.resourceId.agentName r).discardDirty r

/-- The state a resource is created with. -/
def createdState (undefined knownCompliant : Bool) (lastDeployed : Option Time) :
    ResourceState where
  compliance :=
    if knownCompliant then .compliant else if undefined then .undefined else .hasUpdate
  lastHandlerRun := if knownCompliant then .successful else .new
  blocked := if undefined then .blocked else .notBlocked
  lastDeployed := lastDeployed
  lastHandlerRunCompliant := if knownCompliant then some true else none

/-- The state of a known resource after a change of intent. A resource that
is blocked stays blocked here: whether it still has to be is a transitive
property, see `Inmanta.Deploy.TransitiveState`. -/
def refreshedState (rs : ResourceState) (undefined knownCompliant : Bool) : ResourceState where
  compliance :=
    if knownCompliant then .compliant else if undefined then .undefined else .hasUpdate
  lastHandlerRun := if knownCompliant then .successful else rs.lastHandlerRun
  blocked :=
    if rs.blocked = .blocked then .blocked
    else if undefined then .blocked else .notBlocked
  lastDeployed := rs.lastDeployed
  lastHandlerRunCompliant := rs.lastHandlerRunCompliant

/-- Create the entry of a resource that is not known (any more). -/
def create (s : ModelState) (intent : ResourceIntent) (undefined knownCompliant : Bool)
    (lastDeployed : Option Time) : ModelState :=
  let r := intent.resourceId
  let s := s.setState r (createdState undefined knownCompliant lastDeployed)
  let s := if r ∈ s.requires.primary then s
    else { s with requires := s.requires.setItem r [] }
  s.addToAgent r.agentName r

/-- Create the entry of a resource, or refresh the one that is there. A known
resource that is considered new is dropped first. -/
def enter (s : ModelState) (intent : ResourceIntent)
    (forceNew undefined knownCompliant : Bool) (lastDeployed : Option Time) :
    Except PyError ModelState := do
  let r := intent.resourceId
  let alreadyKnown : Bool := r ∈ s.intent
  let s ← if forceNew && alreadyKnown then s.drop r else pure s
  if !alreadyKnown || forceNew then
    return s.create intent undefined knownCompliant lastDeployed
  else
    let rs ← s.resourceState.item r
    return s.setState r (refreshedState rs undefined knownCompliant)

/-- Register a change of intent for a resource. -/
def updateResource (s : ModelState) (intent : ResourceIntent)
    (forceNew undefined knownCompliant : Bool) (lastDeployed : Option Time) :
    Except PyError ModelState := do
  if undefined && knownCompliant then throw .valueError
  let r := intent.resourceId
  let s ← s.enter intent forceNew undefined knownCompliant lastDeployed
  let s := { s with intent := s.intent.set r intent }
  let rs ← s.resourceState.item r
  return if !knownCompliant && rs.blocked = .notBlocked then s.addDirty r else s.discardDirty r

/-- At least one dependency was not successful in its last deploy, if any. -/
def shouldSkipForDependencies (s : ModelState) (r : ResourceIdStr) : Except PyError Bool :=
  (s.requiresOf r).foldlM (fun found d => do
    if found then return true
    let rs ← s.resourceState.item d
    return rs.lastHandlerRunCompliant = some false) false

/-- Update the requires relation for a resource. A temporarily blocked
resource that drops a requirement gets another chance if none of the
remaining ones is known to be bad. -/
def updateRequires (s : ModelState) (r : ResourceIdStr) (requires : List ResourceIdStr) :
    Except PyError ModelState := do
  let rs ← s.resourceState.item r
  let old ← s.requires.primary.item r
  let checkDependencies : Bool :=
    rs.blocked = .temporarilyBlocked && old.removeAll requires ≠ []
  let s := { s with requires := s.requires.setItem r requires }
  if checkDependencies then
    let skip ← s.shouldSkipForDependencies r
    return if skip then s else (s.setBlocked r rs .notBlocked).addDirty r
  else return s

/-! ## The documented invariant -/

/-- The requires relation only mentions managed resources. -/
def Closed (s : ModelState) : Prop :=
  ∀ r d, d ∈ s.requiresOf r → r ∈ s.resourceState ∧ d ∈ s.resourceState

/-- The resources grouped under an agent. -/
def agentResources (s : ModelState) (agent : String) : List ResourceIdStr :=
  s.resourcesByAgent.getD agent []

/-- "All resources in the current model, and only those, exist in the resources
and state mappings", in the requires mapping and in the group of their agent. -/
structure Valid (s : ModelState) : Prop where
  intent : ∀ r, r ∈ s.intent ↔ r ∈ s.resourceState
  intentId : ∀ r i, s.intent.get? r = some i → i.resourceId = r
  requires : ∀ r, r ∈ s.requires.primary ↔ r ∈ s.resourceState
  agents : ∀ a r, r ∈ s.agentResources a ↔ r ∈ s.resourceState ∧ a = r.agentName
  closed : s.Closed

theorem Valid.empty : ModelState.empty.Valid where
  intent := fun _ => by simp [ModelState.empty]
  intentId := fun _ _ h => by simp [ModelState.empty] at h
  requires := fun _ => by simp [ModelState.empty, BidirectionalManyMapping.empty]
  agents := fun _ _ => by simp [ModelState.empty, agentResources, Dict.getD]
  closed := fun _ _ h => by
    simp [ModelState.empty, requiresOf, RequiresProvidesMapping.requires] at h

end ModelState

end Inmanta
