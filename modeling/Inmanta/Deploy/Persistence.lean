import Inmanta.Deploy.Scheduler

/-!
# The persisted resource state

The scheduler keeps one row per resource in the table of persistent
resource states. The compliance of a resource is not stored: it is
derived from columns that different code paths write, `updateResourceIntent`
and `markAsOrphan` when a version was processed, `sendDeployDone` when a
deploy has finished. Only the columns that `getComplianceStatus` and
`createFromDb` look at are modelled.
-/

namespace Inmanta

/-- A row of `resource_persistent_state`. -/
structure ResourcePersistentState where
  currentIntentAttributeHash : Option String
  lastDeployedAttributeHash : Option String
  isUndefined : Bool
  orphanedAfter : Option ℕ
  lastHandlerRun : HandlerResult
  lastHandlerRunCompliant : Option Bool
  lastHandlerRunAt : Option Time
  lastSuccess : Option Time
  lastProducedEvents : Option Time
  blocked : Blocked
  deriving DecidableEq

abbrev PersistentStates := Dict ResourceIdStr ResourcePersistentState

namespace ResourcePersistentState

/-- The compliance associated with a row, `none` for orphaned resources. -/
def complianceStatus (row : ResourcePersistentState) : Option Compliance :=
  getComplianceStatus row.orphanedAfter row.isUndefined row.lastDeployedAttributeHash
    row.currentIntentAttributeHash row.lastHandlerRunCompliant

/-- The compliance a row is restored with by `ModelState.create_from_db`, `none`
for orphaned resources, which are excluded from the model. -/
def restoredCompliance (row : ResourcePersistentState) : Option Compliance :=
  if row.orphanedAfter.isSome then none
  else if row.isUndefined then some .undefined
  else if row.lastHandlerRun = .new ∨ row.lastDeployedAttributeHash = none
      ∨ row.currentIntentAttributeHash ≠ row.lastDeployedAttributeHash then some .hasUpdate
  else if row.lastHandlerRunCompliant = some true then some .compliant
  else some .nonCompliant

/-- The row that is inserted when a resource is first released. -/
def populated (intent : ResourceIntent) (undefined : Bool) : ResourcePersistentState where
  currentIntentAttributeHash := some intent.attributeHash
  lastDeployedAttributeHash := none
  isUndefined := undefined
  orphanedAfter := none
  lastHandlerRun := .new
  lastHandlerRunCompliant := none
  lastHandlerRunAt := none
  lastSuccess := none
  lastProducedEvents := none
  blocked := if undefined then .blocked else .notBlocked

end ResourcePersistentState

namespace PersistentStates

/-- `UPDATE ... WHERE resource_id=...`. -/
def update (rows : PersistentStates) (r : ResourceIdStr)
    (f : ResourcePersistentState → ResourcePersistentState) : PersistentStates :=
  match rows.get? r with
  | none => rows
  | some row => rows.set r (f row)

/-- Make sure that there is a row for each resource of a version. -/
def populateForVersion (rows : PersistentStates) (model : ModelVersion) : PersistentStates :=
  model.resources.items.foldl (fun rows e =>
    if e.1 ∈ rows then rows
    else rows.set e.1 (.populated e.2 (e.1 ∈ model.undefined))) rows

/-- Update the intent of a resource, with its blocked status. -/
def updateIntent (rows : PersistentStates) (r : ResourceIdStr) (state : ResourceState)
    (intent : ResourceIntent) : PersistentStates :=
  rows.update r fun row => { row with
    currentIntentAttributeHash := some intent.attributeHash
    isUndefined := state.compliance = .undefined
    orphanedAfter := none
    blocked := state.blocked.dbValue }

/-- Update the intent of the given resources. -/
def updateResourceIntent (rows : PersistentStates) (s : ModelState)
    (resources : List ResourceIdStr) : Except PyError PersistentStates :=
  resources.foldlM (fun rows r => do
    let state ← s.resourceState.item r
    let intent ← s.intent.item r
    return rows.updateIntent r state intent) rows

/-- Set the version some orphaned resources were last seen in. -/
def markAsOrphan (rows : PersistentStates) (orphans : List (ResourceIdStr × ℕ)) :
    PersistentStates :=
  orphans.foldl (fun rows e => rows.update e.1 fun row => { row with orphanedAfter := some e.2 })
    rows

/-- Mark all resources that do not appear in the current version as orphans.
`maxVersion` is the latest released version that has the resource. -/
def markAllOrphans (rows : PersistentStates) (maxVersion : ResourceIdStr → Option ℕ)
    (currentVersion : ℕ) : PersistentStates :=
  rows.keys.foldl (fun rows r =>
    match maxVersion r with
    | none => rows
    | some v =>
        if v < currentVersion then rows.update r fun row => { row with orphanedAfter := some v }
        else rows) rows

/-- What is written for a new version. -/
def writeVersion (rows : PersistentStates) (s : ModelState) (w : VersionWrite)
    (maxVersion : ResourceIdStr → Option ℕ) : Except PyError PersistentStates := do
  let rows ← rows.updateResourceIntent s w.intent
  return if w.firstVersion then rows.markAllOrphans maxVersion s.version
    else rows.markAsOrphan w.orphans

/-- Write the result of a deploy. `state` is the current state of the resource,
`none` for stale deploys of what is not managed any more. -/
def sendDeployDone (rows : PersistentStates) (intent : DeployIntent) (report : DeployReport)
    (state : Option ResourceState) (finished : Time) : PersistentStates :=
  rows.update report.resourceId fun row => { row with
    lastDeployedAttributeHash := some intent.intent.attributeHash
    lastHandlerRun := (state.map (·.lastHandlerRun)).getD row.lastHandlerRun
    lastHandlerRunCompliant := (state.bind (·.lastHandlerRunCompliant)).or
      row.lastHandlerRunCompliant
    lastHandlerRunAt := some finished
    lastSuccess :=
      if report.resourceState = .deployed then some intent.deployStart else row.lastSuccess
    lastProducedEvents := some finished }

end PersistentStates

end Inmanta
