import Inmanta.Lib.Dict

/-!
# Resource intent and resource state

The value types the scheduler keeps per resource: its id, the intent of
the latest released version, and the state vectors of the last deploy.

A resource id is modelled by its parsed form, since the code only ever
holds ids that `Id.parse_id` accepts and looks at nothing but the agent
name. Attributes are modelled by the entries the scheduler reads
(`send_event`, `receive_events`, `requires`), the others are carried
along; `none` stands for an attribute that is absent.
-/

namespace Inmanta

/-- What a method raises. `outOfFuel` is not an exception: it marks a loop
that did not finish within the given number of iterations. -/
inductive PyError where
  | keyError
  | valueError
  | assertionError
  | staleResource
  | exception
  | outOfFuel
  deriving DecidableEq

/-- `d[k]`. -/
def Dict.item {κ ν : Type} [DecidableEq κ] (d : Dict κ ν) (k : κ) : Except PyError ν :=
  match d.get? k with
  | some v => .ok v
  | none => .error .keyError

theorem Dict.item_of_get? {κ ν : Type} [DecidableEq κ] {d : Dict κ ν} {k : κ} {v : ν}
    (h : d.get? k = some v) : d.item k = .ok v := by
  rw [Dict.item, h]

theorem Dict.get?_of_item {κ ν : Type} [DecidableEq κ] {d : Dict κ ν} {k : κ} {v : ν}
    (h : d.item k = .ok v) : d.get? k = some v := by
  unfold Dict.item at h
  split at h
  · next v' hv => exact hv.trans (congrArg some (Except.ok.inj h))
  · cases h

/-- A point in time, in seconds. -/
abbrev Time := ℕ

structure ResourceIdStr where
  entityType : String
  agentName : String
  attributeName : String
  attributeValue : String
  deriving DecidableEq

/-- The text of the id. -/
def ResourceIdStr.text (r : ResourceIdStr) : String :=
  s!"{r.entityType}[{r.agentName},{r.attributeName}={r.attributeValue}]"

/-- A null resource of one agent. -/
def nullResource (name : String) : ResourceIdStr :=
  ⟨"std::testing::NullResource", "agent1", "name", name⟩

/-! ## Intent -/

structure Attributes where
  sendEvent : Option Bool
  receiveEvents : Option Bool
  requires : List ResourceIdStr
  others : List (String × String)
  deriving DecidableEq

/-- `attributes.get("send_event", False)`. -/
def Attributes.sendsEvents (a : Attributes) : Bool := a.sendEvent.getD false

/-- `attributes.get("receive_events", True)`. -/
def Attributes.receivesEvents (a : Attributes) : Bool := a.receiveEvents.getD true

structure ResourceIntent where
  resourceId : ResourceIdStr
  attributeHash : String
  attributes : Attributes
  deriving DecidableEq

/-! ## State vectors -/

inductive Compliance where
  | compliant
  | hasUpdate
  | nonCompliant
  | undefined
  deriving DecidableEq

/-- The resource is not up-to-date and is ready to be deployed. -/
def Compliance.isDirty : Compliance → Bool
  | .hasUpdate => true
  | .nonCompliant => true
  | .compliant => false
  | .undefined => false

/-- The states a handler may report. -/
inductive HandlerResourceState where
  | skipped
  | deployed
  | failed
  | dry
  | skippedForDependency
  | unavailable
  | nonCompliant
  deriving DecidableEq

namespace HandlerResourceState

theorem deployed_ne_dry : deployed ≠ dry := by decide

theorem failed_ne_dry : failed ≠ dry := by decide

theorem skippedForDependency_ne_dry : skippedForDependency ≠ dry := by decide

end HandlerResourceState

inductive HandlerResult where
  | new
  | successful
  | failed
  | skipped
  deriving DecidableEq

def HandlerResult.fromHandlerResourceState :
    HandlerResourceState → Except PyError HandlerResult
  | .deployed | .nonCompliant => .ok .successful
  | .skipped | .skippedForDependency => .ok .skipped
  | .failed | .unavailable => .ok .failed
  | .dry => .error .exception

inductive Blocked where
  | blocked
  | notBlocked
  | temporarilyBlocked
  deriving DecidableEq

/-- `TEMPORARILY_BLOCKED` is not persisted. -/
def Blocked.dbValue : Blocked → Blocked
  | .temporarilyBlocked => .notBlocked
  | b => b

structure ResourceState where
  compliance : Compliance
  lastHandlerRun : HandlerResult
  blocked : Blocked
  lastDeployed : Option Time
  lastHandlerRunCompliant : Option Bool
  deriving DecidableEq

/-- The states of `const.ResourceState` that a resource state maps to. -/
inductive HandlerState where
  | undefined
  | skippedForUndefined
  | available
  | skipped
  | failed
  | nonCompliant
  | deployed
  deriving DecidableEq

def ResourceState.toHandlerState (s : ResourceState) : Except PyError HandlerState :=
  if s.compliance = .undefined then .ok .undefined
  else if s.blocked = .blocked then .ok .skippedForUndefined
  else if s.compliance = .hasUpdate then .ok .available
  else if s.lastHandlerRun = .skipped then .ok .skipped
  else if s.lastHandlerRun = .failed then .ok .failed
  else if s.compliance = .nonCompliant then .ok .nonCompliant
  else if s.lastHandlerRun = .successful then .ok .deployed
  else .error .exception

/-! ## Compliance from the persisted columns -/

def getComplianceStatus (orphanedAfter : Option ℕ) (isUndefined : Bool)
    (lastDeployedAttributeHash currentIntentAttributeHash : Option String)
    (lastHandlerRunCompliant : Option Bool) : Option Compliance :=
  if orphanedAfter.isSome then none
  else if isUndefined then some .undefined
  else if lastDeployedAttributeHash = none
      ∨ currentIntentAttributeHash ≠ lastDeployedAttributeHash then some .hasUpdate
  else if lastHandlerRunCompliant = some true then some .compliant
  else some .nonCompliant

end Inmanta
