import Inmanta.Deploy.ModelState
import Inmanta.Lib.Acyclic
import Inmanta.Lib.Loop

/-!
# Propagation of the blocked status

`ModelState.updateTransitiveState` restores the transitive part of the
blocked status after a change of intent. It works in three phases over
two worklists: resources downstream of a newly undefined one are blocked
(`propagateUndefined`), resources that gained a requirement are checked
against their direct requirements (`updateBlockedStatusToBlocked`, then
`propagateBlocked` over what that blocked), and resources that may have
become deployable are unblocked (`updateBlockedStatus`).

The worklists are stacks with the top first, so `work.extend(xs)` pushes
`xs.reverse`. Every loop runs on a given amount of fuel.
-/

namespace Inmanta

namespace ModelState

/-- Mark a resource as blocked: it is not deployable. -/
def blockResourceTransitive (s : ModelState) (r : ResourceIdStr) :
    Except PyError ModelState := do
  let rs ← s.resourceState.item r
  return (s.setBlocked r rs .blocked).discardDirty r

/-- Mark a resource as unblocked. -/
def unblockResource (s : ModelState) (r : ResourceIdStr) : Except PyError ModelState := do
  let rs ← s.resourceState.item r
  let s := s.setBlocked r rs .notBlocked
  return if rs.compliance.isDirty then s.addDirty r else s

/-- The first of some resources that is blocked. -/
def firstBlocked (s : ModelState) : List ResourceIdStr → Except PyError (Option ResourceIdStr)
  | [] => return none
  | d :: ds => do
      let rs ← s.resourceState.item d
      if rs.blocked = .blocked then return some d else s.firstBlocked ds

end ModelState

/-- The local variables of `update_transitive_state`. `isBlocked` holds
definitely blocked resources; `knownBlockers` maps a resource to one of its
requirements that was blocked when it was last checked. -/
structure TransitiveUpdate where
  state : ModelState
  isBlocked : List ResourceIdStr
  outBlocked : List ResourceIdStr
  outUnblocked : List ResourceIdStr
  knownBlockers : Dict ResourceIdStr ResourceIdStr

namespace TransitiveUpdate

def init (s : ModelState) (newUndefined : List ResourceIdStr) : TransitiveUpdate where
  state := s
  isBlocked := newUndefined
  outBlocked := []
  outUnblocked := []
  knownBlockers := .empty

/-- Block a resource and report it. -/
def block (t : TransitiveUpdate) (r : ResourceIdStr) : Except PyError TransitiveUpdate := do
  let state ← t.state.blockResourceTransitive r
  return { t with state, outBlocked := t.outBlocked.insert r }

def markBlocked (t : TransitiveUpdate) (r : ResourceIdStr) : TransitiveUpdate :=
  { t with isBlocked := t.isBlocked.insert r }

/-- Phase 2, one iteration: directly down the provides relation from an
undefined resource. -/
def propagateUndefined (r : ResourceIdStr) (t : TransitiveUpdate) :
    Except PyError (TransitiveUpdate × List ResourceIdStr) := do
  if r ∈ t.isBlocked then return (t, [])
  let t := t.markBlocked r
  let rs ← t.state.resourceState.item r
  if rs.blocked = .blocked then return (t, [])
  let t ← t.block r
  return (t, (t.state.providesOf r).reverse)

/-- The blocked status of the cached known blocker; a cache item that is out
of date is cleared. -/
def cachedBlocker (t : TransitiveUpdate) (r : ResourceIdStr) :
    Except PyError (TransitiveUpdate × Option ResourceIdStr) :=
  match t.knownBlockers.get? r with
  | none => return (t, none)
  | some d => do
      let rs ← t.state.resourceState.item d
      if rs.blocked = .blocked then return (t, some d)
      else return ({ t with knownBlockers := t.knownBlockers.del r }, none)

/-- The more expensive check that traverses all requirements. -/
def searchBlocker (t : TransitiveUpdate) (r : ResourceIdStr) :
    Except PyError (TransitiveUpdate × Option ResourceIdStr) := do
  match ← t.state.firstBlocked (t.state.requiresOf r) with
  | none => return (t, none)
  | some d => return ({ t with knownBlockers := t.knownBlockers.set r d }, some d)

/-- One blocked requirement, if there is one. -/
def blockedDependency (t : TransitiveUpdate) (r : ResourceIdStr) :
    Except PyError (TransitiveUpdate × Option ResourceIdStr) := do
  let (t, d) ← t.cachedBlocker r
  match d with
  | some d => return (t, some d)
  | none => t.searchBlocker r

/-- Phase 3, back check of one resource: block it if one of its requirements
is blocked. The flag tells whether it changed state. -/
def updateBlockedStatusToBlocked (t : TransitiveUpdate) (r : ResourceIdStr) :
    Except PyError (TransitiveUpdate × Bool) := do
  if r ∈ t.isBlocked then return (t, false)
  let rs ← t.state.resourceState.item r
  if rs.blocked = .blocked then return (t, false)
  let (t, d) ← t.blockedDependency r
  match d with
  | none => return (t, false)
  | some d =>
      let t := if d ∈ t.isBlocked then t.markBlocked r else t
      let t ← t.block r
      return (t, true)

/-- Phase 3, the loop over the resources that gained a requirement; what it
blocks is put on the stack. -/
def backCheck (t : TransitiveUpdate) (verifyBlocked : List ResourceIdStr) :
    Except PyError (TransitiveUpdate × List ResourceIdStr) :=
  verifyBlocked.foldlM (fun (t, work) r => do
    let (t, blocked) ← t.updateBlockedStatusToBlocked r
    return (t, if blocked then r :: work else work)) (t, [])

/-- Phase 3, one dependant of an already blocked resource. A dependant that is
not blocked is skipped, one that is blocked is blocked again and pushed. -/
def propagateBlockedTo (isHardBlock : Bool)
    (acc : TransitiveUpdate × List ResourceIdStr) (r : ResourceIdStr) :
    Except PyError (TransitiveUpdate × List ResourceIdStr) := do
  let (t, pushed) := acc
  let t := if isHardBlock then t.markBlocked r else t
  let rs ← t.state.resourceState.item r
  if rs.blocked ≠ .blocked then return (t, pushed)
  else
    let t ← t.block r
    return (t, r :: pushed)

/-- Phase 3, one iteration over an already blocked resource. -/
def propagateBlocked (alreadyBlocked : ResourceIdStr) (t : TransitiveUpdate) :
    Except PyError (TransitiveUpdate × List ResourceIdStr) :=
  (t.state.providesOf alreadyBlocked).foldlM
    (propagateBlockedTo (alreadyBlocked ∈ t.isBlocked)) (t, [])

/-- Phase 4, check of one resource: unblock it unless it is undefined or one
of its requirements is blocked. The flag tells whether it was unblocked. -/
def updateBlockedStatus (t : TransitiveUpdate) (r : ResourceIdStr) :
    Except PyError (TransitiveUpdate × Bool) := do
  if r ∈ t.isBlocked then return (t, false)
  let rs ← t.state.resourceState.item r
  if rs.blocked ≠ .blocked then return (t, false)
  if rs.compliance = .undefined then return (t.markBlocked r, false)
  let (t, d) ← t.blockedDependency r
  match d with
  | some _ => return (t, false)
  | none =>
      let state ← t.state.unblockResource r
      return ({ t with state, outUnblocked := t.outUnblocked.insert r }, true)

/-- Phase 4, one iteration. -/
def verifyUnblocked (r : ResourceIdStr) (t : TransitiveUpdate) :
    Except PyError (TransitiveUpdate × List ResourceIdStr) := do
  let (t, unblocked) ← t.updateBlockedStatus r
  return (t, if unblocked then (t.state.providesOf r).reverse else [])

end TransitiveUpdate

/-- Update the transitive state of the entire model, given the resources that
became undefined, those that may have become blocked and those that may have
become unblocked. Returns the model with the resources that were unblocked and
those that were blocked. -/
def ModelState.updateTransitiveState (fuel : ℕ) (s : ModelState)
    (newUndefined verifyBlocked verifyUnblocked : List ResourceIdStr) :
    Except PyError (ModelState × List ResourceIdStr × List ResourceIdStr) := do
  let t := TransitiveUpdate.init s newUndefined
  let work := (newUndefined.flatMap s.providesOf).reverse
  let t ← drain .outOfFuel TransitiveUpdate.propagateUndefined fuel work t
  let (t, work) ← t.backCheck verifyBlocked
  let t ← drain .outOfFuel TransitiveUpdate.propagateBlocked fuel work t
  let t ← drain .outOfFuel TransitiveUpdate.verifyUnblocked fuel verifyUnblocked.reverse t
  return (t.state, t.outUnblocked, t.outBlocked)

end Inmanta
