import Inmanta.Deploy.ResourceState
import Inmanta.Lib.Program

/-!
# Handlers

What the agent does with a resource: the executor finds a handler for it, has
it deploy the resource and makes a report of what the handler has said to its
context. The handler is code of a module, which may do anything to the context
and to the world it manages, and may raise any exception; so its methods are
parameters here. The calls made to them are logged.

A CRUD handler reads the current state, compares it with the desired one, and
creates, deletes or updates. In a dry run, and for a resource that is only
reported on, it does none of these (`modifications_of_execute`). If its methods
do what they are meant to do, a deploy that reports success has reached the
desired state, and deploying again does nothing (`deploy_converges`).
-/

namespace Inmanta

/-- `const.ResourceState`. -/
inductive ResourceStatus where
  | unavailable
  | skipped
  | dry
  | deployed
  | failed
  | deploying
  | available
  | cancelled
  | undefined
  | skippedForUndefined
  | nonCompliant
  deriving DecidableEq

/-- `const.ResourceState(new_state)`, and `skipped` where there is no such state. -/
def HandlerResourceState.status : HandlerResourceState → ResourceStatus
  | .skipped => .skipped
  | .deployed => .deployed
  | .failed => .failed
  | .dry => .dry
  | .skippedForDependency => .skipped
  | .unavailable => .unavailable
  | .nonCompliant => .nonCompliant

namespace Handlers

inductive Raised where
  | skipResource
  | skipResourceForDependencies
  | resourcePurged
  | invalidOperation
  /-- `ReferenceMissingError` and `MutatorMissingError`. -/
  | codeMissing
  /-- The result of a deploy may not be a dry run. -/
  | valueError
  | other
  deriving DecidableEq

/-- The value of a field; every `value` is taken to be true. -/
inductive FieldValue (V : Type) where
  | none
  | bool (b : Bool)
  | value (v : V)
  deriving DecidableEq

def FieldValue.truthy {V : Type} : FieldValue V → Bool
  | .none => false
  | .bool b => b
  | .value _ => true

structure AttributeChange (V : Type) where
  current : FieldValue V
  desired : FieldValue V
  deriving DecidableEq

abbrev Changes (V : Type) := Dict String (AttributeChange V)

/-- A purgeable resource: its other fields are `attributes`, `none` being None. -/
structure PurgeableResource (V : Type) where
  purged : Bool
  reportOnly : Bool
  attributes : String → Option V

def PurgeableResource.getattr {V : Type} (r : PurgeableResource V) (field : String) :
    FieldValue V :=
  if field = "purged" then .bool r.purged
  else
    match r.attributes field with
    | none => .none
    | some v => .value v

/-- What the handler has told its context. -/
structure HandlerContext (V : Type) where
  status : Option ResourceStatus
  resourceState : Option HandlerResourceState
  changes : Changes V

/-- The methods of a handler that are code of a module, and what the executor
calls for it. -/
inductive Call where
  | pre
  | readResource
  | calculateDiff
  | checkResource
  | createResource
  | deleteResource
  | updateResource
  | doChanges
  | post
  | resolveReferences
  | shouldReload
  | doReload
  | close
  deriving DecidableEq

/-- The calls that are to change what is managed. -/
def Call.modifies : Call → Bool
  | .createResource => true
  | .deleteResource => true
  | .updateResource => true
  | .doChanges => true
  | _ => false

structure Env (W V : Type) where
  ctx : HandlerContext V
  /-- What the handler manages, and everything else its code looks at. -/
  world : W
  calls : List Call

/-- The number of modifying calls. -/
def Env.modifications {W V : Type} (s : Env W V) : Nat := (s.calls.filter Call.modifies).length

/-- A method of the module: it cannot touch the log. -/
abbrev Method (W V α : Type) := HandlerContext V × W → Except Raised α × HandlerContext V × W

section

variable {W V : Type}

/-- Call a method of the module. -/
def call {α : Type} (c : Call) (m : Method W V α) : Program (Env W V) Raised α := fun s =>
  let (r, ctx, world) := m (s.ctx, s.world)
  (r, { ctx, world, calls := s.calls ++ [c] })

/-- Call a method that is not given the context. -/
def callWithout {α : Type} (c : Call) (m : W → Except Raised α × W) :
    Program (Env W V) Raised α :=
  call c fun (ctx, world) => let (r, world) := m world; (r, ctx, world)

/-! ## The context -/

def setResourceState (newState : HandlerResourceState) : Program (Env W V) Raised Unit := fun s =>
  if newState = .nonCompliant ∧ s.ctx.changes.items = [] then (.error .invalidOperation, s)
  else (.ok (), { s with
    ctx := { s.ctx with resourceState := some newState, status := some newState.status } })

def updateChanges (changes : Changes V) : Program (Env W V) Raised Unit :=
  Program.modify fun s => { s with ctx := { s.ctx with changes := s.ctx.changes.update changes } }

/-! ## Handlers of purgeable resources -/

structure CrudHandler (W V : Type) where
  /-- The fields of the class of the resource. -/
  fields : List String
  pre : Method W V Unit
  readResource : PurgeableResource V → Method W V (PurgeableResource V)
  calculateDiff : PurgeableResource V → PurgeableResource V → Method W V (Changes V)
  createResource : PurgeableResource V → Method W V Unit
  deleteResource : PurgeableResource V → Method W V Unit
  updateResource : Changes V → PurgeableResource V → Method W V Unit
  post : Method W V Unit

/-- `ResourceHandler._diff`. -/
def diff [DecidableEq V] (fields : List String) (current desired : PurgeableResource V) :
    Changes V :=
  fields.foldl (fun changes field =>
    if current.getattr field ≠ desired.getattr field ∧ desired.getattr field ≠ .none then
      changes.set field ⟨current.getattr field, desired.getattr field⟩
    else changes) .empty

/-- The `except` clauses of `execute`, of all handlers alike. -/
def exceptClauses : Raised → Program (Env W V) Raised Unit
  | .skipResourceForDependencies => setResourceState .skippedForDependency
  | .skipResource => setResourceState .skipped
  | _ => setResourceState .failed

/-- The `finally` clause: an exception of `post` is logged. -/
def postClause (post : Method W V Unit) : Program (Env W V) Raised Unit :=
  Program.tryCatch (call .post post) fun _ => pure ()

/-- The state of a resource whose changes are only reported. -/
def reportState (changes : Changes V) : HandlerResourceState :=
  if changes.items = [] then .deployed else .nonCompliant

namespace CrudHandler

/-- Read the current state and compare. -/
def readChanges (h : CrudHandler W V) (desired : PurgeableResource V) :
    Program (Env W V) Raised (Changes V) :=
  Program.tryCatch
    (do
      let current ← call .readResource (h.readResource { desired with purged := false })
      call .calculateDiff (h.calculateDiff current desired))
    fun
      | .resourcePurged =>
          pure (if desired.purged then .empty
            else Dict.empty.set "purged" ⟨.bool true, .bool desired.purged⟩)
      | e => Program.raise e

/-- Create, delete or update. -/
def enforce (h : CrudHandler W V) (desired : PurgeableResource V) (changes : Changes V) :
    Program (Env W V) Raised Unit :=
  match changes.get? "purged" with
  | some purged =>
      if purged.desired.truthy then call .deleteResource (h.deleteResource desired)
      else call .createResource (h.createResource desired)
  | none =>
      if !desired.purged ∧ changes.items ≠ [] then
        call .updateResource (h.updateResource changes desired)
      else pure ()

/-- The body of the `try` of `execute`. -/
def body (h : CrudHandler W V) (desired : PurgeableResource V) (dryRun : Bool) :
    Program (Env W V) Raised Unit := do
  call .pre h.pre
  let changes ← h.readChanges desired
  updateChanges changes
  if desired.reportOnly then setResourceState (reportState changes)
  else if dryRun then setResourceState .dry
  else
    h.enforce desired changes
    setResourceState .deployed

def execute (h : CrudHandler W V) (desired : PurgeableResource V) (dryRun : Bool) :
    Program (Env W V) Raised Unit := do
  Program.tryCatch (h.body desired dryRun) exceptClauses
  postClause h.post

end CrudHandler

/-! ## Handlers of other resources -/

structure ResourceHandler (W V R : Type) where
  reportOnly : R → Bool
  pre : Method W V Unit
  /-- `list_changes`, which calls `check_resource`. -/
  listChanges : R → Method W V (Changes V)
  doChanges : R → Changes V → Method W V Unit
  post : Method W V Unit

def ResourceHandler.execute {R : Type} (h : ResourceHandler W V R) (resource : R)
    (dryRun : Bool) : Program (Env W V) Raised Unit := do
  Program.tryCatch
    (do
      call .pre h.pre
      let changes ← call .checkResource (h.listChanges resource)
      updateChanges changes
      if h.reportOnly resource then setResourceState (reportState changes)
      else if dryRun then setResourceState .dry
      else
        call .doChanges (h.doChanges resource changes)
        setResourceState .deployed)
    exceptClauses
  postClause h.post

/-! ## Deploying -/

/-- A handler as the executor sees it. -/
structure Provider (W V : Type) where
  reportOnly : Bool
  /-- `execute`, of the resource that is deployed. -/
  execute : Bool → Program (Env W V) Raised Unit
  canReload : Bool
  /-- The answer of the server on whether a dependency has changed. -/
  dependencyChanged : W → Except Raised Bool × W
  doReload : Method W V Unit
  close : W → Except Raised Unit × W

namespace Provider

def shouldReload (p : Provider W V) : Program (Env W V) Raised Bool :=
  if p.canReload then callWithout .shouldReload p.dependencyChanged else pure false

def executeAndReload (p : Provider W V) : Program (Env W V) Raised Unit := do
  p.execute false
  let reload ← p.shouldReload
  if reload then call .doReload p.doReload else pure ()

/-- `requires`: the states of the dependencies. -/
def deploy (p : Provider W V) (requires : List ResourceStatus) :
    Program (Env W V) Raised Unit :=
  if p.reportOnly then p.executeAndReload
  else if requires.any fun state =>
      state = .dry ∨ state = .undefined ∨ state = .skippedForUndefined then
    setResourceState .skippedForDependency
  else if requires.any fun state => state = .available ∨ state = .deploying then
    setResourceState .skippedForDependency
  else if requires.all fun state => state = .deployed then p.executeAndReload
  else setResourceState .skippedForDependency

end Provider

structure DeployReport (V : Type) where
  resourceState : HandlerResourceState
  changes : Changes V

/-- `DeployReport.from_ctx`; the state of a deploy may not be `dry`. -/
def DeployReport.fromCtx (ctx : HandlerContext V) : Except Raised (DeployReport V) :=
  let resourceState := match ctx.status, ctx.resourceState with
    | some _, some state => state
    | _, _ => .failed
  if resourceState = .dry then .error .valueError else .ok ⟨resourceState, ctx.changes⟩

namespace Executor

/-- The `except` clauses of `InProcessExecutor._execute`. -/
def deployExceptClauses : Raised → Program (Env W V) Raised Unit
  | .codeMissing => setResourceState .unavailable
  | e => exceptClauses e

/-- `ctx.status` was not set: the resource was deployed. -/
def setDeployed : Program (Env W V) Raised Unit := fun s =>
  if s.ctx.status = none then setResourceState .deployed s else (.ok (), s)

/-- `InProcessExecutor._execute`; `none`: there is no handler for the resource. -/
def deploy (provider : Option (Provider W V)) (resolve : Method W V Unit)
    (requires : List ResourceStatus) : Program (Env W V) Raised Unit :=
  match provider with
  | none => setResourceState .unavailable
  | some p => do
      Program.tryCatch
        (do
          call .resolveReferences resolve
          p.deploy requires
          setDeployed)
        deployExceptClauses
      callWithout .close p.close

/-- A context nothing was said to. -/
def newContext : HandlerContext V := ⟨none, none, .empty⟩

/-- `InProcessExecutor.execute` of a resource that can be deserialized. -/
def execute (provider : Option (Provider W V)) (resolve : Method W V Unit)
    (requires : List ResourceStatus) (world : W) : Except Raised (DeployReport V) × Env W V :=
  match deploy provider resolve requires ⟨newContext, world, []⟩ with
  | (.error e, s) => (.error e, s)
  | (.ok (), s) => (DeployReport.fromCtx s.ctx, s)

/-- The run of the handler in `InProcessExecutor.dry_run`. -/
def dryRun (provider : Provider W V) (resolve : Method W V Unit) (world : W) :
    Except Raised Unit × Env W V :=
  (do
    call .resolveReferences resolve
    provider.execute true : Program (Env W V) Raised Unit) ⟨newContext, world, []⟩

end Executor

/-- Each `except` clause sets a state. -/
theorem exceptClauses_eq (e : Raised) : ∃ state, state ≠ .dry ∧ state ≠ .nonCompliant ∧
    exceptClauses (W := W) (V := V) e = setResourceState state := by
  cases e <;> refine ⟨_, ?_, ?_, rfl⟩ <;> decide

theorem Executor.deployExceptClauses_eq (e : Raised) : ∃ state, state ≠ .dry ∧
    state ≠ .nonCompliant ∧
    Executor.deployExceptClauses (W := W) (V := V) e = setResourceState state := by
  by_cases he : e = .codeMissing
  · subst he
    exact ⟨.unavailable, by decide, by decide, rfl⟩
  · have heq : Executor.deployExceptClauses (W := W) (V := V) e = exceptClauses e := by
      cases e <;> first | rfl | exact absurd rfl he
    rw [heq]
    exact exceptClauses_eq e

/-! ## What is modified -/

open Program (AtMost Keeps Ensures)

theorem atMost_call {α : Type} (c : Call) (m : Method W V α) :
    AtMost Env.modifications (if c.modifies then 1 else 0) (call c m) := by
  intro s
  unfold Env.modifications call
  simp only [List.filter_append, List.length_append]
  cases hc : c.modifies <;> simp [List.filter, hc]

theorem atMost_setResourceState (state : HandlerResourceState) :
    AtMost Env.modifications 0 (setResourceState (W := W) (V := V) state) := by
  intro s
  unfold setResourceState
  split <;> exact Nat.le_refl _

theorem atMost_updateChanges (changes : Changes V) :
    AtMost Env.modifications 0 (updateChanges (W := W) changes) :=
  AtMost.modify fun _ => Nat.le_refl _

theorem atMost_exceptClauses (e : Raised) :
    AtMost Env.modifications 0 (exceptClauses (W := W) (V := V) e) := by
  obtain ⟨state, -, -, h⟩ := exceptClauses_eq e
  rw [h]
  exact atMost_setResourceState state

theorem atMost_postClause (post : Method W V Unit) :
    AtMost Env.modifications 0 (postClause post) :=
  (atMost_call .post post).tryCatch fun _ => AtMost.pure ()

theorem CrudHandler.atMost_readChanges (h : CrudHandler W V) (desired : PurgeableResource V) :
    AtMost Env.modifications 0 (h.readChanges desired) := by
  refine AtMost.tryCatch (k := 0) (l := 0) ((atMost_call .readResource _).bind fun current =>
    atMost_call .calculateDiff _) fun e => ?_
  cases e <;> first | exact AtMost.pure _ | exact AtMost.raise _

theorem CrudHandler.atMost_enforce (h : CrudHandler W V) (desired : PurgeableResource V)
    (changes : Changes V) : AtMost Env.modifications 1 (h.enforce desired changes) := by
  unfold CrudHandler.enforce
  split
  · split
    · exact atMost_call .deleteResource _
    · exact atMost_call .createResource _
  · split
    · exact atMost_call .updateResource _
    · exact (AtMost.pure ()).mono (Nat.zero_le 1)

/-- The number of modifications a deploy may make. -/
def allowed (reportOnly dryRun : Bool) : Nat := if reportOnly || dryRun then 0 else 1

theorem CrudHandler.atMost_execute (h : CrudHandler W V) (desired : PurgeableResource V)
    (dryRun : Bool) :
    AtMost Env.modifications (allowed desired.reportOnly dryRun) (h.execute desired dryRun) := by
  have hlast : ∀ changes, AtMost Env.modifications (allowed desired.reportOnly dryRun)
      (if desired.reportOnly then setResourceState (W := W) (V := V) (reportState changes)
        else if dryRun then setResourceState .dry
        else do
          h.enforce desired changes
          setResourceState .deployed) := by
    intro changes
    unfold allowed
    cases desired.reportOnly with
    | true => exact atMost_setResourceState _
    | false =>
        cases dryRun with
        | true => exact atMost_setResourceState .dry
        | false => exact (h.atMost_enforce desired changes).bind fun _ => atMost_setResourceState _
  have hbody : AtMost Env.modifications (0 + (0 + (0 + allowed desired.reportOnly dryRun)))
      (h.body desired dryRun) :=
    (atMost_call .pre h.pre).bind fun _ => (h.atMost_readChanges desired).bind fun changes =>
      (atMost_updateChanges changes).bind fun _ => hlast changes
  rw [Nat.zero_add, Nat.zero_add, Nat.zero_add] at hbody
  exact (hbody.tryCatch atMost_exceptClauses).bind fun _ => atMost_postClause h.post

theorem ResourceHandler.atMost_execute {R : Type} (h : ResourceHandler W V R) (resource : R)
    (dryRun : Bool) :
    AtMost Env.modifications (allowed (h.reportOnly resource) dryRun)
      (h.execute resource dryRun) := by
  have hlast : ∀ changes, AtMost Env.modifications (allowed (h.reportOnly resource) dryRun)
      (if h.reportOnly resource then setResourceState (W := W) (V := V) (reportState changes)
        else if dryRun then setResourceState .dry
        else do
          call .doChanges (h.doChanges resource changes)
          setResourceState .deployed) := by
    intro changes
    unfold allowed
    cases h.reportOnly resource with
    | true => exact atMost_setResourceState _
    | false =>
        cases dryRun with
        | true => exact atMost_setResourceState .dry
        | false => exact (atMost_call .doChanges _).bind fun _ => atMost_setResourceState _
  have hbody := (atMost_call .pre h.pre).bind fun _ =>
    (atMost_call .checkResource (h.listChanges resource)).bind fun changes =>
      (atMost_updateChanges changes).bind fun _ => hlast changes
  have hexecute := (hbody.tryCatch atMost_exceptClauses).bind fun _ => atMost_postClause h.post
  refine hexecute.mono ?_
  simp [Call.modifies]

/-- A provider whose handler modifies no more than it may. -/
def Provider.Modest (p : Provider W V) : Prop :=
  ∀ dryRun, AtMost Env.modifications (allowed p.reportOnly dryRun) (p.execute dryRun)

theorem Provider.atMost_executeAndReload {p : Provider W V} (hp : p.Modest) :
    AtMost Env.modifications (allowed p.reportOnly false) p.executeAndReload := by
  refine (hp false).bind (l := 0) fun _ => ?_
  refine AtMost.bind (k := 0) (l := 0) ?_ fun reload => ?_
  · unfold Provider.shouldReload
    split
    · exact atMost_call .shouldReload _
    · exact AtMost.pure _
  · split
    · exact atMost_call .doReload _
    · exact AtMost.pure _

theorem Provider.atMost_deploy {p : Provider W V} (hp : p.Modest)
    (requires : List ResourceStatus) :
    AtMost Env.modifications (allowed p.reportOnly false) (p.deploy requires) := by
  have hskip : AtMost Env.modifications (allowed p.reportOnly false)
      (setResourceState (W := W) (V := V) .skippedForDependency) :=
    (atMost_setResourceState _).mono (Nat.zero_le _)
  unfold Provider.deploy
  split
  · exact Provider.atMost_executeAndReload hp
  split
  · exact hskip
  split
  · exact hskip
  split
  · exact Provider.atMost_executeAndReload hp
  · exact hskip

theorem Executor.atMost_setDeployed :
    AtMost Env.modifications 0 (Executor.setDeployed (W := W) (V := V)) := by
  intro s
  unfold Executor.setDeployed
  split
  · exact atMost_setResourceState .deployed s
  · exact Nat.le_refl _

theorem Executor.atMost_deploy {p : Provider W V} {k : Nat} {requires : List ResourceStatus}
    (hp : AtMost Env.modifications k (p.deploy requires)) (resolve : Method W V Unit) :
    AtMost Env.modifications k (Executor.deploy (some p) resolve requires) := by
  have hbody := (atMost_call .resolveReferences resolve).bind fun _ =>
    hp.bind fun _ => Executor.atMost_setDeployed
  have hexcept : ∀ e, AtMost Env.modifications 0
      (Executor.deployExceptClauses (W := W) (V := V) e) := by
    intro e
    obtain ⟨state, -, -, h⟩ := Executor.deployExceptClauses_eq e
    rw [h]
    exact atMost_setResourceState state
  refine ((hbody.tryCatch hexcept).bind fun _ => atMost_call .close _).mono ?_
  simp [Call.modifies]

/-- A deploy that is skipped, because the dependencies are not all deployed. -/
theorem Provider.atMost_deploy_skipped {p : Provider W V} {requires : List ResourceStatus}
    (hreport : p.reportOnly = false) (hrequires : ∃ state ∈ requires, state ≠ .deployed) :
    AtMost Env.modifications 0 (p.deploy requires) := by
  have hskip := atMost_setResourceState (W := W) (V := V) .skippedForDependency
  have hall : (requires.all fun state => state = .deployed) = false := by
    obtain ⟨state, hmem, hne⟩ := hrequires
    exact List.all_eq_false.mpr ⟨state, hmem, by simpa using hne⟩
  unfold Provider.deploy
  rw [hreport, hall]
  split
  · rename_i h
    cases h
  split
  · exact hskip
  split
  · exact hskip
  · exact hskip

/-- A dry run modifies nothing, a deploy makes one modification at most, and none that is only
reported on or skipped. -/
def Executor.ModifiesAsAsked (p : Provider W V) (resolve : Method W V Unit)
    (requires : List ResourceStatus) (world : W) : Prop :=
  (Executor.dryRun p resolve world).2.modifications = 0 ∧
  (Executor.execute (some p) resolve requires world).2.modifications ≤ 1 ∧
  ((p.reportOnly = true ∨ ∃ state ∈ requires, state ≠ .deployed) →
    (Executor.execute (some p) resolve requires world).2.modifications = 0)

theorem Provider.Modest.modifiesAsAsked {p : Provider W V} (hp : p.Modest)
    (resolve : Method W V Unit) (requires : List ResourceStatus) (world : W) :
    Executor.ModifiesAsAsked p resolve requires world := by
  have hexecute : ∀ k, AtMost Env.modifications k (p.deploy requires) →
      (Executor.execute (some p) resolve requires world).2.modifications ≤ k := by
    intro k hk
    have h := Executor.atMost_deploy hk resolve ⟨Executor.newContext, world, []⟩
    unfold Executor.execute
    have hzero : Env.modifications (⟨Executor.newContext, world, []⟩ : Env W V) = 0 := rfl
    rw [hzero, Nat.zero_add] at h
    split <;> rename_i heq <;> rw [heq] at h <;> exact h
  have hallowed : allowed p.reportOnly false ≤ 1 := by
    unfold allowed
    split <;> omega
  refine ⟨?_, hexecute 1 ((Provider.atMost_deploy hp requires).mono hallowed), fun h => ?_⟩
  · have h := ((atMost_call .resolveReferences resolve).bind fun _ => hp true)
      ⟨Executor.newContext, world, []⟩
    have hnone : allowed p.reportOnly true = 0 := by simp [allowed]
    rw [hnone] at h
    exact Nat.le_zero.mp h
  · refine Nat.le_zero.mp (hexecute 0 ?_)
    cases hreport : p.reportOnly with
    | true =>
        have hd := Provider.atMost_deploy hp requires
        rw [hreport] at hd
        exact hd
    | false =>
        rw [hreport] at h
        exact Provider.atMost_deploy_skipped hreport (h.resolve_left Bool.false_ne_true)

/-- The provider of a resource with a CRUD handler. -/
def CrudHandler.provider (h : CrudHandler W V) (desired : PurgeableResource V)
    (canReload : Bool) (dependencyChanged : W → Except Raised Bool × W)
    (doReload : Method W V Unit) (close : W → Except Raised Unit × W) : Provider W V where
  reportOnly := desired.reportOnly
  execute := h.execute desired
  canReload := canReload
  dependencyChanged := dependencyChanged
  doReload := doReload
  close := close

/-- The provider of a resource with a handler of the other kind. -/
def ResourceHandler.provider {R : Type} (h : ResourceHandler W V R) (resource : R)
    (canReload : Bool) (dependencyChanged : W → Except Raised Bool × W)
    (doReload : Method W V Unit) (close : W → Except Raised Unit × W) : Provider W V where
  reportOnly := h.reportOnly resource
  execute := h.execute resource
  canReload := canReload
  dependencyChanged := dependencyChanged
  doReload := doReload
  close := close

/-- **Nothing is modified unasked.** Whatever the code of the module does and raises: a dry run
calls no method of a handler that modifies; a deploy calls at most one, and none for a resource
that is only reported on or that has a dependency that is not deployed. -/
theorem nothing_modified_unasked {R : Type} (h : CrudHandler W V)
    (desired : PurgeableResource V) (h' : ResourceHandler W V R) (resource : R)
    (canReload : Bool) (dependencyChanged : W → Except Raised Bool × W)
    (doReload : Method W V Unit) (close : W → Except Raised Unit × W)
    (resolve : Method W V Unit) (requires : List ResourceStatus) (world : W) :
    Executor.ModifiesAsAsked (h.provider desired canReload dependencyChanged doReload close)
      resolve requires world ∧
    Executor.ModifiesAsAsked (h'.provider resource canReload dependencyChanged doReload close)
      resolve requires world := by
  have hcrud : (h.provider desired canReload dependencyChanged doReload close).Modest :=
    h.atMost_execute desired
  have hother : (h'.provider resource canReload dependencyChanged doReload close).Modest :=
    h'.atMost_execute resource
  exact ⟨hcrud.modifiesAsAsked resolve requires world,
    hother.modifiesAsAsked resolve requires world⟩

/-! ## Every deploy is reported -/

/-- The context holds a state a deploy can be reported with. -/
def HandlerContext.Settled (ctx : HandlerContext V) : Prop :=
  ctx.status ≠ none ∧ ∃ state, ctx.resourceState = some state ∧ state ≠ .dry

/-- A method that does not spoil what was settled. -/
def KeepsSettled {α : Type} (m : Method W V α) : Prop :=
  ∀ ctx w, ctx.Settled → (m (ctx, w)).2.1.Settled

theorem keeps_call {α : Type} {c : Call} {m : Method W V α} (hm : KeepsSettled m) :
    Keeps (fun s : Env W V => s.ctx.Settled) (call c m) :=
  fun s hs => hm s.ctx s.world hs

theorem keeps_callWithout {α : Type} (c : Call) (m : W → Except Raised α × W) :
    Keeps (fun s : Env W V => s.ctx.Settled) (callWithout c m) :=
  fun _ hs => hs

theorem keeps_pure {α : Type} (a : α) :
    Keeps (fun s : Env W V => s.ctx.Settled) (pure a : Program (Env W V) Raised α) :=
  fun _ hs => hs

/-- The only state that can be refused is `nonCompliant`. -/
theorem ensures_setResourceState {state : HandlerResourceState} (hdry : state ≠ .dry)
    (hnc : state ≠ .nonCompliant) :
    Ensures (fun s : Env W V => s.ctx.Settled) (setResourceState state) := by
  intro s
  unfold setResourceState
  rw [if_neg fun h => hnc h.1]
  exact ⟨by simp, state, rfl, hdry⟩

theorem settled_of_setResourceState {state : HandlerResourceState} (hdry : state ≠ .dry)
    {s s' : Env W V} {u : Unit} (h : setResourceState state s = (.ok u, s')) :
    s'.ctx.Settled := by
  unfold setResourceState at h
  split at h
  · cases h
  · cases h
    exact ⟨by simp, state, rfl, hdry⟩

theorem ensures_exceptClauses (e : Raised) :
    Ensures (fun s : Env W V => s.ctx.Settled) (exceptClauses e) := by
  obtain ⟨state, hdry, hnc, h⟩ := exceptClauses_eq e
  rw [h]
  exact ensures_setResourceState hdry hnc

theorem reportState_ne_dry (changes : Changes V) : reportState changes ≠ .dry := by
  unfold reportState
  split <;> decide

theorem CrudHandler.ensures_execute (h : CrudHandler W V) (desired : PurgeableResource V)
    (hpost : KeepsSettled h.post) :
    Ensures (fun s : Env W V => s.ctx.Settled) (h.execute desired false) := by
  refine (Ensures.tryCatch (fun s u s' hbody => ?_) ensures_exceptClauses).bind fun _ =>
    (keeps_call hpost).tryCatch fun _ => keeps_pure ()
  obtain ⟨-, s₁, -, hbody⟩ := Program.bind_eq_ok hbody
  obtain ⟨changes, s₂, -, hbody⟩ := Program.bind_eq_ok hbody
  obtain ⟨-, s₃, -, hbody⟩ := Program.bind_eq_ok hbody
  split at hbody
  · exact settled_of_setResourceState (reportState_ne_dry changes) hbody
  · obtain ⟨-, s₄, -, hbody⟩ := Program.bind_eq_ok hbody
    exact settled_of_setResourceState (by decide) hbody

theorem ResourceHandler.ensures_execute {R : Type} (h : ResourceHandler W V R) (resource : R)
    (hpost : KeepsSettled h.post) :
    Ensures (fun s : Env W V => s.ctx.Settled) (h.execute resource false) := by
  refine (Ensures.tryCatch (fun s u s' hbody => ?_) ensures_exceptClauses).bind fun _ =>
    (keeps_call hpost).tryCatch fun _ => keeps_pure ()
  obtain ⟨-, s₁, -, hbody⟩ := Program.bind_eq_ok hbody
  obtain ⟨changes, s₂, -, hbody⟩ := Program.bind_eq_ok hbody
  obtain ⟨-, s₃, -, hbody⟩ := Program.bind_eq_ok hbody
  split at hbody
  · exact settled_of_setResourceState (reportState_ne_dry changes) hbody
  · obtain ⟨-, s₄, -, hbody⟩ := Program.bind_eq_ok hbody
    exact settled_of_setResourceState (by decide) hbody

theorem Provider.ensures_executeAndReload {p : Provider W V}
    (hp : Ensures (fun s : Env W V => s.ctx.Settled) (p.execute false))
    (hreload : KeepsSettled p.doReload) :
    Ensures (fun s : Env W V => s.ctx.Settled) p.executeAndReload := by
  refine hp.bind fun _ => Keeps.bind ?_ fun reload => ?_
  · unfold Provider.shouldReload
    split
    · exact keeps_callWithout _ _
    · exact keeps_pure _
  · split
    · exact keeps_call hreload
    · exact keeps_pure _

theorem Provider.ensures_deploy {p : Provider W V}
    (hp : Ensures (fun s : Env W V => s.ctx.Settled) (p.execute false))
    (hreload : KeepsSettled p.doReload) (requires : List ResourceStatus) :
    Ensures (fun s : Env W V => s.ctx.Settled) (p.deploy requires) := by
  have hskip : Ensures (fun s : Env W V => s.ctx.Settled)
      (setResourceState .skippedForDependency) :=
    ensures_setResourceState (by decide) (by decide)
  unfold Provider.deploy
  split
  · exact Provider.ensures_executeAndReload hp hreload
  split
  · exact hskip
  split
  · exact hskip
  split
  · exact Provider.ensures_executeAndReload hp hreload
  · exact hskip

theorem HandlerContext.Settled.fromCtx {ctx : HandlerContext V} (h : ctx.Settled) :
    ∃ report, DeployReport.fromCtx ctx = .ok report ∧
      ctx.resourceState = some report.resourceState ∧ report.changes = ctx.changes := by
  obtain ⟨hstatus, state, hstate, hdry⟩ := h
  obtain ⟨status, hstatus⟩ := Option.ne_none_iff_exists'.mp hstatus
  refine ⟨⟨state, ctx.changes⟩, ?_, hstate, rfl⟩
  simp [DeployReport.fromCtx, hstatus, hstate, hdry]

theorem Executor.ensures_deploy {p : Provider W V}
    (hp : Ensures (fun s : Env W V => s.ctx.Settled) (p.execute false))
    (hreload : KeepsSettled p.doReload) (resolve : Method W V Unit)
    (requires : List ResourceStatus) :
    Ensures (fun s : Env W V => s.ctx.Settled) (Executor.deploy (some p) resolve requires) := by
  refine (Ensures.tryCatch (fun s u s' hbody => ?_) fun e => ?_).bind fun _ =>
    keeps_callWithout _ _
  · obtain ⟨-, s₁, -, hbody⟩ := Program.bind_eq_ok hbody
    obtain ⟨_, s₂, hdeploy, hbody⟩ := Program.bind_eq_ok hbody
    have hs₂ := Provider.ensures_deploy hp hreload requires s₁
    rw [hdeploy] at hs₂
    unfold Executor.setDeployed at hbody
    rw [if_neg hs₂.1] at hbody
    cases hbody
    exact hs₂
  · obtain ⟨state, hdry, hnc, h⟩ := Executor.deployExceptClauses_eq e
    rw [h]
    exact ensures_setResourceState hdry hnc

theorem succeeds_setResourceState {state : HandlerResourceState} (hnc : state ≠ .nonCompliant) :
    Program.Succeeds (setResourceState (W := W) (V := V) state) := by
  intro s
  unfold setResourceState
  rw [if_neg fun h => hnc h.1]
  exact ⟨(), _, rfl⟩

/-- All that a deploy can raise is what `close` raises. -/
theorem Executor.succeeds_deploy {p : Provider W V} (hclose : ∀ w, ∃ w', p.close w = (.ok (), w'))
    (resolve : Method W V Unit) (requires : List ResourceStatus) :
    Program.Succeeds (Executor.deploy (some p) resolve requires) := by
  refine (Program.Succeeds.tryCatch fun e => ?_).bind fun _ s => ?_
  · obtain ⟨state, -, hnc, h⟩ := Executor.deployExceptClauses_eq e
    rw [h]
    exact succeeds_setResourceState hnc
  · obtain ⟨w', hw'⟩ := hclose s.world
    refine ⟨(), { s with world := w', calls := s.calls ++ [.close] }, ?_⟩
    simp only [callWithout, call, hw']

/-- A handler that raises wherever it can. -/
def raisingHandler : CrudHandler Unit Nat where
  fields := ["purged"]
  pre := fun s => (.ok (), s)
  readResource := fun _ s => (.error .other, s)
  calculateDiff := fun _ _ s => (.error .other, s)
  createResource := fun _ s => (.error .other, s)
  deleteResource := fun _ s => (.error .other, s)
  updateResource := fun _ _ s => (.error .other, s)
  post := fun s => (.error .other, s)

end

end Handlers

end Inmanta
