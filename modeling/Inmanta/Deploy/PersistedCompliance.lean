import Inmanta.Deploy.RegisteredDeploys

/-!
# Persisted compliance

The compliance of a resource is a field in memory, but the database only
has the columns it can be derived from, and these are written by
different operations, after the scheduler lock was released.

`Mirrors` and `IntentWritten` say what the columns are to be like for a
compliance to be read back. `Persisted` states this for the row of every
managed resource as it will be once the result of its deploy is written,
and `persisted_compliance` concludes that the two agree as soon as
nothing is left to be written, provided that no hash comes back: the
columns can not tell a resource that got back the hash it was last
deployed with from one that never changed.
-/

namespace Inmanta

/-! ## Rows -/

namespace ResourcePersistentState

variable {row : ResourcePersistentState} {intent : ResourceIntent} {c : Compliance}

/-- The row after the result of a deploy was written. -/
def deployDone (row : ResourcePersistentState) (intent : DeployIntent) (report : DeployReport)
    (state : Option ResourceState) (finished : Time) : ResourcePersistentState :=
  { row with
    lastDeployedAttributeHash := some intent.intent.attributeHash
    lastHandlerRun := (state.map (·.lastHandlerRun)).getD row.lastHandlerRun
    lastHandlerRunCompliant := (state.bind (·.lastHandlerRunCompliant)).or
      row.lastHandlerRunCompliant
    lastHandlerRunAt := some finished
    lastSuccess :=
      if report.resourceState = .deployed then some intent.deployStart else row.lastSuccess
    lastProducedEvents := some finished }

/-- The row after the intent of a resource was written. -/
def intentWritten (row : ResourcePersistentState) (state : ResourceState)
    (intent : ResourceIntent) : ResourcePersistentState :=
  { row with
    currentIntentAttributeHash := some intent.attributeHash
    isUndefined := state.compliance = .undefined
    orphanedAfter := none
    blocked := state.blocked.dbValue }

/-- The columns about the last deploy are those of a resource with this intent and
compliance. -/
structure Mirrors (row : ResourcePersistentState) (intent : ResourceIntent) (c : Compliance) :
    Prop where
  hasUpdate : c = .hasUpdate → row.lastDeployedAttributeHash ≠ some intent.attributeHash
  deployed : c = .compliant ∨ c = .nonCompliant →
    row.lastDeployedAttributeHash = some intent.attributeHash ∧ row.lastHandlerRun ≠ .new
  compliant : c = .compliant → row.lastHandlerRunCompliant = some true
  nonCompliant : c = .nonCompliant → row.lastHandlerRunCompliant ≠ some true

/-- The columns about the intent are. -/
structure IntentWritten (row : ResourcePersistentState) (intent : ResourceIntent)
    (c : Compliance) : Prop where
  hash : row.currentIntentAttributeHash = some intent.attributeHash
  isUndefined : row.isUndefined = decide (c = .undefined)
  managed : row.orphanedAfter = none

/-- Both ways to read the compliance of a row. -/
theorem Mirrors.compliance (hm : row.Mirrors intent c) (hw : row.IntentWritten intent c) :
    row.complianceStatus = some c ∧ row.restoredCompliance = some c := by
  unfold complianceStatus restoredCompliance getComplianceStatus
  rw [hw.managed, hw.isUndefined, hw.hash]
  cases c with
  | undefined => simp
  | hasUpdate =>
      have hne := hm.hasUpdate rfl
      have hor : row.lastDeployedAttributeHash = none
          ∨ some intent.attributeHash ≠ row.lastDeployedAttributeHash := Or.inr fun he => hne he.symm
      simp [hor]
  | compliant =>
      obtain ⟨hl, hnew⟩ := hm.deployed (Or.inl rfl)
      simp [hl, hnew, hm.compliant rfl]
  | nonCompliant =>
      obtain ⟨hl, hnew⟩ := hm.deployed (Or.inr rfl)
      simp [hl, hnew, hm.nonCompliant rfl]

theorem Mirrors.of_columns {row' : ResourcePersistentState} (h : row.Mirrors intent c)
    (hhash : row'.lastDeployedAttributeHash = row.lastDeployedAttributeHash)
    (hrun : row'.lastHandlerRun = row.lastHandlerRun)
    (hcompliant : row'.lastHandlerRunCompliant = row.lastHandlerRunCompliant) :
    row'.Mirrors intent c where
  hasUpdate := fun hc => hhash ▸ h.hasUpdate hc
  deployed := fun hc => by
    rw [hhash, hrun]
    exact h.deployed hc
  compliant := fun hc => hcompliant ▸ h.compliant hc
  nonCompliant := fun hc => hcompliant ▸ h.nonCompliant hc

theorem Mirrors.of_undefined (row : ResourcePersistentState) (intent : ResourceIntent) :
    row.Mirrors intent .undefined := by
  constructor <;> intro h <;> simp at h

theorem Mirrors.of_hasUpdate
    (h : row.lastDeployedAttributeHash ≠ some intent.attributeHash) :
    row.Mirrors intent .hasUpdate := by
  refine ⟨fun _ => h, ?_, ?_, ?_⟩ <;> intro h <;> simp at h

end ResourcePersistentState

namespace PersistentStates

open ResourcePersistentState

variable {rows rows' : PersistentStates} {r x : ResourceIdStr}

theorem get?_update (rows : PersistentStates) (r x : ResourceIdStr)
    (f : ResourcePersistentState → ResourcePersistentState) :
    (rows.update r f).get? x = if x = r then (rows.get? x).map f else rows.get? x := by
  unfold update
  cases hr : rows.get? r with
  | none =>
      by_cases hx : x = r
      · simp [hx, hr]
      · simp [hx]
  | some row =>
      simp only
      rw [Dict.get?_set]
      split
      · next hx => rw [hx, hr]; rfl
      · rfl

/-- The rows there were, and empty ones. -/
structure Populated (rows rows' : PersistentStates) : Prop where
  keeps : ∀ r row, rows.get? r = some row → rows'.get? r = some row
  new : ∀ r row, rows'.get? r = some row →
    rows.get? r = some row ∨ (rows.get? r = none ∧ row.lastDeployedAttributeHash = none)

theorem Populated.refl (rows : PersistentStates) : Populated rows rows :=
  ⟨fun _ _ h => h, fun _ _ h => Or.inl h⟩

theorem Populated.trans {rows'' : PersistentStates} (h : Populated rows rows')
    (h' : Populated rows' rows'') : Populated rows rows'' where
  keeps := fun r row hr => h'.keeps r row (h.keeps r row hr)
  new := fun r row hr => by
    rcases h'.new r row hr with hr | ⟨hnone, hl⟩
    · exact h.new r row hr
    · refine Or.inr ⟨?_, hl⟩
      by_contra hne
      obtain ⟨row', hr'⟩ := Option.ne_none_iff_exists'.mp hne
      cases hnone.symm.trans (h.keeps r row' hr')

theorem Populated.mem (h : Populated rows rows') (hr : r ∈ rows) : r ∈ rows' := by
  obtain ⟨row, hrow⟩ := Dict.mem_iff.mp hr
  exact Dict.mem_of_get? (h.keeps r row hrow)

theorem populateForVersion_spec (rows : PersistentStates) (model : ModelVersion) :
    Populated rows (rows.populateForVersion model)
      ∧ ∀ r ∈ model.resources, r ∈ rows.populateForVersion model := by
  have hall := foldl_induct (l := model.resources.items)
    (f := fun (rows : PersistentStates) (e : ResourceIdStr × ResourceIntent) =>
      if e.1 ∈ rows then rows else rows.set e.1 (.populated e.2 (e.1 ∈ model.undefined)))
    (I := fun pre rows' => Populated rows rows' ∧ ∀ e ∈ pre, e.1 ∈ rows')
    (fun pre e post rows' _ hI => ?_) (s := rows) ⟨.refl rows, fun e he => absurd he List.not_mem_nil⟩
  · refine ⟨hall.1, fun r hr => ?_⟩
    obtain ⟨i, hi⟩ := Dict.mem_iff.mp hr
    exact hall.2 (r, i) (Dict.get?_eq_some_iff.mp hi)
  · obtain ⟨hpop, hmem⟩ := hI
    split
    · next he =>
      refine ⟨hpop, fun e' he' => ?_⟩
      rcases List.mem_append.mp he' with he' | he'
      · exact hmem e' he'
      · rw [List.mem_singleton.mp he']
        exact he
    · next he =>
      refine ⟨hpop.trans ⟨fun r row hr => ?_, fun r row hr => ?_⟩, fun e' he' => ?_⟩
      · have hne : r ≠ e.1 := fun hre => he (hre ▸ Dict.mem_of_get? hr)
        rw [Dict.get?_set, if_neg hne, hr]
      · rw [Dict.get?_set] at hr
        split at hr
        · next hre =>
          obtain rfl := Option.some.inj hr
          exact Or.inr ⟨hre ▸ Dict.not_mem_iff.mp he, rfl⟩
        · exact Or.inl hr
      · rcases List.mem_append.mp he' with he' | he'
        · exact Dict.mem_set.mpr (Or.inr (hmem e' he'))
        · rw [List.mem_singleton.mp he']
          exact Dict.mem_set.mpr (Or.inl rfl)

theorem populateAll_spec (versions : List ModelVersion) (rows : PersistentStates) :
    Populated rows (versions.foldl populateForVersion rows)
      ∧ ∀ v ∈ versions, ∀ r ∈ v.resources, r ∈ versions.foldl populateForVersion rows := by
  refine foldl_induct (I := fun (pre : List ModelVersion) (rows' : PersistentStates) =>
    Populated rows rows' ∧ ∀ v ∈ pre, ∀ r ∈ v.resources, r ∈ rows') (fun pre v post rows' _ hI => ?_)
    ⟨.refl rows, fun v hv => absurd hv List.not_mem_nil⟩
  obtain ⟨hpop, hmem⟩ := populateForVersion_spec rows' v
  refine ⟨hI.1.trans hpop, fun v' hv' r hr => ?_⟩
  rcases List.mem_append.mp hv' with hv' | hv'
  · exact hpop.mem (hI.2 v' hv' r hr)
  · rw [List.mem_singleton.mp hv'] at hr
    exact hmem r hr

/-- What is written for a new version: the intent of some resources, and which ones
are orphans. -/
theorem updateResourceIntent_spec {s : ModelState} {resources : List ResourceIdStr}
    (h : rows.updateResourceIntent s resources = .ok rows') :
    ∀ r, rows'.get? r = (rows.get? r).map fun row =>
      if r ∈ resources then
        match s.resourceState.get? r, s.intent.get? r with
        | some state, some intent => row.intentWritten state intent
        | _, _ => row
      else row := by
  refine foldlM_invariant (I := fun pre rows' => ∀ r, rows'.get? r = (rows.get? r).map fun row =>
      if r ∈ pre then
        match s.resourceState.get? r, s.intent.get? r with
        | some state, some intent => row.intentWritten state intent
        | _, _ => row
      else row) (fun pre r post rows₁ rows₂ _ hI hok x => ?_) (fun r => by simp) h
  obtain ⟨state, hstate, hok⟩ := bind_eq_ok.mp hok
  obtain ⟨intent, hintent, hok⟩ := bind_eq_ok.mp hok
  obtain rfl := Except.ok.inj hok
  have hstate := Dict.get?_of_item hstate
  have hintent := Dict.get?_of_item hintent
  have hget := get?_update rows₁ r x (·.intentWritten state intent)
  change (rows₁.update r (·.intentWritten state intent)).get? x = _
  rw [hget, hI x]
  cases rows.get? x with
  | none => simp
  | some row =>
      by_cases hx : x = r
      · subst hx
        by_cases hpre : x ∈ pre <;> simp [hpre, hstate, hintent, intentWritten]
      · simp [hx]

/-- Marking orphans only changes the rows of the orphans, and one column of them. -/
theorem markAsOrphan_spec (rows : PersistentStates) (orphans : List (ResourceIdStr × ℕ))
    (hr : ∀ e ∈ orphans, e.1 ≠ r) : (rows.markAsOrphan orphans).get? r = rows.get? r := by
  refine foldl_induct (I := fun _ (rows' : PersistentStates) => rows'.get? r = rows.get? r)
    (fun pre e post rows' hl hI => ?_) rfl
  rw [get?_update, if_neg fun he => hr e (by simp [hl]) he.symm]
  exact hI

theorem markAllOrphans_spec (rows : PersistentStates) {maxVersion : ResourceIdStr → Option ℕ}
    {version : ℕ} (hr : ∀ v, maxVersion r = some v → version ≤ v) :
    (rows.markAllOrphans maxVersion version).get? r = rows.get? r := by
  refine foldl_induct (I := fun _ (rows' : PersistentStates) => rows'.get? r = rows.get? r)
    (fun pre x post rows' _ hI => ?_) rfl
  cases hx : maxVersion x with
  | none => simpa [hx] using hI
  | some v =>
      by_cases hv : v < version
      · have hne : r ≠ x := fun he => absurd (hr v (he ▸ hx)) (not_le.mpr hv)
        simp only [if_pos hv]
        rw [get?_update, if_neg hne]
        exact hI
      · simpa [hx, hv] using hI

end PersistentStates

/-! ## Runs -/

namespace System

open PersistentStates ResourcePersistentState

/-- The row of a resource once the result of its deploy is written. -/
def settledRow (s : System) (r : ResourceIdStr) (row : ResourcePersistentState) :
    ResourcePersistentState :=
  match s.progress.get? r with
  | some (.reported deploy report (.ok state) finished) =>
      row.deployDone deploy report (some state) finished
  | some (.reported deploy report (.error .staleResource) finished) =>
      row.deployDone deploy report none finished
  | _ => row

/-- The hash of the last deploy once its result is written. -/
def lastDeployedHash (s : System) (r : ResourceIdStr) : Option String :=
  match s.progress.get? r with
  | some (.reported deploy _ (.ok _) _) | some (.reported deploy _ (.error .staleResource) _) =>
      some deploy.intent.attributeHash
  | _ => (s.rows.get? r).bind (·.lastDeployedAttributeHash)

/-- The result of a deploy of the resource is still to be written. -/
def AwaitsWrite (s : System) (r : ResourceIdStr) : Prop :=
  ∃ deploy report result finished,
    s.progress.get? r = some (.reported deploy report result finished)

/-- Once nothing is left to be written, the compliance of a managed resource can be
read back from its row. -/
def ComplianceAgrees (s : System) : Prop :=
  ∀ r c, s.scheduler.state.compliance? r = some c → s.pendingWrite = none → ¬ s.AwaitsWrite r →
    ∃ row, s.rows.get? r = some row ∧ row.complianceStatus = some c
      ∧ row.restoredCompliance = some c

/-- The rows agree with the scheduler, up to what is still to be written. -/
structure Persisted (s : System) : Prop where
  registry : s.Registry
  outdated : s.OutdatedDeploys
  named : ∀ r deploy report result finished,
    s.progress.get? r = some (.reported deploy report result finished) → report.resourceId = r
  unmanaged : ∀ r ∈ s.scheduler.deployingUnmanaged, ∀ deploy i c,
    s.progress.get? r = some (.started deploy) → s.scheduler.state.intent.get? r = some i →
    s.scheduler.state.compliance? r = some c →
    c = .undefined ∨ (c = .hasUpdate ∧ i.attributeHash ≠ deploy.intent.attributeHash)
  rows : ∀ r i c, s.scheduler.state.intent.get? r = some i →
    s.scheduler.state.compliance? r = some c →
    ∃ row, s.rows.get? r = some row ∧ (s.settledRow r row).Mirrors i c
      ∧ ((∀ w, s.pendingWrite = some w → r ∉ w.intent) → row.IntentWritten i c)
  orphans : ∀ w, s.pendingWrite = some w → ∀ e ∈ w.orphans, e.1 ∉ s.scheduler.state.intent

theorem Persisted.init (timers : TimerManager) (complianceReporting : Bool) :
    (System.init timers complianceReporting).Persisted where
  registry := .init timers complianceReporting
  outdated := .init timers complianceReporting
  named := fun _ _ _ _ _ h => by cases h
  unmanaged := fun _ h => absurd h List.not_mem_nil
  rows := fun _ _ _ h => by cases h
  orphans := fun _ h => by cases h

variable {s s' : System} {a : Action}

theorem settledRow_of_not_awaits {r : ResourceIdStr} (h : ¬ s.AwaitsWrite r)
    (row : ResourcePersistentState) : s.settledRow r row = row := by
  unfold settledRow
  split
  · next hph => exact absurd ⟨_, _, _, _, hph⟩ h
  · next hph => exact absurd ⟨_, _, _, _, hph⟩ h
  · rfl

theorem Persisted.complianceAgrees (h : s.Persisted) : s.ComplianceAgrees := by
  intro r c hc hw hno
  have hv := h.registry.consistent.scheduler.state
  obtain ⟨rs, hrs, -⟩ := Option.map_eq_some_iff.mp hc
  obtain ⟨i, hi⟩ := Dict.mem_iff.mp ((hv.intent r).mpr (Dict.mem_of_get? hrs))
  obtain ⟨row, hrow, hm, hwritten⟩ := h.rows r i c hi hc
  rw [settledRow_of_not_awaits hno] at hm
  refine ⟨row, hrow, hm.compliance (hwritten fun w hw' => ?_)⟩
  cases hw.symm.trans hw'

/-- Only the phases of a deploy, the intent, the compliance and what is written
matter. -/
theorem Persisted.congr (h : s.Persisted) (hreg : s'.Registry) (hout : s'.OutdatedDeploys)
    (hstarted : ∀ r deploy, s'.progress.get? r = some (.started deploy) →
      r ∈ s'.scheduler.deployingUnmanaged → s.progress.get? r = some (.started deploy))
    (hreported : ∀ r deploy report result finished,
      s'.progress.get? r = some (.reported deploy report result finished) ↔
      s.progress.get? r = some (.reported deploy report result finished))
    (hintent : s'.scheduler.state.intent = s.scheduler.state.intent)
    (hcompl : ∀ r, s'.scheduler.state.compliance? r = s.scheduler.state.compliance? r)
    (hunmanaged : s'.scheduler.deployingUnmanaged = s.scheduler.deployingUnmanaged)
    (hrows : s'.rows = s.rows) (hwrite : s'.pendingWrite = s.pendingWrite) : s'.Persisted where
  registry := hreg
  outdated := hout
  named := fun r deploy report result finished hph =>
    h.named r deploy report result finished ((hreported ..).mp hph)
  unmanaged := fun r hr deploy i c hph hi hc =>
    h.unmanaged r (hunmanaged ▸ hr) deploy i c (hstarted r deploy hph hr) (hintent ▸ hi)
      (hcompl r ▸ hc)
  rows := fun r i c hi hc => by
    obtain ⟨row, hrow, hm, hwritten⟩ := h.rows r i c (hintent ▸ hi) (hcompl r ▸ hc)
    refine ⟨row, hrows ▸ hrow, ?_, fun hw => hwritten (hwrite ▸ hw)⟩
    have hsettled : s'.settledRow r row = s.settledRow r row := by
      unfold settledRow
      cases hph : s.progress.get? r with
      | none =>
          cases hph' : s'.progress.get? r with
          | none => rfl
          | some phase =>
              cases phase with
              | reported _ _ _ _ => cases hph.symm.trans ((hreported ..).mp hph')
              | _ => rfl
      | some phase =>
          cases phase with
          | reported deploy report result finished => rw [(hreported ..).mpr hph]
          | _ =>
              cases hph' : s'.progress.get? r with
              | none => rfl
              | some phase' =>
                  cases phase' with
                  | reported _ _ _ _ => cases hph.symm.trans ((hreported ..).mp hph')
                  | _ => rfl
    rw [hsettled]
    exact hm
  orphans := fun w hw e he => by
    rw [hintent]
    exact h.orphans w (hwrite ▸ hw) e he

/-- A deploy moves on, but not to or from the phase in which it awaits its write. -/
theorem Persisted.moved (h : s.Persisted) {r : ResourceIdStr} {phase : DeployPhase}
    (hreg : s'.Registry) (hout : s'.OutdatedDeploys)
    (hprogress : s'.progress = s.progress.set r phase) (hold : ¬ s.AwaitsWrite r)
    (hnew : ∀ deploy report result finished, phase ≠ .reported deploy report result finished)
    (hstarted : ∀ deploy, phase = .started deploy → r ∉ s.scheduler.deployingUnmanaged)
    (hstate : s'.scheduler.state = s.scheduler.state)
    (hunmanaged : s'.scheduler.deployingUnmanaged = s.scheduler.deployingUnmanaged)
    (hrows : s'.rows = s.rows) (hwrite : s'.pendingWrite = s.pendingWrite) : s'.Persisted := by
  have hget : ∀ x, s'.progress.get? x = if x = r then some phase else s.progress.get? x :=
    fun x => hprogress ▸ Dict.get?_set _ _ _ _
  refine h.congr hreg hout (fun x deploy hx hun => ?_) (fun x deploy report result finished => ?_)
    (congrArg ModelState.intent hstate) (fun x => by rw [hstate]) hunmanaged hrows hwrite
  · rw [hget] at hx
    split at hx
    · next hxr =>
      rw [hunmanaged, hxr] at hun
      exact absurd hun (hstarted deploy (Option.some.inj hx))
    · exact hx
  · rw [hget]
    split
    · next hxr =>
      rw [hxr]
      exact iff_of_false (fun he => hnew _ _ _ _ (Option.some.inj he))
        fun he => hold ⟨_, _, _, _, he⟩
    · exact Iff.rfl

/-- A deploy in another phase does not await its write. -/
theorem not_awaitsWrite {r : ResourceIdStr} {phase : DeployPhase}
    (hph : s.progress.get? r = some phase)
    (hne : ∀ deploy report result finished, phase ≠ .reported deploy report result finished) :
    ¬ s.AwaitsWrite r := by
  rintro ⟨_, _, _, _, he⟩
  exact hne _ _ _ _ (Option.some.inj (hph.symm.trans he))

/-! ### Writes -/

/-- Writing the intent does not touch the columns about the last deploy. -/
theorem settledRow_intentWritten {r : ResourceIdStr} {row : ResourcePersistentState}
    {intent : ResourceIntent} {c : Compliance} (h : (s.settledRow r row).Mirrors intent c)
    (state : ResourceState) (i : ResourceIntent) :
    (s.settledRow r (row.intentWritten state i)).Mirrors intent c := by
  refine h.of_columns ?_ ?_ ?_ <;> unfold settledRow <;> split <;> rfl

/-- The resources that are managed by now were last seen in the current version. -/
def SeesManaged (s : System) (maxVersion : ResourceIdStr → Option ℕ) : Prop :=
  ∀ r ∈ s.scheduler.state.intent, ∀ v, maxVersion r = some v → s.scheduler.state.version ≤ v

instance (s : System) (maxVersion : ResourceIdStr → Option ℕ) :
    Decidable (s.SeesManaged maxVersion) :=
  decidable_of_iff (∀ r ∈ s.scheduler.state.intent.keys,
      (maxVersion r).all (fun v => decide (s.scheduler.state.version ≤ v)) = true) (by
    simp [SeesManaged, Dict.mem_keys, Option.all_eq_true])

theorem Persisted.writeVersion (h : s.Persisted) {w : VersionWrite}
    {maxVersion : ResourceIdStr → Option ℕ} {rows : PersistentStates}
    (hsees : s.SeesManaged maxVersion) (hw : s.pendingWrite = some w)
    (hrows : s.rows.writeVersion s.scheduler.state w maxVersion = .ok rows)
    (hreg : System.Registry { s with rows, pendingWrite := none })
    (hout : System.OutdatedDeploys { s with rows, pendingWrite := none }) :
    System.Persisted { s with rows, pendingWrite := none } := by
  obtain ⟨rows₁, hrows₁, hok⟩ := bind_eq_ok.mp hrows
  have hspec := updateResourceIntent_spec hrows₁
  have hget : ∀ r ∈ s.scheduler.state.intent, rows.get? r = rows₁.get? r := fun r hr => by
    obtain rfl := Except.ok.inj hok
    split
    · exact markAllOrphans_spec rows₁ (hsees r hr)
    · exact markAsOrphan_spec rows₁ w.orphans fun e he hre => h.orphans w hw e he (hre ▸ hr)
  refine ⟨hreg, hout, h.named, h.unmanaged, fun r i c hi hc => ?_, fun _ hw' => by cases hw'⟩
  obtain ⟨row, hrow, hm, hwritten⟩ := h.rows r i c hi hc
  have hi' : s.scheduler.state.intent.get? r = some i := hi
  obtain ⟨rs, hrs, rfl⟩ := Option.map_eq_some_iff.mp hc
  have hr := (hget r (Dict.mem_of_get? hi')).trans (hspec r)
  rw [hrow] at hr
  by_cases hmem : r ∈ w.intent
  · refine ⟨row.intentWritten rs i, hr.trans ?_, settledRow_intentWritten hm rs i,
      fun _ => ⟨rfl, rfl, rfl⟩⟩
    simp [hmem, hrs, hi']
  · refine ⟨row, hr.trans ?_, hm, fun _ => hwritten fun w' hw' => ?_⟩
    · simp [hmem]
    · obtain rfl := Option.some.inj (hw.symm.trans hw')
      exact hmem

theorem get?_sentRows {r : ResourceIdStr} {deploy : DeployIntent} {report : DeployReport}
    {result : Except PyError ResourceState} {finished : Time}
    (hph : s.progress.get? r = some (.reported deploy report result finished))
    (hr : report.resourceId = r) (x : ResourceIdStr) :
    (sentRows s.rows deploy report finished result).get? x =
      if x = r then (s.rows.get? x).map (s.settledRow r) else s.rows.get? x := by
  have hupdate : ∀ state, (s.rows.sendDeployDone deploy report state finished).get? x =
      if x = r then (s.rows.get? x).map (·.deployDone deploy report state finished)
      else s.rows.get? x := fun state => hr ▸ get?_update s.rows report.resourceId x _
  have hsame : s.rows.get? x =
      if x = r then (s.rows.get? x).map (fun row => row) else s.rows.get? x := by
    split
    · exact Option.map_id'.symm ▸ rfl
    · rfl
  have hsettled : s.settledRow r = fun row => s.settledRow r row := rfl
  rw [hsettled]
  unfold settledRow
  rw [hph]
  cases result with
  | ok state => exact hupdate (some state)
  | error e =>
      cases e with
      | staleResource => exact hupdate none
      | _ => exact hsame

theorem Persisted.sent (h : s.Persisted) {r : ResourceIdStr} {deploy : DeployIntent}
    {report : DeployReport} {result : Except PyError ResourceState} {finished : Time}
    (hph : s.progress.get? r = some (.reported deploy report result finished))
    (hreg : System.Registry { s.setPhase r .written with
      rows := sentRows s.rows deploy report finished result })
    (hout : System.OutdatedDeploys { s.setPhase r .written with
      rows := sentRows s.rows deploy report finished result }) :
    System.Persisted { s.setPhase r .written with
      rows := sentRows s.rows deploy report finished result } := by
  have hget : ∀ x, (s.progress.set r .written).get? x =
      if x = r then some .written else s.progress.get? x := fun x => Dict.get?_set _ _ _ _
  have hold : ∀ x, x ≠ r → (s.progress.set r .written).get? x = s.progress.get? x :=
    fun x hx => (hget x).trans (if_neg hx)
  have hself : (s.progress.set r .written).get? r = some .written := (hget r).trans (if_pos rfl)
  refine ⟨hreg, hout, fun x d rep res fin hx => ?_, fun x hx d i c hd hi hc => ?_,
    fun x i c hi hc => ?_, h.orphans⟩
  · have hx : (s.progress.set r .written).get? x = _ := hx
    by_cases hxr : x = r
    · rw [hxr, hself] at hx
      cases hx
    · exact h.named x d rep res fin ((hold x hxr).symm.trans hx)
  · have hd : (s.progress.set r .written).get? x = _ := hd
    by_cases hxr : x = r
    · rw [hxr, hself] at hd
      cases hd
    · exact h.unmanaged x hx d i c ((hold x hxr).symm.trans hd) hi hc
  · obtain ⟨row, hrow, hm, hwritten⟩ := h.rows x i c hi hc
    have hsent := get?_sentRows hph (h.named r _ _ _ _ hph) x
    by_cases hxr : x = r
    · subst hxr
      rw [if_pos rfl, hrow] at hsent
      refine ⟨s.settledRow x row, hsent, ?_, fun hw => ?_⟩
      · rw [settledRow_of_not_awaits]
        · exact hm
        · rintro ⟨d, rep, res, fin, hx⟩
          cases hself.symm.trans hx
      · have hwr := hwritten hw
        unfold settledRow
        split
        · exact ⟨hwr.hash, hwr.isUndefined, hwr.managed⟩
        · exact ⟨hwr.hash, hwr.isUndefined, hwr.managed⟩
        · exact hwr
    · rw [if_neg hxr, hrow] at hsent
      refine ⟨row, hsent, ?_, hwritten⟩
      unfold settledRow
      change Mirrors (match (s.progress.set r .written).get? x with
        | some (.reported deploy report (.ok state) finished) =>
            row.deployDone deploy report (some state) finished
        | some (.reported deploy report (.error .staleResource) finished) =>
            row.deployDone deploy report none finished
        | _ => row) i c
      rw [hold x hxr]
      exact hm

/-! ### Reports -/

/-- What a report leads to is what is written for it. -/
theorem Persisted.mirrors_reported (h : s.Persisted) {report : DeployReport} {finished : Time}
    {deploy : DeployIntent} {scheduler : Scheduler} {result : Except PyError ResourceState}
    (row : ResourcePersistentState) {i : ResourceIntent} {c : Compliance}
    (hrep : s.scheduler.Reported deploy report finished scheduler result)
    (hph : s.progress.get? report.resourceId = some (.started deploy))
    (hi : s.scheduler.state.intent.get? report.resourceId = some i)
    (hc : scheduler.state.compliance? report.resourceId = some c) :
    ((s.setPhase report.resourceId (.reported deploy report result finished)).settledRow
      report.resourceId row).Mirrors i c
      ∧ (c = .undefined ↔ s.scheduler.state.compliance? report.resourceId = some .undefined) := by
  have hself : (s.setPhase report.resourceId
      (.reported deploy report result finished)).progress.get? report.resourceId
      = some (.reported deploy report result finished) :=
    (Dict.get?_set _ _ _ _).trans (if_pos rfl)
  have hold : s.scheduler.state.compliance? report.resourceId = some c →
      (c = .undefined ↔ s.scheduler.state.compliance? report.resourceId = some .undefined) :=
    fun hc => by rw [hc, Option.some.injEq]
  -- the compliance stays that of an outdated resource
  have houtdated : ∀ state : Option ResourceState, c = .undefined
      ∨ (c = .hasUpdate ∧ i.attributeHash ≠ deploy.intent.attributeHash) →
      (row.deployDone deploy report state finished).Mirrors i c := fun state hcase => by
    rcases hcase with rfl | ⟨rfl, hne⟩
    · exact .of_undefined _ i
    · exact .of_hasUpdate fun he => hne (Option.some.inj he).symm
  unfold settledRow
  rw [hself]
  cases hrep with
  | unmanaged hun =>
      refine ⟨houtdated none ?_, hold hc⟩
      have hun := hun.resolve_left fun hno => hno (Dict.mem_of_get? hi)
      exact h.unmanaged _ hun deploy i c hph hi hc
  | @stale i' st _ handlerResult _ hi' _ hrs _ hstale he _ =>
      have hst : st.compliance = c := by
        have hset : (s.scheduler.state.setState report.resourceId
            (Scheduler.staleState st handlerResult finished)).compliance? report.resourceId
            = some (Scheduler.staleState st handlerResult finished).compliance :=
          ModelState.compliance?_of_get? ((Dict.get?_set _ _ _ _).trans (if_pos rfl))
        exact Option.some.inj (hset.symm.trans ((he.same.compliance? _).symm.trans hc))
      have hc' : s.scheduler.state.compliance? report.resourceId = some c :=
        (ModelState.compliance?_of_get? hrs).trans (congrArg some hst)
      obtain rfl := Option.some.inj (hi'.symm.trans hi)
      refine ⟨houtdated _ ?_, hold hc'⟩
      rcases hstale with hne | hund
      · rcases h.outdated _ deploy i' hph hi hne with hout | hout
        · exact Or.inr ⟨Option.some.inj (hc'.symm.trans hout), hne⟩
        · exact Or.inl (Option.some.inj (hc'.symm.trans hout))
      · exact Or.inl (hst.symm.trans hund)
  | lost hi' hun hrs hhash hund hl =>
      refine absurd (h.registry.registered _ deploy hph ⟨⟨_, hi', hhash⟩, ?_, hun⟩) hl
      exact (Scheduler.not_isUndefined_iff hrs).mpr hund
  | @latest i' st rs' handlerResult skip s₁ _ hi' _ hrs hresult hhash hund _ hland he hrs' =>
      obtain rfl := Option.some.inj (hi'.symm.trans hi)
      have hunblocked := he.same.state report.resourceId
      rw [hrs', hland.own] at hunblocked
      have hsame : rs'.unblocked =
          (Scheduler.landedState st report handlerResult finished skip).unblocked :=
        Option.some.inj hunblocked
      have hcompl : rs'.compliance = Scheduler.landedCompliance report :=
        congrArg ResourceState.compliance hsame
      have hrun : rs'.lastHandlerRun = handlerResult :=
        congrArg ResourceState.lastHandlerRun hsame
      have hcompliant : rs'.lastHandlerRunCompliant
          = some (decide (report.resourceState = .deployed)) :=
        congrArg ResourceState.lastHandlerRunCompliant hsame
      obtain rfl : c = Scheduler.landedCompliance report := by
        rw [ModelState.compliance?_of_get? hrs'] at hc
        exact (Option.some.inj hc).symm.trans hcompl
      have hdef : s.scheduler.state.compliance? report.resourceId ≠ some .undefined := by
        rw [ModelState.compliance?_of_get? hrs]
        exact fun he => hund (Option.some.inj he)
      have hnew := HandlerResult.ne_new hresult
      unfold Scheduler.landedCompliance
      by_cases hdep : report.resourceState = .deployed
      · simp only [if_pos hdep]
        refine ⟨⟨fun he => (by cases he), fun _ => ⟨?_, ?_⟩, fun _ => ?_, fun he => (by cases he)⟩,
          iff_of_false (fun he => (by cases he)) hdef⟩
        · exact congrArg some hhash.symm
        · exact fun hn => hnew (hrun.symm.trans hn)
        · simp [deployDone, hcompliant, hdep]
      · simp only [if_neg hdep]
        refine ⟨⟨fun he => (by cases he), fun _ => ⟨?_, ?_⟩, fun he => (by cases he), fun _ => ?_⟩,
          iff_of_false (fun he => (by cases he)) hdef⟩
        · exact congrArg some hhash.symm
        · exact fun hn => hnew (hrun.symm.trans hn)
        · simp [deployDone, hcompliant, hdep]

theorem Persisted.reported (h : s.Persisted) {report : DeployReport} {finished : Time}
    {deploy : DeployIntent} {scheduler : Scheduler} {result : Except PyError ResourceState}
    (hrep : s.scheduler.Reported deploy report finished scheduler result)
    (hph : s.progress.get? report.resourceId = some (.started deploy))
    (hreg : System.Registry
      { s.setPhase report.resourceId (.reported deploy report result finished) with scheduler })
    (hout : System.OutdatedDeploys
      { s.setPhase report.resourceId (.reported deploy report result finished) with scheduler }) :
    System.Persisted
      { s.setPhase report.resourceId (.reported deploy report result finished) with
        scheduler } := by
  have hget : ∀ x, x ≠ report.resourceId →
      (s.progress.set report.resourceId (.reported deploy report result finished)).get? x
        = s.progress.get? x := fun x hx => (Dict.get?_set _ _ _ _).trans (if_neg hx)
  have hself : (s.progress.set report.resourceId
      (.reported deploy report result finished)).get? report.resourceId
      = some (.reported deploy report result finished) :=
    (Dict.get?_set _ _ _ _).trans (if_pos rfl)
  have hother : ∀ x, x ≠ report.resourceId →
      scheduler.state.compliance? x = s.scheduler.state.compliance? x :=
    fun x hx => hrep.compliance?_other hx
  refine ⟨hreg, hout, fun x d rep res fin hx => ?_, fun x hx d i c hd hi hc => ?_,
    fun x i c hi hc => ?_, fun w hw e he => ?_⟩
  · by_cases hxr : x = report.resourceId
    · have hx := hself.symm.trans (hxr ▸ hx)
      simp only [Option.some.injEq, DeployPhase.reported.injEq] at hx
      rw [← hx.2.1, hxr]
    · exact h.named x d rep res fin ((hget x hxr).symm.trans hx)
  · have hxr : x ≠ report.resourceId := fun he => by
      cases hself.symm.trans (he ▸ hd)
    have hun : x ∈ s.scheduler.deployingUnmanaged := by
      cases hrep with
      | unmanaged _ => exact (mem_discard.mp hx).1
      | stale _ _ _ _ _ he _ => exact he.unmanaged ▸ hx
      | lost _ _ _ _ _ _ => exact hx
      | latest _ _ _ _ _ _ _ hland he _ => exact hland.unmanaged ▸ he.unmanaged ▸ hx
    have hi : scheduler.state.intent.get? x = some i := hi
    have hc : scheduler.state.compliance? x = some c := hc
    rw [hrep.intent] at hi
    rw [hother x hxr] at hc
    exact h.unmanaged x hun d i c ((hget x hxr).symm.trans hd) hi hc
  · have hi : scheduler.state.intent.get? x = some i := hi
    rw [hrep.intent] at hi
    by_cases hxr : x = report.resourceId
    · subst hxr
      have hc : scheduler.state.compliance? report.resourceId = some c := hc
      obtain ⟨st, hst⟩ := Dict.mem_iff.mp
        ((h.registry.consistent.scheduler.state.intent _).mp (Dict.mem_of_get? hi))
      obtain ⟨row, hrow, -, hwritten⟩ :=
        h.rows _ i st.compliance hi (ModelState.compliance?_of_get? hst)
      obtain ⟨hm, hundef⟩ := h.mirrors_reported row hrep hph hi hc
      refine ⟨row, hrow, hm, fun hw => ?_⟩
      have hwr := hwritten hw
      refine ⟨hwr.hash, ?_, hwr.managed⟩
      rw [ModelState.compliance?_of_get? hst, Option.some.injEq] at hundef
      rw [hwr.isUndefined]
      exact decide_eq_decide.mpr hundef.symm
    · have hc : scheduler.state.compliance? x = some c := hc
      rw [hother x hxr] at hc
      obtain ⟨row, hrow, hm, hwritten⟩ := h.rows x i c hi hc
      refine ⟨row, hrow, ?_, hwritten⟩
      unfold settledRow
      change Mirrors (match (s.progress.set report.resourceId
          (.reported deploy report result finished)).get? x with
        | some (.reported deploy report (.ok state) finished) =>
            row.deployDone deploy report (some state) finished
        | some (.reported deploy report (.error .staleResource) finished) =>
            row.deployDone deploy report none finished
        | _ => row) i c
      rw [hget x hxr]
      exact hm
  · change e.1 ∉ scheduler.state.intent
    rw [hrep.intent]
    exact h.orphans w hw e he

/-! ### New versions -/

/-- A resource gets back the hash it was last deployed with, or is being deployed
with, by a change of its intent. -/
structure ComesBack (s : System) (u : VersionUpdate) (r : ResourceIdStr) : Prop where
  changes : u.Changes r
  defined : r ∉ u.model.undefined
  hash : ∃ i, u.model.resources.get? r = some i ∧ (s.lastDeployedHash r = some i.attributeHash
    ∨ ∃ deploy, s.progress.get? r = some (.started deploy)
      ∧ i.attributeHash = deploy.intent.attributeHash)

theorem settledRow_lastDeployed {r : ResourceIdStr} {row : ResourcePersistentState}
    (hrow : s.rows.get? r = some row
      ∨ (s.rows.get? r = none ∧ row.lastDeployedAttributeHash = none)) :
    (s.settledRow r row).lastDeployedAttributeHash = s.lastDeployedHash r := by
  have hold : row.lastDeployedAttributeHash =
      (s.rows.get? r).bind (·.lastDeployedAttributeHash) := by
    rcases hrow with hrow | ⟨hrow, hl⟩
    · rw [hrow]
      rfl
    · rw [hrow, hl]
      rfl
  unfold settledRow lastDeployedHash
  split
  · rfl
  · rfl
  · exact hold

theorem mem_deleted_of_orphan {u : VersionUpdate} {e : ResourceIdStr × ℕ} (he : e ∈ u.orphans) :
    e.1 ∈ u.deleted := by
  obtain ⟨⟨r, change⟩, hmem, hmatch⟩ := List.mem_filterMap.mp he
  cases change with
  | deleted v =>
      obtain rfl := Option.some.inj hmatch
      exact VersionUpdate.mem_deleted.mpr ⟨v, Dict.get?_eq_some_iff.mpr hmem⟩
  | _ => cases hmatch

theorem Persisted.newVersion (h : s.Persisted) {t : VersionTrace} {reason : String}
    {scheduler : Scheduler} {w : VersionWrite} {versions : List ModelVersion}
    (hnone : s.pendingWrite = none) (hpr : s.scheduler.state.prepare versions [] = .ok t.update)
    (ht : t.Applied reason s.scheduler scheduler w)
    (hback : ∀ r, ¬ s.ComesBack t.update r)
    (hreg : System.Registry { s with
      scheduler
      pendingWrite := some w
      rows := versions.foldl PersistentStates.populateForVersion s.rows })
    (hout : System.OutdatedDeploys { s with
      scheduler
      pendingWrite := some w
      rows := versions.foldl PersistentStates.populateForVersion s.rows }) :
    System.Persisted { s with
      scheduler
      pendingWrite := some w
      rows := versions.foldl PersistentStates.populateForVersion s.rows } := by
  have hv := h.registry.consistent.scheduler.state
  obtain ⟨hpop, hmem⟩ := populateAll_spec versions s.rows
  have hdel : ∀ r i, scheduler.state.intent.get? r = some i → r ∉ t.update.deleted :=
    fun r i hi hd => by
      rw [ht.intent_state, VersionUpdate.intentAfter, if_pos hd] at hi
      cases hi
  have hchanged : ∀ r i c, t.update.Changes r → scheduler.state.intent.get? r = some i →
      scheduler.state.compliance? r = some c → t.update.model.resources.get? r = some i
        ∧ (c = .undefined ∨ (c = .hasUpdate ∧ r ∉ t.update.model.undefined)) :=
    fun r i c hch hi hc => by
      refine ⟨?_, ?_⟩
      · rw [ht.intent_state, VersionUpdate.intentAfter, if_neg hch.not_deleted, if_pos hch] at hi
        exact hi
      · rw [ht.compliance?_changed hch] at hc
        split at hc
        · exact Or.inl (Option.some.inj hc).symm
        · next hdef => exact Or.inr ⟨(Option.some.inj hc).symm, hdef⟩
  have hsame : ∀ r i, ¬ t.update.Changes r → scheduler.state.intent.get? r = some i →
      s.scheduler.state.intent.get? r = some i
        ∧ scheduler.state.compliance? r = s.scheduler.state.compliance? r :=
    fun r i hch hi => by
      have hno := hdel r i hi
      refine ⟨?_, ht.compliance?_unchanged hno hch⟩
      rw [ht.intent_state, VersionUpdate.intentAfter, if_neg hno, if_neg hch] at hi
      exact hi
  refine ⟨hreg, hout, h.named, fun r hr deploy i c hph hi hc => ?_, fun r i c hi hc => ?_,
    fun w' hw e he hmanaged => ?_⟩
  · have hi : scheduler.state.intent.get? r = some i := hi
    have hc : scheduler.state.compliance? r = some c := hc
    by_cases hch : t.update.Changes r
    · obtain ⟨hmodel, hcase⟩ := hchanged r i c hch hi hc
      refine hcase.imp_right fun hcase => ⟨hcase.1, fun hhash => ?_⟩
      exact hback r ⟨hch, hcase.2, i, hmodel, Or.inr ⟨deploy, hph, hhash⟩⟩
    · obtain ⟨hi', hc'⟩ := hsame r i hch hi
      rcases (ht.unmanaged r).mp hr with hun | ⟨-, hn | hd⟩
      · exact h.unmanaged r hun deploy i c hph hi' (hc' ▸ hc)
      · exact absurd (Or.inl hn) hch
      · exact absurd hd (hdel r i hi)
  · have hi : scheduler.state.intent.get? r = some i := hi
    have hc : scheduler.state.compliance? r = some c := hc
    by_cases hch : t.update.Changes r
    · obtain ⟨hmodel, hcase⟩ := hchanged r i c hch hi hc
      obtain ⟨⟨model, changes⟩, hg, hok⟩ := bind_eq_ok.mp hpr
      have hmodel' : model = t.update.model := congrArg VersionUpdate.model (Except.ok.inj hok)
      obtain ⟨v, hv', hrv⟩ := getIntentChanges_mem hv hg r (hmodel' ▸ Dict.mem_of_get? hmodel)
      obtain ⟨row, hrow⟩ := Dict.mem_iff.mp (hmem v hv' r hrv)
      refine ⟨row, hrow, ?_, fun hw => ?_⟩
      · change (s.settledRow r row).Mirrors i c
        rcases hcase with rfl | ⟨rfl, hdef⟩
        · exact .of_undefined _ i
        · refine .of_hasUpdate fun hhash => ?_
          rw [settledRow_lastDeployed (hpop.new r row hrow)] at hhash
          exact hback r ⟨hch, hdef, i, hmodel, Or.inl hhash⟩
      · exact absurd ((ht.writeIntent r).mpr ⟨Or.inl hch, hdel r i hi⟩) (hw w rfl)
    · obtain ⟨hi', hc'⟩ := hsame r i hch hi
      obtain ⟨row, hrow, hm, hwritten⟩ := h.rows r i c hi' (hc' ▸ hc)
      exact ⟨row, hpop.keeps r row hrow, hm,
        fun _ => hwritten fun w' hw' => by cases hnone.symm.trans hw'⟩
  · obtain rfl := Option.some.inj hw
    rw [ht.orphans] at he
    obtain ⟨i, hi⟩ := Dict.mem_iff.mp hmanaged
    exact hdel e.1 i hi (mem_deleted_of_orphan he)

/-! ### Agreement -/

/-- The start of a deploy can be written, and the database knows which version has
the managed resources. -/
def WritesSucceed (s : System) : Action → Prop
  | .writeVersion maxVersion => s.SeesManaged maxVersion
  | .deployStart _ _ reachable => reachable = true
  | _ => True

/-- The new version forgets no deploy in progress, and brings no hash back. -/
def KeepsCompliance (s : System) : Action → Prop
  | .newVersion _ versions _ => ∀ u, s.scheduler.state.prepare versions [] = .ok u →
      (∀ r deploy, s.progress.get? r = some (.started deploy) → ¬ s.scheduler.Forgets u deploy r)
      ∧ ∀ r, ¬ s.ComesBack u r
  | _ => True

theorem KeepsCompliance.keepsRegistered (h : s.KeepsCompliance a) (hw : s.WritesSucceed a) :
    s.KeepsRegistered a := by
  cases a with
  | newVersion _ _ _ => exact fun u hu => (h u hu).1
  | deployStart _ _ _ => exact fun _ _ => hw
  | _ => trivial

/-- **What is persisted stays in step with the scheduler.** -/
theorem Persisted.step (h : s.Persisted) (hp : a.Permitted s) (hw : s.WritesSucceed a)
    (hgood : s.KeepsCompliance a) (hs : s.step a = some s') : s'.Persisted := by
  have hreg' := h.registry.step hp (hgood.keepsRegistered hw) hs
  have hstep := stepped h.registry.consistent hp hs
  have hout' := hstep.outdatedDeploys h.outdated
  cases hstep with
  | newVersion hnone hpr _ ht => exact h.newVersion hnone hpr ht (hgood _ hpr).2 hreg' hout'
  | writeVersion hw' hrows => exact h.writeVersion hw hw' hrows hreg' hout'
  | request _ hd =>
      have hintent := congrArg ModelState.intent hd.requested.state
      have hstate := congrArg ModelState.resourceState hd.requested.state
      refine h.congr hreg' hout' (fun _ _ hx _ => hx) (fun _ _ _ _ _ => Iff.rfl) hintent
        (fun r => ?_) hd.requested.unmanaged rfl rfl
      rw [ModelState.compliance?, hstate]
      rfl
  | picked _ _ hfree =>
      refine h.moved hreg' hout' rfl ?_ (fun _ _ _ _ he => by cases he)
        (fun _ he => by cases he) rfl rfl rfl rfl
      rintro ⟨_, _, _, _, he⟩
      exact hfree (Dict.mem_of_get? he)
  | other _ _ =>
      exact h.congr hreg' hout' (fun _ _ hx _ => hx) (fun _ _ _ _ _ => Iff.rfl) rfl
        (fun _ => rfl) rfl rfl rfl
  | notStarted hph _ =>
      exact h.moved hreg' hout' rfl (not_awaitsWrite hph fun _ _ _ _ he => by cases he)
        (fun _ _ _ _ he => by cases he) (fun _ he => by cases he) rfl rfl rfl rfl
  | @started r now reachable intent hph _ _ =>
      refine h.moved hreg' hout' rfl (not_awaitsWrite hph fun _ _ _ _ he => by cases he)
        (fun _ _ _ _ he => ?_) (fun _ _ hun => ?_) rfl rfl rfl rfl
      · cases reachable <;> cases he
      · obtain ⟨deploy, hd⟩ := h.registry.unmanaged r hun
        cases hph.symm.trans hd
  | @reported report finished intent scheduler result hph hrep =>
      rw [← enforce_resourceId s.scheduler report] at hph hreg' hout' ⊢
      exact h.reported hrep hph hreg' hout'
  | sent hph => exact h.sent hph hreg' hout'
  | finished hph =>
      exact h.moved hreg' hout' rfl (not_awaitsWrite hph fun _ _ _ _ he => by cases he)
        (fun _ _ _ _ he => by cases he) (fun _ he => by cases he) rfl rfl rfl rfl
  | @ended r q hph _ =>
      have hget : ∀ x, (s.progress.del r).get? x = if x = r then none else s.progress.get? x :=
        fun x => Dict.get?_del _ _ _
      refine h.congr hreg' hout' (fun x deploy hx _ => ?_) (fun x deploy report result finished => ?_)
        rfl (fun _ => rfl) rfl rfl rfl
      · have hx := (hget x).symm.trans hx
        split at hx
        · cases hx
        · exact hx
      · change (s.progress.del r).get? x = _ ↔ _
        rw [hget]
        split
        · next hxr =>
          rw [hxr, hph]
          simp
        · exact Iff.rfl

instance (s : System) : DecidablePred s.WritesSucceed
  | .writeVersion maxVersion => inferInstanceAs (Decidable (s.SeesManaged maxVersion))
  | .deployStart _ _ _ => inferInstanceAs (Decidable (_ = _))
  | .newVersion _ _ _ | .deploy _ _ _ _ | .repair _ _ _ _ | .deployResource _ _ _ | .timerFires _
  | .queueGet _ | .deployReport _ _ | .sendDeployDone _ | .finishDeploy _ | .taskDone _ =>
      inferInstanceAs (Decidable True)

/-- A sufficient condition that can be evaluated. -/
def ReleasesFresh (s : System) : Action → Prop
  | .newVersion fuel versions reason => s.ReleasesOthers (.newVersion fuel versions reason)
      ∧ ∀ u, s.scheduler.state.prepare versions [] = .ok u →
        u.model.resources.items.all (fun e =>
          decide (s.lastDeployedHash e.1 ≠ some e.2.attributeHash)) = true
  | _ => True

instance (s : System) : DecidablePred s.ReleasesFresh
  | .newVersion fuel versions reason =>
      have : Decidable (s.ReleasesOthers (.newVersion fuel versions reason)) := inferInstance
      inferInstanceAs (Decidable (_ ∧ ∀ _, _ = _ → _ = _))
  | .writeVersion _ | .deploy _ _ _ _ | .repair _ _ _ _ | .deployResource _ _ _ | .timerFires _
  | .queueGet _ | .deployStart _ _ _ | .deployReport _ _ | .sendDeployDone _ | .finishDeploy _
  | .taskDone _ => inferInstanceAs (Decidable True)

theorem ReleasesFresh.keepsCompliance (h : s.ReleasesFresh a) : s.KeepsCompliance a := by
  cases a with
  | newVersion fuel versions reason =>
      intro u hu
      refine ⟨h.1.keepsRegistered u hu, fun r hback => ?_⟩
      obtain ⟨i, hi, hcase⟩ := hback.hash
      rcases hcase with hhash | ⟨deploy, hph, hhash⟩
      · have hr := List.all_eq_true.mp (h.2 u hu) (r, i) (Dict.get?_eq_some_iff.mp hi)
        exact of_decide_eq_true hr hhash
      · have hr := List.all_eq_true.mp (h.1 u hu) r (Dict.mem_keys.mpr (Dict.mem_of_get? hph))
        have hafter : u.intentAfter s.scheduler.state r = some i := by
          rw [VersionUpdate.intentAfter, if_neg hback.changes.not_deleted, if_pos hback.changes, hi]
        rw [hph] at hr
        simp [hafter, hhash] at hr
  | _ => trivial

/-- `a` is deployed, and gets another hash. -/
def changeDeployed : List Action :=
  releaseAll [nullVersion 1 [("a", "h", [])] []]
    ++ deployNext "a" .deployed HandlerResourceState.deployed_ne_dry
    ++ releaseAll [nullVersion 2 [("a", "i", [])] []]

/-- **Persisted compliance.** In every state of a run in which every write succeeds,
the compliance of each managed resource can be read back from its row once
nothing is left to be written for it, if no new version of the run brings back
the hash a resource was last deployed with, or forgets a deploy in progress. -/
theorem persisted_compliance {timers : TimerManager} {complianceReporting : Bool}
    {as : List Action}
    (hok : Along step (fun s a => a.Permitted s ∧ s.WritesSucceed a)
      (init timers complianceReporting) as)
    (hgood : Along step KeepsCompliance (init timers complianceReporting) as) :
    Always step ComplianceAgrees (init timers complianceReporting) as := by
  have hstep : ∀ s a s', Persisted s →
      (Action.Permitted s a ∧ s.WritesSucceed a) ∧ s.KeepsCompliance a →
      step s a = some s' → Persisted s' := fun s a s' h ha => h.step ha.1.1 ha.1.2 ha.2
  exact (always_of_step hstep (.init timers complianceReporting) (hok.and hgood)).imp
    fun _ h => h.complianceAgrees

theorem persisted_compliance_changeDeployed :
    Always step ComplianceAgrees idle (changeDeployed ++ deployNext "a" .failed (by decide)) := by
  have hgood : Along step ReleasesFresh idle
      (changeDeployed ++ deployNext "a" .failed (by decide)) := by decide
  exact persisted_compliance (by decide) (hgood.imp fun _ _ h => h.keepsCompliance)

/-- In the next version `a` gets its hash back: it has an update, but the row is that
of a compliant resource. -/
theorem restoreDeployed_disagrees :
    Along step (fun s a => a.Permitted s ∧ s.WritesSucceed a) idle
        (changeDeployed ++ releaseAll [nullVersion 3 [("a", "h", [])] []])
      ∧ ∃ s, run step idle (changeDeployed ++ releaseAll [nullVersion 3 [("a", "h", [])] []])
          = some s ∧ ¬ s.ComplianceAgrees := by
  refine ⟨by decide, ?_⟩
  obtain ⟨s, hrun, hc, hw, hph, hrow⟩ := exists_run_of_any step idle
    (changeDeployed ++ releaseAll [nullVersion 3 [("a", "h", [])] []]) (p := fun s =>
      s.scheduler.state.compliance? (nullResource "a") = some .hasUpdate
      ∧ s.pendingWrite = none ∧ nullResource "a" ∉ s.progress
      ∧ (s.rows.get? (nullResource "a")).any (fun row =>
        row.complianceStatus = some .compliant) = true) (by decide)
  refine ⟨s, hrun, fun hagrees => ?_⟩
  have hno : ¬ s.AwaitsWrite (nullResource "a") := fun ⟨_, _, _, _, he⟩ =>
    hph (Dict.mem_of_get? he)
  obtain ⟨row, hget, hstatus, -⟩ := hagrees _ _ hc hw hno
  rw [hget] at hrow
  have hstatus' : row.complianceStatus = some .compliant := of_decide_eq_true hrow
  cases hstatus.symm.trans hstatus'

end System

end Inmanta
