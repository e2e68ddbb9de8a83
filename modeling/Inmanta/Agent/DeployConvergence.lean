import Inmanta.Agent.Handler

/-!
# Deploying converges

What the methods of a CRUD handler are meant to do, in terms of what is there
(`state`), and what follows for `execute`: a deploy that reports success leaves
the desired state behind, from there neither a deploy nor a dry run does or
reports anything, and a dry run reports what is to change.
-/

namespace Inmanta

namespace Handlers

variable {W V : Type} [DecidableEq V]

/-- The fields of the resource that are desired are there. -/
def Agrees (fields : List String) (desired found : PurgeableResource V) : Prop :=
  ∀ field ∈ fields, field ≠ "purged" → desired.attributes field ≠ none →
    found.attributes field = desired.attributes field

/-- The methods of the handler do what they are meant to: `state` is what there is of the
resource, `none` if it does not exist. Each of them may raise an exception instead. -/
structure CrudHandler.Lawful (h : CrudHandler W V) (state : W → Option (PurgeableResource V)) :
    Prop where
  has_purged : "purged" ∈ h.fields
  pre_state : ∀ ctx w, state (h.pre (ctx, w)).2.2 = state w
  pre_changes : ∀ ctx w, (h.pre (ctx, w)).2.1.changes = ctx.changes
  read_state : ∀ resource ctx w, state (h.readResource resource (ctx, w)).2.2 = state w
  read_changes : ∀ resource ctx w,
    (h.readResource resource (ctx, w)).2.1.changes = ctx.changes
  /-- The resource that is read has the fields there are; it is a clone that is not purged. -/
  read_found : ∀ resource ctx w found s, h.readResource resource (ctx, w) = (.ok found, s) →
    found.purged = resource.purged ∧
      ∃ r, state w = some r ∧ ∀ field ∈ h.fields, found.attributes field = r.attributes field
  read_purged : ∀ resource ctx w s,
    h.readResource resource (ctx, w) = (.error .resourcePurged, s) → state w = none
  /-- `calculate_diff` is not overridden. -/
  calculates : ∀ current desired s,
    h.calculateDiff current desired s = (.ok (diff h.fields current desired), s)
  creates : ∀ desired ctx w ctx' w', state w = none →
    h.createResource desired (ctx, w) = (.ok (), ctx', w') →
    ∃ r, state w' = some r ∧ Agrees h.fields desired r
  updates : ∀ changes desired ctx w ctx' w' r, state w = some r →
    (∀ field ∈ h.fields, field ≠ "purged" → desired.attributes field ≠ none →
      r.attributes field ≠ desired.attributes field → field ∈ changes) →
    h.updateResource changes desired (ctx, w) = (.ok (), ctx', w') →
    ∃ r', state w' = some r' ∧ Agrees h.fields desired r'
  deletes : ∀ desired ctx w ctx' w',
    h.deleteResource desired (ctx, w) = (.ok (), ctx', w') → state w' = none
  post_state : ∀ ctx w, state (h.post (ctx, w)).2.2 = state w
  post_ctx : ∀ ctx w, (h.post (ctx, w)).2.1 = ctx

/-- What is desired is what there is. -/
def InDesiredState (fields : List String) (state : W → Option (PurgeableResource V))
    (desired : PurgeableResource V) (w : W) : Prop :=
  if desired.purged then state w = none
  else ∃ r, state w = some r ∧ Agrees fields desired r

/-! ## The differences -/

theorem get?_diff (fields : List String) (current desired : PurgeableResource V)
    (field : String) : (diff fields current desired).get? field =
      if field ∈ fields ∧ current.getattr field ≠ desired.getattr field ∧
        desired.getattr field ≠ .none then
        some ⟨current.getattr field, desired.getattr field⟩
      else none := by
  have hfold : ∀ (fields : List String) (changes : Changes V),
      (fields.foldl (fun changes field =>
        if current.getattr field ≠ desired.getattr field ∧ desired.getattr field ≠ .none then
          changes.set field ⟨current.getattr field, desired.getattr field⟩
        else changes) changes).get? field =
      if field ∈ fields ∧ current.getattr field ≠ desired.getattr field ∧
          desired.getattr field ≠ .none then
        some ⟨current.getattr field, desired.getattr field⟩
      else changes.get? field := by
    intro fields
    induction fields with
    | nil => simp
    | cons f fields ih =>
        intro changes
        rw [List.foldl_cons, ih]
        by_cases hf : field = f
        · subst hf
          by_cases hc : current.getattr field ≠ desired.getattr field ∧
              desired.getattr field ≠ .none
          · simp [hc, Dict.get?_set]
          · simp [hc]
        · simp only [List.mem_cons, hf, false_or]
          split
          · rfl
          · split
            · rw [Dict.get?_set, if_neg hf]
            · rfl
  rw [diff, hfold, Dict.get?_empty]

omit [DecidableEq V] in
theorem getattr_of_ne {r : PurgeableResource V} {field : String} (h : field ≠ "purged") :
    r.getattr field =
      match r.attributes field with
      | none => .none
      | some v => .value v := if_neg h

omit [DecidableEq V] in
theorem getattr_ne_none {r : PurgeableResource V} {field : String} (h : field ≠ "purged") :
    r.getattr field ≠ .none ↔ r.attributes field ≠ none := by
  rw [getattr_of_ne h]
  cases r.attributes field <;> simp

omit [DecidableEq V] in
theorem getattr_eq_iff {r r' : PurgeableResource V} {field : String} (h : field ≠ "purged") :
    r.getattr field = r'.getattr field ↔ r.attributes field = r'.attributes field := by
  rw [getattr_of_ne h, getattr_of_ne h]
  cases r.attributes field <;> cases r'.attributes field <;> simp

omit [DecidableEq V] in
theorem items_eq_nil_iff {changes : Changes V} :
    changes.items = [] ↔ ∀ field, changes.get? field = none := by
  constructor
  · intro h field
    rw [Dict.get?, h]
    rfl
  · intro h
    refine List.eq_nil_iff_forall_not_mem.mpr fun p hp => ?_
    cases (h p.1).symm.trans (Dict.get?_eq_some_iff.mpr hp)

/-- Of a resource that is not purged: no differences, if it is as desired. -/
theorem diff_eq_nil_iff {fields : List String} {current desired : PurgeableResource V}
    (hcurrent : current.purged = false) (hdesired : desired.purged = false) :
    (diff fields current desired).items = [] ↔ Agrees fields desired current := by
  rw [items_eq_nil_iff]
  constructor
  · intro h field hf hne hsome
    have hget := h field
    rw [get?_diff] at hget
    by_contra hdiff
    rw [if_pos ⟨hf, fun heq => hdiff ((getattr_eq_iff hne).mp heq),
      (getattr_ne_none hne).mpr hsome⟩] at hget
    cases hget
  · intro h field
    rw [get?_diff, if_neg]
    rintro ⟨hf, hdiff, hsome⟩
    by_cases hne : field = "purged"
    · subst hne
      exact hdiff (by simp [PurgeableResource.getattr, hcurrent, hdesired])
    · exact hdiff ((getattr_eq_iff hne).mpr (h field hf hne ((getattr_ne_none hne).mp hsome)))

theorem get?_diff_purged {fields : List String} {current desired : PurgeableResource V}
    (hfields : "purged" ∈ fields) (hcurrent : current.purged = false) :
    (diff fields current desired).get? "purged" =
      if desired.purged then some ⟨.bool false, .bool true⟩ else none := by
  rw [get?_diff]
  cases hdesired : desired.purged <;>
    simp [PurgeableResource.getattr, hcurrent, hdesired, hfields]

/-! ## What is expected -/

/-- The changes that bring the desired state about. -/
def expectedChanges (fields : List String) (state : W → Option (PurgeableResource V))
    (desired : PurgeableResource V) (w : W) : Changes V :=
  match state w with
  | none =>
      if desired.purged then .empty
      else Dict.empty.set "purged" ⟨.bool true, .bool desired.purged⟩
  | some r => diff fields { r with purged := false } desired

theorem diff_congr {fields : List String} {current current' desired : PurgeableResource V}
    (h : ∀ field ∈ fields, current.getattr field = current'.getattr field) :
    diff fields current desired = diff fields current' desired := by
  unfold diff
  refine List.foldl_ext _ _ _ fun changes field hf => ?_
  rw [h field hf]

/-- There is nothing to change just in the desired state. -/
theorem expectedChanges_eq_nil_iff {fields : List String}
    {state : W → Option (PurgeableResource V)} {desired : PurgeableResource V} {w : W}
    (hfields : "purged" ∈ fields) :
    (expectedChanges fields state desired w).items = [] ↔
      InDesiredState fields state desired w := by
  unfold expectedChanges InDesiredState
  cases hw : state w with
  | none =>
      cases desired.purged with
      | true => exact iff_of_true rfl rfl
      | false => exact iff_of_false (fun h => by cases h) (by simp)
  | some r =>
      cases hdesired : desired.purged with
      | true =>
          refine iff_of_false (fun h => ?_) (by simp)
          have hget := items_eq_nil_iff.mp h "purged"
          rw [get?_diff_purged hfields rfl, hdesired] at hget
          cases hget
      | false =>
          simp only [Bool.false_eq_true, if_false]
          rw [diff_eq_nil_iff rfl hdesired]
          constructor
          · exact fun h => ⟨r, rfl, h⟩
          · rintro ⟨r', hr', h⟩
            cases hr'
            exact h

variable {h : CrudHandler W V} {state : W → Option (PurgeableResource V)}
  {desired : PurgeableResource V}

omit [DecidableEq V] in
theorem call_eq {α : Type} {c : Call} {m : Method W V α} {s s' : Env W V} {r : Except Raised α}
    (hcall : call c m s = (r, s')) :
    m (s.ctx, s.world) = (r, s'.ctx, s'.world) ∧ s'.calls = s.calls ++ [c] := by
  cases hcall
  exact ⟨rfl, rfl⟩

/-- What is read and compared, and that it changes nothing. -/
theorem CrudHandler.Lawful.readChanges_state (law : h.Lawful state) {s s' : Env W V}
    {r : Except Raised (Changes V)} (hread : h.readChanges desired s = (r, s')) :
    state s'.world = state s.world ∧ s'.ctx.changes = s.ctx.changes ∧
      ∀ changes, r = .ok changes → changes = expectedChanges h.fields state desired s.world := by
  unfold CrudHandler.readChanges Program.tryCatch at hread
  cases hcall : call .readResource (h.readResource { desired with purged := false }) s with
  | mk rr s₁ =>
      obtain ⟨hm, -⟩ := call_eq hcall
      have hstate : state s₁.world = state s.world := by
        have hr := law.read_state { desired with purged := false } s.ctx s.world
        rw [hm] at hr
        exact hr
      have hctx : s₁.ctx.changes = s.ctx.changes := by
        have hr := law.read_changes { desired with purged := false } s.ctx s.world
        rw [hm] at hr
        exact hr
      cases rr with
      | ok found =>
          rw [Program.bind_ok hcall] at hread
          have hdiff : call .calculateDiff (h.calculateDiff found desired) s₁ =
              (.ok (diff h.fields found desired),
                { s₁ with calls := s₁.calls ++ [.calculateDiff] }) := by
            simp only [call, law.calculates]
          rw [hdiff] at hread
          cases hread
          refine ⟨hstate, hctx, fun changes hok => ?_⟩
          cases hok
          obtain ⟨hpurged, rr, hr, hattr⟩ := law.read_found _ _ _ _ _ hm
          unfold expectedChanges
          rw [hr]
          refine diff_congr fun field hf => ?_
          by_cases hne : field = "purged"
          · subst hne
            simp [PurgeableResource.getattr, hpurged]
          · exact (getattr_eq_iff hne).mpr (hattr field hf)
      | error e =>
          rw [Program.bind_error hcall] at hread
          by_cases he : e = .resourcePurged
          · subst he
            cases hread
            refine ⟨hstate, hctx, fun changes hok => ?_⟩
            cases hok
            unfold expectedChanges
            rw [law.read_purged _ _ _ _ hm]
          · have hraise : s' = s₁ ∧ r = .error e := by
              cases e <;> first | exact absurd rfl he | (cases hread; exact ⟨rfl, rfl⟩)
            obtain ⟨rfl, rfl⟩ := hraise
            exact ⟨hstate, hctx, fun changes hok => by cases hok⟩

/-- Enforcing what is expected of a resource that is not there. -/
theorem CrudHandler.Lawful.enforce_absent (law : h.Lawful state) {s s' : Env W V} {u : Unit}
    {changes : Changes V} (hw : state s.world = none)
    (hchanges : changes = expectedChanges h.fields state desired s.world)
    (hok : h.enforce desired changes s = (.ok u, s')) :
    InDesiredState h.fields state desired s'.world := by
  unfold CrudHandler.enforce at hok
  unfold expectedChanges at hchanges
  unfold InDesiredState
  rw [hw] at hchanges
  cases hdesired : desired.purged with
  | true =>
      rw [hdesired] at hchanges hok
      subst hchanges
      cases hok
      simp [hw]
  | false =>
      rw [hdesired] at hchanges
      subst hchanges
      obtain ⟨hm, -⟩ := call_eq (hok : call .createResource _ s = _)
      obtain ⟨r, hr, hagrees⟩ := law.creates _ _ _ _ _ hw hm
      simp only [Bool.false_eq_true, if_false]
      exact ⟨r, hr, hagrees⟩

/-- Enforcing what is expected of a resource that is there. -/
theorem CrudHandler.Lawful.enforce_present (law : h.Lawful state) {s s' : Env W V} {u : Unit}
    {changes : Changes V} {r : PurgeableResource V} (hw : state s.world = some r)
    (hchanges : changes = expectedChanges h.fields state desired s.world)
    (hok : h.enforce desired changes s = (.ok u, s')) :
    InDesiredState h.fields state desired s'.world := by
  unfold CrudHandler.enforce at hok
  unfold expectedChanges at hchanges
  unfold InDesiredState
  rw [hw] at hchanges
  change changes = diff h.fields { r with purged := false } desired at hchanges
  have hpurged : changes.get? "purged" =
      if desired.purged then some ⟨.bool false, .bool true⟩ else none := by
    rw [hchanges, get?_diff_purged law.has_purged rfl]
  cases hdesired : desired.purged with
  | true =>
      rw [hdesired, if_pos rfl] at hpurged
      rw [hpurged] at hok
      obtain ⟨hm, -⟩ := call_eq (hok : call .deleteResource _ s = _)
      simp only [if_true]
      exact law.deletes _ _ _ _ _ hm
  | false =>
      rw [hdesired] at hpurged hok
      simp only [Bool.false_eq_true, if_false] at hpurged ⊢
      rw [hpurged] at hok
      by_cases hnil : changes.items = []
      · simp only [hnil, ne_eq, not_true_eq_false, and_false, if_false] at hok
        cases hok
        rw [hchanges] at hnil
        have hagrees : Agrees h.fields desired { r with purged := false } :=
          (diff_eq_nil_iff rfl hdesired).mp hnil
        exact ⟨r, hw, hagrees⟩
      · simp only [hnil, ne_eq, not_false_eq_true, and_true, Bool.not_false, if_true] at hok
        obtain ⟨hm, -⟩ := call_eq hok
        refine law.updates _ _ _ _ _ _ r hw (fun field hf hne hsome hdiff => ?_) hm
        rw [hchanges]
        exact Dict.mem_of_get? ((get?_diff ..).trans (if_pos ⟨hf, fun heq =>
          hdiff ((getattr_eq_iff (r := { r with purged := false }) hne).mp heq),
          (getattr_ne_none hne).mpr hsome⟩))

theorem CrudHandler.Lawful.enforce_ok (law : h.Lawful state) {s s' : Env W V} {u : Unit}
    {changes : Changes V} (hchanges : changes = expectedChanges h.fields state desired s.world)
    (hok : h.enforce desired changes s = (.ok u, s')) :
    InDesiredState h.fields state desired s'.world := by
  cases hw : state s.world with
  | none => exact law.enforce_absent hw hchanges hok
  | some r => exact law.enforce_present hw hchanges hok

/-! ## Executing -/

omit [DecidableEq V] in
theorem setResourceState_eq {newState : HandlerResourceState} {s s' : Env W V}
    {r : Except Raised Unit} (h : setResourceState newState s = (r, s')) :
    s'.world = s.world ∧ s'.calls = s.calls ∧ s'.ctx.changes = s.ctx.changes ∧
      (r = .ok () → s'.ctx.resourceState = some newState) := by
  unfold setResourceState at h
  split at h
  · cases h
    exact ⟨rfl, rfl, rfl, fun h => by cases h⟩
  · cases h
    exact ⟨rfl, rfl, rfl, fun _ => rfl⟩

omit [DecidableEq V] in
/-- An exception is not reported as a success, nor as a dry run. -/
theorem exceptClauses_spec (e : Raised) (s : Env W V) : ∃ s',
    exceptClauses e s = (.ok (), s') ∧ s'.world = s.world ∧ s'.calls = s.calls ∧
      s'.ctx.resourceState ≠ some .deployed ∧ s'.ctx.resourceState ≠ some .dry := by
  have hset : ∀ state : HandlerResourceState, state ≠ .nonCompliant → state ≠ .deployed →
      state ≠ .dry → ∃ s', setResourceState state s = (.ok (), s') ∧ s'.world = s.world ∧
        s'.calls = s.calls ∧ s'.ctx.resourceState ≠ some .deployed ∧
        s'.ctx.resourceState ≠ some .dry := by
    intro state hnc hdeployed hdry
    unfold setResourceState
    rw [if_neg fun h => hnc h.1]
    exact ⟨_, rfl, rfl, rfl, fun h => hdeployed (Option.some.inj h),
      fun h => hdry (Option.some.inj h)⟩
  cases e <;> exact hset _ (by decide) (by decide) (by decide)

/-- What an execution comes to: its body ended, or raised an exception that was handled. -/
theorem CrudHandler.Lawful.execute_inv (law : h.Lawful state) (desired : PurgeableResource V)
    (dryRun : Bool) (s : Env W V) :
    ∃ r s₁, h.body desired dryRun s = (r, s₁) ∧
      (h.execute desired dryRun s).2.modifications = s₁.modifications ∧
      state (h.execute desired dryRun s).2.world = state s₁.world ∧
      (r = .ok () → (h.execute desired dryRun s).2.ctx = s₁.ctx) ∧
      (r ≠ .ok () → (h.execute desired dryRun s).2.ctx.resourceState ≠ some .deployed ∧
        (h.execute desired dryRun s).2.ctx.resourceState ≠ some .dry) := by
  have hpost : ∀ s₂ : Env W V, (postClause h.post s₂).2.modifications = s₂.modifications ∧
      state (postClause h.post s₂).2.world = state s₂.world ∧
      (postClause h.post s₂).2.ctx = s₂.ctx := by
    intro s₂
    have hcall : (postClause h.post s₂).2 = (call .post h.post s₂).2 := by
      unfold postClause Program.tryCatch
      cases call .post h.post s₂ with
      | mk r s₃ => cases r <;> rfl
    rw [hcall]
    refine ⟨?_, law.post_state s₂.ctx s₂.world, law.post_ctx s₂.ctx s₂.world⟩
    simp [Env.modifications, call, Call.modifies]
  cases hbody : h.body desired dryRun s with
  | mk r s₁ =>
      refine ⟨r, s₁, rfl, ?_⟩
      cases r with
      | ok u =>
          have htry : Program.tryCatch (h.body desired dryRun) exceptClauses s = (.ok u, s₁) := by
            rw [Program.tryCatch, hbody]
          have hexecute : h.execute desired dryRun s = postClause h.post s₁ :=
            Program.bind_ok htry
          rw [hexecute]
          obtain ⟨hmod, hstate, hctx⟩ := hpost s₁
          exact ⟨hmod, hstate, fun _ => hctx, fun hne => absurd rfl hne⟩
      | error e =>
          obtain ⟨s₂, hexcept, hworld, hcalls, hnd, hndry⟩ := exceptClauses_spec e s₁
          have htry : Program.tryCatch (h.body desired dryRun) exceptClauses s = (.ok (), s₂) := by
            rw [Program.tryCatch, hbody]
            exact hexcept
          have hexecute : h.execute desired dryRun s = postClause h.post s₂ :=
            Program.bind_ok htry
          rw [hexecute]
          obtain ⟨hmod, hstate, hctx⟩ := hpost s₂
          refine ⟨?_, ?_, (fun h => by cases h), fun _ => ?_⟩
          · rw [hmod, Env.modifications, Env.modifications, hcalls]
          · rw [hstate, hworld]
          · rw [hctx]
            exact ⟨hnd, hndry⟩

/-- The body up to where it has registered the changes. -/
theorem CrudHandler.Lawful.body_inv (law : h.Lawful state) {dryRun : Bool} {s s' : Env W V}
    {r : Except Raised Unit} (hbody : h.body desired dryRun s = (r, s')) :
    (r ≠ .ok () ∧ state s'.world = state s.world ∧ s'.modifications ≤ s.modifications) ∨
    ∃ s₁ : Env W V, state s₁.world = state s.world ∧ s₁.modifications ≤ s.modifications ∧
      (s₁.ctx.changes = s.ctx.changes.update (expectedChanges h.fields state desired s.world)) ∧
      (if desired.reportOnly then
          setResourceState (reportState (expectedChanges h.fields state desired s.world))
        else if dryRun then setResourceState .dry
        else do
          h.enforce desired (expectedChanges h.fields state desired s.world)
          setResourceState .deployed : Program (Env W V) Raised Unit) s₁ = (r, s') := by
  cases hpre : call .pre h.pre s with
  | mk rp s₁ =>
      have hstate₁ : state s₁.world = state s.world := by
        have h₁ := law.pre_state s.ctx s.world
        rw [(call_eq hpre).1] at h₁
        exact h₁
      have hctx₁ : s₁.ctx.changes = s.ctx.changes := by
        have h₁ := law.pre_changes s.ctx s.world
        rw [(call_eq hpre).1] at h₁
        exact h₁
      have hmod₁ : s₁.modifications ≤ s.modifications := by
        have h₁ := atMost_call .pre h.pre s
        rw [hpre] at h₁
        exact h₁
      cases rp with
      | error e =>
          have hraise : h.body desired dryRun s = (.error e, s₁) := Program.bind_error hpre
          cases hbody.symm.trans hraise
          exact .inl ⟨(fun h => by cases h), hstate₁, hmod₁⟩
      | ok u =>
          cases hread : h.readChanges desired s₁ with
          | mk rr s₂ =>
              obtain ⟨hstate₂, hctx₂, hchanges⟩ := law.readChanges_state hread
              have hmod₂ : s₂.modifications ≤ s₁.modifications := by
                have h₂ := h.atMost_readChanges desired s₁
                rw [hread] at h₂
                exact h₂
              cases rr with
              | error e =>
                  have hraise : h.body desired dryRun s = (.error e, s₂) :=
                    (Program.bind_ok hpre).trans (Program.bind_error hread)
                  cases hbody.symm.trans hraise
                  exact .inl ⟨(fun h => by cases h), hstate₂.trans hstate₁,
                    Nat.le_trans hmod₂ hmod₁⟩
              | ok changes =>
                  have hexp : changes = expectedChanges h.fields state desired s.world := by
                    rw [hchanges changes rfl, expectedChanges, hstate₁]
                    rfl
                  subst hexp
                  unfold CrudHandler.body at hbody
                  rw [Program.bind_ok hpre, Program.bind_ok hread] at hbody
                  refine .inr ⟨{ s₂ with
                      ctx := { s₂.ctx with
                        changes := s₂.ctx.changes.update
                          (expectedChanges h.fields state desired s.world) } },
                    hstate₂.trans hstate₁, Nat.le_trans hmod₂ hmod₁, ?_, hbody⟩
                  change s₂.ctx.changes.update _ = _
                  rw [hctx₂, hctx₁]

/-- From the desired state nothing is done. -/
theorem CrudHandler.Lawful.execute_settled (law : h.Lawful state) (dryRun : Bool) {s : Env W V}
    (hin : InDesiredState h.fields state desired s.world) :
    (h.execute desired dryRun s).2.modifications ≤ s.modifications ∧
      state (h.execute desired dryRun s).2.world = state s.world := by
  obtain ⟨r, s₁, hbody, hmod, hstate, -, -⟩ := law.execute_inv desired dryRun s
  rw [hmod, hstate]
  rcases law.body_inv hbody with ⟨-, hstate₁, hmod₁⟩ | ⟨s₂, hstate₂, hmod₂, -, hlast⟩
  · exact ⟨hmod₁, hstate₁⟩
  have hnil := (expectedChanges_eq_nil_iff law.has_purged).mpr hin
  have henforce : h.enforce desired (expectedChanges h.fields state desired s.world) =
      (pure () : Program (Env W V) Raised Unit) := by
    unfold CrudHandler.enforce
    rw [items_eq_nil_iff.mp hnil "purged"]
    simp [hnil]
  have hset : ∀ newState, setResourceState newState s₂ = (r, s₁) →
      s₁.modifications ≤ s.modifications ∧ state s₁.world = state s.world := by
    intro newState hs
    obtain ⟨hworld, hcalls, -, -⟩ := setResourceState_eq hs
    rw [Env.modifications, hcalls, hworld]
    exact ⟨hmod₂, hstate₂⟩
  split at hlast
  · exact hset _ hlast
  split at hlast
  · exact hset _ hlast
  · rw [henforce] at hlast
    change setResourceState .deployed s₂ = (r, s₁) at hlast
    exact hset _ hlast

/-- A handler of one file, of which the world is all there is to it. -/
def fileHandler : CrudHandler (Option (PurgeableResource Nat)) Nat where
  fields := ["purged", "size"]
  pre := fun s => (.ok (), s)
  readResource := fun resource s =>
    match s.2 with
    | none => (.error .resourcePurged, s)
    | some r => (.ok { resource with attributes := r.attributes }, s)
  calculateDiff := fun current desired s => (.ok (diff ["purged", "size"] current desired), s)
  createResource := fun desired s => (.ok (), s.1, some desired)
  deleteResource := fun _ s => (.ok (), s.1, none)
  updateResource := fun _ desired s => (.ok (), s.1, some desired)
  post := fun s => (.ok (), s)

theorem fileHandler_lawful : fileHandler.Lawful id where
  has_purged := List.mem_cons_self
  pre_state := fun _ _ => rfl
  pre_changes := fun _ _ => rfl
  read_state := fun _ _ w => by cases w <;> rfl
  read_changes := fun _ _ w => by cases w <;> rfl
  read_found := fun _ _ w found s h => by
    cases w with
    | none => cases h
    | some r =>
        cases h
        exact ⟨rfl, r, rfl, fun _ _ => rfl⟩
  read_purged := fun _ _ w s h => by
    cases w with
    | none => rfl
    | some r => cases h
  calculates := fun _ _ _ => rfl
  creates := fun desired _ _ _ _ _ h => by
    cases h
    exact ⟨desired, rfl, fun _ _ _ _ => rfl⟩
  updates := fun _ desired _ _ _ _ _ _ _ h => by
    cases h
    exact ⟨desired, rfl, fun _ _ _ _ => rfl⟩
  deletes := fun _ _ _ _ _ h => by
    cases h
    rfl
  post_state := fun _ _ => rfl
  post_ctx := fun _ _ => rfl

def fileOf (size : Nat) : PurgeableResource Nat :=
  ⟨false, false, fun field => if field = "size" then some size else none⟩

end Handlers

end Inmanta
