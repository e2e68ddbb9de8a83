import Inmanta.Execute.RelationPrecedence
import Inmanta.Lib.Multidict
import Mathlib

/-!
# The queue of delayed variables

Variables of relations with order constraints are queued by their relation.
`getNextConstraintVariable` works a copy of the freeze order off and drops the
relations that have no variable left; when a variable of such a relation is
appended, the copy is taken anew. The relations that were dropped have no
variable (`Queued`), so that the queue returns what `pendingStep` does: of what
is pending, oldest first, the first variable of the lowest priority.
-/

namespace Inmanta

variable {α β : Type} [DecidableEq α]

/-- A variable has an attribute if it belongs to a relation. -/
structure DelayedVariableQueue (α β : Type) where
  freezeOrder : List α
  freezeOrderWorkingList : List α
  unconstraintVariables : List β
  constraintVariables : Dict α (List β)
  nonRelationVariables : List β

inductive QueueOp (β : Type) where
  | append (v : β)
  | replace (vs : List β)
  | popleft

namespace DelayedVariableQueue

section Model

variable (attributeOf : β → Option α) (q : DelayedVariableQueue α β)

/-- `len` -/
def size : ℕ :=
  q.unconstraintVariables.length + (q.constraintVariables.values.map List.length).sum
    + q.nonRelationVariables.length

def append (v : β) (dontResetWorkingList : Bool) : DelayedVariableQueue α β :=
  match attributeOf v with
  | none => { q with nonRelationVariables := q.nonRelationVariables ++ [v] }
  | some a =>
      match q.constraintVariables.get? a with
      | some vs =>
          { q with
            constraintVariables := q.constraintVariables.set a (vs ++ [v])
            freezeOrderWorkingList :=
              if dontResetWorkingList = false ∧ a ∉ q.freezeOrderWorkingList then q.freezeOrder
              else q.freezeOrderWorkingList }
      | none => { q with unconstraintVariables := q.unconstraintVariables ++ [v] }

/-- `__init__` -/
def ofFreezeOrder (freezeOrder : List α) (drvs : List β) : DelayedVariableQueue α β :=
  drvs.foldl (fun q v => q.append attributeOf v true)
    ⟨freezeOrder, freezeOrder, [], .ofList (freezeOrder.map (·, [])), []⟩

/-- The loop of `_get_next_constraint_variable` over the working list. -/
def getNextConstraintVariable (vars : Dict α (List β)) :
    List α → Option (β × Dict α (List β)) × List α
  | [] => (none, [])
  | a :: workingList =>
      match vars.get? a with
      | some (v :: vs) => (some (v, vars.set a vs), a :: workingList)
      | _ => getNextConstraintVariable vars workingList

/-- None is an `IndexError`. -/
def popleft : Option β × DelayedVariableQueue α β :=
  match q.unconstraintVariables with
  | v :: vs => (some v, { q with unconstraintVariables := vs })
  | [] =>
      match getNextConstraintVariable q.constraintVariables q.freezeOrderWorkingList with
      | (some (v, vars), workingList) =>
          (some v, { q with constraintVariables := vars, freezeOrderWorkingList := workingList })
      | (none, workingList) =>
          let q := { q with freezeOrderWorkingList := workingList }
          match q.nonRelationVariables with
          | v :: vs => (some v, { q with nonRelationVariables := vs })
          | [] => (none, q)

/-- Every queue of a relation is cleared. -/
def clearConstraintVariables : Dict α (List β) where
  items := q.constraintVariables.items.map fun x => (x.1, [])
  nodup := by
    rw [List.map_map]
    exact q.constraintVariables.nodup

def replace (drvs : List β) : DelayedVariableQueue α β :=
  let q := { q with
    unconstraintVariables := []
    constraintVariables := q.clearConstraintVariables
    nonRelationVariables := [] }
  let q := drvs.foldl (fun q v => q.append attributeOf v true) q
  { q with freezeOrderWorkingList := q.freezeOrder }

/-- What an operation returns, and the queue after it. -/
def step : QueueOp β → Option β × DelayedVariableQueue α β
  | .append v => (none, q.append attributeOf v false)
  | .replace vs => (none, q.replace attributeOf vs)
  | .popleft => q.popleft

/-- What the operations return, and the queue after them. -/
def run (q : DelayedVariableQueue α β) :
    List (QueueOp β) → List (Option β) × DelayedVariableQueue α β
  | [] => ([], q)
  | op :: ops =>
      let (out, q) := q.step attributeOf op
      let (outs, q) := run q ops
      (out :: outs, q)

end Model

/-! ## The order of the queue -/

section Pending

variable (attributeOf : β → Option α) (order : List α)

/-- Relations without order constraint come first, then the others in freeze order, then what
belongs to no relation. -/
def priority (v : β) : ℕ :=
  match attributeOf v with
  | none => order.length + 1
  | some a => if a ∈ order then order.idxOf a + 1 else 0

/-- No variable in the queue has to be returned before this one. -/
def IsNext (pending : List β) (v : β) : Prop :=
  ∀ w ∈ pending, priority attributeOf order v ≤ priority attributeOf order w

instance (pending : List β) (v : β) : Decidable (IsNext attributeOf order pending v) :=
  inferInstanceAs (Decidable (∀ w ∈ pending, _))

/-- What a queue should do. It holds what is pending, oldest first. -/
def pendingStep (pending : List β) : QueueOp β → Option β × List β
  | .append v => (none, pending ++ [v])
  | .replace vs => (none, vs)
  | .popleft => (pending.find? fun v => IsNext attributeOf order pending v,
      pending.eraseP fun v => IsNext attributeOf order pending v)

def pendingRun (pending : List β) : List (QueueOp β) → List (Option β) × List β
  | [] => ([], pending)
  | op :: ops =>
      let (out, pending) := pendingStep attributeOf order pending op
      let (outs, pending) := pendingRun pending ops
      (out :: outs, pending)

end Pending

section Queued

variable {attributeOf : β → Option α} {order : List α} {q : DelayedVariableQueue α β}
  {pending pre post vs : List β} {v w : β} {a b : α}

/-- The variables of a relation without order constraint. -/
def Unconstraint (attributeOf : β → Option α) (order : List α) (v : β) : Prop :=
  ∃ a, attributeOf v = some a ∧ a ∉ order

theorem priority_of_none (h : attributeOf v = none) :
    priority attributeOf order v = order.length + 1 := by
  rw [priority, h]

theorem priority_of_mem (h : attributeOf v = some a) (ha : a ∈ order) :
    priority attributeOf order v = order.idxOf a + 1 := by
  rw [priority, h]
  exact if_pos ha

theorem priority_eq_zero_iff :
    priority attributeOf order v = 0 ↔ ∃ a, attributeOf v = some a ∧ a ∉ order := by
  cases h : attributeOf v with
  | none => simp [priority_of_none h]
  | some a =>
      by_cases ha : a ∈ order
      · simp [priority_of_mem h ha, ha]
      · simp [priority, h, ha]

theorem priority_eq_succ_iff (ha : a ∈ order) :
    priority attributeOf order v = order.idxOf a + 1 ↔ attributeOf v = some a := by
  refine ⟨fun h => ?_, fun h => priority_of_mem h ha⟩
  have hlt := List.idxOf_lt_length_of_mem ha
  cases hv : attributeOf v with
  | none =>
      rw [priority_of_none hv] at h
      omega
  | some b =>
      by_cases hb : b ∈ order
      · rw [priority_of_mem hv hb] at h
        rw [List.idxOf_inj hb |>.mp (Nat.succ_injective h)]
      · rw [priority_eq_zero_iff.mpr ⟨b, hv, hb⟩] at h
        omega

theorem priority_eq_length_iff :
    priority attributeOf order v = order.length + 1 ↔ attributeOf v = none := by
  refine ⟨fun h => ?_, priority_of_none⟩
  cases hv : attributeOf v with
  | none => rfl
  | some b =>
      by_cases hb : b ∈ order
      · rw [priority_of_mem hv hb] at h
        have hlt := List.idxOf_lt_length_of_mem hb
        omega
      · rw [priority_eq_zero_iff.mpr ⟨b, hv, hb⟩] at h
        omega

/-- The pending variables of one priority, oldest first. -/
def group (attributeOf : β → Option α) (order : List α) (pending : List β) (k : ℕ) : List β :=
  pending.filter fun v => priority attributeOf order v = k

/-- The queues hold what is pending. -/
structure Filled (attributeOf : β → Option α) (order : List α) (q : DelayedVariableQueue α β)
    (pending : List β) : Prop where
  freezeOrder : q.freezeOrder = order
  unconstraint : q.unconstraintVariables = group attributeOf order pending 0
  constraint : q.constraintVariables.items
    = order.map fun a => (a, group attributeOf order pending (order.idxOf a + 1))
  nonRelation : q.nonRelationVariables = group attributeOf order pending (order.length + 1)

/-- The relations that the working list has moved past have nothing pending. -/
structure Queued (attributeOf : β → Option α) (order : List α) (q : DelayedVariableQueue α β)
    (pending : List β) : Prop extends Filled attributeOf order q pending where
  working : ∃ passed, order = passed ++ q.freezeOrderWorkingList
    ∧ ∀ a ∈ passed, group attributeOf order pending (order.idxOf a + 1) = []

/-- The first variable of the first group that has one is the next one. -/
theorem next_of_group {k : ℕ} (hgroup : group attributeOf order pending k = v :: vs)
    (hlow : ∀ j < k, group attributeOf order pending j = []) :
    ∃ pre post, pending = pre ++ v :: post ∧ priority attributeOf order v = k
      ∧ pendingStep attributeOf order pending .popleft = (some v, pre ++ post)
      ∧ group attributeOf order (pre ++ post) k = vs
      ∧ ∀ j ≠ k, group attributeOf order (pre ++ post) j = group attributeOf order pending j := by
  obtain ⟨pre, post, rfl, hpre, hv, hpost⟩ := List.filter_eq_cons_iff.mp hgroup
  have hk : priority attributeOf order v = k := of_decide_eq_true hv
  have hnext : IsNext attributeOf order (pre ++ v :: post) v := fun w hw => by
    by_contra hlt
    have hmem : w ∈ group attributeOf order (pre ++ v :: post) (priority attributeOf order w) :=
      List.mem_filter.mpr ⟨hw, decide_eq_true rfl⟩
    rw [hlow _ (by omega)] at hmem
    exact List.not_mem_nil hmem
  have hnot : ∀ w ∈ pre, ¬ IsNext attributeOf order (pre ++ v :: post) w := fun w hw hw' => by
    have hle := hw' v (List.mem_append_right _ (List.mem_cons_self ..))
    have hge := hnext w (List.mem_append_left _ hw)
    exact hpre w hw (decide_eq_true (by omega))
  refine ⟨pre, post, rfl, hk, ?_, ?_, fun j hj => ?_⟩
  · have hfind : (pre ++ v :: post).find? (fun w => IsNext attributeOf order (pre ++ v :: post) w)
        = some v :=
      List.find?_eq_some_iff_append.mpr
        ⟨decide_eq_true hnext, pre, post, rfl, fun w hw => by simpa using hnot w hw⟩
    have herase : (pre ++ v :: post).eraseP
        (fun w => IsNext attributeOf order (pre ++ v :: post) w) = pre ++ post := by
      rw [List.eraseP_append_right _ fun w hw => by simpa using hnot w hw,
        List.eraseP_cons_of_pos (by simpa using hnext)]
    rw [pendingStep, hfind, herase]
  · have hnil : pre.filter (fun w => priority attributeOf order w = k) = [] :=
      List.filter_eq_nil_iff.mpr hpre
    rw [group, List.filter_append, hnil, hpost, List.nil_append]
  · rw [group, group, List.filter_append, List.filter_append, List.filter_cons_of_neg]
    simpa [hk] using hj.symm

theorem group_append (k : ℕ) : group attributeOf order (pending ++ [v]) k
    = group attributeOf order pending k
      ++ if priority attributeOf order v = k then [v] else [] := by
  rw [group, List.filter_append, List.filter_singleton]
  simp [group]

theorem Filled.get? (h : Filled attributeOf order q pending) (a : α) :
    q.constraintVariables.get? a = if a ∈ order then
      some (group attributeOf order pending (order.idxOf a + 1)) else none := by
  rw [Dict.get?, h.constraint, Dict.lookup_map_keys]

/-- Only the groups have to be right again after the queue of one relation has changed. -/
theorem Filled.set (h : Filled attributeOf order q pending) (horder : order.Nodup) (ha : a ∈ order)
    {pending' : List β}
    (hvs : group attributeOf order pending' (order.idxOf a + 1) = vs)
    (hother : ∀ k, k ≠ order.idxOf a + 1 →
      group attributeOf order pending' k = group attributeOf order pending k)
    (workingList : List α) :
    Filled attributeOf order { q with
      constraintVariables := q.constraintVariables.set a vs
      freezeOrderWorkingList := workingList } pending' where
  freezeOrder := h.freezeOrder
  unconstraint := h.unconstraint.trans (hother 0 (Nat.succ_ne_zero _).symm).symm
  nonRelation := by
    have hlt := List.idxOf_lt_length_of_mem ha
    exact h.nonRelation.trans (hother _ (by omega)).symm
  constraint := by
    have hset : (q.constraintVariables.set a vs).items
        = Dict.setItems q.constraintVariables.items a vs := rfl
    rw [hset, h.constraint, Dict.setItems_map_keys horder ha]
    refine List.map_congr_left fun b hb => ?_
    split_ifs with hab
    · rw [hab, hvs]
    · rw [hother]
      intro heq
      exact hab (List.idxOf_inj hb |>.mp (Nat.succ_injective heq))

theorem Filled.append (h : Filled attributeOf order q pending) (horder : order.Nodup) (v : β)
    (d : Bool) : Filled attributeOf order (q.append attributeOf v d) (pending ++ [v]) := by
  rw [DelayedVariableQueue.append]
  cases hv : attributeOf v with
  | none =>
      have hpriority : priority attributeOf order v = order.length + 1 := priority_of_none hv
      refine ⟨h.freezeOrder, ?_, ?_, ?_⟩
      · rw [group_append, if_neg (by omega), List.append_nil]
        exact h.unconstraint
      · refine h.constraint.trans (List.map_congr_left fun b hb => ?_)
        have hlt := List.idxOf_lt_length_of_mem hb
        rw [group_append, if_neg (by omega), List.append_nil]
      · rw [group_append, if_pos hpriority]
        exact congrArg (· ++ [v]) h.nonRelation
  | some a =>
      simp only [h.get? a]
      by_cases ha : a ∈ order
      · have hpriority := priority_of_mem hv ha
        rw [if_pos ha]
        refine h.set horder ha ?_ (fun k hk => ?_) _
        · rw [group_append, if_pos hpriority]
        · rw [group_append, if_neg (by omega), List.append_nil]
      · have hpriority := priority_eq_zero_iff.mpr ⟨a, hv, ha⟩
        rw [if_neg ha]
        refine ⟨h.freezeOrder, ?_, ?_, ?_⟩
        · rw [group_append, if_pos hpriority]
          exact congrArg (· ++ [v]) h.unconstraint
        · refine h.constraint.trans (List.map_congr_left fun b hb => ?_)
          rw [group_append, if_neg (by omega), List.append_nil]
        · have hne : priority attributeOf order v ≠ order.length + 1 := by omega
          rw [group_append, if_neg hne, List.append_nil]
          exact h.nonRelation

/-- A working list that has moved past the relation of the variable is reset. -/
theorem Queued.append (h : Queued attributeOf order q pending) (horder : order.Nodup) (v : β) :
    Queued attributeOf order (q.append attributeOf v false) (pending ++ [v]) := by
  refine ⟨h.toFilled.append horder v false, ?_⟩
  obtain ⟨passed, hpassed, hnil⟩ := h.working
  have hsame : (∀ a ∈ passed, attributeOf v ≠ some a) →
      ∃ passed, order = passed ++ q.freezeOrderWorkingList
        ∧ ∀ a ∈ passed, group attributeOf order (pending ++ [v]) (order.idxOf a + 1) = [] := by
    refine fun hne => ⟨passed, hpassed, fun a ha => ?_⟩
    have haorder : a ∈ order := hpassed ▸ List.mem_append_left _ ha
    rw [group_append, if_neg (mt (priority_eq_succ_iff haorder).mp (hne a ha)), hnil a ha]
    rfl
  rw [DelayedVariableQueue.append]
  cases hv : attributeOf v with
  | none => exact hsame fun a ha => by simp [hv]
  | some a =>
      simp only [h.get? a]
      by_cases ha : a ∈ order
      · rw [if_pos ha]
        by_cases hmem : a ∈ q.freezeOrderWorkingList
        · simp only [hmem, not_true_eq_false, and_false, if_false]
          refine hsame fun b hb hvb => ?_
          obtain rfl := Option.some.inj (hv.symm.trans hvb)
          exact (List.nodup_append.mp (hpassed ▸ horder)).2.2 a hb a hmem rfl
        · simp only [hmem, not_false_eq_true, and_self, if_true]
          exact ⟨[], h.freezeOrder.symm, fun b hb => absurd hb List.not_mem_nil⟩
      · rw [if_neg ha]
        exact hsame fun b hb hvb => ha (Option.some.inj (hv.symm.trans hvb) ▸
          hpassed ▸ List.mem_append_left _ hb)

theorem Filled.append_all (h : Filled attributeOf order q pending) (horder : order.Nodup)
    (vs : List β) : Filled attributeOf order
      (vs.foldl (fun q v => q.append attributeOf v true) q) (pending ++ vs) := by
  induction vs generalizing q pending with
  | nil => simpa using h
  | cons v vs ih => simpa using ih (h.append horder v true)

theorem Filled.reset (h : Filled attributeOf order q pending) :
    Queued attributeOf order { q with freezeOrderWorkingList := q.freezeOrder } pending where
  freezeOrder := h.freezeOrder
  unconstraint := h.unconstraint
  constraint := h.constraint
  nonRelation := h.nonRelation
  working := ⟨[], h.freezeOrder.symm, fun _ ha => absurd ha List.not_mem_nil⟩

theorem Queued.replace (h : Queued attributeOf order q pending) (horder : order.Nodup)
    (vs : List β) : Queued attributeOf order (q.replace attributeOf vs) vs := by
  have hclear : Filled attributeOf order { q with
      unconstraintVariables := []
      constraintVariables := q.clearConstraintVariables
      nonRelationVariables := [] } [] := by
    refine ⟨h.freezeOrder, rfl, ?_, rfl⟩
    have hitems : q.clearConstraintVariables.items
        = q.constraintVariables.items.map fun x => (x.1, []) := rfl
    refine hitems.trans ?_
    rw [h.constraint, List.map_map]
    rfl
  have hall := (hclear.append_all horder vs).reset
  rw [List.nil_append] at hall
  exact hall

theorem workingList_append (q : DelayedVariableQueue α β) (v : β) :
    (q.append attributeOf v true).freezeOrderWorkingList = q.freezeOrderWorkingList := by
  rw [DelayedVariableQueue.append]
  cases attributeOf v with
  | none => rfl
  | some a =>
      dsimp only
      split
      · simp
      · rfl

theorem queued_ofFreezeOrder (horder : order.Nodup) (drvs : List β) :
    Queued attributeOf order (ofFreezeOrder attributeOf order drvs) drvs := by
  have hempty : Filled attributeOf order
      ⟨order, order, [], .ofList (order.map (·, [])), []⟩ ([] : List β) := by
    refine ⟨rfl, rfl, ?_, rfl⟩
    have hkeys : ((order.map fun a => (a, ([] : List β))).map Prod.fst).Nodup := by
      simpa [List.map_map, Function.comp_def] using horder
    exact Dict.items_ofList hkeys
  have hworking : ∀ q : DelayedVariableQueue α β,
      (drvs.foldl (fun q v => q.append attributeOf v true) q).freezeOrderWorkingList
        = q.freezeOrderWorkingList := by
    induction drvs with
    | nil => exact fun q => rfl
    | cons v vs ih => exact fun q => (ih _).trans (workingList_append q v)
  have hall := hempty.append_all horder drvs
  rw [List.nil_append] at hall
  exact ⟨hall, [], (hworking ⟨order, order, [], .ofList (order.map (·, [])), []⟩).symm,
    fun a ha => absurd ha List.not_mem_nil⟩

/-- What was passed by the loop has nothing pending. -/
theorem getNextConstraintVariable_spec (h : Filled attributeOf order q pending)
    (workingList : List α) (hsub : ∀ a ∈ workingList, a ∈ order) :
    (getNextConstraintVariable q.constraintVariables workingList = (none, [])
        ∧ ∀ a ∈ workingList, group attributeOf order pending (order.idxOf a + 1) = [])
      ∨ ∃ passed a rest v vs, workingList = passed ++ a :: rest
        ∧ (∀ b ∈ passed, group attributeOf order pending (order.idxOf b + 1) = [])
        ∧ group attributeOf order pending (order.idxOf a + 1) = v :: vs
        ∧ getNextConstraintVariable q.constraintVariables workingList
            = (some (v, q.constraintVariables.set a vs), a :: rest) := by
  induction workingList with
  | nil => exact .inl ⟨rfl, fun a ha => absurd ha List.not_mem_nil⟩
  | cons a workingList ih =>
      obtain ⟨ha, hworking⟩ := List.forall_mem_cons.mp hsub
      have hget := (h.get? a).trans (if_pos ha)
      rw [getNextConstraintVariable, hget]
      cases hgroup : group attributeOf order pending (order.idxOf a + 1) with
      | cons v vs => exact .inr ⟨[], a, workingList, v, vs, rfl, by simp, hgroup, rfl⟩
      | nil =>
          obtain ⟨hnone, hall⟩ | ⟨passed, b, rest, v, vs, rfl, hpassed, hb, hnext⟩ := ih hworking
          · exact .inl ⟨hnone, List.forall_mem_cons.mpr ⟨hgroup, hall⟩⟩
          · exact .inr ⟨a :: passed, b, rest, v, vs, rfl,
              List.forall_mem_cons.mpr ⟨hgroup, hpassed⟩, hb, hnext⟩

theorem groups_below {passed rest : List α} (horder : (passed ++ rest).Nodup)
    (h0 : group attributeOf (passed ++ rest) pending 0 = [])
    (hpassed : ∀ a ∈ passed,
      group attributeOf (passed ++ rest) pending ((passed ++ rest).idxOf a + 1) = []) :
    ∀ j < passed.length + 1, group attributeOf (passed ++ rest) pending j = [] := by
  intro j hj
  cases j with
  | zero => exact h0
  | succ i =>
      have hi : i < passed.length := by omega
      have hidx : (passed ++ rest).idxOf passed[i] = i := by
        rw [List.idxOf_append_of_mem (List.getElem_mem hi)]
        exact (List.nodup_append.mp horder).1.idxOf_getElem i hi
      have hnil := hpassed _ (List.getElem_mem hi)
      rwa [hidx] at hnil

theorem Queued.popleft (h : Queued attributeOf order q pending) (horder : order.Nodup) :
    q.popleft.1 = (pendingStep attributeOf order pending .popleft).1
      ∧ Queued attributeOf order q.popleft.2
          (pendingStep attributeOf order pending .popleft).2 := by
  have hlow : ∀ a ∈ order, order.idxOf a + 1 < order.length + 1 := fun a ha =>
    Nat.succ_lt_succ (List.idxOf_lt_length_of_mem ha)
  cases hun : q.unconstraintVariables with
  | cons v vs =>
      obtain ⟨pre, post, rfl, -, hstep, hgroup, hother⟩ :=
        next_of_group (h.unconstraint.symm.trans hun) fun j hj => absurd hj (Nat.not_lt_zero j)
      obtain ⟨passed, hpassed, hnil⟩ := h.working
      rw [DelayedVariableQueue.popleft, hun, hstep]
      refine ⟨rfl, ⟨h.freezeOrder, hgroup.symm, ?_, ?_⟩, passed, hpassed, fun a ha => ?_⟩
      · exact h.constraint.trans
          (List.map_congr_left fun a _ => by rw [hother _ (Nat.succ_ne_zero _)])
      · exact h.nonRelation.trans (hother _ (Nat.succ_ne_zero _)).symm
      · rw [hother _ (Nat.succ_ne_zero _), hnil a ha]
  | nil =>
      have h0 := h.unconstraint.symm.trans hun
      obtain ⟨passed, hpassed, hnil⟩ := h.working
      have hsub : ∀ a ∈ q.freezeOrderWorkingList, a ∈ order := fun a ha =>
        hpassed ▸ List.mem_append_right _ ha
      rw [DelayedVariableQueue.popleft, hun]
      obtain ⟨hnone, hall⟩ | ⟨skipped, a, rest, v, vs, hworking, hskipped, hgroup, hsome⟩ :=
        getNextConstraintVariable_spec h.toFilled q.freezeOrderWorkingList hsub
      · have hempty : ∀ a ∈ order, group attributeOf order pending (order.idxOf a + 1) = [] :=
          fun a ha => by
            rw [hpassed] at ha
            exact (List.mem_append.mp ha).elim (hnil a) (hall a)
        have hbelow : ∀ j < order.length + 1, group attributeOf order pending j = [] := by
          have hend : order ++ [] = order := List.append_nil order
          have := @groups_below α β _ attributeOf pending order [] (by rwa [hend])
            (by rwa [hend]) (by rwa [hend])
          rwa [hend] at this
        simp only [hnone]
        cases hnon : q.nonRelationVariables with
        | cons v vs =>
            obtain ⟨pre, post, rfl, -, hstep, hgroup, hother⟩ :=
              next_of_group (h.nonRelation.symm.trans hnon) hbelow
            rw [hstep]
            refine ⟨rfl, ⟨h.freezeOrder, ?_, ?_, hgroup.symm⟩, order, ?_, fun a ha => ?_⟩
            · exact h0.symm.trans (hother _ (Nat.succ_ne_zero _).symm).symm
            · refine h.constraint.trans (List.map_congr_left fun a ha => ?_)
              rw [hother _ (hlow a ha).ne]
            · exact (List.append_nil order).symm
            · rw [hother _ (hlow a ha).ne, hempty a ha]
        | nil =>
            have hpending : pending = [] := List.eq_nil_iff_forall_not_mem.mpr fun w hw => by
              have hmem : w ∈ group attributeOf order pending (priority attributeOf order w) :=
                List.mem_filter.mpr ⟨hw, decide_eq_true rfl⟩
              have hle : priority attributeOf order w ≤ order.length + 1 := by
                rw [priority]
                split
                · exact le_rfl
                · split_ifs with ha
                  · exact (hlow _ ha).le
                  · exact Nat.zero_le _
              obtain hlt | heq := hle.lt_or_eq
              · rw [hbelow _ hlt] at hmem
                exact List.not_mem_nil hmem
              · rw [heq, ← h.nonRelation, hnon] at hmem
                exact List.not_mem_nil hmem
            subst hpending
            exact ⟨rfl, ⟨h.freezeOrder, rfl, h.constraint, rfl⟩, order,
              (List.append_nil order).symm, hempty⟩
      · have horder' : order = (passed ++ skipped) ++ a :: rest := by
          rw [hpassed, hworking, List.append_assoc]
        have ha : a ∈ order := horder' ▸ List.mem_append_right _ (List.mem_cons_self ..)
        have hbefore : ∀ b ∈ passed ++ skipped,
            group attributeOf order pending (order.idxOf b + 1) = [] := fun b hb =>
          (List.mem_append.mp hb).elim (hnil b) (hskipped b)
        have hidx : order.idxOf a = (passed ++ skipped).length := by
          have hnot : a ∉ passed ++ skipped := fun hmem =>
            (List.nodup_append.mp (horder' ▸ horder)).2.2 a hmem a (List.mem_cons_self ..) rfl
          rw [horder', List.idxOf_append_of_notMem hnot, List.idxOf_cons_self, Nat.add_zero]
        have hbelow : ∀ j < order.idxOf a + 1, group attributeOf order pending j = [] := by
          rw [hidx]
          have := @groups_below α β _ attributeOf pending (passed ++ skipped) (a :: rest)
          rw [← horder'] at this
          exact this horder h0 hbefore
        obtain ⟨pre, post, rfl, -, hstep, hgroup', hother⟩ := next_of_group hgroup hbelow
        have hfilled := h.toFilled.set horder ha hgroup' hother (a :: rest)
        rw [hun] at hfilled
        simp only [hsome]
        rw [hstep]
        refine ⟨rfl, hfilled, passed ++ skipped, horder', ?_⟩
        intro b hb
        rw [hother, hbefore b hb]
        intro heq
        have hlt : order.idxOf b < (passed ++ skipped).length := by
          rw [horder', List.idxOf_append_of_mem hb]
          exact List.idxOf_lt_length_of_mem hb
        omega

theorem Queued.step (h : Queued attributeOf order q pending) (horder : order.Nodup)
    (op : QueueOp β) : (q.step attributeOf op).1 = (pendingStep attributeOf order pending op).1
      ∧ Queued attributeOf order (q.step attributeOf op).2
          (pendingStep attributeOf order pending op).2 := by
  cases op with
  | append v => exact ⟨rfl, h.append horder v⟩
  | replace vs => exact ⟨rfl, h.replace horder vs⟩
  | popleft => exact h.popleft horder

theorem Queued.run (h : Queued attributeOf order q pending) (horder : order.Nodup)
    (ops : List (QueueOp β)) :
    (q.run attributeOf ops).1 = (pendingRun attributeOf order pending ops).1
      ∧ Queued attributeOf order (q.run attributeOf ops).2
          (pendingRun attributeOf order pending ops).2 := by
  induction ops generalizing q pending with
  | nil => exact ⟨rfl, h⟩
  | cons op ops ih =>
      obtain ⟨hout, hstep⟩ := h.step horder op
      obtain ⟨houts, hrun⟩ := ih hstep
      simp only [DelayedVariableQueue.run, pendingRun]
      exact ⟨by rw [hout, houts], hrun⟩

/-! ## Nothing is lost -/

omit [DecidableEq α] in
theorem sum_map_succ {l : List α} (h : l.Nodup) (ha : a ∈ l) {f g : α → ℕ}
    (hne : ∀ b ∈ l, b ≠ a → f b = g b) (heq : f a = g a + 1) :
    (l.map f).sum = (l.map g).sum + 1 := by
  induction l with
  | nil => exact absurd ha List.not_mem_nil
  | cons c l ih =>
      obtain ⟨hc, hl⟩ := List.nodup_cons.mp h
      obtain ⟨hcne, hlne⟩ := List.forall_mem_cons.mp hne
      rw [List.map_cons, List.map_cons, List.sum_cons, List.sum_cons]
      obtain rfl | ha := List.mem_cons.mp ha
      · rw [heq, List.map_congr_left fun b hb => hlne b hb fun hba => hc (hba ▸ hb)]
        omega
      · rw [hcne fun hca => hc (hca ▸ ha), ih hl ha hlne]
        omega

/-- Every pending variable is in one group. -/
theorem sum_length_group (horder : order.Nodup) (pending : List β) :
    (group attributeOf order pending 0).length
        + (order.map fun a => (group attributeOf order pending (order.idxOf a + 1)).length).sum
        + (group attributeOf order pending (order.length + 1)).length = pending.length := by
  have hcons : ∀ v pending k, (group attributeOf order (v :: pending) k).length
      = (group attributeOf order pending k).length
        + if priority attributeOf order v = k then 1 else 0 := fun v pending k => by
    rw [group, List.filter_cons]
    split_ifs with h h' h'
    · rfl
    · exact absurd (of_decide_eq_true h) h'
    · exact absurd (decide_eq_true h') h
    · rfl
  induction pending with
  | nil => simp [group]
  | cons v pending ih =>
      rw [hcons, hcons, List.length_cons, ← ih]
      cases hv : attributeOf v with
      | none =>
          have hpriority : priority attributeOf order v = order.length + 1 := priority_of_none hv
          have hsame : ∀ a ∈ order, (group attributeOf order (v :: pending)
              (order.idxOf a + 1)).length
                = (group attributeOf order pending (order.idxOf a + 1)).length := fun a ha => by
            have hlt := List.idxOf_lt_length_of_mem ha
            rw [hcons, if_neg (by omega), Nat.add_zero]
          rw [if_neg (by omega), if_pos hpriority, List.map_congr_left hsame]
          omega
      | some a =>
          by_cases ha : a ∈ order
          · have hpriority := priority_of_mem hv ha
            have hlt := List.idxOf_lt_length_of_mem ha
            have hsame : ∀ b ∈ order, b ≠ a → (group attributeOf order (v :: pending)
                (order.idxOf b + 1)).length
                  = (group attributeOf order pending (order.idxOf b + 1)).length :=
              fun b hb hba => by
                have hne : priority attributeOf order v ≠ order.idxOf b + 1 := fun h =>
                  hba (Option.some.inj (((priority_eq_succ_iff hb).mp h).symm.trans hv))
                rw [hcons, if_neg hne, Nat.add_zero]
            rw [if_neg (by omega), if_neg (by omega),
              sum_map_succ horder ha hsame (by rw [hcons, if_pos hpriority])]
            omega
          · have hpriority := priority_eq_zero_iff.mpr ⟨a, hv, ha⟩
            have hsame : ∀ b ∈ order, (group attributeOf order (v :: pending)
                (order.idxOf b + 1)).length
                  = (group attributeOf order pending (order.idxOf b + 1)).length := fun b _ => by
              rw [hcons, if_neg (by omega), Nat.add_zero]
            rw [if_pos hpriority, if_neg (by omega), List.map_congr_left hsame]
            omega

theorem Filled.size_eq (h : Filled attributeOf order q pending) (horder : order.Nodup) :
    q.size = pending.length := by
  rw [size, Dict.values, h.constraint, h.unconstraint, h.nonRelation, List.map_map, List.map_map]
  exact sum_length_group horder pending

theorem perm_eraseP {p : β → Bool} (h : pending.find? p = some v) :
    pending.Perm (v :: pending.eraseP p) := by
  obtain ⟨hv, pre, post, rfl, hpre⟩ := List.find?_eq_some_iff_append.mp h
  rw [List.eraseP_append_right _ fun w hw => by simpa using hpre w hw, List.eraseP_cons_of_pos hv]
  exact List.perm_middle

/-- The variables that are appended. -/
def appended (ops : List (QueueOp β)) : List β :=
  ops.filterMap fun
    | .append v => some v
    | _ => none

/-- Without a replacement, what was pending or appended is returned once or still pending. -/
theorem pendingRun_perm {ops : List (QueueOp β)} (hops : ∀ vs, .replace vs ∉ ops)
    (pending : List β) : (pending ++ appended ops).Perm
      ((pendingRun attributeOf order pending ops).1.filterMap id
        ++ (pendingRun attributeOf order pending ops).2) := by
  induction ops generalizing pending with
  | nil => simp [appended, pendingRun]
  | cons op ops ih =>
      have hops' : ∀ vs, .replace vs ∉ ops := fun vs hvs => hops vs (List.mem_cons_of_mem _ hvs)
      simp only [pendingRun]
      cases op with
      | append v =>
          have := ih hops' (pending ++ [v])
          rwa [List.append_assoc] at this
      | replace vs => exact absurd (List.mem_cons_self ..) (hops vs)
      | popleft =>
          have hrest := ih hops' (pending.eraseP fun v => IsNext attributeOf order pending v)
          have happended : appended (.popleft :: ops) = appended ops := rfl
          rw [happended, pendingStep]
          cases hfind : pending.find? fun v => IsNext attributeOf order pending v with
          | none =>
              rw [List.filterMap_cons_none rfl]
              rwa [List.eraseP_of_forall_not fun v hv =>
                List.find?_eq_none.mp hfind v hv] at hrest ⊢
          | some v =>
              change (pending ++ appended ops).Perm (v :: (List.filterMap id _ ++ _))
              exact ((perm_eraseP hfind).append_right _).trans (hrest.cons v)

theorem pendingRun_append (pending : List β) (before after : List (QueueOp β)) :
    (pendingRun attributeOf order pending (before ++ after)).2
      = (pendingRun attributeOf order (pendingRun attributeOf order pending before).2 after).2 := by
  induction before generalizing pending with
  | nil => rfl
  | cons op before ih => exact ih _

end Queued

/-- `__init__`, for the graph of the rules. -/
def ofGraph (attributeOf : β → Option α) (g : RelationPrecedenceGraph α) (it : WorkIteration α)
    (drvs : List β) :
    Except CycleInRelationPrecedencePolicyError (DelayedVariableQueue α β) := do
  let freezeOrder ← g.getFreezeOrder it
  return ofFreezeOrder attributeOf freezeOrder drvs

/-- **The queue returns what is pending by priority, and the oldest first.** -/
theorem queue_refines_pending (attributes : List α) (freezeDependents : α → List α)
    (hac : Acyclic (RelationPrecedenceGraph.Precedes attributes freezeDependents))
    (it : WorkIteration α) (attributeOf : β → Option α) (drvs : List β) :
    ∃ order q, RelationPrecedenceGraph.IsFreezeOrder
        (RelationPrecedenceGraph.Precedes attributes freezeDependents) order
      ∧ ofGraph attributeOf (.ofRules attributes freezeDependents) it drvs = .ok q
      ∧ ∀ ops, (q.run attributeOf ops).1 = (pendingRun attributeOf order drvs ops).1
        ∧ (q.run attributeOf ops).2.size = (pendingRun attributeOf order drvs ops).2.length
        ∧ ∀ after, (∀ vs, .replace vs ∉ after) →
          ((pendingRun attributeOf order drvs ops).2 ++ appended after).Perm
            (((q.run attributeOf ops).2.run attributeOf after).1.filterMap id
              ++ (pendingRun attributeOf order drvs (ops ++ after)).2) := by
  obtain ⟨order, hfreeze, horder⟩ :=
    (RelationPrecedenceGraph.getFreezeOrder_spec
      (RelationPrecedenceGraph.represents_ofRules attributes freezeDependents) it).1 hac
  refine ⟨order, ofFreezeOrder attributeOf order drvs, horder, ?_, fun ops => ?_⟩
  · rw [ofGraph, hfreeze]
    rfl
  · obtain ⟨houts, hqueued⟩ := (queued_ofFreezeOrder horder.nodup drvs).run horder.nodup ops
    refine ⟨houts, hqueued.toFilled.size_eq horder.nodup, fun after hafter => ?_⟩
    rw [(hqueued.run horder.nodup after).1, pendingRun_append]
    exact pendingRun_perm hafter _

/-- Relation 0 is frozen before relation 1. A variable of relation 0 is appended after the
working list has moved past it. -/
theorem queue_returns_dirty_relation_first :
    ∃ order q, RelationPrecedenceGraph.IsFreezeOrder
        (RelationPrecedenceGraph.Precedes [0] fun a => if a = 0 then [1] else []) order
      ∧ ofGraph Prod.fst (.ofRules [0] fun a => if a = 0 then [1] else [])
          ⟨fun _ work => work, fun _ _ => .refl _⟩ [(some 1, 'a'), (some 1, 'b')] = .ok q
      ∧ (q.run Prod.fst [.popleft, .append (some 0, 'c'), .popleft, .popleft]).1
        = (pendingRun Prod.fst order [(some 1, 'a'), (some 1, 'b')]
            [.popleft, .append (some 0, 'c'), .popleft, .popleft]).1 := by
  have hac : Acyclic (RelationPrecedenceGraph.Precedes [0] fun a => if a = 0 then [1] else []) := by
    refine (acyclic_of_rank (r := Function.swap _) id fun a b hab => ?_).swap
    obtain ⟨hb, ha⟩ := hab
    obtain rfl := List.mem_singleton.mp hb
    obtain rfl := List.mem_singleton.mp ha
    exact Nat.zero_lt_one
  obtain ⟨order, q, horder, hq, hops⟩ := queue_refines_pending [0]
    (fun a => if a = 0 then [1] else []) hac ⟨fun _ work => work, fun _ _ => .refl _⟩ Prod.fst [(some 1, 'a'), (some 1, 'b')]
  exact ⟨order, q, horder, hq, (hops _).1⟩

end DelayedVariableQueue

end Inmanta
