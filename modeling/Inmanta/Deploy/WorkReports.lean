import Inmanta.Deploy.DeployWithContext

/-!
# What the reports to the scheduled work do

`delete_resource` takes the tasks of a resource away, `finished_deploy`
removes a finished resource from what its dependants wait for, and
queues those that wait for nothing else (`Unblocked`).
-/

namespace Inmanta

namespace ScheduledWork

variable {w : ScheduledWork} {requires : RequiresProvidesMapping} {r x : ResourceIdStr}

theorem isQueued_deleteResource :
    (w.deleteResource r).IsQueued x ↔ x ≠ r ∧ w.IsQueued x := by
  have hfold := foldl_induct
    (f := fun (q : AgentQueues) (t : Task) => if t.deleteWithResource then (q.discard t).1 else q)
    (I := fun pre q => Task.deploy x ∈ q ↔
      Task.deploy x ∈ w.agentQueues ∧ Task.deploy x ∉ pre)
    (l := w.agentQueues.getTasksForResource r) (s := w.agentQueues)
    (fun pre t post q _ hI => by
      by_cases ht : t = .deploy x
      · subst ht
        simp [Task.deleteWithResource]
      · have ht' : ¬ Task.deploy x = t := fun e => ht e.symm
        split <;> simp [hI, ht'])
    (by simp)
  refine hfold.trans ?_
  rw [and_comm, AgentQueues.mem_getTasksForResource]
  exact and_congr_left fun hq => not_congr (and_iff_left hq)

theorem deleteResource_waiting : x ∈ (w.deleteResource r).waiting ↔ x ≠ r ∧ x ∈ w.waiting :=
  Dict.mem_del

theorem blockedOn_deleteResource (h : x ≠ r) :
    (w.deleteResource r).blockedOn x = w.blockedOn x := by
  unfold blockedOn deleteResource
  rw [Dict.get?_del, if_neg h]

theorem isScheduled_deleteResource :
    (w.deleteResource r).IsScheduled x ↔ x ≠ r ∧ w.IsScheduled x := by
  rw [IsScheduled, deleteResource_waiting, isQueued_deleteResource, IsScheduled, and_or_left]

theorem Valid.deleteResource (hv : w.Valid) : (w.deleteResource r).Valid where
  key := fun x b hb => by
    unfold ScheduledWork.deleteResource at hb
    rw [Dict.get?_del] at hb
    split at hb
    · cases hb
    · exact hv.key x b hb
  unique := fun x hx hq =>
    hv.unique x (deleteResource_waiting.mp hx).2 (isQueued_deleteResource.mp hq).2

theorem deleteResource_inProgress :
    (w.deleteResource r).agentQueues.inProgress = w.agentQueues.inProgress := by
  refine foldl_induct (I := fun _ (q : AgentQueues) => q.inProgress = w.agentQueues.inProgress)
    (fun pre t post q _ hI => ?_) rfl
  split
  · exact AgentQueues.discard_inProgress.trans hI
  · exact hI

/-- Dropping the tasks of several resources. -/
theorem deleteAll_spec (hv : w.Valid) (rs : List ResourceIdStr) :
    (rs.foldl deleteResource w).Valid
      ∧ (∀ x, x ∈ (rs.foldl deleteResource w).waiting ↔ x ∈ w.waiting ∧ x ∉ rs)
      ∧ (∀ x, (rs.foldl deleteResource w).IsQueued x ↔ w.IsQueued x ∧ x ∉ rs)
      ∧ (rs.foldl deleteResource w).agentQueues.inProgress = w.agentQueues.inProgress := by
  refine foldl_induct (f := deleteResource)
    (I := fun pre (w' : ScheduledWork) => w'.Valid
      ∧ (∀ x, x ∈ w'.waiting ↔ x ∈ w.waiting ∧ x ∉ pre)
      ∧ (∀ x, w'.IsQueued x ↔ w.IsQueued x ∧ x ∉ pre)
      ∧ w'.agentQueues.inProgress = w.agentQueues.inProgress)
    ?_ ⟨hv, by simp, by simp, rfl⟩
  rintro pre y post w' - ⟨hv', hw, hq, hp⟩
  have hconcat : ∀ x, x ∉ pre ++ [y] ↔ x ∉ pre ∧ x ≠ y := fun x => by simp
  refine ⟨hv'.deleteResource, fun x => ?_, fun x => ?_, deleteResource_inProgress.trans hp⟩
  · rw [deleteResource_waiting, hw, hconcat]
    tauto
  · rw [isQueued_deleteResource, hq, hconcat]
    tauto

/-- The dependants `informed` of the finished resource `r` have been informed. -/
structure Unblocked (w : ScheduledWork) (r : ResourceIdStr) (informed : ResourceIdStr → Prop)
    (w' : ScheduledWork) : Prop where
  valid : w'.Valid
  waiting : ∀ x, x ∈ w'.waiting ↔
    x ∈ w.waiting ∧ ¬ (informed x ∧ ∀ d ∈ w.blockedOn x, d = r)
  blocked : ∀ x ∈ w'.waiting, ∀ d, d ∈ w'.blockedOn x ↔
    d ∈ w.blockedOn x ∧ ¬ (informed x ∧ d = r)
  isQueued : ∀ x, w'.IsQueued x ↔
    w.IsQueued x ∨ (x ∈ w.waiting ∧ informed x ∧ ∀ d ∈ w.blockedOn x, d = r)
  inProgress : w'.agentQueues.inProgress = w.agentQueues.inProgress

theorem Unblocked.congr {informed informed' : ResourceIdStr → Prop} {w' : ScheduledWork}
    (h : Unblocked w r informed w') (hd : ∀ x, informed x ↔ informed' x) : Unblocked w r informed' w' := by
  obtain rfl : informed = informed' := funext fun x => propext (hd x)
  exact h

theorem Unblocked.refl (hv : w.Valid) (r : ResourceIdStr) :
    Unblocked w r (fun _ => False) w :=
  ⟨hv, by simp, by simp, by simp, rfl⟩

theorem Unblocked.unblock {informed : ResourceIdStr → Prop} {w' : ScheduledWork}
    (h : Unblocked w r informed w') (y : ResourceIdStr) :
    Unblocked w r (fun x => informed x ∨ x = y) (w'.unblock r y) := by
  unfold ScheduledWork.unblock
  cases hb : w'.waiting.get? y with
  | none =>
      -- not waiting, or not any more: then it was informed before
      have hy : y ∈ w.waiting → informed y ∧ ∀ d ∈ w.blockedOn y, d = r := by
        intro hyw
        by_contra hno
        exact Dict.not_mem_iff.mpr hb ((h.waiting y).mpr ⟨hyw, hno⟩)
      refine ⟨h.valid, fun x => ?_, fun x hx d => ?_, fun x => ?_, h.inProgress⟩
      · rw [h.waiting]
        by_cases hx : x = y
        · subst hx; simp; tauto
        · simp [hx]
      · have hxy : x ≠ y := fun e => Dict.not_mem_iff.mpr hb (e ▸ hx)
        rw [h.blocked x hx]
        simp [hxy]
      · rw [h.isQueued]
        by_cases hx : x = y
        · subst hx; simp; tauto
        · simp [hx]
  | some b =>
      have hyw' : y ∈ w'.waiting := Dict.mem_of_get? hb
      have hkey : b.resource = y := h.valid.key y b hb
      have hbl : ∀ d, d ∈ b.blockedOn ↔ d ∈ w.blockedOn y ∧ ¬ (informed y ∧ d = r) := fun d => by
        rw [← h.blocked y hyw', blockedOn_of_get? hb]
      obtain ⟨hyw, hynot⟩ := (h.waiting y).mp hyw'
      have hempty : discard b.blockedOn r = [] ↔ ∀ d ∈ w.blockedOn y, d = r := by
        simp only [List.eq_nil_iff_forall_not_mem, mem_discard, hbl]
        constructor
        · intro hall d hd
          by_contra hne
          exact hall d ⟨⟨hd, fun hx => hne hx.2⟩, hne⟩
        · rintro hall d ⟨⟨hd, -⟩, hne⟩
          exact hne (hall d hd)
      let b' : BlockedDeploy := { b with blockedOn := discard b.blockedOn r }
      have hblocked : ∀ x ∈ w'.waiting, ∀ d,
          (d ∈ if x = y then b'.blockedOn else w'.blockedOn x) ↔
            d ∈ w.blockedOn x ∧ ¬ ((informed x ∨ x = y) ∧ d = r) := by
        intro x hx d
        by_cases hxy : x = y
        · subst hxy
          rw [if_pos rfl, mem_discard, hbl]
          tauto
        · rw [if_neg hxy, h.blocked x hx]
          simp [hxy]
      show Unblocked w r _ (ScheduledWork.queueIfReady _ b')
      unfold queueIfReady
      by_cases hready : discard b.blockedOn r = []
      · have hall := hempty.mp hready
        rw [if_neg (by simpa using hready)]
        show Unblocked w r _
          ⟨w'.agentQueues.queuePutNowait (.deploy b.resource) _ _ _, (w'.waiting.set y b').del
            b.resource⟩
        rw [hkey]
        refine ⟨⟨fun x b₁ hb₁ => ?_, fun x hx hq => ?_⟩, fun x => ?_, fun x hx d => ?_,
          fun x => ?_, ?_⟩
        · rw [Dict.get?_del, Dict.get?_set] at hb₁
          split at hb₁
          · cases hb₁
          · exact h.valid.key x b₁ hb₁
        · obtain ⟨hxy, hx⟩ := Dict.mem_del.mp hx
          rcases AgentQueues.mem_queuePutNowait.mp hq with he | hq
          · exact hxy (Task.deploy.inj he)
          · exact h.valid.unique x ((Dict.mem_set.mp hx).resolve_left hxy) hq
        · rw [Dict.mem_del, Dict.mem_set, h.waiting]
          by_cases hx : x = y
          · subst hx; simp; tauto
          · simp [hx]
        · obtain ⟨hxy, hx⟩ := Dict.mem_del.mp hx
          have hx := (Dict.mem_set.mp hx).resolve_left hxy
          have hres := hblocked x hx d
          rw [if_neg hxy] at hres
          rw [← hres, ScheduledWork.blockedOn, Dict.get?_del, if_neg hxy, Dict.get?_set,
            if_neg hxy, ScheduledWork.blockedOn]
        · refine AgentQueues.mem_queuePutNowait.trans ?_
          show Task.deploy x = .deploy y ∨ w'.IsQueued x ↔ _
          rw [Task.deploy.injEq, h.isQueued]
          by_cases hx : x = y
          · subst hx
            exact iff_of_true (Or.inl rfl) (Or.inr ⟨hyw, Or.inr rfl, hall⟩)
          · simp [hx]
        · exact AgentQueues.queuePutNowait_inProgress.trans h.inProgress
      · rw [if_pos (by simpa using hready)]
        have hnall : ¬ ∀ d ∈ w.blockedOn y, d = r := fun hx => hready (hempty.mpr hx)
        refine ⟨⟨fun x b₁ hb₁ => ?_, fun x hx hq => ?_⟩, fun x => ?_, fun x hx d => ?_,
          fun x => ?_, h.inProgress⟩
        · rw [Dict.get?_set] at hb₁
          split at hb₁
          · rename_i hx
            obtain rfl := Option.some.inj hb₁
            exact hkey.trans hx.symm
          · exact h.valid.key x b₁ hb₁
        · have hx : x ∈ w'.waiting := (Dict.mem_set.mp hx).elim (fun e => e ▸ hyw') id
          exact h.valid.unique x hx hq
        · rw [Dict.mem_set, h.waiting]
          by_cases hx : x = y
          · subst hx; simp only [true_or, or_true, true_and]; tauto
          · simp [hx]
        · have hx : x ∈ w'.waiting := (Dict.mem_set.mp hx).elim (fun e => e ▸ hyw') id
          rw [← hblocked x hx d, ScheduledWork.blockedOn, Dict.get?_set]
          by_cases hxy : x = y
          · rw [if_pos hxy, if_pos hxy]
            rfl
          · rw [if_neg hxy, if_neg hxy]
            rfl
        · refine (h.isQueued x).trans ?_
          by_cases hx : x = y
          · subst hx; simp only [or_true, true_and]; tauto
          · simp [hx]

theorem finishedDeploy_spec (hv : w.Valid) (requires : RequiresProvidesMapping)
    (hr : ¬ w.IsScheduled r) :
    Unblocked w r (fun x => r ∈ requires.requires x) (w.finishedDeploy requires r) := by
  have hfold := foldl_induct (I := fun pre w' => Unblocked w r (fun x => x ∈ pre) w')
    (l := requires.provides r) (f := ScheduledWork.unblock r) (s := w)
    (fun pre y post w' _ hI => (hI.unblock y).congr fun x => by simp)
    ((Unblocked.refl hv r).congr fun x => by simp)
  show Unblocked w r _ (if w.IsScheduled r then w else (requires.provides r).foldl (unblock r) w)
  rw [if_neg hr]
  exact hfold.congr fun x => RequiresProvidesMapping.mem_provides

theorem finishedDeploy_of_isScheduled (requires : RequiresProvidesMapping)
    (hr : w.IsScheduled r) : w.finishedDeploy requires r = w :=
  if_pos hr

theorem Unblocked.isScheduled {informed : ResourceIdStr → Prop} {w' : ScheduledWork}
    (h : Unblocked w r informed w') : w'.IsScheduled x ↔ w.IsScheduled x := by
  rw [IsScheduled, h.waiting, h.isQueued, IsScheduled]
  tauto

end ScheduledWork

end Inmanta
