import Inmanta.Deploy.TransitiveTermination

/-!
# What the update reports

`ModelState.updateTransitiveState` returns "resources that have effectively
been moved to this state". The two lists are filled as the phases go, and a
later phase may take back what an earlier one did. `net_change_iff` states
exactly when the lists are the difference between entry and exit.

The propagation of phase 3 is complete for what it does
(`updateTransitiveState_cascaded`): everything blocked below a back-checked
resource is blocked, and reported, once more.
-/

namespace Inmanta

section Agreement

variable {s : ModelState} {newUndefined verifyBlocked verifyUnblocked : List ResourceIdStr}

/-! ## With the documented parameters -/

/-- What is newly undefined is blocked already. -/
theorem propagatedFrom_iff (hnew : ∀ r ∈ newUndefined, s.IsBlocked r) {r : ResourceIdStr} :
    PropagatedFrom s newUndefined r ↔ Propagated s newUndefined r := by
  constructor
  · intro h
    induction h with
    | source hd hreq hb _ => exact .source hd hreq hb
    | step _ hreq hb _ ih => exact .step ih hreq hb
  · intro h
    induction h with
    | source hd hreq hb => exact .source hd hreq hb fun hn => hb (hnew _ hn)
    | step _ hreq hb ih => exact .step ih hreq hb fun hn => hb (hnew _ hn)

theorem BackChecked.checkedFrom (hnew : ∀ r ∈ newUndefined, s.IsBlocked r)
    {l : List ResourceIdStr} {r : ResourceIdStr} (h : BackChecked s newUndefined l r) :
    CheckedFrom s newUndefined l r := by
  have hfirst : ∀ r, BlockedFirst s newUndefined r ↔ BlockedByUndefined s newUndefined r :=
    fun r => or_congr_right (propagatedFrom_iff hnew)
  induction h with
  | start hb hreq hd =>
      exact .start (mt (hfirst _).mp hb) (fun hn => hb (.inl (hnew _ hn))) hreq ((hfirst _).mpr hd)
  | step hb hreq _ ih =>
      exact .step (mt (hfirst _).mp hb) (fun hn => hb (.inl (hnew _ hn))) hreq ih

end Agreement

namespace TransitiveUpdate

variable {s s' : ModelState} {t : TransitiveUpdate} {r : ResourceIdStr}
  {newUndefined verifyBlocked verifyUnblocked outUnblocked outBlocked work : List ResourceIdStr}

/-- What has been worked off in phase 3 has its blocked dependants reported and
on the worklist, or worked off too. -/
structure CascadePending (s : ModelState) (newUndefined verifyBlocked : List ResourceIdStr)
    (done : ResourceIdStr → Prop) (t : TransitiveUpdate) (work : List ResourceIdStr) : Prop where
  start : ∀ d, BackChecked s newUndefined verifyBlocked d → d ∈ work ∨ done d
  next : ∀ d x, done d → d ∈ s.requiresOf x → Provisional s newUndefined verifyBlocked x →
    (x ∈ work ∨ done x) ∧ x ∈ t.outBlocked

/-- One more resource is worked off. -/
theorem CascadePending.step (hcl : s.Closed) {a : ResourceIdStr}
    {done : ResourceIdStr → Prop} (hcas : Cascading s newUndefined verifyBlocked t (a :: work))
    (h : CascadePending s newUndefined verifyBlocked done t (a :: work)) :
    ∃ t' push, TransitiveUpdate.propagateBlocked a t = .ok (t', push)
      ∧ CascadePending s newUndefined verifyBlocked (fun d => d = a ∨ done d) t'
          (push ++ work) := by
  obtain ⟨t', push, hok, -, -, -, hpush, hout⟩ :=
    hcas.accounted.propagateBlocked hcl hcas.outUnblocked a
  have hleft : ∀ x, x ∈ a :: work ∨ done x → x ∈ push ++ work ∨ x = a ∨ done x := by
    intro x hx
    rcases hx with hx | hx
    · rcases List.mem_cons.mp hx with rfl | hx
      · exact .inr (.inl rfl)
      · exact .inl (List.mem_append_right _ hx)
    · exact .inr (.inr hx)
  refine ⟨t', push, hok, fun d hd => hleft d (h.start d hd), fun d x hd hreq hx => ?_⟩
  rcases hd with rfl | hd
  · have hxp : x ∈ push := (hpush x).mpr ⟨hreq, (hcas.isBlocked x).mpr hx⟩
    exact ⟨.inl (List.mem_append_left _ hxp), (hout x).mpr (.inl hxp)⟩
  · obtain ⟨hw, ho⟩ := h.next d x hd hreq hx
    exact ⟨hleft x hw, (hout x).mpr (.inr ho)⟩

theorem CascadePending.reported {done : ResourceIdStr → Prop}
    (h : CascadePending s newUndefined verifyBlocked done t [])
    (hr : Cascaded s newUndefined verifyBlocked r) : done r ∧ r ∈ t.outBlocked := by
  have hnil : ∀ x, x ∈ ([] : List ResourceIdStr) ∨ done x → done x :=
    fun x hx => hx.resolve_left List.not_mem_nil
  induction hr with
  | source hd hreq hp => exact (h.next _ _ (hnil _ (h.start _ hd)) hreq hp).imp_left (hnil _)
  | step _ hreq hp ih => exact (h.next _ _ ih.1 hreq hp).imp_left (hnil _)

/-- **The propagation of phase 3 reports everything that is blocked below a
back-checked resource.** -/
theorem updateTransitiveState_cascaded {fuel : ℕ}
    (hargs : UpdateArgs s newUndefined verifyBlocked verifyUnblocked)
    (hok : s.updateTransitiveState fuel newUndefined verifyBlocked verifyUnblocked
      = .ok (s', outUnblocked, outBlocked))
    (hr : Cascaded s newUndefined verifyBlocked r) : r ∈ outBlocked := by
  have hnew : ∀ r ∈ newUndefined, s.IsBlocked r := fun r hr => (hargs.undefined r hr).2
  rw [ModelState.updateTransitiveState] at hok
  obtain ⟨t₂, h₂, hok⟩ := bind_eq_ok.mp hok
  have hprop : Propagating s newUndefined t₂ [] :=
    drain_invariant (fun a w t t' push hI hs => by
      obtain ⟨t'', push', hs', hI', -⟩ := hI.step hargs.closed
      obtain ⟨rfl, rfl⟩ := Prod.mk.inj (Except.ok.inj (hs'.symm.trans hs))
      exact hI') h₂ (.init hargs)
  have hmark : Marking s newUndefined t₂ [] :=
    drain_invariant (fun a w t t' push hI hs => by
      obtain ⟨t'', push', hs', hI', -⟩ := hI.step hargs.closed
      obtain ⟨rfl, rfl⟩ := Prod.mk.inj (Except.ok.inj (hs'.symm.trans hs))
      exact hI') h₂ .init
  obtain ⟨t₃, work, h₃, hchk⟩ := backCheck_ok hargs hprop
  obtain ⟨t₃', work', h₃', hall⟩ := backCheck_all hargs.closed hargs.verifyBlocked hmark
  obtain ⟨rfl, rfl⟩ := Prod.mk.inj (Except.ok.inj (h₃.symm.trans h₃'))
  rw [h₃, ok_bind] at hok
  obtain ⟨t₄, h₄, hok⟩ := bind_eq_ok.mp hok
  have hcas : Cascading s newUndefined verifyBlocked t₄ []
      ∧ ∃ done, CascadePending s newUndefined verifyBlocked done t₄ [] := by
    refine drain_invariant
      (I := fun t work => Cascading s newUndefined verifyBlocked t work
        ∧ ∃ done, CascadePending s newUndefined verifyBlocked done t work)
      (fun a w t t' push hI hs => ?_) h₄ ⟨.init hchk, fun _ => False, ?_⟩
    · obtain ⟨hcas, done, hI⟩ := hI
      obtain ⟨t'', push', hs', hcas', -⟩ := hcas.step hargs.closed
      obtain ⟨rfl, rfl⟩ := Prod.mk.inj (Except.ok.inj (hs'.symm.trans hs))
      obtain ⟨t₁, push₁, hs₁, hI'⟩ := hI.step hargs.closed hcas
      obtain ⟨rfl, rfl⟩ := Prod.mk.inj (Except.ok.inj (hs₁.symm.trans hs))
      exact ⟨hcas', _, hI'⟩
    · exact ⟨fun d hd => .inl ((hall.waiting d).mpr (hd.checkedFrom hnew)), fun d x hd => hd.elim⟩
  obtain ⟨hcas, done, hpending⟩ := hcas
  obtain ⟨t₅, h₅, hok⟩ := bind_eq_ok.mp hok
  have hrel : Releasing s newUndefined verifyBlocked verifyUnblocked t₄.outBlocked t₅ [] :=
    drain_invariant (fun a w t t' push hI hs => by
      obtain ⟨t'', push', hs', hI', -⟩ := hI.step hargs.closed
      obtain ⟨rfl, rfl⟩ := Prod.mk.inj (Except.ok.inj (hs'.symm.trans hs))
      exact hI') h₅ (.init hargs hcas)
  obtain ⟨rfl, heq⟩ := Prod.mk.inj (Except.ok.inj hok)
  obtain ⟨rfl, rfl⟩ := Prod.mk.inj heq
  exact hrel.outBlocked ▸ (hpending.reported hr).2

end TransitiveUpdate

namespace ModelState

open TransitiveUpdate

variable {s s' : ModelState} {unblocked blocked : List ResourceIdStr}
  {newUndefined verifyBlocked verifyUnblocked : List ResourceIdStr}

/-! ## The net change -/

/-- "Resources that have effectively been moved to this state by this method." -/
structure NetChange (s s' : ModelState) (unblocked blocked : List ResourceIdStr) : Prop where
  disjoint : ∀ r ∈ unblocked, r ∉ blocked
  unblocked : ∀ r, r ∈ unblocked ↔ s.IsBlocked r ∧ ¬ s'.IsBlocked r
  blocked : ∀ r, r ∈ blocked ↔ ¬ s.IsBlocked r ∧ s'.IsBlocked r

/-- Nothing that an earlier phase blocked is released, and nothing that was
blocked at entry is blocked again. -/
theorem NetChange.of_spec
    (h : UpdateSpec s newUndefined verifyBlocked verifyUnblocked s' unblocked blocked)
    (hrel : ∀ r, BackChecked s newUndefined verifyBlocked r →
      ¬ Released s newUndefined verifyBlocked verifyUnblocked r)
    (hprop : ∀ r, Propagated s newUndefined r →
      ¬ Released s newUndefined verifyBlocked verifyUnblocked r)
    (hcas : ∀ r, Cascaded s newUndefined verifyBlocked r → ¬ s.IsBlocked r) :
    NetChange s s' unblocked blocked := by
  have hreached : ∀ r, Reached s newUndefined verifyBlocked r →
      ¬ Released s newUndefined verifyBlocked verifyUnblocked r :=
    fun r hr => hr.elim (hprop r) (hrel r)
  have hun : ∀ r, r ∈ unblocked → s.IsBlocked r := fun r hr =>
    have hr := (h.unblocked r).mp hr
    hr.provisional.resolve_right fun hx => hreached r hx hr
  have hbl : ∀ r, r ∈ blocked → Reached s newUndefined verifyBlocked r := by
    intro r hr
    rcases h.sound r hr with hr | hr
    · exact hr
    · exact (provisional_of_cascaded hr).resolve_left (hcas r hr)
  refine ⟨fun r hr hb => (hbl r hb).not_isBlocked (hun r hr), fun r => ⟨fun hr => ?_, ?_⟩,
    fun r => ⟨fun hr => ?_, ?_⟩⟩
  · exact ⟨hun r hr, fun hx => ((h.isBlocked r).mp hx).2 ((h.unblocked r).mp hr)⟩
  · rintro ⟨hb, hnb⟩
    rw [h.unblocked]
    by_contra hn
    exact hnb ((h.isBlocked r).mpr ⟨.inl hb, hn⟩)
  · have hr := hbl r hr
    exact ⟨hr.not_isBlocked, (h.isBlocked r).mpr ⟨.inr hr, hreached r hr⟩⟩
  · rintro ⟨hnb, hb⟩
    exact h.reached r (((h.isBlocked r).mp hb).1.resolve_left hnb)

/-- **The update reports the net change if and only if** no resource that the
back check blocks is released in the end, and no resource that was blocked at
entry is downstream of a back-checked one through blocked resources. -/
theorem net_change_iff (hargs : UpdateArgs s newUndefined verifyBlocked verifyUnblocked)
    (hac : s.AcyclicRequires) :
    ∃ n, ∀ fuel ≥ n, ∃ s' unblocked blocked,
      s.updateTransitiveState fuel newUndefined verifyBlocked verifyUnblocked
        = .ok (s', unblocked, blocked)
      ∧ (NetChange s s' unblocked blocked ↔
        (∀ r, BackChecked s newUndefined verifyBlocked r →
            ¬ Released s newUndefined verifyBlocked verifyUnblocked r)
          ∧ ∀ r, Cascaded s newUndefined verifyBlocked r → ¬ s.IsBlocked r) := by
  obtain ⟨n, hn⟩ := updateTransitiveState_terminates hargs hac
  refine ⟨n, fun fuel hfuel => ?_⟩
  obtain ⟨⟨s', unblocked, blocked⟩, hrun⟩ := hn fuel hfuel
  have hspec := updateTransitiveState_spec hargs hrun
  refine ⟨s', unblocked, blocked, hrun, fun hnet => ⟨fun r hr hrel => ?_, fun r hr hb => ?_⟩, ?_⟩
  · -- reported as unblocked, but not blocked at entry
    exact Reached.not_isBlocked (.inr hr)
      ((hnet.unblocked r).mp ((hspec.unblocked r).mpr hrel)).1
  · -- reported as blocked, but blocked at entry
    exact ((hnet.blocked r).mp (updateTransitiveState_cascaded hargs hrun hr)).1 hb
  · rintro ⟨hrel, hcas⟩
    refine .of_spec hspec hrel (fun r hr => ?_) hcas
    exact (Source.hardBlocked hargs (.inr hr)).not_released

theorem net_change_iff_chained :
    ∃ n, ∀ fuel ≥ n, ∃ s' unblocked blocked,
      chained.updateTransitiveState fuel [] [nullResource "a"] [] = .ok (s', unblocked, blocked)
      ∧ (NetChange chained s' unblocked blocked ↔
        (∀ r, BackChecked chained [] [nullResource "a"] r →
            ¬ Released chained [] [nullResource "a"] [] r)
          ∧ ∀ r, Cascaded chained [] [nullResource "a"] r → ¬ chained.IsBlocked r) :=
  net_change_iff (edit_separate.2.updateArgs separate_exact chained_args) chained_acyclic

/-- `b` is undefined. -/
def awaiting : ModelState :=
  ((ModelState.empty.edit [nullUpdate "a" "0" false, nullUpdate "b" "0" true] []).toOption).getD
    .empty

/-- Now `b` is defined, and `a` requires it. -/
def resolved : ModelState :=
  ((awaiting.edit [nullUpdate "b" "1" false]
    [(nullResource "a", [nullResource "b"])]).toOption).getD .empty

theorem awaiting_exact : ExactFlags awaiting := by
  obtain ⟨s, hs, hed⟩ := edit_ok .empty
    (show EditSet .empty [nullUpdate "a" "0" false, nullUpdate "b" "0" true] [] by
      constructor <;> decide)
  have hv : awaiting.Valid := by
    rw [awaiting, hs]
    exact hed.valid
  exact .of_keys hv (.of_rank hv chainRank (by decide)) (by decide) (by decide)

theorem resolved_edits : EditSet awaiting [nullUpdate "b" "1" false]
    [(nullResource "a", [nullResource "b"])] := by
  constructor <;> decide

theorem edit_awaiting :
    awaiting.edit [nullUpdate "b" "1" false] [(nullResource "a", [nullResource "b"])]
        = .ok resolved
      ∧ Edited awaiting resolved := by
  obtain ⟨s, hs, hed⟩ := edit_ok awaiting_exact resolved_edits
  have heq : ModelState.resolved = s := by rw [ModelState.resolved, hs]; rfl
  exact ⟨heq ▸ hs, heq ▸ hed⟩

theorem resolved_acyclic : resolved.AcyclicRequires :=
  .of_rank edit_awaiting.2.valid (fun r => [nullResource "b", nullResource "a"].idxOf r)
    (by decide)

theorem resolved_args :
    EditArgs awaiting resolved [] [nullResource "a"] [nullResource "b"] :=
  .of_keys awaiting_exact.valid edit_awaiting.2 (by decide) (by decide) (by decide) (by decide)

/-- A defined resource that starts to require one that is defined in the same
version is reported as blocked and as unblocked; it was not and is not blocked. -/
theorem resolved_reported_twice :
    ExactFlags awaiting
      ∧ EditSet awaiting [nullUpdate "b" "1" false] [(nullResource "a", [nullResource "b"])]
      ∧ awaiting.edit [nullUpdate "b" "1" false] [(nullResource "a", [nullResource "b"])]
        = .ok resolved
      ∧ resolved.AcyclicRequires
      ∧ EditArgs awaiting resolved [] [nullResource "a"] [nullResource "b"]
      ∧ ∃ s', resolved.updateTransitiveState 10 [] [nullResource "a"] [nullResource "b"]
          = .ok (s', [nullResource "a", nullResource "b"], [nullResource "a"])
        ∧ ¬ resolved.IsBlocked (nullResource "a") ∧ ¬ s'.IsBlocked (nullResource "a")
        ∧ ¬ NetChange resolved s' [nullResource "a", nullResource "b"] [nullResource "a"] := by
  refine ⟨awaiting_exact, resolved_edits, edit_awaiting.1, resolved_acyclic, resolved_args, ?_⟩
  obtain ⟨⟨s', unblocked, blocked⟩, hrun, hout, ha⟩ := exists_ok_of_any
    (x := resolved.updateTransitiveState 10 [] [nullResource "a"] [nullResource "b"])
    (p := fun p => p.2 = ([nullResource "a", nullResource "b"], [nullResource "a"])
      ∧ ¬ p.1.IsBlocked (nullResource "a")) (by decide)
  obtain ⟨rfl, rfl⟩ := Prod.mk.inj hout
  exact ⟨s', hrun, by decide, ha, fun h => h.disjoint (nullResource "a") (by decide) (by decide)⟩

end ModelState

end Inmanta
