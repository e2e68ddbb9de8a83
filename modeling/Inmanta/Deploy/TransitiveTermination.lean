import Inmanta.Deploy.TransitiveBlocking
import Mathlib.Data.Finset.Card

/-!
# Termination of the propagation

The requires relation may have cycles. The worklists of the phases shrink
nevertheless, with one exception. Phase 2 marks a resource before it pushes its
dependants, and phase 4 unblocks one: both happen once for each resource. The
propagation of phase 3 skips the dependants that are *not* blocked and pushes
those that are, without changing them. So it follows the blocked dependants of
what the back check has blocked, and goes round for ever if that leads into a
cycle.

Nothing is assumed of the parameters here: a resource that is said to be
undefined may be neither undefined nor blocked. Phase 2 then passes it by.
-/

open Relation (TransGen ReflTransGen)

namespace Inmanta

/-! ## What is blocked before the propagation of phase 3 -/

section Blocked

variable (s : ModelState) (newUndefined : List ResourceIdStr)

/-- Phase 2: downstream of what is said to be undefined, through resources that
it blocks. -/
inductive PropagatedFrom : ResourceIdStr → Prop where
  | source {d r : ResourceIdStr} : d ∈ newUndefined → d ∈ s.requiresOf r → ¬ s.IsBlocked r →
      r ∉ newUndefined → PropagatedFrom r
  | step {d r : ResourceIdStr} : PropagatedFrom d → d ∈ s.requiresOf r → ¬ s.IsBlocked r →
      r ∉ newUndefined → PropagatedFrom r

/-- Blocked when phase 2 is done. -/
def BlockedFirst (r : ResourceIdStr) : Prop := s.IsBlocked r ∨ PropagatedFrom s newUndefined r

/-- Phase 3, back check in the order of the list. -/
inductive CheckedFrom : List ResourceIdStr → ResourceIdStr → Prop where
  | start {before after : List ResourceIdStr} {d r : ResourceIdStr} :
      ¬ BlockedFirst s newUndefined r → r ∉ newUndefined → d ∈ s.requiresOf r →
      BlockedFirst s newUndefined d → CheckedFrom (before ++ r :: after) r
  | step {before after : List ResourceIdStr} {d r : ResourceIdStr} :
      ¬ BlockedFirst s newUndefined r → r ∉ newUndefined → d ∈ s.requiresOf r →
      CheckedFrom before d → CheckedFrom (before ++ r :: after) r

/-- Blocked when the resources of the list have been checked. -/
def BlockedThen (verifyBlocked : List ResourceIdStr) (r : ResourceIdStr) : Prop :=
  BlockedFirst s newUndefined r ∨ CheckedFrom s newUndefined verifyBlocked r

/-- Phase 3, propagation: `x` is a dependant of `a` that is blocked, and is
blocked again. -/
def BlockedAgain (verifyBlocked : List ResourceIdStr) (a x : ResourceIdStr) : Prop :=
  a ∈ s.requiresOf x ∧ BlockedThen s newUndefined verifyBlocked x

/-- Blocked dependants lead from `a` into a cycle of blocked dependants. -/
def LeadsToCycle (verifyBlocked : List ResourceIdStr) (a : ResourceIdStr) : Prop :=
  ∃ c, ReflTransGen (BlockedAgain s newUndefined verifyBlocked) a c ∧
    TransGen (BlockedAgain s newUndefined verifyBlocked) c c

end Blocked

section Checked

variable {s : ModelState} {newUndefined : List ResourceIdStr}

theorem PropagatedFrom.not_isBlocked {r : ResourceIdStr} (h : PropagatedFrom s newUndefined r) :
    ¬ s.IsBlocked r ∧ r ∉ newUndefined := by
  cases h with
  | source _ _ hb hn => exact ⟨hb, hn⟩
  | step _ _ hb hn => exact ⟨hb, hn⟩

theorem CheckedFrom.not_blockedFirst {l : List ResourceIdStr} {r : ResourceIdStr}
    (h : CheckedFrom s newUndefined l r) : ¬ BlockedFirst s newUndefined r ∧ r ∉ newUndefined := by
  cases h with
  | start hb hn _ _ => exact ⟨hb, hn⟩
  | step hb hn _ _ => exact ⟨hb, hn⟩

theorem CheckedFrom.append {l : List ResourceIdStr} {r : ResourceIdStr}
    (h : CheckedFrom s newUndefined l r) (post : List ResourceIdStr) :
    CheckedFrom s newUndefined (l ++ post) r := by
  cases h with
  | start hb hn hreq hd =>
      rw [List.append_assoc, List.cons_append]
      exact .start hb hn hreq hd
  | step hb hn hreq hd =>
      rw [List.append_assoc, List.cons_append]
      exact .step hb hn hreq hd

theorem CheckedFrom.mem {l : List ResourceIdStr} {r : ResourceIdStr}
    (h : CheckedFrom s newUndefined l r) : r ∈ l := by
  cases h <;> simp

/-- One more resource is checked. -/
theorem checkedFrom_concat {pre : List ResourceIdStr} {a r : ResourceIdStr} :
    CheckedFrom s newUndefined (pre ++ [a]) r ↔
      CheckedFrom s newUndefined pre r
        ∨ (r = a ∧ ¬ BlockedFirst s newUndefined a ∧ a ∉ newUndefined
            ∧ ∃ d ∈ s.requiresOf a, BlockedThen s newUndefined pre d) := by
  constructor
  · intro h
    generalize hl : pre ++ [a] = l at h
    cases h with
    | @start before after d _ hb hn hreq hd =>
        rcases List.eq_nil_or_concat' after with rfl | ⟨after', x, rfl⟩
        · obtain ⟨rfl, h⟩ := List.append_inj' hl rfl
          obtain rfl := List.singleton_inj.mp h
          exact .inr ⟨rfl, hb, hn, d, hreq, .inl hd⟩
        · rw [← List.cons_append, ← List.append_assoc] at hl
          obtain ⟨rfl, -⟩ := List.append_inj' hl rfl
          exact .inl (.start hb hn hreq hd)
    | @step before after d _ hb hn hreq hd =>
        rcases List.eq_nil_or_concat' after with rfl | ⟨after', x, rfl⟩
        · obtain ⟨rfl, h⟩ := List.append_inj' hl rfl
          obtain rfl := List.singleton_inj.mp h
          exact .inr ⟨rfl, hb, hn, d, hreq, .inr hd⟩
        · rw [← List.cons_append, ← List.append_assoc] at hl
          obtain ⟨rfl, -⟩ := List.append_inj' hl rfl
          exact .inl (.step hb hn hreq hd)
  · rintro (h | ⟨rfl, hb, hn, d, hreq, hd | hd⟩)
    · exact h.append [a]
    · exact .start hb hn hreq hd
    · exact .step hb hn hreq hd

theorem LeadsToCycle.of_again {verifyBlocked : List ResourceIdStr} {a b : ResourceIdStr}
    (hab : BlockedAgain s newUndefined verifyBlocked a b)
    (h : LeadsToCycle s newUndefined verifyBlocked b) :
    LeadsToCycle s newUndefined verifyBlocked a := by
  obtain ⟨c, hbc, hc⟩ := h
  exact ⟨c, .head hab hbc, hc⟩

/-- On the way into a cycle there is a next step. -/
theorem LeadsToCycle.next {verifyBlocked : List ResourceIdStr} {a : ResourceIdStr}
    (h : LeadsToCycle s newUndefined verifyBlocked a) :
    ∃ b, BlockedAgain s newUndefined verifyBlocked a b
      ∧ LeadsToCycle s newUndefined verifyBlocked b := by
  obtain ⟨c, hac, hc⟩ := h
  rcases ReflTransGen.cases_head hac with rfl | ⟨b, hab, hbc⟩
  · obtain ⟨b, hab, hbc⟩ := TransGen.head'_iff.mp hc
    exact ⟨b, hab, a, hbc, hc⟩
  · exact ⟨b, hab, c, hbc, hc⟩

end Checked

namespace TransitiveUpdate

variable {s : ModelState} {t t' : TransitiveUpdate} {r : ResourceIdStr}
  {newUndefined verifyBlocked verifyUnblocked pre post work : List ResourceIdStr}

/-- How many resources are not in a list. -/
def unmarked (s : ModelState) (l : List ResourceIdStr) : ℕ :=
  (s.resourceState.keys.toFinset \ l.toFinset).card

theorem unmarked_insert_lt {l : List ResourceIdStr} (hr : r ∈ s.resourceState) (hl : r ∉ l) :
    unmarked s (l.insert r) < unmarked s l := by
  refine Finset.card_lt_card (Finset.ssubset_iff_of_subset ?_ |>.mpr ⟨r, ?_, ?_⟩)
  · intro x hx
    simp only [Finset.mem_sdiff, List.mem_toFinset, List.mem_insert_iff, not_or] at hx ⊢
    exact ⟨hx.1, hx.2.2⟩
  · simp only [Finset.mem_sdiff, List.mem_toFinset]
    exact ⟨Dict.mem_keys.mpr hr, hl⟩
  · simp

/-! ## Phase 2 -/

/-- The invariant of phase 2 for any parameters. -/
structure Marking (s : ModelState) (newUndefined : List ResourceIdStr) (t : TransitiveUpdate)
    (work : List ResourceIdStr) : Prop where
  accounted : Accounted s t
  outUnblocked : t.outUnblocked = []
  sound : ∀ r ∈ t.outBlocked, PropagatedFrom s newUndefined r
  new : ∀ r ∈ newUndefined, r ∈ t.isBlocked
  marked : ∀ r ∈ t.isBlocked, r ∈ newUndefined ∨ t.state.IsBlocked r
  waiting : ∀ r ∈ work, ∃ d, (d ∈ newUndefined ∨ d ∈ t.outBlocked) ∧ d ∈ s.requiresOf r
  pending : ∀ d r, d ∈ newUndefined ∨ d ∈ t.outBlocked → d ∈ s.requiresOf r →
    r ∈ t.isBlocked ∨ r ∈ work

theorem Marking.init : Marking s newUndefined (init s newUndefined)
    (newUndefined.flatMap s.providesOf).reverse where
  accounted := .init s newUndefined
  outUnblocked := rfl
  sound _ hr := absurd hr List.not_mem_nil
  new _ := id
  marked _ := .inl
  waiting r hr := by
    simp only [List.mem_reverse, List.mem_flatMap, ModelState.mem_providesOf] at hr
    obtain ⟨d, hd, hreq⟩ := hr
    exact ⟨d, .inl hd, hreq⟩
  pending d r hd hreq := by
    right
    simp only [TransitiveUpdate.init, List.not_mem_nil, or_false] at hd
    simp only [List.mem_reverse, List.mem_flatMap, ModelState.mem_providesOf]
    exact ⟨d, hd, hreq⟩

/-- A resource that is marked leaves the worklist. -/
theorem Marking.skip (h : Marking s newUndefined t (r :: work)) (hr : r ∈ t.isBlocked) :
    Marking s newUndefined t work where
  accounted := h.accounted
  outUnblocked := h.outUnblocked
  sound := h.sound
  new := h.new
  marked := h.marked
  waiting x hx := h.waiting x (List.mem_cons_of_mem _ hx)
  pending d x hd hreq := by
    rcases h.pending d x hd hreq with hx | hx
    · exact .inl hx
    · rcases List.mem_cons.mp hx with rfl | hx
      · exact .inl hr
      · exact .inr hx

theorem Marking.step (hcl : s.Closed) (h : Marking s newUndefined t (r :: work)) :
    ∃ t' push, propagateUndefined r t = .ok (t', push) ∧
      Marking s newUndefined t' (push ++ work) ∧
      (unmarked s t'.isBlocked < unmarked s t.isBlocked ∨
        push = [] ∧ unmarked s t'.isBlocked = unmarked s t.isBlocked) := by
  obtain ⟨d, hd, hreq⟩ := h.waiting r List.mem_cons_self
  have hr : r ∈ s.resourceState := (hcl r d hreq).1
  by_cases hm : r ∈ t.isBlocked
  · exact ⟨t, [], by rw [propagateUndefined, if_pos hm]; rfl, h.skip hm, .inr ⟨rfl, rfl⟩⟩
  obtain ⟨rs, hrs, hb, -⟩ := h.accounted.get? hr
  have hlt : unmarked s (t.markBlocked r).isBlocked < unmarked s t.isBlocked :=
    unmarked_insert_lt hr hm
  by_cases hblocked : rs.blocked = .blocked
  · refine ⟨t.markBlocked r, [], ?_, ?_, .inl hlt⟩
    · simp only [propagateUndefined, if_neg hm]
      rw [show (t.markBlocked r).state = t.state from rfl, Dict.item_of_get? hrs]
      simp only [ok_bind, if_pos hblocked, pure_eq_ok]
    · refine Marking.skip (r := r) ⟨h.accounted.markBlocked, h.outUnblocked, h.sound,
        fun x hx => List.mem_insert_of_mem (h.new x hx), fun x hx => ?_, h.waiting,
        fun e x he hx => (h.pending e x he hx).imp_left List.mem_insert_of_mem⟩
        List.mem_insert_self
      rcases List.mem_insert_iff.mp hx with rfl | hx
      · exact .inr (hb.mp hblocked)
      · exact h.marked x hx
  -- a resource that is blocked now: its dependants become work
  have hnb : ¬ s.IsBlocked r := fun hs => hblocked (hb.mpr ((h.accounted.isBlocked r).mpr
    ⟨by simp [h.outUnblocked], .inr hs⟩))
  have hnn : r ∉ newUndefined := fun hn => hm (h.new r hn)
  have hprop : PropagatedFrom s newUndefined r := by
    rcases hd with hd | hd
    · exact .source hd hreq hnb hnn
    · exact .step (h.sound d hd) hreq hnb hnn
  obtain ⟨t', ht', hacc, hisb, hout, hun⟩ :=
    (h.accounted.markBlocked (r := r)).block hr h.outUnblocked
  have hblockedNow : ∀ x, t'.state.IsBlocked x ↔ x = r ∨ t.state.IsBlocked x := by
    intro x
    rw [hacc.isBlocked, h.accounted.isBlocked, hun, hout, h.outUnblocked]
    simp only [List.not_mem_nil, not_false_eq_true, true_and, List.mem_insert_iff]
    exact or_assoc
  refine ⟨t', (t'.state.providesOf r).reverse, ?_, ?_, .inl (hisb ▸ hlt)⟩
  · simp only [propagateUndefined, if_neg hm]
    rw [show (t.markBlocked r).state = t.state from rfl, Dict.item_of_get? hrs]
    simp only [ok_bind, if_neg hblocked, ht', pure_eq_ok]
  · rw [hacc.providesOf]
    refine ⟨hacc, hun, fun x hx => ?_, fun x hx => ?_, fun x hx => ?_, fun x hx => ?_,
      fun e x he hx => ?_⟩
    · rw [hout] at hx
      rcases List.mem_insert_iff.mp hx with rfl | hx
      · exact hprop
      · exact h.sound x hx
    · exact hisb ▸ List.mem_insert_of_mem (h.new x hx)
    · rw [hisb] at hx
      rw [hblockedNow]
      rcases List.mem_insert_iff.mp hx with rfl | hx
      · exact .inr (.inl rfl)
      · exact (h.marked x hx).imp_right .inr
    · rw [hout]
      rcases List.mem_append.mp hx with hx | hx
      · rw [List.mem_reverse, ModelState.mem_providesOf] at hx
        exact ⟨r, .inr List.mem_insert_self, hx⟩
      · obtain ⟨e, he, hex⟩ := h.waiting x (List.mem_cons_of_mem _ hx)
        exact ⟨e, he.imp_right List.mem_insert_of_mem, hex⟩
    · rw [hout, List.mem_insert_iff] at he
      rw [hisb, List.mem_append, List.mem_reverse, ModelState.mem_providesOf]
      rcases he with he | rfl | he
      · refine (h.pending e x (.inl he) hx).elim (fun hm' => .inl (List.mem_insert_of_mem hm')) ?_
        intro hw
        rcases List.mem_cons.mp hw with rfl | hw
        · exact .inl List.mem_insert_self
        · exact .inr (.inr hw)
      · exact .inr (.inl hx)
      · refine (h.pending e x (.inr he) hx).elim (fun hm' => .inl (List.mem_insert_of_mem hm')) ?_
        intro hw
        rcases List.mem_cons.mp hw with rfl | hw
        · exact .inl List.mem_insert_self
        · exact .inr (.inr hw)

/-- What phase 2 blocks. -/
theorem Marking.outBlocked (h : Marking s newUndefined t []) (x : ResourceIdStr) :
    x ∈ t.outBlocked ↔ PropagatedFrom s newUndefined x := by
  refine ⟨h.sound x, fun hx => ?_⟩
  have hout : ∀ d r, d ∈ newUndefined ∨ d ∈ t.outBlocked → d ∈ s.requiresOf r →
      ¬ s.IsBlocked r → r ∉ newUndefined → r ∈ t.outBlocked := by
    intro d r hd hreq hb hn
    rcases h.pending d r hd hreq with hr | hr
    · have hr := (h.marked r hr).resolve_left hn
      rw [h.accounted.isBlocked] at hr
      exact hr.2.resolve_right hb
    · exact absurd hr List.not_mem_nil
  induction hx with
  | source hd hreq hb hn => exact hout _ _ (.inl hd) hreq hb hn
  | step _ hreq hb hn ih => exact hout _ _ (.inr ih) hreq hb hn

theorem Marking.isBlocked (h : Marking s newUndefined t []) (x : ResourceIdStr) :
    t.state.IsBlocked x ↔ BlockedFirst s newUndefined x := by
  rw [h.accounted.isBlocked, h.outUnblocked, h.outBlocked, BlockedFirst, or_comm]
  simp

/-! ## Phase 3, back check -/

/-- The invariant of the back check after the resources `pre`, for any
parameters. What it has blocked is on the worklist. -/
structure CheckingAll (s : ModelState) (newUndefined pre : List ResourceIdStr)
    (t : TransitiveUpdate) (work : List ResourceIdStr) : Prop where
  accounted : Accounted s t
  outUnblocked : t.outUnblocked = []
  outBlocked : ∀ r, r ∈ t.outBlocked ↔
    PropagatedFrom s newUndefined r ∨ CheckedFrom s newUndefined pre r
  new : ∀ r ∈ newUndefined, r ∈ t.isBlocked
  marked : ∀ r ∈ t.isBlocked, r ∈ newUndefined ∨ t.state.IsBlocked r
  waiting : ∀ r, r ∈ work ↔ CheckedFrom s newUndefined pre r

theorem CheckingAll.init (h : Marking s newUndefined t []) :
    CheckingAll s newUndefined [] t [] where
  accounted := h.accounted
  outUnblocked := h.outUnblocked
  outBlocked r := by
    rw [h.outBlocked]
    exact ⟨.inl, fun hr => hr.resolve_right fun hc => List.not_mem_nil hc.mem⟩
  new := h.new
  marked := h.marked
  waiting _ := ⟨fun hr => absurd hr List.not_mem_nil, fun hc => absurd hc.mem List.not_mem_nil⟩

theorem CheckingAll.isBlocked (h : CheckingAll s newUndefined pre t work) (x : ResourceIdStr) :
    t.state.IsBlocked x ↔ BlockedThen s newUndefined pre x := by
  rw [h.accounted.isBlocked, h.outUnblocked, h.outBlocked, BlockedThen, BlockedFirst]
  simp only [List.not_mem_nil, not_false_eq_true, true_and]
  tauto

/-- A check that finds no reason to block. -/
theorem CheckingAll.skip (h : CheckingAll s newUndefined pre t work) {t' : TransitiveUpdate}
    {a : ResourceIdStr} (hacc : Accounted s t') (hstate : t'.state = t.state)
    (hisb : t'.isBlocked = t.isBlocked) (hout : t'.outBlocked = t.outBlocked)
    (hun : t'.outUnblocked = t.outUnblocked)
    (hno : a ∈ newUndefined ∨ t.state.IsBlocked a ∨ ∀ d ∈ s.requiresOf a, ¬ t.state.IsBlocked d) :
    CheckingAll s newUndefined (pre ++ [a]) t' work := by
  have hsame : ∀ r,
      CheckedFrom s newUndefined (pre ++ [a]) r ↔ CheckedFrom s newUndefined pre r := by
    intro r
    rw [checkedFrom_concat]
    refine ⟨?_, .inl⟩
    rintro (hr | ⟨rfl, hnb, hnn, d, hreq, hd⟩)
    · exact hr
    · rcases hno with hn | hb | hno
      · exact absurd hn hnn
      · exact ((h.isBlocked r).mp hb).resolve_left hnb
      · exact absurd ((h.isBlocked d).mpr hd) (hno d hreq)
  exact ⟨hacc, hun.trans h.outUnblocked, fun r => by rw [hout, h.outBlocked, hsame],
    fun r hr => hisb ▸ h.new r hr, fun r hr => hstate ▸ h.marked r (hisb ▸ hr),
    fun r => by rw [h.waiting, hsame]⟩

theorem CheckingAll.step (hcl : s.Closed) {a : ResourceIdStr} (ha : a ∈ s.resourceState)
    (h : CheckingAll s newUndefined pre t work) :
    ∃ t' blocked, t.updateBlockedStatusToBlocked a = .ok (t', blocked)
      ∧ CheckingAll s newUndefined (pre ++ [a]) t' (if blocked then a :: work else work) := by
  obtain ⟨rs, hrs, hb, -⟩ := h.accounted.get? ha
  by_cases hm : a ∈ t.isBlocked
  · refine ⟨t, false, by rw [updateBlockedStatusToBlocked, if_pos hm]; rfl, ?_⟩
    exact h.skip h.accounted rfl rfl rfl rfl ((h.marked a hm).imp_right .inl)
  by_cases hblocked : rs.blocked = .blocked
  · refine ⟨t, false, ?_, h.skip h.accounted rfl rfl rfl rfl (.inr (.inl (hb.mp hblocked)))⟩
    simp only [updateBlockedStatusToBlocked, if_neg hm, Dict.item_of_get? hrs, ok_bind,
      if_pos hblocked, pure_eq_ok]
  obtain ⟨t₁, o, ho, hacc, hstate, hisb, hout, hun, hsome, hnone⟩ :=
    h.accounted.blockedDependency hcl a
  cases o with
  | none =>
      refine ⟨t₁, false, ?_, h.skip hacc hstate hisb hout hun (.inr (.inr (hnone rfl)))⟩
      simp only [updateBlockedStatusToBlocked, if_neg hm, Dict.item_of_get? hrs, ok_bind,
        if_neg hblocked, ho, pure_eq_ok]
  | some d =>
      obtain ⟨hreq, hdb⟩ := hsome d rfl
      have hna : ¬ BlockedFirst s newUndefined a := fun hx =>
        hblocked (hb.mpr ((h.isBlocked a).mpr (.inl hx)))
      have hnn : a ∉ newUndefined := fun hn => hm (h.new a hn)
      have hnew : ∀ r, CheckedFrom s newUndefined (pre ++ [a]) r ↔
          r = a ∨ CheckedFrom s newUndefined pre r := by
        intro r
        rw [checkedFrom_concat, or_comm]
        exact or_congr_left (and_iff_left ⟨hna, hnn, d, hreq, (h.isBlocked d).mp hdb⟩)
      -- the test on the blocker only decides about the mark of the resource itself
      obtain ⟨u, hu, huacc, huout, huun, hustate, humarks⟩ : ∃ u : TransitiveUpdate,
          (if d ∈ t₁.isBlocked then t₁.markBlocked a else t₁) = u ∧ Accounted s u
            ∧ u.outBlocked = t.outBlocked ∧ u.outUnblocked = [] ∧ u.state = t.state
            ∧ ∀ x, (x ∈ t.isBlocked → x ∈ u.isBlocked)
                ∧ (x ∈ u.isBlocked → x ∈ t.isBlocked ∨ x = a) := by
        by_cases hd : d ∈ t₁.isBlocked
        · refine ⟨t₁.markBlocked a, if_pos hd, hacc.markBlocked, hout,
            hun.trans h.outUnblocked, hstate, fun x => ⟨fun hx => ?_, fun hx => ?_⟩⟩
          · exact List.mem_insert_of_mem (hisb ▸ hx)
          · exact (List.mem_insert_iff.mp hx).symm.imp_left fun hx => hisb ▸ hx
        · exact ⟨t₁, if_neg hd, hacc, hout, hun.trans h.outUnblocked, hstate,
            fun x => ⟨fun hx => hisb ▸ hx, fun hx => .inl (hisb ▸ hx)⟩⟩
      obtain ⟨t', ht', hacc', hisb', hout', hun'⟩ := huacc.block ha huun
      have hout : ∀ r, r ∈ t'.outBlocked ↔ r = a ∨ r ∈ t.outBlocked := by
        intro r
        rw [hout', huout, List.mem_insert_iff]
      refine ⟨t', true, ?_, hacc', hun', fun r => ?_, fun r hr => ?_, fun r hr => ?_, fun r => ?_⟩
      · simp only [updateBlockedStatusToBlocked, if_neg hm, Dict.item_of_get? hrs, ok_bind,
          if_neg hblocked, ho, hu, ht', pure_eq_ok]
      · rw [hout, h.outBlocked, hnew, or_left_comm]
      · exact hisb' ▸ (humarks r).1 (h.new r hr)
      · rw [hacc'.isBlocked, hun', hout]
        simp only [List.not_mem_nil, not_false_eq_true, true_and]
        rcases (humarks r).2 (hisb' ▸ hr) with hr | rfl
        · refine (h.marked r hr).imp_right fun hb => ?_
          rw [h.accounted.isBlocked] at hb
          exact hb.2.imp_left .inr
        · exact .inr (.inl (.inl rfl))
      · rw [if_pos rfl, List.mem_cons, h.waiting, hnew]

/-- The back check as a whole. -/
theorem backCheck_all (hcl : s.Closed) (hvb : ∀ r ∈ verifyBlocked, r ∈ s.resourceState)
    (h : Marking s newUndefined t []) :
    ∃ t' work, t.backCheck verifyBlocked = .ok (t', work)
      ∧ CheckingAll s newUndefined verifyBlocked t' work := by
  obtain ⟨⟨t', work⟩, hok, hI⟩ : ∃ acc, t.backCheck verifyBlocked = .ok acc
      ∧ CheckingAll s newUndefined verifyBlocked acc.1 acc.2 := foldlM_ok
    (I := fun pre (acc : TransitiveUpdate × List ResourceIdStr) =>
      CheckingAll s newUndefined pre acc.1 acc.2)
    (fun pre a post acc hl hI => by
      obtain ⟨t₁, work⟩ := acc
      obtain ⟨t', blocked, ht', hchk⟩ := hI.step hcl (hvb a (by simp [hl]))
      exact ⟨(t', if blocked then a :: work else work), by dsimp only at ht' ⊢; rw [ht']; rfl,
        hchk⟩)
    (.init h)
  exact ⟨t', work, hok, hI⟩

/-! ## Phase 3, propagation -/

/-- One dependant of an already blocked resource: it is pushed if and only if
it is blocked. -/
theorem Accounted.propagateBlockedTo (h : Accounted s t) (hr : r ∈ s.resourceState)
    (hu : t.outUnblocked = []) (isHardBlock : Bool) (pushed : List ResourceIdStr) :
    ∃ acc, TransitiveUpdate.propagateBlockedTo isHardBlock (t, pushed) r = .ok acc
      ∧ Accounted s acc.1 ∧ acc.1.outUnblocked = []
      ∧ (∀ x, acc.1.state.IsBlocked x ↔ t.state.IsBlocked x)
      ∧ (∀ x, x ∈ acc.2 ↔ (x = r ∧ t.state.IsBlocked r) ∨ x ∈ pushed)
      ∧ ∀ x, x ∈ acc.1.outBlocked ↔ (x = r ∧ t.state.IsBlocked r) ∨ x ∈ t.outBlocked := by
  obtain ⟨u, hmark, hacc, hustate, huout, huun⟩ : ∃ u,
      (if isHardBlock then t.markBlocked r else t) = u ∧ Accounted s u ∧ u.state = t.state
        ∧ u.outBlocked = t.outBlocked ∧ u.outUnblocked = [] := by
    cases isHardBlock with
    | false => exact ⟨t, rfl, h, rfl, rfl, hu⟩
    | true => exact ⟨t.markBlocked r, rfl, h.markBlocked, rfl, rfl, hu⟩
  obtain ⟨rs, hrs, hb, -⟩ := hacc.get? hr
  rw [hustate] at hb
  by_cases hblocked : rs.blocked = .blocked
  · obtain ⟨t', ht', hacc', -, hout, hun⟩ := hacc.block hr huun
    refine ⟨(t', r :: pushed), ?_, hacc', hun, fun x => ?_, fun x => ?_, fun x => ?_⟩
    · simp only [TransitiveUpdate.propagateBlockedTo, hmark, Dict.item_of_get? hrs, ok_bind,
        hblocked, ne_eq, not_true_eq_false, if_false, ht', pure_eq_ok]
    · rw [hacc'.isBlocked, h.isBlocked, hun, hu, hout, huout, List.mem_insert_iff]
      refine and_congr_right fun _ => ⟨?_, fun hx => hx.imp_left .inr⟩
      rintro ((rfl | hx) | hx)
      · exact ((h.isBlocked x).mp (hb.mp hblocked)).2
      · exact .inl hx
      · exact .inr hx
    · rw [List.mem_cons, and_iff_left (hb.mp hblocked)]
    · rw [hout, huout, List.mem_insert_iff, and_iff_left (hb.mp hblocked)]
  · have hno : ∀ x, ¬ (x = r ∧ t.state.IsBlocked r) := fun x hx => hblocked (hb.mpr hx.2)
    refine ⟨(u, pushed), ?_, hacc, huun, fun x => by rw [hustate], fun x => ?_, fun x => ?_⟩
    · simp only [TransitiveUpdate.propagateBlockedTo, hmark, Dict.item_of_get? hrs, ok_bind,
        ne_eq, hblocked, not_false_eq_true, if_true, pure_eq_ok]
    · rw [or_iff_right (hno x)]
    · rw [huout, or_iff_right (hno x)]

/-- One iteration pushes exactly the dependants that are blocked. -/
theorem Accounted.propagateBlocked (hcl : s.Closed) (h : Accounted s t)
    (hu : t.outUnblocked = []) (a : ResourceIdStr) :
    ∃ t' push, TransitiveUpdate.propagateBlocked a t = .ok (t', push)
      ∧ Accounted s t' ∧ t'.outUnblocked = []
      ∧ (∀ x, t'.state.IsBlocked x ↔ t.state.IsBlocked x)
      ∧ (∀ x, x ∈ push ↔ a ∈ s.requiresOf x ∧ t.state.IsBlocked x)
      ∧ ∀ x, x ∈ t'.outBlocked ↔ x ∈ push ∨ x ∈ t.outBlocked := by
  obtain ⟨⟨t', push⟩, hok, hacc, hun, hblk, hpush, hout⟩ := foldlM_ok
    (I := fun pre (acc : TransitiveUpdate × List ResourceIdStr) =>
      Accounted s acc.1 ∧ acc.1.outUnblocked = []
        ∧ (∀ x, acc.1.state.IsBlocked x ↔ t.state.IsBlocked x)
        ∧ (∀ x, x ∈ acc.2 ↔ x ∈ pre ∧ t.state.IsBlocked x)
        ∧ ∀ x, x ∈ acc.1.outBlocked ↔ x ∈ acc.2 ∨ x ∈ t.outBlocked)
    (f := TransitiveUpdate.propagateBlockedTo (a ∈ t.isBlocked)) (l := t.state.providesOf a)
    (s := (t, []))
    (fun pre y post acc hl hI => by
      obtain ⟨u, pushed⟩ := acc
      obtain ⟨hacc, hun, hblk, hpush, hout⟩ := hI
      have hy : y ∈ s.resourceState := by
        refine (hcl y a ?_).1
        rw [← ModelState.mem_providesOf, ← h.providesOf, hl]
        simp
      obtain ⟨acc', hacc', h₁, h₂, h₃, h₄, h₅⟩ :=
        hacc.propagateBlockedTo hy hun (a ∈ t.isBlocked) pushed
      refine ⟨acc', hacc', h₁, h₂, fun x => (h₃ x).trans (hblk x), fun x => ?_, fun x => ?_⟩
      · rw [h₄, hpush, hblk, List.mem_append, List.mem_singleton]
        constructor
        · rintro (⟨rfl, hb⟩ | ⟨hx, hb⟩)
          · exact ⟨.inr rfl, hb⟩
          · exact ⟨.inl hx, hb⟩
        · rintro ⟨hx | rfl, hb⟩
          · exact .inr ⟨hx, hb⟩
          · exact .inl ⟨rfl, hb⟩
      · rw [h₅, h₄, hout, or_assoc])
    ⟨h, hu, fun _ => .rfl, fun x => by simp, fun x => by simp⟩
  refine ⟨t', push, hok, hacc, hun, hblk, fun x => ?_, hout⟩
  rw [hpush, h.providesOf, ModelState.mem_providesOf]

/-- The invariant of the propagation of phase 3 for any parameters: it changes
no blocked status, and works on blocked resources. -/
structure CascadingAll (s : ModelState) (newUndefined verifyBlocked : List ResourceIdStr)
    (t : TransitiveUpdate) : Prop where
  accounted : Accounted s t
  outUnblocked : t.outUnblocked = []
  isBlocked : ∀ x, t.state.IsBlocked x ↔ BlockedThen s newUndefined verifyBlocked x

theorem CascadingAll.step (hcl : s.Closed) (h : CascadingAll s newUndefined verifyBlocked t)
    (a : ResourceIdStr) :
    ∃ t' push, TransitiveUpdate.propagateBlocked a t = .ok (t', push)
      ∧ CascadingAll s newUndefined verifyBlocked t'
      ∧ ∀ x, x ∈ push ↔ BlockedAgain s newUndefined verifyBlocked a x := by
  obtain ⟨t', push, hok, hacc, hun, hblk, hpush, -⟩ :=
    h.accounted.propagateBlocked hcl h.outUnblocked a
  exact ⟨t', push, hok, ⟨hacc, hun, fun x => (hblk x).trans (h.isBlocked x)⟩,
    fun x => by rw [hpush, h.isBlocked, BlockedAgain]⟩

/-- The propagation completes if nothing on its worklist leads into a cycle. -/
theorem CascadingAll.completes (hcl : s.Closed) (h : CascadingAll s newUndefined verifyBlocked t)
    (hwork : ∀ r ∈ work, ¬ LeadsToCycle s newUndefined verifyBlocked r) :
    ∃ n t', drain .outOfFuel TransitiveUpdate.propagateBlocked n work t = .ok t'
      ∧ CascadingAll s newUndefined verifyBlocked t' := by
  have hac : Acyclic fun a b => BlockedAgain s newUndefined verifyBlocked a b
      ∧ ¬ LeadsToCycle s newUndefined verifyBlocked a := by
    intro a ha
    obtain ⟨b, hab, -⟩ := TransGen.head'_iff.mp ha
    exact hab.2 ⟨a, .refl, TransGen.mono (fun _ _ hab => hab.1) _ _ ha⟩
  have hwf := hac.wellFounded s.resourceState.keys fun a b hab =>
    Dict.mem_keys.mpr (hcl b a hab.1.1).2
  obtain ⟨n, t', hok, hI, -⟩ := drain_of_wf PyError.outOfFuel hwf
    (I := fun t work => CascadingAll s newUndefined verifyBlocked t
      ∧ ∀ r ∈ work, ¬ LeadsToCycle s newUndefined verifyBlocked r)
    (fun a work t hI => by
      obtain ⟨t', push, hok, hcas, hpush⟩ := hI.1.step hcl a
      have ha := hI.2 a List.mem_cons_self
      refine ⟨t', push, hok, ⟨hcas, fun r hr => ?_⟩, fun b hb => ⟨(hpush b).mp hb, ha⟩⟩
      rcases List.mem_append.mp hr with hr | hr
      · exact fun hc => ha (hc.of_again ((hpush r).mp hr))
      · exact hI.2 r (List.mem_cons_of_mem _ hr))
    work t ⟨h, hwork⟩
  exact ⟨n, t', hok, hI⟩

/-- The propagation goes round for ever if something on its worklist leads into
a cycle. -/
theorem CascadingAll.diverges (hcl : s.Closed) (h : CascadingAll s newUndefined verifyBlocked t)
    (hr : r ∈ work) (hcycle : LeadsToCycle s newUndefined verifyBlocked r) (n : ℕ) :
    drain .outOfFuel TransitiveUpdate.propagateBlocked n work t = .error PyError.outOfFuel := by
  refine drain_stuck
    (I := fun t work => CascadingAll s newUndefined verifyBlocked t
      ∧ ∃ r ∈ work, LeadsToCycle s newUndefined verifyBlocked r)
    (fun a work t hI => ?_) (fun t hI => ?_) n work t ⟨h, r, hr, hcycle⟩
  · obtain ⟨hcas, r, hr, hcycle⟩ := hI
    obtain ⟨t', push, hok, hcas', hpush⟩ := hcas.step hcl a
    refine ⟨t', push, hok, hcas', ?_⟩
    rcases List.mem_cons.mp hr with rfl | hr
    · obtain ⟨b, hrb, hb⟩ := hcycle.next
      exact ⟨b, List.mem_append_left _ ((hpush b).mpr hrb), hb⟩
    · exact ⟨r, List.mem_append_right _ hr, hcycle⟩
  · obtain ⟨-, r, hr, -⟩ := hI
    exact List.not_mem_nil hr

/-! ## Phase 4 -/

/-- One iteration: it pushes only if it unblocks one more resource. -/
theorem Accounted.verifyOne (hcl : s.Closed) (h : Accounted s t) (hr : r ∈ s.resourceState) :
    ∃ t' push, TransitiveUpdate.verifyUnblocked r t = .ok (t', push) ∧ Accounted s t'
      ∧ (∀ x ∈ push, x ∈ s.resourceState)
      ∧ (unmarked s t'.outUnblocked < unmarked s t.outUnblocked
        ∨ push = [] ∧ unmarked s t'.outUnblocked = unmarked s t.outUnblocked) := by
  obtain ⟨rs, hrs, hb, -⟩ := h.get? hr
  by_cases hm : r ∈ t.isBlocked
  · refine ⟨t, [], ?_, h, fun x hx => absurd hx List.not_mem_nil, .inr ⟨rfl, rfl⟩⟩
    rw [TransitiveUpdate.verifyUnblocked, updateBlockedStatus, if_pos hm]
    rfl
  by_cases hblocked : rs.blocked = .blocked
  swap
  · refine ⟨t, [], ?_, h, fun x hx => absurd hx List.not_mem_nil, .inr ⟨rfl, rfl⟩⟩
    simp [TransitiveUpdate.verifyUnblocked, updateBlockedStatus, Dict.item_of_get? hrs, hblocked]
  by_cases hu : rs.compliance = .undefined
  · refine ⟨t.markBlocked r, [], ?_, h.markBlocked, fun x hx => absurd hx List.not_mem_nil,
      .inr ⟨rfl, rfl⟩⟩
    simp [TransitiveUpdate.verifyUnblocked, updateBlockedStatus, if_neg hm, Dict.item_of_get? hrs,
      hblocked, hu]
  obtain ⟨t₁, o, ho, hacc, -, -, -, hun, -, -⟩ := h.blockedDependency hcl r
  cases o with
  | some d =>
      refine ⟨t₁, [], ?_, hacc, fun x hx => absurd hx List.not_mem_nil, .inr ⟨rfl, by rw [hun]⟩⟩
      simp [TransitiveUpdate.verifyUnblocked, updateBlockedStatus, if_neg hm,
        Dict.item_of_get? hrs, hblocked, hu, ho]
  | none =>
      obtain ⟨state, hs, hacc', -⟩ := hacc.unblock hr
      refine ⟨_, (state.providesOf r).reverse, ?_, hacc', fun x hx => ?_, .inl ?_⟩
      · simp [TransitiveUpdate.verifyUnblocked, updateBlockedStatus, if_neg hm,
          Dict.item_of_get? hrs, hblocked, hu, ho, hs]
      · rw [List.mem_reverse, ModelState.mem_providesOf, hacc'.same.requiresOf] at hx
        exact (hcl x r hx).1
      · show unmarked s (t₁.outUnblocked.insert r) < _
        rw [hun]
        exact unmarked_insert_lt hr ((h.isBlocked r).mp (hb.mp hblocked)).1

/-! ## The whole update -/

section Update

variable (hcl : s.Closed) (hvb : ∀ r ∈ verifyBlocked, r ∈ s.resourceState)

include hcl hvb

/-- Without a cycle every worklist runs empty. -/
theorem updateTransitiveState_completes (hvu : ∀ r ∈ verifyUnblocked, r ∈ s.resourceState)
    (hno : ∀ r, CheckedFrom s newUndefined verifyBlocked r →
      ¬ LeadsToCycle s newUndefined verifyBlocked r) :
    ∃ n result, ∀ fuel ≥ n,
      s.updateTransitiveState fuel newUndefined verifyBlocked verifyUnblocked = .ok result := by
  obtain ⟨n₂, t₂, h₂, hmark⟩ := drain_of_measure PyError.outOfFuel
    (fun t => unmarked s t.isBlocked)
    (fun a w t (hI : Marking s newUndefined t (a :: w)) => hI.step hcl) _ _ Marking.init
  obtain ⟨t₃, work, h₃, hchk⟩ := backCheck_all hcl hvb hmark
  have hcas : CascadingAll s newUndefined verifyBlocked t₃ :=
    ⟨hchk.accounted, hchk.outUnblocked, hchk.isBlocked⟩
  obtain ⟨n₄, t₄, h₄, hcas⟩ := hcas.completes hcl fun r hr => hno r ((hchk.waiting r).mp hr)
  obtain ⟨n₅, t₅, h₅, -⟩ := drain_of_measure PyError.outOfFuel
    (fun t => unmarked s t.outUnblocked)
    (I := fun t work => Accounted s t ∧ ∀ r ∈ work, r ∈ s.resourceState)
    (fun a w t hI => by
      obtain ⟨t', push, hok, hacc, hpush, hμ⟩ :=
        hI.1.verifyOne hcl (hI.2 a List.mem_cons_self)
      refine ⟨t', push, hok, ⟨hacc, fun r hr => ?_⟩, hμ⟩
      rcases List.mem_append.mp hr with hr | hr
      · exact hpush r hr
      · exact hI.2 r (List.mem_cons_of_mem _ hr))
    verifyUnblocked.reverse t₄ ⟨hcas.accounted, fun r hr => hvu r (List.mem_reverse.mp hr)⟩
  refine ⟨n₂ + n₄ + n₅, (t₅.state, t₅.outUnblocked, t₅.outBlocked), fun fuel hfuel => ?_⟩
  rw [ModelState.updateTransitiveState]
  simp only [drain_mono h₂ (show n₂ ≤ fuel by omega), h₃, ok_bind,
    drain_mono h₄ (show n₄ ≤ fuel by omega), drain_mono h₅ (show n₅ ≤ fuel by omega),
    pure_eq_ok]

variable (verifyUnblocked) in
/-- With a cycle no amount of fuel is enough. -/
theorem updateTransitiveState_diverges (hr : CheckedFrom s newUndefined verifyBlocked r)
    (hcycle : LeadsToCycle s newUndefined verifyBlocked r) :
    ∃ n, ∀ fuel ≥ n, s.updateTransitiveState fuel newUndefined verifyBlocked verifyUnblocked
      = .error .outOfFuel := by
  obtain ⟨n₂, t₂, h₂, hmark⟩ := drain_of_measure PyError.outOfFuel
    (fun t => unmarked s t.isBlocked)
    (fun a w t (hI : Marking s newUndefined t (a :: w)) => hI.step hcl) _ _ Marking.init
  obtain ⟨t₃, work, h₃, hchk⟩ := backCheck_all hcl hvb hmark
  have hcas : CascadingAll s newUndefined verifyBlocked t₃ :=
    ⟨hchk.accounted, hchk.outUnblocked, hchk.isBlocked⟩
  refine ⟨n₂, fun fuel hfuel => ?_⟩
  rw [ModelState.updateTransitiveState]
  simp only [drain_mono h₂ hfuel, h₃, ok_bind,
    hcas.diverges hcl ((hchk.waiting r).mpr hr) hcycle, error_bind]

end Update

end TransitiveUpdate

namespace ModelState

open TransitiveUpdate

variable {s : ModelState} {newUndefined verifyBlocked verifyUnblocked : List ResourceIdStr}

/-- **The update completes if and only if the propagation does not run into a
cycle**: no resource blocked by the back check leads, through dependants that
are blocked by then, into a cycle of such dependants. -/
theorem update_completes_iff (hcl : s.Closed)
    (hvb : ∀ r ∈ verifyBlocked, r ∈ s.resourceState)
    (hvu : ∀ r ∈ verifyUnblocked, r ∈ s.resourceState) :
    (∃ n result, ∀ fuel ≥ n,
        s.updateTransitiveState fuel newUndefined verifyBlocked verifyUnblocked = .ok result) ↔
      ∀ r, CheckedFrom s newUndefined verifyBlocked r →
        ¬ LeadsToCycle s newUndefined verifyBlocked r := by
  refine ⟨?_, updateTransitiveState_completes hcl hvb hvu⟩
  rintro ⟨n, result, hn⟩ r hr hcycle
  obtain ⟨m, hm⟩ := updateTransitiveState_diverges verifyUnblocked hcl hvb hr hcycle
  have hok := hn (n + m) (by omega)
  rw [hm (n + m) (by omega)] at hok
  cases hok

theorem update_completes_iff_chained :
    (∃ n result, ∀ fuel ≥ n,
        chained.updateTransitiveState fuel [] [nullResource "a"] [] = .ok result) ↔
      ∀ r, CheckedFrom chained [] [nullResource "a"] r →
        ¬ LeadsToCycle chained [] [nullResource "a"] r :=
  update_completes_iff edit_separate.2.valid.closed (by decide) (by decide)

/-- `b` is undefined and requires `a`. -/
def paired : ModelState :=
  ((ModelState.empty.edit [nullUpdate "a" "0" false, nullUpdate "b" "0" true]
    [(nullResource "b", [nullResource "a"])]).toOption).getD .empty

/-- Now `a` requires `b` too. -/
def knotted : ModelState :=
  ((paired.edit [] [(nullResource "a", [nullResource "b"])]).toOption).getD .empty

theorem paired_exact : ExactFlags paired := by
  obtain ⟨s, hs, hed⟩ := edit_ok .empty
    (show EditSet .empty [nullUpdate "a" "0" false, nullUpdate "b" "0" true]
      [(nullResource "b", [nullResource "a"])] by constructor <;> decide)
  have hv : paired.Valid := by
    rw [paired, hs]
    exact hed.valid
  exact .of_keys hv (.of_rank hv chainRank (by decide)) (by decide) (by decide)

theorem knotted_edits : EditSet paired [] [(nullResource "a", [nullResource "b"])] := by
  constructor <;> decide

theorem edit_paired :
    paired.edit [] [(nullResource "a", [nullResource "b"])] = .ok knotted
      ∧ Edited paired knotted := by
  obtain ⟨s, hs, hed⟩ := edit_ok paired_exact knotted_edits
  have heq : ModelState.knotted = s := by rw [ModelState.knotted, hs]; rfl
  exact ⟨heq ▸ hs, heq ▸ hed⟩

theorem knotted_args : EditArgs paired knotted [] [nullResource "a"] [] :=
  .of_keys paired_exact.valid edit_paired.2 (by decide) (by decide) (by decide) (by decide)

/-- After a version that closes a cycle through a blocked resource, with the
parameters that go with it, the update runs for ever. -/
theorem knotted_diverges :
    ExactFlags paired ∧ EditSet paired [] [(nullResource "a", [nullResource "b"])]
      ∧ paired.edit [] [(nullResource "a", [nullResource "b"])] = .ok knotted
      ∧ EditArgs paired knotted [] [nullResource "a"] []
      ∧ ¬ ∃ n result, ∀ fuel ≥ n,
          knotted.updateTransitiveState fuel [] [nullResource "a"] [] = .ok result := by
  refine ⟨paired_exact, knotted_edits, edit_paired.1, knotted_args, ?_⟩
  have hnot : ∀ r, ¬ PropagatedFrom knotted [] r := by
    intro r hr
    induction hr with
    | source hd => exact List.not_mem_nil hd
    | step _ _ _ _ ih => exact ih
  have hb : BlockedFirst knotted [] (nullResource "b") := .inl (by decide)
  have ha : CheckedFrom knotted [] [nullResource "a"] (nullResource "a") :=
    show CheckedFrom knotted [] ([] ++ nullResource "a" :: []) (nullResource "a") from
      .start (fun h => h.elim (by decide) (hnot _)) (by decide)
        (show nullResource "b" ∈ _ by decide) hb
  have hcycle : LeadsToCycle knotted [] [nullResource "a"] (nullResource "a") :=
    ⟨nullResource "a", .refl, .tail (.single (b := nullResource "b") ⟨by decide, .inl hb⟩)
      ⟨by decide, .inr ha⟩⟩
  rintro ⟨n, result, hn⟩
  obtain ⟨m, hm⟩ := updateTransitiveState_diverges [] edit_paired.2.valid.closed (by decide) ha
    hcycle
  have hok := hn (n + m) (by omega)
  rw [hm (n + m) (by omega)] at hok
  cases hok

end ModelState

end Inmanta
