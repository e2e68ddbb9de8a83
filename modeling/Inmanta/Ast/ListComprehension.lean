import Mathlib
import Inmanta.Lib.Loop

/-!
# List comprehensions

A list comprehension is executed in one of two ways. `executeDirect`
computes its value by recursion. Otherwise its execution is scheduled: the
collector creates a unit of execution for each element, the units are
executed in any order, and the results are collected in the end.

The expressions it consists of are taken as what their two ways of
execution yield, so one of them may be a list comprehension too.
`agree_iff` says on which iterables the two ways agree.
-/

namespace Inmanta

/-! ## Values and expressions -/

/-- Values of the language; `other` are those that are not told apart here. -/
inductive DslValue (α : Type) where
  | unknown
  | null
  | bool (b : Bool)
  | list (elements : List (DslValue α))
  | other (value : α)

inductive RuntimeException (α : Type) where
  /-- The iterable is neither a list nor a relation. -/
  | notIterable (value : DslValue α)
  /-- The guard of a list comprehension is not a boolean. -/
  | guardNotBool (value : DslValue α)
  /-- The condition of a conditional expression is not a boolean. -/
  | conditionNotBool (value : DslValue α)
  | other (msg : String)

/-- The variables that can be referred to. -/
abbrev Bindings (α : Type) := String → Option (DslValue α)

def Bindings.bind {α : Type} (env : Bindings α) (name : String) (value : DslValue α) :
    Bindings α :=
  fun x => if x = name then some value else env x

/-- What an expression yields when it is executed directly, and when its execution
is scheduled. -/
structure Expression (α : Type) where
  executeDirect : Bindings α → Except (RuntimeException α) (DslValue α)
  scheduled : Bindings α → Except (RuntimeException α) (DslValue α)

structure ListComprehension (α : Type) where
  valueExpression : Expression α
  loopVar : String
  iterable : Expression α
  guard : Option (Expression α)

variable {α : Type}

namespace DslValue

def isNull : DslValue α → Bool
  | null => true
  | _ => false

def isUnknown : DslValue α → Bool
  | unknown => true
  | _ => false

/-- The number of values a value consists of. -/
def size : DslValue α → ℕ
  | list elements => 1 + (elements.map size).sum
  | _ => 1

theorem size_le_sum {v : DslValue α} {l : List (DslValue α)} (h : v ∈ l) :
    v.size ≤ (l.map size).sum := by
  induction l with
  | nil => cases h
  | cons w l ih =>
      rw [List.map_cons, List.sum_cons]
      rcases List.mem_cons.mp h with rfl | h
      · omega
      · have := ih h
        omega

theorem size_lt_of_mem {v : DslValue α} {l : List (DslValue α)} (h : v ∈ l) :
    v.size < (list l).size := by
  have := size_le_sum h
  rw [size]
  omega

end DslValue

namespace ListComprehension

variable (c : ListComprehension α) (env : Bindings α)

/-! ## Direct execution -/

/-- Execute the list comprehension for a single element of the iterable; null if
the guard does not pass. -/
def process (iterable element : DslValue α) : Except (RuntimeException α) (DslValue α) := do
  let extendedRequires := env.bind c.loopVar element
  match c.guard with
  | none => c.valueExpression.executeDirect extendedRequires
  | some guard => do
      let guardValue ← guard.executeDirect extendedRequires
      -- the source tests the iterable here, which is a list
      if iterable.isUnknown then return .unknown
      match guardValue with
      | .bool true => c.valueExpression.executeDirect extendedRequires
      | .bool false => return .null
      | v => throw (.guardNotBool v)

def executeDirect : Except (RuntimeException α) (DslValue α) := do
  let iterable ← c.iterable.executeDirect env
  match iterable with
  | .unknown => return .unknown
  | .list elements => do
      let results ← elements.mapM (c.process env iterable)
      return .list (results.filter fun v => !v.isNull)
  | v => throw (.notIterable v)

/-! ## Scheduled execution -/

/-- The value for an element, or the marker that the guard filtered it. -/
inductive Guarded (α : Type) where
  | value (v : DslValue α)
  | guard

/-- The execution of the value expression for one element, with the condition value
of its guard once it is known. -/
structure ElementUnit (α : Type) where
  element : DslValue α
  conditionValue : Option Bool
  result : Option (Guarded α)

/-- Unknowns are propagated without executing the value expression. -/
def elementValue (element : DslValue α) : Except (RuntimeException α) (DslValue α) :=
  match element with
  | .unknown => return .unknown
  | v => c.valueExpression.scheduled (env.bind c.loopVar v)

/-- The next step of a unit: the condition is executed first, then the branch it
selects. -/
def resumeUnit (u : ElementUnit α) : Except (RuntimeException α) (ElementUnit α) := do
  if u.result.isSome then return u
  match c.guard, u.conditionValue with
  | none, _ => do
      let v ← c.elementValue env u.element
      return { u with result := some (.value v) }
  | some guard, none => do
      let conditionValue ← guard.scheduled (env.bind c.loopVar u.element)
      match conditionValue with
      | .unknown => return { u with result := some (.value .unknown) }
      | .bool b => return { u with conditionValue := some b }
      | v => throw (.conditionNotBool v)
  | some _, some true => do
      let v ← c.elementValue env u.element
      return { u with result := some (.value v) }
  | some _, some false => return { u with result := some .guard }

/-- Resume the unit at a position. -/
def resumeAt (us : List (ElementUnit α)) (i : ℕ) :
    Except (RuntimeException α) (List (ElementUnit α)) :=
  match us[i]? with
  | none => return us
  | some u => do
      let u' ← c.resumeUnit env u
      return us.set i u'

/-- `complete`: the elements the units are created for. An unknown iterable is
reported like an unknown element. -/
def complete : DslValue α → Except (RuntimeException α) (List (ElementUnit α))
  | .unknown => return [⟨.unknown, none, none⟩]
  | .list elements => return elements.map fun e => ⟨e, none, none⟩
  | v => throw (.notIterable v)

def Guarded.flatten : Guarded α → List (DslValue α)
  | .guard => []
  | .value (.list l) => l
  | .value v => [v]

/-- `resume`: collect the results, once all of them are there. -/
def collect (us : List (ElementUnit α)) : Option (DslValue α) := do
  let results ← us.mapM (·.result)
  return .list (results.flatMap Guarded.flatten)

/-- Scheduled execution, with the order in which the units are resumed; `none` as
long as some of them are not finished. -/
def scheduled (order : List ℕ) : Option (Except (RuntimeException α) (DslValue α)) :=
  match (do
    let iterable ← c.iterable.scheduled env
    let us ← complete iterable
    order.foldlM (c.resumeAt env) us) with
  | .error e => some (.error e)
  | .ok us => (collect us).map .ok

end ListComprehension

/-! ## Agreement -/

/-- Both yield the same value, or both raise. -/
def Agree : Except (RuntimeException α) (DslValue α) →
    Except (RuntimeException α) (DslValue α) → Prop
  | .ok v, .ok w => v = w
  | .error _, .error _ => True
  | _, _ => False

theorem Agree.ok_iff {x y : Except (RuntimeException α) (DslValue α)} (h : Agree x y)
    (v : DslValue α) : x = .ok v ↔ y = .ok v := by
  cases x with
  | ok a =>
      cases y with
      | ok b => rw [show a = b from h]
      | error _ => exact h.elim
  | error _ =>
      cases y with
      | ok _ => exact h.elim
      | error _ => simp

theorem Agree.error_iff {x y : Except (RuntimeException α) (DslValue α)} (h : Agree x y) :
    (∃ e, x = .error e) ↔ ∃ e, y = .error e := by
  cases x with
  | ok a =>
      cases y with
      | ok b => simp
      | error _ => exact h.elim
  | error _ =>
      cases y with
      | ok _ => exact h.elim
      | error _ => simp

namespace ListComprehension

/-! ## When the collected results are the same -/

/-- What directly executed elements yield. -/
def kept (d : DslValue α) : List (DslValue α) :=
  if d.isNull then [] else [d]

theorem filter_eq_flatMap_kept (l : List (DslValue α)) :
    l.filter (fun v => !v.isNull) = l.flatMap kept := by
  induction l with
  | nil => rfl
  | cons d l ih =>
      rw [List.filter_cons, List.flatMap_cons, ih, kept]
      cases d.isNull <;> rfl

/-- How the two results for one element are related: it is filtered by both, or it
has the same value, or it is unknown and not executed by one of them. -/
def Paired (d : DslValue α) (g : Guarded α) : Prop :=
  (d = .null ∧ g = .guard) ∨ g = .value d ∨ g = .value .unknown

/-- The two results for one element are collected alike. -/
def Alike (d : DslValue α) (g : Guarded α) : Prop :=
  (d = .null ∧ g = .guard) ∨ (g = .value d ∧ d ≠ .null ∧ ∀ l, d ≠ .list l)

theorem Alike.kept_eq {d : DslValue α} {g : Guarded α} (h : Alike d g) : kept d = g.flatten := by
  rcases h with ⟨rfl, rfl⟩ | ⟨rfl, hnull, hlist⟩
  · rfl
  · cases d with
    | null => exact absurd rfl hnull
    | list l => exact absurd rfl (hlist l)
    | _ => rfl

variable {pairs : List (DslValue α × Guarded α)}

/-- A list among the results of one way is an element of a larger list among those
of the other, so there is none if both are the same. -/
theorem not_mem_list (hp : ∀ p ∈ pairs, Paired p.1 p.2)
    (h : pairs.flatMap (fun p => kept p.1) = pairs.flatMap (fun p => p.2.flatten))
    (l : List (DslValue α)) : .list l ∉ pairs.flatMap (fun p => kept p.1) := by
  have hgrow : ∀ x, (∃ l, x = .list l) → x ∈ pairs.flatMap (fun p => kept p.1) →
      ∃ l', .list l' ∈ pairs.flatMap (fun p => kept p.1) ∧ x.size < (DslValue.list l').size := by
    rintro _ ⟨l, rfl⟩ hx
    have hx' := hx
    rw [h] at hx'
    obtain ⟨⟨d, g⟩, hmem, hl⟩ := List.mem_flatMap.mp hx'
    have hpair : Paired d g := hp _ hmem
    rcases hpair with ⟨-, rfl⟩ | rfl | rfl
    · cases hl
    · cases d with
      | list l' =>
          refine ⟨l', List.mem_flatMap.mpr ⟨_, hmem, ?_⟩, DslValue.size_lt_of_mem hl⟩
          exact List.mem_singleton.mpr rfl
      | _ => simp [Guarded.flatten] at hl
    · simp [Guarded.flatten] at hl
  intro hmem
  -- lists of any size turn up
  have hall : ∀ n, ∃ l', .list l' ∈ pairs.flatMap (fun p => kept p.1)
      ∧ n ≤ (DslValue.list l').size := by
    intro n
    induction n with
    | zero => exact ⟨l, hmem, Nat.zero_le _⟩
    | succ n ih =>
        obtain ⟨l', hl', hn⟩ := ih
        obtain ⟨l'', hl'', hlt⟩ := hgrow _ ⟨l', rfl⟩ hl'
        exact ⟨l'', hl'', by omega⟩
  obtain ⟨l', hl', hn⟩ := hall (((pairs.flatMap (fun p => kept p.1)).map DslValue.size).sum + 1)
  have := DslValue.size_le_sum hl'
  omega

theorem length_kept_le {d : DslValue α} {g : Guarded α} (hp : Paired d g)
    (hl : ∀ l, g ≠ .value (.list l)) : (kept d).length ≤ g.flatten.length := by
  rcases hp with ⟨rfl, rfl⟩ | rfl | rfl
  · simp [kept, DslValue.isNull]
  · cases d with
    | list l => exact absurd rfl (hl l)
    | _ => simp [kept, DslValue.isNull, Guarded.flatten]
  · unfold kept
    split <;> simp [Guarded.flatten]

theorem alike_of_kept_eq {d : DslValue α} {g : Guarded α} (hp : Paired d g)
    (hl : ∀ l, g ≠ .value (.list l)) (h : kept d = g.flatten) : Alike d g := by
  rcases hp with hf | rfl | rfl
  · exact Or.inl hf
  · cases d with
    | list l => exact absurd rfl (hl l)
    | null => simp [kept, DslValue.isNull, Guarded.flatten] at h
    | _ => simp [Alike]
  · unfold kept at h
    split at h
    · simp [Guarded.flatten] at h
    · obtain rfl : d = .unknown := by simpa [Guarded.flatten] using h
      simp [Alike]

theorem flatMap_kept_length_le (hp : ∀ p ∈ pairs, Paired p.1 p.2)
    (hl : ∀ p ∈ pairs, ∀ l, p.2 ≠ .value (.list l)) :
    (pairs.flatMap (fun p => kept p.1)).length ≤ (pairs.flatMap (fun p => p.2.flatten)).length := by
  induction pairs with
  | nil => simp
  | cons p pairs ih =>
      simp only [List.flatMap_cons, List.length_append]
      have hhead := length_kept_le (hp p (by simp)) (hl p (by simp))
      have htail := ih (fun q hq => hp q (by simp [hq])) (fun q hq => hl q (by simp [hq]))
      omega

/-- Without lists, the results are the same just when they are element by element. -/
theorem alike_of_flatMap_eq (hp : ∀ p ∈ pairs, Paired p.1 p.2)
    (hl : ∀ p ∈ pairs, ∀ l, p.2 ≠ .value (.list l))
    (h : pairs.flatMap (fun p => kept p.1) = pairs.flatMap (fun p => p.2.flatten)) :
    ∀ p ∈ pairs, Alike p.1 p.2 := by
  induction pairs with
  | nil => simp
  | cons p pairs ih =>
      have hpt : ∀ q ∈ pairs, Paired q.1 q.2 := fun q hq => hp q (by simp [hq])
      have hlt : ∀ q ∈ pairs, ∀ l, q.2 ≠ .value (.list l) := fun q hq => hl q (by simp [hq])
      simp only [List.flatMap_cons] at h
      have hhead := length_kept_le (hp p (by simp)) (hl p (by simp))
      have htail := flatMap_kept_length_le hpt hlt
      have hlen : (kept p.1).length = p.2.flatten.length := by
        have := congrArg List.length h
        simp only [List.length_append] at this
        omega
      obtain ⟨hh, ht⟩ := List.append_inj h hlen
      intro q hq
      rcases List.mem_cons.mp hq with rfl | hq
      · exact alike_of_kept_eq (hp q (by simp)) (hl q (by simp)) hh
      · exact ih hpt hlt ht q hq

theorem flatMap_eq_iff (hp : ∀ p ∈ pairs, Paired p.1 p.2) :
    pairs.flatMap (fun p => kept p.1) = pairs.flatMap (fun p => p.2.flatten) ↔
      ∀ p ∈ pairs, Alike p.1 p.2 := by
  constructor
  · intro h
    refine alike_of_flatMap_eq hp (fun p hmem l hg => ?_) h
    rcases hp p hmem with ⟨-, hgd⟩ | hgd | hgd
    · cases hg.symm.trans hgd
    · obtain hd : p.1 = .list l := (Guarded.value.inj (hg.symm.trans hgd)).symm
      refine not_mem_list hp h l (List.mem_flatMap.mpr ⟨p, hmem, ?_⟩)
      rw [hd]
      exact List.mem_singleton.mpr rfl
    · cases hg.symm.trans hgd
  · intro hall
    exact List.flatMap_congr fun p hmem => (hall p hmem).kept_eq

/-! ## What scheduled execution yields -/

variable {c : ListComprehension α} {env : Bindings α} {e : DslValue α}

/-- What the unit for an element yields, by the value of its condition. -/
def selectBranch (c : ListComprehension α) (env : Bindings α) (e : DslValue α) :
    DslValue α → Except (RuntimeException α) (Guarded α)
  | .unknown => .ok (.value .unknown)
  | .bool true => (c.elementValue env e).map .value
  | .bool false => .ok .guard
  | v => .error (.conditionNotBool v)

/-- What the unit for an element yields in the end. -/
def outcome (c : ListComprehension α) (env : Bindings α) (e : DslValue α) :
    Except (RuntimeException α) (Guarded α) :=
  match c.guard with
  | none => c.selectBranch env e (.bool true)
  | some guard => guard.scheduled (env.bind c.loopVar e) >>= c.selectBranch env e

/-- A unit has found out what it is about to yield. -/
structure UnitValid (c : ListComprehension α) (env : Bindings α) (u : ElementUnit α) : Prop where
  result : ∀ g, u.result = some g → c.outcome env u.element = .ok g
  condition : ∀ b, u.conditionValue = some b → ∃ guard, c.guard = some guard
    ∧ guard.scheduled (env.bind c.loopVar u.element) = .ok (.bool b)

/-- What resuming a unit does. -/
theorem resumeUnit_spec {u : ElementUnit α} (hu : c.UnitValid env u) :
    (∃ u', c.resumeUnit env u = .ok u' ∧ c.UnitValid env u' ∧ u'.element = u.element)
      ∨ ∃ ex, c.resumeUnit env u = .error ex ∧ c.outcome env u.element = .error ex := by
  obtain ⟨element, conditionValue, result⟩ := u
  have hcond := hu.condition
  simp only at hcond
  cases result with
  | some g => exact Or.inl ⟨_, rfl, hu, rfl⟩
  | none =>
      have hvalue : (c.elementValue env element).map .value = c.outcome env element →
          (∃ u', (do
              let v ← c.elementValue env element
              return (⟨element, conditionValue, some (.value v)⟩ : ElementUnit α)) = Except.ok u'
            ∧ c.UnitValid env u' ∧ u'.element = element)
          ∨ ∃ ex, (do
              let v ← c.elementValue env element
              return (⟨element, conditionValue, some (.value v)⟩ : ElementUnit α)) = Except.error ex
            ∧ c.outcome env element = .error ex := by
        intro hout
        cases hv : c.elementValue env element with
        | error ex => exact Or.inr ⟨ex, rfl, by rw [← hout, hv]; rfl⟩
        | ok v =>
            refine Or.inl ⟨_, rfl, ⟨fun g hg => ?_, hcond⟩, rfl⟩
            obtain rfl := Option.some.inj hg
            exact (hv ▸ hout).symm
      cases hg : c.guard with
      | none =>
          simp only [resumeUnit, hg]
          exact hvalue (by rw [outcome, hg, selectBranch])
      | some guard =>
          cases conditionValue with
          | some b =>
              obtain ⟨guard', hg', hb⟩ := hcond b rfl
              obtain rfl := Option.some.inj (hg.symm.trans hg')
              cases b with
              | true =>
                  simp only [resumeUnit, hg]
                  exact hvalue (by simp only [outcome, hg, hb, ok_bind, selectBranch])
              | false =>
                  simp only [resumeUnit, hg]
                  refine Or.inl ⟨_, rfl, ⟨fun g hg' => ?_, hcond⟩, rfl⟩
                  obtain rfl := Option.some.inj hg'
                  simp only [outcome, hg, hb, ok_bind]
                  rfl
          | none =>
              have hbad : ∀ v, guard.scheduled (env.bind c.loopVar element) = .ok v →
                  v.isUnknown = false → (∀ b, v ≠ .bool b) →
                  c.resumeUnit env ⟨element, none, none⟩ = .error (.conditionNotBool v)
                    ∧ c.outcome env element = .error (.conditionNotBool v) := by
                intro v hv hu hb
                simp only [resumeUnit, outcome, hg, hv, ok_bind, selectBranch]
                cases v with
                | unknown => cases hu
                | bool b => exact absurd rfl (hb b)
                | _ => exact ⟨rfl, rfl⟩
              cases hs : guard.scheduled (env.bind c.loopVar element) with
              | error ex =>
                  refine Or.inr ⟨ex, ?_, ?_⟩
                  · simp only [resumeUnit, hg, hs]
                    rfl
                  · simp only [outcome, hg, hs]
                    rfl
              | ok v =>
                  cases v with
                  | unknown =>
                      refine Or.inl ⟨⟨element, none, some (.value .unknown)⟩, ?_,
                        ⟨fun g hg' => ?_, hcond⟩, rfl⟩
                      · simp only [resumeUnit, hg, hs]
                        rfl
                      · obtain rfl := Option.some.inj hg'
                        simp only [outcome, hg, hs, ok_bind]
                        rfl
                  | bool b =>
                      refine Or.inl ⟨⟨element, some b, none⟩, ?_,
                        ⟨fun g hg' => (by cases hg'), fun b' hb' => ?_⟩, rfl⟩
                      · simp only [resumeUnit, hg, hs]
                        rfl
                      · obtain rfl := Option.some.inj hb'
                        exact ⟨guard, hg, hs⟩
                  | null => exact Or.inr ⟨_, hbad .null hs rfl (by simp)⟩
                  | list l => exact Or.inr ⟨_, hbad (.list l) hs rfl (by simp)⟩
                  | other x => exact Or.inr ⟨_, hbad (.other x) hs rfl (by simp)⟩

/-- The units are resumed in any order, any number of times. -/
theorem resumeAll_spec (order : List ℕ) {us : List (ElementUnit α)}
    (hv : ∀ u ∈ us, c.UnitValid env u) :
    (∃ us', order.foldlM (c.resumeAt env) us = .ok us' ∧ (∀ u ∈ us', c.UnitValid env u)
      ∧ us'.map (·.element) = us.map (·.element))
    ∨ ∃ ex, order.foldlM (c.resumeAt env) us = .error ex
      ∧ ∃ e ∈ us.map (·.element), ∃ ex', c.outcome env e = .error ex' := by
  induction order generalizing us with
  | nil => exact Or.inl ⟨us, rfl, hv, rfl⟩
  | cons i order ih =>
      rw [List.foldlM_cons]
      cases hi : us[i]? with
      | none =>
          have hat : c.resumeAt env us i = .ok us := by
            rw [resumeAt, hi]
            rfl
          rw [hat]
          exact ih hv
      | some u =>
          obtain ⟨hlt, hget⟩ := List.getElem?_eq_some_iff.mp hi
          have hmem : u ∈ us := List.mem_of_getElem? hi
          obtain ⟨u', hu', hv', hel⟩ | ⟨ex, hex, hout⟩ := resumeUnit_spec (hv u hmem)
          · have hat : c.resumeAt env us i = .ok (us.set i u') := by
              simp only [resumeAt, hi, hu']
              rfl
            have hmap : (us.set i u').map (·.element) = us.map (·.element) := by
              refine List.ext_getElem? fun j => ?_
              rw [List.map_set, List.getElem?_set, List.getElem?_map, List.length_map]
              split
              · rename_i hij
                rw [← hij, hi, hel]
                rfl
              · rfl
            rw [hat, ← hmap]
            refine ih fun x hx => ?_
            exact (List.mem_or_eq_of_mem_set hx).elim (hv x) fun e => e ▸ hv'
          · refine Or.inr ⟨ex, ?_, u.element, List.mem_map_of_mem hmem, ex, hout⟩
            have hat : c.resumeAt env us i = .error ex := by
              simp only [resumeAt, hi, hex]
              rfl
            rw [hat]
            rfl

theorem forall₂_of_mapM_result {us : List (ElementUnit α)} {gs : List (Guarded α)}
    (hv : ∀ u ∈ us, c.UnitValid env u) (h : us.mapM (·.result) = some gs) :
    List.Forall₂ (fun e g => c.outcome env e = .ok g) (us.map (·.element)) gs := by
  induction us generalizing gs with
  | nil =>
      obtain rfl := Option.some.inj h
      exact .nil
  | cons u us ih =>
      simp only [List.mapM_cons, Option.bind_eq_bind, Option.bind_eq_some_iff] at h
      obtain ⟨g, hg, gs', hgs', hres⟩ := h
      obtain rfl := Option.some.inj hres
      exact .cons ((hv u (by simp)).result g hg) (ih (fun x hx => hv x (by simp [hx])) hgs')

/-- **Scheduled execution** of a list, whatever the order: it raises only if a unit
does, and otherwise collects what the units yield. -/
theorem scheduled_list {order : List ℕ} {es : List (DslValue α)}
    {out : Except (RuntimeException α) (DslValue α)}
    (hit : c.iterable.scheduled env = .ok (.list es)) (h : c.scheduled env order = some out) :
    (∃ gs, out = .ok (.list (gs.flatMap Guarded.flatten))
        ∧ List.Forall₂ (fun e g => c.outcome env e = .ok g) es gs)
      ∨ ∃ ex, out = .error ex ∧ ∃ e ∈ es, ∃ ex', c.outcome env e = .error ex' := by
  let us : List (ElementUnit α) := es.map fun e => ⟨e, none, none⟩
  have hels : us.map (·.element) = es := by
    simp only [us, List.map_map]
    exact List.map_id es
  have hv : ∀ u ∈ us, c.UnitValid env u := by
    intro u hu
    obtain ⟨e, -, rfl⟩ := List.mem_map.mp hu
    exact ⟨fun g hg => (by cases hg), fun b hb => (by cases hb)⟩
  have hrun : (do
      let iterable ← c.iterable.scheduled env
      let us ← complete iterable
      order.foldlM (c.resumeAt env) us) = order.foldlM (c.resumeAt env) us := by
    rw [hit]
    rfl
  unfold scheduled at h
  rw [hrun] at h
  obtain ⟨us', hus', hv', hmap⟩ | ⟨ex, hex, hout⟩ := resumeAll_spec order hv
  · rw [hus'] at h
    obtain ⟨v, hcol, rfl⟩ := Option.map_eq_some_iff.mp h
    simp only [collect, Option.bind_eq_bind, Option.bind_eq_some_iff] at hcol
    obtain ⟨gs, hgs, hres⟩ := hcol
    obtain rfl := Option.some.inj hres
    refine Or.inl ⟨gs, rfl, ?_⟩
    rw [← hels, ← hmap]
    exact forall₂_of_mapM_result hv' hgs
  · rw [hex] at h
    obtain rfl := Option.some.inj h
    rw [hels] at hout
    exact Or.inr ⟨ex, rfl, hout⟩

/-! ## What direct execution yields -/

theorem forall₂_of_mapM {β γ ε : Type} {f : β → Except ε γ} {l : List β} {r : List γ}
    (h : l.mapM f = .ok r) : List.Forall₂ (fun b x => f b = .ok x) l r := by
  induction l generalizing r with
  | nil =>
      obtain rfl := Except.ok.inj h
      exact .nil
  | cons b l ih =>
      rw [List.mapM_cons] at h
      obtain ⟨x, hx, h⟩ := bind_eq_ok.mp h
      obtain ⟨r', hr', h⟩ := bind_eq_ok.mp h
      obtain rfl := Except.ok.inj h
      exact .cons hx (ih hr')

theorem exists_error_of_mapM {β γ ε : Type} {f : β → Except ε γ} {l : List β} {ex : ε}
    (h : l.mapM f = .error ex) : ∃ b ∈ l, ∃ ex', f b = .error ex' := by
  induction l with
  | nil => cases h
  | cons b l ih =>
      rw [List.mapM_cons] at h
      cases hb : f b with
      | error ex' => exact ⟨b, by simp, ex', hb⟩
      | ok x =>
          rw [hb, ok_bind] at h
          cases hl : l.mapM f with
          | error ex' =>
              obtain ⟨b', hb', hf⟩ := ih (by rw [← h, hl]; rfl)
              exact ⟨b', by simp [hb'], hf⟩
          | ok r =>
              rw [hl] at h
              cases h

theorem executeDirect_list {es : List (DslValue α)}
    (hit : c.iterable.executeDirect env = .ok (.list es)) :
    (∃ ds, c.executeDirect env = .ok (.list (ds.flatMap kept))
        ∧ List.Forall₂ (fun e d => c.process env (.list es) e = .ok d) es ds)
      ∨ ∃ ex, c.executeDirect env = .error ex
        ∧ ∃ e ∈ es, ∃ ex', c.process env (.list es) e = .error ex' := by
  have hexec : c.executeDirect env = (do
      let results ← es.mapM (c.process env (.list es))
      return .list (results.filter fun v => !v.isNull)) := by
    rw [executeDirect, hit]
    rfl
  rw [hexec]
  cases hm : es.mapM (c.process env (.list es)) with
  | ok ds =>
      refine Or.inl ⟨ds, ?_, forall₂_of_mapM hm⟩
      rw [← filter_eq_flatMap_kept]
      rfl
  | error ex => exact Or.inr ⟨ex, rfl, exists_error_of_mapM hm⟩

/-! ## Scheduled execution ends -/

/-- A unit that is resumed twice is finished. -/
theorem resumeUnit_twice {u u₁ u₂ : ElementUnit α} (h₁ : c.resumeUnit env u = .ok u₁)
    (h₂ : c.resumeUnit env u₁ = .ok u₂) : u₂.result.isSome = true := by
  have hdone : ∀ {u u' : ElementUnit α}, u.result.isSome = true ∨ c.guard = none
      ∨ u.conditionValue.isSome = true → c.resumeUnit env u = .ok u' → u'.result.isSome = true := by
    intro u u' hu h
    unfold resumeUnit at h
    split at h
    · obtain rfl := Except.ok.inj h
      assumption
    · rename_i hres
      split at h
      · obtain ⟨v, -, h⟩ := bind_eq_ok.mp h
        obtain rfl := Except.ok.inj h
        rfl
      · rename_i hguard hcond
        rcases hu with hu | hu | hu
        · exact absurd hu hres
        · cases hguard.symm.trans hu
        · rw [hcond] at hu
          cases hu
      · obtain ⟨v, -, h⟩ := bind_eq_ok.mp h
        obtain rfl := Except.ok.inj h
        rfl
      · obtain rfl := Except.ok.inj h
        rfl
  refine hdone ?_ h₂
  unfold resumeUnit at h₁
  split at h₁
  · obtain rfl := Except.ok.inj h₁
    exact Or.inl (by assumption)
  · split at h₁
    · exact Or.inr (Or.inl (by assumption))
    · obtain ⟨v, -, h⟩ := bind_eq_ok.mp h₁
      cases v with
      | unknown =>
          obtain rfl := Except.ok.inj h
          exact Or.inl rfl
      | bool b =>
          obtain rfl := Except.ok.inj h
          exact Or.inr (Or.inr rfl)
      | _ => cases h
    · obtain ⟨v, -, h⟩ := bind_eq_ok.mp h₁
      obtain rfl := Except.ok.inj h
      exact Or.inl rfl
    · obtain rfl := Except.ok.inj h₁
      exact Or.inl rfl

/-- Resume each of the first units twice. -/
def rounds (n : ℕ) : List ℕ := (List.range n).flatMap fun i => [i, i]

variable (c env) in
theorem rounds_finish (us : List (ElementUnit α)) (n : ℕ) :
    (∃ ex, (rounds n).foldlM (c.resumeAt env) us = .error ex)
      ∨ ∃ us', (rounds n).foldlM (c.resumeAt env) us = .ok us' ∧ us'.length = us.length
        ∧ ∀ i < n, ∀ u, us'[i]? = some u → u.result.isSome = true := by
  induction n with
  | zero => exact Or.inr ⟨us, rfl, rfl, fun i hi => absurd hi (Nat.not_lt_zero i)⟩
  | succ n ih =>
      have hfold : (rounds (n + 1)).foldlM (c.resumeAt env) us
          = (rounds n).foldlM (c.resumeAt env) us >>= fun us' =>
              [n, n].foldlM (c.resumeAt env) us' := by
        simp [rounds, List.range_succ]
      rw [hfold]
      obtain ⟨ex, hex⟩ | ⟨us', hus', hlen, hdone⟩ := ih
      · exact Or.inl ⟨ex, by rw [hex]; rfl⟩
      rw [hus', ok_bind]
      have htwice : ([n, n] : List ℕ).foldlM (c.resumeAt env) us'
          = c.resumeAt env us' n >>= fun us' => c.resumeAt env us' n := by
        rw [List.foldlM_cons]
        refine congrArg _ (funext fun us₁ => ?_)
        rw [List.foldlM_cons]
        cases c.resumeAt env us₁ n <;> rfl
      rw [htwice]
      cases hn : us'[n]? with
      | none =>
          have hat : c.resumeAt env us' n = .ok us' := by
            rw [resumeAt, hn]
            rfl
          refine Or.inr ⟨us', by rw [hat, ok_bind, hat], hlen, fun i hi u hu => ?_⟩
          rcases Nat.lt_succ_iff_lt_or_eq.mp hi with hi | rfl
          · exact hdone i hi u hu
          · cases hn.symm.trans hu
      | some u =>
          have hlt : n < us'.length := (List.getElem?_eq_some_iff.mp hn).1
          cases h₁ : c.resumeUnit env u with
          | error ex =>
              refine Or.inl ⟨ex, ?_⟩
              simp only [resumeAt, hn, h₁]
              rfl
          | ok u₁ =>
              have hat : c.resumeAt env us' n = .ok (us'.set n u₁) := by
                simp only [resumeAt, hn, h₁]
                rfl
              have hn₁ : (us'.set n u₁)[n]? = some u₁ := List.getElem?_set_self hlt
              cases h₂ : c.resumeUnit env u₁ with
              | error ex =>
                  refine Or.inl ⟨ex, ?_⟩
                  rw [hat, ok_bind]
                  simp only [resumeAt, hn₁, h₂]
                  rfl
              | ok u₂ =>
                  have hat₂ : c.resumeAt env (us'.set n u₁) n = .ok ((us'.set n u₁).set n u₂) := by
                    simp only [resumeAt, hn₁, h₂]
                    rfl
                  refine Or.inr ⟨_, by rw [hat, ok_bind, hat₂], by simpa using hlen,
                    fun i hi x hx => ?_⟩
                  rw [List.set_set] at hx
                  rcases Nat.lt_succ_iff_lt_or_eq.mp hi with hi | rfl
                  · rw [List.getElem?_set_ne (by omega)] at hx
                    exact hdone i hi x hx
                  · rw [List.getElem?_set_self hlt] at hx
                    obtain rfl := Option.some.inj hx
                    exact resumeUnit_twice h₁ h₂

theorem exists_mapM_result {us : List (ElementUnit α)}
    (h : ∀ u ∈ us, u.result.isSome = true) : ∃ gs, us.mapM (·.result) = some gs := by
  induction us with
  | nil => exact ⟨[], rfl⟩
  | cons u us ih =>
      obtain ⟨g, hg⟩ := Option.isSome_iff_exists.mp (h u (by simp))
      obtain ⟨gs, hgs⟩ := ih fun x hx => h x (by simp [hx])
      exact ⟨g :: gs, by simp [List.mapM_cons, hg, hgs]⟩

/-- **Scheduled execution ends**: there is an order in which all units finish, or one
of them raises. -/
theorem exists_order (c : ListComprehension α) (env : Bindings α) :
    ∃ order out, c.scheduled env order = some out := by
  cases hit : c.iterable.scheduled env with
  | error ex =>
      refine ⟨[], .error ex, ?_⟩
      rw [scheduled, hit]
      rfl
  | ok v =>
      cases hc : complete v with
      | error ex =>
          refine ⟨[], .error ex, ?_⟩
          simp only [scheduled, hit, ok_bind, hc]
          rfl
      | ok us =>
          obtain ⟨ex, hex⟩ | ⟨us', hus', hlen, hdone⟩ :=
            rounds_finish c env us us.length
          · refine ⟨rounds us.length, .error ex, ?_⟩
            simp only [scheduled, hit, ok_bind, hc, hex]
          · have hall : ∀ u ∈ us', u.result.isSome = true := fun u hu => by
              obtain ⟨i, hi, hget⟩ := List.getElem_of_mem hu
              exact hdone i (hlen ▸ hi) u (List.getElem?_eq_some_iff.mpr ⟨hi, hget⟩)
            obtain ⟨gs, hgs⟩ := exists_mapM_result hall
            refine ⟨rounds us.length, .ok (.list (gs.flatMap Guarded.flatten)), ?_⟩
            simp only [scheduled, hit, ok_bind, hc, hus', collect, hgs]
            rfl

/-! ## Agreement -/

/-- The two ways of execution agree on the parts of a list comprehension, for every
value of the loop variable. -/
structure PartsAgree (c : ListComprehension α) (env : Bindings α) : Prop where
  iterable : Agree (c.iterable.executeDirect env) (c.iterable.scheduled env)
  value : ∀ e, Agree (c.valueExpression.executeDirect (env.bind c.loopVar e))
    (c.valueExpression.scheduled (env.bind c.loopVar e))
  guard : ∀ guard, c.guard = some guard → ∀ e,
    Agree (guard.executeDirect (env.bind c.loopVar e)) (guard.scheduled (env.bind c.loopVar e))

/-- The value of the guard for an element; without a guard it passes. -/
def guardValue (c : ListComprehension α) (env : Bindings α) (e : DslValue α) :
    Except (RuntimeException α) (DslValue α) :=
  match c.guard with
  | none => .ok (.bool true)
  | some guard => guard.executeDirect (env.bind c.loopVar e)

/-- The guard or the value expression raises for the element, or the guard is not
a boolean. -/
inductive Raises (c : ListComprehension α) (env : Bindings α) (e : DslValue α) : Prop where
  | guard {ex : RuntimeException α} : c.guardValue env e = .error ex → Raises c env e
  | notBool {v : DslValue α} : c.guardValue env e = .ok v → v ≠ .unknown →
      (∀ b, v ≠ .bool b) → Raises c env e
  | value {ex : RuntimeException α} : c.guardValue env e = .ok (.bool true) → e ≠ .unknown →
      c.valueExpression.executeDirect (env.bind c.loopVar e) = .error ex → Raises c env e

/-- The guard filters the element, or passes and the value is neither null nor a
list; for an unknown element it is unknown. -/
inductive Plain (c : ListComprehension α) (env : Bindings α) (e : DslValue α) : Prop where
  | filtered : c.guardValue env e = .ok (.bool false) → Plain c env e
  | known {v : DslValue α} : c.guardValue env e = .ok (.bool true) → e ≠ .unknown →
      c.valueExpression.executeDirect (env.bind c.loopVar e) = .ok v → v ≠ .null →
      (∀ l, v ≠ .list l) → Plain c env e
  | unknown : c.guardValue env e = .ok (.bool true) → e = .unknown →
      c.valueExpression.executeDirect (env.bind c.loopVar e) = .ok .unknown → Plain c env e

/-- The iterable is a list, and for one of its elements an expression raises or all
of them are plain; or the iterable is no list and not unknown either. -/
def AgreesOn (c : ListComprehension α) (env : Bindings α) : Prop :=
  match c.iterable.executeDirect env with
  | .ok .unknown => False
  | .ok (.list es) => (∃ e ∈ es, c.Raises env e) ∨ ∀ e ∈ es, c.Plain env e
  | _ => True

theorem process_list (es : List (DslValue α)) : c.process env (.list es) e = (do
    let v ← c.guardValue env e
    match v with
    | .bool true => c.valueExpression.executeDirect (env.bind c.loopVar e)
    | .bool false => return .null
    | v => throw (.guardNotBool v)) := by
  unfold process guardValue
  cases c.guard <;> rfl

theorem outcome_of_error {ex : RuntimeException α} (h : c.PartsAgree env)
    (hg : c.guardValue env e = .error ex) : ∃ ex', c.outcome env e = .error ex' := by
  unfold guardValue at hg
  unfold outcome
  split at hg
  · cases hg
  · rename_i guard hguard
    obtain ⟨ex', hex'⟩ := (h.guard guard hguard e).error_iff.mp ⟨ex, hg⟩
    exact ⟨ex', by rw [hex']; rfl⟩

theorem outcome_of_ok {v : DslValue α} (h : c.PartsAgree env)
    (hg : c.guardValue env e = .ok v) : c.outcome env e = c.selectBranch env e v := by
  unfold guardValue at hg
  unfold outcome
  split at hg
  · obtain rfl := Except.ok.inj hg
    rfl
  · rename_i guard hguard
    rw [((h.guard guard hguard e).ok_iff v).mp hg, ok_bind]

theorem elementValue_known (hne : e ≠ .unknown) :
    c.elementValue env e = c.valueExpression.scheduled (env.bind c.loopVar e) := by
  cases e with
  | unknown => exact absurd rfl hne
  | _ => rfl

/-- A unit raises just when an expression does, or the guard is not a boolean. -/
theorem outcome_error_iff (h : c.PartsAgree env) :
    (∃ ex, c.outcome env e = .error ex) ↔ c.Raises env e := by
  constructor
  · rintro ⟨ex, hex⟩
    cases hg : c.guardValue env e with
    | error ex' => exact .guard hg
    | ok v =>
        rw [outcome_of_ok h hg] at hex
        cases v with
        | unknown => cases hex
        | bool b =>
            cases b with
            | false => cases hex
            | true =>
                by_cases hne : e = .unknown
                · rw [hne] at hex
                  cases hex
                · simp only [selectBranch, elementValue_known hne] at hex
                  cases hv : c.valueExpression.scheduled (env.bind c.loopVar e) with
                  | ok w =>
                      rw [hv] at hex
                      cases hex
                  | error ex' =>
                      obtain ⟨ex'', hd⟩ := (h.value e).error_iff.mpr ⟨ex', hv⟩
                      exact .value hg hne hd
        | _ => exact .notBool hg (by simp) (by simp)
  · rintro (hg | ⟨hg, hu, hb⟩ | ⟨hg, hne, hv⟩)
    · exact outcome_of_error h hg
    · rename_i v
      rw [outcome_of_ok h hg]
      cases v with
      | unknown => exact absurd rfl hu
      | bool b => exact absurd rfl (hb b)
      | _ => exact ⟨_, rfl⟩
    · obtain ⟨ex', hs⟩ := (h.value e).error_iff.mp ⟨_, hv⟩
      refine ⟨ex', ?_⟩
      rw [outcome_of_ok h hg]
      simp only [selectBranch, elementValue_known hne, hs]
      rfl

/-- What raises in a unit raises in direct execution too. -/
theorem Raises.process (es : List (DslValue α)) (h : c.Raises env e) :
    ∃ ex, c.process env (.list es) e = .error ex := by
  rw [process_list]
  cases h with
  | guard hg => exact ⟨_, by rw [hg]; rfl⟩
  | @notBool v hg hu hb =>
      rw [hg, ok_bind]
      cases v with
      | unknown => exact absurd rfl hu
      | bool b => exact absurd rfl (hb b)
      | _ => exact ⟨_, rfl⟩
  | value hg _ hv => exact ⟨_, by rw [hg, ok_bind]; exact hv⟩

theorem Plain.process (es : List (DslValue α)) (h : c.Plain env e) :
    ∃ d, c.process env (.list es) e = .ok d := by
  rw [process_list]
  cases h with
  | filtered hg => exact ⟨_, by rw [hg]; rfl⟩
  | known hg _ hv _ _ => exact ⟨_, by rw [hg, ok_bind]; exact hv⟩
  | unknown hg _ hv => exact ⟨_, by rw [hg, ok_bind]; exact hv⟩

/-- The results for one element are collected alike just when it is plain. -/
theorem paired (h : c.PartsAgree env) {es : List (DslValue α)} {d : DslValue α} {g : Guarded α}
    (hd : c.process env (.list es) e = .ok d) (hg : c.outcome env e = .ok g) :
    Paired d g ∧ (Alike d g ↔ c.Plain env e) := by
  rw [process_list] at hd
  obtain ⟨v, hv, hd⟩ := bind_eq_ok.mp hd
  rw [outcome_of_ok h hv] at hg
  cases v with
  | bool b =>
      cases b with
      | false =>
          obtain rfl := Except.ok.inj hd
          obtain rfl := Except.ok.inj hg
          exact ⟨Or.inl ⟨rfl, rfl⟩, iff_of_true (Or.inl ⟨rfl, rfl⟩) (.filtered hv)⟩
      | true =>
          have hd : c.valueExpression.executeDirect (env.bind c.loopVar e) = .ok d := hd
          have hnf : ¬ (c.guardValue env e = .ok (.bool false)) := fun hf => by
            cases hv.symm.trans hf
          by_cases hne : e = .unknown
          · rw [hne] at hg
            obtain rfl : g = .value .unknown := (Except.ok.inj hg).symm
            refine ⟨Or.inr (Or.inr rfl), ?_, ?_⟩
            · rintro (⟨-, hg⟩ | ⟨hdg, -, -⟩)
              · cases hg
              · exact .unknown hv hne (Guarded.value.inj hdg ▸ hd)
            · rintro (hf | ⟨-, hk, -⟩ | ⟨-, -, hu⟩)
              · exact absurd hf hnf
              · exact absurd hne hk
              · obtain rfl := Except.ok.inj (hd.symm.trans hu)
                exact Or.inr ⟨rfl, by simp, by simp⟩
          · simp only [selectBranch, elementValue_known hne, ((h.value e).ok_iff d).mp hd] at hg
            obtain rfl : g = .value d := (Except.ok.inj hg).symm
            refine ⟨Or.inr (Or.inl rfl), ?_, ?_⟩
            · rintro (⟨-, hg⟩ | ⟨-, hnull, hlist⟩)
              · cases hg
              · exact .known hv hne hd hnull hlist
            · rintro (hf | ⟨-, -, hw, hnull, hlist⟩ | ⟨-, hk, -⟩)
              · exact absurd hf hnf
              · obtain rfl := Except.ok.inj (hd.symm.trans hw)
                exact Or.inr ⟨rfl, hnull, hlist⟩
              · exact absurd hk hne
  | _ => cases hd

theorem exists_of_forall₂ {β γ : Type} {R : β → γ → Prop} {l : List β} {r : List γ}
    (h : List.Forall₂ R l r) :
    (∀ b ∈ l, ∃ x ∈ r, R b x) ∧ ∀ x ∈ r, ∃ b ∈ l, R b x := by
  induction h with
  | nil => simp
  | cons hbx _ ih =>
      obtain ⟨ihl, ihr⟩ := ih
      refine ⟨fun b' hb' => ?_, fun x' hx' => ?_⟩
      · rcases List.mem_cons.mp hb' with rfl | hb'
        · exact ⟨_, List.mem_cons_self, hbx⟩
        · obtain ⟨x, hx, hr⟩ := ihl b' hb'
          exact ⟨x, List.mem_cons_of_mem _ hx, hr⟩
      · rcases List.mem_cons.mp hx' with rfl | hx'
        · exact ⟨_, List.mem_cons_self, hbx⟩
        · obtain ⟨b, hb, hr⟩ := ihr x' hx'
          exact ⟨b, List.mem_cons_of_mem _ hb, hr⟩

theorem exists_pairs {es ds : List (DslValue α)} {gs : List (Guarded α)}
    {P : DslValue α → DslValue α → Prop} {Q : DslValue α → Guarded α → Prop}
    (hd : List.Forall₂ P es ds) (hg : List.Forall₂ Q es gs) :
    ∃ pairs : List (DslValue α × Guarded α), pairs.map Prod.fst = ds ∧ pairs.map Prod.snd = gs
      ∧ List.Forall₂ (fun e p => P e p.1 ∧ Q e p.2) es pairs := by
  induction hd generalizing gs with
  | nil =>
      cases hg
      exact ⟨[], rfl, rfl, .nil⟩
  | @cons e d es ds hp _ ih =>
      cases hg with
      | @cons _ g _ gs hq hg =>
          obtain ⟨pairs, hds, hgs, hall⟩ := ih hg
          exact ⟨(d, g) :: pairs, by rw [List.map_cons, hds], by rw [List.map_cons, hgs],
            .cons ⟨hp, hq⟩ hall⟩

/-- The collected results are the same just when all elements are plain. -/
theorem collected_eq_iff (h : c.PartsAgree env) {es ds : List (DslValue α)} {gs : List (Guarded α)}
    {iterable : List (DslValue α)}
    (hd : List.Forall₂ (fun e d => c.process env (.list iterable) e = .ok d) es ds)
    (hg : List.Forall₂ (fun e g => c.outcome env e = .ok g) es gs) :
    ds.flatMap kept = gs.flatMap Guarded.flatten ↔ ∀ e ∈ es, c.Plain env e := by
  obtain ⟨pairs, rfl, rfl, hall⟩ := exists_pairs hd hg
  have hp : ∀ p ∈ pairs, Paired p.1 p.2 := by
    intro p hp
    obtain ⟨e, -, hdp, hgp⟩ := (exists_of_forall₂ hall).2 p hp
    exact (paired h hdp hgp).1
  rw [List.flatMap_map, List.flatMap_map, flatMap_eq_iff hp]
  clear hp hd hg
  induction hall with
  | nil => simp
  | cons hep _ ih =>
      rw [List.forall_mem_cons, List.forall_mem_cons]
      exact and_congr (paired h hep.1 hep.2).2 ih

/-- The two ways of execution on a list. -/
theorem agree_list_iff (h : c.PartsAgree env) {order : List ℕ} {es : List (DslValue α)}
    {out : Except (RuntimeException α) (DslValue α)}
    (hit : c.iterable.executeDirect env = .ok (.list es))
    (hit' : c.iterable.scheduled env = .ok (.list es)) (hs : c.scheduled env order = some out) :
    Agree (c.executeDirect env) out ↔
      (∃ e ∈ es, c.Raises env e) ∨ ∀ e ∈ es, c.Plain env e := by
  obtain ⟨gs, rfl, hgs⟩ | ⟨ex, rfl, e, he, hex⟩ := scheduled_list hit' hs
  · have hno : ¬ ∃ e ∈ es, c.Raises env e := by
      rintro ⟨e, he, hr⟩
      obtain ⟨g, -, hg⟩ := (exists_of_forall₂ hgs).1 e he
      obtain ⟨ex, hex⟩ := (outcome_error_iff h).mpr hr
      cases hg.symm.trans hex
    rw [or_iff_right hno]
    obtain ⟨ds, hd, hds⟩ | ⟨ex, hd, e, he, ex', hex'⟩ := executeDirect_list hit
    · rw [hd, ← collected_eq_iff h hds hgs]
      exact DslValue.list.injEq .. ▸ Iff.rfl
    · rw [hd]
      refine iff_of_false id fun hall => ?_
      obtain ⟨d, hd'⟩ := (hall e he).process es
      cases hd'.symm.trans hex'
  · have hr := (outcome_error_iff h).mp hex
    obtain ⟨ex', hex'⟩ := hr.process es
    obtain ⟨ds, -, hds⟩ | ⟨ex'', hd, -⟩ := executeDirect_list hit
    · obtain ⟨d, -, hd⟩ := (exists_of_forall₂ hds).1 e he
      cases hd.symm.trans hex'
    · rw [hd]
      exact iff_of_true trivial (Or.inl ⟨e, he, hr⟩)

/-- An unknown iterable is unknown in one way, and a list with an unknown element in
the other. -/
theorem not_agree_unknown {order : List ℕ} {out : Except (RuntimeException α) (DslValue α)}
    (hit : c.iterable.executeDirect env = .ok .unknown)
    (hit' : c.iterable.scheduled env = .ok .unknown) (hs : c.scheduled env order = some out) :
    ¬ Agree (c.executeDirect env) out := by
  have hd : c.executeDirect env = .ok .unknown := by
    rw [executeDirect, hit]
    rfl
  unfold scheduled at hs
  rw [hit', ok_bind] at hs
  rw [hd]
  split at hs
  · obtain rfl := Option.some.inj hs
    exact id
  · obtain ⟨v, hv, rfl⟩ := Option.map_eq_some_iff.mp hs
    simp only [collect, Option.bind_eq_bind, Option.bind_eq_some_iff] at hv
    obtain ⟨gs, -, hres⟩ := hv
    obtain rfl := Option.some.inj hres
    intro heq
    cases heq

/-- An expression that does not refer to variables. -/
def constant (v : DslValue α) : Expression α := ⟨fun _ => .ok v, fun _ => .ok v⟩

/-- A reference to a variable. -/
def reference (name : String) : Expression α :=
  let lookup : Bindings α → Except (RuntimeException α) (DslValue α) := fun env =>
    match env name with
    | some v => .ok v
    | none => .error (.other s!"variable {name} not found")
  ⟨lookup, lookup⟩

/-- `[x for x in elements if guard]` -/
def filterBy (elements : List (DslValue α)) (guard : Expression α) : ListComprehension α :=
  ⟨reference "x", "x", constant (.list elements), some guard⟩

theorem Agree.refl (x : Except (RuntimeException α) (DslValue α)) : Agree x x := by
  cases x <;> simp [Agree]

theorem filterBy_partsAgree (elements : List (DslValue α)) (v : DslValue α) (env : Bindings α) :
    (filterBy elements (constant v)).PartsAgree env where
  iterable := .refl _
  value := fun _ => .refl _
  guard := fun guard hg e => by
    obtain rfl := Option.some.inj hg
    exact .refl _

end ListComprehension

end Inmanta
