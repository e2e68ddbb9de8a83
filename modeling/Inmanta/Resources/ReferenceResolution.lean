import Inmanta.Lib.Dict
import Inmanta.Lib.Program
import Inmanta.Lib.Run

/-!
# Resolving the references of a resource

When a resource is deployed, the values of its references are looked up: in a
secret store, in an environment variable or where else the code of a module
looks. A lookup may raise an exception, and the world it looks at may change. A
reference is constructed once from the values of its arguments, which may be
references again, and keeps its value once it has one. A clone of a resource
shares these.

So whatever the world does in between, all that is deployed sees one value for
each reference (`references_consistent`).
-/

namespace Inmanta

namespace ReferenceResolution

/-- An argument of a reference or of a mutator, as it is serialized. -/
inductive Argument (κ ν : Type) where
  /-- The value is there: a literal, a JSON value, a Python type, the resource itself. -/
  | given (value : ν)
  /-- `ResourceArgument` of another resource. -/
  | otherResource
  | reference (id : κ)
  /-- `MutatedJsonArgument`: the value, and the references that are put into it. -/
  | mutated (value : ν) (references : List (String × κ))

/-- What the references of a resource are made of. -/
structure References (κ ν ω ε : Type) where
  models : κ → Option (List (Argument κ ν))
  update : ν → String → ν → ν
  /-- `Reference.resolve`, from the values of the arguments. -/
  resolve : κ → List ν → ω → Except ε ν × ω

inductive Failure (κ ε : Type) where
  | keyError (id : κ)
  | otherResource
  | recursionError
  | raised (e : ε)

/-- The references that are constructed, with the values of their arguments and the value that
they keep; `resolved` has all calls of `resolve` that gave a value. -/
structure Cache (κ ν ω : Type) where
  world : ω
  references : Dict κ (List ν × Option ν)
  resolved : List (κ × List ν × ν)

section

variable {κ ν ω ε : Type} [DecidableEq κ]

/-- `Reference.get`. -/
def getValue (r : References κ ν ω ε) (id : κ) : Program (Cache κ ν ω) (Failure κ ε) ν := fun s =>
  match s.references.get? id with
  | none => (.error (.keyError id), s)
  | some (_, some v) => (.ok v, s)
  | some (args, none) =>
      match r.resolve id args s.world with
      | (.error e, world) => (.error (.raised e), { s with world := world })
      | (.ok v, world) =>
          (.ok v, ⟨world, s.references.set id (args, some v), s.resolved ++ [(id, args, v)]⟩)

def updateAll (update : ν → String → ν → ν) (get : κ → Program (Cache κ ν ω) (Failure κ ε) ν) :
    ν → List (String × κ) → Program (Cache κ ν ω) (Failure κ ε) ν
  | value, [] => pure value
  | value, (destination, id) :: references => do
      let v ← get id
      updateAll update get (update value destination v) references

/-- `Argument.get_arg_value`. -/
def getArgValue (update : ν → String → ν → ν) (get : κ → Program (Cache κ ν ω) (Failure κ ε) ν) :
    Argument κ ν → Program (Cache κ ν ω) (Failure κ ε) ν
  | .given value => pure value
  | .otherResource => Program.raise .otherResource
  | .reference id => get id
  | .mutated value references => updateAll update get value references

def getArgValues (update : ν → String → ν → ν) (get : κ → Program (Cache κ ν ω) (Failure κ ε) ν) :
    List (Argument κ ν) → Program (Cache κ ν ω) (Failure κ ε) (List ν)
  | [] => pure []
  | a :: as => do
      let v ← getArgValue update get a
      let vs ← getArgValues update get as
      pure (v :: vs)

def construct (id : κ) (args : List ν) (s : Cache κ ν ω) : Cache κ ν ω :=
  { s with references := s.references.set id (args, none) }

/-- `Resource.get_reference_value`; the number is what is left of the stack. -/
def getReferenceValue (r : References κ ν ω ε) :
    Nat → κ → Program (Cache κ ν ω) (Failure κ ε) ν
  | 0, _ => Program.raise .recursionError
  | depth + 1, id => fun s =>
      if id ∈ s.references then getValue r id s
      else match r.models id with
        | none => (.error (.keyError id), s)
        | some arguments =>
            (getArgValues r.update (getReferenceValue r depth) arguments >>= fun args =>
              Program.modify (construct id args) >>= fun _ => getValue r id) s

/-- What the resource and its clones do: `evaluate` is the arguments of a mutator, or a reference
that a handler asks for. Anything may happen to the world. -/
inductive Action (κ ν ω : Type) where
  | evaluate (depth : Nat) (arguments : List (Argument κ ν))
  | worldChanges (world : ω)

/-- The arguments that got values so far, with the values. -/
structure Session (κ ν ω : Type) where
  cache : Cache κ ν ω
  seen : List (List (Argument κ ν) × List ν)

def Session.start (world : ω) : Session κ ν ω := ⟨⟨world, .empty, []⟩, []⟩

def step (r : References κ ν ω ε) (s : Session κ ν ω) : Action κ ν ω → Option (Session κ ν ω)
  | .worldChanges world => some { s with cache := { s.cache with world := world } }
  | .evaluate depth arguments =>
      match getArgValues r.update (getReferenceValue r depth) arguments s.cache with
      | (.ok values, cache) => some ⟨cache, s.seen ++ [(arguments, values)]⟩
      | (.error _, cache) => some { s with cache := cache }

/-! ## One value for each reference -/

/-- The values that the references of a list have are put into the value. -/
inductive Updated (update : ν → String → ν → ν) (valueOf : κ → Option ν) :
    ν → List (String × κ) → ν → Prop where
  | nil (value : ν) : Updated update valueOf value [] value
  | cons {value v value' : ν} {destination : String} {id : κ} {references : List (String × κ)}
      (hv : valueOf id = some v)
      (h : Updated update valueOf (update value destination v) references value') :
      Updated update valueOf value ((destination, id) :: references) value'

/-- The value of an argument, given those of the references. -/
def ArgValue (update : ν → String → ν → ν) (valueOf : κ → Option ν) :
    Argument κ ν → ν → Prop
  | .given value, v => v = value
  | .otherResource, _ => False
  | .reference id, v => valueOf id = some v
  | .mutated value references, v => Updated update valueOf value references v

/-- The value that a reference keeps. -/
def Cache.valueOf (s : Cache κ ν ω) (id : κ) : Option ν := (s.references.get? id).bind Prod.snd

/-- References that are constructed stay, and so do their values. -/
structure Later (s s' : Cache κ ν ω) : Prop where
  value : ∀ id v, s.valueOf id = some v → s'.valueOf id = some v
  constructed : ∀ id, id ∈ s.references → id ∈ s'.references

structure Inv (r : References κ ν ω ε) (s : Cache κ ν ω) : Prop where
  resolved : ∀ id args v, (id, args, v) ∈ s.resolved ↔
    s.references.get? id = some (args, some v)
  once : (s.resolved.map Prod.fst).Nodup
  arguments : ∀ id args c, s.references.get? id = some (args, c) →
    ∃ arguments, r.models id = some arguments ∧
      List.Forall₂ (ArgValue r.update s.valueOf) arguments args

theorem Later.refl (s : Cache κ ν ω) : Later s s := ⟨fun _ _ h => h, fun _ h => h⟩

theorem Later.trans {s s' s'' : Cache κ ν ω} (h : Later s s') (h' : Later s' s'') :
    Later s s'' :=
  ⟨fun id v hv => h'.value id v (h.value id v hv),
    fun id hid => h'.constructed id (h.constructed id hid)⟩

omit [DecidableEq κ] in
theorem Updated.mono {update : ν → String → ν → ν} {valueOf valueOf' : κ → Option ν}
    (hle : ∀ id v, valueOf id = some v → valueOf' id = some v) {value value' : ν}
    {references : List (String × κ)} (h : Updated update valueOf value references value') :
    Updated update valueOf' value references value' := by
  induction h with
  | nil value => exact .nil value
  | cons hv _ ih => exact .cons (hle _ _ hv) ih

omit [DecidableEq κ] in
theorem ArgValue.mono {update : ν → String → ν → ν} {valueOf valueOf' : κ → Option ν}
    (hle : ∀ id v, valueOf id = some v → valueOf' id = some v) {a : Argument κ ν} {v : ν}
    (h : ArgValue update valueOf a v) : ArgValue update valueOf' a v := by
  cases a with
  | given value => exact h
  | otherResource => exact h
  | reference id => exact hle id v h
  | mutated value references => exact Updated.mono hle h

/-- The program keeps the invariant and all values, constructs no references but those of a rank
below `bound`, and if it succeeds its value is right for the values kept. -/
def Works {α : Type} (r : References κ ν ω ε) (rank : κ → Nat) (bound : Nat)
    (Q : (κ → Option ν) → α → Prop) (m : Program (Cache κ ν ω) (Failure κ ε) α)
    (s : Cache κ ν ω) : Prop :=
  Inv r s → Inv r (m s).2 ∧ Later s (m s).2 ∧
    (∀ id ∈ (m s).2.references, id ∈ s.references ∨ rank id < bound) ∧
    ∀ a, (m s).1 = .ok a → Q (m s).2.valueOf a

variable {r : References κ ν ω ε} {rank : κ → Nat} {bound : Nat}

theorem Works.pure {α : Type} {Q : (κ → Option ν) → α → Prop} {a : α} {s : Cache κ ν ω}
    (h : Q s.valueOf a) : Works r rank bound Q (Pure.pure a) s := by
  intro hs
  refine ⟨hs, .refl s, fun id hid => .inl hid, fun b hb => ?_⟩
  obtain rfl := Except.ok.inj hb
  exact h

theorem Works.error {α : Type} {Q : (κ → Option ν) → α → Prop} {e : Failure κ ε}
    {m : Program (Cache κ ν ω) (Failure κ ε) α} {s : Cache κ ν ω} (h : m s = (.error e, s)) :
    Works r rank bound Q m s := by
  intro hs
  rw [h]
  exact ⟨hs, .refl s, fun id hid => .inl hid, fun b hb => by cases hb⟩

theorem Works.bind {α β : Type} {Q : (κ → Option ν) → α → Prop} {Q' : (κ → Option ν) → β → Prop}
    {m : Program (Cache κ ν ω) (Failure κ ε) α} {f : α → Program (Cache κ ν ω) (Failure κ ε) β}
    {s : Cache κ ν ω} (hm : Works r rank bound Q m s)
    (hf : ∀ a s', Later s s' → (∀ id ∈ s'.references, id ∈ s.references ∨ rank id < bound) →
      Q s'.valueOf a → Works r rank bound Q' (f a) s') :
    Works r rank bound Q' (m >>= f) s := by
  intro hs
  obtain ⟨hinv, hlater, hnew, hQ⟩ := hm hs
  cases hms : m s with
  | mk result s' =>
      rw [hms] at hinv hlater hnew hQ
      cases result with
      | error e =>
          rw [Program.bind_error hms]
          exact ⟨hinv, hlater, hnew, fun b hb => by cases hb⟩
      | ok a =>
          rw [Program.bind_ok hms]
          obtain ⟨hinv', hlater', hnew', hQ'⟩ := hf a s' hlater hnew (hQ a rfl) hinv
          refine ⟨hinv', hlater.trans hlater', fun id hid => ?_, hQ'⟩
          rcases hnew' id hid with hid | hid
          · exact hnew id hid
          · exact .inr hid

theorem Works.mono {α : Type} {bound' : Nat} (hbound : bound ≤ bound')
    {Q : (κ → Option ν) → α → Prop} {m : Program (Cache κ ν ω) (Failure κ ε) α}
    {s : Cache κ ν ω} (h : Works r rank bound Q m s) : Works r rank bound' Q m s := by
  intro hs
  obtain ⟨hinv, hlater, hnew, hQ⟩ := h hs
  exact ⟨hinv, hlater, fun id hid => (hnew id hid).imp_right fun h => by omega, hQ⟩

theorem valueOf_eq_some {s : Cache κ ν ω} {id : κ} {v : ν} :
    s.valueOf id = some v ↔ ∃ args, s.references.get? id = some (args, some v) := by
  unfold Cache.valueOf
  rw [Option.bind_eq_some_iff]
  constructor
  · rintro ⟨⟨args, c⟩, hget, rfl⟩
    exact ⟨args, hget⟩
  · rintro ⟨args, hget⟩
    exact ⟨_, hget, rfl⟩

/-- Filling in a value that was missing. -/
theorem Inv.resolve {s : Cache κ ν ω} (hs : Inv r s) {id : κ} {args : List ν} {v : ν} {world : ω}
    (hget : s.references.get? id = some (args, none)) :
    Inv r ⟨world, s.references.set id (args, some v), s.resolved ++ [(id, args, v)]⟩ ∧
      Later s ⟨world, s.references.set id (args, some v), s.resolved ++ [(id, args, v)]⟩ := by
  have hlater : Later s
      ⟨world, s.references.set id (args, some v), s.resolved ++ [(id, args, v)]⟩ := by
    refine ⟨fun id' v' hv' => ?_, fun id' hid' => Dict.mem_set.mpr (.inr hid')⟩
    obtain ⟨args', hget'⟩ := valueOf_eq_some.mp hv'
    have hne : id' ≠ id := by
      rintro rfl
      cases hget.symm.trans hget'
    refine valueOf_eq_some.mpr ⟨args', ?_⟩
    rw [Dict.get?_set, if_neg hne]
    exact hget'
  refine ⟨⟨fun id' args' v' => ?_, ?_, fun id' args' c hget' => ?_⟩, hlater⟩
  · rw [List.mem_append, hs.resolved, List.mem_singleton, Dict.get?_set]
    by_cases hid : id' = id
    · subst hid
      rw [if_pos rfl, hget]
      constructor
      · rintro (h | h)
        · cases h
        · obtain ⟨-, rfl, rfl⟩ : id' = id' ∧ args' = args ∧ v' = v := by simpa using h
          rfl
      · intro h
        obtain ⟨rfl, rfl⟩ : args = args' ∧ v = v' := by simpa using h
        exact .inr rfl
    · rw [if_neg hid]
      exact or_iff_left fun h => hid (Prod.mk.inj h).1
  · rw [List.map_append, List.nodup_append]
    refine ⟨hs.once, List.nodup_singleton _, ?_⟩
    rintro x hx y hy rfl
    obtain rfl : x = id := List.mem_singleton.mp hy
    obtain ⟨⟨id', args', v'⟩, he, rfl⟩ := List.mem_map.mp hx
    cases hget.symm.trans ((hs.resolved id' args' v').mp he)
  · have hold : ∃ c', s.references.get? id' = some (args', c') := by
      rw [Dict.get?_set] at hget'
      split at hget'
      · rename_i hid
        obtain ⟨rfl, -⟩ := Prod.mk.inj (Option.some.inj hget')
        exact ⟨none, hid ▸ hget⟩
      · exact ⟨c, hget'⟩
    obtain ⟨c', hold⟩ := hold
    obtain ⟨arguments, hmodel, hargs⟩ := hs.arguments id' args' c' hold
    exact ⟨arguments, hmodel, hargs.imp fun _ _ => ArgValue.mono hlater.value⟩

theorem getValue_works {s : Cache κ ν ω} (id : κ) :
    Works r rank bound (fun valueOf v => valueOf id = some v) (getValue r id) s := by
  cases hget : s.references.get? id with
  | none =>
      refine .error (e := .keyError id) ?_
      unfold getValue
      rw [hget]
  | some entry =>
      obtain ⟨args, c⟩ := entry
      intro hs
      cases c with
      | some v =>
          have hvalue : getValue r id s = (.ok v, s) := by
            unfold getValue
            rw [hget]
          rw [hvalue]
          refine ⟨hs, .refl s, fun id hid => .inl hid, fun a ha => ?_⟩
          obtain rfl := Except.ok.inj ha
          exact valueOf_eq_some.mpr ⟨args, hget⟩
      | none =>
          cases hresolve : r.resolve id args s.world with
          | mk result world =>
              cases result with
              | error e =>
                  have hvalue : getValue r id s = (.error (.raised e), { s with world := world }) := by
                    unfold getValue
                    rw [hget]
                    simp only [hresolve]
                  rw [hvalue]
                  exact ⟨⟨hs.resolved, hs.once, hs.arguments⟩, ⟨fun _ _ h => h, fun _ h => h⟩,
                    fun id hid => .inl hid, fun a ha => by cases ha⟩
              | ok v =>
                  have hvalue : getValue r id s = (.ok v, ⟨world, s.references.set id (args, some v),
                      s.resolved ++ [(id, args, v)]⟩) := by
                    unfold getValue
                    rw [hget]
                    simp only [hresolve]
                  have hfilled : Inv r ⟨world, s.references.set id (args, some v),
                      s.resolved ++ [(id, args, v)]⟩ ∧ Later s ⟨world,
                        s.references.set id (args, some v), s.resolved ++ [(id, args, v)]⟩ :=
                    hs.resolve hget
                  obtain ⟨hinv, hlater⟩ := hfilled
                  rw [hvalue]
                  refine ⟨hinv, hlater, fun id' hid' => ?_, fun a ha => ?_⟩
                  · rcases Dict.mem_set.mp hid' with rfl | hid'
                    · exact .inl (Dict.mem_of_get? hget)
                    · exact .inl hid'
                  · obtain rfl := Except.ok.inj ha
                    refine valueOf_eq_some.mpr ⟨args, ?_⟩
                    rw [Dict.get?_set, if_pos rfl]

theorem updateAll_works {get : κ → Program (Cache κ ν ω) (Failure κ ε) ν}
    {references : List (String × κ)} {value : ν} {s : Cache κ ν ω}
    (hget : ∀ p ∈ references, ∀ s : Cache κ ν ω,
      Works r rank bound (fun valueOf v => valueOf p.2 = some v) (get p.2) s) :
    Works r rank bound (fun valueOf v => Updated r.update valueOf value references v)
      (updateAll r.update get value references) s := by
  induction references generalizing value s with
  | nil => exact .pure (.nil value)
  | cons p references ih =>
      obtain ⟨destination, id⟩ := p
      refine (hget (destination, id) List.mem_cons_self s).bind fun v s' _ _ hv => ?_
      have hrest : Works r rank bound
          (fun valueOf v' => Updated r.update valueOf (r.update value destination v) references v')
          (updateAll r.update get (r.update value destination v) references) s' :=
        ih fun q hq => hget q (List.mem_cons_of_mem _ hq)
      intro hs
      obtain ⟨hinv, hlater, hnew, hQ⟩ := hrest hs
      exact ⟨hinv, hlater, hnew, fun a ha => .cons (hlater.value id v hv) (hQ a ha)⟩

/-- The references in an argument. -/
def Argument.ids : Argument κ ν → List κ
  | .reference id => [id]
  | .mutated _ references => references.map Prod.snd
  | _ => []

theorem getArgValue_works {get : κ → Program (Cache κ ν ω) (Failure κ ε) ν} {a : Argument κ ν}
    {s : Cache κ ν ω} (hget : ∀ id ∈ a.ids, ∀ s : Cache κ ν ω,
      Works r rank bound (fun valueOf v => valueOf id = some v) (get id) s) :
    Works r rank bound (fun valueOf v => ArgValue r.update valueOf a v)
      (getArgValue r.update get a) s := by
  cases a with
  | given value => exact .pure rfl
  | otherResource => exact .error rfl
  | reference id => exact hget id (List.mem_singleton_self id) s
  | mutated value references =>
      exact updateAll_works fun p hp => hget p.2 (List.mem_map_of_mem hp)

theorem getArgValues_works {get : κ → Program (Cache κ ν ω) (Failure κ ε) ν}
    {arguments : List (Argument κ ν)} {s : Cache κ ν ω}
    (hget : ∀ a ∈ arguments, ∀ id ∈ a.ids, ∀ s : Cache κ ν ω,
      Works r rank bound (fun valueOf v => valueOf id = some v) (get id) s) :
    Works r rank bound (fun valueOf values =>
      List.Forall₂ (ArgValue r.update valueOf) arguments values)
      (getArgValues r.update get arguments) s := by
  induction arguments generalizing s with
  | nil => exact .pure .nil
  | cons a arguments ih =>
      refine (getArgValue_works (hget a List.mem_cons_self)).bind fun v s₁ _ _ hv => ?_
      intro hs₁
      have hrest := ih (s := s₁) fun b hb => hget b (List.mem_cons_of_mem _ hb)
      have hall : Works r rank bound (fun valueOf values =>
          List.Forall₂ (ArgValue r.update valueOf) (a :: arguments) values)
          (getArgValues r.update get arguments >>= fun vs => Pure.pure (v :: vs)) s₁ := by
        refine hrest.bind fun vs s₂ hlater _ hvs => .pure ?_
        exact .cons (hv.mono hlater.value) hvs
      exact hall hs₁

theorem Inv.construct {s : Cache κ ν ω} (hs : Inv r s) {id : κ} (hid : id ∉ s.references)
    {arguments : List (Argument κ ν)} {args : List ν} (hmodel : r.models id = some arguments)
    (hargs : List.Forall₂ (ArgValue r.update s.valueOf) arguments args) :
    Inv r (construct id args s) ∧ Later s (construct id args s) := by
  have hget : ∀ id', (ReferenceResolution.construct id args s).references.get? id' =
      if id' = id then some (args, none) else s.references.get? id' :=
    fun id' => Dict.get?_set _ _ _ _
  have hnone := Dict.not_mem_iff.mp hid
  have hlater : Later s (ReferenceResolution.construct id args s) := by
    refine ⟨fun id' v hv => ?_, fun id' hid' => Dict.mem_set.mpr (.inr hid')⟩
    obtain ⟨args', hget'⟩ := valueOf_eq_some.mp hv
    refine valueOf_eq_some.mpr ⟨args', ?_⟩
    rw [hget, if_neg]
    · exact hget'
    · rintro rfl
      cases hnone.symm.trans hget'
  refine ⟨⟨fun id' args' v => ?_, hs.once, fun id' args' c hget' => ?_⟩, hlater⟩
  · rw [hget]
    change (id', args', v) ∈ s.resolved ↔ _
    rw [hs.resolved]
    by_cases heq : id' = id
    · subst heq
      rw [if_pos rfl, hnone]
      exact iff_of_false (fun h => by cases h) fun h => by cases h
    · rw [if_neg heq]
  · rw [hget] at hget'
    split at hget'
    · rename_i heq
      obtain ⟨rfl, -⟩ := Prod.mk.inj (Option.some.inj hget')
      exact ⟨arguments, heq ▸ hmodel, hargs.imp fun _ _ => ArgValue.mono hlater.value⟩
    · obtain ⟨arguments', hmodel', hargs'⟩ := hs.arguments id' args' c hget'
      exact ⟨arguments', hmodel', hargs'.imp fun _ _ => ArgValue.mono hlater.value⟩

/-- The references that a reference is made of are below it. -/
def Ranked (r : References κ ν ω ε) (rank : κ → Nat) : Prop :=
  ∀ id arguments, r.models id = some arguments → ∀ a ∈ arguments, ∀ d ∈ a.ids, rank d < rank id

/-- By induction on the stack: what a reference is made of is constructed before it, and does not
construct it. -/
theorem getReferenceValue_works (hranked : Ranked r rank) (depth : Nat) (id : κ)
    (s : Cache κ ν ω) : Works r rank (rank id + 1) (fun valueOf v => valueOf id = some v)
      (getReferenceValue r depth id) s := by
  induction depth generalizing id s with
  | zero => exact .error rfl
  | succ depth ih =>
      by_cases hid : id ∈ s.references
      · have heq : getReferenceValue r (depth + 1) id s = getValue r id s := if_pos hid
        intro hs
        rw [heq]
        exact getValue_works id hs
      cases hmodel : r.models id with
      | none =>
          refine .error (e := .keyError id) ?_
          unfold getReferenceValue
          simp only [hid, if_false, hmodel]
      | some arguments =>
          have heq : getReferenceValue r (depth + 1) id s =
              (getArgValues r.update (getReferenceValue r depth) arguments >>= fun args =>
                Program.modify (construct id args) >>= fun _ => getValue r id) s := by
            rw [getReferenceValue]
            simp only [hid, if_false, hmodel]
          have hargs : Works r rank (rank id) (fun valueOf values =>
              List.Forall₂ (ArgValue r.update valueOf) arguments values)
              (getArgValues r.update (getReferenceValue r depth) arguments) s := by
            refine getArgValues_works fun a ha d hd s' => (ih d s').mono ?_
            exact hranked id arguments hmodel a ha d hd
          intro hs
          obtain ⟨hinv, hlater, hnew, hQ⟩ := hargs hs
          rw [heq]
          cases hrun : getArgValues r.update (getReferenceValue r depth) arguments s with
          | mk result s₁ =>
              rw [hrun] at hinv hlater hnew hQ
              cases result with
              | error e =>
                  rw [Program.bind_error hrun]
                  exact ⟨hinv, hlater, fun d hd => (hnew d hd).imp_right fun h => by omega,
                    fun a ha => by cases ha⟩
              | ok args =>
                  rw [Program.bind_ok hrun]
                  have hid₁ : id ∉ s₁.references := fun h => (hnew id h).elim hid (Nat.lt_irrefl _)
                  obtain ⟨hinv₂, hlater₂⟩ := hinv.construct hid₁ hmodel (hQ args rfl)
                  have hvalue : Works r rank 0 (fun valueOf v => valueOf id = some v)
                      (getValue r id) (construct id args s₁) := getValue_works id
                  obtain ⟨hinv₃, hlater₃, hnew₃, hQ₃⟩ := hvalue hinv₂
                  have hmodify : (Program.modify (construct id args) >>= fun _ => getValue r id :
                      Program (Cache κ ν ω) (Failure κ ε) ν) s₁ =
                        getValue r id (construct id args s₁) := Program.bind_ok rfl
                  rw [hmodify]
                  refine ⟨hinv₃, (hlater.trans hlater₂).trans hlater₃, fun d hd => ?_, hQ₃⟩
                  have hd₂ := (hnew₃ d hd).resolve_right (Nat.not_lt_zero _)
                  rcases Dict.mem_set.mp hd₂ with rfl | hd₁
                  · exact .inr (Nat.lt_succ_self _)
                  · exact (hnew d hd₁).imp_right fun h => by omega

omit [DecidableEq κ] in
theorem exists_bound (rank : κ → Nat) (ids : List κ) : ∃ b : Nat, ∀ d ∈ ids, rank d < b := by
  induction ids with
  | nil => exact ⟨0, fun d hd => absurd hd List.not_mem_nil⟩
  | cons id ids ih =>
      obtain ⟨b, hb⟩ := ih
      refine ⟨b + rank id + 1, fun d hd => ?_⟩
      rcases List.mem_cons.mp hd with rfl | hd
      · omega
      · have := hb d hd
        omega

/-- What has been seen is right for the values that are kept. -/
structure Session.Right (r : References κ ν ω ε) (s : Session κ ν ω) : Prop where
  inv : Inv r s.cache
  seen : ∀ p ∈ s.seen, List.Forall₂ (ArgValue r.update s.cache.valueOf) p.1 p.2

theorem Session.Right.step (hranked : Ranked r rank) {s s' : Session κ ν ω} (hs : s.Right r)
    {a : Action κ ν ω} (h : step r s a = some s') : s'.Right r := by
  cases a with
  | worldChanges world =>
      cases h
      exact ⟨⟨hs.inv.resolved, hs.inv.once, hs.inv.arguments⟩, hs.seen⟩
  | evaluate depth arguments =>
      have hworks : ∀ b : Nat, (∀ a ∈ arguments, ∀ d ∈ a.ids, rank d < b) →
          Works r rank b (fun valueOf values =>
            List.Forall₂ (ArgValue r.update valueOf) arguments values)
            (getArgValues r.update (getReferenceValue r depth) arguments) s.cache :=
        fun b hb => getArgValues_works fun a ha d hd s' =>
          (getReferenceValue_works hranked depth d s').mono (hb a ha d hd)
      have hbound : ∃ b : Nat, ∀ a ∈ arguments, ∀ d ∈ a.ids, rank d < b := by
        obtain ⟨b, hb⟩ := exists_bound rank (arguments.flatMap Argument.ids)
        exact ⟨b, fun a ha d hd => hb d (List.mem_flatMap.mpr ⟨a, ha, hd⟩)⟩
      obtain ⟨b, hb⟩ := hbound
      obtain ⟨hinv, hlater, -, hQ⟩ := hworks b hb hs.inv
      unfold ReferenceResolution.step at h
      cases hrun : getArgValues r.update (getReferenceValue r depth) arguments s.cache with
      | mk result cache =>
          rw [hrun] at hinv hlater hQ
          simp only [hrun] at h
          have hold : ∀ p ∈ s.seen, List.Forall₂ (ArgValue r.update cache.valueOf) p.1 p.2 :=
            fun p hp => (hs.seen p hp).imp fun _ _ => ArgValue.mono hlater.value
          cases result with
          | error e =>
              cases h
              exact ⟨hinv, hold⟩
          | ok values =>
              cases h
              refine ⟨hinv, fun p hp => ?_⟩
              rcases List.mem_append.mp hp with hp | hp
              · exact hold p hp
              · obtain rfl := List.mem_singleton.mp hp
                exact hQ values rfl

theorem right_start (world : ω) : (Session.start world : Session κ ν ω).Right r where
  inv :=
    { resolved := fun id _ _ => ⟨fun h => absurd h List.not_mem_nil,
        fun h => absurd (Dict.mem_of_get? h) (Dict.not_mem_empty id)⟩
      once := List.nodup_nil
      arguments := fun id _ _ h => absurd (Dict.mem_of_get? h) (Dict.not_mem_empty id) }
  seen _ hp := absurd hp List.not_mem_nil

/-- **One value for each reference.** Whatever is asked for, whatever `resolve` raises and however
the world changes in between: if no reference is made of itself, there is one value for each
reference such that all arguments that were given values have those that they have by it, each
reference was resolved at most once, to its value, and from arguments that have those values
too. -/
theorem references_consistent (hranked : Ranked r rank) {world : ω} {as : List (Action κ ν ω)}
    {s : Session κ ν ω} (h : run (step r) (.start world) as = some s) :
    ∃ valueOf : κ → Option ν,
      (∀ p ∈ s.seen, List.Forall₂ (ArgValue r.update valueOf) p.1 p.2) ∧
      (s.cache.resolved.map Prod.fst).Nodup ∧
      ∀ id args v, (id, args, v) ∈ s.cache.resolved → valueOf id = some v ∧
        ∃ arguments, r.models id = some arguments ∧
          List.Forall₂ (ArgValue r.update valueOf) arguments args := by
  have hs : s.Right r := run_invariant (fun _ _ _ hI _ hstep => hI.step hranked hstep)
    (right_start world) (along_of_forall (fun _ _ => trivial) _ as) h
  refine ⟨s.cache.valueOf, hs.seen, hs.inv.once, fun id args v hv => ?_⟩
  have hget := (hs.inv.resolved id args v).mp hv
  exact ⟨valueOf_eq_some.mpr ⟨args, hget⟩, hs.inv.arguments id args _ hget⟩

end

/-- A reference to a secret, and one that is made of it; the store may be down. -/
def secrets : References Nat Nat Nat Unit where
  models id := if id = 0 then some [.given 7] else if id = 1 then some [.reference 0] else none
  update value _ v := value + v
  resolve _ args world := (if world = 0 then .error () else .ok (args.foldl (· + ·) world), world)

theorem references_consistent_secrets : ∃ s, run (step secrets) (.start 0)
    [.evaluate 5 [.reference 1], .worldChanges 3, .evaluate 5 [.reference 0], .worldChanges 4,
      .evaluate 5 [.reference 1, .reference 0]] = some s ∧
    s.seen = [([.reference 0], [10]), ([.reference 1, .reference 0], [14, 10])] ∧
    (s.cache.resolved.map Prod.fst).Nodup := by
  have hranked : Ranked secrets id := by
    intro n arguments hmodel a ha d hd
    unfold secrets at hmodel
    simp only at hmodel
    split at hmodel
    · obtain rfl := Option.some.inj hmodel
      obtain rfl := List.mem_singleton.mp ha
      cases hd
    split at hmodel
    · rename_i hn
      obtain rfl := Option.some.inj hmodel
      obtain rfl := List.mem_singleton.mp ha
      obtain rfl := List.mem_singleton.mp hd
      rw [hn]
      exact Nat.zero_lt_one
    · cases hmodel
  have hrun : ∃ s, run (step secrets) (.start 0)
      [.evaluate 5 [.reference 1], .worldChanges 3, .evaluate 5 [.reference 0], .worldChanges 4,
        .evaluate 5 [.reference 1, .reference 0]] = some s ∧
      s.seen = [([.reference 0], [10]), ([.reference 1, .reference 0], [14, 10])] :=
    ⟨_, rfl, rfl⟩
  obtain ⟨s, hs, hseen⟩ := hrun
  obtain ⟨-, -, honce, -⟩ := references_consistent hranked hs
  exact ⟨s, hs, hseen, honce⟩

end ReferenceResolution

end Inmanta
