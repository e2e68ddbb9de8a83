import Inmanta.Resources.References
import Inmanta.Lib.Dict
import Mathlib

/-!
# Serialization of references

A reference is serialized once: its model is kept in the object. While its
arguments are serialized a token stands there instead, and a reference that finds
the token reports a cycle.

The token stays when the serialization fails. Tried again, the reference then
reports a cycle that there may not be. On the way back from a cycle the references
are compared with `==`, which for references of one class that refer to each other
does not end. So the cycles are what is detected, and failures change nothing later,
if no reference fails but by a cycle (`Orderly`) and those comparisons end
(`Comparable`).
-/

namespace Inmanta

namespace ReferenceSerialization

variable {κ β ρ ι : Type}

/-- The value of an argument. -/
inductive Argument (β ρ : Type) where
  /-- A literal, a resource or a Python type. -/
  | plain (a : β)
  | reference (r : ρ)
  /-- A list or dictionary. No reference stands for a value that is rejected there,
  and `json` tells whether the rest of it can be written as JSON. -/
  | container (t : Tree Text (AttributeValue β (Option ρ))) (json : Bool)
  | unknown

inductive SerializedArgument (β ι : Type) where
  | plain (name : String) (a : β)
  | reference (name : String) (id : ι)
  | json (name : String) (value : Tree Text (Option β))
  | mutatedJson (name : String) (value : Tree Text (Option β)) (references : Dict Text ι)

structure ReferenceModel (κ β ι : Type) where
  id : ι
  type : κ
  args : List (SerializedArgument β ι)

/-- The references of a compile. -/
structure ReferenceGraph (κ β ρ ι : Type) where
  type : ρ → κ
  /-- Other types are rejected by the model. -/
  validType : κ → Bool
  arguments : ρ → List (String × Argument β ρ)
  /-- `==`, which a class may redefine; `none` is a `RecursionError`. -/
  eq : ρ → ρ → Option Bool
  /-- `compute_reference_or_mutator_id` -/
  computeId : κ → List (SerializedArgument β ι) → ι

/-- What is kept in a reference. -/
inductive Slot (κ β ι : Type) where
  | empty
  | cycleToken
  | model (m : ReferenceModel κ β ι)

inductive Failure (ρ : Type) where
  /-- `ReferenceCycleException` -/
  | cycle (references : List ρ) (complete : Bool)
  | other

abbrev State (κ β ρ ι : Type) := ρ → Slot κ β ι

abbrev Serializing (κ β ρ ι : Type) := ExceptT (Failure ρ) (StateM (State κ β ρ ι))

/-! ## The arguments -/

section Arguments

variable (visit : ρ → Serializing κ β ρ ι (ReferenceModel κ β ι))

/-- The references of a container, with their paths. -/
def serializeReferences : List (Text × Option ρ) → Serializing κ β ρ ι (List (Text × ι))
  | [] => pure []
  | (_, none) :: _ => throw .other
  | (path, some r) :: l => do
      let model ← visit r
      let references ← serializeReferences l
      pure ((path, model.id) :: references)

def serializeArgument (name : String) :
    Argument β ρ → Serializing κ β ρ ι (SerializedArgument β ι)
  | .plain a => pure (.plain name a)
  | .container t json => do
      let collected := collectReferences t ['$']
      let references ← serializeReferences visit collected.2
      if json then
        if references.isEmpty then pure (.json name collected.1)
        else pure (.mutatedJson name collected.1 (.ofList references))
      else throw .other
  | .reference r => do
      let model ← visit r
      pure (.reference name model.id)
  | .unknown => throw .other

def serializeArguments : List (String × Argument β ρ) →
    Serializing κ β ρ ι (List (SerializedArgument β ι))
  | [] => pure []
  | (name, value) :: l => do
      let argument ← serializeArgument visit name value
      let arguments ← serializeArguments l
      pure (argument :: arguments)

/-- References that are serialized one after the other; `none` is an error. -/
def visitAll : List (Option ρ) → Serializing κ β ρ ι (List ι)
  | [] => pure []
  | none :: _ => throw .other
  | some r :: l => do
      let model ← visit r
      let ids ← visitAll l
      pure (model.id :: ids)

end Arguments

namespace Argument

/-- What is serialized for an argument, in this order. -/
def items : Argument β ρ → List (Option ρ)
  | plain _ => []
  | reference r => [some r]
  | container t json => (collectReferences t ['$']).2.map Prod.snd ++ if json then [] else [none]
  | unknown => [none]

end Argument

theorem visitAll_append (visit : ρ → Serializing κ β ρ ι (ReferenceModel κ β ι))
    (l l' : List (Option ρ)) :
    visitAll visit (l ++ l') = (do
      let ids ← visitAll visit l
      let ids' ← visitAll visit l'
      pure (ids ++ ids')) := by
  induction l with
  | nil => simp [visitAll]
  | cons o l ih =>
      cases o with
      | none => simp [visitAll, throw, throwThe, MonadExceptOf.throw]; rfl
      | some r => simp [visitAll, ih]

/-- Errors aside, only the ids of the references are needed of the visits. -/
theorem serializeReferences_eq (l : List (Text × Option ρ)) :
    ∃ build : List ι → List (Text × ι),
      ∀ visit : ρ → Serializing κ β ρ ι (ReferenceModel κ β ι),
        serializeReferences visit l = build <$> visitAll visit (l.map Prod.snd) := by
  induction l with
  | nil => exact ⟨fun _ => [], fun visit => by simp [serializeReferences, visitAll]⟩
  | cons e l ih =>
      obtain ⟨build, h⟩ := ih
      obtain ⟨path, _ | r⟩ := e
      · refine ⟨fun _ => [], fun visit => ?_⟩
        simp only [serializeReferences, List.map_cons, visitAll]
        rfl
      · refine ⟨fun ids => ids.head?.toList.map (path, ·) ++ build ids.tail, fun visit => ?_⟩
        simp [serializeReferences, visitAll, h]

theorem serializeArgument_eq (name : String) (a : Argument β ρ) :
    ∃ build : List ι → SerializedArgument β ι,
      ∀ visit : ρ → Serializing κ β ρ ι (ReferenceModel κ β ι),
        serializeArgument visit name a = build <$> visitAll visit a.items := by
  cases a with
  | plain b => exact ⟨fun _ => .plain name b, fun visit => by
      simp [serializeArgument, Argument.items, visitAll]⟩
  | reference r =>
      refine ⟨fun ids => ids.head?.elim (.json name (.list [])) (.reference name), fun visit => ?_⟩
      simp [serializeArgument, Argument.items, visitAll]
  | unknown =>
      refine ⟨fun _ => .json name (.list []), fun visit => ?_⟩
      simp only [serializeArgument, Argument.items, visitAll]
      rfl
  | container t json =>
      obtain ⟨build, h⟩ := serializeReferences_eq (κ := κ) (β := β) (ι := ι)
        (collectReferences t ['$']).2
      cases json with
      | true =>
          refine ⟨fun ids => if (build ids).isEmpty
            then .json name (collectReferences t ['$']).1
            else .mutatedJson name (collectReferences t ['$']).1 (.ofList (build ids)),
            fun visit => ?_⟩
          simp only [serializeArgument, Argument.items, h, if_true, List.append_nil,
            map_eq_pure_bind, bind_assoc, pure_bind]
          congr 1
          funext ids
          split <;> rfl
      | false =>
          refine ⟨fun _ => .json name (.list []), fun visit => ?_⟩
          simp only [serializeArgument, Argument.items, h, Bool.false_eq_true, if_false,
            visitAll_append, visitAll, map_eq_pure_bind, bind_assoc, pure_bind]
          rfl

/-- What is serialized for the arguments of a reference. -/
def argumentItems (arguments : List (String × Argument β ρ)) : List (Option ρ) :=
  arguments.flatMap fun e => e.2.items

theorem bind_apply {α γ : Type} (x : Serializing κ β ρ ι α) (f : α → Serializing κ β ρ ι γ)
    (s : State κ β ρ ι) :
    (x >>= f) s = match x s with
      | (.ok a, s') => f a s'
      | (.error e, s') => (.error e, s') := by
  change (ExceptT.bindCont f (x s).1) (x s).2 = _
  rcases x s with ⟨e | a, s'⟩ <;> rfl

theorem map_apply {α γ : Type} (f : α → γ) (x : Serializing κ β ρ ι α) (s : State κ β ρ ι) :
    (f <$> x) s = match x s with
      | (.ok a, s') => (.ok (f a), s')
      | (.error e, s') => (.error e, s') := by
  rw [map_eq_pure_bind, bind_apply]
  rfl

theorem tryCatch_apply {α : Type} (x : Serializing κ β ρ ι α)
    (f : Failure ρ → Serializing κ β ρ ι α) (s : State κ β ρ ι) :
    (tryCatch x f) s = match x s with
      | (.ok a, s') => (.ok a, s')
      | (.error e, s') => f e s' := by
  rcases h : x s with ⟨e | a, s'⟩ <;>
    simp [tryCatch, tryCatchThe, MonadExceptOf.tryCatch, ExceptT.tryCatch, ExceptT.mk, bind,
      StateT.bind, h, pure, StateT.pure]

theorem modify_apply (f : State κ β ρ ι → State κ β ρ ι) (s : State κ β ρ ι) :
    (modify f : Serializing κ β ρ ι PUnit) s = (.ok ⟨⟩, f s) := rfl

theorem visitAll_length (visit : ρ → Serializing κ β ρ ι (ReferenceModel κ β ι))
    {l : List (Option ρ)} {s s' : State κ β ρ ι} {ids : List ι}
    (h : visitAll visit l s = (.ok ids, s')) : ids.length = l.length := by
  induction l generalizing s ids with
  | nil =>
      cases h
      rfl
  | cons o l ih =>
      cases o with
      | none => cases h
      | some r =>
          rw [visitAll, bind_apply] at h
          rcases hr : visit r s with ⟨e | m, s₁⟩ <;> rw [hr] at h
          · cases h
          · simp only [bind_apply] at h
            rcases hl : visitAll visit l s₁ with ⟨e | ids', s₂⟩ <;> rw [hl] at h
            · cases h
            · cases h
              rw [List.length_cons, List.length_cons, ih hl]

theorem serializeArguments_eq (arguments : List (String × Argument β ρ)) :
    ∃ build : List ι → List (SerializedArgument β ι),
      ∀ visit : ρ → Serializing κ β ρ ι (ReferenceModel κ β ι),
        serializeArguments visit arguments =
          build <$> visitAll visit (argumentItems arguments) := by
  induction arguments with
  | nil => exact ⟨fun _ => [], fun visit => by
      simp [serializeArguments, argumentItems, visitAll]⟩
  | cons e l ih =>
      obtain ⟨name, a⟩ := e
      obtain ⟨build, h⟩ := ih
      obtain ⟨buildOne, hone⟩ := serializeArgument_eq (κ := κ) (ι := ι) name a
      refine ⟨fun ids => buildOne (ids.take a.items.length) ::
        build (ids.drop a.items.length), fun visit => ?_⟩
      funext s
      rw [argumentItems, List.flatMap_cons, map_apply, visitAll_append, bind_apply]
      rw [serializeArguments, hone, bind_apply, map_apply]
      rcases hs : visitAll visit a.items s with ⟨e | ids, s₁⟩
      · rfl
      · simp only [h, bind_apply, map_apply]
        rcases hl : visitAll visit (argumentItems l) s₁ with ⟨e | ids', s₂⟩ <;>
          rw [argumentItems] at hl <;> simp only [hl]
        · have hlength := visitAll_length visit hs
          simp [← hlength, pure, ExceptT.pure, ExceptT.mk, StateT.pure]

/-! ## References -/

namespace ReferenceGraph

variable [DecidableEq ρ] (g : ReferenceGraph κ β ρ ι)

/-- `element in self.references` -/
def isIn (element : ρ) : List ρ → Option Bool
  | [] => some false
  | r :: l =>
      if r = element then some true
      else
        match g.eq r element with
        | some true => some true
        | some false => isIn element l
        | none => none

/-- `ReferenceCycleException.add` -/
def add (element : ρ) (references : List ρ) (complete : Bool) : Option (List ρ × Bool) :=
  if complete then some (references, complete)
  else (g.isIn element references).map fun found => (references ++ [element], found)

/-- What is raised when this comes out of the exception. -/
def raised : Option (List ρ × Bool) → Failure ρ
  | some (references, complete) => .cycle references complete
  | none => .other

def serialize : ℕ → ρ → Serializing κ β ρ ι (ReferenceModel κ β ι)
  | 0, _ => throw .other
  | depth + 1, r => do
      match (← get) r with
      | .cycleToken => throw (.cycle [r] false)
      | .model m => pure m
      | .empty =>
          modify fun s => Function.update s r .cycleToken
          let args ← tryCatch (serializeArguments (serialize depth) (g.arguments r)) fun e =>
            match e with
            | .cycle references complete => throw (raised (g.add r references complete))
            | .other => throw .other
          if g.validType (g.type r) then
            let model := ⟨g.computeId (g.type r) args, g.type r, args⟩
            modify fun s => Function.update s r (.model model)
            pure model
          else throw .other

/-- What is serialized for a reference, in this order. -/
def items (r : ρ) : List (Option ρ) :=
  argumentItems (g.arguments r) ++ if g.validType (g.type r) then [] else [none]

noncomputable def build (r : ρ) : List ι → List (SerializedArgument β ι) :=
  (serializeArguments_eq (κ := κ) (g.arguments r)).choose

omit [DecidableEq ρ] in
theorem serializeArguments_build (r : ρ)
    (visit : ρ → Serializing κ β ρ ι (ReferenceModel κ β ι)) :
    serializeArguments visit (g.arguments r) =
      g.build r <$> visitAll visit (argumentItems (g.arguments r)) :=
  (serializeArguments_eq (κ := κ) (g.arguments r)).choose_spec visit

noncomputable def modelOf (r : ρ) (ids : List ι) : ReferenceModel κ β ι :=
  ⟨g.computeId (g.type r) (g.build r ids), g.type r, g.build r ids⟩

variable {g} {depth : ℕ} {r : ρ} {s s' : State κ β ρ ι}

theorem serialize_token (h : s r = .cycleToken) :
    g.serialize (depth + 1) r s = (.error (.cycle [r] false), s) := by
  rw [serialize, bind_apply]
  change (match s r with | .cycleToken => _ | .model m => _ | .empty => _ :
    Serializing κ β ρ ι (ReferenceModel κ β ι)) s = _
  rw [h]
  rfl

theorem serialize_cached {m : ReferenceModel κ β ι} (h : s r = .model m) :
    g.serialize (depth + 1) r s = (.ok m, s) := by
  rw [serialize, bind_apply]
  change (match s r with | .cycleToken => _ | .model m => _ | .empty => _ :
    Serializing κ β ρ ι (ReferenceModel κ β ι)) s = _
  rw [h]
  rfl

variable (g) in
/-- What becomes of a failure while the arguments are serialized. -/
def passed (r : ρ) : Failure ρ → Failure ρ
  | .cycle references complete => raised (g.add r references complete)
  | .other => .other

theorem serialize_empty (h : s r = .empty) :
    g.serialize (depth + 1) r s =
      match visitAll (g.serialize depth) (argumentItems (g.arguments r))
          (Function.update s r .cycleToken) with
        | (.ok ids, s') =>
            if g.validType (g.type r) then
              (.ok (g.modelOf r ids), Function.update s' r (.model (g.modelOf r ids)))
            else (.error .other, s')
        | (.error e, s') => (.error (g.passed r e), s') := by
  rw [serialize, bind_apply]
  change (match s r with | .cycleToken => _ | .model m => _ | .empty => _ :
    Serializing κ β ρ ι (ReferenceModel κ β ι)) s = _
  rw [h]
  simp only [serializeArguments_build]
  rw [bind_apply]
  simp only [tryCatch_apply, bind_apply, map_apply]
  rw [modify_apply]
  rcases hv : visitAll (g.serialize depth) (argumentItems (g.arguments r))
    (Function.update s r .cycleToken) with ⟨(⟨references, complete⟩ | _) | ids, s'⟩ <;>
    simp only [hv]
  · rfl
  · rfl
  · by_cases hvalid : g.validType (g.type r) = true
    · simp only [hvalid, if_true]
      rfl
    · simp only [hvalid, Bool.false_eq_true, if_false]
      rfl

theorem serialize_ok {ids : List ι} (h : s r = .empty)
    (hitems : visitAll (g.serialize depth) (g.items r) (Function.update s r .cycleToken) =
      (.ok ids, s')) :
    g.serialize (depth + 1) r s =
      (.ok (g.modelOf r ids), Function.update s' r (.model (g.modelOf r ids))) := by
  rw [serialize_empty h]
  rw [items, visitAll_append, bind_apply] at hitems
  rcases hl : visitAll (g.serialize depth) (argumentItems (g.arguments r))
    (Function.update s r .cycleToken) with ⟨e | ids', s₁⟩ <;> rw [hl] at hitems
  · cases hitems
  · by_cases hvalid : g.validType (g.type r) = true
    · simp only [hvalid, if_true, bind_apply, visitAll] at hitems ⊢
      cases hitems
      rw [List.append_nil]
    · simp only [hvalid, Bool.false_eq_true, if_false, bind_apply, visitAll] at hitems
      cases hitems

theorem serialize_error {e : Failure ρ} (h : s r = .empty)
    (hitems : visitAll (g.serialize depth) (g.items r) (Function.update s r .cycleToken) =
      (.error e, s')) :
    g.serialize (depth + 1) r s = (.error (g.passed r e), s') := by
  rw [serialize_empty h]
  rw [items, visitAll_append, bind_apply] at hitems
  rcases hl : visitAll (g.serialize depth) (argumentItems (g.arguments r))
    (Function.update s r .cycleToken) with ⟨e | ids', s₁⟩ <;> rw [hl] at hitems
  · cases hitems
    rfl
  · by_cases hvalid : g.validType (g.type r) = true
    · simp only [hvalid, if_true, bind_apply, visitAll] at hitems
      cases hitems
    · simp only [hvalid, Bool.false_eq_true, if_false, bind_apply, visitAll] at hitems ⊢
      cases hitems
      rfl

/-! ## Cycles -/

variable (g)

def Refers (r y : ρ) : Prop := some y ∈ g.items r

/-- A cycle of references is reachable through arguments. -/
def ReachesCycle (r : ρ) : Prop :=
  ∃ y, Relation.ReflTransGen g.Refers r y ∧ Relation.TransGen g.Refers y y

/-- The first reference among the arguments from which a cycle is reachable. -/
def Next (r r' : ρ) : Prop :=
  ∃ l l', g.items r = l ++ some r' :: l' ∧ g.ReachesCycle r' ∧
    ∀ o ∈ l, ∃ y, o = some y ∧ ¬ g.ReachesCycle y

/-- No argument is rejected, unless a cycle is found before. -/
def Orderly : Prop :=
  ∀ r l l', g.items r = l ++ none :: l' → ∃ y, some y ∈ l ∧ g.ReachesCycle y

/-- On the way from a reference to one of those with a token, which cycles were
found through before, or to itself, this is collected on the way back. -/
inductive Closes : Set ρ → ρ → Option (List ρ × Bool) → Prop
  | token {T : Set ρ} {r : ρ} : r ∈ T → Closes T r (some ([r], false))
  | next {T : Set ρ} {r r' : ρ} {o : Option (List ρ × Bool)} : r ∉ T → g.Next r r' →
      Closes (insert r T) r' o → Closes T r (o.bind fun e => g.add r e.1 e.2)

/-- No comparison on the way back from a cycle fails. -/
def Comparable : Prop :=
  ∀ T : Set ρ, (∀ y ∈ T, g.ReachesCycle y) → (∀ y z, y ∈ T → g.Next y z → z ∈ T) →
    ∀ r, ¬ g.Closes T r none

variable {g}

omit [DecidableEq ρ] in
theorem ReachesCycle.of_refers {r y : ρ} (h : g.Refers r y) (hy : g.ReachesCycle y) :
    g.ReachesCycle r := by
  obtain ⟨z, hz, hcycle⟩ := hy
  exact ⟨z, hz.head h, hcycle⟩

omit [DecidableEq ρ] in
theorem ReachesCycle.exists_refers {r : ρ} (h : g.ReachesCycle r) :
    ∃ y, g.Refers r y ∧ g.ReachesCycle y := by
  obtain ⟨z, hz, hcycle⟩ := h
  rcases hz.cases_head with rfl | ⟨y, hy, hyz⟩
  · obtain ⟨y, hy, hback⟩ := Relation.TransGen.head'_iff.mp hcycle
    exact ⟨y, hy, r, hback, hcycle⟩
  · exact ⟨y, hy, z, hyz, hcycle⟩

omit [DecidableEq ρ] in
theorem Next.refers {r r' : ρ} (h : g.Next r r') : g.Refers r r' := by
  obtain ⟨l, l', heq, -, -⟩ := h
  rw [Refers, heq]
  exact List.mem_append_right l List.mem_cons_self

omit [DecidableEq ρ] in
theorem Next.reachesCycle {r r' : ρ} (h : g.Next r r') : g.ReachesCycle r :=
  .of_refers h.refers h.choose_spec.choose_spec.2.1

omit [DecidableEq ρ] in
theorem Next.unique {r a b : ρ} (ha : g.Next r a) (hb : g.Next r b) : a = b := by
  obtain ⟨l, l', heq, hcycle, hl⟩ := ha
  obtain ⟨m, m', heq', hcycle', hm⟩ := hb
  rw [heq] at heq'
  rcases List.append_eq_append_iff.mp heq' with ⟨n, rfl, h⟩ | ⟨n, rfl, h⟩
  · cases n with
    | nil =>
        cases h
        rfl
    | cons o n =>
        cases h
        obtain ⟨y, hy, hnot⟩ := hm _ (List.mem_append_right l List.mem_cons_self)
        cases hy
        exact absurd hcycle hnot
  · cases n with
    | nil =>
        cases h
        rfl
    | cons o n =>
        cases h
        obtain ⟨y, hy, hnot⟩ := hl _ (List.mem_append_right m List.mem_cons_self)
        cases hy
        exact absurd hcycle' hnot

theorem Closes.unique {T : Set ρ} {r : ρ} {o o' : Option (List ρ × Bool)}
    (h : g.Closes T r o) (h' : g.Closes T r o') : o = o' := by
  induction h generalizing o' with
  | token hmem =>
      cases h' with
      | token hmem' => rfl
      | next hnot => exact absurd hmem hnot
  | next hnot hnext hcloses ih =>
      cases h' with
      | token hmem => exact absurd hmem hnot
      | next hnot' hnext' hcloses' =>
          cases hnext.unique hnext'
          rw [ih hcloses']

theorem Closes.reachesCycle {T : Set ρ} (hT : ∀ y ∈ T, g.ReachesCycle y) {r : ρ}
    {o : Option (List ρ × Bool)} (h : g.Closes T r o) : g.ReachesCycle r := by
  cases h with
  | token hmem => exact hT r hmem
  | next hnot hnext hcloses => exact hnext.reachesCycle

omit [DecidableEq ρ] in
theorem Orderly.none_notMem (h : g.Orderly) {r : ρ} (hr : ¬ g.ReachesCycle r) :
    none ∉ g.items r := by
  intro hnone
  obtain ⟨l, l', heq⟩ := List.append_of_mem hnone
  obtain ⟨y, hy, hcycle⟩ := h r l l' heq
  refine hr (.of_refers ?_ hcycle)
  rw [Refers, heq]
  exact List.mem_append_left _ hy

/-- The first element with a property. -/
theorem exists_first {α : Type} {p : α → Prop} : ∀ {l : List α}, (∃ a ∈ l, p a) →
    ∃ l₁ a l₂, l = l₁ ++ a :: l₂ ∧ p a ∧ ∀ b ∈ l₁, ¬ p b
  | [], ⟨_, ha, _⟩ => absurd ha List.not_mem_nil
  | a :: l, h => by
      by_cases ha : p a
      · exact ⟨[], a, l, rfl, ha, fun b hb => absurd hb List.not_mem_nil⟩
      · obtain ⟨b, hb, hp⟩ := h
        have hbl : b ∈ l := (List.mem_cons.mp hb).resolve_left fun heq => ha (heq ▸ hp)
        obtain ⟨l₁, c, l₂, rfl, hc, hl₁⟩ := exists_first ⟨b, hbl, hp⟩
        refine ⟨a :: l₁, c, l₂, rfl, hc, fun d hd => ?_⟩
        rcases List.mem_cons.mp hd with rfl | hd
        · exact ha
        · exact hl₁ d hd

omit [DecidableEq ρ] in
theorem Orderly.exists_next (h : g.Orderly) {r : ρ} (hr : g.ReachesCycle r) :
    ∃ r', g.Next r r' := by
  obtain ⟨y, hy, hcycle⟩ := hr.exists_refers
  obtain ⟨l, o, l', heq, ⟨r', rfl, hr'⟩, hl⟩ :=
    exists_first (p := fun o => ∃ y, o = some y ∧ g.ReachesCycle y) ⟨some y, hy, y, rfl, hcycle⟩
  refine ⟨r', l, l', heq, hr', fun o ho => ?_⟩
  cases o with
  | none =>
      obtain ⟨a, b, rfl⟩ := List.append_of_mem ho
      rw [List.append_assoc, List.cons_append] at heq
      obtain ⟨z, hz, hzcycle⟩ := h r a _ heq
      exact absurd ⟨z, rfl, hzcycle⟩ (hl _ (List.mem_append_left _ hz))
  | some z => exact ⟨z, rfl, fun hz => hl _ ho ⟨z, rfl, hz⟩⟩

/-! ## States -/

variable (g)

/-- The model of a reference, from those of the references in its arguments. -/
def HasModel : ℕ → ρ → ReferenceModel κ β ι → Prop
  | 0, _, _ => False
  | n + 1, r, m => ∃ ids,
      List.Forall₂ (fun o id => ∃ y my, o = some y ∧ HasModel n y my ∧ my.id = id)
        (g.items r) ids ∧
      m = g.modelOf r ids

/-- All models are those of the references, and were made after those they need. -/
structure Good (s : State κ β ρ ι) : Prop where
  hasModel : ∀ y m, s y = .model m → ∃ n, g.HasModel n y m
  closed : ∀ y m, s y = .model m → ∀ z, g.Refers y z → ∃ mz, s z = .model mz

variable {g}

/-- Nothing is changed but that some references have a model now. -/
structure Fills (p : ρ → Prop) (s s' : State κ β ρ ι) : Prop where
  keep : ∀ y, s y ≠ .empty → s' y = s y
  fill : ∀ y, s y = .empty → s' y = .empty ∨ p y ∧ ∃ m, s' y = .model m

namespace Fills

omit [DecidableEq ρ] in
theorem refl (p : ρ → Prop) (s : State κ β ρ ι) : Fills p s s :=
  ⟨fun _ _ => rfl, fun _ h => .inl h⟩

variable {p q : ρ → Prop} {s₁ s₂ s₃ : State κ β ρ ι}

omit [DecidableEq ρ] in
theorem mono (h : Fills p s₁ s₂) (hpq : ∀ y, p y → q y) : Fills q s₁ s₂ :=
  ⟨h.keep, fun y hy => (h.fill y hy).imp_right (And.imp_left (hpq y))⟩

omit [DecidableEq ρ] in
theorem trans (h : Fills p s₁ s₂) (h' : Fills p s₂ s₃) : Fills p s₁ s₃ where
  keep y hy := by rw [h'.keep y (by rwa [h.keep y hy]), h.keep y hy]
  fill y hy := by
    rcases h.fill y hy with hempty | ⟨hp, m, hm⟩
    · exact h'.fill y hempty
    · exact .inr ⟨hp, m, by rw [h'.keep y (by rw [hm]; exact fun h => nomatch h), hm]⟩

omit [DecidableEq ρ] in
theorem token_iff (h : Fills p s₁ s₂) (y : ρ) : s₂ y = .cycleToken ↔ s₁ y = .cycleToken := by
  by_cases hy : s₁ y = .empty
  · rw [hy]
    rcases h.fill y hy with hempty | ⟨-, m, hm⟩
    · rw [hempty]
    · rw [hm]
      exact ⟨fun h => (nomatch h), fun h => (nomatch h)⟩
  · rw [h.keep y hy]

omit [DecidableEq ρ] in
theorem model (h : Fills p s₁ s₂) {y : ρ} {m : ReferenceModel κ β ι} (hm : s₁ y = .model m) :
    s₂ y = .model m := by
  rw [h.keep y (by rw [hm]; exact fun h => nomatch h), hm]

omit [DecidableEq ρ] in
theorem empties (h : Fills p s₁ s₂) : {y | s₂ y = .empty} ⊆ {y | s₁ y = .empty} := by
  intro y hy
  by_contra hne
  exact hne ((h.keep y hne).symm.trans hy)

end Fills

omit [DecidableEq ρ] in
theorem ids_unique {R R' : Option ρ → ι → Prop} (h : ∀ o i i', R o i → R' o i' → i = i') :
    ∀ {l : List (Option ρ)} {ids ids' : List ι}, List.Forall₂ R l ids →
      List.Forall₂ R' l ids' → ids = ids'
  | [], _, _, .nil, .nil => rfl
  | _ :: _, _, _, .cons ho hl, .cons ho' hl' => by
      rw [h _ _ _ ho ho', ids_unique h hl hl']

omit [DecidableEq ρ] in
theorem HasModel.unique : ∀ {n n' : ℕ} {r : ρ} {m m' : ReferenceModel κ β ι},
    g.HasModel n r m → g.HasModel n' r m' → m = m'
  | n + 1, n' + 1, r, _, _, ⟨ids, hids, rfl⟩, ⟨ids', hids', rfl⟩ => by
      have heq : ids = ids' := by
        refine ids_unique ?_ hids hids'
        rintro o i i' ⟨y, my, rfl, hy, rfl⟩ ⟨y', my', heq, hy', rfl⟩
        cases heq
        rw [hy.unique hy']
      rw [heq]

omit [DecidableEq ρ] in
theorem HasModel.exists_modelOf : ∀ {n : ℕ} {r : ρ} {m : ReferenceModel κ β ι},
    g.HasModel n r m → ∃ ids, m = g.modelOf r ids
  | _ + 1, _, _, ⟨ids, _, heq⟩ => ⟨ids, heq⟩

omit [DecidableEq ρ] in
theorem HasModel.succ : ∀ {n : ℕ} {r : ρ} {m : ReferenceModel κ β ι},
    g.HasModel n r m → g.HasModel (n + 1) r m
  | n + 1, r, m, ⟨ids, hids, heq⟩ => by
      refine ⟨ids, hids.imp fun o id h => ?_, heq⟩
      obtain ⟨y, my, ho, hy, hid⟩ := h
      exact ⟨y, my, ho, hy.succ, hid⟩

omit [DecidableEq ρ] in
theorem HasModel.mono {n n' : ℕ} (h : n ≤ n') {r : ρ} {m : ReferenceModel κ β ι}
    (hm : g.HasModel n r m) : g.HasModel n' r m := by
  induction h with
  | refl => exact hm
  | step _ ih => exact ih.succ

omit [DecidableEq ρ] in
theorem HasModel.not_reachesCycle : ∀ {n : ℕ} {r : ρ} {m : ReferenceModel κ β ι},
    g.HasModel n r m → ¬ g.ReachesCycle r
  | n + 1, r, m, ⟨ids, hids, _⟩, hcycle => by
      obtain ⟨y, hy, hycycle⟩ := hcycle.exists_refers
      obtain ⟨i, hi, hmem⟩ := List.getElem_of_mem hy
      have hi' : i < ids.length := hids.length_eq ▸ hi
      obtain ⟨z, mz, hz, hmz, -⟩ := hids.get hi hi'
      rw [List.get_eq_getElem, hmem] at hz
      cases hz
      exact hmz.not_reachesCycle hycycle

theorem Good.update_token {s : State κ β ρ ι} (h : g.Good s) {r : ρ} (hr : s r = .empty) :
    g.Good (Function.update s r .cycleToken) := by
  have hof : ∀ y m, Function.update s r .cycleToken y = .model m → s y = .model m := by
    intro y m hy
    by_cases heq : y = r
    · subst heq
      rw [Function.update_self] at hy
      cases hy
    · rwa [Function.update_of_ne heq] at hy
  refine ⟨fun y m hy => h.hasModel y m (hof y m hy), fun y m hy z hz => ?_⟩
  obtain ⟨mz, hmz⟩ := h.closed y m (hof y m hy) z hz
  refine ⟨mz, ?_⟩
  rw [Function.update_of_ne, hmz]
  rintro rfl
  rw [hr] at hmz
  cases hmz

omit [DecidableEq ρ] in
/-- The ids in the arguments of a reference are those of models. -/
theorem Good.hasModel_modelOf {s : State κ β ρ ι} (h : g.Good s) {r : ρ} {ids : List ι}
    (hids : List.Forall₂ (fun o id => ∃ y m, o = some y ∧ s y = .model m ∧ m.id = id)
      (g.items r) ids) : ∃ n, g.HasModel n r (g.modelOf r ids) := by
  have hcommon : ∀ {l : List (Option ρ)} {ids : List ι},
      List.Forall₂ (fun o id => ∃ y m, o = some y ∧ s y = .model m ∧ m.id = id) l ids →
      ∃ n, List.Forall₂ (fun o id => ∃ y m, o = some y ∧ g.HasModel n y m ∧ m.id = id) l ids := by
    intro l ids hl
    induction hl with
    | nil => exact ⟨0, .nil⟩
    | cons ho _ ih =>
        obtain ⟨y, m, rfl, hm, rfl⟩ := ho
        obtain ⟨n, hn⟩ := h.hasModel y m hm
        obtain ⟨n', hn'⟩ := ih
        refine ⟨max n n', .cons ⟨y, m, rfl, hn.mono (le_max_left n n'), rfl⟩
          (hn'.imp fun o id hid => ?_)⟩
        obtain ⟨z, mz, hz, hmz, hid⟩ := hid
        exact ⟨z, mz, hz, hmz.mono (le_max_right n n'), hid⟩
  obtain ⟨n, hn⟩ := hcommon hids
  exact ⟨n + 1, ids, hn, rfl⟩

/-! ## References without a cycle -/

omit [DecidableEq ρ] in
theorem visitAll_cons (visit : ρ → Serializing κ β ρ ι (ReferenceModel κ β ι)) {y : ρ}
    {m : ReferenceModel κ β ι} {s s₁ : State κ β ρ ι} (l : List (Option ρ))
    (h : visit y s = (.ok m, s₁)) :
    visitAll visit (some y :: l) s = match visitAll visit l s₁ with
      | (.ok ids, s') => (.ok (m.id :: ids), s')
      | (.error e, s') => (.error e, s') := by
  rw [visitAll, bind_apply, h]
  simp only [bind_apply]
  rcases visitAll visit l s₁ with ⟨e | ids, s'⟩ <;> rfl

variable (g)

/-- What serializing does with a reference without a cycle. -/
def Serializes (depth : ℕ) : Prop :=
  ∀ ⦃r : ρ⦄ ⦃s : State κ β ρ ι⦄, ¬ g.ReachesCycle r → g.Good s →
    (∀ t, s t = .cycleToken → g.ReachesCycle t ∨ Relation.TransGen g.Refers t r) →
    Set.ncard {y | s y = .empty} < depth →
    ∃ m s', g.serialize depth r s = (.ok m, s') ∧ s' r = .model m ∧ g.Good s' ∧
      Fills (Relation.ReflTransGen g.Refers r) s s'

variable {g}

variable [Finite ρ]

theorem visitAll_models {depth : ℕ} (ih : g.Serializes depth) {r : ρ} :
    ∀ {l : List (Option ρ)} {s : State κ β ρ ι},
      (∀ o ∈ l, ∃ y, o = some y ∧ ¬ g.ReachesCycle y ∧ g.Refers r y) → g.Good s →
      (∀ t, s t = .cycleToken → g.ReachesCycle t ∨ Relation.ReflTransGen g.Refers t r) →
      Set.ncard {y | s y = .empty} < depth →
      ∃ ids s', visitAll (g.serialize depth) l s = (.ok ids, s') ∧
        List.Forall₂ (fun o id => ∃ y m, o = some y ∧ s' y = .model m ∧ m.id = id) l ids ∧
        g.Good s' ∧ Fills (Relation.TransGen g.Refers r) s s'
  | [], s, _, hgood, _, _ => ⟨[], s, rfl, .nil, hgood, .refl _ s⟩
  | o :: l, s, hl, hgood, htokens, hdepth => by
      obtain ⟨y, rfl, hy, hrefers⟩ := hl o List.mem_cons_self
      obtain ⟨m, s₁, hrun, hm, hgood₁, hfills₁⟩ := ih hy hgood
        (fun t ht => (htokens t ht).imp_right fun h => .tail' h hrefers) hdepth
      obtain ⟨ids, s₂, hrest, hids, hgood₂, hfills₂⟩ := visitAll_models ih
        (fun o ho => hl o (List.mem_cons_of_mem _ ho)) hgood₁
        (fun t ht => htokens t ((hfills₁.token_iff t).mp ht))
        ((Set.ncard_le_ncard hfills₁.empties (Set.toFinite _)).trans_lt hdepth)
      refine ⟨m.id :: ids, s₂, ?_, .cons ⟨y, m, rfl, hfills₂.model hm, rfl⟩ hids, hgood₂,
        (hfills₁.mono fun z hz => .head' hrefers hz).trans hfills₂⟩
      rw [visitAll_cons _ l hrun, hrest]

theorem ncard_update_lt {s : State κ β ρ ι} {r : ρ} {depth : ℕ} (hr : s r = .empty)
    (h : Set.ncard {y | s y = .empty} < depth + 1) :
    Set.ncard {y | Function.update s r .cycleToken y = .empty} < depth := by
  refine (Set.ncard_lt_ncard ?_ (Set.toFinite _)).trans_le (Nat.lt_succ_iff.mp h)
  refine ⟨fun y hy => ?_, fun hsub => ?_⟩
  · by_cases heq : y = r
    · subst heq
      exact hr
    · simpa [Function.update_of_ne heq] using hy
  · have hself := hsub hr
    simp at hself

omit [Finite ρ] in
/-- A reference that found all its arguments gets its model. -/
theorem Good.update_model {s : State κ β ρ ι} (h : g.Good s) {r : ρ} {ids : List ι}
    (hids : List.Forall₂ (fun o id => ∃ y m, o = some y ∧ s y = .model m ∧ m.id = id)
      (g.items r) ids) : g.Good (Function.update s r (.model (g.modelOf r ids))) := by
  have hmodel : ∀ z, (∃ m, s z = .model m) →
      ∃ m, Function.update s r (.model (g.modelOf r ids)) z = .model m := by
    rintro z ⟨m, hm⟩
    by_cases hz : z = r
    · subst hz
      exact ⟨_, Function.update_self ..⟩
    · exact ⟨m, by rw [Function.update_of_ne hz, hm]⟩
  constructor
  · intro y m hy
    by_cases heq : y = r
    · subst heq
      rw [Function.update_self] at hy
      cases hy
      exact h.hasModel_modelOf hids
    · rw [Function.update_of_ne heq] at hy
      exact h.hasModel y m hy
  · intro y m hy z hz
    refine hmodel z ?_
    by_cases heq : y = r
    · subst heq
      obtain ⟨i, hi, hmem⟩ := List.getElem_of_mem hz
      obtain ⟨z', mz, hz', hmz, -⟩ := hids.get hi (hids.length_eq ▸ hi)
      rw [List.get_eq_getElem, hmem] at hz'
      cases hz'
      exact ⟨mz, hmz⟩
    · rw [Function.update_of_ne heq] at hy
      exact h.closed y m hy z hz

theorem serializes (h : ∀ y, ¬ g.ReachesCycle y → none ∉ g.items y) :
    ∀ depth, g.Serializes depth
  | 0 => fun _ _ _ _ _ hdepth => absurd hdepth (Nat.not_lt_zero _)
  | depth + 1 => by
      intro r s hr hgood htokens hdepth
      cases hs : s r with
      | cycleToken =>
          rcases htokens r hs with hcycle | hcycle
          · exact absurd hcycle hr
          · exact absurd ⟨r, .refl, hcycle⟩ hr
      | model m => exact ⟨m, s, serialize_cached hs, hs, hgood, .refl _ s⟩
      | empty =>
          obtain ⟨ids, s', hrun, hids, hgood', hfills⟩ :=
            visitAll_models (serializes h depth) (r := r) (l := g.items r) (fun o ho => by
              cases o with
              | none => exact absurd ho (h r hr)
              | some y => exact ⟨y, rfl, fun hy => hr (.of_refers ho hy), ho⟩)
            (hgood.update_token hs) (fun t ht => by
              by_cases heq : t = r
              · exact .inr (heq ▸ .refl)
              · rw [Function.update_of_ne heq] at ht
                exact (htokens t ht).imp_right Relation.TransGen.to_reflTransGen)
            (ncard_update_lt hs hdepth)
          refine ⟨_, _, serialize_ok hs hrun, Function.update_self .., hgood'.update_model hids,
            fun y hy => ?_, fun y hy => ?_⟩
          · have hne : y ≠ r := fun heq => hy (heq ▸ hs)
            have hkeep := hfills.keep y (by rwa [Function.update_of_ne hne])
            rw [Function.update_of_ne hne, hkeep, Function.update_of_ne hne]
          · by_cases heq : y = r
            · subst heq
              exact .inr ⟨.refl, _, Function.update_self ..⟩
            · rw [Function.update_of_ne heq]
              refine (hfills.fill y (by rwa [Function.update_of_ne heq])).imp_right ?_
              exact And.imp_left Relation.TransGen.to_reflTransGen

/-! ## References with a cycle -/

omit [Finite ρ] in
theorem passed_raised (r : ρ) (o : Option (List ρ × Bool)) :
    g.passed r (raised o) = raised (o.bind fun e => g.add r e.1 e.2) := by
  cases o <;> rfl

omit [DecidableEq ρ] [Finite ρ] in
theorem Next.reflTransGen_iff {r r' : ρ} (h : g.Next r r') {y : ρ} :
    Relation.ReflTransGen g.Next r y ↔ y = r ∨ Relation.ReflTransGen g.Next r' y := by
  constructor
  · intro hy
    rcases hy.cases_head with rfl | ⟨z, hz, hzy⟩
    · exact .inl rfl
    · exact .inr (h.unique hz ▸ hzy)
  · rintro (rfl | hy)
    · exact .refl
    · exact hy.head h

theorem serialize_cycle (h : g.Orderly) : ∀ (depth : ℕ) {r : ρ} {s : State κ β ρ ι},
    g.ReachesCycle r → g.Good s → (∀ t, s t = .cycleToken → g.ReachesCycle t) →
    (∀ y z, s y = .cycleToken → g.Next y z → s z = .cycleToken ∨ z = r) →
    Set.ncard {y | s y = .empty} < depth →
    ∃ o s', g.Closes {y | s y = .cycleToken} r o ∧
      g.serialize depth r s = (.error (raised o), s') ∧ g.Good s' ∧
      ∀ y, s' y = .cycleToken ↔ s y = .cycleToken ∨ Relation.ReflTransGen g.Next r y
  | 0, _, _, _, _, _, _, hdepth => absurd hdepth (Nat.not_lt_zero _)
  | depth + 1, r, s, hr, hgood, htokens, hclosed, hdepth => by
      cases hs : s r with
      | cycleToken =>
          refine ⟨_, s, .token hs, serialize_token hs, hgood, fun y => ⟨.inl, ?_⟩⟩
          rintro (hy | hy)
          · exact hy
          · induction hy with
            | refl => exact hs
            | tail _ hnext ih => exact (hclosed _ _ ih hnext).elim id fun heq => heq ▸ hs
      | model m =>
          obtain ⟨n, hn⟩ := hgood.hasModel r m hs
          exact absurd hr hn.not_reachesCycle
      | empty =>
          obtain ⟨r', hnext⟩ := h.exists_next hr
          obtain ⟨l, l', heq, hr', hl⟩ := id hnext
          have htoken (y : ρ) : Function.update s r .cycleToken y = .cycleToken ↔
              y = r ∨ s y = .cycleToken := by
            by_cases hy : y = r
            · subst hy
              simp
            · simp [hy]
          have htokens' (t : ρ) (ht : Function.update s r .cycleToken t = .cycleToken) :
              g.ReachesCycle t :=
            ((htoken t).mp ht).elim (fun heq => heq ▸ hr) (htokens t)
          obtain ⟨ids, s₁, hrun, -, hgood₁, hfills⟩ :=
            visitAll_models (serializes (fun _ => h.none_notMem) depth) (r := r) (l := l)
              (fun o ho => by
                obtain ⟨y, rfl, hy⟩ := hl o ho
                exact ⟨y, rfl, hy, by rw [Refers, heq]; exact List.mem_append_left _ ho⟩)
              (hgood.update_token hs) (fun t ht => .inl (htokens' t ht))
              (ncard_update_lt hs hdepth)
          have htoken₁ (y : ρ) : s₁ y = .cycleToken ↔ y = r ∨ s y = .cycleToken :=
            (hfills.token_iff y).trans (htoken y)
          obtain ⟨o, s₂, hcloses, hrun', hgood₂, htoken₂⟩ := serialize_cycle h depth hr' hgood₁
            (fun t ht => htokens' t ((hfills.token_iff t).mp ht))
            (fun y z hy hz => by
              rcases (htoken₁ y).mp hy with rfl | hy
              · exact .inr (hz.unique hnext)
              · exact .inl ((htoken₁ z).mpr (hclosed y z hy hz).symm))
            ((Set.ncard_le_ncard hfills.empties (Set.toFinite _)).trans_lt
              (ncard_update_lt hs hdepth))
          have hitems : visitAll (g.serialize depth) (g.items r)
              (Function.update s r .cycleToken) = (.error (raised o), s₂) := by
            rw [heq, visitAll_append, bind_apply, hrun]
            simp only [visitAll, bind_apply, hrun']
          have hset : {y | s₁ y = .cycleToken} = insert r {y | s y = .cycleToken} :=
            Set.ext htoken₁
          have hnot : r ∉ {y | s y = .cycleToken} := fun (hmem : s r = .cycleToken) => by
            rw [hs] at hmem
            cases hmem
          refine ⟨_, s₂, .next hnot hnext (hset ▸ hcloses),
            (serialize_error hs hitems).trans (by rw [passed_raised]), hgood₂, fun y => ?_⟩
          rw [htoken₂, htoken₁, hnext.reflTransGen_iff]
          tauto

/-! ## What is kept -/

omit [DecidableEq ρ] [Finite ρ] in
theorem visitAll_frame {visit : ρ → Serializing κ β ρ ι (ReferenceModel κ β ι)} {y : ρ}
    (h : ∀ r s, s y ≠ .empty → (visit r s).2 y = s y) :
    ∀ (l : List (Option ρ)) (s : State κ β ρ ι), s y ≠ .empty → (visitAll visit l s).2 y = s y
  | [], _, _ => rfl
  | none :: _, _, _ => rfl
  | some r :: l, s, hs => by
      have hr := h r s hs
      rw [visitAll, bind_apply]
      rcases hv : visit r s with ⟨e | m, s₁⟩ <;> rw [hv] at hr
      · exact hr
      · have hl := visitAll_frame h l s₁ (by rwa [show s₁ y = s y from hr])
        simp only [bind_apply]
        rcases hv' : visitAll visit l s₁ with ⟨e | ids, s₂⟩ <;> rw [hv'] at hl <;>
          exact hl.trans hr

omit [Finite ρ] in
theorem serialize_frame {y : ρ} : ∀ (depth : ℕ) (r : ρ) (s : State κ β ρ ι),
    s y ≠ .empty → (g.serialize depth r s).2 y = s y
  | 0, _, _, _ => rfl
  | depth + 1, r, s, hy => by
      cases hs : s r with
      | cycleToken => rw [serialize_token hs]
      | model m => rw [serialize_cached hs]
      | empty =>
          have hne : y ≠ r := fun heq => hy (heq ▸ hs)
          have hkeep := visitAll_frame (serialize_frame depth) (g.items r)
            (Function.update s r .cycleToken) (by rwa [Function.update_of_ne hne])
          rw [Function.update_of_ne hne] at hkeep
          rcases hv : visitAll (g.serialize depth) (g.items r)
            (Function.update s r .cycleToken) with ⟨e | ids, s'⟩ <;> rw [hv] at hkeep
          · rw [serialize_error hs hv]
            exact hkeep
          · rw [serialize_ok hs hv]
            exact (Function.update_of_ne hne ..).trans hkeep

omit [DecidableEq ρ] in
theorem visitAll_congr {visit visit' : ρ → Serializing κ β ρ ι (ReferenceModel κ β ι)}
    {depth : ℕ}
    (heq : ∀ r s, Set.ncard {y | s y = .empty} < depth → visit r s = visit' r s)
    (hempties : ∀ r s, {y | (visit r s).2 y = .empty} ⊆ {y | s y = .empty}) :
    ∀ (l : List (Option ρ)) (s : State κ β ρ ι), Set.ncard {y | s y = .empty} < depth →
      visitAll visit l s = visitAll visit' l s
  | [], _, _ => rfl
  | none :: _, _, _ => rfl
  | some r :: l, s, hs => by
      have hr := hempties r s
      rw [visitAll, visitAll, bind_apply, bind_apply, ← heq r s hs]
      rcases hv : visit r s with ⟨e | m, s₁⟩
      · rfl
      · rw [hv] at hr
        have hs₁ := (Set.ncard_le_ncard hr (Set.toFinite _)).trans_lt hs
        simp only [bind_apply, visitAll_congr heq hempties l s₁ hs₁]

/-- A depth that is more than the number of references without a model or a token
is never exceeded. -/
theorem serialize_depth : ∀ {depth depth' : ℕ} {r : ρ} {s : State κ β ρ ι},
    Set.ncard {y | s y = .empty} < depth → depth ≤ depth' →
    g.serialize depth r s = g.serialize depth' r s
  | 0, _, _, _, hs, _ => absurd hs (Nat.not_lt_zero _)
  | depth + 1, 0, _, _, _, hle => absurd hle (Nat.not_succ_le_zero _)
  | depth + 1, depth' + 1, r, s, hs, hle => by
      cases hr : s r with
      | cycleToken => rw [serialize_token hr, serialize_token hr]
      | model m => rw [serialize_cached hr, serialize_cached hr]
      | empty =>
          have hempties (r : ρ) (s : State κ β ρ ι) :
              {y | (g.serialize depth r s).2 y = .empty} ⊆ {y | s y = .empty} := by
            intro y hy
            by_contra hne
            exact hne ((serialize_frame depth r s hne).symm.trans hy)
          have hitems := visitAll_congr
            (fun r s hs => serialize_depth (r := r) hs (Nat.le_of_succ_le_succ hle)) hempties
            (g.items r) _ (ncard_update_lt hr hs)
          rcases hv : visitAll (g.serialize depth) (g.items r)
            (Function.update s r .cycleToken) with ⟨e | ids, s'⟩
          · rw [serialize_error hr hv, serialize_error hr (hitems.symm.trans hv)]
          · rw [serialize_ok hr hv, serialize_ok hr (hitems.symm.trans hv)]

omit [DecidableEq ρ] [Finite ρ] in
theorem visitAll_none {visit : ρ → Serializing κ β ρ ι (ReferenceModel κ β ι)}
    {l : List (Option ρ)} (h : none ∈ l) {s s' : State κ β ρ ι} {ids : List ι} :
    visitAll visit l s ≠ (.ok ids, s') := by
  obtain ⟨a, b, rfl⟩ := List.append_of_mem h
  rw [visitAll_append, bind_apply]
  rcases visitAll visit a s with ⟨e | ids', s₁⟩
  · exact fun heq => nomatch heq
  · exact fun heq => nomatch heq

/-! ## Main result -/

section Run

omit [Finite ρ]

variable [Fintype ρ]

variable (g) in
def run (r : ρ) (s : State κ β ρ ι) :
    Except (Failure ρ) (ReferenceModel κ β ι) × State κ β ρ ι :=
  g.serialize (Fintype.card ρ + 1) r s

variable (g) in
/-- The references after these were serialized, with whatever outcome. -/
def after (rs : List ρ) : State κ β ρ ι := rs.foldl (fun s r => (g.run r s).2) fun _ => .empty

inductive Outcome (κ β ι : Type) where
  | model (m : ReferenceModel κ β ι)
  | cycle
  | failed

def outcome : Except (Failure ρ) (ReferenceModel κ β ι) → Outcome κ β ι
  | .ok m => .model m
  | .error (.cycle _ _) => .cycle
  | .error .other => .failed

variable (g)

/-- One model for every reference that is reachable, with equal ids for equal types
and arguments. -/
structure Serialized (r : ρ) (s : State κ β ρ ι) (o : Outcome κ β ι) : Prop where
  returned : ∃ m, o = .model m ∧ s r = .model m
  models : ∀ y, (∃ m, s y = .model m) ↔ Relation.ReflTransGen g.Refers r y
  ids : ∀ y y' m m', s y = .model m → s y' = .model m' →
    (m.id = m'.id ↔ g.type y = g.type y' ∧ m.args = m'.args)

/-- Exactly the cycles are detected, and failures change no later outcome. -/
structure Correct : Prop where
  cycle : ∀ r, outcome (g.run r (g.after [])).1 = .cycle ↔ g.ReachesCycle r
  serialized : ∀ r, ¬ g.ReachesCycle r →
    (∀ y, Relation.ReflTransGen g.Refers r y → none ∉ g.items y) →
    g.Serialized r (g.run r (g.after [])).2 (outcome (g.run r (g.after [])).1)
  retry : ∀ rs r, outcome (g.run r (g.after rs)).1 = outcome (g.run r (g.after [])).1

/-- What holds between serializations: tokens are left on the ways into cycles. -/
structure Sound (s : State κ β ρ ι) : Prop where
  good : g.Good s
  tokens : ∀ t, s t = .cycleToken → g.ReachesCycle t
  closed : ∀ y z, s y = .cycleToken → g.Next y z → s z = .cycleToken

variable {g}

omit [DecidableEq ρ] in
theorem ncard_empties (s : State κ β ρ ι) :
    Set.ncard {y | s y = .empty} < Fintype.card ρ + 1 := by
  refine Nat.lt_succ_iff.mpr ((Set.ncard_le_ncard (Set.subset_univ _) (Set.toFinite _)).trans ?_)
  rw [Set.ncard_univ, Nat.card_eq_fintype_card]

theorem after_nil (y : ρ) : g.after [] y = .empty := rfl

theorem sound_empty : g.Sound (g.after []) := by
  refine ⟨⟨fun y m h => ?_, fun y m h => ?_⟩, fun y h => ?_, fun y z h => ?_⟩ <;>
    rw [after_nil] at h <;> cases h

theorem run_model (h : g.Orderly) {r : ρ} (hr : ¬ g.ReachesCycle r) {s : State κ β ρ ι}
    (hs : g.Sound s) : ∃ m s', g.run r s = (.ok m, s') ∧ s' r = .model m ∧ g.Good s' ∧
      Fills (Relation.ReflTransGen g.Refers r) s s' :=
  serializes (fun _ => h.none_notMem) _ hr hs.good (fun t ht => .inl (hs.tokens t ht))
    (ncard_empties s)

theorem run_cycle (h : g.Orderly) {r : ρ} (hr : g.ReachesCycle r) {s : State κ β ρ ι}
    (hs : g.Sound s) : ∃ o s', g.Closes {y | s y = .cycleToken} r o ∧
      g.run r s = (.error (raised o), s') ∧ g.Good s' ∧
      ∀ y, s' y = .cycleToken ↔ s y = .cycleToken ∨ Relation.ReflTransGen g.Next r y :=
  serialize_cycle h _ hr hs.good hs.tokens (fun y z hy hz => .inl (hs.closed y z hy hz))
    (ncard_empties s)

theorem after_append (rs : List ρ) (r : ρ) : g.after (rs ++ [r]) = (g.run r (g.after rs)).2 := by
  rw [after, List.foldl_append]
  rfl

/-- After any serializations there are tokens on the ways from those that failed. -/
theorem after_sound (h : g.Orderly) (rs : List ρ) : g.Sound (g.after rs) ∧
    ∀ y, g.after rs y = .cycleToken ↔
      ∃ r ∈ rs, g.ReachesCycle r ∧ Relation.ReflTransGen g.Next r y := by
  induction rs using List.reverseRecOn with
  | nil =>
      refine ⟨sound_empty, fun y => ⟨fun h => ?_, fun h => ?_⟩⟩
      · rw [after_nil] at h
        cases h
      · obtain ⟨r, hr, -⟩ := h
        cases hr
  | append_singleton rs r ih =>
      obtain ⟨hsound, htokens⟩ := ih
      rw [after_append]
      by_cases hr : g.ReachesCycle r
      · obtain ⟨o, s', -, hrun, hgood, htoken⟩ := run_cycle h hr hsound
        rw [hrun]
        refine ⟨⟨hgood, fun t ht => ?_, fun y z hy hz => ?_⟩, fun y => ?_⟩
        · rcases (htoken t).mp ht with ht | ht
          · exact hsound.tokens t ht
          · rcases ht.cases_tail with rfl | ⟨z, -, hz⟩
            · exact hr
            · exact hz.choose_spec.choose_spec.2.1
        · rcases (htoken y).mp hy with hy | hy
          · exact (htoken z).mpr (.inl (hsound.closed y z hy hz))
          · exact (htoken z).mpr (.inr (hy.tail hz))
        · rw [htoken, htokens]
          constructor
          · rintro (⟨q, hq, hy⟩ | hy)
            · exact ⟨q, List.mem_append_left _ hq, hy⟩
            · exact ⟨r, List.mem_append_right _ List.mem_cons_self, hr, hy⟩
          · rintro ⟨q, hq, hcycle, hy⟩
            rcases List.mem_append.mp hq with hq | hq
            · exact .inl ⟨q, hq, hcycle, hy⟩
            · cases List.mem_singleton.mp hq
              exact .inr hy
      · obtain ⟨m, s', hrun, -, hgood, hfills⟩ := run_model h hr hsound
        rw [hrun]
        refine ⟨⟨hgood, fun t ht => hsound.tokens t ((hfills.token_iff t).mp ht),
          fun y z hy hz => (hfills.token_iff z).mpr
            (hsound.closed y z ((hfills.token_iff y).mp hy) hz)⟩, fun y => ?_⟩
        rw [hfills.token_iff, htokens]
        constructor
        · rintro ⟨q, hq, hy⟩
          exact ⟨q, List.mem_append_left _ hq, hy⟩
        · rintro ⟨q, hq, hcycle, hy⟩
          rcases List.mem_append.mp hq with hq | hq
          · exact ⟨q, hq, hcycle, hy⟩
          · cases List.mem_singleton.mp hq
            exact absurd hcycle hr

omit [DecidableEq ρ] [Fintype ρ] in
theorem outcome_raised {o : Option (List ρ × Bool)} :
    outcome (κ := κ) (β := β) (ι := ι) (.error (raised o)) = .cycle ↔ o ≠ none := by
  cases o with
  | none => exact ⟨fun h => (nomatch h), fun h => absurd rfl h⟩
  | some e => exact ⟨fun _ h => (nomatch h), fun _ => rfl⟩

theorem outcome_of_cycle (h : g.Orderly) (hcomparable : g.Comparable) {r : ρ}
    (hr : g.ReachesCycle r) {s : State κ β ρ ι} (hs : g.Sound s) :
    outcome (g.run r s).1 = .cycle := by
  obtain ⟨o, s', hcloses, hrun, -, -⟩ := run_cycle h hr hs
  rw [hrun]
  refine outcome_raised.mpr fun heq => ?_
  exact hcomparable _ hs.tokens hs.closed r (heq ▸ hcloses)

theorem outcome_of_model (h : g.Orderly) {r : ρ} (hr : ¬ g.ReachesCycle r) {s : State κ β ρ ι}
    (hs : g.Sound s) : ∃ m n, outcome (g.run r s).1 = .model m ∧ g.HasModel n r m := by
  obtain ⟨m, s', hrun, hm, hgood, -⟩ := run_model h hr hs
  obtain ⟨n, hn⟩ := hgood.hasModel r m hm
  exact ⟨m, n, by rw [hrun]; rfl, hn⟩

theorem correct_of_orderly (hid : ∀ t args t' args', g.computeId t args = g.computeId t' args' →
    t = t' ∧ args = args') (h : g.Orderly) (hcomparable : g.Comparable) : g.Correct where
  cycle r := by
    refine ⟨fun hcycle => ?_, fun hr => outcome_of_cycle h hcomparable hr sound_empty⟩
    by_contra hr
    obtain ⟨m, n, hm, -⟩ := outcome_of_model h hr sound_empty
    exact nomatch hcycle.symm.trans hm
  serialized r hr _ := by
    obtain ⟨m, s', hrun, hm, hgood, hfills⟩ := run_model h hr sound_empty
    rw [hrun]
    refine ⟨⟨m, rfl, hm⟩, fun y => ⟨?_, fun hy => ?_⟩, fun y y' my my' hy hy' => ?_⟩
    · rintro ⟨my, hy⟩
      rcases hfills.fill y rfl with hempty | ⟨hreach, -⟩
      · cases hempty.symm.trans hy
      · exact hreach
    · induction hy with
      | refl => exact ⟨m, hm⟩
      | tail _ hz ih =>
          obtain ⟨my, hy⟩ := ih
          exact hgood.closed _ my hy _ hz
    · obtain ⟨n, hn⟩ := hgood.hasModel y my hy
      obtain ⟨n', hn'⟩ := hgood.hasModel y' my' hy'
      obtain ⟨ids, rfl⟩ := hn.exists_modelOf
      obtain ⟨ids', rfl⟩ := hn'.exists_modelOf
      constructor
      · exact hid _ _ _ _
      · rintro ⟨htype, hargs⟩
        exact congrArg₂ g.computeId htype hargs
  retry rs r := by
    have hs := (after_sound h rs).1
    by_cases hr : g.ReachesCycle r
    · rw [outcome_of_cycle h hcomparable hr hs, outcome_of_cycle h hcomparable hr sound_empty]
    · obtain ⟨m, n, hm, hn⟩ := outcome_of_model h hr hs
      obtain ⟨m', n', hm', hn'⟩ := outcome_of_model h hr sound_empty
      rw [hm, hm', hn.unique hn']

/-- Tried again, a reference that failed for another reason would report a cycle. -/
theorem Correct.none_notMem (h : g.Correct) {r : ρ} (hr : ¬ g.ReachesCycle r) :
    none ∉ g.items r := by
  intro hnone
  rcases hv : visitAll (g.serialize (Fintype.card ρ)) (g.items r)
    (Function.update (g.after []) r .cycleToken) with ⟨e | ids, s'⟩
  · have hrun : g.run r (g.after []) = (.error (g.passed r e), s') :=
      serialize_error (after_nil r) hv
    have htoken : g.after [r] r = .cycleToken := by
      have hkeep := visitAll_frame (y := r) (serialize_frame (g := g) (Fintype.card ρ))
        (g.items r) (Function.update (g.after []) r .cycleToken)
        (by rw [Function.update_self]; exact fun heq => nomatch heq)
      rw [hv, Function.update_self] at hkeep
      rw [show g.after [r] = (g.run r (g.after [])).2 from rfl, hrun]
      exact hkeep
    have hretry := h.retry [r] r
    rw [show g.run r (g.after [r]) = _ from serialize_token htoken] at hretry
    exact hr ((h.cycle r).mp hretry.symm)
  · exact visitAll_none hnone hv

theorem Correct.orderly (h : g.Correct) : g.Orderly := by
  intro r l l' heq
  by_contra hnot
  obtain ⟨a, o, b, ha, rfl, hfirst⟩ := exists_first (p := fun o : Option ρ => o = none)
    ⟨none, List.mem_append_right l (List.mem_singleton_self none), rfl⟩
  have hitems : g.items r = a ++ none :: (b ++ l') := by
    rw [heq, ← List.cons_append, ← List.append_assoc, ← ha, List.append_assoc,
      List.singleton_append]
  have hone : ∀ o ∈ a, ∃ y, o = some y ∧ ¬ g.ReachesCycle y ∧ g.Refers r y := by
    intro o ho
    obtain ⟨y, rfl⟩ := Option.ne_none_iff_exists'.mp (hfirst o ho)
    have hmem : some y ∈ l ++ [none] := ha ▸ List.mem_append_left _ ho
    have hl : some y ∈ l := (List.mem_append.mp hmem).resolve_right fun hy => by
      cases List.mem_singleton.mp hy
    refine ⟨y, rfl, fun hy => hnot ⟨y, hl, hy⟩, ?_⟩
    rw [Refers, hitems]
    exact List.mem_append_left _ ho
  have hr : g.ReachesCycle r := by
    by_contra hr
    refine h.none_notMem hr ?_
    rw [hitems]
    exact List.mem_append_right a List.mem_cons_self
  obtain ⟨ids, s', hrun, -⟩ :=
    visitAll_models (serializes (fun _ => h.none_notMem) (Fintype.card ρ)) hone
      (sound_empty.good.update_token (after_nil r)) (fun t ht => by
        by_cases hr : t = r
        · exact .inr (hr ▸ .refl)
        · rw [Function.update_of_ne hr, after_nil] at ht
          cases ht) (ncard_update_lt (after_nil r) (ncard_empties _))
  have hfail : g.run r (g.after []) = (.error .other, s') := by
    refine serialize_error (e := .other) (after_nil r) ?_
    rw [hitems, visitAll_append, bind_apply, hrun]
    rfl
  have hcycle := (h.cycle r).mpr hr
  rw [hfail] at hcycle
  cases hcycle

theorem Correct.comparable (h : g.Correct) : g.Comparable := by
  classical
  intro T hT hclosed r hcloses
  have hr := hcloses.reachesCycle hT
  obtain ⟨hsound, htokens⟩ := after_sound h.orderly (Finset.univ.filter (· ∈ T)).toList
  have hset : {y | g.after (Finset.univ.filter (· ∈ T)).toList y = .cycleToken} = T := by
    ext y
    refine (htokens y).trans ⟨?_, fun hy => ⟨y, by simpa using hy, hT y hy, .refl⟩⟩
    rintro ⟨q, hq, -, hy⟩
    have hqT : q ∈ T := by simpa using hq
    induction hy with
    | refl => exact hqT
    | tail _ hnext ih => exact hclosed _ _ ih hnext
  obtain ⟨o, s', hcloses', hrun, -⟩ := run_cycle h.orderly hr hsound
  rw [hset] at hcloses'
  obtain rfl := hcloses.unique hcloses'
  have hretry := h.retry (Finset.univ.filter (· ∈ T)).toList r
  rw [hrun, (h.cycle r).mpr hr] at hretry
  exact outcome_raised.mp hretry rfl

end Run

end ReferenceGraph

/-! ## Examples -/

mutual

/-- What the id of a reference is computed from. -/
inductive Hashed where
  | reference (type : String) (args : List HashedArgument)

inductive HashedArgument where
  | plain (name : String) (a : ℕ)
  | reference (name : String) (id : Hashed)
  | json (name : String) (value : Tree Text (Option ℕ))
  | mutatedJson (name : String) (value : Tree Text (Option ℕ)) (references : List (Text × Hashed))

end

def hashedArgument : SerializedArgument ℕ Hashed → HashedArgument
  | .plain name a => .plain name a
  | .reference name id => .reference name id
  | .json name value => .json name value
  | .mutatedJson name value references => .mutatedJson name value references.items

theorem hashedArgument_injective : Function.Injective hashedArgument := by
  intro a b h
  cases a <;> cases b <;> injection h
  case plain hname ha => rw [hname, ha]
  case reference hname hid => rw [hname, hid]
  case json hname hvalue => rw [hname, hvalue]
  case mutatedJson name value references name' value' references' hname hvalue hitems =>
    obtain ⟨items, nodup⟩ := references
    obtain ⟨items', nodup'⟩ := references'
    cases hitems
    rw [hname, hvalue]

/-- References of one class, that are equal if they are the same. -/
def referencesOf {ρ : Type} [DecidableEq ρ] (arguments : ρ → List (String × Argument ℕ ρ)) :
    ReferenceGraph String ℕ ρ Hashed where
  type _ := "std::Environment"
  validType _ := true
  arguments
  eq a b := some (decide (a = b))
  computeId type args := .reference type (args.map hashedArgument)

theorem computeId_injective {ρ : Type} [DecidableEq ρ]
    {arguments : ρ → List (String × Argument ℕ ρ)} (t : String)
    (args : List (SerializedArgument ℕ Hashed)) (t' : String)
    (args' : List (SerializedArgument ℕ Hashed))
    (h : (referencesOf arguments).computeId t args = (referencesOf arguments).computeId t' args') :
    t = t' ∧ args = args' := by
  injection h with ht hargs
  exact ⟨ht, List.map_injective_iff.mpr hashedArgument_injective hargs⟩

/-- The first of them has the second in a list. -/
def nested : ReferenceGraph String ℕ Bool Hashed :=
  referencesOf fun r =>
    if r then [("name", .plain 3)]
    else [("parts", .container (.list [.leaf (.reference (some true))]) true)]

open ReferenceGraph

theorem nested_refers : ∀ r y, some y ∈ nested.items r → r = false ∧ y = true := by
  decide

/-- A list with an object in it that is no JSON. -/
def unserializable : ReferenceGraph String ℕ Unit Hashed :=
  referencesOf fun _ => [("values", .container (.list [.leaf (.value (some 0))]) false)]

end ReferenceSerialization

end Inmanta
