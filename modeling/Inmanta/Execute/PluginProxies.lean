import Inmanta.Lib.Simulation

/-!
# What plugin code sees of the model

Plugin code gets no value of the model itself but a proxy, and what it reads
through a proxy it gets as a proxy again. Each proxy has a context, which is
passed on from proxy to proxy and decides whether a reference may be handed
out.

`Session` is what one plugin holds and has seen so far. `PlaceSession` is the
same thing told without contexts: there an object is a place in an argument,
and a reference is handed out if no attribute was read on the way from the
argument to it, or if references were allowed on the object that it is read
from. `proxies_refine` says that plugin code cannot tell the two apart.
-/

namespace Inmanta

namespace PluginProxies

/-! ## Values and proxies -/

inductive Value (ι ρ π : Type) where
  | none
  | unknown
  | str (text : String)
  | prim (value : π)
  | reference (r : ρ)
  | dict (items : List (String × Value ι ρ π))
  | seq (elements : List (Value ι ρ π))
  | callable
  | instance_ (i : ι)

inductive ProxyMode where
  | plugin
  | export_
  deriving DecidableEq

structure ProxyContext where
  path : String
  validated : Bool
  allowReferenceValues : Option Bool

def ProxyContext.new (path : String) : ProxyContext := ⟨path, true, none⟩

def ProxyContext.nested (c : ProxyContext) (relativePath : String) : ProxyContext :=
  ⟨c.path ++ relativePath, c.validated, none⟩

def ProxyContext.allowReferences (c : ProxyContext) : ProxyContext :=
  ⟨c.path, c.validated, some true⟩

def ProxyContext.shouldAllowReferences (mode : ProxyMode) (c : ProxyContext) : Bool :=
  match mode with
  | .export_ => true
  | .plugin => c.allowReferenceValues.getD c.validated

/-- The exceptions that plugin code gets. -/
inductive Stop where
  | attributeError
  | indexError
  | keyError
  | typeError
  | runtimeException
  | stopIteration
  | unknownException
  | unexpectedReference (path : String)
  deriving DecidableEq

inductive Target (ι ρ π : Type) where
  | value (v : Value ι ρ π)
  /-- An `IteratorProxy`: its enumerator, and whether it goes over a sequence. -/
  | iterator (id : Nat) (sequence : Bool)

structure Proxy (ι ρ π : Type) where
  target : Target ι ρ π
  context : ProxyContext

/-- What plugin code is given: a value of its own domain, or an object. -/
inductive Given (ρ π ω : Type) where
  | none
  | str (text : String)
  | prim (value : π)
  | reference (r : ρ)
  | object (o : ω)
  deriving DecidableEq

section

variable {ι ρ π : Type}

def Value.isReference : Value ι ρ π → Bool
  | .reference _ => true
  | _ => false

def Value.isInstance : Value ι ρ π → Bool
  | .instance_ _ => true
  | _ => false

/-- `DynamicProxy.return_value`. -/
def returnValue : Value ι ρ π → ProxyContext → Except Stop (Given ρ π (Proxy ι ρ π))
  | .none, _ => .ok .none
  | .unknown, _ => .error .unknownException
  | .str text, _ => .ok (.str text)
  | .prim value, _ => .ok (.prim value)
  | .reference r, _ => .ok (.reference r)
  | .dict items, c => .ok (.object ⟨.value (.dict items), c⟩)
  | .seq elements, c => .ok (.object ⟨.value (.seq elements), c⟩)
  | .callable, c => .ok (.object ⟨.value .callable, c⟩)
  | .instance_ i, c =>
      .ok (.object ⟨.value (.instance_ i), if c.validated then ⟨c.path, false, none⟩ else c⟩)

/-- `DynamicProxy._return_value`. -/
def returnNested (mode : ProxyMode) (c : ProxyContext) (value : Value ι ρ π)
    (relativePath : String) : Except Stop (Given ρ π (Proxy ι ρ π)) :=
  if value.isReference && !c.shouldAllowReferences mode then
    .error (.unexpectedReference (c.nested relativePath).path)
  else returnValue value (c.nested relativePath)

/-! ## Reading through a proxy -/

inductive Access where
  | attr (name : String)
  | index (i : Int)
  | key (k : String)
  deriving DecidableEq

def Access.isAttr : Access → Bool
  | .attr _ => true
  | _ => false

/-- What the values of the model are asked for. -/
structure Model (ι ρ π : Type) where
  getAttribute : ι → String → Option (Value ι ρ π)
  repr : String → String

def Access.relativePath (model : Model ι ρ π) : Access → String
  | .attr name => "." ++ name
  | .index i => "[" ++ toString i ++ "]"
  | .key k => "[" ++ model.repr k ++ "]"

/-- `xs[i]`, where a negative index counts from the end. -/
def getIndex {α : Type} (xs : List α) (i : Int) : Option α :=
  if 0 ≤ i then xs[i.toNat]?
  else if 0 ≤ xs.length + i then xs[(xs.length + i).toNat]?
  else none

def orStop {α : Type} (e : Stop) : Option α → Except Stop α
  | some x => .ok x
  | none => .error e

def read (model : Model ι ρ π) : Value ι ρ π → Access → Except Stop (Value ι ρ π)
  | .instance_ i, .attr name => orStop .attributeError (model.getAttribute i name)
  | .seq elements, .index i => orStop .indexError (getIndex elements i)
  | .seq _, .key _ => .error .runtimeException
  | .dict items, .key k => orStop .keyError (items.lookup k)
  | .dict _, .index _ => .error .runtimeException
  | _, .attr _ => .error .attributeError
  | _, _ => .error .typeError

def readTarget (model : Model ι ρ π) : Target ι ρ π → Access → Except Stop (Value ι ρ π)
  | .value v, a => read model v a
  | .iterator _ _, .attr _ => .error .attributeError
  | .iterator _ _, _ => .error .typeError

/-- What iterating over a value goes through. -/
def Value.elements? : Value ι ρ π → Option (List (Value ι ρ π))
  | .seq elements => some elements
  | .dict items => some (items.map fun item => .str item.1)
  | _ => .none

def Value.isSequence : Value ι ρ π → Bool
  | .seq _ => true
  | _ => false

end

/-! ## What plugin code holds and has seen -/

/-- The objects that plugin code holds, the iterators behind them, and all that it has been
given so far, objects by their number. -/
structure Session (ρ π ω κ : Type) where
  mode : ProxyMode
  objects : List ω
  iterators : List κ
  seen : List (Except Stop (Given ρ π Nat))

inductive Action where
  | access (object : Nat) (a : Access)
  | iter (object : Nat)
  | next (object : Nat)
  /-- `inmanta.plugins.allow_reference_values`. -/
  | allowReferences (object : Nat)
  | setMode (mode : ProxyMode)
  deriving DecidableEq

namespace Session

variable {ρ π ω κ : Type}

def empty : Session ρ π ω κ := ⟨.plugin, [], [], []⟩

def see (s : Session ρ π ω κ) (x : Except Stop (Given ρ π Nat)) : Session ρ π ω κ :=
  { s with seen := s.seen ++ [x] }

def receive (s : Session ρ π ω κ) : Except Stop (Given ρ π ω) → Session ρ π ω κ
  | .error e => s.see (.error e)
  | .ok .none => s.see (.ok .none)
  | .ok (.str text) => s.see (.ok (.str text))
  | .ok (.prim value) => s.see (.ok (.prim value))
  | .ok (.reference r) => s.see (.ok (.reference r))
  | .ok (.object o) =>
      { s with objects := s.objects ++ [o]
               seen := s.seen ++ [.ok (.object s.objects.length)] }

end Session

section

variable {ι ρ π : Type}

/-- The iterators are enumerators: the next index, and what is left. -/
abbrev ProxySession (ι ρ π : Type) := Session ρ π (Proxy ι ρ π) (Nat × List (Value ι ρ π))

namespace ProxySession

/-- The plugin is called. -/
def start (arguments : List (String × Value ι ρ π)) : ProxySession ι ρ π :=
  arguments.foldl (fun s (name, value) => s.receive (returnValue value (.new name))) .empty

def access (model : Model ι ρ π) (s : ProxySession ι ρ π) (p : Proxy ι ρ π) (a : Access) :
    ProxySession ι ρ π :=
  match readTarget model p.target a with
  | .ok value => s.receive (returnNested s.mode p.context value (a.relativePath model))
  | .error e => s.receive (.error e)

/-- `__iter__`. -/
def iter (s : ProxySession ι ρ π) (k : Nat) (p : Proxy ι ρ π) : ProxySession ι ρ π :=
  match p.target with
  | .iterator _ _ => s.see (.ok (.object k))
  | .value v =>
      match v.elements? with
      | some elements =>
          { s with iterators := s.iterators ++ [(0, elements)] }.receive
            (.ok (.object ⟨.iterator s.iterators.length v.isSequence, p.context⟩))
      | none => s.receive (.error .typeError)

/-- `__next__`. -/
def next (model : Model ι ρ π) (s : ProxySession ι ρ π) (p : Proxy ι ρ π) : ProxySession ι ρ π :=
  match p.target with
  | .value _ => s.receive (.error .typeError)
  | .iterator id sequence =>
      match s.iterators[id]? with
      | some (i, value :: rest) =>
          { s with iterators := s.iterators.set id (i + 1, rest) }.receive
            (returnNested s.mode p.context value
              (if sequence then (Access.index i).relativePath model else ""))
      | _ => s.receive (.error .stopIteration)

def step (model : Model ι ρ π) (s : ProxySession ι ρ π) : Action → Option (ProxySession ι ρ π)
  | .access k a => s.objects[k]?.map fun p => access model s p a
  | .iter k => s.objects[k]?.map fun p => iter s k p
  | .next k => s.objects[k]?.map fun p => next model s p
  | .allowReferences k => s.objects[k]?.map fun p =>
      s.receive (.ok (.object ⟨p.target, p.context.allowReferences⟩))
  | .setMode mode => some { s with mode := mode }

end ProxySession

/-! ## The same with places -/

/-- A place in the model: an argument, and what is read from it, one after the other. -/
structure Place (ι ρ π : Type) where
  argument : String × Value ι ρ π
  path : List Access

namespace Place

def after (q : Place ι ρ π) (a : Access) : Place ι ρ π := ⟨q.argument, q.path ++ [a]⟩

def value (model : Model ι ρ π) (q : Place ι ρ π) : Except Stop (Value ι ρ π) :=
  q.path.foldlM (read model) q.argument.2

def text (model : Model ι ρ π) (q : Place ι ρ π) : String :=
  q.path.foldl (fun text a => text ++ a.relativePath model) q.argument.1

/-- No attribute is read on the way: the place is in the argument itself. -/
def inside (q : Place ι ρ π) : Bool := q.path.all fun a => !a.isAttr

end Place

/-- An object is a place, with references allowed on it or not, or an iterator over it. -/
structure Held (ι ρ π : Type) where
  place : Place ι ρ π
  allowed : Bool
  iterator : Option Nat

abbrev PlaceSession (ι ρ π : Type) := Session ρ π (Held ι ρ π) (Place ι ρ π × Nat)

namespace PlaceSession

def give (q : Place ι ρ π) : Value ι ρ π → Except Stop (Given ρ π (Held ι ρ π))
  | .none => .ok .none
  | .unknown => .error .unknownException
  | .str text => .ok (.str text)
  | .prim value => .ok (.prim value)
  | .reference r => .ok (.reference r)
  | _ => .ok (.object ⟨q, false, none⟩)

/-- What is at a place, for one who may read it from an object. -/
def reveal (model : Model ι ρ π) (mode : ProxyMode) (allowed : Bool) (q : Place ι ρ π) :
    Except Stop (Given ρ π (Held ι ρ π)) :=
  match q.value model with
  | .error e => .error e
  | .ok v =>
      if v.isReference && !(mode == .export_ || allowed || q.inside) then
        .error (.unexpectedReference (q.text model))
      else give q v

def start (arguments : List (String × Value ι ρ π)) : PlaceSession ι ρ π :=
  arguments.foldl (fun s argument => s.receive (give ⟨argument, []⟩ argument.2)) .empty

def access (model : Model ι ρ π) (s : PlaceSession ι ρ π) (h : Held ι ρ π) (a : Access) :
    PlaceSession ι ρ π :=
  match h.iterator with
  | none => s.receive (reveal model s.mode h.allowed (h.place.after a))
  | some _ => s.receive (.error (if a.isAttr then .attributeError else .typeError))

def iter (model : Model ι ρ π) (s : PlaceSession ι ρ π) (k : Nat) (h : Held ι ρ π) :
    PlaceSession ι ρ π :=
  match h.iterator, h.place.value model with
  | some _, _ => s.see (.ok (.object k))
  | none, .ok (.seq _) | none, .ok (.dict _) =>
      { s with iterators := s.iterators ++ [(h.place, 0)] }.receive
        (.ok (.object ⟨h.place, h.allowed, some s.iterators.length⟩))
  | none, _ => s.receive (.error .typeError)

/-- The `n`-th element is what is read at `n`. -/
def next (model : Model ι ρ π) (s : PlaceSession ι ρ π) (h : Held ι ρ π) : PlaceSession ι ρ π :=
  match h.iterator with
  | none => s.receive (.error .typeError)
  | some id =>
      match s.iterators[id]? with
      | none => s.receive (.error .stopIteration)
      | some (q, n) =>
          let advanced := { s with iterators := s.iterators.set id (q, n + 1) }
          match q.value model with
          | .ok (.seq elements) =>
              if n < elements.length then
                advanced.receive (reveal model s.mode h.allowed (q.after (.index n)))
              else s.receive (.error .stopIteration)
          | .ok (.dict items) =>
              match items[n]? with
              | some (k, _) => advanced.receive (.ok (.str k))
              | none => s.receive (.error .stopIteration)
          | _ => s.receive (.error .stopIteration)

def step (model : Model ι ρ π) (s : PlaceSession ι ρ π) : Action → Option (PlaceSession ι ρ π)
  | .access k a => s.objects[k]?.map fun h => access model s h a
  | .iter k => s.objects[k]?.map fun h => iter model s k h
  | .next k => s.objects[k]?.map fun h => next model s h
  | .allowReferences k => s.objects[k]?.map fun h =>
      s.receive (.ok (.object ⟨h.place, true, h.iterator⟩))
  | .setMode mode => some { s with mode := mode }

end PlaceSession

/-! ## The two agree -/

/-- The proxy stands for the object: its context tells the path, whether the place is in the
argument itself, and whether references were allowed. -/
structure Stands (model : Model ι ρ π) (iterators : List (Place ι ρ π × Nat)) (p : Proxy ι ρ π)
    (h : Held ι ρ π) : Prop where
  path : p.context.path = h.place.text model
  allowed : p.context.allowReferenceValues = if h.allowed then some true else none
  target : ∃ v, h.place.value model = .ok v ∧
    p.context.validated = (h.place.inside && !v.isInstance) ∧
    ((p.target = .value v ∧ h.iterator = none) ∨
      ∃ id elements, p.target = .iterator id v.isSequence ∧ h.iterator = some id ∧
        v.elements? = some elements ∧ iterators[id]?.map Prod.fst = some h.place)

/-- The iterator has gone through as many of the elements as its number says. -/
def IteratorStands (model : Model ι ρ π) (it : Nat × List (Value ι ρ π))
    (it' : Place ι ρ π × Nat) : Prop :=
  ∃ v elements, it'.1.value model = .ok v ∧ v.elements? = some elements ∧
    it = (it'.2, elements.drop it'.2)

structure Agree (model : Model ι ρ π) (s : ProxySession ι ρ π) (t : PlaceSession ι ρ π) :
    Prop where
  mode : s.mode = t.mode
  seen : s.seen = t.seen
  objects : List.Forall₂ (Stands model t.iterators) s.objects t.objects
  iterators : List.Forall₂ (IteratorStands model) s.iterators t.iterators

/-- The same is given, up to what stands for an object. -/
inductive GivenAlike (R : Proxy ι ρ π → Held ι ρ π → Prop) :
    Except Stop (Given ρ π (Proxy ι ρ π)) → Except Stop (Given ρ π (Held ι ρ π)) → Prop where
  | error (e : Stop) : GivenAlike R (.error e) (.error e)
  | none : GivenAlike R (.ok .none) (.ok .none)
  | str (text : String) : GivenAlike R (.ok (.str text)) (.ok (.str text))
  | prim (value : π) : GivenAlike R (.ok (.prim value)) (.ok (.prim value))
  | reference (r : ρ) : GivenAlike R (.ok (.reference r)) (.ok (.reference r))
  | object {p : Proxy ι ρ π} {h : Held ι ρ π} (hph : R p h) :
      GivenAlike R (.ok (.object p)) (.ok (.object h))

variable {model : Model ι ρ π}

theorem Stands.mono {its its' : List (Place ι ρ π × Nat)} {p : Proxy ι ρ π} {h : Held ι ρ π}
    (hits : ∀ (id : Nat) q, its[id]?.map Prod.fst = some q → its'[id]?.map Prod.fst = some q)
    (hs : Stands model its p h) : Stands model its' p h := by
  obtain ⟨hpath, hallowed, v, hv, hvalidated, htarget⟩ := hs
  refine ⟨hpath, hallowed, v, hv, hvalidated, ?_⟩
  rcases htarget with htarget | ⟨id, elements, htarget, hiterator, helements, hid⟩
  · exact .inl htarget
  · exact .inr ⟨id, elements, htarget, hiterator, helements, hits id _ hid⟩

theorem Agree.see {s : ProxySession ι ρ π} {t : PlaceSession ι ρ π} (h : Agree model s t)
    (x : Except Stop (Given ρ π Nat)) : Agree model (s.see x) (t.see x) :=
  ⟨h.mode, congrArg (· ++ [x]) h.seen, h.objects, h.iterators⟩

theorem Agree.receive {s : ProxySession ι ρ π} {t : PlaceSession ι ρ π} (h : Agree model s t)
    {x : Except Stop (Given ρ π (Proxy ι ρ π))} {y : Except Stop (Given ρ π (Held ι ρ π))}
    (hxy : GivenAlike (Stands model t.iterators) x y) :
    Agree model (s.receive x) (t.receive y) := by
  cases hxy with
  | error e => exact h.see _
  | none => exact h.see _
  | str text => exact h.see _
  | prim value => exact h.see _
  | reference r => exact h.see _
  | object hph =>
      refine ⟨h.mode, ?_, forall₂_concat h.objects hph, h.iterators⟩
      change s.seen ++ [.ok (.object s.objects.length)] =
        t.seen ++ [.ok (.object t.objects.length)]
      rw [h.seen, h.objects.length_eq]

namespace Place

theorem value_after (q : Place ι ρ π) (a : Access) :
    (q.after a).value model = (q.value model).bind fun v => read model v a := by
  unfold value after
  rw [List.foldlM_append]
  simp only [List.foldlM_cons, List.foldlM_nil, bind_pure]
  rfl

theorem text_after (q : Place ι ρ π) (a : Access) :
    (q.after a).text model = q.text model ++ a.relativePath model := by
  unfold text after
  rw [List.foldl_append]
  rfl

theorem inside_after (q : Place ι ρ π) (a : Access) :
    (q.after a).inside = (q.inside && !a.isAttr) := by
  unfold inside after
  rw [List.all_append]
  simp

end Place

theorem orStop_eq_ok {α : Type} {e : Stop} {x : Option α} {y : α} (h : orStop e x = .ok y) :
    x = some y := by
  cases x with
  | none => cases h
  | some x => exact congrArg some (Except.ok.inj h)

/-- Attributes are read from instances, and only they are. -/
theorem isAttr_of_read {v w : Value ι ρ π} {a : Access} (h : read model v a = .ok w) :
    a.isAttr = v.isInstance := by
  unfold read at h
  split at h
  · rfl
  · rfl
  · cases h
  · rfl
  · cases h
  · cases h
  · cases h

/-- A value is given alike if the context tells where it is. -/
theorem givenAlike_give {its : List (Place ι ρ π × Nat)} {c : ProxyContext} {q : Place ι ρ π}
    {v : Value ι ρ π} (hv : q.value model = .ok v) (hpath : c.path = q.text model)
    (hvalidated : c.validated = q.inside) (hallowed : c.allowReferenceValues = none) :
    GivenAlike (Stands model its) (returnValue v c) (PlaceSession.give q v) := by
  cases v with
  | none => exact .none
  | unknown => exact .error _
  | str text => exact .str text
  | prim value => exact .prim value
  | reference r => exact .reference r
  | dict items =>
      refine .object ⟨hpath, hallowed, _, hv, ?_, .inl ⟨rfl, rfl⟩⟩
      rw [hvalidated]
      exact (Bool.and_true _).symm
  | seq elements =>
      refine .object ⟨hpath, hallowed, _, hv, ?_, .inl ⟨rfl, rfl⟩⟩
      rw [hvalidated]
      exact (Bool.and_true _).symm
  | callable =>
      refine .object ⟨hpath, hallowed, _, hv, ?_, .inl ⟨rfl, rfl⟩⟩
      rw [hvalidated]
      exact (Bool.and_true _).symm
  | instance_ i =>
      have hfalse : (q.inside && !(Value.instance_ i : Value ι ρ π).isInstance) = false :=
        Bool.and_false _
      refine .object ?_
      by_cases hc : c.validated = true
      · rw [if_pos hc]
        exact ⟨hpath, rfl, _, hv, hfalse.symm, .inl ⟨rfl, rfl⟩⟩
      · rw [if_neg hc]
        exact ⟨hpath, hallowed, _, hv, (Bool.eq_false_iff.mpr hc).trans hfalse.symm,
          .inl ⟨rfl, rfl⟩⟩

/-- What is read from an object is handed out alike. -/
theorem givenAlike_reveal {its : List (Place ι ρ π × Nat)} {c : ProxyContext} {h : Held ι ρ π}
    {mode : ProxyMode} {v w : Value ι ρ π} {a : Access} (hpath : c.path = h.place.text model)
    (hallowed : c.allowReferenceValues = if h.allowed then some true else none)
    (hv : h.place.value model = .ok v)
    (hvalidated : c.validated = (h.place.inside && !v.isInstance))
    (hread : read model v a = .ok w) :
    GivenAlike (Stands model its) (returnNested mode c w (a.relativePath model))
      (PlaceSession.reveal model mode h.allowed (h.place.after a)) := by
  have hw : (h.place.after a).value model = .ok w := by
    rw [Place.value_after, hv]
    exact hread
  have hin : c.validated = (h.place.after a).inside := by
    rw [hvalidated, Place.inside_after, isAttr_of_read hread]
  have htext : (c.nested (a.relativePath model)).path = (h.place.after a).text model := by
    rw [Place.text_after, ← hpath]
    rfl
  have hshould : c.shouldAllowReferences mode =
      (mode == .export_ || h.allowed || (h.place.after a).inside) := by
    unfold ProxyContext.shouldAllowReferences
    rw [hallowed, ← hin]
    cases mode with
    | export_ => rfl
    | plugin =>
        cases h.allowed with
        | true => rfl
        | false => rfl
  unfold returnNested PlaceSession.reveal
  simp only [hw, ← hshould]
  split
  · rw [htext]
    exact .error _
  · exact givenAlike_give hw htext hin rfl

theorem agree_start (arguments : List (String × Value ι ρ π)) :
    Agree model (ProxySession.start arguments) (PlaceSession.start arguments) := by
  have hempty : Agree model (.empty : ProxySession ι ρ π) .empty := ⟨rfl, rfl, .nil, .nil⟩
  unfold ProxySession.start PlaceSession.start
  generalize (Session.empty : ProxySession ι ρ π) = s at hempty ⊢
  generalize (Session.empty : PlaceSession ι ρ π) = t at hempty ⊢
  induction arguments generalizing s t with
  | nil => exact hempty
  | cons argument arguments ih =>
      exact ih _ _ (hempty.receive (givenAlike_give rfl rfl rfl rfl))

theorem Agree.access {s : ProxySession ι ρ π} {t : PlaceSession ι ρ π} (h : Agree model s t)
    {p : Proxy ι ρ π} {o : Held ι ρ π} (hpo : Stands model t.iterators p o) (a : Access) :
    Agree model (s.access model p a) (t.access model o a) := by
  obtain ⟨hpath, hallowed, v, hv, hvalidated, htarget⟩ := hpo
  unfold ProxySession.access PlaceSession.access
  rcases htarget with ⟨htarget, hiterator⟩ | ⟨id, elements, htarget, hiterator, -, -⟩
  · have hreadTarget : readTarget model (.value v) a = read model v a := rfl
    rw [htarget, hiterator, hreadTarget]
    cases hread : read model v a with
    | error e =>
        have hw : (o.place.after a).value model = .error e := by
          rw [Place.value_after, hv]
          exact hread
        unfold PlaceSession.reveal
        rw [hw]
        exact h.receive (.error e)
    | ok w =>
        refine h.receive ?_
        rw [← h.mode]
        exact givenAlike_reveal hpath hallowed hv hvalidated hread
  · rw [htarget, hiterator]
    cases a with
    | attr name => exact h.receive (.error _)
    | index i => exact h.receive (.error _)
    | key k => exact h.receive (.error _)

theorem Agree.addIterator {s : ProxySession ι ρ π} {t : PlaceSession ι ρ π} (h : Agree model s t)
    {it : Nat × List (Value ι ρ π)} {it' : Place ι ρ π × Nat} (hit : IteratorStands model it it') :
    Agree model { s with iterators := s.iterators ++ [it] }
      { t with iterators := t.iterators ++ [it'] } := by
  refine ⟨h.mode, h.seen, h.objects.imp fun _ _ => Stands.mono fun id q hq => ?_,
    forall₂_concat h.iterators hit⟩
  obtain ⟨y, hy, rfl⟩ := Option.map_eq_some_iff.mp hq
  obtain ⟨hlt, -⟩ := List.getElem?_eq_some_iff.mp hy
  rw [List.getElem?_append_left hlt, hy]
  rfl

theorem Agree.setIterator {s : ProxySession ι ρ π} {t : PlaceSession ι ρ π} (h : Agree model s t)
    {id n m : Nat} {q : Place ι ρ π} (hid : t.iterators[id]? = some (q, n))
    {it : Nat × List (Value ι ρ π)} (hit : IteratorStands model it (q, m)) :
    Agree model { s with iterators := s.iterators.set id it }
      { t with iterators := t.iterators.set id (q, m) } := by
  refine ⟨h.mode, h.seen, h.objects.imp fun _ _ => Stands.mono fun j r hr => ?_,
    forall₂_set h.iterators hit id⟩
  by_cases hj : id = j
  · subst hj
    rw [hid] at hr
    obtain ⟨hlt, -⟩ := List.getElem?_eq_some_iff.mp hid
    rw [List.getElem?_set_self hlt]
    exact hr
  · rw [List.getElem?_set_ne hj]
    exact hr

theorem Agree.iter {s : ProxySession ι ρ π} {t : PlaceSession ι ρ π} (h : Agree model s t)
    {p : Proxy ι ρ π} {o : Held ι ρ π} (hpo : Stands model t.iterators p o) (k : Nat) :
    Agree model (s.iter k p) (t.iter model k o) := by
  obtain ⟨hpath, hallowed, v, hv, hvalidated, htarget⟩ := hpo
  unfold ProxySession.iter PlaceSession.iter
  rcases htarget with ⟨htarget, hiterator⟩ | ⟨id, elements, htarget, hiterator, -, -⟩
  · have hnew : ∀ elements, v.elements? = some elements → Agree model
        (Session.receive { s with iterators := s.iterators ++ [(0, elements)] }
          (.ok (.object ⟨.iterator s.iterators.length v.isSequence, p.context⟩)))
        (Session.receive { t with iterators := t.iterators ++ [(o.place, 0)] }
          (.ok (.object ⟨o.place, o.allowed, some t.iterators.length⟩))) := by
      intro elements helements
      have hstands : IteratorStands model (0, elements) (o.place, 0) :=
        ⟨v, elements, hv, helements, rfl⟩
      refine (h.addIterator hstands).receive (.object ?_)
      rw [h.iterators.length_eq]
      refine ⟨hpath, hallowed, v, hv, hvalidated, .inr ⟨_, elements, rfl, rfl, helements, ?_⟩⟩
      rw [List.getElem?_concat_length]
      rfl
    rw [htarget, hiterator, hv]
    cases v with
    | none => exact h.receive (.error _)
    | unknown => exact h.receive (.error _)
    | str text => exact h.receive (.error _)
    | prim value => exact h.receive (.error _)
    | reference r => exact h.receive (.error _)
    | callable => exact h.receive (.error _)
    | instance_ i => exact h.receive (.error _)
    | dict items => exact hnew _ rfl
    | seq elements => exact hnew _ rfl
  · rw [htarget, hiterator]
    exact h.see _

theorem getIndex_ofNat {α : Type} (xs : List α) (n : Nat) : getIndex xs (n : Int) = xs[n]? := by
  unfold getIndex
  rw [if_pos (Int.natCast_nonneg n), Int.toNat_natCast]

/-- Both are at the same element, which is the one that is read at the number of the iterator. -/
theorem Agree.next {s : ProxySession ι ρ π} {t : PlaceSession ι ρ π} (h : Agree model s t)
    {p : Proxy ι ρ π} {o : Held ι ρ π} (hpo : Stands model t.iterators p o) :
    Agree model (s.next model p) (t.next model o) := by
  obtain ⟨hpath, hallowed, v, hv, hvalidated, htarget⟩ := hpo
  unfold ProxySession.next PlaceSession.next
  rcases htarget with ⟨htarget, hiterator⟩ | ⟨id, elements, htarget, hiterator, helements, hid⟩
  · rw [htarget, hiterator]
    exact h.receive (.error _)
  rw [htarget, hiterator]
  obtain ⟨⟨q, n⟩, hget, hq⟩ := Option.map_eq_some_iff.mp hid
  obtain rfl : q = o.place := hq
  rcases bothOrNone_getElem? h.iterators id with ⟨-, hnone⟩ | ⟨it, it', hit, hit', hstands⟩
  · cases hget.symm.trans hnone
  obtain rfl := Option.some.inj (hget.symm.trans hit')
  obtain ⟨v', elements', hv', helements', rfl⟩ := hstands
  obtain rfl := Except.ok.inj (hv.symm.trans hv')
  obtain rfl := Option.some.inj (helements.symm.trans helements')
  have hadvance : ∀ {x : Value ι ρ π} {rest : List (Value ι ρ π)}, elements.drop n = x :: rest →
      Agree model { s with iterators := s.iterators.set id (n + 1, rest) }
        { t with iterators := t.iterators.set id (o.place, n + 1) } := by
    intro x rest hdrop
    have hrest : elements.drop (n + 1) = rest := by
      rw [← List.drop_drop, hdrop]
      rfl
    have hstands : IteratorStands model (n + 1, rest) (o.place, n + 1) :=
      ⟨v, elements, hv, helements, congrArg (Prod.mk _) hrest.symm⟩
    exact h.setIterator hget hstands
  simp only [hit, hget, hv]
  cases v with
  | none => cases helements
  | unknown => cases helements
  | str text => cases helements
  | prim value => cases helements
  | reference r => cases helements
  | callable => cases helements
  | instance_ i => cases helements
  | dict items =>
      obtain rfl := Option.some.inj helements
      cases hn : items[n]? with
      | none =>
          have hdrop : (items.map fun item => (Value.str item.1 : Value ι ρ π)).drop n = [] := by
            rw [List.drop_eq_nil_iff, List.length_map]
            exact List.getElem?_eq_none_iff.mp hn
          simp only [hdrop, hn]
          exact h.receive (.error _)
      | some item =>
          obtain ⟨hlt, hitem⟩ := List.getElem?_eq_some_iff.mp hn
          have hdrop : (items.map fun item => (Value.str item.1 : Value ι ρ π)).drop n =
              .str item.1 :: (items.map fun item => .str item.1).drop (n + 1) := by
            rw [List.drop_eq_getElem_cons (by rw [List.length_map]; exact hlt), List.getElem_map,
              hitem]
          simp only [hdrop, hn]
          exact (hadvance hdrop).receive (.str _)
  | seq elements =>
      obtain rfl := Option.some.inj helements
      by_cases hlt : n < elements.length
      · have hdrop : elements.drop n = elements[n] :: elements.drop (n + 1) :=
          List.drop_eq_getElem_cons hlt
        have hread : read model (.seq elements) (.index n) = .ok elements[n] := by
          change orStop .indexError (getIndex elements n) = _
          rw [getIndex_ofNat, List.getElem?_eq_getElem hlt]
          rfl
        simp only [hdrop, hlt, if_true]
        refine (hadvance hdrop).receive ?_
        rw [← h.mode]
        exact givenAlike_reveal hpath hallowed hv hvalidated hread
      · have hdrop : elements.drop n = [] := by
          rw [List.drop_eq_nil_iff]
          omega
        simp only [hdrop, hlt, if_false]
        exact h.receive (.error _)

theorem simulates (model : Model ι ρ π) :
    Simulates (Agree model) (ProxySession.step model) (PlaceSession.step model) := by
  intro s t a h
  cases a with
  | access k a =>
      exact (bothOrNone_getElem? h.objects k).map fun p o hpo => h.access hpo a
  | iter k => exact (bothOrNone_getElem? h.objects k).map fun p o hpo => h.iter hpo k
  | next k => exact (bothOrNone_getElem? h.objects k).map fun p o hpo => h.next hpo
  | allowReferences k =>
      refine (bothOrNone_getElem? h.objects k).map fun p o hpo => ?_
      obtain ⟨hpath, -, htarget⟩ := hpo
      exact h.receive (.object ⟨hpath, rfl, htarget⟩)
  | setMode mode => exact .inr ⟨_, _, rfl, rfl, rfl, h.seen, h.objects, h.iterators⟩

/-- The reference is in the value itself, in its elements or in theirs: no attribute of an
instance is needed to get to it. -/
inductive Value.Contains : Value ι ρ π → ρ → Prop where
  | self (r : ρ) : Contains (.reference r) r
  | element {elements : List (Value ι ρ π)} {v : Value ι ρ π} {r : ρ} (hv : v ∈ elements)
      (hr : Contains v r) : Contains (.seq elements) r
  | item {items : List (String × Value ι ρ π)} {k : String} {v : Value ι ρ π} {r : ρ}
      (hv : (k, v) ∈ items) (hr : Contains v r) : Contains (.dict items) r

theorem mem_of_getIndex {α : Type} {xs : List α} {i : Int} {x : α} (h : getIndex xs i = some x) :
    x ∈ xs := by
  unfold getIndex at h
  split at h
  · exact List.mem_of_getElem? h
  split at h
  · exact List.mem_of_getElem? h
  · cases h

theorem mem_of_lookup {α : Type} {items : List (String × α)} {k : String} {x : α}
    (h : items.lookup k = some x) : (k, x) ∈ items := by
  induction items with
  | nil => cases h
  | cons item items ih =>
      obtain ⟨k', y⟩ := item
      rw [List.lookup_cons] at h
      split at h
      · rename_i heq
        obtain rfl := eq_of_beq heq
        obtain rfl := Option.some.inj h
        exact List.mem_cons_self
      · exact List.mem_cons_of_mem _ (ih h)

theorem contains_of_read {v w : Value ι ρ π} {a : Access} {r : ρ} (ha : a.isAttr = false)
    (hread : read model v a = .ok w) (hr : w.Contains r) : v.Contains r := by
  unfold read at hread
  split at hread
  · cases ha
  · exact .element (mem_of_getIndex (orStop_eq_ok hread)) hr
  · cases hread
  · exact .item (mem_of_lookup (orStop_eq_ok hread)) hr
  · cases hread
  · cases hread
  · cases hread

theorem contains_of_path {path : List Access} {v w : Value ι ρ π} {r : ρ}
    (hpath : ∀ a ∈ path, a.isAttr = false) (hw : path.foldlM (read model) v = .ok w)
    (hr : w.Contains r) : v.Contains r := by
  induction path generalizing v with
  | nil =>
      obtain rfl := Except.ok.inj hw
      exact hr
  | cons a path ih =>
      rw [List.foldlM_cons] at hw
      cases hread : read model v a with
      | error e =>
          rw [hread] at hw
          cases hw
      | ok x =>
          rw [hread] at hw
          exact contains_of_read (hpath a List.mem_cons_self) hread
            (ih (fun b hb => hpath b (List.mem_cons_of_mem _ hb)) hw)

/-- References are allowed on no object, and those that were handed out are in the arguments. -/
structure Unasked (arguments : List (String × Value ι ρ π)) (t : PlaceSession ι ρ π) : Prop where
  mode : t.mode = .plugin
  objects : ∀ o ∈ t.objects, o.allowed = false ∧ o.place.argument ∈ arguments
  iterators : ∀ it ∈ t.iterators, it.1.argument ∈ arguments
  seen : ∀ r, .ok (.reference r) ∈ t.seen → ∃ argument ∈ arguments, argument.2.Contains r

variable {arguments : List (String × Value ι ρ π)}

theorem Unasked.receive {t : PlaceSession ι ρ π} (h : Unasked arguments t)
    {x : Except Stop (Given ρ π (Held ι ρ π))}
    (hobject : ∀ o, x = .ok (.object o) → o.allowed = false ∧ o.place.argument ∈ arguments)
    (hreference : ∀ r, x = .ok (.reference r) → ∃ argument ∈ arguments, argument.2.Contains r) :
    Unasked arguments (t.receive x) := by
  have hsee : ∀ y : Except Stop (Given ρ π Nat),
      (∀ r, y = .ok (.reference r) → ∃ argument ∈ arguments, argument.2.Contains r) →
      ∀ r, .ok (.reference r) ∈ t.seen ++ [y] →
        ∃ argument ∈ arguments, argument.2.Contains r := by
    intro y hy r hr
    rcases List.mem_append.mp hr with hr | hr
    · exact h.seen r hr
    · exact hy r (List.mem_singleton.mp hr).symm
  unfold Session.receive
  split
  · exact ⟨h.mode, h.objects, h.iterators, hsee _ fun r hr => by cases hr⟩
  · exact ⟨h.mode, h.objects, h.iterators, hsee _ fun r hr => by cases hr⟩
  · exact ⟨h.mode, h.objects, h.iterators, hsee _ fun r hr => by cases hr⟩
  · exact ⟨h.mode, h.objects, h.iterators, hsee _ fun r hr => by cases hr⟩
  · rename_i r
    refine ⟨h.mode, h.objects, h.iterators, hsee _ fun r' hr => ?_⟩
    cases hr
    exact hreference r rfl
  · rename_i o
    refine ⟨h.mode, fun o' ho => ?_, h.iterators, hsee _ fun r hr => by cases hr⟩
    rcases List.mem_append.mp ho with ho | ho
    · exact h.objects o' ho
    · obtain rfl := List.mem_singleton.mp ho
      exact hobject o' rfl

theorem Unasked.fail {t : PlaceSession ι ρ π} (h : Unasked arguments t) (e : Stop) :
    Unasked arguments (t.receive (.error e)) :=
  h.receive (fun o ho => by cases ho) fun r hr => by cases hr

theorem give_inv {q : Place ι ρ π} {v : Value ι ρ π} :
    (∀ o, PlaceSession.give q v = .ok (.object o) → o = ⟨q, false, none⟩) ∧
    ∀ r, PlaceSession.give q v = .ok (.reference r) → v = .reference r := by
  refine ⟨fun o ho => ?_, fun r hr => ?_⟩
  · unfold PlaceSession.give at ho
    split at ho
    all_goals cases ho
    rfl
  · unfold PlaceSession.give at hr
    split at hr
    all_goals cases hr
    rfl

theorem Unasked.reveal {t : PlaceSession ι ρ π} (h : Unasked arguments t) {q : Place ι ρ π}
    (hq : q.argument ∈ arguments) :
    Unasked arguments (t.receive (PlaceSession.reveal model t.mode false q)) := by
  cases hv : q.value model with
  | error e =>
      unfold PlaceSession.reveal
      rw [hv]
      exact h.fail e
  | ok v =>
      unfold PlaceSession.reveal
      simp only [hv]
      split
      · exact h.fail _
      rename_i hshould
      refine h.receive (fun o ho => ?_) fun r hr => ?_
      · obtain rfl := give_inv.1 o ho
        exact ⟨rfl, hq⟩
      · obtain rfl := give_inv.2 r hr
        have hinside : q.inside = true := by
          rw [h.mode] at hshould
          simpa [Value.isReference] using hshould
        refine ⟨_, hq, contains_of_path (fun a ha => ?_) hv (.self r)⟩
        simpa using List.all_eq_true.mp hinside a ha

theorem unasked_start (arguments : List (String × Value ι ρ π)) :
    Unasked arguments (PlaceSession.start arguments) := by
  have hempty : Unasked arguments (.empty : PlaceSession ι ρ π) :=
    ⟨rfl, fun o ho => absurd ho List.not_mem_nil, fun it hit => absurd hit List.not_mem_nil,
      fun r hr => absurd hr List.not_mem_nil⟩
  have hfold : ∀ (rest : List (String × Value ι ρ π)) (t : PlaceSession ι ρ π),
      (∀ argument ∈ rest, argument ∈ arguments) → Unasked arguments t →
      Unasked arguments (rest.foldl (fun s argument =>
        s.receive (PlaceSession.give ⟨argument, []⟩ argument.2)) t) := by
    intro rest
    induction rest with
    | nil => exact fun t _ ht => ht
    | cons argument rest ih =>
        intro t hrest ht
        have hmem := hrest argument List.mem_cons_self
        refine ih _ (fun x hx => hrest x (List.mem_cons_of_mem _ hx)) (ht.receive ?_ ?_)
        · intro o ho
          obtain rfl := give_inv.1 o ho
          exact ⟨rfl, hmem⟩
        · intro r hr
          exact ⟨argument, hmem, give_inv.2 r hr ▸ .self r⟩
  exact hfold arguments .empty (fun _ h => h) hempty

theorem Unasked.iter {t : PlaceSession ι ρ π} (h : Unasked arguments t) {o : Held ι ρ π}
    (ho : o ∈ t.objects) (k : Nat) : Unasked arguments (t.iter model k o) := by
  obtain ⟨hallowed, hargument⟩ := h.objects o ho
  have hiterators : Unasked arguments { t with iterators := t.iterators ++ [(o.place, 0)] } := by
    refine ⟨h.mode, h.objects, fun it hit => ?_, h.seen⟩
    rcases List.mem_append.mp hit with hit | hit
    · exact h.iterators it hit
    · obtain rfl := List.mem_singleton.mp hit
      exact hargument
  have hnew : Unasked arguments
      (Session.receive { t with iterators := t.iterators ++ [(o.place, 0)] }
        (.ok (.object ⟨o.place, o.allowed, some t.iterators.length⟩))) := by
    refine hiterators.receive (fun x hx => ?_) fun r hr => by cases hr
    obtain rfl := Given.object.inj (Except.ok.inj hx)
    exact ⟨hallowed, hargument⟩
  unfold PlaceSession.iter
  split
  · refine ⟨h.mode, h.objects, h.iterators, fun r hr => ?_⟩
    rcases List.mem_append.mp hr with hr | hr
    · exact h.seen r hr
    · cases List.mem_singleton.mp hr
  · exact hnew
  · exact hnew
  · exact h.fail _

theorem Unasked.next {t : PlaceSession ι ρ π} (h : Unasked arguments t) {o : Held ι ρ π}
    (ho : o ∈ t.objects) : Unasked arguments (t.next model o) := by
  obtain ⟨hallowed, -⟩ := h.objects o ho
  unfold PlaceSession.next
  split
  · exact h.fail _
  rename_i id hid
  split
  · exact h.fail _
  rename_i q n hit
  have hargument := h.iterators _ (List.mem_of_getElem? hit)
  have hadvanced : Unasked arguments { t with iterators := t.iterators.set id (q, n + 1) } := by
    refine ⟨h.mode, h.objects, fun it hit => ?_, h.seen⟩
    rcases List.mem_or_eq_of_mem_set hit with hit | rfl
    · exact h.iterators it hit
    · exact hargument
  simp only
  split
  · split
    · rw [hallowed]
      exact hadvanced.reveal hargument
    · exact h.fail _
  · split
    · exact hadvanced.receive (fun x hx => by cases hx) fun r hr => by cases hr
    · exact h.fail _
  · exact h.fail _

/-- Plugin code that neither allows references on an object nor is run by the exporter. -/
def AsksForNone {σ : Type} (_ : σ) : Action → Prop
  | .allowReferences _ => False
  | .setMode _ => False
  | _ => True

theorem Unasked.step {t t' : PlaceSession ι ρ π} (h : Unasked arguments t) {σ : Type} {s : σ}
    {a : Action} (ha : AsksForNone s a) (hstep : PlaceSession.step model t a = some t') :
    Unasked arguments t' := by
  cases a with
  | allowReferences k => exact absurd ha not_false
  | setMode mode => exact absurd ha not_false
  | access k a =>
      obtain ⟨o, ho, rfl⟩ := Option.map_eq_some_iff.mp hstep
      obtain ⟨hallowed, hargument⟩ := h.objects o (List.mem_of_getElem? ho)
      unfold PlaceSession.access
      split
      · rw [hallowed]
        exact h.reveal hargument
      · exact h.fail _
  | iter k =>
      obtain ⟨o, ho, rfl⟩ := Option.map_eq_some_iff.mp hstep
      exact h.iter (List.mem_of_getElem? ho) k
  | next k =>
      obtain ⟨o, ho, rfl⟩ := Option.map_eq_some_iff.mp hstep
      exact h.next (List.mem_of_getElem? ho)

end

/-- A list of a reference and an instance that has another one as its owner. -/
def oneList : List (String × Value Unit Nat Nat) :=
  [("files", .seq [.reference 5, .instance_ ()])]

def owned : Model Unit Nat Nat :=
  ⟨fun _ name => if name = "owner" then some (.reference 6) else none, fun k => "'" ++ k ++ "'"⟩

end PluginProxies

end Inmanta
