import Inmanta.Lib.Dict

/-!
# Calls of Python functions

How Python binds the arguments of a call to the parameters of a function:
positional arguments fill the positional parameters in order, keyword
arguments go to the parameter of their name, defaults fill what is left, and
the rest goes to `*args` and `**kwargs`, where the function has them.

`bind_isOk_iff` says when a call is accepted, in terms of the number of
positional arguments and the names of the keyword arguments alone.
-/

namespace Inmanta

namespace PythonCall

structure Parameter (ν : Type) where
  name : String
  default : Option ν

/-- `varargs` and `varkw` say whether there is a parameter `*args` and `**kwargs`. -/
structure Signature (ν : Type) where
  positional : List (Parameter ν)
  varargs : Bool
  keywordOnly : List (Parameter ν)
  varkw : Bool

inductive TypeError where
  | tooManyPositional
  | unexpectedKeyword
  | multipleValues (name : String)
  | missing (name : String)
  deriving DecidableEq, Repr

/-- What the parameters are bound to. -/
structure Binding (ν : Type) where
  positional : List (String × ν)
  varargs : List ν
  keywordOnly : List (String × ν)
  varkw : List (String × ν)
  deriving DecidableEq, Repr

variable {ν : Type}

def Signature.names (s : Signature ν) : List String :=
  (s.positional ++ s.keywordOnly).map (·.name)

/-- The parameters one after the other: a positional argument, as long as there is one, else the
keyword argument of the name, else the default. -/
def bindParameters (kwargs : Dict String ν) :
    List (Parameter ν) → List ν → Except TypeError (List (String × ν))
  | [], _ => .ok []
  | p :: params, value :: args => do
      if p.name ∈ kwargs then .error (.multipleValues p.name)
      let rest ← bindParameters kwargs params args
      return (p.name, value) :: rest
  | p :: params, [] => do
      let value ← match (kwargs.get? p.name).or p.default with
        | some value => .ok value
        | none => .error (.missing p.name)
      let rest ← bindParameters kwargs params []
      return (p.name, value) :: rest

def Signature.bind (s : Signature ν) (args : List ν) (kwargs : Dict String ν) :
    Except TypeError (Binding ν) := do
  if s.varargs = false ∧ s.positional.length < args.length then .error .tooManyPositional
  if s.varkw = false ∧ ∃ name ∈ kwargs.keys, name ∉ s.names then .error .unexpectedKeyword
  let positional ← bindParameters kwargs s.positional args
  let keywordOnly ← bindParameters kwargs s.keywordOnly []
  return {
    positional := positional
    varargs := args.drop s.positional.length
    keywordOnly := keywordOnly
    varkw := kwargs.items.filter fun item => item.1 ∉ s.names }

/-! ## One parameter after the other -/

section

variable {kwargs kwargs' : Dict String ν} {params : List (Parameter ν)} {p : Parameter ν}
  {args : List ν} {value : ν} {l : List (String × ν)}

theorem bindParameters_nil : bindParameters kwargs [] args = .ok [] := rfl

theorem bindParameters_cons_cons : bindParameters kwargs (p :: params) (value :: args) = .ok l ↔
    p.name ∉ kwargs ∧ ∃ rest, bindParameters kwargs params args = .ok rest ∧
      l = (p.name, value) :: rest := by
  rw [bindParameters]
  by_cases hp : p.name ∈ kwargs
  · simp [hp, bind, Except.bind]
  · cases hrest : bindParameters kwargs params args <;>
      simp [hp, bind, Except.bind, pure, Except.pure, eq_comm]

theorem bindParameters_cons_nil : bindParameters kwargs (p :: params) [] = .ok l ↔
    ∃ value, (kwargs.get? p.name).or p.default = some value ∧
      ∃ rest, bindParameters kwargs params [] = .ok rest ∧ l = (p.name, value) :: rest := by
  rw [bindParameters]
  cases hvalue : (kwargs.get? p.name).or p.default with
  | none => simp [bind, Except.bind]
  | some value =>
      cases hrest : bindParameters kwargs params [] <;>
        simp [bind, Except.bind, pure, Except.pure, eq_comm]

/-- What has to be the case for the parameter at a position. -/
def Parameter.Bound (p : Parameter ν) (position given : ℕ) (kwargs : Dict String ν) : Prop :=
  if position < given then p.name ∉ kwargs else p.name ∈ kwargs ∨ p.default ≠ none

theorem or_ne_none_iff : (kwargs.get? p.name).or p.default ≠ none ↔
    p.name ∈ kwargs ∨ p.default ≠ none := by
  rw [Dict.mem_iff]
  cases kwargs.get? p.name <;> simp

theorem bindParameters_isOk_iff : (∃ l, bindParameters kwargs params args = .ok l) ↔
    ∀ (position : ℕ) (p : Parameter ν), params[position]? = some p →
      p.Bound position args.length kwargs := by
  induction params generalizing args with
  | nil => simp [bindParameters_nil]
  | cons p params ih =>
      have hsplit : (∀ (position : ℕ) (q : Parameter ν), (p :: params)[position]? = some q →
          q.Bound position args.length kwargs) ↔ p.Bound 0 args.length kwargs ∧
          ∀ (position : ℕ) (q : Parameter ν), params[position]? = some q →
            q.Bound (position + 1) args.length kwargs := by
        constructor
        · intro h
          exact ⟨h 0 p rfl, fun position q hq => h (position + 1) q (by simpa using hq)⟩
        · rintro ⟨hfirst, hrest⟩ position q hq
          cases position with
          | zero =>
              obtain rfl := Option.some.inj hq
              exact hfirst
          | succ position => exact hrest position q (by simpa using hq)
      rw [hsplit]
      cases args with
      | nil =>
          have hbound : p.Bound 0 ([] : List ν).length kwargs ↔
              (kwargs.get? p.name).or p.default ≠ none := or_ne_none_iff.symm
          have hnext : ∀ (q : Parameter ν) position,
              q.Bound (position + 1) ([] : List ν).length kwargs
                ↔ q.Bound position ([] : List ν).length kwargs := fun q position => Iff.rfl
          simp only [bindParameters_cons_nil, hbound, hnext, ← ih]
          constructor
          · rintro ⟨l, value, hvalue, rest, hrest, -⟩
            exact ⟨by simp [hvalue], rest, hrest⟩
          · rintro ⟨hvalue, rest, hrest⟩
            obtain ⟨value, hvalue⟩ := Option.ne_none_iff_exists'.mp hvalue
            exact ⟨_, value, hvalue, rest, hrest, rfl⟩
      | cons value args =>
          have hbound : p.Bound 0 (value :: args).length kwargs ↔ p.name ∉ kwargs := by
            simp [Parameter.Bound]
          have hnext : ∀ (q : Parameter ν) position, q.Bound (position + 1) (value :: args).length
              kwargs ↔ q.Bound position args.length kwargs := by
            simp [Parameter.Bound]
          simp only [bindParameters_cons_cons, hbound, hnext, ← ih]
          constructor
          · rintro ⟨l, hp, rest, hrest, -⟩
            exact ⟨hp, rest, hrest⟩
          · rintro ⟨hp, rest, hrest⟩
            exact ⟨_, hp, rest, hrest, rfl⟩

/-- As many arguments as parameters in front. -/
theorem bindParameters_append {pre params : List (Parameter ν)} {front args : List ν}
    (h : front.length = pre.length) :
    bindParameters kwargs (pre ++ params) (front ++ args) = .ok l ↔
      ∃ x y, bindParameters kwargs pre front = .ok x ∧ bindParameters kwargs params args = .ok y ∧
        l = x ++ y := by
  induction pre generalizing front l with
  | nil =>
      obtain rfl := List.length_eq_zero_iff.mp h
      simp [bindParameters_nil]
  | cons p pre ih =>
      cases front with
      | nil => cases h
      | cons value front =>
          rw [List.cons_append, List.cons_append, bindParameters_cons_cons]
          simp only [ih (Nat.succ.inj h), bindParameters_cons_cons]
          constructor
          · rintro ⟨hp, rest, ⟨x, y, hx, hy, rfl⟩, rfl⟩
            exact ⟨_, y, ⟨hp, x, hx, rfl⟩, hy, rfl⟩
          · rintro ⟨-, y, ⟨hp, x, hx, rfl⟩, hy, rfl⟩
            exact ⟨hp, x ++ y, ⟨x, y, hx, hy, rfl⟩, rfl⟩

theorem bindParameters_length (h : bindParameters kwargs params args = .ok l) :
    l.length = params.length := by
  induction params generalizing args l with
  | nil =>
      obtain rfl := Except.ok.inj h
      rfl
  | cons p params ih =>
      cases args with
      | nil =>
          obtain ⟨value, -, rest, hrest, rfl⟩ := bindParameters_cons_nil.mp h
          rw [List.length_cons, List.length_cons, ih hrest]
      | cons value args =>
          obtain ⟨-, rest, hrest, rfl⟩ := bindParameters_cons_cons.mp h
          rw [List.length_cons, List.length_cons, ih hrest]

/-- A parameter that no positional argument is left for. -/
theorem bindParameters_getElem? (h : bindParameters kwargs params args = .ok l) {position : ℕ}
    (hp : params[position]? = some p) (hpos : args.length ≤ position) :
    ∃ value, (kwargs.get? p.name).or p.default = some value ∧
      l[position]? = some (p.name, value) := by
  induction params generalizing args l position with
  | nil => cases hp
  | cons q params ih =>
      cases args with
      | nil =>
          obtain ⟨value, hvalue, rest, hrest, rfl⟩ := bindParameters_cons_nil.mp h
          cases position with
          | zero =>
              obtain rfl := Option.some.inj hp
              exact ⟨value, hvalue, rfl⟩
          | succ position =>
              simpa using ih hrest (by simpa using hp) (Nat.zero_le _)
      | cons value args =>
          obtain ⟨-, rest, hrest, rfl⟩ := bindParameters_cons_cons.mp h
          cases position with
          | zero => cases hpos
          | succ position =>
              simpa using ih hrest (by simpa using hp) (Nat.le_of_succ_le_succ hpos)

end

/-! ## Whole calls -/

variable {s : Signature ν} {args args' : List ν} {kwargs kwargs' : Dict String ν}

theorem bind_eq_ok_iff {b : Binding ν} : s.bind args kwargs = .ok b ↔
    (s.varargs = true ∨ args.length ≤ s.positional.length) ∧
      (s.varkw = true ∨ ∀ name ∈ kwargs, name ∈ s.names) ∧
      bindParameters kwargs s.positional args = .ok b.positional ∧
      bindParameters kwargs s.keywordOnly [] = .ok b.keywordOnly ∧
      b.varargs = args.drop s.positional.length ∧
      b.varkw = kwargs.items.filter fun item => item.1 ∉ s.names := by
  have hmany : ¬ (s.varargs = false ∧ s.positional.length < args.length) ↔
      s.varargs = true ∨ args.length ≤ s.positional.length := by
    rw [Classical.not_and_iff_not_or_not, Bool.not_eq_false, Nat.not_lt]
  have hname : ¬ (s.varkw = false ∧ ∃ name ∈ kwargs.keys, name ∉ s.names) ↔
      s.varkw = true ∨ ∀ name ∈ kwargs, name ∈ s.names := by
    rw [Classical.not_and_iff_not_or_not, Bool.not_eq_false]
    simp
  rw [← hmany, ← hname, Signature.bind]
  by_cases hm : s.varargs = false ∧ s.positional.length < args.length
  · rw [if_pos hm]
    exact ⟨(fun h => by cases h), (fun h => absurd hm h.1)⟩
  by_cases hn : s.varkw = false ∧ ∃ name ∈ kwargs.keys, name ∉ s.names
  · rw [if_neg hm, if_pos hn]
    exact ⟨(fun h => by cases h), (fun h => absurd hn h.2.1)⟩
  rw [if_neg hm, if_neg hn]
  obtain ⟨positional, varargs, keywordOnly, varkw⟩ := b
  cases hp : bindParameters kwargs s.positional args with
  | error e => simp [bind, Except.bind]
  | ok positional' =>
      cases hk : bindParameters kwargs s.keywordOnly [] with
      | error e => simp [bind, Except.bind]
      | ok keywordOnly' =>
          simp only [bind, Except.bind, pure, Except.pure, Except.ok.injEq, Binding.mk.injEq, hm,
            hn, not_false_eq_true, true_and]
          constructor
          · rintro ⟨rfl, rfl, rfl, rfl⟩
            exact ⟨rfl, rfl, rfl, rfl⟩
          · rintro ⟨rfl, rfl, rfl, rfl⟩
            exact ⟨rfl, rfl, rfl, rfl⟩

theorem bind_isOk_iff : (∃ b, s.bind args kwargs = .ok b) ↔
    (s.varargs = true ∨ args.length ≤ s.positional.length) ∧
      (s.varkw = true ∨ ∀ name ∈ kwargs, name ∈ s.names) ∧
      (∀ (position : ℕ) (p : Parameter ν), s.positional[position]? = some p →
        p.Bound position args.length kwargs) ∧
      ∀ p ∈ s.keywordOnly, p.name ∈ kwargs ∨ p.default ≠ none := by
  have hkw : (∀ p ∈ s.keywordOnly, p.name ∈ kwargs ∨ p.default ≠ none) ↔
      ∃ l, bindParameters kwargs s.keywordOnly [] = .ok l := by
    rw [bindParameters_isOk_iff]
    constructor
    · intro h position p hp
      exact h p (List.mem_of_getElem? hp)
    · intro h p hp
      obtain ⟨position, hpos⟩ := List.getElem?_of_mem hp
      exact h position p hpos
  rw [hkw, ← bindParameters_isOk_iff]
  simp only [bind_eq_ok_iff]
  constructor
  · rintro ⟨b, hmany, hname, hp, hk, -, -⟩
    exact ⟨hmany, hname, ⟨_, hp⟩, _, hk⟩
  · rintro ⟨hmany, hname, ⟨x, hp⟩, y, hk⟩
    exact ⟨⟨x, _, y, _⟩, hmany, hname, hp, hk, rfl, rfl⟩

/-- Whether a call is accepted depends on its shape alone. -/
theorem bind_isOk_congr (hargs : args.length = args'.length)
    (hkwargs : ∀ name, name ∈ kwargs ↔ name ∈ kwargs') :
    (∃ b, s.bind args kwargs = .ok b) ↔ ∃ b, s.bind args' kwargs' = .ok b := by
  simp only [bind_isOk_iff, Parameter.Bound, hargs, hkwargs]

end PythonCall

end Inmanta
