import Inmanta.Lib.Multidict
import Inmanta.Lib.PythonCall

/-!
# The arguments of a plugin

`Plugin._load_signature` and `check_args`, and the call of the function by
`PluginFunction.call_in_context`.

The plugin works with a signature without the context parameter
(`modelSignature`): the positions of the parameters behind it are one lower.
`checkArgs_isOk_iff` is the refinement: the checks accept a call exactly when
Python accepts it for that signature. The context is put into the positional
arguments afterwards, at the position of its parameter, and so it is only
bound to that parameter when there are positional arguments up to there.
-/

namespace Inmanta

namespace PluginBinding

open PythonCall

/-! ## Signatures -/

inductive Annotation (τ : Type) where
  | context
  | type (t : τ)

def Annotation.isContext {τ : Type} : Annotation τ → Bool
  | .context => true
  | .type _ => false

/-- `inspect.getfullargspec(function)` -/
structure FullArgSpec (τ ν : Type) where
  args : List (String × Annotation τ)
  defaults : List ν
  varargs : Option (String × τ)
  varkw : Option (String × τ)
  kwonlyargs : List (String × τ)
  kwonlydefaults : Dict String ν
  nodup : (args.map Prod.fst ++ kwonlyargs.map Prod.fst).Nodup
  context_unique : (args.filter (·.2.isContext)).length ≤ 1

structure PluginArgument (τ ν : Type) where
  argName : String
  argType : τ
  argPosition : Option ℕ
  defaultValue : Option ν

structure Plugin (τ ν : Type) where
  fullName : String
  context : Option ℕ
  args : List (PluginArgument τ ν)
  varArgs : Option (PluginArgument τ ν)
  kwargs : Dict String (PluginArgument τ ν)
  varKwargs : Option (PluginArgument τ ν)
  allArgs : Dict String (PluginArgument τ ν)

section

variable {τ ν : Type}

/-- The defaults are those of the last parameters. -/
def FullArgSpec.default (argSpec : FullArgSpec τ ν) (position : ℕ) : Option ν :=
  let defaultsStartAt := argSpec.args.length - argSpec.defaults.length
  if position ≥ defaultsStartAt then argSpec.defaults[position - defaultsStartAt]? else none

/-- The loop over the positional parameters, from a position on. -/
def loadArgs (argSpec : FullArgSpec τ ν) :
    ℕ → List (String × Annotation τ) → Plugin τ ν → Plugin τ ν
  | _, [], self => self
  | position, (_, .context) :: args, self =>
      loadArgs argSpec (position + 1) args { self with context := some position }
  | position, (arg, .type annotation) :: args, self =>
      let argument : PluginArgument τ ν :=
        { argName := arg
          argType := annotation
          -- the context is never passed from the model
          argPosition := some (if self.context ≠ none then position - 1 else position)
          defaultValue := argSpec.default position }
      loadArgs argSpec (position + 1) args
        { self with
          args := self.args ++ [argument]
          allArgs := self.allArgs.set arg argument }

def loadKwonlyargs (argSpec : FullArgSpec τ ν) : List (String × τ) → Plugin τ ν → Plugin τ ν
  | [], self => self
  | (arg, annotation) :: args, self =>
      let argument : PluginArgument τ ν :=
        ⟨arg, annotation, none, argSpec.kwonlydefaults.get? arg⟩
      loadKwonlyargs argSpec args
        { self with
          kwargs := self.kwargs.set arg argument
          allArgs := self.allArgs.set arg argument }

def loadSignature (fullName : String) (argSpec : FullArgSpec τ ν) : Plugin τ ν :=
  let catchAll (arg : String × τ) : PluginArgument τ ν := ⟨arg.1, arg.2, none, none⟩
  loadKwonlyargs argSpec argSpec.kwonlyargs <|
    loadArgs argSpec 0 argSpec.args
      { fullName := fullName
        context := none
        args := []
        varArgs := argSpec.varargs.map catchAll
        kwargs := .empty
        varKwargs := argSpec.varkw.map catchAll
        allArgs := .empty }

end

/-! ## Checks -/

structure CheckedArgs (ν : Type) where
  args : List ν
  kwargs : Dict String ν
  unknowns : Bool

section

variable {τ ν : Type}

def Plugin.getArg (self : Plugin τ ν) (position : ℕ) : Except String (PluginArgument τ ν) :=
  match self.args[position]? with
  | some arg => .ok arg
  | none =>
      match self.varArgs with
      | some arg => .ok arg
      | none => .error (self.fullName ++ "() got an unexpected positional argument: " ++
          toString position)

def Plugin.getKwarg (self : Plugin τ ν) (name : String) : Except String (PluginArgument τ ν) :=
  match self.allArgs.get? name with
  | some arg => .ok arg
  | none =>
      match self.varKwargs with
      | some arg => .ok arg
      | none => .error (self.fullName ++ "() got an unexpected keyword argument: '" ++ name ++ "'")

/-- `repr` of a name. -/
def quoted (name : String) : String := "'" ++ name ++ "'"

def Plugin.reportMissingArguments (self : Plugin τ ν) (missingArgs : List String)
    (argsSort : String) : Except String Unit :=
  match missingArgs.reverse with
  | [] => .ok ()
  | [arg] => .error (self.fullName ++ "() missing 1 required " ++ argsSort ++ " argument: " ++
      quoted arg)
  | last :: front => .error (self.fullName ++ "() missing " ++ toString missingArgs.length ++
      " required " ++ argsSort ++ " arguments: " ++
      String.intercalate ", " (front.reverse.map quoted) ++ " and " ++ quoted last)

def missingPositionalArguments (args : List ν) (kwargs : Dict String ν) :
    ℕ → List (PluginArgument τ ν) → List String
  | _, [] => []
  | position, arg :: rest =>
      if position ≥ args.length ∧ arg.argName ∉ kwargs ∧ arg.defaultValue.isNone then
        arg.argName :: missingPositionalArguments args kwargs (position + 1) rest
      else missingPositionalArguments args kwargs (position + 1) rest

def Plugin.missingKeywordArguments (self : Plugin τ ν) (kwargs : Dict String ν) : List String :=
  (self.kwargs.items.filter fun item =>
    decide (item.2.argPosition = none ∧ item.1 ∉ kwargs ∧ item.2.defaultValue.isNone)).map Prod.fst

variable (isUnknown : ν → Bool) (convertAndValidate : ν → PluginArgument τ ν → Except String ν)

def convertUnlessUnknown (value : ν) (arg : PluginArgument τ ν) : Except String ν :=
  if isUnknown value then .ok value else convertAndValidate value arg

/-- Validate all positional arguments. -/
def Plugin.convertArgs (self : Plugin τ ν) : ℕ → List ν → Except String (List ν)
  | _, [] => .ok []
  | position, value :: args =>
      match self.getArg position with
      | .error e => .error e
      | .ok arg =>
          match convertUnlessUnknown isUnknown convertAndValidate value arg with
          | .error e => .error e
          | .ok result =>
              match self.convertArgs (position + 1) args with
              | .error e => .error e
              | .ok rest => .ok (result :: rest)

/-- Validate all keyword arguments, of a call with this many positional ones. -/
def Plugin.convertKwargs (self : Plugin τ ν) (given : ℕ) :
    List (String × ν) → Except String (List (String × ν))
  | [] => .ok []
  | (name, value) :: kwargs =>
      match self.getKwarg name with
      | .error e => .error e
      | .ok kwarg =>
          if kwarg.argPosition.any (· < given) then
            .error (self.fullName ++ "() got multiple values for argument '" ++ name ++ "'")
          else
            match convertUnlessUnknown isUnknown convertAndValidate value kwarg with
            | .error e => .error e
            | .ok result =>
                match self.convertKwargs given kwargs with
                | .error e => .error e
                | .ok rest => .ok ((name, result) :: rest)

def Plugin.checkArgs (self : Plugin τ ν) (args : List ν) (kwargs : Dict String ν) :
    Except String (CheckedArgs ν) :=
  if self.varArgs.isNone ∧ args.length > self.args.length then
    .error (self.fullName ++ "() takes " ++ toString self.args.length ++
      " positional arguments but " ++ toString args.length ++ " were given")
  else
    match self.reportMissingArguments (missingPositionalArguments args kwargs 0 self.args)
      "positional" with
    | .error e => .error e
    | .ok () =>
      match self.reportMissingArguments (self.missingKeywordArguments kwargs) "keyword-only" with
      | .error e => .error e
      | .ok () =>
        match self.convertArgs isUnknown convertAndValidate 0 args with
        | .error e => .error e
        | .ok convertedArgs =>
          match self.convertKwargs isUnknown convertAndValidate args.length kwargs.items with
          | .error e => .error e
          | .ok convertedKwargs => .ok
              { args := convertedArgs
                kwargs := .ofList convertedKwargs
                unknowns := args.any isUnknown || kwargs.values.any isUnknown }

/-- `args.insert(position, value)` -/
def insert (args : List ν) (position : ℕ) (value : ν) : List ν :=
  args.take position ++ value :: args.drop position

/-- What `call_in_context` comes to: an unknown result, or a call of the function. -/
inductive Outcome (ν : Type) where
  | unknown
  | call (args : List ν) (kwargs : Dict String ν)

def callInContext (plugin : Plugin τ ν) (allowUnknown : Bool) (context : ν) (args : List ν)
    (kwargs : Dict String ν) : Except String (Outcome ν) :=
  match plugin.checkArgs isUnknown convertAndValidate args kwargs with
  | .error e => .error e
  | .ok processedArgs =>
      if processedArgs.unknowns && !allowUnknown then .ok .unknown
      else
        match plugin.context with
        | none => .ok (.call processedArgs.args processedArgs.kwargs)
        | some position =>
            .ok (.call (insert processedArgs.args position context) processedArgs.kwargs)

end

/-! ## The signature that the checks work with -/

section

variable {τ ν : Type}

def PluginArgument.parameter (arg : PluginArgument τ ν) : Parameter ν :=
  ⟨arg.argName, arg.defaultValue⟩

/-- The plugin has the parameters of a signature, each at its position. -/
structure Represents (plugin : Plugin τ ν) (s : Signature ν) : Prop where
  nodup : s.names.Nodup
  args : plugin.args.map (·.parameter) = s.positional
  position : ∀ (i : ℕ) (arg : PluginArgument τ ν), plugin.args[i]? = some arg →
    arg.argPosition = some i
  kwargs : plugin.kwargs.items.map (·.2.parameter) = s.keywordOnly
  kwarg : ∀ item ∈ plugin.kwargs.items, item.2.argName = item.1 ∧ item.2.argPosition = none
  mem_allArgs : ∀ name, name ∈ plugin.allArgs ↔ name ∈ s.names
  allArg : ∀ name arg, plugin.allArgs.get? name = some arg → arg.argName = name ∧
    (arg ∈ plugin.args ∨ (name, arg) ∈ plugin.kwargs.items)
  varArgs : plugin.varArgs.isSome = s.varargs
  varKwargs : plugin.varKwargs.isSome = s.varkw
  varKwarg : ∀ arg, plugin.varKwargs = some arg → arg.argPosition = none

variable {self : Plugin τ ν} {s : Signature ν} {args : List ν} {kwargs : Dict String ν}

theorem reportMissingArguments_isOk {missing : List String} {sort : String} :
    self.reportMissingArguments missing sort = .ok () ↔ missing = [] := by
  rw [Plugin.reportMissingArguments]
  split
  · next h => simpa using h
  · next h => simp [List.reverse_eq_iff.mp h]
  · next h => simp [List.reverse_eq_iff.mp h]

theorem missingPositionalArguments_eq_nil {position : ℕ} {params : List (PluginArgument τ ν)} :
    missingPositionalArguments args kwargs position params = [] ↔
      ∀ (i : ℕ) (arg : PluginArgument τ ν), params[i]? = some arg → args.length ≤ position + i →
        arg.argName ∈ kwargs ∨ arg.defaultValue ≠ none := by
  induction params generalizing position with
  | nil => simp [missingPositionalArguments]
  | cons arg params ih =>
      have hsplit : (∀ (i : ℕ) (a : PluginArgument τ ν), (arg :: params)[i]? = some a →
          args.length ≤ position + i → a.argName ∈ kwargs ∨ a.defaultValue ≠ none) ↔
          (args.length ≤ position → arg.argName ∈ kwargs ∨ arg.defaultValue ≠ none) ∧
          ∀ (i : ℕ) (a : PluginArgument τ ν), params[i]? = some a →
            args.length ≤ position + 1 + i → a.argName ∈ kwargs ∨ a.defaultValue ≠ none := by
        constructor
        · intro h
          refine ⟨fun hpos => h 0 arg rfl (by omega), fun i a ha hpos => ?_⟩
          exact h (i + 1) a (by simpa using ha) (by omega)
        · rintro ⟨hfirst, hrest⟩ i a ha hpos
          cases i with
          | zero =>
              obtain rfl := Option.some.inj ha
              exact hfirst (by omega)
          | succ i => exact hrest i a (by simpa using ha) (by omega)
      rw [hsplit, missingPositionalArguments]
      split
      · next h =>
          obtain ⟨hpos, hname, hdefault⟩ := h
          refine ⟨(fun hnil => by cases hnil), fun h => ?_⟩
          rcases h.1 hpos with hmem | hne
          · exact absurd hmem hname
          · exact absurd (Option.isNone_iff_eq_none.mp hdefault) hne
      · next h =>
          rw [ih]
          refine ⟨fun hrest => ⟨fun hpos => ?_, hrest⟩, fun h => h.2⟩
          by_contra hno
          obtain ⟨hname, hdefault⟩ := not_or.mp hno
          exact h ⟨hpos, hname, Option.isNone_iff_eq_none.mpr (not_not.mp hdefault)⟩

theorem missingKeywordArguments_eq_nil (hs : Represents self s) :
    self.missingKeywordArguments kwargs = [] ↔
      ∀ p ∈ s.keywordOnly, p.name ∈ kwargs ∨ p.default ≠ none := by
  rw [Plugin.missingKeywordArguments, List.map_eq_nil_iff, List.filter_eq_nil_iff, ← hs.kwargs]
  constructor
  · intro h p hp
    obtain ⟨item, hitem, rfl⟩ := List.mem_map.mp hp
    obtain ⟨hname, hposition⟩ := hs.kwarg item hitem
    have hno := h item hitem
    simp only [hposition, true_and, decide_eq_true_eq, not_and_or, not_not] at hno
    rw [PluginArgument.parameter, hname]
    simpa using hno
  · intro h item hitem
    obtain ⟨hname, hposition⟩ := hs.kwarg item hitem
    have hp := h item.2.parameter (List.mem_map.mpr ⟨item, hitem, rfl⟩)
    rw [PluginArgument.parameter, hname] at hp
    simp only [hposition, true_and, decide_eq_true_eq, not_and_or, not_not]
    simpa using hp

variable {isUnknown : ν → Bool} {convertAndValidate : ν → PluginArgument τ ν → Except String ν}

/-- The arguments are of the types of the parameters that they are for. -/
structure AcceptedTypes (isUnknown : ν → Bool)
    (convertAndValidate : ν → PluginArgument τ ν → Except String ν) (plugin : Plugin τ ν)
    (args : List ν) (kwargs : Dict String ν) : Prop where
  args : ∀ (position : ℕ) (value : ν) (arg : PluginArgument τ ν), args[position]? = some value →
    plugin.getArg position = .ok arg →
    ∃ result, convertUnlessUnknown isUnknown convertAndValidate value arg = .ok result
  kwargs : ∀ (name : String) (value : ν) (arg : PluginArgument τ ν),
    kwargs.get? name = some value → plugin.getKwarg name = .ok arg →
    ∃ result, convertUnlessUnknown isUnknown convertAndValidate value arg = .ok result

theorem getArg_isOk {position : ℕ} (h : self.varArgs.isSome ∨ position < self.args.length) :
    ∃ arg, self.getArg position = .ok arg := by
  rw [Plugin.getArg]
  split
  · exact ⟨_, rfl⟩
  · next hnone =>
      rcases h with hvar | hlt
      · obtain ⟨arg, harg⟩ := Option.isSome_iff_exists.mp hvar
        exact ⟨arg, by rw [harg]⟩
      · exact absurd (List.getElem?_eq_none_iff.mp hnone) (by omega)

theorem convertArgs_isOk {position : ℕ}
    (hvar : self.varArgs.isSome ∨ position + args.length ≤ self.args.length)
    (h : ∀ (i : ℕ) (value : ν) (arg : PluginArgument τ ν), args[i]? = some value →
      self.getArg (position + i) = .ok arg →
      ∃ result, convertUnlessUnknown isUnknown convertAndValidate value arg = .ok result) :
    ∃ l, self.convertArgs isUnknown convertAndValidate position args = .ok l := by
  induction args generalizing position with
  | nil => exact ⟨[], rfl⟩
  | cons value args ih =>
      rw [List.length_cons] at hvar
      obtain ⟨arg, harg⟩ := @getArg_isOk _ _ self position (hvar.imp id (by omega))
      obtain ⟨result, hresult⟩ := h 0 value arg rfl harg
      obtain ⟨rest, hrest⟩ := @ih (position + 1) (hvar.imp id (by omega))
        fun i v a hv ha => h (i + 1) v a (by simpa using hv) (by rw [← ha]; congr 1; omega)
      exact ⟨result :: rest, by simp [Plugin.convertArgs, harg, hresult, hrest]⟩

/-- The keyword argument has a place, which no positional argument takes. -/
def Plugin.HasPlace (self : Plugin τ ν) (given : ℕ) (name : String) : Prop :=
  ∃ kwarg, self.getKwarg name = .ok kwarg ∧ kwarg.argPosition.any (· < given) = false

theorem convertKwargs_isOk_iff {given : ℕ} {items : List (String × ν)}
    (h : ∀ (name : String) (value : ν) (arg : PluginArgument τ ν), (name, value) ∈ items →
      self.getKwarg name = .ok arg →
      ∃ result, convertUnlessUnknown isUnknown convertAndValidate value arg = .ok result) :
    (∃ l, self.convertKwargs isUnknown convertAndValidate given items = .ok l) ↔
      ∀ item ∈ items, self.HasPlace given item.1 := by
  induction items with
  | nil => simp [Plugin.convertKwargs]
  | cons item items ih =>
      obtain ⟨name, value⟩ := item
      have hrest := ih fun n v a hmem => h n v a (List.mem_cons_of_mem _ hmem)
      rw [List.forall_mem_cons, ← hrest, Plugin.convertKwargs]
      cases harg : self.getKwarg name with
      | error e => simp [Plugin.HasPlace, harg]
      | ok kwarg =>
          obtain ⟨result, hresult⟩ := h name value kwarg List.mem_cons_self harg
          by_cases hany : kwarg.argPosition.any (· < given) = true
          · simp [Plugin.HasPlace, harg, hany]
          · have hplace : self.HasPlace given name :=
              ⟨kwarg, harg, Bool.not_eq_true _ ▸ hany⟩
            simp only [hany, hresult, hplace, true_and]
            cases self.convertKwargs isUnknown convertAndValidate given items <;> simp

theorem convertKwargs_keys {given : ℕ} {items l : List (String × ν)}
    (h : self.convertKwargs isUnknown convertAndValidate given items = .ok l) :
    l.map Prod.fst = items.map Prod.fst := by
  induction items generalizing l with
  | nil =>
      obtain rfl := Except.ok.inj h
      rfl
  | cons item items ih =>
      obtain ⟨name, value⟩ := item
      rw [Plugin.convertKwargs] at h
      split at h
      · cases h
      split at h
      · cases h
      split at h
      · cases h
      split at h
      · cases h
      · next rest hrest =>
          obtain rfl := Except.ok.inj h
          rw [List.map_cons, List.map_cons, ih hrest]

/-- Every keyword argument has a place: either it names no parameter and there is a catch-all, or
its parameter has no positional argument. -/
theorem hasPlace_iff (hs : Represents self s) {given : ℕ} {name : String} :
    self.HasPlace given name ↔ (s.varkw = true ∨ name ∈ s.names) ∧
      ∀ (position : ℕ) (p : Parameter ν), s.positional[position]? = some p → position < given →
        p.name ≠ name := by
  have hget : ∀ (i : ℕ) (arg : PluginArgument τ ν), self.args[i]? = some arg →
      s.positional[i]? = some arg.parameter := by
    intro i arg harg
    rw [← hs.args, List.getElem?_map, harg]
    rfl
  have hnames : ∀ (i : ℕ) (p : Parameter ν), s.positional[i]? = some p →
      s.names[i]? = some p.name := by
    intro i p hp
    have hlt := (List.getElem?_eq_some_iff.mp hp).1
    rw [Signature.names, List.map_append, List.getElem?_append_left (by rwa [List.length_map]),
      List.getElem?_map, hp]
    rfl
  constructor
  · rintro ⟨kwarg, hkwarg, hany⟩
    rw [Plugin.getKwarg] at hkwarg
    split at hkwarg
    · next arg harg =>
        obtain rfl := Except.ok.inj hkwarg
        obtain ⟨rfl, hwhere⟩ := hs.allArg name arg harg
        have hmem := (hs.mem_allArgs _).mp (Dict.mem_of_get? harg)
        refine ⟨Or.inr hmem, fun position p hp hlt hname => ?_⟩
        have hposition := hnames position p hp
        rw [hname] at hposition
        rcases hwhere with hpos | hkw
        · obtain ⟨i, hi⟩ := List.getElem?_of_mem hpos
          have hat := hnames i arg.parameter (hget i arg hi)
          have heq : i = position :=
            (List.getElem?_inj (List.getElem?_eq_some_iff.mp hat).1 hs.nodup).mp
              (hat.trans hposition.symm)
          rw [hs.position i arg hi, heq] at hany
          simp [hlt] at hany
        · -- the name would be that of a positional and of a keyword-only parameter
          have hkwonly : arg.argName ∈ s.keywordOnly.map (·.name) := by
            rw [← hs.kwargs, List.map_map]
            exact List.mem_map.mpr ⟨_, hkw, rfl⟩
          have hpositional : arg.argName ∈ s.positional.map (·.name) :=
            List.mem_map.mpr ⟨p, List.mem_of_getElem? hp, hname⟩
          have hnodup := hs.nodup
          rw [Signature.names, List.map_append] at hnodup
          exact (List.nodup_append.mp hnodup).2.2 _ hpositional _ hkwonly rfl
    · next hnone =>
        split at hkwarg
        · next arg harg =>
            obtain rfl := Except.ok.inj hkwarg
            refine ⟨Or.inl (by rw [← hs.varKwargs, harg]; rfl), fun position p hp _ hname => ?_⟩
            have hmem : name ∈ s.names := hname ▸ List.mem_of_getElem? (hnames position p hp)
            exact Dict.not_mem_iff.mpr hnone ((hs.mem_allArgs name).mpr hmem)
        · cases hkwarg
  · rintro ⟨hname, hfree⟩
    cases harg : self.allArgs.get? name with
    | some arg =>
        refine ⟨arg, by rw [Plugin.getKwarg, harg], ?_⟩
        obtain ⟨rfl, hpos | hkw⟩ := hs.allArg name arg harg
        · obtain ⟨i, hi⟩ := List.getElem?_of_mem hpos
          rw [hs.position i arg hi]
          have hi' := fun hlt => hfree i arg.parameter (hget i arg hi) hlt rfl
          simpa using hi'
        · rw [(hs.kwarg _ hkw).2]
          rfl
    | none =>
        have hmem : name ∉ s.names :=
          fun hmem => Dict.not_mem_iff.mpr harg ((hs.mem_allArgs name).mpr hmem)
        have hvar : self.varKwargs.isSome := hs.varKwargs ▸ hname.resolve_right hmem
        obtain ⟨arg, hvarg⟩ := Option.isSome_iff_exists.mp hvar
        refine ⟨arg, by rw [Plugin.getKwarg, harg, hvarg], ?_⟩
        rw [hs.varKwarg arg hvarg]
        rfl

/-- The checks accept a call exactly when Python accepts it for the signature. -/
theorem checkArgs_isOk_iff (hs : Represents self s)
    (htypes : AcceptedTypes isUnknown convertAndValidate self args kwargs) :
    (∃ c, self.checkArgs isUnknown convertAndValidate args kwargs = .ok c) ↔
      ∃ b, s.bind args kwargs = .ok b := by
  have hlen : self.args.length = s.positional.length := by rw [← hs.args, List.length_map]
  have hkw := @convertKwargs_isOk_iff _ _ self isUnknown convertAndValidate args.length kwargs.items
    fun name value arg hmem => htypes.kwargs name value arg (Dict.get?_eq_some_iff.mpr hmem)
  have hpositional : missingPositionalArguments args kwargs 0 self.args = [] ↔
      ∀ (i : ℕ) (p : Parameter ν), s.positional[i]? = some p → args.length ≤ i →
        p.name ∈ kwargs ∨ p.default ≠ none := by
    rw [missingPositionalArguments_eq_nil, ← hs.args]
    simp only [Nat.zero_add, List.getElem?_map, Option.map_eq_some_iff]
    constructor
    · rintro h i p ⟨arg, harg, rfl⟩ hi
      exact h i arg harg hi
    · intro h i arg harg hi
      exact h i arg.parameter ⟨arg, harg, rfl⟩ hi
  have hbound : (∀ (i : ℕ) (p : Parameter ν), s.positional[i]? = some p →
      p.Bound i args.length kwargs) ↔
      missingPositionalArguments args kwargs 0 self.args = [] ∧
        ∀ name ∈ kwargs, ∀ (i : ℕ) (p : Parameter ν), s.positional[i]? = some p →
          i < args.length → p.name ≠ name := by
    rw [hpositional]
    constructor
    · refine fun h => ⟨fun i p hp hi => ?_, fun name hname i p hp hi heq => ?_⟩
      · have hb := h i p hp
        rwa [Parameter.Bound, if_neg (by omega)] at hb
      · have hb := h i p hp
        rw [Parameter.Bound, if_pos hi, heq] at hb
        exact hb hname
    · rintro ⟨hdefault, hfree⟩ i p hp
      by_cases hi : i < args.length
      · rw [Parameter.Bound, if_pos hi]
        exact fun hmem => hfree _ hmem i p hp hi rfl
      · rw [Parameter.Bound, if_neg hi]
        exact hdefault i p hp (by omega)
  rw [bind_isOk_iff, hbound, ← missingKeywordArguments_eq_nil hs]
  constructor
  · rintro ⟨c, hc⟩
    rw [Plugin.checkArgs] at hc
    split at hc
    · cases hc
    next hmany =>
    split at hc
    · cases hc
    next hmissing =>
    split at hc
    · cases hc
    next hmissing' =>
    split at hc
    · cases hc
    split at hc
    · cases hc
    next converted hconverted =>
    have hplace := hkw.mp ⟨_, hconverted⟩
    have hmem : ∀ name ∈ kwargs, self.HasPlace args.length name := by
      intro name hname
      obtain ⟨value, hvalue⟩ := Dict.mem_iff.mp hname
      exact hplace (name, value) (Dict.get?_eq_some_iff.mp hvalue)
    refine ⟨?_, ?_, ⟨reportMissingArguments_isOk.mp hmissing, ?_⟩,
      reportMissingArguments_isOk.mp hmissing'⟩
    · rw [← hs.varArgs]
      by_contra hno
      obtain ⟨hvar, hlt⟩ := not_or.mp hno
      exact hmany ⟨by simpa using hvar, by omega⟩
    · by_contra hno
      obtain ⟨hvar, hall⟩ := not_or.mp hno
      refine hall fun name hname => ?_
      exact ((hasPlace_iff hs).mp (hmem name hname)).1.resolve_left hvar
    · exact fun name hname i p hp hi => ((hasPlace_iff hs).mp (hmem name hname)).2 i p hp hi
  · rintro ⟨hmany, hname, ⟨hmissing, hfree⟩, hmissing'⟩
    have hplace : ∀ item ∈ kwargs.items, self.HasPlace args.length item.1 := by
      intro item hitem
      have hmem : item.1 ∈ kwargs := Dict.mem_of_get? (Dict.get?_eq_some_iff.mpr hitem)
      exact (hasPlace_iff hs).mpr ⟨hname.imp id fun h => h _ hmem, hfree _ hmem⟩
    obtain ⟨l, hl⟩ := hkw.mpr hplace
    obtain ⟨as, has⟩ := @convertArgs_isOk _ _ self args isUnknown convertAndValidate 0
      (by rw [hs.varArgs]; exact hmany.imp id (by omega))
      fun i value arg hv ha => htypes.args i value arg hv (by rwa [Nat.zero_add] at ha)
    have htoo : ¬ (self.varArgs.isNone ∧ args.length > self.args.length) := by
      rintro ⟨hnone, hgt⟩
      rcases hmany with hvar | hle
      · rw [← hs.varArgs] at hvar
        cases hv : self.varArgs <;> simp [hv] at hvar hnone
      · omega
    exact ⟨_, by rw [Plugin.checkArgs, if_neg htoo, reportMissingArguments_isOk.mpr hmissing,
      reportMissingArguments_isOk.mpr hmissing', has, hl]⟩

theorem convertArgs_length {position : ℕ} {l : List ν}
    (h : self.convertArgs isUnknown convertAndValidate position args = .ok l) :
    l.length = args.length := by
  induction args generalizing position l with
  | nil =>
      obtain rfl := Except.ok.inj h
      rfl
  | cons value args ih =>
      rw [Plugin.convertArgs] at h
      split at h
      · cases h
      split at h
      · cases h
      split at h
      · cases h
      · next rest hrest =>
          obtain rfl := Except.ok.inj h
          rw [List.length_cons, List.length_cons, ih hrest]

/-- What the checks give has the shape of the call: the number of positional arguments and the
names of the keyword arguments. -/
theorem checkArgs_shape {c : CheckedArgs ν}
    (h : self.checkArgs isUnknown convertAndValidate args kwargs = .ok c) :
    c.args.length = args.length ∧ (∀ name, name ∈ c.kwargs ↔ name ∈ kwargs) ∧
      c.unknowns = (args.any isUnknown || kwargs.values.any isUnknown) := by
  rw [Plugin.checkArgs] at h
  split at h
  · cases h
  split at h
  · cases h
  split at h
  · cases h
  split at h
  · cases h
  next convertedArgs hargs =>
  split at h
  · cases h
  next convertedKwargs hkwargs =>
  obtain rfl := Except.ok.inj h
  refine ⟨convertArgs_length hargs, fun name => ?_, rfl⟩
  rw [Dict.mem_ofList, convertKwargs_keys hkwargs, ← Dict.mem_keys]
  rfl

/-! ## The signature of a function -/

variable {argSpec : FullArgSpec τ ν}

/-- The parameters from a position on. -/
def FullArgSpec.parameters (argSpec : FullArgSpec τ ν) :
    ℕ → List (String × Annotation τ) → List (Parameter ν)
  | _, [] => []
  | position, (arg, _) :: args =>
      ⟨arg, argSpec.default position⟩ :: argSpec.parameters (position + 1) args

/-- The parameters that can be passed from the model. -/
def FullArgSpec.modelParameters (argSpec : FullArgSpec τ ν) :
    ℕ → List (String × Annotation τ) → List (Parameter ν)
  | _, [] => []
  | position, (_, .context) :: args => argSpec.modelParameters (position + 1) args
  | position, (arg, .type _) :: args =>
      ⟨arg, argSpec.default position⟩ :: argSpec.modelParameters (position + 1) args

def FullArgSpec.signature (argSpec : FullArgSpec τ ν) : Signature ν where
  positional := argSpec.parameters 0 argSpec.args
  varargs := argSpec.varargs.isSome
  keywordOnly := argSpec.kwonlyargs.map fun a => ⟨a.1, argSpec.kwonlydefaults.get? a.1⟩
  varkw := argSpec.varkw.isSome

def FullArgSpec.modelSignature (argSpec : FullArgSpec τ ν) : Signature ν :=
  { argSpec.signature with positional := argSpec.modelParameters 0 argSpec.args }

/-- The position of the context parameter and its name. -/
def contextFrom : ℕ → List (String × Annotation τ) → Option (ℕ × String)
  | _, [] => none
  | position, (arg, .context) :: _ => some (position, arg)
  | position, (_, .type _) :: args => contextFrom (position + 1) args

theorem parameters_append (argSpec : FullArgSpec τ ν) (position : ℕ)
    (l l' : List (String × Annotation τ)) : argSpec.parameters position (l ++ l')
      = argSpec.parameters position l ++ argSpec.parameters (position + l.length) l' := by
  induction l generalizing position with
  | nil => rfl
  | cons a l ih =>
      rw [List.cons_append, FullArgSpec.parameters, ih, FullArgSpec.parameters, List.length_cons,
        Nat.add_right_comm, Nat.add_assoc]
      rfl

theorem modelParameters_append (argSpec : FullArgSpec τ ν) (position : ℕ)
    (l l' : List (String × Annotation τ)) : argSpec.modelParameters position (l ++ l')
      = argSpec.modelParameters position l
        ++ argSpec.modelParameters (position + l.length) l' := by
  induction l generalizing position with
  | nil => rfl
  | cons a l ih =>
      obtain ⟨arg, annotation⟩ := a
      have hpos : position + 1 + l.length = position + (l.length + 1) := by omega
      cases annotation <;>
        simp [FullArgSpec.modelParameters, ih, hpos]

theorem modelParameters_eq {position : ℕ} {l : List (String × Annotation τ)}
    (h : ∀ a ∈ l, a.2.isContext = false) :
    argSpec.modelParameters position l = argSpec.parameters position l := by
  induction l generalizing position with
  | nil => rfl
  | cons a l ih =>
      obtain ⟨arg, annotation⟩ := a
      cases annotation with
      | context => cases h _ List.mem_cons_self
      | type t =>
          rw [FullArgSpec.modelParameters, FullArgSpec.parameters,
            ih fun a ha => h a (List.mem_cons_of_mem _ ha)]

theorem parameters_length (argSpec : FullArgSpec τ ν) (position : ℕ)
    (l : List (String × Annotation τ)) : (argSpec.parameters position l).length = l.length := by
  induction l generalizing position with
  | nil => rfl
  | cons a l ih => rw [FullArgSpec.parameters, List.length_cons, List.length_cons, ih]

/-- The context parameter, if there is one, with the parameters in front of it and behind it. -/
theorem context_cases (argSpec : FullArgSpec τ ν) :
    (contextFrom 0 argSpec.args = none ∧ ∀ a ∈ argSpec.args, a.2.isContext = false) ∨
    ∃ front name rest, argSpec.args = front ++ (name, .context) :: rest ∧
      contextFrom 0 argSpec.args = some (front.length, name) ∧
      (∀ a ∈ front, a.2.isContext = false) ∧ ∀ a ∈ rest, a.2.isContext = false := by
  have hgen : ∀ (l : List (String × Annotation τ)) (position : ℕ),
      (l.filter (·.2.isContext)).length ≤ 1 →
      (contextFrom position l = none ∧ ∀ a ∈ l, a.2.isContext = false) ∨
      ∃ front name rest, l = front ++ (name, .context) :: rest ∧
        contextFrom position l = some (position + front.length, name) ∧
        (∀ a ∈ front, a.2.isContext = false) ∧ ∀ a ∈ rest, a.2.isContext = false := by
    intro l
    induction l with
    | nil => exact fun _ _ => Or.inl ⟨rfl, fun a ha => absurd ha List.not_mem_nil⟩
    | cons a l ih =>
        intro position hone
        obtain ⟨arg, annotation⟩ := a
        cases annotation with
        | context =>
            refine Or.inr ⟨[], arg, l, rfl, rfl, fun a ha => absurd ha List.not_mem_nil, ?_⟩
            have hnil : l.filter (·.2.isContext) = [] := by
              rw [List.filter_cons_of_pos rfl, List.length_cons] at hone
              exact List.length_eq_zero_iff.mp (by omega)
            intro a ha
            simpa using List.filter_eq_nil_iff.mp hnil a ha
        | type t =>
            rw [List.filter_cons_of_neg (by simp [ Annotation.isContext])] at hone
            rcases ih (position + 1) hone with ⟨hnone, hall⟩ | ⟨front, name, rest, hl, hctx, hf, hr⟩
            · exact Or.inl ⟨hnone, List.forall_mem_cons.mpr ⟨rfl, hall⟩⟩
            · refine Or.inr ⟨(arg, .type t) :: front, name, rest, by rw [hl]; rfl, ?_,
                List.forall_mem_cons.mpr ⟨rfl, hf⟩, hr⟩
              rw [contextFrom, hctx, List.length_cons]
              congr 2
              omega
  simpa using hgen argSpec.args 0 argSpec.context_unique

/-! ## What is loaded -/

/-- What the loop over positional parameters without a context adds. -/
structure Loads (argSpec : FullArgSpec τ ν) (position : ℕ) (l : List (String × Annotation τ))
    (before after : Plugin τ ν) (added : List (PluginArgument τ ν)) : Prop where
  args : after.args = before.args ++ added
  parameters : added.map (·.parameter) = argSpec.parameters position l
  position : ∀ (i : ℕ) (arg : PluginArgument τ ν), added[i]? = some arg → arg.argPosition =
    some (if before.context ≠ none then position + i - 1 else position + i)
  allArgs : after.allArgs
    = (added.map fun arg => (arg.argName, arg)).foldl (fun acc p => acc.set p.1 p.2) before.allArgs
  context : after.context = before.context
  kwargs : after.kwargs = before.kwargs
  varArgs : after.varArgs = before.varArgs
  varKwargs : after.varKwargs = before.varKwargs

theorem loadArgs_loads {position : ℕ} {l : List (String × Annotation τ)} {before : Plugin τ ν}
    (h : ∀ a ∈ l, a.2.isContext = false) :
    ∃ added, Loads argSpec position l before (loadArgs argSpec position l before) added := by
  induction l generalizing position before with
  | nil => exact ⟨[], by simp [loadArgs], rfl, by simp, rfl, rfl, rfl, rfl, rfl⟩
  | cons a l ih =>
      obtain ⟨arg, annotation⟩ := a
      cases annotation with
      | context => cases h _ List.mem_cons_self
      | type t =>
          let argument : PluginArgument τ ν :=
            ⟨arg, t, some (if before.context ≠ none then position - 1 else position),
              argSpec.default position⟩
          let next : Plugin τ ν := { before with
            args := before.args ++ [argument]
            allArgs := before.allArgs.set arg argument }
          obtain ⟨added, hadded⟩ := @ih (position + 1) next
            fun a ha => h a (List.mem_cons_of_mem _ ha)
          refine ⟨argument :: added, ?_, ?_, ?_, ?_, hadded.context, hadded.kwargs, hadded.varArgs,
            hadded.varKwargs⟩
          · rw [loadArgs, hadded.args]
            simp [next, argument]
          · rw [List.map_cons, hadded.parameters]
            rfl
          · intro i a ha
            cases i with
            | zero =>
                obtain rfl := Option.some.inj ha
                simp [argument]
            | succ i =>
                have hi := hadded.position i a (by simpa using ha)
                rw [hi]
                simp only [next]
                congr 1
                split <;> omega
          · rw [loadArgs, hadded.allArgs]
            rfl

theorem loadArgs_append (position : ℕ) (l l' : List (String × Annotation τ))
    (self : Plugin τ ν) : loadArgs argSpec position (l ++ l') self
      = loadArgs argSpec (position + l.length) l' (loadArgs argSpec position l self) := by
  induction l generalizing position self with
  | nil => rfl
  | cons a l ih =>
      obtain ⟨arg, annotation⟩ := a
      have hpos : position + (l.length + 1) = position + 1 + l.length := by omega
      cases annotation <;> simp [loadArgs, ih, hpos]

def FullArgSpec.kwonly (argSpec : FullArgSpec τ ν) (a : String × τ) :
    String × PluginArgument τ ν :=
  (a.1, ⟨a.1, a.2, none, argSpec.kwonlydefaults.get? a.1⟩)

theorem loadKwonlyargs_eq (l : List (String × τ)) (self : Plugin τ ν) :
    loadKwonlyargs argSpec l self = { self with
      kwargs := (l.map argSpec.kwonly).foldl (fun acc p => acc.set p.1 p.2) self.kwargs
      allArgs := (l.map argSpec.kwonly).foldl (fun acc p => acc.set p.1 p.2) self.allArgs } := by
  induction l generalizing self with
  | nil => rfl
  | cons a l ih =>
      obtain ⟨arg, annotation⟩ := a
      rw [loadKwonlyargs, ih]
      rfl

/-- The parameters of the model with their positions, and the position of the context. -/
theorem loadArgs_spec (argSpec : FullArgSpec τ ν) {self : Plugin τ ν} (hargs : self.args = [])
    (hcontext : self.context = none) :
    let loaded := loadArgs argSpec 0 argSpec.args self
    loaded.args.map (·.parameter) = argSpec.modelParameters 0 argSpec.args ∧
    (∀ (i : ℕ) (arg : PluginArgument τ ν), loaded.args[i]? = some arg →
      arg.argPosition = some i) ∧
    loaded.allArgs = (loaded.args.map fun arg => (arg.argName, arg)).foldl
      (fun acc p => acc.set p.1 p.2) self.allArgs ∧
    loaded.context = (contextFrom 0 argSpec.args).map Prod.fst ∧
    loaded.kwargs = self.kwargs ∧ loaded.varArgs = self.varArgs ∧
    loaded.varKwargs = self.varKwargs := by
  intro loaded
  rcases context_cases argSpec with ⟨hnone, hall⟩ | ⟨front, name, rest, hsplit, hctx, hfront, hrest⟩
  · obtain ⟨added, hadded⟩ := @loadArgs_loads _ _ argSpec 0 argSpec.args self hall
    have hl : loaded.args = added := by rw [hadded.args, hargs, List.nil_append]
    refine ⟨?_, ?_, ?_, ?_, hadded.kwargs, hadded.varArgs, hadded.varKwargs⟩
    · rw [hl, hadded.parameters, modelParameters_eq hall]
    · intro i arg harg
      rw [hadded.position i arg (hl ▸ harg), if_neg (not_not.mpr hcontext), Nat.zero_add]
    · rw [hl]
      exact hadded.allArgs
    · rw [hnone]
      exact hadded.context.trans hcontext
  · obtain ⟨a, ha⟩ := @loadArgs_loads _ _ argSpec 0 front self hfront
    have hsecond := @loadArgs_loads _ _ argSpec (front.length + 1) rest
      { loadArgs argSpec 0 front self with context := some front.length } hrest
    obtain ⟨b, hb⟩ := hsecond
    have hloaded : loaded = loadArgs argSpec (front.length + 1) rest
        { loadArgs argSpec 0 front self with context := some front.length } := by
      show loadArgs argSpec 0 argSpec.args self = _
      rw [hsplit, loadArgs_append, Nat.zero_add]
      rfl
    have hl : loaded.args = a ++ b := by
      rw [hloaded, hb.args]
      show (loadArgs argSpec 0 front self).args ++ b = a ++ b
      rw [ha.args, hargs, List.nil_append]
    have hlen : a.length = front.length := by
      rw [← parameters_length argSpec 0 front, ← ha.parameters, List.length_map]
    refine ⟨?_, ?_, ?_, ?_, ?_, ?_, ?_⟩
    · rw [hl, hsplit, List.map_append, ha.parameters, hb.parameters, modelParameters_append,
        modelParameters_eq hfront, FullArgSpec.modelParameters, modelParameters_eq hrest,
        Nat.zero_add]
    · intro i arg harg
      rw [hl] at harg
      by_cases hi : i < a.length
      · rw [List.getElem?_append_left hi] at harg
        rw [ha.position i arg harg, if_neg (not_not.mpr hcontext), Nat.zero_add]
      · rw [List.getElem?_append_right (by omega)] at harg
        rw [hb.position _ arg harg, if_pos (by simp)]
        congr 1
        omega
    · rw [hl, hloaded, hb.allArgs, List.map_append, List.foldl_append, ← ha.allArgs]
    · rw [hloaded, hb.context, hctx]
      rfl
    · rw [hloaded, hb.kwargs]
      exact ha.kwargs
    · rw [hloaded, hb.varArgs]
      exact ha.varArgs
    · rw [hloaded, hb.varKwargs]
      exact ha.varKwargs

theorem loadSignature_represents (fullName : String) (argSpec : FullArgSpec τ ν) :
    Represents (loadSignature fullName argSpec) argSpec.modelSignature ∧
      (loadSignature fullName argSpec).context = (contextFrom 0 argSpec.args).map Prod.fst := by
  let catchAll (arg : String × τ) : PluginArgument τ ν := ⟨arg.1, arg.2, none, none⟩
  let start : Plugin τ ν := ⟨fullName, none, [], argSpec.varargs.map catchAll, .empty,
    argSpec.varkw.map catchAll, .empty⟩
  let loaded := loadArgs argSpec 0 argSpec.args start
  obtain ⟨hargs, hposition, hall, hcontext, hkwargs, hvar, hvarkw⟩ :=
    @loadArgs_spec _ _ argSpec start rfl rfl
  have hload : loadSignature fullName argSpec = { loaded with
      kwargs := .ofList (argSpec.kwonlyargs.map argSpec.kwonly)
      allArgs := .ofList ((loaded.args.map fun arg => (arg.argName, arg)) ++
        argSpec.kwonlyargs.map argSpec.kwonly) } := by
    rw [loadSignature, loadKwonlyargs_eq, Dict.ofList, Dict.ofList, List.foldl_append]
    show ({ loaded with kwargs := _, allArgs := _ } : Plugin τ ν) = _
    rw [hkwargs, hall]
  have hkeys : (argSpec.kwonlyargs.map argSpec.kwonly).map Prod.fst
      = argSpec.kwonlyargs.map Prod.fst := by
    rw [List.map_map]
    rfl
  have hnames : argSpec.modelSignature.names
      = (argSpec.modelParameters 0 argSpec.args).map (·.name)
        ++ argSpec.kwonlyargs.map Prod.fst := by
    rw [Signature.names, List.map_append]
    refine congrArg _ ?_
    show (argSpec.kwonlyargs.map _).map _ = _
    rw [List.map_map]
    rfl
  have hsub : ∀ (position : ℕ) (l : List (String × Annotation τ)),
      ((argSpec.modelParameters position l).map (·.name)).Sublist (l.map Prod.fst) := by
    intro position l
    induction l generalizing position with
    | nil => exact List.Sublist.refl _
    | cons a l ih =>
        obtain ⟨arg, annotation⟩ := a
        cases annotation with
        | context => exact (ih _).cons _
        | type t => exact (ih _).cons_cons _
  have hkwnodup : ((argSpec.kwonlyargs.map argSpec.kwonly).map Prod.fst).Nodup := by
    rw [hkeys]
    exact (List.nodup_append.mp argSpec.nodup).2.1
  have hitems := Dict.items_ofList hkwnodup
  have hnamesArgs : (loaded.args.map fun arg => (arg.argName, arg)).map Prod.fst
      = (argSpec.modelParameters 0 argSpec.args).map (·.name) := by
    rw [← hargs, List.map_map, List.map_map]
    rfl
  refine ⟨?_, by rw [hload]; exact hcontext⟩
  rw [hload]
  constructor
  · rw [hnames]
    exact argSpec.nodup.sublist ((hsub 0 argSpec.args).append (List.Sublist.refl _))
  · exact hargs
  · exact hposition
  · rw [hitems, List.map_map]
    rfl
  · intro item hitem
    rw [hitems] at hitem
    obtain ⟨a, -, rfl⟩ := List.mem_map.mp hitem
    exact ⟨rfl, rfl⟩
  · intro name
    rw [Dict.mem_ofList, List.map_append, hkeys, hnames, hnamesArgs]
  · intro name arg harg
    rcases List.mem_append.mp (Dict.get?_ofList harg) with hmem | hmem
    · obtain ⟨a, ha, heq⟩ := List.mem_map.mp hmem
      obtain ⟨rfl, rfl⟩ := Prod.mk.inj heq
      exact ⟨rfl, Or.inl ha⟩
    · obtain ⟨a, -, heq⟩ := List.mem_map.mp hmem
      obtain ⟨rfl, rfl⟩ := Prod.mk.inj heq
      exact ⟨rfl, Or.inr (by rw [hitems]; exact hmem)⟩
  · show loaded.varArgs.isSome = _
    rw [hvar]
    exact Option.isSome_map
  · show loaded.varKwargs.isSome = _
    rw [hvarkw]
    exact Option.isSome_map
  · intro arg harg
    have harg : loaded.varKwargs = some arg := harg
    rw [hvarkw] at harg
    obtain ⟨a, -, rfl⟩ := Option.map_eq_some_iff.mp harg
    rfl

/-! ## The call of the function -/

/-- How Python binds the arguments, with the context for its parameter. -/
def pythonBinding (argSpec : FullArgSpec τ ν) (context : ν) (args : List ν)
    (kwargs : Dict String ν) : Except TypeError (Binding ν) :=
  match contextFrom 0 argSpec.args with
  | none => argSpec.modelSignature.bind args kwargs
  | some (position, name) =>
      if name ∈ kwargs then .error (.multipleValues name)
      else
        match argSpec.modelSignature.bind args kwargs with
        | .error e => .error e
        | .ok b => .ok { b with positional := insert b.positional position (name, context) }

/-- The checks accept what Python accepts, and then Python binds what the function is called with
in that way. -/
structure BoundAsPython (isUnknown : ν → Bool)
    (convertAndValidate : ν → PluginArgument τ ν → Except String ν) (plugin : Plugin τ ν)
    (argSpec : FullArgSpec τ ν) (allowUnknown : Bool) (context : ν) (args : List ν)
    (kwargs : Dict String ν) : Prop where
  accepts : (∃ c, plugin.checkArgs isUnknown convertAndValidate args kwargs = .ok c) ↔
    ∃ b, pythonBinding argSpec context args kwargs = .ok b
  binds : ∀ c, plugin.checkArgs isUnknown convertAndValidate args kwargs = .ok c →
    ∃ args' kwargs', callInContext isUnknown convertAndValidate plugin allowUnknown context args
        kwargs = .ok (.call args' kwargs') ∧
      ∃ b, argSpec.signature.bind args' kwargs' = .ok b ∧
        pythonBinding argSpec context c.args c.kwargs = .ok b

/-- There is a context parameter, and positional arguments do not come up to it or a keyword
argument has its name. -/
def ContextMisplaced (argSpec : FullArgSpec τ ν) (args : List ν) (kwargs : Dict String ν) : Prop :=
  ∃ position name, contextFrom 0 argSpec.args = some (position, name) ∧
    (∃ b, argSpec.modelSignature.bind args kwargs = .ok b) ∧
    (args.length < position ∨ name ∈ kwargs)

theorem drop_insert {position k : ℕ} (h : position ≤ args.length) (hk : position ≤ k) (value : ν) :
    (insert args position value).drop (k + 1) = args.drop k := by
  rw [insert, List.drop_append, List.drop_eq_nil_of_le (by rw [List.length_take]; omega),
    List.length_take, Nat.min_eq_left h, show k + 1 - position = (k - position) + 1 by omega,
    List.drop_succ_cons, List.drop_drop, List.nil_append]
  congr 1
  omega

variable {context : ν} {front rest : List (String × Annotation τ)} {name : String}

theorem signature_positional (h : argSpec.args = front ++ (name, .context) :: rest) :
    argSpec.signature.positional = argSpec.parameters 0 front ++
      ⟨name, argSpec.default front.length⟩ :: argSpec.parameters (front.length + 1) rest := by
  rw [FullArgSpec.signature, h, parameters_append, Nat.zero_add]
  rfl

theorem modelSignature_positional (h : argSpec.args = front ++ (name, .context) :: rest)
    (hfront : ∀ a ∈ front, a.2.isContext = false) (hrest : ∀ a ∈ rest, a.2.isContext = false) :
    argSpec.modelSignature.positional
      = argSpec.parameters 0 front ++ argSpec.parameters (front.length + 1) rest := by
  rw [FullArgSpec.modelSignature, h, modelParameters_append, modelParameters_eq hfront,
    Nat.zero_add, FullArgSpec.modelParameters, modelParameters_eq hrest]

theorem mem_signature_names (h : argSpec.args = front ++ (name, .context) :: rest)
    (hfront : ∀ a ∈ front, a.2.isContext = false) (hrest : ∀ a ∈ rest, a.2.isContext = false)
    {n : String} (hn : n ≠ name) :
    n ∈ argSpec.signature.names ↔ n ∈ argSpec.modelSignature.names := by
  have hkw : argSpec.modelSignature.keywordOnly = argSpec.signature.keywordOnly := rfl
  rw [Signature.names, Signature.names, hkw, signature_positional h,
    modelSignature_positional h hfront hrest]
  simp [hn]

/-- The context at the position of its parameter takes nothing from the other parameters. -/
theorem bind_insert_context (h : argSpec.args = front ++ (name, .context) :: rest)
    (hfront : ∀ a ∈ front, a.2.isContext = false) (hrest : ∀ a ∈ rest, a.2.isContext = false)
    (hlen : front.length ≤ args.length) (hname : name ∉ kwargs) {b : Binding ν}
    (hb : argSpec.modelSignature.bind args kwargs = .ok b) :
    argSpec.signature.bind (insert args front.length context) kwargs
      = .ok { b with positional := insert b.positional front.length (name, context) } := by
  obtain ⟨hmany, hkw, hp, hk, hvar, hvarkw⟩ := bind_eq_ok_iff.mp hb
  have hne : ∀ n ∈ kwargs, n ≠ name := fun n hn heq => hname (heq ▸ hn)
  have hmodel := modelSignature_positional h hfront hrest
  have hsignature := signature_positional h
  have hlength : argSpec.signature.positional.length
      = argSpec.modelSignature.positional.length + 1 := by
    rw [hmodel, hsignature, List.length_append, List.length_append, List.length_cons]
    omega
  have hinsert : (insert args front.length context).length = args.length + 1 := by
    rw [insert, List.length_append, List.length_cons, List.length_take, List.length_drop]
    omega
  refine bind_eq_ok_iff.mpr
    ⟨hmany.imp id (by omega), hkw.imp id fun hall n hn => ?_, ?_, hk, ?_, ?_⟩
  · exact (mem_signature_names h hfront hrest (hne n hn)).mpr (hall n hn)
  · -- the parameters in front of the context and those behind it, each with their arguments
    have htake : (args.take front.length).length = (argSpec.parameters 0 front).length := by
      rw [List.length_take, parameters_length]
      omega
    rw [hmodel, ← List.take_append_drop front.length args] at hp
    obtain ⟨x, y, hx, hy, hxy⟩ := (bindParameters_append htake).mp hp
    have hxlen : x.length = front.length := by
      rw [bindParameters_length hx, parameters_length]
    rw [hsignature, insert]
    refine (bindParameters_append htake).mpr ⟨x, (name, context) :: y, hx, ?_, ?_⟩
    · exact bindParameters_cons_cons.mpr ⟨hname, y, hy, rfl⟩
    · show insert b.positional front.length (name, context) = x ++ (name, context) :: y
      rw [hxy, insert, ← hxlen, List.take_left, List.drop_left]
  · show b.varargs = _
    rw [hvar, hlength]
    refine (drop_insert hlen ?_ context).symm
    rw [hmodel, List.length_append, parameters_length]
    omega
  · show b.varkw = _
    rw [hvarkw]
    refine List.filter_congr fun item hitem => ?_
    have hmem : item.1 ∈ kwargs := Dict.mem_of_get? (Dict.get?_eq_some_iff.mpr hitem)
    simp only [mem_signature_names h hfront hrest (hne _ hmem)]

/-- A context that comes too early is not what its parameter is bound to. -/
theorem bind_context_too_early (h : argSpec.args = front ++ (name, .context) :: rest)
    (hlen : args.length < front.length) (hname : name ∉ kwargs) {b : Binding ν}
    (hb : argSpec.signature.bind (insert args front.length context) kwargs = .ok b) :
    ∃ value, argSpec.default front.length = some value ∧
      b.positional[front.length]? = some (name, value) := by
  obtain ⟨-, -, hp, -, -, -⟩ := bind_eq_ok_iff.mp hb
  have hat : argSpec.signature.positional[front.length]?
      = some ⟨name, argSpec.default front.length⟩ := by
    rw [signature_positional h,
      List.getElem?_append_right (Nat.le_of_eq (parameters_length argSpec 0 front)),
      parameters_length, Nat.sub_self]
    rfl
  have hshort : (insert args front.length context).length ≤ front.length := by
    rw [insert, List.length_append, List.length_cons, List.length_take, List.length_drop]
    omega
  obtain ⟨value, hvalue, hget⟩ := bindParameters_getElem? hp hat hshort
  rw [Dict.not_mem_iff.mp hname, Option.none_or] at hvalue
  exact ⟨value, hvalue, hget⟩

theorem callInContext_eq {plugin : Plugin τ ν} {allowUnknown : Bool} {c : CheckedArgs ν}
    (hc : plugin.checkArgs isUnknown convertAndValidate args kwargs = .ok c)
    (hunknown : allowUnknown = true ∨
      (args.any isUnknown || kwargs.values.any isUnknown) = false) :
    callInContext isUnknown convertAndValidate plugin allowUnknown context args kwargs
      = .ok (.call (match plugin.context with
        | none => c.args
        | some position => insert c.args position context) c.kwargs) := by
  have hknown : (c.unknowns && !allowUnknown) = false := by
    rw [(checkArgs_shape hc).2.2]
    rcases hunknown with h | h <;> simp [h]
  rw [callInContext, hc]
  simp only [hknown]
  cases plugin.context <;> rfl

/-- With a context parameter, Python binds what the model signature binds, and the context in its
place. -/
theorem pythonBinding_eq_ok_iff {position : ℕ} {b : Binding ν}
    (h : contextFrom 0 argSpec.args = some (position, name)) :
    pythonBinding argSpec context args kwargs = .ok b ↔ name ∉ kwargs ∧
      ∃ b', argSpec.modelSignature.bind args kwargs = .ok b' ∧
        b = { b' with positional := insert b'.positional position (name, context) } := by
  rw [pythonBinding, h]
  by_cases hname : name ∈ kwargs
  · simp [hname]
  · cases argSpec.modelSignature.bind args kwargs with
    | error e => simp [hname]
    | ok b' => simp [hname, eq_comm]

/-- What was checked can be bound, as the checks keep how many arguments there are and their
names. -/
theorem checked_binds {plugin : Plugin τ ν} {c : CheckedArgs ν}
    (hrep : Represents plugin argSpec.modelSignature)
    (htypes : AcceptedTypes isUnknown convertAndValidate plugin args kwargs)
    (hc : plugin.checkArgs isUnknown convertAndValidate args kwargs = .ok c) :
    ∃ b, argSpec.modelSignature.bind c.args c.kwargs = .ok b := by
  obtain ⟨hlen, hmem, -⟩ := checkArgs_shape hc
  exact (bind_isOk_congr hlen hmem).mpr ((checkArgs_isOk_iff hrep htypes).mp ⟨c, hc⟩)

/-- The argument in the place of the context, where there are arguments up to it. -/
theorem getElem?_insert_self {α : Type} {l : List α} {position : ℕ} (h : position ≤ l.length)
    (value : α) : (insert l position value)[position]? = some value := by
  rw [insert, List.getElem?_append_right (by rw [List.length_take]; omega), List.length_take,
    Nat.min_eq_left h, Nat.sub_self]
  rfl

section

variable {fullName : String} {allowUnknown : Bool}

/-- Without a context the function has the signature that is checked. -/
theorem boundAsPython_of_no_context (hnone : contextFrom 0 argSpec.args = none)
    (hall : ∀ a ∈ argSpec.args, a.2.isContext = false)
    (htypes : AcceptedTypes isUnknown convertAndValidate (loadSignature fullName argSpec) args
      kwargs)
    (hunknown : allowUnknown = true ∨
      (args.any isUnknown || kwargs.values.any isUnknown) = false) :
    BoundAsPython isUnknown convertAndValidate (loadSignature fullName argSpec) argSpec allowUnknown
      context args kwargs := by
  obtain ⟨hrep, hcontext⟩ := loadSignature_represents fullName argSpec
  have hsame : argSpec.modelSignature = argSpec.signature := by
    rw [FullArgSpec.modelSignature, modelParameters_eq hall]
    rfl
  refine ⟨?_, fun c hc => ?_⟩
  · rw [checkArgs_isOk_iff hrep htypes]
    simp only [pythonBinding, hnone]
  · obtain ⟨b, hb⟩ := checked_binds hrep htypes hc
    rw [callInContext_eq hc hunknown, hcontext, hnone]
    refine ⟨_, _, rfl, b, hsame ▸ hb, ?_⟩
    simp only [pythonBinding, hnone]
    exact hb

/-- With a context parameter, the function is called with the context in its place. -/
theorem callInContext_insert {position : ℕ} {c : CheckedArgs ν}
    (hctx : contextFrom 0 argSpec.args = some (position, name))
    (hunknown : allowUnknown = true ∨
      (args.any isUnknown || kwargs.values.any isUnknown) = false)
    (hc : (loadSignature fullName argSpec).checkArgs isUnknown convertAndValidate args kwargs
      = .ok c) :
    callInContext isUnknown convertAndValidate (loadSignature fullName argSpec) allowUnknown context
      args kwargs = .ok (.call (insert c.args position context) c.kwargs) := by
  rw [callInContext_eq hc hunknown, (loadSignature_represents fullName argSpec).2, hctx]
  rfl

/-- Where the context is misplaced, its parameter gets its default, if there is a call at all. -/
theorem not_boundAsPython_of_misplaced (hsplit : argSpec.args = front ++ (name, .context) :: rest)
    (hctx : contextFrom 0 argSpec.args = some (front.length, name))
    (hfront : ∀ a ∈ front, a.2.isContext = false) (hrest : ∀ a ∈ rest, a.2.isContext = false)
    (htypes : AcceptedTypes isUnknown convertAndValidate (loadSignature fullName argSpec) args
      kwargs)
    (hunknown : allowUnknown = true ∨
      (args.any isUnknown || kwargs.values.any isUnknown) = false)
    (hnew : ∀ position, argSpec.default position ≠ some context)
    (hmodel : ∃ b, argSpec.modelSignature.bind args kwargs = .ok b)
    (hwhere : args.length < front.length ∨ name ∈ kwargs) :
    ¬ BoundAsPython isUnknown convertAndValidate (loadSignature fullName argSpec) argSpec
      allowUnknown context args kwargs := by
  rintro ⟨haccepts, hbinds⟩
  have hrep := (loadSignature_represents fullName argSpec).1
  obtain ⟨c, hc⟩ := (checkArgs_isOk_iff hrep htypes).mpr hmodel
  obtain ⟨hlen, hmem, -⟩ := checkArgs_shape hc
  obtain ⟨b, hb⟩ := haccepts.mp ⟨c, hc⟩
  have hname : name ∉ kwargs := ((pythonBinding_eq_ok_iff hctx).mp hb).1
  have hearly : c.args.length < front.length := by
    rw [hlen]
    exact hwhere.resolve_right hname
  obtain ⟨args', kwargs', hcalled, b, hb, hpython⟩ := hbinds c hc
  rw [callInContext_insert hctx hunknown hc] at hcalled
  obtain ⟨rfl, rfl⟩ := Outcome.call.inj (Except.ok.inj hcalled)
  obtain ⟨hname', bm, hbm, rfl⟩ := (pythonBinding_eq_ok_iff hctx).mp hpython
  obtain ⟨value, hdefault, hget⟩ := bind_context_too_early hsplit hearly hname' hb
  have hbmlen : front.length ≤ bm.positional.length := by
    rw [bindParameters_length (bind_eq_ok_iff.mp hbm).2.2.1,
      modelSignature_positional hsplit hfront hrest, List.length_append, parameters_length]
    omega
  have heq := (getElem?_insert_self hbmlen (name, context)).symm.trans hget
  obtain ⟨-, rfl⟩ := Prod.mk.inj (Option.some.inj heq)
  exact hnew front.length hdefault

/-- Where the context is not misplaced, the context comes to its parameter. -/
theorem boundAsPython_of_placed (hsplit : argSpec.args = front ++ (name, .context) :: rest)
    (hctx : contextFrom 0 argSpec.args = some (front.length, name))
    (hfront : ∀ a ∈ front, a.2.isContext = false) (hrest : ∀ a ∈ rest, a.2.isContext = false)
    (htypes : AcceptedTypes isUnknown convertAndValidate (loadSignature fullName argSpec) args
      kwargs)
    (hunknown : allowUnknown = true ∨
      (args.any isUnknown || kwargs.values.any isUnknown) = false)
    (hplaced : ∀ b, argSpec.modelSignature.bind args kwargs = .ok b →
      front.length ≤ args.length ∧ name ∉ kwargs) :
    BoundAsPython isUnknown convertAndValidate (loadSignature fullName argSpec) argSpec allowUnknown
      context args kwargs := by
  have hrep := (loadSignature_represents fullName argSpec).1
  have hcheck := checkArgs_isOk_iff hrep htypes
  refine ⟨hcheck.trans ⟨?_, ?_⟩, fun c hc => ?_⟩
  · rintro ⟨b, hb⟩
    exact ⟨_, (pythonBinding_eq_ok_iff hctx).mpr ⟨(hplaced b hb).2, b, hb, rfl⟩⟩
  · rintro ⟨b, hb⟩
    obtain ⟨-, bm, hbm, -⟩ := (pythonBinding_eq_ok_iff hctx).mp hb
    exact ⟨bm, hbm⟩
  · obtain ⟨hlen, hmem, -⟩ := checkArgs_shape hc
    obtain ⟨b₀, hb₀⟩ := hcheck.mp ⟨c, hc⟩
    obtain ⟨hfits, hname⟩ := hplaced b₀ hb₀
    have hname' : name ∉ c.kwargs := mt (hmem name).mp hname
    obtain ⟨b, hb⟩ := checked_binds hrep htypes hc
    exact ⟨_, _, callInContext_insert hctx hunknown hc, _,
      bind_insert_context hsplit hfront hrest (by omega) hname' hb,
      (pythonBinding_eq_ok_iff hctx).mpr ⟨hname', b, hb, rfl⟩⟩

end

end

/-- `def f(value: int, context: Context)` -/
def valueThenContext : FullArgSpec Unit ℕ where
  args := [("value", .type ()), ("context", .context)]
  defaults := []
  varargs := none
  varkw := none
  kwonlyargs := []
  kwonlydefaults := .empty
  nodup := by decide
  context_unique := by decide

end PluginBinding

end Inmanta
