import Inmanta.Protocol.ReceivedMessage

/-!
# Arguments survive the wire

Which arguments a handler is handed exactly as they were passed, by where they
travel. In a body a member of an enum has to be named like its value, and on a
websocket a float has to be finite. In the query of a GET, strings have to be
ASCII over HTTP, dictionaries must not be empty, and neither None nor an empty
list is told from an argument that was not passed. Other operations without a
body read neither dictionaries nor lists of one element.

`arguments_survive_iff` puts the conditions together: a call arrives exactly if
and only if each of its arguments meets the condition of its place.
-/

namespace Inmanta

variable {F U : Type} [PyFloat F] [Printed U] [PyRepr F U]

/-! ## Loops over the parameters -/

section Loops

variable {ε α β γ : Type} {f : α → Except ε β} {g : β → Except ε γ} {h : α → γ} {l : List α}

theorem loops_eq_ok_iff :
    (l.mapM f >>= fun ys => ys.mapM g) = .ok (l.map h)
      ↔ ∀ x ∈ l, ∃ y, f x = .ok y ∧ g y = .ok (h x) := by
  induction l with
  | nil => exact ⟨fun _ x hx => absurd hx List.not_mem_nil, fun _ => rfl⟩
  | cons x l ih =>
      rw [List.forall_mem_cons, ← ih, List.mapM_cons]
      constructor
      · intro hloop
        obtain ⟨ys, hys, hmap⟩ := bind_eq_ok.mp hloop
        obtain ⟨y, hy, hys⟩ := bind_eq_ok.mp hys
        obtain ⟨ys', hys', hys⟩ := bind_eq_ok.mp hys
        obtain rfl := Except.ok.inj hys
        rw [List.mapM_cons] at hmap
        obtain ⟨z, hz, hmap⟩ := bind_eq_ok.mp hmap
        obtain ⟨zs, hzs, hmap⟩ := bind_eq_ok.mp hmap
        obtain ⟨rfl, rfl⟩ := List.cons.inj (Except.ok.inj hmap)
        exact ⟨⟨y, hy, hz⟩, bind_eq_ok.mpr ⟨ys', hys', hzs⟩⟩
      · rintro ⟨⟨y, hy, hz⟩, hloop⟩
        obtain ⟨ys', hys', hzs⟩ := bind_eq_ok.mp hloop
        rw [hy, hys']
        simp [hz, hzs]

theorem length_of_mapM_ok {ys : List β} (hl : l.mapM f = .ok ys) : ys.length = l.length := by
  induction l generalizing ys with
  | nil =>
      obtain rfl := Except.ok.inj hl
      rfl
  | cons x l ih =>
      rw [List.mapM_cons] at hl
      obtain ⟨y, -, hl⟩ := bind_eq_ok.mp hl
      obtain ⟨ys', hys', hl⟩ := bind_eq_ok.mp hl
      obtain rfl := Except.ok.inj hl
      exact congrArg Nat.succ (ih hys')

theorem forM_eq_ok_iff {f : α → Except ε Unit} : l.forM f = .ok () ↔ ∀ x ∈ l, f x = .ok () := by
  refine ⟨forM_ok, fun hall => ?_⟩
  induction l with
  | nil => rfl
  | cons x l ih =>
      obtain ⟨hx, hl⟩ := List.forall_mem_cons.mp hall
      exact bind_eq_ok.mpr ⟨(), hx, ih hl⟩

end Loops

/-! ## Conditions -/

namespace ArgType

/-- The value of an entry is read back from its field. -/
def EntryReadBack (tr : Transport) (t : ArgType) (v : ArgValue F U) : Prop :=
  match t, v with
  | .list t, .list vs => vs ≠ [] ∧ ∀ x ∈ vs, t.ReadFromText tr x x.pyStr
  | t, v => t.ReadFromText tr v v.queryText

end ArgType

namespace Param

variable (p : Param F U) (o : Operation) (tr : Transport)

/-- The value is what the receiver takes for a field it does not have. -/
def TakenFor (header : Option (List Char)) (v : ArgValue F U) : Prop :=
  if o = .get ∧ p.type.isDict then p.type.strip ≠ p.type ∧ v = .none
  else
    match header with
    | some s => p.type.ReadAs v s
    | none => ∃ d, p.default = some d ∧ p.type.coerce d = some v

/-- The value is read back from the path. The header, if there is one, agrees. -/
def ReadFromPath (header : Option (List Char)) (s : List Char) (v : ArgValue F U) : Prop :=
  (∀ s', header = some s' → s = s')
    ∧ if o = .get ∧ p.type.strip.isList then
        ∃ t x, p.type.strip = .list t ∧ v = .list [x] ∧ t.ReadAs x s
      else p.type.ReadAs v s

/-- The value is read back from the body. A member of an enum is sent by its name. -/
def ReadFromBody : ArgValue F U → Prop
  | .enum e n => p.type.ReadAs (.enum e n : ArgValue F U) n
  | v => p.type.ReadFromJson tr v

/-- The value is read back from the query. -/
def ReadFromQuery : ArgValue F U → Prop
  | .none => p.TakenFor o none .none
  | .list [] => p.TakenFor o none (.list [])
  | .list vs => (o = .get ∨ vs.length ≠ 1)
      ∧ ∃ t, p.type.strip = .list t ∧ ∀ x ∈ vs, t.ReadFromText tr x x.pyStr
  | .dict items =>
      if o = .get then
        items ≠ [] ∧ ∃ t, p.type.strip = .dict t
          ∧ ∀ y ∈ items, y.1 ≠ [] ∧ (tr = .http → Ascii y.1) ∧ t.EntryReadBack tr y.2
      -- other operations do not read the entries, so that there must not be any
      else (∀ y ∈ items, y.2.queryTexts = []) ∧ p.TakenFor o none (.dict items)
  | v => p.type.ReadFromText tr v v.byName.pyStr

end Param

namespace MethodProperties

variable (m : MethodProperties F U) (msg : Arguments F U)

/-- What the handler should have for a parameter. -/
def argument (p : Param F U) : ArgValue F U := (msg.get? p.name).getD (p.default.getD .none)

def handed : List (List Char × ArgValue F U) := m.params.map fun p => (p.name, argument msg p)

/-- The argument arrives, from the path, the body, the query or a header. -/
def Arrives (tr : Transport) (kwargs headers : Dict (List Char) (List Char)) (p : Param F U) :
    Prop :=
  let header := p.header.bind fun h => headers.get? (tr.headerName h)
  match kwargs.get? p.name with
  | some s => p.ReadFromPath m.operation header s (argument msg p)
  | none =>
      match p.header, msg.get? p.name with
      | none, some v =>
          if m.operation.hasBody then p.ReadFromBody tr v else p.ReadFromQuery m.operation tr v
      | _, _ => p.TakenFor m.operation header (argument msg p)

/-- Every argument of the call arrives. -/
def Survives (tornadoHeader : List Char → Option (List Char)) (tr : Transport) : Prop :=
  ∃ url kwargs headers, m.getCallUrl msg = .ok url
    ∧ readPath m.path url = some kwargs
    ∧ receiveHeaders tornadoHeader tr (m.callHeaders msg) = some headers
    ∧ ∀ p ∈ m.params, m.Arrives msg tr kwargs headers p

/-! ## Processing -/

variable {m msg}

omit [PyRepr F U] in
/-- What `process` does with an argument that was read. -/
def validated (x : Param F U × ArgValue F U) : Except CallError (List Char × ArgValue F U) :=
  match x.1.type.coerce x.2 with
  | some v => .ok (x.1.name, v)
  | none => .error (.invalid x.1.name)

omit [PyRepr F U] in
theorem process_eq_ok_iff {message : Arguments F U} {headers : Dict (List Char) (List Char)}
    {header : List Char → List Char} :
    m.process message headers header = .ok (m.handed msg)
      ↔ (∀ p ∈ m.params, validateConsistency message headers header p = .ok ()
            ∧ ∃ w, m.argumentValue message headers header p = .ok w
              ∧ p.type.coerce w = some (argument msg p))
          ∧ (m.remainingFields message).filter
              (fun x => !(m.agentServer && x.1 = "sid".toList)) = [] := by
  let read := fun p => (m.argumentValue message headers header p).map (p, ·)
  have hloops : (m.params.mapM read >>= fun ys => ys.mapM validated) = .ok (m.handed msg)
      ↔ ∀ p ∈ m.params, ∃ w, m.argumentValue message headers header p = .ok w
          ∧ p.type.coerce w = some (argument msg p) := by
    rw [handed, loops_eq_ok_iff]
    refine forall₂_congr fun p _ => ?_
    constructor
    · rintro ⟨y, hy, hv⟩
      cases hw : m.argumentValue message headers header p with
      | error e => simp [read, hw, Except.map] at hy
      | ok w =>
          obtain rfl : (p, w) = y := by simpa [read, hw, Except.map] using hy
          cases hc : p.type.coerce w with
          | none => simp [validated, hc] at hv
          | some v => exact ⟨w, rfl, by simpa [validated, hc] using hv⟩
    · rintro ⟨w, hw, hc⟩
      exact ⟨(p, w), by simp [read, hw, Except.map], by simp [validated, hc]⟩
  have hfields : ∀ out, out.length = m.params.length → ∀ l : List (List Char × ArgValue F U),
      out ++ l = m.handed msg ↔ out = m.handed msg ∧ l = [] := fun out hlen l => by
    constructor
    · intro heq
      have hl := congrArg List.length heq
      simp only [List.length_append, handed, List.length_map] at hl
      obtain rfl : l = [] := List.length_eq_zero_iff.mp (by omega)
      exact ⟨by simpa using heq, rfl⟩
    · rintro ⟨rfl, rfl⟩
      exact List.append_nil _
  rw [forall₂_and, ← hloops, ← forM_eq_ok_iff, process, bind_eq_ok]
  constructor
  · rintro ⟨⟨⟩, hcheck, h⟩
    obtain ⟨ys, hys, h⟩ := bind_eq_ok.mp h
    obtain ⟨out, hout, h⟩ := bind_eq_ok.mp h
    have hlen : out.length = m.params.length :=
      (length_of_mapM_ok hout).trans (length_of_mapM_ok hys)
    have hend : out = m.handed msg ∧ (m.remainingFields message).filter
        (fun x => !(m.agentServer && x.1 = "sid".toList)) = [] := by
      simp only at h
      split at h
      · exact (hfields out hlen _).mp (Except.ok.inj h)
      · split at h
        · next hnil => exact ⟨Except.ok.inj h, hnil⟩
        · cases h
    refine ⟨⟨hcheck, bind_eq_ok.mpr ⟨ys, hys, ?_⟩⟩, hend.2⟩
    rw [← hend.1]
    exact hout
  · rintro ⟨⟨hcheck, hall⟩, hnil⟩
    obtain ⟨ys, hys, hout⟩ := bind_eq_ok.mp hall
    refine ⟨(), hcheck, bind_eq_ok.mpr ⟨ys, hys, bind_eq_ok.mpr ⟨_, hout, ?_⟩⟩⟩
    simp only [hnil, List.append_nil, if_true]
    split <;> rfl

/-! ## One argument -/

section Argument

variable {tr : Transport} {hd : Dict (List Char) (List Char)} {p : Param F U}
  {message : Arguments F U} {header : List Char → List Char} {v : ArgValue F U}

/-- The argument is read from the message as the value. -/
def ReadAsArgument (m : MethodProperties F U) (message : Arguments F U)
    (headers : Dict (List Char) (List Char)) (header : List Char → List Char) (p : Param F U)
    (v : ArgValue F U) : Prop :=
  validateConsistency message headers header p = .ok ()
    ∧ ∃ w, m.argumentValue message headers header p = .ok w ∧ p.type.coerce w = some v

omit [PyRepr F U] in
/-- Without a header only the field counts. -/
theorem readAsArgument_of_field {w : ArgValue F U} (hget : message.get? p.name = some w)
    (hh : p.header = none) :
    m.ReadAsArgument message hd header p v
      ↔ p.type.coerce (if m.operation = .get then ensureListIfListType p.type w else w)
          = some v := by
  have hcheck : validateConsistency message hd header p = .ok () := by
    rw [validateConsistency, hget, hh]
    cases w <;> rfl
  rw [ReadAsArgument, argumentValue, hget]
  simp [hcheck]

omit [PyRepr F U] in
theorem readAsArgument_path {s : List Char} (hget : message.get? p.name = some (.str s)) :
    m.ReadAsArgument message hd header p v
      ↔ p.ReadFromPath m.operation (p.header.bind fun h => hd.get? (header h)) s v := by
  have hcheck : validateConsistency message hd header p = .ok ()
      ↔ ∀ s', (p.header.bind fun h => hd.get? (header h)) = some s' → s = s' := by
    rw [validateConsistency, hget]
    cases (p.header.bind fun h => hd.get? (header h)) with
    | none => simp
    | some s' => by_cases hs : s = s' <;> simp [hs]
  rw [ReadAsArgument, Param.ReadFromPath, hcheck, argumentValue, hget]
  refine and_congr_right fun _ => ?_
  simp only [Except.ok.injEq, exists_eq_left']
  by_cases hop : m.operation = .get
  · cases hl : p.type.strip.isList with
    | true =>
        simp only [hop, if_true, ensureListIfListType, hl, and_self]
        rw [ArgType.coerce_list_iff]
        constructor
        · rintro ⟨t, vs, ht, rfl, hvs⟩
          obtain ⟨x, rfl⟩ := List.length_eq_one_iff.mp (length_of_mapM hvs)
          exact ⟨t, x, ht, rfl, ArgType.coerce_str_iff.mp (mapM_cons_eq_some.mp hvs).1⟩
        · rintro ⟨t, x, ht, rfl, hx⟩
          exact ⟨t, [x], ht, rfl, mapM_cons_eq_some.mpr ⟨ArgType.coerce_str_iff.mpr hx, rfl⟩⟩
    | false => simp [hop, ensureListIfListType, hl, ArgType.coerce_str_iff]
  · simp [hop, ArgType.coerce_str_iff]

omit [PyRepr F U] in
theorem readAsArgument_absent (hget : message.get? p.name = none)
    (hno : m.operation = .get → prefixedNames message p.name = []) :
    m.ReadAsArgument message hd header p v
      ↔ p.TakenFor m.operation (p.header.bind fun h => hd.get? (header h)) v := by
  have hcheck : validateConsistency message hd header p = .ok () := by
    rw [validateConsistency, hget]
  have hmem : p.name ∉ message := Dict.not_mem_iff.mpr hget
  rw [ReadAsArgument, argumentValue, hget]
  unfold Param.TakenFor
  simp only [hcheck, true_and, isDictExpression, hmem, not_false_eq_true, decide_true,
    Bool.true_and, Bool.and_eq_true, decide_eq_true_eq]
  split
  · next hdict =>
    rw [hno hdict.1]
    simp [dictExpressionValue, ArgType.coerce_none_iff]
  · cases (p.header.bind fun h => hd.get? (header h)) with
    | some s => simp [ArgType.coerce_str_iff]
    | none =>
        rw [getDefaultValue]
        cases p.default <;> simp

omit [PyRepr F U] in
theorem readAsArgument_dict (hget : message.get? p.name = none) (hop : m.operation = .get)
    (hdict : p.type.isDict = true) :
    m.ReadAsArgument message hd header p v
      ↔ p.type.coerce (dictExpressionValue p.type p.name (prefixedNames message p.name))
          = some v := by
  have hcheck : validateConsistency message hd header p = .ok () := by
    rw [validateConsistency, hget]
  have hmem : p.name ∉ message := Dict.not_mem_iff.mpr hget
  rw [ReadAsArgument, argumentValue, hget]
  simp [hcheck, isDictExpression, hmem, hop, hdict]

/-- The texts of a list come back as a list, unless an operation other than GET has
only one. -/
theorem coerce_queryValue_iff {t : ArgType} {vs : List (ArgValue F U)} {get : Bool}
    (hne : vs ≠ []) (ht : t.strip.isList = true) :
    t.coerce (if get then
        ensureListIfListType t (queryValue ((vs.map ArgValue.pyStr).map tr.hear))
      else queryValue ((vs.map ArgValue.pyStr).map tr.hear)) = some (.list vs)
      ↔ (get = true ∨ vs.length ≠ 1)
        ∧ ∃ t', t.strip = .list t' ∧ ∀ x ∈ vs, t'.ReadFromText tr x x.pyStr := by
  have hlist : t.coerce (.list ((vs.map ArgValue.pyStr).map tr.hear |>.map .str)) = some (.list vs)
      ↔ ∃ t', t.strip = .list t' ∧ ∀ x ∈ vs, t'.ReadFromText tr x x.pyStr := by
    rw [ArgType.coerce_list_iff, List.map_map, List.map_map]
    constructor
    · rintro ⟨t', vs', ht', hvs, hmap⟩
      cases hvs
      refine ⟨t', ht', fun x hx => ?_⟩
      have hx' := mapM_map_eq_some.mp hmap x hx
      exact (ArgType.readAs_hear_iff fun _ => rfl).mp (ArgType.coerce_str_iff.mp hx')
    · rintro ⟨t', ht', hall⟩
      refine ⟨t', vs, ht', rfl, mapM_map_eq_some.mpr fun x hx => ?_⟩
      exact ArgType.coerce_str_iff.mpr ((ArgType.readAs_hear_iff fun _ => rfl).mpr (hall x hx))
  have hstr : ∀ s, t.coerce (.str s : ArgValue F U) ≠ some (.list vs) := fun s h => by
    have hread := ArgType.coerce_str_iff.mp h
    clear h hlist ht
    induction t with
    | optional t ih => exact ih hread
    | _ => exact hread
  rw [← hlist]
  match vs with
  | [] => exact absurd rfl hne
  | [x] =>
      cases get with
      | true => simp [queryValue, ensureListIfListType, ht]
      | false => simpa [queryValue] using hstr _
  | x :: y :: vs => cases get <;> simp [queryValue, ensureListIfListType, ht]

/-- The value of an entry from its field. -/
def entryValue (t : ArgType) (w : ArgValue F U) : ArgValue F U :=
  match t with
  | .list t' => ensureListIfListType (.list t') w
  | _ => w

/-- The values that the entries of a dictionary in a query may have. -/
theorem inQuery_readBack {t : ArgType} {v : ArgValue F U} (hv : t.Has v)
    (ht : (ArgType.dict t).valid true = true) :
    (∃ w, v.inQuery tr = some w ∧ t.coerce (entryValue t w) = some v)
      ↔ t.EntryReadBack tr v := by
  have hscalar : v.queryTexts = [v.queryText] → (∀ t', t ≠ .list t') →
      ((∃ w, v.inQuery tr = some w ∧ t.coerce w = some v)
        ↔ t.ReadFromText tr v v.queryText) := fun htexts _ => by
    simp only [ArgValue.inQuery, htexts, List.map_cons, List.map_nil, queryValue,
      Option.some.injEq, exists_eq_left', ArgType.coerce_str_iff]
    refine ArgType.readAs_hear_iff fun hne => ?_
    cases v with
    | enum e n => exact absurd rfl (hne e n)
    | _ => rfl
  cases t with
  | optional t => simp [ArgType.valid] at ht
  | dict t => simp [ArgType.valid] at ht
  | list t =>
      cases v with
      | list vs =>
          rw [ArgType.EntryReadBack]
          by_cases hne : vs = []
          · subst hne
            simp [ArgValue.inQuery, ArgValue.queryTexts]
          · have hcoerce := @coerce_queryValue_iff F U _ _ _ tr (.list t) vs true hne rfl
            have htexts : (ArgValue.list vs).inQuery tr
                = some (queryValue ((vs.map ArgValue.pyStr).map tr.hear)) := by
              cases vs with
              | nil => exact absurd rfl hne
              | cons x vs => rfl
            simp only [if_true, true_or, true_and] at hcoerce
            simp only [htexts, Option.some.injEq, exists_eq_left', entryValue, hcoerce]
            simp [hne, ArgType.strip]
      | _ => exact absurd hv id
  | enum e =>
      cases v with
      | enum e' n => exact hscalar rfl fun t' h => by cases h
      | _ => exact absurd hv id
  | _ =>
      cases v with
      | list vs => exact absurd hv id
      | dict items => exact absurd hv id
      | _ => first | exact absurd hv id | exact hscalar rfl fun t' h => by cases h

omit [PyFloat F] [Printed U] [PyRepr F U] in
theorem isList_of_has {type : ArgType} {vs : List (ArgValue F U)} (hhas : type.Has (.list vs)) :
    type.strip.isList = true := by
  induction type with
  | optional t ih => exact ih hhas
  | list t => rfl
  | _ => exact absurd hhas id

omit [PyFloat F] [Printed U] [PyRepr F U] in
theorem isList_of_not_list {type : ArgType} {v : ArgValue F U} (hhas : type.Has v)
    (hnone : v ≠ .none) (hlist : ∀ vs, v ≠ .list vs) : type.strip.isList = false := by
  induction type with
  | optional t ih =>
      refine ih ?_
      cases v with
      | none => exact absurd rfl hnone
      | _ => exact hhas
  | list t =>
      cases v with
      | list vs => exact absurd rfl (hlist vs)
      | _ => exact absurd hhas id
  | _ => rfl

omit [PyFloat F] [Printed U] [PyRepr F U] in
theorem strip_of_has_dict {type : ArgType} {items : List (List Char × ArgValue F U)}
    (hhas : type.Has (.dict items)) :
    ∃ t, type.strip = .dict t ∧ (∀ y ∈ items, t.Has y.2)
      ∧ (type.valid true = true → (ArgType.dict t).valid true = true) := by
  induction type with
  | optional t ih => exact ih hhas
  | dict t => exact ⟨t, rfl, hhas.2, id⟩
  | _ => exact absurd hhas id

/-- A dictionary is read from its entries, if it has any. -/
theorem coerce_entries_iff {name : List Char} {items : List (List Char × ArgValue F U)}
    {type : ArgType} (hne : items ≠ []) (hhas : type.Has (.dict items))
    (hvalid : type.valid true = true) :
    type.coerce (dictExpressionValue type name (items.filterMap (entryField tr name)))
        = some (.dict items)
      ↔ ∃ t, type.strip = .dict t
          ∧ ∀ y ∈ items, y.1 ≠ [] ∧ (tr = .http → Ascii y.1) ∧ t.EntryReadBack tr y.2 := by
  obtain ⟨t, ht, hitems, hdict⟩ := strip_of_has_dict hhas
  let conv : List Char × ArgValue F U → List Char × ArgValue F U := fun x =>
    (x.1.drop (name ++ ['.']).length, entryValue t x.2)
  have hvalue : ∀ l, getDictValueFromMessage type (name ++ ['.']) l
      = (.dict (l.map conv) : ArgValue F U) := fun l => by
    rw [getDictValueFromMessage, ht]
    cases t <;> rfl
  have hnil : items.filterMap (entryField tr name) = [] →
      type.coerce (.dict [] : ArgValue F U) ≠ some (.dict items) := fun _ h => by
    obtain ⟨t', items', -, heq, hmap⟩ := ArgType.coerce_dict_iff.mp h
    cases heq
    exact hne (Option.some.inj hmap).symm
  have hmatch : type.coerce (dictExpressionValue type name (items.filterMap (entryField tr name)))
        = some (.dict items)
      ↔ type.coerce (.dict ((items.filterMap (entryField tr name)).map conv) : ArgValue F U)
          = some (.dict items) := by
    cases hl : items.filterMap (entryField tr name) with
    | nil =>
        simp only [List.map_nil, hnil hl, iff_false, dictExpressionValue]
        rw [ArgType.coerce_none_iff]
        simp
    | cons x l => rw [← hvalue, dictExpressionValue]; simp
  rw [hmatch, ArgType.coerce_dict_iff, List.map_filterMap]
  have hentry : ∀ y ∈ items,
      (∃ z, (entryField tr name y).map conv = some z ∧ (t.coerce z.2).map (z.1, ·) = some y)
        ↔ y.1 ≠ [] ∧ (tr = .http → Ascii y.1) ∧ t.EntryReadBack tr y.2 := fun y hy => by
    rw [← inQuery_readBack (hitems y hy) (hdict hvalid), ← Transport.hear_eq_iff]
    obtain ⟨k, v⟩ := y
    by_cases hk : k = []
    · simp [entryField, hk]
    · have hdrop : (name ++ '.' :: tr.hear k).drop (name ++ ['.']).length = tr.hear k := by
        rw [show name ++ '.' :: tr.hear k = (name ++ ['.']) ++ tr.hear k by simp,
          List.drop_left]
      cases hw : v.inQuery tr with
      | none => simp [entryField, hw]
      | some w =>
          simp only [entryField, hk, if_false, hw, Option.map_some, Option.some.injEq,
            exists_eq_left', conv, hdrop, ne_eq, not_false_eq_true, true_and,
            Option.map_eq_some_iff, Prod.mk.injEq, exists_eq_right_right]
          exact and_comm
  constructor
  · rintro ⟨t', items', ht', heq, hmap⟩
    cases heq
    obtain rfl : t = t' := by simpa [ht] using ht'
    exact ⟨t, ht, fun y hy => (hentry y hy).mp (mapM_filterMap_eq_some.mp hmap y hy)⟩
  · rintro ⟨t', ht', hall⟩
    obtain rfl : t = t' := by simpa [ht] using ht'
    exact ⟨t, items, ht, rfl, mapM_filterMap_eq_some.mpr fun y hy => (hentry y hy).mpr (hall y hy)⟩

end Argument

/-! ## The whole call -/

section Call

variable {tr : Transport} {url : List Char} {kw hd : Dict (List Char) (List Char)} {p : Param F U}
  (hm : m.Accepted) (h : m.Typed msg) (hkw : ∀ k, k ∈ kw ↔ PathPiece.var k ∈ m.path)

/-- The fields of an argument in the query are read. -/
def EntriesRead (m : MethodProperties F U) (msg : Arguments F U) (tr : Transport) (p : Param F U) :
    Prop :=
  m.operation.hasBody = false → ∀ items, (p.name, ArgValue.dict items) ∈ m.queryArgs msg →
    ∀ y ∈ items, (y.2.inQuery tr).isSome = true → m.operation = .get ∧ y.1 ≠ []

theorem entriesRead_of_not_dict (hno : ∀ items, (p.name, ArgValue.dict items) ∉ m.queryArgs msg) :
    m.EntriesRead msg tr p := fun _ items hitems => absurd hitems (hno items)

include hm h hkw in
/-- What remains is an entry of a dictionary. -/
theorem dot_mem_of_remaining {x : List Char × ArgValue F U}
    (hx : x ∈ m.remainingFields (receivedMessage tr (m.request msg url) kw)) :
    m.operation.hasBody = false ∧ '.' ∈ x.1 := by
  obtain ⟨hmem, hany⟩ := List.mem_filter.mp hx
  have hnot : ∀ p ∈ m.params, x.1 ≠ p.name := fun p hp heq => by
    simp only [Bool.not_eq_true', List.any_eq_false] at hany
    exact hany p hp (by simp [heq])
  have hpath : x.1 ∉ kw := fun hk => by
    obtain ⟨p, hp, hpx⟩ := List.mem_map.mp (hm.vars x.1 ((hkw x.1).mp hk))
    exact hnot p hp hpx.symm
  have hmsg : x.1 ∉ msg := fun hk => by
    obtain ⟨v, hv⟩ := Dict.mem_iff.mp hk
    obtain ⟨p, hp, hpx, -⟩ := h.typed x.1 v hv
    exact hnot p hp hpx.symm
  cases hbody : m.operation.hasBody with
  | false =>
      obtain hx | hx := (mem_message h hkw hbody hm).mp hmem
      · exact absurd (key_of_path hx) hpath
      · obtain ⟨-, -, hk⟩ | hdot := key_of_query h hx
        · exact absurd hk hmsg
        · exact ⟨rfl, hdot⟩
  | true =>
      have hkey : x.1 ∈ receivedMessage tr (m.request msg url) kw :=
        Dict.mem_keys.mp (List.mem_map.mpr ⟨x, hmem, rfl⟩)
      have hfields : x.1 ∈ (pathFields kw : Arguments F U)
          ∨ x.1 ∈ (bodyFields tr (m.request msg url).body : Arguments F U) := by
        cases tr <;>
          simpa [receivedMessage, queryFields_eq_empty hbody, Dict.mem_update,
            Dict.not_mem_empty] using hkey
      obtain hk | hk := hfields
      · obtain ⟨y, hy, hyx⟩ := List.mem_map.mp (Dict.mem_keys.mpr hk)
        exact absurd (hyx ▸ key_of_path hy) hpath
      · have hkeys := Dict.mem_keys.mpr hk
        rw [Dict.keys, items_bodyFields hbody, List.map_map] at hkeys
        obtain ⟨y, hy, hyx⟩ := List.mem_map.mp hkeys
        obtain ⟨z, hz, rfl⟩ := List.mem_map.mp hy
        have hzmem : z.1 ∈ msg := Dict.mem_keys.mp
          (List.mem_map.mpr ⟨z, List.mem_of_mem_filter hz, rfl⟩)
        exact absurd (show x.1 ∈ msg from hyx ▸ hzmem) hmsg

include hm h hkw in
theorem remainingFields_iff :
    (m.remainingFields (receivedMessage tr (m.request msg url) kw)).filter
        (fun x => !(m.agentServer && x.1 = "sid".toList)) = []
      ↔ ∀ p ∈ m.params, m.EntriesRead msg tr p := by
  have hfilter : (m.remainingFields (receivedMessage tr (m.request msg url) kw)).filter
        (fun x => !(m.agentServer && x.1 = "sid".toList))
      = m.remainingFields (receivedMessage tr (m.request msg url) kw) := by
    refine List.filter_eq_self.mpr fun x hx => ?_
    have hdot := (dot_mem_of_remaining hm h hkw hx).2
    have hsid : x.1 ≠ "sid".toList := fun heq => absurd (heq ▸ hdot) (by decide)
    rw [decide_eq_false hsid, Bool.and_false]
    rfl
  rw [hfilter]
  cases hbody : m.operation.hasBody with
  | false =>
      rw [remainingFields_eq_nil_iff h hkw hbody hm]
      exact forall₂_congr fun p _ => ⟨fun hread _ => hread, fun hread => hread hbody⟩
  | true =>
      refine iff_of_true (List.eq_nil_iff_forall_not_mem.mpr fun x hx => ?_) fun p _ hfalse => ?_
      · exact absurd (dot_mem_of_remaining hm h hkw hx).1 (by simp [hbody])
      · exact absurd hfalse (by simp [hbody])

omit [PyFloat F] [Printed U] [PyRepr F U] in
include h in
theorem Typed.has (hp : p ∈ m.params) {v : ArgValue F U} (hv : msg.get? p.name = some v) :
    p.type.Has v := by
  obtain ⟨p', hp', hname, hhas⟩ := h.typed _ _ hv
  obtain rfl := List.inj_on_of_nodup_map m.distinct hp' hp hname
  exact hhas

omit [PyRepr F U] in
theorem body_iff {v : ArgValue F U} (hhas : p.type.Has v) :
    p.type.coerce (v.byName.json tr) = some v ↔ p.ReadFromBody tr v := by
  cases v with
  | enum e n =>
      rw [ArgValue.byName, ArgValue.json]
      · exact ArgType.coerce_str_iff
      all_goals simp
  | _ => exact ArgType.coerce_json_iff hhas

include hm h hkw in
/-- An argument in the query, where it has no header. -/
theorem argument_query_iff (hp : p ∈ m.params) (hbody : m.operation.hasBody = false)
    (hpath : PathPiece.var p.name ∉ m.path) (hh : p.header = none) {v : ArgValue F U}
    (hv : msg.get? p.name = some v) :
    m.ReadAsArgument (receivedMessage tr (m.request msg url) kw) hd tr.headerName p v
        ∧ m.EntriesRead msg tr p
      ↔ p.ReadFromQuery m.operation tr v := by
  have hget := @get?_message F U _ _ _ m msg tr url kw p h hkw hp
  have hhas := h.has hp hv
  have hnokw : kw.get? p.name = none := Dict.not_mem_iff.mp (mt (hkw p.name).mp hpath)
  rw [hnokw, Option.map_none, Option.none_or, hh, if_pos rfl, hv, Option.bind_some, field,
    if_neg (by simp [hbody])] at hget
  have hargs : ∀ items, (p.name, ArgValue.dict items) ∈ m.queryArgs msg → v = .dict items :=
    fun items hitems => Option.some.inj (hv.symm.trans (get?_of_dict_mem hitems))
  -- without a text the argument is not in the message
  have habsent : (receivedMessage tr (m.request msg url) kw).get? p.name = none →
      (m.operation = .get → prefixedNames (receivedMessage tr (m.request msg url) kw) p.name = []) →
      (m.ReadAsArgument (receivedMessage tr (m.request msg url) kw) hd tr.headerName p v
        ↔ p.TakenFor m.operation none v) := fun hnone hno => by
    have habs := @readAsArgument_absent F U _ _ m hd p _ tr.headerName v hnone hno
    rwa [hh, Option.bind_none] at habs
  have hplain : (∀ items, v ≠ .dict items) →
      m.EntriesRead msg tr p
        ∧ prefixedNames (receivedMessage tr (m.request msg url) kw) p.name = [] := fun hne =>
    ⟨entriesRead_of_not_dict fun items hitems => hne items (hargs items hitems),
      prefixedNames_eq_nil h hkw hbody hm (m.identifiers p hp) fun items hitems =>
        hne items (hargs items hitems)⟩
  have hscalar : (receivedMessage tr (m.request msg url) kw).get? p.name
        = some (.str (tr.hear v.byName.pyStr)) →
      (∀ items, v ≠ .dict items) → p.type.strip.isList = false →
      (m.ReadAsArgument (receivedMessage tr (m.request msg url) kw) hd tr.headerName p v
          ∧ m.EntriesRead msg tr p
        ↔ p.type.ReadFromText tr v v.byName.pyStr) := fun hfield hne hlist => by
    have hens : ∀ w : ArgValue F U, ensureListIfListType p.type w = w := fun w => by
      simp [ensureListIfListType, hlist]
    rw [and_iff_left (hplain hne).1, readAsArgument_of_field hfield hh, hens, ite_self,
      ArgType.coerce_str_iff]
    refine ArgType.readAs_hear_iff fun hno => ?_
    cases v with
    | enum e n => exact absurd rfl (hno e n)
    | _ => rfl
  cases v with
  | none =>
      have hno := hplain (by simp)
      rw [and_iff_left hno.1]
      exact habsent hget fun _ => hno.2
  | list vs =>
      have hno := hplain (by simp)
      rw [and_iff_left hno.1]
      cases vs with
      | nil => exact habsent hget fun _ => hno.2
      | cons x vs =>
          have hlist : p.type.strip.isList = true := isList_of_has hhas
          have hco := @coerce_queryValue_iff F U _ _ _ tr p.type (x :: vs)
            (decide (m.operation = .get)) (by simp) hlist
          simp only [decide_eq_true_eq] at hco
          rw [readAsArgument_of_field hget hh]
          exact hco
  | dict items =>
      have hmem : (p.name, ArgValue.dict items) ∈ m.queryArgs msg :=
        mem_queryArgs.mpr ⟨_, hv, (header?_of_mem hp).trans hh, hpath, rfl, rfl⟩
      have hentries : m.EntriesRead msg tr p ↔ ∀ y ∈ items, (y.2.inQuery tr).isSome = true →
          m.operation = .get ∧ y.1 ≠ [] := by
        refine ⟨fun hread => hread hbody items hmem, fun hread _ items' hitems' => ?_⟩
        obtain rfl : items = items' := by simpa using hargs items' hitems'
        exact hread
      have hnone : (receivedMessage tr (m.request msg url) kw).get? p.name = none := hget
      simp only [Param.ReadFromQuery]
      by_cases hop : m.operation = .get
      · rw [if_pos hop]
        have hdict := @readAsArgument_dict F U _ _ m hd p _ tr.headerName (.dict items) hnone hop
          (isDict_of_has hhas)
        rw [hdict, prefixedNames_of_dict h hkw hbody hm (m.identifiers p hp) hmem, hentries]
        by_cases hne : items = []
        · subst hne
          simp [dictExpressionValue, ArgType.coerce_none_iff]
        · have htype := hm.types p hp
          rw [decide_eq_true hop] at htype
          rw [coerce_entries_iff hne hhas htype]
          constructor
          · exact fun hread => ⟨hne, hread.1⟩
          · rintro ⟨-, t, ht, hall⟩
            exact ⟨⟨t, ht, hall⟩, fun y hy _ => ⟨hop, (hall y hy).1⟩⟩
      · rw [if_neg hop, habsent hnone fun hget => absurd hget hop, hentries, and_comm]
        refine and_congr_left fun _ => forall₂_congr fun y _ => ?_
        rw [ArgValue.inQuery]
        cases y.2.queryTexts <;> simp [hop]
  | bool b => exact hscalar hget (by simp) (isList_of_not_list hhas (by simp) (by simp))
  | int i => exact hscalar hget (by simp) (isList_of_not_list hhas (by simp) (by simp))
  | float x => exact hscalar hget (by simp) (isList_of_not_list hhas (by simp) (by simp))
  | str s => exact hscalar hget (by simp) (isList_of_not_list hhas (by simp) (by simp))
  | uuid u => exact hscalar hget (by simp) (isList_of_not_list hhas (by simp) (by simp))
  | enum e n => exact hscalar hget (by simp) (isList_of_not_list hhas (by simp) (by simp))

include hm h hkw in
theorem argument_iff (hp : p ∈ m.params) :
    m.ReadAsArgument (receivedMessage tr (m.request msg url) kw) hd tr.headerName p (argument msg p)
        ∧ m.EntriesRead msg tr p
      ↔ m.Arrives msg tr kw hd p := by
  have hget := @get?_message F U _ _ _ m msg tr url kw p h hkw hp
  have hdict : ∀ items, (p.name, ArgValue.dict items) ∈ m.queryArgs msg →
      p.header = none ∧ PathPiece.var p.name ∉ m.path
        ∧ msg.get? p.name = some (.dict items) := fun items hitems => by
    obtain ⟨-, -, hheader, hpath, -⟩ := mem_queryArgs.mp hitems
    exact ⟨header?_of_mem hp ▸ hheader, hpath, get?_of_dict_mem hitems⟩
  rw [Arrives]
  cases hk : kw.get? p.name with
  | some s =>
      rw [hk, Option.map_some, Option.some_or] at hget
      have hvar := (hkw p.name).mp (Dict.mem_of_get? hk)
      rw [and_iff_left (entriesRead_of_not_dict fun items hitems => (hdict items hitems).2.1 hvar)]
      exact readAsArgument_path hget
  | none =>
      rw [hk, Option.map_none, Option.none_or] at hget
      have hvar : PathPiece.var p.name ∉ m.path := fun hvar =>
        Dict.not_mem_iff.mpr hk ((hkw p.name).mpr hvar)
      have habsent : (p.header ≠ none ∨ msg.get? p.name = none) →
          (m.ReadAsArgument (receivedMessage tr (m.request msg url) kw) hd tr.headerName p
              (argument msg p) ∧ m.EntriesRead msg tr p
            ↔ p.TakenFor m.operation (p.header.bind fun h => hd.get? (tr.headerName h))
                (argument msg p)) := fun hor => by
        have hno : ∀ items,
            (p.name, ArgValue.dict items) ∉ m.queryArgs msg := fun items hitems => by
          obtain ⟨hh, -, hv⟩ := hdict items hitems
          obtain hne | hnone := hor
          · exact hne hh
          · rw [hnone] at hv
            cases hv
        have hnone : (receivedMessage tr (m.request msg url) kw).get? p.name = none := by
          rw [hget]
          obtain hne | hmsg := hor
          · rw [if_neg hne]
          · simp [hmsg]
        rw [and_iff_left (entriesRead_of_not_dict hno)]
        exact readAsArgument_absent hnone fun hop =>
          prefixedNames_eq_nil h hkw (by rw [hop]; rfl) hm (m.identifiers p hp) hno
      cases hh : p.header with
      | some hname =>
          rw [hh] at habsent
          simpa using habsent (.inl (by simp))
      | none =>
          cases hv : msg.get? p.name with
          | none =>
              rw [hh] at habsent
              simpa using habsent (.inr hv)
          | some v =>
              have harg : argument msg p = v := by rw [argument, hv]; rfl
              rw [harg]
              cases hbody : m.operation.hasBody with
              | true =>
                  have hop : m.operation ≠ .get := fun hop => by
                    simp [hop, Operation.hasBody] at hbody
                  have hfield : (receivedMessage tr (m.request msg url) kw).get? p.name
                      = some (v.byName.json tr) := by
                    rw [hget, hh, if_pos rfl, hv, Option.bind_some, field, if_pos hbody]
                  have hentries : m.EntriesRead msg tr p := fun hfalse => by simp [hbody] at hfalse
                  rw [and_iff_left hentries, readAsArgument_of_field hfield hh, if_neg hop]
                  exact body_iff (h.has hp hv)
              | false =>
                  simpa using argument_query_iff hm h hkw hp hbody hvar hh hv

omit [PyFloat F] [Printed U] [PyRepr F U] in
theorem mem_readPath {path : List PathPiece} (hread : readPath path url = some kw) (k : List Char) :
    k ∈ kw ↔ PathPiece.var k ∈ path := by
  obtain ⟨captures, -, hread⟩ := Option.bind_eq_some_iff.mp hread
  obtain ⟨vars, hvars, hread⟩ := Option.bind_eq_some_iff.mp hread
  obtain rfl := Option.some.inj hread
  have hkeys : ∀ l : List (List Char), ∀ vars : List (List Char × List Char),
      l.mapM (fun k => (unquote (captures.get (String.ofList k))).map (k, ·)) = some vars →
      vars.map Prod.fst = l := fun l => by
    induction l with
    | nil =>
        intro vars hvars
        obtain rfl := Option.some.inj hvars
        rfl
    | cons k l ih =>
        intro vars hvars
        cases vars with
        | nil => exact absurd (length_of_mapM hvars) (by simp)
        | cons x vars =>
            obtain ⟨hx, hl⟩ := mapM_cons_eq_some.mp hvars
            obtain ⟨s, -, rfl⟩ := Option.map_eq_some_iff.mp hx
            exact congrArg (k :: ·) (ih vars hl)
  rw [Dict.mem_ofList, hkeys _ _ hvars, mem_pathVars]

end Call

end MethodProperties

/-! ## Paths -/

/-- The variables of the path are whole segments. -/
def Segmented : List PathPiece → Prop
  | [] => True
  | .char _ :: path => Segmented path
  | .var _ :: path => (path = [] ∨ ∃ path', path = .char '/' :: path') ∧ Segmented path

/-- The path with texts for its variables. -/
def fillPath (texts : List Char → List Char) (path : List PathPiece) : List Char :=
  path.flatMap fun
    | .char c => [c]
    | .var k => texts k

section Paths

variable {texts : List Char → List Char} {path : List PathPiece}

/-- What does not go on with a segment. -/
def SegmentEnds (s : List Char) : Prop := s = [] ∨ ∃ s', s = '/' :: s'

theorem segment_units {s : List Char} (h : '/' ∉ s) :
    Regex.Units (.chr (· ≠ '/')) SegmentEnds s [] := by
  induction s with
  | nil => exact .nil
  | cons c s ih =>
      have hc : c ≠ '/' := fun hc => h (hc ▸ List.mem_cons_self ..)
      refine Regex.Units.cons (u := [c]) (c := []) (by simp) (fun s' => ?_) (fun s' hs' => ?_)
        (ih fun hs => h (List.mem_cons_of_mem c hs))
      · rw [List.singleton_append, Regex.results_chr_cons, if_pos (decide_eq_true hc)]
      · obtain hs' | ⟨s'', hs'⟩ := hs'
        · cases hs'
        · exact hc (List.cons.inj hs').1

theorem pathRegex_stops {path : List PathPiece}
    (hpath : path = [] ∨ ∃ path', path = .char '/' :: path') {s : List Char}
    (hs : ¬ SegmentEnds s) : (pathRegex path).results s = [] := by
  obtain rfl | ⟨path', rfl⟩ := hpath
  · rw [pathRegex, Regex.results, if_neg fun h => hs (.inl h)]
  · rw [pathRegex]
    refine Regex.results_seq_of_nil ?_
    cases s with
    | nil => exact absurd (.inl rfl) hs
    | cons c s =>
        have hc : c ≠ '/' := fun hc => hs (.inr ⟨s, hc ▸ rfl⟩)
        rw [Regex.results_lit_cons, if_neg hc]

theorem reads_path (hseg : Segmented path)
    (ht : ∀ k, PathPiece.var k ∈ path → texts k ≠ [] ∧ '/' ∉ texts k) {β : Type}
    {K : Regex.Match → List β} :
    Regex.Reads (pathRegex path) K (fillPath texts path)
      ((pathVars path).map fun k => (String.ofList k, texts k)) [] := by
  induction path generalizing K with
  | nil => exact Regex.Reads.of_results (by rfl)
  | cons piece path ih =>
      have hpath := fun k hk => ht k (List.mem_cons_of_mem piece hk)
      cases piece with
      | char c =>
          refine Regex.Reads.seq (w := [c]) (c := []) (Regex.Reads.of_results ?_) (ih hseg hpath)
          rw [List.singleton_append, Regex.results_lit_cons, if_pos rfl]
      | var k =>
          obtain ⟨hnext, hseg⟩ := hseg
          obtain ⟨hne, hslash⟩ := ht k (List.mem_cons_self ..)
          refine Regex.Reads.seq (w := texts k) (c := [(String.ofList k, texts k)])
            (Regex.Reads.group (c := []) ?_) (ih hseg hpath)
          refine (segment_units hslash).reads_plus hne ?_ fun x hx => ?_
          · obtain rfl | ⟨path', rfl⟩ := hnext
            · rfl
            · exact Regex.results_chr_cons (p := (· ≠ '/')) '/' |>.trans (by simp)
          · simp [pathRegex_stops hnext hx]

theorem mapM_eq_some_map {α β : Type} {f : α → Option β} {g : α → β} {l : List α}
    (h : ∀ x ∈ l, f x = some (g x)) : l.mapM f = some (l.map g) := by
  induction l with
  | nil => rfl
  | cons x l ih =>
      rw [List.map_cons]
      exact mapM_cons_eq_some.mpr
        ⟨h x (List.mem_cons_self ..), ih fun y hy => h y (List.mem_cons_of_mem x hy)⟩

theorem get_of_forall {c : Regex.Captures} {name : String} {w : List Char}
    (hmem : (name, w) ∈ c) (h : ∀ x ∈ c, x.1 = name → x.2 = w) : c.get name = w := by
  rw [Regex.Captures.get]
  cases hl : c.reverse.lookup name with
  | none =>
      have := List.lookup_eq_none_iff.mp hl _ (List.mem_reverse.mpr hmem)
      simp at this
  | some w' =>
      obtain ⟨l₁, l₂, heq, -⟩ := List.lookup_eq_some_iff.mp hl
      have hw : (name, w') ∈ c := List.mem_reverse.mp (heq ▸ by simp)
      exact h _ hw rfl

/-- The values are read back if none of them is empty. -/
theorem readPath_fillPath (hseg : Segmented path)
    (ht : ∀ k, PathPiece.var k ∈ path → texts k ≠ []) :
    readPath path (fillPath (fun k => quote (texts k)) path)
      = some (.ofList ((pathVars path).map fun k => (k, texts k))) := by
  have hmatch := Regex.fullMatch_of_reads (reads_path hseg
    fun k hk => ⟨mt quote_eq_nil.mp (ht k hk), slash_not_mem_quote _⟩)
  rw [readPath, hmatch]
  refine Option.bind_eq_some_iff.mpr ⟨_, rfl, Option.bind_eq_some_iff.mpr ⟨_, ?_, rfl⟩⟩
  refine mapM_eq_some_map fun k hk => ?_
  have hget : Regex.Captures.get ((pathVars path).map fun k => (String.ofList k, quote (texts k)))
      (String.ofList k) = quote (texts k) :=
    get_of_forall (List.mem_map_of_mem hk) fun x hx hname => by
      obtain ⟨k', -, rfl⟩ := List.mem_map.mp hx
      rw [String.ofList_injective hname]
  rw [hget, unquote_quote, Option.map_some]

end Paths

/-! ## Calls -/

/-- Floats and UUIDs by their texts, for the examples. -/
def PrintedText := { s : List Char // Ascii s }

instance : Printed PrintedText where
  str := Subtype.val
  parse s := if h : Ascii s then some ⟨s, h⟩ else none
  parse_str a := dif_pos a.2
  str_ascii a := a.2

section

attribute [local instance] lawfulArgument

instance : PyFloat PrintedText where
  finite x := x.1 ∉ ["inf", "-inf", "nan"].map String.toList
  ofInt i := ⟨intStr i ++ ".0".toList, fun c hc => by
    obtain hc | hc := List.mem_append.mp hc
    · exact intStr_ascii i c hc
    · exact (show Ascii ".0".toList by simp [Ascii]) c hc⟩
  toInt? x := if ".0".toList.isSuffixOf x.1 then parseInt (x.1.dropLast.dropLast) else none

end

instance : PyRepr PrintedText PrintedText where
  repr _ := "[]".toList

namespace MethodProperties

/-- `GET /find` with one parameter. -/
def find (type : ArgType) : MethodProperties PrintedText PrintedText where
  operation := .get
  path := "/find".toList.map .char
  params := [⟨"q".toList, type, none, none⟩]
  varkw := false
  agentServer := false
  identifiers := by simp [IsIdentifier]
  distinct := by simp

theorem find_accepted : (find .str).Accepted where
  vars k hk := by simp [find] at hk
  types p hp := by
    obtain rfl := List.mem_singleton.mp hp
    rfl

theorem find_typed (s : List Char) : (find .str).Typed (.ofList [("q".toList, .str s)]) where
  typed k v hv := by
    obtain ⟨rfl, rfl⟩ := Prod.mk.inj (List.mem_singleton.mp (Dict.get?_ofList hv))
    exact ⟨_, List.mem_singleton.mpr rfl, rfl, trivial⟩
  required p hp _ := by
    obtain rfl := List.mem_singleton.mp hp
    exact Dict.mem_ofList.mpr (List.mem_singleton.mpr rfl)

/-- `GET /item/<k>`, with a list of tags, further filters and a limit. -/
def item : MethodProperties PrintedText PrintedText where
  operation := .get
  path := "/item/".toList.map .char ++ [.var "k".toList]
  params := [⟨"k".toList, .str, none, none⟩, ⟨"tag".toList, .list .str, some (.list []), none⟩,
    ⟨"filter".toList, .dict .str, none, none⟩, ⟨"limit".toList, .optional .int, some .none, none⟩]
  varkw := false
  agentServer := false
  identifiers := by simp [IsIdentifier]
  distinct := by simp

theorem item_accepted : item.Accepted where
  vars k hk := by
    obtain rfl : k = "k".toList := by simpa [item] using hk
    exact List.mem_cons_self ..
  types p hp := by
    simp only [item, List.mem_cons, List.not_mem_nil, or_false] at hp
    obtain rfl | rfl | rfl | rfl := hp <;> rfl

end MethodProperties

end Inmanta
