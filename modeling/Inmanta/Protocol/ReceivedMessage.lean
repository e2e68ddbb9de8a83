import Inmanta.Protocol.CallArguments
import Inmanta.Protocol.ReadArguments

/-!
# The message of a call

What the receiver has of each argument after the call was built and taken apart
again. The fields of a message come from the path, the body or the query
(`get?_message_body`, `get?_message_query`); an argument in a header has no
field, and neither has one of the query that has no text: None and an empty
list. The entries of a dictionary become fields of their own
(`prefixedNames_message`).
-/

namespace Inmanta

variable {F U : Type}

/-! ## Names -/

theorem IsIdentifier.ascii {name : List Char} (h : IsIdentifier name) : Ascii name := fun c hc => by
  rcases h.2 c hc with hc | rfl
  · simp only [Char.isAlphanum, Char.isAlpha, Char.isUpper, Char.isLower, Char.isDigit,
      Bool.or_eq_true, Bool.and_eq_true, decide_eq_true_eq, ge_iff_le,
      UInt32.le_iff_toNat_le] at hc
    have htoNat : c.val.toNat = c.toNat := rfl
    have hZ : 'Z'.val.toNat = 90 := rfl
    have hz : 'z'.val.toNat = 122 := rfl
    have h9 : '9'.val.toNat = 57 := rfl
    omega
  · decide

theorem IsIdentifier.dot_not_mem {name : List Char} (h : IsIdentifier name) : '.' ∉ name := by
  intro hc
  exact absurd (h.2 '.' hc) (by decide)

theorem append_dot_inj {a b s t : List Char} (ha : '.' ∉ a) (hb : '.' ∉ b) :
    a ++ '.' :: s = b ++ '.' :: t ↔ a = b ∧ s = t := by
  refine ⟨fun h => ?_, fun h => by rw [h.1, h.2]⟩
  induction a generalizing b with
  | nil =>
      cases b with
      | nil => exact ⟨rfl, (List.cons.inj h).2⟩
      | cons c b =>
          obtain ⟨rfl, -⟩ := List.cons.inj h
          exact absurd (List.mem_cons_self ..) hb
  | cons c a ih =>
      cases b with
      | nil =>
          obtain ⟨rfl, -⟩ := List.cons.inj h
          exact absurd (List.mem_cons_self ..) ha
      | cons d b =>
          obtain ⟨rfl, htail⟩ := List.cons.inj h
          obtain ⟨rfl, rfl⟩ := ih (fun hm => ha (List.mem_cons_of_mem _ hm))
            (fun hm => hb (List.mem_cons_of_mem _ hm)) htail
          exact ⟨rfl, rfl⟩

namespace MethodProperties

variable {m : MethodProperties F U} {msg : Arguments F U}

/-! ## The query -/

theorem header?_of_mem {p : Param F U} (hp : p ∈ m.params) : m.header? p.name = p.header := by
  have hsome : (m.param? p.name).isSome = true :=
    List.find?_isSome.mpr ⟨p, hp, decide_eq_true rfl⟩
  obtain ⟨p', hp'⟩ := Option.isSome_iff_exists.mp hsome
  have hname : p'.name = p.name := by simpa using List.find?_some hp'
  obtain rfl := List.inj_on_of_nodup_map m.distinct (List.mem_of_find?_eq_some hp') hp hname
  rw [header?, hp']
  rfl

theorem mem_queryArgs {k : List Char} {w : ArgValue F U} :
    (k, w) ∈ m.queryArgs msg
      ↔ ∃ v, msg.get? k = some v ∧ m.header? k = none ∧ PathPiece.var k ∉ m.path
          ∧ v.isNone = false ∧ w = v.byName := by
  have hnone : ∀ v : ArgValue F U, v.byName.isNone = v.isNone := fun v => by cases v <;> rfl
  simp only [queryArgs, unheaded, List.mem_filter, List.mem_map, Prod.exists, Prod.mk.injEq,
    Bool.and_eq_true, Bool.not_eq_true', decide_eq_true_eq, Dict.get?_eq_some_iff]
  constructor
  · rintro ⟨⟨k', v, ⟨hmem, hh⟩, rfl, rfl⟩, hv, hp⟩
    exact ⟨v, hmem, hh, hp, hnone v ▸ hv, rfl⟩
  · rintro ⟨v, hmem, hh, hp, hv, rfl⟩
    exact ⟨⟨k, v, ⟨hmem, hh⟩, rfl, rfl⟩, (hnone v).symm ▸ hv, hp⟩

theorem nodup_unheaded : ((m.unheaded msg).map Prod.fst).Nodup := by
  rw [unheaded, List.map_map]
  exact msg.nodup.sublist (List.filter_sublist.map _)

theorem nodup_queryArgs : ((m.queryArgs msg).map Prod.fst).Nodup :=
  nodup_unheaded.sublist (List.filter_sublist.map _)

theorem mem_encodeDictForGet {k : List Char} {w : ArgValue F U} {x : List Char × ArgValue F U} :
    x ∈ encodeDictForGet k w
      ↔ ∃ items y, w = .dict items ∧ y ∈ items ∧ x = (k ++ '.' :: y.1, y.2) := by
  cases w <;> simp [encodeDictForGet, eq_comm]

theorem mem_queryMap {x : List Char × ArgValue F U} :
    x ∈ m.queryMap msg
      ↔ x ∈ m.queryArgs msg ∧ x.2.isDict = false
        ∨ ∃ k items y, (k, ArgValue.dict items) ∈ m.queryArgs msg ∧ y ∈ items
            ∧ x = (k ++ '.' :: y.1, y.2) := by
  rw [queryMap, List.mem_append, List.mem_filter, List.mem_flatMap]
  refine or_congr (by simp) ⟨?_, ?_⟩
  · rintro ⟨⟨k, w⟩, hmem, hx⟩
    obtain ⟨items, y, rfl, hy, rfl⟩ := mem_encodeDictForGet.mp hx
    exact ⟨k, items, y, hmem, hy, rfl⟩
  · rintro ⟨k, items, y, hmem, hy, rfl⟩
    exact ⟨_, hmem, List.mem_map.mpr ⟨y, hy, rfl⟩⟩

theorem get?_of_dict_mem {k : List Char} {items : List (List Char × ArgValue F U)}
    (h : (k, ArgValue.dict items) ∈ m.queryArgs msg) : msg.get? k = some (.dict items) := by
  obtain ⟨v, hv, -, -, -, hw⟩ := mem_queryArgs.mp h
  cases v <;> cases hw
  exact hv

/-- What a call is made with: arguments of the declared types, and a value for every
parameter without a default. -/
structure Typed (m : MethodProperties F U) (msg : Arguments F U) : Prop where
  typed : ∀ k v, msg.get? k = some v → ∃ p ∈ m.params, p.name = k ∧ p.type.Has v
  required : ∀ p ∈ m.params, p.default = none → p.name ∈ msg

theorem Typed.isIdentifier (h : m.Typed msg) {k : List Char} {w : ArgValue F U}
    (hk : (k, w) ∈ m.queryArgs msg) : IsIdentifier k := by
  obtain ⟨v, hv, -⟩ := mem_queryArgs.mp hk
  obtain ⟨p, hp, rfl, -⟩ := h.typed k v hv
  exact m.identifiers p hp

theorem nodup_of_has_dict {t : ArgType} {items : List (List Char × ArgValue F U)}
    (h : t.Has (.dict items)) : (items.map Prod.fst).Nodup := by
  induction t with
  | optional t ih => exact ih h
  | dict t => exact h.1
  | _ => exact absurd h id

theorem Typed.nodup_queryMap (h : m.Typed msg) : ((m.queryMap msg).map Prod.fst).Nodup := by
  rw [queryMap, List.map_append, List.map_flatMap]
  refine List.nodup_append.mpr ⟨?_, List.nodup_flatMap.mpr ⟨?_, ?_⟩, ?_⟩
  · exact nodup_queryArgs.sublist (List.filter_sublist.map _)
  · rintro ⟨k, w⟩ hmem
    cases w with
    | dict items =>
        obtain ⟨p, -, -, hhas⟩ := h.typed k _ (get?_of_dict_mem hmem)
        have hdot := (h.isIdentifier hmem).dot_not_mem
        simp only [encodeDictForGet, List.map_map, Function.comp_def]
        have hkeys := (nodup_of_has_dict hhas).map (f := fun s => k ++ '.' :: s)
          fun s t hst => ((append_dot_inj hdot hdot).mp hst).2
        rwa [List.map_map] at hkeys
    | _ => exact List.nodup_nil
  · have hpair : (m.queryArgs msg).Pairwise fun x y => x.1 ≠ y.1 :=
      List.pairwise_map.mp nodup_queryArgs
    refine hpair.imp_of_mem fun {x y} hx hy hne s hs hs' => ?_
    obtain ⟨z, hz, rfl⟩ := List.mem_map.mp hs
    obtain ⟨z', hz', hzz⟩ := List.mem_map.mp hs'
    obtain ⟨items, e, -, -, rfl⟩ := mem_encodeDictForGet.mp hz
    obtain ⟨items', e', -, -, rfl⟩ := mem_encodeDictForGet.mp hz'
    exact hne ((append_dot_inj (h.isIdentifier hy).dot_not_mem
      (h.isIdentifier hx).dot_not_mem).mp hzz).1.symm
  · intro s hs s' hs' hss
    obtain ⟨x, hx, rfl⟩ := List.mem_map.mp hs
    obtain ⟨y, -, hy⟩ := List.mem_flatMap.mp hs'
    obtain ⟨z, hz, rfl⟩ := List.mem_map.mp hy
    obtain ⟨items, e, -, -, rfl⟩ := mem_encodeDictForGet.mp hz
    have hdot := (h.isIdentifier (List.mem_of_mem_filter hx)).dot_not_mem
    exact hdot (hss ▸ List.mem_append_right _ (List.mem_cons_self ..))

end MethodProperties

variable [PyFloat F] [Printed U] [PyRepr F U]

/-! ## Fields -/

/-- A value of the query at the receiver. There is none if the value has no text. -/
def ArgValue.inQuery (tr : Transport) (v : ArgValue F U) : Option (ArgValue F U) :=
  match v.queryTexts with
  | [] => .none
  | ss => some (queryValue (ss.map tr.hear))

namespace MethodProperties

variable {m : MethodProperties F U} {msg : Arguments F U}

/-- A field of the query. -/
def queryField (tr : Transport) (x : List Char × ArgValue F U) :
    Option (List Char × ArgValue F U) :=
  (x.2.inQuery tr).map (tr.hear x.1, ·)

theorem items_queryFields {tr : Transport} {qsMap : List (List Char × ArgValue F U)}
    (h : (qsMap.map Prod.fst).Nodup) :
    (queryFields tr (urlencode qsMap) : Arguments F U).items = qsMap.filterMap (queryField tr) := by
  let texts := qsMap.map fun x => (tr.hear x.1, x.2.queryTexts.map tr.hear)
  have hkeys : (texts.map Prod.fst).Nodup := by
    rw [show texts.map Prod.fst = (qsMap.map Prod.fst).map tr.hear by simp [texts]]
    exact h.map Transport.hear_injective
  have hflat : (urlencode qsMap).map (fun x => (tr.hear x.1, tr.hear x.2))
      = texts.flatMap fun x => x.2.map (x.1, ·) := by
    simp [urlencode, texts, List.map_flatMap, List.flatMap_map, Function.comp_def]
  have hgroup := Dict.items_group_flatMap hkeys
  rw [queryFields, hflat, Dict.items_ofList, hgroup]
  · clear hgroup hflat hkeys h
    simp only [texts]
    induction qsMap with
    | nil => rfl
    | cons x qsMap ih =>
        rw [List.map_cons, List.filterMap_cons]
        cases hx : x.2.queryTexts with
        | nil => simpa [queryField, ArgValue.inQuery, hx] using ih
        | cons s ss => simpa [queryField, ArgValue.inQuery, hx] using ih
  · rw [List.map_map]
    exact (Dict.group _).nodup

/-- The fields of the query that a receiver has. -/
theorem Typed.get?_queryFields (h : m.Typed msg) {tr : Transport} {k : List Char}
    (hk : IsIdentifier k) :
    (queryFields tr (urlencode (m.queryMap msg)) : Arguments F U).get? k
      = if m.header? k = none ∧ PathPiece.var k ∉ m.path then
          (msg.get? k).bind fun v => if v.isNone || v.isDict then none else v.byName.inQuery tr
        else none := by
  have hhear : tr.hear k = k := Transport.hear_of_ascii hk.ascii
  have hdict : ∀ v : ArgValue F U, v.byName.isDict = v.isDict := fun v => by cases v <;> rfl
  refine Option.ext fun w => ?_
  rw [Dict.get?_eq_some_iff, items_queryFields h.nodup_queryMap, List.mem_filterMap]
  constructor
  · rintro ⟨⟨k', u⟩, hmem, hfield⟩
    obtain ⟨w', hw', hkw⟩ := Option.map_eq_some_iff.mp hfield
    obtain ⟨hkk, rfl⟩ := Prod.mk.inj hkw
    obtain rfl : k' = k := Transport.hear_injective (hkk.trans hhear.symm)
    obtain ⟨hargs, hnd⟩ | ⟨k'', items, y, -, -, heq⟩ := mem_queryMap.mp hmem
    · obtain ⟨v, hv, hh, hp, hnone, rfl⟩ := mem_queryArgs.mp hargs
      rw [if_pos ⟨hh, hp⟩, hv, Option.bind_some, hnone, ← hdict, hnd]
      exact hw'
    · have hkdot : k' = k'' ++ '.' :: y.1 := congrArg Prod.fst heq
      exact absurd (hkdot ▸ List.mem_append_right _ (List.mem_cons_self ..)) hk.dot_not_mem
  · intro hget
    split at hget
    · next hc =>
      obtain ⟨v, hv, hget⟩ := Option.bind_eq_some_iff.mp hget
      split at hget
      · cases hget
      · next hnd =>
        simp only [Bool.or_eq_true, not_or, Bool.not_eq_true] at hnd
        refine ⟨(k, v.byName), mem_queryMap.mpr (.inl ⟨mem_queryArgs.mpr
          ⟨v, hv, hc.1, hc.2, hnd.1, rfl⟩, (hdict v).trans hnd.2⟩), ?_⟩
        rw [queryField, hget, hhear]
        rfl
    · cases hget

/-! ## The message -/

theorem mem_pathVars {path : List PathPiece} {k : List Char} :
    k ∈ pathVars path ↔ PathPiece.var k ∈ path := by
  rw [pathVars, List.mem_filterMap]
  constructor
  · rintro ⟨_ | k', hmem, hk⟩
    · cases hk
    · obtain rfl := Option.some.inj hk
      exact hmem
  · exact fun h => ⟨_, h, rfl⟩

section Message

variable {tr : Transport} {url : List Char} {kw : Dict (List Char) (List Char)} {p : Param F U}
  (h : m.Typed msg) (hkw : ∀ k, k ∈ kw ↔ PathPiece.var k ∈ m.path)

/-- What the receiver has of an argument that is not in the path and not in a header. -/
def field (m : MethodProperties F U) (tr : Transport) (v : ArgValue F U) : Option (ArgValue F U) :=
  if m.operation.hasBody then some (v.byName.json tr)
  else if v.isNone || v.isDict then none
  else v.byName.inQuery tr

theorem items_bodyFields (hbody : m.operation.hasBody = true) :
    (bodyFields tr (m.request msg url).body).items
      = (m.unheaded msg).map fun x => (x.1, x.2.json tr) := by
  simp only [bodyFields, request, hbody, if_true, Option.getD_some]
  rw [Dict.items_ofList nodup_unheaded, Dict.items_ofList]
  rw [List.map_map]
  exact nodup_unheaded

theorem queryFields_eq_empty (hbody : m.operation.hasBody = true) :
    (queryFields tr (m.request msg url).query : Arguments F U) = .empty := by
  simp [request, hbody, queryFields, Dict.group, Dict.ofList, Dict.empty]

theorem get?_bodyFields (hp : p ∈ m.params) (hbody : m.operation.hasBody = true) :
    (bodyFields tr (m.request msg url).body).get? p.name
      = if p.header = none then (msg.get? p.name).bind (m.field tr) else none := by
  have hfield : (m.field tr : ArgValue F U → _) = fun v => some (v.byName.json tr) := by
    funext v
    rw [field, if_pos hbody]
  have hlookup := Dict.lookup_filter_key (l := msg.items)
    (p := fun k => decide (m.header? k = none)) p.name
  rw [Dict.get?, items_bodyFields hbody, Dict.lookup_map (f := ArgValue.json tr), unheaded,
    Dict.lookup_map (f := ArgValue.byName), hlookup, header?_of_mem hp, hfield]
  simp only [decide_eq_true_eq]
  split
  · rw [Option.map_map]
    cases hv : msg.get? p.name with
    | none => rw [Dict.get?] at hv; rw [hv]; rfl
    | some v => rw [Dict.get?] at hv; rw [hv]; rfl
  · rfl

omit [PyFloat F] [Printed U] [PyRepr F U] in
theorem get?_pathFields (k : List Char) :
    (pathFields kw : Arguments F U).get? k = (kw.get? k).map .str := by
  rw [Dict.get?, pathFields, Dict.items_ofList]
  · exact Dict.lookup_map kw.items ArgValue.str k
  · rw [List.map_map]
    exact kw.nodup

include h hkw in
/-- What is in the path comes before what is in the body. -/
theorem get?_message (hp : p ∈ m.params) :
    (receivedMessage tr (m.request msg url) kw).get? p.name
      = ((kw.get? p.name).map .str).or
          (if p.header = none then (msg.get? p.name).bind (m.field tr) else none) := by
  have hvars := @get?_pathFields F U kw p.name
  cases hbody : m.operation.hasBody with
  | true =>
      have hget := @get?_bodyFields F U _ _ _ m msg tr url p hp hbody
      have hquery := @queryFields_eq_empty F U _ _ _ m msg tr url hbody
      cases tr <;>
        simp only [receivedMessage, hquery, Dict.get?_update_eq, Dict.get?_empty, Option.none_or,
          hvars, hget]
  | false =>
      have hfield : (m.field tr : ArgValue F U → _) = fun v =>
          if v.isNone || v.isDict then none else v.byName.inQuery tr := by
        funext v
        simp [field, hbody]
      have hget : (queryFields tr (m.request msg url).query : Arguments F U).get? p.name
          = if p.header = none ∧ PathPiece.var p.name ∉ m.path then
              (msg.get? p.name).bind (m.field tr) else none := by
        rw [hfield, ← header?_of_mem hp, ← h.get?_queryFields (m.identifiers p hp)]
        simp [request, hbody]
      have hempty : (bodyFields tr (m.request msg url).body : Arguments F U) = .empty := by
        simp [bodyFields, request, hbody, Dict.empty, Dict.ofList]
      by_cases hv : PathPiece.var p.name ∈ m.path
      · obtain ⟨s, hs⟩ := Dict.mem_iff.mp ((hkw p.name).mpr hv)
        cases tr <;> simp [receivedMessage, hempty, Dict.get?_update_eq, hvars, hget, hs, hv]
      · rw [Dict.not_mem_iff.mp (mt (hkw p.name).mp hv)] at hvars ⊢
        cases tr <;> simp [receivedMessage, hempty, Dict.get?_update_eq, hvars, hget, hv]

/-! ## Entries of dictionaries -/

/-- A field that is an entry of a dictionary of this name. -/
def isEntry (name k : List Char) : Bool :=
  (name ++ ['.']).isPrefixOf k && (name ++ ['.']).length < k.length

omit [PyFloat F] [Printed U] [PyRepr F U] in
theorem isEntry_iff {name k : List Char} :
    isEntry name k = true ↔ ∃ s, s ≠ [] ∧ k = name ++ '.' :: s := by
  simp only [isEntry, Bool.and_eq_true, List.isPrefixOf_iff_prefix, decide_eq_true_eq]
  constructor
  · rintro ⟨⟨s, rfl⟩, hlen⟩
    refine ⟨s, fun hs => ?_, by simp⟩
    subst hs
    simp at hlen
  · rintro ⟨s, hs, rfl⟩
    refine ⟨⟨s, by simp⟩, ?_⟩
    have hpos := List.length_pos_iff.mpr hs
    simp only [List.length_append, List.length_cons, List.length_nil]
    omega

omit [PyFloat F] [Printed U] [PyRepr F U] in
theorem isEntry_dot {name name' s : List Char} (h : '.' ∉ name) (h' : '.' ∉ name') :
    isEntry name (name' ++ '.' :: s) = true ↔ name' = name ∧ s ≠ [] := by
  rw [isEntry_iff]
  constructor
  · rintro ⟨t, ht, heq⟩
    obtain ⟨rfl, rfl⟩ := (append_dot_inj h' h).mp heq
    exact ⟨rfl, ht⟩
  · rintro ⟨rfl, hs⟩
    exact ⟨s, hs, rfl⟩

theorem isEntry_eq_false {name k : List Char} (h : '.' ∉ k) : isEntry name k = false := by
  by_contra hk
  obtain ⟨s, -, rfl⟩ := isEntry_iff.mp (eq_true_of_ne_false hk)
  exact h (List.mem_append_right _ (List.mem_cons_self ..))

/-- An entry of a dictionary at the receiver. -/
def entryField (tr : Transport) (name : List Char) (y : List Char × ArgValue F U) :
    Option (List Char × ArgValue F U) :=
  if y.1 = [] then none else (y.2.inQuery tr).map (name ++ '.' :: tr.hear y.1, ·)

theorem hear_dot {name s : List Char} (h : IsIdentifier name) :
    tr.hear (name ++ '.' :: s) = name ++ '.' :: tr.hear s := by
  rw [show name ++ '.' :: s = (name ++ ['.']) ++ s by simp, Transport.hear_append,
    Transport.hear_of_ascii]
  · simp
  · intro c hc
    obtain hc | hc := List.mem_append.mp hc
    · exact h.ascii c hc
    · obtain rfl := List.mem_singleton.mp hc
      decide

/-- The entries of a dictionary, where they are read from the fields of the query. -/
theorem filter_encodeDictForGet {name name' : List Char} (h : IsIdentifier name)
    (h' : IsIdentifier name') (w : ArgValue F U) :
    ((encodeDictForGet name' w).filterMap (queryField tr)).filter (fun x => isEntry name x.1)
      = if name' = name then
          match w with
          | .dict items => items.filterMap (entryField tr name)
          | _ => []
        else [] := by
  cases w with
  | dict items =>
      simp only [encodeDictForGet]
      induction items with
      | nil => split <;> rfl
      | cons y items ih =>
          have hentry : isEntry name (name' ++ '.' :: tr.hear y.1)
              = decide (name' = name ∧ y.1 ≠ []) := by
            rw [Bool.eq_iff_iff, isEntry_dot h.dot_not_mem h'.dot_not_mem, ne_eq,
              Transport.hear_eq_nil, decide_eq_true_eq]
          rw [List.map_cons, List.filterMap_cons, List.filterMap_cons, queryField, hear_dot h']
          cases hq : y.2.inQuery tr with
          | none => simpa [entryField, hq] using ih
          | some w =>
              by_cases hn : name' = name
              · subst hn
                simp only [if_true] at ih ⊢
                by_cases hy : y.1 = []
                · have hno : isEntry name' (name' ++ ['.']) = false := by simpa [hy] using hentry
                  simpa [entryField, hy, hno] using ih
                · simpa [entryField, hq, hy, hentry] using ih
              · simpa [hn, hentry] using ih
  | _ => simp [encodeDictForGet]

/-! ## All fields -/

section Query

variable (hbody : m.operation.hasBody = false)

include hbody in
theorem bodyFields_eq_empty :
    (bodyFields tr (m.request msg url).body : Arguments F U) = .empty := by
  simp [bodyFields, request, hbody, Dict.empty, Dict.ofList]

include h hbody in
theorem items_query : (queryFields tr (m.request msg url).query : Arguments F U).items
    = (m.queryMap msg).filterMap (queryField tr) := by
  rw [← items_queryFields h.nodup_queryMap]
  simp [request, hbody]

include h in
/-- A field of the query has the name of an argument, or a name with a dot. -/
theorem key_of_query {x : List Char × ArgValue F U}
    (hx : x ∈ (m.queryMap msg).filterMap (queryField tr)) :
    IsIdentifier x.1 ∧ PathPiece.var x.1 ∉ m.path ∧ x.1 ∈ msg ∨ '.' ∈ x.1 := by
  obtain ⟨⟨k, w⟩, hmem, hfield⟩ := List.mem_filterMap.mp hx
  obtain ⟨w', -, rfl⟩ := Option.map_eq_some_iff.mp hfield
  obtain ⟨hargs, -⟩ | ⟨k', items, y, hargs, -, heq⟩ := mem_queryMap.mp hmem
  · obtain ⟨v, hv, -, hp, -⟩ := mem_queryArgs.mp hargs
    have hk := h.isIdentifier hargs
    rw [show tr.hear k = k from Transport.hear_of_ascii hk.ascii]
    exact .inl ⟨hk, hp, Dict.mem_of_get? hv⟩
  · obtain rfl : k = k' ++ '.' :: y.1 := congrArg Prod.fst heq
    rw [hear_dot (h.isIdentifier hargs)]
    exact .inr (List.mem_append_right _ (List.mem_cons_self ..))

variable (hm : m.Accepted)

omit [PyFloat F] [Printed U] [PyRepr F U] in
theorem key_of_path {x : List Char × ArgValue F U} (hx : x ∈ (pathFields kw).items) :
    x.1 ∈ kw := by
  obtain ⟨v, hv⟩ := Dict.mem_iff.mp (Dict.mem_keys.mp (List.mem_map.mpr ⟨x, hx, rfl⟩))
  rw [get?_pathFields] at hv
  obtain ⟨s, hs, -⟩ := Option.map_eq_some_iff.mp hv
  exact Dict.mem_of_get? hs

omit [PyFloat F] [Printed U] [PyRepr F U] in
include hm hkw in
theorem isIdentifier_of_path {k : List Char} (hk : k ∈ kw) : IsIdentifier k := by
  obtain ⟨p, hp, rfl⟩ := List.mem_map.mp (hm.vars k ((hkw k).mp hk))
  exact m.identifiers p hp

include hm h hkw hbody in
/-- The fields of a message without a body, from the path and from the query. -/
theorem items_message :
    (receivedMessage tr (m.request msg url) kw).items
      = match tr with
        | .http => (pathFields kw).items ++ (m.queryMap msg).filterMap (queryField .http)
        | .websocket =>
            (m.queryMap msg).filterMap (queryField .websocket) ++ (pathFields kw).items := by
  have hpath : ((Dict.empty : Arguments F U).update (pathFields kw)).items
      = (pathFields kw).items :=
    Dict.items_update fun k hk => absurd hk List.not_mem_nil
  have hquery := fun tr => @items_query F U _ _ _ m msg tr url h hbody
  have hdisjoint : ∀ tr, ∀ k ∈ (pathFields kw : Arguments F U).items.map Prod.fst,
      k ∉ ((m.queryMap msg).filterMap (queryField tr)).map Prod.fst := fun tr k hk hmem => by
    obtain ⟨x, hx, rfl⟩ := List.mem_map.mp hmem
    obtain ⟨y, hy, hyx⟩ := List.mem_map.mp hk
    have hkpath := hyx ▸ key_of_path hy
    obtain ⟨-, hp, -⟩ | hdot := key_of_query h hx
    · exact hp ((hkw _).mp hkpath)
    · exact (isIdentifier_of_path hkw hm hkpath).dot_not_mem hdot
  cases tr with
  | http =>
      rw [receivedMessage, bodyFields_eq_empty hbody, Dict.items_update, hpath, hquery]
      rw [hpath, hquery]
      exact hdisjoint .http
  | websocket =>
      have hfirst : ((Dict.empty : Arguments F U).update
          (queryFields .websocket (m.request msg url).query)).items
          = (m.queryMap msg).filterMap (queryField .websocket) := by
        rw [Dict.items_update fun k hk => absurd hk List.not_mem_nil, hquery]
        rfl
      rw [receivedMessage, bodyFields_eq_empty hbody, Dict.items_update, hfirst]
      rw [hfirst]
      exact fun k hk hk' => hdisjoint .websocket k hk' hk

include hm h hkw hbody in
theorem mem_message {x : List Char × ArgValue F U} :
    x ∈ (receivedMessage tr (m.request msg url) kw).items
      ↔ x ∈ (pathFields kw).items ∨ x ∈ (m.queryMap msg).filterMap (queryField tr) := by
  rw [items_message h hkw hbody hm]
  cases tr <;> simp [or_comm]

include hm h hkw hbody in
theorem prefixedNames_eq {name : List Char} :
    prefixedNames (receivedMessage tr (m.request msg url) kw) name
      = ((m.queryMap msg).filterMap (queryField tr)).filter fun x => isEntry name x.1 := by
  have hpath : (pathFields kw : Arguments F U).items.filter (fun x => isEntry name x.1) = [] := by
    refine List.filter_eq_nil_iff.mpr fun x hx => ?_
    rw [isEntry_eq_false (isIdentifier_of_path hkw hm (key_of_path hx)).dot_not_mem]
    exact Bool.false_ne_true
  change (receivedMessage tr (m.request msg url) kw).items.filter
    (fun x : List Char × ArgValue F U => isEntry name x.1) = _
  rw [items_message h hkw hbody hm]
  cases tr <;> simp [List.filter_append, hpath]

include h in
/-- Only the argument with the name has entries of the name. -/
theorem filter_queryMap {name : List Char} (hname : IsIdentifier name) :
    ((m.queryMap msg).filterMap (queryField tr)).filter (fun x => isEntry name x.1)
      = (m.queryArgs msg).flatMap fun x =>
          if x.1 = name then
            match x.2 with
            | .dict items => items.filterMap (entryField tr name)
            | _ => []
          else [] := by
  have hplain : (((m.queryArgs msg).filter fun x => !x.2.isDict).filterMap
      (queryField tr)).filter (fun x => isEntry name x.1) = [] := by
    refine List.filter_eq_nil_iff.mpr fun x hx => ?_
    obtain ⟨⟨k, w⟩, hmem, hfield⟩ := List.mem_filterMap.mp hx
    obtain ⟨w', -, rfl⟩ := Option.map_eq_some_iff.mp hfield
    have hk := h.isIdentifier (List.mem_of_mem_filter hmem)
    rw [show tr.hear k = k from Transport.hear_of_ascii hk.ascii,
      isEntry_eq_false hk.dot_not_mem]
    exact Bool.false_ne_true
  rw [queryMap, List.filterMap_append, List.filter_append, hplain, List.nil_append,
    List.filterMap_flatMap, List.filter_flatMap]
  exact List.flatMap_congr fun x hx => filter_encodeDictForGet hname (h.isIdentifier hx) x.2

include hm h hkw hbody in
/-- The entries of a dictionary, in their order. -/
theorem prefixedNames_of_dict {name : List Char} {items : List (List Char × ArgValue F U)}
    (hname : IsIdentifier name) (hitems : (name, ArgValue.dict items) ∈ m.queryArgs msg) :
    prefixedNames (receivedMessage tr (m.request msg url) kw) name
      = items.filterMap (entryField tr name) := by
  rw [prefixedNames_eq h hkw hbody hm, filter_queryMap h hname,
    Dict.flatMap_eq_of_mem nodup_queryArgs hitems fun y _ hne => if_neg hne]
  exact if_pos rfl

include hm h hkw hbody in
theorem prefixedNames_eq_nil {name : List Char} (hname : IsIdentifier name)
    (hno : ∀ items, (name, ArgValue.dict items) ∉ m.queryArgs msg) :
    prefixedNames (receivedMessage tr (m.request msg url) kw) name = [] := by
  rw [prefixedNames_eq h hkw hbody hm, filter_queryMap h hname, List.flatMap_eq_nil_iff]
  rintro ⟨k, w⟩ hmem
  split
  · next hk =>
    cases w with
    | dict items =>
        obtain rfl : k = name := hk
        exact absurd hmem (hno items)
    | _ => rfl
  · rfl

omit [PyFloat F] [Printed U] [PyRepr F U] in
theorem isDict_of_has {t : ArgType} {items : List (List Char × ArgValue F U)}
    (ht : t.Has (.dict items)) : t.isDict = true := by
  induction t with
  | optional t ih => exact ih ht
  | dict t => rfl
  | _ => exact absurd ht id

include h hkw in
/-- A dictionary in the query has no field of its own name. -/
theorem name_not_mem_of_dict (hbody : m.operation.hasBody = false) {p : Param F U}
    (hp : p ∈ m.params) {items : List (List Char × ArgValue F U)}
    (hitems : (p.name, ArgValue.dict items) ∈ m.queryArgs msg) :
    p.name ∉ receivedMessage tr (m.request msg url) kw := by
  obtain ⟨-, -, -, hpath, -⟩ := mem_queryArgs.mp hitems
  have hnone : kw.get? p.name = none := Dict.not_mem_iff.mp (mt (hkw p.name).mp hpath)
  rw [Dict.not_mem_iff, get?_message h hkw hp, hnone, get?_of_dict_mem hitems]
  have hfield : m.field tr (ArgValue.dict items) = none := by simp [field, hbody, ArgValue.isDict]
  simp [hfield]

include hm h hkw hbody in
/-- Every field is read for some argument if and only if the entries of dictionaries are. -/
theorem remainingFields_eq_nil_iff :
    m.remainingFields (receivedMessage tr (m.request msg url) kw) = []
      ↔ ∀ p ∈ m.params, ∀ items, (p.name, ArgValue.dict items) ∈ m.queryArgs msg →
          ∀ y ∈ items, (y.2.inQuery tr).isSome = true → m.operation = .get ∧ y.1 ≠ [] := by
  rw [remainingFields, List.filter_eq_nil_iff]
  simp only [Bool.not_eq_true', Bool.not_eq_false, List.any_eq_true, Bool.or_eq_true,
    Bool.and_eq_true, decide_eq_true_eq]
  constructor
  · intro hread p hp items hitems y hy hsome
    obtain ⟨w, hw⟩ := Option.isSome_iff_exists.mp hsome
    have hname := m.identifiers p hp
    have hfield : queryField tr (p.name ++ '.' :: y.1, y.2)
        = some (p.name ++ '.' :: tr.hear y.1, w) := by
      rw [queryField, hw, hear_dot hname]
      rfl
    have hmem : (p.name ++ '.' :: tr.hear y.1, w)
        ∈ (receivedMessage tr (m.request msg url) kw).items :=
      (mem_message h hkw hbody hm).mpr (.inr (List.mem_filterMap.mpr
        ⟨_, mem_queryMap.mpr (.inr ⟨p.name, items, y, hitems, hy, rfl⟩), hfield⟩))
    obtain ⟨p', hp', heq | ⟨hdict, z, hz, hzx⟩⟩ := hread _ hmem
    · exact absurd (heq ▸ List.mem_append_right _ (List.mem_cons_self ..))
        (m.identifiers p' hp').dot_not_mem
    · have hentry : isEntry p'.name z.1 = true := (List.mem_filter.mp hz).2
      rw [hzx, isEntry_dot (m.identifiers p' hp').dot_not_mem hname.dot_not_mem, ne_eq,
        Transport.hear_eq_nil] at hentry
      simp only [isDictExpression, Bool.and_eq_true, decide_eq_true_eq] at hdict
      exact ⟨hdict.1.2, hentry.2⟩
  · intro hread x hx
    obtain hx | hx := (mem_message h hkw hbody hm).mp hx
    · obtain ⟨p, hp, hpx⟩ := List.mem_map.mp (hm.vars x.1 ((hkw x.1).mp (key_of_path hx)))
      exact ⟨p, hp, .inl hpx.symm⟩
    · obtain ⟨⟨k, w⟩, hmem, hfield⟩ := List.mem_filterMap.mp hx
      obtain ⟨w', hw', rfl⟩ := Option.map_eq_some_iff.mp hfield
      obtain ⟨hargs, -⟩ | ⟨k', items, y, hargs, hy, heq⟩ := mem_queryMap.mp hmem
      · obtain ⟨v, hv, -⟩ := mem_queryArgs.mp hargs
        obtain ⟨p, hp, hpk, -⟩ := h.typed k v hv
        refine ⟨p, hp, .inl ?_⟩
        rw [hpk]
        exact Transport.hear_of_ascii (h.isIdentifier hargs).ascii
      · obtain ⟨rfl, rfl⟩ := Prod.mk.inj heq
        obtain ⟨p, hp, rfl, hhas⟩ := h.typed k' _ (get?_of_dict_mem hargs)
        obtain ⟨hget, hne⟩ := hread p hp items hargs y hy
          (by rw [show y.2.inQuery tr = _ from hw']; rfl)
        refine ⟨p, hp, .inr ⟨?_, (tr.hear (p.name ++ '.' :: y.1), w'), ?_, rfl⟩⟩
        · simp [isDictExpression, name_not_mem_of_dict h hkw hbody hp hargs, hget,
            isDict_of_has hhas]
        · rw [prefixedNames_eq h hkw hbody hm, List.mem_filter]
          refine ⟨hx, ?_⟩
          rw [hear_dot (m.identifiers p hp), isEntry_dot (m.identifiers p hp).dot_not_mem
            (m.identifiers p hp).dot_not_mem]
          exact ⟨rfl, mt Transport.hear_eq_nil.mp hne⟩

end Query

end Message

end MethodProperties

end Inmanta
