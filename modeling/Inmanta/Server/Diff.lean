import Inmanta.Lib.Dict
import Inmanta.Lib.JsonText
import Inmanta.Resources.ResourceId

/-!
# The difference of two versions

Attributes are compared by their string forms. `compareValue_eq_iff` says which
values have the same one: besides values that are equal up to the order of keys,
only a string and the value that it is the string form of. So a string is not
told from the value it spells, null not from the empty string, and that is all
(`diff_complete`).

The sets of names and ids are gone through in the order of the dictionaries. The
resources are sorted afterwards, and nothing depends on the order of the
attributes.
-/

namespace Inmanta

namespace Dict

variable {κ ν μ : Type}

variable {f : κ → ν → Option μ} {l : List (κ × ν)} {l' : List (κ × μ)}

/-- The items with values computed anew, if all of them can be. -/
def mapItems (f : κ → ν → Option μ) : List (κ × ν) → Option (List (κ × μ))
  | [] => some []
  | (k, v) :: items => do
      let x ← f k v
      let rest ← mapItems f items
      return (k, x) :: rest

theorem mapItems_cons {k : κ} {v : ν} : mapItems f ((k, v) :: l) = some l' ↔
    ∃ x rest, f k v = some x ∧ mapItems f l = some rest ∧ l' = (k, x) :: rest := by
  simp only [mapItems, Option.bind_eq_bind, Option.bind_eq_some_iff]
  constructor
  · rintro ⟨x, hx, rest, hrest, h⟩
    exact ⟨x, rest, hx, hrest, (Option.some.inj h).symm⟩
  · rintro ⟨x, rest, hx, hrest, rfl⟩
    exact ⟨x, hx, rest, hrest, rfl⟩

theorem mapItems_keys (h : mapItems f l = some l') : l'.map Prod.fst = l.map Prod.fst := by
  induction l generalizing l' with
  | nil =>
      obtain rfl := Option.some.inj h
      rfl
  | cons p l ih =>
      obtain ⟨x, rest, -, hrest, rfl⟩ := mapItems_cons.mp h
      rw [List.map_cons, List.map_cons, ih hrest]

def mapOption (f : κ → ν → Option μ) (d : Dict κ ν) : Option (Dict κ μ) :=
  match h : mapItems f d.items with
  | none => none
  | some l => some ⟨l, (mapItems_keys h).symm ▸ d.nodup⟩

variable [DecidableEq κ]

theorem lookup_mapItems (h : mapItems f l = some l') (k : κ) :
    l'.lookup k = (l.lookup k).bind (f k) := by
  induction l generalizing l' with
  | nil =>
      obtain rfl := Option.some.inj h
      rfl
  | cons p l ih =>
      obtain ⟨x, rest, hx, hrest, rfl⟩ := mapItems_cons.mp h
      rw [lookup_cons_ite, lookup_cons_ite]
      by_cases hk : k = p.1
      · rw [if_pos hk, if_pos hk, hk]
        exact hx.symm
      · rw [if_neg hk, if_neg hk]
        exact ih hrest

theorem get?_mapOption {d : Dict κ ν} {d' : Dict κ μ} (h : d.mapOption f = some d') (k : κ) :
    d'.get? k = (d.get? k).bind (f k) := by
  rw [mapOption] at h
  split at h
  · cases h
  · next l hl =>
      obtain rfl := Option.some.inj h
      exact lookup_mapItems hl k

/-- A dictionary of items that do not contradict each other. -/
theorem get?_ofList_iff {l : List (κ × ν)} {k : κ} {v : ν}
    (h : ∀ v', (k, v) ∈ l → (k, v') ∈ l → v' = v) : (ofList l).get? k = some v ↔ (k, v) ∈ l := by
  refine ⟨get?_ofList, fun hmem => ?_⟩
  obtain ⟨v', hv'⟩ := mem_iff.mp (mem_ofList.mpr (List.mem_map.mpr ⟨_, hmem, rfl⟩))
  rw [hv', h v' hmem (get?_ofList hv')]

end Dict

namespace Diff

/-! ## Attributes -/

/-- The string form that values are compared by -/
def compareValue : Json → List Char
  | .null => []
  | .arr items => (Json.arr items).dumps
  | .obj members => (Json.obj members).dumps
  | .str s => s
  | .bool true => ['T', 'r', 'u', 'e']
  | .bool false => ['F', 'a', 'l', 's', 'e']
  | .int n => intText n
  | .float x => x.text

/-- `None` is null. -/
structure AttributeDiff where
  fromValue : Json
  toValue : Json
  fromValueCompare : List Char
  toValueCompare : List Char

def requires : List Char := "requires".toList

def version : List Char := "version".toList

/-- `resources.Id.parse_id(req).resource_str()` -/
def resourceStrOf (w : WordChars) : Json → Option (List Char)
  | .str s => (ResourceId.parseId w s none).toOption.map ResourceId.resourceStr
  | _ => none

/-- The value of an attribute, with the requires sorted. There is none where an id is malformed,
and where the requires are not a list. -/
def attributeValue (w : WordChars) (name : List Char) (value : Json) : Option Json :=
  if name = requires then
    match value with
    | .arr items => (items.mapM (resourceStrOf w)).map fun strs =>
        .arr ((strs.insertionSort (· ≤ ·)).map .str)
    | _ => none
  else some value

namespace Attribute

/-- `other` is the original value. -/
def compare (value other : Json) : Option AttributeDiff :=
  if compareValue value = compareValue other then none
  else some ⟨other, value, compareValue other, compareValue value⟩

def added (value : Json) : AttributeDiff := ⟨.null, value, [], compareValue value⟩

def removed (value : Json) : AttributeDiff := ⟨value, .null, compareValue value, []⟩

end Attribute

/-! ## Resources -/

inductive ResourceDiffStatus where
  | added
  | modified
  | deleted
  | unmodified
  deriving DecidableEq

structure ResourceDiff where
  resourceId : List Char
  attributes : Dict (List Char) AttributeDiff
  status : ResourceDiffStatus

structure Resource where
  resourceId : List Char
  attributes : Dict (List Char) Json

namespace Resource

def init (w : WordChars) (resourceId : List Char) (attributes : Dict (List Char) Json) :
    Option Resource :=
  ((attributes.del version).mapOption (attributeValue w)).map fun values => ⟨resourceId, values⟩

/-- The attributes that are different. `other` is the original resource. -/
def attributeDiffs (self other : Resource) : Dict (List Char) AttributeDiff :=
  .ofList ((self.attributes.items.filter (·.1 ∉ other.attributes)).map
      (fun p => (p.1, Attribute.added p.2))
    ++ (other.attributes.items.filter (·.1 ∉ self.attributes)).map
      (fun p => (p.1, Attribute.removed p.2))
    ++ other.attributes.items.filterMap fun p =>
      match self.attributes.get? p.1 with
      | none => none
      | some value => (Attribute.compare value p.2).map fun d => (p.1, d))

def compare (self other : Resource) : Option ResourceDiff :=
  if (self.attributeDiffs other).items = [] then none
  else some ⟨self.resourceId, self.attributeDiffs other, .modified⟩

def added (self : Resource) : ResourceDiff :=
  ⟨self.resourceId, self.attributes.mapValues Attribute.added, .added⟩

def removed (self : Resource) : ResourceDiff :=
  ⟨self.resourceId, self.attributes.mapValues Attribute.removed, .deleted⟩

def unmodified (self : Resource) : ResourceDiff := ⟨self.resourceId, .empty, .unmodified⟩

end Resource

/-! ## Versions -/

abbrev Version := Dict (List Char) Resource

/-- The resources of a version, by their ids. -/
def Version.init (w : WordChars) (resources : Dict (List Char) (Dict (List Char) Json)) :
    Option Version :=
  resources.mapOption (Resource.init w)

/-- `Version.generate_diff`, where `other` is the original version -/
def Version.generateDiff (self other : Version) (includeUnmodified : Bool) : List ResourceDiff :=
  let added := (self.items.filter (·.1 ∉ other)).map fun p => p.2.added
  let removed := (other.items.filter (·.1 ∉ self)).map fun p => p.2.removed
  let compared := self.items.filterMap fun p =>
    match other.get? p.1 with
    | none => none
    | some resource =>
        match p.2.compare resource with
        | some cmp => some cmp
        | none => if includeUnmodified then some p.2.unmodified else none
  (added ++ removed ++ compared).insertionSort (·.resourceId ≤ ·.resourceId)

def generateDiff (fromVersion toVersion : Version) (includeUnmodified : Bool) :
    List ResourceDiff :=
  toVersion.generateDiff fromVersion includeUnmodified

/-! ## String forms -/

/-- Values with the same string form: equal up to the order of keys, or one of them is the string
form of the other. -/
def Alike (v w : Json) : Prop :=
  v.sortKeys = w.sortKeys ∨ v = .str (compareValue w) ∨ w = .str (compareValue v)

theorem Alike.symm {v w : Json} (h : Alike v w) : Alike w v := by
  obtain h | h | h := h
  · exact .inl h.symm
  · exact .inr (.inr h)
  · exact .inr (.inl h)

/-- How a string form starts. -/
def textKind : Json → ℕ
  | .null => 0
  | .bool _ => 1
  | .int _ => 2
  | .float _ => 2
  | .str _ => 3
  | .arr _ => 4
  | .obj _ => 5

def firstKind (s : List Char) : ℕ :=
  match s with
  | [] => 0
  | c :: _ => if c = 'T' ∨ c = 'F' then 1 else if c = '[' then 4 else if c = '{' then 5 else 2

theorem firstKind_number {s : List Char} (hne : s ≠ []) (h : ∀ c ∈ s, isNumberChar c = true) :
    firstKind s = 2 := by
  obtain ⟨c, s, rfl⟩ := List.exists_cons_of_ne_nil hne
  have hc := h c (List.mem_cons_self ..)
  have hne : ∀ d : Char, isNumberChar d = false → c ≠ d := by
    rintro d hd rfl
    rw [hc] at hd
    cases hd
  rw [firstKind, if_neg (not_or.mpr ⟨hne _ rfl, hne _ rfl⟩), if_neg (hne _ rfl),
    if_neg (hne _ rfl)]

theorem dumps_arr_head (items : List Json) :
    ∃ s, (Json.arr items).dumps = '[' :: s := by
  cases items <;> exact ⟨_, rfl⟩

theorem dumps_obj_head (members : List (List Char × Json)) :
    ∃ s, (Json.obj members).dumps = '{' :: s := by
  rw [Json.dumps, Json.sortKeys]
  cases (Json.sortMembers members).insertionSort fun a b => a.1 ≤ b.1 <;> exact ⟨_, rfl⟩

theorem float_ne_nil (x : FloatRepr) : x.text ≠ [] := fun h => by
  have hf := x.fraction
  simp [h] at hf

theorem firstKind_compareValue {v : Json} (h : ∀ s, v ≠ .str s) :
    firstKind (compareValue v) = textKind v := by
  cases v with
  | null => rfl
  | bool b => cases b <;> rfl
  | int n => exact firstKind_number (intText_ne_nil n) (Json.numberText n)
  | float x => exact firstKind_number (float_ne_nil x) x.chars
  | str s => exact absurd rfl (h s)
  | arr items =>
      obtain ⟨s, hs⟩ := dumps_arr_head items
      rw [compareValue, hs]
      rfl
  | obj members =>
      obtain ⟨s, hs⟩ := dumps_obj_head members
      rw [compareValue, hs]
      rfl

theorem compareValue_sortKeys {v w : Json} (h : v.sortKeys = w.sortKeys) :
    compareValue v = compareValue w := by
  have hdumps : v.dumps = w.dumps := Json.dumps_inj.mpr h
  cases v <;> cases w <;>
    first
    | exact hdumps
    | (cases h; rfl)
    | cases h

/-- **What has the same string form.** -/
theorem compareValue_eq_iff {v w : Json} : compareValue v = compareValue w ↔ Alike v w := by
  constructor
  · intro h
    by_cases hv : ∃ s, v = .str s
    · obtain ⟨s, rfl⟩ := hv
      exact .inr (.inl (congrArg Json.str h))
    by_cases hw : ∃ s, w = .str s
    · obtain ⟨s, rfl⟩ := hw
      exact .inr (.inr (congrArg Json.str h.symm))
    have hkind : textKind v = textKind w := by
      rw [← firstKind_compareValue (not_exists.mp hv), h,
        firstKind_compareValue (not_exists.mp hw)]
    refine .inl ?_
    cases v with
    | null =>
        cases w with
        | null => rfl
        | _ => cases hkind
    | bool b =>
        cases w with
        | bool b' => cases b <;> cases b' <;> first | rfl | cases h
        | _ => cases hkind
    | int n =>
        cases w with
        | int m => rw [intText_inj h]
        | float x => exact absurd h (Json.intText_ne_float n x)
        | _ => cases hkind
    | float x =>
        cases w with
        | int m => exact absurd h.symm (Json.intText_ne_float m x)
        | float y =>
            cases x
            cases y
            cases h
            rfl
        | _ => cases hkind
    | str s => exact absurd ⟨s, rfl⟩ hv
    | arr items =>
        cases w with
        | arr items' => exact Json.dumps_inj.mp h
        | _ => cases hkind
    | obj members =>
        cases w with
        | obj members' => exact Json.dumps_inj.mp h
        | _ => cases hkind
  · rintro (h | rfl | rfl)
    · exact compareValue_sortKeys h
    · rfl
    · rfl

/-! ## What a diff lists -/

/-- The difference between an attribute and its original value. -/
def attributeDiff : Option Json → Option Json → Option AttributeDiff
  | none, none => none
  | none, some value => some (Attribute.added value)
  | some original, none => some (Attribute.removed original)
  | some original, some value => Attribute.compare value original

theorem get?_attributeDiffs (self other : Resource) (name : List Char) :
    (self.attributeDiffs other).get? name
      = attributeDiff (other.attributes.get? name) (self.attributes.get? name) := by
  have hmem : ∀ d, (name, d) ∈ (self.attributes.items.filter (·.1 ∉ other.attributes)).map
      (fun p => (p.1, Attribute.added p.2))
      ++ (other.attributes.items.filter (·.1 ∉ self.attributes)).map
        (fun p => (p.1, Attribute.removed p.2))
      ++ other.attributes.items.filterMap (fun p =>
        match self.attributes.get? p.1 with
        | none => none
        | some value => (Attribute.compare value p.2).map fun d => (p.1, d))
      ↔ attributeDiff (other.attributes.get? name) (self.attributes.get? name) = some d := by
    intro d
    rw [List.mem_append, List.mem_append, List.mem_map, List.mem_map, List.mem_filterMap]
    constructor
    · rintro ((⟨p, hp, hd⟩ | ⟨p, hp, hd⟩) | ⟨p, hp, hd⟩)
      · obtain ⟨hp, hnot⟩ := List.mem_filter.mp hp
        obtain ⟨rfl, rfl⟩ := Prod.mk.inj hd
        rw [Dict.get?_eq_some_iff.mpr hp, Dict.not_mem_iff.mp (of_decide_eq_true hnot)]
        rfl
      · obtain ⟨hp, hnot⟩ := List.mem_filter.mp hp
        obtain ⟨rfl, rfl⟩ := Prod.mk.inj hd
        rw [Dict.get?_eq_some_iff.mpr hp, Dict.not_mem_iff.mp (of_decide_eq_true hnot)]
        rfl
      · split at hd
        · cases hd
        · next value hvalue =>
            obtain ⟨d', hd', hpair⟩ := Option.map_eq_some_iff.mp hd
            obtain ⟨rfl, rfl⟩ := Prod.mk.inj hpair
            rw [Dict.get?_eq_some_iff.mpr hp, hvalue]
            exact hd'
    · intro hd
      cases hother : other.attributes.get? name with
      | none =>
          cases hself : self.attributes.get? name with
          | none =>
              rw [hother, hself] at hd
              cases hd
          | some value =>
              rw [hother, hself] at hd
              obtain rfl := Option.some.inj hd
              have hnot := Dict.not_mem_iff.mpr hother
              exact .inl (.inl ⟨(name, value), List.mem_filter.mpr
                ⟨Dict.get?_eq_some_iff.mp hself, decide_eq_true hnot⟩, rfl⟩)
      | some original =>
          cases hself : self.attributes.get? name with
          | none =>
              rw [hother, hself] at hd
              obtain rfl := Option.some.inj hd
              have hnot := Dict.not_mem_iff.mpr hself
              exact .inl (.inr ⟨(name, original), List.mem_filter.mpr
                ⟨Dict.get?_eq_some_iff.mp hother, decide_eq_true hnot⟩, rfl⟩)
          | some value =>
              rw [hother, hself] at hd
              have hd : Attribute.compare value original = some d := hd
              refine .inr ⟨(name, original), Dict.get?_eq_some_iff.mp hother, ?_⟩
              simp only [hself, hd, Option.map_some]
  refine Option.ext fun d => ?_
  rw [Resource.attributeDiffs]
  have hiff := hmem d
  constructor
  · exact fun h => hiff.mp (Dict.get?_ofList h)
  · intro h
    refine (Dict.get?_ofList_iff fun d' hd hd' => ?_).mpr (hiff.mpr h)
    exact Option.some.inj (((hmem d').mp hd').symm.trans h)

theorem compare_eq_none_iff {self other : Resource} : self.compare other = none ↔
    ∀ name, attributeDiff (other.attributes.get? name) (self.attributes.get? name) = none := by
  have hempty : (self.attributeDiffs other).items = [] ↔
      ∀ name, (self.attributeDiffs other).get? name = none := by
    constructor
    · intro h name
      rw [Dict.get?, h]
      rfl
    · intro h
      cases hitems : (self.attributeDiffs other).items with
      | nil => rfl
      | cons p items =>
          have hp : (self.attributeDiffs other).get? p.1 = some p.2 :=
            Dict.get?_eq_some_iff.mpr (hitems ▸ List.mem_cons_self ..)
          rw [h] at hp
          cases hp
  simp only [get?_attributeDiffs] at hempty
  rw [← hempty, Resource.compare]
  split
  · next h => exact iff_of_true rfl h
  · next h => exact iff_of_false (fun h => by cases h) h

/-- What is listed of a resource. -/
def resourceDiff (includeUnmodified : Bool) : Option Resource → Option Resource →
    Option ResourceDiff
  | none, none => none
  | none, some resource => some resource.added
  | some original, none => some original.removed
  | some original, some resource =>
      match resource.compare original with
      | some cmp => some cmp
      | none => if includeUnmodified then some resource.unmodified else none

/-- Resources are stored under their ids. -/
def Keyed (v : Version) : Prop :=
  ∀ id resource, v.get? id = some resource → resource.resourceId = id

section Versions

variable {fromVersion toVersion : Version} {includeUnmodified : Bool} {d : ResourceDiff}
  {id : List Char}

theorem resourceId_of_resourceDiff (hfrom : Keyed fromVersion) (hto : Keyed toVersion)
    (h : resourceDiff includeUnmodified (fromVersion.get? id) (toVersion.get? id) = some d) :
    d.resourceId = id := by
  cases hf : fromVersion.get? id with
  | none =>
      cases ht : toVersion.get? id with
      | none =>
          rw [hf, ht] at h
          cases h
      | some resource =>
          rw [hf, ht] at h
          obtain rfl := Option.some.inj h
          exact hto id resource ht
  | some original =>
      cases ht : toVersion.get? id with
      | none =>
          rw [hf, ht] at h
          obtain rfl := Option.some.inj h
          exact hfrom id original hf
      | some resource =>
          rw [hf, ht] at h
          simp only [resourceDiff, Resource.compare] at h
          rw [← hto id resource ht]
          split at h
          · next cmp hcmp =>
              obtain rfl := Option.some.inj h
              split at hcmp
              · cases hcmp
              · obtain rfl := Option.some.inj hcmp
                rfl
          · split at h
            · obtain rfl := Option.some.inj h
              rfl
            · cases h

theorem mem_generateDiff :
    d ∈ generateDiff fromVersion toVersion includeUnmodified ↔
      ∃ id, resourceDiff includeUnmodified (fromVersion.get? id) (toVersion.get? id) = some d := by
  rw [generateDiff, Version.generateDiff, List.mem_insertionSort, List.mem_append, List.mem_append,
    List.mem_map, List.mem_map, List.mem_filterMap]
  constructor
  · rintro ((⟨p, hp, rfl⟩ | ⟨p, hp, rfl⟩) | ⟨p, hp, hd⟩)
    · obtain ⟨hp, hnot⟩ := List.mem_filter.mp hp
      refine ⟨p.1, ?_⟩
      rw [Dict.get?_eq_some_iff.mpr hp, Dict.not_mem_iff.mp (of_decide_eq_true hnot)]
      rfl
    · obtain ⟨hp, hnot⟩ := List.mem_filter.mp hp
      refine ⟨p.1, ?_⟩
      rw [Dict.get?_eq_some_iff.mpr hp, Dict.not_mem_iff.mp (of_decide_eq_true hnot)]
      rfl
    · refine ⟨p.1, ?_⟩
      split at hd
      · cases hd
      · next original horiginal =>
          rw [Dict.get?_eq_some_iff.mpr hp, horiginal]
          exact hd
  · rintro ⟨id, h⟩
    cases hf : fromVersion.get? id with
    | none =>
        cases ht : toVersion.get? id with
        | none =>
            rw [hf, ht] at h
            cases h
        | some resource =>
            rw [hf, ht] at h
            obtain rfl := Option.some.inj h
            exact .inl (.inl ⟨(id, resource), List.mem_filter.mpr
              ⟨Dict.get?_eq_some_iff.mp ht, decide_eq_true (Dict.not_mem_iff.mpr hf)⟩, rfl⟩)
    | some original =>
        cases ht : toVersion.get? id with
        | none =>
            rw [hf, ht] at h
            obtain rfl := Option.some.inj h
            exact .inl (.inr ⟨(id, original), List.mem_filter.mpr
              ⟨Dict.get?_eq_some_iff.mp hf, decide_eq_true (Dict.not_mem_iff.mpr ht)⟩, rfl⟩)
        | some resource =>
            rw [hf, ht] at h
            refine .inr ⟨(id, resource), Dict.get?_eq_some_iff.mp ht, ?_⟩
            simp only [hf]
            exact h

theorem sublist_ids {l : List (List Char × Resource)}
    {g : List Char × Resource → Option ResourceDiff}
    (h : ∀ p ∈ l, ∀ d, g p = some d → d.resourceId = p.1) :
    ((l.filterMap g).map ResourceDiff.resourceId).Sublist (l.map Prod.fst) := by
  induction l with
  | nil => exact List.Sublist.refl _
  | cons p l ih =>
      have ih := ih fun q hq => h q (List.mem_cons_of_mem _ hq)
      rw [List.map_cons]
      cases hp : g p with
      | none =>
          rw [List.filterMap_cons_none hp]
          exact ih.cons _
      | some d =>
          rw [List.filterMap_cons_some hp, List.map_cons, h p (List.mem_cons_self ..) d hp]
          exact ih.cons_cons _

/-- A resource is listed once. -/
theorem nodup_ids (hfrom : Keyed fromVersion) (hto : Keyed toVersion) :
    ((generateDiff fromVersion toVersion includeUnmodified).map ResourceDiff.resourceId).Nodup := by
  rw [generateDiff, Version.generateDiff]
  refine (((List.perm_insertionSort _ _).map _).nodup_iff).mpr ?_
  have hadded : ((toVersion.items.filter (·.1 ∉ fromVersion)).map fun p => p.2.added).map
      ResourceDiff.resourceId = (toVersion.items.filter (·.1 ∉ fromVersion)).map Prod.fst := by
    rw [List.map_map]
    refine List.map_congr_left fun p hp => ?_
    exact hto p.1 p.2 (Dict.get?_eq_some_iff.mpr (List.mem_filter.mp hp).1)
  have hremoved : ((fromVersion.items.filter (·.1 ∉ toVersion)).map fun p => p.2.removed).map
      ResourceDiff.resourceId = (fromVersion.items.filter (·.1 ∉ toVersion)).map Prod.fst := by
    rw [List.map_map]
    refine List.map_congr_left fun p hp => ?_
    exact hfrom p.1 p.2 (Dict.get?_eq_some_iff.mpr (List.mem_filter.mp hp).1)
  have hcompared : ∀ p ∈ toVersion.items, ∀ d, (match fromVersion.get? p.1 with
      | none => none
      | some resource =>
          match p.2.compare resource with
          | some cmp => some cmp
          | none => if includeUnmodified then some p.2.unmodified else none) = some d →
      d.resourceId = p.1 ∧ p.1 ∈ fromVersion := by
    intro p hp d hd
    have hget := Dict.get?_eq_some_iff.mpr hp
    split at hd
    · cases hd
    · next original horiginal =>
        refine ⟨@resourceId_of_resourceDiff _ _ includeUnmodified _ _ hfrom hto ?_,
          Dict.mem_of_get? horiginal⟩
        rw [horiginal, hget]
        exact hd
  have hsublist := sublist_ids fun p hp d hd => (hcompared p hp d hd).1
  rw [List.map_append, List.map_append, hadded, hremoved]
  refine List.nodup_append.mpr ⟨List.nodup_append.mpr ⟨?_, ?_, ?_⟩, ?_, ?_⟩
  · exact toVersion.nodup.sublist (List.filter_sublist.map _)
  · exact fromVersion.nodup.sublist (List.filter_sublist.map _)
  · rintro a ha b hb rfl
    obtain ⟨p, hp, rfl⟩ := List.mem_map.mp ha
    obtain ⟨q, hq, hpq⟩ := List.mem_map.mp hb
    have hnot := of_decide_eq_true (List.mem_filter.mp hp).2
    rw [← hpq] at hnot
    exact hnot (Dict.mem_of_get? (Dict.get?_eq_some_iff.mpr (List.mem_filter.mp hq).1))
  · exact toVersion.nodup.sublist hsublist
  · rintro a ha b hb rfl
    obtain ⟨d, hd, rfl⟩ := List.mem_map.mp hb
    obtain ⟨p, hp, hpd⟩ := List.mem_filterMap.mp hd
    obtain ⟨hid, hmem⟩ := hcompared p hp d hpd
    obtain ha | ha := List.mem_append.mp ha
    · obtain ⟨q, hq, hqd⟩ := List.mem_map.mp ha
      have hnot := of_decide_eq_true (List.mem_filter.mp hq).2
      rw [hqd, hid] at hnot
      exact hnot hmem
    · obtain ⟨q, hq, hqd⟩ := List.mem_map.mp ha
      have hnot := of_decide_eq_true (List.mem_filter.mp hq).2
      rw [hqd, hid] at hnot
      exact hnot (Dict.mem_of_get? (Dict.get?_eq_some_iff.mpr hp))

end Versions

/-! ## Requires -/

/-- The ids of a list of requires, without their versions. -/
def requiredIds (w : WordChars) : Json → Option (List ResourceId)
  | .arr items => items.mapM fun
      | .str s => (ResourceId.parseId w s none).toOption.map ({ · with version := 0 })
      | _ => none
  | _ => none

section Requires

variable {w : WordChars}

theorem parseId_of_resourceStrOf {v : Json} {str : List Char} (h : resourceStrOf w v = some str) :
    ∃ s id, v = .str s ∧ ResourceId.parseId w s none = .ok id ∧ str = id.resourceStr
      ∧ ResourceId.parseId w id.resourceStr none = .ok { id with version := 0 } := by
  cases v with
  | str s =>
      rw [resourceStrOf] at h
      obtain ⟨id, hid, rfl⟩ := Option.map_eq_some_iff.mp h
      have hparse : ResourceId.parseId w s none = .ok id := by
        cases hp : ResourceId.parseId w s none with
        | error e =>
            rw [hp] at hid
            cases hid
        | ok id' =>
            rw [hp] at hid
            rw [Option.some.inj hid]
      refine ⟨s, id, rfl, hparse, rfl, ?_⟩
      obtain ⟨id', digits, tail, hlayout, hcomma, rfl⟩ := ResourceId.parseId_eq_ok_iff.mp hparse
      exact ((hlayout.accepted hcomma).setVersion _).parseId_resourceStr
  | _ => cases h

theorem requiredIds_of_strs {items : List Json} {strs : List (List Char)}
    (h : items.mapM (resourceStrOf w) = some strs) :
    ∃ ids, requiredIds w (.arr items) = some ids ∧ strs = ids.map ResourceId.resourceStr
      ∧ ids = strs.map fun s =>
        (ResourceId.parseId w s none).toOption.getD ⟨[], [], [], [], 0⟩ := by
  rw [requiredIds]
  induction items generalizing strs with
  | nil =>
      obtain rfl := Option.some.inj h
      exact ⟨[], rfl, rfl, rfl⟩
  | cons v items ih =>
      simp only [List.mapM_cons, Option.bind_eq_bind, Option.bind_eq_some_iff] at h
      obtain ⟨str, hstr, rest, hrest, h⟩ := h
      obtain rfl := Option.some.inj h
      obtain ⟨ids, hids, hstrs, hback⟩ := ih hrest
      obtain ⟨s, id, rfl, hparse, rfl, hagain⟩ := parseId_of_resourceStrOf hstr
      refine ⟨{ id with version := 0 } :: ids, ?_, ?_, ?_⟩
      · simp only [List.mapM_cons, hparse, hids]
        rfl
      · rw [List.map_cons, ← hstrs]
        rfl
      · rw [List.map_cons, ← hback, hagain]
        rfl

theorem sortKeys_strs (strs : List (List Char)) :
    (Json.arr (strs.map .str)).sortKeys = .arr (strs.map .str) := by
  rw [Json.sortKeys]
  refine congrArg Json.arr ?_
  induction strs with
  | nil => rfl
  | cons s strs ih => rw [List.map_cons, Json.sortItems, ih, Json.sortKeys]

theorem str_injective : Function.Injective Json.str := fun _ _ h => Json.str.inj h

/-- Sorted lists of texts are alike if they have the same texts. -/
theorem alike_sorted_iff {strs strs' : List (List Char)} :
    Alike (.arr ((strs.insertionSort (· ≤ ·)).map .str))
      (.arr ((strs'.insertionSort (· ≤ ·)).map .str)) ↔ strs.Perm strs' := by
  rw [Alike, sortKeys_strs, sortKeys_strs]
  constructor
  · rintro (h | h | h)
    · have hsorted := List.map_injective_iff.mpr str_injective (Json.arr.inj h)
      exact ((List.perm_insertionSort _ strs).symm.trans (List.Perm.of_eq hsorted)).trans
        (List.perm_insertionSort _ strs')
    · cases h
    · cases h
  · intro h
    refine .inl (congrArg (fun l : List (List Char) => Json.arr (l.map Json.str)) ?_)
    exact List.Perm.eq_of_pairwise (fun a b _ _ => le_antisymm) (List.pairwise_insertionSort _ _)
      (List.pairwise_insertionSort _ _)
      (((List.perm_insertionSort _ strs).trans h).trans (List.perm_insertionSort _ strs').symm)

/-- Equal for the diff: alike, or as requires the same ids, each as often. -/
def SameValue (w : WordChars) (name : List Char) (v v' : Json) : Prop :=
  if name = requires then
    ∃ ids ids', requiredIds w v = some ids ∧ requiredIds w v' = some ids' ∧ ids.Perm ids'
  else Alike v v'

theorem compareValue_attributeValue {name : List Char} {v v' u u' : Json}
    (h : attributeValue w name v = some u) (h' : attributeValue w name v' = some u') :
    compareValue u = compareValue u' ↔ SameValue w name v v' := by
  rw [compareValue_eq_iff, SameValue]
  unfold attributeValue at h h'
  by_cases hname : name = requires
  · rw [if_pos hname] at h h' ⊢
    cases v with
    | arr items =>
        cases v' with
        | arr items' =>
            obtain ⟨strs, hstrs, rfl⟩ := Option.map_eq_some_iff.mp h
            obtain ⟨strs', hstrs', rfl⟩ := Option.map_eq_some_iff.mp h'
            obtain ⟨ids, hids, hmap, hback⟩ := requiredIds_of_strs hstrs
            obtain ⟨ids', hids', hmap', hback'⟩ := requiredIds_of_strs hstrs'
            rw [alike_sorted_iff]
            constructor
            · intro hperm
              refine ⟨ids, ids', hids, hids', ?_⟩
              rw [hback, hback']
              exact hperm.map _
            · rintro ⟨l, l', hl, hl', hperm⟩
              obtain rfl := Option.some.inj (hids.symm.trans hl)
              obtain rfl := Option.some.inj (hids'.symm.trans hl')
              rw [hmap, hmap']
              exact hperm.map _
        | _ => cases h'
    | _ => cases h
  · rw [if_neg hname] at h h' ⊢
    obtain rfl := Option.some.inj h
    obtain rfl := Option.some.inj h'
    exact Iff.rfl

end Requires

/-! ## The diff of two versions -/

/-- Attributes by resource and name. -/
abbrev Resources := Dict (List Char) (Dict (List Char) Json)

def attributeOf (resources : Resources) (id name : List Char) : Option Json :=
  if name = version then none else (resources.get? id).bind (·.get? name)

/-- The attribute is in one of the versions only, or its values are different. -/
def Differs (w : WordChars) (name : List Char) : Option Json → Option Json → Prop
  | none, none => False
  | none, some _ => True
  | some _, none => True
  | some v, some v' => ¬ SameValue w name v v'

/-- The version that results from a diff: the to-values are stored, and the others stay. -/
def apply (ds : List ResourceDiff) (v : Version) (id : List Char) :
    Option (List Char → Option Json) :=
  match ds.find? (·.resourceId = id) with
  | none => (v.get? id).map fun resource => resource.attributes.get?
  | some d =>
      if d.status = .deleted then none
      else some fun name =>
        match d.attributes.get? name with
        | some a => some a.toValue
        | none => (v.get? id).bind (·.attributes.get? name)

/-- An attribute that is alike, or null where there is none. -/
def YieldsAttribute : Option Json → Option Json → Prop
  | none, none => True
  | some u, none => u = .null
  | some u, some v => Alike u v
  | none, some _ => False

def YieldsResource : Option (List Char → Option Json) → Option Resource → Prop
  | none, none => True
  | some f, some resource => ∀ name, YieldsAttribute (f name) (resource.attributes.get? name)
  | _, _ => False

def AttributeDiff.swap (a : AttributeDiff) : AttributeDiff :=
  ⟨a.toValue, a.fromValue, a.toValueCompare, a.fromValueCompare⟩

def ResourceDiffStatus.swap : ResourceDiffStatus → ResourceDiffStatus
  | .added => .deleted
  | .deleted => .added
  | .modified => .modified
  | .unmodified => .unmodified

structure SwapOf (d d' : ResourceDiff) : Prop where
  resourceId : d'.resourceId = d.resourceId
  status : d'.status = d.status.swap
  attributes : ∀ name, d'.attributes.get? name = (d.attributes.get? name).map AttributeDiff.swap

/-- A diff lists what is different, and yields the target. -/
structure Complete (w : WordChars) (source target : Resources) (fromVersion toVersion : Version)
    (ds : List ResourceDiff) : Prop where
  once : (ds.map ResourceDiff.resourceId).Nodup
  added : ∀ id, (∃ d ∈ ds, d.resourceId = id ∧ d.status = .added) ↔ id ∈ target ∧ id ∉ source
  deleted : ∀ id, (∃ d ∈ ds, d.resourceId = id ∧ d.status = .deleted) ↔ id ∈ source ∧ id ∉ target
  modified : ∀ id, (∃ d ∈ ds, d.resourceId = id ∧ d.status = .modified) ↔
    (id ∈ source ∧ id ∈ target)
      ∧ ∃ name, Differs w name (attributeOf source id name) (attributeOf target id name)
  attributes : ∀ d ∈ ds, d.status = .modified → ∀ name, name ∈ d.attributes ↔
    Differs w name (attributeOf source d.resourceId name) (attributeOf target d.resourceId name)
  yields : ∀ id, YieldsResource (apply ds fromVersion id) (toVersion.get? id)

theorem attributeDiff_swap (o v : Option Json) :
    attributeDiff v o = (attributeDiff o v).map AttributeDiff.swap := by
  cases o with
  | none =>
      cases v with
      | none => rfl
      | some v => rfl
  | some o =>
      cases v with
      | none => rfl
      | some v =>
          simp only [attributeDiff, Attribute.compare]
          by_cases h : compareValue v = compareValue o
          · rw [if_pos h, if_pos h.symm]
            rfl
          · rw [if_neg h, if_neg (Ne.symm h)]
            rfl

section Init

variable {w : WordChars} {resources source target : Resources} {v fromVersion toVersion : Version}
  {id name : List Char} {includeUnmodified : Bool} {d : ResourceDiff}

theorem keyed_init (h : Version.init w resources = some v) : Keyed v := by
  intro id resource hget
  rw [Dict.get?_mapOption h] at hget
  obtain ⟨attributes, -, hinit⟩ := Option.bind_eq_some_iff.mp hget
  obtain ⟨values, -, rfl⟩ := Option.map_eq_some_iff.mp hinit
  rfl

theorem mem_init_iff {κ ν μ : Type} [DecidableEq κ] {f : κ → ν → Option μ} {d : Dict κ ν}
    {d' : Dict κ μ} (h : d.mapOption f = some d') (k : κ) : k ∈ d' ↔ k ∈ d := by
  have hkeys : d'.keys = d.keys := by
    rw [Dict.mapOption] at h
    split at h
    · cases h
    · next l hl =>
        obtain rfl := Option.some.inj h
        exact Dict.mapItems_keys hl
  rw [← Dict.mem_keys, hkeys, Dict.mem_keys]

theorem exists_attributes (h : Version.init w resources = some v) {resource : Resource}
    (hget : v.get? id = some resource) :
    ∃ attributes, resources.get? id = some attributes
      ∧ (attributes.del version).mapOption (attributeValue w) = some resource.attributes := by
  rw [Dict.get?_mapOption h] at hget
  obtain ⟨attributes, hattributes, hinit⟩ := Option.bind_eq_some_iff.mp hget
  obtain ⟨values, hvalues, rfl⟩ := Option.map_eq_some_iff.mp hinit
  exact ⟨attributes, hattributes, hvalues⟩

/-- An attribute in a version is that of the resource, with its requires sorted. -/
theorem attributeOf_init (h : Version.init w resources = some v) {resource : Resource}
    (hget : v.get? id = some resource) (name : List Char) :
    attributeOf resources id name = none ∧ resource.attributes.get? name = none
      ∨ ∃ x u, attributeOf resources id name = some x ∧ resource.attributes.get? name = some u
        ∧ attributeValue w name x = some u := by
  obtain ⟨attributes, hattributes, hvalues⟩ := exists_attributes h hget
  have hof : attributeOf resources id name = (attributes.del version).get? name := by
    rw [attributeOf, hattributes, Dict.get?_del]
    rfl
  have hmem := mem_init_iff hvalues name
  have hbind := Dict.get?_mapOption hvalues name
  rw [hof]
  cases hx : (attributes.del version).get? name with
  | none =>
      rw [hx] at hbind
      exact .inl ⟨rfl, hbind⟩
  | some x =>
      obtain ⟨u, hu⟩ := Dict.mem_iff.mp (hmem.mpr (Dict.mem_of_get? hx))
      rw [hx, hu] at hbind
      exact .inr ⟨x, u, rfl, hu, hbind.symm⟩

theorem attributeDiff_ne_none_iff (hfrom : Version.init w source = some fromVersion)
    (hto : Version.init w target = some toVersion) {original resource : Resource}
    (horiginal : fromVersion.get? id = some original)
    (hresource : toVersion.get? id = some resource) (name : List Char) :
    attributeDiff (original.attributes.get? name) (resource.attributes.get? name) ≠ none
      ↔ Differs w name (attributeOf source id name) (attributeOf target id name) := by
  obtain ⟨hx, ho⟩ | ⟨x, o, hx, ho, hxo⟩ := attributeOf_init hfrom horiginal name
  · obtain ⟨hy, hv⟩ | ⟨y, u, hy, hv, -⟩ := attributeOf_init hto hresource name
    · rw [hx, ho, hy, hv]
      exact iff_of_false (fun h => h rfl) fun h => h
    · rw [hx, ho, hy, hv]
      exact iff_of_true (fun h => by cases h) trivial
  · obtain ⟨hy, hv⟩ | ⟨y, u, hy, hv, hyu⟩ := attributeOf_init hto hresource name
    · rw [hx, ho, hy, hv]
      exact iff_of_true (fun h => by cases h) trivial
    · rw [hx, ho, hy, hv]
      have hsame := compareValue_attributeValue hxo hyu
      simp only [attributeDiff, Attribute.compare, Differs]
      rw [← hsame]
      by_cases h : compareValue u = compareValue o
      · rw [if_pos h]
        exact iff_of_false (fun h => h rfl) fun hne => hne h.symm
      · rw [if_neg h]
        exact iff_of_true (fun h => by cases h) (Ne.symm h)

/-- The status says in which of the versions the resource is. -/
theorem status_spec
    (h : resourceDiff includeUnmodified (fromVersion.get? id) (toVersion.get? id) = some d) :
    d.status = .added ∧ fromVersion.get? id = none
        ∧ (∃ resource, toVersion.get? id = some resource ∧ d = resource.added)
      ∨ d.status = .deleted ∧ toVersion.get? id = none
        ∧ (∃ original, fromVersion.get? id = some original ∧ d = original.removed)
      ∨ (d.status = .modified ∨ d.status = .unmodified)
        ∧ ∃ original resource, fromVersion.get? id = some original
          ∧ toVersion.get? id = some resource
          ∧ (d.status = .modified ↔ resource.compare original ≠ none)
          ∧ ∀ name, d.attributes.get? name
            = attributeDiff (original.attributes.get? name) (resource.attributes.get? name) := by
  cases hf : fromVersion.get? id with
  | none =>
      cases ht : toVersion.get? id with
      | none =>
          rw [hf, ht] at h
          cases h
      | some resource =>
          rw [hf, ht] at h
          obtain rfl := Option.some.inj h
          exact .inl ⟨rfl, rfl, resource, rfl, rfl⟩
  | some original =>
      cases ht : toVersion.get? id with
      | none =>
          rw [hf, ht] at h
          obtain rfl := Option.some.inj h
          exact .inr (.inl ⟨rfl, rfl, original, rfl, rfl⟩)
      | some resource =>
          rw [hf, ht] at h
          simp only [resourceDiff] at h
          refine .inr (.inr ?_)
          cases hcompare : resource.compare original with
          | some cmp =>
              simp only [hcompare] at h
              obtain rfl := Option.some.inj h
              have hcmp := hcompare
              rw [Resource.compare] at hcmp
              split at hcmp
              · cases hcmp
              · obtain rfl := Option.some.inj hcmp
                refine ⟨.inl rfl, original, resource, rfl, rfl, ?_,
                  get?_attributeDiffs resource original⟩
                rw [hcompare]
                exact iff_of_true rfl fun h => by cases h
          | none =>
              simp only [hcompare] at h
              split at h
              · obtain rfl := Option.some.inj h
                refine ⟨.inr rfl, original, resource, rfl, rfl, ?_, fun name => ?_⟩
                · rw [hcompare]
                  exact iff_of_false (fun h => by cases h) fun h => h rfl
                · rw [compare_eq_none_iff.mp hcompare name]
                  rfl
              · cases h

theorem find?_generateDiff (hfrom : Keyed fromVersion) (hto : Keyed toVersion) :
    (generateDiff fromVersion toVersion includeUnmodified).find? (·.resourceId = id)
      = resourceDiff includeUnmodified (fromVersion.get? id) (toVersion.get? id) := by
  cases h : resourceDiff includeUnmodified (fromVersion.get? id) (toVersion.get? id) with
  | none =>
      refine List.find?_eq_none.mpr fun d hd hid => ?_
      obtain ⟨id', hid'⟩ := mem_generateDiff.mp hd
      have heq := resourceId_of_resourceDiff hfrom hto hid'
      rw [of_decide_eq_true hid] at heq
      rw [heq, hid'] at h
      cases h
  | some d =>
      have hmem : d ∈ generateDiff fromVersion toVersion includeUnmodified :=
        mem_generateDiff.mpr ⟨id, h⟩
      have hid := resourceId_of_resourceDiff hfrom hto h
      cases hfind : (generateDiff fromVersion toVersion includeUnmodified).find?
          (·.resourceId = id) with
      | none =>
          exact absurd (decide_eq_true hid) (List.find?_eq_none.mp hfind d hmem)
      | some d' =>
          obtain ⟨id', hid'⟩ := mem_generateDiff.mp (List.mem_of_find?_eq_some hfind)
          have heq := resourceId_of_resourceDiff hfrom hto hid'
          have hdec : d'.resourceId = id := by simpa using List.find?_some hfind
          rw [← heq, hdec, h] at hid'
          exact hid'.symm

/-- Storing what is different gives the value of the target, or one that is alike. -/
theorem yieldsAttribute (o v : Option Json) :
    YieldsAttribute (match attributeDiff o v with
      | some a => some a.toValue
      | none => o) v := by
  cases o with
  | none =>
      cases v with
      | none => trivial
      | some v => exact .inl rfl
  | some o =>
      cases v with
      | none => rfl
      | some v =>
          simp only [attributeDiff, Attribute.compare]
          by_cases h : compareValue v = compareValue o
          · rw [if_pos h]
            exact compareValue_eq_iff.mp h.symm
          · rw [if_neg h]
            exact .inl rfl

theorem yieldsResource (hfrom : Keyed fromVersion) (hto : Keyed toVersion) (id : List Char) :
    YieldsResource (apply (generateDiff fromVersion toVersion includeUnmodified) fromVersion id)
      (toVersion.get? id) := by
  rw [apply, find?_generateDiff hfrom hto]
  cases h : resourceDiff includeUnmodified (fromVersion.get? id) (toVersion.get? id) with
  | none =>
      cases hf : fromVersion.get? id with
      | none =>
          cases ht : toVersion.get? id with
          | none => trivial
          | some resource =>
              rw [hf, ht] at h
              cases h
      | some original =>
          cases ht : toVersion.get? id with
          | none =>
              rw [hf, ht] at h
              cases h
          | some resource =>
              rw [hf, ht] at h
              simp only [resourceDiff] at h
              split at h
              · cases h
              · next hcompare =>
                  intro name
                  have hyields := yieldsAttribute (original.attributes.get? name)
                    (resource.attributes.get? name)
                  rw [compare_eq_none_iff.mp hcompare name] at hyields
                  exact hyields
  | some d =>
      obtain ⟨hstatus, hf, resource, ht, rfl⟩ | ⟨hstatus, ht, original, hf, rfl⟩
        | ⟨hstatus, original, resource, hf, ht, -, hattributes⟩ := status_spec h
      · rw [ht, hf]
        intro name
        simp only [Resource.added, Dict.get?_mapValues]
        have hyields := yieldsAttribute none (resource.attributes.get? name)
        cases hname : resource.attributes.get? name with
        | none => trivial
        | some v => exact .inl rfl
      · rw [ht]
        trivial
      · have hne : d.status ≠ .deleted := by
          rintro heq
          rw [heq] at hstatus
          obtain hstatus | hstatus := hstatus <;> cases hstatus
        simp only [if_neg hne, ht, hf]
        intro name
        have hyields := yieldsAttribute (original.attributes.get? name)
          (resource.attributes.get? name)
        rw [← hattributes name] at hyields
        exact hyields

theorem exists_status_iff (hfrom : Keyed fromVersion) (hto : Keyed toVersion)
    (status : ResourceDiffStatus) (id : List Char) :
    (∃ d ∈ generateDiff fromVersion toVersion includeUnmodified,
      d.resourceId = id ∧ d.status = status)
      ↔ ∃ d, resourceDiff includeUnmodified (fromVersion.get? id) (toVersion.get? id) = some d
        ∧ d.status = status := by
  constructor
  · rintro ⟨d, hd, rfl, hstatus⟩
    obtain ⟨id, hid⟩ := mem_generateDiff.mp hd
    rw [resourceId_of_resourceDiff hfrom hto hid]
    exact ⟨d, hid, hstatus⟩
  · rintro ⟨d, hd, hstatus⟩
    exact ⟨d, mem_generateDiff.mpr ⟨id, hd⟩, resourceId_of_resourceDiff hfrom hto hd, hstatus⟩

theorem exists_added_iff (hfrom : Version.init w source = some fromVersion)
    (hto : Version.init w target = some toVersion) (id : List Char) :
    (∃ d ∈ generateDiff fromVersion toVersion includeUnmodified,
      d.resourceId = id ∧ d.status = .added) ↔ id ∈ target ∧ id ∉ source := by
  rw [exists_status_iff (keyed_init hfrom) (keyed_init hto), ← mem_init_iff hfrom id,
    ← mem_init_iff hto id]
  constructor
  · rintro ⟨d, hd, hadded⟩
    obtain ⟨-, hf, resource, ht, -⟩ | ⟨hstatus, -⟩ | ⟨hstatus | hstatus, -⟩ := status_spec hd
    · exact ⟨Dict.mem_of_get? ht, Dict.not_mem_iff.mpr hf⟩
    all_goals
      rw [hadded] at hstatus
      cases hstatus
  · rintro ⟨ht, hf⟩
    obtain ⟨resource, ht⟩ := Dict.mem_iff.mp ht
    rw [Dict.not_mem_iff.mp hf, ht]
    exact ⟨_, rfl, rfl⟩

theorem exists_deleted_iff (hfrom : Version.init w source = some fromVersion)
    (hto : Version.init w target = some toVersion) (id : List Char) :
    (∃ d ∈ generateDiff fromVersion toVersion includeUnmodified,
      d.resourceId = id ∧ d.status = .deleted) ↔ id ∈ source ∧ id ∉ target := by
  rw [exists_status_iff (keyed_init hfrom) (keyed_init hto), ← mem_init_iff hfrom id,
    ← mem_init_iff hto id]
  constructor
  · rintro ⟨d, hd, hdeleted⟩
    obtain ⟨hstatus, -⟩ | ⟨-, ht, original, hf, -⟩ | ⟨hstatus | hstatus, -⟩ := status_spec hd
    · rw [hdeleted] at hstatus
      cases hstatus
    · exact ⟨Dict.mem_of_get? hf, Dict.not_mem_iff.mpr ht⟩
    all_goals
      rw [hdeleted] at hstatus
      cases hstatus
  · rintro ⟨hf, ht⟩
    obtain ⟨original, hf⟩ := Dict.mem_iff.mp hf
    rw [Dict.not_mem_iff.mp ht, hf]
    exact ⟨_, rfl, rfl⟩

theorem exists_modified_iff (hfrom : Version.init w source = some fromVersion)
    (hto : Version.init w target = some toVersion) (id : List Char) :
    (∃ d ∈ generateDiff fromVersion toVersion includeUnmodified,
      d.resourceId = id ∧ d.status = .modified) ↔ (id ∈ source ∧ id ∈ target)
        ∧ ∃ name, Differs w name (attributeOf source id name) (attributeOf target id name) := by
  rw [exists_status_iff (keyed_init hfrom) (keyed_init hto), ← mem_init_iff hfrom id,
    ← mem_init_iff hto id]
  have hcompare : ∀ {original resource : Resource}, fromVersion.get? id = some original →
      toVersion.get? id = some resource → (resource.compare original ≠ none
        ↔ ∃ name, Differs w name (attributeOf source id name) (attributeOf target id name)) := by
    intro original resource hf ht
    rw [Ne, compare_eq_none_iff, not_forall]
    exact exists_congr fun name => attributeDiff_ne_none_iff hfrom hto hf ht name
  constructor
  · rintro ⟨d, hd, hmodified⟩
    obtain ⟨hstatus, -⟩ | ⟨hstatus, -⟩ | ⟨-, original, resource, hf, ht, hiff, -⟩ := status_spec hd
    · rw [hmodified] at hstatus
      cases hstatus
    · rw [hmodified] at hstatus
      cases hstatus
    · exact ⟨⟨Dict.mem_of_get? hf, Dict.mem_of_get? ht⟩, (hcompare hf ht).mp (hiff.mp hmodified)⟩
  · rintro ⟨⟨hf, ht⟩, hdiffers⟩
    obtain ⟨original, hf⟩ := Dict.mem_iff.mp hf
    obtain ⟨resource, ht⟩ := Dict.mem_iff.mp ht
    obtain ⟨cmp, hcmp⟩ := Option.ne_none_iff_exists'.mp ((hcompare hf ht).mpr hdiffers)
    rw [hf, ht]
    simp only [resourceDiff, hcmp]
    refine ⟨cmp, rfl, ?_⟩
    rw [Resource.compare] at hcmp
    split at hcmp
    · cases hcmp
    · obtain rfl := Option.some.inj hcmp
      rfl

theorem mem_attributes_iff (hfrom : Version.init w source = some fromVersion)
    (hto : Version.init w target = some toVersion)
    (hd : d ∈ generateDiff fromVersion toVersion includeUnmodified) (hstatus : d.status = .modified)
    (name : List Char) : name ∈ d.attributes ↔ Differs w name
      (attributeOf source d.resourceId name) (attributeOf target d.resourceId name) := by
  obtain ⟨id, hid⟩ := mem_generateDiff.mp hd
  rw [resourceId_of_resourceDiff (keyed_init hfrom) (keyed_init hto) hid]
  obtain ⟨hother, -⟩ | ⟨hother, -⟩ | ⟨-, original, resource, hf, ht, -, hattributes⟩ :=
    status_spec hid
  · rw [hstatus] at hother
    cases hother
  · rw [hstatus] at hother
    cases hother
  · rw [← attributeDiff_ne_none_iff hfrom hto hf ht name, ← hattributes, Ne,
      ← Dict.not_mem_iff, not_not]

theorem resourceDiff_swap {original resource : Option Resource}
    (h : resourceDiff includeUnmodified original resource = some d) :
    ∃ d', resourceDiff includeUnmodified resource original = some d' ∧ d'.status = d.status.swap
      ∧ ∀ name, d'.attributes.get? name = (d.attributes.get? name).map AttributeDiff.swap := by
  have hvalues : ∀ (r : Resource) (f g : Json → AttributeDiff) (_ : ∀ v, g v = (f v).swap)
      (name : List Char), (r.attributes.mapValues g).get? name
        = ((r.attributes.mapValues f).get? name).map AttributeDiff.swap := by
    intro r f g hfg name
    rw [Dict.get?_mapValues, Dict.get?_mapValues, Option.map_map]
    exact congrArg (Option.map · _) (funext hfg)
  cases original with
  | none =>
      cases resource with
      | none => cases h
      | some resource =>
          obtain rfl := Option.some.inj h
          exact ⟨resource.removed, rfl, rfl, hvalues resource _ _ fun _ => rfl⟩
  | some original =>
      cases resource with
      | none =>
          obtain rfl := Option.some.inj h
          exact ⟨original.added, rfl, rfl, hvalues original _ _ fun _ => rfl⟩
      | some resource =>
          have hnone : original.compare resource = none ↔ resource.compare original = none := by
            rw [compare_eq_none_iff, compare_eq_none_iff]
            refine forall_congr' fun name => ?_
            rw [attributeDiff_swap, Option.map_eq_none_iff]
          have hcompare : ∀ {a b : Resource} {cmp : ResourceDiff}, a.compare b = some cmp →
              cmp.status = .modified ∧ cmp.attributes = a.attributeDiffs b := by
            intro a b cmp hcmp
            rw [Resource.compare] at hcmp
            split at hcmp
            · cases hcmp
            · obtain rfl := Option.some.inj hcmp
              exact ⟨rfl, rfl⟩
          simp only [resourceDiff] at h ⊢
          cases hcmp : resource.compare original with
          | none =>
              simp only [hcmp] at h
              rw [hnone.mpr hcmp]
              split at h
              · next hinclude =>
                  obtain rfl := Option.some.inj h
                  exact ⟨original.unmodified, if_pos hinclude, rfl, fun _ => rfl⟩
              · cases h
          | some cmp =>
              simp only [hcmp] at h
              obtain rfl := Option.some.inj h
              obtain ⟨cmp', hcmp'⟩ := Option.ne_none_iff_exists'.mp (mt hnone.mp (by
                rw [hcmp]
                exact fun h => by cases h))
              rw [hcmp']
              obtain ⟨hstatus, hattributes⟩ := hcompare hcmp
              obtain ⟨hstatus', hattributes'⟩ := hcompare hcmp'
              refine ⟨cmp', rfl, by rw [hstatus, hstatus']; rfl, fun name => ?_⟩
              rw [hattributes, hattributes', get?_attributeDiffs, get?_attributeDiffs]
              exact attributeDiff_swap _ _

/-- **The diff is complete.** It lists each resource that is added, deleted or has different
attributes, with these attributes, once; its to-values give the target, up to values that are
alike, and it is swapped with the versions. -/
theorem diff_complete (w : WordChars) (hfrom : Version.init w source = some fromVersion)
    (hto : Version.init w target = some toVersion) (includeUnmodified : Bool) :
    Complete w source target fromVersion toVersion
        (generateDiff fromVersion toVersion includeUnmodified)
      ∧ ∀ d ∈ generateDiff fromVersion toVersion includeUnmodified,
        ∃ d' ∈ generateDiff toVersion fromVersion includeUnmodified, SwapOf d d' := by
  have hkeyed := keyed_init hfrom
  have hkeyed' := keyed_init hto
  refine ⟨⟨nodup_ids hkeyed hkeyed', exists_added_iff hfrom hto, exists_deleted_iff hfrom hto,
    exists_modified_iff hfrom hto, fun d hd hstatus => mem_attributes_iff hfrom hto hd hstatus,
    yieldsResource hkeyed hkeyed'⟩, fun d hd => ?_⟩
  obtain ⟨id, hid⟩ := mem_generateDiff.mp hd
  obtain ⟨d', hd', hstatus, hattributes⟩ := resourceDiff_swap hid
  refine ⟨d', mem_generateDiff.mpr ⟨id, hd'⟩, ?_, hstatus, hattributes⟩
  rw [resourceId_of_resourceDiff hkeyed' hkeyed hd', resourceId_of_resourceDiff hkeyed hkeyed' hid]

end Init

/-! ## Two versions of a file -/

/-- A file with its requires, its owner and its mode. -/
def fileResource (required : List String) (owner : Json) (mode : ℤ) : Resources :=
  .ofList [("std::File[a,path=/x]".toList, .ofList [
    (requires, .arr (required.map fun s => .str s.toList)),
    ("owner".toList, owner), ("mode".toList, .int mode)])]

def firstFile : Resources :=
  fileResource ["std::File[a,path=/y],v=1", "std::File[a,path=/z],v=1"] .null 644

def secondFile : Resources :=
  fileResource ["std::File[a,path=/z]", "std::File[a,path=/y]"] (.str "root".toList) 600

theorem diff_complete_files : ∃ fromVersion toVersion,
    Version.init .ascii firstFile = some fromVersion
      ∧ Version.init .ascii secondFile = some toVersion
      ∧ Complete .ascii firstFile secondFile fromVersion toVersion
        (generateDiff fromVersion toVersion false) := by
  obtain ⟨fromVersion, hfrom⟩ := Option.isSome_iff_exists.mp
    (show (Version.init .ascii firstFile).isSome = true by decide +kernel)
  obtain ⟨toVersion, hto⟩ := Option.isSome_iff_exists.mp
    (show (Version.init .ascii secondFile).isSome = true by decide +kernel)
  exact ⟨fromVersion, toVersion, hfrom, hto, (diff_complete .ascii hfrom hto false).1⟩

/-- A value of another type with the same string form is not listed. -/
theorem type_change_is_not_listed :
    ¬ ∀ (source target : Resources) (fromVersion toVersion : Version),
      Version.init .ascii source = some fromVersion →
      Version.init .ascii target = some toVersion → ∀ id,
      ((∃ d ∈ generateDiff fromVersion toVersion false,
        d.resourceId = id ∧ d.status = .modified) ↔ (id ∈ source ∧ id ∈ target)
          ∧ ∃ name, attributeOf source id name ≠ attributeOf target id name) := by
  intro h
  have h := h (fileResource [] (.bool true) 644) (fileResource [] (.str "True".toList) 644) _ _
    rfl rfl "std::File[a,path=/x]".toList
  obtain ⟨d, hd, -⟩ := h.mpr ⟨⟨by decide, by decide⟩, "owner".toList, fun heq => by
    cases Option.some.inj heq⟩
  exact absurd hd List.not_mem_nil

end Diff

end Inmanta
