import Inmanta.Lib.Dict
import Inmanta.Util.DictPathResolve

/-!
# Reading and changing elements of a dict path

The operations on paths without wildcards. A container that is changed in place
is a result here, next to whether the operation succeeded. A part of a path is
found in a container, perhaps after it is constructed, and what is done below it
is put back in its place.

An element that is changed has to be found again. `Guards`: no segment is the
key by which the one before it selects its element.
-/

namespace Inmanta

variable {F : Type}

/-! ## Dictionaries and lists -/

/-- `container[key] = value` -/
def setMember : List (Text × Json) → Text → Json → List (Text × Json)
  | [], key, value => [(key, value)]
  | m :: members, key, value =>
      if m.1 = key then (key, value) :: members else m :: setMember members key value

/-- The first element with a property, replaced. -/
def replaceFirst (p : Json → Bool) (value : Json) : List Json → List Json
  | [] => []
  | x :: xs => if p x then value :: xs else x :: replaceFirst p value xs

/-- A dictionary is updated like any other. -/
theorem setMember_eq_setItems (members : List (Text × Json)) (key : Text) (value : Json) :
    setMember members key value = Dict.setItems members key value := by
  induction members with
  | nil => rfl
  | cons m members ih => rw [setMember, Dict.setItems, ih]

theorem lookup_setMember {members : List (Text × Json)} {key k : Text} {value : Json} :
    (setMember members key value).lookup k = if k = key then some value else members.lookup k := by
  rw [setMember_eq_setItems, Dict.lookup_setItems]

theorem lookup_setMember_self {members : List (Text × Json)} {key : Text} {value : Json} :
    (setMember members key value).lookup key = some value := by
  rw [lookup_setMember, if_pos rfl]

theorem lookup_setMember_of_ne {members : List (Text × Json)} {key k : Text} {value : Json}
    (h : k ≠ key) : (setMember members key value).lookup k = members.lookup k := by
  rw [lookup_setMember, if_neg h]

theorem mem_setMember {members : List (Text × Json)} {key : Text} {value : Json}
    {m : Text × Json} (h : m.1 ≠ key) : m ∈ setMember members key value ↔ m ∈ members := by
  have hne : m ≠ (key, value) := fun he => h (congrArg Prod.fst he)
  induction members with
  | nil => simp [setMember, hne]
  | cons m' members ih =>
      rw [setMember]
      by_cases hm : m'.1 = key
      · have hne' : m ≠ m' := fun he => h (he ▸ hm)
        simp [if_pos hm, hne, hne']
      · rw [if_neg hm, List.mem_cons, List.mem_cons]
        exact or_congr_right ih

theorem setMember_self {members : List (Text × Json)} {key : Text} {value : Json}
    (h : members.lookup key = some value) : setMember members key value = members := by
  rw [setMember_eq_setItems, Dict.setItems_of_lookup h]

theorem setMember_setMember {members : List (Text × Json)} {key : Text} {value value' : Json} :
    setMember (setMember members key value) key value' = setMember members key value' := by
  rw [setMember_eq_setItems, setMember_eq_setItems, setMember_eq_setItems, Dict.setItems_setItems]

theorem replaceFirst_split {p : Json → Bool} {value e : Json} {pre post : List Json}
    (hpre : ∀ x ∈ pre, p x = false) (he : p e = true) :
    replaceFirst p value (pre ++ e :: post) = pre ++ value :: post := by
  induction pre with
  | nil => simp [replaceFirst, he]
  | cons x pre ih =>
      rw [List.forall_mem_cons] at hpre
      rw [List.cons_append, replaceFirst, hpre.1, if_neg Bool.false_ne_true, ih hpre.2]
      rfl

/-- The only element with a property, and where it is. -/
theorem filter_eq_singleton {p : Json → Bool} {l : List Json} {e : Json}
    (h : l.filter p = [e]) : ∃ pre post, l = pre ++ e :: post ∧ p e = true
      ∧ (∀ x ∈ pre, p x = false) ∧ ∀ x ∈ post, p x = false := by
  induction l with
  | nil => cases h
  | cons x l ih =>
      rw [List.filter_cons] at h
      by_cases hx : p x = true
      · rw [if_pos hx] at h
        obtain ⟨rfl, hl⟩ := List.cons.inj h
        refine ⟨[], l, rfl, hx, fun y hy => absurd hy List.not_mem_nil, fun y hy => ?_⟩
        exact Bool.eq_false_iff.mpr (List.filter_eq_nil_iff.mp hl y hy)
      · rw [if_neg hx] at h
        obtain ⟨pre, post, rfl, he, hpre, hpost⟩ := ih h
        exact ⟨x :: pre, post, rfl, he,
          List.forall_mem_cons.mpr ⟨Bool.eq_false_iff.mpr hx, hpre⟩, hpost⟩

theorem filter_split {p : Json → Bool} {e : Json} {pre post : List Json}
    (hpre : ∀ x ∈ pre, p x = false) (hpost : ∀ x ∈ post, p x = false) (he : p e = true) :
    (pre ++ e :: post).filter p = [e] := by
  rw [List.filter_append, List.filter_cons, if_pos he,
    List.filter_eq_nil_iff.mpr fun x hx => Bool.eq_false_iff.mp (hpre x hx),
    List.filter_eq_nil_iff.mpr fun x hx => Bool.eq_false_iff.mp (hpost x hx), List.nil_append]

/-! ## Segments -/

/-- What is found in a container: nothing, one element, more than one, or it is of the wrong
type. -/
inductive Found where
  | missing
  | one (element : Json)
  | many
  | wrong

/-- A selected element of a list. -/
def foundIn (py : Python F) (pairs : List (DictPathValue × DictPathValue)) (theList : List Json) :
    Found :=
  match theList.filter (selects py pairs) with
  | [] => .missing
  | [e] => .one e
  | _ => .many

namespace WildSegment

/-- `get_elements`. A dictionary has a key once. -/
def find (py : Python F) : WildSegment → Json → Found
  | inDict (.normal key), .obj members =>
      match members.lookup key with
      | none => .missing
      | some value => .one value
  | keyedList (.normal relation) pairs, .obj members =>
      match members.lookup relation with
      | none => .missing
      | some (.arr theList) => foundIn py pairs theList
      | some _ => .wrong
  | _, _ => .wrong

/-- `DictPathValue.value` -/
def literal : DictPathValue → Json
  | .normal value => .str value
  | _ => .null

/-- The members of the element that is made for key-value pairs. -/
def newMembers : List (DictPathValue × DictPathValue) → List (Text × Json) → List (Text × Json)
  | [], members => members
  | (.normal key, value) :: pairs, members =>
      newMembers pairs (setMember members key (literal value))
  | _ :: pairs, members => newMembers pairs members

def newDict (pairs : List (DictPathValue × DictPathValue)) : Json := .obj (newMembers pairs [])

/-- An element is made, in the container. -/
def construct : WildSegment → Json → Json × Json
  | inDict (.normal key), .obj members => (.obj [], .obj (setMember members key (.obj [])))
  | keyedList (.normal relation) pairs, .obj members =>
      (newDict pairs, .obj (setMember members relation
        (.arr (listAt relation (.obj members) ++ [newDict pairs]))))
  | _, container => (container, container)

def getElement (py : Python F) (construct : Bool) (segment : WildSegment) (container : Json) :
    Option Json × Json :=
  match segment.find py container with
  | .one e => (some e, container)
  | .missing =>
      if construct then
        let (e, container) := segment.construct container
        (some e, container)
      else (none, container)
  | .many => (none, container)
  | .wrong => (none, container)

/-- The container, where the element that is found was changed. -/
def putBack (py : Python F) : WildSegment → Json → Json → Json
  | inDict (.normal key), .obj members, e => .obj (setMember members key e)
  | keyedList (.normal relation) pairs, .obj members, e => .obj (setMember members relation
      (.arr (replaceFirst (selects py pairs) e (listAt relation (.obj members)))))
  | _, container, _ => container

/-- `set_element`. An element of a list is replaced at the index of the first one that equals it.
If there is none, or more than one, the value is added. -/
def setElement (py : Python F) (equal : Json → Json → Bool) :
    WildSegment → Json → Json → Bool × Json
  | inDict (.normal key), .obj members, value => (true, .obj (setMember members key value))
  | keyedList (.normal relation) pairs, .obj members, value =>
      match members.lookup relation with
      | none => (true, .obj (setMember members relation (.arr [value])))
      | some (.arr theList) =>
          match foundIn py pairs theList with
          | .one e => (true, .obj (setMember members relation
              (.arr (replaceFirst (equal · e) value theList))))
          | _ => (true, .obj (setMember members relation (.arr (theList ++ [value]))))
      | some _ => (false, .obj members)
  | _, container, _ => (false, container)

def remove (py : Python F) : WildSegment → Json → Bool × Json
  | inDict (.normal key), .obj members => (true, .obj (members.filter fun m => m.1 ≠ key))
  | keyedList (.normal relation) pairs, .obj members =>
      match members.lookup relation with
      | none => (true, .obj members)
      | some (.arr theList) => (true, .obj (setMember members relation
          (.arr (theList.filter fun x => !selects py pairs x))))
      | some _ => (false, .obj members)
  | _, container => (false, container)

end WildSegment

/-! ## Paths -/

namespace ComposedPath

open WildSegment

def get (py : Python F) : List WildSegment → Json → Option Json
  | [], container => some container
  | segment :: path, container =>
      match segment.find py container with
      | .one e => get py path e
      | _ => none

/-- The loop of `get_element` that constructs what is missing -/
def constructAll (py : Python F) : List WildSegment → Json → Option Json × Json
  | [], container => (some container, container)
  | segment :: path, container =>
      match segment.getElement py true container with
      | (none, container) => (none, container)
      | (some e, container) =>
          let (result, e) := constructAll py path e
          (result, segment.putBack py container e)

def getConstruct (py : Python F) (path : List WildSegment) (container : Json) :
    Option Json × Json :=
  match get py path container with
  | some e => (some e, container)
  | none => constructAll py path container

def set (py : Python F) (equal : Json → Json → Bool) (construct : Bool) :
    List WildSegment → Json → Json → Bool × Json
  | [], container, _ => (false, container)
  | [segment], container, value => segment.setElement py equal container value
  | segment :: path, container, value =>
      match segment.getElement py construct container with
      | (none, container) => (false, container)
      | (some e, container) =>
          let (ok, e) := set py equal construct path e value
          (ok, segment.putBack py container e)

def remove (py : Python F) : List WildSegment → Json → Bool × Json
  | [], container => (false, container)
  | [segment], container => segment.remove py container
  | segment :: path, container =>
      match segment.find py container with
      | .one e =>
          let (ok, e) := remove py path e
          (ok, segment.putBack py container e)
      | .missing => (true, container)
      | .many => (true, container)
      | .wrong => (false, container)

end ComposedPath

/-! ## Conditions -/

namespace WildSegment

/-- A segment without wildcards, and without a key twice. -/
def Proper : WildSegment → Prop
  | inDict key => ∃ k, key = .normal k
  | keyedList relation pairs => (∃ r, relation = .normal r)
      ∧ (∀ pair ∈ pairs, (∃ k, pair.1 = .normal k) ∧ pair.2 ≠ .wildCard)
      ∧ (pairs.map Prod.fst).Nodup

/-- `get_key` -/
def key : WildSegment → Text
  | inDict (.normal key) => key
  | keyedList (.normal relation) _ => relation
  | _ => []

/-- A value has the key-value pairs of a keyed list. -/
def Accepts (py : Python F) : WildSegment → Json → Prop
  | inDict _, _ => True
  | keyedList _ pairs, value => selects py pairs value = true

/-- An element is not selected by the key. -/
def Unaffected (key : Text) : WildSegment → Prop
  | inDict _ => True
  | keyedList _ pairs => ∀ pair ∈ pairs, pair.1 ≠ .normal key

end WildSegment

/-- No segment is a key by which the one before it selects. -/
def Guards : List WildSegment → Prop
  | segment :: next :: path => segment.Unaffected next.key ∧ Guards (next :: path)
  | _ => True

/-! ## One segment -/

section Segment

open WildSegment

variable {py : Python F} {segment : WildSegment} {c c' c₁ e e' v : Json} {key : Text}

/-- Nothing else than one member of a dictionary is changed. -/
def Touches (key : Text) (c c' : Json) : Prop :=
  c' = c ∨ ∃ members value, c = .obj members ∧ c' = .obj (setMember members key value)

theorem Touches.trans (h : Touches key c c₁) (h' : Touches key c₁ c') : Touches key c c' := by
  obtain rfl | ⟨members, value, rfl, rfl⟩ := h
  · exact h'
  · obtain rfl | ⟨members', value', hmembers, rfl⟩ := h'
    · exact .inr ⟨members, value, rfl, rfl⟩
    · obtain rfl := Json.obj.inj hmembers
      exact .inr ⟨members, value', rfl, by rw [setMember_setMember]⟩

theorem selects_congr {pairs : List (DictPathValue × DictPathValue)}
    {members members' : List (Text × Json)} (hkeys : ∀ pair ∈ pairs, ∃ k, pair.1 = .normal k)
    (hne : ∀ pair ∈ pairs, pair.1 ≠ .normal key)
    (h : ∀ m : Text × Json, m.1 ≠ key → (m ∈ members' ↔ m ∈ members)) :
    selects py pairs (.obj members') = true ↔ selects py pairs (.obj members) = true := by
  rw [selects_obj, selects_obj]
  refine forall₂_congr fun pair hpair => exists_congr fun m => and_congr_left fun hm => h m ?_
  rintro rfl
  obtain ⟨k, hk⟩ := hkeys pair hpair
  exact hne pair hpair (matches_key (by rw [hk]; exact fun h => by cases h) hm.1)

/-- The members for other keys are the same. -/
def Agrees (key : Text) (c c' : Json) : Prop :=
  c' = c ∨ ∃ members members', c = .obj members ∧ c' = .obj members'
    ∧ ∀ m : Text × Json, m.1 ≠ key → (m ∈ members' ↔ m ∈ members)

theorem Touches.agrees (h : Touches key c c') : Agrees key c c' := by
  obtain rfl | ⟨members, value, rfl, rfl⟩ := h
  · exact .inl rfl
  · exact .inr ⟨members, _, rfl, rfl, fun m hm => mem_setMember hm⟩

theorem accepts_of_agrees (hproper : segment.Proper) (hguard : segment.Unaffected key)
    (h : Agrees key e e') (ha : segment.Accepts py e) : segment.Accepts py e' := by
  obtain rfl | ⟨members, members', rfl, rfl, hmem⟩ := h
  · exact ha
  · cases segment with
    | inDict k => trivial
    | keyedList relation pairs =>
        exact (selects_congr (fun pair hpair => (hproper.2.1 pair hpair).1) hguard hmem).mpr ha

theorem foundIn_eq_one {pairs : List (DictPathValue × DictPathValue)} {l : List Json} :
    foundIn py pairs l = .one e ↔ l.filter (selects py pairs) = [e] := by
  unfold foundIn
  split
  · next h => simp [h]
  · next x h => simp [h]
  · next h₁ h₂ => exact iff_of_false (fun h => by cases h) fun h => h₂ _ h

theorem foundIn_eq_missing {pairs : List (DictPathValue × DictPathValue)} {l : List Json} :
    foundIn py pairs l = .missing ↔ l.filter (selects py pairs) = [] := by
  unfold foundIn
  split
  · next h => simp [h]
  · next x h => simp [h]
  · next h₁ h₂ => exact iff_of_false (fun h => by cases h) fun h => h₁ h

theorem find_inDict {k : Text} (h : (inDict (.normal k)).find py c = .one e) :
    ∃ members, c = .obj members ∧ members.lookup k = some e := by
  cases c with
  | obj members =>
      simp only [find] at h
      split at h
      · cases h
      · next value hv =>
          cases h
          exact ⟨members, rfl, hv⟩
  | _ => cases h

theorem find_keyedList {relation : Text} {pairs : List (DictPathValue × DictPathValue)}
    (h : (keyedList (.normal relation) pairs).find py c = .one e) :
    ∃ members l, c = .obj members ∧ members.lookup relation = some (.arr l)
      ∧ l.filter (selects py pairs) = [e] := by
  cases c with
  | obj members =>
      simp only [find] at h
      split at h
      · cases h
      · next l hl => exact ⟨members, l, rfl, hl, foundIn_eq_one.mp h⟩
      · cases h
  | _ => cases h

theorem listAt_obj {relation : Text} {members : List (Text × Json)} {l : List Json}
    (h : members.lookup relation = some (.arr l)) : listAt relation (.obj members) = l := by
  rw [listAt, h]

theorem find_putBack (hproper : segment.Proper) (h : segment.find py c = .one e)
    (ha : segment.Accepts py e') : segment.find py (segment.putBack py c e') = .one e' := by
  cases segment with
  | inDict k =>
      obtain ⟨k, rfl⟩ := hproper
      obtain ⟨members, rfl, -⟩ := find_inDict h
      simp only [putBack, find, lookup_setMember_self]
  | keyedList relation pairs =>
      obtain ⟨⟨relation, rfl⟩, -, -⟩ := hproper
      obtain ⟨members, l, rfl, hl, hfilter⟩ := find_keyedList h
      obtain ⟨pre, post, rfl, he, hpre, hpost⟩ := filter_eq_singleton hfilter
      simp only [putBack, find, lookup_setMember_self, listAt_obj hl,
        replaceFirst_split hpre he]
      exact foundIn_eq_one.mpr (filter_split hpre hpost ha)

theorem putBack_self (hproper : segment.Proper) (h : segment.find py c = .one e) :
    segment.putBack py c e = c := by
  cases segment with
  | inDict k =>
      obtain ⟨k, rfl⟩ := hproper
      obtain ⟨members, rfl, hk⟩ := find_inDict h
      rw [putBack, setMember_self hk]
  | keyedList relation pairs =>
      obtain ⟨⟨relation, rfl⟩, -, -⟩ := hproper
      obtain ⟨members, l, rfl, hl, hfilter⟩ := find_keyedList h
      obtain ⟨pre, post, rfl, he, hpre, hpost⟩ := filter_eq_singleton hfilter
      rw [putBack, listAt_obj hl, replaceFirst_split hpre he, setMember_self hl]

theorem touches_putBack (hproper : segment.Proper) :
    Touches segment.key c (segment.putBack py c e') := by
  cases segment with
  | inDict k =>
      obtain ⟨k, rfl⟩ := hproper
      cases c with
      | obj members => exact .inr ⟨members, _, rfl, rfl⟩
      | _ => exact .inl rfl
  | keyedList relation pairs =>
      obtain ⟨⟨relation, rfl⟩, -, -⟩ := hproper
      cases c with
      | obj members => exact .inr ⟨members, _, rfl, rfl⟩
      | _ => exact .inl rfl

theorem touches_construct (hproper : segment.Proper) :
    Touches segment.key c (segment.construct c).2 := by
  cases segment with
  | inDict k =>
      obtain ⟨k, rfl⟩ := hproper
      cases c with
      | obj members => exact .inr ⟨members, _, rfl, rfl⟩
      | _ => exact .inl rfl
  | keyedList relation pairs =>
      obtain ⟨⟨relation, rfl⟩, -, -⟩ := hproper
      cases c with
      | obj members => exact .inr ⟨members, _, rfl, rfl⟩
      | _ => exact .inl rfl

/-- The element that an element was found to be has the key-value pairs. -/
theorem accepts_of_find (hproper : segment.Proper) (h : segment.find py c = .one e) :
    segment.Accepts py e := by
  cases segment with
  | inDict k => trivial
  | keyedList relation pairs =>
      obtain ⟨⟨relation, rfl⟩, -, -⟩ := hproper
      obtain ⟨members, l, rfl, hl, hfilter⟩ := find_keyedList h
      obtain ⟨pre, post, rfl, he, hpre, hpost⟩ := filter_eq_singleton hfilter
      exact he

theorem mem_setMember_self {members : List (Text × Json)} {k : Text} :
    (k, v) ∈ setMember members k v := by
  induction members with
  | nil => exact List.mem_singleton_self _
  | cons m members ih =>
      rw [setMember]
      split
      · exact List.mem_cons_self ..
      · exact List.mem_cons_of_mem _ ih

/-- A member stays, if its key does not come again. -/
theorem mem_newMembers {pairs : List (DictPathValue × DictPathValue)} {m : Text × Json}
    {members : List (Text × Json)} (hm : m ∈ members)
    (hnew : ∀ pair ∈ pairs, pair.1 ≠ .normal m.1) : m ∈ newMembers pairs members := by
  induction pairs generalizing members with
  | nil => exact hm
  | cons pair pairs ih =>
      rw [List.forall_mem_cons] at hnew
      obtain ⟨key, value⟩ := pair
      cases key with
      | normal k =>
          refine ih ((mem_setMember fun h => hnew.1 ?_).mpr hm) hnew.2
          rw [h]
      | wildCard => exact ih hm hnew.2
      | null => exact ih hm hnew.2

theorem literal_mem_newMembers {pairs : List (DictPathValue × DictPathValue)}
    {members : List (Text × Json)} (hnodup : (pairs.map Prod.fst).Nodup) :
    ∀ pair ∈ pairs, ∀ k, pair.1 = .normal k → (k, literal pair.2) ∈ newMembers pairs members := by
  induction pairs generalizing members with
  | nil => exact fun pair hpair => absurd hpair List.not_mem_nil
  | cons pair pairs ih =>
      rw [List.map_cons, List.nodup_cons] at hnodup
      refine List.forall_mem_cons.mpr ⟨?_, ?_⟩
      · rintro k hk
        obtain ⟨key, value⟩ := pair
        obtain rfl : key = .normal k := hk
        show (k, literal value) ∈ newMembers pairs (setMember members k (literal value))
        refine mem_newMembers mem_setMember_self fun pair' hpair' h => hnodup.1 ?_
        exact List.mem_map.mpr ⟨pair', hpair', h⟩
      · intro pair' hpair' k hk
        obtain ⟨key, value⟩ := pair
        cases key with
        | normal k' => exact ih hnodup.2 pair' hpair' k hk
        | wildCard => exact ih hnodup.2 pair' hpair' k hk
        | null => exact ih hnodup.2 pair' hpair' k hk

theorem matches_literal {value : DictPathValue} (h : value ≠ .wildCard) :
    value.matches py (literal value) = true := by
  cases value with
  | normal value => exact matches_str.mpr rfl
  | wildCard => exact absurd rfl h
  | null => rfl

theorem selects_newDict {pairs : List (DictPathValue × DictPathValue)}
    (hpairs : ∀ pair ∈ pairs, (∃ k, pair.1 = .normal k) ∧ pair.2 ≠ .wildCard)
    (hnodup : (pairs.map Prod.fst).Nodup) : selects py pairs (newDict pairs) = true := by
  rw [newDict, selects_obj]
  intro pair hpair
  obtain ⟨⟨k, hk⟩, hvalue⟩ := hpairs pair hpair
  refine ⟨_, literal_mem_newMembers hnodup pair hpair k hk, ?_, matches_literal hvalue⟩
  rw [hk]
  exact matches_str.mpr rfl

theorem missing_inDict {k : Text} (h : (inDict (.normal k)).find py c = .missing) :
    ∃ members, c = .obj members ∧ members.lookup k = none := by
  cases c with
  | obj members =>
      simp only [find] at h
      split at h
      · next hk => exact ⟨members, rfl, hk⟩
      · cases h
  | _ => cases h

theorem missing_keyedList {relation : Text} {pairs : List (DictPathValue × DictPathValue)}
    (h : (keyedList (.normal relation) pairs).find py c = .missing) :
    ∃ members, c = .obj members ∧ (listAt relation c).filter (selects py pairs) = [] := by
  cases c with
  | obj members =>
      refine ⟨members, rfl, ?_⟩
      simp only [find] at h
      split at h
      · next hl => simp [listAt, hl]
      · next l hl =>
          rw [listAt_obj hl]
          exact foundIn_eq_missing.mp h
      · cases h
  | _ => cases h

theorem filter_matches {k : Text} {members : List (Text × Json)}
    (hnodup : (members.map Prod.fst).Nodup) :
    (members.filter fun m => (DictPathValue.normal k).matches py (.str m.1)).map Prod.snd
      = (members.lookup k).toList := by
  induction members with
  | nil => rfl
  | cons m members ih =>
      rw [List.map_cons, List.nodup_cons] at hnodup
      rw [List.filter_cons, Dict.lookup_cons_ite]
      by_cases hm : k = m.1
      · have hnone : members.filter (fun m => (DictPathValue.normal k).matches py (.str m.1))
            = [] := by
          rw [List.filter_eq_nil_iff]
          intro m' hm' hmatches
          rw [← hm, matches_str.mp hmatches] at hnodup
          exact hnodup.1 (List.mem_map_of_mem hm')
        rw [if_pos hm, if_pos (matches_str.mpr hm), hnone]
        rfl
      · rw [if_neg hm, if_neg fun h => hm (matches_str.mp h), ih hnodup.2]

/-- What is found is what `get_elements` gives, in a dictionary. -/
theorem find_spec (hproper : segment.Proper)
    (hnodup : ∀ members, c = .obj members → (members.map Prod.fst).Nodup) :
    match segment.find py c with
    | .missing => segment.getElements py c = some []
    | .one e => segment.getElements py c = some [e]
    | .many => ∃ x y rest, segment.getElements py c = some (x :: y :: rest)
    | .wrong => segment.getElements py c = none := by
  cases segment with
  | inDict k =>
      obtain ⟨k, rfl⟩ := hproper
      cases c with
      | obj members =>
          simp only [find, getElements, filter_matches (hnodup members rfl)]
          cases members.lookup k with
          | none => rfl
          | some value => rfl
      | _ => rfl
  | keyedList relation pairs =>
      obtain ⟨⟨relation, rfl⟩, -, -⟩ := hproper
      cases c with
      | obj members =>
          simp only [find, getElements]
          cases members.lookup relation with
          | none => rfl
          | some value =>
              cases value with
              | arr l =>
                  simp only [foundIn]
                  rcases l.filter (selects py pairs) with _ | ⟨x, _ | ⟨y, rest⟩⟩
                  · rfl
                  · rfl
                  · exact ⟨x, y, rest, rfl⟩
              | _ => rfl
      | _ => rfl

/-- What is made is found. -/
theorem find_construct (hproper : segment.Proper) (h : segment.find py c = .missing) :
    segment.find py (segment.construct c).2 = .one (segment.construct c).1 := by
  cases segment with
  | inDict k =>
      obtain ⟨k, rfl⟩ := hproper
      obtain ⟨members, rfl, -⟩ := missing_inDict h
      simp only [construct, find, lookup_setMember_self]
  | keyedList relation pairs =>
      obtain ⟨⟨relation, rfl⟩, hpairs, hnodup⟩ := hproper
      obtain ⟨members, rfl, hempty⟩ := missing_keyedList h
      simp only [construct, find, lookup_setMember_self]
      refine foundIn_eq_one.mpr ?_
      rw [List.filter_append, hempty, List.filter_cons, if_pos (selects_newDict hpairs hnodup)]
      rfl

/-- What `get_element` gives is found, and nothing else is changed. -/
theorem getElement_spec {construct : Bool} (hproper : segment.Proper)
    (h : segment.getElement py construct c = (some e, c₁)) :
    segment.find py c₁ = .one e ∧ Touches segment.key c c₁
      ∧ (segment.find py c = .one e ∧ c₁ = c
        ∨ segment.find py c = .missing ∧ (e, c₁) = segment.construct c) := by
  unfold getElement at h
  split at h
  · next e' he =>
      obtain ⟨he', rfl⟩ := Prod.mk.inj h
      obtain rfl := Option.some.inj he'
      exact ⟨he, .inl rfl, .inl ⟨he, rfl⟩⟩
  · next hmissing =>
      split at h
      · obtain ⟨he', rfl⟩ := Prod.mk.inj h
        obtain rfl := Option.some.inj he'
        exact ⟨find_construct hproper hmissing, touches_construct hproper, .inr ⟨hmissing, rfl⟩⟩
      · cases h
  · cases h
  · cases h

theorem touches_getElement {result : Option Json} {construct : Bool} (hproper : segment.Proper)
    (h : segment.getElement py construct c = (result, c₁)) : Touches segment.key c c₁ := by
  cases result with
  | some e => exact (getElement_spec hproper h).2.1
  | none =>
      unfold getElement at h
      split at h
      · cases h
      · split at h
        · cases h
        · exact .inl (Prod.mk.inj h).2.symm
      · exact .inl (Prod.mk.inj h).2.symm
      · exact .inl (Prod.mk.inj h).2.symm

/-- The rest of a container is as it was: an element that is found changes by `R`, or one is
made. -/
def Changed (py : Python F) (made : Prop) (segment : WildSegment) (R : Json → Json → Prop)
    (c c' : Json) : Prop :=
  ∃ members members', c = .obj members ∧ c' = .obj members'
    ∧ (∀ k, k ≠ segment.key → members'.lookup k = members.lookup k)
    ∧ match segment with
      | .inDict _ => (∃ e e', members.lookup segment.key = some e
          ∧ members'.lookup segment.key = some e' ∧ R e e')
        ∨ made ∧ members.lookup segment.key = none
      | .keyedList _ pairs => ∃ l', members'.lookup segment.key = some (.arr l')
          ∧ ((∃ pre e e' post, listAt segment.key c = pre ++ e :: post ∧ l' = pre ++ e' :: post
              ∧ selects py pairs e = true ∧ R e e')
            ∨ made ∧ ∃ d, l' = listAt segment.key c ++ [d])

theorem changed_putBack {made : Prop} {R : Json → Json → Prop} (hproper : segment.Proper)
    (h : segment.find py c = .one e) (hR : R e e') :
    Changed py made segment R c (segment.putBack py c e') := by
  cases segment with
  | inDict k =>
      obtain ⟨k, rfl⟩ := hproper
      obtain ⟨members, rfl, hk⟩ := find_inDict h
      refine ⟨members, _, rfl, rfl, fun k' hk' => ?_, .inl ⟨e, e', hk, ?_, hR⟩⟩
      · exact lookup_setMember_of_ne hk'
      · exact lookup_setMember_self
  | keyedList relation pairs =>
      obtain ⟨⟨relation, rfl⟩, -, -⟩ := hproper
      obtain ⟨members, l, rfl, hl, hfilter⟩ := find_keyedList h
      obtain ⟨pre, post, rfl, he, hpre, hpost⟩ := filter_eq_singleton hfilter
      refine ⟨members, _, rfl, rfl, fun k' hk' => ?_, pre ++ e' :: post, ?_,
        .inl ⟨pre, e, e', post, listAt_obj hl, rfl, he, hR⟩⟩
      · exact lookup_setMember_of_ne hk'
      · rw [key, lookup_setMember_self, listAt_obj hl, replaceFirst_split hpre he]

theorem changed_construct {R : Json → Json → Prop} (hproper : segment.Proper)
    (h : segment.find py c = .missing) :
    Changed py True segment R c (segment.putBack py (segment.construct c).2 e') := by
  cases segment with
  | inDict k =>
      obtain ⟨k, rfl⟩ := hproper
      obtain ⟨members, rfl, hk⟩ := missing_inDict h
      refine ⟨members, _, rfl, rfl, fun k' hk' => ?_, .inr ⟨trivial, hk⟩⟩
      exact (lookup_setMember_of_ne hk').trans (lookup_setMember_of_ne hk')
  | keyedList relation pairs =>
      obtain ⟨⟨relation, rfl⟩, hpairs, hnodup⟩ := hproper
      obtain ⟨members, rfl, hempty⟩ := missing_keyedList h
      refine ⟨members, _, rfl, rfl, fun k' hk' => ?_,
        listAt relation (.obj members) ++ [e'], ?_, .inr ⟨trivial, e', rfl⟩⟩
      · exact (lookup_setMember_of_ne hk').trans (lookup_setMember_of_ne hk')
      · have hlist : (setMember members relation (.arr (listAt relation (.obj members)
            ++ [newDict pairs]))).lookup relation = some (.arr (listAt relation (.obj members)
              ++ [newDict pairs])) :=
          lookup_setMember_self
        rw [key, lookup_setMember_self, listAt_obj hlist, replaceFirst_split
          (fun x hx => Bool.eq_false_iff.mpr (List.filter_eq_nil_iff.mp hempty x hx))
          (selects_newDict hpairs hnodup)]

/-! ### Setting an element -/

/-- What equals an element that is selected is selected as well. -/
def EqualOk (py : Python F) (equal : Json → Json → Bool) : WildSegment → Json → Prop
  | .keyedList (.normal relation) pairs, c =>
      ∀ e ∈ listAt relation c, selects py pairs e = true → equal e e = true
        ∧ ∀ x ∈ listAt relation c, equal x e = true → selects py pairs x = true
  | _, _ => True

theorem touches_setElement {equal : Json → Json → Bool} (hproper : segment.Proper) :
    Touches segment.key c (segment.setElement py equal c v).2 := by
  cases segment with
  | inDict k =>
      obtain ⟨k, rfl⟩ := hproper
      cases c with
      | obj members => exact .inr ⟨members, _, rfl, rfl⟩
      | _ => exact .inl rfl
  | keyedList relation pairs =>
      obtain ⟨⟨relation, rfl⟩, -, -⟩ := hproper
      cases c with
      | obj members =>
          unfold setElement
          simp only
          split
          · exact .inr ⟨members, _, rfl, rfl⟩
          · split
            · exact .inr ⟨members, _, rfl, rfl⟩
            · exact .inr ⟨members, _, rfl, rfl⟩
          · exact .inl rfl
      | _ => exact .inl rfl

/-- An element of a list that is replaced, or added. -/
theorem changed_list {relation : Text} {pairs : List (DictPathValue × DictPathValue)}
    {members : List (Text × Json)} {l' : List Json} {R : Json → Json → Prop} {made : Prop}
    (h : (∃ pre e e' post, listAt relation (.obj members) = pre ++ e :: post
        ∧ l' = pre ++ e' :: post ∧ selects py pairs e = true ∧ R e e')
      ∨ made ∧ ∃ d, l' = listAt relation (.obj members) ++ [d]) :
    Changed py made (.keyedList (.normal relation) pairs) R (.obj members)
      (.obj (setMember members relation (.arr l'))) := by
  refine ⟨members, _, rfl, rfl, fun k' hk' => ?_, l', ?_, h⟩
  · exact lookup_setMember_of_ne hk'
  · exact lookup_setMember_self

theorem setElement_spec {equal : Json → Json → Bool} (hproper : segment.Proper)
    (hequal : EqualOk py equal segment c) (hone : segment.find py c ≠ .many)
    (h : segment.setElement py equal c v = (true, c')) (ha : segment.Accepts py v) :
    segment.find py c' = .one v ∧ Changed py True segment (fun _ _ => True) c c' := by
  cases segment with
  | inDict k =>
      obtain ⟨k, rfl⟩ := hproper
      cases c with
      | obj members =>
          obtain rfl := (Prod.mk.inj h).2
          refine ⟨by simp only [find, lookup_setMember_self], members, _, rfl, rfl,
            fun k' hk' => ?_, ?_⟩
          · exact lookup_setMember_of_ne hk'
          · rw [key, lookup_setMember_self]
            cases hk : members.lookup k with
            | none => exact .inr ⟨trivial, rfl⟩
            | some x => exact .inl ⟨x, v, rfl, rfl, trivial⟩
      | _ => cases h
  | keyedList relation pairs =>
      obtain ⟨⟨relation, rfl⟩, -, -⟩ := hproper
      cases c with
      | obj members =>
          unfold setElement at h
          simp only at h
          split at h
          · next hl =>
              obtain rfl := (Prod.mk.inj h).2
              refine ⟨?_, changed_list (.inr ⟨trivial, v, by simp [listAt, hl]⟩)⟩
              simp only [find, lookup_setMember_self]
              exact foundIn_eq_one.mpr (List.filter_eq_self.mpr (List.forall_mem_singleton.mpr ha))
          · next l hl =>
              rw [EqualOk, listAt_obj hl] at hequal
              split at h
              · next e he =>
                  obtain rfl := (Prod.mk.inj h).2
                  obtain ⟨pre, post, rfl, he, hpre, hpost⟩ :=
                    filter_eq_singleton (foundIn_eq_one.mp he)
                  obtain ⟨hself, hothers⟩ := hequal e (by simp) he
                  have hreplace := @replaceFirst_split (equal · e) v e pre post
                    (fun x hx => Bool.eq_false_iff.mpr fun hx' => by
                      have := hothers x (List.mem_append_left _ hx) hx'
                      rw [hpre x hx] at this
                      cases this) hself
                  rw [hreplace]
                  refine ⟨?_, changed_list
                    (.inl ⟨pre, e, v, post, listAt_obj hl, rfl, he, trivial⟩)⟩
                  simp only [find, lookup_setMember_self]
                  exact foundIn_eq_one.mpr (filter_split hpre hpost ha)
              · next hnone =>
                  obtain rfl := (Prod.mk.inj h).2
                  refine ⟨?_, changed_list (.inr ⟨trivial, v, by rw [listAt_obj hl]⟩)⟩
                  simp only [find, lookup_setMember_self]
                  have hempty : l.filter (selects py pairs) = [] := by
                    rcases hf : l.filter (selects py pairs) with _ | ⟨e, _ | ⟨y, rest⟩⟩
                    · rfl
                    · exact absurd (foundIn_eq_one.mpr hf) (hnone e)
                    · exact absurd (by simp only [find, hl, foundIn, hf]) hone
                  refine foundIn_eq_one.mpr ?_
                  rw [List.filter_append, hempty, List.filter_cons,
                    if_pos (show selects py pairs v = true from ha)]
                  rfl
          · cases h
      | _ => cases h

/-- More than one element is found, and another one is added. -/
theorem setElement_of_many {equal : Json → Json → Bool} (hproper : segment.Proper)
    (h : segment.find py c = .many) : (segment.setElement py equal c v).1 = true := by
  cases segment with
  | inDict k =>
      obtain ⟨k, rfl⟩ := hproper
      cases c with
      | obj members => rfl
      | _ => cases h
  | keyedList relation pairs =>
      obtain ⟨⟨relation, rfl⟩, -, -⟩ := hproper
      cases c with
      | obj members =>
          simp only [find] at h
          split at h
          · cases h
          · next l hl => simp only [setElement, hl, h]
          · cases h
      | _ => cases h

/-! ### What is made for a path -/

/-- The values of a new element. -/
def Scalar (v : Json) : Prop := v = .null ∨ ∃ s, v = .str s

def Flat (e : Json) : Prop := ∃ members, e = .obj members ∧ ∀ m ∈ members, Scalar m.2

theorem find_scalar (h : Scalar v) : segment.find py v = .wrong := by
  obtain rfl | ⟨s, rfl⟩ := h
  · cases segment with
    | inDict k => cases k <;> rfl
    | keyedList relation pairs => cases relation <;> rfl
  · cases segment with
    | inDict k => cases k <;> rfl
    | keyedList relation pairs => cases relation <;> rfl

theorem setMember_scalar {members : List (Text × Json)} {k : Text}
    (h : ∀ m ∈ members, Scalar m.2) (hv : Scalar v) : ∀ m ∈ setMember members k v, Scalar m.2 := by
  induction members with
  | nil => exact List.forall_mem_singleton.mpr hv
  | cons m members ih =>
      rw [List.forall_mem_cons] at h
      rw [setMember]
      split
      · exact List.forall_mem_cons.mpr ⟨hv, h.2⟩
      · exact List.forall_mem_cons.mpr ⟨h.1, ih h.2⟩

theorem newMembers_scalar {pairs : List (DictPathValue × DictPathValue)}
    {members : List (Text × Json)} (h : ∀ m ∈ members, Scalar m.2) :
    ∀ m ∈ newMembers pairs members, Scalar m.2 := by
  induction pairs generalizing members with
  | nil => exact h
  | cons pair pairs ih =>
      obtain ⟨key, value⟩ := pair
      cases key with
      | normal k =>
          refine ih (setMember_scalar h ?_)
          cases value with
          | normal value => exact .inr ⟨value, rfl⟩
          | wildCard => exact .inl rfl
          | null => exact .inl rfl
      | wildCard => exact ih h
      | null => exact ih h

theorem flat_construct (hproper : segment.Proper) (h : segment.find py c = .missing) :
    Flat (segment.construct c).1 := by
  cases segment with
  | inDict k =>
      obtain ⟨k, rfl⟩ := hproper
      obtain ⟨members, rfl, -⟩ := missing_inDict h
      exact ⟨[], rfl, fun m hm => absurd hm List.not_mem_nil⟩
  | keyedList relation pairs =>
      obtain ⟨⟨relation, rfl⟩, -, -⟩ := hproper
      obtain ⟨members, rfl, -⟩ := missing_keyedList h
      exact ⟨_, rfl, newMembers_scalar fun m hm => absurd hm List.not_mem_nil⟩

theorem scalar_of_lookup {members : List (Text × Json)} {k : Text}
    (h : ∀ m ∈ members, Scalar m.2) (hk : members.lookup k = some v) : Scalar v := by
  induction members with
  | nil => cases hk
  | cons m members ih =>
      rw [List.forall_mem_cons] at h
      rw [Dict.lookup_cons_ite] at hk
      split at hk
      · exact Option.some.inj hk ▸ h.1
      · exact ih h.2 hk

/-- There is no list in what is made. -/
theorem listAt_flat {relation : Text} (h : Flat e) : listAt relation e = [] := by
  obtain ⟨members, rfl, hscalar⟩ := h
  cases hk : members.lookup relation with
  | none => simp [listAt, hk]
  | some v =>
      obtain rfl | ⟨s, rfl⟩ := scalar_of_lookup hscalar hk
      · simp [listAt, hk]
      · simp [listAt, hk]

theorem find_flat (hproper : segment.Proper) (h : Flat e) : segment.find py e ≠ .many
    ∧ ∀ x, segment.find py e = .one x → Scalar x := by
  cases segment with
  | inDict k =>
      obtain ⟨k, rfl⟩ := hproper
      obtain ⟨members, rfl, hscalar⟩ := h
      simp only [find]
      split
      · exact ⟨(fun h => by cases h), fun x hx => by cases hx⟩
      · next v hv =>
          refine ⟨(fun h => by cases h), fun x hx => ?_⟩
          cases hx
          exact scalar_of_lookup hscalar hv
  | keyedList relation pairs =>
      obtain ⟨⟨relation, rfl⟩, -, -⟩ := hproper
      have hlist := @listAt_flat e relation h
      obtain ⟨members, rfl, hscalar⟩ := h
      simp only [find]
      split
      · exact ⟨(fun h => by cases h), fun x hx => by cases hx⟩
      · next l hl =>
          rw [listAt_obj hl] at hlist
          subst hlist
          exact ⟨(fun h => by cases h), fun x hx => by cases hx⟩
      · exact ⟨(fun h => by cases h), fun x hx => by cases hx⟩

end Segment

/-! ## Paths -/

section Paths

open WildSegment ComposedPath

variable {py : Python F} {equal : Json → Json → Bool} {construct : Bool} {segment : WildSegment}
  {path : List WildSegment} {c c' e e' v : Json}

/-- Only what a path leads to is changed, and what is made on the way to it. -/
def OnlyAt (py : Python F) : List WildSegment → Json → Json → Prop
  | [] => fun _ _ => True
  | segment :: path => Changed py True segment (OnlyAt py path)

/-- The value is one for the last segment. -/
def LastAccepts (py : Python F) : List WildSegment → Json → Prop
  | [], _ => True
  | [segment], value => segment.Accepts py value
  | _ :: segment :: path, value => LastAccepts py (segment :: path) value

/-- `EqualOk` for the last segment, in the container that the others lead to. -/
def PathEqualOk (py : Python F) (equal : Json → Json → Bool) : List WildSegment → Json → Prop
  | [], _ => True
  | [segment], c => EqualOk py equal segment c
  | segment :: next :: path, c => ∀ e, segment.find py c = .one e →
      PathEqualOk py equal (next :: path) e

/-- The last segment has more than one element in the container that the others lead to. -/
def LeadsToMany (py : Python F) : List WildSegment → Json → Prop
  | [], _ => False
  | [segment], c => segment.find py c = .many
  | segment :: next :: path, c => ∃ e, segment.find py c = .one e
      ∧ LeadsToMany py (next :: path) e

/-- Where the path leads to more than one element. -/
def Ambiguous (py : Python F) : List WildSegment → Json → Prop
  | [], _ => False
  | segment :: path, c => segment.find py c = .many
      ∨ ∃ e, segment.find py c = .one e ∧ Ambiguous py path e

theorem changed_back {R : Json → Json → Prop} {c₁ : Json} (hproper : segment.Proper)
    (h : segment.getElement py construct c = (some e, c₁)) (hR : R e e') :
    Changed py True segment R c (segment.putBack py c₁ e') := by
  obtain ⟨-, -, ⟨hfind, rfl⟩ | ⟨hmissing, hconstruct⟩⟩ := getElement_spec hproper h
  · exact changed_putBack hproper hfind hR
  · rw [show c₁ = (segment.construct c).2 from congrArg Prod.snd hconstruct]
    exact changed_construct hproper hmissing

theorem set_cons {next : WildSegment} :
    set py equal construct (segment :: next :: path) c v =
      match segment.getElement py construct c with
      | (none, c₁) => (false, c₁)
      | (some e, c₁) => ((set py equal construct (next :: path) e v).1,
          segment.putBack py c₁ (set py equal construct (next :: path) e v).2) := rfl

theorem set_touches (hproper : ∀ s ∈ segment :: path, s.Proper) :
    Touches segment.key c (set py equal construct (segment :: path) c v).2 := by
  rw [List.forall_mem_cons] at hproper
  cases path with
  | nil => exact touches_setElement hproper.1
  | cons next path =>
      rw [set_cons]
      cases h : segment.getElement py construct c with
      | mk result c₁ =>
          cases result with
          | none => exact touches_getElement hproper.1 h
          | some e => exact (touches_getElement hproper.1 h).trans (touches_putBack hproper.1)

theorem flat_path (hproper : ∀ s ∈ path, s.Proper) (h : Flat e) :
    PathEqualOk py equal path e ∧ ¬ LeadsToMany py path e := by
  have hscalar : ∀ (path : List WildSegment) (x : Json), Scalar x →
      PathEqualOk py equal path x ∧ ¬ LeadsToMany py path x := by
    intro path x hx
    rcases path with _ | ⟨segment, _ | ⟨next, path⟩⟩
    · exact ⟨trivial, id⟩
    · refine ⟨?_, fun h => by cases (find_scalar hx).symm.trans h⟩
      obtain rfl | ⟨s, rfl⟩ := hx
      · cases segment with
        | inDict k => trivial
        | keyedList relation pairs => cases relation <;> simp [PathEqualOk, EqualOk, listAt]
      · cases segment with
        | inDict k => trivial
        | keyedList relation pairs => cases relation <;> simp [PathEqualOk, EqualOk, listAt]
    · refine ⟨(fun y hy => by cases (find_scalar hx).symm.trans hy), ?_⟩
      rintro ⟨y, hy, -⟩
      cases (find_scalar hx).symm.trans hy
  rcases path with _ | ⟨segment, _ | ⟨next, path⟩⟩
  · exact ⟨trivial, id⟩
  · have hsegment := List.forall_mem_singleton.mp hproper
    refine ⟨?_, (find_flat hsegment h).1⟩
    cases segment with
    | inDict k => trivial
    | keyedList relation pairs =>
        obtain ⟨⟨relation, rfl⟩, -, -⟩ := hsegment
        rw [PathEqualOk, EqualOk, listAt_flat h]
        exact fun x hx => absurd hx List.not_mem_nil
  · rw [List.forall_mem_cons] at hproper
    have hone := (@find_flat F py segment e hproper.1 h).2
    refine ⟨fun y hy => (hscalar _ y (hone y hy)).1, ?_⟩
    rintro ⟨y, hy, hmany⟩
    exact (hscalar _ y (hone y hy)).2 hmany

/-- **What is set is found, and nothing else is changed.** -/
theorem set_spec (hproper : ∀ s ∈ path, s.Proper) (hguards : Guards path)
    (hequal : PathEqualOk py equal path c) (hone : ¬ LeadsToMany py path c)
    (h : set py equal construct path c v = (true, c')) (ha : LastAccepts py path v) :
    get py path c' = some v ∧ OnlyAt py path c c' := by
  induction path generalizing c c' with
  | nil => cases h
  | cons segment path ih =>
      rw [List.forall_mem_cons] at hproper
      cases path with
      | nil =>
          obtain ⟨hfind, hchanged⟩ := setElement_spec hproper.1 hequal hone h ha
          rw [ComposedPath.get, hfind]
          exact ⟨rfl, hchanged⟩
      | cons next path =>
          rw [set_cons] at h
          cases hget : segment.getElement py construct c with
          | mk result c₁ =>
              rw [hget] at h
              cases result with
              | none => cases h
              | some e =>
                  obtain ⟨hset, rfl⟩ := Prod.mk.inj h
                  have htouches := @set_touches F py equal construct next path e v hproper.2
                  obtain ⟨hfind, -, horigin⟩ := getElement_spec hproper.1 hget
                  have hnext : PathEqualOk py equal (next :: path) e
                      ∧ ¬ LeadsToMany py (next :: path) e := by
                    obtain ⟨hfind, -⟩ | ⟨hmissing, hconstruct⟩ := horigin
                    · exact ⟨hequal e hfind, fun h => hone ⟨e, hfind, h⟩⟩
                    · rw [show e = (segment.construct c).1 from congrArg Prod.fst hconstruct]
                      exact flat_path hproper.2 (flat_construct hproper.1 hmissing)
                  obtain ⟨hfound, hrest⟩ := ih hproper.2 hguards.2 hnext.1 hnext.2
                    (Prod.ext hset rfl) ha
                  have haccepts := accepts_of_agrees hproper.1 hguards.1 htouches.agrees
                    (accepts_of_find hproper.1 hfind)
                  rw [ComposedPath.get, find_putBack hproper.1 hfind haccepts]
                  exact ⟨hfound, changed_back hproper.1 hget hrest⟩

theorem getElement_of_find (h : segment.find py c = .one e) :
    segment.getElement py construct c = (some e, c) := by
  rw [getElement, h]

/-- Nothing is changed where the path is ambiguous. -/
theorem set_ambiguous (hproper : ∀ s ∈ path, s.Proper)
    (hone : ¬ LeadsToMany py path c) (h : Ambiguous py path c) :
    set py equal construct path c v = (false, c) := by
  induction path generalizing c with
  | nil => exact h.elim
  | cons segment path ih =>
      rw [List.forall_mem_cons] at hproper
      cases path with
      | nil =>
          obtain hmany | ⟨e, -, h⟩ := h
          · exact absurd hmany hone
          · exact h.elim
      | cons next path =>
          rw [set_cons]
          obtain hmany | ⟨e, hfind, h⟩ := h
          · rw [getElement, hmany]
          · rw [getElement_of_find hfind]
            simp only
            rw [ih hproper.2 (fun hmany => hone ⟨e, hfind, hmany⟩) h, putBack_self hproper.1 hfind]

/-- Where the last segment has more than one element, another one is added. -/
theorem set_of_many (hproper : ∀ s ∈ path, s.Proper) (h : LeadsToMany py path c) :
    Ambiguous py path c ∧ (set py equal construct path c v).1 = true := by
  induction path generalizing c with
  | nil => exact h.elim
  | cons segment path ih =>
      rw [List.forall_mem_cons] at hproper
      cases path with
      | nil => exact ⟨.inl h, setElement_of_many hproper.1 h⟩
      | cons next path =>
          obtain ⟨e, hfind, hmany⟩ := h
          obtain ⟨hambiguous, hset⟩ := ih hproper.2 hmany
          refine ⟨.inr ⟨e, hfind, hambiguous⟩, ?_⟩
          rw [set_cons, getElement_of_find hfind]
          exact hset

/-! ### Constructing an element -/

theorem constructAll_cons : constructAll py (segment :: path) c =
    match segment.getElement py true c with
    | (none, c₁) => (none, c₁)
    | (some e, c₁) => ((constructAll py path e).1,
        segment.putBack py c₁ (constructAll py path e).2) := rfl

theorem constructAll_touches (hproper : ∀ s ∈ segment :: path, s.Proper) :
    Touches segment.key c (constructAll py (segment :: path) c).2 := by
  rw [List.forall_mem_cons] at hproper
  rw [constructAll_cons]
  cases h : segment.getElement py true c with
  | mk result c₁ =>
      cases result with
      | none => exact touches_getElement hproper.1 h
      | some e => exact (touches_getElement hproper.1 h).trans (touches_putBack hproper.1)

theorem constructAll_spec (hproper : ∀ s ∈ path, s.Proper) (hguards : Guards path)
    (h : constructAll py path c = (some e, c')) : get py path c' = some e := by
  induction path generalizing c c' with
  | nil =>
      obtain ⟨he, rfl⟩ := Prod.mk.inj h
      exact he
  | cons segment path ih =>
      rw [List.forall_mem_cons] at hproper
      rw [constructAll_cons] at h
      cases hget : segment.getElement py true c with
      | mk result c₁ =>
          rw [hget] at h
          cases result with
          | none => cases h
          | some x =>
              obtain ⟨hresult, rfl⟩ := Prod.mk.inj h
              obtain ⟨hfind, -, -⟩ := getElement_spec hproper.1 hget
              have haccepts : segment.Accepts py (constructAll py path x).2 := by
                cases path with
                | nil => exact accepts_of_find hproper.1 hfind
                | cons next path =>
                    exact accepts_of_agrees hproper.1 hguards.1
                      (constructAll_touches hproper.2).agrees (accepts_of_find hproper.1 hfind)
              rw [ComposedPath.get, find_putBack hproper.1 hfind haccepts]
              refine ih hproper.2 ?_ (Prod.ext hresult rfl)
              cases path with
              | nil => trivial
              | cons next path => exact hguards.2

/-- **What is constructed is found.** -/
theorem getConstruct_spec (hproper : ∀ s ∈ path, s.Proper) (hguards : Guards path)
    (h : getConstruct py path c = (some e, c')) : get py path c' = some e := by
  unfold getConstruct at h
  split at h
  · next x hx =>
      obtain ⟨he, rfl⟩ := Prod.mk.inj h
      rw [hx, he]
  · exact constructAll_spec hproper hguards h

/-! ### Removing an element -/

/-- Everything but the matched elements is left. -/
def RemovedIn (py : Python F) (segment : WildSegment) (c c' : Json) : Prop :=
  ∃ members members', c = .obj members ∧ c' = .obj members'
    ∧ (∀ k, k ≠ segment.key → members'.lookup k = members.lookup k)
    ∧ match segment with
      | .inDict _ => members'.lookup segment.key = none
      | .keyedList _ pairs => listAt segment.key c'
          = (listAt segment.key c).filter fun x => !selects py pairs x

/-- Nothing is changed but the container of the element, where the path leads to one. -/
def Removed (py : Python F) : List WildSegment → Json → Json → Prop
  | [] => fun _ _ => False
  | [segment] => RemovedIn py segment
  | segment :: next :: path => fun c c' =>
      c' = c ∨ Changed py False segment (Removed py (next :: path)) c c'

theorem removeElement_spec (hproper : segment.Proper) (h : segment.remove py c = (true, c')) :
    segment.find py c' = .missing ∧ RemovedIn py segment c c'
      ∧ segment.remove py c' = (true, c') ∧ Agrees segment.key c c' := by
  cases segment with
  | inDict k =>
      obtain ⟨k, rfl⟩ := hproper
      cases c with
      | obj members =>
          obtain rfl := (Prod.mk.inj h).2
          have hnone : (members.filter fun m => m.1 ≠ k).lookup k = none := by
            rw [Dict.lookup_filter_ne, if_pos rfl]
          refine ⟨by simp only [find, hnone], ⟨members, _, rfl, rfl, fun k' hk' => ?_, hnone⟩, ?_,
            .inr ⟨members, _, rfl, rfl, fun m hm => ?_⟩⟩
          · rw [Dict.lookup_filter_ne]
            exact if_neg hk'
          · rw [WildSegment.remove, List.filter_filter]
            simp only [Bool.and_self]
          · have hne : m.1 ≠ k := hm
            simp [hne]
      | _ => cases h
  | keyedList relation pairs =>
      obtain ⟨⟨relation, rfl⟩, -, -⟩ := hproper
      cases c with
      | obj members =>
          unfold WildSegment.remove at h
          simp only at h
          split at h
          · next hl =>
              obtain rfl := (Prod.mk.inj h).2
              refine ⟨by simp only [find, hl], ⟨members, _, rfl, rfl, fun _ _ => rfl, ?_⟩, ?_,
                .inl rfl⟩
              · simp [key, listAt, hl]
              · simp only [WildSegment.remove, hl]
          · next l hl =>
              obtain rfl := (Prod.mk.inj h).2
              have hl' : (setMember members relation (.arr (l.filter fun x => !selects py pairs x))
                  ).lookup relation = some (.arr (l.filter fun x => !selects py pairs x)) :=
                lookup_setMember_self
              refine ⟨?_, ⟨members, _, rfl, rfl, fun k' hk' => ?_, ?_⟩, ?_,
                .inr ⟨members, _, rfl, rfl, fun m hm => mem_setMember hm⟩⟩
              · simp only [find, hl']
                exact foundIn_eq_missing.mpr (by simp [List.filter_filter])
              · exact lookup_setMember_of_ne hk'
              · rw [key, listAt_obj hl', listAt_obj hl]
              · simp only [WildSegment.remove, hl', setMember_setMember, List.filter_filter,
                  Bool.and_self]
          · cases h
      | _ => cases h

theorem remove_cons {next : WildSegment} : remove py (segment :: next :: path) c =
    match segment.find py c with
    | .one e => ((remove py (next :: path) e).1,
        segment.putBack py c (remove py (next :: path) e).2)
    | .missing => (true, c)
    | .many => (true, c)
    | .wrong => (false, c) := rfl

theorem remove_agrees (hproper : ∀ s ∈ segment :: path, s.Proper)
    (h : remove py (segment :: path) c = (true, c')) : Agrees segment.key c c' := by
  rw [List.forall_mem_cons] at hproper
  cases path with
  | nil => exact (removeElement_spec hproper.1 h).2.2.2
  | cons next path =>
      rw [remove_cons] at h
      split at h
      · rw [← (Prod.mk.inj h).2]
        exact (touches_putBack hproper.1).agrees
      · exact .inl (Prod.mk.inj h).2.symm
      · exact .inl (Prod.mk.inj h).2.symm
      · cases h

/-- **What is removed is not found**, nothing else is changed, and it is removed once. -/
theorem remove_spec (hproper : ∀ s ∈ path, s.Proper) (hguards : Guards path)
    (h : remove py path c = (true, c')) :
    get py path c' = none ∧ Removed py path c c' ∧ remove py path c' = (true, c') := by
  induction path generalizing c c' with
  | nil => cases h
  | cons segment path ih =>
      rw [List.forall_mem_cons] at hproper
      cases path with
      | nil =>
          obtain ⟨hfind, hremoved, hagain, -⟩ := removeElement_spec hproper.1 h
          rw [ComposedPath.get, hfind]
          exact ⟨rfl, hremoved, hagain⟩
      | cons next path =>
          rw [remove_cons] at h
          split at h
          · next e hfind =>
              obtain ⟨hremove, rfl⟩ := Prod.mk.inj h
              obtain ⟨hget, hremoved, hagain⟩ := ih hproper.2 hguards.2 (Prod.ext hremove rfl)
              have hagrees := remove_agrees hproper.2 (Prod.ext hremove rfl)
              have hfound := find_putBack hproper.1 hfind (accepts_of_agrees hproper.1 hguards.1
                hagrees (accepts_of_find hproper.1 hfind))
              refine ⟨?_, .inr (changed_putBack hproper.1 hfind hremoved), ?_⟩
              · rw [ComposedPath.get, hfound]
                exact hget
              · rw [remove_cons, hfound]
                simp only [hagain, putBack_self hproper.1 hfound]
          · next hfind =>
              obtain ⟨-, rfl⟩ := Prod.mk.inj h
              exact ⟨by rw [ComposedPath.get, hfind], .inl rfl, by rw [remove_cons, hfind]⟩
          · next hfind =>
              obtain ⟨-, rfl⟩ := Prod.mk.inj h
              exact ⟨by rw [ComposedPath.get, hfind], .inl rfl, by rw [remove_cons, hfind]⟩
          · cases h

/-! ### The laws -/

/-- The laws of a path and a container. -/
structure PathLaws (py : Python F) (equal : Json → Json → Bool) (construct : Bool)
    (path : List WildSegment) (c : Json) : Prop where
  set : ∀ v c', LastAccepts py path v → set py equal construct path c v = (true, c') →
    get py path c' = some v ∧ OnlyAt py path c c'
  ambiguous : ∀ v, Ambiguous py path c → ComposedPath.set py equal construct path c v = (false, c)
  construct : ∀ e c', getConstruct py path c = (some e, c') → get py path c' = some e
  remove : ∀ c', remove py path c = (true, c') →
    get py path c' = none ∧ Removed py path c c' ∧ ComposedPath.remove py path c' = (true, c')

/-- Values with the same text. It has the keys of a dictionary in order. -/
def sameText (v w : Json) : Bool := v.dumps = w.dumps

/-- An element is not found any more when the key is set by which it is selected. -/
theorem key_is_changed : ¬ PathLaws WildDictPath.words sameText true
    [.keyedList (.normal ['l']) [(.normal ['k'], .normal ['a'])], .inDict (.normal ['k'])]
    (.obj [(['l'], .arr [.obj [(['k'], .str ['a'])]])]) := by
  intro h
  have hget := (h.set (.str ['b']) _ trivial rfl).1
  cases hget

end Paths

end Inmanta
