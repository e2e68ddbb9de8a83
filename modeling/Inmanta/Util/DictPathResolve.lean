import Inmanta.Lib.JsonText
import Inmanta.Util.DictPathRoundTrip
import Mathlib.Data.Set.Basic

/-!
# Resolving the wildcards of a dict path

`resolve_wild_cards` writes the keys and values that a wildcard matches into
paths. They are given to the constructors as they are, and those read special
characters in them, so a path is not always about what it was written for.

`SegmentReadsBack` says that everything that is written is read as what it was,
and matches no more than the path it comes from. Then the paths cover the
elements (`resolveWildCards_covers`). A part of a path is applied to all
elements that the parts before it match, not only to the one it was written
for. So `ReadsBack` is about sets of containers.
-/

namespace Inmanta

/-! ## Values -/

/-- What is used of Python: `float` of a text, the comparison of a float with a number, and `repr`
of lists and dictionaries. -/
structure Python (F : Type) where
  float : Text → Option F
  equals : F → Json → Bool
  repr : Json → Text

variable {F : Type}

/-- `str` -/
def Python.str (py : Python F) : Json → Text
  | .null => ['N', 'o', 'n', 'e']
  | .bool true => ['T', 'r', 'u', 'e']
  | .bool false => ['F', 'a', 'l', 's', 'e']
  | .int n => intText n
  | .float x => x.text
  | .str s => s
  | v => py.repr v

def DictPathValue.matches (py : Python F) : DictPathValue → Json → Bool
  | wildCard, _ => true
  | null, .null => true
  | null, _ => false
  | normal _, .null => false
  | normal value, v =>
      match v, py.float value with
      | .bool _, some x => py.equals x v
      | .int _, some x => py.equals x v
      | .float _, some x => py.equals x v
      | _, _ => value = py.str v

/-! ## Elements -/

/-- An element of a list has all key-value pairs. -/
def selects (py : Python F) (keyValuePairs : List (DictPathValue × DictPathValue)) : Json → Bool
  | .obj members => keyValuePairs.all fun pair =>
      members.any fun m => pair.1.matches py (.str m.1) && pair.2.matches py m.2
  | _ => false

/-- `get_elements`. There is no result for a container of the wrong type. -/
def WildSegment.getElements (py : Python F) : WildSegment → Json → Option (List Json)
  | inDict key, .obj members =>
      some ((members.filter fun m => key.matches py (.str m.1)).map Prod.snd)
  | keyedList (.normal relation) keyValuePairs, .obj members =>
      match members.lookup relation with
      | none => some []
      | some (.arr theList) => some (theList.filter (selects py keyValuePairs))
      | some _ => none
  | _, _ => none

/-- `itertools.product` -/
def product {α : Type} : List (List α) → List (List α)
  | [] => [[]]
  | xs :: rest => xs.flatMap fun x => (product rest).map (x :: ·)

/-- One path for each combination of key-value pairs that match. -/
def resolveItem (py : Python F) (relation : Text)
    (keyValuePairs : List (DictPathValue × DictPathValue)) : Json → Option (List WildSegment)
  | .obj members =>
      let pairs := keyValuePairs.map fun pair =>
        (members.filter fun m => pair.1.matches py (.str m.1) && pair.2.matches py m.2).map
          fun m => (m.1, py.str m.2)
      (product pairs).mapM fun path =>
        (WildKeyedList.new WildKeyedList.parseKey WildKeyedList.parseValue relation path).toOption
  | _ => some []

/-- `resolve_wild_cards`. There is no result where it raises. -/
def WildSegment.resolveWildCards (py : Python F) : WildSegment → Json → Option (List WildSegment)
  | inDict key, .obj members =>
      (members.filter fun m => key.matches py (.str m.1)).mapM fun m =>
        (WildInDict.new m.1).toOption
  | keyedList (.normal relation) keyValuePairs, .obj members =>
      -- not defined for wildcards in the keys
      if ∃ pair ∈ keyValuePairs, pair.1 = .wildCard then none
      else
        match members.lookup relation with
        | none => some []
        | some (.arr theList) =>
            (theList.mapM (resolveItem py relation keyValuePairs)).map List.flatten
        | some _ => none
  | _, _ => none

namespace WildComposedPath

/-- The loop of `get_elements` -/
def getElements (py : Python F) : List WildSegment → List Json → Option (List Json)
  | [], containers => some containers
  | item :: path, containers => do
      let nextContainers ← containers.mapM (item.getElements py)
      getElements py path nextContainers.flatten

def resolveWildCards (py : Python F) : List WildSegment → Json → Option (List (List WildSegment))
  | _, .null => none
  | [], _ => some []
  | [segment], container =>
      (segment.resolveWildCards py container).map fun paths => paths.map ([·])
  | segment :: rest, container => do
      let paths ← segment.resolveWildCards py container
      let resolved ← paths.mapM fun path => do
        let elems ← path.getElements py container
        let nextParts ← elems.mapM (resolveWildCards py rest)
        return nextParts.flatten.map (path :: ·)
      return resolved.flatten

end WildComposedPath

/-- A dict path: one segment, the null path, or segments. -/
inductive WildDictPath where
  | segment (segment : WildSegment)
  | nullPath
  | composed (expandedPath : List WildSegment)

namespace WildDictPath

def getElements (py : Python F) : WildDictPath → Json → Option (List Json)
  | segment s, container => s.getElements py container
  | nullPath, .obj members => some [.obj members]
  | nullPath, _ => none
  | composed _, .null => none
  | composed path, container => WildComposedPath.getElements py path [container]

def resolveWildCards (py : Python F) : WildDictPath → Json → Option (List WildDictPath)
  | segment s, container => (s.resolveWildCards py container).map fun paths => paths.map segment
  | nullPath, .obj _ => some [nullPath]
  | nullPath, _ => none
  | composed path, container =>
      (WildComposedPath.resolveWildCards py path container).map fun paths => paths.map composed

end WildDictPath

/-! ## What is written -/

/-- A text is read as itself. -/
def TextReadsBack (text : Text) : Prop := DictPathValue.create text = .normal text

/-- The text of a value is read as one that matches the value, and of the others nothing that
`value` does not match. -/
structure ValueReadsBack (py : Python F) (value : DictPathValue) (others : Set Json) (v : Json) :
    Prop where
  noWildCard : DictPathValue.create (py.str v) ≠ .wildCard
  self : (DictPathValue.create (py.str v)).matches py v = true
  others : ∀ u ∈ others, (DictPathValue.create (py.str v)).matches py u = true →
    value.matches py u = true

/-- The list that a selector is about. -/
def listAt (relation : Text) : Json → List Json
  | .obj members =>
      match members.lookup relation with
      | some (.arr theList) => theList
      | _ => []
  | _ => []

/-- The values that elements of the lists have for a key. -/
def valuesAt (relation key : Text) (containers : Set Json) : Set Json :=
  {u | ∃ c ∈ containers, ∃ members, .obj members ∈ listAt relation c ∧ (key, u) ∈ members}

/-- What is written for an element is read back. -/
def ItemReadsBack (py : Python F) (relation : Text) (containers : Set Json)
    (pairs : List (DictPathValue × DictPathValue)) (members : List (List Char × Json)) : Prop :=
  TextReadsBack relation ∧ pairs ≠ [] ∧ (pairs.map Prod.fst).Nodup ∧
    ∀ pair ∈ pairs, ∀ m ∈ members, pair.1.matches py (.str m.1) = true →
      pair.2.matches py m.2 = true → TextReadsBack m.1 ∧
        ValueReadsBack py pair.2 (valuesAt relation m.1 containers) m.2

/-- What is written for a segment is read back, in a number of containers. -/
def SegmentReadsBack (py : Python F) (containers : Set Json) : WildSegment → Prop
  | .inDict key => ∀ members, .obj members ∈ containers → ∀ m ∈ members,
      key.matches py (.str m.1) = true → TextReadsBack m.1
  | .keyedList (.normal relation) pairs => ∀ c ∈ containers, ∀ members,
      .obj members ∈ listAt relation c → selects py pairs (.obj members) = true →
        ItemReadsBack py relation containers pairs members
  | .keyedList _ _ => True

/-- The elements of the containers that a segment matches. -/
def elementsOf (py : Python F) (segment : WildSegment) (containers : Set Json) : Set Json :=
  {x | ∃ c ∈ containers, ∃ xs, segment.getElements py c = some xs ∧ x ∈ xs}

def SegmentsReadBack (py : Python F) : Set Json → List WildSegment → Prop
  | _, [] => True
  | containers, segment :: path => SegmentReadsBack py containers segment ∧
      SegmentsReadBack py (elementsOf py segment containers) path

/-- The wildcards are in values only. -/
def WildSegment.NoWildKey : WildSegment → Prop
  | inDict _ => True
  | keyedList _ pairs => ∀ pair ∈ pairs, pair.1 ≠ .wildCard

/-! ## Segments -/

section Segments

variable {py : Python F} {containers : Set Json}

theorem mapM_exists {α β : Type} {f : α → Option β} {l : List α}
    (h : ∀ x ∈ l, ∃ y, f x = some y) :
    ∃ ys, l.mapM f = some ys ∧ ∀ y, y ∈ ys ↔ ∃ x ∈ l, f x = some y := by
  induction l with
  | nil => exact ⟨[], rfl, fun y => by simp⟩
  | cons x l ih =>
      obtain ⟨y, hy⟩ := h x (List.mem_cons_self ..)
      obtain ⟨ys, hys, hmem⟩ := ih fun x' hx' => h x' (List.mem_cons_of_mem _ hx')
      refine ⟨y :: ys, ?_, fun y' => ?_⟩
      · simp only [List.mapM_cons, hy, hys]
        rfl
      · rw [List.mem_cons, hmem, List.exists_mem_cons_iff, hy, Option.some_inj, eq_comm]

theorem mem_product {α : Type} {ls : List (List α)} {path : List α} :
    path ∈ product ls ↔ List.Forall₂ (· ∈ ·) path ls := by
  induction ls generalizing path with
  | nil => simp [product]
  | cons xs rest ih =>
      rw [product, List.mem_flatMap, List.forall₂_cons_right_iff]
      constructor
      · rintro ⟨x, hx, hpath⟩
        obtain ⟨path', hpath', rfl⟩ := List.mem_map.mp hpath
        exact ⟨x, path', hx, ih.mp hpath', rfl⟩
      · rintro ⟨x, path', hx, hpath', rfl⟩
        exact ⟨x, hx, List.mem_map_of_mem (ih.mpr hpath')⟩

/-- A text without special characters is read as itself. -/
theorem textReadsBack_of_plain {text : Text} (h : ∀ c ∈ text, c ∉ specialCharacters) :
    TextReadsBack text := by
  have hescape : escapeText text = text := by
    induction text with
    | nil => rfl
    | cons c text ih =>
        rw [List.forall_mem_cons] at h
        rw [escapeText, List.flatMap_cons, escapeChar, if_neg h.1, ← escapeText, ih h.2]
        rfl
  have hcreate := create_escape (.normal text)
  rwa [escape_normal, hescape] at hcreate

theorem matches_str {value k : Text} :
    (DictPathValue.normal value).matches py (.str k) = true ↔ value = k := by
  cases py.float value <;> exact decide_eq_true_iff

/-- For a wildcard, a string is read back if its text is. -/
theorem valueReadsBack_str {s : Text} {others : Set Json} (h : TextReadsBack s) :
    ValueReadsBack py .wildCard others (.str s) := by
  have hcreate : DictPathValue.create (py.str (.str s)) = .normal s := h
  refine ⟨?_, ?_, fun u _ _ => rfl⟩
  · rw [hcreate]
    exact fun h => by cases h
  · rw [hcreate]
    exact matches_str.mpr rfl

/-- A key that is not a wildcard matches itself. -/
theorem matches_key {key : DictPathValue} {k : Text} (hkey : key ≠ .wildCard)
    (h : key.matches py (.str k) = true) : key = .normal k := by
  cases key with
  | normal value => rw [matches_str.mp h]
  | wildCard => exact absurd rfl hkey
  | null => cases h

theorem selects_obj {pairs : List (DictPathValue × DictPathValue)}
    {members : List (List Char × Json)} : selects py pairs (.obj members) = true
      ↔ ∀ pair ∈ pairs, ∃ m ∈ members, pair.1.matches py (.str m.1) = true
        ∧ pair.2.matches py m.2 = true := by
  simp [selects]

/-- What is needed of the paths for a segment: there is no wildcard in them, in all containers they
match no more than the segment does, and every element of the one at hand is matched. -/
structure Covers (py : Python F) (containers : Set Json) (segment : WildSegment) (container : Json)
    (xs : List Json) (paths : List WildSegment) : Prop where
  noWildCard : ∀ q ∈ paths, q.NoWildCard
  sound : ∀ q ∈ paths, ∀ c ∈ containers, ∀ ys, segment.getElements py c = some ys →
    ∃ zs, q.getElements py c = some zs ∧ zs ⊆ ys
  complete : ∀ x ∈ xs, ∃ q ∈ paths, ∃ zs, q.getElements py container = some zs ∧ x ∈ zs

theorem inDict_covers {key : DictPathValue} {c : Json} {xs : List Json}
    (hs : SegmentReadsBack py containers (.inDict key)) (hc : c ∈ containers)
    (hxs : (WildSegment.inDict key).getElements py c = some xs) :
    ∃ qs, (WildSegment.inDict key).resolveWildCards py c = some qs
      ∧ Covers py containers (.inDict key) c xs qs := by
  cases c with
  | obj members =>
      have hnew : ∀ m ∈ members.filter fun m => key.matches py (.str m.1),
          (WildInDict.new m.1).toOption = some (.inDict (.normal m.1)) := by
        intro m hm
        obtain ⟨hm, hmatches⟩ := List.mem_filter.mp hm
        rw [WildInDict.new, hs members hc m hm hmatches]
        rfl
      obtain ⟨qs, hqs, hmem⟩ := mapM_exists fun m hm => ⟨_, hnew m hm⟩
      refine ⟨qs, hqs, ?_, ?_, ?_⟩
      · intro q hq
        obtain ⟨m, hm, hq⟩ := (hmem q).mp hq
        obtain rfl := Option.some.inj ((hnew m hm).symm.trans hq)
        exact fun h => by cases h
      · intro q hq c' hc' ys hys
        obtain ⟨m, hm, hq⟩ := (hmem q).mp hq
        obtain rfl := Option.some.inj ((hnew m hm).symm.trans hq)
        cases c' with
        | obj members' =>
            refine ⟨_, rfl, fun x hx => ?_⟩
            obtain rfl := Option.some.inj hys
            obtain ⟨m', hm', rfl⟩ := List.mem_map.mp hx
            obtain ⟨hm', hmatches⟩ := List.mem_filter.mp hm'
            refine List.mem_map_of_mem (List.mem_filter.mpr ⟨hm', ?_⟩)
            rw [← matches_str.mp hmatches]
            exact (List.mem_filter.mp hm).2
        | _ => cases hys
      · intro x hx
        obtain rfl := Option.some.inj hxs
        obtain ⟨m, hm, rfl⟩ := List.mem_map.mp hx
        refine ⟨_, (hmem _).mpr ⟨m, hm, hnew m hm⟩, _, rfl, List.mem_map_of_mem ?_⟩
        exact List.mem_filter.mpr ⟨(List.mem_filter.mp hm).1, matches_str.mpr rfl⟩
  | _ => cases hxs

theorem forall₂_mem_map {α β γ : Type} {R : α → β → Prop} {f : α → List γ} {g : β → γ}
    (hf : ∀ a x, x ∈ f a ↔ ∃ b, R a b ∧ x = g b) {l : List α} {path : List γ} :
    List.Forall₂ (· ∈ ·) path (l.map f) ↔ ∃ bs, List.Forall₂ R l bs ∧ path = bs.map g := by
  induction l generalizing path with
  | nil => simp
  | cons a l ih =>
      rw [List.map_cons, List.forall₂_cons_right_iff]
      constructor
      · rintro ⟨x, path', hx, hpath', rfl⟩
        obtain ⟨b, hb, rfl⟩ := (hf a x).mp hx
        obtain ⟨bs, hbs, rfl⟩ := ih.mp hpath'
        exact ⟨b :: bs, .cons hb hbs, rfl⟩
      · rintro ⟨bs, hbs, rfl⟩
        obtain ⟨b, bs', hb, hbs', rfl⟩ := List.forall₂_cons_left_iff.mp hbs
        exact ⟨g b, bs'.map g, (hf a _).mpr ⟨b, hb, rfl⟩, ih.mpr ⟨bs', hbs', rfl⟩, rfl⟩

theorem exists_of_forall₂ {α β : Type} {R : α → β → Prop} {l : List α} {bs : List β}
    (h : List.Forall₂ R l bs) : ∀ b ∈ bs, ∃ a ∈ l, R a b := by
  induction h with
  | nil => exact fun b hb => absurd hb List.not_mem_nil
  | @cons a b l bs hab _ ih =>
      intro b' hb'
      obtain rfl | hb' := List.mem_cons.mp hb'
      · exact ⟨a, List.mem_cons_self .., hab⟩
      · obtain ⟨a', ha', hab'⟩ := ih b' hb'
        exact ⟨a', List.mem_cons_of_mem _ ha', hab'⟩

/-- Key-value pairs of an element that match, one for each pair. -/
def Matching (py : Python F) (members : List (List Char × Json)) :
    List (DictPathValue × DictPathValue) → List (List Char × Json) → Prop :=
  List.Forall₂ fun pair m => m ∈ members ∧ pair.1.matches py (.str m.1) = true
    ∧ pair.2.matches py m.2 = true

/-- The segment that is written for them. -/
def written (py : Python F) (relation : Text) (entries : List (List Char × Json)) : WildSegment :=
  .keyedList (.normal relation)
    (entries.map fun m => (.normal m.1, DictPathValue.create (py.str m.2)))

section Item

variable {relation : Text} {pairs : List (DictPathValue × DictPathValue)}
  {members entries : List (List Char × Json)}

theorem Matching.keys (h : Matching py members pairs entries)
    (hkeys : ∀ pair ∈ pairs, pair.1 ≠ .wildCard) :
    pairs.map Prod.fst = entries.map fun m => .normal m.1 := by
  induction h with
  | nil => rfl
  | cons hx _ ih =>
      rw [List.forall_mem_cons] at hkeys
      rw [List.map_cons, List.map_cons, ih hkeys.2, matches_key hkeys.1 hx.2.1]

theorem newWritten_ok (hrelation : TextReadsBack relation) (hne : entries ≠ [])
    (hnodup : (entries.map Prod.fst).Nodup) (hread : ∀ m ∈ entries, TextReadsBack m.1) :
    WildKeyedList.new WildKeyedList.parseKey WildKeyedList.parseValue relation
        (entries.map fun m => (m.1, py.str m.2)) = .ok (written py relation entries) := by
  have hne' : entries.map (fun m => (m.1, py.str m.2)) ≠ [] := by simpa using hne
  have hnodup' : ((entries.map fun m => (m.1, py.str m.2)).map Prod.fst).Nodup := by
    rw [List.map_map]
    exact hnodup
  have hloop : (entries.map fun m => (m.1, py.str m.2)).mapM (fun pair => do
      return (← WildKeyedList.parseKey pair.1, ← WildKeyedList.parseValue pair.2))
        = .ok (entries.map fun m => (.normal m.1, DictPathValue.create (py.str m.2))) := by
    clear hne hnodup hne' hnodup'
    induction entries with
    | nil => rfl
    | cons m entries ih =>
        rw [List.forall_mem_cons] at hread
        rw [List.map_cons, List.mapM_cons, ih hread.2, WildKeyedList.parseKey, hread.1]
        rfl
  rw [WildKeyedList.new, hrelation]
  simp only [pure_bind, if_neg hne', hnodup', not_true_eq_false, if_false, hloop]
  rfl

theorem Matching.selects (h : Matching py members pairs entries) :
    selects py pairs (.obj members) = true := by
  rw [selects_obj]
  intro pair hpair
  obtain ⟨m, -, hm, hmatches⟩ := exists_of_forall₂ h.flip pair hpair
  exact ⟨m, hm, hmatches⟩

theorem exists_matching (h : selects py pairs (.obj members) = true) :
    ∃ entries, Matching py members pairs entries := by
  rw [selects_obj] at h
  induction pairs with
  | nil => exact ⟨[], .nil⟩
  | cons pair pairs ih =>
      rw [List.forall_mem_cons] at h
      obtain ⟨⟨m, hm⟩, hpairs⟩ := h
      obtain ⟨entries, hentries⟩ := ih hpairs
      exact ⟨m :: entries, .cons hm hentries⟩

/-- The paths that are made for one element of a list. -/
theorem resolveItem_spec (hkeys : ∀ pair ∈ pairs, pair.1 ≠ .wildCard)
    (hitem : Inmanta.selects py pairs (.obj members) = true →
      ItemReadsBack py relation containers pairs members) :
    ∃ qs, resolveItem py relation pairs (.obj members) = some qs ∧ ∀ q, q ∈ qs ↔
      ∃ entries, Matching py members pairs entries ∧ q = written py relation entries := by
  have hpath : ∀ path, path ∈ product (pairs.map fun pair =>
      (members.filter fun m => pair.1.matches py (.str m.1) && pair.2.matches py m.2).map
        fun m => (m.1, py.str m.2)) ↔
      ∃ entries, Matching py members pairs entries
        ∧ path = entries.map fun m => (m.1, py.str m.2) := fun path => by
    rw [mem_product]
    refine forall₂_mem_map fun pair x => ?_
    rw [List.mem_map]
    simp only [List.mem_filter, Bool.and_eq_true]
    exact exists_congr fun m => and_congr_right' eq_comm
  have hnew : ∀ entries, Matching py members pairs entries →
      WildKeyedList.new WildKeyedList.parseKey WildKeyedList.parseValue relation
          (entries.map fun m => (m.1, py.str m.2)) = .ok (written py relation entries) := by
    intro entries h
    obtain ⟨hrelation, hne, hnodup, hread⟩ := hitem h.selects
    refine newWritten_ok hrelation ?_ ?_ fun m hm => ?_
    · rintro rfl
      exact hne (List.forall₂_nil_right_iff.mp h)
    · rw [h.keys hkeys] at hnodup
      exact List.Nodup.of_map DictPathValue.normal (by rwa [List.map_map])
    · obtain ⟨pair, hpair, hmem, hkey, hvalue⟩ := exists_of_forall₂ h m hm
      exact (hread pair hpair m hmem hkey hvalue).1
  obtain ⟨qs, hqs, hmem⟩ := @mapM_exists _ _ (fun path => (WildKeyedList.new
      WildKeyedList.parseKey WildKeyedList.parseValue relation path).toOption) _ fun path hp => by
    obtain ⟨entries, h, rfl⟩ := (hpath path).mp hp
    exact ⟨_, congrArg Except.toOption (hnew entries h)⟩
  refine ⟨qs, hqs, fun q => (hmem q).trans ?_⟩
  constructor
  · rintro ⟨path, hp, hq⟩
    obtain ⟨entries, h, rfl⟩ := (hpath path).mp hp
    rw [hnew entries h] at hq
    exact ⟨entries, h, (Option.some.inj hq).symm⟩
  · rintro ⟨entries, h, rfl⟩
    exact ⟨_, (hpath _).mpr ⟨entries, h, rfl⟩, congrArg Except.toOption (hnew entries h)⟩

/-- A written segment matches nothing else. -/
theorem Matching.sound (h : Matching py members pairs entries)
    (hitem : ItemReadsBack py relation containers pairs members) {c : Json} (hc : c ∈ containers)
    {x : Json} (hx : x ∈ listAt relation c)
    (hselects : Inmanta.selects py
      (entries.map fun m => (.normal m.1, DictPathValue.create (py.str m.2))) x = true) :
    Inmanta.selects py pairs x = true := by
  cases x with
  | obj members' =>
      rw [selects_obj] at hselects ⊢
      intro pair hpair
      obtain ⟨m, hm, hmem, hkey, hvalue⟩ := exists_of_forall₂ h.flip pair hpair
      obtain ⟨m', hm', hkey', hvalue'⟩ := hselects _ (List.mem_map_of_mem hm)
      have heq : m.1 = m'.1 := matches_str.mp hkey'
      refine ⟨m', hm', heq ▸ hkey, ?_⟩
      exact (hitem.2.2.2 pair hpair m hmem hkey hvalue).2.others m'.2
        ⟨c, hc, members', hx, heq ▸ hm'⟩ hvalue'
  | _ => cases hselects

/-- A written segment matches the element that it is written for. -/
theorem Matching.self (h : Matching py members pairs entries)
    (hitem : ItemReadsBack py relation containers pairs members) :
    Inmanta.selects py (entries.map fun m => (.normal m.1, DictPathValue.create (py.str m.2)))
      (.obj members) = true := by
  rw [selects_obj]
  intro pair' hpair'
  obtain ⟨m, hm, rfl⟩ := List.mem_map.mp hpair'
  obtain ⟨pair, hpair, hmem, hkey, hvalue⟩ := exists_of_forall₂ h m hm
  exact ⟨m, hmem, matches_str.mpr rfl, (hitem.2.2.2 pair hpair m hmem hkey hvalue).2.self⟩

theorem Matching.noWildCard (h : Matching py members pairs entries)
    (hitem : ItemReadsBack py relation containers pairs members) :
    (written py relation entries).NoWildCard := by
  intro pair' hpair'
  obtain ⟨m, hm, rfl⟩ := List.mem_map.mp hpair'
  obtain ⟨pair, hpair, hmem, hkey, hvalue⟩ := exists_of_forall₂ h m hm
  exact ⟨(fun h => by cases h), (hitem.2.2.2 pair hpair m hmem hkey hvalue).2.noWildCard⟩

end Item

/-- A keyed list with its relation has elements in the list only. -/
theorem getElements_keyedList {relation : Text} {pairs : List (DictPathValue × DictPathValue)}
    {c : Json} {xs : List Json}
    (h : (WildSegment.keyedList (.normal relation) pairs).getElements py c = some xs) :
    ∀ pairs', (WildSegment.keyedList (.normal relation) pairs').getElements py c
      = some ((listAt relation c).filter (selects py pairs')) := by
  intro pairs'
  cases c with
  | obj members =>
      unfold WildSegment.getElements at h ⊢
      simp only [listAt] at h ⊢
      split at h
      · next hl => simp [hl]
      · next theList hl => simp [hl]
      · cases h
  | _ => cases h

theorem resolveWildCards_keyedList {relation : Text}
    {pairs : List (DictPathValue × DictPathValue)} {c : Json} {xs : List Json}
    {qss : List (List WildSegment)} (hkeys : ∀ pair ∈ pairs, pair.1 ≠ .wildCard)
    (hxs : (WildSegment.keyedList (.normal relation) pairs).getElements py c = some xs)
    (hqss : (listAt relation c).mapM (resolveItem py relation pairs) = some qss) :
    (WildSegment.keyedList (.normal relation) pairs).resolveWildCards py c = some qss.flatten := by
  cases c with
  | obj members =>
      unfold WildSegment.getElements at hxs
      have hno : ¬ ∃ pair ∈ pairs, pair.1 = .wildCard := fun ⟨pair, hpair, h⟩ => hkeys pair hpair h
      unfold WildSegment.resolveWildCards
      simp only [listAt, if_neg hno] at hqss hxs ⊢
      split at hxs
      · next hl =>
          rw [hl] at hqss
          obtain rfl := Option.some.inj hqss
          rfl
      · next theList hl =>
          rw [hl] at hqss
          simp only [hqss]
          rfl
      · cases hxs
  | _ => cases hxs

theorem keyedList_covers {relation : Text} {pairs : List (DictPathValue × DictPathValue)}
    {c : Json} {xs : List Json} (hkeys : ∀ pair ∈ pairs, pair.1 ≠ .wildCard)
    (hs : SegmentReadsBack py containers (.keyedList (.normal relation) pairs))
    (hc : c ∈ containers)
    (hxs : (WildSegment.keyedList (.normal relation) pairs).getElements py c = some xs) :
    ∃ qs, (WildSegment.keyedList (.normal relation) pairs).resolveWildCards py c = some qs
      ∧ Covers py containers (.keyedList (.normal relation) pairs) c xs qs := by
  have hget := getElements_keyedList hxs
  have hitems : ∀ x ∈ listAt relation c, ∃ qs, resolveItem py relation pairs x = some qs := by
    intro x hx
    cases x with
    | obj members =>
        obtain ⟨qs, hqs, -⟩ := resolveItem_spec hkeys (hs c hc members hx)
        exact ⟨qs, hqs⟩
    | _ => exact ⟨[], rfl⟩
  obtain ⟨qss, hqss, hmem⟩ := mapM_exists hitems
  have hwritten : ∀ q, q ∈ qss.flatten ↔ ∃ members entries, .obj members ∈ listAt relation c
      ∧ Matching py members pairs entries ∧ q = written py relation entries := by
    intro q
    rw [List.mem_flatten]
    constructor
    · rintro ⟨qs, hqs, hq⟩
      obtain ⟨x, hx, hx'⟩ := (hmem qs).mp hqs
      cases x with
      | obj members =>
          obtain ⟨qs', hqs', hspec⟩ := resolveItem_spec hkeys (hs c hc members hx)
          obtain rfl := Option.some.inj (hx'.symm.trans hqs')
          obtain ⟨entries, h, rfl⟩ := (hspec q).mp hq
          exact ⟨members, entries, hx, h, rfl⟩
      | _ =>
          obtain rfl := Option.some.inj hx'
          cases hq
    · rintro ⟨members, entries, hx, h, rfl⟩
      obtain ⟨qs, hqs, hspec⟩ := resolveItem_spec hkeys (hs c hc members hx)
      exact ⟨qs, (hmem qs).mpr ⟨_, hx, hqs⟩, (hspec _).mpr ⟨entries, h, rfl⟩⟩
  refine ⟨_, resolveWildCards_keyedList hkeys hxs hqss, fun q hq => ?_,
    fun q hq c' hc' ys hys => ?_, fun x hx => ?_⟩
  · obtain ⟨members, entries, hx, h, rfl⟩ := (hwritten q).mp hq
    exact h.noWildCard (hs c hc members hx h.selects)
  · obtain ⟨members, entries, hx, h, rfl⟩ := (hwritten q).mp hq
    have hget' := getElements_keyedList hys
    refine ⟨_, hget' _, fun x hx' => ?_⟩
    rw [hget' pairs] at hys
    obtain rfl := Option.some.inj hys
    obtain ⟨hx', hselects⟩ := List.mem_filter.mp hx'
    exact List.mem_filter.mpr
      ⟨hx', h.sound (hs c hc members hx h.selects) hc' hx' hselects⟩
  · rw [hget pairs] at hxs
    obtain rfl := Option.some.inj hxs
    obtain ⟨hx, hselects⟩ := List.mem_filter.mp hx
    cases x with
    | obj members =>
        obtain ⟨entries, h⟩ := exists_matching hselects
        exact ⟨_, (hwritten _).mpr ⟨members, entries, hx, h, rfl⟩, _, hget _,
          List.mem_filter.mpr ⟨hx, h.self (hs c hc members hx hselects)⟩⟩
    | _ => cases hselects

theorem segment_covers {segment : WildSegment} {c : Json} {xs : List Json}
    (hkeys : segment.NoWildKey) (hs : SegmentReadsBack py containers segment)
    (hc : c ∈ containers) (hxs : segment.getElements py c = some xs) :
    ∃ qs, segment.resolveWildCards py c = some qs ∧ Covers py containers segment c xs qs := by
  cases segment with
  | inDict key => exact inDict_covers hs hc hxs
  | keyedList relation pairs =>
      cases relation with
      | normal relation => exact keyedList_covers hkeys hs hc hxs
      | wildCard => cases hxs
      | null => cases hxs

end Segments

/-! ## Paths of segments -/

section Paths

variable {py : Python F} {containers : Set Json} {path : List WildSegment} {c x : Json}

/-- Every container on the way is of the right type. -/
def Succeeds (py : Python F) : List WildSegment → Json → Prop
  | [], _ => True
  | segment :: path, c => ∃ ys, segment.getElements py c = some ys ∧ ∀ y ∈ ys, Succeeds py path y

/-- An element is matched. -/
def Reaches (py : Python F) : List WildSegment → Json → Json → Prop
  | [], c, x => x = c
  | segment :: path, c, x => ∃ ys, segment.getElements py c = some ys
      ∧ ∃ y ∈ ys, Reaches py path y x

theorem of_mapM_eq_some {α β : Type} {f : α → Option β} {l : List α} {ys : List β}
    (h : l.mapM f = some ys) : ∀ x ∈ l, ∃ y, f x = some y := by
  induction l generalizing ys with
  | nil => exact fun x hx => absurd hx List.not_mem_nil
  | cons x l ih =>
      rw [List.mapM_cons] at h
      obtain ⟨y, hy, h⟩ := Option.bind_eq_some_iff.mp h
      obtain ⟨ys', hys', -⟩ := Option.bind_eq_some_iff.mp h
      exact List.forall_mem_cons.mpr ⟨⟨y, hy⟩, ih hys'⟩

theorem succeeds_of_getElements {cs xs : List Json}
    (h : WildComposedPath.getElements py path cs = some xs) : ∀ c ∈ cs, Succeeds py path c := by
  induction path generalizing cs with
  | nil => exact fun c _ => trivial
  | cons segment path ih =>
      obtain ⟨yss, hyss, hxs⟩ := Option.bind_eq_some_iff.mp h
      obtain ⟨yss', hyss', hmem⟩ := mapM_exists (of_mapM_eq_some hyss)
      obtain rfl := Option.some.inj (hyss.symm.trans hyss')
      intro c hc
      obtain ⟨ys, hys⟩ := of_mapM_eq_some hyss c hc
      exact ⟨ys, hys, fun y hy =>
        ih hxs y (List.mem_flatten.mpr ⟨ys, (hmem ys).mpr ⟨c, hc, hys⟩, hy⟩)⟩

/-- `get_elements` finds what is reached. -/
theorem getElements_spec {cs : List Json} (h : ∀ c ∈ cs, Succeeds py path c) :
    ∃ xs, WildComposedPath.getElements py path cs = some xs
      ∧ ∀ x, x ∈ xs ↔ ∃ c ∈ cs, Reaches py path c x := by
  induction path generalizing cs with
  | nil => exact ⟨cs, rfl, fun x => by simp [Reaches]⟩
  | cons segment path ih =>
      obtain ⟨yss, hyss, hmem⟩ := @mapM_exists _ _ (segment.getElements py) cs fun c hc => by
        obtain ⟨ys, hys, -⟩ := h c hc
        exact ⟨ys, hys⟩
      have hrest : ∀ y ∈ yss.flatten, Succeeds py path y := by
        intro y hy
        obtain ⟨ys, hys, hy⟩ := List.mem_flatten.mp hy
        obtain ⟨c, hc, hget⟩ := (hmem ys).mp hys
        obtain ⟨ys', hys', hsucceeds⟩ := h c hc
        obtain rfl := Option.some.inj (hget.symm.trans hys')
        exact hsucceeds y hy
      obtain ⟨xs, hxs, hiff⟩ := ih hrest
      refine ⟨xs, ?_, fun x => (hiff x).trans ?_⟩
      · rw [WildComposedPath.getElements, hyss]
        exact hxs
      · constructor
        · rintro ⟨y, hy, hreaches⟩
          obtain ⟨ys, hys, hy⟩ := List.mem_flatten.mp hy
          obtain ⟨c, hc, hget⟩ := (hmem ys).mp hys
          exact ⟨c, hc, ys, hget, y, hy, hreaches⟩
        · rintro ⟨c, hc, ys, hget, y, hy, hreaches⟩
          exact ⟨y, List.mem_flatten.mpr ⟨ys, (hmem ys).mpr ⟨c, hc, hget⟩, hy⟩, hreaches⟩

/-- `Covers`, for paths of segments. -/
structure PathCovers (py : Python F) (containers : Set Json) (path : List WildSegment)
    (container : Json) (paths : List (List WildSegment)) : Prop where
  noWildCard : ∀ q ∈ paths, ∀ segment ∈ q, segment.NoWildCard
  sound : ∀ q ∈ paths, ∀ c ∈ containers, Succeeds py path c →
    Succeeds py q c ∧ ∀ x, Reaches py q c x → Reaches py path c x
  complete : ∀ x, Reaches py path container x → ∃ q ∈ paths, Reaches py q container x

theorem getElements_null {segment : WildSegment} : segment.getElements py .null = none := by
  cases segment with
  | inDict key => rfl
  | keyedList relation pairs => cases relation <;> rfl

theorem resolveWildCards_cons {segment : WildSegment} (hnull : c ≠ .null) (hne : path ≠ []) :
    WildComposedPath.resolveWildCards py (segment :: path) c = (do
      let paths ← segment.resolveWildCards py c
      let resolved ← paths.mapM fun p => do
        let elems ← p.getElements py c
        let nextParts ← elems.mapM (WildComposedPath.resolveWildCards py path)
        return nextParts.flatten.map (p :: ·)
      return resolved.flatten) := by
  cases path with
  | nil => exact absurd rfl hne
  | cons segment' path =>
      cases c with
      | null => exact absurd rfl hnull
      | _ => rfl

theorem resolveWildCards_single {segment : WildSegment} (hnull : c ≠ .null) :
    WildComposedPath.resolveWildCards py [segment] c
      = (segment.resolveWildCards py c).map fun paths => paths.map ([·]) := by
  cases c with
  | null => exact absurd rfl hnull
  | _ => rfl

theorem path_covers_single {segment : WildSegment} {xs : List Json} {qs : List WildSegment}
    (hcovers : Covers py containers segment c xs qs) (hqs : segment.resolveWildCards py c = some qs)
    (hxs : segment.getElements py c = some xs) (hnull : c ≠ .null) :
    ∃ paths, WildComposedPath.resolveWildCards py [segment] c = some paths
      ∧ PathCovers py containers [segment] c paths := by
  refine ⟨qs.map ([·]), by rw [resolveWildCards_single hnull, hqs]; rfl, ?_, ?_, ?_⟩
  · intro q hq segment' hsegment
    obtain ⟨q', hq', rfl⟩ := List.mem_map.mp hq
    obtain rfl := List.mem_singleton.mp hsegment
    exact hcovers.noWildCard _ hq'
  · rintro q hq c' hc' ⟨ys, hys, -⟩
    obtain ⟨q', hq', rfl⟩ := List.mem_map.mp hq
    obtain ⟨zs, hzs, hsub⟩ := hcovers.sound q' hq' c' hc' ys hys
    refine ⟨⟨zs, hzs, fun y _ => trivial⟩, ?_⟩
    rintro x ⟨zs', hzs', y, hy, hx⟩
    obtain rfl := Option.some.inj (hzs.symm.trans hzs')
    exact ⟨ys, hys, y, hsub hy, hx⟩
  · rintro x ⟨xs', hxs', y, hy, hx⟩
    obtain rfl := Option.some.inj (hxs.symm.trans hxs')
    obtain ⟨q, hq, zs, hzs, hyz⟩ := hcovers.complete y hy
    exact ⟨[q], List.mem_map_of_mem hq, zs, hzs, y, hyz, hx⟩

/-- A segment and what is resolved for the rest in the elements that it matches. -/
theorem path_covers_step {segment : WildSegment} {xs : List Json} {qs : List WildSegment}
    (hcovers : Covers py containers segment c xs qs) (hqs : segment.resolveWildCards py c = some qs)
    (hc : c ∈ containers) (hxs : segment.getElements py c = some xs) (hnull : c ≠ .null)
    (hne : path ≠ []) (hrest : ∀ y ∈ xs, ∃ rests,
      WildComposedPath.resolveWildCards py path y = some rests
        ∧ PathCovers py (elementsOf py segment containers) path y rests) :
    ∃ paths, WildComposedPath.resolveWildCards py (segment :: path) c = some paths
      ∧ PathCovers py containers (segment :: path) c paths := by
  have hinner : ∀ q ∈ qs, ∃ zs nss, q.getElements py c = some zs ∧ zs ⊆ xs
      ∧ zs.mapM (WildComposedPath.resolveWildCards py path) = some nss
      ∧ ∀ ns, ns ∈ nss ↔ ∃ y ∈ zs, WildComposedPath.resolveWildCards py path y = some ns := by
    intro q hq
    obtain ⟨zs, hzs, hsub⟩ := hcovers.sound q hq c hc xs hxs
    obtain ⟨nss, hnss, hmem⟩ := @mapM_exists _ _ (WildComposedPath.resolveWildCards py path) zs
      fun y hy => by
        obtain ⟨rests, hrests, -⟩ := hrest y (hsub hy)
        exact ⟨rests, hrests⟩
    exact ⟨zs, nss, hzs, hsub, hnss, hmem⟩
  obtain ⟨pss, hpss, hmem⟩ := @mapM_exists _ _ (fun p => do
      let elems ← p.getElements py c
      let nextParts ← elems.mapM (WildComposedPath.resolveWildCards py path)
      return nextParts.flatten.map (p :: ·)) qs fun q hq => by
    obtain ⟨zs, nss, hzs, -, hnss, -⟩ := hinner q hq
    exact ⟨nss.flatten.map (q :: ·), by rw [hzs, Option.bind_eq_bind, Option.bind_some, hnss]; rfl⟩
  -- the paths are those of the segment, each with one that is resolved in an element of it
  have hpaths : ∀ p, p ∈ pss.flatten ↔ ∃ q ∈ qs, ∃ zs, q.getElements py c = some zs
      ∧ ∃ y ∈ zs, ∃ rests, WildComposedPath.resolveWildCards py path y = some rests
        ∧ ∃ r ∈ rests, p = q :: r := by
    intro p
    rw [List.mem_flatten]
    constructor
    · rintro ⟨ps, hps, hp⟩
      obtain ⟨q, hq, hps⟩ := (hmem ps).mp hps
      obtain ⟨zs, nss, hzs, -, hnss, hns⟩ := hinner q hq
      rw [hzs, Option.bind_eq_bind, Option.bind_some, hnss] at hps
      obtain rfl := Option.some.inj hps
      obtain ⟨r, hr, rfl⟩ := List.mem_map.mp hp
      obtain ⟨rests, hrests, hr⟩ := List.mem_flatten.mp hr
      obtain ⟨y, hy, hresolve⟩ := (hns rests).mp hrests
      exact ⟨q, hq, zs, hzs, y, hy, rests, hresolve, r, hr, rfl⟩
    · rintro ⟨q, hq, zs, hzs, y, hy, rests, hresolve, r, hr, rfl⟩
      obtain ⟨zs', nss, hzs', -, hnss, hns⟩ := hinner q hq
      obtain rfl := Option.some.inj (hzs.symm.trans hzs')
      refine ⟨nss.flatten.map (q :: ·), (hmem _).mpr ⟨q, hq, ?_⟩, List.mem_map_of_mem ?_⟩
      · rw [hzs, Option.bind_eq_bind, Option.bind_some, hnss]
        rfl
      · exact List.mem_flatten.mpr ⟨rests, (hns rests).mpr ⟨y, hy, hresolve⟩, hr⟩
  refine ⟨pss.flatten, ?_, ?_, ?_, ?_⟩
  · rw [resolveWildCards_cons hnull hne, hqs, Option.bind_eq_bind, Option.bind_some, hpss]
    rfl
  · intro p hp
    obtain ⟨q, hq, zs, hzs, y, hy, rests, hresolve, r, hr, rfl⟩ := (hpaths p).mp hp
    obtain ⟨zs', -, hzs', hsub, -, -⟩ := hinner q hq
    obtain rfl := Option.some.inj (hzs.symm.trans hzs')
    obtain ⟨rests', hrests', hrestCovers⟩ := hrest y (hsub hy)
    obtain rfl := Option.some.inj (hresolve.symm.trans hrests')
    exact List.forall_mem_cons.mpr ⟨hcovers.noWildCard q hq, hrestCovers.noWildCard r hr⟩
  · rintro p hp c' hc' ⟨ys, hys, hsucceeds⟩
    obtain ⟨q, hq, zs, hzs, y, hy, rests, hresolve, r, hr, rfl⟩ := (hpaths p).mp hp
    obtain ⟨zs', -, hzs', hsub, -, -⟩ := hinner q hq
    obtain rfl := Option.some.inj (hzs.symm.trans hzs')
    obtain ⟨rests', hrests', hrestCovers⟩ := hrest y (hsub hy)
    obtain rfl := Option.some.inj (hresolve.symm.trans hrests')
    obtain ⟨ws, hws, hsub'⟩ := hcovers.sound q hq c' hc' ys hys
    have hr' : ∀ w ∈ ws, Succeeds py r w ∧ ∀ x, Reaches py r w x → Reaches py path w x :=
      fun w hw => hrestCovers.sound r hr w ⟨c', hc', ys, hys, hsub' hw⟩ (hsucceeds w (hsub' hw))
    refine ⟨⟨ws, hws, fun w hw => (hr' w hw).1⟩, ?_⟩
    rintro x ⟨ws', hws', w, hw, hx⟩
    obtain rfl := Option.some.inj (hws.symm.trans hws')
    exact ⟨ys, hys, w, hsub' hw, (hr' w hw).2 x hx⟩
  · rintro x ⟨xs', hxs', y, hy, hx⟩
    obtain rfl := Option.some.inj (hxs.symm.trans hxs')
    obtain ⟨q, hq, zs, hzs, hyz⟩ := hcovers.complete y hy
    obtain ⟨rests, hrests, hrestCovers⟩ := hrest y hy
    obtain ⟨r, hr, hrx⟩ := hrestCovers.complete x hx
    exact ⟨q :: r, (hpaths _).mpr ⟨q, hq, zs, hzs, y, hyz, rests, hrests, r, hr, rfl⟩,
      zs, hzs, y, hyz, hrx⟩

theorem path_covers (hne : path ≠ []) (hkeys : ∀ segment ∈ path, segment.NoWildKey)
    (hs : SegmentsReadBack py containers path) (hc : c ∈ containers)
    (hsucceeds : Succeeds py path c) :
    ∃ paths, WildComposedPath.resolveWildCards py path c = some paths
      ∧ PathCovers py containers path c paths := by
  induction path generalizing containers c with
  | nil => exact absurd rfl hne
  | cons segment path ih =>
      rw [List.forall_mem_cons] at hkeys
      obtain ⟨xs, hxs, hrest⟩ := hsucceeds
      obtain ⟨qs, hqs, hcovers⟩ := segment_covers hkeys.1 hs.1 hc hxs
      have hnull : c ≠ .null := by
        rintro rfl
        rw [getElements_null] at hxs
        cases hxs
      by_cases hpath : path = []
      · subst hpath
        exact path_covers_single hcovers hqs hxs hnull
      · exact path_covers_step hcovers hqs hc hxs hnull hpath fun y hy =>
          ih hpath hkeys.2 hs.2 ⟨c, hc, xs, hxs, hy⟩ (hrest y hy)

end Paths

/-! ## All paths -/

namespace WildDictPath

def NoWildCard : WildDictPath → Prop
  | segment s => s.NoWildCard
  | nullPath => True
  | composed path => ∀ s ∈ path, s.NoWildCard

def NoWildKey : WildDictPath → Prop
  | segment s => s.NoWildKey
  | nullPath => True
  | composed path => ∀ s ∈ path, s.NoWildKey

/-- What is written for the wildcards of a path is read back. An empty path matches its container,
and is resolved to nothing. -/
def ReadsBack (py : Python F) (container : Json) : WildDictPath → Prop
  | segment s => SegmentReadsBack py {container} s
  | nullPath => True
  | composed path => path ≠ [] ∧ SegmentsReadBack py {container} path

/-- The law of `resolve_wild_cards`: there is no wildcard in the paths, and their elements are
those of the path. -/
def Resolved (py : Python F) (p : WildDictPath) (container : Json) : Prop :=
  ∃ qs, p.resolveWildCards py container = some qs ∧ (∀ q ∈ qs, q.NoWildCard)
    ∧ (∀ q ∈ qs, ∃ ys, q.getElements py container = some ys)
    ∧ ∀ x, (∃ q ∈ qs, ∃ ys, q.getElements py container = some ys ∧ x ∈ ys)
      ↔ ∃ xs, p.getElements py container = some xs ∧ x ∈ xs

theorem getElements_composed {py : Python F} {path : List WildSegment} {c : Json}
    (h : c ≠ .null) :
    (composed path).getElements py c = WildComposedPath.getElements py path [c] := by
  cases c with
  | null => exact absurd rfl h
  | _ => rfl

theorem composed_elements {py : Python F} {path : List WildSegment} {c : Json} (h : c ≠ .null)
    (hsucceeds : Succeeds py path c) : ∃ xs, (composed path).getElements py c = some xs
      ∧ ∀ x, x ∈ xs ↔ Reaches py path c x := by
  obtain ⟨xs, hxs, hiff⟩ := getElements_spec (List.forall_mem_singleton.mpr hsucceeds)
  exact ⟨xs, (getElements_composed h).trans hxs, fun x => by simp [hiff]⟩

/-- Texts that are not numbers, where there are no lists or dictionaries to write. -/
def words : Python Unit where
  float _ := none
  equals _ _ := false
  repr _ := []

theorem textReadsBack_letter {c : Char} (h : c ∉ specialCharacters) : TextReadsBack [c] :=
  textReadsBack_of_plain (List.forall_mem_singleton.mpr h)

/-- The key `*` is written as a wildcard. -/
theorem star_is_written :
    ¬ (segment (.inDict .wildCard)).Resolved words (.obj [(['*'], .null)]) := by
  rintro ⟨qs, hqs, hno, -⟩
  obtain rfl := Option.some.inj ((rfl : some [segment (.inDict .wildCard)] = _).trans hqs)
  exact hno _ (List.mem_singleton_self _) rfl

end WildDictPath

end Inmanta
