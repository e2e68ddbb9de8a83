import Inmanta.Lib.Loop
import Inmanta.Lib.Regex

/-!
# Resource ids

The id of a resource is printed as `type[agent,attribute=value]`, with a suffix
`,v=version` where the version is wanted. It is parsed by a regular expression,
which leaves the parts free but for the character that ends each of them. So a
text has at most one way to be taken apart, whatever its parts hold
(`Layout.unique`).

Printing is not quite the inverse of parsing. Without its version, an id is
read as one of version 0. The pattern accepts zeros in front of a version, and
its `$` also matches before a line end at the end of the text.
-/

namespace Inmanta

/-- The word characters of a regular expression. They depend on the character
tables of the interpreter. -/
structure WordChars where
  isWord : Char → Bool
  colon : isWord ':' = false
  bracket : isWord '[' = false

namespace WordChars

/-- The word characters among the first 128. -/
def ascii : WordChars where
  isWord x := x.isAlphanum || x = '_'
  colon := rfl
  bracket := rfl

/-- `[\w-]` -/
def isName (w : WordChars) (x : Char) : Bool := w.isWord x || x = '-'

end WordChars

/-! ## The pattern -/

namespace ResourceIdPattern

open Regex

variable (w : WordChars)

/-- A part of a name: `[\w-]+` -/
def name : Regex := plus (.chr w.isName)

/-- `(::[\w-]+)*` -/
def names : Regex := .star (.seq (lit ':') (.seq (lit ':') (name w)))

/-- `(?P<ns>[\w-]+(::[\w-]+)*)::(?P<class>[\w-]+)` -/
def type : Regex :=
  .group "type" (.seq (.group "ns" (.seq (name w) (names w)))
    (.seq (lit ':') (.seq (lit ':') (.group "class" (name w)))))

/-- What does not hold a character: `[^x]+` -/
def free (x : Char) : Regex := plus (.chr (· ≠ x))

/-- The id without the version. -/
def id : Regex :=
  .group "id" (.seq (type w) (.seq (lit '[') (.seq (.group "hostname" (free ','))
    (.seq (lit ',') (.seq (.group "attr" (free '=')) (.seq (lit '=')
      (.seq (.group "value" (free ']')) (lit ']'))))))))

/-- `(,v=(?P<version>[0-9]+))?` -/
def version : Regex :=
  .alt (.seq (lit ',') (.seq (lit 'v') (.seq (lit '=')
    (.group "version" (plus (.chr Char.isDigit)))))) (.star (.chr fun _ => false))

/-- `$`: the end of the text, or a line end that is the last of it. -/
def textEnd : Regex := .alt eos (.seq (lit '\n') eos)

/-- `PARSE_ID_REGEX` -/
def parseId : Regex := .seq (id w) (.seq version textEnd)

end ResourceIdPattern

/-! ## Ids -/

/-- A unique id that identifies a resource that is managed by an agent -/
@[ext] structure ResourceId where
  entityType : List Char
  agentName : List Char
  attributeName : List Char
  attributeValue : List Char
  version : Nat
  deriving DecidableEq

namespace ResourceId

/-- Raises at the first forbidden character that is in the value. -/
def checkForbidden (value : List Char) (label : String) : List Char → Except String Unit
  | [] => .ok ()
  | char :: forbidden =>
      if char ∈ value then
        .error ("Invalid " ++ label ++ " '" ++ String.ofList value ++ "': cannot contain '" ++
          String.ofList [char] ++ "'.")
      else checkForbidden value label forbidden

/-- `Id.__init__` -/
def init (entityType agentName attributeName attributeValue : List Char) (version : Nat) :
    Except String ResourceId := do
  checkForbidden agentName "agent name" [',']
  checkForbidden attributeName "attribute name" [',', '=']
  checkForbidden attributeValue "attribute value" [']']
  return ⟨entityType, agentName, attributeName, attributeValue, version⟩

def resourceStr (id : ResourceId) : List Char :=
  id.entityType ++ '[' :: (id.agentName ++ ',' ::
    (id.attributeName ++ '=' :: (id.attributeValue ++ [']'])))

def resourceVersionStr (id : ResourceId) : List Char :=
  id.resourceStr ++ ',' :: 'v' :: '=' :: Nat.toDigits 10 id.version

/-- The version that was captured, or 0 where there was none. -/
def capturedVersion (digits : List Char) : Nat :=
  if digits = [] then 0 else Nat.ofDigitChars 10 digits 0

/-- `Id.parse_id`. The id gets the given version, if there is one. -/
def parseId (w : WordChars) (resourceId : List Char) (version : Option Nat) :
    Except String ResourceId :=
  match ((ResourceIdPattern.parseId w).results resourceId).head? with
  | none => .error ("Invalid id for resource " ++ String.ofList resourceId)
  | some (result, _) =>
      init (result.get "type") (result.get "hostname") (result.get "attr") (result.get "value")
        (version.getD (capturedVersion (result.get "version")))

/-- `Id.parse_resource_version_id` -/
def parseResourceVersionId (w : WordChars) (resourceId : List Char) : Except String ResourceId := do
  let id ← parseId w resourceId none
  if id.version = 0 then
    .error ("Version is missing from resource id: " ++ String.ofList resourceId)
  else return id

/-! ## Accepted ids -/

theorem checkForbidden_eq_ok {value : List Char} {label : String} {forbidden : List Char} :
    checkForbidden value label forbidden = .ok () ↔ ∀ char ∈ forbidden, char ∉ value := by
  induction forbidden with
  | nil => simp [checkForbidden]
  | cons char forbidden ih =>
      rw [checkForbidden, List.forall_mem_cons]
      split
      · next h => exact iff_of_false (by simp) fun hall => hall.1 h
      · next h => exact ih.trans (and_iff_right h).symm

theorem init_eq_ok {t h a v : List Char} {n : Nat} {id : ResourceId} :
    init t h a v n = .ok id ↔
      (',' ∉ h ∧ (',' ∉ a ∧ '=' ∉ a) ∧ ']' ∉ v) ∧ id = ⟨t, h, a, v, n⟩ := by
  have hpair : (',' ∉ a ∧ '=' ∉ a) ↔ ∀ char ∈ [',', '='], char ∉ a := by simp
  have hagent := @checkForbidden_eq_ok h "agent name" [',']
  have hattribute := @checkForbidden_eq_ok a "attribute name" [',', '=']
  have hvalue := @checkForbidden_eq_ok v "attribute value" [']']
  rw [List.forall_mem_singleton] at hagent hvalue
  rw [hpair, ← hagent, ← hattribute, ← hvalue, init]
  constructor
  · intro h
    obtain ⟨⟨⟩, h1, h⟩ := bind_eq_ok.mp h
    obtain ⟨⟨⟩, h2, h⟩ := bind_eq_ok.mp h
    obtain ⟨⟨⟩, h3, h⟩ := bind_eq_ok.mp h
    exact ⟨⟨h1, h2, h3⟩, (Except.ok.inj h).symm⟩
  · rintro ⟨⟨h1, h2, h3⟩, rfl⟩
    rw [h1, h2, h3]
    rfl

variable {w : WordChars} {id id' : ResourceId} {digits digits' tail tail' s : List Char}

/-- A part of a name. -/
def IsName (w : WordChars) (x : List Char) : Prop := x ≠ [] ∧ ∀ y ∈ x, w.isName y = true

/-- Names with `::` between them. -/
def IsNamespace (w : WordChars) (x : List Char) : Prop :=
  ∃ (first : List Char) (inner : List (List Char)), IsName w first ∧ (∀ y ∈ inner, IsName w y) ∧
    x = first ++ inner.flatMap fun y => ':' :: ':' :: y

/-- The full name of an entity. -/
def IsType (w : WordChars) (t : List Char) : Prop :=
  ∃ ns cls, IsNamespace w ns ∧ IsName w cls ∧ t = ns ++ ':' :: ':' :: cls

/-- The ids that can be constructed and that the server accepts: their type is
the name of an entity in a module, and no part is empty. -/
structure Accepted (w : WordChars) (id : ResourceId) : Prop where
  constructed :
    init id.entityType id.agentName id.attributeName id.attributeValue id.version = .ok id
  typed : IsType w id.entityType
  agentName_ne : id.agentName ≠ []
  attributeName_ne : id.attributeName ≠ []
  attributeValue_ne : id.attributeValue ≠ []

/-! ## What the pattern matches -/

/-- The suffix of a text with a version. -/
def versionSuffix (digits : List Char) : List Char :=
  if digits = [] then [] else ',' :: 'v' :: '=' :: digits

/-- A text taken apart at the first character that ends each part. -/
structure Layout (w : WordChars) (id : ResourceId) (digits tail s : List Char) : Prop where
  typed : IsType w id.entityType
  agentName : id.agentName ≠ [] ∧ ∀ x ∈ id.agentName, x ≠ ','
  attributeName : id.attributeName ≠ [] ∧ ∀ x ∈ id.attributeName, x ≠ '='
  attributeValue : id.attributeValue ≠ [] ∧ ∀ x ∈ id.attributeValue, x ≠ ']'
  version : id.version = capturedVersion digits
  isDigit : ∀ x ∈ digits, x.isDigit = true
  lineEnd : tail = [] ∨ tail = ['\n']
  text : s = id.resourceStr ++ (versionSuffix digits ++ tail)

namespace Layout

open Regex ResourceIdPattern

theorem spells_name : Spells (name w) fun u c => IsName w u ∧ c = [] :=
  (Spells.plus_chr w.isName).congr fun _ _ => and_assoc

theorem spells_names : Spells (names w) fun u c =>
    (∃ inner : List (List Char), (∀ x ∈ inner, IsName w x) ∧
      u = inner.flatMap fun x => ':' :: ':' :: x) ∧ c = [] := by
  have hstep : Spells (.seq (lit ':') (.seq (lit ':') (name w))) fun u c =>
      ∃ x, IsName w x ∧ u = ':' :: ':' :: x ∧ c = [] := by
    refine ((Spells.lit ':').seq ((Spells.lit ':').seq spells_name)).congr fun u c => ?_
    constructor
    · rintro ⟨x, hx, rfl, rfl⟩
      exact ⟨_, _, _, _, ⟨rfl, rfl⟩, ⟨_, _, _, _, ⟨rfl, rfl⟩, ⟨hx, rfl⟩, rfl, rfl⟩, rfl, rfl⟩
    · rintro ⟨_, _, _, _, ⟨rfl, rfl⟩, ⟨_, _, x, _, ⟨rfl, rfl⟩, ⟨hx, rfl⟩, rfl, rfl⟩, rfl, rfl⟩
      exact ⟨x, hx, rfl, rfl⟩
  refine (hstep.star_pieces fun x => List.cons_ne_nil ':' (':' :: x)).congr fun u c => ?_
  constructor
  · rintro ⟨⟨inner, hinner, rfl⟩, rfl⟩
    exact ⟨inner, hinner, rfl, by simp⟩
  · rintro ⟨inner, hinner, rfl, rfl⟩
    exact ⟨⟨inner, hinner, rfl⟩, by simp⟩

theorem spells_type : Spells (type w) fun u c => ∃ ns cls, IsNamespace w ns ∧ IsName w cls ∧
    u = ns ++ ':' :: ':' :: cls ∧ c = [("ns", ns), ("class", cls), ("type", u)] := by
  refine (Spells.group "type" (((spells_name.seq spells_names).group "ns").seq
    ((Spells.lit ':').seq ((Spells.lit ':').seq (spells_name.group "class"))))).congr fun u c => ?_
  constructor
  · rintro ⟨_, cls, ⟨first, inner, hfirst, hinner, rfl⟩, hcls, rfl, rfl⟩
    exact ⟨[("ns", _), ("class", _)],
      ⟨_, _, _, _, ⟨_, ⟨_, _, _, _, ⟨hfirst, rfl⟩, ⟨⟨inner, hinner, rfl⟩, rfl⟩, rfl, rfl⟩, rfl⟩,
        ⟨_, _, _, _, ⟨rfl, rfl⟩, ⟨_, _, _, _, ⟨rfl, rfl⟩, ⟨_, ⟨hcls, rfl⟩, rfl⟩, rfl, rfl⟩, rfl,
          rfl⟩, rfl, rfl⟩, rfl⟩
  · rintro ⟨_, ⟨_, _, _, _, ⟨_, ⟨first, _, _, _, ⟨hfirst, rfl⟩, ⟨⟨inner, hinner, rfl⟩, rfl⟩, rfl,
      rfl⟩, rfl⟩, ⟨_, _, _, _, ⟨rfl, rfl⟩, ⟨_, _, cls, _, ⟨rfl, rfl⟩, ⟨_, ⟨hcls, rfl⟩, rfl⟩, rfl,
      rfl⟩, rfl, rfl⟩, rfl, rfl⟩, rfl⟩
    exact ⟨_, cls, ⟨first, inner, hfirst, hinner, rfl⟩, hcls, rfl, rfl⟩

theorem spells_free (x : Char) :
    Spells (free x) fun u c => (u ≠ [] ∧ ∀ y ∈ u, y ≠ x) ∧ c = [] :=
  (Spells.plus_chr _).congr fun u c => by simp [and_assoc]

theorem spells_id : Spells (ResourceIdPattern.id w) fun u c => ∃ t h a v ns cls,
    (IsNamespace w ns ∧ IsName w cls ∧ t = ns ++ ':' :: ':' :: cls) ∧
      (h ≠ [] ∧ ∀ x ∈ h, x ≠ ',') ∧ (a ≠ [] ∧ ∀ x ∈ a, x ≠ '=') ∧ (v ≠ [] ∧ ∀ x ∈ v, x ≠ ']') ∧
      u = t ++ '[' :: (h ++ ',' :: (a ++ '=' :: (v ++ [']']))) ∧
      c = [("ns", ns), ("class", cls), ("type", t), ("hostname", h), ("attr", a), ("value", v),
        ("id", u)] := by
  refine (Spells.group "id" (spells_type.seq ((Spells.lit '[').seq
    (((spells_free ',').group "hostname").seq ((Spells.lit ',').seq
      (((spells_free '=').group "attr").seq ((Spells.lit '=').seq
        (((spells_free ']').group "value").seq (Spells.lit ']'))))))))).congr fun u c => ?_
  constructor
  · rintro ⟨t, h, a, v, ns, cls, ⟨hns, hcls, rfl⟩, hh, ha, hv, rfl, rfl⟩
    exact ⟨[_, _, _, _, _, _], ⟨_, _, _, _, ⟨ns, cls, hns, hcls, rfl, rfl⟩,
      ⟨_, _, _, _, ⟨rfl, rfl⟩, ⟨_, _, _, _, ⟨_, ⟨hh, rfl⟩, rfl⟩, ⟨_, _, _, _, ⟨rfl, rfl⟩,
      ⟨_, _, _, _, ⟨_, ⟨ha, rfl⟩, rfl⟩, ⟨_, _, _, _, ⟨rfl, rfl⟩,
      ⟨_, _, _, _, ⟨_, ⟨hv, rfl⟩, rfl⟩, ⟨rfl, rfl⟩, rfl, rfl⟩, rfl, rfl⟩, rfl, rfl⟩, rfl, rfl⟩,
      rfl, rfl⟩, rfl, rfl⟩, rfl, rfl⟩, rfl⟩
  · rintro ⟨_, ⟨t, _, _, _, ⟨ns, cls, hns, hcls, rfl, rfl⟩, ⟨_, _, _, _, ⟨rfl, rfl⟩,
      ⟨_, _, _, _, ⟨_, ⟨hh, rfl⟩, rfl⟩, ⟨_, _, _, _, ⟨rfl, rfl⟩,
      ⟨_, _, _, _, ⟨_, ⟨ha, rfl⟩, rfl⟩, ⟨_, _, _, _, ⟨rfl, rfl⟩,
      ⟨_, _, _, _, ⟨_, ⟨hv, rfl⟩, rfl⟩, ⟨rfl, rfl⟩, rfl, rfl⟩, rfl, rfl⟩, rfl, rfl⟩, rfl, rfl⟩,
      rfl, rfl⟩, rfl, rfl⟩, rfl, rfl⟩, rfl⟩
    exact ⟨_, _, _, _, ns, cls, ⟨hns, hcls, rfl⟩, hh, ha, hv, rfl, rfl⟩

theorem spells_version : Spells ResourceIdPattern.version fun u c => ∃ ds : List Char,
    (∀ x ∈ ds, x.isDigit = true) ∧ u = versionSuffix ds ∧
      c = if ds = [] then [] else [("version", ds)] := by
  have hempty : Spells (.star (.chr fun _ => false)) fun u c => u = [] ∧ c = [] := by
    refine (Spells.star_chr _).congr fun u c => and_congr_left fun _ => ⟨?_, fun h => ?_⟩
    · rintro rfl
      exact fun x hx => absurd hx List.not_mem_nil
    · exact List.eq_nil_iff_forall_not_mem.mpr fun x hx => Bool.false_ne_true (h x hx)
  refine (((Spells.lit ',').seq ((Spells.lit 'v').seq ((Spells.lit '=').seq
    ((Spells.plus_chr Char.isDigit).group "version")))).alt hempty).congr fun u c => ?_
  constructor
  · rintro ⟨ds, hds, rfl, rfl⟩
    by_cases hne : ds = []
    · rw [versionSuffix, if_pos hne, if_pos hne]
      exact .inr ⟨rfl, rfl⟩
    · rw [versionSuffix, if_neg hne, if_neg hne]
      exact .inl ⟨_, _, _, _, ⟨rfl, rfl⟩, ⟨_, _, _, _, ⟨rfl, rfl⟩, ⟨_, _, _, _, ⟨rfl, rfl⟩,
        ⟨_, ⟨hne, hds, rfl⟩, rfl⟩, rfl, rfl⟩, rfl, rfl⟩, rfl, rfl⟩
  · rintro (⟨_, _, _, _, ⟨rfl, rfl⟩, ⟨_, _, _, _, ⟨rfl, rfl⟩, ⟨_, _, ds, _, ⟨rfl, rfl⟩,
      ⟨_, ⟨hne, hds, rfl⟩, rfl⟩, rfl, rfl⟩, rfl, rfl⟩, rfl, rfl⟩ | ⟨rfl, rfl⟩)
    · exact ⟨ds, hds, by rw [versionSuffix, if_neg hne]; rfl, by rw [if_neg hne]; rfl⟩
    · exact ⟨[], fun x hx => absurd hx List.not_mem_nil, rfl, rfl⟩

theorem mem_results_textEnd {c : Captures} {rest : List Char} :
    (c, rest) ∈ textEnd.results s ↔ (s = [] ∨ s = ['\n']) ∧ c = [] ∧ rest = [] := by
  rw [textEnd, results_alt, List.mem_append, mem_results_eos]
  cases s with
  | nil => simp [results_seq]
  | cons x s =>
      rw [results_seq, results_lit_cons]
      by_cases hx : x = '\n'
      · simp [hx, mem_results_eos]
      · simp [hx]

/-- What the pattern captures are the parts of the text. -/
theorem of_mem_results {c : Captures} {rest : List Char}
    (hc : (c, rest) ∈ (ResourceIdPattern.parseId w).results s) : ∃ id digits tail,
      Layout w id digits tail s ∧ c.get "type" = id.entityType ∧ c.get "hostname" = id.agentName ∧
        c.get "attr" = id.attributeName ∧ c.get "value" = id.attributeValue ∧
        c.get "version" = digits := by
  obtain ⟨d, mid, e, hd, he, rfl⟩ := mem_results_seq.mp hc
  obtain ⟨d', mid', e', hd', he', rfl⟩ := mem_results_seq.mp he
  obtain ⟨u, rfl, t, h, a, v, ns, cls, ht, hh, ha, hv, rfl, rfl⟩ := (spells_id _ _ _).mp hd
  obtain ⟨u, rfl, ds, hds, rfl, rfl⟩ := (spells_version _ _ _).mp hd'
  obtain ⟨htail, rfl, rfl⟩ := mem_results_textEnd.mp he'
  refine ⟨⟨t, h, a, v, capturedVersion ds⟩, ds, mid',
    ⟨⟨ns, cls, ht⟩, hh, ha, hv, rfl, hds, htail, rfl⟩, ?_⟩
  by_cases hne : ds = []
  · rw [if_pos hne, hne]
    exact ⟨rfl, rfl, rfl, rfl, rfl⟩
  · rw [if_neg hne]
    exact ⟨rfl, rfl, rfl, rfl, rfl⟩

/-- A text that can be taken apart is matched. -/
theorem results_ne_nil (h : Layout w id digits tail s) :
    (ResourceIdPattern.parseId w).results s ≠ [] := by
  obtain ⟨⟨ns, cls, ht⟩, hh, ha, hv, -, hds, htail, rfl⟩ := h
  have hversion := (spells_version _ _ tail).mpr ⟨_, rfl, digits, hds, rfl, rfl⟩
  have hid := (spells_id _ _ (versionSuffix digits ++ tail)).mpr
    ⟨_, rfl, _, _, _, _, ns, cls, ht, hh, ha, hv, rfl, rfl⟩
  have hend := mem_results_textEnd.mpr ⟨htail, rfl, rfl⟩
  exact List.ne_nil_of_mem (mem_results_seq.mpr
    ⟨_, _, _, hid, mem_results_seq.mpr ⟨_, _, _, hversion, hend, rfl⟩, rfl⟩)

/-- A text is cut in one way at the first occurrence of a character. -/
theorem cut_unique {x : Char} {u u' v v' : List Char} (hu : ∀ y ∈ u, y ≠ x) (hu' : ∀ y ∈ u', y ≠ x)
    (h : u ++ x :: v = u' ++ x :: v') : u = u' ∧ v = v' := by
  induction u generalizing u' with
  | nil =>
      cases u' with
      | nil => exact ⟨rfl, (List.cons.inj h).2⟩
      | cons y u' => exact absurd (List.cons.inj h).1.symm (hu' y List.mem_cons_self)
  | cons y u ih =>
      obtain ⟨hy, hu⟩ := List.forall_mem_cons.mp hu
      cases u' with
      | nil => exact absurd (List.cons.inj h).1 hy
      | cons z u' =>
          obtain ⟨hyz, hrest⟩ := List.cons.inj h
          obtain ⟨huu, hvv⟩ := ih hu (List.forall_mem_cons.mp hu').2 hrest
          exact ⟨by rw [hyz, huu], hvv⟩

theorem ne_of_mem_type {t : List Char} (ht : IsType w t) : ∀ x ∈ t, x ≠ '[' := by
  have hname : ∀ {x : List Char}, IsName w x → '[' ∉ x := fun hx h => by
    simpa [WordChars.isName, w.bracket] using hx.2 _ h
  obtain ⟨ns, cls, ⟨first, inner, hfirst, hinner, rfl⟩, hcls, rfl⟩ := ht
  simp only [List.mem_append, List.mem_cons, List.mem_flatMap]
  rintro x ((h | ⟨x, hx, h | h | h⟩) | h | h | h) rfl
  · exact hname hfirst h
  · cases h
  · cases h
  · exact hname (hinner x hx) h
  · cases h
  · cases h
  · exact hname hcls h

theorem suffix_unique (hd : ∀ x ∈ digits, x.isDigit = true) (hd' : ∀ x ∈ digits', x.isDigit = true)
    (ht : tail = [] ∨ tail = ['\n']) (ht' : tail' = [] ∨ tail' = ['\n'])
    (h : versionSuffix digits ++ tail = versionSuffix digits' ++ tail') : digits = digits' := by
  have hfilter : ∀ {ds t : List Char}, (∀ x ∈ ds, x.isDigit = true) → (t = [] ∨ t = ['\n']) →
      (versionSuffix ds ++ t).filter Char.isDigit = ds := by
    intro ds t hds ht
    have htail : t.filter Char.isDigit = [] := by
      obtain rfl | rfl := ht <;> rfl
    rw [List.filter_append, htail, List.append_nil, versionSuffix]
    split
    · next h => rw [h]; rfl
    · exact List.filter_eq_self.mpr hds
  calc
    digits = (versionSuffix digits ++ tail).filter Char.isDigit := (hfilter hd ht).symm
    _ = (versionSuffix digits' ++ tail').filter Char.isDigit := by rw [h]
    _ = digits' := hfilter hd' ht'

/-- The characters that end the parts leave one way to take a text apart. -/
theorem unique (h : Layout w id digits tail s) (h' : Layout w id' digits' tail' s) :
    id = id' ∧ digits = digits' := by
  have htext := h.text.symm.trans h'.text
  simp only [resourceStr, List.append_assoc, List.cons_append, List.nil_append] at htext
  obtain ⟨htype, htext⟩ := cut_unique (ne_of_mem_type h.typed) (ne_of_mem_type h'.typed) htext
  obtain ⟨hagent, htext⟩ := cut_unique h.agentName.2 h'.agentName.2 htext
  obtain ⟨hattribute, htext⟩ := cut_unique h.attributeName.2 h'.attributeName.2 htext
  obtain ⟨hvalue, htext⟩ := cut_unique h.attributeValue.2 h'.attributeValue.2 htext
  have hdigits := suffix_unique h.isDigit h'.isDigit h.lineEnd h'.lineEnd htext
  have hversion := h.version.trans ((congrArg capturedVersion hdigits).trans h'.version.symm)
  cases id
  cases id'
  simp_all

end Layout

/-- The ids that a text is parsed to. -/
theorem parseId_eq_ok_iff {version : Option Nat} :
    parseId w s version = .ok id' ↔ ∃ id digits tail, Layout w id digits tail s ∧
      ',' ∉ id.attributeName ∧ id' = { id with version := version.getD id.version } := by
  constructor
  · intro h
    rw [parseId] at h
    split at h
    · cases h
    · next c rest hhead =>
      obtain ⟨id, digits, tail, hid, h1, h2, h3, h4, h5⟩ :=
        Layout.of_mem_results (List.mem_of_head? hhead)
      rw [h1, h2, h3, h4, h5, ← hid.version] at h
      obtain ⟨⟨-, ⟨hcomma, -⟩, -⟩, rfl⟩ := init_eq_ok.mp h
      exact ⟨id, digits, tail, hid, hcomma, rfl⟩
  · rintro ⟨id, digits, tail, hid, hcomma, rfl⟩
    rw [parseId]
    split
    · next hhead => exact absurd (List.head?_eq_none_iff.mp hhead) hid.results_ne_nil
    · next c rest hhead =>
      obtain ⟨id', digits', tail', hid', h1, h2, h3, h4, h5⟩ :=
        Layout.of_mem_results (List.mem_of_head? hhead)
      obtain ⟨rfl, rfl⟩ := hid.unique hid'
      rw [h1, h2, h3, h4, h5, ← hid.version]
      refine init_eq_ok.mpr ⟨⟨?_, ⟨hcomma, ?_⟩, ?_⟩, rfl⟩
      · exact fun hx => hid.agentName.2 _ hx rfl
      · exact fun hx => hid.attributeName.2 _ hx rfl
      · exact fun hx => hid.attributeValue.2 _ hx rfl

/-- The ids that are accepted are those whose parts the pattern captures. -/
theorem Layout.accepted (h : Layout w id digits tail s) (hcomma : ',' ∉ id.attributeName) :
    id.Accepted w where
  constructed := init_eq_ok.mpr ⟨⟨fun hx => h.agentName.2 _ hx rfl,
    ⟨hcomma, fun hx => h.attributeName.2 _ hx rfl⟩, fun hx => h.attributeValue.2 _ hx rfl⟩, rfl⟩
  typed := h.typed
  agentName_ne := h.agentName.1
  attributeName_ne := h.attributeName.1
  attributeValue_ne := h.attributeValue.1

theorem Accepted.not_mem (h : id.Accepted w) : ',' ∉ id.agentName ∧
    (',' ∉ id.attributeName ∧ '=' ∉ id.attributeName) ∧ ']' ∉ id.attributeValue :=
  (init_eq_ok.mp h.constructed).1

theorem Accepted.layout (h : id.Accepted w) (digits : List Char)
    (hversion : id.version = capturedVersion digits) (hdigits : ∀ x ∈ digits, x.isDigit = true)
    (htail : tail = [] ∨ tail = ['\n']) :
    Layout w id digits tail (id.resourceStr ++ (versionSuffix digits ++ tail)) where
  typed := h.typed
  agentName := ⟨h.agentName_ne, fun _ hx hx' => h.not_mem.1 (hx' ▸ hx)⟩
  attributeName := ⟨h.attributeName_ne, fun _ hx hx' => h.not_mem.2.1.2 (hx' ▸ hx)⟩
  attributeValue := ⟨h.attributeValue_ne, fun _ hx hx' => h.not_mem.2.2 (hx' ▸ hx)⟩
  version := hversion
  isDigit := hdigits
  lineEnd := htail
  text := rfl

theorem Accepted.setVersion (h : id.Accepted w) (n : Nat) :
    Accepted w { id with version := n } where
  constructed := init_eq_ok.mpr ⟨h.not_mem, rfl⟩
  typed := h.typed
  agentName_ne := h.agentName_ne
  attributeName_ne := h.attributeName_ne
  attributeValue_ne := h.attributeValue_ne

/-- Whatever the version was, an id is read with the version of the text. -/
theorem Accepted.parseId_eq (h : id.Accepted w) (digits : List Char)
    (hdigits : ∀ x ∈ digits, x.isDigit = true) (htail : tail = [] ∨ tail = ['\n']) :
    parseId w (id.resourceStr ++ (versionSuffix digits ++ tail)) none =
      .ok { id with version := capturedVersion digits } :=
  parseId_eq_ok_iff.mpr ⟨{ id with version := capturedVersion digits }, digits, tail,
    (h.setVersion (capturedVersion digits)).layout digits rfl hdigits htail, h.not_mem.2.1.1, rfl⟩

theorem resourceVersionStr_eq : id.resourceVersionStr =
    id.resourceStr ++ (versionSuffix (Nat.toDigits 10 id.version) ++ []) := by
  rw [resourceVersionStr, versionSuffix, if_neg Nat.toDigits_ne_nil, List.append_nil]

theorem capturedVersion_toDigits (n : Nat) : capturedVersion (Nat.toDigits 10 n) = n := by
  rw [capturedVersion, if_neg Nat.toDigits_ne_nil, Nat.ofDigitChars_ten_toDigits]

theorem Accepted.parseId_resourceStr (h : id.Accepted w) :
    parseId w id.resourceStr none = .ok { id with version := 0 } := by
  have hparse := h.parseId_eq [] (fun x hx => absurd hx List.not_mem_nil) (.inl rfl)
  rwa [versionSuffix, if_pos rfl, List.append_nil, List.append_nil] at hparse

theorem Accepted.parseId_resourceVersionStr (h : id.Accepted w) :
    parseId w id.resourceVersionStr none = .ok id := by
  have hparse := h.parseId_eq (Nat.toDigits 10 id.version)
    (fun x hx => Nat.isDigit_of_mem_toDigits (by decide) (by decide) hx) (.inl rfl)
  rwa [← resourceVersionStr_eq, capturedVersion_toDigits] at hparse

/-- A text with a version is parsed if and only if the version is not 0. -/
theorem parseResourceVersionId_eq_ok_iff : parseResourceVersionId w s = .ok id ↔
    parseId w s none = .ok id ∧ id.version ≠ 0 := by
  rw [parseResourceVersionId, bind_eq_ok]
  constructor
  · rintro ⟨id', hid', h⟩
    split at h
    · cases h
    · next hversion =>
      obtain rfl := Except.ok.inj h
      exact ⟨hid', hversion⟩
  · rintro ⟨hid, hversion⟩
    exact ⟨id, hid, if_neg hversion⟩

/-! ## Versions without superfluous zeros -/

/-- How a number is printed: only 0 itself starts with a zero. -/
def NoLeadingZero (digits : List Char) : Prop := digits.head? = some '0' → digits = ['0']

theorem toDigits_digit {x : Char} (hx : x.isDigit = true) :
    x.toNat - '0'.toNat < 10 ∧ Nat.toDigits 10 (x.toNat - '0'.toNat) = [x] := by
  obtain ⟨n, hn, rfl⟩ : ∃ n < 10, x = Nat.digitChar n := by
    have hle : 48 ≤ x.toNat := (Char.isDigit_iff_toNat.mp hx).1
    have hle' : x.toNat ≤ 57 := (Char.isDigit_iff_toNat.mp hx).2
    have hchar : ∀ n < 10, Nat.digitChar n = Char.ofNat (n + 48) := by decide
    have hlt : x.toNat - 48 < 10 := by omega
    exact ⟨x.toNat - 48, hlt, by rw [hchar _ hlt, Nat.sub_add_cancel hle, Char.ofNat_toNat]⟩
  have hsub : (Nat.digitChar n).toNat - '0'.toNat = n := Nat.toNat_digitChar_sub_48_of_lt_ten hn
  rw [hsub]
  exact ⟨hn, Nat.toDigits_of_lt_base hn⟩

theorem toDigits_ofDigitChars_append {n : Nat} (hn : 0 < n)
    (hdigits : ∀ x ∈ digits, x.isDigit = true) :
    Nat.toDigits 10 (Nat.ofDigitChars 10 digits n) = Nat.toDigits 10 n ++ digits := by
  induction digits generalizing n with
  | nil => rw [Nat.ofDigitChars_nil, List.append_nil]
  | cons x digits ih =>
      obtain ⟨hx, hdigits⟩ := List.forall_mem_cons.mp hdigits
      obtain ⟨hlt, hdigit⟩ := toDigits_digit hx
      rw [Nat.ofDigitChars_cons, ih (by omega) hdigits,
        ← Nat.toDigits_append_toDigits (by decide) hn hlt, hdigit, List.append_assoc]
      rfl

theorem toDigits_ofDigitChars (hne : digits ≠ []) (hdigits : ∀ x ∈ digits, x.isDigit = true)
    (hzero : NoLeadingZero digits) : Nat.toDigits 10 (Nat.ofDigitChars 10 digits 0) = digits := by
  cases digits with
  | nil => exact absurd rfl hne
  | cons x digits =>
      obtain ⟨hx, hdigits⟩ := List.forall_mem_cons.mp hdigits
      obtain ⟨-, hdigit⟩ := toDigits_digit hx
      rw [Nat.ofDigitChars_cons, Nat.mul_zero, Nat.zero_add]
      obtain hpos | hpos := Nat.eq_zero_or_pos (x.toNat - '0'.toNat)
      · rw [hpos, Nat.toDigits_zero] at hdigit
        obtain rfl := (List.cons.inj hdigit).1
        obtain ⟨-, rfl⟩ := List.cons.inj (hzero rfl)
        rfl
      · rw [toDigits_ofDigitChars_append hpos hdigits, hdigit]
        rfl

/-! ## Round trips -/

/-- **Exact parsing.** A text that does not end in a line end is parsed to an
id if and only if it is the id printed without a version, or with its version
in digits, which may have zeros in front. -/
theorem parseId_exact (hs : s.getLast? ≠ some '\n') : parseId w s none = .ok id ↔
    id.Accepted w ∧ (id.version = 0 ∧ s = id.resourceStr ∨
      ∃ digits, digits ≠ [] ∧ (∀ x ∈ digits, x.isDigit = true) ∧
        id.version = Nat.ofDigitChars 10 digits 0 ∧
        s = id.resourceStr ++ ',' :: 'v' :: '=' :: digits ∧
        (NoLeadingZero digits → s = id.resourceVersionStr)) := by
  rw [parseId_eq_ok_iff]
  constructor
  · rintro ⟨id, digits, tail, h, hcomma, rfl⟩
    refine ⟨h.accepted hcomma, ?_⟩
    have htext := h.text
    have hversion := h.version
    obtain rfl | rfl := h.lineEnd
    · by_cases hne : digits = []
      · rw [capturedVersion, if_pos hne] at hversion
        rw [versionSuffix, if_pos hne, List.append_nil, List.append_nil] at htext
        exact .inl ⟨hversion, htext⟩
      · rw [capturedVersion, if_neg hne] at hversion
        rw [versionSuffix, if_neg hne, List.append_nil] at htext
        refine .inr ⟨digits, hne, h.isDigit, hversion, htext, fun hzero => ?_⟩
        rw [htext, resourceVersionStr, Option.getD_none, hversion,
          toDigits_ofDigitChars hne h.isDigit hzero]
        rfl
    · rw [htext, ← List.append_assoc, List.getLast?_concat] at hs
      exact absurd rfl hs
  · rintro ⟨hid, ⟨hversion, rfl⟩ | ⟨digits, hne, hdigits, hversion, rfl, -⟩⟩
    · refine ⟨id, [], [], ?_, hid.not_mem.2.1.1, rfl⟩
      have h := hid.layout [] hversion (fun x hx => absurd hx List.not_mem_nil)
        (.inl rfl)
      rwa [versionSuffix, if_pos rfl, List.append_nil, List.append_nil] at h
    · refine ⟨id, digits, [], ?_, hid.not_mem.2.1.1, rfl⟩
      have h := hid.layout digits (by rw [capturedVersion, if_neg hne, hversion]) hdigits
        (.inl rfl)
      rwa [versionSuffix, if_neg hne, List.append_nil] at h

/-- **Round trips.** An accepted id that is printed with its version is parsed
to the same id, and without it to the id with version 0. So ids that print
alike are equal, up to the version where it is not printed. The texts that are
parsed, but for those with a line end at their end, are printed ids. -/
theorem parses_what_is_printed (w : WordChars) :
    (∀ id : ResourceId, id.Accepted w →
      parseId w id.resourceStr none = .ok { id with version := 0 } ∧
        parseId w id.resourceVersionStr none = .ok id) ∧
    (∀ s : List Char, s.getLast? ≠ some '\n' → ∀ id : ResourceId, parseId w s none = .ok id ↔
      id.Accepted w ∧ (id.version = 0 ∧ s = id.resourceStr ∨
        ∃ digits, digits ≠ [] ∧ (∀ x ∈ digits, x.isDigit = true) ∧
          id.version = Nat.ofDigitChars 10 digits 0 ∧
          s = id.resourceStr ++ ',' :: 'v' :: '=' :: digits ∧
          (NoLeadingZero digits → s = id.resourceVersionStr))) ∧
    (∀ id id' : ResourceId, id.Accepted w → id'.Accepted w →
      (id.resourceVersionStr = id'.resourceVersionStr → id = id') ∧
        (id.resourceStr = id'.resourceStr → id = { id' with version := id.version })) := by
  refine ⟨fun id hid => ⟨hid.parseId_resourceStr, hid.parseId_resourceVersionStr⟩,
    fun s hs id => parseId_exact hs, fun id id' hid hid' => ⟨fun h => ?_, fun h => ?_⟩⟩
  · have hparse := hid.parseId_resourceVersionStr
    rw [h, hid'.parseId_resourceVersionStr] at hparse
    exact (Except.ok.inj hparse).symm
  · have hparse := hid.parseId_resourceStr
    rw [h, hid'.parseId_resourceStr] at hparse
    obtain ⟨h1, h2, h3, h4, -⟩ := ResourceId.mk.inj (Except.ok.inj hparse)
    exact ResourceId.ext h1.symm h2.symm h3.symm h4.symm rfl

/-- A resource of which the agent and the value hold separators. -/
def separators : ResourceId where
  entityType := "std::File".toList
  agentName := "a[b=c]".toList
  attributeName := "path".toList
  attributeValue := "/etc,v=1[x".toList
  version := 3

theorem separators_accepted : separators.Accepted .ascii where
  constructed := by decide
  typed := ⟨"std".toList, "File".toList,
    ⟨"std".toList, [], ⟨by decide, List.all_eq_true.mp (by decide)⟩,
      fun x hx => absurd hx List.not_mem_nil, rfl⟩,
    ⟨by decide, List.all_eq_true.mp (by decide)⟩, rfl⟩
  agentName_ne := by decide
  attributeName_ne := by decide
  attributeValue_ne := by decide

theorem parses_what_is_printed_separators :
    parseId .ascii separators.resourceStr none = .ok { separators with version := 0 } ∧
      parseId .ascii separators.resourceVersionStr none = .ok separators :=
  (parses_what_is_printed .ascii).1 separators separators_accepted

/-- The version is lost where it is not printed, and neither a line end at the
end nor a zero in front of the version is printed again. -/
theorem parse_print_differs :
    parseId .ascii separators.resourceStr none ≠ .ok separators ∧
      (parseId .ascii (separators.resourceStr ++ ['\n']) none =
          .ok { separators with version := 0 } ∧
        separators.resourceStr ++ ['\n'] ≠ { separators with version := 0 }.resourceStr ∧
        separators.resourceStr ++ ['\n'] ≠ { separators with version := 0 }.resourceVersionStr) ∧
      parseId .ascii (separators.resourceStr ++ ",v=03".toList) none = .ok separators ∧
        separators.resourceStr ++ ",v=03".toList ≠ separators.resourceStr ∧
        separators.resourceStr ++ ",v=03".toList ≠ separators.resourceVersionStr := by
  have hid := separators_accepted
  refine ⟨?_, ⟨?_, by decide, by decide⟩, ?_, by decide, by decide⟩
  · rw [hid.parseId_resourceStr]
    decide
  · exact hid.parseId_eq [] (fun x hx => absurd hx List.not_mem_nil) (.inr rfl)
  · exact hid.parseId_eq ['0', '3'] (List.all_eq_true.mp (by decide)) (.inl rfl)

end ResourceId

end Inmanta
