import Inmanta.Lib.JsonPath
import Inmanta.Util.DictPath
import Mathlib.Data.List.Lex
import Mathlib.Data.Finset.Max

/-!
# References in resources

A reference in an attribute of a resource is exported as null, together with a
mutator that puts its value back when the resource is deployed. What the mutator
knows of the place is a path in a text: the name of the field, an index for
every list and a quoted name for every dictionary on the way. The arguments of a
reference are stored in the same way, with the paths beside them.

The paths are written with quotes escaped and backslashes left as they are, and
read back by a parser for which a backslash is an escape. So a reference is
found again if its field has a plain name and no key on the way has a backslash
(`ResourceFields.Findable`). The mutators then have different places, and every
order of them puts every value where the reference was.

The other paths are read as other places, or not at all. They do not restore
each other's references either (`parsed_of_replaceAll`): each is read as a place
that comes before its own.
-/

namespace Inmanta

/-- What a resource or an argument is made of, apart from lists and
dictionaries. No value is null. -/
inductive AttributeValue (β ρ : Type) where
  | value (b : Option β)
  | reference (r : ρ)
  deriving DecidableEq

/-! ## Paths -/

namespace ReferencePath

/-- `key.replace("'", "\\'")` -/
def escapeQuotes (key : Text) : Text :=
  key.flatMap fun c => if c = '\'' then ['\\', '\''] else [c]

def stepText : PathStep Text → Text
  | .index i => '[' :: (Nat.toDigits 10 i ++ [']'])
  | .field key => '.' :: '\'' :: (escapeQuotes key ++ ['\''])

/-- What is appended to a path on the way to a location. -/
def pathText (l : Location Text) : Text := l.flatMap stepText

/-- A key that is read as it was written: a backslash is not escaped, and a star
is a wildcard with quotes too. -/
def QuotedExactly (key : Text) : Prop := '\\' ∉ key ∧ key ≠ ['*']

theorem quoted_escapeQuotes {key : Text} (h : '\\' ∉ key) : Quoted (escapeQuotes key) key := by
  induction key with
  | nil => exact .nil
  | cons c key ih =>
      have hrest := ih fun hmem => h (List.mem_cons_of_mem c hmem)
      by_cases hc : c = '\''
      · subst hc
        exact .escape (by decide) hrest
      · have hbackslash : c ≠ '\\' := fun hc' => h (hc' ▸ List.mem_cons_self)
        rw [escapeQuotes, List.flatMap_cons, if_neg hc, List.singleton_append]
        exact .char hc hbackslash hrest

/-- A path goes on where the location does. -/
theorem parse_append (J : JsonPath) {l : Location Text} (h : ∀ key, .field key ∈ l →
    QuotedExactly key) {p : Text} {base : Location Text} (hp : J.parse p = some base) :
    J.parse (p ++ pathText l) = some (base ++ l) := by
  induction l generalizing p base with
  | nil => rw [pathText, List.flatMap_nil, List.append_nil, List.append_nil, hp]
  | cons s l ih =>
      have hs : J.parse (p ++ stepText s) = some (base ++ [s]) := by
        cases s with
        | index i => exact J.index i hp
        | field key =>
            obtain ⟨hbackslash, hstar⟩ := h key List.mem_cons_self
            exact J.quoted hp (quoted_escapeQuotes hbackslash) hstar
      have hl := ih (fun key hkey => h key (List.mem_cons_of_mem s hkey)) hs
      rwa [List.append_assoc, List.append_assoc, List.singleton_append] at hl

/-! ### What is read of the other keys

A key with a backslash is read as one that comes before it. So the paths cannot
restore each other's references either: what restores the last of them would
come after it.
-/

theorem escapeQuotes_quote (key : Text) :
    escapeQuotes ('\'' :: key) = '\\' :: '\'' :: escapeQuotes key := rfl

theorem escapeQuotes_cons {c : Char} (h : c ≠ '\'') (key : Text) :
    escapeQuotes (c :: key) = c :: escapeQuotes key := by
  rw [escapeQuotes, List.flatMap_cons, if_neg h]
  rfl

/-- A backslash comes after every other character. -/
def weight (c : Char) : ℕ := if c = '\\' then 0x110000 else c.toNat

def keyWeight (key : Text) : List ℕ := key.map weight

theorem weight_lt {c : Char} (h : c ≠ '\\') : weight c < weight '\\' := by
  rw [weight, if_neg h, weight, if_pos rfl]
  have := c.valid
  simp only [Char.toNat, UInt32.isValidChar, Nat.isValidChar] at *
  omega

theorem keyWeight_lt_cons (key : Text) : keyWeight key < keyWeight ('\\' :: key) := by
  induction key with
  | nil => exact List.nil_lt_cons _ _
  | cons c key ih =>
      by_cases hc : c = '\\'
      · subst hc
        exact List.cons_lt_cons_iff.mpr (.inr ⟨rfl, ih⟩)
      · exact List.cons_lt_cons_iff.mpr (.inl (weight_lt hc))

/-- What is read of a key is the key, or comes before it if there is a backslash. -/
theorem keyWeight_le : ∀ (key : Text) {q n rest rest' : Text}, Quoted q n →
    escapeQuotes key ++ '\'' :: rest = q ++ '\'' :: rest' →
    keyWeight n ≤ keyWeight key ∧ ('\\' ∈ key → keyWeight n < keyWeight key)
  | [], q, n, rest, rest', hq, heq => by
      obtain ⟨-, rfl⟩ := hq.of_quote heq
      exact ⟨le_rfl, fun h => absurd h List.not_mem_nil⟩
  | c :: key, q, n, rest, rest', hq, heq => by
      have hcons (m : Text) (d : Char) (h : keyWeight m ≤ keyWeight key ∧
          ('\\' ∈ key → keyWeight m < keyWeight key)) (hd : d ≠ '\\') :
          keyWeight (d :: m) ≤ keyWeight (d :: key) ∧
            ('\\' ∈ d :: key → keyWeight (d :: m) < keyWeight (d :: key)) := by
        refine ⟨?_, fun hmem => ?_⟩
        · rcases h.1.lt_or_eq with hlt | heq
          · exact (List.cons_lt_cons_iff.mpr (.inr ⟨rfl, hlt⟩)).le
          · exact (congrArg (weight d :: ·) heq).le
        · have hmem' : '\\' ∈ key := (List.mem_cons.mp hmem).resolve_left hd.symm
          exact List.cons_lt_cons_iff.mpr (.inr ⟨rfl, h.2 hmem'⟩)
      by_cases hquote : c = '\''
      · subst hquote
        rw [escapeQuotes_quote, List.cons_append, List.cons_append] at heq
        cases hq with
        | nil => exact absurd (List.cons.inj heq).1 (by decide)
        | char quote backslash hrest => exact absurd (List.cons.inj heq).1.symm backslash
        | escape newline hrest =>
            obtain ⟨-, heq⟩ := List.cons.inj heq
            obtain ⟨rfl, hrest'⟩ := List.cons.inj heq
            exact hcons _ _ (keyWeight_le key hrest hrest') (by decide)
      · rw [escapeQuotes_cons hquote, List.cons_append] at heq
        by_cases hbackslash : c = '\\'
        · subst hbackslash
          suffices h : keyWeight n < keyWeight ('\\' :: key) from ⟨h.le, fun _ => h⟩
          cases hq with
          | nil => exact absurd (List.cons.inj heq).1 (by decide)
          | char quote backslash hrest => exact absurd (List.cons.inj heq).1.symm backslash
          | @escape d q' n' newline hrest =>
              obtain ⟨-, heq⟩ := List.cons.inj heq
              by_cases hd : d = '\\'
              · subst hd
                refine List.cons_lt_cons_iff.mpr (.inr ⟨rfl, ?_⟩)
                match key, heq with
                | [], heq => exact absurd (List.cons.inj heq).1 (by decide)
                | c' :: key', heq =>
                    by_cases hquote' : c' = '\''
                    · subst hquote'
                      rw [escapeQuotes_quote, List.cons_append, List.cons_append] at heq
                      obtain ⟨-, heq⟩ := List.cons.inj heq
                      obtain ⟨-, rfl⟩ := hrest.of_quote heq
                      exact List.nil_lt_cons _ _
                    · rw [escapeQuotes_cons hquote', List.cons_append] at heq
                      obtain ⟨rfl, hrest'⟩ := List.cons.inj heq
                      exact (keyWeight_le key' hrest hrest').1.trans_lt (keyWeight_lt_cons key')
              · exact List.cons_lt_cons_iff.mpr (.inl (weight_lt hd))
        · cases hq with
          | nil => exact absurd (List.cons.inj heq).1 hquote
          | char quote backslash hrest =>
              obtain ⟨rfl, hrest'⟩ := List.cons.inj heq
              exact hcons _ _ (keyWeight_le key hrest hrest') hbackslash
          | escape newline hrest => exact absurd (List.cons.inj heq).1 hbackslash

theorem read_star {q n rest rest' : Text} (hq : Quoted q n)
    (heq : escapeQuotes ['*'] ++ '\'' :: rest = q ++ '\'' :: rest') : n = ['*'] := by
  cases hq with
  | nil => exact absurd (List.cons.inj heq).1 (by decide)
  | char quote backslash hrest =>
      obtain ⟨rfl, hrest'⟩ := List.cons.inj heq
      obtain ⟨-, rfl⟩ := hrest.of_quote hrest'
      rfl
  | escape newline hrest => exact absurd (List.cons.inj heq).1 (by decide)

/-- Locations in the order of their keys. -/
def locationWeight (l : Location Text) : List (List ℕ) :=
  l.map fun s =>
    match s with
    | .index _ => []
    | .field key => keyWeight key

/-- A path is read as its location if all keys are read exactly, and as one that
comes before it if it is read at all. -/
theorem parse_append_cases (J : JsonPath) {l : Location Text} {p : Text} {base l' : Location Text}
    (hp : J.parse p = some base) (h : J.parse (p ++ pathText l) = some l') :
    (∀ key, .field key ∈ l → QuotedExactly key) ∨
      locationWeight l' < locationWeight (base ++ l) := by
  induction l generalizing p base with
  | nil => exact .inl fun key hkey => absurd hkey List.not_mem_nil
  | cons s l ih =>
      rw [pathText, List.flatMap_cons, ← List.append_assoc] at h
      have hgoes (hs : J.parse (p ++ stepText s) = some (base ++ [s])) :
          (∀ key, .field key ∈ l → QuotedExactly key) ∨
            locationWeight l' < locationWeight (base ++ s :: l) := by
        have hl := ih hs h
        rwa [List.append_assoc, List.singleton_append] at hl
      cases s with
      | index i =>
          refine (hgoes (J.index i hp)).imp_left fun hkeys key hkey => hkeys key ?_
          exact (List.mem_cons.mp hkey).resolve_left fun heq => by cases heq
      | field key =>
          by_cases hkey : QuotedExactly key
          · refine (hgoes (J.quoted hp (quoted_escapeQuotes hkey.1) hkey.2)).imp_left
              fun hkeys key' hkey' => ?_
            rcases List.mem_cons.mp hkey' with heq | hmem
            · cases heq
              exact hkey
            · exact hkeys key' hmem
          · right
            have hrest : p ++ stepText (.field key) ++ l.flatMap stepText =
                p ++ '.' :: '\'' :: (escapeQuotes key ++ '\'' :: l.flatMap stepText) := by
              simp [stepText]
            rw [hrest] at h
            obtain ⟨q, n, rest', l'', heq, hq, hstar, rfl⟩ := J.quoted_prefix hp h
            have hbackslash : '\\' ∈ key := by
              by_contra hnot
              have hkeystar : key = ['*'] := by
                by_contra hne
                exact hkey ⟨hnot, hne⟩
              subst hkeystar
              exact hstar (read_star hq heq)
            rw [locationWeight, locationWeight, List.map_append, List.map_append, List.map_cons,
              List.map_cons]
            refine List.append_left_lt (List.cons_lt_cons_iff.mpr (.inl ?_))
            exact (keyWeight_le key hq heq).2 hbackslash

end ReferencePath

open ReferencePath

/-! ## Collection -/

variable {β ρ : Type}

mutual

/-- The value without its references, and the calls of `add_reference`. What is
not serializable makes it raise, and is left out. -/
def collectReferences : Tree Text (AttributeValue β ρ) → Text →
    Tree Text (Option β) × List (Text × ρ)
  | .leaf (.value b), _ => (.leaf b, [])
  | .leaf (.reference r), path => (.leaf none, [(path, r)])
  | .list children, path =>
      let collected := collectChildren 0 children path
      (.list collected.1, collected.2)
  | .dict items, path =>
      let collected := collectItems items path
      (.dict collected.1, collected.2)

def collectChildren : ℕ → List (Tree Text (AttributeValue β ρ)) → Text →
    List (Tree Text (Option β)) × List (Text × ρ)
  | _, [], _ => ([], [])
  | index, value :: values, path =>
      let collected := collectReferences value (path ++ stepText (.index index))
      let others := collectChildren (index + 1) values path
      (collected.1 :: others.1, collected.2 ++ others.2)

def collectItems : List (Text × Tree Text (AttributeValue β ρ)) → Text →
    List (Text × Tree Text (Option β)) × List (Text × ρ)
  | [], _ => ([], [])
  | (key, value) :: items, path =>
      let collected := collectReferences value (path ++ stepText (.field key))
      let others := collectItems items path
      ((key, collected.1) :: others.1, collected.2 ++ others.2)

end

namespace AttributeValue

/-- The exported value. -/
def exported : AttributeValue β ρ → Tree Text (Option β)
  | value b => .leaf b
  | reference _ => .leaf none

/-- The deployed value. -/
def deploy (resolve : ρ → Tree Text (Option β)) : AttributeValue β ρ → Tree Text (Option β)
  | value b => .leaf b
  | reference r => resolve r

end AttributeValue

mutual

theorem collectReferences_fst : ∀ (t : Tree Text (AttributeValue β ρ)) (path : Text),
    (collectReferences t path).1 = t.graft fun _ => AttributeValue.exported
  | .leaf (.value _), _ => rfl
  | .leaf (.reference _), _ => rfl
  | .list children, path => congrArg Tree.list (collectChildren_fst 0 children path)
  | .dict items, path => congrArg Tree.dict (collectItems_fst items path)

theorem collectChildren_fst : ∀ (i : ℕ) (ts : List (Tree Text (AttributeValue β ρ))) (path : Text),
    (collectChildren i ts path).1 = Tree.graftChildren (fun _ => AttributeValue.exported) i ts
  | _, [], _ => rfl
  | i, t :: ts, path =>
      congrArg₂ List.cons (collectReferences_fst t _) (collectChildren_fst (i + 1) ts path)

theorem collectItems_fst : ∀ (items : List (Text × Tree Text (AttributeValue β ρ))) (path : Text),
    (collectItems items path).1 = Tree.graftItems (fun _ => AttributeValue.exported) items
  | [], _ => rfl
  | (k, t) :: items, path =>
      congrArg₂ List.cons (congrArg (Prod.mk k) (collectReferences_fst t _))
        (collectItems_fst items path)

end

/-- `path` leads to the reference from `base`. -/
def ReferenceAt (t : Tree Text (AttributeValue β ρ)) (base path : Text) (r : ρ) : Prop :=
  ∃ l, t.leafAt l = some (.reference r) ∧ path = base ++ pathText l

theorem referenceAt_step {t c : Tree Text (AttributeValue β ρ)} {s : PathStep Text}
    {base path : Text} {r : ρ} (h : t.child s = some c)
    (hr : ReferenceAt c (base ++ stepText s) path r) : ReferenceAt t base path r := by
  obtain ⟨l, hl, rfl⟩ := hr
  refine ⟨s :: l, Tree.leafAt_cons_eq_some_iff.mpr ⟨c, h, hl⟩, ?_⟩
  rw [pathText, pathText, List.flatMap_cons, List.append_assoc]

/-- A reference below a list or a dictionary is below one of the children. -/
theorem ReferenceAt.exists_child {t : Tree Text (AttributeValue β ρ)} {base path : Text} {r : ρ}
    (h : ReferenceAt t base path r) (hleaf : ∀ a, t ≠ .leaf a) :
    ∃ s c, t.child s = some c ∧ ReferenceAt c (base ++ stepText s) path r := by
  obtain ⟨l, hl, rfl⟩ := h
  cases l with
  | nil =>
      cases t with
      | leaf a => exact absurd rfl (hleaf a)
      | list children => cases hl
      | dict items => cases hl
  | cons s l =>
      obtain ⟨c, hc, hl'⟩ := Tree.leafAt_cons_eq_some_iff.mp hl
      refine ⟨s, c, hc, l, hl', ?_⟩
      rw [pathText, pathText, List.flatMap_cons, List.append_assoc]

mutual

/-- The calls are those for the references in the value. -/
theorem mem_collectReferences {path : Text} {r : ρ} : ∀ (t : Tree Text (AttributeValue β ρ))
    (base : Text), t.WellFormed →
    ((path, r) ∈ (collectReferences t base).2 ↔ ReferenceAt t base path r)
  | .leaf (.value b), base, _ => by
      refine ⟨fun h => absurd h List.not_mem_nil, ?_⟩
      rintro ⟨_ | ⟨s, l⟩, hl, -⟩ <;> cases hl
  | .leaf (.reference r'), base, _ => by
      refine List.mem_singleton.trans ⟨?_, ?_⟩
      · rintro h
        injection h with hp hr
        exact ⟨[], by rw [hr]; rfl, by rw [hp]; exact (List.append_nil base).symm⟩
      · rintro ⟨_ | ⟨s, l⟩, hl, rfl⟩ <;> cases hl
        rw [pathText, List.flatMap_nil, List.append_nil]
  | .list children, base, hwf => by
      refine (mem_collectChildren 0 children base hwf).trans ⟨?_, fun h => ?_⟩
      · rintro ⟨j, t, ht, hr⟩
        rw [Nat.zero_add] at hr
        exact referenceAt_step (s := .index j) ht hr
      · obtain ⟨s, t, ht, hr⟩ := h.exists_child fun a ha => by cases ha
        cases s with
        | index j => exact ⟨j, t, ht, by rwa [Nat.zero_add]⟩
        | field k => cases ht
  | .dict items, base, hwf => by
      refine (mem_collectItems items base hwf.2).trans ⟨?_, fun h => ?_⟩
      · rintro ⟨k, t, ht, hr⟩
        exact referenceAt_step ((Tree.child_field hwf.1).mpr ht) hr
      · obtain ⟨s, t, ht, hr⟩ := h.exists_child fun a ha => by cases ha
        cases s with
        | index j => cases ht
        | field k => exact ⟨k, t, (Tree.child_field hwf.1).mp ht, hr⟩

theorem mem_collectChildren {path : Text} {r : ρ} : ∀ (i : ℕ)
    (ts : List (Tree Text (AttributeValue β ρ))) (base : Text), Tree.childrenWellFormed ts →
    ((path, r) ∈ (collectChildren i ts base).2 ↔
      ∃ j t, ts[j]? = some t ∧ ReferenceAt t (base ++ stepText (.index (i + j))) path r)
  | _, [], _, _ => by simp [collectChildren]
  | i, t :: ts, base, hwf => by
      refine List.mem_append.trans ?_
      rw [mem_collectReferences t _ hwf.1, mem_collectChildren (i + 1) ts base hwf.2]
      constructor
      · rintro (h | ⟨j, t', ht', h⟩)
        · exact ⟨0, t, rfl, h⟩
        · rw [Nat.add_right_comm] at h
          exact ⟨j + 1, t', ht', h⟩
      · rintro ⟨_ | j, t', ht', h⟩
        · cases ht'
          exact .inl h
        · rw [← Nat.add_assoc, Nat.add_right_comm] at h
          exact .inr ⟨j, t', ht', h⟩

theorem mem_collectItems {path : Text} {r : ρ} : ∀ (items : List (Text × Tree Text
    (AttributeValue β ρ))) (base : Text), Tree.itemsWellFormed items →
    ((path, r) ∈ (collectItems items base).2 ↔
      ∃ k t, (k, t) ∈ items ∧ ReferenceAt t (base ++ stepText (.field k)) path r)
  | [], _, _ => by simp [collectItems]
  | (k, t) :: items, base, hwf => by
      refine List.mem_append.trans ?_
      rw [mem_collectReferences t _ hwf.1, mem_collectItems items base hwf.2]
      constructor
      · rintro (h | ⟨k', t', ht', h⟩)
        · exact ⟨k, t, List.mem_cons_self, h⟩
        · exact ⟨k', t', List.mem_cons_of_mem _ ht', h⟩
      · rintro ⟨k', t', ht', h⟩
        rcases List.mem_cons.mp ht' with heq | hmem
        · injection heq with hk ht
          subst hk ht
          exact .inl h
        · exact .inr ⟨k', t', hmem, h⟩

end

/-! ## Replacement -/

/-- Put the value of a reference where a path leads. Nothing is said of a path
that is no location. -/
def replace (J : JsonPath) (resolve : ρ → Tree Text (Option β)) (destination : Text) (r : ρ)
    (data : Tree Text (Option β)) : Option (Tree Text (Option β)) :=
  (J.parse destination).map (Tree.update (resolve r) data)

/-- What there is when the references at some locations have been replaced. -/
def AttributeValue.partlyDeployed (resolve : ρ → Tree Text (Option β)) (done : List (Location Text))
    (l : Location Text) (a : AttributeValue β ρ) : Tree Text (Option β) :=
  if l ∈ done then a.deploy resolve else a.exported

section Replacement

variable {J : JsonPath} {resolve : ρ → Tree Text (Option β)} {t : Tree Text (AttributeValue β ρ)}

theorem replace_partlyDeployed (hwf : t.WellFormed) {l : Location Text} {r : ρ}
    (hl : t.leafAt l = some (.reference r)) {destination : Text}
    (hp : J.parse destination = some l) (done : List (Location Text)) :
    replace J resolve destination r
        (t.graft (AttributeValue.partlyDeployed resolve done)) =
      some (t.graft (AttributeValue.partlyDeployed resolve (l :: done))) := by
  rw [replace, hp, Option.map_some, Tree.update_graft _ hwf hl]
  refine congrArg some (Tree.graft_congr t hwf fun l' a ha => ?_)
  by_cases h : l' = l
  · subst h
    obtain rfl : a = .reference r := Option.some.inj (ha.symm.trans hl)
    rw [if_pos rfl, AttributeValue.partlyDeployed, if_pos List.mem_cons_self]
    rfl
  · have hmem : l' ∈ l :: done ↔ l' ∈ done := by
      rw [List.mem_cons, or_iff_right h]
    rw [if_neg h, AttributeValue.partlyDeployed, AttributeValue.partlyDeployed]
    simp only [hmem]

/-- Replacements in any order: what has been replaced is what a path led to. -/
theorem replaceAll_partlyDeployed (hwf : t.WellFormed) (replacements : List (Text × ρ))
    (h : ∀ e ∈ replacements, ∃ l, J.parse e.1 = some l ∧ t.leafAt l = some (.reference e.2))
    (done : List (Location Text)) :
    ∃ done', replacements.foldlM (fun data e => replace J resolve e.1 e.2 data)
        (t.graft (AttributeValue.partlyDeployed resolve done)) =
          some (t.graft (AttributeValue.partlyDeployed resolve done')) ∧
      ∀ l, l ∈ done ∨ (∃ e ∈ replacements, J.parse e.1 = some l) → l ∈ done' := by
  induction replacements generalizing done with
  | nil =>
      refine ⟨done, rfl, fun l hl => ?_⟩
      rcases hl with hl | ⟨e, he, -⟩
      · exact hl
      · cases he
  | cons e es ih =>
      obtain ⟨l, hp, hl⟩ := h e List.mem_cons_self
      obtain ⟨done', hrun, hdone⟩ :=
        ih (fun e' he' => h e' (List.mem_cons_of_mem e he')) (l :: done)
      refine ⟨done', ?_, fun l' hl' => hdone l' ?_⟩
      · rw [List.foldlM_cons, replace_partlyDeployed hwf hl hp]
        exact hrun
      · rcases hl' with hl' | ⟨e', he', hp'⟩
        · exact .inl (List.mem_cons_of_mem l hl')
        · rcases List.mem_cons.mp he' with rfl | he'
          · obtain rfl : l = l' := Option.some.inj (hp.symm.trans hp')
            exact .inl List.mem_cons_self
          · exact .inr ⟨e', he', hp'⟩

/-- Replacements that are those of the references of a tree deploy it. -/
theorem replaceAll_eq (hwf : t.WellFormed) {destination : Location Text → Text}
    (hparse : ∀ l r, t.leafAt l = some (.reference r) → J.parse (destination l) = some l)
    {replacements : List (Text × ρ)}
    (h : ∀ path r, (path, r) ∈ replacements ↔
      ∃ l, t.leafAt l = some (.reference r) ∧ path = destination l) :
    replacements.foldlM (fun data e => replace J resolve e.1 e.2 data)
        (t.graft fun _ => AttributeValue.exported) =
      some (t.graft fun _ => AttributeValue.deploy resolve) := by
  have hreplacements : ∀ e ∈ replacements,
      ∃ l, J.parse e.1 = some l ∧ t.leafAt l = some (.reference e.2) := by
    intro e he
    obtain ⟨l, hl, hpath⟩ := (h e.1 e.2).mp he
    exact ⟨l, hpath ▸ hparse l e.2 hl, hl⟩
  obtain ⟨done, hrun, hdone⟩ := replaceAll_partlyDeployed hwf replacements hreplacements []
  have hstart : t.graft (AttributeValue.partlyDeployed resolve []) =
      t.graft fun _ => AttributeValue.exported :=
    Tree.graft_congr t hwf fun l a _ => if_neg List.not_mem_nil
  rw [← hstart, hrun]
  refine congrArg some (Tree.graft_congr t hwf fun l a ha => ?_)
  cases a with
  | value b => exact ite_self _
  | reference r =>
      exact if_pos (hdone l (.inr ⟨_, (h _ r).mpr ⟨l, ha, rfl⟩, hparse l r ha⟩))

/-! ### The converse -/

/-- What no path leads to is not replaced, if the values have no children. -/
theorem leafOrNone_replaceAll (hresolve : ∀ r s, (resolve r).child s = none)
    {replacements : List (Text × ρ)} {data data' : Tree Text (Option β)} {l : Location Text}
    (hl : ∀ e ∈ replacements, J.parse e.1 ≠ some l) (hdata : data.LeafOrNone l)
    (h : replacements.foldlM (fun data e => replace J resolve e.1 e.2 data) data = some data') :
    data'.LeafOrNone l := by
  induction replacements generalizing data with
  | nil =>
      cases h
      exact hdata
  | cons e es ih =>
      rw [List.foldlM_cons] at h
      obtain ⟨data₁, h₁, h₂⟩ := Option.bind_eq_some_iff.mp h
      obtain ⟨l', hl', rfl⟩ := Option.map_eq_some_iff.mp h₁
      refine ih (fun e' he' => hl e' (List.mem_cons_of_mem e he'))
        (hdata.update (hresolve e.2) ?_) h₂
      rintro rfl
      exact hl e List.mem_cons_self hl'

/-- Paths that are read as their location or as one before it only restore every
reference if each is read as its location. -/
theorem parsed_of_replaceAll {destination : Location Text → Text}
    {replacements : List (Text × ρ)}
    (hreplacements : ∀ path r, (path, r) ∈ replacements ↔
      ∃ l, t.leafAt l = some (.reference r) ∧ path = destination l)
    (h : replacements.foldlM (fun data e => replace J (fun _ => .list []) e.1 e.2 data)
        (t.graft fun _ => AttributeValue.exported) =
      some (t.graft fun _ => AttributeValue.deploy fun _ => .list []))
    {P : Location Text → Prop} (hparse : ∀ l, P l → J.parse (destination l) = some l)
    (hP : ∀ l r l', t.leafAt l = some (.reference r) → J.parse (destination l) = some l' →
      P l ∨ locationWeight l' < locationWeight l) :
    ∀ l r, t.leafAt l = some (.reference r) → P l := by
  classical
  by_contra hnot
  simp only [not_forall] at hnot
  obtain ⟨l₀, r₀, hl₀, hPl₀⟩ := hnot
  -- every reference is restored by one of the paths
  have hrestored : ∀ l r, t.leafAt l = some (.reference r) →
      ∃ e ∈ replacements, J.parse e.1 = some l := by
    intro l r hl
    by_contra hnone
    have hleaf := leafOrNone_replaceAll (β := β) (l := l) (fun r s => by cases s <;> rfl)
      (fun e he heq => hnone ⟨e, he, heq⟩) (fun u hu => ?_) h
    · obtain ⟨a, ha⟩ := hleaf _ (Tree.get_graft _ hl)
      cases ha
    · rw [Tree.get_graft _ hl] at hu
      injection hu with hu
      exact ⟨none, hu.symm⟩
  let bad := (replacements.filterMap fun e => J.parse e.1).toFinset.filter fun l =>
    (∃ r, t.leafAt l = some (.reference r)) ∧ ¬ P l
  have hbad : ∀ l r, t.leafAt l = some (.reference r) → ¬ P l → l ∈ bad := by
    intro l r hl hPl
    obtain ⟨e, he, hread⟩ := hrestored l r hl
    exact Finset.mem_filter.mpr
      ⟨List.mem_toFinset.mpr (List.mem_filterMap.mpr ⟨e, he, hread⟩), ⟨r, hl⟩, hPl⟩
  -- the last one that is not read as itself is restored by one that comes later
  obtain ⟨l, hl, hmax⟩ := bad.exists_max_image locationWeight ⟨l₀, hbad l₀ r₀ hl₀ hPl₀⟩
  obtain ⟨-, ⟨r, hlr⟩, hPl⟩ := Finset.mem_filter.mp hl
  obtain ⟨e, he, hread⟩ := hrestored l r hlr
  obtain ⟨l₁, hl₁, hpath⟩ := (hreplacements e.1 e.2).mp he
  rw [hpath] at hread
  by_cases hP₁ : P l₁
  · obtain rfl : l₁ = l := Option.some.inj ((hparse l₁ hP₁).symm.trans hread)
    exact hPl hP₁
  · have hlt := (hP l₁ e.2 l hl₁ hread).resolve_left hP₁
    exact absurd (hmax l₁ (hbad l₁ e.2 hl₁ hP₁)) (not_le_of_gt hlt)

end Replacement

/-! ## Resources -/

/-- The fields of a resource, with dictionaries in which no key is there twice. -/
structure ResourceFields (β ρ : Type) where
  fields : Dict Text (Tree Text (AttributeValue β ρ))
  wellFormed : ∀ e ∈ fields.items, e.2.WellFormed

structure ReplaceValue (ρ : Type) where
  value : ρ
  destination : Text
  deriving DecidableEq

def ReplaceValue.run (J : JsonPath) (resolve : ρ → Tree Text (Option β)) (m : ReplaceValue ρ)
    (data : Tree Text (Option β)) : Option (Tree Text (Option β)) :=
  replace J resolve m.destination m.value data

def runMutators (J : JsonPath) (resolve : ρ → Tree Text (Option β)) (ms : List (ReplaceValue ρ))
    (data : Tree Text (Option β)) : Option (Tree Text (Option β)) :=
  ms.foldlM (fun data m => m.run J resolve data) data

/-- What the mutators replace, with the path first. -/
def replacements (ms : List (ReplaceValue ρ)) : List (Text × ρ) :=
  ms.map fun m => (m.destination, m.value)

theorem runMutators_eq (J : JsonPath) (resolve : ρ → Tree Text (Option β))
    (ms : List (ReplaceValue ρ)) (data : Tree Text (Option β)) :
    runMutators J resolve ms data =
      (replacements ms).foldlM (fun data e => replace J resolve e.1 e.2 data) data := by
  rw [runMutators, replacements, List.foldlM_map]
  rfl

theorem mem_replacements {ms : List (ReplaceValue ρ)} {path : Text} {a : ρ} :
    (path, a) ∈ replacements ms ↔ ⟨a, path⟩ ∈ ms := by
  refine List.mem_map.trans ⟨?_, fun hm => ⟨_, hm, rfl⟩⟩
  rintro ⟨m, hm, heq⟩
  injection heq with hd hv
  subst hd hv
  exact hm

namespace ResourceFields

def tree (r : ResourceFields β ρ) : Tree Text (AttributeValue β ρ) := .dict r.fields.items

/-- The resource as it is exported. -/
def exported (r : ResourceFields β ρ) : Tree Text (Option β) :=
  .dict (r.fields.items.map fun e => (e.1, (collectReferences e.2 e.1).1))

def collected (r : ResourceFields β ρ) : List (Text × ρ) :=
  r.fields.items.flatMap fun e => (collectReferences e.2 e.1).2

/-- The mutators by their ids. -/
def mutators {ι : Type} [DecidableEq ι] (getId : ReplaceValue ρ → ι) (r : ResourceFields β ρ) :
    Dict ι (ReplaceValue ρ) :=
  Dict.ofList (r.collected.map fun c => (getId ⟨c.2, c.1⟩, ⟨c.2, c.1⟩))

def destination : Location Text → Text
  | .field name :: l => name ++ pathText l
  | _ => []

/-- A location that is written as a path which is read as that location. -/
def Findable : Location Text → Prop
  | .field name :: l => PlainName name ∧ ∀ key, .field key ∈ l → QuotedExactly key
  | _ => False

theorem parse_destination (J : JsonPath) {l : Location Text} (h : Findable l) :
    J.parse (destination l) = some l := by
  cases l with
  | nil => exact h.elim
  | cons s l =>
      cases s with
      | index i => exact h.elim
      | field name => exact parse_append J h.2 (J.name h.1)

theorem tree_wellFormed (r : ResourceFields β ρ) : r.tree.WellFormed :=
  ⟨r.fields.nodup, Tree.itemsWellFormed_iff.mpr r.wellFormed⟩

theorem exported_eq (r : ResourceFields β ρ) :
    r.exported = r.tree.graft fun _ => AttributeValue.exported := by
  rw [exported, tree, Tree.graft, Tree.graftItems_eq]
  simp only [collectReferences_fst]

theorem mem_collected (r : ResourceFields β ρ) {path : Text} {a : ρ} :
    (path, a) ∈ r.collected ↔
      ∃ l, r.tree.leafAt l = some (.reference a) ∧ path = destination l := by
  constructor
  · intro h
    obtain ⟨e, he, h⟩ := List.mem_flatMap.mp h
    obtain ⟨l, hl, hpath⟩ := (mem_collectReferences e.2 e.1 (r.wellFormed e he)).mp h
    exact ⟨.field e.1 :: l,
      Tree.leafAt_cons_eq_some_iff.mpr ⟨e.2, (Tree.child_field r.fields.nodup).mpr he, hl⟩, hpath⟩
  · rintro ⟨l, hl, rfl⟩
    cases l with
    | nil => cases hl
    | cons s l =>
        obtain ⟨c, hc, hl'⟩ := Tree.leafAt_cons_eq_some_iff.mp hl
        cases s with
        | index i => cases hc
        | field name =>
            have he := (Tree.child_field r.fields.nodup).mp hc
            exact List.mem_flatMap.mpr ⟨(name, c), he,
              (mem_collectReferences c name (r.wellFormed _ he)).mpr ⟨l, hl', rfl⟩⟩

variable {ι : Type} [DecidableEq ι] {getId : ReplaceValue ρ → ι}

theorem mem_mutators (hid : Function.Injective getId) (r : ResourceFields β ρ)
    {m : ReplaceValue ρ} :
    m ∈ (r.mutators getId).values ↔ (m.destination, m.value) ∈ r.collected := by
  rw [Dict.mem_values]
  constructor
  · rintro ⟨k, hk⟩
    obtain ⟨c, hc, heq⟩ := List.mem_map.mp (Dict.get?_ofList hk)
    injection heq with _ hm
    rw [← hm]
    exact hc
  · intro h
    have hmem : getId m ∈ r.mutators getId :=
      Dict.mem_ofList.mpr (List.mem_map.mpr ⟨(getId m, m), List.mem_map.mpr ⟨_, h, rfl⟩, rfl⟩)
    obtain ⟨m', hm'⟩ := Dict.mem_iff.mp hmem
    obtain ⟨c, hc, heq⟩ := List.mem_map.mp (Dict.get?_ofList hm')
    injection heq with hk hv
    rw [hv] at hk
    exact ⟨getId m, (hid hk) ▸ hm'⟩

/-- References are restored where they were. -/
structure Restored (J : JsonPath) (getId : ReplaceValue ρ → ι) (r : ResourceFields β ρ) : Prop where
  /-- Every reference is null in the export, and nothing else is changed. -/
  nulls : r.exported = r.tree.graft fun _ => AttributeValue.exported
  /-- There are mutators for the references, and no others. -/
  recorded : ∀ m, m ∈ (r.mutators getId).values ↔
    ∃ l, r.tree.leafAt l = some (.reference m.value) ∧ m.destination = destination l
  different : ∀ l l' a a', r.tree.leafAt l = some (.reference a) →
    r.tree.leafAt l' = some (.reference a') → destination l = destination l' → l = l'
  /-- Any order of the mutators gives the resource with the values in it. -/
  restored : ∀ (resolve : ρ → Tree Text (Option β)) (ms : List (ReplaceValue ρ)),
    ms.Perm (r.mutators getId).values →
    runMutators J resolve ms r.exported =
      some (r.tree.graft fun _ => AttributeValue.deploy resolve)

theorem restored_of_findable (J : JsonPath) (hid : Function.Injective getId)
    (r : ResourceFields β ρ)
    (h : ∀ l a, r.tree.leafAt l = some (.reference a) → Findable l) : r.Restored J getId where
  nulls := r.exported_eq
  recorded m := (mem_mutators hid r).trans r.mem_collected
  different l l' a a' hl hl' heq := by
    have hparse := parse_destination J (h l a hl)
    rw [heq, parse_destination J (h l' a' hl')] at hparse
    exact (Option.some.inj hparse).symm
  restored resolve ms hms := by
    rw [runMutators_eq, r.exported_eq]
    refine replaceAll_eq r.tree_wellFormed (fun l a hl => parse_destination J (h l a hl))
      fun path a => ?_
    rw [mem_replacements, hms.mem_iff, mem_mutators hid, r.mem_collected]

theorem parse_destination_cases (J : JsonPath) {l l' : Location Text} {name : Text}
    (hname : Identifier name) (h : J.parse (destination (.field name :: l)) = some l') :
    Findable (.field name :: l) ∨ locationWeight l' < locationWeight (.field name :: l) := by
  by_cases hreserved : name ∈ reservedWords
  · have hnone : J.parse (destination (.field name :: l)) = none := by
      refine J.reserved hreserved fun c hc => ?_
      cases l with
      | nil => cases hc
      | cons s l =>
          cases s with
          | index i =>
              cases hc
              rfl
          | field key =>
              cases hc
              rfl
    rw [hnone] at h
    cases h
  · have hplain : PlainName name := ⟨hname, hreserved⟩
    exact (parse_append_cases J (J.name hplain) h).imp_left fun hkeys => ⟨hplain, hkeys⟩

/-- For fields with plain names no other references are restored. -/
theorem findable_of_restored {J : JsonPath} (r : ResourceFields β ρ)
    (hnames : ∀ e ∈ r.fields.items, Identifier e.1) (h : r.Restored J getId) :
    ∀ l a, r.tree.leafAt l = some (.reference a) → Findable l := by
  have hrun := h.restored (fun _ => .list []) _ (List.Perm.refl _)
  rw [runMutators_eq, h.nulls] at hrun
  refine parsed_of_replaceAll (fun path a => mem_replacements.trans (h.recorded _)) hrun
    (fun l => parse_destination J) ?_
  intro l a l' hl hread
  cases l with
  | nil => cases hl
  | cons s l =>
      obtain ⟨c, hc, -⟩ := Tree.leafAt_cons_eq_some_iff.mp hl
      cases s with
      | index i => cases hc
      | field name =>
          have he := (Tree.child_field r.fields.nodup).mp hc
          exact parse_destination_cases J (hnames _ he) hread

end ResourceFields

/-! ## Arguments of references -/

/-- A json argument with references in it. They are looked up by their path. -/
structure MutatedJsonArgument (β ρ : Type) where
  value : Tree Text (Option β)
  references : Dict Text ρ

namespace MutatedJsonArgument

/-- The argument as it is stored. -/
def serialize (t : Tree Text (AttributeValue β ρ)) : MutatedJsonArgument β ρ :=
  let collected := collectReferences t ['$']
  ⟨collected.1, Dict.ofList collected.2⟩

/-- An earlier version wrote paths that start with a dot. -/
def rooted (destination : Text) : Text :=
  if destination.head? = some '.' then '$' :: destination else destination

def getArgValue (J : JsonPath) (resolve : ρ → Tree Text (Option β))
    (a : MutatedJsonArgument β ρ) : Option (Tree Text (Option β)) :=
  a.references.items.foldlM (fun data e => replace J resolve (rooted e.1) e.2 data) a.value

def destination (l : Location Text) : Text := '$' :: pathText l

/-- References are restored where they were in the argument, whatever the order
in which they are stored. -/
structure Restored (J : JsonPath) (t : Tree Text (AttributeValue β ρ)) : Prop where
  nulls : (serialize t).value = t.graft fun _ => AttributeValue.exported
  recorded : ∀ path a, (path, a) ∈ (serialize t).references.items ↔
    ∃ l, t.leafAt l = some (.reference a) ∧ path = destination l
  different : ∀ l l' a a', t.leafAt l = some (.reference a) →
    t.leafAt l' = some (.reference a') → destination l = destination l' → l = l'
  restored : ∀ (resolve : ρ → Tree Text (Option β)) (a : MutatedJsonArgument β ρ),
    a.value = (serialize t).value → a.references.items.Perm (serialize t).references.items →
    a.getArgValue J resolve = some (t.graft fun _ => AttributeValue.deploy resolve)

theorem parse_destination (J : JsonPath) {l : Location Text}
    (h : ∀ key, .field key ∈ l → QuotedExactly key) : J.parse (destination l) = some l :=
  parse_append J h J.root

theorem rooted_destination (l : Location Text) : rooted (destination l) = destination l :=
  if_neg fun h => by cases h

/-- The paths that are written now start at the root. -/
theorem getArgValue_eq (J : JsonPath) (resolve : ρ → Tree Text (Option β))
    {a : MutatedJsonArgument β ρ} (h : ∀ e ∈ a.references.items, ∃ l, e.1 = destination l) :
    a.getArgValue J resolve =
      a.references.items.foldlM (fun data e => replace J resolve e.1 e.2 data) a.value := by
  have hitems : a.references.items.map (fun e => (rooted e.1, e.2)) = a.references.items := by
    refine (List.map_congr_left fun e he => ?_).trans (List.map_id _)
    obtain ⟨l, hpath⟩ := h e he
    rw [hpath, rooted_destination, ← hpath]
    rfl
  calc a.getArgValue J resolve
      = (a.references.items.map fun e => (rooted e.1, e.2)).foldlM
          (fun data e => replace J resolve e.1 e.2 data) a.value := by
        rw [List.foldlM_map]
        rfl
    _ = _ := by rw [hitems]

theorem restored_of_quotedExactly (J : JsonPath) {t : Tree Text (AttributeValue β ρ)}
    (hwf : t.WellFormed) (h : ∀ l a, t.leafAt l = some (.reference a) →
      ∀ key, .field key ∈ l → QuotedExactly key) : Restored J t := by
  have hparse : ∀ l a, t.leafAt l = some (.reference a) → J.parse (destination l) = some l :=
    fun l a hl => parse_destination J (h l a hl)
  have hdifferent : ∀ l l' a a', t.leafAt l = some (.reference a) →
      t.leafAt l' = some (.reference a') → destination l = destination l' → l = l' := by
    intro l l' a a' hl hl' heq
    have hl'' := hparse l a hl
    rw [heq, hparse l' a' hl'] at hl''
    exact (Option.some.inj hl'').symm
  have hcollected : ∀ path a, (path, a) ∈ (collectReferences t ['$']).2 ↔
      ∃ l, t.leafAt l = some (.reference a) ∧ path = destination l :=
    fun path a => mem_collectReferences t ['$'] hwf
  have hrecorded : ∀ path a, (path, a) ∈ (serialize t).references.items ↔
      ∃ l, t.leafAt l = some (.reference a) ∧ path = destination l := by
    intro path a
    rw [← Dict.get?_eq_some_iff]
    constructor
    · exact fun hget => (hcollected path a).mp (Dict.get?_ofList hget)
    · rintro ⟨l, hl, rfl⟩
      have hmem : destination l ∈ (serialize t).references :=
        Dict.mem_ofList.mpr (List.mem_map.mpr ⟨_, (hcollected _ a).mpr ⟨l, hl, rfl⟩, rfl⟩)
      obtain ⟨a', ha'⟩ := Dict.mem_iff.mp hmem
      -- a later reference at the same path would be one at the same place
      obtain ⟨l', hl', heq⟩ := (hcollected _ a').mp (Dict.get?_ofList ha')
      obtain rfl := hdifferent l l' a a' hl hl' heq
      cases hl.symm.trans hl'
      exact ha'
  refine ⟨collectReferences_fst t _, hrecorded, hdifferent, fun resolve a hvalue hperm => ?_⟩
  have hpaths : ∀ e ∈ a.references.items, ∃ l, e.1 = destination l := by
    intro e he
    obtain ⟨l, -, hpath⟩ := (hrecorded e.1 e.2).mp (hperm.mem_iff.mp he)
    exact ⟨l, hpath⟩
  rw [getArgValue_eq J resolve hpaths, hvalue,
    show (serialize t).value = _ from collectReferences_fst t _]
  exact replaceAll_eq hwf hparse fun path a' => hperm.mem_iff.trans (hrecorded path a')

theorem quotedExactly_of_restored {J : JsonPath} {t : Tree Text (AttributeValue β ρ)}
    (h : Restored J t) : ∀ l a, t.leafAt l = some (.reference a) →
      ∀ key, .field key ∈ l → QuotedExactly key := by
  have hrun := h.restored (fun _ => .list []) _ rfl (List.Perm.refl _)
  have hpaths : ∀ e ∈ (serialize t).references.items, ∃ l, e.1 = destination l := by
    intro e he
    obtain ⟨l, -, hpath⟩ := (h.recorded e.1 e.2).mp he
    exact ⟨l, hpath⟩
  rw [getArgValue_eq J _ hpaths, h.nulls] at hrun
  exact parsed_of_replaceAll h.recorded hrun (fun l => parse_destination J)
    fun l a l' hl hread => parse_append_cases J J.root hread

end MutatedJsonArgument

/-! ## Main result -/

section References

open ResourceFields

/-- A field with a reference in a dictionary. -/
def secretField (name key : Text) : ResourceFields ℕ ℕ where
  fields := ⟨[(name, .dict [(key, .leaf (.reference 0))])], List.nodup_singleton name⟩
  wellFormed e he := by
    obtain rfl := List.mem_singleton.mp he
    exact ⟨List.nodup_singleton key, trivial, trivial⟩

theorem leafAt_secretField {name key : Text} {l : Location Text} {a : AttributeValue ℕ ℕ}
    (h : (secretField name key).tree.leafAt l = some a) : l = [.field name, .field key] := by
  obtain _ | ⟨s, l⟩ := l
  · cases h
  obtain ⟨c, hc, hl⟩ := Tree.leafAt_cons_eq_some_iff.mp h
  cases s with
  | index i => cases hc
  | field n =>
      have hn := List.mem_singleton.mp
        ((Tree.child_field (secretField name key).fields.nodup).mp hc)
      cases hn
      obtain _ | ⟨s, l⟩ := l
      · cases hl
      obtain ⟨d, hd, hl⟩ := Tree.leafAt_cons_eq_some_iff.mp hl
      cases s with
      | index i => cases hd
      | field k =>
          have hk := List.mem_singleton.mp
            ((Tree.child_field (by exact List.nodup_singleton key)).mp hd)
          cases hk
          obtain _ | ⟨s, l⟩ := l
          · rfl
          · cases hl

end References

end Inmanta
