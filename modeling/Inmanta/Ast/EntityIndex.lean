import Inmanta.Lib.Dict
import Inmanta.Lib.Loop
import Mathlib.Data.List.ReduceOption
import Mathlib.Data.List.Sort
import Mathlib.Logic.Function.Basic
import Mathlib.Logic.Relation

/-!
# The indexes of entities

An instance is entered in the indexes of its entity and of all parents, under a
text made of its index attributes. A lookup that finds nothing waits for an
instance to be entered, and a constructor looks for an instance before it makes
one.

In every run the indexes have exactly the instances that were made, each once, and
a lookup, whether it came before or after, has the instance with its text
(`lookups_exact`). Constructors that agree on the indexes give the same instance
(`constructed_once`).
-/

namespace Inmanta

namespace EntityIndex

variable {ε ν : Type}

inductive Failure where
  | typing
  | duplicate
  | attributeTwice
  | notFound
  | keyError
  | doubleSet
  | indexCollision
  | recursion
  deriving DecidableEq

/-- The entities `ε` as they are defined, and their values. -/
structure Entities (ε ν : Type) where
  parentEntities : ε → List ε
  /-- `get_indices` -/
  indices : ε → List (List String)
  /-- `add_index` adds an index to the children too. -/
  inherited : ∀ {e parent}, parent ∈ parentEntities e → indices parent ⊆ indices e
  /-- `add_index` sorts the attributes. -/
  sorted : ∀ {e index}, index ∈ indices e → index.Pairwise (· ≤ ·)
  isReference : ν → Bool
  repr : ν → String
  /-- `==` -/
  equal : ν → ν → Bool
  /-- The attribute exists, and its type is the type of the value. -/
  validate : ε → String → ν → Bool
  /-- `coerce` of `lookup_index`, by the type of the attribute. -/
  coerce : ε → String → ν → Except Failure ν
  /-- It turns integers into floats, and leaves floats as they are. -/
  coerce_valid : ∀ {e attr v v'}, validate e attr v = true → coerce e attr v = .ok v' → v' = v

/-- The slots are those of attributes with one value; an index has no others. -/
structure Instance (ε ν : Type) where
  type : ε
  /-- The slots that are ready. -/
  slots : Dict String ν

/-- The targets of lookups and the instances are numbered. -/
structure State (ε ν : Type) where
  instances : List (Instance ε ν)
  index : ε → Dict String ℕ
  indexQueue : ε → Dict String (List ℕ)
  value : ℕ → Option ℕ
  /-- What the lookups look for. -/
  lookups : List (ε × String)

def State.empty : State ε ν := ⟨[], fun _ => .empty, fun _ => .empty, fun _ => none, []⟩

/-- The key of an index from the texts of its attributes. -/
def keyText (parts : List (String × String)) : String :=
  ", ".intercalate (parts.map fun p => p.1 ++ "=" ++ p.2)

/-- `direct_attributes[attr]` -/
def param (attributes : Dict String ν) (attr : String) : Except Failure (String × ν) :=
  match attributes.get? attr with
  | none => .error .keyError
  | some v => .ok (attr, v)

namespace Entities

variable (E : Entities ε ν)

/-- `index_value_gate`, for an attribute that is ready. -/
def slotPart (slots : Dict String ν) (attr : String) : Except Failure (Option (String × String)) :=
  match slots.get? attr with
  | none => .ok none
  | some v => if E.isReference v then .error .typing else .ok (some (attr, E.repr v))

/-- The key of an instance in `add_to_index`, if it has all attributes of the index. -/
def instanceKey (slots : Dict String ν) (index : List String) : Except Failure (Option String) := do
  let parts ← index.mapM (E.slotPart slots)
  return (parts.mapM id).map keyText

def lookupPart (e : ε) (p : String × ν) : Except Failure (String × String) :=
  if E.isReference p.2 then .error .typing
  else do return (p.1, E.repr (← E.coerce e p.1 p.2))

/-- The key of `lookup_index`. -/
def lookupKey (e : ε) (params : List (String × ν)) : Except Failure String :=
  let attributes := params.map Prod.fst
  if ¬ attributes.Nodup then .error .attributeTwice
  else if ¬ ∃ index ∈ E.indices e, index ⊆ attributes ∧ attributes ⊆ index then .error .notFound
  else do
    let parts ← (params.insertionSort fun p q => p.1 ≤ q.1).mapM (E.lookupPart e)
    return keyText parts

/-- The key that a constructor looks for in an index. -/
def constructorKey (e : ε) (attributes : Dict String ν) (index : List String) :
    Except Failure String := do
  let params ← index.mapM (param attributes)
  E.lookupKey e params

/-- A slot keeps its value once it has one. -/
def setAttribute (e : ε) (slots : Dict String ν) (attr : String) (v : ν) :
    Except Failure (Dict String ν) :=
  match slots.get? attr with
  | some v' => if E.equal v' v then .ok slots else .error .doubleSet
  | none => if E.validate e attr v then .ok (slots.set attr v) else .error .typing

def setAttributes (e : ε) (attributes : Dict String ν) (slots : Dict String ν) :
    Except Failure (Dict String ν) :=
  attributes.items.foldlM (fun slots p => E.setAttribute e slots p.1 p.2) slots

end Entities

namespace State

variable [DecidableEq ε] (s : State ε ν)

/-- The lookups that wait for a key. -/
def queued (e : ε) (key : String) : List ℕ := (s.indexQueue e).getD key []

/-- An instance is entered under a key, and the lookups that wait for it get it. -/
def enter (e : ε) (i : ℕ) (key : String) : Except Failure (State ε ν) :=
  if ∃ j, (s.index e).get? key = some j ∧ j ≠ i then .error .duplicate
  else .ok { s with
    index := Function.update s.index e ((s.index e).set key i)
    value := fun t => if t ∈ s.queued e key then some i else s.value t
    indexQueue := Function.update s.indexQueue e ((s.indexQueue e).del key) }

/-- `lookup_index` with a target. -/
def lookup (e : ε) (key : String) : State ε ν :=
  let t := s.lookups.length
  match (s.index e).get? key with
  | some i => { s with
      lookups := s.lookups ++ [(e, key)]
      value := Function.update s.value t (some i) }
  | none => { s with
      lookups := s.lookups ++ [(e, key)]
      value := Function.update s.value t none
      indexQueue := Function.update s.indexQueue e
        ((s.indexQueue e).set key (s.queued e key ++ [t])) }

/-- What `final` reports: the lookups that have found nothing. -/
def final (e : ε) : List ℕ := (s.indexQueue e).values.flatten

end State

namespace Entities

variable [DecidableEq ε] (E : Entities ε ν)

def addToIndex (e : ε) (i : ℕ) (slots : Dict String ν) (s : State ε ν) :
    Except Failure (State ε ν) :=
  (E.indices e).foldlM (fun s index => do
    match ← E.instanceKey slots index with
    | none => return s
    | some key => s.enter e i key) s

def addInstance (i : ℕ) (slots : Dict String ν) :
    ℕ → ε → State ε ν → Except Failure (State ε ν)
  | 0, _, _ => .error .recursion
  | depth + 1, e, s => do
      let s ← E.addToIndex e i slots s
      (E.parentEntities e).foldlM (fun s parent => addInstance i slots depth parent s) s

/-- The instance that a constructor finds in one index. -/
def findInIndex (e : ε) (attributes : Dict String ν) (s : State ε ν) (index : List String) :
    Except Failure (Option ℕ) := do
  let key ← E.constructorKey e attributes index
  match (s.index e).get? key with
  | none => return none
  | some i =>
      if (s.instances[i]?.map Instance.type) = some e then return some i else throw .duplicate

/-- An attribute of an instance that exists is set, by whatever statement. -/
def setOn (i : ℕ) (attributes : Dict String ν) (s : State ε ν) : Except Failure (State ε ν) :=
  match s.instances[i]? with
  | none => .error .notFound
  | some x => do
      let slots ← E.setAttributes x.type attributes x.slots
      return { s with instances := s.instances.set i ⟨x.type, slots⟩ }

/-- The constructor of an entity, `Constructor._resolve`, with its direct attributes. -/
def construct (depth : ℕ) (e : ε) (attributes : Dict String ν) (s : State ε ν) :
    Except Failure (ℕ × State ε ν) := do
  let found ← (E.indices e).mapM (E.findInIndex e attributes s)
  match found.reduceOption with
  | first :: others =>
      if ∀ i ∈ others, i = first then return (first, ← E.setOn first attributes s)
      else throw .indexCollision
  | [] =>
      let i := s.instances.length
      let slots ← E.setAttributes e attributes .empty
      let s ← E.addInstance i slots depth e { s with instances := s.instances ++ [⟨e, slots⟩] }
      return (i, s)

end Entities

inductive Action (ε ν : Type) where
  | construct (e : ε) (attributes : Dict String ν)
  | setOn (i : ℕ) (attributes : Dict String ν)
  | lookup (e : ε) (params : List (String × ν))

def step [DecidableEq ε] (E : Entities ε ν) (depth : ℕ) (s : State ε ν) :
    Action ε ν → Except Failure (State ε ν)
  | .construct e attributes => do return (← E.construct depth e attributes s).2
  | .setOn i attributes => E.setOn i attributes s
  | .lookup e params => do return s.lookup e (← E.lookupKey e params)

def run [DecidableEq ε] (E : Entities ε ν) (depth : ℕ) (actions : List (Action ε ν)) :
    Except Failure (State ε ν) :=
  actions.foldlM (step E depth) .empty

/-! ## What the indexes have -/

/-- The entity is the type or one of the entities that it extends. -/
def Extends (E : Entities ε ν) (type e : ε) : Prop :=
  Relation.ReflTransGen (fun child parent => parent ∈ E.parentEntities child) type e

/-- The slots have the key for one of the indexes of the entity. -/
def Keyed (E : Entities ε ν) (slots : Dict String ν) (e : ε) (key : String) : Prop :=
  ∃ index ∈ E.indices e, E.instanceKey slots index = .ok (some key)

/-- The instance is one of the entity, and has the key. -/
def Has (E : Entities ε ν) (instances : List (Instance ε ν)) (e : ε) (i : ℕ)
    (key : String) : Prop :=
  ∃ x, instances[i]? = some x ∧ Extends E x.type e ∧ Keyed E x.slots e key

/-- The indexes have what the relation says, the lookups what the indexes have, and those that
wait are those that have found nothing. -/
structure Books (s : State ε ν) (R : ε → ℕ → String → Prop) : Prop where
  index : ∀ e i key, (s.index e).get? key = some i ↔ R e i key
  value : ∀ t e key, s.lookups[t]? = some (e, key) → s.value t = (s.index e).get? key
  queue : ∀ t e key, t ∈ s.queued e key ↔
    s.lookups[t]? = some (e, key) ∧ (s.index e).get? key = none

section Steps

variable [DecidableEq ε] {s s' : State ε ν} {R : ε → ℕ → String → Prop} {e : ε} {i : ℕ}
  {key : String}

theorem get?_update_set (index : ε → Dict String ℕ) (e' : ε) (key' : String) :
    (Function.update index e ((index e).set key i) e').get? key' =
      if e' = e ∧ key' = key then some i else (index e').get? key' := by
  by_cases he : e' = e
  · subst he
    rw [Function.update_self, Dict.get?_set]
    by_cases hk : key' = key
    · rw [if_pos hk, if_pos ⟨rfl, hk⟩]
    · rw [if_neg hk, if_neg fun h => hk h.2]
  · rw [Function.update_of_ne he, if_neg fun h => he h.1]

theorem getD_update (q : ε → Dict String (List ℕ)) (e : ε) {d : Dict String (List ℕ)}
    {waiting : List ℕ}
    (hd : ∀ key', d.getD key' [] = if key' = key then waiting else (q e).getD key' [])
    (e' : ε) (key' : String) :
    (Function.update q e d e').getD key' [] =
      if e' = e ∧ key' = key then waiting else (q e').getD key' [] := by
  by_cases he : e' = e
  · subst he
    rw [Function.update_self, hd]
    by_cases hk : key' = key
    · rw [if_pos hk, if_pos ⟨rfl, hk⟩]
    · rw [if_neg hk, if_neg fun h => hk h.2]
  · rw [Function.update_of_ne he, if_neg fun h => he h.1]

theorem getElem?_concat {α : Type} {l : List α} {a x : α} {t : ℕ} :
    (l ++ [a])[t]? = some x ↔ l[t]? = some x ∨ (t = l.length ∧ x = a) := by
  rcases Nat.lt_trichotomy t l.length with ht | ht | ht
  · rw [List.getElem?_append_left ht]
    exact ⟨.inl, fun h => h.resolve_right fun h => absurd h.1 (Nat.ne_of_lt ht)⟩
  · subst ht
    rw [List.getElem?_concat_length, List.getElem?_eq_none le_rfl]
    constructor
    · intro h
      exact .inr ⟨rfl, (Option.some.inj h).symm⟩
    · rintro (h | ⟨-, rfl⟩)
      · cases h
      · rfl
  · rw [List.getElem?_eq_none (by rw [List.length_append, List.length_singleton]; omega),
      List.getElem?_eq_none (Nat.le_of_lt ht)]
    constructor
    · intro h
      cases h
    · rintro (h | ⟨h, -⟩)
      · cases h
      · omega

theorem State.enter_lookups (hs : s.enter e i key = .ok s') :
    s'.lookups = s.lookups ∧ s'.instances = s.instances := by
  unfold State.enter at hs
  split at hs
  · cases hs
  obtain rfl := Except.ok.inj hs
  exact ⟨rfl, rfl⟩

/-- An instance is entered under a key: it is there now, and nothing else has changed. -/
theorem Books.enter (h : Books s R) (hs : s.enter e i key = .ok s') :
    Books s' fun e' i' key' => R e' i' key' ∨ (e' = e ∧ i' = i ∧ key' = key) := by
  unfold State.enter at hs
  split at hs
  · cases hs
  rename_i hfree
  obtain rfl := Except.ok.inj hs
  have hi : ∀ j, (s.index e).get? key = some j → j = i := fun j hj => by
    by_contra hne
    exact hfree ⟨j, hj, hne⟩
  refine ⟨fun e' i' key' => ?_, fun t e' key' ht => ?_, fun t e' key' => ?_⟩
  · rw [get?_update_set]
    split
    · rename_i heq
      obtain ⟨rfl, rfl⟩ := heq
      constructor
      · exact fun h' => .inr ⟨rfl, (Option.some.inj h').symm, rfl⟩
      · rintro (hR | ⟨-, rfl, -⟩)
        · rw [hi i' ((h.index _ _ _).mpr hR)]
        · rfl
    · rename_i hne
      rw [h.index]
      exact ⟨.inl, fun h' => h'.resolve_right fun h' => hne ⟨h'.1, h'.2.2⟩⟩
  · rw [get?_update_set]
    have hval := h.value t e' key' ht
    by_cases hq : t ∈ s.queued e key
    · obtain ⟨ht', -⟩ := (h.queue t e key).mp hq
      obtain ⟨rfl, rfl⟩ := Prod.mk.inj (Option.some.inj (ht.symm.trans ht'))
      rw [if_pos ⟨rfl, rfl⟩]
      exact if_pos hq
    · refine (if_neg hq).trans (hval.trans ?_)
      split
      · rename_i heq
        obtain ⟨rfl, rfl⟩ := heq
        rcases hget : (s.index e').get? key' with _ | j
        · exact absurd ((h.queue t e' key').mpr ⟨ht, hget⟩) hq
        · rw [hi j hget]
      · rfl
  · rw [get?_update_set]
    have hqueued := getD_update s.indexQueue e
      (fun key' => Dict.getD_del (s.indexQueue e) key key' []) e' key'
    rw [State.queued, hqueued]
    split
    · exact ⟨fun h' => absurd h' List.not_mem_nil, fun h' => by cases h'.2⟩
    · exact h.queue t e' key'

/-- A lookup finds what is there, or waits. -/
theorem Books.lookup (h : Books s R) : Books (s.lookup e key) R := by
  unfold State.lookup
  split
  · rename_i i hget
    refine ⟨h.index, fun t e' key' ht => ?_, fun t e' key' => ?_⟩
    · rcases getElem?_concat.mp ht with ht | ⟨rfl, heq⟩
      · have hlt := (List.getElem?_eq_some_iff.mp ht).1
        exact (Function.update_of_ne (Nat.ne_of_lt hlt) _ _).trans (h.value t e' key' ht)
      · obtain ⟨rfl, rfl⟩ := Prod.mk.inj heq
        exact (Function.update_self _ _ _).trans hget.symm
    · refine (h.queue t e' key').trans (and_congr_left fun hnone => ?_)
      refine ⟨fun ht => getElem?_concat.mpr (.inl ht), fun ht => ?_⟩
      refine (getElem?_concat.mp ht).resolve_right fun heq => ?_
      obtain ⟨rfl, rfl⟩ := Prod.mk.inj heq.2
      rw [hget] at hnone
      cases hnone
  · rename_i hnone
    refine ⟨h.index, fun t e' key' ht => ?_, fun t e' key' => ?_⟩
    · rcases getElem?_concat.mp ht with ht | ⟨rfl, heq⟩
      · have hlt := (List.getElem?_eq_some_iff.mp ht).1
        exact (Function.update_of_ne (Nat.ne_of_lt hlt) _ _).trans (h.value t e' key' ht)
      · obtain ⟨rfl, rfl⟩ := Prod.mk.inj heq
        exact (Function.update_self _ _ _).trans hnone.symm
    · have hqueued := getD_update s.indexQueue e
        (fun key' => Dict.getD_set (s.indexQueue e) key (s.queued e key ++ [s.lookups.length])
          key' []) e' key'
      rw [State.queued, hqueued, getElem?_concat]
      split
      · rename_i heq
        obtain ⟨rfl, rfl⟩ := heq
        rw [List.mem_append, List.mem_singleton, h.queue]
        constructor
        · rintro (⟨ht, -⟩ | ht)
          · exact ⟨.inl ht, hnone⟩
          · exact ⟨.inr ⟨ht, rfl⟩, hnone⟩
        · rintro ⟨ht | ht, -⟩
          · exact .inl ⟨ht, hnone⟩
          · exact .inr ht.1
      · rename_i hne
        refine (h.queue t e' key').trans ?_
        refine and_congr_left fun _ => ⟨.inl, fun ht => ht.resolve_right fun heq => ?_⟩
        exact hne (Prod.mk.inj heq.2)

end Steps

/-! ## What a step changes -/

section Entering

variable {E : Entities ε ν} {s s' : State ε ν} {R R' : ε → ℕ → String → Prop}
  {e : ε} {i : ℕ} {slots slots' : Dict String ν}

theorem Books.congr (h : Books s R) (hR : ∀ e i key, R e i key ↔ R' e i key) : Books s R' :=
  ⟨fun e i key => (h.index e i key).trans (hR e i key), h.value, h.queue⟩

/-- Only the indexes have changed, by these entries. -/
def Entered (s s' : State ε ν) (New : ε → ℕ → String → Prop) : Prop :=
  (∀ R, Books s R → Books s' fun e i key => R e i key ∨ New e i key) ∧
    s'.lookups = s.lookups ∧ s'.instances = s.instances

theorem Entered.refl {New : ε → ℕ → String → Prop} (hnone : ∀ e i key, ¬ New e i key) :
    Entered s s New :=
  ⟨fun _ h => h.congr fun e i key => ⟨.inl, fun h => h.resolve_right (hnone e i key)⟩, rfl, rfl⟩

theorem Entered.trans {s'' : State ε ν} {New New' New'' : ε → ℕ → String → Prop}
    (h : Entered s s' New) (h' : Entered s' s'' New')
    (hnew : ∀ e i key, New'' e i key ↔ New e i key ∨ New' e i key) : Entered s s'' New'' := by
  refine ⟨fun R hR => ?_, h'.2.1.trans h.2.1, h'.2.2.trans h.2.2⟩
  refine (h'.1 _ (h.1 R hR)).congr fun e i key => ?_
  rw [hnew, or_assoc]

theorem extends_iff {e e' : ε} :
    Extends E e e' ↔ e' = e ∨ ∃ parent ∈ E.parentEntities e, Extends E parent e' := by
  constructor
  · intro h
    rcases h.cases_head with h | ⟨parent, hparent, h⟩
    · exact .inl h.symm
    · exact .inr ⟨parent, hparent, h⟩
  · rintro (rfl | ⟨parent, hparent, h⟩)
    · exact .refl
    · exact .head hparent h

variable [DecidableEq ε]

theorem addToIndex_entered (hs : E.addToIndex e i slots s = .ok s') :
    Entered s s' fun e' i' key => e' = e ∧ i' = i ∧ Keyed E slots e key := by
  unfold Entities.addToIndex at hs
  refine foldlM_invariant (I := fun pre s' => Entered s s' fun e' i' key =>
    e' = e ∧ i' = i ∧ ∃ index ∈ pre, E.instanceKey slots index = .ok (some key))
    (fun pre index post s₁ s₂ _ h hstep => ?_) ?_ hs
  · obtain ⟨found, hkey, hstep⟩ := bind_eq_ok.mp hstep
    have hmem : ∀ key, (∃ index' ∈ pre ++ [index], E.instanceKey slots index' = .ok (some key)) ↔
        (∃ index' ∈ pre, E.instanceKey slots index' = .ok (some key)) ∨ found = some key := by
      intro key
      constructor
      · rintro ⟨index', hindex', hkey'⟩
        rcases List.mem_append.mp hindex' with hindex' | hindex'
        · exact .inl ⟨index', hindex', hkey'⟩
        · obtain rfl := List.mem_singleton.mp hindex'
          exact .inr (Except.ok.inj (hkey.symm.trans hkey'))
      · rintro (⟨index', hindex', hkey'⟩ | rfl)
        · exact ⟨index', List.mem_append_left _ hindex', hkey'⟩
        · exact ⟨index, List.mem_append_right _ (List.mem_singleton_self _), hkey⟩
    have hstep' : Entered s₁ s₂ fun e' i' key => e' = e ∧ i' = i ∧ found = some key := by
      cases found with
      | none =>
          obtain rfl := Except.ok.inj hstep
          exact .refl fun _ _ _ h => by cases h.2.2
      | some key =>
          refine ⟨fun R hR => (hR.enter hstep).congr fun e' i' key' => ?_,
            State.enter_lookups hstep⟩
          exact or_congr_right (and_congr_right fun _ => and_congr_right fun _ =>
            ⟨fun h => congrArg some h.symm, fun h => (Option.some.inj h).symm⟩)
    refine h.trans hstep' fun e' i' key => ?_
    rw [hmem, and_or_left, and_or_left]
  · exact .refl fun _ _ _ h => by
      obtain ⟨-, -, index, hmem, -⟩ := h
      cases hmem

/-- The instance is entered for the entity and for all that it extends. -/
theorem addInstance_entered {depth : ℕ} (hs : E.addInstance i slots depth e s = .ok s') :
    Entered s s' fun e' i' key => i' = i ∧ Extends E e e' ∧ Keyed E slots e' key := by
  induction depth generalizing e s s' with
  | zero => cases hs
  | succ depth ih =>
      obtain ⟨s₀, hown, hs⟩ := bind_eq_ok.mp hs
      have hparents : Entered s₀ s' fun e' i' key =>
          i' = i ∧ (∃ parent ∈ E.parentEntities e, Extends E parent e') ∧ Keyed E slots e' key := by
        refine foldlM_invariant (I := fun pre s' => Entered s₀ s' fun e' i' key =>
          i' = i ∧ (∃ parent ∈ pre, Extends E parent e') ∧ Keyed E slots e' key)
          (fun pre parent post s₁ s₂ _ h hstep => ?_) ?_ hs
        · refine h.trans (ih hstep) fun e' i' key => ?_
          rw [← and_or_left, ← or_and_right]
          simp only [List.mem_append, List.mem_singleton, or_and_right, exists_or, exists_eq_left]
        · exact .refl fun _ _ _ h => by
            obtain ⟨-, ⟨parent, hmem, -⟩, -⟩ := h
            cases hmem
      refine (addToIndex_entered hown).trans hparents fun e' i' key => ?_
      rw [extends_iff, or_and_right, and_or_left]
      refine or_congr_left ⟨?_, ?_⟩
      · rintro ⟨hi, rfl, hkey⟩
        exact ⟨rfl, hi, hkey⟩
      · rintro ⟨rfl, hi, hkey⟩
        exact ⟨hi, rfl, hkey⟩

end Entering

/-! ## Runs -/

section Runs

variable {E : Entities ε ν} {s s' : State ε ν} {e : ε} {i : ℕ} {slots slots' : Dict String ν}
  {attributes : Dict String ν}

/-- Slots that have values keep them. -/
def Keeps (slots slots' : Dict String ν) : Prop :=
  ∀ attr v, slots.get? attr = some v → slots'.get? attr = some v

theorem setAttribute_spec {attr : String} {v : ν}
    (h : E.setAttribute e slots attr v = .ok slots') : Keeps slots slots' ∧ attr ∈ slots' := by
  unfold Entities.setAttribute at h
  rcases hget : slots.get? attr with _ | v'
  · rw [hget] at h
    simp only at h
    split at h
    · obtain rfl := Except.ok.inj h
      refine ⟨fun attr' v' hv' => ?_, Dict.mem_set.mpr (.inl rfl)⟩
      rw [Dict.get?_set, if_neg, hv']
      rintro rfl
      rw [hget] at hv'
      cases hv'
    · cases h
  · rw [hget] at h
    simp only at h
    split at h
    · obtain rfl := Except.ok.inj h
      exact ⟨fun _ _ => id, Dict.mem_of_get? hget⟩
    · cases h

theorem setAttributes_spec (h : E.setAttributes e attributes slots = .ok slots') :
    Keeps slots slots' ∧ ∀ attr ∈ attributes, attr ∈ slots' := by
  have hall := foldlM_invariant (I := fun pre slots' =>
      Keeps slots slots' ∧ ∀ p ∈ pre, p.1 ∈ slots')
    (fun pre p post slots₁ slots₂ _ hI hstep => by
      obtain ⟨hkeeps, hmem⟩ := setAttribute_spec hstep
      refine ⟨fun attr v hv => hkeeps attr v (hI.1 attr v hv), fun q hq => ?_⟩
      rcases List.mem_append.mp hq with hq | hq
      · obtain ⟨v, hv⟩ := Dict.mem_iff.mp (hI.2 q hq)
        exact Dict.mem_of_get? (hkeeps q.1 v hv)
      · obtain rfl := List.mem_singleton.mp hq
        exact hmem)
    ⟨fun _ _ => id, fun p hp => absurd hp List.not_mem_nil⟩ h
  refine ⟨hall.1, fun attr hattr => ?_⟩
  obtain ⟨p, hp, rfl⟩ := List.mem_map.mp (Dict.mem_keys.mpr hattr)
  exact hall.2 p hp

theorem setAttribute_new {attr : String} {v : ν} (h : E.setAttribute e slots attr v = .ok slots')
    (hget : slots.get? attr = none) :
    slots' = slots.set attr v ∧ E.validate e attr v = true := by
  unfold Entities.setAttribute at h
  rw [hget] at h
  simp only at h
  split at h
  · rename_i hvalid
    exact ⟨(Except.ok.inj h).symm, hvalid⟩
  · cases h

/-- A new instance has the attributes that it is given, and they are valid. -/
theorem setAttributes_empty (h : E.setAttributes e attributes .empty = .ok slots) {attr : String}
    {v : ν} (hv : attributes.get? attr = some v) :
    slots.get? attr = some v ∧ E.validate e attr v = true := by
  have hall := foldlM_invariant (I := fun pre slots' =>
      (∀ attr ∈ slots', attr ∈ pre.map Prod.fst) ∧
        ∀ p ∈ pre, slots'.get? p.1 = some p.2 ∧ E.validate e p.1 p.2 = true)
    (fun pre p post slots₁ slots₂ hitems hI hstep => by
      have hnodup := attributes.nodup
      rw [hitems, List.map_append, List.map_cons] at hnodup
      have hnot : p.1 ∉ pre.map Prod.fst := fun hp =>
        (List.nodup_append.mp hnodup).2.2 _ hp _ (List.mem_cons_self ..) rfl
      have hfree := Dict.not_mem_iff.mp fun hp => hnot (hI.1 p.1 hp)
      obtain ⟨rfl, hvalid⟩ := setAttribute_new hstep hfree
      refine ⟨fun attr hattr => ?_, fun q hq => ?_⟩
      · rw [List.map_append]
        rcases Dict.mem_set.mp hattr with rfl | hattr
        · exact List.mem_append_right _ (List.mem_cons_self ..)
        · exact List.mem_append_left _ (hI.1 attr hattr)
      · rcases List.mem_append.mp hq with hq | hq
        · obtain ⟨hget, hq'⟩ := hI.2 q hq
          have hne : q.1 ≠ p.1 := fun heq => hnot (heq ▸ List.mem_map_of_mem hq)
          exact ⟨by rw [Dict.get?_set, if_neg hne, hget], hq'⟩
        · obtain rfl := List.mem_singleton.mp hq
          exact ⟨by rw [Dict.get?_set, if_pos rfl], hvalid⟩)
    ⟨fun attr hattr => absurd hattr (Dict.not_mem_empty attr),
      fun p hp => absurd hp List.not_mem_nil⟩ h
  exact hall.2 (attr, v) (Dict.get?_eq_some_iff.mp hv)

theorem mapM_congr {α β : Type} {f g : α → Except Failure β} {l : List α}
    (h : ∀ a ∈ l, f a = g a) : l.mapM f = l.mapM g := by
  induction l with
  | nil => rfl
  | cons a l ih =>
      rw [List.mapM_cons, List.mapM_cons, h a (List.mem_cons_self ..),
        ih fun b hb => h b (List.mem_cons_of_mem _ hb)]

theorem instanceKey_congr {index : List String}
    (h : ∀ attr ∈ index, slots'.get? attr = slots.get? attr) :
    E.instanceKey slots' index = E.instanceKey slots index := by
  unfold Entities.instanceKey
  have hpart : ∀ attr ∈ index, E.slotPart slots' attr = E.slotPart slots attr := by
    intro attr hattr
    unfold Entities.slotPart
    rw [h attr hattr]
  rw [mapM_congr hpart]

theorem constructorKey_congr {index : List String} {attributes' : Dict String ν}
    (h : ∀ attr ∈ index, attributes'.get? attr = attributes.get? attr) :
    E.constructorKey e attributes' index = E.constructorKey e attributes index := by
  unfold Entities.constructorKey
  have hparam : ∀ attr ∈ index, param attributes' attr = param attributes attr := by
    intro attr hattr
    unfold param
    rw [h attr hattr]
  rw [mapM_congr hparam]

theorem param_ok {attr : String} {p : String × ν} (h : param attributes attr = .ok p) :
    p.1 = attr ∧ attributes.get? attr = some p.2 := by
  unfold param at h
  split at h
  · cases h
  · rename_i hget
    obtain rfl := Except.ok.inj h
    exact ⟨rfl, hget⟩

theorem lookupPart_ok {p : String × ν} {part : String × String}
    (h : E.lookupPart e p = .ok part) (hvalid : E.validate e p.1 p.2 = true) :
    E.isReference p.2 = false ∧ part = (p.1, E.repr p.2) := by
  unfold Entities.lookupPart at h
  split at h
  · cases h
  · rename_i href
    obtain ⟨v, hv, h⟩ := bind_eq_ok.mp h
    obtain rfl := Except.ok.inj h
    exact ⟨Bool.eq_false_iff.mpr href, by rw [E.coerce_valid hvalid hv]⟩

theorem map_fst_params {index : List String} {params : List (String × ν)}
    (h : index.mapM (param attributes) = .ok params) : params.map Prod.fst = index := by
  induction index generalizing params with
  | nil =>
      obtain rfl := Except.ok.inj h
      rfl
  | cons attr index ih =>
      rw [List.mapM_cons] at h
      obtain ⟨p, hp, h⟩ := bind_eq_ok.mp h
      obtain ⟨ps, hps, h⟩ := bind_eq_ok.mp h
      obtain rfl := Except.ok.inj h
      rw [List.map_cons, (param_ok hp).1, ih hps]

/-- What a lookup makes of valid attributes is what an instance makes of them. -/
theorem slotParts_of_lookupParts {index : List String} {params : List (String × ν)}
    {parts : List (String × String)} (hparams : index.mapM (param attributes) = .ok params)
    (hparts : params.mapM (E.lookupPart e) = .ok parts)
    (hslots : ∀ attr ∈ index, ∀ v, attributes.get? attr = some v →
      slots.get? attr = some v ∧ E.validate e attr v = true) :
    index.mapM (E.slotPart slots) = .ok (parts.map some) := by
  induction index generalizing params parts with
  | nil =>
      obtain rfl := Except.ok.inj hparams
      obtain rfl := Except.ok.inj hparts
      rfl
  | cons attr index ih =>
      rw [List.mapM_cons] at hparams
      obtain ⟨p, hp, hparams⟩ := bind_eq_ok.mp hparams
      obtain ⟨ps, hps, hparams⟩ := bind_eq_ok.mp hparams
      obtain rfl := Except.ok.inj hparams
      rw [List.mapM_cons] at hparts
      obtain ⟨part, hpart, hparts⟩ := bind_eq_ok.mp hparts
      obtain ⟨parts', hparts', hparts⟩ := bind_eq_ok.mp hparts
      obtain rfl := Except.ok.inj hparts
      have hmap := ih hps hparts' fun a ha => hslots a (List.mem_cons_of_mem _ ha)
      obtain ⟨rfl, hget⟩ := param_ok hp
      obtain ⟨hslot, hvalid⟩ := hslots p.1 (List.mem_cons_self ..) p.2 hget
      obtain ⟨href, rfl⟩ := lookupPart_ok hpart hvalid
      have hhead : E.slotPart slots p.1 = .ok (some (p.1, E.repr p.2)) := by
        simp [Entities.slotPart, hslot, href]
      rw [List.mapM_cons, hhead, hmap]
      rfl

theorem mapM_id_some {α : Type} (l : List α) : (l.map some).mapM id = some l := by
  induction l with
  | nil => rfl
  | cons a l ih =>
      rw [List.map_cons, List.mapM_cons, ih]
      rfl

theorem instanceKey_of_constructorKey {index : List String} {key : String}
    (hindex : index ∈ E.indices e) (hkey : E.constructorKey e attributes index = .ok key)
    (hslots : ∀ attr ∈ index, ∀ v, attributes.get? attr = some v →
      slots.get? attr = some v ∧ E.validate e attr v = true) :
    E.instanceKey slots index = .ok (some key) := by
  obtain ⟨params, hparams, hkey⟩ := bind_eq_ok.mp hkey
  unfold Entities.lookupKey at hkey
  simp only at hkey
  split at hkey
  · cases hkey
  split at hkey
  · cases hkey
  obtain ⟨parts, hparts, hkey⟩ := bind_eq_ok.mp hkey
  obtain rfl := Except.ok.inj hkey
  have hsorted : params.Pairwise fun p q => p.1 ≤ q.1 := by
    rw [← List.pairwise_map (f := Prod.fst), map_fst_params hparams]
    exact E.sorted hindex
  rw [hsorted.insertionSort_eq] at hparts
  have hmap := slotParts_of_lookupParts hparams hparts hslots
  unfold Entities.instanceKey
  rw [hmap]
  exact congrArg Except.ok (congrArg (Option.map keyText) (mapM_id_some parts))

/-- An instance has all attributes of the indexes of its type. -/
def Complete (E : Entities ε ν) (x : Instance ε ν) : Prop :=
  ∀ index ∈ E.indices x.type, ∀ attr ∈ index, attr ∈ x.slots

theorem indices_extends {type : ε} (h : Extends E type e) : E.indices e ⊆ E.indices type := by
  induction h with
  | refl => exact fun _ => id
  | tail _ hparent ih => exact fun _ hindex => ih (E.inherited hparent hindex)

theorem keyed_keeps {x : Instance ε ν} {key : String} (hx : Complete E x)
    (hkeeps : Keeps x.slots slots') (hext : Extends E x.type e) :
    Keyed E slots' e key ↔ Keyed E x.slots e key := by
  refine exists_congr fun index => and_congr_right fun hindex => ?_
  rw [instanceKey_congr fun attr hattr => ?_]
  obtain ⟨v, hv⟩ := Dict.mem_iff.mp (hx index (indices_extends hext hindex) attr hattr)
  rw [hv, hkeeps attr v hv]

theorem has_set {instances : List (Instance ε ν)} {x : Instance ε ν}
    (hi : instances[i]? = some x) (hx : Complete E x) (hkeeps : Keeps x.slots slots')
    {e : ε} {j : ℕ} {key : String} :
    Has E (instances.set i ⟨x.type, slots'⟩) e j key ↔ Has E instances e j key := by
  unfold Has
  by_cases hij : i = j
  · subst hij
    rw [List.getElem?_set_self (List.getElem?_eq_some_iff.mp hi).1]
    constructor
    · rintro ⟨y, hy, hext, hkey⟩
      obtain rfl := Option.some.inj hy
      exact ⟨x, hi, hext, (keyed_keeps hx hkeeps hext).mp hkey⟩
    · rintro ⟨y, hy, hext, hkey⟩
      obtain rfl := Option.some.inj (hi.symm.trans hy)
      exact ⟨_, rfl, hext, (keyed_keeps hx hkeeps hext).mpr hkey⟩
  · rw [List.getElem?_set_ne hij]

theorem has_append {instances : List (Instance ε ν)} {x : Instance ε ν} {j : ℕ} {key : String} :
    Has E (instances ++ [x]) e j key ↔
      Has E instances e j key ∨
        (j = instances.length ∧ Extends E x.type e ∧ Keyed E x.slots e key) := by
  unfold Has
  constructor
  · rintro ⟨y, hy, h⟩
    rcases getElem?_concat.mp hy with hy | ⟨hj, rfl⟩
    · exact .inl ⟨y, hy, h⟩
    · exact .inr ⟨hj, h⟩
  · rintro (⟨y, hy, h⟩ | ⟨hj, h⟩)
    · exact ⟨y, getElem?_concat.mpr (.inl hy), h⟩
    · exact ⟨x, getElem?_concat.mpr (.inr ⟨hj, rfl⟩), h⟩

/-- The indexes have all instances, and the instances all that is in an index. -/
structure Inv (E : Entities ε ν) (s : State ε ν) : Prop where
  books : Books s (Has E s.instances)
  complete : ∀ (i : ℕ) (x : Instance ε ν), s.instances[i]? = some x → Complete E x

theorem inv_empty : Inv E .empty := by
  refine ⟨⟨fun e i key => ?_, fun t e key h => ?_, fun t e key => ?_⟩, fun i x hx => ?_⟩
  · constructor
    · intro h
      cases h
    · rintro ⟨x, hx, -⟩
      cases hx
  · cases h
  · constructor
    · intro h
      cases h
    · rintro ⟨h, -⟩
      cases h
  · cases hx

theorem Inv.setOn (h : Inv E s) (hs : E.setOn i attributes s = .ok s') :
    Inv E s' ∧ ∀ e j key, Has E s'.instances e j key ↔ Has E s.instances e j key := by
  unfold Entities.setOn at hs
  split at hs
  · cases hs
  rename_i x hx
  obtain ⟨slots, hslots, hs⟩ := bind_eq_ok.mp hs
  obtain rfl := Except.ok.inj hs
  obtain ⟨hkeeps, -⟩ := setAttributes_spec hslots
  have hcomplete := h.complete i x hx
  have hhas : ∀ e j key, Has E (s.instances.set i ⟨x.type, slots⟩) e j key ↔
      Has E s.instances e j key := fun e j key => has_set hx hcomplete hkeeps
  have hbooks := h.books.congr fun e j key => (hhas e j key).symm
  refine ⟨⟨⟨hbooks.index, hbooks.value, hbooks.queue⟩, fun j y hy => ?_⟩, hhas⟩
  by_cases hij : i = j
  · subst hij
    simp only [List.getElem?_set_self (List.getElem?_eq_some_iff.mp hx).1] at hy
    obtain rfl := Option.some.inj hy
    intro index hindex attr hattr
    obtain ⟨v, hv⟩ := Dict.mem_iff.mp (hcomplete index hindex attr hattr)
    exact Dict.mem_of_get? (hkeeps attr v hv)
  · simp only [List.getElem?_set_ne hij] at hy
    exact h.complete j y hy

theorem mem_of_constructorKey {index : List String} {key : String}
    (h : E.constructorKey e attributes index = .ok key) {attr : String} (hattr : attr ∈ index) :
    attr ∈ attributes := by
  obtain ⟨params, hparams, -⟩ := bind_eq_ok.mp h
  obtain ⟨p, -, hp⟩ := (mapM_ok hparams).1 attr hattr
  obtain ⟨-, hget⟩ := param_ok hp
  exact Dict.mem_of_get? hget

variable [DecidableEq ε]

theorem findInIndex_ok {index : List String} {found : Option ℕ}
    (h : E.findInIndex e attributes s index = .ok found) :
    ∃ key, E.constructorKey e attributes index = .ok key ∧ found = (s.index e).get? key := by
  obtain ⟨key, hkey, h⟩ := bind_eq_ok.mp h
  refine ⟨key, hkey, ?_⟩
  split at h
  · rename_i hnone
    rw [hnone]
    exact (Except.ok.inj h).symm
  · rename_i i hsome
    split at h
    · rw [hsome]
      exact (Except.ok.inj h).symm
    · cases h

/-- A constructor keeps what there is, and its instance has the keys that it looked for. -/
theorem Inv.construct {depth : ℕ} (h : Inv E s)
    (hs : E.construct depth e attributes s = .ok (i, s')) :
    Inv E s' ∧ (∀ e j key, Has E s.instances e j key → Has E s'.instances e j key) ∧
      (E.indices e ≠ [] → ∃ index ∈ E.indices e, ∃ key,
        E.constructorKey e attributes index = .ok key ∧ Has E s'.instances e i key) := by
  obtain ⟨found, hfound, hs⟩ := bind_eq_ok.mp hs
  split at hs
  · rename_i first others hfirst
    split at hs
    · obtain ⟨s₁, hset, hs⟩ := bind_eq_ok.mp hs
      obtain ⟨rfl, rfl⟩ := Prod.mk.inj (Except.ok.inj hs)
      obtain ⟨hinv, hhas⟩ := h.setOn hset
      refine ⟨hinv, fun e j key => (hhas e j key).mpr, fun _ => ?_⟩
      have hmem : some first ∈ found := List.reduceOption_mem_iff.mp (by simp [hfirst])
      obtain ⟨index, hindex, hfind⟩ := (mapM_ok hfound).2 _ hmem
      obtain ⟨key, hkey, hget⟩ := findInIndex_ok hfind
      exact ⟨index, hindex, key, hkey, (hhas _ _ _).mpr ((h.books.index _ _ _).mp hget.symm)⟩
    · cases hs
  · obtain ⟨slots, hslots, hs⟩ := bind_eq_ok.mp hs
    obtain ⟨s₁, hadd, hs⟩ := bind_eq_ok.mp hs
    obtain ⟨rfl, rfl⟩ := Prod.mk.inj (Except.ok.inj hs)
    obtain ⟨hbooks, -, hinstances⟩ := addInstance_entered hadd
    have hkeys : ∀ index ∈ E.indices e, ∃ key, E.constructorKey e attributes index = .ok key := by
      intro index hindex
      obtain ⟨_, -, hfind⟩ := (mapM_ok hfound).1 index hindex
      obtain ⟨key, hkey, -⟩ := findInIndex_ok hfind
      exact ⟨key, hkey⟩
    refine ⟨⟨?_, fun j y hy => ?_⟩, fun e' j key hhas => ?_, fun hindices => ?_⟩
    · rw [hinstances]
      exact (hbooks _ ⟨h.books.index, h.books.value, h.books.queue⟩).congr
        fun e' j key => (has_append (x := ⟨e, slots⟩)).symm
    · rw [hinstances] at hy
      rcases getElem?_concat.mp hy with hy | ⟨-, rfl⟩
      · exact h.complete j y hy
      · intro index hindex attr hattr
        obtain ⟨key, hkey⟩ := hkeys index hindex
        exact (setAttributes_spec hslots).2 attr (mem_of_constructorKey hkey hattr)
    · rw [hinstances]
      exact has_append.mpr (.inl hhas)
    · obtain ⟨index, hindex⟩ := List.exists_mem_of_ne_nil _ hindices
      obtain ⟨key, hkey⟩ := hkeys index hindex
      refine ⟨index, hindex, key, hkey, ?_⟩
      rw [hinstances]
      refine has_append.mpr (.inr ⟨rfl, .refl, index, hindex, ?_⟩)
      exact instanceKey_of_constructorKey hindex hkey fun _ _ _ => setAttributes_empty hslots

/-- A constructor gives the instance that has one of the keys that it looks for. -/
theorem construct_found {depth : ℕ} (h : Inv E s) {index : List String} {key : String} {j : ℕ}
    (hs : E.construct depth e attributes s = .ok (i, s')) (hindex : index ∈ E.indices e)
    (hkey : E.constructorKey e attributes index = .ok key) (hhas : Has E s.instances e j key) :
    i = j := by
  obtain ⟨found, hfound, hs⟩ := bind_eq_ok.mp hs
  obtain ⟨here, hhere, hfind⟩ := (mapM_ok hfound).1 index hindex
  obtain ⟨key', hkey', rfl⟩ := findInIndex_ok hfind
  obtain rfl := Except.ok.inj (hkey.symm.trans hkey')
  rw [(h.books.index e j key).mpr hhas] at hhere
  have hmem : j ∈ found.reduceOption := List.reduceOption_mem_iff.mpr hhere
  split at hs
  · rename_i first others hfirst
    split at hs
    · rename_i hsame
      obtain ⟨s₁, -, hs⟩ := bind_eq_ok.mp hs
      obtain ⟨rfl, -⟩ := Prod.mk.inj (Except.ok.inj hs)
      rw [hfirst] at hmem
      rcases List.mem_cons.mp hmem with hj | hj
      · exact hj.symm
      · exact (hsame j hj).symm
    · cases hs
  · rename_i hnil
    rw [hnil] at hmem
    cases hmem

theorem lookup_instances {key : String} : (s.lookup e key).instances = s.instances := by
  unfold State.lookup
  split <;> rfl

theorem Inv.step {depth : ℕ} {action : Action ε ν} (h : Inv E s)
    (hs : step E depth s action = .ok s') :
    Inv E s' ∧ ∀ e j key, Has E s.instances e j key → Has E s'.instances e j key := by
  cases action with
  | construct e attributes =>
      obtain ⟨⟨i, s₁⟩, hconstruct, hs⟩ := bind_eq_ok.mp hs
      obtain rfl := Except.ok.inj hs
      obtain ⟨hinv, hkeeps, -⟩ := h.construct hconstruct
      exact ⟨hinv, hkeeps⟩
  | setOn i attributes =>
      obtain ⟨hinv, hhas⟩ := h.setOn hs
      exact ⟨hinv, fun e j key => (hhas e j key).mpr⟩
  | lookup e params =>
      obtain ⟨key, -, hs⟩ := bind_eq_ok.mp hs
      obtain rfl := Except.ok.inj hs
      refine ⟨⟨?_, ?_⟩, ?_⟩
      · rw [lookup_instances]
        exact h.books.lookup
      · rw [lookup_instances]
        exact h.complete
      · intro e' j key' hhas
        rw [lookup_instances]
        exact hhas

theorem Inv.steps {depth : ℕ} {actions : List (Action ε ν)} (h : Inv E s)
    (hs : actions.foldlM (EntityIndex.step E depth) s = .ok s') :
    Inv E s' ∧ ∀ e j key, Has E s.instances e j key → Has E s'.instances e j key :=
  foldlM_invariant (I := fun _ s' => Inv E s' ∧
      ∀ e j key, Has E s.instances e j key → Has E s'.instances e j key)
    (fun _ _ _ _ _ _ hI hstep => by
      obtain ⟨hinv, hkeeps⟩ := hI.1.step hstep
      exact ⟨hinv, fun e j key hhas => hkeeps e j key (hI.2 e j key hhas)⟩)
    ⟨h, fun _ _ _ => id⟩ hs

end Runs

/-- After any constructors, lookups and assignments, in whatever order: an entity has at most one
instance with a key; a lookup has the instance with its key as its value, whichever came first;
and those that `final` reports are those for which there is none. -/
theorem lookups_exact [DecidableEq ε] {E : Entities ε ν} {depth : ℕ} {actions : List (Action ε ν)}
    {s : State ε ν} (hs : run E depth actions = .ok s) :
    (∀ e i j key, Has E s.instances e i key → Has E s.instances e j key → i = j) ∧
    (∀ t e key, s.lookups[t]? = some (e, key) →
      ∀ i, s.value t = some i ↔ Has E s.instances e i key) ∧
    (∀ t e, t ∈ s.final e ↔
      ∃ key, s.lookups[t]? = some (e, key) ∧ ∀ i, ¬ Has E s.instances e i key) := by
  have h := (inv_empty.steps hs).1.books
  refine ⟨fun e i j key hi hj => ?_, fun t e key ht i => ?_, fun t e => ?_⟩
  · have hi := (h.index e i key).mpr hi
    have hj := (h.index e j key).mpr hj
    exact Option.some.inj (hi.symm.trans hj)
  · rw [h.value t e key ht, h.index]
  · have hnone : ∀ key, (s.index e).get? key = none ↔ ∀ i, ¬ Has E s.instances e i key := by
      intro key
      rw [Option.eq_none_iff_forall_ne_some]
      exact forall_congr' fun i => not_congr (h.index e i key)
    rw [State.final, List.mem_flatten]
    constructor
    · rintro ⟨waiting, hwaiting, ht⟩
      obtain ⟨key, hkey⟩ := Dict.mem_values.mp hwaiting
      have hqueued : t ∈ s.queued e key := by
        rw [State.queued, Dict.getD_of_get? hkey]
        exact ht
      obtain ⟨hlookup, hget⟩ := (h.queue t e key).mp hqueued
      exact ⟨key, hlookup, (hnone key).mp hget⟩
    · rintro ⟨key, hlookup, hno⟩
      have hqueued := (h.queue t e key).mpr ⟨hlookup, (hnone key).mpr hno⟩
      rcases hkey : (s.indexQueue e).get? key with _ | waiting
      · rw [State.queued, Dict.getD_of_not_mem (Dict.not_mem_iff.mpr hkey)] at hqueued
        cases hqueued
      · rw [State.queued, Dict.getD_of_get? hkey] at hqueued
        exact ⟨waiting, Dict.mem_values.mpr ⟨key, hkey⟩, hqueued⟩

/-- A file has a path on a host; the entity it extends is found by the path alone. -/
def fileEntities : Entities Bool ℕ where
  parentEntities isFile := if isFile then [false] else []
  indices isFile := if isFile then [["path"], ["host", "path"]] else [["path"]]
  inherited := by
    intro e parent h
    cases e with
    | false => cases h
    | true =>
        obtain rfl := List.mem_singleton.mp h
        intro index hindex
        obtain rfl := List.mem_singleton.mp hindex
        exact List.mem_cons_self ..
  sorted := by
    intro e index h
    have hpath : ["path"].Pairwise (· ≤ ·) := List.pairwise_singleton _ _
    cases e with
    | false =>
        obtain rfl := List.mem_singleton.mp h
        exact hpath
    | true =>
        rcases List.mem_cons.mp h with rfl | h
        · exact hpath
        · obtain rfl := List.mem_singleton.mp h
          exact List.pairwise_pair.mpr (by decide)
  isReference _ := false
  repr n := toString n
  equal v w := v == w
  validate _ _ _ := true
  coerce _ _ v := .ok v
  coerce_valid := by
    intro e attr v v' _ h
    exact (Except.ok.inj h).symm

def fileAttributes : Dict String ℕ := Dict.ofList [("host", 7), ("path", 1)]

/-- One lookup comes first, one finds nothing, and the second constructor is of the same file. -/
def fileActions : List (Action Bool ℕ) :=
  [.lookup false [("path", 1)], .construct true fileAttributes, .lookup false [("path", 2)]]

theorem lookups_exact_fileActions : ∃ s, run fileEntities 2 fileActions = .ok s ∧
    s.value 0 = some 0 ∧ Has fileEntities s.instances false 0 "path=1" ∧
    ∀ i, ¬ Has fileEntities s.instances false i "path=2" := by
  obtain ⟨s, hs, hvalue, hfirst, hlast, hqueued⟩ : ∃ s, run fileEntities 2 fileActions = .ok s ∧
      s.value 0 = some 0 ∧ s.lookups[0]? = some (false, "path=1") ∧
      s.lookups[1]? = some (false, "path=2") ∧ s.value 1 = none :=
    ⟨_, rfl, rfl, rfl, rfl, rfl⟩
  obtain ⟨-, hlookups, -⟩ := lookups_exact hs
  refine ⟨s, hs, hvalue, (hlookups 0 false _ hfirst 0).mp hvalue, fun i hi => ?_⟩
  have hsome := (hlookups 1 false _ hlast i).mpr hi
  rw [hqueued] at hsome
  cases hsome

/-- Two constructors of an entity whose attributes agree on its indexes give the same instance,
whatever has run before them and in between. -/
theorem constructed_once [DecidableEq ε] {E : Entities ε ν} {depth : ℕ}
    {before between : List (Action ε ν)} {e : ε} {attributes attributes' : Dict String ν}
    {s₀ s₁ s₂ s₃ : State ε ν} {i j : ℕ} (hindices : E.indices e ≠ [])
    (hsame : ∀ index ∈ E.indices e, ∀ attr ∈ index,
      attributes'.get? attr = attributes.get? attr)
    (hbefore : run E depth before = .ok s₀)
    (hfirst : E.construct depth e attributes s₀ = .ok (i, s₁))
    (hbetween : between.foldlM (step E depth) s₁ = .ok s₂)
    (hsecond : E.construct depth e attributes' s₂ = .ok (j, s₃)) : j = i := by
  obtain ⟨hinv₁, -, hfound⟩ := (inv_empty.steps hbefore).1.construct hfirst
  obtain ⟨index, hindex, key, hkey, hhas⟩ := hfound hindices
  obtain ⟨hinv₂, hkeeps⟩ := hinv₁.steps hbetween
  rw [← constructorKey_congr (hsame index hindex)] at hkey
  exact construct_found hinv₂ hsecond hindex hkey (hkeeps e i key hhas)

theorem constructed_once_fileEntities : ∃ s₀ s₁ s₂ s₃ i j,
    run fileEntities 2 [.lookup false [("path", 1)]] = .ok s₀ ∧
    fileEntities.construct 2 true fileAttributes s₀ = .ok (i, s₁) ∧
    fileActions.foldlM (step fileEntities 2) s₁ = .ok s₂ ∧
    fileEntities.construct 2 true (fileAttributes.set "mode" 3) s₂ = .ok (j, s₃) ∧ j = i := by
  obtain ⟨s₀, s₁, s₂, s₃, i, j, h₀, h₁, h₂, h₃⟩ : ∃ s₀ s₁ s₂ s₃ i j,
      run fileEntities 2 [.lookup false [("path", 1)]] = .ok s₀ ∧
      fileEntities.construct 2 true fileAttributes s₀ = .ok (i, s₁) ∧
      fileActions.foldlM (step fileEntities 2) s₁ = .ok s₂ ∧
      fileEntities.construct 2 true (fileAttributes.set "mode" 3) s₂ = .ok (j, s₃) :=
    ⟨_, _, _, _, _, _, rfl, rfl, rfl, rfl⟩
  refine ⟨s₀, s₁, s₂, s₃, i, j, h₀, h₁, h₂, h₃, constructed_once ?_ ?_ h₀ h₁ h₂ h₃⟩
  · exact List.cons_ne_nil _ _
  · intro index hindex attr hattr
    rw [Dict.get?_set, if_neg]
    rintro rfl
    rcases List.mem_cons.mp hindex with rfl | hindex
    · revert hattr
      decide
    · obtain rfl := List.mem_singleton.mp hindex
      revert hattr
      decide

end EntityIndex

end Inmanta
