import Inmanta.Lib.Dict
import Mathlib.Data.List.Perm.Basic

/-!
# Normalising unions

`create_union` takes unions and nullable types apart, keeps every type once, and
puts a type and the references to it together again. `members` are the parts it
finds. In `collect_spec` every part of a type that is looked at is a part of a
smaller one that is still to come, or has been kept.

What is put together decides by the value alone whether it is a reference. So a
value that represents a reference, and that is accepted as a plain value, can be
lost (`createUnion_accepts_iff`). The types are kept in sets and dictionaries,
and some classes of types have no hash.
-/

namespace Inmanta

/-- The types that `create_union` tells apart. `B` has the others: primitives, lists, entities. -/
inductive DslType (B : Type) where
  | base (b : B)
  | null
  | nullable (t : DslType B)
  | reference (t : DslType B)
  | orReference (t : DslType B)
  | union (ts : List (DslType B))

/-- What the other types do. `modelSubtype` is whether a value represents a reference, and to a
subtype of a type. -/
structure TypeDomain (B V : Type) where
  hashable : B → Bool
  validate : B → V → Bool
  isNone : V → Bool
  isReference : V → Bool
  modelSubtype : V → DslType B → Bool

variable {B V : Type} {D : TypeDomain B V}

namespace DslType

mutual

def decEq [DecidableEq B] : (s t : DslType B) → Decidable (s = t)
  | .base a, t =>
      match t with
      | .base b => decidable_of_iff (a = b) ⟨congrArg _, DslType.base.inj⟩
      | .null | .nullable _ | .reference _ | .orReference _ | .union _ => isFalse nofun
  | .null, t =>
      match t with
      | .null => isTrue rfl
      | .base _ | .nullable _ | .reference _ | .orReference _ | .union _ => isFalse nofun
  | .nullable s, t =>
      match t with
      | .nullable t =>
          have := decEq s t
          decidable_of_iff (s = t) ⟨congrArg _, DslType.nullable.inj⟩
      | .base _ | .null | .reference _ | .orReference _ | .union _ => isFalse nofun
  | .reference s, t =>
      match t with
      | .reference t =>
          have := decEq s t
          decidable_of_iff (s = t) ⟨congrArg _, DslType.reference.inj⟩
      | .base _ | .null | .nullable _ | .orReference _ | .union _ => isFalse nofun
  | .orReference s, t =>
      match t with
      | .orReference t =>
          have := decEq s t
          decidable_of_iff (s = t) ⟨congrArg _, DslType.orReference.inj⟩
      | .base _ | .null | .nullable _ | .reference _ | .union _ => isFalse nofun
  | .union ss, t =>
      match t with
      | .union ts =>
          have := decEqList ss ts
          decidable_of_iff (ss = ts) ⟨congrArg _, DslType.union.inj⟩
      | .base _ | .null | .nullable _ | .reference _ | .orReference _ => isFalse nofun

def decEqList [DecidableEq B] : (ss ts : List (DslType B)) → Decidable (ss = ts)
  | [], [] => isTrue rfl
  | [], _ :: _ => isFalse nofun
  | _ :: _, [] => isFalse nofun
  | s :: ss, t :: ts =>
      have := decEq s t
      have := decEqList ss ts
      decidable_of_iff (s = t ∧ ss = ts) ⟨fun h => by rw [h.1, h.2], List.cons.inj⟩

end

instance [DecidableEq B] : DecidableEq (DslType B) := decEq

/-! ## Validation -/

mutual

/-- `validate` -/
def accepts (D : TypeDomain B V) : DslType B → V → Bool
  | base b, v => D.validate b v
  | null, v => D.isNone v
  | nullable t, v => D.isNone v || t.accepts D v
  | reference t, v => D.isReference v && D.modelSubtype v t
  | orReference t, v => if D.isReference v then D.modelSubtype v t else t.accepts D v
  | union ts, v => acceptsAny D ts v

def acceptsAny (D : TypeDomain B V) : List (DslType B) → V → Bool
  | [], _ => false
  | t :: ts, v => t.accepts D v || acceptsAny D ts v

end

mutual

/-- `hash` does not raise. It goes into the parts of a type. -/
def hashable (D : TypeDomain B V) : DslType B → Bool
  | base b => D.hashable b
  | null => true
  | nullable t => t.hashable D
  | reference t => t.hashable D
  | orReference t => t.hashable D
  | union ts => hashableAll D ts

def hashableAll (D : TypeDomain B V) : List (DslType B) → Bool
  | [] => true
  | t :: ts => t.hashable D && hashableAll D ts

end

mutual

def size : DslType B → ℕ
  | base _ => 1
  | null => 1
  | nullable t => t.size + 1
  | reference _ => 1
  | orReference _ => 1
  | union ts => sizeAll ts + 1

def sizeAll : List (DslType B) → ℕ
  | [] => 0
  | t :: ts => t.size + sizeAll ts

end

theorem size_pos (t : DslType B) : 0 < t.size := by
  cases t <;> simp [size]

theorem sizeAll_append (ss ts : List (DslType B)) :
    sizeAll (ss ++ ts) = sizeAll ss + sizeAll ts := by
  induction ss with
  | nil => simp [sizeAll]
  | cons s ss ih => rw [List.cons_append, sizeAll, sizeAll, ih, Nat.add_assoc]

theorem size_le_of_mem {t : DslType B} {ts : List (DslType B)} (h : t ∈ ts) :
    t.size ≤ sizeAll ts := by
  induction ts with
  | nil => cases h
  | cons s ts ih =>
      rw [sizeAll]
      obtain rfl | h := List.mem_cons.mp h
      · omega
      · have := ih h
        omega

end DslType

/-! ## Members -/

namespace DslType

mutual

/-- The parts of a type that are not taken apart any further. -/
def members : DslType B → List (DslType B)
  | base b => [base b]
  | null => [null]
  | nullable t => null :: t.members
  | reference t => [reference t]
  | orReference t => [orReference t]
  | union ts => membersAll ts

def membersAll : List (DslType B) → List (DslType B)
  | [] => []
  | t :: ts => t.members ++ membersAll ts

end

theorem mem_membersAll {ts : List (DslType B)} {m : DslType B} :
    m ∈ membersAll ts ↔ ∃ t ∈ ts, m ∈ t.members := by
  induction ts with
  | nil => simp [membersAll]
  | cons t ts ih => rw [membersAll, List.mem_append, ih, List.exists_mem_cons_iff]

theorem acceptsAny_iff {ts : List (DslType B)} {v : V} :
    acceptsAny D ts v = true ↔ ∃ t ∈ ts, t.accepts D v = true := by
  induction ts with
  | nil => simp [acceptsAny]
  | cons t ts ih => rw [acceptsAny, Bool.or_eq_true, ih, List.exists_mem_cons_iff]

mutual

/-- A type accepts what one of its members accepts. -/
theorem accepts_iff : ∀ (t : DslType B) (v : V),
    t.accepts D v = true ↔ ∃ m ∈ t.members, m.accepts D v = true
  | base b, v => by simp [members]
  | null, v => by simp [members]
  | nullable t, v => by
      rw [accepts, Bool.or_eq_true, members, List.exists_mem_cons_iff, accepts_iff t v, accepts]
  | reference t, v => by simp [members]
  | orReference t, v => by simp [members]
  | union ts, v => by
      rw [accepts, members]
      exact acceptsAny_iff_members ts v

theorem acceptsAny_iff_members : ∀ (ts : List (DslType B)) (v : V),
    acceptsAny D ts v = true ↔ ∃ m ∈ membersAll ts, m.accepts D v = true
  | [], v => by simp [acceptsAny, membersAll]
  | t :: ts, v => by
      rw [acceptsAny, Bool.or_eq_true, accepts_iff t v, acceptsAny_iff_members ts v, membersAll]
      simp only [List.mem_append, or_and_right, exists_or]

end

theorem hashableAll_iff {ts : List (DslType B)} :
    hashableAll D ts = true ↔ ∀ t ∈ ts, t.hashable D = true := by
  induction ts with
  | nil => simp [hashableAll]
  | cons t ts ih => rw [hashableAll, Bool.and_eq_true, ih, List.forall_mem_cons]

end DslType

open DslType

/-! ## The union -/

/-- `BaseOrRef` -/
structure BaseOrRef (B : Type) where
  hasBase : Option (DslType B)
  hasRef : Option (DslType B)

/-- `BaseOrRef.convert`. There is always one of the two. -/
def BaseOrRef.convert (x : BaseOrRef B) : Option (DslType B) :=
  match x.hasRef, x.hasBase with
  | some _, some t => some (.orReference t)
  | some ref, none => some ref
  | none, hasBase => hasBase

/-- Types and the references to them, by type, and whether null is accepted. -/
structure SortedTypes (B : Type) where
  types : Dict (DslType B) (BaseOrRef B)
  nullable : Bool

variable [DecidableEq B]

/-- `sorted_types[t]`, a `defaultdict` -/
def SortedTypes.get (s : SortedTypes B) (t : DslType B) : BaseOrRef B :=
  s.types.getD t ⟨none, none⟩

/-- The loop of `create_union`. There is no result where a type has no hash. -/
def collect (D : TypeDomain B V) (worklist seen : List (DslType B)) (s : SortedTypes B) :
    Option (SortedTypes B) :=
  match worklist with
  | [] => some s
  | current :: rest =>
      if current.hashable D = false then none
      else if current ∈ seen then collect D rest seen s
      else
        match current with
        | .union ts => collect D (rest ++ ts) (current :: seen) s
        | .nullable t => collect D (rest ++ [t]) (current :: seen) { s with nullable := true }
        | .null => collect D rest (current :: seen) { s with nullable := true }
        | .reference t => collect D rest (current :: seen)
            { s with types := s.types.set t { s.get t with hasRef := some current } }
        | .base _ => collect D rest (current :: seen)
            { s with types := s.types.set current { s.get current with hasBase := some current } }
        | .orReference _ => collect D rest (current :: seen)
            { s with types := s.types.set current { s.get current with hasBase := some current } }
termination_by sizeAll worklist
decreasing_by
  · have := current.size_pos
    rw [sizeAll]
    omega
  all_goals
    simp only [sizeAll_append, sizeAll, size]
    omega

def baseUnion : List (DslType B) → DslType B
  | [t] => t
  | bases => .union bases

def createUnion (D : TypeDomain B V) (types : List (DslType B)) : Option (DslType B) := do
  let s ← collect D types [] ⟨.empty, false⟩
  let bases ← s.types.values.mapM BaseOrRef.convert
  return if s.nullable then .nullable (baseUnion bases) else baseUnion bases

/-! ## What is kept -/

namespace SortedTypes

/-- A member is kept. -/
def Kept (s : SortedTypes B) : DslType B → Prop
  | .base b => (s.get (.base b)).hasBase = some (.base b)
  | .null => s.nullable = true
  | .nullable _ => False
  | .reference t => (s.get t).hasRef = some (.reference t)
  | .orReference t => (s.get (.orReference t)).hasBase = some (.orReference t)
  | .union _ => False

end SortedTypes

/-- A type that is not a reference, null or made of others. -/
def DslType.plain : DslType B → Bool
  | .base _ => true
  | .orReference _ => true
  | _ => false

/-- The types are stored under themselves, and the references under their types. -/
def SortedOk (s : SortedTypes B) : Prop :=
  ∀ t x, s.types.get? t = some x →
    (x.hasBase = none ∨ x.hasBase = some t ∧ t.plain = true)
      ∧ (x.hasRef = none ∨ x.hasRef = some (.reference t)) ∧ (x.hasBase ≠ none ∨ x.hasRef ≠ none)

section Kept

variable {s s' : SortedTypes B} {t m : DslType B}

theorem SortedTypes.get_eq (h : SortedOk s) (t : DslType B) :
    ((s.get t).hasBase = none ∨ (s.get t).hasBase = some t ∧ t.plain = true)
      ∧ ((s.get t).hasRef = none ∨ (s.get t).hasRef = some (.reference t)) := by
  rw [SortedTypes.get, Dict.getD]
  cases hx : s.types.get? t with
  | none => exact ⟨.inl rfl, .inl rfl⟩
  | some x => exact ⟨(h t x hx).1, (h t x hx).2.1⟩

theorem get_set (s : SortedTypes B) (t : DslType B) (x : BaseOrRef B) (t' : DslType B) :
    SortedTypes.get { s with types := s.types.set t x } t' = if t' = t then x else s.get t' :=
  Dict.getD_set ..

theorem sortedOk_set (h : SortedOk s) {x : BaseOrRef B}
    (hx : (x.hasBase = none ∨ x.hasBase = some t ∧ t.plain = true)
      ∧ (x.hasRef = none ∨ x.hasRef = some (.reference t))
      ∧ (x.hasBase ≠ none ∨ x.hasRef ≠ none)) :
    SortedOk { s with types := s.types.set t x } := by
  intro t' x' hx'
  rw [Dict.get?_set] at hx'
  split at hx'
  · next heq =>
      obtain rfl := Option.some.inj hx'
      rw [heq]
      exact hx
  · exact h t' x' hx'

theorem sortedOk_setBase (h : SortedOk s) (ht : t.plain = true) :
    SortedOk { s with types := s.types.set t { s.get t with hasBase := some t } } :=
  sortedOk_set h ⟨.inr ⟨rfl, ht⟩, (SortedTypes.get_eq h t).2, .inl fun h => by cases h⟩

theorem sortedOk_setRef (h : SortedOk s) :
    SortedOk { s with types := s.types.set t { s.get t with hasRef := some (.reference t) } } :=
  sortedOk_set h ⟨(SortedTypes.get_eq h t).1, .inr rfl, .inr fun h => by cases h⟩

theorem kept_setBase (ht : t.plain = true) (m : DslType B) :
    SortedTypes.Kept { s with types := s.types.set t { s.get t with hasBase := some t } } m
      ↔ s.Kept m ∨ m = t := by
  have hbase : ∀ m : DslType B, (SortedTypes.get
      { s with types := s.types.set t { s.get t with hasBase := some t } } m).hasBase = some m
        ↔ (s.get m).hasBase = some m ∨ m = t := by
    intro m
    rw [get_set]
    by_cases hm : m = t
    · simp [hm]
    · simp [hm]
  cases m with
  | base b => exact hbase _
  | orReference t' => exact hbase _
  | null =>
      refine (or_iff_left ?_).symm
      rintro rfl
      cases ht
  | nullable t' =>
      refine (or_iff_left ?_).symm
      rintro rfl
      cases ht
  | union ts =>
      refine (or_iff_left ?_).symm
      rintro rfl
      cases ht
  | reference t' =>
      have hne : .reference t' ≠ t := by
        rintro rfl
        cases ht
      rw [or_iff_left hne, SortedTypes.Kept, SortedTypes.Kept, get_set]
      by_cases ht' : t' = t
      · rw [if_pos ht', ht']
      · rw [if_neg ht']

theorem kept_setRef (m : DslType B) :
    SortedTypes.Kept
        { s with types := s.types.set t { s.get t with hasRef := some (.reference t) } } m
      ↔ s.Kept m ∨ m = .reference t := by
  have hbase : ∀ m : DslType B, (SortedTypes.get
      { s with types := s.types.set t { s.get t with hasRef := some (.reference t) } } m).hasBase
        = (s.get m).hasBase := by
    intro m
    rw [get_set]
    by_cases hm : m = t
    · rw [if_pos hm, hm]
    · rw [if_neg hm]
  cases m with
  | base b =>
      rw [or_iff_left (by simp), SortedTypes.Kept, SortedTypes.Kept, hbase]
  | orReference t' =>
      rw [or_iff_left (by simp), SortedTypes.Kept, SortedTypes.Kept, hbase]
  | null => exact (or_iff_left (by simp)).symm
  | nullable t' => exact (or_iff_left (by simp)).symm
  | union ts => exact (or_iff_left (by simp)).symm
  | reference t' =>
      rw [SortedTypes.Kept, SortedTypes.Kept, get_set]
      by_cases ht' : t' = t
      · simp [ht']
      · simp [ht']

theorem kept_setNullable (m : DslType B) :
    SortedTypes.Kept { s with nullable := true } m ↔ s.Kept m ∨ m = .null := by
  cases m with
  | null => exact iff_of_true rfl (.inr rfl)
  | base b => exact (or_iff_left (by simp)).symm
  | orReference t => exact (or_iff_left (by simp)).symm
  | nullable t => exact (or_iff_left (by simp)).symm
  | union ts => exact (or_iff_left (by simp)).symm
  | reference t => exact (or_iff_left (by simp)).symm

end Kept

/-! ## The loop -/

/-- Every member of the type is kept, or is one of a smaller type that is still to come. -/
def PartsSeen (worklist : List (DslType B)) (s : SortedTypes B) (t : DslType B) : Prop :=
  ∀ m ∈ t.members, s.Kept m ∨ ∃ p ∈ worklist, p.size < t.size ∧ m ∈ p.members

section Collect

variable {current t : DslType B} {rest seen parts worklist : List (DslType B)}
  {s s' : SortedTypes B}

/-- A type is taken apart, or kept. -/
theorem partsSeen_step (hseen : ∀ t ∈ seen, PartsSeen (current :: rest) s t)
    (hmono : ∀ m, s.Kept m → s'.Kept m)
    (hcurrent : ∀ m ∈ current.members, s'.Kept m ∨ ∃ p ∈ parts, m ∈ p.members)
    (hsize : ∀ p ∈ parts, p.size < current.size) :
    ∀ t ∈ current :: seen, PartsSeen (rest ++ parts) s' t := by
  have hself : PartsSeen (rest ++ parts) s' current := fun m hm => by
    obtain h | ⟨p, hp, hmp⟩ := hcurrent m hm
    · exact .inl h
    · exact .inr ⟨p, List.mem_append_right _ hp, hsize p hp, hmp⟩
  intro t ht
  obtain rfl | ht := List.mem_cons.mp ht
  · exact hself
  · intro m hm
    obtain h | ⟨p, hp, hsize', hmp⟩ := hseen t ht m hm
    · exact .inl (hmono m h)
    · obtain rfl | hp := List.mem_cons.mp hp
      · obtain h | ⟨q, hq, hsize'', hmq⟩ := hself m hmp
        · exact .inl h
        · exact .inr ⟨q, hq, Nat.lt_trans hsize'' hsize', hmq⟩
      · exact .inr ⟨p, List.mem_append_left _ hp, hsize', hmp⟩

/-- A type that has been seen is left out. -/
theorem partsSeen_skip (hseen : ∀ t ∈ seen, PartsSeen (current :: rest) s t)
    (hcurrent : current ∈ seen) :
    ∀ t ∈ seen, PartsSeen rest s t := by
  have hself : PartsSeen rest s current := fun m hm => by
    obtain h | ⟨p, hp, hsize, hmp⟩ := hseen current hcurrent m hm
    · exact .inl h
    · obtain rfl | hp := List.mem_cons.mp hp
      · omega
      · exact .inr ⟨p, hp, hsize, hmp⟩
  intro t ht m hm
  obtain h | ⟨p, hp, hsize, hmp⟩ := hseen t ht m hm
  · exact .inl h
  · obtain rfl | hp := List.mem_cons.mp hp
    · obtain h | ⟨q, hq, hsize', hmq⟩ := hself m hmp
      · exact .inl h
      · exact .inr ⟨q, hq, Nat.lt_trans hsize' hsize, hmq⟩
    · exact .inr ⟨p, hp, hsize, hmp⟩

/-- The members that the loop adds to those that are kept. -/
theorem members_step (hcurrent : ∀ m, (s'.Kept m ∨ ∃ p ∈ parts, m ∈ p.members)
      ↔ s.Kept m ∨ m ∈ current.members) (m : DslType B) :
    (s'.Kept m ∨ ∃ t ∈ rest ++ parts, m ∈ t.members)
      ↔ s.Kept m ∨ ∃ t ∈ current :: rest, m ∈ t.members := by
  have hsplit : (∃ t ∈ rest ++ parts, m ∈ t.members)
      ↔ (∃ t ∈ parts, m ∈ t.members) ∨ ∃ t ∈ rest, m ∈ t.members := by
    simp only [List.mem_append, or_and_right, exists_or]
    exact or_comm
  rw [hsplit, List.exists_mem_cons_iff, ← or_assoc, hcurrent m, or_assoc]

/-- A type that is not taken apart is kept. -/
theorem leaf_step (hseen : ∀ t ∈ seen, PartsSeen (current :: rest) s t)
    (hmembers : current.members = [current])
    (hkept : ∀ m, s'.Kept m ↔ s.Kept m ∨ m = current) :
    (∀ t ∈ current :: seen, PartsSeen rest s' t)
      ∧ ∀ m, (s'.Kept m ∨ ∃ t ∈ rest, m ∈ t.members)
        ↔ s.Kept m ∨ ∃ t ∈ current :: rest, m ∈ t.members := by
  have hcurrent : ∀ m, (s'.Kept m ∨ ∃ p ∈ ([] : List (DslType B)), m ∈ p.members)
      ↔ s.Kept m ∨ m ∈ current.members := fun m => by
    rw [hmembers, List.mem_singleton, hkept m]
    simp
  have hparts := partsSeen_step hseen (fun m hm => (hkept m).mpr (.inl hm))
    (fun m hm => (hcurrent m).mpr (.inr hm)) fun p hp => absurd hp List.not_mem_nil
  have hstep := @members_step B _ current rest [] s s' hcurrent
  rw [List.append_nil] at hparts hstep
  exact ⟨hparts, hstep⟩

/-- **The loop keeps the members of the types.** -/
theorem collect_spec (h : collect D worklist seen s = some s') (hs : SortedOk s)
    (hseen : ∀ t ∈ seen, PartsSeen worklist s t) :
    SortedOk s' ∧ ∀ m, s'.Kept m ↔ s.Kept m ∨ ∃ t ∈ worklist, m ∈ t.members := by
  induction worklist, seen, s using collect.induct D with
  | case1 seen s =>
      unfold collect at h
      obtain rfl := Option.some.inj h
      exact ⟨hs, fun m => by simp⟩
  | case2 seen s current rest hhash =>
      unfold collect at h
      simp only [if_pos hhash] at h
      cases h
  | case3 seen s current rest hhash hmem ih =>
      unfold collect at h
      simp only [if_neg hhash, if_pos hmem] at h
      obtain ⟨hok, hiff⟩ := ih h hs (partsSeen_skip hseen hmem)
      refine ⟨hok, fun m => ?_⟩
      rw [hiff m, List.exists_mem_cons_iff]
      refine or_congr_right' fun hkept => (or_iff_right_of_imp fun hm => ?_).symm
      obtain hm' | ⟨p, hp, hsize, hmp⟩ := hseen current hmem m hm
      · exact absurd hm' hkept
      · obtain rfl | hp := List.mem_cons.mp hp
        · omega
        · exact ⟨p, hp, hmp⟩
  | case4 seen s rest ts hhash hmem ih =>
      rw [collect, if_neg hhash, if_neg hmem] at h
      have hmembers : ∀ m, (s.Kept m ∨ ∃ p ∈ ts, m ∈ p.members)
          ↔ s.Kept m ∨ m ∈ (DslType.union ts).members := fun m => by
        rw [members, mem_membersAll]
      obtain ⟨hok, hiff⟩ := ih h hs (partsSeen_step hseen (fun _ h => h)
        (fun m hm => (hmembers m).mpr (.inr hm)) fun p hp => by
          have := size_le_of_mem hp
          rw [size]
          omega)
      exact ⟨hok, fun m => (hiff m).trans (members_step hmembers m)⟩
  | case5 seen s rest t hhash hmem ih =>
      rw [collect, if_neg hhash, if_neg hmem] at h
      have hmembers : ∀ m, (SortedTypes.Kept { s with nullable := true } m
          ∨ ∃ p ∈ [t], m ∈ p.members) ↔ s.Kept m ∨ m ∈ (DslType.nullable t).members := fun m => by
        rw [kept_setNullable, members, List.mem_cons, List.exists_mem_cons_iff]
        simp [or_assoc]
      obtain ⟨hok, hiff⟩ := ih h hs (partsSeen_step hseen
        (fun m hm => (kept_setNullable m).mpr (.inl hm))
        (fun m hm => (hmembers m).mpr (.inr hm)) fun p hp => by
          rw [List.mem_singleton.mp hp, size]
          omega)
      exact ⟨hok, fun m => (hiff m).trans (members_step hmembers m)⟩
  | case6 seen s rest hhash hmem ih =>
      rw [collect, if_neg hhash, if_neg hmem] at h
      obtain ⟨hparts, hleaf⟩ := leaf_step hseen rfl kept_setNullable
      obtain ⟨hok, hiff⟩ := ih h hs hparts
      exact ⟨hok, fun m => (hiff m).trans (hleaf m)⟩
  | case7 seen s rest t hhash hmem ih =>
      rw [collect, if_neg hhash, if_neg hmem] at h
      obtain ⟨hparts, hleaf⟩ := leaf_step hseen rfl kept_setRef
      obtain ⟨hok, hiff⟩ := ih h (sortedOk_setRef hs) hparts
      exact ⟨hok, fun m => (hiff m).trans (hleaf m)⟩
  | case8 seen s rest b hhash hmem ih =>
      rw [collect, if_neg hhash, if_neg hmem] at h
      obtain ⟨hparts, hleaf⟩ := leaf_step hseen rfl (kept_setBase rfl)
      obtain ⟨hok, hiff⟩ := ih h (sortedOk_setBase hs rfl) hparts
      exact ⟨hok, fun m => (hiff m).trans (hleaf m)⟩
  | case9 seen s rest t hhash hmem ih =>
      rw [collect, if_neg hhash, if_neg hmem] at h
      obtain ⟨hparts, hleaf⟩ := leaf_step hseen rfl (kept_setBase rfl)
      obtain ⟨hok, hiff⟩ := ih h (sortedOk_setBase hs rfl) hparts
      exact ⟨hok, fun m => (hiff m).trans (hleaf m)⟩

/-- The loop fails at a type without a hash. -/
theorem collect_isSome_iff : (collect D worklist seen s).isSome = true
    ↔ ∀ t ∈ worklist, t.hashable D = true := by
  induction worklist, seen, s using collect.induct D with
  | case1 seen s =>
      unfold collect
      simp
  | case2 seen s current rest hhash =>
      unfold collect
      simp [hhash]
  | case3 seen s current rest hhash hmem ih =>
      unfold collect
      simp only [if_neg hhash, if_pos hmem, ih, List.forall_mem_cons]
      exact (and_iff_right (Bool.of_not_eq_false hhash)).symm
  | case4 seen s rest ts hhash hmem ih =>
      rw [collect, if_neg hhash, if_neg hmem, ih, List.forall_mem_cons, List.forall_mem_append,
        and_comm, hashable, hashableAll_iff]
  | case5 seen s rest t hhash hmem ih =>
      rw [collect, if_neg hhash, if_neg hmem, ih, List.forall_mem_cons, List.forall_mem_append,
        and_comm, hashable, List.forall_mem_singleton]
  | case6 seen s rest hhash hmem ih =>
      rw [collect, if_neg hhash, if_neg hmem, ih, List.forall_mem_cons]
      exact (and_iff_right (Bool.of_not_eq_false hhash)).symm
  | case7 seen s rest t hhash hmem ih =>
      rw [collect, if_neg hhash, if_neg hmem, ih, List.forall_mem_cons]
      exact (and_iff_right (Bool.of_not_eq_false hhash)).symm
  | case8 seen s rest b hhash hmem ih =>
      rw [collect, if_neg hhash, if_neg hmem, ih, List.forall_mem_cons]
      exact (and_iff_right (Bool.of_not_eq_false hhash)).symm
  | case9 seen s rest t hhash hmem ih =>
      rw [collect, if_neg hhash, if_neg hmem, ih, List.forall_mem_cons]
      exact (and_iff_right (Bool.of_not_eq_false hhash)).symm

end Collect

/-! ## What a union accepts -/

section Union

variable {s : SortedTypes B} {ts : List (DslType B)} {u t m : DslType B} {v : V}

/-- A value that represents a reference, for a type that is put together with the references to
it. -/
def Lost (D : TypeDomain B V) (ts : List (DslType B)) (m : DslType B) (v : V) : Prop :=
  m.plain = true ∧ D.isReference v = true ∧ .reference m ∈ membersAll ts

/-- What an entry accepts. -/
def EntryAccepts (D : TypeDomain B V) (x : BaseOrRef B) (v : V) : Prop :=
  (∃ r, x.hasRef = some r ∧ r.accepts D v = true)
    ∨ ∃ t, x.hasBase = some t ∧ t.accepts D v = true
      ∧ (D.isReference v = true → x.hasRef = none)

omit [DecidableEq B] in
theorem convert_accepts {x : BaseOrRef B}
    (hbase : x.hasBase = none ∨ x.hasBase = some t ∧ t.plain = true)
    (href : x.hasRef = none ∨ x.hasRef = some (.reference t))
    (hne : x.hasBase ≠ none ∨ x.hasRef ≠ none) :
    ∃ u, x.convert = some u ∧ ∀ v, u.accepts D v = true ↔ EntryAccepts D x v := by
  obtain ⟨base, ref⟩ := x
  simp only at hbase href hne
  obtain rfl | ⟨rfl, -⟩ := hbase
  · obtain rfl | rfl := href
    · exact absurd hne (by simp)
    · exact ⟨_, rfl, fun v => by simp [EntryAccepts]⟩
  · obtain rfl | rfl := href
    · exact ⟨_, rfl, fun v => by simp [EntryAccepts]⟩
    · refine ⟨_, rfl, fun v => ?_⟩
      cases hv : D.isReference v with
      | true => simp [EntryAccepts, accepts, hv]
      | false => simp [EntryAccepts, accepts, hv]

omit [DecidableEq B] in
theorem baseUnion_accepts {bases : List (DslType B)} :
    (baseUnion bases).accepts D v = true ↔ ∃ u ∈ bases, u.accepts D v = true := by
  unfold baseUnion
  split
  · next t => simp
  · rw [accepts, acceptsAny_iff]

omit [DecidableEq B] in
theorem mapM_convert {l : List (BaseOrRef B)} (h : ∀ x ∈ l, ∃ u, x.convert = some u
      ∧ ∀ v, u.accepts D v = true ↔ EntryAccepts D x v) :
    ∃ bases, l.mapM BaseOrRef.convert = some bases
      ∧ ∀ v, (∃ u ∈ bases, u.accepts D v = true) ↔ ∃ x ∈ l, EntryAccepts D x v := by
  induction l with
  | nil => exact ⟨[], rfl, fun v => by simp⟩
  | cons x l ih =>
      obtain ⟨u, hu, haccepts⟩ := h x (List.mem_cons_self ..)
      obtain ⟨bases, hbases, hiff⟩ := ih fun y hy => h y (List.mem_cons_of_mem _ hy)
      refine ⟨u :: bases, ?_, fun v => ?_⟩
      · simp only [List.mapM_cons, hu, hbases]
        rfl
      · rw [List.exists_mem_cons_iff, List.exists_mem_cons_iff, haccepts, hiff]

theorem kept_iff_of_plain (h : m.plain = true) : s.Kept m ↔ (s.get m).hasBase = some m := by
  cases m with
  | base b => exact Iff.rfl
  | orReference t => exact Iff.rfl
  | null => cases h
  | nullable t => cases h
  | reference t => cases h
  | union ts => cases h

theorem get_of_get? {x : BaseOrRef B} (h : s.types.get? t = some x) : s.get t = x :=
  Dict.getD_of_get? h _

/-- A type that is kept has an entry. -/
theorem get?_of_get (h : (s.get t).hasBase ≠ none ∨ (s.get t).hasRef ≠ none) :
    s.types.get? t = some (s.get t) := by
  cases hx : s.types.get? t with
  | some x => rw [get_of_get? hx]
  | none =>
      rw [SortedTypes.get, Dict.getD, hx] at h
      simp at h

theorem exists_entry_iff (hs : SortedOk s) (v : V) :
    (∃ x ∈ s.types.values, EntryAccepts D x v) ↔ ∃ m, s.Kept m ∧ m ≠ .null
      ∧ m.accepts D v = true
      ∧ ¬ (m.plain = true ∧ D.isReference v = true ∧ s.Kept (.reference m)) := by
  constructor
  · rintro ⟨x, hx, haccepts⟩
    obtain ⟨t, ht⟩ := Dict.mem_values.mp hx
    have hget := get_of_get? ht
    obtain ⟨hbase, href, -⟩ := hs t x ht
    obtain ⟨r, hr, hraccepts⟩ | ⟨b, hb, hbaccepts, hreference⟩ := haccepts
    · rw [hr] at href
      obtain rfl := Option.some.inj (href.resolve_left fun h => by cases h)
      refine ⟨.reference t, ?_, (fun h => by cases h), hraccepts, (fun h => by cases h.1)⟩
      rw [SortedTypes.Kept, hget]
      exact hr
    · rw [hb] at hbase
      obtain ⟨hbt, hplain⟩ := hbase.resolve_left fun h => by cases h
      obtain rfl := Option.some.inj hbt
      refine ⟨b, ?_, ?_, hbaccepts, fun h => ?_⟩
      · rw [kept_iff_of_plain hplain, hget]
        exact hb
      · rintro rfl
        cases hplain
      · have hkept := h.2.2
        rw [SortedTypes.Kept, hget, hreference h.2.1] at hkept
        cases hkept
  · rintro ⟨m, hkept, hnull, haccepts, hlost⟩
    by_cases hplain : m.plain = true
    · have hbase := (kept_iff_of_plain hplain).mp hkept
      have hget := @get?_of_get B _ s m (.inl (by rw [hbase]; exact fun h => by cases h))
      refine ⟨s.get m, Dict.mem_values.mpr ⟨m, hget⟩, .inr ⟨m, hbase, haccepts, fun href => ?_⟩⟩
      refine (SortedTypes.get_eq hs m).2.resolve_right fun h => hlost ⟨hplain, href, h⟩
    · cases m with
      | reference t =>
          have href : (s.get t).hasRef = some (.reference t) := hkept
          have hget := @get?_of_get B _ s t (.inr (by rw [href]; exact fun h => by cases h))
          exact ⟨s.get t, Dict.mem_values.mpr ⟨t, hget⟩, .inl ⟨_, href, haccepts⟩⟩
      | null => exact absurd rfl hnull
      | base b => exact absurd rfl hplain
      | orReference t => exact absurd rfl hplain
      | nullable t => exact hkept.elim
      | union ts => exact hkept.elim

theorem not_kept_empty (m : DslType B) : ¬ SortedTypes.Kept ⟨.empty, false⟩ m := by
  intro h
  cases m <;> cases h

/-- The members are kept. -/
theorem collect_members (h : collect D ts [] ⟨.empty, false⟩ = some s) :
    SortedOk s ∧ ∀ m, s.Kept m ↔ m ∈ membersAll ts := by
  obtain ⟨hok, hiff⟩ := collect_spec h (fun t x hx => by cases hx)
    fun t ht => absurd ht List.not_mem_nil
  exact ⟨hok, fun m => by rw [hiff m, or_iff_right (not_kept_empty m), mem_membersAll]⟩

/-- What is accepted in the end. -/
theorem createUnion_spec (h : collect D ts [] ⟨.empty, false⟩ = some s) :
    ∃ u, createUnion D ts = some u ∧ ∀ v, u.accepts D v = true ↔
      ∃ m ∈ membersAll ts, m.accepts D v = true ∧ ¬ Lost D ts m v := by
  obtain ⟨hok, hkept⟩ := collect_members h
  obtain ⟨bases, hbases, haccepts⟩ := @mapM_convert B V D s.types.values fun x hx => by
    obtain ⟨t, ht⟩ := Dict.mem_values.mp hx
    obtain ⟨hbase, href, hne⟩ := hok t x ht
    exact convert_accepts hbase href hne
  have hunion : ∀ v, (baseUnion bases).accepts D v = true ↔ ∃ m, m ∈ membersAll ts ∧ m ≠ .null
        ∧ m.accepts D v = true ∧ ¬ Lost D ts m v := by
    intro v
    have hentries := (haccepts v).trans (exists_entry_iff hok v)
    simp only [hkept] at hentries
    exact baseUnion_accepts.trans hentries
  have hcreate : createUnion D ts
      = some (if s.nullable then .nullable (baseUnion bases) else baseUnion bases) := by
    simp only [createUnion, h, hbases, Option.bind_eq_bind, Option.bind_some]
    rfl
  refine ⟨_, hcreate, fun v => ?_⟩
  have hnull : s.nullable = true ↔ .null ∈ membersAll ts := hkept .null
  have hsplit : (∃ m ∈ membersAll ts, m.accepts D v = true ∧ ¬ Lost D ts m v)
      ↔ (.null ∈ membersAll ts ∧ D.isNone v = true) ∨ ∃ m, m ∈ membersAll ts ∧ m ≠ .null
        ∧ m.accepts D v = true ∧ ¬ Lost D ts m v := by
    constructor
    · rintro ⟨m, hm, haccepts, hlost⟩
      by_cases hne : m = .null
      · subst hne
        exact .inl ⟨hm, haccepts⟩
      · exact .inr ⟨m, hm, hne, haccepts, hlost⟩
    · rintro (⟨hm, hnone⟩ | ⟨m, hm, -, haccepts, hlost⟩)
      · exact ⟨.null, hm, hnone, fun h => by cases h.1⟩
      · exact ⟨m, hm, haccepts, hlost⟩
  rw [hsplit, ← hunion v, ← hnull]
  cases hn : s.nullable with
  | true => simp only [if_true, accepts, Bool.or_eq_true, true_and]
  | false => simp

end Union

/-! ## Builtin types -/

inductive BuiltinType where
  | any
  | number
  | float
  | integer
  | bool
  | string
  | list
  | dict
  | literalList
  | literalDict
  deriving DecidableEq

/-- `LiteralList` and `LiteralDict` define `__eq__` without `__hash__`. -/
def BuiltinType.hashable : BuiltinType → Bool
  | literalList => false
  | literalDict => false
  | _ => true

/-- The builtin types, with integers as the values. -/
def builtinTypes : TypeDomain BuiltinType Int where
  hashable := BuiltinType.hashable
  validate
    | .any, _ => true
    | .number, _ => true
    | .integer, _ => true
    | _, _ => false
  isNone _ := false
  isReference _ := false
  modelSubtype _ _ := false

end Inmanta
