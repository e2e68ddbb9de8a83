import Inmanta.Lib.Run
import Mathlib.Data.List.Nodup

/-!
# Relation variables

The variables that hold the two ends of a bidirectional relation. Each
instance has a variable for its end. Three classes implement them, by the
arity of the end: `AttributeVariable` for `[1]`, `OptionVariable` for `[0:1]`
and `ListVariable` for everything else. Setting a value sets the variable of
the value at the other end too, with `recur` off.

The value of a variable is the list of its instances, also for the two classes
that hold at most one. A call that raises has no result.
-/

namespace Inmanta

inductive RelationEnd where
  | left
  | right
  deriving DecidableEq

namespace RelationEnd

def other : RelationEnd → RelationEnd
  | .left => .right
  | .right => .left

@[simp] theorem other_other (e : RelationEnd) : e.other.other = e := by
  cases e <;> rfl

theorem other_ne (e : RelationEnd) : e.other ≠ e := by
  cases e <;> decide

theorem eq_or_eq_other (e e' : RelationEnd) : e' = e ∨ e' = e.other := by
  cases e <;> cases e' <;> decide

end RelationEnd

inductive VariableClass where
  | attributeVariable
  | optionVariable
  | listVariable
  deriving DecidableEq

/-- A `RelationAttribute`. The type of the attribute accepts an instance, or
raises. -/
structure RelationAttribute (ι : Type) where
  low : ℕ
  high : Option ℕ
  validate : ι → Bool

/-- `get_new_result_variable`. -/
def RelationAttribute.variableClass {ι : Type} (r : RelationAttribute ι) : VariableClass :=
  if r.low = 1 ∧ r.high = some 1 then .attributeVariable
  else if r.low = 0 ∧ r.high = some 1 then .optionVariable
  else .listVariable

structure RelationVariable (ι : Type) where
  value : List ι
  hasValue : Bool
  deriving DecidableEq

/-- What `set_value` is called with. -/
inductive RelationValue (ι : Type) where
  | object (v : ι)
  | list (vs : List ι)
  | null

inductive RelationAction (ι : Type) where
  | setValue (e : RelationEnd) (myself : ι) (value : RelationValue ι)
  | freeze (e : RelationEnd) (myself : ι)

/-- The variables of the two ends, by the instance they belong to. -/
def Slots (ι : Type) := RelationEnd → ι → RelationVariable ι

/-- Two relation attributes, each the `end` of the other. -/
structure Relation (ι : Type) where
  ends : RelationEnd → RelationAttribute ι

variable {ι : Type} [DecidableEq ι]

def Slots.init : Slots ι := fun _ _ => ⟨[], false⟩

def Slots.set (s : Slots ι) (e : RelationEnd) (a : ι) (x : RelationVariable ι) : Slots ι :=
  fun e' a' => if e' = e ∧ a' = a then x else s e' a'

namespace Relation

/-- An `AttributeVariable` does not freeze. -/
def freeze (r : Relation ι) (s : Slots ι) (e : RelationEnd) (a : ι) : Slots ι :=
  match (r.ends e).variableClass with
  | .attributeVariable => s
  | _ => s.set e a { s e a with hasValue := true }

/-- `AttributeVariable.set_value` of an instance. -/
def setAttributeVariable (r : Relation ι) (counterpart : Slots ι → Option (Slots ι))
    (s : Slots ι) (e : RelationEnd) (a v : ι) : Option (Slots ι) :=
  if (s e a).hasValue then
    if (s e a).value = [v] then some s else none
  else if (r.ends e).validate v then counterpart (s.set e a ⟨[v], true⟩)
  else none

/-- `OptionVariable.set_value` of an instance. -/
def setOptionVariable (r : Relation ι) (counterpart : Slots ι → Option (Slots ι))
    (s : Slots ι) (e : RelationEnd) (a v : ι) : Option (Slots ι) :=
  if (s e a).hasValue ∧ (s e a).value ≠ [v] then none
  else if (r.ends e).validate v then
    match counterpart s with
    | none => none
    | some s => some (s.set e a ⟨[v], true⟩)
  else none

/-- The end of `ListVariable.set_value`. -/
def checkHigh (r : Relation ι) (s : Slots ι) (e : RelationEnd) (a : ι) : Option (Slots ι) :=
  match (r.ends e).high with
  | none => some s
  | some high =>
      if high < (s e a).value.length then none
      else if high = (s e a).value.length then some (r.freeze s e a)
      else some s

/-- `ListVariable.set_value` of an instance. -/
def setListVariable (r : Relation ι) (counterpart : Slots ι → Option (Slots ι))
    (s : Slots ι) (e : RelationEnd) (a v : ι) : Option (Slots ι) :=
  if (s e a).hasValue then
    if v ∈ (s e a).value then some s else none
  else if (r.ends e).validate v then
    if v ∈ (s e a).value then some s
    else
      match counterpart (s.set e a ⟨(s e a).value ++ [v], false⟩) with
      | none => none
      | some s => r.checkHigh s e a
  else none

def setObject (r : Relation ι) (counterpart : Slots ι → Option (Slots ι))
    (s : Slots ι) (e : RelationEnd) (a v : ι) : Option (Slots ι) :=
  match (r.ends e).variableClass with
  | .attributeVariable => r.setAttributeVariable counterpart s e a v
  | .optionVariable => r.setOptionVariable counterpart s e a v
  | .listVariable => r.setListVariable counterpart s e a v

/-- `value.set_attribute(end.name, myself, location, False)`. -/
def setCounterpart (r : Relation ι) (e : RelationEnd) (a v : ι) (s : Slots ι) :
    Option (Slots ι) :=
  r.setObject some s e.other v a

def setInstance (r : Relation ι) (s : Slots ι) (e : RelationEnd) (a v : ι) :
    Option (Slots ι) :=
  r.setObject (r.setCounterpart e a v) s e a v

/-- `set_value` of a list. Only a list variable accepts one; if it is frozen, it
has to have all the values. -/
def setList (r : Relation ι) (s : Slots ι) (e : RelationEnd) (a : ι) (vs : List ι) :
    Option (Slots ι) :=
  match (r.ends e).variableClass with
  | .listVariable =>
      if (s e a).hasValue ∧ ∃ v ∈ vs, v ∉ (s e a).value then none
      else vs.foldlM (fun s v => r.setInstance s e a v) s
  | _ => none

/-- `set_value` of null. -/
def setNull (r : Relation ι) (s : Slots ι) (e : RelationEnd) (a : ι) : Option (Slots ι) :=
  match (r.ends e).variableClass with
  | .attributeVariable => none
  | .optionVariable =>
      if (s e a).hasValue then
        if (s e a).value = [] then some s else none
      else some (s.set e a ⟨[], true⟩)
  | .listVariable => if (s e a).value = [] then some (r.freeze s e a) else none

def step (r : Relation ι) (s : Slots ι) : RelationAction ι → Option (Slots ι)
  | .setValue e a (.object v) => r.setInstance s e a v
  | .setValue e a (.list vs) => r.setList s e a vs
  | .setValue e a .null => r.setNull s e a
  | .freeze e a => some (r.freeze s e a)

/-! ## One variable -/

/-- What holds of each variable by itself. -/
structure WellFormed (r : Relation ι) (e : RelationEnd) (x : RelationVariable ι) : Prop where
  nodup : x.value.Nodup
  arity : ∀ high, (r.ends e).high = some high → x.value.length ≤ high
  unset : (r.ends e).variableClass ≠ .listVariable → x.hasValue = false → x.value = []

/-- Both ends of the relation show the same pairs. -/
def Consistent (s : Slots ι) : Prop :=
  ∀ e a b, b ∈ (s e a).value ↔ a ∈ (s e.other b).value

/-- A variable that is frozen has not changed. -/
def FrozenKept (s s' : Slots ι) : Prop :=
  ∀ e a, (s e a).hasValue = true → s' e a = s e a

end Relation

@[simp] theorem Slots.set_self (s : Slots ι) (e : RelationEnd) (a : ι)
    (x : RelationVariable ι) : s.set e a x e a = x :=
  if_pos ⟨rfl, rfl⟩

theorem Slots.set_of_ne {s : Slots ι} {e e' : RelationEnd} {a a' : ι}
    {x : RelationVariable ι} (h : ¬ (e' = e ∧ a' = a)) : s.set e a x e' a' = s e' a' :=
  if_neg h

theorem Slots.set_other {s : Slots ι} {e : RelationEnd} {a a' : ι}
    {x : RelationVariable ι} : s.set e.other a' x e a = s e a :=
  if_neg fun h => e.other_ne h.1.symm

theorem Slots.set_eq_self {s : Slots ι} {e : RelationEnd} {a : ι} {x : RelationVariable ι}
    (h : s e a = x) : s.set e a x = s := by
  funext e' a'
  by_cases hea : e' = e ∧ a' = a
  · obtain ⟨rfl, rfl⟩ := hea
    rw [Slots.set_self, h]
  · rw [Slots.set_of_ne hea]

theorem Slots.set_set (s : Slots ι) (e : RelationEnd) (a : ι) (x y : RelationVariable ι) :
    (s.set e a x).set e a y = s.set e a y := by
  funext e' a'
  by_cases hea : e' = e ∧ a' = a
  · obtain ⟨rfl, rfl⟩ := hea
    rw [Slots.set_self, Slots.set_self]
  · rw [Slots.set_of_ne hea, Slots.set_of_ne hea, Slots.set_of_ne hea]

namespace Relation

variable {r : Relation ι} {s s' : Slots ι} {e : RelationEnd} {a v : ι}

omit [DecidableEq ι] in
theorem high_of_not_listVariable (h : (r.ends e).variableClass ≠ .listVariable) :
    (r.ends e).high = some 1 := by
  unfold RelationAttribute.variableClass at h
  split at h
  · next hc => exact hc.2
  · split at h
    · next hc => exact hc.2
    · exact absurd rfl h

omit [DecidableEq ι] in
theorem wellFormed_singleton (h : (r.ends e).variableClass ≠ .listVariable) (v : ι) :
    r.WellFormed e ⟨[v], true⟩ where
  nodup := List.nodup_singleton v
  arity high hh := by
    rw [high_of_not_listVariable h] at hh
    cases hh
    exact Nat.le_refl 1
  unset _ hv := by cases hv

/-- Two states differ at most in the variable of one instance. -/
def AgreesOutside (e : RelationEnd) (a : ι) (s s' : Slots ι) : Prop :=
  ∀ e' a', ¬ (e' = e ∧ a' = a) → s e' a' = s' e' a'

theorem agreesOutside_set (s : Slots ι) (e : RelationEnd) (a : ι) (x : RelationVariable ι) :
    AgreesOutside e a (s.set e a x) s :=
  fun _ _ h => Slots.set_of_ne h

/-- What `set_value` of an instance does, whatever its counterpart does elsewhere:
the variable has the value already, or the counterpart ran, in a state that
differs in this variable only, and the value was added. -/
def Sets (r : Relation ι) (counterpart : Slots ι → Option (Slots ι)) (s s' : Slots ι)
    (e : RelationEnd) (a v : ι) : Prop :=
  (s' = s ∧ v ∈ (s e a).value) ∨
    ∃ t t' x, counterpart t = some t' ∧
      AgreesOutside e a t s ∧ s' = t'.set e a x ∧ r.WellFormed e x ∧
      (∀ b, b ∈ x.value ↔ b ∈ (s e a).value ∨ b = v) ∧
      ((s e a).hasValue = true → x = s e a)

theorem setAttributeVariable_sets {counterpart : Slots ι → Option (Slots ι)}
    (hc : (r.ends e).variableClass ≠ .listVariable) (hwf : r.WellFormed e (s e a))
    (hk : ∀ t t', AgreesOutside e a t s → counterpart t = some t' → t' e a = t e a)
    (h : r.setAttributeVariable counterpart s e a v = some s') :
    r.Sets counterpart s s' e a v := by
  unfold setAttributeVariable at h
  split at h
  · split at h
    · next hv =>
      obtain rfl := Option.some.inj h
      exact Or.inl ⟨rfl, by rw [hv]; exact List.mem_singleton_self v⟩
    · cases h
  · next hset =>
    split at h
    · have hnil := hwf.unset hc (Bool.eq_false_iff.mpr hset)
      have hvar : s' e a = ⟨[v], true⟩ := by
        rw [hk _ _ (agreesOutside_set _ _ _ _) h, Slots.set_self]
      refine Or.inr ⟨_, s', ⟨[v], true⟩, h, agreesOutside_set _ _ _ _,
        (Slots.set_eq_self hvar).symm, wellFormed_singleton hc v, fun b => ?_,
        fun hv => absurd hv hset⟩
      rw [hnil]
      simp
    · cases h

theorem setOptionVariable_sets {counterpart : Slots ι → Option (Slots ι)}
    (hc : (r.ends e).variableClass ≠ .listVariable) (hwf : r.WellFormed e (s e a))
    (h : r.setOptionVariable counterpart s e a v = some s') :
    r.Sets counterpart s s' e a v := by
  unfold setOptionVariable at h
  split at h
  · cases h
  · next hset =>
    have hval : (s e a).hasValue = true → s e a = ⟨[v], true⟩ := fun hv => by
      have hvalue : (s e a).value = [v] := by
        by_contra hn
        exact hset ⟨hv, hn⟩
      cases hx : s e a with
      | mk value hasValue =>
          rw [hx] at hv hvalue
          dsimp only at hv hvalue
          rw [hv, hvalue]
    split at h
    · split at h
      · cases h
      · next t' ht =>
        obtain rfl := Option.some.inj h
        refine Or.inr ⟨s, t', ⟨[v], true⟩, ht, fun _ _ _ => rfl, rfl,
          wellFormed_singleton hc v, fun b => ?_, fun hv => (hval hv).symm⟩
        cases hv : (s e a).hasValue with
        | false =>
            rw [hwf.unset hc hv]
            simp
        | true =>
            rw [hval hv]
            simp
    · cases h

theorem checkHigh_spec {value : List ι} (hc : (r.ends e).variableClass = .listVariable)
    (hvar : s e a = ⟨value, false⟩) (h : r.checkHigh s e a = some s') :
    ∃ hasValue, s' = s.set e a ⟨value, hasValue⟩ ∧
      ∀ high, (r.ends e).high = some high → value.length ≤ high := by
  unfold checkHigh at h
  split at h
  · next hh =>
    obtain rfl := Option.some.inj h
    refine ⟨false, (Slots.set_eq_self hvar).symm, fun high hhigh => ?_⟩
    rw [hh] at hhigh
    cases hhigh
  · next high hh =>
    split at h
    · cases h
    · next hle =>
      rw [hvar] at hle
      have harity : ∀ high', (r.ends e).high = some high' → value.length ≤ high' :=
        fun high' hhigh => by
          rw [hh] at hhigh
          cases hhigh
          exact Nat.not_lt.mp hle
      split at h
      · obtain rfl := Option.some.inj h
        refine ⟨true, ?_, harity⟩
        unfold freeze
        rw [hc]
        dsimp only
        rw [hvar]
      · obtain rfl := Option.some.inj h
        exact ⟨false, (Slots.set_eq_self hvar).symm, harity⟩

theorem setListVariable_sets {counterpart : Slots ι → Option (Slots ι)}
    (hc : (r.ends e).variableClass = .listVariable) (hwf : r.WellFormed e (s e a))
    (hk : ∀ t t', AgreesOutside e a t s → counterpart t = some t' → t' e a = t e a)
    (h : r.setListVariable counterpart s e a v = some s') :
    r.Sets counterpart s s' e a v := by
  unfold setListVariable at h
  split at h
  · split at h
    · next hv =>
      obtain rfl := Option.some.inj h
      exact Or.inl ⟨rfl, hv⟩
    · cases h
  · next hset =>
    split at h
    · split at h
      · next hv =>
        obtain rfl := Option.some.inj h
        exact Or.inl ⟨rfl, hv⟩
      · next hv =>
        split at h
        · cases h
        · next t' ht =>
          have hvar : t' e a = ⟨(s e a).value ++ [v], false⟩ := by
            rw [hk _ _ (agreesOutside_set _ _ _ _) ht, Slots.set_self]
          obtain ⟨hasValue, rfl, harity⟩ := checkHigh_spec hc hvar h
          have hnodup : ((s e a).value ++ [v]).Nodup :=
            List.nodup_append.mpr ⟨hwf.nodup, List.nodup_singleton v, fun b hb c hc' => by
              rw [List.mem_singleton.mp hc']
              exact fun hbv => hv (hbv ▸ hb)⟩
          refine Or.inr ⟨_, t', _, ht, agreesOutside_set _ _ _ _, rfl,
            ⟨hnodup, harity, fun hne => absurd hc hne⟩, fun b => ?_, fun hs => absurd hs hset⟩
          simp
    · cases h

theorem setObject_sets {counterpart : Slots ι → Option (Slots ι)}
    (hwf : r.WellFormed e (s e a))
    (hk : ∀ t t', AgreesOutside e a t s → counterpart t = some t' → t' e a = t e a)
    (h : r.setObject counterpart s e a v = some s') :
    r.Sets counterpart s s' e a v := by
  unfold setObject at h
  split at h
  · next hc => exact setAttributeVariable_sets (by rw [hc]; decide) hwf hk h
  · next hc => exact setOptionVariable_sets (by rw [hc]; decide) hwf h
  · next hc => exact setListVariable_sets hc hwf hk h

/-! ## Both ends -/

structure Invariant (r : Relation ι) (s : Slots ι) : Prop where
  wellFormed : ∀ e a, r.WellFormed e (s e a)
  consistent : Consistent s

/-- The counterpart, set with `recur` off, touches its own variable only. -/
theorem setCounterpart_sets (hwf : r.WellFormed e.other (s e.other v))
    (h : r.setCounterpart e a v s = some s') :
    ∃ y, s' = s.set e.other v y ∧ r.WellFormed e.other y ∧
      (∀ b, b ∈ y.value ↔ b ∈ (s e.other v).value ∨ b = a) ∧
      ((s e.other v).hasValue = true → y = s e.other v) := by
  have hk : ∀ t t' : Slots ι, AgreesOutside e.other v t s → some t = some t' →
      t' e.other v = t e.other v := fun t t' _ ht => by
    cases ht
    rfl
  obtain ⟨rfl, hmem⟩ | ⟨t, t', y, ht, hother, rfl, hy⟩ := setObject_sets hwf hk h
  · refine ⟨s' e.other v, (Slots.set_eq_self rfl).symm, hwf, fun b => ?_, fun _ => rfl⟩
    rw [or_iff_left_of_imp]
    rintro rfl
    exact hmem
  · cases ht
    refine ⟨y, ?_, hy⟩
    funext e' a'
    by_cases hea : e' = e.other ∧ a' = v
    · obtain ⟨rfl, rfl⟩ := hea
      rw [Slots.set_self, Slots.set_self]
    · rw [Slots.set_of_ne hea, Slots.set_of_ne hea, hother e' a' hea]

/-- `set_value` of an instance adds the pair to both ends, and nothing else. -/
theorem setInstance_spec (hs : r.Invariant s) (h : r.setInstance s e a v = some s') :
    (∀ e' a', r.WellFormed e' (s' e' a')) ∧ FrozenKept s s' ∧
      ∀ e' a' b, b ∈ (s' e' a').value ↔ b ∈ (s e' a').value ∨
        (e' = e ∧ a' = a ∧ b = v) ∨ (e' = e.other ∧ a' = v ∧ b = a) := by
  have hother : ∀ t, AgreesOutside e a t s → t e.other v = s e.other v :=
    fun t ht => ht _ _ fun hea => e.other_ne hea.1
  have hwf : ∀ t, AgreesOutside e a t s → r.WellFormed e.other (t e.other v) := fun t ht => by
    rw [hother t ht]
    exact hs.wellFormed e.other v
  have hk : ∀ t t', AgreesOutside e a t s → r.setCounterpart e a v t = some t' →
      t' e a = t e a := fun t t' hts ht => by
    obtain ⟨y, rfl, -⟩ := setCounterpart_sets (hwf t hts) ht
    exact Slots.set_other
  obtain ⟨rfl, hmem⟩ | ⟨t, t', x, ht, hts, rfl, hx, hxv, hxf⟩ :=
    setObject_sets (hs.wellFormed e a) hk h
  · refine ⟨hs.wellFormed, fun _ _ _ => rfl, fun e' a' b => ?_⟩
    have hmem' := (hs.consistent e a v).mp hmem
    rw [or_iff_left_of_imp]
    rintro (⟨rfl, rfl, rfl⟩ | ⟨rfl, rfl, rfl⟩)
    · exact hmem
    · exact hmem'
  · obtain ⟨y, rfl, hy, hyv, hyf⟩ := setCounterpart_sets (hwf t hts) ht
    rw [hother t hts] at hyv hyf
    have hcases : ∀ e' a', (e' = e ∧ a' = a ∧ (t.set e.other v y).set e a x e' a' = x) ∨
        (e' = e.other ∧ a' = v ∧ (t.set e.other v y).set e a x e' a' = y) ∨
        (¬ (e' = e ∧ a' = a) ∧ ¬ (e' = e.other ∧ a' = v) ∧
          (t.set e.other v y).set e a x e' a' = s e' a') := fun e' a' => by
      by_cases h₁ : e' = e ∧ a' = a
      · obtain ⟨rfl, rfl⟩ := h₁
        exact Or.inl ⟨rfl, rfl, Slots.set_self ..⟩
      · by_cases h₂ : e' = e.other ∧ a' = v
        · obtain ⟨rfl, rfl⟩ := h₂
          refine Or.inr (Or.inl ⟨rfl, rfl, ?_⟩)
          rw [Slots.set_of_ne h₁, Slots.set_self]
        · refine Or.inr (Or.inr ⟨h₁, h₂, ?_⟩)
          rw [Slots.set_of_ne h₁, Slots.set_of_ne h₂, hts e' a' h₁]
    refine ⟨fun e' a' => ?_, fun e' a' hf => ?_, fun e' a' b => ?_⟩
    · obtain ⟨rfl, rfl, hv⟩ | ⟨rfl, rfl, hv⟩ | ⟨-, -, hv⟩ := hcases e' a'
      · rw [hv]
        exact hx
      · rw [hv]
        exact hy
      · rw [hv]
        exact hs.wellFormed e' a'
    · obtain ⟨rfl, rfl, hv⟩ | ⟨rfl, rfl, hv⟩ | ⟨-, -, hv⟩ := hcases e' a'
      · exact hv.trans (hxf hf)
      · exact hv.trans (hyf hf)
      · exact hv
    · obtain ⟨rfl, rfl, hv⟩ | ⟨rfl, rfl, hv⟩ | ⟨h₁, h₂, hv⟩ := hcases e' a'
      · rw [hv, hxv b]
        simp [(RelationEnd.other_ne e').symm]
      · rw [hv, hyv b]
        simp [e.other_ne]
      · rw [hv, or_iff_left]
        rintro (⟨he, ha, -⟩ | ⟨he, ha, -⟩)
        · exact h₁ ⟨he, ha⟩
        · exact h₂ ⟨he, ha⟩

theorem Invariant.setInstance (hs : r.Invariant s) (h : r.setInstance s e a v = some s') :
    r.Invariant s' ∧ FrozenKept s s' := by
  obtain ⟨hwf, hkept, hmem⟩ := setInstance_spec hs h
  refine ⟨⟨hwf, fun e' a' b => ?_⟩, hkept⟩
  rw [hmem, hmem, hs.consistent e' a' b]
  obtain rfl | rfl := RelationEnd.eq_or_eq_other e e'
  · simp only [RelationEnd.other_ne, (RelationEnd.other_ne e').symm, true_and, false_and,
      or_false, false_or]
    rw [and_comm]
  · simp only [RelationEnd.other_other, RelationEnd.other_ne, (RelationEnd.other_ne e).symm,
      true_and, false_and, or_false, false_or]
    rw [and_comm]

omit [DecidableEq ι] in
theorem FrozenKept.trans {s₁ s₂ s₃ : Slots ι} (h₁ : FrozenKept s₁ s₂) (h₂ : FrozenKept s₂ s₃) :
    FrozenKept s₁ s₃ := fun e a hv => by
  have h := h₁ e a hv
  rw [← h] at hv ⊢
  exact h₂ e a hv

/-- A variable loses no value and gets no other, when it is frozen. -/
theorem Invariant.setFrozen (hs : r.Invariant s) (e : RelationEnd) (a : ι) :
    r.Invariant (s.set e a { s e a with hasValue := true }) ∧
      FrozenKept s (s.set e a { s e a with hasValue := true }) := by
  have hvalue : ∀ e' a', (s.set e a { s e a with hasValue := true } e' a').value =
      (s e' a').value := fun e' a' => by
    by_cases hea : e' = e ∧ a' = a
    · obtain ⟨rfl, rfl⟩ := hea
      rw [Slots.set_self]
    · rw [Slots.set_of_ne hea]
  refine ⟨⟨fun e' a' => ⟨?_, ?_, fun hc hv => ?_⟩, fun e' a' b => ?_⟩, fun e' a' hv => ?_⟩
  · rw [hvalue]
    exact (hs.wellFormed e' a').nodup
  · rw [hvalue]
    exact (hs.wellFormed e' a').arity
  · rw [hvalue]
    by_cases hea : e' = e ∧ a' = a
    · obtain ⟨rfl, rfl⟩ := hea
      rw [Slots.set_self] at hv
      cases hv
    · rw [Slots.set_of_ne hea] at hv
      exact (hs.wellFormed e' a').unset hc hv
  · rw [hvalue, hvalue]
    exact hs.consistent e' a' b
  · by_cases hea : e' = e ∧ a' = a
    · obtain ⟨rfl, rfl⟩ := hea
      rw [Slots.set_self]
      cases hx : s e' a' with
      | mk value hasValue =>
          rw [hx] at hv
          dsimp only at hv
          rw [hv]
    · rw [Slots.set_of_ne hea]

theorem Invariant.freeze (hs : r.Invariant s) (e : RelationEnd) (a : ι) :
    r.Invariant (r.freeze s e a) ∧ FrozenKept s (r.freeze s e a) := by
  unfold Relation.freeze
  split
  · exact ⟨hs, fun _ _ _ => rfl⟩
  · exact hs.setFrozen e a

theorem Invariant.setNull (hs : r.Invariant s) (h : r.setNull s e a = some s') :
    r.Invariant s' ∧ FrozenKept s s' := by
  unfold Relation.setNull at h
  split at h
  · cases h
  · next hc =>
    split at h
    · split at h
      · obtain rfl := Option.some.inj h
        exact ⟨hs, fun _ _ _ => rfl⟩
      · cases h
    · next hset =>
      obtain rfl := Option.some.inj h
      have hnil := (hs.wellFormed e a).unset (by rw [hc]; decide) (Bool.eq_false_iff.mpr hset)
      rw [← hnil]
      exact hs.setFrozen e a
  · split at h
    · obtain rfl := Option.some.inj h
      exact hs.freeze e a
    · cases h

theorem Invariant.setInstances {vs : List ι} (hs : r.Invariant s)
    (h : vs.foldlM (fun s v => r.setInstance s e a v) s = some s') :
    r.Invariant s' ∧ FrozenKept s s' := by
  induction vs generalizing s with
  | nil =>
      obtain rfl := Option.some.inj h
      exact ⟨hs, fun _ _ _ => rfl⟩
  | cons v vs ih =>
      rw [List.foldlM_cons] at h
      obtain ⟨t, ht, hrest⟩ := Option.bind_eq_some_iff.mp h
      obtain ⟨hinv, hkept⟩ := hs.setInstance ht
      obtain ⟨hinv', hkept'⟩ := ih hinv hrest
      exact ⟨hinv', hkept.trans hkept'⟩

theorem Invariant.setList {vs : List ι} (hs : r.Invariant s)
    (h : r.setList s e a vs = some s') : r.Invariant s' ∧ FrozenKept s s' := by
  unfold Relation.setList at h
  split at h
  · split at h
    · cases h
    · exact hs.setInstances h
  · cases h

theorem Invariant.step {action : RelationAction ι} (hs : r.Invariant s)
    (h : r.step s action = some s') : r.Invariant s' ∧ FrozenKept s s' := by
  cases action with
  | setValue e a value =>
      cases value with
      | object v => exact hs.setInstance h
      | list vs => exact hs.setList h
      | null => exact hs.setNull h
  | freeze e a =>
      obtain rfl := Option.some.inj h
      exact hs.freeze e a

omit [DecidableEq ι] in
theorem invariant_init (r : Relation ι) : r.Invariant Slots.init where
  wellFormed _ _ := ⟨List.nodup_nil, fun _ _ => Nat.zero_le _, fun _ _ => rfl⟩
  consistent _ _ _ := iff_of_false List.not_mem_nil List.not_mem_nil

theorem Invariant.run {actions : List (RelationAction ι)} (hs : r.Invariant s)
    (h : Inmanta.run r.step s actions = some s') : r.Invariant s' ∧ FrozenKept s s' := by
  induction actions generalizing s with
  | nil =>
      obtain rfl := Option.some.inj h
      exact ⟨hs, fun _ _ _ => rfl⟩
  | cons action actions ih =>
      obtain ⟨t, ht, hrest⟩ := run_cons_inv h
      obtain ⟨hinv, hkept⟩ := hs.step ht
      obtain ⟨hinv', hkept'⟩ := ih hinv hrest
      exact ⟨hinv', hkept.trans hkept'⟩

/-- **Bidirectional relations are consistent.** Whatever the arities of the two
ends are: after any sequence of calls that do not raise, an instance is a value
of another one's end just when that one is a value of its end, no variable has
a value twice or more values than its arity allows, and whatever calls follow,
a frozen variable keeps its value. -/
theorem relation_consistent (r : Relation ι) {actions actions' : List (RelationAction ι)}
    {s s' : Slots ι} (h : Inmanta.run r.step Slots.init actions = some s)
    (h' : Inmanta.run r.step s actions' = some s') :
    (∀ a b, b ∈ (s .left a).value ↔ a ∈ (s .right b).value) ∧
      (∀ e a, (s e a).value.Nodup) ∧
      (∀ e a high, (r.ends e).high = some high → (s e a).value.length ≤ high) ∧
      ∀ e a, (s e a).hasValue = true →
        (s' e a).value = (s e a).value ∧ (s' e a).hasValue = true := by
  obtain ⟨hinv, -⟩ := (invariant_init r).run h
  obtain ⟨-, hkept⟩ := hinv.run h'
  refine ⟨hinv.consistent .left, fun e a => (hinv.wellFormed e a).nodup,
    fun e a => (hinv.wellFormed e a).arity, fun e a hv => ?_⟩
  rw [hkept e a hv]
  exact ⟨rfl, hv⟩

/-- Hosts with at most two files each, and files with one host. -/
def hostFiles : Relation ℕ where
  ends
    | .left => ⟨0, some 2, fun _ => true⟩
    | .right => ⟨1, some 1, fun _ => true⟩

theorem hostFiles_consistent :
    ∃ s s', Inmanta.run hostFiles.step Slots.init
        [.setValue .left 0 (.list [10, 11]), .setValue .right 12 (.object 1)] = some s ∧
      Inmanta.run hostFiles.step s [.setValue .right 11 (.object 0), .freeze .left 1] = some s' ∧
      (11 ∈ (s .left 0).value ↔ 0 ∈ (s .right 11).value) := by
  obtain ⟨s', hs'⟩ := Option.isSome_iff_exists.mp (show ((Inmanta.run hostFiles.step Slots.init
      [.setValue .left 0 (.list [10, 11]), .setValue .right 12 (.object 1)]).bind fun s =>
    Inmanta.run hostFiles.step s [.setValue .right 11 (.object 0), .freeze .left 1]).isSome
      by decide)
  obtain ⟨s, h, h'⟩ := Option.bind_eq_some_iff.mp hs'
  exact ⟨s, s', h, h', (relation_consistent hostFiles h h').1 0 11⟩

end Relation

end Inmanta
