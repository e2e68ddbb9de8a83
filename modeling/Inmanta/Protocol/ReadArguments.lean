import Inmanta.Protocol.CallArguments

/-!
# What is read back

Values are sent as JSON and as texts. A text has lost the type of the value,
and pydantic reads it by the type of the parameter: `ArgType.ReadAs` says
which texts are read as a value, `ArgType.ReadFromJson` says it for JSON.
Numbers, booleans and UUIDs are always read back, a string is if its text
arrives as it was. A member of an enum is read by its value, whatever it was
sent by.
-/

namespace Inmanta

variable {F U : Type} [PyFloat F] [Printed U]

/-! ## Loops that give a list back -/

section MapM

variable {α β : Type} {f : α → β} {g : β → Option α} {l : List α}

theorem mapM_cons_eq_some {x : β} {xs : List β} {y : α} {ys : List α} :
    (x :: xs).mapM g = some (y :: ys) ↔ g x = some y ∧ xs.mapM g = some ys := by
  rw [List.mapM_cons]
  cases hx : g x with
  | none => simp
  | some y' => cases hxs : xs.mapM g <;> simp

theorem length_of_mapM {xs : List β} {ys : List α} (h : xs.mapM g = some ys) :
    ys.length = xs.length := by
  induction xs generalizing ys with
  | nil =>
      obtain rfl := Option.some.inj h
      rfl
  | cons x xs ih =>
      cases ys with
      | nil =>
          rw [List.mapM_cons] at h
          cases hx : g x with
          | none => simp [hx] at h
          | some y => cases hxs : xs.mapM g <;> simp [hx, hxs] at h
      | cons y ys => exact congrArg Nat.succ (ih (mapM_cons_eq_some.mp h).2)

/-- A loop over some images of a list gives the list if and only if no element
is left out and every one is given back. -/
theorem mapM_filterMap_eq_some {f : α → Option β} :
    (l.filterMap f).mapM g = some l ↔ ∀ x ∈ l, ∃ y, f x = some y ∧ g y = some x := by
  induction l with
  | nil => exact ⟨fun _ x hx => absurd hx List.not_mem_nil, fun _ => rfl⟩
  | cons x l ih =>
      rw [List.forall_mem_cons, ← ih]
      cases hx : f x with
      | none =>
          rw [List.filterMap_cons_none hx]
          refine ⟨fun h => ?_, fun h => ?_⟩
          · have hlen := length_of_mapM h
            have hle := List.length_filterMap_le f l
            simp only [List.length_cons] at hlen
            omega
          · obtain ⟨⟨y, hy, -⟩, -⟩ := h
            cases hy
      | some y =>
          rw [List.filterMap_cons_some hx, mapM_cons_eq_some]
          simp

theorem mapM_map_eq_some : (l.map f).mapM g = some l ↔ ∀ x ∈ l, g (f x) = some x := by
  have h := mapM_filterMap_eq_some (f := fun x => some (f x)) (g := g) (l := l)
  rw [List.filterMap_eq_map'] at h
  simpa using h

end MapM

/-! ## Numbers and booleans -/

theorem parseNat_toDigits (n : ℕ) : parseNat (Nat.toDigits 10 n) = some n := by
  have hall : (Nat.toDigits 10 n).all Char.isDigit = true :=
    List.all_eq_true.mpr fun c hc => Nat.isDigit_of_mem_toDigits (by decide) (by decide) hc
  rw [parseNat, if_pos ⟨Nat.toDigits_ne_nil, hall⟩, Nat.ofDigitChars_ten_toDigits]

theorem parseInt_intStr (i : ℤ) : parseInt (intStr i) = some i := by
  cases i with
  | ofNat n =>
      have hne : ∀ s, intStr (.ofNat n) ≠ '-' :: s := fun s h => by
        have hmem : '-' ∈ Nat.toDigits 10 n := by
          rw [show Nat.toDigits 10 n = '-' :: s from h]
          exact List.mem_cons_self ..
        exact absurd (Nat.isDigit_of_mem_toDigits (by decide) (by decide) hmem) (by decide)
      rw [parseInt]
      · rw [intStr, parseNat_toDigits]
        rfl
      · exact hne
  | negSucc n =>
      rw [intStr, parseInt, parseNat_toDigits]
      rfl

theorem parseBool_boolStr (b : Bool) : parseBool (boolStr b) = some b := by
  cases b <;> decide

theorem ascii_of_isDigit {s : List Char} (h : ∀ c ∈ s, c.isDigit = true) : Ascii s := fun c hc => by
  have hd := h c hc
  simp only [Char.isDigit, ge_iff_le, Bool.and_eq_true, decide_eq_true_eq] at hd
  have h9 : c.toNat ≤ 57 := UInt32.le_iff_toNat_le.mp hd.2
  omega

theorem intStr_ascii (i : ℤ) : Ascii (intStr i) := by
  have hdigits : ∀ n, Ascii (Nat.toDigits 10 n) := fun n =>
    ascii_of_isDigit fun c hc => Nat.isDigit_of_mem_toDigits (by decide) (by decide) hc
  cases i with
  | ofNat n => exact hdigits n
  | negSucc n => exact List.forall_mem_cons.mpr ⟨by decide, hdigits _⟩

theorem boolStr_ascii (b : Bool) : Ascii (boolStr b) := by
  cases b <;> simp [Ascii, boolStr]

/-! ## Texts -/

namespace Transport

variable {t : Transport} {s s' : List Char}

theorem hear_of_ascii (h : Ascii s) : t.hear s = s := by
  cases t with
  | http => exact latin1_utf8_of_ascii h
  | websocket => rfl

/-- Over HTTP only ASCII texts arrive as they were. -/
theorem hear_eq_iff : t.hear s = s ↔ (t = .http → Ascii s) := by
  cases t with
  | http => exact latin1_utf8_eq_iff.trans (by simp)
  | websocket => simp [hear]

theorem hear_injective : Function.Injective t.hear := by
  cases t with
  | http => exact latin1_utf8_injective
  | websocket => exact fun _ _ h => h

theorem hear_append : t.hear (s ++ s') = t.hear s ++ t.hear s' := by
  cases t with
  | http => rw [hear, utf8_append, latin1_append]; rfl
  | websocket => rfl

@[simp] theorem hear_nil : t.hear [] = [] := hear_of_ascii (List.forall_mem_nil _)

theorem hear_eq_nil : t.hear s = [] ↔ s = [] := by
  refine ⟨fun h => hear_injective (t := t) ?_, fun h => by rw [h, hear_nil]⟩
  rw [h, hear_nil]

end Transport

/-- The member that pydantic reads a value as. -/
def EnumClass.readValue (e : EnumClass) : List Char ⊕ ℤ → Option (List Char)
  | .inl s => e.read s
  | .inr i => e.find (.inr i)

namespace ArgType

/-- A text is read as the value. -/
def ReadAs : ArgType → ArgValue F U → List Char → Prop
  | .bool, .bool b, s => parseBool s = some b
  | .int, .int i, s => parseInt s = some i
  | .float, .float x, s => Printed.parse s = some x
  | .str, .str s', s => s' = s
  | .uuid, .uuid u, s => Printed.parse s = some u
  | .enum e, .enum e' n, s => e' = e ∧ e.read s = some n
  | .optional t, v, s => t.ReadAs v s
  | _, _, _ => False

attribute [local simp] coerce ReadAs

theorem coerce_str_iff {t : ArgType} {s : List Char} {v : ArgValue F U} :
    t.coerce (.str s) = some v ↔ t.ReadAs v s := by
  induction t with
  | optional t ih => exact ih
  | bool | int | float | uuid | enum e => cases v <;> simp [and_comm, eq_comm]
  | str => cases v <;> simp [eq_comm]
  | list t | dict t => cases v <;> simp

theorem coerce_none_iff {t : ArgType} {v : ArgValue F U} :
    t.coerce (.none : ArgValue F U) = some v ↔ t.strip ≠ t ∧ v = .none := by
  cases t with
  | optional t =>
      have hne : t.strip ≠ .optional t := by
        intro h
        have hopt : ∀ t' : ArgType, t'.strip ≠ .optional t := fun t' => by
          induction t' with
          | optional t' ih => exact ih
          | _ => exact fun h' => nomatch h'
        exact hopt t h
      simp [strip, hne, eq_comm]
  | _ => simp [strip]

theorem coerce_list_iff {t : ArgType} {ws : List (ArgValue F U)} {v : ArgValue F U} :
    t.coerce (.list ws) = some v
      ↔ ∃ t' vs, t.strip = .list t' ∧ v = .list vs ∧ ws.mapM t'.coerce = some vs := by
  induction t with
  | optional t ih => exact ih
  | list t => simp [strip, eq_comm, and_comm]
  | _ => simp [strip]

theorem coerce_dict_iff {t : ArgType} {ws : List (List Char × ArgValue F U)} {v : ArgValue F U} :
    t.coerce (.dict ws) = some v
      ↔ ∃ t' items, t.strip = .dict t' ∧ v = .dict items
          ∧ ws.mapM (fun x => (t'.coerce x.2).map (x.1, ·)) = some items := by
  induction t with
  | optional t ih => exact ih
  | dict t => simp [strip, eq_comm, and_comm]
  | _ => simp [strip]

/-! ## JSON -/

/-- A value of the type is read back from JSON. -/
def ReadFromJson (tr : Transport) : ArgType → ArgValue F U → Prop
  | .float, .float x => tr = .websocket → PyFloat.finite x = true
  | .enum e, .enum _ n =>
      e.readValue (if tr = .http ∧ e.mixin = .plain then .inl n else e.value n) = some n
  | .list t, .list vs => ∀ v ∈ vs, t.ReadFromJson tr v
  | .dict t, .dict items => ∀ x ∈ items, t.ReadFromJson tr x.2
  | .optional _, .none => True
  | .optional t, v => t.ReadFromJson tr v
  | _, _ => True

theorem coerce_ofEnumValue {e : EnumClass} {w : List Char ⊕ ℤ} {n : List Char} :
    (ArgType.enum e).coerce (.ofEnumValue w : ArgValue F U) = some (.enum e n)
      ↔ e.readValue w = some n := by
  cases w <;> simp [ArgValue.ofEnumValue, EnumClass.readValue]

theorem coerce_optional {t : ArgType} {w : ArgValue F U} (h : w ≠ .none) :
    (ArgType.optional t).coerce w = t.coerce w := by
  cases w with
  | none => exact absurd rfl h
  | _ => rfl

theorem coerce_json_iff {tr : Transport} {t : ArgType} {v : ArgValue F U} (h : t.Has v) :
    t.coerce (v.json tr) = some v ↔ t.ReadFromJson tr v := by
  induction t generalizing v with
  | optional t ih =>
      by_cases hv : v = .none
      · subst hv
        simp [ArgValue.json, ReadFromJson]
      · have hhas : t.Has v := by
          cases v with
          | none => exact absurd rfl hv
          | _ => exact h
        have hread : (ArgType.optional t).ReadFromJson tr v ↔ t.ReadFromJson tr v := by
          cases v with
          | none => exact absurd rfl hv
          | _ => exact Iff.rfl
        rw [hread, ← ih hhas]
        -- a float that is not finite is sent as null
        by_cases hnone : v.json tr = .none
        · rw [hnone, coerce_none_iff, coerce_none_iff]
          simp [hv]
        · rw [coerce_optional hnone]
  | list t ih =>
      cases v with
      | list vs =>
          have hvs : ∀ v ∈ vs, t.Has v := h
          simp only [ArgValue.json, coerce, Option.map_eq_some_iff, ArgValue.list.injEq,
            exists_eq_right, mapM_map_eq_some, ReadFromJson]
          exact forall₂_congr fun v hv => ih (hvs v hv)
      | _ => exact absurd h id
  | dict t ih =>
      cases v with
      | dict items =>
          have hitems : ∀ x ∈ items, t.Has x.2 := h.2
          simp only [ArgValue.json, coerce, Option.map_eq_some_iff, ArgValue.dict.injEq,
            exists_eq_right, mapM_map_eq_some, ReadFromJson]
          refine forall₂_congr fun x hx => Iff.trans ?_ (ih (hitems x hx))
          obtain ⟨k, v⟩ := x
          simp
      | _ => exact absurd h id
  | enum e =>
      cases v with
      | enum e' n =>
          obtain ⟨rfl, -⟩ := h
          rw [ArgValue.json, ReadFromJson]
          simp only [Bool.and_eq_true, decide_eq_true_eq]
          split
          · exact coerce_ofEnumValue (w := .inl n)
          · exact coerce_ofEnumValue
      | _ => exact absurd h id
  | float =>
      cases v with
      | float x =>
          rw [ArgValue.json, ReadFromJson]
          cases tr <;> cases hx : PyFloat.finite x <;> simp
      | _ => exact absurd h id
  | uuid =>
      cases v with
      | uuid u => simp [ArgValue.json, Printed.parse_str, ReadFromJson]
      | _ => exact absurd h id
  | bool =>
      cases v with
      | bool b => simp [ArgValue.json, ReadFromJson]
      | _ => exact absurd h id
  | int =>
      cases v with
      | int i => simp [ArgValue.json, ReadFromJson]
      | _ => exact absurd h id
  | str =>
      cases v with
      | str s => simp [ArgValue.json, ReadFromJson]
      | _ => exact absurd h id

/-! ## Texts of the query -/

/-- The value is read back from the text that the query has for it. -/
def ReadFromText (tr : Transport) : ArgType → ArgValue F U → List Char → Prop
  | .bool, .bool _, _ | .int, .int _, _ | .float, .float _, _ | .uuid, .uuid _, _ => True
  | .str, .str s, _ => tr = .http → Ascii s
  | .enum e, .enum e' n, s => e' = e ∧ e.read (tr.hear s) = some n
  | .optional t, v, s => t.ReadFromText tr v s
  | _, _, _ => False

variable [PyRepr F U]

/-- Every value but a member of an enum is sent as its `str()`. -/
theorem readAs_hear_iff {tr : Transport} {t : ArgType} {v : ArgValue F U} {s : List Char}
    (hs : (∀ e n, v ≠ .enum e n) → s = v.pyStr) :
    t.ReadAs v (tr.hear s) ↔ t.ReadFromText tr v s := by
  induction t with
  | optional t ih => exact ih
  | bool =>
      cases v with
      | bool b =>
          rw [hs (by simp)]
          simp [ReadFromText, ArgValue.pyStr, Transport.hear_of_ascii (boolStr_ascii b),
            parseBool_boolStr]
      | _ => exact Iff.rfl
  | int =>
      cases v with
      | int i =>
          rw [hs (by simp)]
          simp [ReadFromText, ArgValue.pyStr, Transport.hear_of_ascii (intStr_ascii i),
            parseInt_intStr]
      | _ => exact Iff.rfl
  | float =>
      cases v with
      | float x =>
          rw [hs (by simp)]
          simp [ReadFromText, ArgValue.pyStr, Transport.hear_of_ascii (Printed.str_ascii x),
            Printed.parse_str]
      | _ => exact Iff.rfl
  | uuid =>
      cases v with
      | uuid u =>
          rw [hs (by simp)]
          simp [ReadFromText, ArgValue.pyStr, Transport.hear_of_ascii (Printed.str_ascii u),
            Printed.parse_str]
      | _ => exact Iff.rfl
  | str =>
      cases v with
      | str s' =>
          rw [hs (by simp)]
          exact eq_comm.trans Transport.hear_eq_iff
      | _ => exact Iff.rfl
  | enum e => cases v <;> exact Iff.rfl
  | list t | dict t => exact Iff.rfl

end ArgType

end Inmanta
