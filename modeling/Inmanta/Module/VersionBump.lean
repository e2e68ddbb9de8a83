import Mathlib

/-!
# Bumping a version

`VersionOperation.bump_version` and `ChangeType.diff` of the module tool.

A version is what PEP 440 says it is: an epoch, a release of any length whose
missing components count as zero, and a suffix (pre, post, development and local
part) of which only its order matters here. Two versions are compared by the
first of these that differs, two releases by the first component that differs
(`firstDifference`).

`diff_right_iff` and `bump_right_iff` say when the two functions do what they are
for. Both work on `base_version.split(".")`, whose first part has the epoch in
front, and there is no type for a change behind the fourth component.
-/

namespace Inmanta

namespace VersionBump

/-! ## Releases -/

def component (release : List ℕ) (i : ℕ) : ℕ := release.getD i 0

/-- The most significant component that differs. -/
def firstDifference (l l' : List ℕ) : Option ℕ :=
  (List.range (max l.length l'.length)).find? fun i => component l i ≠ component l' i

theorem component_of_length_le {l : List ℕ} {i : ℕ} (h : l.length ≤ i) : component l i = 0 :=
  List.getD_eq_default l 0 h

theorem lt_length_of_component {l : List ℕ} {i : ℕ} (h : component l i ≠ 0) : i < l.length := by
  by_contra hlen
  exact h (component_of_length_le (by omega))

theorem firstDifference_eq_some {l l' : List ℕ} {i : ℕ} : firstDifference l l' = some i ↔
    component l i ≠ component l' i ∧ ∀ j < i, component l j = component l' j := by
  rw [firstDifference, List.find?_range_eq_some]
  constructor
  · rintro ⟨hat, -, hbefore⟩
    exact ⟨by simpa using hat, fun j hj => by simpa using hbefore j hj⟩
  · rintro ⟨hat, hbefore⟩
    refine ⟨by simpa using hat, List.mem_range.mpr ?_, fun j hj => by simpa using hbefore j hj⟩
    by_contra hlen
    rw [component_of_length_le (by omega), component_of_length_le (by omega)] at hat
    exact hat rfl

theorem firstDifference_eq_none {l l' : List ℕ} : firstDifference l l' = none ↔
    ∀ i, component l i = component l' i := by
  rw [firstDifference, List.find?_range_eq_none]
  constructor
  · intro h i
    by_cases hi : i < max l.length l'.length
    · simpa using h i hi
    · rw [component_of_length_le (by omega), component_of_length_le (by omega)]
  · intro h i _
    simpa using h i

/-! ## Versions -/

/-- A version whose suffix is one of `ρ`. -/
structure Version (ρ : Type) where
  epoch : ℕ
  release : List ℕ
  release_ne_nil : release ≠ []
  suffix : ρ

section

variable {ρ : Type} [LinearOrder ρ]

def releaseLt (l l' : List ℕ) : Bool :=
  match firstDifference l l' with
  | some i => decide (component l i < component l' i)
  | none => false

def Version.lt (v w : Version ρ) : Bool :=
  decide (v.epoch < w.epoch) || decide (v.epoch = w.epoch) &&
    (releaseLt v.release w.release || (firstDifference v.release w.release).isNone &&
      decide (v.suffix < w.suffix))

def Version.eq (v w : Version ρ) : Bool :=
  decide (v.epoch = w.epoch) && (firstDifference v.release w.release).isNone &&
    decide (v.suffix = w.suffix)

/-- `Version(version.base_version)`, with `final` for the suffix of a version that has none. -/
def Version.base (final : ρ) (version : Version ρ) : Version ρ :=
  { version with suffix := final }

def Version.major (version : Version ρ) : ℕ := component version.release 0

def Version.minor (version : Version ρ) : ℕ := component version.release 1

def Version.micro (version : Version ρ) : ℕ := component version.release 2

/-- A part of `base_version.split(".")`: the epoch stands before the first one, unless it is zero. -/
inductive Part where
  | number (n : ℕ)
  | withEpoch (epoch n : ℕ)
  deriving DecidableEq, Repr

def Version.baseParts (version : Version ρ) : List Part :=
  match version.release with
  | [] => []
  | n :: release =>
      (if version.epoch = 0 then .number n else .withEpoch version.epoch n) ::
        release.map .number

/-- `int(part)` -/
def int : Part → Except String ℕ
  | .number n => .ok n
  | .withEpoch epoch n => .error
      ("invalid literal for int() with base 10: '" ++ toString epoch ++ "!" ++ toString n ++ "'")

/-! ## The two functions -/

inductive ChangeType where
  | major
  | minor
  | patch
  | revision
  deriving DecidableEq, Repr

inductive DiffError (ρ : Type) where
  /-- `Expected low <= high, got {low} > {high}` -/
  | notOrdered (low high : Version ρ)
  | valueError (message : String)
  /-- `Couldn't determine version change type diff: this state should be unreachable` -/
  | undetermined

/-- `int(version.base_version.split(".")[3])` -/
def Version.revision (version : Version ρ) : Except (DiffError ρ) ℕ :=
  (int (version.baseParts.getD 3 (.number 0))).mapError .valueError

def ChangeType.diff (final : ρ) (low high : Version ρ) :
    Except (DiffError ρ) (Option ChangeType) :=
  if high.lt low then .error (.notOrdered low high)
  else if (low.base final).eq (high.base final) then .ok none
  else if high.major > low.major then .ok (some .major)
  else if high.minor > low.minor then .ok (some .minor)
  else if high.micro > low.micro then .ok (some .patch)
  else if high.baseParts.length ≥ 4 then
    match high.revision with
    | .error e => .error e
    | .ok highRevision =>
        -- from 3 digits to 4
        if low.baseParts.length < 4 then .ok (some .revision)
        else
          match low.revision with
          | .error e => .error e
          | .ok lowRevision =>
              if highRevision > lowRevision then .ok (some .revision) else .error .undetermined
  else .error .undetermined

def bumpIndex : ChangeType → ℕ
  | .revision => 3
  | .patch => 2
  | .minor => 1
  | .major => 0

/-- `while len(parts) > 3 and parts[-1] == 0: parts.pop()` -/
def popZeros (parts : List ℕ) : List ℕ :=
  if parts.length > 3 ∧ parts.getLast? = some 0 then popZeros parts.dropLast else parts
termination_by parts.length
decreasing_by
  rw [List.length_dropLast]
  omega

/-- The release with one component counted up and those behind it cut off. -/
def bumpParts (bumpIndex : ℕ) (baseParts : List ℕ) : List ℕ :=
  let nbDigits := max (max (bumpIndex + 1) 3) baseParts.length
  popZeros (((baseParts.take (bumpIndex + 1) ++ List.replicate nbDigits 0).take nbDigits).modify
    bumpIndex (· + 1))

variable (parse : List ℕ → String → Except String (Version ρ))

/-- `parse` is `Version` of the numbers with dots between them and the text behind them. -/
def toVersion (release : List ℕ) (versionTag : String) : Except String (Version ρ) :=
  parse release
    (if versionTag = "" then ""
     else "." ++ String.ofList (versionTag.toList.dropWhile (· = '.')))

def bumpVersion (changeType : ChangeType) (version : Version ρ) (versionTag : String) :
    Except String (Version ρ) := do
  let baseParts ← version.baseParts.mapM int
  toVersion parse (bumpParts (bumpIndex changeType) baseParts) versionTag

end

/-! ## The parts of a version -/

section

variable {ρ : Type} {v : Version ρ}

theorem mapM_int_number (l : List ℕ) : (l.map Part.number).mapM int = .ok l := by
  induction l with
  | nil => rfl
  | cons n l ih =>
      rw [List.map_cons, List.mapM_cons, ih]
      rfl

theorem baseParts_length (v : Version ρ) : v.baseParts.length = v.release.length := by
  rw [Version.baseParts]
  split
  · next h => rw [h]; rfl
  · next h => rw [h, List.length_cons, List.length_cons, List.length_map]

theorem mapM_int_baseParts (h : v.epoch = 0) : v.baseParts.mapM int = .ok v.release := by
  rw [Version.baseParts]
  split
  · next hr => rw [hr]; rfl
  · next n l hr =>
      rw [if_pos h, hr]
      exact mapM_int_number (n :: l)

theorem mapM_int_baseParts_epoch (h : v.epoch ≠ 0) : ∃ e, v.baseParts.mapM int = .error e := by
  rw [Version.baseParts]
  split
  · next hr => exact absurd hr v.release_ne_nil
  · next n l hr =>
      rw [if_neg h, List.mapM_cons]
      exact ⟨_, rfl⟩

/-- Only the first part can have the epoch in front. -/
theorem revision_eq (v : Version ρ) : v.revision = .ok (component v.release 3) := by
  rw [Version.revision, Version.baseParts, component]
  split
  · next hr => rw [hr]; rfl
  · next n l hr =>
      rw [hr, List.getD_cons_succ, List.getD_cons_succ, List.getD_map]
      rfl

end

/-! ## Releases that are counted up -/

theorem popZeros_component (parts : List ℕ) (i : ℕ) :
    component (popZeros parts) i = component parts i := by
  induction parts using popZeros.induct with
  | case1 parts h ih =>
      rw [popZeros, if_pos h, ih]
      obtain ⟨front, rfl⟩ : ∃ front, parts = front ++ [0] := by
        obtain ⟨front, hfront⟩ := List.getLast?_eq_some_iff.mp h.2
        exact ⟨front, hfront⟩
      rw [List.dropLast_concat]
      by_cases hi : i < front.length
      · rw [component, component, List.getD_append _ _ _ _ hi]
      · rw [component_of_length_le (by omega), component, List.getD_append_right _ _ _ _ (by omega)]
        cases i - front.length <;> rfl
  | case2 parts h => rw [popZeros, if_neg h]

theorem popZeros_ne_nil {parts : List ℕ} (h : parts ≠ []) : popZeros parts ≠ [] := by
  induction parts using popZeros.induct with
  | case1 parts hpop ih =>
      rw [popZeros, if_pos hpop]
      refine ih fun hnil => ?_
      have hlen := congrArg List.length hnil
      rw [List.length_dropLast, List.length_nil] at hlen
      omega
  | case2 parts hpop => rwa [popZeros, if_neg hpop]

theorem bumpParts_ne_nil (k : ℕ) (l : List ℕ) : bumpParts k l ≠ [] := by
  refine popZeros_ne_nil fun hnil => ?_
  have hlen := congrArg List.length hnil
  simp at hlen

theorem component_bumpParts (k : ℕ) (l : List ℕ) (i : ℕ) : component (bumpParts k l) i
    = if i < k then component l i else if i = k then component l k + 1 else 0 := by
  rw [bumpParts, popZeros_component]
  simp only [component, List.getD_eq_getElem?_getD, List.getElem?_modify, List.getElem?_take,
    List.getElem?_append, List.length_take, List.getElem?_replicate]
  have hnil : l.length ≤ i → l[i]? = none := List.getElem?_eq_none
  rcases Nat.lt_trichotomy i k with hi | rfl | hi
  · have hki : k ≠ i := by omega
    have hout : i < max (max (k + 1) 3) l.length := by omega
    simp only [hki, hi, hout, if_true, if_false]
    by_cases hl : i < l.length
    · have hin : i < min (k + 1) l.length := by omega
      simp [hin, show i < k + 1 by omega]
    · have hin : ¬ i < min (k + 1) l.length := by omega
      have hrest : i - min (k + 1) l.length < max (max (k + 1) 3) l.length := by omega
      rw [if_neg hin, if_pos hrest, hnil (by omega)]
      rfl
  · have hout : i < max (max (i + 1) 3) l.length := by omega
    simp only [hout, if_true]
    by_cases hl : i < l.length
    · simp [hl]
    · have hin : ¬ i < min (i + 1) l.length := by omega
      have hrest : i - min (i + 1) l.length < max (max (i + 1) 3) l.length := by omega
      rw [if_neg hin, if_pos hrest, hnil (by omega)]
      simp
  · have hki : k ≠ i := by omega
    have hcut : ¬ i < min (k + 1) l.length := by omega
    simp only [hki, hki.symm, hcut, show ¬ i < k by omega, if_false]
    split_ifs <;> rfl

/-! ## The order -/

theorem firstDifference_comm (l l' : List ℕ) : firstDifference l l' = firstDifference l' l := by
  cases h : firstDifference l' l with
  | none => exact firstDifference_eq_none.mpr fun i => (firstDifference_eq_none.mp h i).symm
  | some i =>
      obtain ⟨hat, hbefore⟩ := firstDifference_eq_some.mp h
      exact firstDifference_eq_some.mpr ⟨hat.symm, fun j hj => (hbefore j hj).symm⟩

theorem releaseLt_iff {l l' : List ℕ} : releaseLt l l' = true ↔
    ∃ i, firstDifference l l' = some i ∧ component l i < component l' i := by
  rw [releaseLt]
  split
  · next i hi => simp [hi]
  · next hnone => simp [hnone]

theorem releaseLt_of_firstDifference {l l' : List ℕ} {i : ℕ} (h : firstDifference l l' = some i) :
    releaseLt l l' = true ↔ component l i < component l' i := by
  rw [releaseLt_iff, h]
  exact ⟨fun ⟨_, hj, hlt⟩ => Option.some.inj hj ▸ hlt, fun hlt => ⟨i, rfl, hlt⟩⟩

section

variable {ρ : Type} [LinearOrder ρ] {final : ρ} {v w low high : Version ρ} {t : ChangeType} {i : ℕ}

theorem lt_iff_of_firstDifference (hepoch : v.epoch = w.epoch)
    (h : firstDifference v.release w.release = some i) :
    v.lt w = true ↔ component v.release i < component w.release i := by
  rw [← releaseLt_of_firstDifference h]
  simp [Version.lt, hepoch, h]

theorem base_eq_iff : (low.base final).eq (high.base final) = true ↔
    low.epoch = high.epoch ∧ firstDifference low.release high.release = none := by
  rw [Version.eq, Bool.and_eq_true, Bool.and_eq_true, decide_eq_true_iff, Option.isNone_iff_eq_none]
  exact and_iff_left (decide_eq_true rfl)

/-! ## The type of a change -/

/-- `diff` is right about two versions: there is no change if the base versions are the same,
and otherwise it is that of the most significant component that differs. -/
def DiffRight (final : ρ) (low high : Version ρ) : Prop :=
  ∃ res, ChangeType.diff final low high = .ok res ∧
    (res = none ↔ (low.base final).eq (high.base final) = true) ∧
    ∀ t, res = some t → firstDifference low.release high.release = some (bumpIndex t)

/-- The most significant component that differs is one of the first four, and grows. -/
def Grows (low high : Version ρ) (t : ChangeType) : Prop :=
  firstDifference low.release high.release = some (bumpIndex t) ∧
    component low.release (bumpIndex t) < component high.release (bumpIndex t)

theorem diff_of_grows (hle : high.lt low = false) (h : Grows low high t) :
    ChangeType.diff final low high = .ok (some t) := by
  obtain ⟨hfirst, hlt⟩ := h
  have hbase : (low.base final).eq (high.base final) = false := by
    by_contra heq
    rw [Bool.not_eq_false, base_eq_iff, hfirst] at heq
    cases heq.2
  obtain ⟨-, hbefore⟩ := firstDifference_eq_some.mp hfirst
  rw [ChangeType.diff, if_neg (by simp [hle]), if_neg (by simp [hbase])]
  simp only [Version.major, Version.minor, Version.micro, baseParts_length, revision_eq]
  cases t with
  | major =>
      have hlt : component low.release 0 < component high.release 0 := hlt
      rw [if_pos hlt]
  | minor =>
      have hlt : component low.release 1 < component high.release 1 := hlt
      have h₀ := hbefore 0 (by decide)
      rw [if_neg (by omega), if_pos hlt]
  | patch =>
      have hlt : component low.release 2 < component high.release 2 := hlt
      have h₀ := hbefore 0 (by decide)
      have h₁ := hbefore 1 (by decide)
      rw [if_neg (by omega), if_neg (by omega), if_pos hlt]
  | revision =>
      have hlt : component low.release 3 < component high.release 3 := hlt
      have h₀ := hbefore 0 (by decide)
      have h₁ := hbefore 1 (by decide)
      have h₂ := hbefore 2 (by decide)
      have hlen : 3 < high.release.length := lt_length_of_component (by omega)
      rw [if_neg (by omega), if_neg (by omega), if_neg (by omega), if_pos (by omega)]
      by_cases hlow : low.release.length < 4
      · rw [if_pos hlow]
      · rw [if_neg hlow, if_pos hlt]

theorem diff_eq_some (h : ChangeType.diff final low high = .ok (some t)) :
    component low.release (bumpIndex t) < component high.release (bumpIndex t) ∨
      t = .revision ∧ low.release.length < 4 := by
  rw [ChangeType.diff] at h
  simp only [Version.major, Version.minor, Version.micro, baseParts_length, revision_eq] at h
  split_ifs at h with hle hbase hmajor hminor hmicro hlen hlow hrev
  · cases Except.ok.inj h
  · obtain rfl := Option.some.inj (Except.ok.inj h)
    exact Or.inl hmajor
  · obtain rfl := Option.some.inj (Except.ok.inj h)
    exact Or.inl hminor
  · obtain rfl := Option.some.inj (Except.ok.inj h)
    exact Or.inl hmicro
  · obtain rfl := Option.some.inj (Except.ok.inj h)
    exact Or.inr ⟨rfl, hlow⟩
  · obtain rfl := Option.some.inj (Except.ok.inj h)
    exact Or.inl hrev

theorem diffRight_iff (hle : high.lt low = false) : DiffRight final low high ↔
    (low.base final).eq (high.base final) = true ∨ ∃ t, Grows low high t := by
  constructor
  · rintro ⟨res, hres, hnone, hsome⟩
    cases res with
    | none => exact Or.inl (hnone.mp rfl)
    | some t =>
        have hfirst := hsome t rfl
        refine Or.inr ⟨t, hfirst, ?_⟩
        rcases diff_eq_some hres with hlt | ⟨rfl, hlen⟩
        · exact hlt
        · have hzero : component low.release 3 = 0 := component_of_length_le (by omega)
          have hat := (firstDifference_eq_some.mp hfirst).1
          simp only [bumpIndex] at hat ⊢
          omega
  · rintro (hbase | ⟨t, ht⟩)
    · refine ⟨none, ?_, by simp [hbase], fun t ht => by cases ht⟩
      rw [ChangeType.diff, if_neg (by simp [hle]), if_pos hbase]
    · refine ⟨some t, diff_of_grows hle ht, ?_, ?_⟩
      · rw [base_eq_iff, ht.1]
        simp
      · intro t' ht'
        obtain rfl := Option.some.inj ht'
        exact ht.1

/-! ## The next version -/

/-- The version with the component of `t` counted up and zeros behind it: the least of the
releases that differ in this way. -/
structure IsBump (final : ρ) (t : ChangeType) (v r : Version ρ) : Prop where
  before : ∀ i < bumpIndex t, component r.release i = component v.release i
  counted : component r.release (bumpIndex t) = component v.release (bumpIndex t) + 1
  behind : ∀ i > bumpIndex t, component r.release i = 0
  greater : (v.base final).lt r = true
  least : ∀ w : Version ρ, w.suffix = final → (v.base final).lt w = true →
    firstDifference v.release w.release = some (bumpIndex t) → w.lt r = false
  diff : ChangeType.diff final (v.base final) r = .ok (some t)

theorem isBump_bumpParts (h : v.epoch = 0) (t : ChangeType) : IsBump final t v
    ⟨0, bumpParts (bumpIndex t) v.release, bumpParts_ne_nil _ _, final⟩ := by
  have hbefore : ∀ i < bumpIndex t,
      component (bumpParts (bumpIndex t) v.release) i = component v.release i := by
    intro i hi
    rw [component_bumpParts, if_pos hi]
  have hcounted : component (bumpParts (bumpIndex t) v.release) (bumpIndex t)
      = component v.release (bumpIndex t) + 1 := by
    rw [component_bumpParts, if_neg (by omega), if_pos rfl]
  have hbehind : ∀ i > bumpIndex t, component (bumpParts (bumpIndex t) v.release) i = 0 := by
    intro i hi
    rw [component_bumpParts, if_neg (by omega), if_neg (by omega)]
  have hfirst : firstDifference v.release (bumpParts (bumpIndex t) v.release)
      = some (bumpIndex t) :=
    firstDifference_eq_some.mpr ⟨by omega, fun j hj => (hbefore j hj).symm⟩
  refine ⟨hbefore, hcounted, hbehind, ?_, ?_, ?_⟩
  · exact (lt_iff_of_firstDifference h hfirst).mpr (by simp only [Version.base]; omega)
  · intro w hsuffix hgreater hw
    by_contra hlt
    rw [Bool.not_eq_false] at hlt
    have hepoch : w.epoch = 0 := by
      by_contra hne
      simp [Version.lt, hne] at hlt
    have hvw : component v.release (bumpIndex t) < component w.release (bumpIndex t) :=
      (@lt_iff_of_firstDifference _ _ (v.base final) w _ (h.trans hepoch.symm) hw).mp hgreater
    have hwr : releaseLt w.release (bumpParts (bumpIndex t) v.release) = true := by
      simpa [Version.lt, hepoch, hsuffix, lt_irrefl] using hlt
    obtain ⟨i, hi, hlti⟩ := releaseLt_iff.mp hwr
    -- `w` is below the result at no component: before it is `v`, behind it nothing is below zero
    rcases Nat.lt_trichotomy i (bumpIndex t) with hlow | rfl | hhigh
    · have hvwi := (firstDifference_eq_some.mp hw).2 i hlow
      have hri := hbefore i hlow
      omega
    · omega
    · have hri := hbehind i hhigh
      omega
  · refine diff_of_grows ?_ ⟨hfirst, by simp only [Version.base]; omega⟩
    rw [← Bool.not_eq_true, lt_iff_of_firstDifference (i := bumpIndex t) h.symm]
    · simp only [Version.base]
      omega
    · rw [firstDifference_comm]
      exact hfirst

/-- `bump_version` without a tag gives the next version. -/
def BumpRight (parse : List ℕ → String → Except String (Version ρ)) (final : ρ) (t : ChangeType)
    (v : Version ρ) : Prop :=
  ∃ r, bumpVersion parse t v "" = .ok r ∧ IsBump final t v r

variable {parse : List ℕ → String → Except String (Version ρ)}

/-- With an epoch the first part of the base version is no number. -/
theorem bumpRight_iff
    (hparse : ∀ release h, parse release "" = .ok ⟨0, release, h, final⟩) :
    BumpRight parse final t v ↔ v.epoch = 0 := by
  constructor
  · rintro ⟨r, hr, -⟩
    by_contra hepoch
    obtain ⟨e, he⟩ := mapM_int_baseParts_epoch hepoch
    rw [bumpVersion, he] at hr
    cases hr
  · intro hepoch
    refine ⟨_, ?_, isBump_bumpParts hepoch t⟩
    rw [bumpVersion, mapM_int_baseParts hepoch]
    exact hparse _ (bumpParts_ne_nil _ _)

/-- The two functions do what they are for on versions without an epoch, as long as no change is
behind the fourth component. -/
theorem bump_and_diff_right_iff
    (hparse : ∀ release h, parse release "" = .ok ⟨0, release, h, final⟩)
    (hle : high.lt low = false) :
    BumpRight parse final t v ∧ DiffRight final low high ↔
      v.epoch = 0 ∧ ((low.base final).eq (high.base final) = true ∨ ∃ t, Grows low high t) :=
  and_congr (bumpRight_iff hparse) (diffRight_iff hle)

end

/-- Releases without a suffix, which is `1`: `0` is a development release. -/
def parseRelease (release : List ℕ) (tag : String) : Except String (Version ℕ) :=
  if h : release ≠ [] ∧ tag = "" then .ok ⟨0, release, h.1, 1⟩ else .error "Invalid version"

theorem bump_and_diff_right_of_minor :
    let v : Version ℕ := ⟨0, [1, 2, 3], by decide, 1⟩
    let high : Version ℕ := ⟨0, [1, 3], by decide, 1⟩
    BumpRight parseRelease 1 .minor v ∧ DiffRight 1 v high ↔
      v.epoch = 0 ∧ ((v.base 1).eq (high.base 1) = true ∨ ∃ t, Grows v high t) := by
  intro v high
  refine bump_and_diff_right_iff (fun release h => ?_) (by decide)
  rw [parseRelease, dif_pos ⟨h, rfl⟩]

/-- `1!2.3` cannot be bumped, and the change from `1.0.0.0.1` to `1.0.0.0.2` has no type. -/
theorem bump_and_diff_not_right :
    let v : Version ℕ := ⟨1, [2, 3], by decide, 1⟩
    let low : Version ℕ := ⟨0, [1, 0, 0, 0, 1], by decide, 1⟩
    let high : Version ℕ := ⟨0, [1, 0, 0, 0, 2], by decide, 1⟩
    bumpVersion parseRelease .patch v ""
        = .error "invalid literal for int() with base 10: '1!2'" ∧
      ¬ BumpRight parseRelease 1 .patch v ∧ high.lt low = false ∧
      ChangeType.diff 1 low high = .error .undetermined ∧ ¬ DiffRight 1 low high := by
  intro v low high
  have hbump : bumpVersion parseRelease .patch v ""
      = .error "invalid literal for int() with base 10: '1!2'" := by
    simp [bumpVersion, Version.baseParts, int, v]
    rfl
  have hdiff : ChangeType.diff 1 low high = .error .undetermined := rfl
  refine ⟨hbump, ?_, by decide, hdiff, ?_⟩
  · rintro ⟨r, hr, -⟩
    rw [hbump] at hr
    cases hr
  · rintro ⟨res, hres, -⟩
    rw [hdiff] at hres
    cases hres

end VersionBump

end Inmanta
