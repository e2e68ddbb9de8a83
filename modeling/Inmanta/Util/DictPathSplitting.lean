import Inmanta.Util.DictPathGrammar

/-!
# Splitting of dict paths

A text is split with `findall`, which skips what the pattern does not match: a
second dot, a dot at the end, a backslash at the end or before a line end, and a
bracket that is not closed. `tidy` is the text without what is skipped. So
the parser accepts a text if and only if its tidy form is in the grammar
(`toDictPath_eq_ok_iff`), and it is exact where nothing is skipped.

The units are read one by one, from left to right: the filter of a keyed list
up to the first bracket that is not escaped, an escaped character, or any other
character but a dot.
-/

namespace Inmanta

open Regex WildComposedPath

/-! ## Units of a text -/

/-- What is up to the first closing bracket that is not escaped, and the rest. -/
def filterEnd : Text → Option (Text × Text)
  | [] => none
  | [c] => if c = ']' then some ([c], []) else none
  | c :: d :: s =>
      if c = ']' then some ([c], d :: s)
      else if c = '\\' then
        if d = '\n' then none else (filterEnd s).map fun x => (c :: d :: x.1, x.2)
      else (filterEnd (d :: s)).map fun x => (c :: x.1, x.2)

/-- The unit at the start of a text, and the rest. -/
def unit : Text → Option (Text × Text)
  | [] => none
  | c :: s =>
      if c = '.' then none
      else if c = '[' then (filterEnd s).map fun x => (c :: x.1, x.2)
      else if c = '\\' then
        match s with
        | [] => none
        | d :: s => if d = '\n' then none else some ([c, d], s)
      else some ([c], s)

theorem filterEnd_close (s : Text) : filterEnd (']' :: s) = some ([']'], s) := by
  cases s <;> rw [filterEnd, if_pos rfl]

theorem filterEnd_escape {d : Char} (hd : d ≠ '\n') (s : Text) :
    filterEnd ('\\' :: d :: s) = (filterEnd s).map fun x => ('\\' :: d :: x.1, x.2) := by
  rw [filterEnd, if_neg (by decide), if_pos rfl, if_neg hd]

theorem filterEnd_other {c : Char} (hc : c ≠ ']') (hc' : c ≠ '\\') (s : Text) :
    filterEnd (c :: s) = (filterEnd s).map fun x => (c :: x.1, x.2) := by
  cases s with
  | nil => simp [filterEnd, hc]
  | cons d s => rw [filterEnd, if_neg hc, if_neg hc']

theorem filterEnd_stuck {s : Text} (h : s = [] ∨ s = ['\\'] ∨ ∃ s', s = '\\' :: '\n' :: s') :
    filterEnd s = none := by
  obtain rfl | rfl | ⟨s', rfl⟩ := h <;> simp [filterEnd]

/-- How a text is read up to the end of a filter. -/
@[elab_as_elim] theorem filter_induction {P : Text → Prop}
    (stuck : ∀ s, (s = [] ∨ s = ['\\'] ∨ ∃ s', s = '\\' :: '\n' :: s') → P s)
    (close : ∀ s, P (']' :: s)) (escape : ∀ d s, d ≠ '\n' → P s → P ('\\' :: d :: s))
    (other : ∀ c s, c ≠ ']' → c ≠ '\\' → P s → P (c :: s)) (s : Text) : P s := by
  induction s using filterEnd.induct with
  | case1 => exact stuck [] (.inl rfl)
  | case2 => exact close []
  | case3 c hc =>
      by_cases hslash : c = '\\'
      · exact stuck [c] (.inr (.inl (by rw [hslash])))
      · exact other c [] hc hslash (stuck [] (.inl rfl))
  | case4 d s => exact close (d :: s)
  | case5 s => exact stuck _ (.inr (.inr ⟨s, rfl⟩))
  | case6 d s hd _ ih => exact escape d s hd ih
  | case7 c d s hc hslash ih => exact other c (d :: s) hc hslash ih

/-- What is found does not depend on the rest. -/
theorem filterEnd_spec {s u r : Text} (h : filterEnd s = some (u, r)) :
    s = u ++ r ∧ ∀ r', filterEnd (u ++ r') = some (u, r') := by
  induction s using filter_induction generalizing u with
  | stuck s hs =>
      rw [filterEnd_stuck hs] at h
      cases h
  | close s =>
      rw [filterEnd_close] at h
      cases h
      exact ⟨rfl, filterEnd_close⟩
  | escape d s hd ih =>
      rw [filterEnd_escape hd] at h
      obtain ⟨⟨u, r⟩, hu, heq⟩ := Option.map_eq_some_iff.mp h
      cases heq
      obtain ⟨rfl, hrest⟩ := ih hu
      refine ⟨rfl, fun r' => ?_⟩
      rw [List.cons_append, List.cons_append, filterEnd_escape hd, hrest]
      rfl
  | other c s hc hslash ih =>
      rw [filterEnd_other hc hslash] at h
      obtain ⟨⟨u, r⟩, hu, heq⟩ := Option.map_eq_some_iff.mp h
      cases heq
      obtain ⟨rfl, hrest⟩ := ih hu
      refine ⟨rfl, fun r' => ?_⟩
      rw [List.cons_append, filterEnd_other hc hslash, hrest]
      rfl

theorem unit_filter (s : Text) :
    unit ('[' :: s) = (filterEnd s).map fun x => ('[' :: x.1, x.2) := by
  simp [unit]

theorem unit_escape {d : Char} (hd : d ≠ '\n') (s : Text) :
    unit ('\\' :: d :: s) = some (['\\', d], s) := by
  simp [unit, hd]

theorem unit_other {c : Char} (h : c ∉ ['.', '\\', '[']) (s : Text) :
    unit (c :: s) = some ([c], s) := by
  simp only [List.mem_cons, List.not_mem_nil, or_false, not_or] at h
  simp [unit, h]

theorem unit_stuck {s : Text}
    (h : s = [] ∨ s = ['\\'] ∨ (∃ s', s = '\\' :: '\n' :: s') ∨ ∃ s', s = '.' :: s') :
    unit s = none := by
  obtain rfl | rfl | ⟨s', rfl⟩ | ⟨s', rfl⟩ := h <;> simp [unit]

/-- The texts by what they start with. -/
theorem unit_cases (s : Text) :
    (s = [] ∨ s = ['\\'] ∨ (∃ s', s = '\\' :: '\n' :: s') ∨ ∃ s', s = '.' :: s') ∨
      (∃ s', s = '[' :: s') ∨ (∃ d s', d ≠ '\n' ∧ s = '\\' :: d :: s') ∨
      ∃ c s', c ∉ ['.', '\\', '['] ∧ s = c :: s' := by
  cases s with
  | nil => exact .inl (.inl rfl)
  | cons c s =>
      by_cases hother : c ∉ ['.', '\\', '[']
      · exact .inr (.inr (.inr ⟨c, s, hother, rfl⟩))
      · simp only [List.mem_cons, List.not_mem_nil, or_false, not_not] at hother
        obtain rfl | rfl | rfl := hother
        · exact .inl (.inr (.inr (.inr ⟨s, rfl⟩)))
        · cases s with
          | nil => exact .inl (.inr (.inl rfl))
          | cons d s =>
              by_cases hd : d = '\n'
              · exact .inl (.inr (.inr (.inl ⟨s, by rw [hd]⟩)))
              · exact .inr (.inr (.inl ⟨d, s, hd, rfl⟩))
        · exact .inr (.inl ⟨s, rfl⟩)

theorem unit_spec {s u r : Text} (h : unit s = some (u, r)) :
    s = u ++ r ∧ u ≠ [] ∧ ∀ r', unit (u ++ r') = some (u, r') := by
  obtain hs | ⟨s', rfl⟩ | ⟨d, s', hd, rfl⟩ | ⟨c, s', hc, rfl⟩ := unit_cases s
  · rw [unit_stuck hs] at h
    cases h
  · rw [unit_filter] at h
    obtain ⟨⟨u, r⟩, hu, heq⟩ := Option.map_eq_some_iff.mp h
    cases heq
    obtain ⟨rfl, hrest⟩ := filterEnd_spec hu
    refine ⟨rfl, List.cons_ne_nil _ _, fun r' => ?_⟩
    rw [List.cons_append, unit_filter, hrest]
    rfl
  · rw [unit_escape hd] at h
    cases h
    exact ⟨rfl, List.cons_ne_nil _ _, unit_escape hd⟩
  · rw [unit_other hc] at h
    cases h
    exact ⟨rfl, List.cons_ne_nil _ _, unit_other hc⟩

/-! ## The pattern reads units -/

/-- The results of a filter, one unit of it at a time. -/
theorem head_filterEnd (s : Text) :
    ((seq (lazyStar filterCharacter) (lit ']')).results s).head? =
      (filterEnd s).map fun x => ([], x.2) := by
  have hstep : ∀ {u rest : Text}, filterCharacter.results (u ++ rest) = [([], rest)] → u ≠ [] →
      (u ++ rest).head? ≠ some ']' →
      (seq (lazyStar filterCharacter) (lit ']')).results (u ++ rest) =
        (seq (lazyStar filterCharacter) (lit ']')).results rest := by
    intro u rest hu hne hhead
    rw [results_seq, results_lazyStar_cons hu hne, List.flatMap_cons, results_lit_eq_nil hhead,
      List.map_nil, List.nil_append, results_seq]
  induction s using filter_induction with
  | stuck s hs =>
      rw [filterEnd_stuck hs]
      have hnone : filterCharacter.results s = [] := by
        obtain rfl | rfl | ⟨s', rfl⟩ := hs <;>
          simp [filterCharacter, results_seq_of_nil, results_seq_of_singleton, results_lit_cons]
      have hhead : s.head? ≠ some ']' := by
        obtain rfl | rfl | ⟨s', rfl⟩ := hs <;> simp
      rw [results_seq, results_lazyStar, lazyResults, hnone]
      simp [results_lit_eq_nil hhead]
  | close s =>
      rw [filterEnd_close, results_seq, results_lazyStar, lazyResults]
      simp
  | escape d s hd ih =>
      rw [filterEnd_escape hd, Option.map_map]
      have := hstep (u := ['\\', d]) (results_filterEscape hd s) (List.cons_ne_nil _ _) (by simp)
      rw [show '\\' :: d :: s = ['\\', d] ++ s from rfl, this, ih]
      rfl
  | other c s hc hslash ih =>
      rw [filterEnd_other hc hslash, Option.map_map]
      have := hstep (u := [c]) (results_filterCharacter hslash s) (List.cons_ne_nil _ _)
        (by simpa using hc)
      rw [show c :: s = [c] ++ s from rfl, this, ih]
      rfl

theorem head_unit (s : Text) :
    (segmentUnit.results s).head? = (unit s).map fun x => ([], x.2) := by
  have hslash : ∀ s, keyedListFilter.results ('\\' :: s) = [] := fun s =>
    results_keyedListFilter_eq_nil (fun he => by cases he)
  obtain hs | ⟨s', rfl⟩ | ⟨d, s', hd, rfl⟩ | ⟨c, s', hc, rfl⟩ := unit_cases s
  · rw [unit_stuck hs]
    obtain rfl | rfl | ⟨s', rfl⟩ | ⟨s', rfl⟩ := hs
    · rw [results_segmentUnit_nil]
      rfl
    · simp [segmentUnit, hslash, results_seq_of_singleton]
    · simp [segmentUnit, hslash, results_seq_of_singleton]
    · rw [results_segmentUnit_dot]
      rfl
  · have hother : (alt (chr (· ∉ ['.', '\\', '['])) (seq (lit '\\') (chr (· ≠ '\n')))).results
        ('[' :: s') = [] := by
      rw [results_alt, results_chr_cons, results_seq_of_nil (by simp)]
      rfl
    rw [unit_filter, Option.map_map, segmentUnit, results_alt, hother, List.append_nil,
      keyedListFilter, results_seq_of_singleton (results_lit_cons _ _)]
    exact head_filterEnd s'
  · rw [unit_escape hd, results_segmentEscape hd]
    rfl
  · rw [unit_other hc, results_segmentUnit hc]
    rfl

theorem results_eq_nil_of_unit {s : Text} (h : unit s = none) : segmentUnit.results s = [] := by
  have hhead := head_unit s
  rw [h] at hhead
  exact List.head?_eq_none_iff.mp hhead

/-! ## The pieces of a text -/

/-- The units from the start of a text on, and the rest. -/
def units (s : Text) : Text × Text :=
  match _h : unit s with
  | none => ([], s)
  | some (u, r) => (u ++ (units r).1, (units r).2)
termination_by s.length
decreasing_by
  obtain ⟨rfl, hne, -⟩ := unit_spec _h
  have := List.length_pos_iff.mpr hne
  rw [List.length_append]
  omega

theorem units_none {s : Text} (h : unit s = none) : units s = ([], s) := by
  rw [units]
  split
  · rfl
  · next h' => rw [h] at h'; cases h'

theorem units_some {s u r : Text} (h : unit s = some (u, r)) :
    units s = (u ++ (units r).1, (units r).2) := by
  rw [units]
  split
  · next h' => rw [h] at h'; cases h'
  · next h' => rw [h] at h'; cases h'; rfl

theorem units_spec (s : Text) : s = (units s).1 ++ (units s).2 ∧
    FirstUnits segmentUnit (units s).1 ∧ unit (units s).2 = none := by
  induction s using units.induct with
  | case1 s h =>
      rw [units_none h]
      exact ⟨rfl, .nil, h⟩
  | case2 s u r h ih =>
      obtain ⟨htext, hfirst, hstop⟩ := ih
      obtain ⟨rfl, hne, hunit⟩ := unit_spec h
      rw [units_some h]
      refine ⟨?_, .cons hne (fun r' => ?_) hfirst, hstop⟩
      · rw [List.append_assoc, ← htext]
      · rw [head_unit, hunit]
        rfl

theorem units_length {s : Text} (h : (units s).1 ≠ []) : (units s).2.length < s.length := by
  have hlen := congrArg List.length (units_spec s).1
  have hpos := List.length_pos_iff.mpr h
  rw [List.length_append] at hlen
  omega

/-- The longest sequences of units, from left to right. -/
def pieces (s : Text) : List Text :=
  if _h : (units s).1 ≠ [] then (units s).1 :: pieces (units s).2
  else
    match s with
    | [] => []
    | _ :: s => pieces s
termination_by s.length
decreasing_by
  · exact units_length _h
  · simp

/-- The text without what is skipped. -/
def tidy (s : Text) : Text := List.intercalate ['.'] (pieces s)

theorem pieces_of_units {s : Text} (h : (units s).1 ≠ []) :
    pieces s = (units s).1 :: pieces (units s).2 := by
  rw [pieces, dif_pos h]

theorem pieces_skip {c : Char} {s : Text} (h : (units (c :: s)).1 = []) :
    pieces (c :: s) = pieces s := by
  rw [pieces, dif_neg (not_not.mpr h)]

theorem pieces_nil : pieces [] = [] := by
  rw [pieces, dif_neg]
  rw [units_none rfl]
  exact not_not.mpr rfl

theorem units_pieces (s : Text) : ∀ w ∈ pieces s, FirstUnits segmentUnit w ∧ w ≠ [] := by
  induction s using pieces.induct with
  | case1 s h ih =>
      rw [pieces_of_units h]
      exact List.forall_mem_cons.mpr ⟨⟨(units_spec s).2.1, h⟩, ih⟩
  | case2 h =>
      rw [pieces_nil]
      exact fun w hw => absurd hw List.not_mem_nil
  | case3 c s h ih =>
      rw [pieces_skip (not_not.mp h)]
      exact ih

/-- `findall` finds the pieces. -/
theorem findAll_eq (s : Text) :
    composedDictPathPattern.findAll s = (pieces s).map fun w => (w, []) := by
  induction s using pieces.induct with
  | case1 s h ih =>
      obtain ⟨htext, hfirst, hstop⟩ := units_spec s
      have hfind := findAll_units hfirst h (results_eq_nil_of_unit hstop)
      rw [← htext] at hfind
      rw [pieces_of_units h, hfind, ih]
      rfl
  | case2 h =>
      rw [pieces_nil]
      exact findAll_nil
  | case3 c s h ih =>
      have hunit : unit (c :: s) = none := by
        cases hu : unit (c :: s) with
        | none => rfl
        | some x =>
            obtain ⟨u, r⟩ := x
            rw [units_some hu] at h
            exact absurd (List.append_ne_nil_of_left_ne_nil (unit_spec hu).2.1 _) h
      rw [pieces_skip (not_not.mp h), ← ih]
      exact findAll_skip (nextMatch_eq_none
        (results_seq_of_nil (results_eq_nil_of_unit hunit)))

theorem pieces_intercalate {ws : List Text} (h : ∀ w ∈ ws, FirstUnits segmentUnit w ∧ w ≠ []) :
    pieces (List.intercalate ['.'] ws) = ws := by
  have hfind := (findAll_eq _).symm.trans (findAll_intercalate h)
  exact List.map_injective_iff.mpr (fun _ _ he => (Prod.mk.inj he).1) hfind

/-- Nothing is left to skip. -/
theorem pieces_tidy (s : Text) : pieces (tidy s) = pieces s := pieces_intercalate (units_pieces s)

theorem splitOnDots_eq_ok_iff {s : Text} {parts : List Text} :
    splitOnDots s = .ok parts ↔ parts ≠ [] ∧ pieces s = parts := by
  have hmap : (composedDictPathPattern.findAll s).map Prod.fst = pieces s := by
    rw [findAll_eq, List.map_map]
    exact List.map_id _
  rw [splitOnDots, hmap]
  cases pieces s with
  | nil => exact iff_of_false (fun h => by cases h) fun h => h.1 h.2.symm
  | cons w ws =>
      constructor
      · intro h
        obtain rfl := Except.ok.inj h
        exact ⟨List.cons_ne_nil w ws, rfl⟩
      · rintro ⟨-, rfl⟩
        rfl

/-! ## Segments consist of units -/

theorem filterEnd_token (t : PathToken) (s : Text) :
    filterEnd (t.text ++ s) = (filterEnd s).map fun x => (t.text ++ x.1, x.2) := by
  obtain ⟨c, hc, -, htext⟩ | ⟨-, htext⟩ | ⟨c, htext, hc, -⟩ := t.text_cases
  · rw [htext]
    exact filterEnd_escape (special_ne_newline hc) s
  · rw [htext]
    exact filterEnd_escape (by decide) s
  · rw [htext]
    simp only [List.mem_cons, List.not_mem_nil, or_false, not_or] at hc
    exact filterEnd_other hc.2.2.1 hc.1 s

theorem filterEnd_textOf (ts : List PathToken) (s : Text) :
    filterEnd (PathToken.textOf ts ++ s) =
      (filterEnd s).map fun x => (PathToken.textOf ts ++ x.1, x.2) := by
  induction ts with
  | nil => exact (congrFun Option.map_id _).symm
  | cons t ts ih =>
      rw [PathToken.textOf_cons, List.append_assoc, filterEnd_token, ih, Option.map_map]
      exact congrArg (Option.map · _) (funext fun x => Prod.ext (List.append_assoc ..).symm rfl)

theorem unit_pair (pair : SpelledPair) (s : Text) :
    unit (pair.text ++ s) = some (pair.text, s) := by
  have htext : pair.text ++ s = '[' :: (PathToken.textOf pair.1.tokens ++
      '=' :: (PathToken.textOf pair.2.tokens ++ ']' :: s)) := by
    simp [SpelledPair.text, textOf_tokens, SpelledValue.text]
  rw [htext, unit_filter, filterEnd_textOf, filterEnd_other (by decide) (by decide),
    filterEnd_textOf, filterEnd_close]
  simp [SpelledPair.text, textOf_tokens, SpelledValue.text]

theorem firstUnits_pairs (pairs : List SpelledPair) :
    FirstUnits segmentUnit (pairs.flatMap SpelledPair.text) := by
  induction pairs with
  | nil => exact .nil
  | cons pair pairs ih =>
      refine .cons (pair_text_ne_nil pair) (fun s => ?_) ih
      rw [head_unit, unit_pair]
      rfl

/-- The dots in a segment are escaped or between brackets. -/
theorem firstUnits_text {t : SpelledSegment} (h : t.WellFormed) :
    FirstUnits segmentUnit t.text ∧ t.text ≠ [] := by
  cases t with
  | key key => exact @firstUnits_toStr (.inDict key) h
  | keyedList relation pairs =>
      obtain ⟨⟨v, hv, hrel⟩, -⟩ := h
      obtain rfl := DictPathValue.normal.inj hv
      exact ⟨(firstUnits_escapeText relation).append (firstUnits_pairs pairs),
        List.append_ne_nil_of_left_ne_nil (escapeText_ne_nil hrel) _⟩

/-! ## The grammar -/

/-- The text of a path, of which no value is refused: one or more segments with
a dot between them. -/
def IsPath (allowed : DictPathValue → Prop) (s : Text) (path : List WildSegment) : Prop :=
  ∃ ts : List SpelledSegment, ts ≠ [] ∧
    (∀ t ∈ ts, t.WellFormed ∧ t.segment.Allows allowed) ∧
    s = List.intercalate ['.'] (ts.map SpelledSegment.text) ∧ path = ts.map SpelledSegment.segment

/-- A leading dot represents the entire container. -/
def withoutDot (s : Text) : Text := if s.head? = some '.' then s.tail else s

/-- The parser accepts the texts of the grammar, with their paths, and rejects
all others. -/
def Exact (parse : Text → Except DictPathError DictPath) (allowed : DictPathValue → Prop)
    (s : Text) : Prop :=
  (∀ path, IsPath allowed (withoutDot s) path → parse s = .ok (.composed path)) ∧
    ((¬ ∃ path, IsPath allowed (withoutDot s) path) → ∃ msg, parse s = .error (.invalidPath msg))

section Exact

variable {allowed : DictPathValue → Prop} {s : Text} {path : List WildSegment}
  {elementTypes : List (Text → Except DictPathError (Option WildSegment))}

theorem IsPath.pieces (h : IsPath allowed s path) : ∃ ts : List SpelledSegment, ts ≠ [] ∧
    (∀ t ∈ ts, t.WellFormed ∧ t.segment.Allows allowed) ∧
    Inmanta.pieces s = ts.map SpelledSegment.text ∧ path = ts.map SpelledSegment.segment := by
  obtain ⟨ts, hne, hts, rfl, rfl⟩ := h
  refine ⟨ts, hne, hts, pieces_intercalate fun w hw => ?_, rfl⟩
  obtain ⟨t, ht, rfl⟩ := List.mem_map.mp hw
  exact firstUnits_text (hts t ht).1

/-- Nothing is skipped in a text of the grammar. -/
theorem IsPath.tidy_eq (h : IsPath allowed s path) : tidy s = s := by
  obtain ⟨ts, -, hts, rfl, -⟩ := h
  rw [tidy, pieces_intercalate]
  intro w hw
  obtain ⟨t, ht, rfl⟩ := List.mem_map.mp hw
  exact firstUnits_text (hts t ht).1

/-- **What is accepted.** A text is parsed to a path if and only if its tidy
form is in the grammar. -/
theorem doParse_eq_ok_iff
    (hparse : ∀ x segment, parseElement elementTypes x = .ok segment ↔ ∃ t : SpelledSegment,
      (t.WellFormed ∧ t.segment.Allows allowed) ∧ x = t.text ∧ segment = t.segment) :
    doParse elementTypes s = .ok path ↔ IsPath allowed (tidy s) path := by
  rw [doParse, bind_eq_ok]
  constructor
  · rintro ⟨parts, hparts, h⟩
    obtain ⟨hne, hpieces⟩ := splitOnDots_eq_ok_iff.mp hparts
    obtain ⟨ts, hts, rfl, rfl⟩ := (mapM_eq_ok_iff hparse).mp h
    refine ⟨ts, fun he => hne (by rw [he]; rfl), hts, ?_, rfl⟩
    rw [tidy, hpieces]
  · intro h
    obtain ⟨ts, hne, hts, hpieces, rfl⟩ := h.pieces
    rw [pieces_tidy] at hpieces
    refine ⟨_, splitOnDots_eq_ok_iff.mpr ⟨?_, hpieces⟩, (mapM_eq_ok_iff hparse).mpr
      ⟨ts, hts, rfl, rfl⟩⟩
    simpa using hne

theorem toDictPath_eq_ok_iff (hs : s ≠ ['.'])
    (hparse : ∀ x segment, parseElement elementTypes x = .ok segment ↔ ∃ t : SpelledSegment,
      (t.WellFormed ∧ t.segment.Allows allowed) ∧ x = t.text ∧ segment = t.segment) :
    (∀ path, toDictPath elementTypes s = .ok (.composed path) ↔
      IsPath allowed (tidy (withoutDot s)) path) ∧
    ((¬ ∃ path, IsPath allowed (tidy (withoutDot s)) path) →
      ∃ msg, toDictPath elementTypes s = .error (.invalidPath msg)) := by
  have hdo := fun path =>
    @doParse_eq_ok_iff allowed (withoutDot s) path elementTypes hparse
  cases h : doParse elementTypes (withoutDot s) with
  | ok path =>
      have hto : toDictPath elementTypes s = .ok (.composed path) := by
        rw [toDictPath, if_neg hs, ← withoutDot]
        simp only [h]
      refine ⟨fun path' => ?_, fun hnone => absurd ⟨path, (hdo path).mp h⟩ hnone⟩
      rw [← hdo, h, hto, Except.ok.injEq, Except.ok.injEq, DictPath.composed.injEq]
  | error e =>
      have hto : ∃ msg, toDictPath elementTypes s = .error (.invalidPath msg) := by
        rw [toDictPath, if_neg hs, ← withoutDot]
        simp only [h]
        cases e with
        | invalidPath msg => exact ⟨msg, rfl⟩
        | value msg => exact ⟨msg, rfl⟩
      refine ⟨fun path => ?_, fun _ => hto⟩
      obtain ⟨msg, hmsg⟩ := hto
      rw [← hdo, h, hmsg]
      exact iff_of_false (fun he => by cases he) fun he => by cases he

/-- The parser is exact where nothing is skipped, or where what is left is not
in the grammar. -/
theorem exact_toDictPath_iff (hs : s ≠ ['.'])
    (hparse : ∀ x segment, parseElement elementTypes x = .ok segment ↔ ∃ t : SpelledSegment,
      (t.WellFormed ∧ t.segment.Allows allowed) ∧ x = t.text ∧ segment = t.segment) :
    Exact (toDictPath elementTypes) allowed s ↔
      tidy (withoutDot s) = withoutDot s ∨ ¬ ∃ path, IsPath allowed (tidy (withoutDot s)) path := by
  obtain ⟨hok, herror⟩ := toDictPath_eq_ok_iff hs hparse
  constructor
  · rintro ⟨-, hreject⟩
    refine or_iff_not_imp_right.mpr fun hpath => ?_
    obtain ⟨path, hpath⟩ := not_not.mp hpath
    by_contra htidy
    obtain ⟨msg, hmsg⟩ := hreject fun ⟨path', hpath'⟩ => htidy hpath'.tidy_eq
    rw [(hok path).mpr hpath] at hmsg
    cases hmsg
  · rintro (htidy | hnone)
    · rw [htidy] at hok herror
      exact ⟨fun path hpath => (hok path).mpr hpath, herror⟩
    · refine ⟨fun path hpath => absurd ⟨path, ?_⟩ hnone, fun _ => herror hnone⟩
      rw [hpath.tidy_eq]
      exact hpath

end Exact

/-- **The parser and its grammar.** `to_wild_path`, and `to_path` with the
grammar without wildcards, are exact on a text if and only if `findall` skips
nothing of it, or what it leaves is not in the grammar. -/
theorem parser_exact_iff (s : Text) (hs : s ≠ ['.']) :
    (Exact toWildPath (fun _ => True) s ↔ tidy (withoutDot s) = withoutDot s ∨
      ¬ ∃ path, IsPath (fun _ => True) (tidy (withoutDot s)) path) ∧
    (Exact toPath (· ≠ .wildCard) s ↔ tidy (withoutDot s) = withoutDot s ∨
      ¬ ∃ path, IsPath (· ≠ .wildCard) (tidy (withoutDot s)) path) :=
  ⟨exact_toDictPath_iff hs fun _ _ => parseElement_wild,
    exact_toDictPath_iff hs fun _ _ => parseElement_strict⟩

theorem tidy_key (c : Char) (hc : c ∉ ['.', '\\', '[']) (s : Text) :
    units (c :: '.' :: s) = ([c], '.' :: s) ∧ units [c] = ([c], []) := by
  have hdot : units ('.' :: s) = ([], '.' :: s) := units_none (unit_stuck (by simp))
  exact ⟨by rw [units_some (unit_other hc _), hdot]; rfl,
    by rw [units_some (unit_other hc _), units_none rfl]; rfl⟩

theorem pieces_dots : pieces ['a', '.', 'b'] = [['a'], ['b']] ∧
    pieces ['a', '.', '.', 'b'] = [['a'], ['b']] := by
  have hdot : ∀ s, pieces ('.' :: s) = pieces s := fun s => pieces_skip (by
    rw [units_none (unit_stuck (by simp))])
  have hkey : ∀ s, pieces ('a' :: '.' :: s) = ['a'] :: pieces s := fun s => by
    rw [pieces_of_units] <;> rw [(tidy_key 'a' (by decide) s).1]
    · rw [hdot]
    · exact List.cons_ne_nil _ _
  have hlast : pieces ['b'] = [['b']] := by
    rw [pieces_of_units] <;> rw [(tidy_key 'b' (by decide) []).2]
    · rw [pieces_nil]
    · exact List.cons_ne_nil _ _
  exact ⟨by rw [hkey, hlast], by rw [hkey, hdot, hlast]⟩

theorem parser_exact_iff_singleDot : Exact toWildPath (fun _ => True) ['a', '.', 'b'] ∧
    Exact toPath (· ≠ .wildCard) ['a', '.', 'b'] := by
  have htidy : tidy (withoutDot ['a', '.', 'b']) = withoutDot ['a', '.', 'b'] := by
    show tidy ['a', '.', 'b'] = _
    rw [tidy, pieces_dots.1]
    rfl
  obtain ⟨hwild, hstrict⟩ := parser_exact_iff ['a', '.', 'b'] (by decide)
  exact ⟨hwild.mpr (.inl htidy), hstrict.mpr (.inl htidy)⟩

/-- Of two dots in a row, one is skipped: the text is parsed like `a.b`. -/
theorem doubleDot_not_exact : ¬ Exact toWildPath (fun _ => True) ['a', '.', '.', 'b'] := by
  have htidy : tidy (withoutDot ['a', '.', '.', 'b']) = ['a', '.', 'b'] := by
    show tidy ['a', '.', '.', 'b'] = _
    rw [tidy, pieces_dots.2]
    rfl
  have hpath : IsPath (fun _ => True) ['a', '.', 'b']
      [.inDict (.normal ['a']), .inDict (.normal ['b'])] := by
    refine ⟨[.key (.normal ['a']), .key (.normal ['b'])], List.cons_ne_nil _ _, ?_, ?_, rfl⟩
    · simp [SpelledSegment.WellFormed, SpelledSegment.segment, WildSegment.WellFormed,
        WildSegment.Allows, DictPathValue.IsKey]
    · simp only [List.map_cons, List.map_nil, SpelledSegment.text, escape_normal]
      rfl
  rw [toWildPath, exact_toDictPath_iff (by decide) fun _ _ => parseElement_wild, htidy]
  rintro (he | hnone)
  · exact absurd he (by decide)
  · exact hnone ⟨_, hpath⟩

end Inmanta
