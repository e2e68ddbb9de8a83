import Inmanta.Util.DictPath
import Mathlib.Data.List.Nodup

/-!
# Printing and parsing of dict paths

A path that is printed is parsed to the same path. The three regular
expressions read the printed text in one way only: an escaped text consists of
units, which are a normal character or an escaped one, and the characters of the
syntax are none of these.
-/

namespace Inmanta

open Regex

/-! ## Escaped texts -/

def escapeChar (c : Char) : Text := if c ∈ specialCharacters then ['\\', c] else [c]

def escapeText (v : Text) : Text := v.flatMap escapeChar

theorem escapeChar_ne_nil (c : Char) : escapeChar c ≠ [] := by
  unfold escapeChar
  split <;> simp

theorem escapeText_ne_nil {v : Text} (h : v ≠ []) : escapeText v ≠ [] := by
  obtain ⟨c, v, rfl⟩ := List.exists_cons_of_ne_nil h
  rw [escapeText, List.flatMap_cons]
  exact List.append_ne_nil_of_left_ne_nil (escapeChar_ne_nil c) _

theorem results_specialCharacter (c : Char) (s : Text) : specialCharacter.results (c :: s) =
    if c ∈ specialCharacters then [([("1", [c])], s)] else [] := by
  have hc := consumed_append [c] s
  rw [List.singleton_append] at hc
  rw [specialCharacter, results, results_chr_cons]
  by_cases h : c ∈ specialCharacters <;> simp [h, hc]

theorem escape_normal (v : Text) : (DictPathValue.normal v).escape = escapeText v := by
  rw [DictPathValue.escape]
  induction v with
  | nil => exact sub_nil
  | cons c v ih =>
      rw [escapeText, List.flatMap_cons, ← escapeText, ← ih, escapeChar]
      by_cases h : c ∈ specialCharacters
      · have hr := results_specialCharacter c v
        rw [if_pos h] at hr
        have hn : specialCharacter.nextMatch ([c] ++ v) = some ([("1", [c])], v) :=
          nextMatch_of_head (by rw [List.singleton_append, hr]; rfl) (List.cons_ne_nil _ _)
        rw [if_pos h]
        exact sub_match hn (List.cons_ne_nil _ _)
      · have hr := results_specialCharacter c v
        rw [if_neg h] at hr ⊢
        exact sub_skip (nextMatch_eq_none hr)

theorem results_escaped {c : Char} (h : c ∈ specialCharacters) (s : Text) :
    escapedSpecialCharacter.results ('\\' :: c :: s) = [([("1", [c])], s)] := by
  have hc := consumed_append [c] s
  rw [List.singleton_append] at hc
  rw [escapedSpecialCharacter, results_seq_of_singleton (results_lit_cons _ _), results,
    results_chr_cons]
  simp [h, hc]

theorem results_escaped_eq_nil {c : Char} (h : c ≠ '\\') (s : Text) :
    escapedSpecialCharacter.results (c :: s) = [] :=
  results_seq_of_nil (by simp [h])

theorem unescape_skip {c : Char} (h : c ≠ '\\') (s : Text) :
    escapedSpecialCharacter.sub (fun m => m.get "1") (c :: s) =
      c :: escapedSpecialCharacter.sub (fun m => m.get "1") s :=
  sub_skip (nextMatch_eq_none (results_escaped_eq_nil h _))

theorem unescape_escapeChar (c : Char) (s : Text) :
    escapedSpecialCharacter.sub (fun m => m.get "1") (escapeChar c ++ s) =
      c :: escapedSpecialCharacter.sub (fun m => m.get "1") s := by
  rw [escapeChar]
  by_cases h : c ∈ specialCharacters
  · rw [if_pos h]
    have hn : escapedSpecialCharacter.nextMatch (['\\', c] ++ s) = some ([("1", [c])], s) :=
      nextMatch_of_head (by
        rw [show ['\\', c] ++ s = '\\' :: c :: s from rfl, results_escaped h]
        rfl) (List.cons_ne_nil _ _)
    rw [sub_match hn (List.cons_ne_nil _ _)]
    rfl
  · have hne : c ≠ '\\' := fun he => h (by rw [he]; decide)
    rw [if_neg h, List.singleton_append, unescape_skip hne]

theorem unescape_escapeText (v : Text) :
    escapedSpecialCharacter.sub (fun m => m.get "1") (escapeText v) = v := by
  induction v with
  | nil => exact sub_nil
  | cons c v ih =>
      rw [escapeText, List.flatMap_cons, ← escapeText, unescape_escapeChar, ih]

/-- An escaped text is never one of the markers. -/
theorem escapeText_ne_marker (v : Text) : escapeText v ≠ DictPathValue.wildCardCharacter ∧
    escapeText v ≠ DictPathValue.nullValueCharacter := by
  cases v with
  | nil => exact ⟨by decide, by decide⟩
  | cons c v =>
      rw [escapeText, List.flatMap_cons, escapeChar]
      by_cases h : c ∈ specialCharacters
      · rw [if_pos h]
        refine ⟨fun he => ?_, fun he => ?_⟩
        · exact absurd (List.cons.inj he).1 (by decide)
        · obtain ⟨rfl, -⟩ := List.cons.inj (List.cons.inj he).2
          exact absurd h (by decide)
      · rw [if_neg h]
        refine ⟨fun he => h ?_, fun he => h ?_⟩
        · rw [(List.cons.inj he).1]
          decide
        · rw [(List.cons.inj he).1]
          decide

/-- Values keep their meaning. -/
theorem create_escape (value : DictPathValue) : DictPathValue.create value.escape = value := by
  cases value with
  | normal v =>
      obtain ⟨hw, hn⟩ := escapeText_ne_marker v
      rw [escape_normal, DictPathValue.create, if_neg hw, if_neg hn, unescape_escapeText]
  | wildCard => rfl
  | null => rfl

theorem escape_injective {value value' : DictPathValue} (h : value.escape = value'.escape) :
    value = value' := by
  rw [← create_escape value, h, create_escape]

/-! ## Units -/

open WildKeyedList

/-- What the group in an escaped character captures. -/
def unitCaptures (v : Text) : Captures :=
  v.flatMap fun c => if c ∈ specialCharacters then [("1", [c])] else []

theorem name_of_mem_unitCaptures {v : Text} {x : String × Text} (h : x ∈ unitCaptures v) :
    x.1 = "1" := by
  obtain ⟨c, -, hc⟩ := List.mem_flatMap.mp h
  split at hc
  · rw [List.mem_singleton.mp hc]
  · cases hc

theorem results_normalCharacter (c : Char) (s : Text) : normalCharacter.results (c :: s) =
    if c ∈ specialCharacters then [] else [([], s)] := by
  rw [normalCharacter, results_chr_cons]
  by_cases h : c ∈ specialCharacters <;> simp [h]

theorem results_character_escape (c : Char) (s : Text) :
    character.results (escapeChar c ++ s) =
      [(if c ∈ specialCharacters then [("1", [c])] else [], s)] := by
  rw [character, results_alt, escapeChar]
  by_cases h : c ∈ specialCharacters
  · rw [if_pos h, if_pos h, List.cons_append, List.singleton_append, results_escaped h,
      results_normalCharacter, if_pos (by decide)]
    rfl
  · have hne : c ≠ '\\' := fun he => h (by rw [he]; decide)
    rw [if_neg h, if_neg h, List.singleton_append, results_normalCharacter, if_neg h,
      results_escaped_eq_nil hne]
    rfl

/-- The characters that an escaped text can start with. -/
def Starts (c : Char) : Prop := c = '\\' ∨ c ∉ specialCharacters

theorem head_escapeChar (c : Char) (s : Text) :
    ∃ c', (escapeChar c ++ s).head? = some c' ∧ Starts c' := by
  unfold escapeChar
  by_cases h : c ∈ specialCharacters
  · rw [if_pos h]
    exact ⟨_, rfl, Or.inl rfl⟩
  · rw [if_neg h]
    exact ⟨_, rfl, Or.inr h⟩

/-- An escaped text does not go on here. -/
def NoStart (s : Text) : Prop := ∀ c, s.head? = some c → ¬ Starts c

theorem not_starts {c : Char} (h : c ∈ specialCharacters) (hne : c ≠ '\\') : ¬ Starts c :=
  fun hs => hs.elim hne fun hn => hn h

theorem noStart_of_head {s : Text} {c : Char} (hs : s.head? = some c) (h : c ∈ specialCharacters)
    (hne : c ≠ '\\') : NoStart s := fun _ hc =>
  Option.some.inj (hs.symm.trans hc) ▸ not_starts h hne

theorem head_ne_of_not_noStart {s : Text} (hs : ¬ NoStart s) {c : Char}
    (h : c ∈ specialCharacters) (hne : c ≠ '\\') : s.head? ≠ some c := fun he =>
  hs (noStart_of_head he h hne)

theorem results_character_eq_nil {s : Text} (h : NoStart s) : character.results s = [] := by
  cases s with
  | nil => rw [character, results_alt, normalCharacter, results_chr_nil,
      escapedSpecialCharacter, results_seq_of_nil (results_lit_nil _)]; rfl
  | cons c s =>
      obtain ⟨hne, hs⟩ := not_or.mp (h c rfl)
      rw [character, results_alt, results_normalCharacter, if_pos (not_not.mp hs),
        results_escaped_eq_nil hne]
      rfl

theorem units_escapeText {a : Regex} (ha : ∀ c s, a.results (escapeChar c ++ s) =
      [(if c ∈ specialCharacters then [("1", [c])] else [], s)]) (v : Text) :
    Units a NoStart (escapeText v) (unitCaptures v) := by
  induction v with
  | nil => exact .nil
  | cons c v ih =>
      refine .cons (escapeChar_ne_nil c) (ha c) (fun s hs => ?_) ih
      obtain ⟨c', hc', hstart⟩ := head_escapeChar c s
      exact hs c' hc' hstart

theorem head_escapeText {v : Text} (h : v ≠ []) (s : Text) :
    ∃ c, (escapeText v ++ s).head? = some c ∧ Starts c := by
  obtain ⟨c, v, rfl⟩ := List.exists_cons_of_ne_nil h
  rw [escapeText, List.flatMap_cons, List.append_assoc]
  exact head_escapeChar c _

theorem results_lit_eq_nil {x : Char} {s : Text} (h : s.head? ≠ some x) :
    (lit x).results s = [] := by
  cases s with
  | nil => exact results_lit_nil x
  | cons c s =>
      rw [results_lit_cons, if_neg fun hc => h (by rw [hc]; rfl)]

/-! ## Keys -/

def DictPathValue.IsKey : DictPathValue → Prop
  | normal v => v ≠ []
  | wildCard => True
  | null => False

/-- The captures of a value that is read. -/
def valueCaptures : DictPathValue → Captures
  | .normal v => unitCaptures v
  | _ => []

theorem name_of_mem_valueCaptures {value : DictPathValue} {x : String × Text}
    (h : x ∈ valueCaptures value) : x.1 = "1" := by
  cases value with
  | normal v => exact name_of_mem_unitCaptures h
  | wildCard => cases h
  | null => cases h

variable {β : Type} {k : Match → List β} {rest : Text}

/-- A key is read when what follows does not accept a text that can go on. -/
theorem reads_key {key : DictPathValue} (hkey : key.IsKey) (hrest : NoStart rest)
    (hk : ∀ x : Match, ¬ NoStart x.2 → k x = []) :
    Reads (alt (plus character) (lit '*')) k key.escape (valueCaptures key) rest := by
  cases key with
  | normal v =>
      rw [escape_normal]
      refine Reads.alt_left ((units_escapeText results_character_escape v).reads_plus
        (escapeText_ne_nil hkey) (results_character_eq_nil hrest) hk) ?_
      obtain ⟨c, hc, hstart⟩ := head_escapeText hkey rest
      rw [results_lit_eq_nil]
      · rfl
      · rw [hc]
        rintro ⟨⟩
        exact not_starts (by decide) (by decide) hstart
  | wildCard =>
      refine Reads.alt_right ?_ (Reads.of_results ?_)
      · rw [plus, results_seq_of_nil]
        · rfl
        · exact results_character_eq_nil (noStart_of_head rfl (by decide) (by decide))
      · exact results_lit_cons _ _
  | null => exact hkey.elim

/-! ## Selectors -/

theorem results_valueCharacter_escape (c : Char) (s : Text) :
    (alt character (lit '.')).results (escapeChar c ++ s) =
      [(if c ∈ specialCharacters then [("1", [c])] else [], s)] := by
  rw [results_alt, results_character_escape, results_lit_eq_nil]
  · rfl
  · obtain ⟨c', hc', hstart⟩ := head_escapeChar c s
    rw [hc']
    rintro ⟨⟩
    exact not_starts (by decide) (by decide) hstart

theorem results_null_escapeText (v : Text) (hrest : rest.head? = some ']') :
    (alt (lit '*') (seq (lit '\\') (lit '0'))).results (escapeText v ++ rest) = [] := by
  cases v with
  | nil =>
      have hhead : ∀ x, x ≠ ']' → (escapeText [] ++ rest).head? ≠ some x := fun x hx he =>
        hx (Option.some.inj (he.symm.trans hrest))
      rw [results_alt, results_seq_of_nil (results_lit_eq_nil (hhead _ (by decide))),
        results_lit_eq_nil (hhead _ (by decide))]
      rfl
  | cons c v =>
      rw [escapeText, List.flatMap_cons, escapeChar, results_alt]
      by_cases h : c ∈ specialCharacters
      · have hc : c ≠ '0' := fun he => absurd h (by rw [he]; decide)
        rw [if_pos h, results_lit_eq_nil (show _ ≠ _ from fun he => by cases he)]
        simp only [List.cons_append, List.nil_append]
        rw [results_seq_of_singleton (results_lit_cons _ _), results_lit_cons, if_neg hc]
      · have hne : c ≠ '\\' := fun he => h (by rw [he]; decide)
        have hstar : c ≠ '*' := fun he => h (by rw [he]; decide)
        rw [if_neg h]
        simp only [List.cons_append, List.nil_append]
        rw [results_lit_cons, if_neg hstar, results_seq_of_nil]
        · rfl
        · rw [results_lit_cons, if_neg hne]

/-- A value is read when what follows only accepts the end of the selector. -/
theorem reads_value (value : DictPathValue) (hrest : rest.head? = some ']')
    (hk : ∀ x : Match, x.2.head? ≠ some ']' → k x = []) :
    Reads (alt (star (alt character (lit '.'))) (alt (lit '*') (seq (lit '\\') (lit '0')))) k
      value.escape (valueCaptures value) rest := by
  cases value with
  | normal v =>
      rw [escape_normal]
      refine Reads.alt_left ((units_escapeText results_valueCharacter_escape v).reads_star ?_
        fun x hx => hk x (head_ne_of_not_noStart hx (by decide) (by decide))) ?_
      · rw [results_alt, results_lit_eq_nil (by rw [hrest]; decide),
          results_character_eq_nil (noStart_of_head hrest (by decide) (by decide))]
        rfl
      · rw [results_null_escapeText v hrest]
        rfl
  | wildCard =>
      have hnone : (alt character (lit '.')).results ('*' :: rest) = [] := by
        rw [results_alt, results_lit_eq_nil (show _ ≠ _ from fun he => by cases he),
          results_character_eq_nil (noStart_of_head rfl (by decide) (by decide))]
        rfl
      refine Reads.alt_right ?_ (Reads.alt_left (Reads.of_results (results_lit_cons _ _)) ?_)
      · show ((star _).results ('*' :: rest)).flatMap k = []
        rw [results_star_stop hnone, List.flatMap_singleton]
        exact hk _ fun he => by cases he
      · rw [results_seq_of_nil]
        · rfl
        · exact results_lit_eq_nil fun he => by cases he
  | null =>
      have hnone : (alt character (lit '.')).results ('\\' :: '0' :: rest) = [] := by
        have hescaped : escapedSpecialCharacter.results ('\\' :: '0' :: rest) = [] := by
          rw [escapedSpecialCharacter, results_seq_of_singleton (results_lit_cons _ _), results,
            results_chr_cons]
          rfl
        rw [results_alt, results_lit_eq_nil (show _ ≠ _ from fun he => by cases he), character,
          results_alt, hescaped, results_normalCharacter]
        rfl
      refine Reads.alt_right ?_ (Reads.alt_right ?_ (Reads.of_results ?_))
      · show ((star _).results ('\\' :: '0' :: rest)).flatMap k = []
        rw [results_star_stop hnone, List.flatMap_singleton]
        exact hk _ fun he => by cases he
      · show ((lit '*').results ('\\' :: '0' :: rest)).flatMap k = []
        rw [results_lit_eq_nil (fun he => by cases he)]
        rfl
      · show (Regex.seq _ _).results ('\\' :: '0' :: rest) = _
        rw [results_seq_of_singleton (results_lit_cons _ _)]
        exact results_lit_cons _ _

def pairText (pair : DictPathValue × DictPathValue) : Text :=
  ['['] ++ (pair.1.escape ++ (['='] ++ (pair.2.escape ++ [']'])))

def pairCaptures (pair : DictPathValue × DictPathValue) : Captures :=
  valueCaptures pair.1 ++ [("key_attribute", pair.1.escape)] ++
    (valueCaptures pair.2 ++ [("key_value", pair.2.escape)])

/-- A selector is read in one way, whatever follows. -/
theorem results_keyValuePair {pair : DictPathValue × DictPathValue} (hkey : pair.1.IsKey)
    (rest : Text) : keyValuePair.results (pairText pair ++ rest) =
      [(pairCaptures pair, rest)] := by
  have hlit : ∀ {β : Type} (k : Match → List β) (x : Char) (s : Text),
      Reads (lit x) k [x] [] s := fun k x s => Reads.of_results (by simp)
  have h : Reads keyValuePair (fun x => [x]) (pairText pair)
      ([] ++ (valueCaptures pair.1 ++ [("key_attribute", pair.1.escape)] ++
        ([] ++ (valueCaptures pair.2 ++ [("key_value", pair.2.escape)] ++ [])))) rest := by
    refine (hlit _ '[' _).seq (Reads.seq (Reads.group (reads_key hkey
      (noStart_of_head (c := '=') rfl (by decide) (by decide)) ?_)) ((hlit _ '=' _).seq (Reads.seq (Reads.group (reads_value pair.2 rfl ?_)) (hlit _ ']' _))))
    · intro x hx
      rw [results_seq_of_nil (results_lit_eq_nil (head_ne_of_not_noStart hx (by decide)
        (by decide)))]
      rfl
    · intro x hx
      rw [results_lit_eq_nil hx]
      rfl
  simpa [pairCaptures] using h.results_eq

/-! ## Keyed lists -/

def selectorsText (pairs : List (DictPathValue × DictPathValue)) : Text := pairs.flatMap pairText

theorem name_of_mem_pairCaptures {pair : DictPathValue × DictPathValue} {x : String × Text}
    (h : x ∈ pairCaptures pair) : x.1 = "1" ∨ x.1 = "key_attribute" ∨ x.1 = "key_value" := by
  obtain h | h := List.mem_append.mp h
  · obtain h | h := List.mem_append.mp h
    · exact Or.inl (name_of_mem_valueCaptures h)
    · rw [List.mem_singleton.mp h]
      exact Or.inr (Or.inl rfl)
  · obtain h | h := List.mem_append.mp h
    · exact Or.inl (name_of_mem_valueCaptures h)
    · rw [List.mem_singleton.mp h]
      exact Or.inr (Or.inr rfl)

theorem get_pairCaptures (pair : DictPathValue × DictPathValue) :
    (pairCaptures pair).get "key_attribute" = pair.1.escape ∧
      (pairCaptures pair).get "key_value" = pair.2.escape := by
  constructor
  · rw [pairCaptures, get_append, get_concat]
    intro x hx
    obtain hx | hx := List.mem_append.mp hx
    · rw [name_of_mem_valueCaptures hx]
      decide
    · rw [List.mem_singleton.mp hx]
      show "key_value" ≠ "key_attribute"
      decide
  · rw [pairCaptures, ← List.append_assoc, get_concat]

theorem results_keyValuePair_eq_nil {s : Text} (h : s.head? ≠ some '[') :
    keyValuePair.results s = [] :=
  results_seq_of_nil (results_lit_eq_nil h)

theorem pairText_ne_nil (pair : DictPathValue × DictPathValue) : pairText pair ≠ [] :=
  List.cons_ne_nil _ _

variable {pairs : List (DictPathValue × DictPathValue)}

theorem units_selectorsText (hkeys : ∀ pair ∈ pairs, pair.1.IsKey) :
    Units keyValuePair (fun s => s = []) (selectorsText pairs) (pairs.flatMap pairCaptures) := by
  induction pairs with
  | nil => exact .nil
  | cons pair pairs ih =>
      refine .cons (pairText_ne_nil pair) (results_keyValuePair (hkeys pair (by simp)))
        (fun s hs => List.cons_ne_nil _ _ hs) (ih fun p hp => hkeys p (by simp [hp]))

theorem findAll_selectorsText (hkeys : ∀ pair ∈ pairs, pair.1.IsKey) :
    keyValuePair.findAll (selectorsText pairs) =
      pairs.map fun pair => (pairText pair, pairCaptures pair) := by
  induction pairs with
  | nil => exact findAll_nil
  | cons pair pairs ih =>
      have hn : keyValuePair.nextMatch (pairText pair ++ selectorsText pairs) =
          some (pairCaptures pair, selectorsText pairs) :=
        nextMatch_of_head (by rw [results_keyValuePair (hkeys pair (by simp))]; rfl)
          (pairText_ne_nil pair)
      rw [selectorsText, List.flatMap_cons, ← selectorsText,
        findAll_match hn (pairText_ne_nil pair), ih fun p hp => hkeys p (by simp [hp])]
      rfl

theorem head_selectorsText (hne : pairs ≠ []) : (selectorsText pairs).head? = some '[' := by
  obtain ⟨pair, pairs, rfl⟩ := List.exists_cons_of_ne_nil hne
  rfl

theorem noStart_selectorsText (hne : pairs ≠ []) : NoStart (selectorsText pairs) :=
  noStart_of_head (head_selectorsText hne) (by decide) (by decide)

/-- The groups of a keyed list that is printed. -/
theorem fullMatch_keyedList {relation : Text} (hrel : relation ≠ []) (hne : pairs ≠ [])
    (hkeys : ∀ pair ∈ pairs, pair.1.IsKey) : ∃ groups,
      keyedListPattern.fullMatch (escapeText relation ++ selectorsText pairs) = some groups ∧
        groups.get "relation" = escapeText relation ∧
        groups.get "selectors" = selectorsText pairs := by
  have hsel : selectorsText pairs ≠ [] := fun he => by
    have := head_selectorsText hne
    rw [he] at this
    cases this
  have hrelation : character.results (selectorsText pairs ++ []) = [] := by
    rw [List.append_nil]
    exact results_character_eq_nil (noStart_selectorsText hne)
  refine ⟨_, fullMatch_of_reads (Reads.seq (Reads.group ((units_escapeText
    results_character_escape relation).reads_plus (escapeText_ne_nil hrel) hrelation ?_))
    (Reads.group ((units_selectorsText hkeys).reads_plus hsel
      (results_keyValuePair_eq_nil (by decide)) ?_))), ?_, ?_⟩
  · intro x hx
    rw [results, plus, results_seq_of_nil (results_keyValuePair_eq_nil
      (head_ne_of_not_noStart hx (by decide) (by decide)))]
    rfl
  · intro x hx
    exact atEnd_eq_nil _ hx
  · rw [get_append, get_concat]
    intro x hx
    obtain hx | hx := List.mem_append.mp hx
    · obtain ⟨pair, -, hx⟩ := List.mem_flatMap.mp hx
      obtain h | h | h := name_of_mem_pairCaptures hx <;> rw [h] <;> decide
    · rw [List.mem_singleton.mp hx]
      show "selectors" ≠ "relation"
      decide
  · rw [← List.append_assoc, get_concat]

/-! ## Segments -/

def WildSegment.WellFormed : WildSegment → Prop
  | inDict key => key.IsKey
  | keyedList relation pairs => (∃ v, relation = .normal v ∧ v ≠ []) ∧ pairs ≠ [] ∧
      (∀ pair ∈ pairs, pair.1.IsKey) ∧ (pairs.map Prod.fst).Nodup

def WildSegment.NoWildCard : WildSegment → Prop
  | inDict key => key ≠ .wildCard
  | keyedList _ pairs => ∀ pair ∈ pairs, pair.1 ≠ .wildCard ∧ pair.2 ≠ .wildCard

theorem intercalate_selectors {f : DictPathValue × DictPathValue → Text} (hne : pairs ≠ []) :
    ['['] ++ List.intercalate [']', '['] (pairs.map f) ++ [']'] =
      pairs.flatMap fun pair => ['['] ++ f pair ++ [']'] := by
  induction pairs with
  | nil => exact absurd rfl hne
  | cons pair pairs ih =>
      cases pairs with
      | nil => simp [List.intercalate]
      | cons pair' pairs =>
          have := ih (List.cons_ne_nil _ _)
          rw [List.flatMap_cons, ← this]
          simp [List.intercalate]

theorem toStr_keyedList (relation : Text) (hne : pairs ≠ []) :
    (WildSegment.keyedList (.normal relation) pairs).toStr =
      escapeText relation ++ selectorsText pairs := by
  rw [WildSegment.toStr, escape_normal, List.append_assoc, List.append_assoc,
    ← List.append_assoc ['['], intercalate_selectors hne]
  congr 1
  exact List.flatMap_congr fun pair _ => by simp [pairText]

section New

variable {parseKey parseValue : Text → Except DictPathError DictPathValue}

theorem newKeyedList_ok {relation : Text} (hne : pairs ≠ [])
    (hnodup : (pairs.map Prod.fst).Nodup)
    (hpairs : ∀ pair ∈ pairs, parseKey pair.1.escape = .ok pair.1 ∧
      parseValue pair.2.escape = .ok pair.2) :
    WildKeyedList.new parseKey parseValue (escapeText relation)
      (pairs.map fun pair => (pair.1.escape, pair.2.escape)) =
        .ok (.keyedList (.normal relation) pairs) := by
  have hrel := create_escape (.normal relation)
  rw [escape_normal] at hrel
  have hmap : ((pairs.map fun pair => (pair.1.escape, pair.2.escape)).map Prod.fst).Nodup := by
    rw [List.map_map]
    have := List.Nodup.map (fun _ _ h => escape_injective h) hnodup
    rwa [List.map_map] at this
  have hne' : pairs.map (fun pair => (pair.1.escape, pair.2.escape)) ≠ [] := by simpa using hne
  have hloop : (pairs.map fun pair => (pair.1.escape, pair.2.escape)).mapM (fun pair => do
      return (← parseKey pair.1, ← parseValue pair.2)) = .ok pairs :=
    mapM_map_ok fun pair hp => by
      obtain ⟨hk, hv⟩ := hpairs pair hp
      rw [hk, hv]
      rfl
  rw [WildKeyedList.new, hrel]
  simp only [pure_bind, if_neg hne', hmap, not_true_eq_false, if_false, hloop]
  rfl

end New

theorem not_noStart_ne_nil {s : Text} (h : ¬ NoStart s) : s ≠ [] := fun he =>
  h fun c hc => by rw [he] at hc; cases hc

theorem fullMatch_inDict {key : DictPathValue} (hkey : key.IsKey) :
    ∃ groups, WildInDict.inDictPattern.fullMatch key.escape = some groups := by
  have h : Reads WildInDict.inDictPattern atEnd key.escape
      (valueCaptures key ++ [("key", key.escape)]) [] :=
    Reads.group (reads_key hkey (fun c hc => by cases hc) fun x hx =>
      atEnd_eq_nil _ (not_noStart_ne_nil hx))
  exact ⟨_, fullMatch_of_reads h⟩

/-- The text of a keyed list is not read as a key. -/
theorem fullMatch_inDict_keyedList {relation : Text} (hrel : relation ≠ []) (hne : pairs ≠ []) :
    WildInDict.inDictPattern.fullMatch (escapeText relation ++ selectorsText pairs) = none := by
  have hkey : (DictPathValue.normal relation).IsKey := hrel
  have hread : Reads WildInDict.inDictPattern atEnd (DictPathValue.normal relation).escape
      (valueCaptures (.normal relation) ++ [("key", (DictPathValue.normal relation).escape)])
      (selectorsText pairs) :=
    Reads.group (reads_key hkey (noStart_selectorsText hne)
      fun x hx => atEnd_eq_nil _ (not_noStart_ne_nil hx))
  rw [Reads, escape_normal, atEnd_eq_nil] at hread
  · rw [fullMatch_eq, hread]
    rfl
  · intro he
    have := head_selectorsText hne
    rw [show selectorsText pairs = [] from he] at this
    cases this

theorem newInDict_ok {key : DictPathValue} (hkey : key.IsKey) :
    WildInDict.new key.escape = .ok (.inDict key) := by
  rw [WildInDict.new, create_escape]
  cases key with
  | normal v => rfl
  | wildCard => rfl
  | null => exact hkey.elim

theorem parseKey_ok {key : DictPathValue} (hkey : key.IsKey) :
    parseKey key.escape = .ok key := by
  rw [parseKey, create_escape]
  cases key with
  | normal v => rfl
  | wildCard => rfl
  | null => exact hkey.elim

theorem parseValue_ok (value : DictPathValue) : parseValue value.escape = .ok value := by
  rw [parseValue, create_escape]
  rfl

theorem refuseWildCard_ok {parse : Text → Except DictPathError DictPathValue} {s : Text}
    {value : DictPathValue} (h : parse s = .ok value) (hne : value ≠ .wildCard) :
    KeyedList.refuseWildCard parse s = .ok value := by
  rw [KeyedList.refuseWildCard, h]
  cases value with
  | normal v => rfl
  | wildCard => exact absurd rfl hne
  | null => rfl

section Parse

variable {new : Text → List (Text × Text) → Except DictPathError WildSegment}

/-- A keyed list is parsed when its values are accepted. -/
theorem parseKeyedList_ok {relation : Text} (hrel : relation ≠ []) (hne : pairs ≠ [])
    (hkeys : ∀ pair ∈ pairs, pair.1.IsKey)
    (hnew : new (escapeText relation) (pairs.map fun pair => (pair.1.escape, pair.2.escape)) =
      .ok (.keyedList (.normal relation) pairs)) :
    WildKeyedList.parse new (escapeText relation ++ selectorsText pairs) =
      .ok (some (.keyedList (.normal relation) pairs)) := by
  obtain ⟨groups, hmatch, hrelation, hselectors⟩ := fullMatch_keyedList hrel hne hkeys
  have hpairs : (keyValuePair.findAll (selectorsText pairs)).map (fun pair =>
      (pair.2.get "key_attribute", pair.2.get "key_value")) =
        pairs.map fun pair => (pair.1.escape, pair.2.escape) := by
    rw [findAll_selectorsText hkeys, List.map_map]
    refine List.map_congr_left fun pair _ => ?_
    obtain ⟨hkey, hvalue⟩ := get_pairCaptures pair
    show (_, _) = _
    rw [hkey, hvalue]
  rw [WildKeyedList.parse, hmatch]
  simp only [hrelation, hselectors, hpairs, hnew]
  rfl

end Parse

/-- A segment that is printed is parsed by the first type that it is of. -/
theorem parseElement_ok {segment : WildSegment} (h : segment.WellFormed) :
    WildComposedPath.parseElement WildComposedPath.elementTypes segment.toStr = .ok segment := by
  cases segment with
  | inDict key =>
      obtain ⟨groups, hmatch⟩ := fullMatch_inDict h
      rw [WildSegment.toStr, WildComposedPath.elementTypes, WildComposedPath.parseElement,
        WildInDict.parse, hmatch]
      simp only [newInDict_ok h]
      rfl
  | keyedList relation pairs =>
      obtain ⟨⟨v, rfl, hv⟩, hne, hkeys, hnodup⟩ := h
      have hparse := parseKeyedList_ok hv hne hkeys (newKeyedList_ok hne hnodup fun pair hp =>
        ⟨parseKey_ok (hkeys pair hp), parseValue_ok pair.2⟩)
      rw [toStr_keyedList v hne, WildComposedPath.elementTypes, WildComposedPath.parseElement,
        WildInDict.parse, fullMatch_inDict_keyedList hv hne, pure_eq_ok, ok_bind,
        WildComposedPath.parseElement, hparse]
      rfl

theorem parseElement_noWildCard {segment : WildSegment} (h : segment.WellFormed)
    (hno : segment.NoWildCard) :
    WildComposedPath.parseElement ComposedPath.elementTypes segment.toStr = .ok segment := by
  cases segment with
  | inDict key =>
      obtain ⟨groups, hmatch⟩ := fullMatch_inDict h
      have hnew : InDict.new key.escape = .ok (.inDict key) := by
        rw [InDict.new, newInDict_ok h]
        cases key with
        | normal v => rfl
        | wildCard => exact absurd rfl hno
        | null => rfl
      rw [WildSegment.toStr, ComposedPath.elementTypes, WildComposedPath.parseElement,
        InDict.parse, hmatch]
      simp only [hnew]
      rfl
  | keyedList relation pairs =>
      obtain ⟨⟨v, rfl, hv⟩, hne, hkeys, hnodup⟩ := h
      have hparse : KeyedList.parse (escapeText v ++ selectorsText pairs) =
          .ok (some (.keyedList (.normal v) pairs)) :=
        parseKeyedList_ok hv hne hkeys (newKeyedList_ok hne hnodup fun pair hp =>
          ⟨refuseWildCard_ok (parseKey_ok (hkeys pair hp)) (hno pair hp).1,
            refuseWildCard_ok (parseValue_ok pair.2) (hno pair hp).2⟩)
      rw [toStr_keyedList v hne, ComposedPath.elementTypes, WildComposedPath.parseElement,
        InDict.parse, fullMatch_inDict_keyedList hv hne, pure_eq_ok, ok_bind,
        WildComposedPath.parseElement, hparse]
      rfl

/-! ## Splitting on dots -/

open WildComposedPath

/-- What is repeated between the brackets of a filter. -/
def filterCharacter : Regex := alt (chr (· ≠ '\\')) (seq (lit '\\') (chr (· ≠ '\n')))

/-- What is repeated in a segment. -/
def segmentUnit : Regex :=
  alt keyedListFilter (alt (chr (· ∉ ['.', '\\', '['])) (seq (lit '\\') (chr (· ≠ '\n'))))

theorem results_filterCharacter {c : Char} (h : c ≠ '\\') (s : Text) :
    filterCharacter.results (c :: s) = [([], s)] := by
  rw [filterCharacter, results_alt, results_chr_cons, results_seq_of_nil]
  · simp [h]
  · rw [results_lit_cons, if_neg h]

theorem results_filterEscape {c : Char} (h : c ≠ '\n') (s : Text) :
    filterCharacter.results ('\\' :: c :: s) = [([], s)] := by
  rw [filterCharacter, results_alt, results_chr_cons,
    results_seq_of_singleton (results_lit_cons _ _), results_chr_cons]
  simp [h]

theorem special_ne_newline {c : Char} (h : c ∈ specialCharacters) : c ≠ '\n' := fun he =>
  absurd h (by rw [he]; decide)

theorem units_filter_escape (value : DictPathValue) :
    Units filterCharacter (fun s => s.head? = some ']') value.escape [] := by
  have hcons : ∀ {u : Text}, u ≠ [] → (∀ s, filterCharacter.results (u ++ s) = [([], s)]) →
      u.head? ≠ some ']' → ∀ w, Units filterCharacter (fun s => s.head? = some ']') w [] →
      Units filterCharacter (fun s => s.head? = some ']') (u ++ w) [] :=
    fun hne hu hhead w hw => .cons hne hu (fun s hs => hhead (by
      rwa [List.head?_append_of_ne_nil _ hne] at hs)) hw
  cases value with
  | normal v =>
      rw [escape_normal]
      induction v with
      | nil => exact .nil
      | cons c v ih =>
          refine hcons (escapeChar_ne_nil c) (fun s => ?_) ?_ _ ih
          · unfold escapeChar
            by_cases h : c ∈ specialCharacters
            · rw [if_pos h]
              exact results_filterEscape (special_ne_newline h) s
            · rw [if_neg h]
              exact results_filterCharacter (fun he => h (by rw [he]; decide)) s
          · obtain ⟨c', hc', hstart⟩ := head_escapeChar c []
            rw [List.append_nil] at hc'
            rw [hc']
            rintro ⟨⟩
            exact not_starts (by decide) (by decide) hstart
  | wildCard =>
      exact hcons (u := ['*']) (by decide) (results_filterCharacter (by decide)) (by decide) [] .nil
  | null =>
      exact hcons (u := ['\\', '0']) (by decide) (results_filterEscape (by decide)) (by decide) []
        .nil

/-- The lazy match ends at the first bracket that is not escaped. -/
theorem head_keyedListFilter (pair : DictPathValue × DictPathValue) (s : Text) :
    (keyedListFilter.results (pairText pair ++ s)).head? = some ([], s) := by
  have hunits : Units filterCharacter (fun s => s.head? = some ']')
      (pair.1.escape ++ (['='] ++ pair.2.escape)) [] :=
    (units_filter_escape pair.1).append
      (.cons (u := ['=']) (by decide) (results_filterCharacter (by decide))
        (fun s hs => by cases hs) (units_filter_escape pair.2))
  have hk : ∀ x : Match, x.2.head? ≠ some ']' →
      (((lit ']').results x.2).map fun y => (x.1 ++ y.1, y.2)) = [] := fun x hx => by
    rw [results_lit_eq_nil hx]
    rfl
  obtain ⟨l, hl⟩ := hunits.lazy_first (s := [']'] ++ s) rfl hk
  have htext : pairText pair ++ s =
      '[' :: (pair.1.escape ++ (['='] ++ pair.2.escape) ++ ([']'] ++ s)) := by
    simp [pairText]
  rw [htext, keyedListFilter, results_seq_of_singleton (results_lit_cons _ _), results_seq]
  refine (congrArg List.head? hl).trans ?_
  simp

theorem results_keyedListFilter_eq_nil {s : Text} (h : s.head? ≠ some '[') :
    keyedListFilter.results s = [] :=
  results_seq_of_nil (results_lit_eq_nil h)

theorem results_segmentUnit {c : Char} (h : c ∉ ['.', '\\', '[']) (s : Text) :
    segmentUnit.results (c :: s) = [([], s)] := by
  have hbracket : (c :: s).head? ≠ some '[' := fun he =>
    h (by rw [Option.some.inj he]; decide)
  have hslash : c ≠ '\\' := fun he => h (by rw [he]; decide)
  rw [segmentUnit, results_alt, results_keyedListFilter_eq_nil hbracket, results_alt,
    results_chr_cons, results_seq_of_nil]
  · simp [h]
  · rw [results_lit_cons, if_neg hslash]

theorem results_segmentEscape {c : Char} (h : c ≠ '\n') (s : Text) :
    segmentUnit.results ('\\' :: c :: s) = [([], s)] := by
  rw [segmentUnit, results_alt, results_keyedListFilter_eq_nil (fun he => by cases he),
    results_alt, results_chr_cons, results_seq_of_singleton (results_lit_cons _ _),
    results_chr_cons]
  simp [h]

theorem results_segmentUnit_dot (s : Text) : segmentUnit.results ('.' :: s) = [] := by
  rw [segmentUnit, results_alt, results_keyedListFilter_eq_nil (fun he => by cases he),
    results_alt, results_chr_cons, results_seq_of_nil]
  · rfl
  · rw [results_lit_cons]
    rfl

theorem results_segmentUnit_nil : segmentUnit.results [] = [] := by
  rw [segmentUnit, results_alt, results_keyedListFilter_eq_nil (fun he => by cases he),
    results_alt, results_chr_nil, results_seq_of_nil (results_lit_nil _)]
  rfl

theorem firstUnits_escapeText (v : Text) : FirstUnits segmentUnit (escapeText v) := by
  induction v with
  | nil => exact .nil
  | cons c v ih =>
      refine .cons (escapeChar_ne_nil c) (fun s => ?_) ih
      unfold escapeChar
      by_cases h : c ∈ specialCharacters
      · rw [if_pos h]
        exact congrArg List.head? (results_segmentEscape (special_ne_newline h) s)
      · rw [if_neg h]
        refine congrArg List.head? (results_segmentUnit (fun hc => h ?_) s)
        simp only [List.mem_cons, List.not_mem_nil, or_false] at hc
        obtain rfl | rfl | rfl := hc <;> decide

theorem firstUnits_selectorsText (pairs : List (DictPathValue × DictPathValue)) :
    FirstUnits segmentUnit (selectorsText pairs) := by
  induction pairs with
  | nil => exact .nil
  | cons pair pairs ih =>
      refine .cons (pairText_ne_nil pair) (fun s => ?_) ih
      obtain ⟨l, hl⟩ := List.head?_eq_some_iff.mp (head_keyedListFilter pair s)
      rw [segmentUnit, results_alt, hl]
      rfl

/-- The dots in a segment are escaped or between brackets. -/
theorem firstUnits_toStr {segment : WildSegment} (h : segment.WellFormed) :
    FirstUnits segmentUnit segment.toStr ∧ segment.toStr ≠ [] := by
  cases segment with
  | inDict key =>
      cases key with
      | normal v =>
          rw [WildSegment.toStr, escape_normal]
          exact ⟨firstUnits_escapeText v, escapeText_ne_nil h⟩
      | wildCard =>
          have hunit : FirstUnits segmentUnit (['*'] ++ []) :=
            .cons (by decide) (fun s => congrArg List.head? (results_segmentUnit (by decide) s)) .nil
          exact ⟨hunit, List.cons_ne_nil _ _⟩
      | null => exact h.elim
  | keyedList relation pairs =>
      obtain ⟨⟨v, rfl, hv⟩, hne, -⟩ := h
      rw [toStr_keyedList v hne]
      exact ⟨(firstUnits_escapeText v).append (firstUnits_selectorsText pairs),
        List.append_ne_nil_of_left_ne_nil (escapeText_ne_nil hv) _⟩

theorem findAll_units {w rest : Text} (hunits : FirstUnits segmentUnit w) (hne : w ≠ [])
    (hrest : segmentUnit.results rest = []) :
    composedDictPathPattern.findAll (w ++ rest) =
      (w, []) :: composedDictPathPattern.findAll rest :=
  findAll_match (nextMatch_of_head (hunits.head_plus hne hrest) hne) hne

theorem findAll_dot (s : Text) : composedDictPathPattern.findAll ('.' :: s) =
    composedDictPathPattern.findAll s :=
  findAll_skip (nextMatch_eq_none (results_seq_of_nil (results_segmentUnit_dot s)))

theorem intercalate_cons (w : Text) (ws : List Text) :
    List.intercalate ['.'] (w :: ws) = w ++ [] ∧ ws = [] ∨
      List.intercalate ['.'] (w :: ws) = w ++ '.' :: List.intercalate ['.'] ws := by
  cases ws with
  | nil => exact Or.inl ⟨by simp [List.intercalate], rfl⟩
  | cons w' ws => exact Or.inr (by simp [List.intercalate])

/-- Texts of units with dots between them are taken apart at the dots. -/
theorem findAll_intercalate {ws : List Text}
    (h : ∀ w ∈ ws, FirstUnits segmentUnit w ∧ w ≠ []) :
    composedDictPathPattern.findAll (List.intercalate ['.'] ws) = ws.map fun w => (w, []) := by
  induction ws with
  | nil => exact findAll_nil
  | cons w ws ih =>
      obtain ⟨⟨hunits, hne⟩, hws⟩ := List.forall_mem_cons.mp h
      obtain ⟨htext, rfl⟩ | htext := intercalate_cons w ws
      · rw [htext, findAll_units hunits hne results_segmentUnit_nil, findAll_nil]
        rfl
      · rw [htext, findAll_units hunits hne (results_segmentUnit_dot _), findAll_dot, ih hws]
        rfl

theorem findAll_unParse {path : List WildSegment} (h : ∀ segment ∈ path, segment.WellFormed) :
    composedDictPathPattern.findAll (unParse path) =
      path.map fun segment => (segment.toStr, []) := by
  rw [unParse, findAll_intercalate, List.map_map]
  · rfl
  · intro w hw
    obtain ⟨segment, hs, rfl⟩ := List.mem_map.mp hw
    exact firstUnits_toStr (h segment hs)

theorem splitOnDots_unParse {path : List WildSegment} (hne : path ≠ [])
    (h : ∀ segment ∈ path, segment.WellFormed) :
    splitOnDots (unParse path) = .ok (path.map WildSegment.toStr) := by
  have hmap : (composedDictPathPattern.findAll (unParse path)).map Prod.fst =
      path.map WildSegment.toStr := by
    rw [findAll_unParse h, List.map_map]
    rfl
  obtain ⟨segment, path, rfl⟩ := List.exists_cons_of_ne_nil hne
  rw [splitOnDots, hmap]
  rfl

/-! ## Paths -/

theorem doParse_unParse {path : List WildSegment} (hne : path ≠ [])
    (h : ∀ segment ∈ path, segment.WellFormed)
    {elementTypes : List (Text → Except DictPathError (Option WildSegment))}
    (hparse : ∀ segment ∈ path, parseElement elementTypes segment.toStr = .ok segment) :
    doParse elementTypes (unParse path) = .ok path := by
  rw [doParse, splitOnDots_unParse hne h, ok_bind]
  exact mapM_map_ok hparse

/-- No path that is printed starts with a dot. -/
theorem head_unParse {path : List WildSegment} (hne : path ≠ [])
    (h : ∀ segment ∈ path, segment.WellFormed) : (unParse path).head? ≠ some '.' := by
  obtain ⟨segment, path, rfl⟩ := List.exists_cons_of_ne_nil hne
  obtain ⟨hunits, hseg⟩ := firstUnits_toStr (h segment (by simp))
  have hhead : ∀ rest, segmentUnit.results rest = [] →
      (segment.toStr ++ rest).head? ≠ some '.' := fun rest hrest hdot => by
    obtain ⟨s, hs⟩ := List.head?_eq_some_iff.mp hdot
    have hfirst := hunits.head_plus hseg hrest
    rw [hs, plus, results_seq_of_nil (results_segmentUnit_dot s)] at hfirst
    cases hfirst
  rw [unParse, List.map_cons]
  obtain ⟨htext, -⟩ | htext := intercalate_cons segment.toStr (path.map WildSegment.toStr)
  · rw [htext]
    exact hhead _ results_segmentUnit_nil
  · rw [htext]
    exact hhead _ (results_segmentUnit_dot _)

theorem toDictPath_unParse {path : List WildSegment} (hne : path ≠ [])
    (h : ∀ segment ∈ path, segment.WellFormed)
    {elementTypes : List (Text → Except DictPathError (Option WildSegment))}
    (hparse : ∀ segment ∈ path, parseElement elementTypes segment.toStr = .ok segment) :
    toDictPath elementTypes (unParse path) = .ok (.composed path) := by
  have hhead := head_unParse hne h
  have hdot : unParse path ≠ ['.'] := fun he => hhead (by rw [he]; rfl)
  rw [toDictPath, if_neg hdot]
  simp only [if_neg hhead, doParse_unParse hne h hparse]

/-- **Printing and parsing a path.** A path of keys and keyed lists with any
characters in them is parsed to the same path when it is printed, by
`WildComposedPath` and `to_wild_path`, and by `ComposedPath` and `to_path` if it
has no wildcards. -/
theorem parse_unParse {path : List WildSegment} (hne : path ≠ [])
    (h : ∀ segment ∈ path, segment.WellFormed) :
    doParse WildComposedPath.elementTypes (unParse path) = .ok path ∧
      WildComposedPath.parse WildComposedPath.elementTypes (unParse path) = .ok (some path) ∧
      toWildPath (unParse path) = .ok (.composed path) ∧
      ((∀ segment ∈ path, segment.NoWildCard) →
        doParse ComposedPath.elementTypes (unParse path) = .ok path ∧
          WildComposedPath.parse ComposedPath.elementTypes (unParse path) = .ok (some path) ∧
          toPath (unParse path) = .ok (.composed path)) := by
  have hwild : ∀ segment ∈ path,
      parseElement WildComposedPath.elementTypes segment.toStr = .ok segment :=
    fun segment hs => parseElement_ok (h segment hs)
  refine ⟨doParse_unParse hne h hwild, ?_, toDictPath_unParse hne h hwild, fun hno => ?_⟩
  · rw [WildComposedPath.parse, doParse_unParse hne h hwild]
  have hstrict : ∀ segment ∈ path,
      parseElement ComposedPath.elementTypes segment.toStr = .ok segment :=
    fun segment hs => parseElement_noWildCard (h segment hs) (hno segment hs)
  refine ⟨doParse_unParse hne h hstrict, ?_, toDictPath_unParse hne h hstrict⟩
  rw [WildComposedPath.parse, doParse_unParse hne h hstrict]

/-- `a\.b.r[k\==][\*=\0]` -/
def escapedPath : List WildSegment :=
  [.inDict (.normal ['a', '.', 'b']), .keyedList (.normal ['r'])
    [(.normal ['k', '='], .normal []), (.normal ['*'], .null)]]

theorem parse_unParse_escapedPath :
    toWildPath (unParse escapedPath) = .ok (.composed escapedPath) ∧
      toPath (unParse escapedPath) = .ok (.composed escapedPath) := by
  have hwf : ∀ segment ∈ escapedPath, segment.WellFormed := by
    simp only [escapedPath, List.forall_mem_cons, List.not_mem_nil, WildSegment.WellFormed]
    simp [DictPathValue.IsKey]
  have hno : ∀ segment ∈ escapedPath, segment.NoWildCard := by
    simp only [escapedPath, List.forall_mem_cons, List.not_mem_nil, WildSegment.NoWildCard]
    simp
  obtain ⟨-, -, hwild, hstrict⟩ := parse_unParse (List.cons_ne_nil _ _) hwf
  exact ⟨hwild, (hstrict hno).2.2⟩

end Inmanta
