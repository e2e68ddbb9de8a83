import Inmanta.Util.DictPathRoundTrip

/-!
# The grammar of dict paths

The texts that denote a path, and the path they denote. A key has its special
characters escaped or is a wildcard. A value may also be null, and a dot in it
need not be escaped, so that a path has more texts than the one that is printed.

The texts are built from tokens that form a prefix code (`tokens_unique`): a
text is taken apart in one way, up to a character of the syntax. So what the
patterns capture is what the text was built from, and a segment is parsed if
and only if its text is in the grammar (`parseElement_eq_ok_iff`).
-/

namespace Inmanta

open Regex

/-! ## Tokens -/

inductive PathToken where
  | char (c : Char)
  | dot
  | wildCard
  | null
  deriving DecidableEq

namespace PathToken

def text : PathToken → Text
  | char c => escapeChar c
  | dot => ['.']
  | wildCard => DictPathValue.wildCardCharacter
  | null => DictPathValue.nullValueCharacter

/-- Where no token starts. -/
def Stops (s : Text) : Prop := ∀ c, s.head? = some c → c = '[' ∨ c = ']' ∨ c = '='

theorem stops_nil : Stops [] := fun c hc => by cases hc

theorem text_ne_nil (t : PathToken) : t.text ≠ [] := by
  cases t with
  | char c => exact escapeChar_ne_nil c
  | dot => exact List.cons_ne_nil _ _
  | wildCard => exact List.cons_ne_nil _ _
  | null => exact List.cons_ne_nil _ _

/-- A token is an escaped character, the marker of null, or one character that
is not a bracket, an equals sign or a backslash. -/
theorem text_cases (t : PathToken) :
    (∃ c, c ∈ specialCharacters ∧ t = char c ∧ t.text = ['\\', c]) ∨
      (t = null ∧ t.text = ['\\', '0']) ∨
      ∃ c, t.text = [c] ∧ c ∉ ['\\', '[', ']', '='] ∧
        t = if c = '.' then dot else if c = '*' then wildCard else char c := by
  cases t with
  | char c =>
      by_cases h : c ∈ specialCharacters
      · exact .inl ⟨c, h, rfl, by rw [text, escapeChar, if_pos h]⟩
      · refine .inr (.inr ⟨c, by rw [text, escapeChar, if_neg h], ?_, ?_⟩)
        · exact fun hc => h (by simp [specialCharacters] at hc ⊢; tauto)
        · have hdot : c ≠ '.' := fun he => h (by rw [he]; decide)
          have hstar : c ≠ '*' := fun he => h (by rw [he]; decide)
          rw [if_neg hdot, if_neg hstar]
  | dot => exact .inr (.inr ⟨'.', rfl, by decide, rfl⟩)
  | wildCard => exact .inr (.inr ⟨'*', rfl, by decide, rfl⟩)
  | null => exact .inr (.inl ⟨rfl, rfl⟩)

/-- No token is the start of another. -/
theorem text_prefix {t t' : PathToken} {r r' : Text} (h : t.text ++ r = t'.text ++ r') :
    t = t' ∧ r = r' := by
  obtain ⟨c, hc, ht, htext⟩ | ⟨ht, htext⟩ | ⟨c, htext, hc, ht⟩ := text_cases t <;>
  obtain ⟨c', hc', ht', htext'⟩ | ⟨ht', htext'⟩ | ⟨c', htext', hc', ht'⟩ := text_cases t' <;>
  rw [htext, htext'] at h <;>
  simp only [List.cons_append, List.nil_append, List.cons.injEq] at h
  · obtain ⟨-, rfl, hr⟩ := h
    exact ⟨ht.trans ht'.symm, hr⟩
  · rw [h.2.1] at hc
    exact absurd hc (by decide)
  · rw [← h.1] at hc'
    exact absurd hc' (by decide)
  · rw [← h.2.1] at hc'
    exact absurd hc' (by decide)
  · exact ⟨ht.trans ht'.symm, h.2.2⟩
  · rw [← h.1] at hc'
    exact absurd hc' (by decide)
  · rw [h.1] at hc
    exact absurd hc (by decide)
  · rw [h.1] at hc
    exact absurd hc (by decide)
  · obtain ⟨rfl, hr⟩ := h
    exact ⟨ht.trans ht'.symm, hr⟩

theorem not_stops (t : PathToken) (r : Text) : ¬ Stops (t.text ++ r) := by
  intro h
  obtain ⟨c, -, -, htext⟩ | ⟨-, htext⟩ | ⟨c, htext, hc, -⟩ := text_cases t
  · rw [htext] at h
    exact absurd (h '\\' rfl) (by decide)
  · rw [htext] at h
    exact absurd (h '\\' rfl) (by decide)
  · rw [htext] at h
    obtain rfl | rfl | rfl := h c rfl <;> exact absurd hc (by decide)

/-- The text of a list of tokens. -/
def textOf (ts : List PathToken) : Text := ts.flatMap text

theorem textOf_cons (t : PathToken) (ts : List PathToken) :
    textOf (t :: ts) = t.text ++ textOf ts := rfl

theorem tokens_unique {ts ts' : List PathToken} {r r' : Text} (hr : Stops r) (hr' : Stops r')
    (h : textOf ts ++ r = textOf ts' ++ r') : ts = ts' ∧ r = r' := by
  induction ts generalizing ts' with
  | nil =>
      cases ts' with
      | nil => exact ⟨rfl, h⟩
      | cons t' ts' =>
          rw [textOf_cons, List.append_assoc] at h
          have hstop : Stops (t'.text ++ (textOf ts' ++ r')) := by
            rw [← h]
            exact hr
          exact absurd hstop (not_stops t' _)
  | cons t ts ih =>
      rw [textOf_cons, List.append_assoc] at h
      cases ts' with
      | nil =>
          have hstop : Stops (t.text ++ (textOf ts ++ r)) := by
            rw [h]
            exact hr'
          exact absurd hstop (not_stops t _)
      | cons t' ts' =>
          rw [textOf_cons, List.append_assoc] at h
          obtain ⟨rfl, htail⟩ := text_prefix h
          obtain ⟨rfl, rfl⟩ := ih htail
          exact ⟨rfl, rfl⟩

theorem textOf_map_char (v : Text) : textOf (v.map char) = escapeText v := by
  rw [textOf, List.flatMap_map]
  rfl

end PathToken

open PathToken

/-! ## Keys and values -/

def DictPathValue.tokens : DictPathValue → List PathToken
  | normal v => v.map .char
  | wildCard => [.wildCard]
  | null => [.null]

theorem textOf_tokens (value : DictPathValue) : textOf value.tokens = value.escape := by
  cases value with
  | normal v => rw [escape_normal, DictPathValue.tokens, textOf_map_char]
  | wildCard => rfl
  | null => rfl

theorem char_injective : Function.Injective PathToken.char := fun _ _ h => PathToken.char.inj h

theorem tokens_injective {value value' : DictPathValue} (h : value.tokens = value'.tokens) :
    value = value' := by
  refine escape_injective ?_
  rw [← textOf_tokens, ← textOf_tokens, h]

/-- A value as it is written: dots in it may be escaped or not. -/
inductive SpelledValue where
  /-- `none` is a dot that is not escaped. -/
  | chars (cs : List (Option Char))
  | wildCard
  | null
  deriving DecidableEq

namespace SpelledValue

def charToken : Option Char → PathToken
  | some c => .char c
  | none => .dot

def tokens : SpelledValue → List PathToken
  | chars cs => cs.map charToken
  | wildCard => [.wildCard]
  | null => [.null]

def text (value : SpelledValue) : Text := textOf value.tokens

/-- The value that is written. -/
def value : SpelledValue → DictPathValue
  | chars cs => .normal (cs.map fun c => c.getD '.')
  | wildCard => .wildCard
  | null => .null

theorem tokens_injective {v v' : SpelledValue} (h : v.tokens = v'.tokens) : v = v' := by
  have hne : ∀ (cs : List (Option Char)) t, t = .wildCard ∨ t = .null → cs.map charToken ≠ [t] := by
    rintro (_ | ⟨_ | c, _ | ⟨c', cs⟩⟩) t (rfl | rfl) h <;> cases h
  have hinj : Function.Injective charToken := by
    rintro (_ | c) (_ | c') h
    · rfl
    · cases h
    · cases h
    · rw [PathToken.char.inj h]
  cases v with
  | chars cs =>
      cases v' with
      | chars cs' => rw [List.map_injective_iff.mpr hinj h]
      | wildCard => exact absurd h (hne cs _ (.inl rfl))
      | null => exact absurd h (hne cs _ (.inr rfl))
  | wildCard =>
      cases v' with
      | chars cs' => exact absurd h.symm (hne cs' _ (.inl rfl))
      | wildCard => rfl
      | null => cases h
  | null =>
      cases v' with
      | chars cs' => exact absurd h.symm (hne cs' _ (.inr rfl))
      | wildCard => cases h
      | null => rfl

end SpelledValue

/-- A key and a value between brackets. -/
abbrev SpelledPair := DictPathValue × SpelledValue

def SpelledPair.text (pair : SpelledPair) : Text :=
  '[' :: (pair.1.escape ++ '=' :: (pair.2.text ++ [']']))

theorem SpelledPair.text_unique {pair pair' : SpelledPair} {r r' : Text}
    (h : pair.text ++ r = SpelledPair.text pair' ++ r') : pair = pair' ∧ r = r' := by
  have hstop : ∀ {c : Char} (s : Text), c = ']' ∨ c = '=' → Stops (c :: s) := fun s hc x hx =>
    Option.some.inj hx ▸ .inr hc
  simp only [SpelledPair.text, List.cons_append, List.append_assoc, List.cons.injEq, true_and,
    List.nil_append, ← textOf_tokens, SpelledValue.text] at h
  obtain ⟨hkey, h⟩ := tokens_unique (hstop _ (.inr rfl)) (hstop _ (.inr rfl)) h
  obtain ⟨hvalue, h⟩ := tokens_unique (hstop _ (.inl rfl)) (hstop _ (.inl rfl))
    (List.cons.inj h).2
  exact ⟨Prod.ext (tokens_injective hkey) (SpelledValue.tokens_injective hvalue),
    (List.cons.inj h).2⟩

/-! ## Segments -/

/-- A segment as it is written. -/
inductive SpelledSegment where
  | key (key : DictPathValue)
  | keyedList (relation : Text) (pairs : List SpelledPair)

namespace SpelledSegment

def text : SpelledSegment → Text
  | key k => k.escape
  | keyedList relation pairs => escapeText relation ++ pairs.flatMap SpelledPair.text

def segment : SpelledSegment → WildSegment
  | key k => .inDict k
  | keyedList relation pairs =>
      .keyedList (.normal relation) (pairs.map fun pair => (pair.1, pair.2.value))

/-- A key is not empty and not null, and a keyed list has a selector and no key
twice. -/
def WellFormed (s : SpelledSegment) : Prop := s.segment.WellFormed

end SpelledSegment

/-! ## What the patterns match -/

section Patterns

open WildKeyedList

def charCaptures (c : Char) : Captures := if c ∈ specialCharacters then [("1", [c])] else []

theorem spells_character :
    Spells character fun u c => ∃ x, True ∧ u = escapeChar x ∧ c = charCaptures x := by
  refine ((Spells.chr _).alt ((Spells.lit '\\').seq ((Spells.chr _).group "1"))).congr
    fun u c => ?_
  constructor
  · rintro ⟨x, -, rfl, rfl⟩
    by_cases hx : x ∈ specialCharacters
    · rw [escapeChar, charCaptures, if_pos hx, if_pos hx]
      exact .inr ⟨_, _, _, _, ⟨rfl, rfl⟩, ⟨_, ⟨x, decide_eq_true hx, rfl, rfl⟩, rfl⟩, rfl, rfl⟩
    · rw [escapeChar, charCaptures, if_neg hx, if_neg hx]
      exact .inl ⟨x, decide_eq_true hx, rfl, rfl⟩
  · rintro (⟨x, hx, rfl, rfl⟩ | ⟨_, _, _, _, ⟨rfl, rfl⟩, ⟨_, ⟨x, hx, rfl, rfl⟩, rfl⟩, rfl, rfl⟩)
    · have hx := of_decide_eq_true hx
      exact ⟨x, trivial, by rw [escapeChar, if_neg hx], by rw [charCaptures, if_neg hx]⟩
    · have hx := of_decide_eq_true hx
      exact ⟨x, trivial, by rw [escapeChar, if_pos hx]; rfl, by rw [charCaptures, if_pos hx]; rfl⟩

theorem spells_escaped : Spells (plus character) fun u c =>
    ∃ v : Text, v ≠ [] ∧ u = escapeText v ∧ c = unitCaptures v := by
  refine (spells_character.plus_pieces escapeChar_ne_nil).congr fun u c => ?_
  constructor
  · rintro ⟨v, hv, rfl, rfl⟩
    exact ⟨v, hv, fun _ _ => trivial, rfl, rfl⟩
  · rintro ⟨v, hv, -, rfl, rfl⟩
    exact ⟨v, hv, rfl, rfl⟩

theorem spells_key : Spells (alt (plus character) (lit '*')) fun u c =>
    ∃ key : DictPathValue, key.IsKey ∧ u = key.escape ∧ c = valueCaptures key := by
  refine (spells_escaped.alt (Spells.lit '*')).congr fun u c => ?_
  constructor
  · rintro ⟨key, hkey, rfl, rfl⟩
    cases key with
    | normal v => exact .inl ⟨v, hkey, escape_normal v, rfl⟩
    | wildCard => exact .inr ⟨rfl, rfl⟩
    | null => exact hkey.elim
  · rintro (⟨v, hv, rfl, rfl⟩ | ⟨rfl, rfl⟩)
    · exact ⟨.normal v, hv, (escape_normal v).symm, rfl⟩
    · exact ⟨.wildCard, trivial, rfl, rfl⟩

def SpelledValue.captures : SpelledValue → Captures
  | chars cs => cs.flatMap fun c => (c.map charCaptures).getD []
  | _ => []

theorem spells_value : Spells (alt (star (alt character (lit '.')))
    (alt (lit '*') (seq (lit '\\') (lit '0')))) fun u c =>
      ∃ value : SpelledValue, u = value.text ∧ c = value.captures := by
  have hpiece : Spells (alt character (lit '.')) fun u c => ∃ x : Option Char, True ∧
      u = (SpelledValue.charToken x).text ∧ c = (x.map charCaptures).getD [] := by
    refine (spells_character.alt (Spells.lit '.')).congr fun u c => ?_
    constructor
    · rintro ⟨_ | x, -, rfl, rfl⟩
      · exact .inr ⟨rfl, rfl⟩
      · exact .inl ⟨x, trivial, rfl, rfl⟩
    · rintro (⟨x, -, rfl, rfl⟩ | ⟨rfl, rfl⟩)
      · exact ⟨some x, trivial, rfl, rfl⟩
      · exact ⟨none, trivial, rfl, rfl⟩
  refine ((hpiece.star_pieces fun x => text_ne_nil _).alt ((Spells.lit '*').alt
    ((Spells.lit '\\').seq (Spells.lit '0')))).congr fun u c => ?_
  constructor
  · rintro ⟨cs | _ | _, rfl, rfl⟩
    · exact .inl ⟨cs, fun _ _ => trivial, List.flatMap_map .., rfl⟩
    · exact .inr (.inl ⟨rfl, rfl⟩)
    · exact .inr (.inr ⟨_, _, _, _, ⟨rfl, rfl⟩, ⟨rfl, rfl⟩, rfl, rfl⟩)
  · rintro (⟨cs, -, rfl, rfl⟩ | ⟨rfl, rfl⟩ | ⟨_, _, _, _, ⟨rfl, rfl⟩, ⟨rfl, rfl⟩, rfl, rfl⟩)
    · exact ⟨.chars cs, (List.flatMap_map ..).symm, rfl⟩
    · exact ⟨.wildCard, rfl, rfl⟩
    · exact ⟨.null, rfl, rfl⟩

def SpelledPair.captures (pair : SpelledPair) : Captures :=
  valueCaptures pair.1 ++ [("key_attribute", pair.1.escape)] ++
    (pair.2.captures ++ [("key_value", pair.2.text)])

theorem spells_pair : Spells keyValuePair fun u c =>
    ∃ pair : SpelledPair, pair.1.IsKey ∧ u = pair.text ∧ c = pair.captures := by
  refine ((Spells.lit '[').seq ((spells_key.group "key_attribute").seq ((Spells.lit '=').seq
    ((spells_value.group "key_value").seq (Spells.lit ']'))))).congr fun u c => ?_
  constructor
  · rintro ⟨⟨key, value⟩, hkey, rfl, rfl⟩
    refine ⟨_, _, _, _, ⟨rfl, rfl⟩, ⟨_, _, _, _, ⟨_, ⟨key, hkey, rfl, rfl⟩, rfl⟩,
      ⟨_, _, _, _, ⟨rfl, rfl⟩, ⟨_, _, _, _, ⟨_, ⟨value, rfl, rfl⟩, rfl⟩, ⟨rfl, rfl⟩, rfl, rfl⟩,
        rfl, rfl⟩, rfl, rfl⟩, rfl, ?_⟩
    simp [SpelledPair.captures]
  · rintro ⟨_, _, _, _, ⟨rfl, rfl⟩, ⟨_, _, _, _, ⟨_, ⟨key, hkey, rfl, rfl⟩, rfl⟩,
      ⟨_, _, _, _, ⟨rfl, rfl⟩, ⟨_, _, _, _, ⟨_, ⟨value, rfl, rfl⟩, rfl⟩, ⟨rfl, rfl⟩, rfl, rfl⟩,
        rfl, rfl⟩, rfl, rfl⟩, rfl, rfl⟩
    exact ⟨(key, value), hkey, rfl, by simp [SpelledPair.captures]⟩

theorem pair_text_ne_nil (pair : SpelledPair) : pair.text ≠ [] := List.cons_ne_nil _ _

theorem spells_keyedList : Spells keyedListPattern fun u c =>
    ∃ (relation : Text) (pairs : List SpelledPair), relation ≠ [] ∧ pairs ≠ [] ∧
      (∀ pair ∈ pairs, pair.1.IsKey) ∧
      u = escapeText relation ++ pairs.flatMap SpelledPair.text ∧
      c = unitCaptures relation ++ [("relation", escapeText relation)] ++
        (pairs.flatMap SpelledPair.captures ++ [("selectors", pairs.flatMap SpelledPair.text)]) := by
  refine ((spells_escaped.group "relation").seq
    ((spells_pair.plus_pieces pair_text_ne_nil).group "selectors")).congr fun u c => ?_
  constructor
  · rintro ⟨relation, pairs, hrel, hne, hkeys, rfl, rfl⟩
    exact ⟨_, _, _, _, ⟨_, ⟨relation, hrel, rfl, rfl⟩, rfl⟩,
      ⟨_, ⟨pairs, hne, hkeys, rfl, rfl⟩, rfl⟩, rfl, rfl⟩
  · rintro ⟨_, _, _, _, ⟨_, ⟨relation, hrel, rfl, rfl⟩, rfl⟩,
      ⟨_, ⟨pairs, hne, hkeys, rfl, rfl⟩, rfl⟩, rfl, rfl⟩
    exact ⟨relation, pairs, hrel, hne, hkeys, rfl, rfl⟩

theorem findAll_pairs {pairs : List SpelledPair} (hkeys : ∀ pair ∈ pairs, pair.1.IsKey) :
    keyValuePair.findAll (pairs.flatMap SpelledPair.text) =
      pairs.map fun pair => (pair.text, pair.captures) := by
  induction pairs with
  | nil => exact findAll_nil
  | cons pair pairs ih =>
      obtain ⟨hkey, hkeys⟩ := List.forall_mem_cons.mp hkeys
      have hnext : keyValuePair.nextMatch (pair.text ++ pairs.flatMap SpelledPair.text) =
          some (pair.captures, pairs.flatMap SpelledPair.text) := by
        refine spells_pair.nextMatch_eq (pair_text_ne_nil pair) ⟨pair, hkey, rfl, rfl⟩ ?_
        rintro _ _ rest' ⟨pair', -, rfl, rfl⟩ htext
        obtain ⟨rfl, rfl⟩ := SpelledPair.text_unique htext
        exact ⟨rfl, rfl⟩
      rw [List.flatMap_cons, findAll_match hnext (pair_text_ne_nil pair), ih hkeys]
      rfl

theorem SpelledValue.name_of_mem_captures {value : SpelledValue} {x : String × Text}
    (h : x ∈ value.captures) : x.1 = "1" := by
  cases value with
  | chars cs =>
      obtain ⟨c, -, hc⟩ := List.mem_flatMap.mp h
      cases c with
      | none => cases hc
      | some c =>
          rw [Option.map_some, Option.getD_some, charCaptures] at hc
          split at hc
          · rw [List.mem_singleton.mp hc]
          · cases hc
  | wildCard => cases h
  | null => cases h

theorem SpelledPair.name_of_mem_captures (pair : SpelledPair) {x : String × Text}
    (h : x ∈ pair.captures) : x.1 = "1" ∨ x.1 = "key_attribute" ∨ x.1 = "key_value" := by
  obtain h | h := List.mem_append.mp h
  · obtain h | h := List.mem_append.mp h
    · exact .inl (name_of_mem_valueCaptures h)
    · rw [List.mem_singleton.mp h]
      exact .inr (.inl rfl)
  · obtain h | h := List.mem_append.mp h
    · exact .inl (SpelledValue.name_of_mem_captures h)
    · rw [List.mem_singleton.mp h]
      exact .inr (.inr rfl)

theorem SpelledPair.get_captures (pair : SpelledPair) :
    pair.captures.get "key_attribute" = pair.1.escape ∧
      pair.captures.get "key_value" = pair.2.text := by
  constructor
  · rw [SpelledPair.captures, get_append, get_concat]
    intro x hx
    obtain hx | hx := List.mem_append.mp hx
    · rw [SpelledValue.name_of_mem_captures hx]
      decide
    · rw [List.mem_singleton.mp hx]
      show "key_value" ≠ "key_attribute"
      decide
  · rw [SpelledPair.captures, ← List.append_assoc, get_concat]

end Patterns

/-! ## What is parsed -/

theorem unescape_chars (cs : List (Option Char)) :
    escapedSpecialCharacter.sub (fun m => m.get "1") (SpelledValue.chars cs).text =
      cs.map fun c => c.getD '.' := by
  induction cs with
  | nil => exact sub_nil
  | cons c cs ih =>
      have htext : (SpelledValue.chars (c :: cs)).text =
          (SpelledValue.charToken c).text ++ (SpelledValue.chars cs).text := rfl
      rw [htext, List.map_cons, ← ih]
      cases c with
      | none => exact unescape_skip (by decide) _
      | some c => exact unescape_escapeChar c _

/-- A value has the meaning of what is written. -/
theorem create_text (value : SpelledValue) : DictPathValue.create value.text = value.value := by
  cases value with
  | chars cs =>
      have hne : ∀ v : SpelledValue, SpelledValue.chars cs ≠ v →
          (SpelledValue.chars cs).text ≠ v.text := by
        intro v hne htext
        refine hne (SpelledValue.tokens_injective ?_)
        refine (tokens_unique stops_nil stops_nil ?_).1
        rw [List.append_nil, List.append_nil]
        exact htext
      have hwild : (SpelledValue.chars cs).text ≠ DictPathValue.wildCardCharacter :=
        hne .wildCard fun h => by cases h
      have hnull : (SpelledValue.chars cs).text ≠ DictPathValue.nullValueCharacter :=
        hne .null fun h => by cases h
      rw [DictPathValue.create, if_neg hwild, if_neg hnull, unescape_chars]
      rfl
  | wildCard => rfl
  | null => rfl

section Parse

variable {parseKey parseValue : Text → Except DictPathError DictPathValue}
  {allowed : DictPathValue → Prop} {x : Text} {segment : WildSegment}

/-- What a type of paths makes of wildcards: a value that is not allowed is
refused wherever it stands. -/
def WildSegment.Allows (allowed : DictPathValue → Prop) : WildSegment → Prop
  | inDict key => allowed key
  | keyedList _ pairs => ∀ pair ∈ pairs, allowed pair.1 ∧ allowed pair.2

theorem newKeyedList_eq_ok_iff {relation : Text} {pairs : List SpelledPair} (hne : pairs ≠ [])
    (hkeys : ∀ pair ∈ pairs, pair.1.IsKey)
    (hkey : ∀ key : DictPathValue, key.IsKey → ∀ k, parseKey key.escape = .ok k ↔
      allowed key ∧ k = key)
    (hvalue : ∀ (value : SpelledValue) v, parseValue value.text = .ok v ↔
      allowed value.value ∧ v = value.value) :
    WildKeyedList.new parseKey parseValue (escapeText relation)
        (pairs.map fun pair => (pair.1.escape, pair.2.text)) = .ok segment ↔
      (pairs.map Prod.fst).Nodup ∧ segment = (SpelledSegment.keyedList relation pairs).segment ∧
        segment.Allows allowed := by
  have hrel := create_escape (.normal relation)
  rw [escape_normal] at hrel
  have hne' : pairs.map (fun pair => (pair.1.escape, pair.2.text)) ≠ [] := by simpa using hne
  have hnodup : ((pairs.map fun pair => (pair.1.escape, pair.2.text)).map Prod.fst).Nodup ↔
      (pairs.map Prod.fst).Nodup := by
    rw [List.map_map]
    have := List.nodup_map_iff (f := DictPathValue.escape) (l := pairs.map Prod.fst)
      fun _ _ h => escape_injective h
    rwa [List.map_map] at this
  have hloop : ∀ l', (pairs.map fun pair => (pair.1.escape, pair.2.text)).mapM (fun pair => do
      return (← parseKey pair.1, ← parseValue pair.2)) = (.ok l' : Except DictPathError _) ↔
        (∀ pair ∈ pairs, allowed pair.1 ∧ allowed pair.2.value) ∧
          l' = pairs.map fun pair => (pair.1, pair.2.value) := by
    intro l'
    refine mapM_map_eq_ok_iff fun pair hp b => ?_
    rw [bind_eq_ok]
    constructor
    · rintro ⟨k, hk, h⟩
      obtain ⟨v, hv, h⟩ := bind_eq_ok.mp h
      obtain ⟨hka, rfl⟩ := (hkey _ (hkeys pair hp) k).mp hk
      obtain ⟨hva, rfl⟩ := (hvalue _ v).mp hv
      exact ⟨⟨hka, hva⟩, (Except.ok.inj h).symm⟩
    · rintro ⟨⟨hka, hva⟩, rfl⟩
      exact ⟨pair.1, (hkey _ (hkeys pair hp) _).mpr ⟨hka, rfl⟩,
        bind_eq_ok.mpr ⟨_, (hvalue _ _).mpr ⟨hva, rfl⟩, rfl⟩⟩
  rw [WildKeyedList.new, hrel]
  simp only [pure_bind, if_neg hne', hnodup]
  by_cases hn : (pairs.map Prod.fst).Nodup
  · rw [if_neg (not_not.mpr hn), bind_eq_ok]
    constructor
    · rintro ⟨l', hl', h⟩
      obtain ⟨hall, rfl⟩ := (hloop l').mp hl'
      obtain rfl := Except.ok.inj h
      refine ⟨hn, rfl, fun pair hp => ?_⟩
      obtain ⟨pair', hp', rfl⟩ := List.mem_map.mp hp
      exact hall pair' hp'
    · rintro ⟨-, rfl, hall⟩
      exact ⟨_, (hloop _).mpr ⟨fun pair hp => hall _ (List.mem_map_of_mem hp), rfl⟩, rfl⟩
  · rw [if_pos hn]
    exact iff_of_false (fun h => by cases h) fun h => hn h.1

theorem keyedList_text_unique {relation relation' : Text} {pairs pairs' : List SpelledPair}
    (hne : pairs ≠ []) (hne' : pairs' ≠ [])
    (h : escapeText relation ++ pairs.flatMap SpelledPair.text =
      escapeText relation' ++ pairs'.flatMap SpelledPair.text) :
    relation = relation' ∧ pairs = pairs' := by
  have hstops : ∀ {ps : List SpelledPair}, ps ≠ [] → Stops (ps.flatMap SpelledPair.text) := by
    intro ps hps c hc
    obtain ⟨pair, ps, rfl⟩ := List.exists_cons_of_ne_nil hps
    exact .inl (Option.some.inj hc).symm
  rw [← textOf_map_char, ← textOf_map_char] at h
  obtain ⟨hrel, hpairs⟩ := tokens_unique (hstops hne) (hstops hne') h
  refine ⟨List.map_injective_iff.mpr char_injective hrel, ?_⟩
  clear h hne hne'
  induction pairs generalizing pairs' with
  | nil =>
      cases pairs' with
      | nil => rfl
      | cons pair' pairs' => cases hpairs
  | cons pair pairs ih =>
      cases pairs' with
      | nil => cases hpairs
      | cons pair' pairs' =>
          rw [List.flatMap_cons, List.flatMap_cons] at hpairs
          obtain ⟨rfl, htail⟩ := SpelledPair.text_unique hpairs
          rw [ih htail]

theorem key_ne_keyedList {key : DictPathValue} {relation : Text} {pairs : List SpelledPair}
    (hne : pairs ≠ []) :
    key.escape ≠ escapeText relation ++ pairs.flatMap SpelledPair.text := by
  intro h
  obtain ⟨pair, pairs, rfl⟩ := List.exists_cons_of_ne_nil hne
  rw [← textOf_tokens, ← textOf_map_char, ← List.append_nil (textOf key.tokens)] at h
  have hstops : Stops ((pair :: pairs).flatMap SpelledPair.text) := fun c hc =>
    .inl (Option.some.inj hc).symm
  cases (tokens_unique stops_nil hstops h).2

theorem parseKeyedList_eq_ok_iff
    {new : Text → List (Text × Text) → Except DictPathError WildSegment} :
    WildKeyedList.parse new x = .ok (some segment) ↔
      ∃ (relation : Text) (pairs : List SpelledPair), relation ≠ [] ∧ pairs ≠ [] ∧
        (∀ pair ∈ pairs, pair.1.IsKey) ∧
        x = escapeText relation ++ pairs.flatMap SpelledPair.text ∧
        new (escapeText relation) (pairs.map fun pair => (pair.1.escape, pair.2.text)) =
          .ok segment := by
  have hread : ∀ {groups : Captures} {relation : Text} {pairs : List SpelledPair},
      (∀ pair ∈ pairs, pair.1.IsKey) →
      groups = unitCaptures relation ++ [("relation", escapeText relation)] ++
        (pairs.flatMap SpelledPair.captures ++ [("selectors", pairs.flatMap SpelledPair.text)]) →
      groups.get "relation" = escapeText relation ∧
        (WildKeyedList.keyValuePair.findAll (groups.get "selectors")).map (fun pair =>
          (pair.2.get "key_attribute", pair.2.get "key_value")) =
            pairs.map fun pair => (pair.1.escape, pair.2.text) := by
    rintro _ relation pairs hkeys rfl
    constructor
    · rw [get_append, get_concat]
      intro x hx
      obtain hx | hx := List.mem_append.mp hx
      · obtain ⟨pair, -, hx⟩ := List.mem_flatMap.mp hx
        obtain h | h | h := pair.name_of_mem_captures hx <;> rw [h] <;> decide
      · rw [List.mem_singleton.mp hx]
        show "selectors" ≠ "relation"
        decide
    · rw [← List.append_assoc, get_concat, findAll_pairs hkeys, List.map_map]
      refine List.map_congr_left fun pair _ => ?_
      obtain ⟨hkey, hvalue⟩ := pair.get_captures
      exact Prod.ext hkey hvalue
  rw [WildKeyedList.parse]
  constructor
  · intro h
    split at h
    · next groups hmatch =>
      obtain ⟨relation, pairs, hrel, hne, hkeys, htext, hgroups⟩ :=
        spells_keyedList.of_fullMatch hmatch
      obtain ⟨hrelation, hpairs⟩ := hread hkeys hgroups
      rw [hrelation, hpairs] at h
      obtain ⟨s, hs, h⟩ := bind_eq_ok.mp h
      obtain rfl := Option.some.inj (Except.ok.inj h)
      exact ⟨relation, pairs, hrel, hne, hkeys, htext, hs⟩
    · cases h
  · rintro ⟨relation, pairs, hrel, hne, hkeys, htext, hnew⟩
    obtain ⟨groups, hmatch⟩ := spells_keyedList.exists_fullMatch
      ⟨relation, pairs, hrel, hne, hkeys, htext, rfl⟩
    obtain ⟨relation', pairs', -, hne', hkeys', htext', hgroups⟩ :=
      spells_keyedList.of_fullMatch hmatch
    obtain ⟨rfl, rfl⟩ := keyedList_text_unique hne hne' (htext.symm.trans htext')
    obtain ⟨hrelation, hpairs⟩ := hread hkeys' hgroups
    rw [hmatch]
    simp only [hrelation, hpairs, hnew]
    rfl

/-- The segment that a text is parsed to, by two types of elements. -/
theorem parseElement_eq_ok_iff
    {parseDict parseList : Text → Except DictPathError (Option WildSegment)}
    (hdict : ∀ x segment, parseDict x = .ok (some segment) ↔
      ∃ key : DictPathValue, key.IsKey ∧ x = key.escape ∧ segment = .inDict key ∧ allowed key)
    (hnone : ∀ x, parseDict x = .ok none ↔ ¬ ∃ key : DictPathValue, key.IsKey ∧ x = key.escape)
    (hlist : ∀ x segment, parseList x = .ok (some segment) ↔
      ∃ (relation : Text) (pairs : List SpelledPair), relation ≠ [] ∧ pairs ≠ [] ∧
        (∀ pair ∈ pairs, pair.1.IsKey) ∧
        x = escapeText relation ++ pairs.flatMap SpelledPair.text ∧
        (pairs.map Prod.fst).Nodup ∧ segment = (SpelledSegment.keyedList relation pairs).segment ∧
          segment.Allows allowed) :
    WildComposedPath.parseElement [parseDict, parseList] x = .ok segment ↔
      ∃ t : SpelledSegment, (t.WellFormed ∧ t.segment.Allows allowed) ∧ x = t.text ∧
        segment = t.segment := by
  have hcases : WildComposedPath.parseElement [parseDict, parseList] x = .ok segment ↔
      parseDict x = .ok (some segment) ∨
        parseDict x = .ok none ∧ parseList x = .ok (some segment) := by
    rw [WildComposedPath.parseElement]
    cases hd : parseDict x with
    | error e => exact iff_of_false (fun h => by cases h) fun h => by simp at h
    | ok found =>
        cases found with
        | some found => simp
        | none =>
            rw [ok_bind, WildComposedPath.parseElement]
            cases hl : parseList x with
            | error e => exact iff_of_false (fun h => by cases h) fun h => by simp at h
            | ok found =>
                cases found with
                | none => exact iff_of_false (fun h => by cases h) fun h => by simp at h
                | some found => simp
  rw [hcases, hdict, hnone, hlist]
  constructor
  · rintro (⟨key, hkey, rfl, rfl, hall⟩ | ⟨-, relation, pairs, hrel, hne, hkeys, rfl, hnodup, rfl, hall⟩)
    · exact ⟨.key key, ⟨hkey, hall⟩, rfl, rfl⟩
    · refine ⟨.keyedList relation pairs, ⟨⟨⟨relation, rfl, hrel⟩, ?_, ?_, ?_⟩, hall⟩, rfl, rfl⟩
      · simpa using hne
      · intro pair hp
        obtain ⟨pair', hp', rfl⟩ := List.mem_map.mp hp
        exact hkeys pair' hp'
      · rw [List.map_map]
        exact hnodup
  · rintro ⟨key | ⟨relation, pairs⟩, ⟨hwf, hall⟩, rfl, rfl⟩
    · exact .inl ⟨key, hwf, rfl, rfl, hall⟩
    · obtain ⟨⟨v, hv, hrel⟩, hne, hkeys, hnodup⟩ := hwf
      obtain rfl := DictPathValue.normal.inj hv
      have hne' : pairs ≠ [] := by simpa using hne
      rw [List.map_map] at hnodup
      refine .inr ⟨?_, relation, pairs, hrel, hne', fun pair hp => ?_, rfl, hnodup, rfl, hall⟩
      · rintro ⟨key, -, h⟩
        exact key_ne_keyedList hne' h.symm
      · exact hkeys _ (List.mem_map_of_mem hp)

/-- A text is parsed as a key when the pattern for keys matches it. -/
theorem fullMatch_key : (∃ groups, WildInDict.inDictPattern.fullMatch x = some groups) ↔
    ∃ key : DictPathValue, key.IsKey ∧ x = key.escape := by
  have hspells := spells_key.group "key"
  constructor
  · rintro ⟨groups, hmatch⟩
    obtain ⟨_, ⟨key, hkey, htext, -⟩, -⟩ := hspells.of_fullMatch hmatch
    exact ⟨key, hkey, htext⟩
  · rintro ⟨key, hkey, rfl⟩
    exact hspells.exists_fullMatch ⟨_, ⟨key, hkey, rfl, rfl⟩, rfl⟩

theorem parseInDict_cases (new : Text → Except DictPathError WildSegment)
    (allowed : DictPathValue → Prop) {parse : Text → Except DictPathError (Option WildSegment)}
    (hparse : ∀ x, parse x = match WildInDict.inDictPattern.fullMatch x with
      | some _ => do return some (← new x)
      | none => return none)
    (hnew : ∀ (key : DictPathValue) segment, key.IsKey →
      (new key.escape = .ok segment ↔ segment = .inDict key ∧ allowed key)) :
    (∀ x segment, parse x = .ok (some segment) ↔
      ∃ key : DictPathValue, key.IsKey ∧ x = key.escape ∧ segment = .inDict key ∧ allowed key) ∧
    ∀ x, parse x = .ok none ↔ ¬ ∃ key : DictPathValue, key.IsKey ∧ x = key.escape := by
  constructor
  · intro x segment
    rw [hparse]
    constructor
    · intro h
      split at h
      · next groups hmatch =>
        obtain ⟨key, hkey, rfl⟩ := fullMatch_key.mp ⟨groups, hmatch⟩
        obtain ⟨s, hs, h⟩ := bind_eq_ok.mp h
        obtain rfl := Option.some.inj (Except.ok.inj h)
        exact ⟨key, hkey, rfl, (hnew key s hkey).mp hs⟩
      · cases h
    · rintro ⟨key, hkey, rfl, rfl, hall⟩
      obtain ⟨groups, hmatch⟩ := fullMatch_key.mpr ⟨key, hkey, rfl⟩
      rw [hmatch]
      simp only [(hnew key _ hkey).mpr ⟨rfl, hall⟩]
      rfl
  · intro x
    rw [hparse, ← fullMatch_key]
    cases hmatch : WildInDict.inDictPattern.fullMatch x with
    | none => simp
    | some groups =>
        refine iff_of_false (fun h => ?_) fun h => h ⟨groups, rfl⟩
        obtain ⟨s, -, h⟩ := bind_eq_ok.mp h
        cases h

theorem parseKeyedList_new_eq_ok_iff
    (hkey : ∀ key : DictPathValue, key.IsKey → ∀ k, parseKey key.escape = .ok k ↔
      allowed key ∧ k = key)
    (hvalue : ∀ (value : SpelledValue) v, parseValue value.text = .ok v ↔
      allowed value.value ∧ v = value.value) :
    WildKeyedList.parse (WildKeyedList.new parseKey parseValue) x = .ok (some segment) ↔
      ∃ (relation : Text) (pairs : List SpelledPair), relation ≠ [] ∧ pairs ≠ [] ∧
        (∀ pair ∈ pairs, pair.1.IsKey) ∧
        x = escapeText relation ++ pairs.flatMap SpelledPair.text ∧
        (pairs.map Prod.fst).Nodup ∧ segment = (SpelledSegment.keyedList relation pairs).segment ∧
          segment.Allows allowed := by
  rw [parseKeyedList_eq_ok_iff]
  constructor
  · rintro ⟨relation, pairs, hrel, hne, hkeys, rfl, hnew⟩
    exact ⟨relation, pairs, hrel, hne, hkeys, rfl,
      (newKeyedList_eq_ok_iff hne hkeys hkey hvalue).mp hnew⟩
  · rintro ⟨relation, pairs, hrel, hne, hkeys, rfl, hnew⟩
    exact ⟨relation, pairs, hrel, hne, hkeys, rfl,
      (newKeyedList_eq_ok_iff hne hkeys hkey hvalue).mpr hnew⟩

theorem parseKey_eq_ok_iff {key : DictPathValue} (hkey : key.IsKey) (k : DictPathValue) :
    WildKeyedList.parseKey key.escape = .ok k ↔ True ∧ k = key := by
  rw [parseKey_ok hkey]
  simp [eq_comm]

theorem parseValue_eq_ok_iff (value : SpelledValue) (v : DictPathValue) :
    WildKeyedList.parseValue value.text = .ok v ↔ True ∧ v = value.value := by
  rw [WildKeyedList.parseValue, create_text]
  simp [eq_comm]

theorem refuseWildCard_eq_ok_iff {parse : Text → Except DictPathError DictPathValue} {s : Text}
    {value v : DictPathValue} (h : ∀ v, parse s = .ok v ↔ True ∧ v = value) :
    KeyedList.refuseWildCard parse s = .ok v ↔ value ≠ .wildCard ∧ v = value := by
  rw [KeyedList.refuseWildCard, (h value).mpr ⟨trivial, rfl⟩, ok_bind]
  cases value with
  | normal u => simp [eq_comm]
  | wildCard => exact iff_of_false (fun h => by cases h) fun h => h.1 rfl
  | null => simp [eq_comm]

/-- What `WildComposedPath` makes of a text. -/
theorem parseElement_wild :
    WildComposedPath.parseElement WildComposedPath.elementTypes x = .ok segment ↔
      ∃ t : SpelledSegment, (t.WellFormed ∧ t.segment.Allows fun _ => True) ∧ x = t.text ∧
        segment = t.segment := by
  obtain ⟨hdict, hnone⟩ := parseInDict_cases WildInDict.new (fun _ => True) (fun x => rfl)
    fun key segment hkey => by
      rw [newInDict_ok hkey]
      simp [eq_comm]
  exact parseElement_eq_ok_iff hdict hnone fun x segment =>
    parseKeyedList_new_eq_ok_iff (fun key hkey => parseKey_eq_ok_iff hkey) parseValue_eq_ok_iff

/-- What `ComposedPath` makes of a text. -/
theorem parseElement_strict :
    WildComposedPath.parseElement ComposedPath.elementTypes x = .ok segment ↔
      ∃ t : SpelledSegment, (t.WellFormed ∧ t.segment.Allows (· ≠ .wildCard)) ∧ x = t.text ∧
        segment = t.segment := by
  obtain ⟨hdict, hnone⟩ := parseInDict_cases InDict.new (· ≠ .wildCard) (fun x => rfl)
    fun key segment hkey => by
      rw [InDict.new, newInDict_ok hkey, ok_bind]
      cases key with
      | normal v => simp [eq_comm]
      | wildCard => exact iff_of_false (fun h => by cases h) fun h => h.2 rfl
      | null => exact hkey.elim
  exact parseElement_eq_ok_iff hdict hnone fun x segment =>
    parseKeyedList_new_eq_ok_iff
      (fun key hkey k => refuseWildCard_eq_ok_iff (parseKey_eq_ok_iff hkey))
      fun value v => refuseWildCard_eq_ok_iff (parseValue_eq_ok_iff value)

end Parse

end Inmanta
