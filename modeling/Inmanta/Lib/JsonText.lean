import Mathlib.Data.Char
import Mathlib.Data.List.Lex
import Mathlib.Data.List.Sort

/-!
# Json and its text

Values with objects as lists of members, `Json.sortKeys` for the order of the
members, and the text with indentation that Python's `json.dumps` writes.
`dumps_inj`: the text determines the value, up to the order of the keys.

A value ends where a delimiter, or nothing, follows, so that the lemmas are about
a text with what comes after it (`Json.print_inj`).
-/

namespace Inmanta

/-- A character of a number. -/
def isNumberChar (c : Char) : Bool :=
  c.isDigit = true ∨ c ∈ ['-', '+', '.', 'e']

/-- A finite float, by its shortest representation. It has a point or an exponent. -/
structure FloatRepr where
  text : List Char
  chars : ∀ c ∈ text, isNumberChar c = true
  fraction : '.' ∈ text ∨ 'e' ∈ text
  deriving DecidableEq

inductive Json where
  | null
  | bool (b : Bool)
  | int (n : ℤ)
  | float (x : FloatRepr)
  | str (s : List Char)
  | arr (items : List Json)
  | obj (members : List (List Char × Json))

/-! ## Text -/

def intText (n : ℤ) : List Char :=
  if n < 0 then '-' :: Nat.toDigits 10 n.natAbs else Nat.toDigits 10 n.natAbs

/-- Four hexadecimal digits. -/
def hexText (n : ℕ) : List Char :=
  ['\\', 'u', (n / 0x1000 % 16).digitChar, (n / 0x100 % 16).digitChar, (n / 0x10 % 16).digitChar,
    (n % 16).digitChar]

/-- A character in a string, in ASCII. -/
def jsonEscape (c : Char) : List Char :=
  if c = '"' then ['\\', '"']
  else if c = '\\' then ['\\', '\\']
  else if c = '\n' then ['\\', 'n']
  else if c = '\r' then ['\\', 'r']
  else if c = '\t' then ['\\', 't']
  else if c = Char.ofNat 0xc then ['\\', 'f']
  else if c = Char.ofNat 8 then ['\\', 'b']
  else if 0x20 ≤ c.toNat ∧ c.toNat ≤ 0x7e then [c]
  else if c.toNat < 0x10000 then hexText c.toNat
  else
    -- a surrogate pair
    hexText (0xd800 + (c.toNat - 0x10000) / 0x400) ++ hexText (0xdc00 + (c.toNat - 0x10000) % 0x400)

def jsonQuote (s : List Char) : List Char := '"' :: (s.flatMap jsonEscape ++ ['"'])

/-- A new line, indented by four spaces for each level. -/
def newline (level : ℕ) : List Char := '\n' :: List.replicate (4 * level) ' '

namespace Json

/-! ## The order of keys -/

mutual

/-- The value with all members in the order of their keys. -/
def sortKeys : Json → Json
  | null => null
  | bool b => bool b
  | int n => int n
  | float x => float x
  | str s => str s
  | arr items => arr (sortItems items)
  | obj members => obj ((sortMembers members).insertionSort fun a b => a.1 ≤ b.1)

def sortItems : List Json → List Json
  | [] => []
  | v :: items => v.sortKeys :: sortItems items

def sortMember : List Char × Json → List Char × Json
  | (k, v) => (k, v.sortKeys)

def sortMembers : List (List Char × Json) → List (List Char × Json)
  | [] => []
  | m :: members => sortMember m :: sortMembers members

end

mutual

/-- The text of a value at a level of indentation. -/
def print (level : ℕ) : Json → List Char
  | null => ['n', 'u', 'l', 'l']
  | bool true => ['t', 'r', 'u', 'e']
  | bool false => ['f', 'a', 'l', 's', 'e']
  | int n => intText n
  | float x => x.text
  | str s => jsonQuote s
  | arr [] => ['[', ']']
  | arr (v :: items) =>
      '[' :: (newline (level + 1) ++ (print (level + 1) v ++ (printItems (level + 1) items
        ++ (newline level ++ [']']))))
  | obj [] => ['{', '}']
  | obj (m :: members) =>
      '{' :: (newline (level + 1) ++ (printMember (level + 1) m ++ (printMembers (level + 1) members
        ++ (newline level ++ ['}']))))

/-- The items after the first one. -/
def printItems (level : ℕ) : List Json → List Char
  | [] => []
  | v :: items => ',' :: (newline level ++ (print level v ++ printItems level items))

def printMember (level : ℕ) : List Char × Json → List Char
  | (k, v) => jsonQuote k ++ ([':', ' '] ++ print level v)

/-- The members after the first one. -/
def printMembers (level : ℕ) : List (List Char × Json) → List Char
  | [] => []
  | m :: members => ',' :: (newline level ++ (printMember level m ++ printMembers level members))

end

/-- `json.dumps(value, indent=4, sort_keys=True)` -/
def dumps (v : Json) : List Char := v.sortKeys.print 0

end Json

/-! ## Numbers -/

/-- No character of a number, of a string or of a name follows. -/
def Delimited (rest : List Char) : Prop := ∀ c s, rest = c :: s → c = ',' ∨ c = '\n'

theorem delimited_nil : Delimited [] := fun _ _ h => by cases h

theorem delimited_newline (level : ℕ) (s : List Char) : Delimited (newline level ++ s) :=
  fun _ _ h => .inr (List.cons.inj h).1.symm

theorem isNumberChar_of_isDigit {c : Char} (h : c.isDigit = true) : isNumberChar c = true := by
  simp [isNumberChar, h]

theorem intText_chars (n : ℤ) : ∀ c ∈ intText n, c.isDigit = true ∨ c = '-' := by
  have hdigits : ∀ c ∈ Nat.toDigits 10 n.natAbs, c.isDigit = true ∨ c = '-' := fun c hc =>
    .inl (Nat.isDigit_of_mem_toDigits (by omega) (by omega) hc)
  intro c hc
  rw [intText] at hc
  split at hc
  · obtain rfl | hc := List.mem_cons.mp hc
    · exact .inr rfl
    · exact hdigits c hc
  · exact hdigits c hc

theorem intText_ne_nil (n : ℤ) : intText n ≠ [] := by
  rw [intText]
  split
  · simp
  · exact Nat.toDigits_ne_nil

theorem toDigits_inj {n m : ℕ} (h : Nat.toDigits 10 n = Nat.toDigits 10 m) : n = m := by
  have h := congrArg (Nat.ofDigitChars 10 · 0) h
  simpa using h

theorem intText_inj {n m : ℤ} (h : intText n = intText m) : n = m := by
  have hminus : ∀ k l : ℕ, '-' :: Nat.toDigits 10 k ≠ Nat.toDigits 10 l := fun k l h => by
    have hdigit : Char.isDigit '-' = true :=
      Nat.isDigit_of_mem_toDigits (by omega) (by omega) (h ▸ List.mem_cons_self ..)
    cases hdigit
  rw [intText, intText] at h
  split at h <;> split at h
  · have := toDigits_inj (List.cons.inj h).2
    omega
  · exact absurd h (hminus _ _)
  · exact absurd h.symm (hminus _ _)
  · have := toDigits_inj h
    omega

/-- A number is read up to a delimiter. -/
theorem number_unique {s t r r' : List Char} (hs : ∀ c ∈ s, isNumberChar c = true)
    (ht : ∀ c ∈ t, isNumberChar c = true) (hr : Delimited r) (hr' : Delimited r')
    (h : s ++ r = t ++ r') : s = t ∧ r = r' := by
  have hdelim : ∀ {c : Char}, isNumberChar c = true → c = ',' ∨ c = '\n' → False := by
    rintro c hc (rfl | rfl) <;> exact absurd hc (by decide)
  induction s generalizing t with
  | nil =>
      cases t with
      | nil => exact ⟨rfl, h⟩
      | cons d t => exact (hdelim (ht d (List.mem_cons_self ..)) (hr d _ h)).elim
  | cons c s ih =>
      cases t with
      | nil => exact (hdelim (hs c (List.mem_cons_self ..)) (hr' c _ h.symm)).elim
      | cons d t =>
          obtain ⟨hcd, htail⟩ := List.cons.inj h
          obtain ⟨hst, hrest⟩ := ih (fun x hx => hs x (List.mem_cons_of_mem _ hx))
            (fun x hx => ht x (List.mem_cons_of_mem _ hx)) htail
          exact ⟨by rw [hcd, hst], hrest⟩

/-! ## Strings -/

theorem digitChar_inj : ∀ n < 16, ∀ m < 16, Nat.digitChar n = Nat.digitChar m → n = m := by decide

theorem hexText_inj {n m : ℕ} {r r' : List Char} (hn : n < 0x10000) (hm : m < 0x10000)
    (h : hexText n ++ r = hexText m ++ r') : n = m ∧ r = r' := by
  simp only [hexText, List.cons_append, List.nil_append, List.cons.injEq, true_and] at h
  obtain ⟨h1, h2, h3, h4, hr⟩ := h
  have h1 := digitChar_inj _ (Nat.mod_lt _ (by omega)) _ (Nat.mod_lt _ (by omega)) h1
  have h2 := digitChar_inj _ (Nat.mod_lt _ (by omega)) _ (Nat.mod_lt _ (by omega)) h2
  have h3 := digitChar_inj _ (Nat.mod_lt _ (by omega)) _ (Nat.mod_lt _ (by omega)) h3
  have h4 := digitChar_inj _ (Nat.mod_lt _ (by omega)) _ (Nat.mod_lt _ (by omega)) h4
  exact ⟨by omega, hr⟩

/-- The character that a backslash and a letter stand for. -/
def letterEscape (x : Char) : Option Char :=
  [('"', '"'), ('\\', '\\'), ('n', '\n'), ('r', '\r'), ('t', '\t'), ('f', Char.ofNat 0xc),
    ('b', Char.ofNat 8)].lookup x

/-- How a character is written. -/
inductive Escape (c : Char) : List Char → Prop where
  | letter (x : Char) (h : letterEscape x = some c) : Escape c ['\\', x]
  | plain (h : c ≠ '\\') (hquote : c ≠ '"') : Escape c [c]
  | hex (h : c.toNat < 0x10000) : Escape c (hexText c.toNat)
  | pair (h : 0x10000 ≤ c.toNat) : Escape c (hexText (0xd800 + (c.toNat - 0x10000) / 0x400)
      ++ hexText (0xdc00 + (c.toNat - 0x10000) % 0x400))

theorem jsonEscape_spec (c : Char) : Escape c (jsonEscape c) := by
  rw [jsonEscape]
  split
  · next h => exact .letter '"' (by rw [h]; rfl)
  next hquote =>
  split
  · next h => exact .letter '\\' (by rw [h]; rfl)
  next hbackslash =>
  split
  · next h => exact .letter 'n' (by rw [h]; rfl)
  split
  · next h => exact .letter 'r' (by rw [h]; rfl)
  split
  · next h => exact .letter 't' (by rw [h]; rfl)
  split
  · next h => exact .letter 'f' (by rw [h]; rfl)
  split
  · next h => exact .letter 'b' (by rw [h]; rfl)
  split
  · exact .plain hbackslash hquote
  split
  · next h => exact .hex h
  · next h => exact .pair (by omega)

theorem letterEscape_ne_u {x c : Char} (h : letterEscape x = some c) : x ≠ 'u' := by
  rintro rfl
  cases h

/-- A character is not a surrogate. -/
theorem toNat_of_char (c : Char) :
    (c.toNat < 0xd800 ∨ 0xdfff < c.toNat) ∧ c.toNat < 0x110000 := by
  have h := c.valid
  simp only [UInt32.isValidChar, Nat.isValidChar] at h
  have hc : c.toNat = c.val.toNat := rfl
  omega

theorem Escape.unique {c d : Char} {s t r r' : List Char} (hs : Escape c s) (ht : Escape d t)
    (h : s ++ r = t ++ r') : c = d ∧ r = r' := by
  have hc := toNat_of_char c
  have hd := toNat_of_char d
  cases hs with
  | letter x hx =>
      cases ht with
      | letter y hy =>
          simp only [List.cons_append, List.nil_append, List.cons.injEq, true_and] at h
          obtain ⟨rfl, hr⟩ := h
          exact ⟨Option.some.inj (hx.symm.trans hy), hr⟩
      | plain hne => exact absurd (List.cons.inj h).1.symm hne
      | hex => exact absurd (List.cons.inj (List.cons.inj h).2).1 (letterEscape_ne_u hx)
      | pair => exact absurd (List.cons.inj (List.cons.inj h).2).1 (letterEscape_ne_u hx)
  | plain hne =>
      cases ht with
      | letter => exact absurd (List.cons.inj h).1 hne
      | plain => exact List.cons.inj h
      | hex => exact absurd (List.cons.inj h).1 hne
      | pair => exact absurd (List.cons.inj h).1 hne
  | hex hlt =>
      cases ht with
      | letter y hy =>
          exact absurd (List.cons.inj (List.cons.inj h).2).1.symm (letterEscape_ne_u hy)
      | plain hne => exact absurd (List.cons.inj h).1.symm hne
      | hex hlt' =>
          obtain ⟨hnat, hr⟩ := hexText_inj hlt hlt' h
          exact ⟨Char.toNat_inj.mp hnat, hr⟩
      | pair =>
          rw [List.append_assoc] at h
          have hnat := (hexText_inj hlt (by omega) h).1
          omega
  | pair hle =>
      rw [List.append_assoc] at h
      cases ht with
      | letter y hy =>
          exact absurd (List.cons.inj (List.cons.inj h).2).1.symm (letterEscape_ne_u hy)
      | plain hne => exact absurd (List.cons.inj h).1.symm hne
      | hex hlt =>
          have hnat := (hexText_inj (by omega) hlt h).1
          omega
      | pair =>
          rw [List.append_assoc] at h
          obtain ⟨hhigh, h⟩ := hexText_inj (by omega) (by omega) h
          obtain ⟨hlow, hr⟩ := hexText_inj (by omega) (by omega) h
          exact ⟨Char.toNat_inj.mp (by omega), hr⟩

/-- No character is written with a quote in front. -/
theorem Escape.head_ne {c : Char} {s r : List Char} (hs : Escape c s) (t : List Char) :
    s ++ r ≠ '"' :: t := by
  intro h
  cases hs with
  | letter => cases h
  | plain _ hquote => exact hquote (List.cons.inj h).1
  | hex => cases h
  | pair => cases h

theorem jsonQuote_unique {s t r r' : List Char} (h : jsonQuote s ++ r = jsonQuote t ++ r') :
    s = t ∧ r = r' := by
  simp only [jsonQuote, List.cons_append, List.append_assoc, List.nil_append, List.cons.injEq,
    true_and] at h
  induction s generalizing t with
  | nil =>
      cases t with
      | nil => exact ⟨rfl, (List.cons.inj h).2⟩
      | cons d t =>
          rw [List.flatMap_cons, List.append_assoc] at h
          exact absurd h.symm ((jsonEscape_spec d).head_ne _)
  | cons c s ih =>
      rw [List.flatMap_cons, List.append_assoc] at h
      cases t with
      | nil => exact absurd h ((jsonEscape_spec c).head_ne _)
      | cons d t =>
          rw [List.flatMap_cons, List.append_assoc] at h
          obtain ⟨hcd, htail⟩ := (jsonEscape_spec c).unique (jsonEscape_spec d) h
          obtain ⟨hst, hr⟩ := ih htail
          exact ⟨by rw [hcd, hst], hr⟩

/-! ## Values -/

namespace Json

/-- What kind of value it is. All numbers are of one kind. -/
def kind : Json → ℕ
  | null => 0
  | bool _ => 1
  | int _ => 2
  | float _ => 2
  | str _ => 3
  | arr _ => 4
  | obj _ => 5

/-- The kind of a value that starts with a character. -/
def headKind (c : Char) : ℕ :=
  if c = 'n' then 0 else if c = 't' ∨ c = 'f' then 1 else if c = '"' then 3
  else if c = '[' then 4 else if c = '{' then 5 else 2

theorem headKind_number {c : Char} (h : isNumberChar c = true) : headKind c = 2 := by
  have hne : ∀ d : Char, isNumberChar d = false → c ≠ d := by
    rintro d hd rfl
    rw [h] at hd
    cases hd
  rw [headKind, if_neg (hne _ rfl), if_neg (not_or.mpr ⟨hne _ rfl, hne _ rfl⟩),
    if_neg (hne _ rfl), if_neg (hne _ rfl), if_neg (hne _ rfl)]

theorem exists_head (level : ℕ) (v : Json) :
    ∃ c s, v.print level = c :: s ∧ headKind c = v.kind := by
  cases v with
  | null => exact ⟨_, _, rfl, rfl⟩
  | bool b => cases b <;> exact ⟨_, _, rfl, rfl⟩
  | int n =>
      obtain ⟨c, s, hcs⟩ := List.exists_cons_of_ne_nil (intText_ne_nil n)
      have hc : c.isDigit = true ∨ c = '-' := intText_chars n c (hcs ▸ List.mem_cons_self ..)
      refine ⟨c, s, hcs, headKind_number ?_⟩
      obtain hc | rfl := hc
      · exact isNumberChar_of_isDigit hc
      · rfl
  | float x =>
      have hne : x.text ≠ [] := fun h => by
        have hf := x.fraction
        simp [h] at hf
      obtain ⟨c, s, hcs⟩ := List.exists_cons_of_ne_nil hne
      exact ⟨c, s, hcs, headKind_number (x.chars c (hcs ▸ List.mem_cons_self ..))⟩
  | str s => exact ⟨_, _, rfl, rfl⟩
  | arr items => cases items <;> exact ⟨_, _, rfl, rfl⟩
  | obj members => cases members <;> exact ⟨_, _, rfl, rfl⟩

theorem kind_eq {v w : Json} {level level' : ℕ} {r r' : List Char}
    (h : v.print level ++ r = w.print level' ++ r') : v.kind = w.kind := by
  obtain ⟨c, s, hv, hc⟩ := v.exists_head level
  obtain ⟨d, t, hw, hd⟩ := w.exists_head level'
  rw [hv, hw] at h
  rw [← hc, ← hd, (List.cons.inj h).1]

theorem intText_ne_float (n : ℤ) (x : FloatRepr) : intText n ≠ x.text := by
  intro h
  have hchars := intText_chars n
  rw [h] at hchars
  obtain hf | hf := x.fraction
  · exact absurd (hchars _ hf) (by decide)
  · exact absurd (hchars _ hf) (by decide)

theorem numberText (n : ℤ) : ∀ c ∈ intText n, isNumberChar c = true := fun c hc => by
  obtain h | rfl := intText_chars n c hc
  · exact isNumberChar_of_isDigit h
  · rfl

theorem delimited_items (level level' : ℕ) (items : List Json) (s : List Char) :
    Delimited (printItems level items ++ (newline level' ++ s)) := by
  cases items with
  | nil => exact delimited_newline level' s
  | cons v items => exact fun _ _ h => .inl (List.cons.inj h).1.symm

theorem delimited_members (level level' : ℕ) (members : List (List Char × Json))
    (s : List Char) : Delimited (printMembers level members ++ (newline level' ++ s)) := by
  cases members with
  | nil => exact delimited_newline level' s
  | cons m members => exact fun _ _ h => .inl (List.cons.inj h).1.symm

mutual

theorem print_inj : ∀ (v w : Json) (level : ℕ) {r r' : List Char}, Delimited r → Delimited r' →
    v.print level ++ r = w.print level ++ r' → v = w ∧ r = r'
  | v, w, level, r, r', hr, hr', h => by
      have hkind := kind_eq h
      cases v with
      | null =>
          cases w with
          | null => exact ⟨rfl, List.append_cancel_left h⟩
          | _ => cases hkind
      | bool b =>
          cases w with
          | bool b' =>
              cases b <;> cases b'
              · exact ⟨rfl, List.append_cancel_left h⟩
              · cases h
              · cases h
              · exact ⟨rfl, List.append_cancel_left h⟩
          | _ => cases hkind
      | int n =>
          cases w with
          | int m =>
              obtain ⟨htext, hrest⟩ := number_unique (numberText n) (numberText m) hr hr' h
              exact ⟨by rw [intText_inj htext], hrest⟩
          | float x =>
              have htext := (number_unique (numberText n) x.chars hr hr' h).1
              exact absurd htext (intText_ne_float n x)
          | _ => cases hkind
      | float x =>
          cases w with
          | int m =>
              have htext := (number_unique x.chars (numberText m) hr hr' h).1
              exact absurd htext.symm (intText_ne_float m x)
          | float y =>
              obtain ⟨htext, hrest⟩ := number_unique x.chars y.chars hr hr' h
              cases x
              cases y
              cases htext
              exact ⟨rfl, hrest⟩
          | _ => cases hkind
      | str s =>
          cases w with
          | str t =>
              obtain ⟨rfl, hrest⟩ := jsonQuote_unique h
              exact ⟨rfl, hrest⟩
          | _ => cases hkind
      | arr items =>
          cases w with
          | arr items' => exact printArr_inj items items' level hr hr' h
          | _ => cases hkind
      | obj members =>
          cases w with
          | obj members' => exact printObj_inj members members' level hr hr' h
          | _ => cases hkind

theorem printArr_inj : ∀ (items items' : List Json) (level : ℕ) {r r' : List Char}, Delimited r →
    Delimited r' → (arr items).print level ++ r = (arr items').print level ++ r' →
    arr items = arr items' ∧ r = r'
  | [], [], _, _, _, _, _, h => ⟨rfl, List.append_cancel_left h⟩
  | [], _ :: _, _, _, _, _, _, h => by cases (List.cons.inj h).2
  | _ :: _, [], _, _, _, _, _, h => by cases (List.cons.inj h).2
  | v :: items, w :: items', level, r, r', hr, hr', h => by
      simp only [print, List.cons_append, List.append_assoc, List.cons.injEq, true_and] at h
      have h := List.append_cancel_left h
      obtain ⟨rfl, hitems⟩ := print_inj v w (level + 1) (delimited_items _ _ _ _)
        (delimited_items _ _ _ _) h
      obtain ⟨rfl, hrest⟩ := printItems_inj items items' (level + 1) level hitems
      exact ⟨rfl, (List.cons.inj hrest).2⟩

theorem printItems_inj : ∀ (items items' : List Json) (level level' : ℕ) {r r' : List Char},
    printItems level items ++ (newline level' ++ r)
      = printItems level items' ++ (newline level' ++ r') → items = items' ∧ r = r'
  | [], [], _, _, _, _, h => ⟨rfl, List.append_cancel_left (List.append_cancel_left h)⟩
  | [], _ :: _, _, _, _, _, h => by cases (List.cons.inj h).1
  | _ :: _, [], _, _, _, _, h => by cases (List.cons.inj h).1
  | v :: items, w :: items', level, level', r, r', h => by
      simp only [printItems, List.cons_append, List.append_assoc, List.cons.injEq, true_and] at h
      have h := List.append_cancel_left h
      obtain ⟨rfl, hitems⟩ := print_inj v w level (delimited_items _ _ _ _)
        (delimited_items _ _ _ _) h
      obtain ⟨rfl, hrest⟩ := printItems_inj items items' level level' hitems
      exact ⟨rfl, hrest⟩

theorem printObj_inj : ∀ (members members' : List (List Char × Json)) (level : ℕ)
    {r r' : List Char}, Delimited r → Delimited r' →
    (obj members).print level ++ r = (obj members').print level ++ r' →
    obj members = obj members' ∧ r = r'
  | [], [], _, _, _, _, _, h => ⟨rfl, List.append_cancel_left h⟩
  | [], _ :: _, _, _, _, _, _, h => by cases (List.cons.inj h).2
  | _ :: _, [], _, _, _, _, _, h => by cases (List.cons.inj h).2
  | m :: members, m' :: members', level, r, r', hr, hr', h => by
      simp only [print, List.cons_append, List.append_assoc, List.cons.injEq, true_and] at h
      have h := List.append_cancel_left h
      obtain ⟨rfl, hmembers⟩ := printMember_inj m m' (level + 1) (delimited_members _ _ _ _)
        (delimited_members _ _ _ _) h
      obtain ⟨rfl, hrest⟩ := printMembers_inj members members' (level + 1) level hmembers
      exact ⟨rfl, (List.cons.inj hrest).2⟩

theorem printMember_inj : ∀ (m m' : List Char × Json) (level : ℕ) {r r' : List Char},
    Delimited r → Delimited r' → printMember level m ++ r = printMember level m' ++ r' →
    m = m' ∧ r = r'
  | (k, v), (k', w), level, r, r', hr, hr', h => by
      simp only [printMember, List.append_assoc] at h
      obtain ⟨rfl, hvalue⟩ := jsonQuote_unique h
      obtain ⟨rfl, hrest⟩ := print_inj v w level hr hr' (List.append_cancel_left hvalue)
      exact ⟨rfl, hrest⟩

theorem printMembers_inj : ∀ (members members' : List (List Char × Json)) (level level' : ℕ)
    {r r' : List Char}, printMembers level members ++ (newline level' ++ r)
      = printMembers level members' ++ (newline level' ++ r') → members = members' ∧ r = r'
  | [], [], _, _, _, _, h => ⟨rfl, List.append_cancel_left (List.append_cancel_left h)⟩
  | [], _ :: _, _, _, _, _, h => by cases (List.cons.inj h).1
  | _ :: _, [], _, _, _, _, h => by cases (List.cons.inj h).1
  | m :: members, m' :: members', level, level', r, r', h => by
      simp only [printMembers, List.cons_append, List.append_assoc, List.cons.injEq,
        true_and] at h
      have h := List.append_cancel_left h
      obtain ⟨rfl, hmembers⟩ := printMember_inj m m' level (delimited_members _ _ _ _)
        (delimited_members _ _ _ _) h
      obtain ⟨rfl, hrest⟩ := printMembers_inj members members' level level' hmembers
      exact ⟨rfl, hrest⟩

end

/-- The text determines the value, up to the order of the keys. -/
theorem dumps_inj {v w : Json} : v.dumps = w.dumps ↔ v.sortKeys = w.sortKeys := by
  refine ⟨fun h => ?_, fun h => by rw [dumps, h, dumps]⟩
  refine (print_inj _ _ 0 delimited_nil delimited_nil ?_).1
  rw [List.append_nil, List.append_nil]
  exact h

theorem sortMembers_eq_map (members : List (List Char × Json)) :
    sortMembers members = members.map sortMember := by
  induction members with
  | nil => rfl
  | cons m members ih => rw [sortMembers, ih, List.map_cons]

/-- The order in which an object has its members does not matter. -/
theorem sortKeys_of_perm {members members' : List (List Char × Json)}
    (hkeys : (members.map Prod.fst).Nodup) (h : members.Perm members') :
    (obj members).sortKeys = (obj members').sortKeys := by
  have hfst : ∀ l : List (List Char × Json), (l.map sortMember).map Prod.fst = l.map Prod.fst :=
    fun l => by
      rw [List.map_map]
      refine List.map_congr_left fun m _ => ?_
      obtain ⟨k, v⟩ := m
      rfl
  rw [sortKeys, sortKeys, sortMembers_eq_map, sortMembers_eq_map]
  refine congrArg obj (@List.Perm.eq_of_pairwise _ (fun a b => a.1 ≤ b.1) _ _ ?_
    (List.pairwise_insertionSort _ _) (List.pairwise_insertionSort _ _) ?_)
  · intro a b ha hb hab hba
    rw [List.mem_insertionSort] at ha hb
    have hb' := (h.map sortMember).mem_iff.mpr hb
    exact List.inj_on_of_nodup_map ((hfst members).symm ▸ hkeys) ha hb' (le_antisymm hab hba)
  · exact ((List.perm_insertionSort _ _).trans (h.map sortMember)).trans
      (List.perm_insertionSort _ _).symm

end Json

end Inmanta
