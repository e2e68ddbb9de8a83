import Inmanta.Lib.Regex
import Inmanta.Lib.Utf8

/-!
# String literals

The rules of the lexer for texts: f-strings, raw strings, multi-line strings and
plain strings. All but raw strings are decoded by `safe_decode`, which writes the
text in UTF-8 and reads the bytes with Python's `unicode_escape` codec. That codec
takes every byte that is not part of an escape for a character of its own, as
Latin-1 does.

So a literal with a character that is not ASCII denotes another text
(`literal_iff`). The codec on the characters themselves is how Python reads its
own literals; `Codec.unicodeEscape` is both.
-/

namespace Inmanta

namespace StringLiterals

/-- The code points of a text. -/
def codes (s : List Char) : List ℕ := s.map Char.toNat

/-! ## The `unicode_escape` codec -/

namespace Codec

/-- The names of characters; `none` where there is no such character. -/
abbrev Names := List ℕ → Option ℕ

def hexValue (c : ℕ) : Option ℕ :=
  if 48 ≤ c ∧ c ≤ 57 then some (c - 48)
  else if 65 ≤ c ∧ c ≤ 70 then some (c - 55)
  else if 97 ≤ c ∧ c ≤ 102 then some (c - 87)
  else none

def isOctal (c : ℕ) : Bool := 48 ≤ c && c ≤ 55

/-- `\\`, `\'`, `\"`, `\a`, `\b`, `\f`, `\n`, `\r`, `\t` and `\v`. -/
def simpleEscape : ℕ → Option ℕ
  | 92 => some 92
  | 39 => some 39
  | 34 => some 34
  | 97 => some 7
  | 98 => some 8
  | 102 => some 12
  | 110 => some 10
  | 114 => some 13
  | 116 => some 9
  | 118 => some 11
  | _ => none

/-- How many hexadecimal digits follow `\x`, `\u` and `\U`. -/
def hexWidth : ℕ → Option ℕ
  | 120 => some 2
  | 117 => some 4
  | 85 => some 8
  | _ => none

def hexDigits (width : ℕ) (s : List ℕ) : Option (List ℕ × List ℕ) :=
  match (s.take width).mapM hexValue with
  | some digits =>
      let value := digits.foldl (fun v d => 16 * v + d) 0
      if digits.length = width ∧ value ≤ 0x10ffff then some ([value], s.drop width) else none
  | none => none

/-- `\N{...}` -/
def named (names : Names) : List ℕ → Option (List ℕ × List ℕ)
  | 123 :: s =>
      match s.dropWhile (· ≠ 125) with
      | _ :: rest => (names (s.takeWhile (· ≠ 125))).map fun value => ([value], rest)
      | [] => none
  | _ => none

/-- What stands after a backslash, and what is left; `none` is an error. -/
def escape (names : Names) : List ℕ → Option (List ℕ × List ℕ)
  | [] => none
  | c :: s =>
      if c = 10 then some ([], s)
      else
        match simpleEscape c with
        | some value => some ([value], s)
        | none =>
            if isOctal c then
              let digits := (s.take 2).takeWhile isOctal
              some ([(c :: digits).foldl (fun v d => 8 * v + (d - 48)) 0], s.drop digits.length)
            else
              match hexWidth c with
              | some width => hexDigits width s
              | none =>
                  if c = 78 then named names s
                  -- not an escape: the backslash stays
                  else some ([92, c], s)

def unicodeEscape (names : Names) : List ℕ → Option (List ℕ)
  | [] => some []
  | c :: s =>
      if c = 92 then
        match escape names s with
        | some (value, rest) =>
            if _h : rest.length ≤ s.length then (unicodeEscape names rest).map (value ++ ·)
            else none
        | none => none
      else (unicodeEscape names s).map (c :: ·)
termination_by s => s.length

variable {names : Names}

@[simp] theorem unicodeEscape_nil : unicodeEscape names [] = some [] := by rw [unicodeEscape]

theorem unicodeEscape_cons {c : ℕ} (h : c ≠ 92) (s : List ℕ) :
    unicodeEscape names (c :: s) = (unicodeEscape names s).map (c :: ·) := by
  rw [unicodeEscape, if_neg h]

theorem unicodeEscape_append {w : List ℕ} (h : ∀ c ∈ w, c ≠ 92) (s : List ℕ) :
    unicodeEscape names (w ++ s) = (unicodeEscape names s).map (w ++ ·) := by
  induction w with
  | nil => exact Option.map_id'.symm
  | cons c w ih =>
      obtain ⟨hc, hw⟩ := List.forall_mem_cons.mp h
      rw [List.cons_append, unicodeEscape_cons hc, ih hw, Option.map_map]
      rfl

theorem unicodeEscape_simple {c value : ℕ} (hc : c ≠ 10) (h : simpleEscape c = some value)
    (s : List ℕ) :
    unicodeEscape names (92 :: c :: s) = (unicodeEscape names s).map (value :: ·) := by
  rw [unicodeEscape, if_pos rfl, escape, if_neg hc, h]
  exact dif_pos (Nat.le_succ _)

end Codec

/-! ## The rules of the lexer -/

inductive Quote where
  | double
  | single
  deriving DecidableEq

def Quote.char : Quote → Char
  | double => '"'
  | single => '\''

open Regex

/-- `([^\\"\n]|\\.)` -/
def unitRegex (q : Quote) : Regex :=
  alt (chr fun c => decide (c ≠ '\\' ∧ c ≠ q.char ∧ c ≠ '\n'))
    (seq (lit '\\') (chr fun c => decide (c ≠ '\n')))

/-- `"([^\\"\n]|\\.)*"` -/
def quotedRegex (q : Quote) : Regex :=
  seq (lit q.char) (seq (star (unitRegex q)) (lit q.char))

/-- `f("...")|f('...')` -/
def fstringRegex : Regex :=
  alt (seq (lit 'f') (quotedRegex .double)) (seq (lit 'f') (quotedRegex .single))

/-- `r("...")|r('...')` -/
def rstringRegex : Regex :=
  alt (seq (lit 'r') (quotedRegex .double)) (seq (lit 'r') (quotedRegex .single))

def stringRegex : Regex := alt (quotedRegex .double) (quotedRegex .single)

/-- As many quotes. -/
def quotes : ℕ → Regex
  | 0 => lit '"'
  | n + 1 => seq (lit '"') (quotes n)

/-- `"{3,5}` -/
def delimiterRegex : Regex := alt (quotes 4) (alt (quotes 3) (quotes 2))

/-- `"{3,5}([\s\S]*?)"{3,5}` -/
def mlsRegex : Regex := seq delimiterRegex (seq (lazyStar (chr fun _ => true)) delimiterRegex)

inductive TokenType where
  | fstring
  | rstring
  | mls
  | string
  deriving DecidableEq

/-- The rules in the order in which they are tried. -/
def rules : List (TokenType × Regex) :=
  [(.fstring, fstringRegex), (.rstring, rstringRegex), (.mls, mlsRegex), (.string, stringRegex)]

/-- `value[start:-stop]` -/
def slice (start stop : ℕ) (value : List Char) : List Char :=
  (value.drop start).take ((value.drop start).length - stop)

/-- `bytes(value[start:end], "utf_8").decode("unicode_escape")` -/
def safeDecode (names : Codec.Names) (value : List Char) : Option (List ℕ) :=
  Codec.unicodeEscape names ((utf8 value).map UInt8.toNat)

/-- The value of a token; `none` is an error of the codec. -/
def tokenValue (names : Codec.Names) (value : List Char) : TokenType → Option (List ℕ)
  | .fstring => safeDecode names (slice 2 1 value)
  | .rstring => some (codes (slice 2 1 value))
  | .mls => safeDecode names (slice 3 3 value)
  | .string => safeDecode names (slice 1 1 value)

structure Token where
  type : TokenType
  value : Option (List ℕ)
  rest : List Char
  deriving DecidableEq

/-- The token at the start of a text that starts with a quote, with `f` and a quote
or with `r` and a quote. -/
def token (names : Codec.Names) (text : List Char) : Option Token :=
  rules.findSome? fun rule =>
    (rule.2.results text).head?.map fun x =>
      ⟨rule.1, tokenValue names (consumed text x.2) rule.1, x.2⟩

/-! ## Spelling a text -/

/-- An escape of a character: it is read as the character, whatever follows. -/
structure IsEscape (names : Codec.Names) (e : List Char) (c : Char) : Prop where
  shape : ∃ x more, e = '\\' :: x :: more ∧ x ≠ '\n' ∧
    ∀ y ∈ more, y ≠ '\\' ∧ y ≠ '"' ∧ y ≠ '\'' ∧ y ≠ '\n'
  ascii : Ascii e
  reads : ∀ s, Codec.unicodeEscape names (codes e ++ s) =
    (Codec.unicodeEscape names s).map (c.toNat :: ·)

/-- What is written for a text, if the characters in `special` are escaped. -/
inductive Spelled (names : Codec.Names) (special : Char → Prop) : List Char → List Char → Prop
  | nil : Spelled names special [] []
  | plain {c body s} : ¬ special c → Spelled names special body s →
      Spelled names special (c :: body) (c :: s)
  | escaped {c e body s} : special c → IsEscape names e c → Spelled names special body s →
      Spelled names special (e ++ body) (c :: s)

inductive Form where
  | string (q : Quote)
  | fstring (q : Quote)
  | mls
  | raw (q : Quote)

/-- The backslash, the delimiter and the line ends. -/
def Form.special : Form → Char → Prop
  | .string q, c | .fstring q, c => c = '\\' ∨ c = q.char ∨ c = '\n'
  | .mls, c => c = '\\' ∨ c = '"'
  | .raw _, _ => False

/-- What a literal of the form can spell. -/
def Form.Allows : Form → List Char → Prop
  | .raw q, s => q.char ∉ s ∧ '\n' ∉ s ∧ s.getLast? ≠ some '\\'
  | _, _ => True

def Form.type : Form → TokenType
  | .string _ => .string
  | .fstring _ => .fstring
  | .mls => .mls
  | .raw _ => .rstring

def Form.literal (body : List Char) : Form → List Char
  | .string q => q.char :: (body ++ [q.char])
  | .fstring q => 'f' :: q.char :: (body ++ [q.char])
  | .mls => '"' :: '"' :: '"' :: (body ++ ['"', '"', '"'])
  | .raw q => 'r' :: q.char :: (body ++ [q.char])

/-- The text after the literal does not make it part of another one: no more quotes
follow a multi-line string, nor does anything that ends the empty one later, and an
empty plain string is not the start of a multi-line string. -/
def Form.Apart : Form → List Char → List Char → Prop
  | .mls, s, rest => rest.head? ≠ some '"' ∧ (s = [] → ¬ ['"', '"', '"'] <:+: rest)
  | .string .double, s, rest => s = [] → mlsRegex.results ('"' :: '"' :: rest) = []
  | _, _, _ => True

/-! ## Strings on one line -/

variable {names : Codec.Names} {q : Quote} {body s w rest : List Char} {c : Char}

/-- A text that starts with the quote. -/
def Quote.Starts (q : Quote) (s : List Char) : Prop := s.head? = some q.char

theorem unitRegex_plain (hc : c ≠ '\\' ∧ c ≠ q.char ∧ c ≠ '\n') (s : List Char) :
    (unitRegex q).results (c :: s) = [([], s)] := by
  rw [unitRegex, results_alt, results_seq_of_nil (by simp [hc.1])]
  simp [hc]

theorem unitRegex_escape (hc : c ≠ '\n') (s : List Char) :
    (unitRegex q).results ('\\' :: c :: s) = [([], s)] := by
  have hlit : (lit '\\').results ('\\' :: c :: s) = [([], c :: s)] := by simp
  rw [unitRegex, results_alt, results_seq_of_singleton hlit]
  simp [hc]

theorem backslash_ne_quote (q : Quote) : '\\' ≠ q.char := by
  cases q <;> decide

/-- The regular expression reads plain characters one at a time, and a backslash with
the character after it. -/
abbrev Body (q : Quote) (w : List Char) : Prop := Units (unitRegex q) q.Starts w []

theorem Body.plain (hc : c ≠ '\\' ∧ c ≠ q.char ∧ c ≠ '\n') (h : Body q w) : Body q (c :: w) :=
  @Units.cons _ _ [c] w [] [] (List.cons_ne_nil _ _) (unitRegex_plain hc)
    (fun _ hs => hc.2.1 (Option.some.inj hs)) h

theorem Body.escape (hc : c ≠ '\n') (h : Body q w) : Body q ('\\' :: c :: w) :=
  @Units.cons _ _ ['\\', c] w [] [] (List.cons_ne_nil _ _) (unitRegex_escape hc)
    (fun _ hs => backslash_ne_quote q (Option.some.inj hs)) h

theorem Body.plains (hw : ∀ y ∈ w, y ≠ '\\' ∧ y ≠ q.char ∧ y ≠ '\n') (h : Body q body) :
    Body q (w ++ body) := by
  induction w with
  | nil => exact h
  | cons y w ih =>
      obtain ⟨hy, hw⟩ := List.forall_mem_cons.mp hw
      exact Body.plain hy (ih hw)

theorem Spelled.isBody (h : Spelled names (Form.special (.string q)) body s) : Body q body := by
  induction h with
  | nil => exact .nil
  | plain hc _ ih =>
      obtain ⟨h1, hc⟩ := not_or.mp hc
      exact Body.plain ⟨h1, not_or.mp hc⟩ ih
  | escaped _ he _ ih =>
      obtain ⟨x, more, rfl, hx, hmore⟩ := he.shape
      refine Body.escape hx (Body.plains (fun y hy => ?_) ih)
      obtain ⟨h1, h2, h3, h4⟩ := hmore y hy
      refine ⟨h1, ?_, h4⟩
      cases q
      · exact h2
      · exact h3

/-- Where no backslash is the last character, each is read with the next one. -/
theorem body_of_allows : ∀ {s : List Char}, (Form.raw q).Allows s → Body q s
  | [], _ => .nil
  | [c], h => by
      obtain ⟨hq, hn, hlast⟩ := h
      refine Body.plain ⟨fun hc => hlast (by rw [hc]; rfl), ?_, ?_⟩ .nil
      · exact fun hc => hq (hc ▸ List.mem_cons_self)
      · exact fun hc => hn (hc ▸ List.mem_cons_self)
  | c :: d :: s, ⟨hq, hn, hlast⟩ => by
      by_cases hc : c = '\\'
      · subst hc
        refine Body.escape (fun hd => hn ?_) (body_of_allows ⟨fun hm => hq ?_, fun hm => hn ?_, ?_⟩)
        · exact List.mem_cons_of_mem _ (hd ▸ List.mem_cons_self)
        · exact List.mem_cons_of_mem _ (List.mem_cons_of_mem _ hm)
        · exact List.mem_cons_of_mem _ (List.mem_cons_of_mem _ hm)
        · cases s with
          | nil => exact fun h => by cases h
          | cons e s => simpa [List.getLast?_cons_cons] using hlast
      · refine Body.plain ⟨hc, fun h => hq (h ▸ List.mem_cons_self),
          fun h => hn (h ▸ List.mem_cons_self)⟩ (body_of_allows ⟨?_, ?_, ?_⟩)
        · exact fun hm => hq (List.mem_cons_of_mem _ hm)
        · exact fun hm => hn (List.mem_cons_of_mem _ hm)
        · simpa [List.getLast?_cons_cons] using hlast

theorem quotedRegex_results (h : Body q w) (rest : List Char) :
    (quotedRegex q).results (q.char :: (w ++ q.char :: rest)) = [([], rest)] := by
  have hquote : (lit q.char).results (q.char :: (w ++ q.char :: rest))
      = [([], w ++ q.char :: rest)] := by simp
  have hstop : (unitRegex q).results (q.char :: rest) = [] := by
    rw [unitRegex, results_alt, results_seq_of_nil (by simp [(backslash_ne_quote q).symm])]
    simp
  have hstar : Reads (star (unitRegex q))
      (fun x => ((lit q.char).results x.2).map fun y => (x.1 ++ y.1, y.2)) w [] (q.char :: rest) :=
    h.reads_star hstop fun x hx => by
      rcases x with ⟨c, _ | ⟨d, t⟩⟩
      · simp
      · have hd : d ≠ q.char := fun hd => hx (congrArg some hd)
        simp [hd]
  rw [quotedRegex, results_seq_of_singleton hquote, results_seq]
  refine Eq.trans hstar ?_
  simp

theorem quotedRegex_nil {d : Char} (h : d ≠ q.char) (s : List Char) :
    (quotedRegex q).results (d :: s) = [] :=
  results_seq_of_nil (by simp [h])

/-! ## Decoding -/

theorem codes_injective : Function.Injective codes :=
  List.map_injective_iff.mpr fun _ _ h => Char.toNat_inj.mp h

theorem codes_latin1 (b : List UInt8) : codes (latin1 b) = b.map UInt8.toNat := by
  rw [codes, latin1, List.map_map]
  exact List.map_congr_left fun x _ => toNat_ofNat_byte x

/-- The bytes of a text are its own code points when they are ASCII. -/
theorem bytes_eq_codes_iff : (utf8 s).map UInt8.toNat = codes s ↔ Ascii s := by
  rw [← codes_latin1, codes_injective.eq_iff, latin1_utf8_eq_iff]

theorem byte_ne_backslash (hc : c ≠ '\\') :
    ∀ b ∈ (String.utf8EncodeChar c).map UInt8.toNat, b ≠ 92 := by
  have hval : c.val.toNat ≠ 92 := fun h => hc (Char.toNat_inj.mp h)
  intro b hb
  rw [String.utf8EncodeChar] at hb
  split at hb
  · simp only [List.map_cons, List.map_nil, List.mem_singleton, UInt8.toNat_ofNat'] at hb
    omega
  -- the bytes of all other characters are at least 128
  all_goals try split at hb
  all_goals try split at hb
  all_goals
    simp only [List.map_cons, List.map_nil, List.mem_cons, List.not_mem_nil, or_false,
      UInt8.toNat_ofNat'] at hb
    omega

/-- What the codec makes of the bytes is the bytes of the text. -/
theorem unicodeEscape_spelled {special : Char → Prop} (hspecial : special '\\')
    (hascii : ∀ c, special c → c.toNat < 128) (h : Spelled names special body s) :
    Codec.unicodeEscape names ((utf8 body).map UInt8.toNat) = some ((utf8 s).map UInt8.toNat) := by
  induction h with
  | nil => exact Codec.unicodeEscape_nil
  | @plain c body s hc _ ih =>
      have hne : c ≠ '\\' := fun heq => hc (heq ▸ hspecial)
      rw [utf8_cons, List.map_append, Codec.unicodeEscape_append (byte_ne_backslash hne), ih,
        utf8_cons, List.map_append]
      rfl
  | @escaped c e body s hc he _ ih =>
      have hbytes : (utf8 e).map UInt8.toNat = codes e := bytes_eq_codes_iff.mpr he.ascii
      have hchar : (utf8 [c]).map UInt8.toNat = codes [c] :=
        bytes_eq_codes_iff.mpr (List.forall_mem_singleton.mpr (hascii c hc))
      rw [utf8_append, List.map_append, hbytes, he.reads, ih, Option.map_some,
        show c :: s = [c] ++ s from rfl, utf8_append, List.map_append, hchar]
      rfl

theorem safeDecode_eq_iff {special : Char → Prop} (hspecial : special '\\')
    (hascii : ∀ c, special c → c.toNat < 128) (h : Spelled names special body s) :
    safeDecode names body = some (codes s) ↔ Ascii s := by
  rw [safeDecode, unicodeEscape_spelled hspecial hascii h, Option.some_inj, bytes_eq_codes_iff]

/-- The bytes of an ASCII text are decoded as Python decodes the text. -/
theorem safeDecode_of_ascii (h : Ascii s) :
    safeDecode names s = Codec.unicodeEscape names (codes s) := by
  rw [safeDecode, bytes_eq_codes_iff.mpr h]

/-! ## Multi-line strings -/

/-- What can be left behind a delimiter, in the order in which it is tried. -/
def closers (s : List Char) : List (List Char) := (delimiterRegex.results s).map Prod.snd

theorem quotes_results (n : ℕ) : ∀ x ∈ (quotes n).results s,
    x.1 = [] ∧ x.2.length + (n + 1) = s.length := by
  induction n generalizing s with
  | zero =>
      intro x hx
      cases s with
      | nil => simp [quotes] at hx
      | cons c s =>
          simp only [quotes, results_lit_cons] at hx
          split at hx
          · obtain rfl := List.mem_singleton.mp hx
            exact ⟨rfl, rfl⟩
          · cases hx
  | succ n ih =>
      intro x hx
      cases s with
      | nil => simp [quotes, results_seq] at hx
      | cons c s =>
          by_cases hc : c = '"'
          · have hlit : (lit '"').results (c :: s) = [([], s)] := by simp [hc]
            rw [quotes, results_seq_of_singleton hlit] at hx
            obtain ⟨hx1, hx2⟩ := ih x hx
            exact ⟨hx1, by rw [List.length_cons, ← hx2]; omega⟩
          · rw [quotes, results_seq_of_nil (by simp [hc])] at hx
            cases hx

theorem delimiterRegex_results {x : Match} (hx : x ∈ delimiterRegex.results s) :
    x.1 = [] ∧ x.2.length + 3 ≤ s.length := by
  rw [delimiterRegex, results_alt, results_alt] at hx
  rcases List.mem_append.mp hx with hx | hx
  · obtain ⟨h1, h2⟩ := quotes_results 4 x hx
    exact ⟨h1, by omega⟩
  · rcases List.mem_append.mp hx with hx | hx
    · obtain ⟨h1, h2⟩ := quotes_results 3 x hx
      exact ⟨h1, by omega⟩
    · obtain ⟨h1, h2⟩ := quotes_results 2 x hx
      exact ⟨h1, by omega⟩

theorem lazy_results (s : List Char) :
    (lazyStar (chr fun _ => true)).results s = s.tails.map fun t => ([], t) := by
  induction s with
  | nil =>
      rw [results_lazyStar, lazyResults]
      simp
  | cons c s ih =>
      have hchr : (chr fun _ => true).results ([c] ++ s) = [([], s)] := by simp
      rw [show c :: s = [c] ++ s from rfl, results_lazyStar_cons hchr (List.cons_ne_nil c []), ih]
      simp

theorem delimiterRegex_eq (s : List Char) :
    delimiterRegex.results s = (closers s).map fun t => ([], t) := by
  rw [closers, List.map_map]
  refine ((List.map_congr_left fun x hx => ?_).trans (List.map_id _)).symm
  exact Prod.ext (delimiterRegex_results hx).1.symm rfl

theorem length_of_mem_closers {t : List Char} (h : t ∈ closers s) : t.length + 3 ≤ s.length := by
  obtain ⟨x, hx, rfl⟩ := List.mem_map.mp h
  exact (delimiterRegex_results hx).2

/-- The same behind the delimiter, after any text. -/
def closings (s : List Char) : List (List Char) := s.tails.flatMap closers

theorem closings_cons (c : Char) (s : List Char) :
    closings (c :: s) = closers (c :: s) ++ closings s := rfl

theorem length_of_mem_closings {t : List Char} (h : t ∈ closings s) :
    t.length + 3 ≤ s.length := by
  induction s with
  | nil => cases h
  | cons c s ih =>
      rw [closings_cons] at h
      rcases List.mem_append.mp h with h | h
      · exact length_of_mem_closers h
      · exact Nat.le_succ_of_le (ih h)

theorem mlsRegex_results (s : List Char) : mlsRegex.results s =
    ((closers s).flatMap closings).map fun t => ([], t) := by
  unfold closings
  rw [mlsRegex, results_seq, delimiterRegex_eq]
  simp only [results_seq, lazy_results, delimiterRegex_eq, List.flatMap_map, List.map_flatMap,
    List.map_map, List.nil_append, Function.comp_def]

theorem closers_nil : closers [] = [] := rfl

theorem closers_cons (hc : c ≠ '"') (s : List Char) : closers (c :: s) = [] := by
  have hlit : (lit '"').results (c :: s) = [] := by simp [hc]
  simp [closers, delimiterRegex, quotes, results_seq_of_nil hlit]

/-- The text starts with no quote. -/
abbrev Unquoted (s : List Char) : Prop := s.head? ≠ some '"'

theorem closers_quote (h : Unquoted s) : closers ('"' :: s) = [] := by
  cases s with
  | nil => rfl
  | cons c s =>
      have hc : c ≠ '"' := fun hc => h (congrArg some hc)
      simp [closers, delimiterRegex, quotes, results_seq, hc]

theorem closers_two (h : Unquoted s) : closers ('"' :: '"' :: s) = [] := by
  cases s with
  | nil => rfl
  | cons c s =>
      have hc : c ≠ '"' := fun hc => h (congrArg some hc)
      simp [closers, delimiterRegex, quotes, results_seq, hc]

theorem closers_three (h : Unquoted s) : closers ('"' :: '"' :: '"' :: s) = [s] := by
  cases s with
  | nil => simp [closers, delimiterRegex, quotes, results_seq]
  | cons c s =>
      have hc : c ≠ '"' := fun hc => h (congrArg some hc)
      simp [closers, delimiterRegex, quotes, results_seq, hc]

theorem closers_four (h : Unquoted s) :
    closers ('"' :: '"' :: '"' :: '"' :: s) = [s, '"' :: s] := by
  cases s with
  | nil => simp [closers, delimiterRegex, quotes, results_seq]
  | cons c s =>
      have hc : c ≠ '"' := fun hc => h (congrArg some hc)
      simp [closers, delimiterRegex, quotes, results_seq, hc]

theorem closers_five (s : List Char) : closers ('"' :: '"' :: '"' :: '"' :: '"' :: s) =
    [s, '"' :: s, '"' :: '"' :: s] := by
  simp [closers, delimiterRegex, quotes, results_seq]

theorem shorter_ne {t u : List Char} {l : List (List Char)} (h : t.length < u.length) :
    (t :: l).head? ≠ some u := fun heq => by
  rw [Option.some.inj heq] at h
  exact Nat.lt_irrefl _ h

theorem exists_of_quoted (h : ¬ Unquoted s) : ∃ t, s = '"' :: t := by
  cases s with
  | nil => exact absurd (by simp) h
  | cons c t => exact ⟨t, by rw [Option.some.inj (not_not.mp h)]⟩

/-- The delimiter at the end, maybe after an escaped quote: what is left is the rest
exactly if the rest starts with no quote. -/
theorem head?_closers_iff (rest : List Char) (l : List (List Char)) :
    ((closers ('"' :: '"' :: '"' :: rest) ++ l).head? = some rest ↔ Unquoted rest) ∧
      ((closers ('"' :: '"' :: '"' :: '"' :: rest) ++ l).head? = some rest ↔ Unquoted rest) := by
  by_cases h : Unquoted rest
  · rw [closers_three h, closers_four h]
    exact ⟨iff_of_true rfl h, iff_of_true rfl h⟩
  · obtain ⟨t, rfl⟩ := exists_of_quoted h
    refine ⟨iff_of_false ?_ h, iff_of_false ?_ h⟩
    · by_cases ht : Unquoted t
      · rw [closers_four ht]
        exact shorter_ne (by simp only [List.length_cons]; omega)
      · obtain ⟨u, rfl⟩ := exists_of_quoted ht
        rw [closers_five]
        exact shorter_ne (by simp only [List.length_cons]; omega)
    · rw [closers_five]
      exact shorter_ne (by simp only [List.length_cons]; omega)

theorem closers_eq_nil_iff : closers s = [] ↔ ¬ ['"', '"', '"'] <+: s := by
  constructor
  · rintro h ⟨t, rfl⟩
    have hmem : t ∈ closers (['"', '"', '"'] ++ t) := by
      simp [closers, delimiterRegex, quotes, results_seq]
    rw [h] at hmem
    cases hmem
  · intro h
    rcases s with _ | ⟨c, s⟩
    · rfl
    by_cases hc : c = '"'
    · subst hc
      by_cases hs : Unquoted s
      · exact closers_quote hs
      · obtain ⟨t, rfl⟩ := exists_of_quoted hs
        by_cases ht : Unquoted t
        · exact closers_two ht
        · obtain ⟨u, rfl⟩ := exists_of_quoted ht
          exact absurd ⟨u, rfl⟩ h
    · exact closers_cons hc s

theorem closings_eq_nil_iff : closings s = [] ↔ ¬ ['"', '"', '"'] <:+: s := by
  induction s with
  | nil => simp [closings, closers_nil]
  | cons c s ih =>
      rw [closings_cons, List.append_eq_nil_iff, closers_eq_nil_iff, ih, List.infix_cons_iff,
        not_or]

/-- A text that is spelled starts with no quote. -/
theorem Spelled.unquoted (h : Spelled names (Form.special .mls) body s) :
    body = [] ∧ s = [] ∨ ∃ c t, body = c :: t ∧ c ≠ '"' ∧ s ≠ [] := by
  cases h with
  | nil => exact Or.inl ⟨rfl, rfl⟩
  | plain hc _ => exact Or.inr ⟨_, _, rfl, (not_or.mp hc).2, List.cons_ne_nil _ _⟩
  | escaped _ he _ =>
      obtain ⟨x, more, rfl, -⟩ := he.shape
      exact Or.inr ⟨'\\', _, rfl, by decide, List.cons_ne_nil _ _⟩

/-- The closing delimiter of a text that is spelled is found at its end, or at an
escaped quote before its end. -/
theorem Spelled.closes (h : Spelled names (Form.special .mls) body s) (rest : List Char) :
    (closings (body ++ '"' :: '"' :: '"' :: rest)).head? = some rest ↔ Unquoted rest := by
  induction h with
  | nil =>
      rw [List.nil_append, closings_cons]
      exact (head?_closers_iff rest _).1
  | @plain c body s hc _ ih =>
      rw [List.cons_append, closings_cons, closers_cons (not_or.mp hc).2, List.nil_append]
      exact ih
  | @escaped c e body s _ he hbody ih =>
      obtain ⟨x, more, rfl, -, hmore⟩ := he.shape
      have hskip : (closings (more ++ body ++ '"' :: '"' :: '"' :: rest)).head? = some rest ↔
          Unquoted rest := by
        clear he
        induction more with
        | nil => exact ih
        | cons y more ihmore =>
            obtain ⟨hy, hmore⟩ := List.forall_mem_cons.mp hmore
            rw [List.cons_append, List.cons_append, closings_cons, closers_cons hy.2.1,
              List.nil_append]
            exact ihmore hmore
      rw [List.cons_append, List.cons_append, List.cons_append, List.cons_append, closings_cons,
        closers_cons (by decide), List.nil_append, closings_cons]
      by_cases hx : x = '"'
      · subst hx
        rcases more with _ | ⟨y, more⟩
        · rcases hbody.unquoted with ⟨rfl, -⟩ | ⟨d, t, rfl, hd, -⟩
          · exact (head?_closers_iff rest _).2
          · have hd' : Unquoted ([] ++ (d :: t) ++ '"' :: '"' :: '"' :: rest) :=
              fun h => hd (Option.some.inj h)
            rw [closers_quote hd', List.nil_append]
            exact hskip
        · obtain ⟨hy, -⟩ := List.forall_mem_cons.mp hmore
          have hy' : Unquoted (y :: more ++ body ++ '"' :: '"' :: '"' :: rest) :=
            fun h => hy.2.1 (Option.some.inj h)
          rw [closers_quote hy', List.nil_append]
          exact hskip
      · rw [closers_cons hx, List.nil_append]
        exact hskip

theorem head?_append_ne {l l' : List (List Char)} (h : ∀ t ∈ l, t.length < rest.length)
    (h' : l'.head? ≠ some rest) : (l ++ l').head? ≠ some rest := by
  cases l with
  | nil => exact h'
  | cons t l => exact shorter_ne (h t List.mem_cons_self)

/-- The empty text: six quotes. -/
theorem mls_nil_iff (rest : List Char) :
    ((closers ('"' :: '"' :: '"' :: '"' :: '"' :: '"' :: rest)).flatMap closings).head?
      = some rest ↔
      Unquoted rest ∧ ¬ ['"', '"', '"'] <:+: rest := by
  rw [closers_five, List.flatMap_cons, List.flatMap_cons, List.flatMap_cons, List.flatMap_nil]
  by_cases h : Unquoted rest
  · rw [and_iff_right h, ← closings_eq_nil_iff, closings_cons, closers_quote h, List.nil_append,
      closings_cons, closers_two h, List.nil_append, closings_cons, closers_quote h,
      List.nil_append]
    constructor
    · intro heq
      by_contra hne
      obtain ⟨t, l, hl⟩ := List.exists_cons_of_ne_nil hne
      have hlen := @length_of_mem_closings rest t (by rw [hl]; exact List.mem_cons_self)
      rw [hl] at heq
      exact shorter_ne (by omega) heq
    · intro hnil
      rw [hnil, List.nil_append, List.nil_append, closings_cons, closers_three h]
      rfl
  · refine iff_of_false (head?_append_ne (fun t ht => ?_) (head?_append_ne (fun t ht => ?_) ?_))
      fun h' => h h'.1
    · have := length_of_mem_closings ht
      simp only [List.length_cons] at this
      omega
    · have := length_of_mem_closings ht
      simp only [List.length_cons] at this
      omega
    · rw [closings_cons, List.append_assoc]
      exact fun heq => h ((head?_closers_iff rest _).1.mp heq)

/-- The regular expression of multi-line strings matches the literal. -/
theorem Spelled.mls_iff (h : Spelled names (Form.special .mls) body s) (rest : List Char) :
    (mlsRegex.results (Form.literal body .mls ++ rest)).head? = some ([], rest) ↔
      Form.Apart .mls s rest := by
  have hmap : ∀ l : List (List Char), (l.map fun t => (([], t) : Match)).head? = some ([], rest) ↔
      l.head? = some rest := by
    intro l
    cases l <;> simp
  have htext : Form.literal body .mls ++ rest =
      '"' :: '"' :: '"' :: (body ++ '"' :: '"' :: '"' :: rest) := by
    simp [Form.literal]
  rw [mlsRegex_results, hmap, htext]
  rcases h.unquoted with ⟨rfl, rfl⟩ | ⟨c, t, rfl, hc, hs⟩
  · rw [List.nil_append, mls_nil_iff]
    exact and_congr_right fun _ => ⟨fun h _ => h, fun h => h rfl⟩
  · rw [closers_three (s := c :: t ++ '"' :: '"' :: '"' :: rest)
      (fun h => hc (Option.some.inj h)), List.flatMap_singleton, h.closes]
    exact ⟨fun hrest => ⟨hrest, fun hnil => absurd hnil hs⟩, fun h => h.1⟩

/-! ## Tokens -/

theorem slice_append (a w b : List Char) : slice a.length b.length (a ++ w ++ b) = w := by
  rw [slice, List.append_assoc, List.drop_left, List.length_append, Nat.add_sub_cancel,
    List.take_left]

theorem fstringRegex_nil (hc : c ≠ 'f') (s : List Char) : fstringRegex.results (c :: s) = [] := by
  rw [fstringRegex, results_alt, results_seq_of_nil (by simp [hc]),
    results_seq_of_nil (by simp [hc]), List.append_nil]

theorem rstringRegex_nil (hc : c ≠ 'r') (s : List Char) : rstringRegex.results (c :: s) = [] := by
  rw [rstringRegex, results_alt, results_seq_of_nil (by simp [hc]),
    results_seq_of_nil (by simp [hc]), List.append_nil]

theorem mlsRegex_eq_nil (h : closers s = []) : mlsRegex.results s = [] := by
  rw [mlsRegex_results, h]
  rfl

/-- Only the alternative of the quote itself matches. -/
theorem alternatives_results (h : Body q w) (rest : List Char) :
    (quotedRegex .double).results (q.char :: (w ++ q.char :: rest)) ++
      (quotedRegex .single).results (q.char :: (w ++ q.char :: rest)) = [([], rest)] := by
  cases q with
  | double =>
      rw [quotedRegex_results h, quotedRegex_nil (by decide), List.append_nil]
  | single =>
      rw [quotedRegex_results h, quotedRegex_nil (by decide), List.nil_append]

theorem stringRegex_results (h : Body q w) (rest : List Char) :
    stringRegex.results (q.char :: (w ++ q.char :: rest)) = [([], rest)] := by
  rw [stringRegex, results_alt]
  exact alternatives_results h rest

theorem fstringRegex_results (h : Body q w) (rest : List Char) :
    fstringRegex.results ('f' :: q.char :: (w ++ q.char :: rest)) = [([], rest)] := by
  have hlit : (lit 'f').results ('f' :: q.char :: (w ++ q.char :: rest))
      = [([], q.char :: (w ++ q.char :: rest))] := by simp
  rw [fstringRegex, results_alt, results_seq_of_singleton hlit, results_seq_of_singleton hlit]
  exact alternatives_results h rest

theorem rstringRegex_results (h : Body q w) (rest : List Char) :
    rstringRegex.results ('r' :: q.char :: (w ++ q.char :: rest)) = [([], rest)] := by
  have hlit : (lit 'r').results ('r' :: q.char :: (w ++ q.char :: rest))
      = [([], q.char :: (w ++ q.char :: rest))] := by simp
  rw [rstringRegex, results_alt, results_seq_of_singleton hlit, results_seq_of_singleton hlit]
  exact alternatives_results h rest

theorem literal_append (form : Form) (body rest : List Char) :
    form.literal body ++ rest = match form with
      | .string q => q.char :: (body ++ q.char :: rest)
      | .fstring q => 'f' :: q.char :: (body ++ q.char :: rest)
      | .mls => '"' :: '"' :: '"' :: (body ++ '"' :: '"' :: '"' :: rest)
      | .raw q => 'r' :: q.char :: (body ++ q.char :: rest) := by
  cases form <;> simp [Form.literal]

theorem token_fstring (h : Body q body) (rest : List Char) :
    token names (Form.literal body (.fstring q) ++ rest) =
      some ⟨.fstring, safeDecode names body, rest⟩ := by
  have hresults : fstringRegex.results (Form.literal body (.fstring q) ++ rest) = [([], rest)] := by
    rw [literal_append, fstringRegex_results h]
  have hslice : slice 2 1 (Form.literal body (.fstring q)) = body :=
    slice_append ['f', q.char] body [q.char]
  rw [token, rules, List.findSome?_cons]
  simp only [hresults, List.head?_cons, Option.map_some, consumed_append, tokenValue, hslice]

theorem token_raw (h : Body q body) (rest : List Char) :
    token names (Form.literal body (.raw q) ++ rest) =
      some ⟨.rstring, some (codes body), rest⟩ := by
  have hfstring : fstringRegex.results (Form.literal body (.raw q) ++ rest) = [] := by
    rw [literal_append, fstringRegex_nil (by decide)]
  have hresults : rstringRegex.results (Form.literal body (.raw q) ++ rest) = [([], rest)] := by
    rw [literal_append, rstringRegex_results h]
  have hslice : slice 2 1 (Form.literal body (.raw q)) = body :=
    slice_append ['r', q.char] body [q.char]
  rw [token, rules, List.findSome?_cons, List.findSome?_cons]
  simp only [hfstring, hresults, List.head?_nil, Option.map_none, List.head?_cons,
    Option.map_some, consumed_append, tokenValue, hslice]

theorem quote_ne (q : Quote) : q.char ≠ 'f' ∧ q.char ≠ 'r' := by
  cases q <;> decide

theorem token_string (h : Body q body) {rest : List Char}
    (hmls : mlsRegex.results (Form.literal body (.string q) ++ rest) = []) :
    token names (Form.literal body (.string q) ++ rest) =
      some ⟨.string, safeDecode names body, rest⟩ := by
  have hfstring : fstringRegex.results (Form.literal body (.string q) ++ rest) = [] := by
    rw [literal_append, fstringRegex_nil (quote_ne q).1]
  have hrstring : rstringRegex.results (Form.literal body (.string q) ++ rest) = [] := by
    rw [literal_append, rstringRegex_nil (quote_ne q).2]
  have hresults : stringRegex.results (Form.literal body (.string q) ++ rest) = [([], rest)] := by
    rw [literal_append, stringRegex_results h]
  have hslice : slice 1 1 (Form.literal body (.string q)) = body :=
    slice_append [q.char] body [q.char]
  rw [token, rules, List.findSome?_cons, List.findSome?_cons, List.findSome?_cons,
    List.findSome?_cons]
  simp only [hfstring, hrstring, hmls, hresults, List.head?_nil, Option.map_none, List.head?_cons,
    Option.map_some, consumed_append, tokenValue, hslice]

/-- A text that starts with a quote is a multi-line string where it can be one. -/
theorem token_mls (names : Codec.Names) {text : List Char} (hc : c = '"') {x : Match}
    (hmls : (mlsRegex.results (c :: text)).head? = some x) :
    token names (c :: text) =
      some ⟨.mls, safeDecode names (slice 3 3 (consumed (c :: text) x.2)), x.2⟩ := by
  subst hc
  have hfstring : fstringRegex.results ('"' :: text) = [] := fstringRegex_nil (by decide) text
  have hrstring : rstringRegex.results ('"' :: text) = [] := rstringRegex_nil (by decide) text
  rw [token, rules, List.findSome?_cons, List.findSome?_cons, List.findSome?_cons]
  simp only [hfstring, hrstring, hmls, List.head?_nil, Option.map_none, Option.map_some, tokenValue]

theorem token_ne_mls {text : List Char} (hmls : (mlsRegex.results ('"' :: text)).head? = none)
    {t : Token} (ht : token names ('"' :: text) = some t) : t.type ≠ .mls := by
  have hfstring : fstringRegex.results ('"' :: text) = [] := fstringRegex_nil (by decide) text
  have hrstring : rstringRegex.results ('"' :: text) = [] := rstringRegex_nil (by decide) text
  rw [token, rules, List.findSome?_cons, List.findSome?_cons, List.findSome?_cons,
    List.findSome?_cons] at ht
  simp only [hfstring, hrstring, hmls, List.head?_nil, Option.map_none, List.findSome?_nil] at ht
  cases hx : (stringRegex.results ('"' :: text)).head? with
  | none => rw [hx] at ht; cases ht
  | some x =>
      rw [hx] at ht
      obtain rfl := Option.some.inj ht
      exact fun h => by cases h

/-! ## Literals -/

theorem special_backslash : ∀ form : Form, form.type ≠ .rstring → form.special '\\'
  | .string _, _ | .fstring _, _ => Or.inl rfl
  | .mls, _ => Or.inl rfl
  | .raw _, h => absurd rfl h

theorem special_ascii : ∀ form : Form, ∀ c, form.special c → c.toNat < 128
  | .string q, c, h | .fstring q, c, h => by
      rcases h with rfl | rfl | rfl
      · decide
      · cases q <;> decide
      · decide
  | .mls, c, h => by
      rcases h with rfl | rfl <;> decide
  | .raw _, _, h => False.elim h

theorem Spelled.of_raw (h : Spelled names (Form.special (.raw q)) body s) : body = s := by
  induction h with
  | nil => rfl
  | plain _ _ ih => rw [ih]
  | escaped hc _ _ _ => exact False.elim hc

theorem string_apart_iff (h : Spelled names (Form.special (.string q)) body s) (rest : List Char) :
    Form.Apart (.string q) s rest ↔
      mlsRegex.results (Form.literal body (.string q) ++ rest) = [] := by
  rw [literal_append]
  cases q with
  | single => exact iff_of_true trivial (mlsRegex_eq_nil (closers_cons (by decide) _))
  | double =>
      cases h with
      | nil => exact ⟨fun h => h rfl, fun h _ => h⟩
      | plain hc _ =>
          refine iff_of_true (fun hnil => by cases hnil) (mlsRegex_eq_nil (closers_quote ?_))
          exact fun h => (not_or.mp (not_or.mp hc).2).1 (Option.some.inj h)
      | escaped _ he _ =>
          obtain ⟨x, more, rfl, -⟩ := he.shape
          refine iff_of_true (fun hnil => by cases hnil) (mlsRegex_eq_nil (closers_quote ?_))
          exact fun h => absurd (Option.some.inj h) (by decide)

theorem token_mls_iff (h : Spelled names (Form.special .mls) body s) (rest : List Char) :
    token names (Form.literal body .mls ++ rest) = some ⟨.mls, some (codes s), rest⟩ ↔
      Ascii s ∧ Form.Apart .mls s rest := by
  have hslice : slice 3 3 (Form.literal body .mls) = body :=
    slice_append ['"', '"', '"'] body ['"', '"', '"']
  have hdecode := safeDecode_eq_iff (special_backslash .mls (by decide)) (special_ascii .mls) h
  have htext : Form.literal body .mls ++ rest = '"' :: ('"' :: '"' :: (body ++ '"' :: '"' :: '"' ::
    rest)) := literal_append .mls body rest
  rw [← h.mls_iff rest]
  cases hm : (mlsRegex.results (Form.literal body .mls ++ rest)).head? with
  | none =>
      rw [htext] at hm ⊢
      refine iff_of_false (fun htoken => ?_) (fun hand => by cases hand.2)
      exact token_ne_mls hm htoken rfl
  | some x =>
      have htoken := hm
      rw [htext] at htoken
      replace htoken := token_mls names rfl htoken
      rw [← htext] at htoken
      have hx : x.1 = [] := by
        rw [mlsRegex_results] at hm
        obtain ⟨t, -, rfl⟩ := List.mem_map.mp (List.mem_of_mem_head? hm)
        rfl
      rw [htoken]
      by_cases hrest : x.2 = rest
      · rw [hrest, consumed_append, hslice, ← hdecode]
        constructor
        · intro heq
          exact ⟨(Token.mk.inj (Option.some.inj heq)).2.1, congrArg some (Prod.ext hx hrest)⟩
        · rintro ⟨hvalue, -⟩
          rw [hvalue]
      · refine iff_of_false (fun heq => ?_) (fun hand => ?_)
        · exact hrest (Token.mk.inj (Option.some.inj heq)).2.2
        · exact hrest (congrArg Prod.snd (Option.some.inj hand.2))

theorem token_string_iff (h : Spelled names (Form.special (.string q)) body s)
    (rest : List Char) :
    token names (Form.literal body (.string q) ++ rest) = some ⟨.string, some (codes s), rest⟩ ↔
      Ascii s ∧ Form.Apart (.string q) s rest := by
  have hdecode := safeDecode_eq_iff (special_backslash (.string q) (fun h => nomatch h))
    (special_ascii (.string q)) h
  rw [string_apart_iff h]
  by_cases hmls : mlsRegex.results (Form.literal body (.string q) ++ rest) = []
  · rw [token_string h.isBody hmls, ← hdecode, and_iff_left hmls, Option.some_inj, Token.mk.injEq]
    exact ⟨fun heq => heq.2.1, fun heq => ⟨rfl, heq, rfl⟩⟩
  · refine iff_of_false (fun heq => ?_) (fun hand => hmls hand.2)
    obtain ⟨x, l, hx⟩ := List.exists_cons_of_ne_nil hmls
    have hq : q.char = '"' := by
      by_contra hq
      rw [literal_append] at hmls
      exact hmls (mlsRegex_eq_nil (closers_cons hq _))
    have htoken := congrArg List.head? hx
    rw [literal_append] at htoken heq
    rw [token_mls names hq htoken] at heq
    cases (Token.mk.inj (Option.some.inj heq)).1

/-- A literal that spells a text is the token of the text just when the text is ASCII,
unless the literal is raw, and what follows does not make it part of another one. -/
theorem literal_iff (names : Codec.Names) (form : Form) (hs : form.Allows s)
    (h : Spelled names form.special body s) (rest : List Char) :
    token names (form.literal body ++ rest) = some ⟨form.type, some (codes s), rest⟩ ↔
      (form.type ≠ .rstring → Ascii s) ∧ form.Apart s rest := by
  cases form with
  | string q =>
      rw [show (Form.string q).type = .string from rfl, token_string_iff h]
      exact and_congr_left fun _ => ⟨fun hascii _ => hascii, fun hascii => hascii (by decide)⟩
  | fstring q =>
      have hdecode := safeDecode_eq_iff (special_backslash (.fstring q) (fun h => nomatch h))
        (special_ascii (.fstring q)) h
      rw [token_fstring (Spelled.isBody h), show (Form.fstring q).type = .fstring from rfl,
        Option.some_inj, Token.mk.injEq, hdecode]
      exact ⟨fun heq => ⟨fun _ => heq.2.1, trivial⟩,
        fun hand => ⟨rfl, hand.1 (by decide), rfl⟩⟩
  | mls =>
      rw [show Form.mls.type = .mls from rfl, token_mls_iff h]
      exact and_congr_left fun _ => ⟨fun hascii _ => hascii, fun hascii => hascii (by decide)⟩
  | raw q =>
      obtain rfl := h.of_raw
      rw [token_raw (body_of_allows hs)]
      exact iff_of_true rfl ⟨fun hne => absurd rfl hne, trivial⟩

/-- A plain string of an ASCII character. -/
theorem literal_ascii : token (fun _ => none) (Form.literal ['a'] (.string .single) ++ []) =
    some ⟨.string, some (codes ['a']), []⟩ :=
  (literal_iff (fun _ => none) (.string .single) trivial
    (.plain (by simp [Form.special, Quote.char]) .nil) []).mpr
      ⟨fun _ => List.forall_mem_singleton.mpr (Nat.lt_of_sub_eq_succ rfl), trivial⟩

/-- A plain string of one that is not. -/
theorem literal_not_ascii :
    Spelled (fun _ => none) (Form.special (.string .double)) ['é'] ['é'] ∧
      token (fun _ => none) (Form.literal ['é'] (.string .double) ++ []) ≠
        some ⟨.string, some (codes ['é']), []⟩ := by
  have h : Spelled (fun _ => none) (Form.special (.string .double)) ['é'] ['é'] :=
    .plain (by simp [Form.special, Quote.char]) .nil
  refine ⟨h, fun htoken => ?_⟩
  have hascii := ((token_string_iff h []).mp htoken).1 'é' List.mem_cons_self
  exact Nat.not_lt_of_le (Nat.le_of_sub_eq_zero rfl) hascii

/-! ## What can be spelled -/

theorem isEscape_simple {x : Char} (hx : x ≠ '\n') (hascii : x.toNat < 128)
    (h : Codec.simpleEscape x.toNat = some c.toNat) : IsEscape names ['\\', x] c where
  shape := ⟨x, [], rfl, hx, fun _ hy => by cases hy⟩
  ascii := List.forall_mem_cons.mpr ⟨by decide, List.forall_mem_singleton.mpr hascii⟩
  reads := fun s => Codec.unicodeEscape_simple (fun hn => hx (Char.toNat_inj.mp hn)) h s

theorem exists_escape : ∀ form : Form, ∀ c, form.special c → ∃ e, IsEscape names e c
  | .string q, c, h | .fstring q, c, h => by
      rcases h with rfl | rfl | rfl
      · exact ⟨_, isEscape_simple (x := '\\') (by decide) (by decide) rfl⟩
      · cases q
        · exact ⟨_, isEscape_simple (x := '"') (by decide) (by decide) rfl⟩
        · exact ⟨_, isEscape_simple (x := '\'') (by decide) (by decide) rfl⟩
      · exact ⟨_, isEscape_simple (x := 'n') (by decide) (by decide) rfl⟩
  | .mls, c, h => by
      rcases h with rfl | rfl
      · exact ⟨_, isEscape_simple (x := '\\') (by decide) (by decide) rfl⟩
      · exact ⟨_, isEscape_simple (x := '"') (by decide) (by decide) rfl⟩
  | .raw _, _, h => False.elim h

/-- Every text can be spelled in every form. -/
theorem exists_spelled (form : Form) (s : List Char) :
    ∃ body, Spelled names form.special body s := by
  induction s with
  | nil => exact ⟨[], .nil⟩
  | cons c s ih =>
      obtain ⟨body, hbody⟩ := ih
      by_cases hc : form.special c
      · obtain ⟨e, he⟩ := exists_escape form c hc
        exact ⟨e ++ body, .escaped hc he hbody⟩
      · exact ⟨c :: body, .plain hc hbody⟩

end StringLiterals

end Inmanta
