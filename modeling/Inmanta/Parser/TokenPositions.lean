import Inmanta.Ast.StringFormat
import Inmanta.Lib.TextPosition
import Inmanta.Parser.StringLiterals

/-!
# Token positions

Beside the offset the lexer keeps the number of the line and the offset at which
the line starts. Each rule that reads a line end has to set both: the rules for
comments and for line ends do. The one for multi-line strings only counts the
lines, and the one for `matching` with a regular expression, which may have line
ends before the slash, does neither.

So a position is exact when what is before it is `Straight`
(`positions_exact_iff`), and for a multi-line string that ends on its line only
where that line starts.
-/

namespace Inmanta

namespace TokenPositions

open Regex TextPosition
open StringLiterals (fstringRegex rstringRegex stringRegex mlsRegex tokenValue codes)

/-! ## The rules -/

/-- In the order in which they are tried. -/
inductive Rule where
  | regex
  | fstring
  | rstring
  | id
  | sep
  | rel
  | cmpOp
  | peq
  | comment
  | mls
  | float
  | int
  | string
  | plusOp
  | minusOp
  | divisionOp
  | doubleStar
  | newline
  deriving DecidableEq

def rules : List Rule :=
  [.regex, .fstring, .rstring, .id, .sep, .rel, .cmpOp, .peq, .comment, .mls, .float, .int,
    .string, .plusOp, .minusOp, .divisionOp, .doubleStar, .newline]

def two (x y : Char) : Regex := seq (lit x) (lit y)

/-- `matching[\s]+` -/
def matchingRegex : Regex :=
  "matching".toList.foldr (fun c r => seq (lit c) r) (plus (chr isSpace))

/-- `/([^/\\\n]|\\.)+/` -/
def delimitedRegex : Regex :=
  seq (lit '/') (seq (plus (alt (chr fun c => decide (c ≠ '/' ∧ c ≠ '\\' ∧ c ≠ '\n'))
    (seq (lit '\\') (chr fun c => decide (c ≠ '\n'))))) (lit '/'))

/-- `[a-zA-Z_][a-zA-Z_0-9-]*` -/
def idRegex : Regex :=
  seq (chr fun c => c.isAlpha || c = '_') (star (chr fun c => c.isAlphanum || c = '_' || c = '-'))

/-- `\#.*?\n` -/
def commentRegex : Regex :=
  seq (lit '#') (seq (lazyStar (chr fun c => decide (c ≠ '\n'))) (lit '\n'))

/-- With `[-]?` before it. -/
def signed (r : Regex) : Regex := alt (seq (lit '-') r) r

def Rule.pattern : Rule → Regex
  | .regex => seq matchingRegex delimitedRegex
  | .fstring => fstringRegex
  | .rstring => rstringRegex
  | .id => idRegex
  | .sep => two ':' ':'
  | .rel => alt (two '-' '-') (alt (two '-' '>') (two '<' '-'))
  | .cmpOp => alt (two '!' '=') (alt (two '=' '=') (alt (two '>' '=') (alt (two '<' '=')
      (alt (lit '<') (lit '>')))))
  | .peq => two '+' '='
  | .comment => commentRegex
  | .mls => mlsRegex
  | .float => signed (seq (star (chr Char.isDigit)) (seq (lit '.') (plus (chr Char.isDigit))))
  | .int => signed (plus (chr Char.isDigit))
  | .string => stringRegex
  | .plusOp => lit '+'
  | .minusOp => lit '-'
  | .divisionOp => lit '/'
  | .doubleStar => two '*' '*'
  | .newline => plus (lit '\n')

def literals : List Char := [':', '[', ']', '(', ')', '=', ',', '.', '{', '}', '?', '*', '%']

def keyworldlist : List String :=
  ["typedef", "as", "entity", "extends", "end", "in", "implementation", "for", "matching", "index",
    "implement", "using", "when", "and", "or", "not", "true", "false", "import", "is", "defined",
    "dict", "null", "undef", "parents", "if", "else", "elif"]

/-- What is read at once: an ignored character, the match of a rule or a literal. -/
inductive Lexeme where
  | ignored (c : Char)
  | rule (r : Rule) (value : List Char)
  | literal (c : Char)
  deriving DecidableEq

def Lexeme.text : Lexeme → List Char
  | .ignored c | .literal c => [c]
  | .rule _ value => value

/-- The first rule that matches, and what its match leaves. -/
def matchRule (s : List Char) : Option (Rule × List Char) :=
  rules.findSome? fun rule => (rule.pattern.results s).head?.map fun x => (rule, x.2)

def nextLexeme : List Char → Option (Lexeme × List Char)
  | [] => none
  | c :: s =>
      if c = ' ' ∨ c = '\t' then some (.ignored c, s)
      else
        match matchRule (c :: s) with
        | some (rule, rest) => some (.rule rule (consumed (c :: s) rest), rest)
        | none => if c ∈ literals then some (.literal c, s) else none

/-! ## What a lexeme reads -/

/-- Where the line ends are in what a rule reads. -/
def Rule.Shape : Rule → List Char → Prop
  | .regex, _ | .mls, _ => True
  | .comment, v => v.count '\n' = 1 ∧ ∃ w, v = w ++ ['\n']
  | .newline, v => v.count '\n' = v.length ∧ ∃ w, v = w ++ ['\n']
  | _, v => '\n' ∉ v

def Lexeme.Shape : Lexeme → Prop
  | .ignored c | .literal c => c ≠ '\n'
  | .rule r v => r.Shape v

theorem consumes_pattern (rule : Rule) : rule.pattern.consumes = true := by
  cases rule <;> rfl

theorem exists_mem_of_matchRule {s rest : List Char} {rule : Rule}
    (h : matchRule s = some (rule, rest)) : ∃ c, (c, rest) ∈ rule.pattern.results s := by
  obtain ⟨rule', -, hx⟩ := List.exists_of_findSome?_eq_some h
  obtain ⟨⟨c, rest'⟩, hhead, heq⟩ := Option.map_eq_some_iff.mp hx
  obtain ⟨rfl, rfl⟩ := Prod.mk.inj heq
  exact ⟨c, List.mem_of_head? hhead⟩

theorem notMem_of_alphabet {r : Regex} (hr : r.alphabet '\n' = false) {s v rest : List Char}
    {c : Captures} (h : (c, rest) ∈ r.results s) (hs : s = v ++ rest) : '\n' ∉ v := by
  obtain ⟨w, hw, hall⟩ := readsWith_alphabet r s (c, rest) h
  obtain rfl := List.append_cancel_right (hs.symm.trans hw)
  intro hmem
  have := hall _ hmem
  rw [hr] at this
  cases this

theorem comment_shape {s v rest : List Char} {c : Captures}
    (h : (c, rest) ∈ commentRegex.results s) (hs : s = v ++ rest) : Rule.Shape .comment v := by
  obtain ⟨d, mid, e, hd, he, -⟩ := mem_results_seq.mp h
  obtain ⟨d', mid', e', hd', he', -⟩ := mem_results_seq.mp he
  obtain ⟨_, rfl, rfl, -⟩ := (Spells.lit '#' s d mid).mp hd
  obtain ⟨w, rfl, hw⟩ := readsWith_alphabet _ mid (d', mid') hd'
  obtain ⟨_, rfl, rfl, -⟩ := (Spells.lit '\n' mid' e' rest).mp he'
  have hnot : '\n' ∉ w := fun hmem => absurd (hw _ hmem) (by decide)
  have heq : v = '#' :: (w ++ ['\n']) := by
    refine List.append_cancel_right (hs.symm.trans ?_)
    simp
  subst heq
  refine ⟨?_, '#' :: w, rfl⟩
  rw [List.count_cons_of_ne (by decide), List.count_append, List.count_eq_zero.mpr hnot]
  rfl

theorem newline_shape {s v rest : List Char} {c : Captures}
    (h : (c, rest) ∈ (plus (lit '\n')).results s) (hs : s = v ++ rest) :
    Rule.Shape .newline v := by
  obtain ⟨w, rfl, hne, hw, -⟩ := (Spells.plus_chr _ s c rest).mp h
  obtain rfl := List.append_cancel_right hs
  have hall : ∀ x ∈ w, '\n' = x := fun x hx => (of_decide_eq_true (hw x hx)).symm
  refine ⟨List.count_eq_length.mpr hall, w.dropLast, ?_⟩
  conv_lhs => rw [← List.dropLast_append_getLast hne]
  rw [← hall _ (List.getLast_mem hne)]

/-- A match of a rule is a part of the text. -/
theorem rule_shape {s rest : List Char} {c : Captures} (rule : Rule)
    (h : (c, rest) ∈ rule.pattern.results s) :
    s = consumed s rest ++ rest ∧ rule.Shape (consumed s rest) := by
  obtain ⟨v, hv, -⟩ := readsWith_alphabet _ s (c, rest) h
  have hc : consumed s rest = v := by rw [hv, consumed_append]
  rw [hc]
  refine ⟨hv, ?_⟩
  cases rule with
  | regex => trivial
  | mls => trivial
  | comment => exact comment_shape h hv
  | newline => exact newline_shape h hv
  | _ => exact notMem_of_alphabet rfl h hv

theorem nextLexeme_shape {s rest : List Char} {x : Lexeme} (h : nextLexeme s = some (x, rest)) :
    s = x.text ++ rest ∧ x.Shape ∧ rest.length < s.length := by
  cases s with
  | nil => cases h
  | cons c s =>
      rw [nextLexeme] at h
      split at h
      · next hc =>
        obtain ⟨rfl, rfl⟩ := Prod.mk.inj (Option.some.inj h)
        refine ⟨rfl, ?_, Nat.lt_succ_self _⟩
        rintro rfl
        revert hc
        decide
      · split at h
        · next rule rest' hrule =>
          obtain ⟨rfl, rfl⟩ := Prod.mk.inj (Option.some.inj h)
          obtain ⟨d, hd⟩ := exists_mem_of_matchRule hrule
          obtain ⟨hs, hshape⟩ := rule_shape rule hd
          exact ⟨hs, hshape, length_lt_of_consumes _ (consumes_pattern rule) _ _ hd⟩
        · split at h
          · next hmem =>
            obtain ⟨rfl, rfl⟩ := Prod.mk.inj (Option.some.inj h)
            refine ⟨rfl, ?_, Nat.lt_succ_self _⟩
            rintro rfl
            revert hmem
            decide
          · cases h

/-- The text in lexemes, and what is left at the first character that none starts with.
What the rules do to the state of the lexer has no part in it. -/
def lexemes (s : List Char) : List Lexeme × List Char :=
  match _h : nextLexeme s with
  | some (x, rest) => (x :: (lexemes rest).1, (lexemes rest).2)
  | none => ([], s)
termination_by s.length
decreasing_by
  exact (nextLexeme_shape _h).2.2

def textOf (l : List Lexeme) : List Char := l.flatMap Lexeme.text

theorem lexemes_some {s rest : List Char} {x : Lexeme} (h : nextLexeme s = some (x, rest)) :
    lexemes s = (x :: (lexemes rest).1, (lexemes rest).2) := by
  rw [lexemes]
  split
  · next heq =>
    obtain ⟨rfl, rfl⟩ := Prod.mk.inj (Option.some.inj (h.symm.trans heq))
    rfl
  · next heq => cases h.symm.trans heq

theorem lexemes_none {s : List Char} (h : nextLexeme s = none) : lexemes s = ([], s) := by
  rw [lexemes]
  split
  · next heq => cases h.symm.trans heq
  · rfl

/-- The lexemes make up the text. -/
theorem lexemes_spec (s : List Char) :
    textOf (lexemes s).1 ++ (lexemes s).2 = s ∧ ∀ x ∈ (lexemes s).1, x.Shape := by
  induction s using lexemes.induct with
  | case1 s x rest h ih =>
      obtain ⟨hs, hx, -⟩ := nextLexeme_shape h
      rw [lexemes_some h]
      refine ⟨?_, List.forall_mem_cons.mpr ⟨hx, ih.2⟩⟩
      rw [textOf, List.flatMap_cons, List.append_assoc]
      exact (congrArg (x.text ++ ·) ih.1).trans hs.symm
  | case2 s h =>
      rw [lexemes_none h]
      exact ⟨rfl, fun _ hx => absurd hx List.not_mem_nil⟩

/-! ## The lexer -/

/-- What the rules use of the world around them: the names of characters, the error of
`re.compile` if there is one, and `sys.get_int_max_str_digits()`. -/
structure Env where
  names : StringLiterals.Codec.Names
  compileError : List Char → Option String
  intMaxStrDigits : ℕ

/-- Line ends and columns count from one; the end is exclusive. -/
structure Range where
  lnr : ℤ
  startChar : ℤ
  endLnr : ℤ
  endChar : ℤ
  deriving DecidableEq

structure Lexer where
  lexpos : ℕ
  lineno : ℕ
  linestart : ℕ
  deriving DecidableEq

/-- As the parser sets it for a file. -/
def Lexer.start : Lexer := ⟨0, 1, 0⟩

inductive TokenType where
  | rule (r : Rule)
  | cid
  /-- The type is the word in capitals. -/
  | reserved (keyword : String)
  | literal (c : Char)
  deriving DecidableEq

inductive Value where
  /-- A `LocatableString`. -/
  | located (value : List ℕ) (range : Range) (lexpos : ℕ)
  | regex (value : List Char)
  | float (literal : List Char)
  | int (value : ℤ)
  | text (value : List Char)
  deriving DecidableEq

structure Token where
  type : TokenType
  value : Value
  lineno : ℕ
  lexpos : ℕ
  deriving DecidableEq

inductive LexError where
  /-- A `ParserException`. -/
  | parser (range : Range) (value : List Char) (msg : String)
  | unicode
  | intDigits
  deriving DecidableEq

/-- What a rule comes to, with the lexer after it. -/
inductive Outcome where
  | token (t : Token) (lexer : Lexer)
  | skip (lexer : Lexer)
  | error (e : LexError)
  deriving DecidableEq

namespace Lexer

variable (lexer : Lexer) (value : List Char)

/-- The lexer when the rule is called: the match ends at `lexpos`. -/
def past : Lexer := { lexer with lexpos := lexer.lexpos + value.length }

/-- The token as it is made for the rule, before the match is passed. -/
def tok (type : TokenType) (v : Value) : Token := ⟨type, v, lexer.lineno, lexer.lexpos⟩

/-- The range of a match on one line that ends at `lexpos`. -/
def lineRange (width : ℕ) : Range :=
  let stop : ℤ := lexer.lexpos - lexer.linestart + 1
  ⟨lexer.lineno, stop - width, lexer.lineno, stop⟩

/-- A token with a `LocatableString`. -/
def locate (after : Lexer) (type : TokenType) (range : Range) : Option (List ℕ) → Outcome
  | some decoded => .token (lexer.tok type (.located decoded range after.lexpos)) after
  | none => .error .unicode

end Lexer

/-- The expression between the slashes. -/
def regexText (value : List Char) : List Char := ((value.dropWhile (· ≠ '/')).drop 1).dropLast

def digitsValue (digits : List Char) : ℕ := digits.foldl (fun n d => 10 * n + (d.toNat - 48)) 0

/-- `int(value)` -/
def intValue : List Char → ℤ
  | '-' :: digits => -digitsValue digits
  | digits => digitsValue digits

namespace Env

variable (env : Env) (lexer : Lexer) (value : List Char)

def tRegex : Outcome :=
  let after := lexer.past value
  let part := value.takeWhile (· ≠ '/')
  match env.compileError (regexText value) with
  | none => .token (lexer.tok (.rule .regex) (.regex (regexText value))) after
  | some error =>
      let regex := value.dropWhile (· ≠ '/')
      let stop : ℤ := after.lexpos - after.linestart + 1
      let line : ℤ := after.lineno + part.count '\n'
      .error (.parser ⟨line, stop - value.length + part.length, line, stop⟩ regex
        ("Regex error in " ++ String.ofList regex ++ ": '" ++ error ++ "'"))

def tFstring : Outcome :=
  let after := lexer.past value
  lexer.locate after (.rule .fstring) (after.lineRange value.length)
    (tokenValue env.names value .fstring)

def tRstring : Outcome :=
  let after := lexer.past value
  lexer.locate after (.rule .rstring) (after.lineRange value.length)
    (tokenValue env.names value .rstring)

/-- The type of an identifier. -/
def idType : TokenType :=
  if (value.headD '_').isUpper then .cid
  else if String.ofList value ∈ keyworldlist then .reserved (String.ofList value)
  else .rule .id

def tId : Outcome :=
  let after := lexer.past value
  lexer.locate after (idType value) (after.lineRange value.length) (some (codes value))

def tComment : Outcome :=
  let after := lexer.past value
  .skip { after with lineno := after.lineno + 1, linestart := after.lexpos }

def tMls : Outcome :=
  let after := lexer.past value
  let lines := splitLines value
  let endLine := after.lineno + lines.length - 1
  let range : Range :=
    ⟨after.lineno, after.lexpos - after.linestart - value.length + 1, endLine,
      (lines.getLast?.getD []).length + 1⟩
  lexer.locate { after with lineno := endLine } (.rule .mls) range
    (tokenValue env.names value .mls)

def tFloat : Outcome :=
  .token (lexer.tok (.rule .float) (.float value)) (lexer.past value)

/-- Python limits the digits of a number it reads; zero is no limit. -/
def allowsInt : Bool :=
  decide (env.intMaxStrDigits = 0 ∨ (value.filter Char.isDigit).length ≤ env.intMaxStrDigits)

def tInt : Outcome :=
  if env.allowsInt value then
    .token (lexer.tok (.rule .int) (.int (intValue value))) (lexer.past value)
  else .error .intDigits

def tString : Outcome :=
  let after := lexer.past value
  lexer.locate after (.rule .string) (after.lineRange value.length)
    (tokenValue env.names value .string)

def tNewline : Outcome :=
  let after := lexer.past value
  .skip { after with lineno := after.lineno + value.length, linestart := after.lexpos }

/-- The rules that return the token as it is. -/
def plain (rule : Rule) : Outcome :=
  .token (lexer.tok (.rule rule) (.text value)) (lexer.past value)

/-- What the lexer does with a lexeme. -/
def step (env : Env) (lexer : Lexer) : Lexeme → Outcome
  | .ignored c => .skip (lexer.past [c])
  | .literal c => .token (lexer.tok (.literal c) (.text [c])) (lexer.past [c])
  | .rule .regex value => env.tRegex lexer value
  | .rule .fstring value => env.tFstring lexer value
  | .rule .rstring value => env.tRstring lexer value
  | .rule .id value => tId lexer value
  | .rule .comment value => tComment lexer value
  | .rule .mls value => env.tMls lexer value
  | .rule .float value => tFloat lexer value
  | .rule .int value => env.tInt lexer value
  | .rule .string value => env.tString lexer value
  | .rule .newline value => tNewline lexer value
  | .rule rule value => plain lexer value rule

/-- `t_ANY_error` -/
def tAnyError : List Char → Option LexError
  | [] => none
  | c :: _ =>
      let stop : ℤ := lexer.lexpos - lexer.linestart + 1
      some (.parser ⟨lexer.lineno, stop, lexer.lineno, stop + 1⟩ [c]
        ("Illegal character '" ++ String.singleton c ++ "'"))

end Env

/-- The tokens, each with the lexer before it, up to the error if there is one. -/
structure Run where
  tokens : List (Lexer × Token)
  error : Option LexError
  deriving DecidableEq

def run (env : Env) (left : List Char) (lexer : Lexer) : List Lexeme → Run
  | [] => ⟨[], Env.tAnyError lexer left⟩
  | x :: l =>
      match env.step lexer x with
      | .token t after =>
          let rest := run env left after l
          ⟨(lexer, t) :: rest.tokens, rest.error⟩
      | .skip after => run env left after l
      | .error e => ⟨[], some e⟩

def lex (env : Env) (text : List Char) : Run :=
  run env (lexemes text).2 Lexer.start (lexemes text).1

/-! ## Exact positions -/

/-- The positions of two offsets of the text. -/
def Range.between (text : List Char) (a b : ℕ) : Range :=
  ⟨lineNumber (text.take a), column (text.take a), lineNumber (text.take b), column (text.take b)⟩

/-- The range of a located token is from its first character to just after its last. -/
def Token.Exact (text : List Char) (t : Token) : Prop :=
  ∀ value range stop, t.value = .located value range stop →
    range = Range.between text t.lexpos stop

/-- The line and where it starts are those of the offset. -/
def Lexer.Exact (text : List Char) (lexer : Lexer) : Prop :=
  lexer.lineno = lineNumber (text.take lexer.lexpos) ∧
    lexer.linestart = lineStart (text.take lexer.lexpos)

/-- Whether the rule does not raise an exception. -/
def Lexeme.accepted (env : Env) : Lexeme → Bool
  | .rule .regex value => (env.compileError (regexText value)).isNone
  | .rule .fstring value => (tokenValue env.names value .fstring).isSome
  | .rule .mls value => (tokenValue env.names value .mls).isSome
  | .rule .string value => (tokenValue env.names value .string).isSome
  | .rule .int value => env.allowsInt value
  | _ => true

/-- The lexer comes to `x`, after the lexemes in `before`. -/
structure Reached (env : Env) (text : List Char) (before : List Lexeme) (x : Lexeme)
    (behind : List Lexeme) : Prop where
  lexemes_eq : (lexemes text).1 = before ++ x :: behind
  accepted : ∀ y ∈ before, y.accepted env = true

/-- Whether every token with a range has its own. -/
def TokensExact (env : Env) (text : List Char) : Prop :=
  ∀ p ∈ (lex env text).tokens, p.2.Exact text

/-- Whether the lexer knows where it is before every token. -/
def LexersExact (env : Env) (text : List Char) : Prop :=
  ∀ p ∈ (lex env text).tokens, p.1.Exact text

/-- Whether an invalid expression is reported at its first slash. -/
def RegexErrorsExact (env : Env) (text : List Char) : Prop :=
  ∀ before value behind, Reached env text before (.rule .regex value) behind →
    (Lexeme.rule .regex value).accepted env = false →
      ∃ range msg,
        (lex env text).error = some (.parser range (value.dropWhile (· ≠ '/')) msg) ∧
        let slash := text.take ((textOf before).length + (value.takeWhile (· ≠ '/')).length)
        range.lnr = lineNumber slash ∧ range.startChar = column slash

/-- The rules that set where the line starts. -/
def Lexeme.startsLine : Lexeme → Bool
  | .rule .comment _ | .rule .newline _ => true
  | _ => false

/-- The lexemes since the last one that set where the line starts. -/
def sinceLineStart (l : List Lexeme) : List Lexeme := l.rtakeWhile fun x => !x.startsLine

/-- No regular expression was on two lines, and neither was anything since the last
comment or line end. -/
structure Straight (l : List Lexeme) : Prop where
  regex : ∀ value, .rule .regex value ∈ l → '\n' ∉ value
  line : '\n' ∉ textOf (sinceLineStart l)

/-- The tokens with a range. -/
def Rule.located : Rule → Bool
  | .fstring | .rstring | .id | .mls | .string => true
  | _ => false

/-- The lexemes that become tokens, if the rule does not raise an exception. -/
def Lexeme.isToken : Lexeme → Bool
  | .ignored _ | .rule .comment _ | .rule .newline _ => false
  | _ => true

/-! ## The state of the lexer -/

/-- The lexer after a lexeme that is accepted. -/
def Lexer.after (lexer : Lexer) : Lexeme → Lexer
  | .rule .comment value =>
      { lexer.past value with lineno := lexer.lineno + 1, linestart := lexer.lexpos + value.length }
  | .rule .newline value =>
      { lexer.past value with
        lineno := lexer.lineno + value.length, linestart := lexer.lexpos + value.length }
  | .rule .mls value =>
      { lexer.past value with lineno := lexer.lineno + (splitLines value).length - 1 }
  | x => lexer.past x.text

def Outcome.lexer? : Outcome → Option Lexer
  | .token _ lexer | .skip lexer => some lexer
  | .error _ => none

theorem locate_lexer? (lexer after : Lexer) (type : TokenType) (range : Range)
    (decoded : Option (List ℕ)) :
    (lexer.locate after type range decoded).lexer?
      = if decoded.isSome then some after else none := by
  cases decoded <;> rfl

/-- A rule that raises no exception leaves the lexer after the lexeme. -/
theorem step_lexer? (env : Env) (lexer : Lexer) (x : Lexeme) :
    (env.step lexer x).lexer? = if x.accepted env then some (lexer.after x) else none := by
  cases x with
  | ignored c => rfl
  | literal c => rfl
  | rule r value =>
      cases r with
      | regex =>
          rw [Env.step, Env.tRegex, Lexeme.accepted]
          cases env.compileError (regexText value) <;> rfl
      | int =>
          rw [Env.step, Env.tInt, Lexeme.accepted]
          split <;> rfl
      | fstring => exact locate_lexer? ..
      | mls => exact locate_lexer? ..
      | string => exact locate_lexer? ..
      | _ => rfl

/-- The line ends that are not counted. -/
def Lexeme.uncounted : Lexeme → ℕ
  | .rule .regex value => value.count '\n'
  | _ => 0

variable {env : Env} {text : List Char} {before behind : List Lexeme} {x : Lexeme}

theorem textOf_concat (l : List Lexeme) (x : Lexeme) : textOf (l ++ [x]) = textOf l ++ x.text := by
  rw [textOf, textOf, List.flatMap_append, List.flatMap_singleton]

theorem after_lexpos (lexer : Lexer) (x : Lexeme) :
    (lexer.after x).lexpos = lexer.lexpos + x.text.length := by
  rcases x with _ | ⟨r, _⟩ | _
  · rfl
  · cases r <;> rfl
  · rfl

theorem count_newline_singleton {c : Char} (hc : c ≠ '\n') : [c].count '\n' = 0 :=
  List.count_eq_zero.mpr fun hmem => hc (List.mem_singleton.mp hmem).symm

theorem after_lineno (lexer : Lexer) (hx : x.Shape) :
    (lexer.after x).lineno + x.uncounted = lexer.lineno + x.text.count '\n' := by
  rcases x with c | ⟨r, value⟩ | c
  · exact congrArg (lexer.lineno + ·) (count_newline_singleton hx).symm
  · cases r with
    | regex => rfl
    | comment => exact congrArg (lexer.lineno + ·) hx.1.symm
    | newline => exact congrArg (lexer.lineno + ·) hx.1.symm
    | mls =>
        have := length_splitLines value
        simp only [Lexer.after, Lexeme.uncounted, Lexeme.text]
        omega
    | _ => exact congrArg (lexer.lineno + ·) (List.count_eq_zero.mpr hx).symm
  · exact congrArg (lexer.lineno + ·) (count_newline_singleton hx).symm

theorem after_linestart_of_startsLine (lexer : Lexer) (hx : x.startsLine = true) :
    (lexer.after x).linestart = lexer.lexpos + x.text.length := by
  rcases x with _ | ⟨r, _⟩ | _
  · cases hx
  · cases r <;> first | rfl | cases hx
  · cases hx

theorem after_linestart (lexer : Lexer) (hx : x.startsLine = false) :
    (lexer.after x).linestart = lexer.linestart := by
  rcases x with _ | ⟨r, _⟩ | _
  · rfl
  · cases r <;> first | rfl | cases hx
  · rfl

theorem exists_concat_of_startsLine (hx : x.Shape) (hs : x.startsLine = true) :
    ∃ w, x.text = w ++ ['\n'] := by
  rcases x with _ | ⟨r, _⟩ | _
  · cases hs
  · cases r <;> first | exact hx.2 | cases hs
  · cases hs

/-- What the lexer knows after the lexemes: it can only miss line ends. -/
structure Tracks (l : List Lexeme) (lexer : Lexer) : Prop where
  lexpos : lexer.lexpos = (textOf l).length
  lineno : lexer.lineno + (l.map Lexeme.uncounted).sum = lineNumber (textOf l)
  linestart_le : lexer.linestart ≤ lineStart (textOf l)
  linestart : lexer.linestart = lineStart (textOf l) ↔ '\n' ∉ textOf (sinceLineStart l)

theorem Tracks.start : Tracks [] Lexer.start :=
  ⟨rfl, rfl, Nat.zero_le _, iff_of_true rfl List.not_mem_nil⟩

theorem Tracks.concat {lexer : Lexer} (h : Tracks before lexer) (hx : x.Shape) :
    Tracks (before ++ [x]) (lexer.after x) := by
  have hlexpos : (lexer.after x).lexpos = (textOf (before ++ [x])).length := by
    rw [after_lexpos, h.lexpos, textOf_concat, List.length_append]
  have hlineno : (lexer.after x).lineno + ((before ++ [x]).map Lexeme.uncounted).sum
      = lineNumber (textOf (before ++ [x])) := by
    have hafter := after_lineno lexer hx
    have hbefore := h.lineno
    rw [textOf_concat, lineNumber_append, List.map_append, List.sum_append, List.map_singleton,
      List.sum_singleton]
    omega
  cases hs : x.startsLine with
  | true =>
      obtain ⟨w, hw⟩ := exists_concat_of_startsLine hx hs
      have hsince : sinceLineStart (before ++ [x]) = [] :=
        List.rtakeWhile_concat_neg _ _ _ (by simp [hs])
      have hstart : (lexer.after x).linestart = lineStart (textOf (before ++ [x])) := by
        rw [after_linestart_of_startsLine lexer hs, h.lexpos, textOf_concat, hw,
          ← List.append_assoc, lineStart_append_newline]
        simp only [List.length_append, Nat.add_assoc]
      refine ⟨hlexpos, hlineno, hstart.le, iff_of_true hstart ?_⟩
      rw [hsince]
      exact List.not_mem_nil
  | false =>
      have hsince : sinceLineStart (before ++ [x]) = sinceLineStart before ++ [x] :=
        List.rtakeWhile_concat_pos _ _ _ (by simp [hs])
      by_cases hmem : '\n' ∈ x.text
      · -- the lexer misses the line end
        have hlt : lexer.linestart < lineStart (textOf (before ++ [x])) := by
          rw [textOf_concat]
          exact Nat.lt_of_le_of_lt (h.linestart_le.trans (lineStart_le _))
            (length_lt_lineStart _ hmem)
        rw [← after_linestart lexer hs] at hlt
        refine ⟨hlexpos, hlineno, hlt.le, iff_of_false hlt.ne fun hnot => hnot ?_⟩
        rw [hsince, textOf_concat]
        exact List.mem_append_right _ hmem
      · have hline : lineStart (textOf (before ++ [x])) = lineStart (textOf before) := by
          rw [textOf_concat, lineStart_append_of_notMem _ hmem]
        refine ⟨hlexpos, hlineno, ?_, ?_⟩
        · rw [after_linestart lexer hs, hline]
          exact h.linestart_le
        · rw [after_linestart lexer hs, hline, h.linestart, hsince, textOf_concat, List.mem_append,
            or_iff_left hmem]

/-- What the lexer knows after a part of the text. -/
theorem tracks_foldl {l : List Lexeme} (hl : ∀ x ∈ l, x.Shape) :
    Tracks l (l.foldl Lexer.after Lexer.start) := by
  induction l using List.reverseRecOn with
  | nil => exact Tracks.start
  | append_singleton l x ih =>
      obtain ⟨hl, hx⟩ := List.forall_mem_append.mp hl
      rw [List.foldl_append]
      exact (ih hl).concat (hx x (List.mem_singleton_self x))

theorem sum_uncounted_eq_zero {l : List Lexeme} :
    (l.map Lexeme.uncounted).sum = 0 ↔ ∀ value, .rule .regex value ∈ l → '\n' ∉ value := by
  rw [List.sum_eq_zero_iff_forall_eq_nat, List.forall_mem_map]
  refine ⟨fun h value hmem => List.count_eq_zero.mp (h _ hmem), fun h x hx => ?_⟩
  rcases x with _ | ⟨r, value⟩ | _
  · rfl
  · cases r <;> first | rfl | exact List.count_eq_zero.mpr (h value hx)
  · rfl

/-- The lexer knows the line and its start exactly after what is straight. -/
theorem Tracks.exact_iff {l : List Lexeme} {lexer : Lexer} (h : Tracks l lexer) :
    (lexer.lineno = lineNumber (textOf l) ∧ lexer.linestart = lineStart (textOf l)) ↔
      Straight l := by
  have hline : lexer.lineno = lineNumber (textOf l) ↔ (l.map Lexeme.uncounted).sum = 0 := by
    have := h.lineno
    omega
  rw [hline, sum_uncounted_eq_zero, h.linestart]
  exact ⟨fun h => ⟨h.1, h.2⟩, fun h => ⟨h.regex, h.line⟩⟩

/-! ## Runs -/

theorem step_cases (env : Env) (lexer : Lexer) (x : Lexeme) :
    x.accepted env = true ∧ (env.step lexer x).lexer? = some (lexer.after x)
      ∨ x.accepted env = false ∧ ∃ e, env.step lexer x = .error e := by
  have hstep := step_lexer? env lexer x
  cases hx : x.accepted env with
  | true => exact .inl ⟨rfl, by rw [hstep, if_pos hx]⟩
  | false =>
      refine .inr ⟨rfl, ?_⟩
      rw [if_neg (by simp [hx])] at hstep
      cases h : env.step lexer x with
      | token t after => rw [h] at hstep; cases hstep
      | skip after => rw [h] at hstep; cases hstep
      | error e => exact ⟨e, rfl⟩

variable {left : List Char} {lexer : Lexer} {l : List Lexeme}

/-- After a lexeme that is accepted the run goes on, with at most a token before. -/
theorem run_cons_accepted (hx : x.accepted env = true) :
    (run env left lexer (x :: l)).error = (run env left (lexer.after x) l).error ∧
      ∀ p, p ∈ (run env left lexer (x :: l)).tokens ↔
        (p.1 = lexer ∧ ∃ after, env.step p.1 x = .token p.2 after)
          ∨ p ∈ (run env left (lexer.after x) l).tokens := by
  obtain ⟨-, hstep⟩ | ⟨hx', -⟩ := step_cases env lexer x
  · rw [run]
    cases h : env.step lexer x with
    | token t after =>
        rw [h] at hstep
        obtain rfl := Option.some.inj hstep
        refine ⟨rfl, fun p => ?_⟩
        rw [List.mem_cons]
        refine or_congr_left ⟨?_, ?_⟩
        · rintro rfl
          exact ⟨rfl, _, h⟩
        · rintro ⟨hp, _, heq⟩
          rw [hp, h] at heq
          exact Prod.ext hp (Outcome.token.inj heq).1.symm
    | skip after =>
        rw [h] at hstep
        obtain rfl := Option.some.inj hstep
        refine ⟨rfl, fun p => (or_iff_right ?_).symm⟩
        rintro ⟨hp, _, heq⟩
        rw [hp, h] at heq
        cases heq
    | error e =>
        rw [h] at hstep
        cases hstep
  · rw [hx] at hx'
    cases hx'

theorem run_cons_rejected (hx : x.accepted env = false) :
    (run env left lexer (x :: l)).tokens = [] ∧
      ∀ e, env.step lexer x = .error e → (run env left lexer (x :: l)).error = some e := by
  obtain ⟨hx', -⟩ | ⟨-, e, h⟩ := step_cases env lexer x
  · rw [hx] at hx'
    cases hx'
  · rw [run, h]
    refine ⟨rfl, fun e' he => ?_⟩
    obtain rfl := Outcome.error.inj he
    rfl

/-- Each token comes from a lexeme, and the lexemes before it are accepted. -/
theorem mem_tokens_run {p : Lexer × Token} :
    p ∈ (run env left lexer l).tokens ↔ ∃ before x behind after, l = before ++ x :: behind ∧
      (∀ y ∈ before, y.accepted env = true) ∧ p.1 = before.foldl Lexer.after lexer ∧
        env.step p.1 x = .token p.2 after := by
  induction l generalizing lexer with
  | nil =>
      refine iff_of_false List.not_mem_nil ?_
      rintro ⟨before, x, behind, -, heq, -⟩
      exact List.append_ne_nil_of_right_ne_nil before (List.cons_ne_nil x behind) heq.symm
  | cons x l ih =>
      cases hx : x.accepted env with
      | true =>
          rw [(run_cons_accepted hx).2 p, ih]
          constructor
          · rintro (⟨hp, after, h⟩ | ⟨before, y, behind, after, rfl, hbefore, hp, h⟩)
            · exact ⟨[], x, l, after, rfl, fun _ h => absurd h List.not_mem_nil, hp, h⟩
            · exact ⟨x :: before, y, behind, after, rfl, List.forall_mem_cons.mpr ⟨hx, hbefore⟩,
                hp, h⟩
          · rintro ⟨_ | ⟨y, before⟩, z, behind, after, heq, hbefore, hp, h⟩
            · obtain ⟨rfl, rfl⟩ := List.cons.inj heq
              exact .inl ⟨hp, after, h⟩
            · obtain ⟨rfl, rfl⟩ := List.cons.inj heq
              exact .inr ⟨before, z, behind, after, rfl, (List.forall_mem_cons.mp hbefore).2, hp, h⟩
      | false =>
          rw [(run_cons_rejected hx).1]
          refine iff_of_false List.not_mem_nil ?_
          rintro ⟨_ | ⟨y, before⟩, z, behind, after, heq, hbefore, hp, h⟩
          · obtain ⟨rfl, rfl⟩ := List.cons.inj heq
            have hstep := step_lexer? env p.1 x
            rw [h, if_neg (by simp [hx])] at hstep
            cases hstep
          · obtain ⟨rfl, rfl⟩ := List.cons.inj heq
            have := (List.forall_mem_cons.mp hbefore).1
            rw [hx] at this
            cases this

/-- The first lexeme that is not accepted is the error. -/
theorem error_run (hbefore : ∀ y ∈ before, y.accepted env = true)
    (hx : x.accepted env = false) {e : LexError}
    (h : env.step (before.foldl Lexer.after lexer) x = .error e) :
    (run env left lexer (before ++ x :: behind)).error = some e := by
  induction before generalizing lexer with
  | nil => exact (run_cons_rejected hx).2 e h
  | cons y before ih =>
      obtain ⟨hy, hbefore⟩ := List.forall_mem_cons.mp hbefore
      exact (run_cons_accepted hy).1.trans (ih hbefore h)

namespace Reached

theorem text_eq (h : Reached env text before x behind) :
    ∃ tail, text = textOf before ++ (x.text ++ tail) := by
  have hspec := (lexemes_spec text).1
  rw [h.lexemes_eq, textOf, List.flatMap_append, List.flatMap_cons, List.append_assoc,
    List.append_assoc] at hspec
  exact ⟨_, hspec.symm⟩

theorem take_start (h : Reached env text before x behind) :
    text.take (textOf before).length = textOf before := by
  obtain ⟨tail, rfl⟩ := h.text_eq
  exact List.take_left

/-- The text up to an offset inside the lexeme. -/
theorem take_inside (h : Reached env text before x behind) {part rest : List Char}
    (hx : x.text = part ++ rest) :
    text.take ((textOf before).length + part.length) = textOf before ++ part := by
  obtain ⟨tail, rfl⟩ := h.text_eq
  rw [hx, List.append_assoc, ← List.append_assoc, ← List.length_append]
  exact List.take_left

theorem shape (h : Reached env text before x behind) : x.Shape :=
  (lexemes_spec text).2 x (by rw [h.lexemes_eq]; exact List.mem_append_right _ List.mem_cons_self)

theorem tracks (h : Reached env text before x behind) :
    Tracks before (before.foldl Lexer.after Lexer.start) :=
  tracks_foldl fun y hy => (lexemes_spec text).2 y (by
    rw [h.lexemes_eq]
    exact List.mem_append_left _ hy)

end Reached

theorem Reached.error_eq (h : Reached env text before x behind) (hx : x.accepted env = false)
    {e : LexError} (he : env.step (before.foldl Lexer.after Lexer.start) x = .error e) :
    (lex env text).error = some e := by
  rw [lex, h.lexemes_eq]
  exact error_run h.accepted hx he

/-- The tokens of a text are those of the lexemes that are reached. -/
theorem mem_tokens_lex {t : Token} :
    (lexer, t) ∈ (lex env text).tokens ↔ ∃ before x behind after,
      Reached env text before x behind ∧ lexer = before.foldl Lexer.after Lexer.start ∧
        env.step lexer x = .token t after := by
  rw [lex, mem_tokens_run]
  constructor
  · rintro ⟨before, x, behind, after, heq, hbefore, hp, h⟩
    exact ⟨before, x, behind, after, ⟨heq, hbefore⟩, hp, h⟩
  · rintro ⟨before, x, behind, after, ⟨heq, hbefore⟩, hp, h⟩
    exact ⟨before, x, behind, after, heq, hbefore, hp, h⟩

/-! ## Ranges -/

/-- The range that a rule gives its match. -/
def Rule.range (lexer : Lexer) (value : List Char) : Rule → Range
  | .mls => ⟨lexer.lineno, (lexer.past value).lexpos - lexer.linestart - value.length + 1,
      (lexer.after (.rule .mls value)).lineno, (lastLine value).length + 1⟩
  | _ => (lexer.past value).lineRange value.length

theorem locate_of_isSome {after : Lexer} {type : TokenType} {range : Range}
    {decoded : Option (List ℕ)} (h : decoded.isSome = true) : ∃ d,
    lexer.locate after type range decoded
      = .token (lexer.tok type (.located d range after.lexpos)) after := by
  obtain ⟨d, rfl⟩ := Option.isSome_iff_exists.mp h
  exact ⟨d, rfl⟩

theorem step_located {r : Rule} {value : List Char} (hr : r.located = true)
    (hx : (Lexeme.rule r value).accepted env = true) : ∃ type decoded after,
    env.step lexer (.rule r value)
      = .token (lexer.tok type
          (.located decoded (r.range lexer value) (lexer.lexpos + value.length))) after := by
  cases r with
  | fstring =>
      obtain ⟨d, h⟩ := locate_of_isSome hx
      exact ⟨_, d, _, h⟩
  | rstring => exact ⟨_, _, _, rfl⟩
  | id => exact ⟨_, _, _, rfl⟩
  | mls =>
      have hlocate : env.tMls lexer value = lexer.locate (lexer.after (.rule .mls value))
          (.rule .mls) (Rule.mls.range lexer value) (tokenValue env.names value .mls) := by
        rw [Env.tMls, getLast?_splitLines]
        rfl
      obtain ⟨d, h⟩ := locate_of_isSome hx
      exact ⟨_, d, _, hlocate.trans h⟩
  | string =>
      obtain ⟨d, h⟩ := locate_of_isSome hx
      exact ⟨_, d, _, h⟩
  | _ => cases hr

theorem located_of_step {t : Token} {after : Lexer} {value : List ℕ} {range : Range} {stop : ℕ}
    (h : env.step lexer x = .token t after) (ht : t.value = .located value range stop) :
    ∃ r v, x = .rule r v ∧ r.located = true := by
  rcases x with c | ⟨r, v⟩ | c
  · cases h
  · cases hr : r.located with
    | true => exact ⟨r, v, rfl, hr⟩
    | false =>
        cases r with
        | regex =>
            rw [Env.step, Env.tRegex] at h
            split at h
            · obtain ⟨rfl, -⟩ := Outcome.token.inj h
              cases ht
            · cases h
        | int =>
            rw [Env.step, Env.tInt] at h
            split at h
            · obtain ⟨rfl, -⟩ := Outcome.token.inj h
              cases ht
            · cases h
        | fstring | rstring | id | mls | string => cases hr
        | comment | newline => cases h
        | _ =>
            obtain ⟨rfl, -⟩ := Outcome.token.inj h
            cases ht
  · obtain ⟨rfl, -⟩ := Outcome.token.inj h
    cases ht

theorem lineRange_eq_iff {s value : List Char} (hlexpos : lexer.lexpos = s.length)
    (hvalue : '\n' ∉ value) :
    (lexer.past value).lineRange value.length
        = ⟨lineNumber s, column s, lineNumber (s ++ value), column (s ++ value)⟩
      ↔ lexer.lineno = lineNumber s ∧ lexer.linestart = lineStart s := by
  have hstart := lineStart_le s
  rw [lineNumber_append, List.count_eq_zero.mpr hvalue, column_append_of_notMem s hvalue,
    column_eq, Lexer.lineRange, Range.mk.injEq]
  simp only [Lexer.past, hlexpos]
  omega

theorem mlsRange_eq_iff {s value : List Char} (hlexpos : lexer.lexpos = s.length) :
    Rule.mls.range lexer value
        = ⟨lineNumber s, column s, lineNumber (s ++ value), column (s ++ value)⟩
      ↔ (lexer.lineno = lineNumber s ∧ lexer.linestart = lineStart s)
        ∧ ('\n' ∈ value ∨ lastLine s = []) := by
  have hstart := lineStart_le s
  have hlines := length_splitLines value
  have hstop : ((lastLine value).length + 1 : ℤ) = column (s ++ value)
      ↔ '\n' ∈ value ∨ lastLine s = [] := by
    by_cases hmem : '\n' ∈ value
    · rw [column_append_of_mem s hmem]
      exact iff_of_true rfl (.inl hmem)
    · rw [column_append_of_notMem s hmem, lastLine_of_notMem hmem, column, or_iff_right hmem,
        ← List.length_eq_zero_iff]
      omega
  rw [← hstop, lineNumber_append, column_eq s, Rule.range, Range.mk.injEq]
  simp only [Lexer.past, Lexer.after, hlexpos]
  omega

/-- The range of a token is right after what is straight; a multi-line string on one
line has to be at its start too. -/
theorem range_eq_iff {r : Rule} {value : List Char}
    (h : Reached env text before (.rule r value) behind) (hr : r.located = true)
    (ht : Tracks before lexer) :
    r.range lexer value = Range.between text lexer.lexpos (lexer.lexpos + value.length) ↔
      Straight before ∧ (r = .mls → '\n' ∈ value ∨ lastLine (textOf before) = []) := by
  have hstop : text.take ((textOf before).length + value.length) = textOf before ++ value :=
    h.take_inside (List.append_nil _).symm
  rw [Range.between, ht.lexpos, h.take_start, hstop, ← ht.exact_iff]
  by_cases hmls : r = .mls
  · subst hmls
    rw [mlsRange_eq_iff ht.lexpos]
    exact and_congr_right fun _ => ⟨fun h _ => h, fun h => h rfl⟩
  · have hshape := h.shape
    have hrange : r.range lexer value = (lexer.past value).lineRange value.length ∧
        '\n' ∉ value := by
      cases r with
      | fstring | rstring | id | string => exact ⟨rfl, hshape⟩
      | mls => exact absurd rfl hmls
      | _ => cases hr
    rw [hrange.1, lineRange_eq_iff ht.lexpos hrange.2, and_iff_left fun heq => absurd heq hmls]

/-- A regular expression is reported at its slash when the lexer knows the line, and the
slash is on it. -/
theorem regexStart_eq_iff {s part : List Char} (hlexpos : lexer.lexpos = s.length)
    (hle : lexer.linestart ≤ lineStart s) (width : ℕ) :
    ((lexer.lineno + part.count '\n' : ℤ) = lineNumber (s ++ part) ∧
      ((lexer.lexpos + width : ℕ) : ℤ) - lexer.linestart + 1 - width + part.length
        = column (s ++ part)) ↔
      (lexer.lineno = lineNumber s ∧ lexer.linestart = lineStart s) ∧ '\n' ∉ part := by
  have hcolumn := column_eq (s ++ part)
  have hstart := lineStart_le (s ++ part)
  have hlength : (s ++ part).length = s.length + part.length := List.length_append
  rw [lineNumber_append]
  by_cases hmem : '\n' ∈ part
  · have hlt := length_lt_lineStart s hmem
    have hs := lineStart_le s
    refine iff_of_false (fun h => ?_) fun h => h.2 hmem
    have := h.2
    omega
  · rw [lineStart_append_of_notMem s hmem] at hcolumn hstart
    rw [and_iff_left hmem]
    omega

theorem step_regex_error {value : List Char}
    (hx : (Lexeme.rule .regex value).accepted env = false) : ∃ msg,
    env.step lexer (.rule .regex value) = .error (.parser
      ⟨lexer.lineno + (value.takeWhile (· ≠ '/')).count '\n',
        ((lexer.lexpos + value.length : ℕ) : ℤ) - lexer.linestart + 1 - value.length
          + (value.takeWhile (· ≠ '/')).length,
        lexer.lineno + (value.takeWhile (· ≠ '/')).count '\n',
        ((lexer.lexpos + value.length : ℕ) : ℤ) - lexer.linestart + 1⟩
      (value.dropWhile (· ≠ '/')) msg) := by
  rw [Env.step, Env.tRegex]
  cases herror : env.compileError (regexText value) with
  | none =>
      rw [Lexeme.accepted, herror] at hx
      cases hx
  | some error => exact ⟨_, rfl⟩

/-- A lexeme becomes a token if it is one that does and the rule does not raise an
exception. -/
theorem step_eq_token_iff : (∃ t after, env.step lexer x = .token t after) ↔
    x.isToken = true ∧ x.accepted env = true := by
  constructor
  · rintro ⟨t, after, h⟩
    refine ⟨?_, ?_⟩
    · rcases x with c | ⟨r, v⟩ | c
      · cases h
      · cases r with
        | comment | newline => cases h
        | _ => rfl
      · rfl
    · obtain ⟨hx, -⟩ | ⟨-, e, he⟩ := step_cases env lexer x
      · exact hx
      · cases h.symm.trans he
  · rintro ⟨htoken, hx⟩
    rcases x with c | ⟨r, v⟩ | c
    · cases htoken
    · cases r with
      | comment | newline => cases htoken
      | fstring | rstring | id | mls | string =>
          obtain ⟨_, _, _, h⟩ := step_located rfl hx
          exact ⟨_, _, h⟩
      | regex =>
          rw [Env.step, Env.tRegex, Option.isNone_iff_eq_none.mp hx]
          exact ⟨_, _, rfl⟩
      | int => exact ⟨_, _, if_pos hx⟩
      | _ => exact ⟨_, _, rfl⟩
    · exact ⟨_, _, rfl⟩

theorem tokensExact_iff (env : Env) (text : List Char) :
    TokensExact env text ↔
      ∀ before r value behind, Reached env text before (.rule r value) behind →
        r.located = true → (Lexeme.rule r value).accepted env = true →
          Straight before ∧ (r = .mls → '\n' ∈ value ∨ lastLine (textOf before) = []) := by
  constructor
  · intro hexact before r value behind h hr hx
    obtain ⟨type, decoded, after, hstep⟩ :=
      @step_located env (before.foldl Lexer.after Lexer.start) r value hr hx
    have hmem := mem_tokens_lex.mpr ⟨before, _, behind, after, h, rfl, hstep⟩
    exact (range_eq_iff h hr h.tracks).mp (hexact _ hmem _ _ _ rfl)
  · rintro hplaced ⟨lexer, t⟩ hmem value range stop hvalue
    obtain ⟨before, x, behind, after, h, rfl, hstep⟩ := mem_tokens_lex.mp hmem
    obtain ⟨r, v, rfl, hr⟩ := located_of_step hstep hvalue
    have hx := (step_eq_token_iff.mp ⟨_, _, hstep⟩).2
    obtain ⟨type, decoded, after', hstep'⟩ := step_located hr hx
    obtain ⟨rfl, -⟩ := Outcome.token.inj (hstep'.symm.trans hstep)
    obtain ⟨-, rfl, rfl⟩ := Value.located.inj hvalue
    exact (range_eq_iff h hr h.tracks).mpr (hplaced before r v behind h hr hx)

theorem regexErrorsExact_iff (env : Env) (text : List Char) :
    RegexErrorsExact env text ↔
      ∀ before value behind, Reached env text before (.rule .regex value) behind →
        (Lexeme.rule .regex value).accepted env = false →
          Straight before ∧ '\n' ∉ value.takeWhile (· ≠ '/') := by
  refine forall_congr' fun before => forall_congr' fun value => forall_congr' fun behind =>
    forall_congr' fun h => forall_congr' fun hc => ?_
  obtain ⟨msg, hstep⟩ :=
    @step_regex_error env (before.foldl Lexer.after Lexer.start) value hc
  have herror := h.error_eq hc hstep
  have htake : text.take ((textOf before).length + (value.takeWhile (· ≠ '/')).length)
      = textOf before ++ value.takeWhile (· ≠ '/') :=
    h.take_inside List.takeWhile_append_dropWhile.symm
  rw [← h.tracks.exact_iff, ← regexStart_eq_iff h.tracks.lexpos h.tracks.linestart_le value.length,
    htake]
  constructor
  · rintro ⟨range, msg, heq, hrange⟩
    obtain ⟨rfl, -⟩ := LexError.parser.inj (Option.some.inj (herror.symm.trans heq))
    exact hrange
  · exact fun hrange => ⟨_, _, herror, hrange⟩

theorem lexersExact_iff (env : Env) (text : List Char) :
    LexersExact env text ↔
      ∀ before x behind, Reached env text before x behind →
        x.isToken = true → x.accepted env = true → Straight before := by
  constructor
  · intro hexact before x behind h htoken hx
    obtain ⟨t, after, hstep⟩ := step_eq_token_iff.mpr ⟨htoken, hx⟩
    have hmem := mem_tokens_lex.mpr ⟨before, x, behind, after, h, rfl, hstep⟩
    have hlexer := hexact _ hmem
    rw [Lexer.Exact, h.tracks.lexpos, h.take_start] at hlexer
    exact h.tracks.exact_iff.mp hlexer
  · rintro hstraight ⟨lexer, t⟩ hmem
    obtain ⟨before, x, behind, after, h, rfl, hstep⟩ := mem_tokens_lex.mp hmem
    obtain ⟨htoken, hx⟩ := step_eq_token_iff.mp ⟨_, _, hstep⟩
    rw [Lexer.Exact, h.tracks.lexpos, h.take_start]
    exact h.tracks.exact_iff.mpr (hstraight before x behind h htoken hx)

/-- Tokens are where their ranges say, and the lexer knows where it is, if and only if
what is before them is straight. -/
theorem positions_exact_iff (env : Env) (text : List Char) :
    (TokensExact env text ↔
      ∀ before r value behind, Reached env text before (.rule r value) behind →
        r.located = true → (Lexeme.rule r value).accepted env = true →
          Straight before ∧ (r = .mls → '\n' ∈ value ∨ lastLine (textOf before) = [])) ∧
    (RegexErrorsExact env text ↔
      ∀ before value behind, Reached env text before (.rule .regex value) behind →
        (Lexeme.rule .regex value).accepted env = false →
          Straight before ∧ '\n' ∉ value.takeWhile (· ≠ '/')) ∧
    (LexersExact env text ↔
      ∀ before x behind, Reached env text before x behind →
        x.isToken = true → x.accepted env = true → Straight before) :=
  ⟨tokensExact_iff env text, regexErrorsExact_iff env text, lexersExact_iff env text⟩

/-- What comes after a multi-line string on its last line has the column of one line; a
multi-line string on one line ends where it would at the start of the line; and what
comes after a regular expression on two lines is said to be on the first. -/
theorem not_tokens_exact :
    ((lex ⟨fun _ => none, fun _ => none, 4300⟩ "\"\"\"\n\"\"\"x\n".toList).error = none ∧
        ¬ TokensExact ⟨fun _ => none, fun _ => none, 4300⟩ "\"\"\"\n\"\"\"x\n".toList) ∧
      ((lex ⟨fun _ => none, fun _ => none, 4300⟩ "a\"\"\"b\"\"\"\n".toList).error = none ∧
        ¬ TokensExact ⟨fun _ => none, fun _ => none, 4300⟩ "a\"\"\"b\"\"\"\n".toList) ∧
      ((lex ⟨fun _ => none, fun _ => none, 4300⟩ "matching\n/a/x\n".toList).error = none ∧
        ¬ TokensExact ⟨fun _ => none, fun _ => none, 4300⟩ "matching\n/a/x\n".toList) := by
  refine ⟨⟨by decide +kernel, fun h => ?_⟩, ⟨by decide +kernel, fun h => ?_⟩,
    ⟨by decide +kernel, fun h => ?_⟩⟩
  · have hmem : (⟨7, 2, 0⟩, ⟨.rule .id, .located [120] ⟨2, 8, 2, 9⟩ 8, 2, 7⟩) ∈
        (lex ⟨fun _ => none, fun _ => none, 4300⟩ "\"\"\"\n\"\"\"x\n".toList).tokens := by
      decide +kernel
    exact absurd (h _ hmem _ _ _ rfl) (by decide)
  · have hmem : (⟨1, 1, 0⟩, ⟨.rule .mls, .located [98] ⟨1, 2, 1, 8⟩ 8, 1, 1⟩) ∈
        (lex ⟨fun _ => none, fun _ => none, 4300⟩ "a\"\"\"b\"\"\"\n".toList).tokens := by
      decide +kernel
    exact absurd (h _ hmem _ _ _ rfl) (by decide)
  · have hmem : (⟨12, 1, 0⟩, ⟨.rule .id, .located [120] ⟨1, 13, 1, 14⟩ 13, 1, 12⟩) ∈
        (lex ⟨fun _ => none, fun _ => none, 4300⟩ "matching\n/a/x\n".toList).tokens := by
      decide +kernel
    exact absurd (h _ hmem _ _ _ rfl) (by decide)

end TokenPositions

end Inmanta
