import Inmanta.Lib.Dict
import Inmanta.Lib.Loop
import Inmanta.Lib.Regex
import Inmanta.Lib.Replace
import Mathlib.Data.List.Flatten
import Mathlib.Data.List.Induction

/-!
# String interpolation

The parser looks for the markers of a string and makes a reference from each.
`StringFormat` replaces the markers one after the other in the whole string, so
that it also replaces what values look like markers. As markers do not overlap,
a replacement does what it should if and only if the marker occurs as often as
it has places in the string (`replaceAll_partly`), and
`interpolation_is_simultaneous_iff` says so for a whole string.

`StringFormatV2` lets Python fill in the fields of an f-string. The parser stops
to look for fields at the first escaped brace, and the fields after it are only
filled in if they were found before.
-/

namespace Inmanta

/-- What the formatters use of a value. -/
class PyValue (V : Type) where
  str : V → List Char
  /-- A float without a fraction as an integer, and any other value itself. -/
  integral : V → V

/-- The names of a variable and of the attributes it goes through. -/
abbrev VariableRef := List (List Char)

/-- What a reference comes to. -/
inductive ReferenceResult (V : Type) where
  | value (v : V)
  | unknown
  | reference

inductive FormatStop where
  /-- The result is unknown. -/
  | unknown
  | unexpectedReference
  | keyError (name : List Char)
  /-- A field without a name. -/
  | positional
  deriving DecidableEq

section Python

/-- The whitespace of `\\s` and of `str.strip`. -/
def isSpace (c : Char) : Bool :=
  c.toNat ∈ [0x20, 0x85, 0xa0, 0x1680, 0x2028, 0x2029, 0x202f, 0x205f, 0x3000]
    ∨ 0x9 ≤ c.toNat ∧ c.toNat ≤ 0xd ∨ 0x1c ≤ c.toNat ∧ c.toNat ≤ 0x1f
    ∨ 0x2000 ≤ c.toNat ∧ c.toNat ≤ 0x200a

def strip (s : List Char) : List Char :=
  ((s.dropWhile isSpace).reverse.dropWhile isSpace).reverse

/-- `s.split(".")` -/
def splitDots : List Char → List (List Char)
  | [] => [[]]
  | c :: s =>
      match splitDots s with
      | [] => [[]]
      | part :: parts => if c = '.' then [] :: part :: parts else (c :: part) :: parts

end Python

/-- `convert_to_references`, for one variable -/
def toReference (name : List Char) : VariableRef := (splitDots name).map strip

/-! ## Formats -/

def isVariableChar (c : Char) : Bool :=
  c = '.' ∨ 'A' ≤ c ∧ c ≤ 'Z' ∨ 'a' ≤ c ∧ c ≤ 'z' ∨ c.isDigit = true ∨ c = '_' ∨ c = '-'

open Regex in
def formatRegex : Regex :=
  seq (lit '{') (seq (lit '{') (seq (star (chr isSpace))
    (seq (group "name" (plus (chr isVariableChar)))
      (seq (star (chr isSpace)) (seq (lit '}') (lit '}'))))))

/-- The markers of a string with their references, which `get_string_ast_node` passes on. -/
def formatVariables (formatString : List Char) : List (List Char × VariableRef) :=
  (formatRegex.findAll formatString).map fun x => (x.1, toReference (x.2.get "name"))

section Values

variable {V : Type} [PyValue V]

/-- `_resolve_value`. It does not look at the text of a value. -/
def resolveValue : ReferenceResult V → Except FormatStop V
  | .value v => .ok (PyValue.integral v)
  | .unknown => .error .unknown
  | .reference => .error .unexpectedReference

/-- The string form of a value in a string. -/
def stringForm (v : V) : List Char := PyValue.str (PyValue.integral v)

/-- `StringFormat._resolve` -/
def StringFormat.resolve (execute : VariableRef → ReferenceResult V) (formatString : List Char)
    (vars : List (List Char × VariableRef)) : Except FormatStop (List Char) :=
  vars.foldlM (fun result x => do
    let value ← resolveValue (execute x.2)
    return replaceAll x.1 (PyValue.str value) result) formatString

end Values

/-! ## f-strings -/

inductive FStringError where
  | singleBrace
  | braceInField
  | unclosed
  /-- A format specifier or a conversion, which is not modelled. -/
  | specifier
  deriving DecidableEq

/-- Where the parser is: in a literal, in a field, or between brackets in a field. -/
inductive FStringMode where
  | literal (text : List Char)
  | field (text name : List Char)
  | bracket (text name : List Char)

/-- A literal with the field that follows it. There is none after an escaped brace or at the
end. -/
abbrev FStringPiece := List Char × Option (List Char)

/-- `Formatter.parse` -/
def parseFString : FStringMode → List Char → Except FStringError (List FStringPiece)
  | .literal [], [] => .ok []
  | .literal text, [] => .ok [(text, none)]
  | .literal text, '{' :: '{' :: s => do
      let pieces ← parseFString (.literal []) s
      return (text ++ ['{'], none) :: pieces
  | .literal text, '}' :: '}' :: s => do
      let pieces ← parseFString (.literal []) s
      return (text ++ ['}'], none) :: pieces
  | .literal _, ['{'] => .error .singleBrace
  | .literal _, '}' :: _ => .error .singleBrace
  | .literal text, '{' :: s => parseFString (.field text []) s
  | .literal text, c :: s => parseFString (.literal (text ++ [c])) s
  | .field _ _, [] => .error .unclosed
  | .field text name, '}' :: s => do
      let pieces ← parseFString (.literal []) s
      return (text, some name) :: pieces
  | .field _ _, '{' :: _ => .error .braceInField
  | .field _ _, ':' :: _ => .error .specifier
  | .field _ _, '!' :: _ => .error .specifier
  | .field text name, '[' :: s => parseFString (.bracket text (name ++ ['['])) s
  | .field text name, c :: s => parseFString (.field text (name ++ [c])) s
  | .bracket _ _, [] => .error .unclosed
  | .bracket text name, ']' :: s => parseFString (.field text (name ++ [']'])) s
  | .bracket text name, c :: s => parseFString (.bracket text (name ++ [c])) s

/-- The fields up to the first piece without one, which `p_constant_fstring` passes on. -/
def fstringVariables : List FStringPiece → List (List Char × VariableRef)
  | (_, some (c :: name)) :: pieces =>
      (c :: name, toReference (c :: name)) :: fstringVariables pieces
  | _ => []

section Values

variable {V : Type} [PyValue V]

/-- `vformat` -/
def vformat (kwargs : Dict (List Char) V) : List FStringPiece → Except FormatStop (List Char)
  | [] => .ok []
  | (text, none) :: pieces => do
      let rest ← vformat kwargs pieces
      return text ++ rest
  | (_, some []) :: _ => .error .positional
  | (text, some name) :: pieces =>
      match kwargs.get? name with
      | none => .error (.keyError name)
      | some v => do
          let rest ← vformat kwargs pieces
          return text ++ PyValue.str v ++ rest

/-- `StringFormatV2._resolve` -/
def StringFormatV2.resolve (execute : VariableRef → ReferenceResult V) (pieces : List FStringPiece) :
    Except FormatStop (List Char) := do
  let kwargs ← (fstringVariables pieces).foldlM (fun (kwargs : Dict (List Char) V) x => do
    let value ← resolveValue (execute x.2)
    return kwargs.set x.1 value) .empty
  vformat kwargs pieces

end Values

/-! ## Markers -/

section Markers

open Regex

theorem not_brace_of_isSpace {c : Char} (h : isSpace c = true) : c ≠ '{' ∧ c ≠ '}' := by
  constructor <;> rintro rfl <;> exact absurd h (by decide +kernel)

theorem not_brace_of_isVariableChar {c : Char} (h : isVariableChar c = true) :
    c ≠ '{' ∧ c ≠ '}' := by
  constructor <;> rintro rfl <;> exact absurd h (by decide +kernel)

theorem bounds_of_isVariableChar {c : Char} (h : isVariableChar c = true) :
    0x2d ≤ c.toNat ∧ c.toNat ≤ 0x7a := by
  have hle : ∀ a b : Char, a ≤ b → a.toNat ≤ b.toNat := fun a b hab => hab
  simp only [isVariableChar, Bool.decide_or, Bool.decide_and, Bool.or_eq_true, Bool.and_eq_true,
    decide_eq_true_eq] at h
  obtain rfl | ⟨h1, h2⟩ | ⟨h1, h2⟩ | h1 | rfl | rfl := h
  · decide
  · have := hle _ _ h1
    have := hle _ _ h2
    simp only [show 'A'.toNat = 65 from rfl, show 'Z'.toNat = 90 from rfl] at *
    omega
  · have := hle _ _ h1
    have := hle _ _ h2
    simp only [show 'a'.toNat = 97 from rfl, show 'z'.toNat = 122 from rfl] at *
    omega
  · simp only [Char.isDigit, ge_iff_le, Bool.and_eq_true, decide_eq_true_eq] at h1
    have h0 : 48 ≤ c.toNat := UInt32.le_iff_toNat_le.mp h1.1
    have h9 : c.toNat ≤ 57 := UInt32.le_iff_toNat_le.mp h1.2
    omega
  · decide
  · decide

theorem not_isVariableChar_of_isSpace {c : Char} (h : isSpace c = true) :
    isVariableChar c = false := by
  cases hv : isVariableChar c with
  | false => rfl
  | true =>
      have := bounds_of_isVariableChar hv
      simp only [isSpace, List.mem_cons, List.not_mem_nil, or_false, Bool.decide_or,
        Bool.decide_and, Bool.or_eq_true, Bool.and_eq_true, decide_eq_true_eq] at h
      omega

/-- A marker with the name in it. -/
def IsMarker (m name : List Char) : Prop :=
  ∃ left right, (∀ c ∈ left, isSpace c = true) ∧ (∀ c ∈ right, isSpace c = true)
    ∧ name ≠ [] ∧ (∀ c ∈ name, isVariableChar c = true)
    ∧ m = ['{', '{'] ++ (left ++ (name ++ right)) ++ ['}', '}']

theorem spells_formatRegex :
    Spells formatRegex fun w c => ∃ name, IsMarker w name ∧ c = [("name", name)] := by
  have hname := (Spells.plus_chr isVariableChar).group "name"
  have hspaces := Spells.star_chr isSpace
  refine ((Spells.lit '{').seq ((Spells.lit '{').seq (hspaces.seq (hname.seq (hspaces.seq
    ((Spells.lit '}').seq (Spells.lit '}'))))))).congr fun w c => ?_
  constructor
  · rintro ⟨name, ⟨left, right, hleft, hright, hne, hname, rfl⟩, rfl⟩
    exact ⟨_, _, _, _, ⟨rfl, rfl⟩, ⟨_, _, _, _, ⟨rfl, rfl⟩, ⟨_, _, _, _, ⟨hleft, rfl⟩,
      ⟨_, _, _, _, ⟨_, ⟨hne, hname, rfl⟩, rfl⟩, ⟨_, _, _, _, ⟨hright, rfl⟩,
        ⟨_, _, _, _, ⟨rfl, rfl⟩, ⟨rfl, rfl⟩, rfl, rfl⟩, rfl, rfl⟩, rfl, rfl⟩, rfl, rfl⟩,
          rfl, rfl⟩, by simp, by simp⟩
  · rintro ⟨_, _, _, _, ⟨rfl, rfl⟩, ⟨_, _, _, _, ⟨rfl, rfl⟩, ⟨left, _, _, _, ⟨hleft, rfl⟩,
      ⟨name, _, _, _, ⟨_, ⟨hne, hname, rfl⟩, rfl⟩, ⟨right, _, _, _, ⟨hright, rfl⟩,
        ⟨_, _, _, _, ⟨rfl, rfl⟩, ⟨rfl, rfl⟩, rfl, rfl⟩, rfl, rfl⟩, rfl, rfl⟩, rfl, rfl⟩,
          rfl, rfl⟩, rfl, rfl⟩
    exact ⟨name, ⟨left, right, hleft, hright, hne, hname, by simp⟩, by simp⟩

theorem IsMarker.filter {m name : List Char} (h : IsMarker m name) :
    m.filter isVariableChar = name := by
  obtain ⟨left, right, hleft, hright, -, hname, rfl⟩ := h
  have hspaces : ∀ s : List Char, (∀ c ∈ s, isSpace c = true) → s.filter isVariableChar = [] :=
    fun s hs => List.filter_eq_nil_iff.mpr fun c hc => by
      simp [not_isVariableChar_of_isSpace (hs c hc)]
  have hself : name.filter isVariableChar = name := List.filter_eq_self.mpr hname
  have hopen : ['{', '{'].filter isVariableChar = [] := by decide
  have hclose : ['}', '}'].filter isVariableChar = [] := by decide
  simp only [List.filter_append, hspaces left hleft, hspaces right hright, hself, hopen, hclose,
    List.nil_append, List.append_nil]

theorem IsMarker.ne_nil {m name : List Char} (h : IsMarker m name) : m ≠ [] := by
  obtain ⟨left, right, -, -, -, -, rfl⟩ := h
  simp

/-- Between its braces a marker has no braces, so that it does not overlap with itself. -/
theorem IsMarker.borderless {m name : List Char} (h : IsMarker m name) : Borderless m := by
  obtain ⟨left, right, hleft, hright, hne, hname, rfl⟩ := h
  have hmid : ∀ c ∈ left ++ (name ++ right), c ≠ '{' ∧ c ≠ '}' := fun c hc => by
    obtain hc | hc := List.mem_append.mp hc
    · exact not_brace_of_isSpace (hleft c hc)
    · obtain hc | hc := List.mem_append.mp hc
      · exact not_brace_of_isVariableChar (hname c hc)
      · exact not_brace_of_isSpace (hright c hc)
  have hmidne : left ++ (name ++ right) ≠ [] := by simp [hne]
  generalize left ++ (name ++ right) = mid at hmid hmidne
  intro u v hu hv heq hprefix
  obtain ⟨c, v, rfl⟩ := List.exists_cons_of_ne_nil hv
  obtain ⟨t, ht⟩ := hprefix
  obtain rfl : c = '{' := (List.cons.inj ht).1
  obtain ⟨a, u, rfl⟩ := List.exists_cons_of_ne_nil hu
  have heq' := (List.cons.inj heq).2
  cases u with
  | nil =>
      obtain ⟨b, mid, rfl⟩ := List.exists_cons_of_ne_nil hmidne
      have hv' : v = b :: mid ++ ['}', '}'] := (List.cons.inj heq').2.symm
      subst hv'
      exact (hmid b (List.mem_cons_self ..)).1 (List.cons.inj (List.cons.inj ht).2).1
  | cons b u =>
      have hmem : '{' ∈ mid ++ ['}', '}'] := by
        have hu' : mid ++ ['}', '}'] = u ++ '{' :: v := (List.cons.inj heq').2
        rw [hu']
        exact List.mem_append_right _ (List.mem_cons_self ..)
      obtain hmem | hmem := List.mem_append.mp hmem
      · exact (hmid _ hmem).1 rfl
      · simp at hmem

end Markers

/-! ## One replacement -/

section Replacement

variable {V : Type} [PyValue V]

/-- The text and the markers of a string, in order. -/
abbrev FormatPiece := Char ⊕ (List Char × Regex.Captures)

/-- The string form of the value of a marker. -/
def markerValue (values : VariableRef → V) (x : List Char × Regex.Captures) : List Char :=
  stringForm (values (toReference (x.2.get "name")))

/-- The text of a piece when some markers are replaced by the values of their variables. -/
def pieceText (values : VariableRef → V) (markers : List (List Char)) : FormatPiece → List Char
  | .inl c => [c]
  | .inr x => if x.1 ∈ markers then markerValue values x else x.1

/-- A string in which the variables with these markers are substituted, and nothing else. -/
def partly (values : VariableRef → V) (formatString : List Char) (markers : List (List Char)) :
    List Char :=
  (formatRegex.scan formatString).flatMap (pieceText values markers)

/-- The literal pieces of a string and the string forms of the values, in order. -/
def interpolated (values : VariableRef → V) (formatString : List Char) : List Char :=
  (formatRegex.scan formatString).flatMap fun
    | .inl c => [c]
    | .inr x => markerValue values x

/-- How many places a marker has. -/
def places (m : List Char) (pieces : List FormatPiece) : ℕ :=
  pieces.countP fun
    | .inl _ => false
    | .inr x => x.1 = m

variable {values : VariableRef → V} {m name text : List Char} {markers : List (List Char)}

theorem length_pieces (hmarkers : m ∉ markers) (pieces : List FormatPiece)
    (htext : ∀ x, .inr x ∈ pieces → x.1 = m → markerValue values x = text) :
    (pieces.flatMap (pieceText values (markers ++ [m]))).length + places m pieces * m.length
      = (pieces.flatMap (pieceText values markers)).length + places m pieces * text.length := by
  induction pieces with
  | nil => simp [places]
  | cons piece pieces ih =>
      have ih := ih fun x hx => htext x (List.mem_cons_of_mem piece hx)
      rw [List.flatMap_cons, List.flatMap_cons, List.length_append, List.length_append]
      cases piece with
      | inl c =>
          have hplaces : places m (.inl c :: pieces) = places m pieces := by simp [places]
          rw [hplaces]
          simp only [pieceText]
          omega
      | inr x =>
          by_cases hx : x.1 = m
          · have hplaces : places m (.inr x :: pieces) = places m pieces + 1 := by
              simp [places, hx]
            have hvalue := htext x (List.mem_cons_self ..) hx
            simp only [pieceText, hx, hmarkers, List.mem_append, List.mem_singleton, or_true,
              if_true, if_false, hvalue, hplaces, Nat.succ_mul]
            omega
          · have hplaces : places m (.inr x :: pieces) = places m pieces := by
              simp [places, hx]
            simp only [pieceText, hx, List.mem_append, List.mem_singleton, or_false, hplaces]
            omega

/-- A replacement leaves the text between the places alone if and only if the marker occurs as
often as it has places, or is replaced by itself. -/
theorem replaceAll_pieces (hm : IsMarker m name) (hmarkers : m ∉ markers)
    (pieces : List FormatPiece)
    (htext : ∀ x, .inr x ∈ pieces → x.1 = m → markerValue values x = text) (before : List Char) :
    places m pieces ≤ countText m (before ++ pieces.flatMap (pieceText values markers))
      ∧ (replaceAll m text (before ++ pieces.flatMap (pieceText values markers))
          = before ++ pieces.flatMap (pieceText values (markers ++ [m]))
        ↔ countText m (before ++ pieces.flatMap (pieceText values markers)) = places m pieces
          ∨ text = m) := by
  induction pieces generalizing before with
  | nil => simpa [places] using replaceAll_eq_self_iff hm.ne_nil
  | cons piece pieces ih =>
      have ih := ih fun x hx => htext x (List.mem_cons_of_mem piece hx)
      rw [List.flatMap_cons, List.flatMap_cons]
      by_cases hplace : ∃ c, piece = .inr (m, c)
      · obtain ⟨c, rfl⟩ := hplace
        obtain ⟨hle, hiff⟩ := ih []
        rw [List.nil_append, List.nil_append] at hiff
        rw [List.nil_append] at hle
        have hbefore : pieceText values markers (.inr (m, c)) = m := if_neg hmarkers
        have hafter : pieceText values (markers ++ [m]) (.inr (m, c)) = text :=
          (if_pos (List.mem_append_right _ (List.mem_singleton_self m))).trans
            (htext (m, c) (List.mem_cons_self ..) rfl)
        have hplaces : places m (.inr (m, c) :: pieces) = places m pieces + 1 := by
          simp [places]
        obtain ⟨hreplace, hcount⟩ := @replaceAll_cut _ _ m text hm.ne_nil hm.borderless before
          (pieces.flatMap (pieceText values markers))
        rw [hbefore, hafter, hplaces, hreplace, hcount]
        have hlength := length_pieces hmarkers pieces fun x hx =>
          htext x (List.mem_cons_of_mem _ hx)
        have hlengthBefore := @length_replaceAll _ _ m text hm.ne_nil before
        have hlengthAfter := @length_replaceAll _ _ m text hm.ne_nil
          (pieces.flatMap (pieceText values markers))
        refine ⟨by omega, fun heq => ?_, fun hor => ?_⟩
        · by_contra hnot
          obtain ⟨hne, htm⟩ := not_or.mp hnot
          -- too many occurrences change the length, unless the value is as long as the marker
          obtain ⟨e, he⟩ := Nat.exists_eq_add_of_le hle
          have hsum := congrArg List.length heq
          simp only [List.length_append] at hsum
          rw [he, Nat.add_mul, Nat.add_mul] at hlengthAfter
          have hmul : (countText m before + e) * m.length
              = (countText m before + e) * text.length := by
            rw [Nat.add_mul, Nat.add_mul]
            omega
          have hlen : m.length = text.length := Nat.eq_of_mul_eq_mul_left (by omega) hmul
          have hsame : (replaceAll m text before).length = before.length := by
            rw [hlen] at hlengthBefore
            omega
          obtain ⟨hstart, hrest⟩ := List.append_inj heq hsame
          have hzero := ((replaceAll_eq_self_iff hm.ne_nil).mp hstart).resolve_right htm
          have hplaces := (hiff.mp (List.append_cancel_left hrest)).resolve_right htm
          omega
        · have hstart : replaceAll m text before = before :=
            (replaceAll_eq_self_iff hm.ne_nil).mpr (hor.imp_left fun h => by omega)
          rw [hstart, hiff.mpr (hor.imp_left fun h => by omega)]
      · have hsame : pieceText values (markers ++ [m]) piece = pieceText values markers piece := by
          cases piece with
          | inl c => rfl
          | inr x =>
              have hne : x.1 ≠ m := fun heq => hplace ⟨x.2, by rw [← heq]⟩
              simp [pieceText, hne]
        have hplaces : places m (piece :: pieces) = places m pieces := by
          cases piece with
          | inl c => simp [places]
          | inr x =>
              have hne : x.1 ≠ m := fun heq => hplace ⟨x.2, by rw [← heq]⟩
              simp [places, hne]
        rw [hsame, hplaces, ← List.append_assoc, ← List.append_assoc]
        exact ih _

/-! ## All replacements -/

variable {formatString : List Char} {x : List Char × VariableRef}
  {order pre : List (List Char × VariableRef)}

omit [PyValue V] in
theorem mem_formatVariables : x ∈ formatVariables formatString
    ↔ ∃ c, .inr (x.1, c) ∈ formatRegex.scan formatString ∧ x.2 = toReference (c.get "name") := by
  rw [formatVariables, List.mem_map]
  constructor
  · rintro ⟨⟨m, c⟩, hmem, rfl⟩
    obtain ⟨piece, hpiece, hright⟩ := List.mem_filterMap.mp hmem
    obtain rfl := Sum.getRight?_eq_some_iff.mp hright
    exact ⟨c, hpiece, rfl⟩
  · rintro ⟨c, hpiece, hx⟩
    exact ⟨(x.1, c), List.mem_filterMap.mpr ⟨_, hpiece, rfl⟩, by rw [← hx]⟩

omit [PyValue V] in
theorem isMarker_of_piece {y : List Char × Regex.Captures}
    (hy : .inr y ∈ formatRegex.scan formatString) :
    IsMarker y.1 (y.2.get "name") ∧ y.2.get "name" = y.1.filter isVariableChar := by
  obtain ⟨name, hname, hc⟩ := (Regex.scan_spec spells_formatRegex formatString).2 y hy
  have hget : y.2.get "name" = name := by
    rw [hc]
    rfl
  rw [hget]
  exact ⟨hname, hname.filter.symm⟩

/-- A marker is replaced by the value of its variable. -/
theorem markerValue_eq (hx : x ∈ formatVariables formatString)
    {y : List Char × Regex.Captures} (hy : .inr y ∈ formatRegex.scan formatString)
    (hxy : y.1 = x.1) : markerValue values y = stringForm (values x.2) := by
  obtain ⟨c, hc, href⟩ := mem_formatVariables.mp hx
  have hname : y.2.get "name" = c.get "name" := by
    rw [(isMarker_of_piece hy).2, (isMarker_of_piece hc).2, hxy]
  rw [markerValue, hname, ← href]

/-- Apart from its places, the marker does not occur in the string, or it is replaced by itself. -/
def OnlyInPlaces (values : VariableRef → V) (formatString : List Char)
    (markers : List (List Char)) (x : List Char × VariableRef) : Prop :=
  countText x.1 (partly values formatString markers)
      = (if x.1 ∈ markers then 0 else places x.1 (formatRegex.scan formatString))
    ∨ stringForm (values x.2) = x.1

theorem replaceAll_partly (hx : x ∈ formatVariables formatString) :
    replaceAll x.1 (stringForm (values x.2)) (partly values formatString markers)
        = partly values formatString (markers ++ [x.1])
      ↔ OnlyInPlaces values formatString markers x := by
  obtain ⟨c, hc, -⟩ := mem_formatVariables.mp hx
  have hm := (isMarker_of_piece hc).1
  rw [OnlyInPlaces]
  by_cases hmem : x.1 ∈ markers
  · have hsame : partly values formatString (markers ++ [x.1])
        = partly values formatString markers := by
      refine congrArg (List.flatMap · _) (funext fun piece => ?_)
      cases piece with
      | inl c => rfl
      | inr y =>
          by_cases hy : y.1 = x.1
          · simp [pieceText, hy, hmem]
          · simp [pieceText, hy]
    rw [hsame, if_pos hmem]
    exact replaceAll_eq_self_iff hm.ne_nil
  · rw [if_neg hmem]
    exact (replaceAll_pieces hm hmem (formatRegex.scan formatString)
      (fun y hy hyx => markerValue_eq hx hy hyx) []).2

theorem partly_nil : partly values formatString [] = formatString := by
  rw [partly]
  refine Eq.trans ?_ (Regex.scan_spec spells_formatRegex formatString).1
  refine congrArg (List.flatMap · _) (funext fun piece => ?_)
  cases piece with
  | inl c => rfl
  | inr y => simp [pieceText]

theorem partly_all (h : ∀ y, .inr y ∈ formatRegex.scan formatString → y.1 ∈ markers) :
    partly values formatString markers = interpolated values formatString := by
  refine List.flatMap_congr fun piece hpiece => ?_
  cases piece with
  | inl c => rfl
  | inr y => exact if_pos (h y hpiece)

/-- The string after some replacements. -/
theorem resolve_concat (vars : List (List Char × VariableRef)) :
    StringFormat.resolve (fun r => .value (values r)) formatString (vars ++ [x])
      = (StringFormat.resolve (fun r => .value (values r)) formatString vars).map
          (replaceAll x.1 (stringForm (values x.2))) := by
  have happend : StringFormat.resolve (fun r => .value (values r)) formatString (vars ++ [x])
      = StringFormat.resolve (fun r => .value (values r)) formatString vars >>= fun s =>
          StringFormat.resolve (fun r => .value (values r)) s [x] := List.foldlM_append
  rw [happend]
  cases StringFormat.resolve (fun r => .value (values r)) formatString vars with
  | error e => rfl
  | ok s => rfl

/-- In every step only the marker of the variable is substituted, and in the end the string is
the literal pieces and the string forms of the values. -/
structure Simultaneous (values : VariableRef → V) (formatString : List Char)
    (order : List (List Char × VariableRef)) : Prop where
  result : StringFormat.resolve (fun r => .value (values r)) formatString order
    = .ok (interpolated values formatString)
  steps : ∀ pre post, order = pre ++ post →
    StringFormat.resolve (fun r => .value (values r)) formatString pre
      = .ok (partly values formatString (pre.map Prod.fst))

theorem simultaneous_iff (horder : order.Perm (formatVariables formatString)) :
    Simultaneous values formatString order ↔ ∀ pre x post, order = pre ++ x :: post →
      OnlyInPlaces values formatString (pre.map Prod.fst) x := by
  have hstep : ∀ pre x post, order = pre ++ x :: post →
      StringFormat.resolve (fun r => .value (values r)) formatString pre
        = .ok (partly values formatString (pre.map Prod.fst)) →
      (StringFormat.resolve (fun r => .value (values r)) formatString (pre ++ [x])
          = .ok (partly values formatString ((pre ++ [x]).map Prod.fst))
        ↔ OnlyInPlaces values formatString (pre.map Prod.fst) x) := by
    intro pre x post heq hpre
    have hx : x ∈ formatVariables formatString :=
      horder.mem_iff.mp (heq ▸ List.mem_append_right _ (List.mem_cons_self ..))
    rw [resolve_concat, hpre, List.map_append, ← replaceAll_partly hx]
    exact ⟨fun h => Except.ok.inj h, fun h => congrArg Except.ok h⟩
  constructor
  · intro h pre x post heq
    exact (hstep pre x post heq (h.steps pre _ heq)).mp
      (h.steps (pre ++ [x]) post (by rw [heq, List.append_assoc]; rfl))
  · intro h
    have hsteps : ∀ pre post, order = pre ++ post →
        StringFormat.resolve (fun r => .value (values r)) formatString pre
          = .ok (partly values formatString (pre.map Prod.fst)) := by
      intro pre
      induction pre using List.reverseRecOn with
      | nil => exact fun post _ => congrArg Except.ok partly_nil.symm
      | append_singleton pre x ih =>
          intro post heq
          have heq' : order = pre ++ x :: post := by rw [heq, List.append_assoc]; rfl
          exact (hstep pre x post heq' (ih _ heq')).mpr (h pre x post heq')
    refine ⟨?_, hsteps⟩
    rw [hsteps order [] (List.append_nil order).symm, partly_all fun y hy => ?_]
    have hmem : (y.1, toReference (y.2.get "name")) ∈ formatVariables formatString :=
      mem_formatVariables.mpr ⟨y.2, hy, rfl⟩
    exact List.mem_map.mpr ⟨_, horder.mem_iff.mpr hmem, rfl⟩

/-! ## Filling in fields -/

/-- The literals of an f-string and the string forms of the values of its fields. -/
def fstringInterpolated (values : VariableRef → V) (pieces : List FStringPiece) : List Char :=
  pieces.flatMap fun piece => piece.1 ++ match piece.2 with
    | none => []
    | some name => stringForm (values (toReference name))

/-- The fields that the parser finds. -/
def foundFields (pieces : List FStringPiece) : List (List Char) :=
  (fstringVariables pieces).map Prod.fst

theorem vformat_eq_ok_iff {kwargs : Dict (List Char) V} {names : List (List Char)}
    (hnil : [] ∉ names)
    (hkwargs : ∀ name, kwargs.get? name
      = if name ∈ names then some (PyValue.integral (values (toReference name))) else none)
    (pieces : List FStringPiece) :
    vformat kwargs pieces = .ok (fstringInterpolated values pieces)
      ↔ ∀ text name, (text, some name) ∈ pieces → name ∈ names := by
  induction pieces with
  | nil => simp [vformat, fstringInterpolated]
  | cons piece pieces ih =>
      have hforall : (∀ text name, (text, some name) ∈ piece :: pieces → name ∈ names)
          ↔ (∀ name, piece.2 = some name → name ∈ names)
            ∧ ∀ text name, (text, some name) ∈ pieces → name ∈ names := by
        constructor
        · exact fun h => ⟨fun name hname => h piece.1 name (hname ▸ List.mem_cons_self ..),
            fun text name hmem => h text name (List.mem_cons_of_mem _ hmem)⟩
        · rintro ⟨hpiece, hpieces⟩ text name hmem
          obtain rfl | hmem := List.mem_cons.mp hmem
          · exact hpiece name rfl
          · exact hpieces text name hmem
      rw [hforall, ← ih]
      have hcons : fstringInterpolated values (piece :: pieces)
          = (piece.1 ++ match piece.2 with
              | none => []
              | some name => stringForm (values (toReference name)))
            ++ fstringInterpolated values pieces := List.flatMap_cons
      have hrest : ∀ s : List Char,
          (vformat kwargs pieces >>= fun rest => .ok (s ++ rest))
              = .ok (s ++ fstringInterpolated values pieces)
            ↔ vformat kwargs pieces = .ok (fstringInterpolated values pieces) := fun s => by
        cases vformat kwargs pieces with
        | error e => exact iff_of_false (fun h => by cases h) fun h => by cases h
        | ok rest =>
            exact ⟨fun h => congrArg Except.ok (List.append_cancel_left (Except.ok.inj h)),
              fun h => congrArg (fun rest => Except.ok (s ++ rest)) (Except.ok.inj h)⟩
      obtain ⟨text, _ | name⟩ := piece
      · rw [hcons, List.append_nil]
        refine (hrest text).trans (and_iff_right fun name hname => ?_).symm
        cases hname
      · cases name with
        | nil =>
            refine iff_of_false (fun h => by cases h) fun h => hnil (h.1 [] rfl)
        | cons c name =>
            have hget := hkwargs (c :: name)
            by_cases hmem : c :: name ∈ names
            · rw [if_pos hmem] at hget
              have hvformat : vformat kwargs ((text, some (c :: name)) :: pieces)
                  = vformat kwargs pieces >>= fun rest =>
                    .ok (text ++ stringForm (values (toReference (c :: name))) ++ rest) := by
                simp only [vformat, hget]
                rfl
              rw [hcons, hvformat]
              refine (hrest _).trans (and_iff_right fun name' hname => ?_).symm
              obtain rfl := Option.some.inj hname
              exact hmem
            · rw [if_neg hmem] at hget
              have hvformat : vformat kwargs ((text, some (c :: name)) :: pieces)
                  = .error (.keyError (c :: name)) := by
                simp only [vformat, hget]
              rw [hvformat]
              exact iff_of_false (fun h => by cases h) fun h => hmem (h.1 _ rfl)

theorem nil_not_mem_foundFields (pieces : List FStringPiece) : [] ∉ foundFields pieces := by
  rw [foundFields]
  induction pieces using fstringVariables.induct with
  | case1 text c name pieces ih =>
      rw [fstringVariables, List.map_cons, List.mem_cons]
      exact fun h => h.elim (fun h => by cases h) ih
  | case2 pieces h =>
      rw [fstringVariables]
      · exact List.not_mem_nil
      · exact h

theorem kwargs_spec (vars : List (List Char × VariableRef))
    (hvars : ∀ x ∈ vars, x.2 = toReference x.1) :
    ∃ kwargs : Dict (List Char) V, vars.foldlM (fun (kwargs : Dict (List Char) V) x => do
        let value ← resolveValue (.value (values x.2))
        return kwargs.set x.1 value) .empty = Except.ok kwargs
      ∧ ∀ name, kwargs.get? name = if name ∈ vars.map Prod.fst then
          some (PyValue.integral (values (toReference name))) else none := by
  induction vars using List.reverseRecOn with
  | nil => exact ⟨.empty, rfl, fun name => rfl⟩
  | append_singleton vars x ih =>
      obtain ⟨kwargs, hkwargs, hget⟩ := ih fun y hy => hvars y (List.mem_append_left _ hy)
      refine ⟨kwargs.set x.1 (PyValue.integral (values x.2)), ?_, fun name => ?_⟩
      · rw [List.foldlM_append, hkwargs]
        rfl
      · rw [Dict.get?_set, hget, List.map_append, List.map_singleton]
        by_cases hname : name = x.1
        · have hx := hvars x (List.mem_append_right _ (List.mem_singleton_self x))
          simp [hname, hx]
        · have hmem : name ∈ vars.map Prod.fst ++ [x.1] ↔ name ∈ vars.map Prod.fst := by
            simp [hname]
          rw [if_neg hname]
          exact if_congr hmem.symm rfl rfl

theorem toReference_of_found (pieces : List FStringPiece) :
    ∀ x ∈ fstringVariables pieces, x.2 = toReference x.1 := by
  induction pieces using fstringVariables.induct with
  | case1 text c name pieces ih =>
      rw [fstringVariables]
      exact List.forall_mem_cons.mpr ⟨rfl, ih⟩
  | case2 pieces h =>
      rw [fstringVariables]
      · exact fun x hx => absurd hx List.not_mem_nil
      · exact h

theorem fstring_iff (values : VariableRef → V) (pieces : List FStringPiece) :
    StringFormatV2.resolve (fun r => .value (values r)) pieces
        = .ok (fstringInterpolated values pieces)
      ↔ ∀ text name, (text, some name) ∈ pieces → name ∈ foundFields pieces := by
  obtain ⟨kwargs, hkwargs, hget⟩ := @kwargs_spec V _ values (fstringVariables pieces)
    (toReference_of_found pieces)
  rw [StringFormatV2.resolve, hkwargs]
  exact vformat_eq_ok_iff (nil_not_mem_foundFields pieces) hget pieces

/-- **Interpolation is a simultaneous substitution, in whatever order the variables are replaced,
if and only if no marker occurs outside its places when its turn comes. An f-string is filled in
if and only if every field was found.** -/
theorem interpolation_is_simultaneous_iff (values : VariableRef → V) :
    (∀ formatString order, order.Perm (formatVariables formatString) →
      (Simultaneous values formatString order ↔ ∀ pre x post, order = pre ++ x :: post →
        OnlyInPlaces values formatString (pre.map Prod.fst) x))
    ∧ ∀ formatString pieces, parseFString (.literal []) formatString = .ok pieces →
        (StringFormatV2.resolve (fun r => .value (values r)) pieces
            = .ok (fstringInterpolated values pieces)
          ↔ ∀ text name, (text, some name) ∈ pieces → name ∈ foundFields pieces) :=
  ⟨fun _ _ horder => simultaneous_iff horder, fun _ pieces _ => fstring_iff values pieces⟩

end Replacement

/-! ## Strings -/

instance : PyValue (List Char) where
  str s := s
  integral s := s

/-- The values of `a` and `b`. -/
def valuesOf (a b : List Char) (r : VariableRef) : List Char :=
  if r = [['a']] then a else b

def field (name : String) : List Char := ['{'] ++ name.toList ++ ['}']

def marker (name : String) : List Char := ['{'] ++ field name ++ ['}']

theorem interpolated_backwards :
    Simultaneous (valuesOf (field "a") ['{', '{']) (marker "a" ++ marker " b ")
        (formatVariables (marker "a" ++ marker " b ")).reverse
      ∧ StringFormatV2.resolve (fun r => .value (valuesOf (field "b") (marker "a") r))
          [([], some ['a']), ([','], some ['b'])] = .ok (field "b" ++ [','] ++ marker "a") := by
  refine ⟨((interpolation_is_simultaneous_iff _).1 _ _ (List.reverse_perm _)).mpr ?_,
    ((interpolation_is_simultaneous_iff _).2 (field "a" ++ [','] ++ field "b")
      [([], some ['a']), ([','], some ['b'])] (by decide +kernel)).mpr ?_⟩
  · have horder : (formatVariables (marker "a" ++ marker " b ")).reverse
        = [(marker " b ", [['b']]), (marker "a", [['a']])] := by decide +kernel
    rw [horder]
    rintro (_ | ⟨y, _ | ⟨z, pre⟩⟩) x post heq
    · obtain ⟨rfl, -⟩ := List.cons.inj heq
      exact .inl (by decide +kernel)
    · obtain ⟨rfl, htail⟩ := List.cons.inj heq
      obtain ⟨rfl, -⟩ := List.cons.inj htail
      exact .inl (by decide +kernel)
    · have hlength := congrArg List.length heq
      simp at hlength
  · intro text name hmem
    obtain hmem | hmem := List.mem_cons.mp hmem
    · obtain rfl := Option.some.inj (Prod.mk.inj hmem).2
      exact List.mem_cons_self ..
    · obtain rfl := Option.some.inj (Prod.mk.inj (List.mem_singleton.mp hmem)).2
      exact List.mem_cons_of_mem _ (List.mem_cons_self ..)

/-- The value of `a` is the marker of `b`, and is replaced when `a` comes first. -/
theorem value_is_replaced :
    ¬ ∀ (values : VariableRef → List Char) (formatString : List Char),
      StringFormat.resolve (fun r => .value (values r)) formatString
        (formatVariables formatString) = .ok (interpolated values formatString) := by
  intro h
  have h := h (valuesOf (marker "b") ['x']) (marker "a" ++ marker "b")
  revert h
  decide +kernel

/-- An escaped brace hides the fields after it. -/
theorem field_is_not_found : ∃ pieces,
    parseFString (.literal []) (['{', '{'] ++ field "a") = .ok pieces
      ∧ StringFormatV2.resolve (fun r => .value (valuesOf ['1'] ['2'] r)) pieces
        = .error (.keyError ['a']) :=
  ⟨[(['{'], none), ([], some ['a'])], by decide +kernel⟩

end Inmanta
