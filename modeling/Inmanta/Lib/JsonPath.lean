import Inmanta.Lib.Tree
import Mathlib.Tactic.Common

/-!
# Json paths

The part of the path language that names one location: a plain name or the
root, followed by indices and quoted names. A plain name is an identifier that
is not the name of an operator. In a quoted name a backslash stands for the
character after it.

`JsonPath` is a parser of which only this is known. Operators, wildcards,
slices and filters give expressions that are no location, so nothing is said of
them. `JsonPath.scanner` is such a parser.
-/

namespace Inmanta

/-- The names that are operators. -/
def reservedWords : List (List Char) :=
  ["parent".toList, "where".toList, "wherenot".toList]

def isNameStart (c : Char) : Bool := c.isAlpha || c == '_' || c == '@'

def isNamePart (c : Char) : Bool := c.isAlphanum || c == '_' || c == '@' || c == '-'

def Identifier (n : List Char) : Prop :=
  ∃ c cs, n = c :: cs ∧ isNameStart c = true ∧ ∀ x ∈ cs, isNamePart x = true

/-- What is read as the name of a field without quotes. -/
def PlainName (n : List Char) : Prop := Identifier n ∧ n ∉ reservedWords

/-- What stands between the quotes, and the name it is read as. -/
inductive Quoted : List Char → List Char → Prop where
  | nil : Quoted [] []
  | char {c : Char} {q n : List Char} (quote : c ≠ '\'') (backslash : c ≠ '\\')
      (rest : Quoted q n) : Quoted (c :: q) (c :: n)
  | escape {c : Char} {q n : List Char} (newline : c ≠ '\n') (rest : Quoted q n) :
      Quoted ('\\' :: c :: q) (c :: n)

/-- A parser of json paths, by the location that a path names. A quoted star is
no exception to the wildcard. -/
structure JsonPath where
  parse : List Char → Option (Location (List Char))
  root : parse ['$'] = some []
  name : ∀ {n}, PlainName n → parse n = some [.field n]
  index : ∀ {p l} (i : ℕ), parse p = some l →
    parse (p ++ '[' :: (Nat.toDigits 10 i ++ [']'])) = some (l ++ [.index i])
  quoted : ∀ {p l q n}, parse p = some l → Quoted q n → n ≠ ['*'] →
    parse (p ++ '.' :: '\'' :: (q ++ ['\''])) = some (l ++ [.field n])
  /-- An operator is no location, and does not lead to one. -/
  reserved : ∀ {n rest}, n ∈ reservedWords → (∀ c ∈ rest.head?, isNamePart c = false) →
    parse (n ++ rest) = none
  /-- A quoted name ends at the first quote that is not escaped, and what comes
  after it goes on from there. -/
  quoted_prefix : ∀ {p base rest l}, parse p = some base →
    parse (p ++ '.' :: '\'' :: rest) = some l →
    ∃ q n rest' l', rest = q ++ '\'' :: rest' ∧ Quoted q n ∧ n ≠ ['*'] ∧
      l = base ++ .field n :: l'

/-- Before a quote nothing is quoted. -/
theorem Quoted.of_quote {q n rest rest' : List Char} (h : Quoted q n)
    (heq : '\'' :: rest = q ++ '\'' :: rest') : q = [] ∧ n = [] := by
  cases h with
  | nil => exact ⟨rfl, rfl⟩
  | char quote backslash _ => exact absurd (List.cons.inj heq).1.symm quote
  | escape newline _ => exact absurd (List.cons.inj heq).1 (by decide)

namespace JsonPath

/-! ## A parser -/

/-- How far a path has been read. -/
inductive Scan where
  | start
  | name (n : List Char)
  | done (l : Location (List Char))
  | dot (l : Location (List Char))
  | quoted (l : Location (List Char)) (n : List Char)
  | escaped (l : Location (List Char)) (n : List Char)
  | index (l : Location (List Char)) (i : ℕ)
  | error

namespace Scan

section

local instance lawfulName : LawfulBEq (List Char) := inferInstance

/-- The location, where the path may end. -/
def location : Scan → Option (Location (List Char))
  | name n => if n ∈ reservedWords then none else some [.field n]
  | done l => some l
  | _ => none

end

/-- Another step starts. -/
def operator (l : Location (List Char)) (c : Char) : Scan :=
  if c = '[' then index l 0 else if c = '.' then dot l else error

def step : Scan → Char → Scan
  | start, c => if c = '$' then done [] else if isNameStart c then name [c] else error
  | name n, c =>
      if isNamePart c then name (n ++ [c]) else ((name n).location.map (operator · c)).getD error
  | done l, c => operator l c
  | dot l, c => if c = '\'' then quoted l [] else error
  | quoted l n, c =>
      if c = '\'' then (if n = ['*'] then error else done (l ++ [.field n]))
      else if c = '\\' then escaped l n else quoted l (n ++ [c])
  | escaped l n, c => if c = '\n' then error else quoted l (n ++ [c])
  | index l i, c =>
      if c.isDigit then index l (10 * i + (c.toNat - '0'.toNat))
      else if c = ']' then done (l ++ [.index i]) else error
  | error, _ => error

/-- After a location only an index or a name in quotes goes on. -/
theorem step_location {s : Scan} {l : Location (List Char)} (h : s.location = some l) {c : Char}
    (hc : isNamePart c = false) : s.step c = operator l c := by
  cases s with
  | name n => rw [step, hc, if_neg Bool.false_ne_true, h]; rfl
  | done l' =>
      injection h with h
      rw [step, h]
  | _ => cases h

theorem foldl_name {cs : List Char} (h : ∀ x ∈ cs, isNamePart x = true) (n : List Char) :
    cs.foldl step (name n) = name (n ++ cs) := by
  induction cs generalizing n with
  | nil => rw [List.append_nil, List.foldl_nil]
  | cons c cs ih =>
      rw [List.foldl_cons, step, if_pos (h c List.mem_cons_self),
        ih fun x hx => h x (List.mem_cons_of_mem c hx), List.append_assoc, List.singleton_append]

theorem foldl_index {cs : List Char} (h : ∀ x ∈ cs, x.isDigit = true) (l : Location (List Char))
    (i : ℕ) : cs.foldl step (index l i) = index l (Nat.ofDigitChars 10 cs i) := by
  induction cs generalizing i with
  | nil => rfl
  | cons c cs ih =>
      rw [List.foldl_cons, step, if_pos (h c List.mem_cons_self),
        ih fun x hx => h x (List.mem_cons_of_mem c hx), Nat.ofDigitChars_cons]

theorem foldl_quoted {q n : List Char} (h : Quoted q n) (l : Location (List Char))
    (m : List Char) : q.foldl step (quoted l m) = quoted l (m ++ n) := by
  induction h generalizing m with
  | nil => rw [List.append_nil, List.foldl_nil]
  | char quote backslash rest ih =>
      rw [List.foldl_cons, step, if_neg quote, if_neg backslash, ih, List.append_assoc,
        List.singleton_append]
  | escape newline rest ih =>
      rw [List.foldl_cons, List.foldl_cons, step, if_neg (by decide), if_pos rfl, step,
        if_neg newline, ih, List.append_assoc, List.singleton_append]

theorem foldl_error (cs : List Char) : cs.foldl step error = error := by
  induction cs with
  | nil => rfl
  | cons c cs ih => exact ih

/-- The location that the rest goes on from. -/
def base : Scan → Option (Location (List Char))
  | done l | dot l | quoted l _ | escaped l _ | index l _ => some l
  | _ => none

theorem base_operator (l : Location (List Char)) (c : Char) :
    operator l c = error ∨ (operator l c).base = some l := by
  rw [operator]
  split_ifs
  · exact .inr rfl
  · exact .inr rfl
  · exact .inl rfl

theorem base_step {s : Scan} {l : Location (List Char)} (h : s.base = some l) (c : Char) :
    s.step c = error ∨ ∃ l', (s.step c).base = some (l ++ l') := by
  cases s with
  | start => cases h
  | name n => cases h
  | error => cases h
  | done l' =>
      injection h with h
      subst h
      refine (base_operator l' c).imp_right fun h => ⟨[], ?_⟩
      rw [List.append_nil]
      exact h
  | dot l' =>
      injection h with h
      subst h
      rw [step]
      split_ifs
      · exact .inr ⟨[], by rw [List.append_nil]; rfl⟩
      · exact .inl rfl
  | quoted l' n =>
      injection h with h
      subst h
      rw [step]
      split_ifs
      · exact .inl rfl
      · exact .inr ⟨_, rfl⟩
      · exact .inr ⟨[], by rw [List.append_nil]; rfl⟩
      · exact .inr ⟨[], by rw [List.append_nil]; rfl⟩
  | escaped l' n =>
      injection h with h
      subst h
      rw [step]
      split_ifs
      · exact .inl rfl
      · exact .inr ⟨[], by rw [List.append_nil]; rfl⟩
  | index l' i =>
      injection h with h
      subst h
      rw [step]
      split_ifs
      · exact .inr ⟨[], by rw [List.append_nil]; rfl⟩
      · exact .inr ⟨_, rfl⟩
      · exact .inl rfl

/-- The rest of a path goes on from what has been read. -/
theorem location_foldl {cs : List Char} {s : Scan} {l l' : Location (List Char)}
    (h : s.base = some l) (hl : (cs.foldl step s).location = some l') :
    ∃ l'', l' = l ++ l'' := by
  induction cs generalizing s l with
  | nil =>
      cases s with
      | done l₁ =>
          injection h with h
          injection hl with hl
          exact ⟨[], by rw [← h, ← hl, List.append_nil]⟩
      | name n => cases h
      | _ => cases hl
  | cons c cs ih =>
      rw [List.foldl_cons] at hl
      obtain herror | ⟨l₁, hbase⟩ := base_step h c
      · rw [herror, foldl_error] at hl
        cases hl
      · obtain ⟨l₂, rfl⟩ := ih hbase hl
        exact ⟨l₁ ++ l₂, by rw [List.append_assoc]⟩

/-- In quotes, a location is only reached past the end of the name. -/
theorem location_quoted {l l' : Location (List Char)} : ∀ (rest m : List Char),
    (rest.foldl step (quoted l m)).location = some l' →
    ∃ q n rest' l'', rest = q ++ '\'' :: rest' ∧ Quoted q n ∧ m ++ n ≠ ['*'] ∧
      l' = l ++ .field (m ++ n) :: l''
  | [], m, h => by cases h
  | c :: rest, m, h => by
      by_cases hquote : c = '\''
      · subst hquote
        rw [List.foldl_cons, step, if_pos rfl] at h
        by_cases hstar : m = ['*']
        · rw [if_pos hstar, foldl_error] at h
          cases h
        · rw [if_neg hstar] at h
          obtain ⟨l'', rfl⟩ := location_foldl (s := done _) rfl h
          refine ⟨[], [], rest, l'', rfl, .nil, ?_, ?_⟩
          · rwa [List.append_nil]
          · rw [List.append_nil, List.append_assoc]
            rfl
      · rw [List.foldl_cons, step, if_neg hquote] at h
        by_cases hbackslash : c = '\\'
        · subst hbackslash
          rw [if_pos rfl] at h
          match rest, h with
          | [], h => cases h
          | d :: rest, h =>
              rw [List.foldl_cons, step] at h
              by_cases hnewline : d = '\n'
              · rw [if_pos hnewline, foldl_error] at h
                cases h
              · rw [if_neg hnewline] at h
                obtain ⟨q, n, rest', l'', rfl, hq, hstar, hl⟩ := location_quoted rest _ h
                rw [List.append_assoc, List.singleton_append] at hstar hl
                exact ⟨_, _, rest', l'', rfl, .escape hnewline hq, hstar, hl⟩
        · rw [if_neg hbackslash] at h
          obtain ⟨q, n, rest', l'', rfl, hq, hstar, hl⟩ := location_quoted rest _ h
          rw [List.append_assoc, List.singleton_append] at hstar hl
          exact ⟨_, _, rest', l'', rfl, .char hquote hbackslash hq, hstar, hl⟩

theorem foldl_reserved {n : List Char} (h : n ∈ reservedWords) : n.foldl step start = name n := by
  rcases List.mem_cons.mp h with rfl | h
  · rfl
  rcases List.mem_cons.mp h with rfl | h
  · rfl
  cases List.mem_singleton.mp h
  rfl

end Scan

open Scan in
/-- Reads a path from left to right. -/
def scanner : JsonPath where
  parse p := (p.foldl step start).location
  root := rfl
  name := by
    rintro _ ⟨⟨c, cs, rfl, hc, hcs⟩, hreserved⟩
    have hdollar : c ≠ '$' := by
      rintro rfl
      exact absurd hc (by decide)
    rw [List.foldl_cons, step, if_neg hdollar, if_pos hc, foldl_name hcs, location,
      List.singleton_append, if_neg hreserved]
  index := by
    intro p l i h
    have hdigits : ∀ x ∈ Nat.toDigits 10 i, x.isDigit = true := fun x hx =>
      Nat.isDigit_of_mem_toDigits (by decide) (by decide) hx
    rw [List.foldl_append, List.foldl_cons, step_location h (by decide), operator, if_pos rfl,
      List.foldl_append, foldl_index hdigits, Nat.ofDigitChars_ten_toDigits]
    rfl
  quoted := by
    intro p l q n h hq hstar
    rw [List.foldl_append, List.foldl_cons, List.foldl_cons, step_location h (by decide), operator,
      if_neg (by decide), if_pos rfl, step, if_pos rfl, List.foldl_append, foldl_quoted hq,
      List.nil_append, List.foldl_cons, step, if_pos rfl, if_neg hstar]
    rfl
  reserved := by
    intro n rest hn hrest
    rw [List.foldl_append, foldl_reserved hn]
    cases rest with
    | nil => rw [List.foldl_nil, location, if_pos hn]
    | cons c rest =>
        have hc : isNamePart c = false := hrest c rfl
        rw [List.foldl_cons, step, hc, if_neg Bool.false_ne_true, location, if_pos hn,
          Option.map_none, Option.getD_none, foldl_error]
        rfl
  quoted_prefix := by
    intro p base rest l h hl
    rw [List.foldl_append, List.foldl_cons, List.foldl_cons, step_location h (by decide), operator,
      if_neg (by decide), if_pos rfl, step, if_pos rfl] at hl
    exact location_quoted rest [] hl

end JsonPath

end Inmanta
