import Mathlib.Data.List.DropRight

/-!
# Lines and columns

Where a reader of a text is, from what is before: on which line, and how far into
it. Lines end with `'\n'` and count from one, as columns do.
-/

namespace Inmanta

namespace TextPosition

variable {s w : List Char}

def lineNumber (s : List Char) : ℕ := 1 + s.count '\n'

/-- What follows the last line end. -/
def lastLine (s : List Char) : List Char := s.rtakeWhile (· ≠ '\n')

/-- The offset just after the last line end. -/
def lineStart (s : List Char) : ℕ := s.length - (lastLine s).length

def column (s : List Char) : ℕ := (lastLine s).length + 1

theorem lastLine_length_le (s : List Char) : (lastLine s).length ≤ s.length :=
  (List.rtakeWhile_suffix _ _).length_le

theorem lineStart_le (s : List Char) : lineStart s ≤ s.length := Nat.sub_le ..

theorem column_eq (s : List Char) : column s = s.length - lineStart s + 1 := by
  have := lastLine_length_le s
  rw [column, lineStart]
  omega

theorem lineNumber_append (s w : List Char) :
    lineNumber (s ++ w) = lineNumber s + w.count '\n' := by
  rw [lineNumber, lineNumber, List.count_append, Nat.add_assoc]

theorem lastLine_of_notMem (h : '\n' ∉ s) : lastLine s = s :=
  List.rtakeWhile_eq_self_iff.mpr fun _ hx => decide_eq_true fun heq => h (heq ▸ hx)

theorem lastLine_append_of_notMem (s : List Char) (h : '\n' ∉ w) :
    lastLine (s ++ w) = lastLine s ++ w := by
  rw [lastLine, List.rtakeWhile, List.reverse_append, List.takeWhile_append_of_pos,
    List.reverse_append, List.reverse_reverse]
  · rfl
  · exact fun x hx => decide_eq_true fun heq => h (heq ▸ List.mem_reverse.mp hx)

theorem lastLine_append_newline (s : List Char) (h : '\n' ∉ w) :
    lastLine (s ++ '\n' :: w) = w := by
  rw [List.append_cons, lastLine_append_of_notMem _ h, lastLine,
    List.rtakeWhile_concat_neg _ _ _ (by simp), List.nil_append]

/-- Everything up to the last line end, and what follows it. -/
theorem exists_lastLine (h : '\n' ∈ s) : ∃ a w, s = a ++ '\n' :: w ∧ '\n' ∉ w := by
  induction s using List.reverseRecOn with
  | nil => cases h
  | append_singleton s c ih =>
      by_cases hc : c = '\n'
      · exact ⟨s, [], by rw [hc], List.not_mem_nil⟩
      · have hs : '\n' ∈ s := by
          rcases List.mem_append.mp h with hs | hs
          · exact hs
          · exact absurd (List.mem_singleton.mp hs).symm hc
        obtain ⟨a, w, rfl, hw⟩ := ih hs
        refine ⟨a, w ++ [c], by rw [List.append_assoc, List.cons_append], fun hmem => ?_⟩
        rcases List.mem_append.mp hmem with hmem | hmem
        · exact hw hmem
        · exact hc (List.mem_singleton.mp hmem).symm

theorem lastLine_append_of_mem (s : List Char) (h : '\n' ∈ w) :
    lastLine (s ++ w) = lastLine w := by
  obtain ⟨a, v, rfl, hv⟩ := exists_lastLine h
  rw [← List.append_assoc, lastLine_append_newline _ hv, lastLine_append_newline _ hv]

theorem lastLine_length_lt (h : '\n' ∈ s) : (lastLine s).length < s.length := by
  obtain ⟨a, w, rfl, hw⟩ := exists_lastLine h
  rw [lastLine_append_newline _ hw, List.length_append, List.length_cons]
  omega

theorem column_append_of_notMem (s : List Char) (h : '\n' ∉ w) :
    column (s ++ w) = column s + w.length := by
  rw [column, column, lastLine_append_of_notMem s h, List.length_append]
  omega

theorem column_append_of_mem (s : List Char) (h : '\n' ∈ w) : column (s ++ w) = column w := by
  rw [column, column, lastLine_append_of_mem s h]

theorem lineStart_append_of_notMem (s : List Char) (h : '\n' ∉ w) :
    lineStart (s ++ w) = lineStart s := by
  rw [lineStart, lineStart, lastLine_append_of_notMem s h, List.length_append, List.length_append]
  omega

theorem lineStart_append_newline (s : List Char) :
    lineStart (s ++ ['\n']) = (s ++ ['\n']).length := by
  rw [lineStart, lastLine_append_newline s List.not_mem_nil]
  rfl

/-- A line end moves the start of the line. -/
theorem length_lt_lineStart (s : List Char) (h : '\n' ∈ w) :
    s.length < lineStart (s ++ w) := by
  have := lastLine_length_lt h
  rw [lineStart, lastLine_append_of_mem s h, List.length_append]
  omega

/-! ## Splitting at line ends -/

/-- `s.split("\n")` -/
def splitLines : List Char → List (List Char)
  | [] => [[]]
  | c :: s =>
      if c = '\n' then [] :: splitLines s
      else
        match splitLines s with
        | line :: lines => (c :: line) :: lines
        | [] => [[c]]

theorem splitLines_ne_nil : ∀ s : List Char, splitLines s ≠ []
  | [] => List.cons_ne_nil _ _
  | c :: s => by
      rw [splitLines]
      split
      · exact List.cons_ne_nil _ _
      · split
        · exact List.cons_ne_nil _ _
        · exact List.cons_ne_nil _ _

theorem splitLines_cons {c : Char} (h : c ≠ '\n') (s : List Char) :
    ∃ line lines, splitLines s = line :: lines ∧ splitLines (c :: s) = (c :: line) :: lines := by
  obtain ⟨line, lines, heq⟩ := List.exists_cons_of_ne_nil (splitLines_ne_nil s)
  exact ⟨line, lines, heq, by rw [splitLines, if_neg h, heq]⟩

theorem length_splitLines (s : List Char) : (splitLines s).length = s.count '\n' + 1 := by
  induction s with
  | nil => rfl
  | cons c s ih =>
      by_cases h : c = '\n'
      · rw [splitLines, if_pos h, List.length_cons, ih, h, List.count_cons_self]
      · obtain ⟨line, lines, heq, heq'⟩ := splitLines_cons h s
        rw [heq', List.length_cons, List.count_cons_of_ne h, ← ih, heq, List.length_cons]

theorem splitLines_of_notMem (h : '\n' ∉ s) : splitLines s = [s] := by
  induction s with
  | nil => rfl
  | cons c s ih =>
      have hc : c ≠ '\n' := fun heq => h (heq ▸ List.mem_cons_self)
      rw [splitLines, if_neg hc, ih fun hs => h (List.mem_cons_of_mem c hs)]

/-- `s.split("\n")[-1]` -/
theorem getLast?_splitLines (s : List Char) : (splitLines s).getLast? = some (lastLine s) := by
  induction s with
  | nil => rfl
  | cons c s ih =>
      by_cases hs : '\n' ∈ s
      · have hlast : lastLine (c :: s) = lastLine s := lastLine_append_of_mem [c] hs
        have hne : splitLines s ≠ [] := splitLines_ne_nil s
        by_cases hc : c = '\n'
        · rw [splitLines, if_pos hc, List.getLast?_cons_of_ne_nil hne, ih, hlast]
        · obtain ⟨line, lines, heq, heq'⟩ := splitLines_cons hc s
          have hlines : lines ≠ [] := by
            rintro rfl
            have hcount := length_splitLines s
            rw [heq, List.length_singleton] at hcount
            have := List.count_pos_iff.mpr hs
            omega
          rw [heq', List.getLast?_cons_of_ne_nil hlines, hlast, ← ih, heq,
            List.getLast?_cons_of_ne_nil hlines]
      · by_cases hc : c = '\n'
        · subst hc
          have hlast : lastLine ('\n' :: s) = s := lastLine_append_newline [] hs
          rw [splitLines, if_pos rfl, splitLines_of_notMem hs, hlast]
          rfl
        · have hcs : '\n' ∉ c :: s := fun hmem =>
            (List.mem_cons.mp hmem).elim (fun heq => hc heq.symm) hs
          rw [splitLines_of_notMem hcs, lastLine_of_notMem hcs]
          rfl

end TextPosition

end Inmanta
