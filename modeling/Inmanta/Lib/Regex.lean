import Mathlib.Data.List.Basic

/-!
# Regular expressions

The expressions of a backtracking matcher. `results` lists every way to match
at the start of a text in the order in which the matcher tries them, each with
the groups it captured and the text it leaves. So the first one is the match
that is found, and what follows an expression selects among its results.

`Reads` is how a parser is followed through an expression: of all the results,
what follows only accepts one. Its rules follow the structure of expressions.
`Units` are texts that a repetition can take apart in one way only. `Spells`
is the language of an expression, for texts that are not known to be printed.
-/

namespace Inmanta

inductive Regex where
  | chr (p : Char → Bool)
  /-- The end of the text. -/
  | eos
  | seq (a b : Regex)
  | alt (a b : Regex)
  | star (a : Regex)
  | lazyStar (a : Regex)
  | group (name : String) (a : Regex)

namespace Regex

/-- The groups that were captured, the last one last. -/
abbrev Captures := List (String × List Char)

/-- The text a group captured last. -/
def Captures.get (c : Captures) (name : String) : List Char :=
  (c.reverse.lookup name).getD []

/-- What was captured, and the text that is left. -/
abbrev Match := Captures × List Char

/-- The text that was read to leave `rest`. -/
def consumed (s rest : List Char) : List Char := s.take (s.length - rest.length)

/-- As often as possible; a repetition that reads nothing ends it. -/
def starResults (m : List Char → List Match) (s : List Char) : List Match :=
  ((m s).flatMap fun x =>
    if _h : x.2.length < s.length then
      (starResults m x.2).map fun y => (x.1 ++ y.1, y.2)
    else []) ++ [([], s)]
termination_by s.length

/-- As rarely as possible. -/
def lazyResults (m : List Char → List Match) (s : List Char) : List Match :=
  ([], s) :: (m s).flatMap fun x =>
    if _h : x.2.length < s.length then
      (lazyResults m x.2).map fun y => (x.1 ++ y.1, y.2)
    else []
termination_by s.length

def results : Regex → List Char → List Match
  | chr _, [] => []
  | chr p, c :: s => if p c then [([], s)] else []
  | eos, s => if s = [] then [([], [])] else []
  | seq a b, s => (a.results s).flatMap fun x =>
      (b.results x.2).map fun y => (x.1 ++ y.1, y.2)
  | alt a b, s => a.results s ++ b.results s
  | star a, s => starResults a.results s
  | lazyStar a, s => lazyResults a.results s
  | group name a, s => (a.results s).map fun x => (x.1 ++ [(name, consumed s x.2)], x.2)

/-- One or more. -/
def plus (a : Regex) : Regex := seq a (star a)

def lit (c : Char) : Regex := chr (· = c)

/-- The match of the whole text. -/
def fullMatch (r : Regex) (s : List Char) : Option Captures :=
  ((seq r eos).results s).head?.map (·.1)

/-- The match at the start of the text. Matches of nothing are passed over. -/
def nextMatch (r : Regex) (s : List Char) : Option Match :=
  (r.results s).find? fun x => x.2.length < s.length

/-- The text as the matches from left to right and the characters between them. -/
def scan (r : Regex) : List Char → List (Char ⊕ (List Char × Captures))
  | [] => []
  | c :: s =>
      match _h : r.nextMatch (c :: s) with
      | some x => .inr (consumed (c :: s) x.2, x.1) :: scan r x.2
      | none => .inl c :: scan r s
termination_by s => s.length
decreasing_by
  · have h' : (r.results (c :: s)).find? (fun x => x.2.length < (c :: s).length) = some x := _h
    simpa using List.find?_some h'
  · simp

/-- All matches from left to right. -/
def findAll (r : Regex) (s : List Char) : List (List Char × Captures) :=
  (r.scan s).filterMap Sum.getRight?

/-- The text with all matches replaced. -/
def sub (r : Regex) (replace : Captures → List Char) (s : List Char) : List Char :=
  (r.scan s).flatMap fun
    | .inl c => [c]
    | .inr x => replace x.2

/-! ## Results -/

variable {a b r : Regex} {s w w' rest : List Char} {c c' : Captures} {p : Char → Bool}

theorem consumed_append (w rest : List Char) : consumed (w ++ rest) rest = w := by
  rw [consumed, List.length_append, Nat.add_sub_cancel, List.take_left]

@[simp] theorem results_chr_nil : (chr p).results [] = [] := rfl

@[simp] theorem results_chr_cons (x : Char) :
    (chr p).results (x :: s) = if p x then [([], s)] else [] := rfl

@[simp] theorem results_lit_nil (x : Char) : (lit x).results [] = [] := results_chr_nil

@[simp] theorem results_lit_cons (x y : Char) :
    (lit x).results (y :: s) = if y = x then [([], s)] else [] := by
  simp [lit]

@[simp] theorem results_alt : (alt a b).results s = a.results s ++ b.results s := rfl

theorem results_seq : (seq a b).results s =
    (a.results s).flatMap fun x => (b.results x.2).map fun y => (x.1 ++ y.1, y.2) := rfl

theorem results_seq_of_nil (h : a.results s = []) : (seq a b).results s = [] := by
  rw [results_seq, h]
  rfl

theorem results_seq_of_singleton (h : a.results s = [([], rest)]) :
    (seq a b).results s = b.results rest := by
  rw [results_seq, h]
  simp

theorem results_star : (star a).results s = starResults a.results s := rfl

theorem results_lazyStar : (lazyStar a).results s = lazyResults a.results s := rfl

theorem results_star_stop (h : a.results s = []) : (star a).results s = [([], s)] := by
  rw [results_star, starResults, h]
  rfl

theorem results_star_cons (h : a.results (w ++ rest) = [(c, rest)]) (hw : w ≠ []) :
    (star a).results (w ++ rest) =
      ((star a).results rest).map (fun y => (c ++ y.1, y.2)) ++ [([], w ++ rest)] := by
  have hlt : rest.length < (w ++ rest).length := by
    have := List.length_pos_iff.mpr hw
    rw [List.length_append]
    omega
  rw [results_star, starResults, h, List.flatMap_singleton, dif_pos hlt, results_star]

theorem results_lazyStar_cons (h : a.results (w ++ rest) = [([], rest)]) (hw : w ≠ []) :
    (lazyStar a).results (w ++ rest) = ([], w ++ rest) :: (lazyStar a).results rest := by
  have hlt : rest.length < (w ++ rest).length := by
    have := List.length_pos_iff.mpr hw
    rw [List.length_append]
    omega
  rw [results_lazyStar, lazyResults, h, List.flatMap_singleton, dif_pos hlt, results_lazyStar]
  simp

/-! ## Captures -/

theorem get_concat (c : Captures) (name : String) : Captures.get (c ++ [(name, w)]) name = w := by
  simp [Captures.get]

theorem get_append {name : String} (h : ∀ x ∈ c', x.1 ≠ name) :
    Captures.get (c ++ c') name = Captures.get c name := by
  have hnone : c'.reverse.lookup name = none :=
    List.lookup_eq_none_iff.mpr fun x hx =>
      bne_iff_ne.mpr (h x (List.mem_reverse.mp hx)).symm
  rw [Captures.get, Captures.get, List.reverse_append, List.lookup_append, hnone]
  rfl

/-! ## Reading with what follows -/

section Reads

variable {β : Type} {k : Match → List β}

/-- Of the ways to match `w` and more at the start of a text, what follows only
accepts the one that reads `w` and captures `c`. -/
def Reads (r : Regex) (k : Match → List β) (w : List Char) (c : Captures)
    (rest : List Char) : Prop :=
  (r.results (w ++ rest)).flatMap k = k (c, rest)

theorem Reads.of_results (h : r.results (w ++ rest) = [(c, rest)]) : Reads r k w c rest := by
  rw [Reads, h, List.flatMap_singleton]

theorem Reads.results_eq (h : Reads r (fun x => [x]) w c rest) :
    r.results (w ++ rest) = [(c, rest)] := by
  rw [Reads, List.flatMap_singleton'] at h
  exact h

theorem Reads.seq
    (ha : Reads a (fun x => (b.results x.2).flatMap fun y => k (x.1 ++ y.1, y.2)) w c (w' ++ rest))
    (hb : Reads b (fun y => k (c ++ y.1, y.2)) w' c' rest) :
    Reads (seq a b) k (w ++ w') (c ++ c') rest := by
  rw [Reads, List.append_assoc, results_seq, List.flatMap_assoc]
  simp only [List.flatMap_map]
  exact Eq.trans ha hb

theorem Reads.alt_left (ha : Reads a k w c rest) (hb : (b.results (w ++ rest)).flatMap k = []) :
    Reads (alt a b) k w c rest := by
  rw [Reads, results_alt, List.flatMap_append, hb, List.append_nil]
  exact ha

theorem Reads.alt_right (ha : (a.results (w ++ rest)).flatMap k = []) (hb : Reads b k w c rest) :
    Reads (alt a b) k w c rest := by
  rw [Reads, results_alt, List.flatMap_append, ha, List.nil_append]
  exact hb

theorem Reads.group {name : String}
    (h : Reads a (fun x => k (x.1 ++ [(name, consumed (w ++ rest) x.2)], x.2)) w c rest) :
    Reads (group name a) k w (c ++ [(name, w)]) rest := by
  rw [Reads, results, List.flatMap_map]
  refine Eq.trans h ?_
  simp only [consumed_append]

/-- A text that can be taken apart in one way: whatever follows, a unit of it
is the only match at its start, and `stop` never holds before its end. -/
inductive Units (a : Regex) (stop : List Char → Prop) : List Char → Captures → Prop
  | nil : Units a stop [] []
  | cons {u w c c'} : u ≠ [] → (∀ s, a.results (u ++ s) = [(c, s)]) → (∀ s, ¬ stop (u ++ s)) →
      Units a stop w c' → Units a stop (u ++ w) (c ++ c')

theorem Units.append {stop : List Char → Prop} (h : Units a stop w c) (h' : Units a stop w' c') :
    Units a stop (w ++ w') (c ++ c') := by
  induction h with
  | nil => exact h'
  | cons hne hu hs _ ih =>
      rw [List.append_assoc, List.append_assoc]
      exact .cons hne hu hs ih

/-- A repetition reads all units when it can not go on there. -/
theorem Units.reads_star {stop : List Char → Prop} (h : Units a stop w c)
    (hrest : a.results rest = []) (hk : ∀ x : Match, ¬ stop x.2 → k x = []) :
    Reads (star a) k w c rest := by
  induction h generalizing k with
  | nil =>
      rw [Reads, List.nil_append, results_star_stop hrest, List.flatMap_singleton]
  | @cons u w c c' hne hu hs _ ih =>
      have hih := ih (k := fun y => k (c ++ y.1, y.2)) fun x hx => hk _ hx
      rw [Reads, List.append_assoc, results_star_cons (hu _) hne, List.flatMap_append,
        List.flatMap_map, List.flatMap_singleton, hk ([], u ++ (w ++ rest)) (hs _),
        List.append_nil]
      exact hih

theorem Units.reads_plus {stop : List Char → Prop} (h : Units a stop w c) (hne : w ≠ [])
    (hrest : a.results rest = []) (hk : ∀ x : Match, ¬ stop x.2 → k x = []) :
    Reads (plus a) k w c rest := by
  cases h with
  | nil => exact absurd rfl hne
  | cons hne hu hs h' =>
      exact (Reads.of_results (hu _)).seq (h'.reads_star hrest fun x hx => hk _ hx)

/-- A lazy repetition tries the end of the units first. -/
theorem Units.lazy_first {stop : List Char → Prop} (h : Units a stop w c) (hc : c = [])
    (hk : ∀ x : Match, ¬ stop x.2 → k x = []) :
    ∃ l, ((lazyStar a).results (w ++ s)).flatMap k = k ([], s) ++ l := by
  induction h with
  | nil =>
      rw [List.nil_append, results_lazyStar, lazyResults, List.flatMap_cons]
      exact ⟨_, rfl⟩
  | @cons u w c c' hne hu hs _ ih =>
      obtain ⟨rfl, rfl⟩ := List.append_eq_nil_iff.mp hc
      obtain ⟨l, hl⟩ := ih rfl
      refine ⟨l, ?_⟩
      rw [List.append_assoc, results_lazyStar_cons (hu _) hne, List.flatMap_cons, hl,
        hk ([], u ++ (w ++ s)) (hs _), List.nil_append]

end Reads

/-! ## Matches -/

/-- What follows an expression that has to match a whole text. -/
def atEnd (x : Match) : List Match := (eos.results x.2).map fun y => (x.1 ++ y.1, y.2)

theorem atEnd_eq_nil (x : Match) (h : ¬ x.2 = []) : atEnd x = [] := by
  rw [atEnd, results, if_neg h]
  rfl

theorem fullMatch_eq : r.fullMatch s = ((r.results s).flatMap atEnd).head?.map (·.1) := by
  rw [fullMatch, results_seq]
  rfl

theorem fullMatch_of_reads (h : Reads r atEnd w c []) : r.fullMatch w = some c := by
  rw [Reads, List.append_nil] at h
  rw [fullMatch_eq, h, atEnd, results, if_pos rfl]
  simp

theorem nextMatch_of_head (h : (r.results (w ++ rest)).head? = some (c, rest)) (hw : w ≠ []) :
    r.nextMatch (w ++ rest) = some (c, rest) := by
  obtain ⟨tail, htail⟩ := List.head?_eq_some_iff.mp h
  have := List.length_pos_iff.mpr hw
  rw [nextMatch, htail, List.find?_cons_of_pos]
  rw [List.length_append]
  exact decide_eq_true (by dsimp only; omega)

theorem nextMatch_eq_none (h : r.results s = []) : r.nextMatch s = none := by
  rw [nextMatch, h]
  rfl

theorem scan_nil : r.scan [] = [] := by
  rw [scan]

theorem scan_match (h : r.nextMatch (w ++ rest) = some (c, rest)) (hw : w ≠ []) :
    r.scan (w ++ rest) = .inr (w, c) :: r.scan rest := by
  obtain ⟨x, w', rfl⟩ := List.exists_cons_of_ne_nil hw
  have hc := consumed_append (x :: w') rest
  rw [List.cons_append] at h hc ⊢
  rw [scan]
  split
  · next y hy =>
    obtain rfl := Option.some.inj (hy.symm.trans h)
    rw [hc]
  · next hy =>
    rw [h] at hy
    cases hy

theorem scan_skip {x : Char} (h : r.nextMatch (x :: s) = none) :
    r.scan (x :: s) = .inl x :: r.scan s := by
  rw [scan]
  split
  · next y hy =>
    rw [h] at hy
    cases hy
  · rfl

theorem findAll_nil : r.findAll [] = [] := by
  rw [findAll, scan_nil]
  rfl

theorem findAll_match (h : r.nextMatch (w ++ rest) = some (c, rest)) (hw : w ≠ []) :
    r.findAll (w ++ rest) = (w, c) :: r.findAll rest := by
  rw [findAll, scan_match h hw]
  rfl

theorem findAll_skip {x : Char} (h : r.nextMatch (x :: s) = none) :
    r.findAll (x :: s) = r.findAll s := by
  rw [findAll, scan_skip h]
  rfl

section Sub

variable {replace : Captures → List Char}

theorem sub_nil : r.sub replace [] = [] := by
  rw [sub, scan_nil]
  rfl

theorem sub_match (h : r.nextMatch (w ++ rest) = some (c, rest)) (hw : w ≠ []) :
    r.sub replace (w ++ rest) = replace c ++ r.sub replace rest := by
  rw [sub, scan_match h hw]
  rfl

theorem sub_skip {x : Char} (h : r.nextMatch (x :: s) = none) :
    r.sub replace (x :: s) = x :: r.sub replace s := by
  rw [sub, scan_skip h]
  rfl

end Sub

/-! ## Languages -/

/-- Whatever follows, the expression matches the texts that satisfy `P`, with
their captures. -/
def Spells (r : Regex) (P : List Char → Captures → Prop) : Prop :=
  ∀ s c rest, (c, rest) ∈ r.results s ↔ ∃ w, s = w ++ rest ∧ P w c

/-- A text taken apart into texts that are not empty. -/
inductive Repeats (P : List Char → Captures → Prop) : List Char → Captures → Prop
  | nil : Repeats P [] []
  | cons {u w c c'} : u ≠ [] → P u c → Repeats P w c' → Repeats P (u ++ w) (c ++ c')

section Spells

variable {P Q : List Char → Captures → Prop}

theorem Spells.congr (h : Spells r P) (hPQ : ∀ w c, Q w c ↔ P w c) : Spells r Q := fun s c rest =>
  (h s c rest).trans (exists_congr fun w => and_congr_right fun _ => (hPQ w c).symm)

theorem Spells.chr (p : Char → Bool) :
    Spells (chr p) fun w c => ∃ x, p x = true ∧ w = [x] ∧ c = [] := by
  intro s c rest
  cases s with
  | nil =>
      rw [results_chr_nil]
      refine iff_of_false List.not_mem_nil ?_
      rintro ⟨w, hw, x, -, rfl, -⟩
      cases hw
  | cons y s =>
      rw [results_chr_cons]
      constructor
      · intro h
        split at h
        · next hp =>
          obtain ⟨rfl, rfl⟩ := Prod.mk.inj (List.mem_singleton.mp h)
          exact ⟨[y], rfl, y, hp, rfl, rfl⟩
        · exact absurd h List.not_mem_nil
      · rintro ⟨w, hw, x, hp, rfl, rfl⟩
        obtain ⟨rfl, rfl⟩ := List.cons.inj hw
        rw [if_pos hp]
        exact List.mem_singleton_self _

theorem Spells.lit (x : Char) : Spells (lit x) fun w c => w = [x] ∧ c = [] :=
  (Spells.chr _).congr fun w c => by simp

theorem mem_results_seq :
    (c, rest) ∈ (seq a b).results s ↔
      ∃ d mid e, (d, mid) ∈ a.results s ∧ (e, rest) ∈ b.results mid ∧ c = d ++ e := by
  rw [results_seq, List.mem_flatMap]
  constructor
  · rintro ⟨⟨d, mid⟩, hd, hc⟩
    obtain ⟨⟨e, rest'⟩, he, heq⟩ := List.mem_map.mp hc
    obtain ⟨rfl, rfl⟩ := Prod.mk.inj heq
    exact ⟨d, mid, e, hd, he, rfl⟩
  · rintro ⟨d, mid, e, hd, he, rfl⟩
    exact ⟨(d, mid), hd, List.mem_map.mpr ⟨(e, rest), he, rfl⟩⟩

theorem Spells.seq (ha : Spells a P) (hb : Spells b Q) :
    Spells (seq a b) fun w c => ∃ u d v e, P u d ∧ Q v e ∧ w = u ++ v ∧ c = d ++ e := by
  intro s c rest
  rw [mem_results_seq]
  constructor
  · rintro ⟨d, mid, e, hd, he, rfl⟩
    obtain ⟨u, rfl, hu⟩ := (ha s d mid).mp hd
    obtain ⟨v, rfl, hv⟩ := (hb mid e rest).mp he
    exact ⟨u ++ v, (List.append_assoc u v rest).symm, u, d, v, e, hu, hv, rfl, rfl⟩
  · rintro ⟨w, rfl, u, d, v, e, hu, hv, rfl, rfl⟩
    exact ⟨d, v ++ rest, e, (ha _ _ _).mpr ⟨u, List.append_assoc u v rest, hu⟩,
      (hb _ _ _).mpr ⟨v, rfl, hv⟩, rfl⟩

theorem Spells.alt (ha : Spells a P) (hb : Spells b Q) :
    Spells (alt a b) fun w c => P w c ∨ Q w c := by
  intro s c rest
  rw [results_alt, List.mem_append, ha, hb, ← exists_or]
  exact exists_congr fun w => and_or_left.symm

theorem Spells.group (name : String) (h : Spells a P) :
    Spells (group name a) fun w c => ∃ d, P w d ∧ c = d ++ [(name, w)] := by
  intro s c rest
  rw [results, List.mem_map]
  constructor
  · rintro ⟨⟨d, rest'⟩, hd, heq⟩
    obtain ⟨rfl, rfl⟩ := Prod.mk.inj heq
    obtain ⟨w, rfl, hw⟩ := (h s d rest').mp hd
    exact ⟨w, rfl, d, hw, by rw [consumed_append]⟩
  · rintro ⟨w, rfl, d, hw, rfl⟩
    exact ⟨(d, rest), (h _ _ _).mpr ⟨w, rfl, hw⟩, by rw [consumed_append]⟩

theorem mem_results_star {s rest : List Char} {c : Captures} :
    (c, rest) ∈ (star a).results s ↔ c = [] ∧ rest = s ∨ ∃ d mid e, (d, mid) ∈ a.results s ∧
      mid.length < s.length ∧ (e, rest) ∈ (star a).results mid ∧ c = d ++ e := by
  rw [results_star, starResults, List.mem_append, List.mem_flatMap, or_comm]
  refine or_congr (by simp [Prod.ext_iff]) ⟨?_, ?_⟩
  · rintro ⟨⟨d, mid⟩, hd, hc⟩
    split at hc
    · next hlt =>
      obtain ⟨⟨e, rest'⟩, he, heq⟩ := List.mem_map.mp hc
      obtain ⟨rfl, rfl⟩ := Prod.mk.inj heq
      exact ⟨d, mid, e, hd, hlt, by rw [results_star]; exact he, rfl⟩
    · exact absurd hc List.not_mem_nil
  · rintro ⟨d, mid, e, hd, hlt, he, rfl⟩
    refine ⟨(d, mid), hd, ?_⟩
    rw [dif_pos hlt]
    rw [results_star] at he
    exact List.mem_map.mpr ⟨(e, rest), he, rfl⟩

theorem Spells.star (h : Spells a P) : Spells (star a) (Repeats P) := by
  have hfwd : ∀ n s c rest, s.length ≤ n → (c, rest) ∈ (Regex.star a).results s →
      ∃ w, s = w ++ rest ∧ Repeats P w c := by
    intro n
    induction n with
    | zero =>
        intro s c rest hn hc
        obtain ⟨rfl, rfl⟩ | ⟨d, mid, e, -, hlt, -⟩ := mem_results_star.mp hc
        · exact ⟨[], rfl, .nil⟩
        · omega
    | succ n ih =>
        intro s c rest hn hc
        obtain ⟨rfl, rfl⟩ | ⟨d, mid, e, hd, hlt, he, rfl⟩ := mem_results_star.mp hc
        · exact ⟨[], rfl, .nil⟩
        · obtain ⟨u, rfl, hu⟩ := (h s d mid).mp hd
          obtain ⟨v, rfl, hv⟩ := ih mid e rest (by omega) he
          have hne : u ≠ [] := by
            rintro rfl
            exact absurd hlt (Nat.lt_irrefl _)
          exact ⟨u ++ v, (List.append_assoc u v rest).symm, .cons hne hu hv⟩
  intro s c rest
  refine ⟨hfwd s.length s c rest (Nat.le_refl _), ?_⟩
  rintro ⟨w, rfl, hw⟩
  induction hw with
  | nil => exact mem_results_star.mpr (.inl ⟨rfl, rfl⟩)
  | @cons u w d e hne hu _ ih =>
      refine mem_results_star.mpr (.inr ⟨d, w ++ rest, e, ?_, ?_, ih, rfl⟩)
      · exact (h _ _ _).mpr ⟨u, List.append_assoc u w rest, hu⟩
      · have := List.length_pos_iff.mpr hne
        simp only [List.length_append]
        omega

section Pieces

variable {α : Type} {S : α → Prop} {f : α → List Char} {g : α → Captures}

/-- A repetition of what is spelled by a type of pieces. -/
theorem repeats_pieces (hf : ∀ x, f x ≠ []) :
    Repeats (fun w c => ∃ x, S x ∧ w = f x ∧ c = g x) w c ↔
      ∃ xs : List α, (∀ x ∈ xs, S x) ∧ w = xs.flatMap f ∧ c = xs.flatMap g := by
  constructor
  · intro h
    induction h with
    | nil => exact ⟨[], fun _ hx => absurd hx List.not_mem_nil, rfl, rfl⟩
    | cons _ hu _ ih =>
        obtain ⟨x, hx, rfl, rfl⟩ := hu
        obtain ⟨xs, hxs, rfl, rfl⟩ := ih
        exact ⟨x :: xs, List.forall_mem_cons.mpr ⟨hx, hxs⟩, rfl, rfl⟩
  · rintro ⟨xs, hxs, rfl, rfl⟩
    induction xs with
    | nil => exact .nil
    | cons x xs ih =>
        obtain ⟨hx, hxs⟩ := List.forall_mem_cons.mp hxs
        exact .cons (hf x) ⟨x, hx, rfl, rfl⟩ (ih hxs)

theorem Spells.star_pieces (h : Spells a fun w c => ∃ x, S x ∧ w = f x ∧ c = g x)
    (hf : ∀ x, f x ≠ []) : Spells (.star a) fun w c =>
      ∃ xs : List α, (∀ x ∈ xs, S x) ∧ w = xs.flatMap f ∧ c = xs.flatMap g :=
  h.star.congr fun _ _ => (repeats_pieces hf).symm

theorem Spells.plus_pieces (h : Spells a fun w c => ∃ x, S x ∧ w = f x ∧ c = g x)
    (hf : ∀ x, f x ≠ []) : Spells (plus a) fun w c =>
      ∃ xs : List α, xs ≠ [] ∧ (∀ x ∈ xs, S x) ∧ w = xs.flatMap f ∧ c = xs.flatMap g := by
  refine (h.seq (h.star_pieces hf)).congr fun w c => ?_
  constructor
  · rintro ⟨xs, hne, hxs, rfl, rfl⟩
    obtain ⟨x, xs, rfl⟩ := List.exists_cons_of_ne_nil hne
    obtain ⟨hx, hxs⟩ := List.forall_mem_cons.mp hxs
    exact ⟨_, _, _, _, ⟨x, hx, rfl, rfl⟩, ⟨xs, hxs, rfl, rfl⟩, rfl, rfl⟩
  · rintro ⟨_, _, _, _, ⟨x, hx, rfl, rfl⟩, ⟨xs, hxs, rfl, rfl⟩, rfl, rfl⟩
    exact ⟨x :: xs, List.cons_ne_nil x xs, List.forall_mem_cons.mpr ⟨hx, hxs⟩, rfl, rfl⟩

end Pieces

/-- A repetition of characters. -/
theorem Spells.star_chr (p : Char → Bool) :
    Spells (.star (.chr p)) fun w c => (∀ x ∈ w, p x = true) ∧ c = [] := by
  have h := (Spells.chr p).star_pieces fun x => List.cons_ne_nil x []
  refine h.congr fun w c => ?_
  constructor
  · rintro ⟨hw, rfl⟩
    exact ⟨w, hw, (List.flatMap_singleton' w).symm, by simp⟩
  · rintro ⟨xs, hxs, rfl, rfl⟩
    exact ⟨by rwa [List.flatMap_singleton'], by simp⟩

theorem Spells.plus_chr (p : Char → Bool) :
    Spells (plus (.chr p)) fun w c => w ≠ [] ∧ (∀ x ∈ w, p x = true) ∧ c = [] := by
  have h := (Spells.chr p).plus_pieces fun x => List.cons_ne_nil x []
  refine h.congr fun w c => ?_
  constructor
  · rintro ⟨hne, hw, rfl⟩
    exact ⟨w, hne, hw, (List.flatMap_singleton' w).symm, by simp⟩
  · rintro ⟨xs, hne, hxs, rfl, rfl⟩
    rw [List.flatMap_singleton']
    exact ⟨hne, hxs, by simp⟩

theorem mem_results_eos :
    (c, rest) ∈ eos.results s ↔ s = [] ∧ c = [] ∧ rest = [] := by
  rw [results]
  split
  · next h => simp [h]
  · next h => simp [h]

theorem Spells.mem_whole (h : Spells r P) :
    (c, rest) ∈ (Regex.seq r eos).results s ↔ P s c ∧ rest = [] := by
  rw [mem_results_seq]
  constructor
  · rintro ⟨d, mid, e, hd, he, rfl⟩
    obtain ⟨rfl, rfl, rfl⟩ := mem_results_eos.mp he
    obtain ⟨w, rfl, hw⟩ := (h _ _ _).mp hd
    rw [List.append_nil, List.append_nil]
    exact ⟨hw, rfl⟩
  · rintro ⟨hc, rfl⟩
    exact ⟨c, [], [], (h _ _ _).mpr ⟨s, (List.append_nil s).symm, hc⟩,
      mem_results_eos.mpr ⟨rfl, rfl, rfl⟩, (List.append_nil c).symm⟩

theorem Spells.of_fullMatch (h : Spells r P) (hc : r.fullMatch s = some c) : P s c := by
  obtain ⟨⟨c, rest⟩, hhead, rfl⟩ := Option.map_eq_some_iff.mp hc
  exact (h.mem_whole.mp (List.mem_of_head? hhead)).1

theorem Spells.exists_fullMatch (h : Spells r P) (hc : P s c) : ∃ c', r.fullMatch s = some c' := by
  have hne := List.ne_nil_of_mem (h.mem_whole.mpr ⟨hc, rfl⟩)
  exact ⟨_, congrArg (Option.map Prod.fst) (List.head?_eq_some_head hne)⟩

/-- Where a text starts with what is spelled in one way only, that is found. -/
theorem Spells.nextMatch_eq (h : Spells r P) (hw : w ≠ []) (hc : P w c)
    (hunique : ∀ w' c' rest', P w' c' → w ++ rest = w' ++ rest' → c' = c ∧ rest' = rest) :
    r.nextMatch (w ++ rest) = some (c, rest) := by
  have hmem : (c, rest) ∈ r.results (w ++ rest) := (h _ _ _).mpr ⟨w, rfl, hc⟩
  refine nextMatch_of_head ?_ hw
  obtain ⟨⟨c', rest'⟩, hhead⟩ : ∃ x, (r.results (w ++ rest)).head? = some x :=
    ⟨_, List.head?_eq_some_head (List.ne_nil_of_mem hmem)⟩
  obtain ⟨w', hw', hc'⟩ := (h _ _ _).mp (List.mem_of_head? hhead)
  obtain ⟨rfl, rfl⟩ := hunique w' c' rest' hc' hw'
  exact hhead

end Spells

/-- A text of which the units are what a matcher finds first. -/
inductive FirstUnits (a : Regex) : List Char → Prop
  | nil : FirstUnits a []
  | cons {u w} : u ≠ [] → (∀ s, (a.results (u ++ s)).head? = some ([], s)) → FirstUnits a w →
      FirstUnits a (u ++ w)

theorem FirstUnits.append (h : FirstUnits a w) (h' : FirstUnits a w') :
    FirstUnits a (w ++ w') := by
  induction h with
  | nil => exact h'
  | cons hne hu _ ih =>
      rw [List.append_assoc]
      exact .cons hne hu ih

theorem FirstUnits.head_star (h : FirstUnits a w) (hrest : a.results rest = []) :
    ((star a).results (w ++ rest)).head? = some ([], rest) := by
  induction h with
  | nil =>
      rw [List.nil_append, results_star_stop hrest]
      rfl
  | @cons u w hne hu _ ih =>
      obtain ⟨tail, htail⟩ := List.head?_eq_some_iff.mp (hu (w ++ rest))
      have hlt : (w ++ rest).length < (u ++ (w ++ rest)).length := by
        have := List.length_pos_iff.mpr hne
        simp only [List.length_append]
        omega
      rw [List.append_assoc, results_star, starResults, htail, List.flatMap_cons, dif_pos hlt,
        ← results_star]
      simp [List.head?_append, ih]

theorem FirstUnits.head_plus (h : FirstUnits a w) (hne : w ≠ []) (hrest : a.results rest = []) :
    ((plus a).results (w ++ rest)).head? = some ([], rest) := by
  cases h with
  | nil => exact absurd rfl hne
  | @cons u w _ hu h' =>
      obtain ⟨tail, htail⟩ := List.head?_eq_some_iff.mp (hu (w ++ rest))
      rw [plus, List.append_assoc, results_seq, htail, List.flatMap_cons]
      simp [List.head?_append, h'.head_star hrest]

/-- The matches and the characters between them make up the text. -/
theorem scan_spec {P : List Char → Captures → Prop} (h : Spells r P) (s : List Char) :
    (r.scan s).flatMap (Sum.elim (fun c => [c]) Prod.fst) = s
      ∧ ∀ x, .inr x ∈ r.scan s → P x.1 x.2 := by
  induction s using scan.induct r with
  | case1 => simp [scan_nil]
  | case2 c s x hx ih =>
      obtain ⟨w, hw, hP⟩ := (h _ x.1 x.2).mp (List.mem_of_find?_eq_some hx)
      have hconsumed : consumed (c :: s) x.2 = w := by rw [hw, consumed_append]
      have hscan : r.scan (c :: s) = .inr (w, x.1) :: r.scan x.2 := by
        rw [scan]
        split
        · rename_i heq
          obtain rfl := Option.some.inj (hx.symm.trans heq)
          rw [hconsumed]
        · rename_i heq
          cases hx.symm.trans heq
      rw [hscan, List.flatMap_cons, ih.1]
      refine ⟨hw.symm, fun y hy => ?_⟩
      obtain hy | hy := List.mem_cons.mp hy
      · obtain rfl := Sum.inr.inj hy
        exact hP
      · exact ih.2 y hy
  | case3 c s hx ih =>
      rw [scan_skip hx, List.flatMap_cons, ih.1]
      refine ⟨rfl, fun y hy => ih.2 y ?_⟩
      obtain hy | hy := List.mem_cons.mp hy
      · cases hy
      · exact hy

/-! ## What an expression reads -/

/-- The characters that an expression can read. -/
def alphabet : Regex → Char → Bool
  | chr p, x => p x
  | eos, _ => false
  | seq a b, x => a.alphabet x || b.alphabet x
  | alt a b, x => a.alphabet x || b.alphabet x
  | star a, x => a.alphabet x
  | lazyStar a, x => a.alphabet x
  | group _ a, x => a.alphabet x

/-- Whether every match reads something. -/
def consumes : Regex → Bool
  | chr _ => true
  | eos => false
  | seq a b => a.consumes || b.consumes
  | alt a b => a.consumes && b.consumes
  | star _ => false
  | lazyStar _ => false
  | group _ a => a.consumes

theorem mem_results_lazyStar :
    (c, rest) ∈ (lazyStar a).results s ↔ c = [] ∧ rest = s ∨ ∃ d mid e, (d, mid) ∈ a.results s ∧
      mid.length < s.length ∧ (e, rest) ∈ (lazyStar a).results mid ∧ c = d ++ e := by
  rw [results_lazyStar, lazyResults, List.mem_cons, List.mem_flatMap]
  refine or_congr Prod.ext_iff ⟨?_, ?_⟩
  · rintro ⟨⟨d, mid⟩, hd, hc⟩
    split at hc
    · next hlt =>
      obtain ⟨⟨e, rest'⟩, he, heq⟩ := List.mem_map.mp hc
      obtain ⟨rfl, rfl⟩ := Prod.mk.inj heq
      exact ⟨d, mid, e, hd, hlt, by rw [results_lazyStar]; exact he, rfl⟩
    · exact absurd hc List.not_mem_nil
  · rintro ⟨d, mid, e, hd, hlt, he, rfl⟩
    refine ⟨(d, mid), hd, ?_⟩
    rw [dif_pos hlt]
    rw [results_lazyStar] at he
    exact List.mem_map.mpr ⟨(e, rest), he, rfl⟩

/-- The text read to get from `s` to `rest`, in characters that satisfy `p`. -/
def ReadsWith (p : Char → Bool) (s rest : List Char) : Prop :=
  ∃ w, s = w ++ rest ∧ ∀ x ∈ w, p x = true

theorem ReadsWith.refl (p : Char → Bool) (s : List Char) : ReadsWith p s s :=
  ⟨[], rfl, fun _ h => absurd h List.not_mem_nil⟩

theorem ReadsWith.trans {mid : List Char} (h : ReadsWith p s mid) (h' : ReadsWith p mid rest) :
    ReadsWith p s rest := by
  obtain ⟨w, rfl, hw⟩ := h
  obtain ⟨w', rfl, hw'⟩ := h'
  exact ⟨w ++ w', (List.append_assoc w w' rest).symm, List.forall_mem_append.mpr ⟨hw, hw'⟩⟩

theorem ReadsWith.mono {q : Char → Bool} (h : ReadsWith p s rest)
    (hpq : ∀ x, p x = true → q x = true) : ReadsWith q s rest := by
  obtain ⟨w, rfl, hw⟩ := h
  exact ⟨w, rfl, fun x hx => hpq x (hw x hx)⟩

theorem ReadsWith.length_le (h : ReadsWith p s rest) : rest.length ≤ s.length := by
  obtain ⟨w, rfl, -⟩ := h
  rw [List.length_append]
  omega

/-- A repetition, in any order of its results. -/
theorem ReadsWith.of_repeats {m : List Char → List Match}
    (ha : ∀ s x, x ∈ a.results s → ReadsWith p s x.2)
    (hm : ∀ s c rest, (c, rest) ∈ m s → c = [] ∧ rest = s ∨ ∃ d mid e, (d, mid) ∈ a.results s ∧
      mid.length < s.length ∧ (e, rest) ∈ m mid ∧ c = d ++ e) :
    ∀ n s, s.length ≤ n → ∀ x, x ∈ m s → ReadsWith p s x.2 := by
  intro n
  induction n with
  | zero =>
      rintro s hn ⟨c, rest⟩ hx
      obtain ⟨-, rfl⟩ | ⟨d, mid, e, -, hlt, -⟩ := hm s c rest hx
      · exact .refl p rest
      · omega
  | succ n ih =>
      rintro s hn ⟨c, rest⟩ hx
      obtain ⟨-, rfl⟩ | ⟨d, mid, e, hd, hlt, he, -⟩ := hm s c rest hx
      · exact .refl p rest
      · exact (ha s (d, mid) hd).trans (ih mid (by omega) (e, rest) he)

/-- A match reads the start of the text, and only characters of the expression. -/
theorem readsWith_alphabet (r : Regex) : ∀ s x, x ∈ r.results s → ReadsWith r.alphabet s x.2 := by
  induction r with
  | chr p =>
      rintro s ⟨c, rest⟩ hx
      obtain ⟨w, rfl, y, hy, rfl, -⟩ := (Spells.chr p s c rest).mp hx
      exact ⟨[y], rfl, List.forall_mem_singleton.mpr hy⟩
  | eos =>
      rintro s ⟨c, rest⟩ hx
      obtain ⟨rfl, -, rfl⟩ := mem_results_eos.mp hx
      exact .refl _ []
  | seq a b iha ihb =>
      rintro s ⟨c, rest⟩ hx
      obtain ⟨d, mid, e, hd, he, -⟩ := mem_results_seq.mp hx
      have ha : ReadsWith (seq a b).alphabet s mid :=
        (iha s _ hd).mono fun x hx => Bool.or_eq_true_iff.mpr (.inl hx)
      have hb : ReadsWith (seq a b).alphabet mid rest :=
        (ihb mid _ he).mono fun x hx => Bool.or_eq_true_iff.mpr (.inr hx)
      exact ha.trans hb
  | alt a b iha ihb =>
      intro s x hx
      rcases List.mem_append.mp hx with hx | hx
      · exact (iha s x hx).mono fun x hx => Bool.or_eq_true_iff.mpr (.inl hx)
      · exact (ihb s x hx).mono fun x hx => Bool.or_eq_true_iff.mpr (.inr hx)
  | star a ih =>
      exact fun s => ReadsWith.of_repeats ih (fun _ _ _ h => mem_results_star.mp h) _ s
        (Nat.le_refl _)
  | lazyStar a ih =>
      exact fun s => ReadsWith.of_repeats ih (fun _ _ _ h => mem_results_lazyStar.mp h) _ s
        (Nat.le_refl _)
  | group name a ih =>
      intro s x hx
      obtain ⟨y, hy, rfl⟩ := List.mem_map.mp hx
      exact ih s y hy

theorem length_lt_of_consumes (r : Regex) (h : r.consumes = true) :
    ∀ s x, x ∈ r.results s → x.2.length < s.length := by
  induction r with
  | chr p =>
      rintro s ⟨c, rest⟩ hx
      obtain ⟨w, rfl, y, -, rfl, -⟩ := (Spells.chr p s c rest).mp hx
      exact Nat.lt_succ_self _
  | eos => cases h
  | seq a b iha ihb =>
      rintro s ⟨c, rest⟩ hx
      obtain ⟨d, mid, e, hd, he, -⟩ := mem_results_seq.mp hx
      have ha := (readsWith_alphabet a s _ hd).length_le
      have hb := (readsWith_alphabet b mid _ he).length_le
      rcases Bool.or_eq_true_iff.mp h with h | h
      · exact Nat.lt_of_le_of_lt hb (iha h s (d, mid) hd)
      · exact Nat.lt_of_lt_of_le (ihb h mid (e, rest) he) ha
  | alt a b iha ihb =>
      intro s x hx
      obtain ⟨ha, hb⟩ := Bool.and_eq_true_iff.mp h
      rcases List.mem_append.mp hx with hx | hx
      · exact iha ha s x hx
      · exact ihb hb s x hx
  | star a => cases h
  | lazyStar a => cases h
  | group name a ih =>
      intro s x hx
      obtain ⟨y, hy, rfl⟩ := List.mem_map.mp hx
      exact ih h s y hy

end Regex

end Inmanta
