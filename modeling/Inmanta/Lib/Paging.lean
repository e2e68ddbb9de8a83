import Mathlib.Data.List.Sort

/-!
# Keyset paging

A table is cut into pages along one order, and each page is asked for by
comparing every row with a boundary row of its neighbour. The comparison need
not be the order the rows are sorted by: `Separated` says when the two agree
at every page boundary. It is enough for every boundary filter to select
exactly the rows before or after a page (`Separated.filter_after`,
`Separated.filter_before`), and a walk along the pages that finds every row,
with the right counts at each page, needs it (`Walk.separated`).
-/

namespace Inmanta.Paging

variable {α : Type} {before : α → α → Prop} {limit k : ℕ} {rows : List α}

/-- A strict comparison in which incomparable rows are interchangeable. -/
structure Compares (before : α → α → Prop) : Prop where
  irrefl : ∀ a, ¬ before a a
  trans : ∀ a b c, before a b → before b c → before a c
  split : ∀ a b c, before a c → before a b ∨ before b c

/-- The `k`-th page, of at most `limit` rows. -/
def page (limit : ℕ) (rows : List α) (k : ℕ) : List α :=
  (rows.drop (k * limit)).take limit

/-- Page `k` and its neighbours: the rows of the pages before it compare
before the rows from it on, and none of its own rows compares before its first
row or after its last one. -/
structure SeparatedAt (before : α → α → Prop) (limit : ℕ) (rows : List α) (k : ℕ) :
    Prop where
  across : ∀ a ∈ rows.take (k * limit), ∀ b ∈ rows.drop (k * limit), before a b
  first : ∀ x ∈ (page limit rows k).head?, ∀ a ∈ page limit rows k, ¬ before a x
  last : ∀ y ∈ (page limit rows k).getLast?, ∀ a ∈ page limit rows k, ¬ before y a

/-- The comparison agrees with the cut into pages. -/
def Separated (before : α → α → Prop) (limit : ℕ) (rows : List α) : Prop :=
  ∀ k, SeparatedAt before limit rows k

/-! ## Positions -/

theorem take_succ_page : rows.take ((k + 1) * limit)
    = rows.take (k * limit) ++ page limit rows k := by
  rw [Nat.succ_mul, List.take_add]
  rfl

theorem drop_page : rows.drop (k * limit)
    = page limit rows k ++ rows.drop ((k + 1) * limit) := by
  rw [Nat.succ_mul, ← List.drop_drop]
  exact (List.take_append_drop limit _).symm

theorem page_eq_nil (hl : 0 < limit) : page limit rows k = [] ↔ rows.length ≤ k * limit := by
  simp only [page, List.take_eq_nil_iff, List.drop_eq_nil_iff]
  omega

theorem mem_of_getLast? {l : List α} {y : α} (h : y ∈ l.getLast?) : y ∈ l :=
  List.mem_of_getLast? h

theorem mem_of_head? {l : List α} {x : α} (h : x ∈ l.head?) : x ∈ l :=
  List.mem_of_head? h

/-- Reading the rows before a page backwards gives the page before it. -/
theorem page_of_backward (hk : (k + 1) * limit ≤ rows.length) :
    ((rows.take ((k + 1) * limit)).reverse.take limit).reverse = page limit rows k := by
  have hlen : (rows.take ((k + 1) * limit)).length - limit = k * limit := by
    rw [List.length_take, Nat.min_eq_left hk, Nat.succ_mul]
    omega
  have hdrop : (rows.take (k * limit)).length = k * limit := by
    rw [List.length_take, Nat.min_eq_left]
    rw [Nat.succ_mul] at hk
    omega
  rw [List.take_reverse, List.reverse_reverse, hlen, take_succ_page]
  exact List.drop_left' hdrop

/-- Different pages of a table without duplicates are different. -/
theorem page_injective (hl : 0 < limit) (hn : rows.Nodup) {i j : ℕ}
    (hi : i * limit < rows.length) (h : page limit rows i = page limit rows j) : i = j := by
  have key : ∀ {i j : ℕ}, i < j → i * limit < rows.length →
      page limit rows i = page limit rows j → False := by
    intro i j hij hi h
    obtain ⟨x, hx⟩ := List.exists_mem_of_ne_nil _ fun h' =>
      absurd ((page_eq_nil hl).mp h') (Nat.not_le.mpr hi)
    have hle : (i + 1) * limit ≤ j * limit := Nat.mul_le_mul_right _ hij
    have hx₁ : x ∈ rows.take ((i + 1) * limit) := by
      rw [take_succ_page]
      exact List.mem_append_right _ hx
    have hx₂ : x ∈ rows.drop ((i + 1) * limit) := by
      have hx' : x ∈ rows.drop (j * limit) := by
        rw [drop_page]
        exact List.mem_append_left _ (h ▸ hx)
      rw [← Nat.add_sub_cancel' hle, ← List.drop_drop] at hx'
      exact List.mem_of_mem_drop hx'
    have hd := hn
    rw [← List.take_append_drop ((i + 1) * limit) rows] at hd
    exact (List.nodup_append.mp hd).2.2 x hx₁ x hx₂ rfl
  rcases Nat.lt_trichotomy i j with hij | rfl | hij
  · exact (key hij hi h).elim
  · rfl
  · by_cases hj : j * limit < rows.length
    · exact (key hij hj h.symm).elim
    · rw [(page_eq_nil hl).mpr (Nat.not_lt.mp hj), page_eq_nil hl] at h
      omega

/-- A table whose rows all compare in their order separates every page. -/
theorem Separated.of_pairwise (hc : Compares before) (h : rows.Pairwise before) :
    Separated before limit rows := by
  intro k
  have hpage : (page limit rows k).Pairwise before :=
    h.sublist ((List.take_sublist _ _).trans (List.drop_sublist _ _))
  constructor
  · intro a ha b hb
    rw [← List.take_append_drop (k * limit) rows] at h
    exact (List.pairwise_append.mp h).2.2 a ha b hb
  · intro x hx a ha hax
    obtain ⟨l, hl⟩ := List.head?_eq_some_iff.mp hx
    rw [hl] at ha hpage
    rcases List.mem_cons.mp ha with rfl | ha
    · exact hc.irrefl a hax
    · exact hc.irrefl a (hc.trans _ _ _ hax ((List.pairwise_cons.mp hpage).1 a ha))
  · intro y hy a ha hya
    obtain ⟨l, hl⟩ := List.getLast?_eq_some_iff.mp hy
    rw [hl] at ha hpage
    rcases List.mem_append.mp ha with ha | ha
    · exact hc.irrefl a (hc.trans _ _ _
        ((List.pairwise_append.mp hpage).2.2 a ha y (List.mem_singleton_self y)) hya)
    · obtain rfl := List.mem_singleton.mp ha
      exact hc.irrefl a hya

/-! ## What a boundary filter selects -/

/-- Filtering beyond the last row of a page selects the rows of the later pages. -/
theorem Separated.filter_after (h : Separated before limit rows) (hc : Compares before)
    {p : α → Bool} {y : α} (hy : y ∈ (page limit rows k).getLast?)
    (hp : ∀ r ∈ rows, p r = true ↔ before y r) :
    rows.filter p = rows.drop ((k + 1) * limit) := by
  have hmem := mem_of_getLast? hy
  have hdrop : y ∈ rows.drop (k * limit) := by
    rw [drop_page]
    exact List.mem_append_left _ hmem
  have htake : y ∈ rows.take ((k + 1) * limit) := by
    rw [take_succ_page]
    exact List.mem_append_right _ hmem
  have hl : (rows.take ((k + 1) * limit)).filter p = [] := by
    rw [List.filter_eq_nil_iff]
    intro a ha hpa
    have hya := (hp a (List.mem_of_mem_take ha)).mp hpa
    rw [take_succ_page] at ha
    rcases List.mem_append.mp ha with ha | ha
    · exact hc.irrefl a (hc.trans _ _ _ ((h k).across a ha y hdrop) hya)
    · exact (h k).last y hy a ha hya
  have hr : (rows.drop ((k + 1) * limit)).filter p = rows.drop ((k + 1) * limit) := by
    rw [List.filter_eq_self]
    intro b hb
    exact (hp b (List.mem_of_mem_drop hb)).mpr ((h (k + 1)).across y htake b hb)
  calc rows.filter p
      = (rows.take ((k + 1) * limit) ++ rows.drop ((k + 1) * limit)).filter p := by
        rw [List.take_append_drop]
    _ = rows.drop ((k + 1) * limit) := by rw [List.filter_append, hl, hr, List.nil_append]

/-- Filtering before the first row of a page selects the rows of the earlier pages. -/
theorem Separated.filter_before (h : Separated before limit rows) (hc : Compares before)
    {p : α → Bool} {x : α} (hx : x ∈ (page limit rows k).head?)
    (hp : ∀ r ∈ rows, p r = true ↔ before r x) : rows.filter p = rows.take (k * limit) := by
  have hmem := mem_of_head? hx
  have hdrop : x ∈ rows.drop (k * limit) := by
    rw [drop_page]
    exact List.mem_append_left _ hmem
  have htake : x ∈ rows.take ((k + 1) * limit) := by
    rw [take_succ_page]
    exact List.mem_append_right _ hmem
  have hl : (rows.take (k * limit)).filter p = rows.take (k * limit) := by
    rw [List.filter_eq_self]
    intro a ha
    exact (hp a (List.mem_of_mem_take ha)).mpr ((h k).across a ha x hdrop)
  have hr : (rows.drop (k * limit)).filter p = [] := by
    rw [List.filter_eq_nil_iff]
    intro b hb hpb
    have hbx := (hp b (List.mem_of_mem_drop hb)).mp hpb
    rw [drop_page] at hb
    rcases List.mem_append.mp hb with hb | hb
    · exact (h k).first x hx b hb hbx
    · exact hc.irrefl x (hc.trans _ _ _ ((h (k + 1)).across x htake b hb) hbx)
  calc rows.filter p
      = (rows.take (k * limit) ++ rows.drop (k * limit)).filter p := by
        rw [List.take_append_drop]
    _ = rows.take (k * limit) := by rw [List.filter_append, hl, hr, List.append_nil]

/-! ## What a complete walk needs -/

variable [DecidableRel before]

/-- The rows before a page, on it and after it add up to the table. -/
def Counted (before : α → α → Prop) [DecidableRel before] (rows p : List α) : Prop :=
  ∀ x ∈ p.head?, ∀ y ∈ p.getLast?,
    rows.countP (fun r => before r x) + p.length + rows.countP (fun r => before y r)
      = rows.length

/-- The pages visited from a page on, each one asked for beyond the last row of
the one before it. -/
inductive Walk (before : α → α → Prop) [DecidableRel before] (limit : ℕ) (rows : List α) :
    List α → List (List α) → Prop
  | stop {p} : Counted before rows p → Walk before limit rows p [p]
  | next {p ps y} : Counted before rows p → y ∈ p.getLast? →
      Walk before limit rows ((rows.filter fun r => before y r).take limit) ps →
      Walk before limit rows p (p :: ps)

/-- What lies beyond the first page of a walk lies beyond all of it. -/
theorem Walk.beyond (hc : Compares before) {p : List α} {ps : List (List α)}
    (h : Walk before limit rows p ps) {z : α} (hz : ∀ b ∈ p, before z b) :
    ∀ b ∈ ps.flatten, before z b := by
  induction h with
  | stop _ => simpa using hz
  | @next p ps y _ hy _ ih =>
      intro b hb
      rw [List.flatten_cons] at hb
      rcases List.mem_append.mp hb with hb | hb
      · exact hz b hb
      · refine ih (fun b hb => ?_) b hb
        have hyb := (List.mem_filter.mp (List.mem_of_mem_take hb)).2
        exact hc.trans _ _ _ (hz y (mem_of_getLast? hy)) (of_decide_eq_true hyb)

/-- One page of a complete walk: with the rows behind it before its first row,
and the rows ahead beyond its last one, the counts leave no row out of place. -/
theorem Counted.placed {pre p rest : List α} {x y : α}
    (h : Counted before (pre ++ (p ++ rest)) p) (hx : x ∈ p.head?) (hy : y ∈ p.getLast?)
    (hpre : ∀ a ∈ pre, before a x) (hrest : ∀ b ∈ rest, before y b) :
    (∀ b ∈ p ++ rest, ¬ before b x) ∧ ∀ a ∈ pre ++ p, ¬ before y a := by
  have hcount := h x hx y hy
  have h₁ : pre.countP (fun r => decide (before r x)) = pre.length :=
    List.countP_eq_length.mpr fun a ha => decide_eq_true (hpre a ha)
  have h₂ : rest.countP (fun r => decide (before y r)) = rest.length :=
    List.countP_eq_length.mpr fun b hb => decide_eq_true (hrest b hb)
  simp only [List.countP_append, List.length_append, h₁, h₂] at hcount
  constructor
  · intro b hb hbx
    have : 0 < (p ++ rest).countP (fun r => decide (before r x)) :=
      List.countP_pos_iff.mpr ⟨b, hb, decide_eq_true hbx⟩
    rw [List.countP_append] at this
    omega
  · intro a ha hya
    have : 0 < (pre ++ p).countP (fun r => decide (before y r)) :=
      List.countP_pos_iff.mpr ⟨a, ha, decide_eq_true hya⟩
    rw [List.countP_append] at this
    omega

omit [DecidableRel before] in
/-- Beyond the last row nothing is left to separate. -/
theorem separatedAt_of_length_le (h : rows.length ≤ k * limit) :
    SeparatedAt before limit rows k := by
  have hd : rows.drop (k * limit) = [] := List.drop_eq_nil_iff.mpr h
  have hp : page limit rows k = [] := by rw [page, hd, List.take_nil]
  constructor
  · intro a _ b hb
    simp [hd] at hb
  · intro x hx
    simp [hp] at hx
  · intro y hy
    simp [hp] at hy

omit [DecidableRel before] in
/-- The facts about one page give its separation. -/
theorem SeparatedAt.of_placed (hc : Compares before) {pre p rest : List α} {x y : α}
    (hrows : rows = pre ++ (p ++ rest)) (htake : rows.take (k * limit) = pre)
    (hpage : page limit rows k = p) (hx : x ∈ p.head?) (hy : y ∈ p.getLast?)
    (hpre : ∀ a ∈ pre, before a x) (hnot : ∀ b ∈ p ++ rest, ¬ before b x)
    (hlast : ∀ a ∈ p, ¬ before y a) : SeparatedAt before limit rows k := by
  have hdrop : rows.drop (k * limit) = p ++ rest := by
    have hr := List.take_append_drop (k * limit) rows
    rw [htake] at hr
    exact List.append_cancel_left (hr.trans hrows)
  constructor
  · intro a ha b hb
    rw [htake] at ha
    rw [hdrop] at hb
    rcases hc.split a b x (hpre a ha) with hab | hbx
    · exact hab
    · exact (hnot b hb hbx).elim
  · intro x' hx' a ha
    rw [hpage] at hx' ha
    obtain rfl : x = x' := Option.some.inj (hx.symm.trans hx')
    exact hnot a (List.mem_append_left _ ha)
  · intro y' hy' a ha
    rw [hpage] at hy' ha
    obtain rfl : y = y' := Option.some.inj (hy.symm.trans hy')
    exact hlast a ha

/-- A walk from page `k` that completes the rows behind it to the whole table
separates every page from `k` on. -/
theorem Walk.separated_from (hc : Compares before) (hl : 0 < limit) {p : List α}
    {ps : List (List α)} (h : Walk before limit rows p ps) (k : ℕ)
    (hp : p = page limit rows k) (hne : p ≠ [])
    (hpre : ∀ x ∈ p.head?, ∀ a ∈ rows.take (k * limit), before a x)
    (hflat : rows.take (k * limit) ++ ps.flatten = rows) :
    ∀ j, k ≤ j → SeparatedAt before limit rows j := by
  induction h generalizing k with
  | @stop p hcount =>
      obtain ⟨x, hx⟩ := Option.isSome_iff_exists.mp (List.isSome_head?.mpr hne)
      obtain ⟨y, hy⟩ : ∃ y, y ∈ p.getLast? := ⟨_, List.getLast?_eq_some_getLast hne⟩
      have hrows : rows = rows.take (k * limit) ++ (p ++ []) := by
        simpa using hflat.symm
      have hplaced := Counted.placed (hrows ▸ hcount) hx hy (hpre x hx) (by simp)
      intro j hj
      rcases Nat.eq_or_lt_of_le hj with rfl | hj
      · exact SeparatedAt.of_placed hc hrows rfl hp.symm hx hy (hpre x hx) hplaced.1
          fun a ha => hplaced.2 a (List.mem_append_right _ ha)
      · apply separatedAt_of_length_le
        have hlen := congrArg List.length hrows
        have hp' : p.length ≤ limit := by
          rw [hp]
          exact List.length_take_le _ _
        have hmul : (k + 1) * limit ≤ j * limit := Nat.mul_le_mul_right _ hj
        simp only [List.length_append, List.length_take, List.length_nil] at hlen
        rw [Nat.succ_mul] at hmul
        omega
  | @next p ps y hcount hy hw ih =>
      obtain ⟨x, hx⟩ := Option.isSome_iff_exists.mp (List.isSome_head?.mpr hne)
      have hrows : rows = rows.take (k * limit) ++ (p ++ ps.flatten) := by
        simpa using hflat.symm
      have hbeyond : ∀ b ∈ ps.flatten, before y b := hw.beyond hc fun b hb =>
        of_decide_eq_true (List.mem_filter.mp (List.mem_of_mem_take hb)).2
      have hplaced := Counted.placed (hrows ▸ hcount) hx hy (hpre x hx) hbeyond
      have hlast : ∀ a ∈ p, ¬ before y a := fun a ha =>
        hplaced.2 a (List.mem_append_right _ ha)
      have hp' : p.length ≤ limit := by
        rw [hp]
        exact List.length_take_le _ _
      have hsep := SeparatedAt.of_placed hc hrows rfl hp.symm hx hy (hpre x hx) hplaced.1 hlast
      intro j hj
      rcases Nat.eq_or_lt_of_le hj with rfl | hj
      · exact hsep
      by_cases hrest : ps.flatten = []
      · apply separatedAt_of_length_le
        have hlen := congrArg List.length hrows
        have hmul : (k + 1) * limit ≤ j * limit := Nat.mul_le_mul_right _ hj
        rw [hrest] at hlen
        simp only [List.length_append, List.length_take, List.length_nil] at hlen
        rw [Nat.succ_mul] at hmul
        omega
      -- a page with a successor is full
      have hdrop : rows.drop (k * limit) = p ++ ps.flatten := by
        have hr := List.take_append_drop (k * limit) rows
        exact List.append_cancel_left (hr.trans hrows)
      have hfull : p.length = limit := by
        have hlen : p.length = ((p ++ ps.flatten).take limit).length := by
          conv_lhs => rw [hp, page, hdrop]
        have hpos := List.length_pos_iff.mpr hrest
        rw [List.length_take, List.length_append] at hlen
        omega
      have htake : rows.take ((k + 1) * limit) = rows.take (k * limit) ++ p := by
        rw [take_succ_page, ← hp]
      have hdrop' : rows.drop ((k + 1) * limit) = ps.flatten := by
        rw [Nat.succ_mul, ← List.drop_drop, hdrop]
        exact List.drop_left' hfull
      have hfilter : rows.filter (fun r => decide (before y r)) = ps.flatten := by
        conv_lhs => rw [hrows, ← List.append_assoc, List.filter_append]
        rw [List.filter_eq_nil_iff.mpr fun a ha h => hplaced.2 a ha (of_decide_eq_true h),
          List.filter_eq_self.mpr fun b hb => decide_eq_true (hbeyond b hb), List.nil_append]
      rw [hfilter] at ih
      have hpage : ps.flatten.take limit = page limit rows (k + 1) := by
        rw [page, hdrop']
      refine ih (k + 1) hpage (fun h => ?_) (fun x' hx' a ha => ?_) ?_ j hj
      · rcases List.take_eq_nil_iff.mp h with h | h
        · omega
        · exact hrest h
      · have hyx' := hbeyond x' (List.mem_of_mem_take (mem_of_head? hx'))
        rw [htake] at ha
        rcases List.mem_append.mp ha with ha | ha
        · have hxx' : before x x' :=
            (hc.split y x x' hyx').resolve_left (hlast x (mem_of_head? hx))
          exact hc.trans _ _ _ (hpre x hx a ha) hxx'
        · exact (hc.split y a x' hyx').resolve_left (hlast a ha)
      · rw [htake, List.append_assoc]
        exact hrows.symm

/-- A walk from the first page that visits every row, with the right counts at
each page, separates all pages. -/
theorem Walk.separated (hc : Compares before) (hl : 0 < limit) {ps : List (List α)}
    (h : Walk before limit rows (page limit rows 0) ps) (hflat : ps.flatten = rows) :
    Separated before limit rows := by
  intro j
  by_cases hne : page limit rows 0 = []
  · apply separatedAt_of_length_le
    have := (page_eq_nil hl).mp hne
    omega
  · exact h.separated_from hc hl 0 rfl hne (fun x _ a ha => by simp at ha) (by simpa using hflat)
      j (Nat.zero_le j)

/-! ## Sorting and filtering -/

section Sorting

variable {r : α → α → Prop} [DecidableRel r] [Std.Total r] [IsTrans α r] [Std.Antisymm r]

theorem insertionSort_filter (p : α → Bool) (l : List α) :
    (l.filter p).insertionSort r = (l.insertionSort r).filter p := by
  refine List.Perm.eq_of_pairwise' (r := r) (List.pairwise_insertionSort r _)
    ((List.pairwise_insertionSort r l).filter p) ?_
  exact (List.perm_insertionSort r _).trans ((List.perm_insertionSort r l).filter p).symm

theorem insertionSort_eq_of_perm {l l' : List α} (hp : l.Perm l') (hs : l'.Pairwise r) :
    l.insertionSort r = l' :=
  List.Perm.eq_of_pairwise' (r := r) (List.pairwise_insertionSort r _) hs
    ((List.perm_insertionSort r l).trans hp)

end Sorting

end Inmanta.Paging
