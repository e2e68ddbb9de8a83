import Inmanta.Data.DataView

/-!
# Following the paging links of a data view

What a request selects, in terms of the sorted table (`select_after`,
`select_before`), and what the response to it links to (`execute_of_page`).
When the comparison of the page filters agrees with the cut of the sorted
table into pages (`PagesAgree`), every request reached over the links gets a
page of that cut (`Reached.at`).
-/

namespace Inmanta.DataView

open Paging

variable {Row V : Type} [LinearOrder V] [LinearOrder Row] {v : DataView Row V} {table : List Row}

/-- The table in the order of the sort. -/
def sorted (v : DataView Row V) (table : List Row) : List Row :=
  table.insertionSort (v.orderBy false)

/-! ## What a request selects -/

omit [LinearOrder V] [LinearOrder Row] in
/-- The request for the records after `y`, in the direction of the sort. -/
def afterRequest (v : DataView Row V) (y : Row) : RequestedPagingBoundaries V :=
  match v.order.order with
  | .ASC => ⟨v.get y v.order.order_by_column, none, v.id_value y, none⟩
  | .DESC => ⟨none, v.get y v.order.order_by_column, none, v.id_value y⟩

omit [LinearOrder V] [LinearOrder Row] in
/-- The request for the records before `x`, in the direction of the sort. -/
def beforeRequest (v : DataView Row V) (x : Row) : RequestedPagingBoundaries V :=
  match v.order.order with
  | .ASC => ⟨none, v.get x v.order.order_by_column, none, v.id_value x⟩
  | .DESC => ⟨v.get x v.order.order_by_column, none, v.id_value x, none⟩

omit [LinearOrder V] [LinearOrder Row] in
theorem as_filter_none (start : Bool) :
    v.order.as_filter (none : Option V) none start = none := by
  cases h : v.order.cls.id_column <;>
    simp [DatabaseOrder.as_filter, DatabaseOrder.filter_elements, h]

omit [LinearOrder Row] in
theorem passes_row {r x : Row} (hr : v.Admitted r) (hx : v.Admitted x) (start : Bool) :
    v.passes (v.order.as_filter (v.get x v.order.order_by_column) (v.id_value x) start) r
      = (if start then Relation.gt else .lt).holds (v.key r) (v.key x) := by
  obtain ⟨f, hf, hholds⟩ := as_filter_row hr hx start
  rw [hf]
  exact hholds

omit [LinearOrder V] [LinearOrder Row] in
/-- A row's own boundary values are never read as no value at all. -/
theorem boundary_isSome {x : Row} (hx : v.Admitted x) :
    ((v.get x v.order.order_by_column).isSome || (v.id_value x).isSome) = true := by
  cases h : v.order.get_order_by_column_type.nullable
  · simp [hx.sort_column h]
  · obtain ⟨c, hc, -⟩ := v.order.id_of_nullable h
    have : v.id_value x = v.get x c.1 := by
      rw [id_value, Option.mem_def.mp hc]
      rfl
    simp [this, hx.id_column c hc]

theorem sorted_filter (p : Row → Bool) :
    (table.filter p).insertionSort (v.orderBy false) = (v.sorted table).filter p :=
  insertionSort_filter p table

theorem sorted_backward (rows : List Row) :
    rows.insertionSort (v.orderBy true) = (v.sorted rows).reverse := by
  refine insertionSort_eq_of_perm ?_ ?_
  · exact (List.perm_insertionSort _ rows).symm.trans (List.reverse_perm _).symm
  · rw [List.pairwise_reverse]
    exact (List.pairwise_insertionSort (v.orderBy false) rows).imp fun h =>
      (orderBy_invert _ _).mpr h

theorem mem_sorted {r : Row} : r ∈ v.sorted table ↔ r ∈ table :=
  List.mem_insertionSort _

omit [LinearOrder Row] in
theorem filter_passes_none (rows : List Row) :
    rows.filter (v.passes (none : Option (SqlFilter V))) = rows :=
  List.filter_eq_self.mpr fun _ _ => rfl

theorem select_first : v.select_page table firstRequest = page v.limit (v.sorted table) 0 := by
  simp only [select_page, firstRequest, as_filter_none, filter_passes_none,
    RequestedPagingBoundaries.has_end, RequestedPagingBoundaries.has_start, Option.isSome_none,
    Bool.or_self, Bool.and_false, Bool.false_eq_true, if_false, page, Nat.zero_mul, List.drop_zero]
  rfl

omit [LinearOrder Row] in
/-- Two filters that say the same of the rows of the table select the same. -/
theorem filter_eq_of_iff {p q : Row → Bool} {compares : Row → Prop}
    (hq : ∀ r ∈ table, q r = true ↔ compares r) (hp : ∀ r ∈ table, p r = true ↔ compares r) :
    table.filter q = table.filter p :=
  List.filter_congr fun r hr => by rw [Bool.eq_iff_iff, hq r hr, hp r hr]

/-- The page filter of a forward request, on the rows of the table. -/
theorem select_after (hall : ∀ r ∈ table, v.Admitted r) {y : Row} (hy : v.Admitted y)
    {p : Row → Bool} (hp : ∀ r ∈ table, p r = true ↔ v.before y r) :
    v.select_page table (v.afterRequest y) = ((v.sorted table).filter p).take v.limit := by
  rw [← sorted_filter]
  cases hord : v.order.order with
  | ASC =>
      simp only [select_page, afterRequest, hord, as_filter_none, filter_passes_none,
        RequestedPagingBoundaries.has_end, RequestedPagingBoundaries.has_start]
      rw [filter_eq_of_iff (fun r hr => ?_) hp]
      · rfl
      · rw [passes_row (hall r hr) hy]
        simp [before, hord, Relation.holds]
  | DESC =>
      simp only [select_page, afterRequest, hord, as_filter_none, filter_passes_none,
        RequestedPagingBoundaries.has_end, RequestedPagingBoundaries.has_start]
      rw [filter_eq_of_iff (fun r hr => ?_) hp]
      · rfl
      · rw [passes_row (hall r hr) hy]
        simp [before, hord, Relation.holds]

/-- The inverted query of a backward request, on the rows of the table. -/
theorem select_before (hall : ∀ r ∈ table, v.Admitted r) {x : Row} (hx : v.Admitted x)
    {p : Row → Bool} (hp : ∀ r ∈ table, p r = true ↔ v.before r x) :
    v.select_page table (v.beforeRequest x)
      = (((v.sorted table).filter p).reverse.take v.limit).reverse := by
  have hback : ((((table.filter p).insertionSort (v.orderBy true)).take v.limit).insertionSort
      (v.orderBy false)) = (((v.sorted table).filter p).reverse.take v.limit).reverse := by
    rw [sorted_backward, sorted, sorted_filter]
    refine insertionSort_eq_of_perm (List.reverse_perm _).symm ?_
    have hsub := (List.take_sublist v.limit ((v.sorted table).filter p).reverse).reverse
    rw [List.reverse_reverse] at hsub
    exact ((List.pairwise_insertionSort (v.orderBy false) table).sublist
      List.filter_sublist).sublist hsub
  have hsome := boundary_isSome hx
  rw [← hback]
  cases hord : v.order.order with
  | ASC =>
      simp only [select_page, beforeRequest, hord, as_filter_none, filter_passes_none,
        RequestedPagingBoundaries.has_end, RequestedPagingBoundaries.has_start, hsome]
      rw [filter_eq_of_iff (fun r hr => ?_) hp]
      · rfl
      · rw [passes_row (hall r hr) hx]
        simp [before, hord, Relation.holds]
  | DESC =>
      simp only [select_page, beforeRequest, hord, as_filter_none, filter_passes_none,
        RequestedPagingBoundaries.has_end, RequestedPagingBoundaries.has_start, hsome]
      rw [filter_eq_of_iff (fun r hr => ?_) hp]
      · rfl
      · rw [passes_row (hall r hr) hx]
        simp [before, hord, Relation.holds]

/-! ## What a response links to -/

omit [LinearOrder Row] in
instance : DecidableRel v.before := fun a b =>
  match h : v.order.order with
  | .ASC => decidable_of_iff (v.key a < v.key b) (by simp [before, h])
  | .DESC => decidable_of_iff (v.key b < v.key a) (by simp [before, h])

/-- The response whose records are `p`, all of them kept: the counts compare
the table with its first and last record, and the links start from these. -/
theorem execute_of_page (hall : ∀ r ∈ table, v.Admitted r) {req : RequestedPagingBoundaries V}
    (hkeep : ∀ r ∈ v.select_page table req, v.keeps r = true) {x y : Row}
    (hx : x ∈ (v.select_page table req).head?) (hy : y ∈ (v.select_page table req).getLast?)
    (hxt : x ∈ table) (hyt : y ∈ table) :
    let rows := v.sorted table
    let countBefore := rows.countP fun r => decide (v.before r x)
    let countAfter := rows.countP fun r => decide (v.before y r)
    v.execute table req =
      { dtos := v.select_page table req
        links :=
          { next := if 0 < countAfter then some (v.afterRequest y) else none
            prev := if 0 < countBefore then some (v.beforeRequest x) else none
            first := if 0 < countBefore then some firstRequest else none
            self := ⟨req.start, none, req.first_id, none⟩ }
        metadata := ⟨rows.length, countBefore, countAfter, v.limit⟩ } := by
  intro rows countBefore countAfter
  have hdtos : (v.select_page table req).filter v.keeps = v.select_page table req :=
    List.filter_eq_self.mpr hkeep
  have hdata : v.get_data table req = (v.select_page table req, v.get_paging_boundaries x y) := by
    have hne : v.select_page table req ≠ [] := fun h => by simp [h] at hx
    simp only [get_data, hdtos]
    rw [Option.mem_def.mp hx, Option.mem_def.mp hy]
    obtain ⟨a, l, hal⟩ := List.exists_cons_of_ne_nil hne
    rw [hal]
  have hperm : rows.Perm table := List.perm_insertionSort _ _
  have hcount : ∀ {z : Row} (hz : z ∈ table) (start : Bool) (q : Row → Prop) [DecidablePred q],
      (∀ r ∈ table, (if start then Relation.gt else .lt).holds (v.key r) (v.key z) = true ↔ q r) →
      table.countP (v.passes (v.order.as_filter (v.get z v.order.order_by_column) (v.id_value z)
        start)) = rows.countP fun r => decide (q r) := by
    intro z hz start q _ hq
    rw [hperm.countP_eq]
    refine List.countP_congr fun r hr => ?_
    rw [passes_row (hall r hr) (hall z hz), hq r hr, decide_eq_true_iff]
  have hsome : ∀ {z : Row}, z ∈ table → ∀ start, (v.order.as_filter
      (v.get z v.order.order_by_column) (v.id_value z) start).isSome = true := by
    intro z hz start
    obtain ⟨f, hf, -⟩ := as_filter_row (hall z hz) (hall z hz) start
    rw [hf]
    rfl
  have hmeta : v.get_page_count table (v.get_paging_boundaries x y)
      = ⟨rows.length, countBefore, countAfter, v.limit⟩ := by
    cases hord : v.order.order with
    | ASC =>
        have hb := hcount hxt false (fun r => v.before r x) fun r _ => by
          simp [Relation.holds, before, hord]
        have ha := hcount hyt true (fun r => v.before y r) fun r _ => by
          simp [Relation.holds, before, hord]
        have hne : (PagingOrder.ASC == PagingOrder.DESC) = false := rfl
        simp only [get_page_count, get_paging_boundaries, hord, if_true, hne, Bool.false_eq_true,
          if_false, Bool.not_false, ← Option.not_isSome, hsome hxt, hsome hyt, Bool.not_true,
          Bool.and_self, hb, ha, ← hperm.length_eq]
        rfl
    | DESC =>
        have hb := hcount hxt true (fun r => v.before r x) fun r _ => by
          simp [Relation.holds, before, hord]
        have ha := hcount hyt false (fun r => v.before y r) fun r _ => by
          simp [Relation.holds, before, hord]
        simp only [get_page_count, get_paging_boundaries, hord, if_true, beq_self_eq_true,
          Bool.false_eq_true, reduceCtorEq, if_false, ← Option.not_isSome, hsome hxt, hsome hyt,
          Bool.not_true, Bool.and_self, hb, ha, ← hperm.length_eq]
        rfl
  simp only [execute, hdata, hmeta]
  cases hord : v.order.order <;>
    simp [prepare_paging_links, get_paging_boundaries, afterRequest, beforeRequest, hord]

theorem mem_of_select {req : RequestedPagingBoundaries V} {r : Row}
    (h : r ∈ v.select_page table req) : r ∈ table := by
  have hmem : ∀ backward, r ∈ (((table.filter
      (v.passes (v.order.as_filter req.start req.first_id true))).filter
      (v.passes (v.order.as_filter req.end_ req.last_id false))).insertionSort
      (v.orderBy backward)).take v.limit → r ∈ table := by
    intro backward h
    have := (List.mem_insertionSort _).mp (List.mem_of_mem_take h)
    exact (List.mem_filter.mp (List.mem_filter.mp this).1).1
  simp only [select_page] at h
  split at h
  · exact hmem _ ((List.mem_insertionSort _).mp h)
  · exact hmem _ h

theorem execute_dtos (req : RequestedPagingBoundaries V) :
    (v.execute table req).dtos = (v.select_page table req).filter v.keeps := by
  simp only [execute, get_data]
  split <;> simp_all

theorem execute_self (req : RequestedPagingBoundaries V) :
    (v.execute table req).links.self = ⟨req.start, none, req.first_id, none⟩ := rfl

/-- Every link of a response is a request that `validate` accepts. -/
theorem links_valid (req req' : RequestedPagingBoundaries V)
    (h : (v.execute table req).links.next = some req' ∨
      (v.execute table req).links.prev = some req' ∨
      (v.execute table req).links.first = some req' ∨
      (v.execute table req).links.self = req') : req'.validate = true := by
  have hend : ∀ a b : Option V, RequestedPagingBoundaries.validate ⟨none, a, none, b⟩ = true := by
    intro a b
    simp [RequestedPagingBoundaries.validate, RequestedPagingBoundaries.has_start]
  have hstart : ∀ a b : Option V,
      RequestedPagingBoundaries.validate ⟨a, none, b, none⟩ = true := by
    intro a b
    simp [RequestedPagingBoundaries.validate, RequestedPagingBoundaries.has_end]
  simp only [execute, prepare_paging_links] at h
  rcases h with h | h | h | h
  · split at h
    · obtain rfl := Option.some.inj h
      split
      · exact hend _ _
      · exact hstart _ _
    · cases h
  · split at h
    · obtain rfl := Option.some.inj h
      split
      · exact hstart _ _
      · exact hend _ _
    · cases h
  · split at h
    · obtain rfl := Option.some.inj h
      exact hstart none none
    · cases h
  · subst h
    exact hstart _ _

/-- An empty table has one empty page, without links to follow. -/
theorem execute_empty :
    v.execute [] firstRequest
      = { dtos := []
          links := ⟨none, none, none, firstRequest⟩
          metadata := ⟨0, 0, 0, v.limit⟩ } := by
  have hsel : v.select_page [] firstRequest = [] :=
    List.eq_nil_iff_forall_not_mem.mpr fun r h => by simpa using mem_of_select h
  have hdata : v.get_data [] firstRequest = ([], ⟨none, none, none, none⟩) := by
    simp only [get_data, hsel, List.filter_nil]
    rfl
  simp only [execute, hdata]
  simp [get_page_count, prepare_paging_links, firstRequest, as_filter_none]

/-! ## The pages reached -/

/-- Follow the 'next' links, from a request on, until there is none. -/
def follow_next (v : DataView Row V) (table : List Row) :
    ℕ → RequestedPagingBoundaries V → Option (List (Response Row V))
  | 0, _ => none
  | fuel + 1, req =>
      let response := v.execute table req
      match response.links.next with
      | none => some [response]
      | some req' => (follow_next v table fuel req').map (response :: ·)

/-- The requests reached from the first page over 'next' and 'prev' links. -/
inductive Reached (v : DataView Row V) (table : List Row) : RequestedPagingBoundaries V → Prop
  | first : Reached v table firstRequest
  | next {req req'} : Reached v table req → (v.execute table req).links.next = some req' →
      Reached v table req'
  | prev {req req'} : Reached v table req → (v.execute table req).links.prev = some req' →
      Reached v table req'

/-- The sorted table, cut into pages, agrees with what the page filters compare:
rows of different pages compare in the order of their pages, no row compares
before the first or after the last row of its own page, and all rows are kept. -/
structure PagesAgree (v : DataView Row V) (table : List Row) : Prop where
  kept : ∀ r ∈ table, v.keeps r = true
  separated : Separated v.before v.limit (v.sorted table)

/-- The request for page `k`: the first page, the one after the last row of the
page before it, or the one before the first row of the page after it. -/
inductive At (v : DataView Row V) (table : List Row) : RequestedPagingBoundaries V → ℕ → Prop
  | first : At v table firstRequest 0
  | after {k y} : y ∈ (page v.limit (v.sorted table) k).getLast? →
      (k + 1) * v.limit < table.length → At v table (v.afterRequest y) (k + 1)
  | before {k x} : x ∈ (page v.limit (v.sorted table) (k + 1)).head? →
      (k + 1) * v.limit < table.length → At v table (v.beforeRequest x) k

theorem length_sorted : (v.sorted table).length = table.length :=
  List.length_insertionSort _ _

theorem mem_of_page {k : ℕ} {r : Row} (h : r ∈ page v.limit (v.sorted table) k) : r ∈ table :=
  mem_sorted.mp (List.mem_of_mem_drop (List.mem_of_mem_take h))

variable (hl : 0 < v.limit) (hall : ∀ r ∈ table, v.Admitted r)

include hall in
theorem At.select (hpages : v.PagesAgree table) {req : RequestedPagingBoundaries V} {k : ℕ}
    (h : v.At table req k) : v.select_page table req = page v.limit (v.sorted table) k := by
  have hc := v.before_compares
  cases h with
  | first => exact select_first
  | @after k y hy hk =>
      have hyt := mem_of_page (mem_of_getLast? hy)
      rw [select_after hall (hall y hyt) (p := fun r => decide (v.before y r))
          fun r _ => decide_eq_true_iff,
        hpages.separated.filter_after hc hy fun r _ => decide_eq_true_iff]
      rfl
  | @before k x hx hk =>
      have hxt := mem_of_page (mem_of_head? hx)
      rw [select_before hall (hall x hxt) (p := fun r => decide (v.before r x))
          fun r _ => decide_eq_true_iff,
        hpages.separated.filter_before hc hx fun r _ => decide_eq_true_iff]
      apply page_of_backward
      rw [length_sorted]
      exact hk.le

theorem At.index_lt (hne : table ≠ []) {req : RequestedPagingBoundaries V} {k : ℕ}
    (h : v.At table req k) : k * v.limit < table.length := by
  cases h with
  | first => simpa using List.length_pos_iff.mpr hne
  | after _ hk => exact hk
  | before _ hk => exact (Nat.mul_le_mul_right _ (Nat.le_succ _)).trans_lt hk

include hl hall in
/-- The response to a request for page `k`. -/
theorem At.execute (hpages : v.PagesAgree table) (hne : table ≠ [])
    {req : RequestedPagingBoundaries V} {k : ℕ} (h : v.At table req k) :
    ∃ x ∈ (page v.limit (v.sorted table) k).head?,
    ∃ y ∈ (page v.limit (v.sorted table) k).getLast?,
      v.execute table req =
        { dtos := page v.limit (v.sorted table) k
          links :=
            { next := if (k + 1) * v.limit < table.length then some (v.afterRequest y) else none
              prev := if 0 < k then some (v.beforeRequest x) else none
              first := if 0 < k then some firstRequest else none
              self := ⟨req.start, none, req.first_id, none⟩ }
          metadata := ⟨table.length, k * v.limit, table.length - (k + 1) * v.limit, v.limit⟩ } := by
  have hk := h.index_lt hne
  have hsel := h.select hall hpages
  have hpage : page v.limit (v.sorted table) k ≠ [] := by
    intro h'
    rw [page_eq_nil hl, length_sorted] at h'
    omega
  obtain ⟨x, hx⟩ := Option.isSome_iff_exists.mp (List.isSome_head?.mpr hpage)
  obtain ⟨y, hy⟩ : ∃ y, y ∈ (page v.limit (v.sorted table) k).getLast? :=
    ⟨_, List.getLast?_eq_some_getLast hpage⟩
  refine ⟨x, hx, y, hy, ?_⟩
  have hbefore : (v.sorted table).countP (fun r => decide (v.before r x)) = k * v.limit := by
    rw [List.countP_eq_length_filter,
      hpages.separated.filter_before v.before_compares hx fun r _ => decide_eq_true_iff,
      List.length_take, length_sorted, Nat.min_eq_left hk.le]
  have hafter : (v.sorted table).countP (fun r => decide (v.before y r))
      = table.length - (k + 1) * v.limit := by
    rw [List.countP_eq_length_filter,
      hpages.separated.filter_after v.before_compares hy fun r _ => decide_eq_true_iff,
      List.length_drop, length_sorted]
  have hpos : 0 < k * v.limit ↔ 0 < k := by
    rw [Nat.mul_pos_iff_of_pos_right hl]
  rw [execute_of_page hall (fun r hr => hpages.kept r (mem_of_select hr)) (hsel ▸ hx) (hsel ▸ hy)
    (mem_of_page (mem_of_head? hx)) (mem_of_page (mem_of_getLast? hy))]
  simp only [hbefore, hafter, hsel, length_sorted, Nat.sub_pos_iff_lt, hpos]

include hl hall in
/-- Every request reached over the links is one for a page of the cut. -/
theorem Reached.at (hpages : v.PagesAgree table) (hne : table ≠ [])
    {req : RequestedPagingBoundaries V} (h : v.Reached table req) : ∃ k, v.At table req k := by
  induction h with
  | first => exact ⟨0, .first⟩
  | @next req req' _ hlink ih =>
      obtain ⟨k, hk⟩ := ih
      obtain ⟨x, hx, y, hy, he⟩ := hk.execute hl hall hpages hne
      rw [he] at hlink
      by_cases hlt : (k + 1) * v.limit < table.length
      · rw [if_pos hlt] at hlink
        obtain rfl := Option.some.inj hlink
        exact ⟨k + 1, .after hy hlt⟩
      · simp [hlt] at hlink
  | @prev req req' _ hlink ih =>
      obtain ⟨k, hk⟩ := ih
      obtain ⟨x, hx, y, hy, he⟩ := hk.execute hl hall hpages hne
      rw [he] at hlink
      cases k with
      | zero => simp at hlink
      | succ k =>
          simp only [Nat.succ_pos, if_true] at hlink
          obtain rfl := Option.some.inj hlink
          exact ⟨k, .before hx (hk.index_lt hne)⟩

/-- On an empty table only the first page is reached. -/
theorem Reached.of_empty {req : RequestedPagingBoundaries V} (h : v.Reached [] req) :
    req = firstRequest := by
  induction h with
  | first => rfl
  | next _ hlink ih =>
      rw [ih, execute_empty] at hlink
      cases hlink
  | prev _ hlink ih =>
      rw [ih, execute_empty] at hlink
      cases hlink

end Inmanta.DataView
