import Inmanta.Data.PagingLinks

/-!
# Paging visits every record once

The laws of paging: following 'next' from the first page returns each record
exactly once, in the order of the sort (`VisitsOnce`); 'prev' of the page that
'next' leads to returns the page it came from (`PrevReturns`); the records
before a page, on it and after it add up to the total (`CountsAdd`); and 'self'
returns the page itself (`SelfReturns`).

The first three hold exactly when the page filters agree with the cut of the
sorted table into pages (`laws_iff`). The 'self' link carries `start` and
`first_id` only, so it loses the boundary of a page that was asked for by `end`
and `last_id`: a page after the first one in a descending order, a page reached
by 'prev' in an ascending one (`self_returns_iff`).
-/

namespace Inmanta.DataView

open Paging

variable {Row V : Type} [LinearOrder V] [LinearOrder Row] {v : DataView Row V} {table : List Row}

def VisitsOnce (v : DataView Row V) (table : List Row) : Prop :=
  ∃ fuel responses, v.follow_next table fuel firstRequest = some responses
    ∧ (responses.flatMap (·.dtos)).Perm table
    ∧ (responses.flatMap (·.dtos)).Pairwise (v.orderBy false)

def PrevReturns (v : DataView Row V) (table : List Row) : Prop :=
  ∀ req req', v.Reached table req → (v.execute table req).links.next = some req' →
    ∃ req'', (v.execute table req').links.prev = some req''
      ∧ (v.execute table req'').dtos = (v.execute table req).dtos

def CountsAdd (v : DataView Row V) (table : List Row) : Prop :=
  ∀ req, v.Reached table req → (v.execute table req).dtos ≠ [] →
    (v.execute table req).metadata.before + (v.execute table req).dtos.length
      + (v.execute table req).metadata.after = (v.execute table req).metadata.total

def SelfReturns (v : DataView Row V) (table : List Row) : Prop :=
  ∀ req, v.Reached table req →
    (v.execute table (v.execute table req).links.self).dtos = (v.execute table req).dtos

/-! ## Agreeing pages are enough -/

section Enough

variable (hl : 0 < v.limit) (hall : ∀ r ∈ table, v.Admitted r) (hpages : v.PagesAgree table)

include hl hall hpages in
/-- Following 'next' from page `k` returns the rows from it on. -/
theorem At.follow_next (hne : table ≠ []) {req : RequestedPagingBoundaries V} {k : ℕ}
    (h : v.At table req k) :
    ∃ fuel responses, v.follow_next table fuel req = some responses
      ∧ responses.flatMap (·.dtos) = (v.sorted table).drop (k * v.limit) := by
  induction hm : table.length - k * v.limit using Nat.strong_induction_on
    generalizing req k with
  | _ m ih =>
      obtain ⟨x, -, y, hy, he⟩ := h.execute hl hall hpages hne
      by_cases hlt : (k + 1) * v.limit < table.length
      · have hsmaller : table.length - (k + 1) * v.limit < m := by
          rw [Nat.succ_mul] at hlt ⊢
          omega
        obtain ⟨fuel, responses, hf, hr⟩ := ih _ hsmaller (.after hy hlt) rfl
        refine ⟨fuel + 1, v.execute table req :: responses, ?_, ?_⟩
        · simp only [DataView.follow_next]
          rw [he]
          simp only [if_pos hlt, hf, Option.map_some]
        · rw [List.flatMap_cons, hr, he]
          exact drop_page.symm
      · refine ⟨1, [v.execute table req], ?_, ?_⟩
        · simp only [DataView.follow_next]
          rw [he]
          simp only [if_neg hlt]
        · have hdrop : (v.sorted table).drop ((k + 1) * v.limit) = [] := by
            rw [List.drop_eq_nil_iff, length_sorted]
            omega
          rw [List.flatMap_cons, List.flatMap_nil, he, List.append_nil, drop_page (k := k), hdrop,
            List.append_nil]

include hl hall hpages in
theorem visits_of_pagesAgree : v.VisitsOnce table := by
  by_cases hne : table = []
  · subst hne
    refine ⟨1, [v.execute [] firstRequest], ?_, ?_, ?_⟩
    · simp only [DataView.follow_next, execute_empty]
    · simp [execute_empty]
    · simp [execute_empty]
  · obtain ⟨fuel, responses, hf, hr⟩ := At.follow_next hl hall hpages hne .first
    rw [Nat.zero_mul, List.drop_zero] at hr
    refine ⟨fuel, responses, hf, ?_, ?_⟩
    · rw [hr]
      exact List.perm_insertionSort _ _
    · rw [hr]
      exact List.pairwise_insertionSort _ _

include hl hall hpages in
theorem prevReturns_of_pagesAgree : v.PrevReturns table := by
  intro req req' hreq hnext
  by_cases hne : table = []
  · subst hne
    rw [hreq.of_empty, execute_empty] at hnext
    cases hnext
  · obtain ⟨k, hk⟩ := hreq.at hl hall hpages hne
    obtain ⟨x, hx, y, hy, he⟩ := hk.execute hl hall hpages hne
    rw [he] at hnext
    by_cases hlt : (k + 1) * v.limit < table.length
    · simp only [if_pos hlt] at hnext
      obtain rfl := Option.some.inj hnext
      have hk' : v.At table (v.afterRequest y) (k + 1) := .after hy hlt
      obtain ⟨x', hx', y', -, he'⟩ := hk'.execute hl hall hpages hne
      refine ⟨v.beforeRequest x', by simp [he'], ?_⟩
      obtain ⟨_, -, _, -, he''⟩ :=
        (At.before hx' hlt : v.At table (v.beforeRequest x') k).execute hl hall hpages hne
      rw [he'', he]
    · simp [hlt] at hnext

include hl hall hpages in
theorem countsAdd_of_pagesAgree : v.CountsAdd table := by
  intro req hreq _
  by_cases hne : table = []
  · subst hne
    rw [hreq.of_empty, execute_empty]
    rfl
  · obtain ⟨k, hk⟩ := hreq.at hl hall hpages hne
    have hlt := hk.index_lt hne
    obtain ⟨x, -, y, -, he⟩ := hk.execute hl hall hpages hne
    rw [he]
    simp only [page, List.length_take, List.length_drop, length_sorted, Nat.succ_mul]
    omega

end Enough

/-! ## Agreeing pages are needed -/

theorem mem_follow_next {fuel : ℕ} {req : RequestedPagingBoundaries V}
    {responses : List (Response Row V)} (h : v.follow_next table fuel req = some responses) :
    ∀ response ∈ responses, ∃ req', response = v.execute table req' := by
  induction fuel generalizing req responses with
  | zero => cases h
  | succ fuel ih =>
      simp only [DataView.follow_next] at h
      split at h
      · obtain rfl := Option.some.inj h
        intro response hr
        exact ⟨req, List.mem_singleton.mp hr⟩
      · obtain ⟨rest, hrest, rfl⟩ := Option.map_eq_some_iff.mp h
        intro response hr
        rcases List.mem_cons.mp hr with rfl | hr
        · exact ⟨req, rfl⟩
        · exact ih hrest response hr

/-- A visit that returns every record finds all of them kept. -/
theorem VisitsOnce.kept (h : v.VisitsOnce table) : ∀ r ∈ table, v.keeps r = true := by
  obtain ⟨fuel, responses, hf, hperm, -⟩ := h
  intro r hr
  obtain ⟨response, hresponse, hmem⟩ := List.mem_flatMap.mp (hperm.mem_iff.mpr hr)
  obtain ⟨req, rfl⟩ := mem_follow_next hf response hresponse
  rw [execute_dtos] at hmem
  exact (List.mem_filter.mp hmem).2

section Needed

variable (hl : 0 < v.limit) (hall : ∀ r ∈ table, v.Admitted r)

include hl hall in
/-- The responses of a visit are a walk along the pages. -/
theorem walk_of_follow_next (hkept : ∀ r ∈ table, v.keeps r = true) (hcounts : v.CountsAdd table)
    {fuel : ℕ} {req : RequestedPagingBoundaries V} {responses : List (Response Row V)}
    (hreq : v.Reached table req) (hne : v.select_page table req ≠ [])
    (h : v.follow_next table fuel req = some responses) :
    Walk v.before v.limit (v.sorted table) (v.select_page table req) (responses.map (·.dtos)) := by
  induction fuel generalizing req responses with
  | zero => cases h
  | succ fuel ih =>
      obtain ⟨x, hx⟩ := Option.isSome_iff_exists.mp (List.isSome_head?.mpr hne)
      obtain ⟨y, hy⟩ : ∃ y, y ∈ (v.select_page table req).getLast? :=
        ⟨_, List.getLast?_eq_some_getLast hne⟩
      have hyt := mem_of_select (mem_of_getLast? hy)
      have he := execute_of_page hall (fun r hr => hkept r (mem_of_select hr)) hx hy
        (mem_of_select (mem_of_head? hx)) hyt
      have hcounted : Counted v.before (v.sorted table) (v.select_page table req) := by
        intro x' hx' y' hy'
        obtain rfl : x = x' := Option.some.inj (hx.symm.trans hx')
        obtain rfl : y = y' := Option.some.inj (hy.symm.trans hy')
        have hc := hcounts req hreq
        rw [he] at hc
        exact hc hne
      simp only [DataView.follow_next] at h
      by_cases hafter : 0 < (v.sorted table).countP fun r => decide (v.before y r)
      · have hnext : (v.execute table req).links.next = some (v.afterRequest y) := by
          rw [he]
          exact if_pos hafter
        rw [hnext] at h
        obtain ⟨rest, hrest, rfl⟩ := Option.map_eq_some_iff.mp h
        have hsel := select_after hall (hall y hyt) (p := fun r => decide (v.before y r))
          fun r _ => decide_eq_true_iff
        have hne' : v.select_page table (v.afterRequest y) ≠ [] := by
          rw [hsel]
          intro h'
          rcases List.take_eq_nil_iff.mp h' with h' | h'
          · omega
          · rw [List.countP_eq_length_filter, h'] at hafter
            exact absurd hafter (Nat.lt_irrefl 0)
        have hwalk := ih (hreq.next hnext) hne' hrest
        rw [hsel] at hwalk
        rw [List.map_cons, he]
        exact .next hcounted hy hwalk
      · have hnext : (v.execute table req).links.next = none := by
          rw [he]
          exact if_neg hafter
        rw [hnext] at h
        obtain rfl := Option.some.inj h
        rw [List.map_cons, List.map_nil, he]
        exact .stop hcounted

include hl hall in
theorem pagesAgree_of_laws (hvisits : v.VisitsOnce table) (hcounts : v.CountsAdd table) :
    v.PagesAgree table := by
  have hkept := hvisits.kept
  refine ⟨hkept, ?_⟩
  by_cases hne : v.select_page table firstRequest = []
  · rw [select_first, page_eq_nil hl, Nat.zero_mul] at hne
    intro k
    exact separatedAt_of_length_le (by omega)
  · obtain ⟨fuel, responses, hf, hperm, hsorted⟩ := hvisits
    have hwalk := walk_of_follow_next hl hall hkept hcounts .first hne hf
    have hflat : (responses.map (·.dtos)).flatten = v.sorted table := by
      rw [← List.flatMap_def]
      exact (insertionSort_eq_of_perm hperm.symm hsorted).symm
    rw [select_first] at hwalk
    exact hwalk.separated v.before_compares hl hflat

include hl hall in
/-- Visiting every record once, returning by 'prev' and adding up the counts
come down to the page filters agreeing with the cut of the table into pages. -/
theorem laws_iff :
    (v.VisitsOnce table ∧ v.PrevReturns table ∧ v.CountsAdd table) ↔ v.PagesAgree table := by
  constructor
  · rintro ⟨hvisits, -, hcounts⟩
    exact pagesAgree_of_laws hl hall hvisits hcounts
  · intro hpages
    exact ⟨visits_of_pagesAgree hl hall hpages, prevReturns_of_pagesAgree hl hall hpages,
      countsAdd_of_pagesAgree hl hall hpages⟩

end Needed

/-! ## Distinct keys are enough -/

section Keys

omit [LinearOrder Row] in
/-- On one column, reading NULL as the least value of the type keeps the order
of the values. -/
theorem precedes_of_lt {type : ColumnType} {a b : Option V} {least : V}
    (ha : type.nullable = false → a.isSome) (hb : type.nullable = false → b.isSome)
    (hleast : type.nullable = true → ∀ value ∈ b, least < value)
    (hleast' : type.nullable = true → ∀ value ∈ a, least < value)
    (h : a.getD least < b.getD least) :
    a ≠ b ∧ (PagingOrder.ASC.db_form type.nullable).precedes a b = true := by
  cases hn : type.nullable
  · obtain ⟨x, rfl⟩ := Option.isSome_iff_exists.mp (ha hn)
    obtain ⟨y, rfl⟩ := Option.isSome_iff_exists.mp (hb hn)
    rw [Option.getD_some, Option.getD_some] at h
    exact ⟨fun he => h.ne (Option.some.inj he), decide_eq_true h⟩
  · cases a with
    | none =>
        cases b with
        | none => exact absurd h (lt_irrefl _)
        | some y => exact ⟨Option.some_ne_none y |>.symm, rfl⟩
    | some x =>
        cases b with
        | none => exact absurd h (lt_asymm (hleast' hn x rfl))
        | some y => exact ⟨fun he => h.ne (Option.some.inj he), decide_eq_true h⟩

omit [LinearOrder Row] in
theorem eq_of_getD_eq {type : ColumnType} {a b : Option V} {least : V}
    (ha : type.nullable = false → a.isSome) (hb : type.nullable = false → b.isSome)
    (hleast : type.nullable = true → ∀ value ∈ b, least < value)
    (hleast' : type.nullable = true → ∀ value ∈ a, least < value)
    (h : a.getD least = b.getD least) : a = b := by
  cases a with
  | some x =>
      cases b with
      | some y => exact congrArg some h
      | none =>
          cases hn : type.nullable
          · cases hb hn
          · exact absurd h (hleast' hn x rfl).ne'
  | none =>
      cases b with
      | none => rfl
      | some y =>
          cases hn : type.nullable
          · cases ha hn
          · exact absurd h (hleast hn y rfl).ne

/-- A nullable sort column holds no value that COALESCE would confuse with NULL. -/
def NullIsLeast (v : DataView Row V) (table : List Row) : Prop :=
  v.order.get_order_by_column_type.nullable = true → ∀ r ∈ table,
    ∀ value ∈ v.get r v.order.order_by_column,
      v.literal v.order.get_order_by_column_type.base_type < value

variable (hall : ∀ r ∈ table, v.Admitted r) (hnull : v.NullIsLeast table)

include hall hnull in
theorem sorts_of_key_lt {a b : Row} (ha : a ∈ table) (hb : b ∈ table) (h : v.key a < v.key b) :
    v.sorts .ASC (((v.order.order_by_column, v.order.get_order_by_column_type)
      :: v.order.cls.id_column.toList).map fun c => (c.1, c.2, PagingOrder.ASC)) a b := by
  have hlt := precedes_of_lt (hall a ha).sort_column (hall b hb).sort_column
    (fun hn => hnull hn b hb) (fun hn => hnull hn a ha)
  have heq := eq_of_getD_eq (hall a ha).sort_column (hall b hb).sort_column
    (fun hn => hnull hn b hb) (fun hn => hnull hn a ha)
  simp only [List.map_cons, sorts]
  cases hid : v.order.cls.id_column with
  | none =>
      simp only [key, hid, Prod.Lex.toLex_lt_toLex] at h
      obtain ⟨hne, hp⟩ := hlt (h.elim id And.right)
      rw [if_neg hne]
      exact hp
  | some d =>
      obtain ⟨id_name, id_type⟩ := d
      by_cases hsame : id_name = v.order.order_by_column
      · simp only [key, hid, if_pos hsame, Prod.Lex.toLex_lt_toLex] at h
        obtain ⟨hne, hp⟩ := hlt (h.elim id And.right)
        rw [if_neg hne]
        exact hp
      · simp only [key, hid, if_neg hsame, Prod.Lex.toLex_lt_toLex] at h
        rcases h with h | ⟨hcol, h⟩
        · obtain ⟨hne, hp⟩ := hlt h
          rw [if_neg hne]
          exact hp
        · rw [if_pos (heq hcol)]
          have hnotnull := v.order.cls.id_column_not_nullable _ hid
          have hnever : id_type.nullable = true → ∀ r : Row, ∀ value ∈ v.get r id_name,
              v.literal id_type.base_type < value := fun hn => by simp [hn] at hnotnull
          obtain ⟨hne, hp⟩ := precedes_of_lt (fun _ => (hall a ha).id_column _ hid)
            (fun _ => (hall b hb).id_column _ hid) (fun hn => hnever hn b)
            (fun hn => hnever hn a) h
          simp only [Option.toList_some, List.map_cons, List.map_nil, sorts]
          rw [if_neg hne]
          exact hp

include hall hnull in
theorem orderBy_of_before {a b : Row} (ha : a ∈ table) (hb : b ∈ table) (h : v.before a b) :
    v.orderBy false a b := by
  unfold orderBy
  rw [order_elements_eq]
  unfold before at h
  cases hord : v.order.order with
  | ASC =>
      rw [hord] at h
      simpa [DatabaseOrder.get_order, hord] using sorts_of_key_lt hall hnull ha hb h
  | DESC =>
      rw [hord] at h
      have := (sorts_invert .ASC _ a b).mpr (sorts_of_key_lt hall hnull hb ha h)
      simpa [DatabaseOrder.get_order, PagingOrder.invert, hord] using this

include hall hnull in
/-- A view whose rows have distinct keys and whose NULLs are least has pages
that agree, whatever the page size. -/
theorem pagesAgree_of_keys (hd : table.Nodup) (hkept : ∀ r ∈ table, v.keeps r = true)
    (hkeys : ∀ a ∈ table, ∀ b ∈ table, v.key a = v.key b → a = b) : v.PagesAgree table := by
  refine ⟨hkept, Separated.of_pairwise v.before_compares ?_⟩
  have hnodup : (v.sorted table).Nodup := ((List.perm_insertionSort _ table).nodup_iff).mpr hd
  have hsorted := List.pairwise_insertionSort (v.orderBy false) table
  refine (hsorted.and hnodup).imp_of_mem fun {a b} ha hb hab => ?_
  rw [mem_sorted] at ha hb
  have hback : ¬ v.before b a := fun h =>
    hab.2 (sorts_antisymm _ _ hab.1 (orderBy_of_before hall hnull hb ha h))
  have hne : v.key a ≠ v.key b := fun h => hab.2 (hkeys a ha b hb h)
  unfold before at hback ⊢
  cases hord : v.order.order with
  | ASC =>
      simp only [hord] at hback
      exact lt_of_le_of_ne (not_lt.mp hback) hne
  | DESC =>
      simp only [hord] at hback
      exact lt_of_le_of_ne (not_lt.mp hback) hne.symm

end Keys

/-! ## The 'self' link -/

section Self

variable (hl : 0 < v.limit) (hall : ∀ r ∈ table, v.Admitted r) (hpages : v.PagesAgree table)

include hl hall hpages in
theorem At.dtos (hne : table ≠ []) {req : RequestedPagingBoundaries V} {k : ℕ}
    (h : v.At table req k) : (v.execute table req).dtos = page v.limit (v.sorted table) k := by
  obtain ⟨x, -, y, -, he⟩ := h.execute hl hall hpages hne
  rw [he]

include hl hall hpages in
/-- The request that 'next' leads to from page `k`. -/
theorem At.next (hne : table ≠ []) {req : RequestedPagingBoundaries V} {k : ℕ}
    (h : v.At table req k) (hreq : v.Reached table req)
    (hlt : (k + 1) * v.limit < table.length) :
    ∃ y, v.At table (v.afterRequest y) (k + 1) ∧ v.Reached table (v.afterRequest y) := by
  obtain ⟨x, -, y, hy, he⟩ := h.execute hl hall hpages hne
  refine ⟨y, .after hy hlt, hreq.next ?_⟩
  rw [he]
  exact if_pos hlt

include hl hall hpages in
/-- A reached page whose 'self' link asks for the first page is the first page. -/
theorem SelfReturns.eq_zero (h : v.SelfReturns table) (hd : table.Nodup) (hne : table ≠ [])
    {req : RequestedPagingBoundaries V} {k : ℕ} (hk : v.At table req k)
    (hreq : v.Reached table req) (hstart : req.start = none) (hfirst : req.first_id = none) :
    k = 0 := by
  have hself := h req hreq
  rw [execute_self, hstart, hfirst, hk.dtos hl hall hpages hne,
    show (⟨none, none, none, none⟩ : RequestedPagingBoundaries V) = firstRequest from rfl,
    At.dtos hl hall hpages hne .first] at hself
  have hnodup : (v.sorted table).Nodup := ((List.perm_insertionSort _ table).nodup_iff).mpr hd
  have hlt := hk.index_lt hne
  refine page_injective hl hnodup ?_ hself.symm
  rwa [length_sorted]

include hl hall hpages in
/-- The 'self' links are right exactly on a single page, or on two pages in an
ascending order. -/
theorem self_returns_iff (hd : table.Nodup) :
    v.SelfReturns table ↔ table.length ≤ v.limit
      ∨ v.order.order = .ASC ∧ table.length ≤ 2 * v.limit := by
  by_cases hne : table = []
  · subst hne
    refine ⟨fun _ => .inl (Nat.zero_le _), fun _ req hreq => ?_⟩
    rw [hreq.of_empty]
    rfl
  constructor
  · intro h
    by_contra hcon
    rw [not_or, not_le] at hcon
    obtain ⟨hlt, hcon⟩ := hcon
    obtain ⟨y, hk, hreq⟩ := At.next hl hall hpages hne .first .first (by simpa using hlt)
    cases hord : v.order.order with
    | DESC =>
        have := h.eq_zero hl hall hpages hd hne hk hreq (by simp [afterRequest, hord])
          (by simp [afterRequest, hord])
        cases this
    | ASC =>
        have hlt' : (1 + 1) * v.limit < table.length := not_le.mp fun h => hcon ⟨hord, h⟩
        obtain ⟨z, hk', hreq'⟩ := At.next hl hall hpages hne hk hreq hlt'
        obtain ⟨x, hx, _, -, he⟩ := hk'.execute hl hall hpages hne
        have hprev : (v.execute table (v.afterRequest z)).links.prev
            = some (v.beforeRequest x) := by
          rw [he]
          rfl
        have := h.eq_zero hl hall hpages hd hne (.before hx hlt') (hreq'.prev hprev)
          (by simp [beforeRequest, hord]) (by simp [beforeRequest, hord])
        cases this
  · intro hbound req hreq
    obtain ⟨k, hk⟩ := hreq.at hl hall hpages hne
    rw [execute_self]
    cases hk with
    | first => rfl
    | @after k y hy hlt =>
        rcases hbound with hle | ⟨hasc, -⟩
        · rw [Nat.succ_mul] at hlt
          omega
        · simp only [afterRequest, hasc]
    | @before k x hx hlt =>
        rcases hbound with hle | ⟨hasc, hle⟩
        · rw [Nat.succ_mul] at hlt
          omega
        · have hk0 : k = 0 := by
            by_contra hk0
            have : 2 * v.limit ≤ (k + 1) * v.limit := Nat.mul_le_mul_right _ (by omega)
            omega
          subst hk0
          rw [(At.before hx hlt).dtos hl hall hpages hne]
          simp only [beforeRequest, hasc]
          exact At.dtos hl hall hpages hne .first

end Self

/-- The versions of an environment, latest first, one on a page. -/
def versionsView : DataView ℕ ℕ where
  order := { cls := .DesiredStateVersionOrder, column := ("version", PositiveIntColumn),
             order := .DESC, valid := by decide }
  limit := 1
  keeps := fun _ => true
  get := fun version _ => some version
  literal := fun _ => 0

end Inmanta.DataView
