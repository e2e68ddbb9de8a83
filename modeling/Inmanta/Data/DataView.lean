import Mathlib.Data.Prod.Lex
import Mathlib.Tactic.Tauto
import Inmanta.Lib.Paging

/-!
# Paging through a data view

A `DataView` (`data/dataview.py`) answers a request with one page of a table,
the counts of the records before and after it, and links to the neighbouring
pages. The page filter (`as_filter`), the ORDER BY (`get_order_elements`), the
inverted query for backward paging, the counters and the links are built
separately, over the orders of `data/__init__.py`.

The values of a column are any linear order, with the literals COALESCE falls
back to. Rows are linearly ordered as well: that is how the database breaks
the ties of an ORDER BY, which SQL leaves open.
-/

namespace Inmanta

namespace DataView

open Paging

/-! ## Columns and orders -/

inductive SqlType
  | str | int | bool | datetime | uuid
deriving DecidableEq, Repr

structure ColumnType where
  base_type : SqlType
  nullable : Bool
deriving DecidableEq, Repr

def StringColumn : ColumnType := ⟨.str, false⟩
def OptionalStringColumn : ColumnType := ⟨.str, true⟩
def DateTimeColumn : ColumnType := ⟨.datetime, false⟩
def OptionalDateTimeColumn : ColumnType := ⟨.datetime, true⟩
def PositiveIntColumn : ColumnType := ⟨.int, false⟩
/-- `ForcedStringColumn("text")`: the cast does not change a text value. -/
def TextColumn : ColumnType := ⟨.str, false⟩
def UUIDColumn : ColumnType := ⟨.uuid, false⟩
def BoolColumn : ColumnType := ⟨.bool, false⟩

inductive PagingOrder
  | ASC | DESC
deriving DecidableEq, Repr

def PagingOrder.invert : PagingOrder → PagingOrder
  | .ASC => .DESC
  | .DESC => .ASC

inductive OrderStr
  | ascNullsFirst | descNullsLast | asc | desc
deriving DecidableEq, Repr

def PagingOrder.db_form (o : PagingOrder) (nullable : Bool) : OrderStr :=
  if nullable then
    match o with
    | .ASC => .ascNullsFirst
    | .DESC => .descNullsLast
  else
    match o with
    | .ASC => .asc
    | .DESC => .desc

/-- The subclasses of `SingleDatabaseOrder` and `AbstractDatabaseOrderV2`. -/
inductive OrderClass
  | VersionedResourceOrder | ResourceStatusOrder | ResourceHistoryOrder | ResourceLogOrder
  | CompileReportOrder | AgentOrder | DesiredStateVersionOrder | ParameterOrder | FactOrder
  | NotificationOrder | DiscoveredResourceOrder
deriving DecidableEq, Repr

def OrderClass.get_valid_sort_columns : OrderClass → List (String × ColumnType)
  | VersionedResourceOrder => [("resource_type", StringColumn), ("agent", StringColumn),
      ("resource_id_value", StringColumn)]
  | ResourceStatusOrder => [("resource_type", StringColumn), ("agent", StringColumn),
      ("resource_id_value", StringColumn), ("resource_id", StringColumn), ("status", TextColumn)]
  | ResourceHistoryOrder => [("date", DateTimeColumn)]
  | ResourceLogOrder => [("timestamp", DateTimeColumn)]
  | CompileReportOrder => [("requested", DateTimeColumn)]
  | AgentOrder => [("name", StringColumn), ("process_name", OptionalStringColumn),
      ("paused", BoolColumn), ("status", StringColumn)]
  | DesiredStateVersionOrder => [("version", PositiveIntColumn)]
  | ParameterOrder => [("name", StringColumn), ("source", StringColumn),
      ("updated", OptionalDateTimeColumn)]
  | FactOrder => [("name", StringColumn), ("resource_id", StringColumn)]
  | NotificationOrder => [("created", DateTimeColumn)]
  | DiscoveredResourceOrder => [("discovered_resource_id", StringColumn),
      ("agent", StringColumn), ("resource_type", StringColumn),
      ("resource_id_value", StringColumn)]

/-- The built in second column; `none` for a direct subclass of `SingleDatabaseOrder`. -/
def OrderClass.id_column : OrderClass → Option (String × ColumnType)
  | VersionedResourceOrder => some ("resource_id", StringColumn)
  | ResourceStatusOrder => some ("resource_id", StringColumn)
  | ResourceHistoryOrder => some ("attribute_hash", StringColumn)
  | ResourceLogOrder => none
  | CompileReportOrder => some ("id", UUIDColumn)
  | AgentOrder => some ("name", StringColumn)
  | DesiredStateVersionOrder => none
  | ParameterOrder => some ("id", UUIDColumn)
  | FactOrder => some ("id", UUIDColumn)
  | NotificationOrder => some ("id", UUIDColumn)
  | DiscoveredResourceOrder => none

/-- A sort that `parse_from_string` accepts. -/
structure DatabaseOrder where
  cls : OrderClass
  column : String × ColumnType
  order : PagingOrder
  valid : column ∈ cls.get_valid_sort_columns

def DatabaseOrder.order_by_column (o : DatabaseOrder) : String := o.column.1

def DatabaseOrder.get_order_by_column_type (o : DatabaseOrder) : ColumnType := o.column.2

def DatabaseOrder.get_order (o : DatabaseOrder) (invert : Bool) : PagingOrder :=
  if invert then o.order.invert else o.order

def DatabaseOrder.get_order_elements (o : DatabaseOrder) (invert : Bool) :
    List (String × ColumnType × PagingOrder) :=
  (o.order_by_column, o.get_order_by_column_type, o.get_order invert)
    :: (o.cls.id_column.map fun c => (c.1, c.2, o.get_order invert)).toList

/-- A nullable sort column comes with another column to make the order unique. -/
theorem DatabaseOrder.id_of_nullable (o : DatabaseOrder)
    (h : o.get_order_by_column_type.nullable = true) :
    ∃ c ∈ o.cls.id_column, c.1 ≠ o.order_by_column := by
  have hall : ∀ cls : OrderClass, ∀ c ∈ cls.get_valid_sort_columns, c.2.nullable = true →
      (cls.id_column.map fun d => d.1 ≠ c.1) = some True := by
    intro cls
    cases cls <;> simp [OrderClass.get_valid_sort_columns, OrderClass.id_column, StringColumn,
      TextColumn, DateTimeColumn, BoolColumn, PositiveIntColumn]
  have hc := hall o.cls o.column o.valid h
  cases hid : o.cls.id_column with
  | none => simp [hid] at hc
  | some c => exact ⟨c, rfl, by simpa [hid, DatabaseOrder.order_by_column] using hc⟩

theorem OrderClass.id_column_not_nullable (cls : OrderClass) :
    ∀ c ∈ cls.id_column, c.2.nullable = false := by
  cases cls <;> simp [OrderClass.id_column, StringColumn, UUIDColumn]

/-! ## Filters -/

inductive Relation
  | gt | lt
deriving DecidableEq, Repr

def Relation.holds {V : Type} [LinearOrder V] : Relation → V → V → Bool
  | .gt, a, b => decide (b < a)
  | .lt, a, b => decide (a < b)

/-- Row comparison: the first pair that differs decides, and a NULL met before
it leaves the comparison unknown. -/
def rowCompare {V : Type} [LinearOrder V] (rel : Relation) : List (Option V × Option V) → Bool
  | (some a, some b) :: rest => if a = b then rowCompare rel rest else rel.holds a b
  | _ => false

structure SqlFilter (V : Type) where
  elements : List (String × ColumnType × Option V)
  relation : Relation

def DatabaseOrder.filter_elements {V : Type} (o : DatabaseOrder)
    (column_value id_value : Option V) : List (String × ColumnType × Option V) :=
  match o.cls.id_column with
  | none =>
      if column_value.isSome then
        [(o.order_by_column, o.get_order_by_column_type, column_value)]
      else []
  | some (id_name, id_type) =>
      let paging_on_nullable := o.get_order_by_column_type.nullable && id_value.isSome
      (if column_value.isSome || paging_on_nullable then
        [(o.order_by_column, o.get_order_by_column_type, column_value)]
      else []) ++
      (if id_value.isSome && id_name != o.order_by_column then [(id_name, id_type, id_value)]
      else [])

/-- `as_filter`: of one class when there is no id column, of the other when
there is one. -/
def DatabaseOrder.as_filter {V : Type} (o : DatabaseOrder) (column_value id_value : Option V)
    (start : Bool) : Option (SqlFilter V) :=
  match o.filter_elements column_value id_value with
  | [] => none
  | elements => some ⟨elements, if start then .gt else .lt⟩

theorem DatabaseOrder.as_filter_of {V : Type} {o : DatabaseOrder} {column_value id_value : Option V}
    {e : String × ColumnType × Option V} {es : List (String × ColumnType × Option V)}
    (h : o.filter_elements column_value id_value = e :: es) (start : Bool) :
    o.as_filter column_value id_value start
      = some ⟨e :: es, if start then .gt else .lt⟩ := by
  simp only [as_filter, h]

/-! ## Requests and responses -/

structure RequestedPagingBoundaries (V : Type) where
  start : Option V
  end_ : Option V
  first_id : Option V
  last_id : Option V

def RequestedPagingBoundaries.has_start {V : Type} (b : RequestedPagingBoundaries V) : Bool :=
  b.start.isSome || b.first_id.isSome

def RequestedPagingBoundaries.has_end {V : Type} (b : RequestedPagingBoundaries V) : Bool :=
  b.end_.isSome || b.last_id.isSome

/-- `RequestedPagingBoundaries.validate`: the request names one side only. -/
def RequestedPagingBoundaries.validate {V : Type} (b : RequestedPagingBoundaries V) : Bool :=
  !(b.start.isSome && b.end_.isSome) && !(b.first_id.isSome && b.last_id.isSome)
    && !(b.has_start && b.has_end)

structure PagingBoundaries (V : Type) where
  start : Option V
  end_ : Option V
  first_id : Option V
  last_id : Option V

def RequestedPagingBoundaries.get_empty_page_boundaries {V : Type}
    (b : RequestedPagingBoundaries V) : PagingBoundaries V :=
  { start := b.end_, first_id := b.last_id, end_ := b.start, last_id := b.first_id }

structure PagingMetadata where
  total : ℕ
  before : ℕ
  after : ℕ
  page_size : ℕ
deriving DecidableEq, Repr

/-- The links of a response, each one as the boundaries it asks for. -/
structure PagingLinks (V : Type) where
  next : Option (RequestedPagingBoundaries V)
  prev : Option (RequestedPagingBoundaries V)
  first : Option (RequestedPagingBoundaries V)
  self : RequestedPagingBoundaries V

structure Response (Row V : Type) where
  dtos : List Row
  links : PagingLinks V
  metadata : PagingMetadata

/-- A request without boundaries: the first page. -/
def firstRequest {V : Type} : RequestedPagingBoundaries V := ⟨none, none, none, none⟩

end DataView

/-- A view of a table: its sort and page size, the rows `construct_dtos` keeps,
and of the database the columns of a row and the literals of
`coalesce_to_min`. -/
structure DataView (Row V : Type) where
  order : DataView.DatabaseOrder
  limit : ℕ
  keeps : Row → Bool
  get : Row → String → Option V
  literal : DataView.SqlType → V

namespace DataView

open Paging

variable {Row V : Type} [LinearOrder V] (v : DataView Row V)

def coalesce_to_min (type : ColumnType) (value : Option V) : Option V :=
  if type.nullable then some (value.getD (v.literal type.base_type)) else value

/-- The rows for which the filter's condition is true. A single element is
compared as it is, several ones as rows from which NULL is removed. -/
def holds (f : SqlFilter V) (r : Row) : Bool :=
  match f.elements with
  | [(name, _, value)] => rowCompare f.relation [(v.get r name, value)]
  | elements => rowCompare f.relation <| elements.map fun e =>
      (v.coalesce_to_min e.2.1 (v.get r e.1), v.coalesce_to_min e.2.1 e.2.2)

/-- No filter statement: no condition. -/
def passes (f : Option (SqlFilter V)) (r : Row) : Bool :=
  match f with
  | none => true
  | some f => v.holds f r

def nullsLowest : Option V → Option V → Bool
  | none, some _ => true
  | some a, some b => decide (a < b)
  | _, none => false

def nullsHighest : Option V → Option V → Bool
  | some _, none => true
  | some a, some b => decide (a < b)
  | none, _ => false

/-- `a` stands before `b` in the order; without NULLS FIRST or NULLS LAST, NULL
counts as larger than any value. -/
def OrderStr.precedes : OrderStr → Option V → Option V → Bool
  | .ascNullsFirst, a, b => nullsLowest a b
  | .descNullsLast, a, b => nullsLowest b a
  | .asc, a, b => nullsHighest a b
  | .desc, a, b => nullsHighest b a

section Rows

variable [LinearOrder Row]

/-- The ORDER BY of some elements, ties broken by the database. -/
def sorts (tie : PagingOrder) : List (String × ColumnType × PagingOrder) → Row → Row → Prop
  | [], a, b =>
      match tie with
      | .ASC => a ≤ b
      | .DESC => b ≤ a
  | (name, type, o) :: rest, a, b =>
      if v.get a name = v.get b name then sorts tie rest a b
      else (o.db_form type.nullable).precedes (v.get a name) (v.get b name) = true

instance decidableSorts (tie : PagingOrder) :
    (l : List (String × ColumnType × PagingOrder)) → DecidableRel (v.sorts tie l)
  | [], a, b =>
      match tie with
      | .ASC => inferInstanceAs (Decidable (a ≤ b))
      | .DESC => inferInstanceAs (Decidable (b ≤ a))
  | (name, type, o) :: rest, a, b =>
      if h : v.get a name = v.get b name then
        match decidableSorts tie rest a b with
        | isTrue h' => isTrue (by simpa [sorts, h] using h')
        | isFalse h' => isFalse (by simpa [sorts, h] using h')
      else
        match decEq ((o.db_form type.nullable).precedes (v.get a name) (v.get b name)) true with
        | isTrue h' => isTrue (by simpa [sorts, h] using h')
        | isFalse h' => isFalse (by simpa [sorts, h] using h')

/-- `get_order_by_statement`. -/
def orderBy (invert : Bool) (a b : Row) : Prop :=
  v.sorts (v.order.get_order invert) (v.order.get_order_elements invert) a b

instance (invert : Bool) : DecidableRel (v.orderBy invert) :=
  v.decidableSorts (v.order.get_order invert) (v.order.get_order_elements invert)

/-- The records of the query that `clip_to_page` and `SimpleQueryBuilder.build`
make of the base query: filtered, ordered, limited and, when paging backwards,
ordered again. -/
def select_page (table : List Row) (req : RequestedPagingBoundaries V) : List Row :=
  let backward_paging :=
    (v.order.order == .ASC && req.has_end) || (v.order.order == .DESC && req.has_start)
  let filtered := (table.filter (v.passes (v.order.as_filter req.start req.first_id true))).filter
    (v.passes (v.order.as_filter req.end_ req.last_id false))
  let matching_records := (filtered.insertionSort (v.orderBy backward_paging)).take v.limit
  if backward_paging then matching_records.insertionSort (v.orderBy false)
  else matching_records

omit [LinearOrder V] [LinearOrder Row] in
/-- The value of the id column, when the order has one. -/
def id_value (r : Row) : Option V :=
  v.order.cls.id_column.bind fun c => v.get r c.1

omit [LinearOrder V] [LinearOrder Row] in
def get_paging_boundaries (first last : Row) : PagingBoundaries V :=
  let (first, last) := if v.order.order = .ASC then (last, first) else (first, last)
  { start := v.get first v.order.order_by_column
    first_id := v.id_value first
    end_ := v.get last v.order.order_by_column
    last_id := v.id_value last }

def get_data (table : List Row) (req : RequestedPagingBoundaries V) :
    List Row × PagingBoundaries V :=
  let records := v.select_page table req
  let dtos := records.filter v.keeps
  match dtos, records.head?, records.getLast? with
  | _ :: _, some first, some last => (dtos, v.get_paging_boundaries first last)
  | _, _, _ => (dtos, req.get_empty_page_boundaries)

omit [LinearOrder Row] in
def get_page_count (table : List Row) (bounds : PagingBoundaries V) : PagingMetadata :=
  let reversed : Bool := v.order.order == .DESC
  let (end_, start) :=
    if reversed then (bounds.start, bounds.end_) else (bounds.end_, bounds.start)
  let (last_id, first_id) :=
    if reversed then (bounds.first_id, bounds.last_id) else (bounds.last_id, bounds.first_id)
  let after_filter := v.order.as_filter start first_id (!reversed)
  let before_filter := v.order.as_filter end_ last_id reversed
  if before_filter.isNone && after_filter.isNone then
    { total := 0, before := 0, after := 0, page_size := v.limit }
  else
    { total := table.length
      before := if before_filter.isSome then table.countP (v.passes before_filter) else 0
      after := if after_filter.isSome then table.countP (v.passes after_filter) else 0
      page_size := v.limit }

omit [LinearOrder V] [LinearOrder Row] in
def prepare_paging_links (req : RequestedPagingBoundaries V) (bounds : PagingBoundaries V)
    (metadata : PagingMetadata) : PagingLinks V :=
  let link_with_end : RequestedPagingBoundaries V := ⟨none, bounds.end_, none, bounds.last_id⟩
  let link_with_start : RequestedPagingBoundaries V := ⟨bounds.start, none, bounds.first_id, none⟩
  { next :=
      if 0 < metadata.after then
        some (if v.order.order = .DESC then link_with_end else link_with_start)
      else none
    prev :=
      if 0 < metadata.before then
        some (if v.order.order = .DESC then link_with_start else link_with_end)
      else none
    first := if 0 < metadata.before then some firstRequest else none
    self := ⟨req.start, none, req.first_id, none⟩ }

/-- The answer to a request. -/
def execute (table : List Row) (req : RequestedPagingBoundaries V) : Response Row V :=
  let data := v.get_data table req
  let metadata := v.get_page_count table data.2
  { dtos := data.1
    links := v.prepare_paging_links req data.2 metadata
    metadata := metadata }

/-! ## The order of the table -/

omit [LinearOrder Row] in
theorem OrderStr.precedes_irrefl (f : OrderStr) (a : Option V) : f.precedes a a = false := by
  cases f <;> cases a <;> simp [OrderStr.precedes, nullsLowest, nullsHighest]

omit [LinearOrder Row] in
theorem OrderStr.precedes_trans (f : OrderStr) {a b c : Option V} (hab : f.precedes a b = true)
    (hbc : f.precedes b c = true) : f.precedes a c = true := by
  cases f <;> cases a <;> cases b <;> cases c <;>
    simp_all [OrderStr.precedes, nullsLowest, nullsHighest]
  all_goals exact lt_trans ‹_› ‹_›

omit [LinearOrder Row] in
theorem OrderStr.precedes_total (f : OrderStr) {a b : Option V} (h : a ≠ b) :
    f.precedes a b = true ∨ f.precedes b a = true := by
  cases f <;> cases a <;> cases b <;>
    simp_all [OrderStr.precedes, nullsLowest, nullsHighest]
  all_goals exact fun he => h he.symm

variable {v}

theorem sorts_total (tie : PagingOrder) (l : List (String × ColumnType × PagingOrder))
    (a b : Row) : v.sorts tie l a b ∨ v.sorts tie l b a := by
  induction l with
  | nil =>
      cases tie
      · exact le_total a b
      · exact le_total b a
  | cons e l ih =>
      simp only [sorts]
      by_cases h : v.get a e.1 = v.get b e.1
      · rwa [if_pos h, if_pos h.symm]
      · rw [if_neg h, if_neg (Ne.symm h)]
        exact OrderStr.precedes_total _ h

theorem sorts_trans (tie : PagingOrder) (l : List (String × ColumnType × PagingOrder))
    {a b c : Row} (hab : v.sorts tie l a b) (hbc : v.sorts tie l b c) : v.sorts tie l a c := by
  induction l with
  | nil =>
      cases tie
      · exact le_trans (α := Row) hab hbc
      · exact le_trans (α := Row) hbc hab
  | cons e l ih =>
      simp only [sorts] at hab hbc ⊢
      by_cases h₁ : v.get a e.1 = v.get b e.1 <;> by_cases h₂ : v.get b e.1 = v.get c e.1
      · rw [if_pos h₁] at hab
        rw [if_pos h₂] at hbc
        rw [if_pos (h₁.trans h₂)]
        exact ih hab hbc
      · rw [if_neg h₂] at hbc
        rwa [if_neg fun h => h₂ (h₁.symm.trans h), h₁]
      · rw [if_neg h₁] at hab
        rwa [if_neg fun h => h₁ (h.trans h₂.symm), ← h₂]
      · rw [if_neg h₁] at hab
        rw [if_neg h₂] at hbc
        have hac := OrderStr.precedes_trans _ hab hbc
        rwa [if_neg fun h => ?_]
        rw [h, OrderStr.precedes_irrefl] at hac
        cases hac

theorem sorts_antisymm (tie : PagingOrder) (l : List (String × ColumnType × PagingOrder))
    {a b : Row} (hab : v.sorts tie l a b) (hba : v.sorts tie l b a) : a = b := by
  induction l with
  | nil =>
      cases tie
      · exact le_antisymm hab hba
      · exact le_antisymm hba hab
  | cons e l ih =>
      simp only [sorts] at hab hba
      by_cases h : v.get a e.1 = v.get b e.1
      · rw [if_pos h] at hab
        rw [if_pos h.symm] at hba
        exact ih hab hba
      · rw [if_neg h] at hab
        rw [if_neg (Ne.symm h)] at hba
        have := OrderStr.precedes_trans _ hab hba
        rw [OrderStr.precedes_irrefl] at this
        cases this

instance (invert : Bool) : Std.Total (v.orderBy invert) := ⟨sorts_total _ _⟩

instance (invert : Bool) : IsTrans Row (v.orderBy invert) := ⟨fun _ _ _ => sorts_trans _ _⟩

instance (invert : Bool) : Std.Antisymm (v.orderBy invert) := ⟨fun _ _ => sorts_antisymm _ _⟩

omit [LinearOrder Row] in
theorem precedes_invert (o : PagingOrder) (nullable : Bool) (a b : Option V) :
    (o.invert.db_form nullable).precedes a b = (o.db_form nullable).precedes b a := by
  cases o <;> cases nullable <;> rfl

theorem sorts_invert (o : PagingOrder) (columns : List (String × ColumnType)) (a b : Row) :
    v.sorts o.invert (columns.map fun c => (c.1, c.2, o.invert)) a b
      ↔ v.sorts o (columns.map fun c => (c.1, c.2, o)) b a := by
  induction columns with
  | nil => cases o <;> rfl
  | cons c columns ih =>
      simp only [List.map_cons, sorts, precedes_invert]
      by_cases h : v.get a c.1 = v.get b c.1
      · rw [if_pos h, if_pos h.symm]
        exact ih
      · rw [if_neg h, if_neg (Ne.symm h)]

omit [LinearOrder V] [LinearOrder Row] in
/-- The columns of the order, all of them sorted in its direction. -/
theorem order_elements_eq (invert : Bool) :
    v.order.get_order_elements invert
      = ((v.order.order_by_column, v.order.get_order_by_column_type)
          :: v.order.cls.id_column.toList).map
        fun c => (c.1, c.2, v.order.get_order invert) := by
  cases h : v.order.cls.id_column <;> simp [DatabaseOrder.get_order_elements, h]

/-- The inverted ORDER BY reads the table backwards. -/
theorem orderBy_invert (a b : Row) : v.orderBy true a b ↔ v.orderBy false b a := by
  unfold orderBy
  rw [order_elements_eq, order_elements_eq]
  exact sorts_invert v.order.order _ a b

/-! ## What the page filter compares -/

/-- Columns that the schema declares NOT NULL hold no NULL. -/
structure Admitted (v : DataView Row V) (r : Row) : Prop where
  sort_column : v.order.get_order_by_column_type.nullable = false →
    (v.get r v.order.order_by_column).isSome
  id_column : ∀ c ∈ v.order.cls.id_column, (v.get r c.1).isSome

omit [LinearOrder Row] in
/-- What the page filter compares of a row: the sort column and the id column,
with NULL read as the least value of its type. -/
def key (v : DataView Row V) (r : Row) : V ×ₗ V :=
  let value := (v.get r v.order.order_by_column).getD
    (v.literal v.order.get_order_by_column_type.base_type)
  match v.order.cls.id_column with
  | none => toLex (value, value)
  | some (id_name, id_type) =>
      if id_name = v.order.order_by_column then toLex (value, value)
      else toLex (value, (v.get r id_name).getD (v.literal id_type.base_type))

omit [LinearOrder Row] in
theorem rowCompare_pair (rel : Relation) (a b c d : V) :
    rowCompare rel [(some a, some c), (some b, some d)]
      = rel.holds (toLex (a, b)) (toLex (c, d)) := by
  by_cases h : a = c
  · subst h
    by_cases h' : b = d
    · subst h'
      cases rel <;> simp [rowCompare, Relation.holds]
    · cases rel <;> simp [rowCompare, h', Relation.holds, Prod.Lex.toLex_lt_toLex]
  · cases rel <;> simp [rowCompare, h, Ne.symm h, Relation.holds, Prod.Lex.toLex_lt_toLex]

omit [LinearOrder Row] in
theorem rowCompare_single (rel : Relation) (a c : V) :
    rowCompare rel [(some a, some c)] = rel.holds (toLex (a, a)) (toLex (c, c)) := by
  by_cases h : a = c
  · subst h
    cases rel <;> simp [rowCompare, Relation.holds]
  · cases rel <;> simp [rowCompare, h, Ne.symm h, Relation.holds, Prod.Lex.toLex_lt_toLex]

omit [LinearOrder Row] in
/-- The filter made of a row's own values compares keys with that row. -/
theorem as_filter_row {r x : Row} (hr : v.Admitted r) (hx : v.Admitted x) (start : Bool) :
    ∃ f, v.order.as_filter (v.get x v.order.order_by_column) (v.id_value x) start = some f
      ∧ v.holds f r = (if start then Relation.gt else .lt).holds (v.key r) (v.key x) := by
  have hnull := v.order.id_of_nullable
  have hidnull := v.order.cls.id_column_not_nullable
  have hxid := hx.id_column
  have hrid := hr.id_column
  cases hid : v.order.cls.id_column with
  | none =>
      have hn : v.order.get_order_by_column_type.nullable = false := by
        cases h : v.order.get_order_by_column_type.nullable
        · rfl
        · obtain ⟨c, hc, -⟩ := hnull h
          simp [hid] at hc
      obtain ⟨a, ha⟩ := Option.isSome_iff_exists.mp (hr.sort_column hn)
      obtain ⟨c, hc⟩ := Option.isSome_iff_exists.mp (hx.sort_column hn)
      have hel : v.order.filter_elements (v.get x v.order.order_by_column) (v.id_value x)
          = [(v.order.order_by_column, v.order.get_order_by_column_type, some c)] := by
        simp [DatabaseOrder.filter_elements, hid, hc]
      refine ⟨_, DatabaseOrder.as_filter_of hel start, ?_⟩
      simp only [holds, key, hid, ha, hc, Option.getD_some]
      exact rowCompare_single _ a c
  | some d =>
      obtain ⟨id_name, id_type⟩ := d
      obtain ⟨i, hi⟩ := Option.isSome_iff_exists.mp (hrid _ hid)
      obtain ⟨j, hj⟩ := Option.isSome_iff_exists.mp (hxid _ hid)
      have hidn : id_type.nullable = false := hidnull _ hid
      have hval : v.id_value x = some j := by simp [id_value, hid, hj]
      simp only at hi hj
      by_cases hsame : id_name = v.order.order_by_column
      · subst hsame
        have hel : v.order.filter_elements (v.get x v.order.order_by_column) (v.id_value x)
            = [(v.order.order_by_column, v.order.get_order_by_column_type, some j)] := by
          simp [DatabaseOrder.filter_elements, hid, hj]
        refine ⟨_, DatabaseOrder.as_filter_of hel start, ?_⟩
        simp only [holds, key, hid, hi, hj, Option.getD_some, if_true]
        exact rowCompare_single _ i j
      · have hcond : ((v.get x v.order.order_by_column).isSome
            || (v.order.get_order_by_column_type.nullable && (some j).isSome)) = true := by
          cases h : v.order.get_order_by_column_type.nullable
          · rw [hx.sort_column h]
            rfl
          · simp
        have hne : (id_name != v.order.order_by_column) = true := by simpa using hsame
        have hel : v.order.filter_elements (v.get x v.order.order_by_column) (v.id_value x)
            = [(v.order.order_by_column, v.order.get_order_by_column_type,
                  v.get x v.order.order_by_column), (id_name, id_type, some j)] := by
          rw [hval]
          simp only [DatabaseOrder.filter_elements, hid]
          rw [if_pos hcond, hne]
          rfl
        refine ⟨_, DatabaseOrder.as_filter_of hel start, ?_⟩
        have hcol : ∀ {r : Row}, v.Admitted r →
            v.coalesce_to_min v.order.get_order_by_column_type (v.get r v.order.order_by_column)
              = some ((v.get r v.order.order_by_column).getD
                  (v.literal v.order.get_order_by_column_type.base_type)) := by
          intro r hr
          unfold coalesce_to_min
          cases h : v.order.get_order_by_column_type.nullable
          · obtain ⟨a, ha⟩ := Option.isSome_iff_exists.mp (hr.sort_column h)
            simp [ha]
          · simp
        have hidc : ∀ i : V, v.coalesce_to_min id_type (some i) = some i := by
          simp [coalesce_to_min, hidn]
        simp only [holds, List.map_cons, List.map_nil, hcol hr, hcol hx, hi, hidc, key, hid,
          if_neg hsame, hj, Option.getD_some]
        exact rowCompare_pair _ _ i _ j

omit [LinearOrder Row] in
/-- `a` comes before `b` as the page filters compare them, in the direction of the sort. -/
def before (v : DataView Row V) (a b : Row) : Prop :=
  match v.order.order with
  | .ASC => v.key a < v.key b
  | .DESC => v.key b < v.key a

omit [LinearOrder Row] in
theorem before_compares (v : DataView Row V) : Compares v.before := by
  unfold before
  cases v.order.order
  · exact ⟨fun a => lt_irrefl _, fun _ _ _ => lt_trans,
      fun a b c h => (lt_or_ge (v.key a) (v.key b)).imp_right fun h' => lt_of_le_of_lt h' h⟩
  · exact ⟨fun a => lt_irrefl _, fun _ _ _ h h' => lt_trans h' h,
      fun a b c h => (lt_or_ge (v.key b) (v.key a)).imp_right fun h' => lt_of_lt_of_le h h'⟩

end Rows

end DataView

end Inmanta
