import BetterBullBoard.Core.Schemas
import BetterBullBoard.Dashboard.Rollups
import BetterBullBoard.Job.Upsert
import BetterBullBoard.Lib.JsNumber
import BetterBullBoard.Queues.Schema

/-! # Listing queues

`listQueues` of the core package over static tables. Its two queries differ in
the pressure they select; grouping by the queue's id leaves one row for each.
`array_agg` takes the schedulers in the order of the table.
-/

namespace BetterBullBoard

open JsNumber (SafeInt number)

inductive QueueSortBy where
  | waitingJobs
  | activeJobs
  | pressure
  deriving DecidableEq

structure QueueCursor where
  waitingJobs : Int
  activeJobs : Option Int
  pressure : Option Int
  name : String
  deriving DecidableEq

structure ListQueuesInput where
  cursor : Option QueueCursor := none
  cursorDirection : Option Keyset.Direction := none
  search : Option String := none
  sortBy : Option QueueSortBy := none
  sortDirection : Option SortDirection := none
  pressureDateFrom : Option Int := none
  pressureDateTo : Option Int := none
  limit : Option Int := none

/-- What `listQueuesInputSchema` refuses. -/
def ListQueuesInput.issues (input : ListQueuesInput) : List ZodIssue :=
  limitIssues input.limit ++
  if input.sortBy = some .pressure then
    (if input.pressureDateFrom.isNone then
      [.custom ["pressureDateFrom"] "Pressure date from is required when sorting by pressure"] else []) ++
    (if input.pressureDateTo.isNone then
      [.custom ["pressureDateTo"] "Pressure date to is required when sorting by pressure"] else []) ++
    (if input.pressureDateFrom.any fun dateFrom => input.pressureDateTo.any (· ≤ dateFrom) then
      [.custom ["pressureDateFrom"] "Pressure date from must be before pressure date to"] else []) ++
    (if input.cursor.any (·.pressure.isNone) then
      [.custom ["cursor", "pressure"] "Pressure cursor is required when sorting by pressure"] else [])
  else []

structure ListedQueue where
  name : String
  isPaused : Bool
  patterns : List String
  everys : List Int
  waitingJobs : Int
  activeJobs : Int
  pressure : Int
  deriving DecidableEq

structure ListQueuesOutput extends Keyset.Page ListedQueue QueueCursor where
  total : Nat

/-! ## Aggregates -/

/-- `ROUND(total::numeric / count)`, half away from zero. -/
def roundQuotient (total : Int) (count : Nat) : Int := total.sign * ↑((2 * total.natAbs + count) / (2 * count))

theorem roundQuotient_safe {total : Int} {count : Nat} (positive : 0 < count)
    (bounded : total.natAbs ≤ count * 2 ^ 53) : (roundQuotient total count).natAbs ≤ 2 ^ 53 := by
  have rounded : (2 * total.natAbs + count) / (2 * count) ≤ 2 ^ 53 := by
    apply Nat.le_of_lt_succ
    apply (Nat.div_lt_iff_lt_mul (by omega)).mpr
    calc 2 * total.natAbs + count < 2 * (count * 2 ^ 53) + 2 * count := by omega
      _ = (2 ^ 53 + 1) * (2 * count) := by omega
  rw [roundQuotient, Int.natAbs_mul, Int.natAbs_natCast]
  cases total with
  | ofNat n =>
      cases n with
      | zero => simp
      | succ n => simpa using rounded
  | negSucc n => simpa using rounded

/-- The pressures of its runs average to a number. -/
def HourlyStats.Safe (r : HourlyStats) : Prop := r.pressureTotalMs.natAbs ≤ r.pressureCount * 2 ^ 53

/-- Its times are within `timestamp` and `Date`. -/
def JobRun.Timed {J : Type} (r : JobRun J) : Prop :=
  ∀ moment, r.startedAt = some moment ∨ r.enqueuedAt = some moment →
    -210866803200000 ≤ moment ∧ moment ≤ 8640000000000000

theorem pressureMs_safe {J : Type} {r : JobRun J} (timed : r.Timed) {n : Int} (pressure : r.pressureMs = some n) :
    n.natAbs ≤ 2 ^ 53 := by
  rw [JobRun.pressureMs] at pressure
  split at pressure
  · rename_i startedAt enqueuedAt started enqueued
    obtain rfl := Option.some.inj pressure
    have fromStart := timed startedAt (.inl started)
    have fromEnqueue := timed enqueuedAt (.inr enqueued)
    omega
  · cases pressure

theorem sum_natAbs_le {values : List Int} {bound : Nat} (bounded : ∀ n ∈ values, n.natAbs ≤ bound) :
    values.sum.natAbs ≤ values.length * bound := by
  induction values with
  | nil => simp
  | cons n values ih =>
      have first := bounded n List.mem_cons_self
      have rest := ih fun m hm => bounded m (List.mem_cons_of_mem _ hm)
      rw [List.sum_cons, List.length_cons, Nat.add_one_mul, Nat.add_comm]
      exact (Int.natAbs_add_le _ _).trans (Nat.add_le_add first rest)

theorem statsOf_safe {J : Type} (bucket : Int × String) {rows : List (JobRun J)} (timed : ∀ r ∈ rows, r.Timed) :
    (statsOf bucket rows).Safe := by
  apply sum_natAbs_le
  intro n hn
  obtain ⟨r, hr, pressure⟩ := List.mem_filterMap.mp hn
  exact pressureMs_safe (timed r (List.mem_filter.mp hr).1) pressure

theorem upsert_safe {rows : List HourlyStats} (new : ∀ r ∈ rows, r.Safe) (t : HourlyStatsTable)
    (old : ∀ r ∈ t.rows, r.Safe) : ∀ r ∈ (t.upsert rows).rows, r.Safe := by
  induction rows generalizing t with
  | nil => exact old
  | cons row rows ih =>
      apply ih (fun r hr => new r (List.mem_cons_of_mem _ hr))
      intro r hr
      cases (UniqueIndex.mem_doUpdate t.unique).mp hr with
      | inl kept => exact old r kept.1
      | inr written =>
          cases written with
          | inl merged =>
              obtain ⟨_, _, _, rfl⟩ := merged
              exact new r List.mem_cons_self
          | inr appended => exact appended.1 ▸ new row List.mem_cons_self

/-- What a refresh writes are numbers. -/
theorem refresh_safe {J : Type} (now deleteBefore : Int) {runs : List (JobRun J)} (timed : ∀ r ∈ runs, r.Timed)
    {stats : HourlyStatsTable} (safe : ∀ r ∈ stats.rows, r.Safe) :
    ∀ r ∈ (refreshRollups now deleteBefore runs stats).rows, r.Safe := by
  intro r hr
  refine upsert_safe ?_ _ ?_ r (HourlyStatsTable.mem_delete.mp hr).1
  · intro row hrow
    obtain ⟨⟨bucket, rows⟩, member, rfl⟩ := List.mem_map.mp hrow
    apply statsOf_safe
    intro r hr
    rw [(Grouped.mem_groupBy.mp member).1] at hr
    exact timed r (List.mem_filter.mp (List.mem_filter.mp hr).1).1
  · exact fun row hrow => safe row (HourlyStatsTable.mem_delete.mp hrow).1

/-- The tables a listing reads. -/
structure QueueTables (J : Type) where
  db : QueuesDb
  runs : JobRunsTable J
  stats : HourlyStatsTable
  /-- `COUNT(*)::int` fails on more. -/
  countable : runs.rows.length < 2 ^ 31
  /-- The columns are numbers, as the refresh writes them. -/
  safe : ∀ r ∈ stats.rows, r.Safe

/-- The average of rows, unless they count nothing. -/
def averagePressure (rows : List HourlyStats) : Option Int :=
  let count := (rows.map HourlyStats.pressureCount).sum
  if count = 0 then none else some (roundQuotient (rows.map HourlyStats.pressureTotalMs).sum count)

theorem sum_safe {rows : List HourlyStats} (safe : ∀ r ∈ rows, r.Safe) :
    (rows.map HourlyStats.pressureTotalMs).sum.natAbs ≤ (rows.map HourlyStats.pressureCount).sum * 2 ^ 53 := by
  induction rows with
  | nil => simp
  | cons r rows ih =>
      have first := safe r List.mem_cons_self
      have rest := ih fun r hr => safe r (List.mem_cons_of_mem _ hr)
      rw [List.map_cons, List.map_cons, List.sum_cons, List.sum_cons, Nat.add_mul]
      exact (Int.natAbs_add_le _ _).trans (Nat.add_le_add first rest)

theorem averagePressure_safe {rows : List HourlyStats} (safe : ∀ r ∈ rows, r.Safe) {n : Int}
    (average : averagePressure rows = some n) : n.natAbs ≤ 2 ^ 53 := by
  rw [averagePressure] at average
  split at average
  · cases average
  · rename_i counted
    obtain rfl := Option.some.inj average
    exact roundQuotient_safe (Nat.pos_of_ne_zero counted) (sum_safe safe)

namespace QueueTables

variable {J : Type} (t : QueueTables J)

/-- The tables after a refresh of the rollups. -/
def refresh (now deleteBefore : Int) (timed : ∀ r ∈ t.runs.rows, r.Timed) : QueueTables J :=
  { t with
    stats := refreshRollups now deleteBefore t.runs.rows t.stats
    safe := refresh_safe now deleteBefore timed t.safe }

/-- `COALESCE(COUNT(*)::int, 0)` of the runs of a queue in one status. -/
def jobCount (status : JobStatus) (queue : String) : SafeInt where
  val := t.runs.rows.countP fun r => r.status = status && r.queue = queue
  property := by
    have counted := List.countP_le_length (p := fun r => decide (r.status = status) && decide (r.queue = queue))
      (l := t.runs.rows)
    have few := t.countable
    omega

/-- The rows of `pressure_stats` before they are grouped. -/
def pressureRows (dateFrom dateTo : Option Int) (queue : String) : List HourlyStats :=
  t.stats.rows.filter fun r =>
    r.queue = queue && dateFrom.all (· ≤ r.bucketStart) && dateTo.all (r.bucketStart < ·)

/-- A queue with no rows has no group, and NULL from the join. -/
def buildPressureStats (dateFrom dateTo : Option Int) (queue : String) : Option SafeInt :=
  match average : averagePressure (t.pressureRows dateFrom dateTo queue) with
  | none => none
  | some n => some ⟨n, averagePressure_safe (fun r hr => t.safe r (List.mem_filter.mp hr).1) average⟩

end QueueTables

/-! ## Order and cursor -/

structure QueueSelect where
  name : String
  isPaused : Bool
  waitingJobs : SafeInt
  activeJobs : SafeInt
  patterns : List (Option String)
  everys : List (Option Int)
  pressure : Option SafeInt

def getSortExpression (sortBy : QueueSortBy) (row : QueueSelect) : Int :=
  match sortBy with
  | .pressure => (row.pressure.map (·.val)).getD 0
  | .activeJobs => row.activeJobs.val
  | .waitingJobs => row.waitingJobs.val

def getCursorValue (cursor : QueueCursor) : QueueSortBy → Except CoreError Int
  | .pressure =>
      match cursor.pressure with
      | none => .error (.error "Pressure cursor is required when sorting by pressure")
      | some pressure => .ok pressure
  | .activeJobs => .ok (cursor.activeJobs.getD 0)
  | .waitingJobs => .ok cursor.waitingJobs

variable {J κ : Type} [LinearOrder κ] (db : Database κ)

/-- The comparison with a cursor whose value is known. -/
def compareCursor (cursorDirection : Keyset.Direction) (sortBy : QueueSortBy) (sortDirection : SortDirection)
    (name : String) (cursorValue : Int) (row : QueueSelect) : Bool :=
  let nameComparison : Bool := match cursorDirection with
    | .next => db.collate name < db.collate row.name
    | .prev => db.collate row.name < db.collate name
  let tiedSortComparison := getSortExpression sortBy row = cursorValue && nameComparison
  let shouldUseGreaterThan : Bool := match cursorDirection with
    | .next => sortDirection = .asc
    | .prev => sortDirection = .desc
  if shouldUseGreaterThan then cursorValue < getSortExpression sortBy row || tiedSortComparison
  else getSortExpression sortBy row < cursorValue || tiedSortComparison

def getQueueCursorComparison (cursor : QueueCursor) (cursorDirection : Keyset.Direction) (sortBy : QueueSortBy)
    (sortDirection : SortDirection) : Except CoreError (QueueSelect → Bool) := do
  let cursorValue ← getCursorValue cursor sortBy
  return compareCursor db cursorDirection sortBy sortDirection cursor.name cursorValue

def getQueueSortOrder (cursorDirection : Keyset.Direction) (sortBy : QueueSortBy) (sortDirection : SortDirection) :
    List (QueueSelect → QueueSelect → Ordering) :=
  let sortOrder := match getOrderDirection cursorDirection sortDirection with
    | .asc => Keyset.asc (getSortExpression sortBy)
    | .desc => Keyset.desc (getSortExpression sortBy)
  let nameOrder := match cursorDirection with
    | .next => Keyset.asc (db.collate ·.name)
    | .prev => Keyset.desc (db.collate ·.name)
  [sortOrder, nameOrder]

/-! ## The listing -/

def searched (search : Option String) (name : String) : Bool :=
  (search.filter (· != "")).all fun search => db.ilike name ("%" ++ search ++ "%")

/-- `queueSelectFields` and the pressure, for one queue. -/
def queueSelectFields (t : QueueTables J) (pressure : String → Option SafeInt) (q : QueueRow) : QueueSelect where
  name := q.name
  isPaused := q.isPaused
  waitingJobs := t.jobCount .waiting q.name
  activeJobs := t.jobCount .active q.name
  patterns := (t.db.jobSchedulers.filter fun r => r.queueId = q.id).map (·.pattern)
  everys := (t.db.jobSchedulers.filter fun r => r.queueId = q.id).map (·.every)
  pressure := pressure q.name

/-- What both queries do with the pressures they join. -/
def selectQueues (t : QueueTables J) (pressure : String → Option SafeInt) (cursor : Option QueueCursor)
    (cursorDirection : Keyset.Direction) (limit : Nat) (search : Option String) (sortBy : QueueSortBy)
    (sortDirection : SortDirection) : Except CoreError (List QueueSelect) := do
  let comparison ← match cursor with
    | none => pure fun _ : QueueSelect => true
    | some cursor => getQueueCursorComparison db cursor cursorDirection sortBy sortDirection
  let rows := (t.db.queues.filter fun q => searched db search q.name).map (queueSelectFields t pressure)
  return ((rows.filter comparison).insertionSort fun a b =>
    Keyset.orderBy (getQueueSortOrder db cursorDirection sortBy sortDirection) a b = true).take (limit + 1)

def listQueuesSortedByPressure (t : QueueTables J) (cursor : Option QueueCursor) (cursorDirection : Keyset.Direction)
    (limit : Nat) (pressureDateFrom pressureDateTo : Option Int) (search : Option String)
    (sortDirection : SortDirection) : Except CoreError (List QueueSelect) :=
  selectQueues db t (t.buildPressureStats pressureDateFrom pressureDateTo) cursor cursorDirection limit search .pressure
    sortDirection

def listQueuesSortedByJobCount (t : QueueTables J) (cursor : Option QueueCursor) (cursorDirection : Keyset.Direction)
    (limit : Nat) (search : Option String) (sortBy : QueueSortBy) (sortDirection : SortDirection) :
    Except CoreError (List QueueSelect) :=
  selectQueues db t (fun _ => some ⟨0, by decide⟩) cursor cursorDirection limit search sortBy sortDirection

def QueueSelect.listed (row : QueueSelect) : ListedQueue where
  name := row.name
  isPaused := row.isPaused
  patterns := (row.patterns.reduceOption).filter (· != "")
  everys := (row.everys.reduceOption).filter (· != 0)
  waitingJobs := number row.waitingJobs.val
  activeJobs := number row.activeJobs.val
  pressure := number ((row.pressure.map (·.val)).getD 0)

def QueueSelect.toCursor (row : QueueSelect) : QueueCursor where
  name := row.name
  waitingJobs := number row.waitingJobs.val
  activeJobs := some (number row.activeJobs.val)
  pressure := some (number ((row.pressure.map (·.val)).getD 0))

def listQueues (t : QueueTables J) (input : ListQueuesInput) : Except CoreError ListQueuesOutput := do
  let parsed ← parse ListQueuesInput.issues input
  let cursorDirection := parsed.cursorDirection.getD .next
  let sortBy := parsed.sortBy.getD .waitingJobs
  let sortDirection := parsed.sortDirection.getD .desc
  let limit := (input.limit.getD 20).toNat
  let rows ← (if sortBy = .pressure then
      listQueuesSortedByPressure db t parsed.cursor cursorDirection limit parsed.pressureDateFrom
        parsed.pressureDateTo parsed.search sortDirection
    else listQueuesSortedByJobCount db t parsed.cursor cursorDirection limit parsed.search sortBy sortDirection)
  let hasExtra : Bool := limit < rows.length
  let rows := if hasExtra then rows.dropLast else rows
  let queueRows := if cursorDirection = .prev then rows.reverse else rows
  let total := t.db.queues.countP fun q => searched db parsed.search q.name
  let firstRow := queueRows.head?
  let lastRow := queueRows.getLast?
  let hasNewerPage := if cursorDirection = .next then parsed.cursor.isSome else hasExtra
  let hasOlderPage := if cursorDirection = .prev then parsed.cursor.isSome else hasExtra
  return {
    items := queueRows.map QueueSelect.listed
    nextCursor := if hasOlderPage then lastRow.map QueueSelect.toCursor else none
    prevCursor := if hasNewerPage then firstRow.map QueueSelect.toCursor else none
    total }

/-! ## The keys of the listing -/

/-- The sort value and then the name. -/
def ascendingKey (sortBy : QueueSortBy) (row : QueueSelect) : Int ×ₗ κ :=
  toLex (getSortExpression sortBy row, db.collate row.name)

/-- The sort value the other way round and then the name, still ascending. -/
def descendingKey (sortBy : QueueSortBy) (row : QueueSelect) : Intᵒᵈ ×ₗ κ :=
  toLex (OrderDual.toDual (getSortExpression sortBy row), db.collate row.name)

/-- The cursor of a row carries the row's sort value. -/
theorem getCursorValue_toCursor (sortBy : QueueSortBy) (row : QueueSelect) :
    getCursorValue row.toCursor sortBy = .ok (getSortExpression sortBy row) := by
  cases sortBy with
  | waitingJobs => exact congrArg Except.ok (JsNumber.number_safe _)
  | activeJobs => exact congrArg Except.ok (JsNumber.number_safe _)
  | pressure =>
      apply congrArg Except.ok
      rw [getSortExpression]
      cases row.pressure with
      | none => rfl
      | some n => exact JsNumber.number_safe n

theorem queueOrder_asc (sortBy : QueueSortBy) (a b : QueueSelect) :
    Keyset.orderBy (getQueueSortOrder db .next sortBy .asc) a b = true ↔
      ascendingKey db sortBy a ≤ ascendingKey db sortBy b :=
  Keyset.orderBy_cons (Keyset.orderBy_one fun row : QueueSelect => db.collate row.name) (getSortExpression sortBy) a b

theorem queueOrder_desc (sortBy : QueueSortBy) (a b : QueueSelect) :
    Keyset.orderBy (getQueueSortOrder db .next sortBy .desc) a b = true ↔
      descendingKey db sortBy a ≤ descendingKey db sortBy b :=
  Keyset.orderBy_cons (Keyset.orderBy_one fun row : QueueSelect => db.collate row.name)
    (fun row => OrderDual.toDual (getSortExpression sortBy row)) a b

/-- Turning back sorts both columns the other way round. -/
theorem queueOrder_prev (sortBy : QueueSortBy) (sortDirection : SortDirection) (a b : QueueSelect) :
    Keyset.orderBy (getQueueSortOrder db .prev sortBy sortDirection) a b =
      Keyset.orderBy (getQueueSortOrder db .next sortBy sortDirection) b a := by
  cases sortDirection <;> rfl

section Comparison

variable (sortBy : QueueSortBy) (c r : QueueSelect)

theorem compareCursor_asc :
    compareCursor db .next sortBy .asc c.name (getSortExpression sortBy c) r = true ↔
      ascendingKey db sortBy c < ascendingKey db sortBy r := by
  rw [ascendingKey, ascendingKey, Prod.Lex.toLex_lt_toLex, @eq_comm _ (getSortExpression sortBy c)]
  simp [compareCursor]

theorem compareCursor_asc_prev :
    compareCursor db .prev sortBy .asc c.name (getSortExpression sortBy c) r = true ↔
      ascendingKey db sortBy r < ascendingKey db sortBy c := by
  rw [ascendingKey, ascendingKey, Prod.Lex.toLex_lt_toLex]
  simp [compareCursor]

theorem compareCursor_desc :
    compareCursor db .next sortBy .desc c.name (getSortExpression sortBy c) r = true ↔
      descendingKey db sortBy c < descendingKey db sortBy r := by
  rw [descendingKey, descendingKey, Prod.Lex.toLex_lt_toLex, OrderDual.toDual_lt_toDual, OrderDual.toDual_inj,
    @eq_comm _ (getSortExpression sortBy c)]
  simp [compareCursor]

theorem compareCursor_desc_prev :
    compareCursor db .prev sortBy .desc c.name (getSortExpression sortBy c) r = true ↔
      descendingKey db sortBy r < descendingKey db sortBy c := by
  rw [descendingKey, descendingKey, Prod.Lex.toLex_lt_toLex, OrderDual.toDual_lt_toDual, OrderDual.toDual_inj]
  simp [compareCursor]

end Comparison

/-! ## Every page -/

/-- The value `getCursorValue` finds, where it finds one. -/
def cursorValue (sortBy : QueueSortBy) (cursor : QueueCursor) : Int :=
  ((getCursorValue cursor sortBy).toOption).getD 0

theorem cursorValue_toCursor (sortBy : QueueSortBy) (row : QueueSelect) :
    cursorValue sortBy row.toCursor = getSortExpression sortBy row := by
  rw [cursorValue, getCursorValue_toCursor]
  rfl

def queuesAscending (sortBy : QueueSortBy) : Keyset.Listing QueueSelect QueueCursor (Int ×ₗ κ) where
  key := ascendingKey db sortBy
  toCursor := QueueSelect.toCursor
  order direction := Keyset.orderBy (getQueueSortOrder db direction sortBy .asc)
  comparison direction cursor := compareCursor db direction sortBy .asc cursor.name (cursorValue sortBy cursor)
  order_next := queueOrder_asc db sortBy
  order_prev a b := by rw [queueOrder_prev, queueOrder_asc]
  after c r := by
    rw [cursorValue_toCursor]
    exact compareCursor_asc db sortBy c r
  before c r := by
    rw [cursorValue_toCursor]
    exact compareCursor_asc_prev db sortBy c r

def queuesDescending (sortBy : QueueSortBy) : Keyset.Listing QueueSelect QueueCursor (Intᵒᵈ ×ₗ κ) where
  key := descendingKey db sortBy
  toCursor := QueueSelect.toCursor
  order direction := Keyset.orderBy (getQueueSortOrder db direction sortBy .desc)
  comparison direction cursor := compareCursor db direction sortBy .desc cursor.name (cursorValue sortBy cursor)
  order_next := queueOrder_desc db sortBy
  order_prev a b := by rw [queueOrder_prev, queueOrder_desc]
  after c r := by
    rw [cursorValue_toCursor]
    exact compareCursor_desc db sortBy c r
  before c r := by
    rw [cursorValue_toCursor]
    exact compareCursor_desc_prev db sortBy c r

variable (t : QueueTables J) (input : ListQueuesInput)

/-- The pressures the query of the input selects. -/
def selectedPressure : String → Option SafeInt :=
  if input.sortBy = some .pressure then t.buildPressureStats input.pressureDateFrom input.pressureDateTo
  else fun _ => some ⟨0, by decide⟩

/-- The queues that the search finds. -/
def matchingQueues : List QueueSelect :=
  (t.db.queues.filter fun q => searched db input.search q.name).map (queueSelectFields t (selectedPressure t input))

/-- One call for the page at a cursor. -/
def listQueuesAt (cursorDirection : Keyset.Direction) (cursor : Option QueueCursor) :
    Option (Keyset.Page ListedQueue QueueCursor) :=
  (listQueues db t { input with cursor, cursorDirection := some cursorDirection }).toOption.map (·.toPage)

omit [LinearOrder κ] in
theorem matchingQueues_nodup : ((matchingQueues db t input).map (·.name)).Nodup := by
  have names : ((t.db.queues.filter fun q => searched db input.search q.name).map (·.name)).Nodup :=
    t.db.names.sublist (List.filter_sublist.map _)
  rw [matchingQueues, List.map_map]
  exact names

variable {input}

theorem selectQueues_eq {pressure : String → Option SafeInt} {cursor : Option QueueCursor}
    {cursorDirection : Keyset.Direction} {sortBy : QueueSortBy} {sortDirection : SortDirection}
    (made : ∀ c ∈ cursor, c.pressure.isSome) (limit : Nat) (search : Option String) :
    selectQueues db t pressure cursor cursorDirection limit search sortBy sortDirection =
      .ok (((((t.db.queues.filter fun q => searched db search q.name).map (queueSelectFields t pressure)).filter
        fun r => cursor.all fun c =>
          compareCursor db cursorDirection sortBy sortDirection c.name (cursorValue sortBy c) r).insertionSort
            fun a b => Keyset.orderBy (getQueueSortOrder db cursorDirection sortBy sortDirection) a b = true).take
              (limit + 1)) := by
  cases cursor with
  | none => rfl
  | some c =>
      have found : getCursorValue c sortBy = .ok (cursorValue sortBy c) := by
        obtain ⟨pressure, given⟩ := Option.isSome_iff_exists.mp (made c rfl)
        cases sortBy <;> simp [cursorValue, getCursorValue, given, Except.toOption]
      rw [selectQueues, getQueueCursorComparison, found]
      rfl

/-- Sorting by pressure needs a time range. -/
def ListQueuesInput.Dated (input : ListQueuesInput) : Prop :=
  input.sortBy = some .pressure → ∃ dateFrom dateTo,
    input.pressureDateFrom = some dateFrom ∧ input.pressureDateTo = some dateTo ∧ dateFrom < dateTo

theorem issues_eq_nil (accepted : limitIssues input.limit = []) (dated : input.Dated)
    (made : ∀ c ∈ input.cursor, c.pressure.isSome) : input.issues = [] := by
  rw [ListQueuesInput.issues, accepted, List.nil_append]
  split
  · rename_i sorted
    obtain ⟨dateFrom, dateTo, hasFrom, hasTo, before⟩ := dated sorted
    have cursor : input.cursor.any (·.pressure.isNone) = false := by
      cases given : input.cursor with
      | none => rfl
      | some c => simpa using made c given
    simp [hasFrom, hasTo, cursor, not_le.mpr before]
  · rfl

/-- `listQueues` pages any listing with its order, comparison and cursor. -/
theorem listQueues_page {κ' : Type} [LinearOrder κ'] (L : Keyset.Listing QueueSelect QueueCursor κ')
    (order : ∀ d, L.order d =
      Keyset.orderBy (getQueueSortOrder db d (input.sortBy.getD .waitingJobs) (input.sortDirection.getD .desc)))
    (comparison : ∀ d c, L.comparison d c = compareCursor db d (input.sortBy.getD .waitingJobs)
      (input.sortDirection.getD .desc) c.name (cursorValue (input.sortBy.getD .waitingJobs) c))
    (cursors : L.toCursor = QueueSelect.toCursor) (accepted : limitIssues input.limit = []) (dated : input.Dated)
    (cursorDirection : Keyset.Direction) (cursor : Option QueueCursor) (made : ∀ c ∈ cursor, c.pressure.isSome) :
    listQueuesAt db t input cursorDirection cursor =
      (some (L.page (matchingQueues db t input) (input.limit.getD 20).toNat cursorDirection cursor)).map
        (Keyset.Page.map QueueSelect.listed) := by
  have parsed : parse ListQueuesInput.issues { input with cursor, cursorDirection := some cursorDirection } =
      .ok _ := parse_ok (issues_eq_nil accepted dated made)
  have rows : (if input.sortBy.getD .waitingJobs = .pressure then
      listQueuesSortedByPressure db t cursor cursorDirection (input.limit.getD 20).toNat input.pressureDateFrom
        input.pressureDateTo input.search (input.sortDirection.getD .desc)
    else listQueuesSortedByJobCount db t cursor cursorDirection (input.limit.getD 20).toNat input.search
      (input.sortBy.getD .waitingJobs) (input.sortDirection.getD .desc)) =
        .ok (L.query (matchingQueues db t input) cursorDirection cursor ((input.limit.getD 20).toNat + 1)) := by
    have byPressure : input.sortBy.getD .waitingJobs = .pressure ↔ input.sortBy = some .pressure := by
      cases input.sortBy <;> simp
    rw [Keyset.Listing.query, order, matchingQueues, selectedPressure]
    simp only [comparison, byPressure]
    split
    · rename_i sorted
      rw [listQueuesSortedByPressure, selectQueues_eq db t made, sorted]
      rfl
    · exact selectQueues_eq db t made _ _
  rw [listQueuesAt, listQueues, parsed]
  simp only [bind, Except.bind, Option.getD_some, rows, Keyset.Listing.page, cursors]
  cases cursorDirection <;> simp [Keyset.pageOf, Keyset.Page.map, Except.toOption, pure, Except.pure]

/-- By the sort value in the chosen direction, ties by ascending name. -/
def QueueBefore (sortBy : QueueSortBy) (sortDirection : SortDirection) (a b : QueueSelect) : Prop :=
  (match sortDirection with
    | .asc => getSortExpression sortBy a < getSortExpression sortBy b
    | .desc => getSortExpression sortBy b < getSortExpression sortBy a) ∨
  (getSortExpression sortBy a = getSortExpression sortBy b ∧ db.collate a.name < db.collate b.name)

/-- Every matching queue is listed once, in the order asked for, and each later page's
    `prevCursor` leads back to the page before it. -/
def QueuesComplete (input : ListQueuesInput) : Prop :=
  ∃ rows : List QueueSelect, rows.Perm (matchingQueues db t input) ∧
    rows.Pairwise (QueueBefore db (input.sortBy.getD .waitingJobs) (input.sortDirection.getD .desc)) ∧
    Keyset.Enumerates (listQueuesAt db t input) (rows.map QueueSelect.listed)

omit [LinearOrder κ] in
/-- A key that tells the name tells the queue. -/
theorem keys_nodup {κ' : Type} {key : QueueSelect → κ'} (named : ∀ a b, key a = key b → a.name = b.name) :
    ((matchingQueues db t input).map key).Nodup :=
  List.pairwise_map.mpr ((List.pairwise_map.mp (matchingQueues_nodup db t input)).imp fun apart same =>
    apart (named _ _ same))

/-- The listing's pages are the pages fetched, as its cursors carry a pressure. -/
theorem listing_enumerates {κ' : Type} [LinearOrder κ'] (L : Keyset.Listing QueueSelect QueueCursor κ')
    (cursors : L.toCursor = QueueSelect.toCursor) {limit : Nat} (positive : 0 < limit)
    (distinct : ((matchingQueues db t input).map L.key).Nodup)
    (fetched : ∀ d c, (∀ x ∈ c, x.pressure.isSome) → listQueuesAt db t input d c =
      (some (L.page (matchingQueues db t input) limit d c)).map (Keyset.Page.map QueueSelect.listed)) :
    Keyset.Enumerates (listQueuesAt db t input) ((L.sorted (matchingQueues db t input)).map QueueSelect.listed) := by
  apply Keyset.Enumerates.congr (fun c => c.pressure.isSome) fetched _ ((L.enumerates positive distinct).map _)
  intro d c p shown
  obtain rfl := Option.some.inj shown
  have made : ∀ (items : List QueueSelect) x, (∃ r ∈ items, L.toCursor r = x) → x.pressure.isSome := by
    rintro items x ⟨r, _, rfl⟩
    rw [cursors]
    rfl
  obtain ⟨next, prev⟩ := Keyset.pageOf_made L.toCursor limit d c.isSome
    (L.query (matchingQueues db t input) d c (limit + 1))
  exact ⟨fun x hx => made _ x (next x hx), fun x hx => made _ x (prev x hx)⟩

/-- A listing that is what the code asks for, and whose key tells the name, lists
    every queue. -/
theorem listing_complete {κ' : Type} [LinearOrder κ'] (L : Keyset.Listing QueueSelect QueueCursor κ')
    (order : ∀ d, L.order d =
      Keyset.orderBy (getQueueSortOrder db d (input.sortBy.getD .waitingJobs) (input.sortDirection.getD .desc)))
    (comparison : ∀ d c, L.comparison d c = compareCursor db d (input.sortBy.getD .waitingJobs)
      (input.sortDirection.getD .desc) c.name (cursorValue (input.sortBy.getD .waitingJobs) c))
    (cursors : L.toCursor = QueueSelect.toCursor) (named : ∀ a b, L.key a = L.key b → a.name = b.name)
    (before : ∀ a b, L.key a < L.key b →
      QueueBefore db (input.sortBy.getD .waitingJobs) (input.sortDirection.getD .desc) a b)
    (accepted : limitIssues input.limit = []) (dated : input.Dated) : QueuesComplete db t input := by
  have distinct : ((matchingQueues db t input).map L.key).Nodup := keys_nodup db t named
  have fetched := listQueues_page db t L order comparison cursors accepted dated
  exact ⟨L.sorted _, L.sorted_perm _, (L.sorted_strict distinct).imp fun {a b} => before a b,
    listing_enumerates db t L cursors (limit_pos accepted) distinct fetched⟩

theorem listQueues_complete (atLeast : ∀ n ∈ input.limit, 1 ≤ n) (atMost : ∀ n ∈ input.limit, n ≤ 100)
    (dated : input.Dated) : QueuesComplete db t input := by
  have accepted : limitIssues input.limit = [] := limitIssues_eq_nil.mpr fun n hn => ⟨atLeast n hn, atMost n hn⟩
  cases direction : input.sortDirection.getD .desc with
  | asc =>
      refine listing_complete db t (queuesAscending db (input.sortBy.getD .waitingJobs)) ?_ ?_ rfl ?_ ?_ accepted dated
      · exact fun _ => by rw [direction]; rfl
      · exact fun _ _ => by rw [direction]; rfl
      · exact fun a b same => db.collate.injective (congrArg (fun k => (ofLex k).2) same)
      · rw [direction]
        exact fun a b before => Prod.Lex.toLex_lt_toLex.mp before
  | desc =>
      refine listing_complete db t (queuesDescending db (input.sortBy.getD .waitingJobs)) ?_ ?_ rfl ?_ ?_ accepted dated
      · exact fun _ => by rw [direction]; rfl
      · exact fun _ _ => by rw [direction]; rfl
      · exact fun a b same => db.collate.injective (congrArg (fun k => (ofLex k).2) same)
      · rw [direction]
        exact fun a b before => Prod.Lex.toLex_lt_toLex.mp before

def hourOf (queue : String) (pressureTotalMs : Int) (pressureCount : Nat) : HourlyStats :=
  { bucketStart := 0, queue, totalRuns := pressureCount, completedRuns := pressureCount, failedRuns := 0,
    activeRuns := 0, waitingRuns := 0, durationTotalMs := 0, durationCount := 0, durationMinMs := none,
    durationMaxMs := none, pressureTotalMs, pressureCount }

/-- Three queues, two of them with an active run and two with an hour of finished ones. -/
def threeQueues : QueueTables Unit where
  db := {
    queues := ["a", "b", "c"].zipIdx.map fun (name, id) => { name, id, defaultJobOptions := .null, isPaused := false }
    jobSchedulers := []
    nextId := 3
    ids := by decide
    below := by simp
    names := by decide
    keys := List.nodup_nil
    texts := texts_nil
    references := by simp }
  runs := (upsertJobRuns {} [{ mailRun .active none with queue := "a" }, { mailRun .active none with queue := "c" }]
    .empty).1
  stats := HourlyStatsTable.upsert .empty [hourOf "a" 4500 3, hourOf "b" 800 2]
  countable := by decide
  safe := by
    intro r hr
    have rows : r = hourOf "a" 4500 3 ∨ r = hourOf "b" 800 2 := List.mem_pair.mp hr
    obtain rfl | rfl := rows
    · exact (by decide : 4500 ≤ 3 * 2 ^ 53)
    · exact (by decide : 800 ≤ 2 * 2 ^ 53)

theorem threeQueues_complete :
    QueuesComplete plainDatabase threeQueues
      { sortBy := some .pressure, limit := some 1, pressureDateFrom := some 0, pressureDateTo := some 3600000 } :=
  listQueues_complete plainDatabase threeQueues (by simp) (by simp) fun _ => ⟨0, 3600000, rfl, rfl, by decide⟩

/-- A limit above 100 is refused, and so is sorting by pressure without a time range. -/
theorem listQueues_refuses :
    (¬ ∀ input : ListQueuesInput, (∀ n ∈ input.limit, 1 ≤ n) → input.Dated →
      QueuesComplete plainDatabase threeQueues input) ∧
    ¬ ∀ input : ListQueuesInput, (∀ n ∈ input.limit, 1 ≤ n) → (∀ n ∈ input.limit, n ≤ 100) →
      QueuesComplete plainDatabase threeQueues input := by
  constructor
  · intro complete
    obtain ⟨_, _, _, shown⟩ := complete { limit := some 101 } (by simp) (by simp [ListQueuesInput.Dated])
    obtain ⟨p, fetched⟩ := shown.first
    cases fetched
  · intro complete
    obtain ⟨_, _, _, shown⟩ := complete { sortBy := some .pressure } (by simp) (by simp)
    obtain ⟨p, fetched⟩ := shown.first
    cases fetched

end BetterBullBoard
