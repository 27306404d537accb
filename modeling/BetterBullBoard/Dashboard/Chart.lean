import BetterBullBoard.Lib.JsMap
import BetterBullBoard.Dashboard.Rollups

/-! # The queue chart

The chart of the queue table: past hours from the rollups, the current hour from
`job_runs`, merged by time and filled with zeros. A chart is determined by the
sums of its rows at each time, so two charts agree when these sums do.
-/

namespace BetterBullBoard

variable {J : Type}

inductive ChartStep where
  | hour | day
  deriving Repr, DecidableEq

def day : Int := 86400000

def dayStart (t : Int) : Int := t / day * day

def ChartStep.start : ChartStep → Int → Int
  | .hour => hourStart
  | .day => dayStart

def ChartStep.length : ChartStep → Int
  | .hour => BetterBullBoard.hour
  | .day => BetterBullBoard.day

structure ChartDataRow where
  queueName : String
  timestamp : Int
  completed : Nat
  failed : Nat
  deriving Repr, DecidableEq

def ChartDataRow.key (r : ChartDataRow) : String × Int := (r.queueName, r.timestamp)

def historicalRow (g : (String × Int) × List HourlyStats) : ChartDataRow :=
  { queueName := g.1.1, timestamp := g.1.2, completed := (g.2.map (·.completedRuns)).sum,
    failed := (g.2.map (·.failedRuns)).sum }

def jobRunsRow (g : (String × Int) × List (JobRun J)) : ChartDataRow :=
  { queueName := g.1.1, timestamp := g.1.2, completed := g.2.countP fun r => r.status = .completed,
    failed := g.2.countP fun r => r.status = .failed }

/-- The rollups of these hours. -/
def historicalChartData (interval : ChartStep) (queueNames : List String) (chartDateFrom currentHourStart : Int)
    (stats : List HourlyStats) : List ChartDataRow :=
  (Grouped.groupBy (fun r : HourlyStats => (r.queue, interval.start r.bucketStart)) (stats.filter fun r =>
    r.queue ∈ queueNames ∧ chartDateFrom ≤ r.bucketStart ∧ r.bucketStart < currentHourStart)).map historicalRow

/-- The rows of `job_runs` created in this range. -/
def jobRunsChartData (interval : ChartStep) (queueNames : List String) (dateFrom dateTo : Int)
    (runs : List (JobRun J)) : List ChartDataRow :=
  (Grouped.groupBy (fun r : JobRun J => (r.queue, interval.start r.createdAt)) (runs.filter fun r =>
    r.queue ∈ queueNames ∧ dateFrom ≤ r.createdAt ∧ r.createdAt < dateTo)).map jobRunsRow

/-- One round of the loop that merges the rows of both queries. -/
def addChartRow (m : List ((String × Int) × (Nat × Nat))) (chart : ChartDataRow) :
    List ((String × Int) × (Nat × Nat)) :=
  let previous := (JsMap.get chart.key m).getD (0, 0)
  JsMap.set chart.key (previous.1 + chart.completed, previous.2 + chart.failed) m

def chartDataMap (rows : List ChartDataRow) : List ((String × Int) × (Nat × Nat)) := rows.foldl addChartRow []

/-- The points of one queue. -/
def queuePoints (queueName : String) (m : List ((String × Int) × (Nat × Nat))) : List (Int × (Nat × Nat)) :=
  (m.filter fun e => e.1.1 = queueName).map fun e => (e.1.2, e.2)

/-- The point of a time, zeros where there is none. -/
def fillPoint (chartData : List (Int × (Nat × Nat))) (ts : Int) : Int × (Nat × Nat) :=
  match JsMap.get ts chartData with
  | some data => (ts, data)
  | none => (ts, (0, 0))

def fillChartData (dateFrom dateTo : Int) (stepKind : ChartStep) (chartData : List (Int × (Nat × Nat))) :
    List (Int × (Nat × Nat)) :=
  let steps := if dateFrom ≤ dateTo then ((dateTo - dateFrom) / stepKind.length).toNat + 1 else 0
  (List.range steps).map fun i => fillPoint chartData (stepKind.start (dateFrom + i * stepKind.length))

/-- The chart of a queue made of these rows. -/
def chartOf (dateFrom dateTo : Int) (interval : ChartStep) (queueName : String) (rows : List ChartDataRow) :
    List (Int × (Nat × Nat)) :=
  fillChartData dateFrom dateTo interval (queuePoints queueName (chartDataMap rows))

/-- The chart the handler answers with. -/
def queueChart (interval : ChartStep) (queueNames : List String) (dateFrom dateTo : Int) (stats : HourlyStatsTable)
    (runs : List (JobRun J)) (queueName : String) : List (Int × (Nat × Nat)) :=
  chartOf dateFrom dateTo interval queueName <|
    historicalChartData interval queueNames (interval.start dateFrom) (hourStart dateTo) stats.rows ++
      jobRunsChartData interval queueNames (hourStart dateTo) dateTo runs

/-- The chart that `job_runs` alone gives. -/
def jobRunsChart (interval : ChartStep) (queueNames : List String) (dateFrom dateTo : Int) (runs : List (JobRun J))
    (queueName : String) : List (Int × (Nat × Nat)) :=
  chartOf dateFrom dateTo interval queueName <|
    jobRunsChartData interval queueNames (interval.start dateFrom) dateTo runs

/-! ## A chart is the sums of its rows -/

/-- The sum of one column over the rows of a queue and time. -/
def pointSum (column : ChartDataRow → Nat) (rows : List ChartDataRow) (k : String × Int) : Nat :=
  ((Grouped.group ChartDataRow.key rows k).map column).sum

theorem pointSum_append (column : ChartDataRow → Nat) (rows rows' : List ChartDataRow) (k : String × Int) :
    pointSum column (rows ++ rows') k = pointSum column rows k + pointSum column rows' k := by
  simp [pointSum, Grouped.group]

theorem get_chartDataMap (rows : List ChartDataRow) (k : String × Int) :
    (JsMap.get k (chartDataMap rows)).getD (0, 0) = (pointSum (·.completed) rows k, pointSum (·.failed) rows k) := by
  induction rows using List.reverseRecOn with
  | nil => rfl
  | append_singleton rows row ih =>
      have last : chartDataMap (rows ++ [row]) = addChartRow (chartDataMap rows) row := List.foldl_append
      rw [last, addChartRow, JsMap.get_set, pointSum_append, pointSum_append]
      split
      · rename_i same
        subst same
        simp [ih, pointSum, Grouped.group]
      · rename_i other
        simp [ih, pointSum, Grouped.group, other]

theorem get_queuePoints (queueName : String) (m : List ((String × Int) × (Nat × Nat))) (ts : Int) :
    JsMap.get ts (queuePoints queueName m) = JsMap.get (queueName, ts) m := by
  induction m with
  | nil => rfl
  | cons e m ih =>
      simp only [queuePoints] at ih
      cases Decidable.em (e.1.1 = queueName) with
      | inl same =>
          simp only [queuePoints, List.filter_cons, same, decide_true, if_true, List.map_cons, JsMap.get, ih,
            Prod.ext_iff, true_and]
      | inr other =>
          simp only [queuePoints, List.filter_cons, other, decide_false, Bool.false_eq_true, if_false, JsMap.get, ih,
            Prod.ext_iff, false_and]

/-- A point shows the sums of its rows. -/
theorem fillPoint_eq (queueName : String) (rows : List ChartDataRow) (ts : Int) :
    fillPoint (queuePoints queueName (chartDataMap rows)) ts =
      (ts, pointSum (·.completed) rows (queueName, ts), pointSum (·.failed) rows (queueName, ts)) := by
  have point : ∀ chartData, fillPoint chartData ts = (ts, (JsMap.get ts chartData).getD (0, 0)) := by
    intro chartData
    unfold fillPoint
    cases JsMap.get ts chartData <;> rfl
  rw [point, get_queuePoints, get_chartDataMap]

theorem chartOf_congr {rows rows' : List ChartDataRow} {queueName : String}
    (completed : ∀ ts, pointSum (·.completed) rows (queueName, ts) = pointSum (·.completed) rows' (queueName, ts))
    (failed : ∀ ts, pointSum (·.failed) rows (queueName, ts) = pointSum (·.failed) rows' (queueName, ts))
    (dateFrom dateTo : Int) (interval : ChartStep) :
    chartOf dateFrom dateTo interval queueName rows = chartOf dateFrom dateTo interval queueName rows' := by
  unfold chartOf fillChartData
  apply List.map_congr_left
  intro i _
  rw [fillPoint_eq, fillPoint_eq, completed, failed]

/-! ## The sums of the two queries -/

theorem countP_eq_sum {ρ : Type} (P : ρ → Prop) [DecidablePred P] (rows : List ρ) :
    (rows.countP fun r => P r) = (rows.map fun r => if P r then 1 else 0).sum := by
  induction rows with
  | nil => rfl
  | cons r rows ih =>
      simp only [List.countP_cons, List.map_cons, List.sum_cons, ih, decide_eq_true_eq]
      omega

/-- The sum of a column at a time, where each row is the sum over its group. -/
theorem pointSum_groupBy {ρ : Type} {key : ρ → String × Int} {rows : List ρ} {column : ChartDataRow → Nat}
    {row : (String × Int) × List ρ → ChartDataRow} {f : ρ → Nat} (keyed : ∀ g, (row g).key = g.1)
    (summed : ∀ g, column (row g) = (g.2.map f).sum) (k : String × Int) :
    pointSum column ((Grouped.groupBy key rows).map row) k = ((Grouped.group key rows k).map f).sum := by
  rw [← Grouped.sum_groupBy, pointSum, Grouped.group, List.filter_map, List.map_map]
  congr 1
  have same : ((fun r => decide (ChartDataRow.key r = k)) ∘ row) = fun e => decide (e.1 = k) := by
    funext g
    simp only [Function.comp_apply, keyed]
  rw [same]
  exact List.map_congr_left fun g _ => summed g

theorem start_hourStart (interval : ChartStep) (t : Int) : interval.start (hourStart t) = interval.start t := by
  cases interval with
  | hour => exact hourStart_aligned t
  | day =>
      simp only [ChartStep.start, dayStart, hourStart, day, hour]
      omega

theorem start_aligned (interval : ChartStep) (t : Int) : hourStart (interval.start t) = interval.start t := by
  cases interval with
  | hour => exact hourStart_aligned t
  | day =>
      simp only [ChartStep.start, dayStart, hourStart, day, hour]
      omega

theorem start_le (interval : ChartStep) {t t' : Int} (h : t ≤ t') : interval.start t ≤ hourStart t' := by
  cases interval with
  | hour =>
      simp only [ChartStep.start, hourStart, hour]
      omega
  | day =>
      simp only [ChartStep.start, dayStart, hourStart, day, hour]
      omega

/-- Whether a time lies in a range of whole hours is a matter of its hour. -/
theorem le_hourStart {h t : Int} (aligned : hourStart h = h) : h ≤ hourStart t ↔ h ≤ t := by
  unfold hourStart hour at *
  omega

theorem hourStart_lt {h t : Int} (aligned : hourStart h = h) : hourStart t < h ↔ t < h := by
  unfold hourStart hour at *
  omega

/-- One count of a rollup row, zero where there is none. -/
def countOf (field : HourlyStats → Nat) (row : Option HourlyStats) : Nat := (row.map field).getD 0

theorem countOf_aggregate (field : HourlyStats → Nat) {status : JobStatus}
    (counts : ∀ bucket (rows : List (JobRun J)), field (statsOf bucket rows) = rows.countP fun r => r.status = status)
    (runs : List (JobRun J)) (bucket : Int × String) :
    countOf field (aggregate runs bucket) =
      (Grouped.group JobRun.bucket runs bucket).countP fun r => r.status = status := by
  unfold aggregate
  split
  · rename_i missing
    rw [missing]
    rfl
  · rename_i present
    rw [present]
    exact counts _ _

/-- A past hour of the chart that belongs to this point. -/
def PastHour (interval : ChartStep) (chartDateFrom currentHour ts h : Int) : Prop :=
  hourStart h = h ∧ chartDateFrom ≤ h ∧ h < currentHour ∧ interval.start h = ts

instance (interval : ChartStep) (chartDateFrom currentHour ts h : Int) :
    Decidable (PastHour interval chartDateFrom currentHour ts h) := inferInstanceAs (Decidable (_ ∧ _))

section

variable {stats : HourlyStatsTable} {queueNames : List String} {queueName : String}
  {interval : ChartStep} {chartDateFrom currentHour ts h : Int}

/-- Of a past hour the rows of its key are read, and of another hour none. -/
theorem filter_of_hour {α : Type} {rows : List α} {read own : α → Bool} {past : Prop} [Decidable past]
    (each : ∀ r ∈ rows, read r = true ↔ past ∧ own r = true) :
    rows.filter read = if past then rows.filter own else [] := by
  split
  · rename_i past
    apply List.filter_congr
    intro r hr
    rw [Bool.eq_iff_iff, each r hr]
    exact and_iff_right past
  · rename_i outside
    apply List.filter_eq_nil_iff.mpr
    intro r hr reads
    exact outside ((each r hr).mp reads).1

/-- The rollups of the past hours, hour by hour. -/
theorem rollups_of_hour (shown : queueName ∈ queueNames)
    (hours : ∀ r ∈ stats.rows, hourStart r.bucketStart = r.bucketStart) :
    Grouped.group (fun r : HourlyStats => r.bucketStart)
        (Grouped.group (fun r : HourlyStats => (r.queue, interval.start r.bucketStart)) (stats.rows.filter fun r =>
          r.queue ∈ queueNames ∧ chartDateFrom ≤ r.bucketStart ∧ r.bucketStart < currentHour) (queueName, ts)) h =
      if PastHour interval chartDateFrom currentHour ts h then (stored stats (h, queueName)).toList else [] := by
  simp only [Grouped.group, List.filter_filter]
  rw [stored, ← stats.unique.filter_key]
  apply filter_of_hour
  intro r hr
  simp only [Bool.and_eq_true, decide_eq_true_eq, HourlyStats.target, Option.some.injEq, Prod.mk.injEq]
  constructor
  · intro all
    obtain ⟨rfl, ⟨name, time⟩, -, after, before⟩ := all
    exact ⟨⟨hours r hr, after, before, time⟩, rfl, name⟩
  · intro all
    obtain ⟨⟨-, after, before, time⟩, rfl, rfl⟩ := all
    exact ⟨rfl, ⟨rfl, time⟩, shown, after, before⟩

/-- The rows of the past hours, hour by hour. -/
theorem runs_of_hour (shown : queueName ∈ queueNames) (runs : List (JobRun J))
    (fromHour : hourStart chartDateFrom = chartDateFrom)
    (toHour : hourStart currentHour = currentHour) :
    Grouped.group (fun r : JobRun J => hourStart r.createdAt)
        (Grouped.group (fun r : JobRun J => (r.queue, interval.start r.createdAt)) (runs.filter fun r =>
          r.queue ∈ queueNames ∧ chartDateFrom ≤ r.createdAt ∧ r.createdAt < currentHour) (queueName, ts)) h =
      if PastHour interval chartDateFrom currentHour ts h then Grouped.group JobRun.bucket runs (h, queueName)
      else [] := by
  simp only [Grouped.group, List.filter_filter]
  apply filter_of_hour
  intro r _
  simp only [Bool.and_eq_true, decide_eq_true_eq, JobRun.bucket, Prod.mk.injEq]
  constructor
  · intro all
    obtain ⟨rfl, ⟨name, time⟩, -, after, before⟩ := all
    have point : interval.start (hourStart r.createdAt) = ts := by rw [start_hourStart, time]
    exact ⟨⟨hourStart_aligned _, (le_hourStart fromHour).mpr after, (hourStart_lt toHour).mpr before, point⟩, rfl, name⟩
  · intro all
    obtain ⟨⟨-, after, before, time⟩, rfl, rfl⟩ := all
    have point : interval.start r.createdAt = ts := by rw [← start_hourStart, time]
    exact ⟨rfl, ⟨rfl, point⟩, shown, (le_hourStart fromHour).mp after, (hourStart_lt toHour).mp before⟩

end

/-- Past hours: the rollups sum up to what the rows say if each hour does. -/
theorem historical_sum {field : HourlyStats → Nat} {status : JobStatus}
    (counts : ∀ bucket (rows : List (JobRun J)), field (statsOf bucket rows) = rows.countP fun r => r.status = status)
    {stats : HourlyStatsTable} {runs : List (JobRun J)}
    (hours : ∀ r ∈ stats.rows, hourStart r.bucketStart = r.bucketStart)
    {queueNames : List String} {queueName : String} (shown : queueName ∈ queueNames) {chartDateFrom currentHour : Int}
    (fromHour : hourStart chartDateFrom = chartDateFrom) (toHour : hourStart currentHour = currentHour)
    (agree : ∀ h, hourStart h = h → chartDateFrom ≤ h → h < currentHour →
      countOf field (stored stats (h, queueName)) = countOf field (aggregate runs (h, queueName)))
    (interval : ChartStep) (ts : Int) :
    ((Grouped.group (fun r : HourlyStats => (r.queue, interval.start r.bucketStart)) (stats.rows.filter fun r =>
        r.queue ∈ queueNames ∧ chartDateFrom ≤ r.bucketStart ∧ r.bucketStart < currentHour) (queueName, ts)).map
          field).sum =
      ((Grouped.group (fun r : JobRun J => (r.queue, interval.start r.createdAt)) (runs.filter fun r =>
        r.queue ∈ queueNames ∧ chartDateFrom ≤ r.createdAt ∧ r.createdAt < currentHour) (queueName, ts)).map
          fun r => if r.status = status then 1 else 0).sum := by
  refine @Grouped.sum_eq_of_groups _ _ _ _ (fun r : HourlyStats => r.bucketStart)
    (fun r : JobRun J => hourStart r.createdAt) _ _ _ _ fun h => ?_
  rw [rollups_of_hour shown hours, runs_of_hour shown runs fromHour toHour]
  split
  · rename_i past
    have same := agree h past.1 past.2.1 past.2.2.1
    rw [countOf_aggregate field counts] at same
    rw [← countP_eq_sum fun r : JobRun J => r.status = status, ← same, countOf]
    cases stored stats (h, queueName) <;> simp
  · rfl

/-- One column of the chart, if each past hour agrees on it. -/
theorem column_agrees {column : ChartDataRow → Nat} {field : HourlyStats → Nat} {status : JobStatus}
    (ofStats : ∀ g, column (historicalRow g) = (g.2.map field).sum)
    (ofRuns : ∀ g : (String × Int) × List (JobRun J), column (jobRunsRow g) = g.2.countP fun r => r.status = status)
    (counts : ∀ bucket (rows : List (JobRun J)), field (statsOf bucket rows) = rows.countP fun r => r.status = status)
    {stats : HourlyStatsTable} {runs : List (JobRun J)}
    (hours : ∀ r ∈ stats.rows, hourStart r.bucketStart = r.bucketStart)
    {queueNames : List String} {queueName : String} (shown : queueName ∈ queueNames) {dateFrom dateTo : Int}
    (ordered : dateFrom ≤ dateTo) {interval : ChartStep}
    (agree : ∀ h, hourStart h = h → interval.start dateFrom ≤ h → h < hourStart dateTo →
      countOf field (stored stats (h, queueName)) = countOf field (aggregate runs (h, queueName))) (ts : Int) :
    pointSum column (historicalChartData interval queueNames (interval.start dateFrom) (hourStart dateTo) stats.rows ++
        jobRunsChartData interval queueNames (hourStart dateTo) dateTo runs) (queueName, ts) =
      pointSum column (jobRunsChartData interval queueNames (interval.start dateFrom) dateTo runs) (queueName, ts) := by
  have ofRuns' : ∀ g : (String × Int) × List (JobRun J), column (jobRunsRow g) =
      (g.2.map fun r => if r.status = status then 1 else 0).sum := fun g => by rw [ofRuns, countP_eq_sum]
  have first := start_le interval ordered
  have current : hourStart dateTo ≤ dateTo := by
    unfold hourStart hour
    omega
  rw [pointSum_append, historicalChartData, jobRunsChartData, jobRunsChartData,
    pointSum_groupBy (fun _ => rfl) ofStats, pointSum_groupBy (fun _ => rfl) ofRuns',
    pointSum_groupBy (fun _ => rfl) ofRuns',
    historical_sum counts hours shown (start_aligned interval dateFrom) (hourStart_aligned dateTo) agree interval ts]
  refine (Grouped.sum_parts _ _ runs _ (fun r _ => ?_) fun r _ past => ?_).symm
  · rw [Bool.eq_iff_iff]
    simp only [Bool.or_eq_true, decide_eq_true_eq]
    constructor
    · intro all
      cases Int.lt_or_le r.createdAt (hourStart dateTo) with
      | inl past => exact .inl ⟨all.1, all.2.1, past⟩
      | inr here => exact .inr ⟨all.1, here, all.2.2⟩
    · intro part
      cases part with
      | inl past => exact ⟨past.1, past.2.1, by omega⟩
      | inr here => exact ⟨here.1, by omega, here.2.2⟩
  · simp only [decide_eq_true_eq] at past
    simp only [decide_eq_false_iff_not]
    omega

/-- The chart is the one `job_runs` alone gives, if the counts of each past hour
    of its range agree. -/
theorem queueChart_eq {stats : HourlyStatsTable} {runs : List (JobRun J)}
    (hours : ∀ r ∈ stats.rows, hourStart r.bucketStart = r.bucketStart)
    {queueNames : List String} {queueName : String} (shown : queueName ∈ queueNames) {dateFrom dateTo : Int}
    (ordered : dateFrom ≤ dateTo) {interval : ChartStep}
    (agree : ∀ h, hourStart h = h → interval.start dateFrom ≤ h → h < hourStart dateTo →
      countOf (·.completedRuns) (stored stats (h, queueName)) =
          countOf (·.completedRuns) (aggregate runs (h, queueName)) ∧
        countOf (·.failedRuns) (stored stats (h, queueName)) = countOf (·.failedRuns) (aggregate runs (h, queueName))) :
    queueChart interval queueNames dateFrom dateTo stats runs queueName =
      jobRunsChart interval queueNames dateFrom dateTo runs queueName :=
  chartOf_congr
    (column_agrees (fun _ => rfl) (fun _ => rfl) (fun _ _ => rfl) hours shown ordered
      fun h aligned after before => (agree h aligned after before).1)
    (column_agrees (fun _ => rfl) (fun _ => rfl) (fun _ _ => rfl) hours shown ordered
      fun h aligned after before => (agree h aligned after before).2) dateFrom dateTo interval

end BetterBullBoard
