import Mathlib.Data.Rat.Floor
import BetterBullBoard.Lib.JsMap
import BetterBullBoard.Lib.SortedRows
import BetterBullBoard.Dashboard.Filling
import BetterBullBoard.Dashboard.History

/-! # The dashboard's summary

Three queries over the rollups, each its own statement, and the lists made of them.
Averages and rates are of an ordered type of numbers, so a rounding division may
stand for theirs. Local time is UTC.
-/

namespace BetterBullBoard

variable {J F : Type}

structure DashboardWindow where
  bucketFrom : Int
  dateTo : Int
  graphInterval : ChartStep
  deriving Repr, DecidableEq

/-- From two readings of the clock. A fraction of a millisecond is dropped. -/
def getDashboardWindow (days : Rat) (reading dateTo : Int) : DashboardWindow :=
  let dateFrom := ((reading : Rat) - days * 24 * 60 * 60 * 1000).floor
  { bucketFrom := if days ≤ 7 then hourStart dateFrom else dayStart dateFrom
    dateTo := dateTo
    graphInterval := if days ≤ 7 then .hour else .day }

/-- The rollups of `WHERE`. -/
def DashboardWindow.rollups (w : DashboardWindow) (stats : HourlyStatsTable) : List HourlyStats :=
  stats.rows.filter fun r => w.bucketFrom ≤ r.bucketStart ∧ r.bucketStart ≤ w.dateTo

structure EnhancedStats where
  runningTasks : Nat
  waitingInQueue : Nat
  successes : Nat
  failures : Nat
  deriving Repr, DecidableEq

def getStats (w : DashboardWindow) (db : Dashboard J) : EnhancedStats where
  runningTasks := db.runs.rows.countP fun r => r.status = .active
  waitingInQueue := db.runs.rows.countP fun r => r.status = .waiting
  successes := ((w.rollups db.stats).map (·.completedRuns)).sum
  failures := ((w.rollups db.stats).map (·.failedRuns)).sum

structure QueuePerformance (F : Type) where
  queue : String
  totalRuns : Nat
  successes : Nat
  failures : Nat
  errorRate : F
  avgDuration : F
  minDuration : F
  maxDuration : F
  deriving Repr, DecidableEq

structure RunGraphRow where
  timestamp : Int
  runCount : Nat
  deriving Repr, DecidableEq

section

variable [LinearOrder F] [IntCast F] [Mul F] [Div F]

def toSeconds (milliseconds : Option Int) : F := ((milliseconds.getD 0 : Int) : F) / ((1000 : Int) : F)

/-- One row of the `SELECT`, and what the handler makes of it. -/
def performanceOf (g : String × List HourlyStats) : QueuePerformance F :=
  let totalRuns := (g.2.map (·.totalRuns)).sum
  let failures := (g.2.map (·.failedRuns)).sum
  let durationTotalMs := (g.2.map (·.durationTotalMs)).sum
  let durationCount := (g.2.map (·.durationCount)).sum
  { queue := g.1
    totalRuns := totalRuns
    successes := (g.2.map (·.completedRuns)).sum
    failures := failures
    errorRate :=
      if 0 < totalRuns then ((failures : Int) : F) / ((totalRuns : Int) : F) * ((100 : Int) : F) else ((0 : Int) : F)
    avgDuration :=
      if 0 < durationCount then ((durationTotalMs : Int) : F) / ((durationCount : Int) : F) / ((1000 : Int) : F)
      else ((0 : Int) : F)
    minDuration := toSeconds (g.2.filterMap (·.durationMinMs)).min?
    maxDuration := toSeconds (g.2.filterMap (·.durationMaxMs)).max? }

/-- `SUM("total_runs")` of a queue. -/
def runsOf (g : String × List HourlyStats) : Nat := (g.2.map (·.totalRuns)).sum

def getQueuePerformance (orderBy : SortedRows.OrderDesc runsOf) (w : DashboardWindow) (db : Dashboard J) :
    List (QueuePerformance F) :=
  (orderBy.sort (Grouped.groupBy HourlyStats.queue (w.rollups db.stats))).map performanceOf

def getRunGraphRows (w : DashboardWindow) (db : Dashboard J) : List RunGraphRow :=
  ((Grouped.groupBy (fun r : HourlyStats => w.graphInterval.start r.bucketStart) (w.rollups db.stats)).map fun g =>
    { timestamp := g.1, runCount := (g.2.map (·.totalRuns)).sum : RunGraphRow }).insertionSort
      fun a b => a.timestamp ≤ b.timestamp

structure TopQueueCount where
  queue : String
  runCount : Nat
  deriving Repr, DecidableEq

def getTopQueuesCount (queuePerformance : List (QueuePerformance F)) : List TopQueueCount :=
  (queuePerformance.take 20).map fun row => { queue := row.queue, runCount := row.totalRuns }

structure TopQueueDuration (F : Type) where
  queue : String
  totalDuration : F
  deriving Repr, DecidableEq

/-- The queues that have an average duration. -/
def timedQueues (queuePerformance : List (QueuePerformance F)) : List (TopQueueDuration F) :=
  (queuePerformance.map fun row => { queue := row.queue, totalDuration := row.avgDuration : TopQueueDuration F }).filter
    fun row => ((0 : Int) : F) < row.totalDuration

def getTopQueuesDuration (queuePerformance : List (QueuePerformance F)) : List (TopQueueDuration F) :=
  ((timedQueues queuePerformance).insertionSort fun a b => b.totalDuration ≤ a.totalDuration).take 20

/-- The loop goes up from `bucketFrom` in whole steps. -/
def fillRunGraph (rows : List RunGraphRow) (w : DashboardWindow) : List RunGraphRow :=
  let graphMap := JsMap.ofEntries (rows.map fun row => (row.timestamp, row))
  let steps := if w.bucketFrom ≤ w.dateTo then ((w.dateTo - w.bucketFrom) / w.graphInterval.length).toNat + 1 else 0
  (List.range steps).map fun i : Nat =>
    let timestamp := w.graphInterval.start (w.bucketFrom + i * w.graphInterval.length)
    (JsMap.get timestamp graphMap).getD { timestamp := timestamp, runCount := 0 }

structure DashboardSummary (F : Type) where
  enhancedStats : EnhancedStats
  queuePerformance : List (QueuePerformance F)
  topQueuesCount : List TopQueueCount
  topQueuesDuration : List (TopQueueDuration F)
  runGraph : List RunGraphRow
  deriving Repr, DecidableEq

/-- The database as each of the three queries finds it, and how it orders queues with
    equally many runs. -/
structure SummaryReads (J : Type) where
  stats : Dashboard J
  performance : Dashboard J
  orderBy : SortedRows.OrderDesc runsOf
  graph : Dashboard J

def getDashboardSummary (days : Rat) (reading dateTo : Int) (db : SummaryReads J) : DashboardSummary F :=
  let dashboardWindow := getDashboardWindow days reading dateTo
  let queuePerformance := getQueuePerformance db.orderBy dashboardWindow db.performance
  { enhancedStats := getStats dashboardWindow db.stats
    queuePerformance := queuePerformance
    topQueuesCount := getTopQueuesCount queuePerformance
    topQueuesDuration := getTopQueuesDuration queuePerformance
    runGraph := fillRunGraph (getRunGraphRows dashboardWindow db.graph) dashboardWindow }

end

/-! ## The lists add up -/

/-- What the rollups of these queries add up to, and how they are listed. -/
structure AddsUp [LinearOrder F] [IntCast F] (w : DashboardWindow) (summary : DashboardSummary F) : Prop where
  queuesOnce : (summary.queuePerformance.map (·.queue)).Nodup
  busiestFirst : summary.queuePerformance.Pairwise fun a b => b.totalRuns ≤ a.totalRuns
  successes : summary.enhancedStats.successes = (summary.queuePerformance.map (·.successes)).sum
  failures : summary.enhancedStats.failures = (summary.queuePerformance.map (·.failures)).sum
  /-- Every hour or day of the window has its point. -/
  buckets : (summary.runGraph.map (·.timestamp)).Pairwise (· < ·) ∧
    ∀ ts, ts ∈ summary.runGraph.map (·.timestamp) ↔ IsBucket w.graphInterval w.bucketFrom w.dateTo ts
  runs : (summary.runGraph.map (·.runCount)).sum = (summary.queuePerformance.map (·.totalRuns)).sum
  topCount : SortedRows.Top 20 (·.runCount)
    (summary.queuePerformance.map fun row => ⟨row.queue, row.totalRuns⟩) summary.topQueuesCount
  topDuration : SortedRows.Top 20 (·.totalDuration) (timedQueues summary.queuePerformance) summary.topQueuesDuration

section

variable {orderBy : SortedRows.OrderDesc runsOf} {w : DashboardWindow} {db : Dashboard J}

/-- Sums over the groups of a `GROUP BY`. -/
theorem sum_grouped {κ : Type} [DecidableEq κ] (key : HourlyStats → κ) (field : HourlyStats → Nat)
    (rows : List HourlyStats) :
    ((Grouped.groupBy key rows).map fun g => (g.2.map field).sum).sum = (rows.map field).sum := by
  rw [Grouped.groupBy, List.map_map]
  exact Grouped.sum_keys key field (List.nodup_dedup _) fun r hr => List.mem_dedup.mpr (List.mem_map_of_mem hr)

theorem getDashboardWindow_aligned (days : Rat) (reading dateTo : Int) :
    (getDashboardWindow days reading dateTo).graphInterval.start (getDashboardWindow days reading dateTo).bucketFrom =
      (getDashboardWindow days reading dateTo).bucketFrom := by
  unfold getDashboardWindow
  cases Decidable.em (days ≤ 7) with
  | inl short => simp only [short, if_true, ChartStep.start, hourStart_aligned]
  | inr long =>
      simp only [long, if_false]
      exact start_start .day _

section

variable [IntCast F] [Mul F] [Div F]

theorem getQueuePerformance_perm : (getQueuePerformance orderBy w db : List (QueuePerformance F)).Perm
    ((Grouped.groupBy HourlyStats.queue (w.rollups db.stats)).map performanceOf) :=
  (orderBy.perm _).map performanceOf

theorem getQueuePerformance_descending :
    (getQueuePerformance orderBy w db : List (QueuePerformance F)).Pairwise fun a b => b.totalRuns ≤ a.totalRuns :=
  List.pairwise_map.mpr (orderBy.descending _)

/-- A column of the queues adds up to the same column of the rollups. -/
theorem sum_performance {column : QueuePerformance F → Nat} (field : HourlyStats → Nat)
    (summed : ∀ g : String × List HourlyStats, column (performanceOf g) = (g.2.map field).sum) :
    ((getQueuePerformance orderBy w db).map column).sum = ((w.rollups db.stats).map field).sum := by
  rw [(getQueuePerformance_perm.map column).sum_eq, List.map_map, ← sum_grouped HourlyStats.queue]
  exact congrArg List.sum (List.map_congr_left fun g _ => summed g)

theorem mem_getQueuePerformance {row : QueuePerformance F} : row ∈ getQueuePerformance orderBy w db ↔
    (∃ r ∈ w.rollups db.stats, r.queue = row.queue) ∧
      row = performanceOf (row.queue, Grouped.group HourlyStats.queue (w.rollups db.stats) row.queue) := by
  rw [getQueuePerformance_perm.mem_iff, List.mem_map]
  constructor
  · intro h
    obtain ⟨⟨queue, rows⟩, member, rfl⟩ := h
    obtain ⟨rfl, nonempty⟩ := Grouped.mem_groupBy.mp member
    exact ⟨nonempty, rfl⟩
  · intro h
    exact ⟨_, Grouped.mem_groupBy.mpr ⟨rfl, h.1⟩, h.2.symm⟩

theorem listed_iff_rollup {queue : String} :
    queue ∈ (getQueuePerformance orderBy w db : List (QueuePerformance F)).map (·.queue) ↔
      ∃ r ∈ w.rollups db.stats, r.queue = queue := by
  rw [(getQueuePerformance_perm.map _).mem_iff, List.map_map]
  constructor
  · intro listed
    obtain ⟨⟨queue, rows⟩, member, rfl⟩ := List.mem_map.mp listed
    exact (Grouped.mem_groupBy.mp member).2
  · intro rollup
    exact List.mem_map.mpr ⟨_, Grouped.mem_groupBy.mpr ⟨rfl, rollup⟩, rfl⟩

theorem queues_nodup : ((getQueuePerformance orderBy w db : List (QueuePerformance F)).map (·.queue)).Nodup := by
  rw [(getQueuePerformance_perm.map _).nodup_iff, List.map_map]
  exact Grouped.keys_groupBy HourlyStats.queue (w.rollups db.stats)

end

/-- The runs that the rollups of the window count at a time. -/
def pointRuns (w : DashboardWindow) (stats : HourlyStatsTable) (ts : Int) : Nat :=
  ((Grouped.group (fun r : HourlyStats => w.graphInterval.start r.bucketStart) (w.rollups stats) ts).map
    (·.totalRuns)).sum

theorem mem_getRunGraphRows {row : RunGraphRow} : row ∈ getRunGraphRows w db ↔
    (∃ r ∈ w.rollups db.stats, w.graphInterval.start r.bucketStart = row.timestamp) ∧
      row.runCount = pointRuns w db.stats row.timestamp := by
  rw [getRunGraphRows, List.mem_insertionSort, List.mem_map]
  constructor
  · intro h
    obtain ⟨⟨ts, rows⟩, member, rfl⟩ := h
    obtain ⟨rfl, nonempty⟩ := Grouped.mem_groupBy.mp member
    exact ⟨nonempty, rfl⟩
  · intro h
    exact ⟨(row.timestamp, _), Grouped.mem_groupBy.mpr ⟨rfl, h.1⟩, by cases row; exact congrArg _ h.2.symm⟩

/-- A point of the graph, whether the query has a row for it or not. -/
theorem point_eq (w : DashboardWindow) (db : Dashboard J) (ts : Int) :
    (JsMap.get ts (JsMap.ofEntries ((getRunGraphRows w db).map fun row => (row.timestamp, row)))).getD ⟨ts, 0⟩ =
      ⟨ts, pointRuns w db.stats ts⟩ := by
  cases found : JsMap.get ts (JsMap.ofEntries ((getRunGraphRows w db).map fun row => (row.timestamp, row))) with
  | some row =>
      obtain ⟨row', member, same⟩ := List.mem_map.mp (JsMap.mem_of_get found)
      obtain ⟨rfl, rfl⟩ := Prod.mk.inj same
      rw [Option.getD_some, ← (mem_getRunGraphRows.mp member).2]
  | none =>
      have absent : ∀ r ∈ w.rollups db.stats, w.graphInterval.start r.bucketStart ≠ ts := by
        intro r hr same
        have member : (⟨ts, pointRuns w db.stats ts⟩ : RunGraphRow) ∈ getRunGraphRows w db :=
          mem_getRunGraphRows.mpr ⟨⟨r, hr, same⟩, rfl⟩
        obtain ⟨v, present⟩ := JsMap.get_isSome (List.mem_map_of_mem (f := fun row => (row.timestamp, row)) member)
        rw [found] at present
        cases present
      rw [Option.getD_none, pointRuns, Grouped.group_eq_nil.mpr absent]
      rfl

/-- The times of the loop. -/
def DashboardWindow.times (w : DashboardWindow) : List Int :=
  if w.bucketFrom ≤ w.dateTo then filledTimes w.graphInterval w.bucketFrom w.dateTo else []

theorem fillRunGraph_eq (w : DashboardWindow) (db : Dashboard J) :
    fillRunGraph (getRunGraphRows w db) w = w.times.map fun ts => ⟨ts, pointRuns w db.stats ts⟩ := by
  unfold fillRunGraph DashboardWindow.times
  split
  · simp only [filledTimes, List.map_map]
    apply List.map_congr_left
    intro i _
    rw [point_eq, Function.comp_apply, start_add]
  · rfl

theorem times_inOrder (w : DashboardWindow) : w.times.Pairwise (· < ·) := by
  unfold DashboardWindow.times
  split
  · exact filledTimes_inOrder
  · exact .nil

/-- They are the buckets of the window, since it begins with one. -/
theorem mem_times (aligned : w.graphInterval.start w.bucketFrom = w.bucketFrom) {ts : Int} :
    ts ∈ w.times ↔ IsBucket w.graphInterval w.bucketFrom w.dateTo ts := by
  unfold DashboardWindow.times IsBucket
  split
  · rename_i ordered
    have last : w.graphInterval.start w.bucketFrom +
        (w.dateTo - w.bucketFrom) / w.graphInterval.length * w.graphInterval.length =
          w.graphInterval.start w.dateTo := by
      cases interval : w.graphInterval with
      | hour =>
          simp only [interval, ChartStep.start, ChartStep.length, hourStart, hour] at aligned ⊢
          omega
      | day =>
          simp only [interval, ChartStep.start, ChartStep.length, dayStart, day] at aligned ⊢
          omega
    rw [mem_filledTimes ordered, last]
  · rename_i empty
    have early := start_le w.graphInterval (Int.le_refl w.dateTo)
    unfold hourStart hour at early
    rw [aligned]
    simp only [List.not_mem_nil, false_iff]
    omega

theorem sum_points_runs (aligned : w.graphInterval.start w.bucketFrom = w.bucketFrom) (stats : HourlyStatsTable) :
    (w.times.map (pointRuns w stats)).sum = ((w.rollups stats).map (·.totalRuns)).sum := by
  have covers : ∀ r ∈ w.rollups stats, w.graphInterval.start r.bucketStart ∈ w.times := by
    intro r hr
    obtain ⟨-, window⟩ := List.mem_filter.mp hr
    simp only [decide_eq_true_eq] at window
    exact (mem_times aligned).mpr ⟨start_start _ _, start_mono _ window.1, start_mono _ window.2⟩
  exact Grouped.sum_keys _ _ ((times_inOrder w).imp Int.ne_of_lt) covers

end

/-- The summary adds up, whatever the rollups are, unless a refresh commits between
    its queries. -/
theorem summary_adds_up [LinearOrder F] [IntCast F] [Mul F] [Div F] {days : Rat} {reading dateTo : Int}
    {db : SummaryReads J}
    (same : db.performance.stats = db.stats.stats ∧ db.graph.stats = db.stats.stats) :
    AddsUp (getDashboardWindow days reading dateTo)
      (getDashboardSummary days reading dateTo db : DashboardSummary F) := by
  have aligned := getDashboardWindow_aligned days reading dateTo
  unfold getDashboardSummary
  generalize getDashboardWindow days reading dateTo = w at aligned
  dsimp only
  have graph := fillRunGraph_eq w db.graph
  have times : (fillRunGraph (getRunGraphRows w db.graph) w).map (·.timestamp) = w.times := by
    rw [graph, List.map_map]
    exact List.map_id _
  constructor
  · exact queues_nodup
  · exact getQueuePerformance_descending
  · rw [sum_performance (·.completedRuns) fun _ => rfl, same.1]
    rfl
  · rw [sum_performance (·.failedRuns) fun _ => rfl, same.1]
    rfl
  · simp only [times]
    exact ⟨times_inOrder w, fun ts => mem_times aligned⟩
  · have counts := sum_points_runs aligned db.graph.stats
    rw [sum_performance (·.totalRuns) fun _ => rfl, graph, List.map_map, same.1, ← same.2]
    exact counts
  · have sorted : ((getQueuePerformance db.orderBy w db.performance : List (QueuePerformance F)).map fun row =>
        TopQueueCount.mk row.queue row.totalRuns).Pairwise fun a b => b.runCount ≤ a.runCount :=
      List.pairwise_map.mpr getQueuePerformance_descending
    rw [getTopQueuesCount, List.map_take]
    exact SortedRows.top_take sorted (List.Perm.refl _) 20
  · exact SortedRows.top_take (SortedRows.pairwise_descending TopQueueDuration.totalDuration _)
      (List.perm_insertionSort _ _) 20

/-! ## The summary tells what the runs say -/

/-- The runs that the window's past hours have seen created. -/
def DashboardWindow.pastRuns (w : DashboardWindow) (runs : List (JobRun J)) : List (JobRun J) :=
  runs.filter fun r => w.bucketFrom ≤ r.createdAt ∧ r.createdAt < hourStart w.dateTo

/-- The summary says of the runs of the past hours what `job_runs` says. -/
structure Tells (w : DashboardWindow) (runs : List (JobRun J)) (summary : DashboardSummary F) : Prop where
  successes : summary.enhancedStats.successes = (w.pastRuns runs).countP fun r => r.status = .completed
  failures : summary.enhancedStats.failures = (w.pastRuns runs).countP fun r => r.status = .failed
  queues : ∀ queue, queue ∈ summary.queuePerformance.map (·.queue) ↔ ∃ r ∈ w.pastRuns runs, r.queue = queue
  performance : ∀ row ∈ summary.queuePerformance,
    row.totalRuns = ((w.pastRuns runs).countP fun r => r.queue = row.queue) ∧
    row.successes = ((w.pastRuns runs).countP fun r => r.queue = row.queue ∧ r.status = .completed) ∧
    row.failures = (w.pastRuns runs).countP fun r => r.queue = row.queue ∧ r.status = .failed
  graph : ∀ point ∈ summary.runGraph,
    point.runCount = (w.pastRuns runs).countP fun r => w.graphInterval.start r.createdAt = point.timestamp

section

variable {w : DashboardWindow} {stats : HourlyStatsTable} {runs : List (JobRun J)} {field : HourlyStats → Nat}
  {weight : JobRun J → Nat}

/-- Where the hours agree on a column, the rollups of these hours and queues add up to
    their runs. -/
theorem rollups_sum (hours : ∀ r ∈ stats.rows, hourStart r.bucketStart = r.bucketStart)
    (past : ∀ r ∈ stats.rows, r.bucketStart < hourStart w.dateTo) (fromHour : hourStart w.bucketFrom = w.bucketFrom)
    (agree : ∀ h, hourStart h = h → w.bucketFrom ≤ h → h < hourStart w.dateTo → ∀ queue,
      countOf field (stored stats (h, queue)) = ((Grouped.group JobRun.bucket runs (h, queue)).map weight).sum)
    (P : Int × String → Prop) [DecidablePred P] :
    (((w.rollups stats).filter fun r => P (r.bucketStart, r.queue)).map field).sum =
      (((w.pastRuns runs).filter fun r => P r.bucket).map weight).sum := by
  refine @Grouped.sum_eq_of_groups _ _ _ _ (fun r : HourlyStats => (r.bucketStart, r.queue)) JobRun.bucket _ _ _ _
    fun k => ?_
  have ofStats : Grouped.group (fun r : HourlyStats => (r.bucketStart, r.queue))
      ((w.rollups stats).filter fun r => P (r.bucketStart, r.queue)) k =
        if P k ∧ hourStart k.1 = k.1 ∧ w.bucketFrom ≤ k.1 ∧ k.1 < hourStart w.dateTo then (stored stats k).toList
        else [] := by
    simp only [Grouped.group, DashboardWindow.rollups, List.filter_filter]
    rw [stored, ← stats.unique.filter_key]
    apply filter_of_hour
    intro r hr
    have early := past r hr
    have last : hourStart w.dateTo ≤ w.dateTo := by
      unfold hourStart hour
      omega
    simp only [Bool.and_eq_true, decide_eq_true_eq, HourlyStats.target, Option.some.injEq]
    constructor
    · intro all
      obtain ⟨rfl, chosen, after, -⟩ := all
      exact ⟨⟨chosen, hours r hr, after, early⟩, rfl⟩
    · intro all
      obtain ⟨⟨chosen, -, after, -⟩, rfl⟩ := all
      exact ⟨rfl, chosen, after, by omega⟩
  have ofRuns : Grouped.group JobRun.bucket ((w.pastRuns runs).filter fun r => P r.bucket) k =
      if P k ∧ hourStart k.1 = k.1 ∧ w.bucketFrom ≤ k.1 ∧ k.1 < hourStart w.dateTo then
        Grouped.group JobRun.bucket runs k else [] := by
    simp only [Grouped.group, DashboardWindow.pastRuns, List.filter_filter]
    apply filter_of_hour
    intro r _
    simp only [Bool.and_eq_true, decide_eq_true_eq]
    have fromBucket := le_hourStart (t := r.createdAt) fromHour
    have toBucket := hourStart_lt (t := r.createdAt) (hourStart_aligned w.dateTo)
    constructor
    · intro all
      obtain ⟨rfl, chosen, after, before⟩ := all
      exact ⟨⟨chosen, hourStart_aligned _, fromBucket.mpr after, toBucket.mpr before⟩, rfl⟩
    · intro all
      obtain ⟨⟨chosen, -, after, before⟩, rfl⟩ := all
      exact ⟨rfl, chosen, fromBucket.mp after, toBucket.mp before⟩
  rw [ofStats, ofRuns]
  split
  · rename_i inside
    rw [← agree k.1 inside.2.1 inside.2.2.1 inside.2.2.2 k.2, countOf]
    cases stored stats k <;> simp
  · rfl

end

/-- An hour's counts, from its runs. -/
theorem countsOf_runs (runs : JobRunsTable J) (h : Int) (queue : String) :
    Dashboard.countsOf (aggregate runs.rows (h, queue)) =
      { total := (Grouped.group JobRun.bucket runs.rows (h, queue)).length
        completed := (Grouped.group JobRun.bucket runs.rows (h, queue)).countP fun r => r.status = .completed
        failed := (Grouped.group JobRun.bucket runs.rows (h, queue)).countP fun r => r.status = .failed
        active := (Grouped.group JobRun.bucket runs.rows (h, queue)).countP fun r => r.status = .active
        waiting := (Grouped.group JobRun.bucket runs.rows (h, queue)).countP fun r => r.status = .waiting } := by
  simp only [Dashboard.countsOf_aggregate, Dashboard.countP_bucket, Dashboard.length_bucket]

/-- The past hours of the window are refreshed and undisturbed since, and the clock of
    no refresh is ahead. -/
structure UpToDate (w : DashboardWindow) (ts : List (Machine.Transition (Dashboard J) (DashboardAction J))) : Prop where
  refreshed : ∀ h, hourStart h = h → w.bucketFrom ≤ h → h < hourStart w.dateTo →
    ∃ x after, Dashboard.LastRefresh h ts x after ∧ Dashboard.Undisturbed h after
  clock : ∀ y ∈ ts, ∀ now deleteBefore, y.act = .refresh now deleteBefore → now ≤ w.dateTo

section

variable [DecidableEq J] {w : DashboardWindow} {s t : Dashboard J}
  {ts : List (Machine.Transition (Dashboard J) (DashboardAction J))}

theorem step_past {a : DashboardAction J} (clock : ∀ now deleteBefore, a = .refresh now deleteBefore → now ≤ w.dateTo)
    (past : ∀ r ∈ s.stats.rows, r.bucketStart < hourStart w.dateTo) (enabled : s.step a = some t) :
    ∀ r ∈ t.stats.rows, r.bucketStart < hourStart w.dateTo := by
  cases a with
  | upsert ctx runs =>
      obtain rfl := Option.some.inj enabled
      exact past
  | refresh now deleteBefore =>
      obtain rfl := Option.some.inj enabled
      have early := clock now deleteBefore rfl
      intro r hr
      obtain ⟨-, member⟩ := mem_refreshRollups.mp hr
      split at member
      · rename_i last
        rw [last, lastCompletedHour]
        unfold hourStart hour
        omega
      · exact past r member

theorem run_past (run : Machine.Run Dashboard.step s ts t)
    (clock : ∀ y ∈ ts, ∀ now deleteBefore, y.act = .refresh now deleteBefore → now ≤ w.dateTo)
    (past : ∀ r ∈ s.stats.rows, r.bucketStart < hourStart w.dateTo) :
    ∀ r ∈ t.stats.rows, r.bucketStart < hourStart w.dateTo := by
  induction run with
  | done => exact past
  | next enabled _ ih =>
      simp only [List.forall_mem_cons] at clock
      exact ih clock.2 (step_past clock.1 past enabled)

theorem run_hours (run : Machine.Run Dashboard.step s ts t)
    (hours : ∀ r ∈ s.stats.rows, hourStart r.bucketStart = r.bucketStart) :
    ∀ r ∈ t.stats.rows, hourStart r.bucketStart = r.bucketStart := by
  induction run with
  | done => exact hours
  | next enabled _ ih => exact ih (Dashboard.step_hours hours enabled)

/-- Every rollup of an hour that was refreshed counts a run. -/
theorem Dashboard.LastRefresh.totalRuns_pos {h : Int} {x : Machine.Transition (Dashboard J) (DashboardAction J)}
    {after : List (Machine.Transition (Dashboard J) (DashboardAction J))} (last : LastRefresh h ts x after)
    (run : Machine.Run step s ts t) {r : HourlyStats} (member : r ∈ t.stats.rows) (inHour : r.bucketStart = h) :
    0 < r.totalRuns := by
  have read := (stored_eq_some.mpr ⟨member, rfl⟩).symm.trans (inHour ▸ last.stored_eq run r.queue)
  obtain ⟨same, counted, hrun, bucket⟩ := aggregate_eq_some.mp read.symm
  rw [same]
  exact List.length_pos_of_mem (List.mem_filter.mpr ⟨hrun, by simpa using bucket⟩)

/-- Any column that an hour's counts give, over the window. -/
theorem UpToDate.sum (upToDate : UpToDate w ts) {table : JobRunsTable J}
    (run : Machine.Run Dashboard.step { runs := table } ts t) (fromHour : hourStart w.bucketFrom = w.bucketFrom)
    {field : HourlyStats → Nat} {weight : JobRun J → Nat} (count : Dashboard.Counts → Nat)
    (ofStats : ∀ row, countOf field row = count (Dashboard.countsOf row))
    (ofRuns : ∀ h queue, count (Dashboard.countsOf (aggregate t.runs.rows (h, queue))) =
      ((Grouped.group JobRun.bucket t.runs.rows (h, queue)).map weight).sum)
    (P : Int × String → Prop) [DecidablePred P] :
    (((w.rollups t.stats).filter fun r => P (r.bucketStart, r.queue)).map field).sum =
      (((w.pastRuns t.runs.rows).filter fun r => P r.bucket).map weight).sum := by
  have hours := run_hours run (by simp [HourlyStatsTable.empty])
  have past := run_past run upToDate.clock (by simp [HourlyStatsTable.empty])
  refine rollups_sum hours past fromHour (fun h aligned after before queue => ?_) P
  obtain ⟨x, rest, last, undisturbed⟩ := upToDate.refreshed h aligned after before
  rw [ofStats, last.counts_eq run undisturbed queue, ofRuns]

theorem UpToDate.total (upToDate : UpToDate w ts) {table : JobRunsTable J}
    (run : Machine.Run Dashboard.step { runs := table } ts t) (fromHour : hourStart w.bucketFrom = w.bucketFrom)
    (P : Int × String → Prop) [DecidablePred P] :
    (((w.rollups t.stats).filter fun r => P (r.bucketStart, r.queue)).map (·.totalRuns)).sum =
      (w.pastRuns t.runs.rows).countP fun r => P r.bucket := by
  have ones : ∀ rows : List (JobRun J), rows.length = (rows.map fun _ => 1).sum := fun rows => by simp
  have each : ∀ h queue, (Dashboard.countsOf (aggregate t.runs.rows (h, queue))).total =
      ((Grouped.group JobRun.bucket t.runs.rows (h, queue)).map fun _ => 1).sum := by
    intro h queue
    rw [countsOf_runs, ← ones]
  rw [upToDate.sum run fromHour (·.total) (fun _ => rfl) each P, ← ones, List.countP_eq_length_filter]

theorem UpToDate.ofStatus (upToDate : UpToDate w ts) {table : JobRunsTable J}
    (run : Machine.Run Dashboard.step { runs := table } ts t) (fromHour : hourStart w.bucketFrom = w.bucketFrom)
    {field : HourlyStats → Nat} {status : JobStatus} (count : Dashboard.Counts → Nat)
    (ofStats : ∀ row, countOf field row = count (Dashboard.countsOf row))
    (counts : ∀ h queue, count (Dashboard.countsOf (aggregate t.runs.rows (h, queue))) =
      (Grouped.group JobRun.bucket t.runs.rows (h, queue)).countP fun r => r.status = status)
    (P : Int × String → Prop) [DecidablePred P] :
    (((w.rollups t.stats).filter fun r => P (r.bucketStart, r.queue)).map field).sum =
      (w.pastRuns t.runs.rows).countP fun r => P r.bucket ∧ r.status = status := by
  rw [upToDate.sum run fromHour count ofStats (fun h queue => (counts h queue).trans (countP_eq_sum _ _)) P,
    ← countP_eq_sum fun r : JobRun J => r.status = status, List.countP_filter]
  apply List.countP_congr
  intro r _
  simp [and_comm]

/-- The queues of the rollups are the queues of the runs. -/
theorem UpToDate.rollup_iff (upToDate : UpToDate w ts) {table : JobRunsTable J}
    (run : Machine.Run Dashboard.step { runs := table } ts t) (fromHour : hourStart w.bucketFrom = w.bucketFrom)
    (queue : String) : (∃ r ∈ w.rollups t.stats, r.queue = queue) ↔ ∃ r ∈ w.pastRuns t.runs.rows, r.queue = queue := by
  have past := run_past run upToDate.clock (by simp [HourlyStatsTable.empty])
  have hours := run_hours run (by simp [HourlyStatsTable.empty])
  have counted := upToDate.total run fromHour fun k => k.2 = queue
  constructor
  · intro rollup
    obtain ⟨r, hr, name⟩ := rollup
    obtain ⟨inTable, window⟩ := List.mem_filter.mp hr
    simp only [decide_eq_true_eq] at window
    obtain ⟨x, after, last, -⟩ := upToDate.refreshed r.bucketStart (hours r inTable) window.1 (past r inTable)
    have positive : 0 < (((w.rollups t.stats).filter fun r => r.queue = queue).map (·.totalRuns)).sum :=
      List.sum_pos_iff_exists_pos_nat.mpr ⟨_, List.mem_map_of_mem (List.mem_filter.mpr ⟨hr, decide_eq_true name⟩),
        last.totalRuns_pos run inTable rfl⟩
    rw [counted] at positive
    obtain ⟨created, hcreated, same⟩ := List.countP_pos_iff.mp positive
    exact ⟨created, hcreated, of_decide_eq_true same⟩
  · intro created
    obtain ⟨created, hcreated, name⟩ := created
    have positive : 0 < (w.pastRuns t.runs.rows).countP fun r => r.bucket.2 = queue :=
      List.countP_pos_iff.mpr ⟨created, hcreated, decide_eq_true name⟩
    rw [← counted] at positive
    obtain ⟨_, summand, -⟩ := List.sum_pos_iff_exists_pos_nat.mp positive
    obtain ⟨r, hr, -⟩ := List.mem_map.mp summand
    obtain ⟨hr, same⟩ := List.mem_filter.mp hr
    exact ⟨r, hr, of_decide_eq_true same⟩

end

/-- In every history of upserts and refreshes, the summary tells what `job_runs` says
    of the past hours, as long as these are up to date. -/
theorem summary_tells [DecidableEq J] [LinearOrder F] [IntCast F] [Mul F] [Div F] {days : Rat} {reading dateTo : Int}
    (db : SummaryReads J) {table : JobRunsTable J}
    {ts : List (Machine.Transition (Dashboard J) (DashboardAction J))}
    (run : Machine.Run Dashboard.step { runs := table } ts db.stats)
    (same : db.performance.stats = db.stats.stats ∧ db.graph.stats = db.stats.stats)
    (upToDate : UpToDate (getDashboardWindow days reading dateTo) ts) :
    Tells (getDashboardWindow days reading dateTo) db.stats.runs.rows
      (getDashboardSummary days reading dateTo db : DashboardSummary F) := by
  have aligned := getDashboardWindow_aligned days reading dateTo
  unfold getDashboardSummary
  generalize getDashboardWindow days reading dateTo = w at aligned upToDate
  dsimp only
  have fromHour : hourStart w.bucketFrom = w.bucketFrom := by
    rw [← aligned]
    exact start_aligned w.graphInterval w.bucketFrom
  have completed : ∀ (P : Int × String → Prop) [DecidablePred P],
      (((w.rollups db.stats.stats).filter fun r => P (r.bucketStart, r.queue)).map (·.completedRuns)).sum =
        (w.pastRuns db.stats.runs.rows).countP fun r => P r.bucket ∧ r.status = .completed := fun P _ =>
    upToDate.ofStatus run fromHour (·.completed) (fun _ => rfl) (fun h queue => by rw [countsOf_runs]) P
  have failed : ∀ (P : Int × String → Prop) [DecidablePred P],
      (((w.rollups db.stats.stats).filter fun r => P (r.bucketStart, r.queue)).map (·.failedRuns)).sum =
        (w.pastRuns db.stats.runs.rows).countP fun r => P r.bucket ∧ r.status = .failed := fun P _ =>
    upToDate.ofStatus run fromHour (·.failed) (fun _ => rfl) (fun h queue => by rw [countsOf_runs]) P
  constructor
  · have all := completed fun _ => True
    simp only [decide_true, List.filter_true, true_and] at all
    exact all
  · have all := failed fun _ => True
    simp only [decide_true, List.filter_true, true_and] at all
    exact all
  · intro queue
    rw [listed_iff_rollup, same.1]
    exact upToDate.rollup_iff run fromHour queue
  · intro row member
    have made := (mem_getQueuePerformance.mp member).2
    rw [same.1] at made
    rw [made]
    exact ⟨upToDate.total run fromHour fun k => k.2 = row.queue, completed fun k => k.2 = row.queue,
      failed fun k => k.2 = row.queue⟩
  · intro point member
    rw [fillRunGraph_eq] at member
    obtain ⟨ts', -, rfl⟩ := List.mem_map.mp member
    have counted := upToDate.total run fromHour fun k => w.graphInterval.start k.1 = ts'
    simp only [JobRun.bucket, start_hourStart] at counted
    rw [pointRuns, same.2]
    exact counted

/-! ## A day of refreshes -/

section

variable {s t : Dashboard J} {ts : List (Machine.Transition (Dashboard J) (DashboardAction J))} {n : Nat}

/-- A refresh as each of the hours begins. -/
def hourlyRefreshes (n : Nat) : List (DashboardAction J) :=
  (List.range n).map fun k : Nat => .refresh (k * hour) (-hour)

theorem act_hourly (acts : ts.map (·.act) = hourlyRefreshes n) {k : Nat}
    {y : Machine.Transition (Dashboard J) (DashboardAction J)} (taken : ts[k]? = some y) :
    y.act = .refresh (k * hour) (-hour) := by
  have read := congrArg (·[k]?) acts
  simp only [hourlyRefreshes, List.getElem?_map, taken, Option.map_some] at read
  obtain ⟨k', found, act⟩ := Option.map_eq_some_iff.mp read.symm
  obtain ⟨inside, same⟩ := List.getElem?_eq_some_iff.mp found
  rw [List.getElem_range] at same
  rw [← act, same]

theorem lastRefresh_hourly (acts : ts.map (·.act) = hourlyRefreshes n) {k : Nat}
    {x : Machine.Transition (Dashboard J) (DashboardAction J)} (taken : ts[k]? = some x) {h : Int}
    (refreshedHour : h = k * hour - hour) : Dashboard.LastRefresh h ts x (ts.drop (k + 1)) where
  split := by
    obtain ⟨inside, rfl⟩ := List.getElem?_eq_some_iff.mp taken
    exact ⟨ts.take k, by rw [List.getElem_cons_drop, List.take_append_drop]⟩
  refreshed := by
    refine ⟨_, _, act_hourly acts taken, ?_, ?_⟩
    · rw [refreshedHour, lastCompletedHour]
      unfold hourStart hour
      omega
    · rw [refreshedHour]
      unfold hour
      omega
  later := by
    intro y hy now deleteBefore act
    obtain ⟨i, at_y⟩ := List.mem_iff_getElem?.mp hy
    rw [List.getElem?_drop] at at_y
    obtain ⟨rfl, rfl⟩ := DashboardAction.refresh.inj ((act_hourly acts at_y).symm.trans act)
    rw [refreshedHour, lastCompletedHour]
    unfold hourStart hour
    omega

variable [DecidableEq J]

theorem undisturbed_refreshes (run : Machine.Run Dashboard.step s ts t)
    (refreshes : ∀ y ∈ ts, ∃ now deleteBefore, y.act = .refresh now deleteBefore) (h : Int) :
    Dashboard.Undisturbed h ts := by
  induction run with
  | done => simp [Dashboard.Undisturbed]
  | next enabled _ ih =>
      simp only [List.forall_mem_cons] at refreshes
      obtain ⟨now, deleteBefore, rfl⟩ := refreshes.1
      obtain rfl := Option.some.inj enabled
      simp only [Dashboard.Undisturbed, List.forall_mem_cons]
      exact ⟨List.Perm.refl _, ih refreshes.2⟩

theorem upToDate_hourly (run : Machine.Run Dashboard.step s ts t) (acts : ts.map (·.act) = hourlyRefreshes n)
    {w : DashboardWindow} (first : w.bucketFrom = -hour) (last : w.dateTo / hour + 1 = n) : UpToDate w ts where
  refreshed := by
    intro h aligned after before
    have length : ts.length = n := by
      have lengths := congrArg List.length acts
      simpa [hourlyRefreshes] using lengths
    have inside : (h / hour + 1).toNat < ts.length := by
      rw [first] at after
      unfold hourStart hour at *
      omega
    have refreshedHour : h = ((h / hour + 1).toNat : Int) * hour - hour := by
      rw [first] at after
      unfold hourStart hour at *
      omega
    refine ⟨_, _, lastRefresh_hourly acts (List.getElem?_eq_getElem inside) refreshedHour, ?_⟩
    rw [← List.take_append_drop ((h / hour + 1).toNat + 1) ts] at run
    obtain ⟨us, -, rest⟩ := run.split
    refine undisturbed_refreshes rest (fun y hy => ?_) h
    obtain ⟨i, taken⟩ := List.mem_iff_getElem?.mp (List.mem_of_mem_drop hy)
    exact ⟨_, _, act_hourly acts taken⟩
  clock := by
    intro y hy now deleteBefore act
    obtain ⟨i, taken⟩ := List.mem_iff_getElem?.mp hy
    obtain ⟨rfl, -⟩ := DashboardAction.refresh.inj ((act_hourly acts taken).symm.trans act)
    obtain ⟨inside, -⟩ := List.getElem?_eq_some_iff.mp taken
    have lengths := congrArg List.length acts
    simp only [List.length_map, hourlyRefreshes, List.length_range] at lengths
    unfold hour at *
    omega

end

/-- Every query reads from this state. -/
def readsOf (s : Dashboard Unit) : SummaryReads Unit where
  stats := s
  performance := s
  orderBy := .stable runsOf
  graph := s

/-- The queues and totals of its summary. -/
def dayTotals (s : Dashboard Unit) : List (String × Nat) :=
  (getDashboardSummary 1 82800005 82800005 (readsOf s) : DashboardSummary Rat).queuePerformance.map fun row =>
    (row.queue, row.totalRuns)

/-- A completed and a failed run of one queue, created in different hours, and one of
    another queue that still runs. -/
def busyDay : JobRunsTable Unit :=
  (upsertJobRuns {} [mailRun .completed (some 2000),
    { mailRun .failed (some 4000000) with jobId := "2", enqueuedAt := .value 3700000, createdAt := some 3700000 },
    { mailRun .active none with
      queue := "invoices", enqueuedAt := .value 3800000, createdAt := some 3800000 }] .empty).1

theorem hourly_performed : ((Machine.perform Dashboard.step { runs := busyDay } (hourlyRefreshes 24)).map fun r =>
    dayTotals r.2) = some [("mail", 2), ("invoices", 1)] := by
  decide +kernel

theorem summary_adds_up_hourly : ∃ s : Dashboard Unit, dayTotals s = [("mail", 2), ("invoices", 1)] ∧
    AddsUp (getDashboardWindow 1 82800005 82800005)
      (getDashboardSummary 1 82800005 82800005 (readsOf s) : DashboardSummary Rat) := by
  obtain ⟨⟨ts, s⟩, -, totals⟩ := Option.map_eq_some_iff.mp hourly_performed
  exact ⟨s, totals, summary_adds_up ⟨rfl, rfl⟩⟩

theorem summary_tells_hourly : ∃ s : Dashboard Unit, dayTotals s = [("mail", 2), ("invoices", 1)] ∧
    Tells (getDashboardWindow 1 82800005 82800005) s.runs.rows
      (getDashboardSummary 1 82800005 82800005 (readsOf s) : DashboardSummary Rat) := by
  obtain ⟨⟨ts, s⟩, performed, totals⟩ := Option.map_eq_some_iff.mp hourly_performed
  have run := Machine.perform_run performed
  have upToDate := upToDate_hourly run (Machine.perform_acts performed)
    (w := getDashboardWindow 1 82800005 82800005) (by decide +kernel) (by decide)
  exact ⟨s, totals, summary_tells (readsOf s) run ⟨rfl, rfl⟩ upToDate⟩

end BetterBullBoard
