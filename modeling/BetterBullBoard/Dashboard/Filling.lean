import BetterBullBoard.Dashboard.Chart

/-! # The buckets of a filled chart

The loop goes from `dateFrom`, wherever in its bucket that lies, up to `dateTo`
in whole steps. The two come from two readings of the clock, a number of whole
days apart but for the time between the readings.
-/

namespace BetterBullBoard

/-- The interval of a time period in days. -/
def chartInterval (timePeriodDays : Nat) : ChartStep := if timePeriodDays ≤ 7 then .hour else .day

/-- `dateFrom`, from the first reading of the clock. -/
def periodStart (timePeriodDays : Nat) (reading : Int) : Int := reading - timePeriodDays * day

/-- The start of a bucket of the range. -/
def IsBucket (interval : ChartStep) (dateFrom dateTo ts : Int) : Prop :=
  interval.start ts = ts ∧ interval.start dateFrom ≤ ts ∧ ts ≤ interval.start dateTo

instance (interval : ChartStep) (dateFrom dateTo ts : Int) : Decidable (IsBucket interval dateFrom dateTo ts) :=
  inferInstanceAs (Decidable (_ ∧ _))

/-- The total of a column over the rows of one queue. -/
def queueTotal (column : ChartDataRow → Nat) (queueName : String) (rows : List ChartDataRow) : Nat :=
  ((rows.filter fun r => r.queueName = queueName).map column).sum

/-- The chart lists every bucket of the range once, in order, and adds up to its
    rows. -/
structure Complete (interval : ChartStep) (dateFrom dateTo : Int) (queueName : String) (rows : List ChartDataRow)
    (chart : List (Int × (Nat × Nat))) : Prop where
  inOrder : (chart.map Prod.fst).Pairwise (· < ·)
  buckets : ∀ ts, ts ∈ chart.map Prod.fst ↔ IsBucket interval dateFrom dateTo ts
  completed : (chart.map fun point => point.2.1).sum = queueTotal (·.completed) queueName rows
  failed : (chart.map fun point => point.2.2).sum = queueTotal (·.failed) queueName rows

section

variable {interval : ChartStep} {dateFrom dateTo : Int} {queueName : String} {rows : List ChartDataRow}

theorem start_add (interval : ChartStep) (t : Int) (i : Nat) :
    interval.start (t + i * interval.length) = interval.start t + i * interval.length := by
  cases interval with
  | hour =>
      simp only [ChartStep.start, ChartStep.length, hourStart, hour]
      omega
  | day =>
      simp only [ChartStep.start, ChartStep.length, dayStart, day]
      omega

theorem start_start (interval : ChartStep) (t : Int) : interval.start (interval.start t) = interval.start t := by
  cases interval with
  | hour => exact hourStart_aligned t
  | day =>
      simp only [ChartStep.start, dayStart, day]
      omega

theorem start_mono (interval : ChartStep) {t t' : Int} (h : t ≤ t') : interval.start t ≤ interval.start t' := by
  cases interval with
  | hour =>
      simp only [ChartStep.start, hourStart, hour]
      omega
  | day =>
      simp only [ChartStep.start, dayStart, day]
      omega

/-- The times of the loop. -/
def filledTimes (interval : ChartStep) (dateFrom dateTo : Int) : List Int :=
  (List.range (((dateTo - dateFrom) / interval.length).toNat + 1)).map fun i : Nat =>
    interval.start dateFrom + i * interval.length

/-- A filled chart shows the sums of its rows at these times. -/
theorem chartOf_eq (ordered : dateFrom ≤ dateTo) : chartOf dateFrom dateTo interval queueName rows =
    (filledTimes interval dateFrom dateTo).map fun ts =>
      (ts, pointSum (·.completed) rows (queueName, ts), pointSum (·.failed) rows (queueName, ts)) := by
  simp only [chartOf, fillChartData, if_pos ordered, filledTimes, bind_pure_comp, List.map_eq_map, List.map_map]
  apply List.map_congr_left
  intro i _
  simp only [Function.comp_apply, fillPoint_eq, start_add]

theorem length_pos (interval : ChartStep) : 0 < interval.length := by
  cases interval <;> decide

theorem filledTimes_inOrder : (filledTimes interval dateFrom dateTo).Pairwise (· < ·) := by
  apply List.pairwise_map.mpr
  apply List.pairwise_lt_range.imp
  intro i j less
  have step := Int.mul_lt_mul_of_pos_right (Int.ofNat_lt.mpr less) (length_pos interval)
  omega

theorem mem_filledTimes (ordered : dateFrom ≤ dateTo) {ts : Int} :
    ts ∈ filledTimes interval dateFrom dateTo ↔ interval.start ts = ts ∧ interval.start dateFrom ≤ ts ∧
      ts ≤ interval.start dateFrom + (dateTo - dateFrom) / interval.length * interval.length := by
  simp only [filledTimes, List.mem_map, List.mem_range]
  constructor
  · rintro ⟨i, early, rfl⟩
    cases interval with
    | hour =>
        simp only [ChartStep.start, ChartStep.length, hourStart, hour] at early ⊢
        omega
    | day =>
        simp only [ChartStep.start, ChartStep.length, dayStart, day] at early ⊢
        omega
  · rintro ⟨aligned, after, before⟩
    refine ⟨((ts - interval.start dateFrom) / interval.length).toNat, ?_⟩
    cases interval with
    | hour =>
        simp only [ChartStep.start, ChartStep.length, hourStart, hour] at aligned after before ⊢
        omega
    | day =>
        simp only [ChartStep.start, ChartStep.length, dayStart, day] at aligned after before ⊢
        omega

theorem pointSum_eq (column : ChartDataRow → Nat) (rows : List ChartDataRow) (queueName : String) (ts : Int) :
    pointSum column rows (queueName, ts) =
      ((Grouped.group (·.timestamp) (rows.filter fun r => r.queueName = queueName) ts).map column).sum := by
  simp only [pointSum, Grouped.group, List.filter_filter, ChartDataRow.key, Prod.mk.injEq, Bool.decide_and,
    Bool.and_comm]

/-- The points of the chart add up to the rows it has a point for. -/
theorem sum_points (column : ChartDataRow → Nat) {times : List Int} (distinct : times.Nodup)
    (covers : ∀ r ∈ rows, r.timestamp ∈ times) :
    (times.map fun ts => pointSum column rows (queueName, ts)).sum = queueTotal column queueName rows := by
  simp only [pointSum_eq]
  exact Grouped.sum_keys _ column distinct fun r hr => covers r (List.mem_filter.mp hr).1

end

/-- The last bucket of the range is reached when the second reading is no earlier in
    its bucket than the first. -/
theorem last_iff (timePeriodDays : Nat) (reading reading' : Int) (interval : ChartStep) :
    interval.start (periodStart timePeriodDays reading) + (reading' - periodStart timePeriodDays reading) /
        interval.length * interval.length = interval.start reading' ↔
      reading % interval.length ≤ reading' % interval.length := by
  cases interval with
  | hour =>
      simp only [periodStart, ChartStep.start, ChartStep.length, hourStart, hour, day]
      omega
  | day =>
      simp only [periodStart, ChartStep.start, ChartStep.length, dayStart, day]
      omega

/-- Whatever the rows of the range, the chart is complete exactly when the second
    reading of the clock is no earlier in its bucket than the first. -/
theorem complete_iff {timePeriodDays : Nat} {reading reading' : Int} (ordered : reading ≤ reading')
    (queueName : String) {historical current : List ChartDataRow}
    (inRange : ∀ r ∈ historical ++ current,
      IsBucket (chartInterval timePeriodDays) (periodStart timePeriodDays reading) reading' r.timestamp) :
    Complete (chartInterval timePeriodDays) (periodStart timePeriodDays reading) reading' queueName
        (historical ++ current) (chartOf (periodStart timePeriodDays reading) reading' (chartInterval timePeriodDays)
          queueName (historical ++ current)) ↔
      reading % (chartInterval timePeriodDays).length ≤ reading' % (chartInterval timePeriodDays).length := by
  generalize chartInterval timePeriodDays = interval at *
  have before : periodStart timePeriodDays reading ≤ reading' := by
    simp only [periodStart, day]
    omega
  rw [← last_iff timePeriodDays reading reading' interval, chartOf_eq before]
  constructor
  · intro complete
    have last : interval.start reading' ∈ filledTimes interval (periodStart timePeriodDays reading) reading' := by
      have listed := (complete.buckets _).mpr ⟨start_start interval reading', start_mono interval before, Int.le_refl _⟩
      simpa only [List.map_map, Function.comp_def, List.map_id'] using listed
    have reaches := ((mem_filledTimes before).mp last).2.2
    cases interval with
    | hour =>
        simp only [ChartStep.start, ChartStep.length, hourStart, hour] at reaches ⊢
        omega
    | day =>
        simp only [ChartStep.start, ChartStep.length, dayStart, day] at reaches ⊢
        omega
  · intro last
    have times : ∀ ts, ts ∈ filledTimes interval (periodStart timePeriodDays reading) reading' ↔
        IsBucket interval (periodStart timePeriodDays reading) reading' ts := by
      intro ts
      rw [mem_filledTimes before, last]
      rfl
    have distinct : (filledTimes interval (periodStart timePeriodDays reading) reading').Nodup :=
      filledTimes_inOrder.imp Int.ne_of_lt
    have covers : ∀ r ∈ historical ++ current,
        r.timestamp ∈ filledTimes interval (periodStart timePeriodDays reading) reading' :=
      fun r hr => (times _).mpr (inRange r hr)
    constructor
    · simpa only [List.map_map, Function.comp_def, List.map_id'] using filledTimes_inOrder
    · simpa only [List.map_map, Function.comp_def, List.map_id'] using times
    · simpa only [List.map_map, Function.comp_def] using sum_points _ distinct covers
    · simpa only [List.map_map, Function.comp_def] using sum_points _ distinct covers

/-- A run created as an hour begins. -/
def currentRow : ChartDataRow := { queueName := "mail", timestamp := 90000000, completed := 1, failed := 0 }

/-- Both readings within one hour. -/
theorem complete_one_hour : Complete .hour (periodStart 1 90000900) 90000901 "mail" [currentRow]
    (chartOf (periodStart 1 90000900) 90000901 .hour "mail" [currentRow]) :=
  (@complete_iff 1 90000900 90000901 (by decide) "mail" [] [currentRow] (by decide)).mpr (by decide)

/-- The hour begins between the readings, and the chart misses it. -/
theorem chart_misses_hour :
    ¬ ∀ (timePeriodDays : Nat) (reading reading' : Int) (queueName : String) (historical current : List ChartDataRow),
      reading ≤ reading' → (∀ r ∈ historical ++ current,
        IsBucket (chartInterval timePeriodDays) (periodStart timePeriodDays reading) reading' r.timestamp) →
      Complete (chartInterval timePeriodDays) (periodStart timePeriodDays reading) reading' queueName
        (historical ++ current) (chartOf (periodStart timePeriodDays reading) reading' (chartInterval timePeriodDays)
          queueName (historical ++ current)) := by
  intro all
  have completed := (all 1 89999999 90000001 "mail" [] [currentRow] (by decide) (by decide)).completed
  revert completed
  decide +kernel

end BetterBullBoard
