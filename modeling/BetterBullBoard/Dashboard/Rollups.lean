import BetterBullBoard.Lib.Grouped
import BetterBullBoard.Job.Schema

/-! # Hourly rollups

`dashboard_queue_hourly_stats` and its refresh. Times are milliseconds in UTC,
the time zone of the database. The refresh is one transaction that reads
`job_runs` in one statement, and nothing else writes the rollups, so it is one
step. `updated_at` is left out: nothing reads it.
-/

namespace BetterBullBoard

variable {J : Type}

def hour : Int := 3600000

/-- `date_trunc('hour', ..)` -/
def hourStart (t : Int) : Int := t / hour * hour

/-- The generated column. -/
def JobRun.durationMs (r : JobRun J) : Option Int :=
  match r.finishedAt, r.startedAt with
  | some finishedAt, some startedAt => some (finishedAt - startedAt)
  | _, _ => none

/-- How long a run was enqueued. -/
def JobRun.pressureMs (r : JobRun J) : Option Int :=
  match r.startedAt, r.enqueuedAt with
  | some startedAt, some enqueuedAt => some (startedAt - enqueuedAt)
  | _, _ => none

structure HourlyStats where
  bucketStart : Int
  queue : String
  totalRuns : Nat
  completedRuns : Nat
  failedRuns : Nat
  activeRuns : Nat
  waitingRuns : Nat
  durationTotalMs : Int
  durationCount : Nat
  durationMinMs : Option Int
  durationMaxMs : Option Int
  pressureTotalMs : Int
  pressureCount : Nat
  deriving Repr, DecidableEq

/-- The primary key. -/
def HourlyStats.target (r : HourlyStats) : Option (Int × String) := some (r.bucketStart, r.queue)

/-- The selected columns of one group. -/
def statsOf (bucket : Int × String) (rows : List (JobRun J)) : HourlyStats :=
  let durations := (rows.filter fun r => r.status = .completed).filterMap JobRun.durationMs
  let pressures := (rows.filter fun r => r.status = .completed || r.status = .failed).filterMap JobRun.pressureMs
  { bucketStart := bucket.1
    queue := bucket.2
    totalRuns := rows.length
    completedRuns := rows.countP fun r => r.status = .completed
    failedRuns := rows.countP fun r => r.status = .failed
    activeRuns := rows.countP fun r => r.status = .active
    waitingRuns := rows.countP fun r => r.status = .waiting
    durationTotalMs := durations.sum
    durationCount := durations.length
    durationMinMs := durations.min?
    durationMaxMs := durations.max?
    pressureTotalMs := pressures.sum
    pressureCount := pressures.length }

/-- The columns of `GROUP BY`. -/
def JobRun.bucket (r : JobRun J) : Int × String := (hourStart r.createdAt, r.queue)

/-- The `SELECT` of the refresh. -/
def selectLastHour (now : Int) (runs : List (JobRun J)) : List HourlyStats :=
  (Grouped.groupBy JobRun.bucket (runs.filter fun r =>
    hourStart (now - hour) ≤ r.createdAt ∧ r.createdAt < hourStart now)).map fun g => statsOf g.1 g.2

structure HourlyStatsTable where
  rows : List HourlyStats
  unique : UniqueIndex.Unique HourlyStats.target rows

namespace HourlyStatsTable

def empty : HourlyStatsTable := ⟨[], .nil⟩

def delete (t : HourlyStatsTable) (wher : HourlyStats → Bool) : HourlyStatsTable :=
  ⟨t.rows.filter fun r => !wher r, t.unique.sublist List.filter_sublist⟩

/-- `INSERT .. ON CONFLICT DO UPDATE SET` every column, one row. -/
def upsertRow (t : HourlyStatsTable) (row : HourlyStats) : HourlyStatsTable :=
  ⟨UniqueIndex.doUpdate HourlyStats.target (fun _ excluded => excluded) row t.rows,
    t.unique.doUpdate fun _ clash => clash.2.symm⟩

def upsert (t : HourlyStatsTable) (rows : List HourlyStats) : HourlyStatsTable := rows.foldl upsertRow t

theorem mem_delete {t : HourlyStatsTable} {wher : HourlyStats → Bool} {r : HourlyStats} :
    r ∈ (t.delete wher).rows ↔ r ∈ t.rows ∧ wher r = false := by
  simp [delete]

/-- Rows with keys of their own are added. -/
theorem mem_upsert {t : HourlyStatsTable} {rows : List HourlyStats}
    (fresh : ∀ a ∈ t.rows, ∀ b ∈ rows, a.target ≠ b.target)
    (apart : rows.Pairwise fun a b => a.target ≠ b.target) {r : HourlyStats} :
    r ∈ (t.upsert rows).rows ↔ r ∈ t.rows ∨ r ∈ rows := by
  induction rows generalizing t with
  | nil => simp [upsert]
  | cons row rows ih =>
      obtain ⟨head, tail⟩ := List.pairwise_cons.mp apart
      have added : (t.upsertRow row).rows = t.rows ++ [row] :=
        UniqueIndex.doUpdate_fresh fun a ha clash => fresh a ha row List.mem_cons_self clash.2
      have next := ih (t := t.upsertRow row) (fun a ha b hb => ?_) tail
      · rw [added, List.mem_append, List.mem_singleton, or_assoc] at next
        rw [List.mem_cons]
        exact next
      · rw [added, List.mem_append, List.mem_singleton] at ha
        cases ha with
        | inl old => exact fresh a old b (List.mem_cons_of_mem _ hb)
        | inr new => exact new ▸ head b hb

end HourlyStatsTable

/-- The last hour that is over. -/
def lastCompletedHour (now : Int) : Int := hourStart (now - hour)

/-- The transaction of `refreshLastCompletedDashboardRollupHour`. -/
def refreshRollups (now deleteBefore : Int) (runs : List (JobRun J)) (stats : HourlyStatsTable) : HourlyStatsTable :=
  ((stats.delete fun r => r.bucketStart = hourStart (now - hour)).upsert (selectLastHour now runs)).delete
    fun r => r.bucketStart < deleteBefore

/-- What the table holds for an hour and a queue. -/
def stored (stats : HourlyStatsTable) (bucket : Int × String) : Option HourlyStats :=
  stats.rows.find? fun r => r.target = some bucket

/-- What the rows of `job_runs` say about an hour and a queue. -/
def aggregate (runs : List (JobRun J)) (bucket : Int × String) : Option HourlyStats :=
  match Grouped.group JobRun.bucket runs bucket with
  | [] => none
  | r :: rows => some (statsOf bucket (r :: rows))

theorem stored_eq_some {stats : HourlyStatsTable} {bucket : Int × String} {r : HourlyStats} :
    stored stats bucket = some r ↔ r ∈ stats.rows ∧ r.target = some bucket := by
  constructor
  · intro h
    exact ⟨List.mem_of_find?_eq_some h, by simpa using List.find?_some h⟩
  · intro h
    cases found : stored stats bucket with
    | none => simpa [h.2] using List.find?_eq_none.mp found r h.1
    | some r' =>
        have keyed : r'.target = some bucket := by simpa using List.find?_some found
        rw [stats.unique.eq_of_clash (List.mem_of_find?_eq_some found) h.1 ⟨by simp [keyed], keyed.trans h.2.symm⟩]

theorem aggregate_eq_some {runs : List (JobRun J)} {bucket : Int × String} {r : HourlyStats} :
    aggregate runs bucket = some r ↔
      r = statsOf bucket (Grouped.group JobRun.bucket runs bucket) ∧ ∃ run ∈ runs, run.bucket = bucket := by
  unfold aggregate
  split
  · rename_i empty
    have absent := Grouped.group_eq_nil.mp empty
    constructor
    · intro h
      simp at h
    · intro h
      obtain ⟨-, run, member, same⟩ := h
      exact absurd same (absent run member)
  · rename_i first rest listed
    have member : first ∈ Grouped.group JobRun.bucket runs bucket := by rw [listed]; exact List.mem_cons_self
    obtain ⟨inside, same⟩ := List.mem_filter.mp member
    rw [listed, Option.some.injEq]
    exact ⟨fun h => ⟨h.symm, first, inside, by simpa using same⟩, fun h => h.1.symm⟩

theorem hourStart_eq_iff {h t : Int} (aligned : hourStart h = h) : hourStart t = h ↔ h ≤ t ∧ t < h + hour := by
  unfold hourStart hour at *
  omega

theorem hourStart_aligned (t : Int) : hourStart (hourStart t) = hourStart t := by
  unfold hourStart hour
  omega

theorem hourStart_next (now : Int) : hourStart now = lastCompletedHour now + hour := by
  unfold lastCompletedHour hourStart hour
  omega

/-- The refresh reads the rows of the last hour and no others. -/
theorem inLastHour_iff (now : Int) (r : JobRun J) :
    (hourStart (now - hour) ≤ r.createdAt ∧ r.createdAt < hourStart now) ↔ r.bucket.1 = lastCompletedHour now := by
  rw [hourStart_next now]
  exact (hourStart_eq_iff (hourStart_aligned _)).symm

/-- The selected rows are the aggregates of the last hour. -/
theorem mem_selectLastHour {now : Int} {runs : List (JobRun J)} {x : HourlyStats} :
    x ∈ selectLastHour now runs ↔ x.bucketStart = lastCompletedHour now ∧
      aggregate runs (x.bucketStart, x.queue) = some x := by
  have selected : ∀ bucket : Int × String, bucket.1 = lastCompletedHour now →
      Grouped.group JobRun.bucket (runs.filter fun r =>
        hourStart (now - hour) ≤ r.createdAt ∧ r.createdAt < hourStart now) bucket =
          Grouped.group JobRun.bucket runs bucket := by
    intro bucket last
    rw [Grouped.group, List.filter_filter]
    apply List.filter_congr
    intro r _
    simp only [inLastHour_iff]
    cases Decidable.em (r.bucket = bucket) with
    | inl same => simp [same, last]
    | inr other => simp [other]
  rw [selectLastHour, List.mem_map, aggregate_eq_some]
  constructor
  · intro h
    obtain ⟨⟨bucket, rows⟩, member, rfl⟩ := h
    obtain ⟨rfl, r, hr, rfl⟩ := Grouped.mem_groupBy.mp member
    obtain ⟨inside, inHour⟩ := List.mem_filter.mp hr
    have last : r.bucket.1 = lastCompletedHour now := (inLastHour_iff now r).mp (by simpa using inHour)
    exact ⟨last, by rw [selected r.bucket last]; rfl, r, inside, rfl⟩
  · intro h
    obtain ⟨last, eq, r, hr, same⟩ := h
    refine ⟨(r.bucket, Grouped.group JobRun.bucket runs r.bucket), Grouped.mem_groupBy.mpr ⟨?_, r, ?_, rfl⟩, ?_⟩
    · rw [selected r.bucket (by rw [same]; exact last)]
    · exact List.mem_filter.mpr ⟨hr, by simpa using (inLastHour_iff now r).mpr (by rw [same]; exact last)⟩
    · rw [same]
      exact eq.symm

theorem target_inj {a b : HourlyStats} : a.target = b.target ↔ a.bucketStart = b.bucketStart ∧ a.queue = b.queue := by
  simp [HourlyStats.target]

theorem mem_refreshRollups {now deleteBefore : Int} {runs : List (JobRun J)} {stats : HourlyStatsTable}
    {x : HourlyStats} :
    x ∈ (refreshRollups now deleteBefore runs stats).rows ↔ deleteBefore ≤ x.bucketStart ∧
      if x.bucketStart = lastCompletedHour now then aggregate runs (x.bucketStart, x.queue) = some x
      else x ∈ stats.rows := by
  rw [refreshRollups, HourlyStatsTable.mem_delete, HourlyStatsTable.mem_upsert, HourlyStatsTable.mem_delete,
    mem_selectLastHour, decide_eq_false_iff_not, decide_eq_false_iff_not, lastCompletedHour, and_comm, Int.not_lt]
  · refine and_congr_right fun _ => ?_
    split
    · rename_i last
      simp [last]
    · rename_i other
      simp [other]
  · intro a ha b hb same
    have old := (HourlyStatsTable.mem_delete.mp ha).2
    simp only [decide_eq_false_iff_not] at old
    exact old ((target_inj.mp same).1.trans (mem_selectLastHour.mp hb).1)
  · rw [selectLastHour, List.pairwise_map]
    refine (List.pairwise_map.mp (List.nodup_iff_pairwise_ne.mp (Grouped.keys_groupBy _ _))).imp ?_
    intro a b apart same
    exact apart (Option.some.inj same)

/-- After a refresh the last hour's rows are its aggregates. -/
theorem stored_refreshed {now deleteBefore : Int} {runs : List (JobRun J)} {stats : HourlyStatsTable} {queue : String}
    (kept : deleteBefore ≤ lastCompletedHour now) :
    stored (refreshRollups now deleteBefore runs stats) (lastCompletedHour now, queue) =
      aggregate runs (lastCompletedHour now, queue) := by
  apply Option.ext
  intro x
  rw [stored_eq_some, mem_refreshRollups]
  constructor
  · intro h
    obtain ⟨⟨-, member⟩, target⟩ := h
    simp only [HourlyStats.target, Option.some.injEq, Prod.mk.injEq] at target
    rwa [if_pos target.1, target.1, target.2] at member
  · intro h
    obtain ⟨rfl, -⟩ := aggregate_eq_some.mp h
    exact ⟨⟨kept, (if_pos (c := lastCompletedHour now = lastCompletedHour now) rfl).mpr h⟩, rfl⟩

/-- A refresh of another hour leaves an hour as it was, unless it is purged. -/
theorem stored_other {now deleteBefore : Int} {runs : List (JobRun J)} {stats : HourlyStatsTable}
    {bucket : Int × String} (other : bucket.1 ≠ lastCompletedHour now) (kept : deleteBefore ≤ bucket.1) :
    stored (refreshRollups now deleteBefore runs stats) bucket = stored stats bucket := by
  apply Option.ext
  intro x
  rw [stored_eq_some, stored_eq_some, mem_refreshRollups]
  refine and_congr_left fun target => ?_
  have same : (x.bucketStart, x.queue) = bucket := Option.some.inj target
  subst same
  rw [if_neg other]
  exact and_iff_right kept

end BetterBullBoard
