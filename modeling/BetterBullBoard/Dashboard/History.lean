import BetterBullBoard.Lib.Machine
import BetterBullBoard.Job.Upsert
import BetterBullBoard.Dashboard.Chart

/-! # Rollups over a history of upserts

The rollup of an hour is what its rows said when the hour was last refreshed. It
says what they say now as long as no upsert since then added a row to the hour,
moved one or changed a status in it.
-/

namespace BetterBullBoard

variable {J : Type}

structure Dashboard (J : Type) where
  runs : JobRunsTable J
  stats : HourlyStatsTable := .empty

inductive DashboardAction (J : Type) where
  /-- Any call of `upsertJobRuns`. -/
  | upsert (ctx : UpsertContext) (runs : List (JobRunInsert J))
  /-- A refresh, with the database's clock and the purge limit. -/
  | refresh (now deleteBefore : Int)

namespace Dashboard

def step [DecidableEq J] (s : Dashboard J) : DashboardAction J → Option (Dashboard J)
  | .upsert ctx runs => some { s with runs := (upsertJobRuns ctx runs s.runs).1 }
  | .refresh now deleteBefore => some { s with stats := refreshRollups now deleteBefore s.runs.rows s.stats }

/-- In this run, `x` is the last refresh of the hour, `after` is what followed,
    and the hour has not been purged. -/
structure LastRefresh (h : Int) (ts : List (Machine.Transition (Dashboard J) (DashboardAction J)))
    (x : Machine.Transition (Dashboard J) (DashboardAction J))
    (after : List (Machine.Transition (Dashboard J) (DashboardAction J))) : Prop where
  split : ∃ before, ts = before ++ x :: after
  refreshed : ∃ now deleteBefore, x.act = .refresh now deleteBefore ∧ lastCompletedHour now = h ∧ deleteBefore ≤ h
  later : ∀ y ∈ after, ∀ now deleteBefore, y.act = .refresh now deleteBefore →
    lastCompletedHour now ≠ h ∧ deleteBefore ≤ h

/-- The queues and statuses of the rows of an hour, in any order. -/
def hourStatuses (h : Int) (runs : JobRunsTable J) : List (String × JobStatus) :=
  (runs.rows.filter fun r => hourStart r.createdAt = h).map fun r => (r.queue, r.status)

/-- Nothing was added to, moved in or out of, or changed status in the hour. -/
def Undisturbed (h : Int) (after : List (Machine.Transition (Dashboard J) (DashboardAction J))) : Prop :=
  ∀ y ∈ after, (hourStatuses h y.pre.runs).Perm (hourStatuses h y.post.runs)

structure Counts where
  total : Nat
  completed : Nat
  failed : Nat
  active : Nat
  waiting : Nat
  deriving Repr, DecidableEq

/-- The counts of a rollup row, zeros where there is none. -/
def countsOf (row : Option HourlyStats) : Counts where
  total := countOf (·.totalRuns) row
  completed := countOf (·.completedRuns) row
  failed := countOf (·.failedRuns) row
  active := countOf (·.activeRuns) row
  waiting := countOf (·.waitingRuns) row

section

variable [DecidableEq J] {s s' : Dashboard J} {h : Int} {queue : String}
  {ts after : List (Machine.Transition (Dashboard J) (DashboardAction J))}
  {x : Machine.Transition (Dashboard J) (DashboardAction J)}

/-- Without a refresh or purge of the hour its rollups stay. -/
theorem stored_kept (run : Machine.Run step s ts s')
    (later : ∀ y ∈ ts, ∀ now deleteBefore, y.act = .refresh now deleteBefore →
      lastCompletedHour now ≠ h ∧ deleteBefore ≤ h) :
    stored s'.stats (h, queue) = stored s.stats (h, queue) := by
  induction run with
  | done => rfl
  | @next s a s₁ _ _ enabled _ ih =>
      simp only [List.forall_mem_cons] at later
      rw [ih later.2]
      cases a with
      | upsert ctx runs =>
          obtain rfl := Option.some.inj enabled
          rfl
      | refresh now deleteBefore =>
          obtain rfl := Option.some.inj enabled
          obtain ⟨other, kept⟩ := later.1 now deleteBefore rfl
          exact stored_other other.symm kept

theorem hourStatuses_kept (run : Machine.Run step s ts s') (undisturbed : Undisturbed h ts) :
    (hourStatuses h s.runs).Perm (hourStatuses h s'.runs) := by
  induction run with
  | done => exact List.Perm.refl _
  | next _ _ ih =>
      simp only [Undisturbed, List.forall_mem_cons] at undisturbed
      exact undisturbed.1.trans (ih undisturbed.2)

/-- The state of a run around the last refresh of an hour. -/
theorem LastRefresh.around (last : LastRefresh h ts x after) (run : Machine.Run step s ts s') :
    (∀ queue, stored x.post.stats (h, queue) = aggregate x.pre.runs.rows (h, queue)) ∧ x.post.runs = x.pre.runs ∧
      Machine.Run step x.post after s' := by
  obtain ⟨before, rfl⟩ := last.split
  obtain ⟨now, deleteBefore, isRefresh, rfl, kept⟩ := last.refreshed
  obtain ⟨u, -, rest⟩ := run.split
  cases rest with
  | next enabled rest =>
      simp only at isRefresh
      subst isRefresh
      obtain rfl := Option.some.inj enabled
      exact ⟨fun queue => stored_refreshed kept, rfl, rest⟩

theorem LastRefresh.stored_eq (last : LastRefresh h ts x after) (run : Machine.Run step s ts s') (queue : String) :
    stored s'.stats (h, queue) = aggregate x.pre.runs.rows (h, queue) := by
  obtain ⟨refreshed, -, rest⟩ := last.around run
  rw [stored_kept rest last.later, refreshed]

end

theorem countP_bucket (runs : JobRunsTable J) (h : Int) (queue : String) (status : JobStatus) :
    ((Grouped.group JobRun.bucket runs.rows (h, queue)).countP fun r => r.status = status) =
      (hourStatuses h runs).countP fun e => e = (queue, status) := by
  rw [Grouped.group, List.countP_filter, hourStatuses, List.countP_map, List.countP_filter]
  apply List.countP_congr
  intro r _
  simp only [JobRun.bucket, Prod.mk.injEq, Bool.and_eq_true, decide_eq_true_eq, Function.comp_apply]
  tauto

theorem length_bucket (runs : JobRunsTable J) (h : Int) (queue : String) :
    (Grouped.group JobRun.bucket runs.rows (h, queue)).length = (hourStatuses h runs).countP fun e => e.1 = queue := by
  rw [Grouped.group, ← List.countP_eq_length_filter, hourStatuses, List.countP_map, List.countP_filter]
  apply List.countP_congr
  intro r _
  simp only [JobRun.bucket, Prod.mk.injEq, Bool.and_eq_true, decide_eq_true_eq, Function.comp_apply]
  tauto

/-- The counts of an hour depend on its queues and statuses alone. -/
theorem countsOf_aggregate (runs : JobRunsTable J) (h : Int) (queue : String) :
    countsOf (aggregate runs.rows (h, queue)) = {
      total := (hourStatuses h runs).countP fun e => e.1 = queue
      completed := (hourStatuses h runs).countP fun e => e = (queue, .completed)
      failed := (hourStatuses h runs).countP fun e => e = (queue, .failed)
      active := (hourStatuses h runs).countP fun e => e = (queue, .active)
      waiting := (hourStatuses h runs).countP fun e => e = (queue, .waiting) } := by
  have total : countOf (·.totalRuns) (aggregate runs.rows (h, queue)) =
      (Grouped.group JobRun.bucket runs.rows (h, queue)).length := by
    unfold aggregate
    split
    · rename_i missing
      rw [missing]
      rfl
    · rename_i present
      rw [present]
      rfl
  simp only [countsOf, total, countOf_aggregate (·.completedRuns) (fun _ _ => rfl),
    countOf_aggregate (·.failedRuns) (fun _ _ => rfl),
    countOf_aggregate (·.activeRuns) (fun _ _ => rfl),
    countOf_aggregate (·.waitingRuns) (fun _ _ => rfl), countP_bucket, length_bucket]

section

variable [DecidableEq J] {s s' : Dashboard J} {h : Int}
  {ts after : List (Machine.Transition (Dashboard J) (DashboardAction J))}
  {x : Machine.Transition (Dashboard J) (DashboardAction J)}

theorem LastRefresh.counts_eq (last : LastRefresh h ts x after) (run : Machine.Run step s ts s')
    (undisturbed : Undisturbed h after) (queue : String) :
    countsOf (stored s'.stats (h, queue)) = countsOf (aggregate s'.runs.rows (h, queue)) := by
  obtain ⟨-, same, rest⟩ := last.around run
  have kept := hourStatuses_kept rest undisturbed
  rw [same] at kept
  rw [last.stored_eq run, countsOf_aggregate, countsOf_aggregate]
  simp only [kept.countP_eq]

theorem step_hours {a : DashboardAction J} (hours : ∀ r ∈ s.stats.rows, hourStart r.bucketStart = r.bucketStart)
    (enabled : step s a = some s') : ∀ r ∈ s'.stats.rows, hourStart r.bucketStart = r.bucketStart := by
  cases a with
  | upsert ctx runs =>
      obtain rfl := Option.some.inj enabled
      exact hours
  | refresh now deleteBefore =>
      obtain rfl := Option.some.inj enabled
      intro r hr
      obtain ⟨-, member⟩ := mem_refreshRollups.mp hr
      split at member
      · rename_i last
        rw [last]
        exact hourStart_aligned _
      · exact hours r member

/-- The rollups of a refreshed hour are the aggregates over its rows as they were
    at its last refresh. So its counts are the current ones while the hour stays
    undisturbed, and a chart whose past hours all do is the one of `job_runs`. -/
theorem rollups_agree {t : JobRunsTable J} (run : Machine.Run step { runs := t } ts s) :
    (∀ h x after, LastRefresh h ts x after → ∀ queue,
      stored s.stats (h, queue) = aggregate x.pre.runs.rows (h, queue) ∧
        (Undisturbed h after →
          countsOf (stored s.stats (h, queue)) = countsOf (aggregate s.runs.rows (h, queue)))) ∧
      ∀ (interval : ChartStep) (queueNames : List String) (dateFrom dateTo : Int), dateFrom ≤ dateTo →
        (∀ h, hourStart h = h → interval.start dateFrom ≤ h → h < hourStart dateTo →
          ∃ x after, LastRefresh h ts x after ∧ Undisturbed h after) →
        ∀ queueName ∈ queueNames, queueChart interval queueNames dateFrom dateTo s.stats s.runs.rows queueName =
          jobRunsChart interval queueNames dateFrom dateTo s.runs.rows queueName := by
  refine ⟨fun h x after last queue =>
    ⟨last.stored_eq run queue, fun undisturbed => last.counts_eq run undisturbed queue⟩, ?_⟩
  intro interval queueNames dateFrom dateTo ordered refreshed queueName shown
  have hours : ∀ r ∈ s.stats.rows, hourStart r.bucketStart = r.bucketStart :=
    run.invariant (I := fun s => ∀ r ∈ s.stats.rows, hourStart r.bucketStart = r.bucketStart)
      (fun _ _ _ hours enabled => step_hours hours enabled) (by simp [HourlyStatsTable.empty])
  refine queueChart_eq hours shown ordered fun h aligned after before => ?_
  obtain ⟨x, rest, last, undisturbed⟩ := refreshed h aligned after before
  have same := last.counts_eq run undisturbed queueName
  exact ⟨congrArg Counts.completed same, congrArg Counts.failed same⟩

end

/-- The first refresh of the first hour, once it is over. -/
def firstRefresh (runs : JobRunsTable Unit) : Machine.Transition (Dashboard Unit) (DashboardAction Unit) where
  pre := { runs }
  act := .refresh 3600000 0
  post := { runs, stats := refreshRollups 3600000 0 runs.rows .empty }

theorem firstRefresh_last {runs : JobRunsTable Unit}
    (before : List (Machine.Transition (Dashboard Unit) (DashboardAction Unit)))
    {after : List (Machine.Transition (Dashboard Unit) (DashboardAction Unit))}
    (upserts : ∀ y ∈ after, ∃ ctx runs, y.act = .upsert ctx runs) :
    LastRefresh 0 (before ++ firstRefresh runs :: after) (firstRefresh runs) after where
  split := ⟨before, rfl⟩
  refreshed := ⟨3600000, 0, rfl, by decide, by decide⟩
  later := by
    intro y hy now deleteBefore act
    obtain ⟨ctx, runs, upsert⟩ := upserts y hy
    rw [upsert] at act
    cases act

def firstHour : List (JobRunInsert Unit) :=
  [mailRun .completed (some 2000),
    { mailRun .active none with jobId := "2", enqueuedAt := .value 5000, createdAt := some 5000 }]

/-- One of these runs again with its status, and a run of another queue in the next hour. -/
def nextHour : List (JobRunInsert Unit) :=
  [{ mailRun .completed (some 2000) with attempt := some 1 },
    { mailRun .failed (some 3700000) with
      queue := "invoices", enqueuedAt := .value 3650000, createdAt := some 3650000 }]

theorem rollups_agree_mail : ∃ ts s, Machine.Run step { runs := (.empty : JobRunsTable Unit) } ts s ∧
    s.runs.rows.map (fun r => (r.queue, r.status)) =
      [("mail", .completed), ("mail", .active), ("invoices", .failed)] ∧
    countsOf (stored s.stats (0, "mail")) = countsOf (aggregate s.runs.rows (0, "mail")) ∧
    ∀ queueName ∈ ["mail", "invoices"],
      queueChart .hour ["mail", "invoices"] 0 3700000 s.stats s.runs.rows queueName =
        jobRunsChart .hour ["mail", "invoices"] 0 3700000 s.runs.rows queueName := by
  let first : Machine.Transition (Dashboard Unit) (DashboardAction Unit) :=
    ⟨{ runs := .empty }, .upsert {} firstHour, { runs := (upsertJobRuns {} firstHour .empty).1 }⟩
  let refresh := firstRefresh first.post.runs
  let later : Machine.Transition (Dashboard Unit) (DashboardAction Unit) :=
    ⟨refresh.post, .upsert {} nextHour, { refresh.post with runs := (upsertJobRuns {} nextHour refresh.post.runs).1 }⟩
  have run : Machine.Run step first.pre ([first] ++ [refresh, later]) later.post :=
    .next rfl (.next rfl (.next rfl (.done _)))
  have ⟨counts, chart⟩ := rollups_agree run
  have last : LastRefresh 0 ([first] ++ [refresh, later]) refresh [later] := firstRefresh_last [first] (by simp [later])
  have undisturbed : Undisturbed 0 [later] := List.forall_mem_singleton.mpr (by decide +kernel)
  refine ⟨_, _, run, by decide +kernel, (counts 0 refresh [later] last "mail").2 undisturbed, ?_⟩
  refine chart .hour _ 0 3700000 (by decide) fun h aligned after before => ?_
  obtain rfl : h = 0 := by
    simp only [ChartStep.start, hourStart, hour] at aligned after before
    omega
  exact ⟨_, _, last, undisturbed⟩

/-- The run of the hour completes when the hour has been refreshed. -/
theorem late_status_missed :
    ¬ ∀ (t : JobRunsTable Unit) (s : Dashboard Unit)
        (ts : List (Machine.Transition (Dashboard Unit) (DashboardAction Unit))),
        Machine.Run step { runs := t } ts s →
        ∀ h x after, LastRefresh h ts x after → ∀ queue,
          countsOf (stored s.stats (h, queue)) = countsOf (aggregate s.runs.rows (h, queue)) := by
  intro agree
  have run : Machine.Run step { runs := mailTable } [firstRefresh mailTable, ⟨_, _, _⟩] _ :=
    .next rfl (.next (a := .upsert {} [mailRun .completed (some 2000)]) rfl (.done _))
  exact absurd (agree _ _ _ run 0 _ _ (firstRefresh_last [] (by simp)) "mail") (by decide)

end Dashboard

end BetterBullBoard
