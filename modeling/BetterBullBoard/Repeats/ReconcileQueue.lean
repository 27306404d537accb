import BetterBullBoard.Repeats.ReconcileJobs

/-! # One visit of a queue

`reconcileQueue` with its lock free and its reads and writes succeeding: what it
leaves in `job_runs`, what it hands to `upsertJobRuns`, and which rows it
examines. An exception ends the visit; what was done before stays.
-/

namespace BetterBullBoard

variable {J : Type}

/-- The circumstances of a visit: its calls of `upsertJobRuns` read the clock, and
    its query returns any rows up to its limit. -/
structure VisitContext (J : Type) where
  pageSize : Nat
  retained : UpsertContext := {}
  missing : StaleRow → UpsertContext := fun _ => {}
  select : JobRunsTable J → List (JobRun J)

structure Visited (J : Type) where
  table : JobRunsTable J
  /-- The calls of `upsertJobRuns`. -/
  upserts : List (UpsertContext × List (JobRunInsert J)) := []
  /-- The rows whose job was asked for. -/
  examined : List StaleRow := []

def staleRow (r : JobRun J) : StaleRow := ⟨r.id, r.jobId⟩

namespace BullQueue

variable [DecidableEq J] (queue : BullQueue J) (queueName : String)

/-- None where it throws, before it writes anything. -/
def reconcileRetainedBullMqJobs (c : VisitContext J) (t : JobRunsTable J) : Option (Visited J) :=
  (queue.retainedRuns queueName c.pageSize).map fun rows =>
    { table := (upsertJobRuns c.retained rows t).1, upserts := [(c.retained, rows)] }

/-- The loop over the selected rows. A row that the database rejects makes
    `safeUpsertJobRuns` throw, and ends it. -/
def checkRows (rejects : JobRunInsert J → Bool) (c : VisitContext J) : List StaleRow → Visited J → Visited J
  | [], v => v
  | row :: rest, v =>
      let v := { v with examined := v.examined ++ [row] }
      match queue.getJob row.jobId with
      | none => checkRows rejects c rest { v with table := v.table.markUnknown row.id }
      | some job =>
          match snapshotRun queueName job with
          | none => v
          | some run =>
              let v := { v with upserts := v.upserts ++ [(c.missing row, [run])] }
              if (insertValues (c.missing row) [run]).any rejects then v
              else checkRows rejects c rest { v with table := (upsertJobRuns (c.missing row) [run] v.table).1 }

def reconcileMissingNonTerminalRows (rejects : JobRunInsert J → Bool) (c : VisitContext J) (v : Visited J) :
    Visited J :=
  queue.checkRows queueName rejects c ((c.select v.table).map staleRow) v

/-- No write is rejected. -/
def reconcileQueue (c : VisitContext J) (t : JobRunsTable J) : Visited J :=
  match queue.reconcileRetainedBullMqJobs queueName c t with
  | none => { table := t }
  | some v => queue.reconcileMissingNonTerminalRows queueName (fun _ => false) c v

end BullQueue

/-- The query returns rows of the queue without a terminal status. -/
def VisitContext.Selects (c : VisitContext J) (queueName : String) : Prop :=
  ∀ t : JobRunsTable J, Limit.Returns c.pageSize (t.rows.filter (isStale queueName)) (c.select t)

namespace Reconciliation

variable {env : Reconciled J} {queueName : String} {c : VisitContext J}

theorem setVisit_visits (s : Reconciliation J) (queueName : String) (visit : Visit) :
    (s.setVisit queueName visit).visits queueName = visit := Function.update_self ..

variable [DecidableEq J]

/-- The steps of the loop, taken without interruption. -/
theorem checkRows_run {s : Reconciliation J} {rows : List StaleRow} (visiting : s.visits queueName = .rows rows)
    {v : Visited J} (table : v.table = s.table) : ∃ ts s', Machine.Run (step env) s ts s' ∧
      s'.table = ((env.bullMq queueName).checkRows queueName (fun _ => false) c rows v).table := by
  induction rows generalizing s v with
  | nil => exact ⟨[], s, .done s, table.symm⟩
  | cons row rest ih =>
      have enabled : step env s (.row queueName (c.missing row)) =
          some (s.checkRow env queueName (c.missing row) row rest) := by
        simp only [step, visiting]
      simp only [BullQueue.checkRows]
      simp only [checkRow] at enabled
      cases found : (env.bullMq queueName).getJob row.jobId with
      | none =>
          simp only [found] at enabled
          obtain ⟨ts, s', run, same⟩ := ih (setVisit_visits { s with table := s.table.markUnknown row.id } _ _)
            (v := { v with table := v.table.markUnknown row.id, examined := v.examined ++ [row] })
            (congrArg (·.markUnknown row.id) table)
          exact ⟨_, s', .next enabled run, same⟩
      | some job =>
          cases formatted : snapshotRun queueName job with
          | none =>
              simp only [found, formatted] at enabled ⊢
              exact ⟨_, _, .next enabled (.done _), table.symm⟩
          | some run =>
              have taken : (insertValues (c.missing row) [run]).any (fun _ => false) = false := by simp
              simp only [found, formatted, taken, Bool.false_eq_true, if_false] at enabled ⊢
              obtain ⟨ts, s', steps, same⟩ := ih
                (setVisit_visits { s with table := (upsertJobRuns (c.missing row) [run] s.table).1 } _ _)
                (v := { v with
                  table := (upsertJobRuns (c.missing row) [run] v.table).1
                  examined := v.examined ++ [row]
                  upserts := v.upserts ++ [(c.missing row, [run])] }) (by rw [table]; rfl)
              exact ⟨_, s', .next enabled steps, same⟩

/-- A visit that nothing interrupts. -/
theorem reconcileQueue_run {s : Reconciliation J} (visiting : s.visits queueName = .retained)
    (pageSize : env.pageSize = c.pageSize) (selects : c.Selects queueName) :
    ∃ ts s', Machine.Run (step env) s ts s' ∧
      s'.table = ((env.bullMq queueName).reconcileQueue queueName c s.table).table := by
  unfold BullQueue.reconcileQueue BullQueue.reconcileRetainedBullMqJobs
  cases rows : (env.bullMq queueName).retainedRuns queueName c.pageSize with
  | none =>
      have retained : step env s (.retained queueName c.retained) = some (s.setVisit queueName .idle) := by
        simp only [step, visiting, pageSize, rows]
      exact ⟨_, _, .next retained (.done _), rfl⟩
  | some runs =>
      let s₁ := { s with table := (upsertJobRuns c.retained runs s.table).1 }.setVisit queueName .missing
      have retained : step env s (.retained queueName c.retained) = some s₁ := by
        simp only [step, visiting, pageSize, rows, s₁]
      have missing : step env s₁ (.missing queueName (c.select s₁.table)) =
          some (s₁.setVisit queueName (.rows ((c.select s₁.table).map staleRow))) := by
        have returns := selects s₁.table
        rw [← pageSize] at returns
        simp only [step]
        exact if_pos ⟨setVisit_visits .., returns⟩
      obtain ⟨ts, s', run, same⟩ := checkRows_run (c := c) (setVisit_visits s₁ queueName _)
        (v := { table := s₁.table, upserts := [(c.retained, runs)] }) rfl
      exact ⟨_, s', .next retained (.next missing run), same⟩

end Reconciliation

/-! ## A job that cannot be formatted -/

section

variable (queue : BullQueue J) (queueName : String)

/-- The runs of these jobs that can be formatted. -/
def formattedRuns (jobs : List (BullJob J)) : List (JobRunInsert J) := jobs.filterMap (snapshotRun queueName)

variable [DecidableEq J] {queue queueName}

/-- The visit hands the run of every other retained job to `upsertJobRuns`, and
    examines the rows its query returns once they are stored. -/
def SkipsBadJobs (queue : BullQueue J) (queueName : String) (c : VisitContext J) (jobs : List (BullJob J))
    (t : JobRunsTable J) : Prop :=
  let v := queue.reconcileQueue queueName c t
  let others := formattedRuns queueName jobs
  (∀ run ∈ others, ∃ call ∈ v.upserts, run ∈ call.2) ∧
    ∀ r ∈ c.select (upsertJobRuns c.retained others t).1, staleRow r ∈ v.examined

/-- One bad job ends the visit before it has done anything. -/
theorem reconcileQueue_bad {c : VisitContext J} {jobs : List (BullJob J)}
    (retained : queue.retainedJobs c.pageSize = some jobs) (bad : ∃ job ∈ jobs, snapshotRun queueName job = none)
    (t : JobRunsTable J) : queue.reconcileQueue queueName c t = { table := t } := by
  have throws : queue.retainedRuns queueName c.pageSize = none := by
    rw [BullQueue.retainedRuns, retained, Option.bind_some, Option.eq_none_iff_forall_ne_some]
    intro runs formatted
    obtain ⟨job, member, failed⟩ := bad
    have : none ∈ runs.map some := by
      rw [← BullQueue.snapshotRuns_eq formatted, ← failed]
      exact List.mem_map_of_mem member
    simp at this
  simp [BullQueue.reconcileQueue, BullQueue.reconcileRetainedBullMqJobs, throws]

/-- A queue with a bad job gets what the others are due exactly when nothing is
    due: no other job can be formatted, and no row waits for a terminal status. -/
theorem skipsBadJobs_iff {c : VisitContext J} (positive : 0 < c.pageSize) (selects : c.Selects queueName)
    {jobs : List (BullJob J)} (retained : queue.retainedJobs c.pageSize = some jobs)
    (bad : ∃ job ∈ jobs, snapshotRun queueName job = none) (t : JobRunsTable J) :
    SkipsBadJobs queue queueName c jobs t ↔
      (∀ job ∈ jobs, snapshotRun queueName job = none) ∧ ∀ r ∈ t.rows, isStale queueName r = false := by
  have nothing := reconcileQueue_bad (c := c) retained bad t
  have noOthers : (∀ run ∈ formattedRuns queueName jobs, False) ↔ ∀ job ∈ jobs, snapshotRun queueName job = none := by
    rw [← List.filterMap_eq_nil_iff, formattedRuns]
    exact List.eq_nil_iff_forall_not_mem.symm
  have noRows : (∀ r ∈ c.select t, False) ↔ ∀ r ∈ t.rows, isStale queueName r = false := by
    rw [← List.eq_nil_iff_forall_not_mem, (selects t).eq_nil_iff positive, List.filter_eq_nil_iff]
    simp only [Bool.not_eq_true]
  simp only [SkipsBadJobs, nothing, List.not_mem_nil, false_and, exists_false, ← noOthers, ← noRows]
  refine and_congr_right fun noneLeft => ?_
  rw [List.eq_nil_iff_forall_not_mem.mpr noneLeft]
  rfl

/-- Waiting jobs; the second may be delayed. -/
def waitingJob (id : String) (delay : Option Int) : BullJob Unit :=
  { snapshot := { id := some id, timestamp := 1000, opts := { delay } }, state := "waiting" }

def waitingQueue (ids : List String) (delay : Option Int) : BullQueue Unit where
  lists
    | .waiting => ids
    | _ => []
  jobs
    | "1" => some (waitingJob "1" none)
    | "2" => some (waitingJob "2" delay)
    | _ => none
  keyed := by
    intro id job found
    split at found
    · obtain rfl := Option.some.inj found
      rfl
    · obtain rfl := Option.some.inj found
      rfl
    · cases found

def visitMail : VisitContext Unit where
  pageSize := 500
  select t := (t.rows.filter (isStale "mail")).take 500

theorem visitMail_selects : visitMail.Selects "mail" := fun _ => Limit.returns_take _ _

/-- A queue that holds nothing but a job due in thirty days. -/
theorem skipsBadJobs_alone : SkipsBadJobs (waitingQueue ["2"] (some 2592000000)) "mail" visitMail
    [waitingJob "2" (some 2592000000)] .empty :=
  (skipsBadJobs_iff (by decide) visitMail_selects rfl ⟨_, List.mem_singleton_self _, rfl⟩ _).mpr
    ⟨fun job h => List.mem_singleton.mp h ▸ rfl, fun _ h => absurd h List.not_mem_nil⟩

/-- Behind it, job 1 is never stored. -/
theorem bad_job_blocks_queue :
    ¬ ∀ (queue : BullQueue Unit) (queueName : String) (c : VisitContext Unit) (jobs : List (BullJob Unit))
      (t : JobRunsTable Unit), 0 < c.pageSize → c.Selects queueName → queue.retainedJobs c.pageSize = some jobs →
      (∃ job ∈ jobs, snapshotRun queueName job = none) → SkipsBadJobs queue queueName c jobs t := by
  intro all
  have bad : ∃ job ∈ [waitingJob "1" none, waitingJob "2" (some 2592000000)], snapshotRun "mail" job = none :=
    ⟨_, List.mem_cons_of_mem _ (List.mem_singleton_self _), rfl⟩
  obtain ⟨upserted, -⟩ := all (waitingQueue ["1", "2"] (some 2592000000)) "mail" visitMail _ .empty (by decide)
    visitMail_selects rfl bad
  obtain ⟨call, member, -⟩ := upserted (mailRun .waiting none) (by decide)
  rw [reconcileQueue_bad rfl bad] at member
  cases member

end

end BetterBullBoard
