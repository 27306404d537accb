import BetterBullBoard.Repeats.ReconcileQueue
import BetterBullBoard.Job.Widths

/-! # What a pass over missing rows repairs

A row stands for a job of one enqueue time; BullMQ is asked by the id of the job
alone, and answers with the job that has the id now. The answer is written under
that job's own enqueue time, which need not be the row's.
-/

namespace BetterBullBoard

variable {J : Type}

namespace BullQueue

variable (queue : BullQueue J) (queueName : String)

/-- The status a row should have: that of its job, if BullMQ still has the job. -/
def rightStatus (r : JobRun J) : JobStatus :=
  match queue.getJob r.jobId with
  | none => .unknown
  | some job =>
      if r.enqueuedAt = some job.snapshot.timestamp then
        getStatusFromSnapshot job.snapshot (some .snapshot) (some job.state)
      else .unknown

/-- The pass goes on behind this row: its job is gone, or has a run that the database
    takes. -/
def passes (rejects : JobRunInsert J → Bool) (row : StaleRow) : Bool :=
  match queue.getJob row.jobId with
  | none => true
  | some job => (snapshotRun queueName job).any fun run => !rejects run

def reached (rejects : JobRunInsert J → Bool) (rows : List StaleRow) : List StaleRow :=
  rows.takeWhile (queue.passes queueName rejects)

/-- Getting through a row writes to another: to itself if the job is gone, else to
    the row of the job's own time. -/
def Writes (row : StaleRow) (r : JobRun J) : Prop :=
  match queue.getJob row.jobId with
  | none => row.id = r.id
  | some job => row.jobId = r.jobId ∧ r.enqueuedAt = some job.snapshot.timestamp

end BullQueue

section

variable [DecidableEq J] {ctx : UpsertContext} {run : JobRunInsert J} {k : String × String × Int}

theorem onConflict_status {stored ex : JobRun J}
    (mayChange : isTerminalStatus stored.status = false ∨ stored.status = ex.status) :
    (onConflict stored ex).status = ex.status := by
  simp only [onConflict_eq, conflictSet, statusUpdate]
  split
  · rename_i kept
    cases mayChange with
    | inl nonTerminal => simp [nonTerminal] at kept
    | inr same => exact same
  · rfl

theorem upsert_status (target : run.target = some k) (kept : isWithinRetention run (getRetentionCutoff ctx))
    {t : JobRunsTable J} {a : JobRun J} (ha : a ∈ t.rows) (same : a.target = some k)
    (mayChange : isTerminalStatus a.status = false ∨ a.status = run.status) :
    ∃ a' ∈ (upsertJobRuns ctx [run] t).1.rows, a'.id = a.id ∧ a'.target = a.target ∧ a'.status = run.status := by
  have survivor : latest ctx [run] = some run := by simp [latest, kept]
  rw [JobRunsTable.upsert_one_key ctx t (by simpa using target), survivor]
  have held := JobRunsTable.rowAt_upsertRow ctx t target
  rw [JobRunsTable.rowAt_eq_some.mpr ⟨ha, same⟩] at held
  obtain ⟨member, target'⟩ := JobRunsTable.rowAt_eq_some.mp held
  exact ⟨_, member, onConflict_id _ _, target'.trans same.symm, onConflict_status mayChange⟩

theorem upsert_others (target : run.target = some k) {t : JobRunsTable J} {a : JobRun J} (ha : a ∈ t.rows)
    (other : a.target ≠ some k) : a ∈ (upsertJobRuns ctx [run] t).1.rows := by
  rw [JobRunsTable.upsert_one_key ctx t (by simpa using target)]
  split
  · exact ha
  · rename_i run' survivor
    obtain rfl : run' = run := by simpa using (List.mem_filter.mp (List.mem_of_getLast? survivor)).1
    refine (UniqueIndex.mem_doUpdate t.unique).mpr (.inl ⟨ha, fun clash => other (clash.2.trans target)⟩)

end

namespace BullQueue

variable [DecidableEq J] {queue : BullQueue J} {queueName : String} {rejects : JobRunInsert J → Bool}
  {c : VisitContext J}

/-- The right status once one of these rows writes to it, else the status before. -/
def Settles (queue : BullQueue J) (rows : List StaleRow) (r : JobRun J) (before after : JobStatus) : Prop :=
  ((∃ row ∈ rows, queue.Writes row r) → after = queue.rightStatus r) ∧
    ((∀ row ∈ rows, ¬ queue.Writes row r) → after = before)

omit [DecidableEq J] in
theorem Settles.nil (r : JobRun J) (s : JobStatus) : queue.Settles [] r s s := ⟨by simp, fun _ => rfl⟩

omit [DecidableEq J] in
theorem Settles.cons {row : StaleRow} {rows : List StaleRow} {r : JobRun J} {s s' s'' : JobStatus}
    (first : queue.Settles [row] r s s') (rest : queue.Settles rows r s' s'') :
    queue.Settles (row :: rows) r s s'' := by
  simp only [Settles, List.mem_singleton, exists_eq_left, forall_eq] at first
  constructor
  · intro writes
    by_cases later : ∃ row' ∈ rows, queue.Writes row' r
    · exact rest.1 later
    · have here : queue.Writes row r := by simpa [later] using writes
      rw [rest.2 fun row' h writes' => later ⟨row', h, writes'⟩, first.1 here]
  · intro unwritten
    simp only [List.forall_mem_cons] at unwritten
    rw [rest.2 unwritten.2, first.2 unwritten.1]

omit [DecidableEq J] in
theorem markUnknown_settles {row : StaleRow} {r : JobRun J} (gone : queue.getJob row.jobId = none)
    (own : row.id = r.id → row.jobId = r.jobId) {t : JobRunsTable J} {a : JobRun J} (ha : a ∈ t.rows)
    (id : a.id = r.id) :
    ∃ a' ∈ (t.markUnknown row.id).rows, a'.id = a.id ∧ a'.target = a.target ∧
      queue.Settles [row] r a.status a'.status := by
  refine ⟨_, List.mem_map.mpr ⟨a, ha, rfl⟩, ?_⟩
  simp only [Settles, List.mem_singleton, exists_eq_left, forall_eq, Writes, gone]
  by_cases same : row.id = r.id
  · have right : queue.rightStatus r = .unknown := by simp only [rightStatus, ← own same, gone]
    simp only [id, same, decide_true, if_true, right, not_true_eq_false, false_implies, and_true, implies_true]
    exact ⟨trivial, rfl⟩
  · have other : decide (a.id = row.id) = false := by simp [id, Ne.symm same]
    simp only [other, Bool.false_eq_true, if_false, same, false_implies, implies_true, and_self]

theorem upsert_settles {row : StaleRow} {r : JobRun J} {job : BullJob J} {run : JobRunInsert J} {ctx : UpsertContext}
    (found : queue.getJob row.jobId = some job) (formatted : snapshotRun queueName job = some run)
    (off : truthyNumber ctx.autoDeletePostgresData = none) (inQueue : r.queue = queueName) {t : JobRunsTable J}
    {a : JobRun J} (ha : a ∈ t.rows) (same : a.target = r.target)
    (mayChange : isTerminalStatus a.status = false ∨ a.status = queue.rightStatus r) :
    ∃ a' ∈ (upsertJobRuns ctx [run] t).1.rows, a'.id = a.id ∧ a'.target = a.target ∧
      queue.Settles [row] r a.status a'.status := by
  obtain ⟨named, queue', enqueued, -, status⟩ := formatJobRun_some formatted
  have jobId : run.jobId = row.jobId := Option.some.inj (named.symm.trans (getJob_id found))
  have target : run.target = some (queueName, row.jobId, job.snapshot.timestamp) := by
    rw [target_of_enqueued enqueued, queue', jobId]
  have kept : isWithinRetention run (getRetentionCutoff ctx) := by
    rw [isWithinRetention, getRetentionCutoff, off]
    rfl
  have writes : queue.Writes row r ↔ r.target = some (queueName, row.jobId, job.snapshot.timestamp) := by
    simp only [Writes, found, JobRun.target, Option.map_eq_some_iff, Prod.mk.injEq, inQueue, true_and]
    constructor
    · rintro ⟨jobId', enqueuedAt⟩
      exact ⟨_, enqueuedAt, jobId'.symm, rfl⟩
    · rintro ⟨moment, enqueuedAt, jobId', rfl⟩
      exact ⟨jobId'.symm, enqueuedAt⟩
  simp only [Settles, List.mem_singleton, exists_eq_left, forall_eq]
  by_cases written : queue.Writes row r
  · have right : queue.rightStatus r = run.status := by
      obtain ⟨jobId', enqueuedAt⟩ : row.jobId = r.jobId ∧ r.enqueuedAt = some job.snapshot.timestamp := by
        simpa only [Writes, found] using written
      rw [jobId'] at found
      simp only [rightStatus, found, enqueuedAt, if_true, status]
    rw [right] at mayChange ⊢
    obtain ⟨a', member, id, target', status'⟩ :=
      upsert_status target kept ha (same.trans (writes.mp written)) mayChange
    exact ⟨a', member, id, target', fun _ => status', fun unwritten => absurd written unwritten⟩
  · have other : a.target ≠ some (queueName, row.jobId, job.snapshot.timestamp) :=
      fun eq => written (writes.mpr (same.symm.trans eq))
    exact ⟨a, upsert_others target ha other, rfl, rfl, fun yes => absurd yes written, fun _ => rfl⟩

omit [DecidableEq J] in
theorem statement_eq {ctx : UpsertContext} {job : BullJob J} {run : JobRunInsert J}
    (off : truthyNumber ctx.autoDeletePostgresData = none) (formatted : snapshotRun queueName job = some run) :
    insertValues ctx [run] = [run] := by
  obtain ⟨-, -, enqueued, -, -⟩ := formatJobRun_some formatted
  have kept : isWithinRetention run (getRetentionCutoff ctx) := by
    rw [isWithinRetention, getRetentionCutoff, off]
    rfl
  have one : ∀ run' ∈ [run], run'.target = some (run.queue, run.jobId, job.snapshot.timestamp) := by
    simpa using target_of_enqueued enqueued
  rw [insertValues_one_key one]
  simp [latest, kept]

/-- What the pass makes of one row: the right status as soon as a row it gets
    through writes to it. -/
theorem checkRows_settles {r : JobRun J} (inQueue : r.queue = queueName)
    (off : ∀ row, truthyNumber (c.missing row).autoDeletePostgresData = none) {rows : List StaleRow}
    (own : ∀ row ∈ rows, row.id = r.id → row.jobId = r.jobId) {v : Visited J} {a : JobRun J} (ha : a ∈ v.table.rows)
    (id : a.id = r.id) (target : a.target = r.target)
    (mayChange : isTerminalStatus a.status = false ∨ a.status = queue.rightStatus r) :
    ∃ a' ∈ (queue.checkRows queueName rejects c rows v).table.rows, a'.id = r.id ∧
      queue.Settles (queue.reached queueName rejects rows) r a.status a'.status := by
  induction rows generalizing v a with
  | nil => exact ⟨a, ha, id, .nil r _⟩
  | cons row rest ih =>
      simp only [List.forall_mem_cons] at own
      -- one row settles, and the rest goes on from there
      have goOn : ∀ {v' : Visited J} {a' : JobRun J}, queue.passes queueName rejects row = true →
          a' ∈ v'.table.rows → a'.id = a.id → a'.target = a.target → queue.Settles [row] r a.status a'.status →
          ∃ a'' ∈ (queue.checkRows queueName rejects c rest v').table.rows, a''.id = r.id ∧
            queue.Settles (queue.reached queueName rejects (row :: rest)) r a.status a''.status := by
        intro v' a' passes member id' target' settles
        have open' : isTerminalStatus a'.status = false ∨ a'.status = queue.rightStatus r := by
          by_cases writes : ∃ row' ∈ [row], queue.Writes row' r
          · exact .inr (settles.1 writes)
          · rw [settles.2 fun row' h w => writes ⟨row', h, w⟩]
            exact mayChange
        obtain ⟨a'', member'', id'', rest'⟩ := ih own.2 member (id'.trans id) (target'.trans target) open'
        refine ⟨a'', member'', id'', ?_⟩
        rw [reached, List.takeWhile_cons_of_pos passes]
        exact settles.cons rest'
      cases found : queue.getJob row.jobId with
      | none =>
          obtain ⟨a', member, id', target', settles⟩ := markUnknown_settles found own.1 ha id
          simp only [checkRows, found]
          exact goOn (by simp only [passes, found]) member id' target' settles
      | some job =>
          cases formatted : snapshotRun queueName job with
          | none =>
              have stops : queue.reached queueName rejects (row :: rest) = [] := by
                rw [reached, List.takeWhile_cons_of_neg (by simp [passes, found, formatted])]
              simp only [checkRows, found, formatted, stops]
              exact ⟨a, ha, id, .nil r _⟩
          | some run =>
              simp only [checkRows, found, formatted, statement_eq (off row) formatted, List.any_cons, List.any_nil,
                Bool.or_false]
              cases rejected : rejects run with
              | true =>
                  have stops : queue.reached queueName rejects (row :: rest) = [] := by
                    rw [reached, List.takeWhile_cons_of_neg (by simp [passes, found, formatted, rejected])]
                  simp only [if_true, stops]
                  exact ⟨a, ha, id, .nil r _⟩
              | false =>
                  obtain ⟨a', member, id', target', settles⟩ :=
                    upsert_settles found formatted (off row) inQueue ha target mayChange
                  simp only [Bool.false_eq_true, if_false]
                  exact goOn (by simp [passes, found, formatted, rejected]) member id' target' settles

/-- A selected row ends with the right status exactly when a row the pass gets
    through writes to it, or it has that status already. -/
theorem reconcileMissingNonTerminalRows_iff (selects : c.Selects queueName)
    (off : ∀ row, truthyNumber (c.missing row).autoDeletePostgresData = none) (t : JobRunsTable J) {r : JobRun J}
    (selected : r ∈ c.select t) :
    (∃ a ∈ (queue.reconcileMissingNonTerminalRows queueName rejects c { table := t }).table.rows,
      a.id = r.id ∧ a.status = queue.rightStatus r) ↔
      (∃ row ∈ queue.reached queueName rejects ((c.select t).map staleRow), queue.Writes row r) ∨
        r.status = queue.rightStatus r := by
  obtain ⟨hr, stale⟩ := List.mem_filter.mp ((selects t).mem selected)
  simp only [isStale, Bool.and_eq_true, decide_eq_true_eq, mem_nonTerminalStatuses] at stale
  have own : ∀ row ∈ (c.select t).map staleRow, row.id = r.id → row.jobId = r.jobId := by
    intro row hrow same
    obtain ⟨r', hr', rfl⟩ := List.mem_map.mp hrow
    rw [t.eq_of_id (List.mem_filter.mp ((selects t).mem hr')).1 hr same]
    rfl
  obtain ⟨a, ha, id, written, untouched⟩ :=
    checkRows_settles stale.1 off own (v := { table := t }) hr rfl rfl (.inl stale.2)
  constructor
  · rintro ⟨a', ha', id', right⟩
    obtain rfl := (queue.reconcileMissingNonTerminalRows queueName rejects c { table := t }).table.eq_of_id ha' ha
      (id'.trans id.symm)
    by_cases writes : ∃ row ∈ queue.reached queueName rejects ((c.select t).map staleRow), queue.Writes row r
    · exact .inl writes
    · exact .inr ((untouched fun row h w => writes ⟨row, h, w⟩).symm.trans right)
  · intro h
    refine ⟨a, ha, id, ?_⟩
    by_cases writes : ∃ row ∈ queue.reached queueName rejects ((c.select t).map staleRow), queue.Writes row r
    · exact written writes
    · exact (untouched fun row h w => writes ⟨row, h, w⟩).trans (h.resolve_left writes)

end BullQueue

/-- Jobs of queue `mail`, active when they were stored. -/
def activeTable (jobIds : List String) (enqueuedAt : Int) : JobRunsTable Unit :=
  (upsertJobRuns {} (jobIds.map fun jobId =>
    { mailRun .active none with jobId, enqueuedAt := .value enqueuedAt, createdAt := some enqueuedAt }) .empty).1

def activeRow (id : Nat) (jobId : String) (enqueuedAt : Int) : JobRun Unit :=
  excluded {} id { mailRun .active none with jobId, enqueuedAt := .value enqueuedAt, createdAt := some enqueuedAt }

/-- Job 1 is found to wait; behind it, job 9 is found to be gone. -/
theorem gone_job_right :
    ∃ a ∈ ((waitingQueue ["1"] none).reconcileMissingNonTerminalRows "mail" (databaseRejects fun _ => false) visitMail
      { table := activeTable ["1", "9"] 1000 }).table.rows,
      a.id = (activeRow 1 "9" 1000).id ∧ a.status = (waitingQueue ["1"] none).rightStatus (activeRow 1 "9" 1000) :=
  (BullQueue.reconcileMissingNonTerminalRows_iff visitMail_selects (fun _ => rfl) (activeTable ["1", "9"] 1000)
    (r := activeRow 1 "9" 1000) (by decide)).mpr (.inl ⟨⟨1, "9"⟩, by decide, rfl⟩)

/-- The id has a new job: the old row keeps its status, though no row is rejected. -/
theorem reused_id_not_right :
    ¬ ∀ (queue : BullQueue Unit) (queueName : String) (c : VisitContext Unit) (t : JobRunsTable Unit) (r : JobRun Unit),
      c.Selects queueName → (∀ row, truthyNumber (c.missing row).autoDeletePostgresData = none) → r ∈ c.select t →
      ∃ a ∈ (queue.reconcileMissingNonTerminalRows queueName (fun _ => false) c { table := t }).table.rows,
        a.id = r.id ∧ a.status = queue.rightStatus r := by
  intro all
  have right := all (waitingQueue ["1"] none) "mail" visitMail (activeTable ["1"] 500) (activeRow 0 "1" 500)
    visitMail_selects (fun _ => rfl) (by decide)
  revert right
  decide +kernel

end BetterBullBoard
