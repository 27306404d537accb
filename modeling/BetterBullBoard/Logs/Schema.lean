import BetterBullBoard.Lib.UniqueIndex
import BetterBullBoard.Job.Schema

/-! # Log events and their two tables

`job_logs` holds the rows of known runs; `job_log_buffer` holds events that
arrive before their run. Each has its own uniqueness constraint, and both drop a
conflicting row.
-/

namespace BetterBullBoard

inductive LogLevel where
  | log | debug | info | warn | error
  deriving Repr, DecidableEq

/-- A parsed payload of the log stream. -/
structure LogSyncEvent where
  workerId : String
  queueName : String
  jobId : String
  jobTimestamp : Int
  logTimestamp : Int
  logSeq : Int
  level : LogLevel
  message : String
  deriving Repr, DecidableEq

/-- `id` is the stream entry or the buffer row the event comes from. -/
structure LogEventForPersistence where
  id : Option Nat
  jobId : String
  jobTimestamp : Int
  level : LogLevel
  logSeq : Int
  logTimestamp : Int
  message : String
  queue : String
  deriving Repr, DecidableEq

structure ResolvedLogEvent extends LogEventForPersistence where
  jobRunId : Nat
  deriving Repr, DecidableEq

/-- What makes two log lines the same line: the run, the time and the counter. -/
structure LogIdentity where
  queue : String
  jobId : String
  jobTimestamp : Int
  logTimestamp : Int
  logSeq : Int
  deriving Repr, DecidableEq

def LogEventForPersistence.identity (e : LogEventForPersistence) : LogIdentity :=
  ⟨e.queue, e.jobId, e.jobTimestamp, e.logTimestamp, e.logSeq⟩

/-- The conflict target of the run an event belongs to. -/
def LogIdentity.run (l : LogIdentity) : String × String × Int := (l.queue, l.jobId, l.jobTimestamp)

structure JobLog where
  jobRunId : Nat
  level : LogLevel
  message : String
  ts : Int
  logSeq : Int
  deriving Repr, DecidableEq

/-- The columns of `ux_job_logs_run_ts_seq`. -/
def JobLog.target (r : JobLog) : Option (Nat × Int × Int) := some (r.jobRunId, r.ts, r.logSeq)

structure JobLogBufferRow where
  id : Nat
  queue : String
  jobId : String
  jobTimestamp : Int
  logTimestamp : Int
  logSeq : Int
  level : LogLevel
  message : String
  createdAt : Int
  deriving Repr, DecidableEq

/-- The columns of `ux_job_log_buffer_identity`. -/
def JobLogBufferRow.identity (r : JobLogBufferRow) : LogIdentity :=
  ⟨r.queue, r.jobId, r.jobTimestamp, r.logTimestamp, r.logSeq⟩

/-- The event a buffered row is read back as. -/
def JobLogBufferRow.event (r : JobLogBufferRow) : LogEventForPersistence :=
  { id := some r.id, queue := r.queue, jobId := r.jobId, jobTimestamp := r.jobTimestamp,
    logTimestamp := r.logTimestamp, logSeq := r.logSeq, level := r.level, message := r.message }

@[simp] theorem JobLogBufferRow.event_identity (r : JobLogBufferRow) : r.event.identity = r.identity := rfl

structure JobLogsTable where
  rows : List JobLog
  unique : UniqueIndex.Unique JobLog.target rows

structure JobLogBufferTable where
  rows : List JobLogBufferRow
  nextId : Nat
  unique : UniqueIndex.Unique (fun r : JobLogBufferRow => some r.identity) rows
  ids : (rows.map (·.id)).Nodup
  fresh : ∀ r ∈ rows, r.id < nextId

namespace JobLogsTable

def empty : JobLogsTable := ⟨[], .nil⟩

/-- `INSERT INTO job_logs .. ON CONFLICT DO NOTHING`, one row. -/
def insertRow (t : JobLogsTable) (row : JobLog) : JobLogsTable :=
  ⟨UniqueIndex.doNothing JobLog.target row t.rows, t.unique.doNothing⟩

/-- The statement for several rows. -/
def insert (t : JobLogsTable) (rows : List JobLog) : JobLogsTable := rows.foldl insertRow t

theorem mem_insertRow {t : JobLogsTable} {row x : JobLog} :
    x ∈ (t.insertRow row).rows ↔
      x ∈ t.rows ∨ (x = row ∧ ∀ r ∈ t.rows, ¬ UniqueIndex.Clash JobLog.target r row) :=
  UniqueIndex.mem_doNothing t.unique

/-- A row stays, and the key of every inserted row is held afterwards. -/
theorem insert_holds (t : JobLogsTable) (rows : List JobLog) :
    (∀ r ∈ t.rows, r ∈ (t.insert rows).rows) ∧
      ∀ row ∈ rows, ∃ r ∈ (t.insert rows).rows, r.target = row.target := by
  induction rows generalizing t with
  | nil => exact ⟨fun r hr => hr, by simp⟩
  | cons row rows ih =>
      obtain ⟨stay, held⟩ := ih (t.insertRow row)
      refine ⟨fun r hr => stay r (mem_insertRow.mpr (.inl hr)), ?_⟩
      intro new hnew
      cases List.mem_cons.mp hnew with
      | inl same =>
          obtain ⟨r, hr, target⟩ := UniqueIndex.doNothing_holds t.unique row
          exact ⟨r, stay r hr, same ▸ target⟩
      | inr later => exact held new later

theorem mem_insert {t : JobLogsTable} {rows : List JobLog} {x : JobLog} (h : x ∈ (t.insert rows).rows) :
    x ∈ t.rows ∨ x ∈ rows := by
  induction rows generalizing t with
  | nil => exact .inl h
  | cons row rows ih =>
      cases ih h with
      | inl old =>
          cases mem_insertRow.mp old with
          | inl older => exact .inl older
          | inr new => exact .inr (by simp [new.1])
      | inr later => exact .inr (List.mem_cons_of_mem _ later)

end JobLogsTable

namespace JobLogBufferTable

def empty : JobLogBufferTable := ⟨[], 0, .nil, List.nodup_nil, by simp⟩

/-- The row of an unresolved event. -/
def row (id : Nat) (now : Int) (e : LogEventForPersistence) : JobLogBufferRow :=
  { id, queue := e.queue, jobId := e.jobId, jobTimestamp := e.jobTimestamp, logTimestamp := e.logTimestamp,
    logSeq := e.logSeq, level := e.level, message := e.message, createdAt := now }

theorem eq_of_id (t : JobLogBufferTable) {a b : JobLogBufferRow} (ha : a ∈ t.rows) (hb : b ∈ t.rows)
    (same : a.id = b.id) : a = b := List.inj_on_of_nodup_map t.ids ha hb same

/-- `INSERT INTO job_log_buffer .. ON CONFLICT DO NOTHING`, one row. -/
def insertRow (now : Int) (t : JobLogBufferTable) (e : LogEventForPersistence) : JobLogBufferTable where
  rows := UniqueIndex.doNothing (fun r : JobLogBufferRow => some r.identity) (row t.nextId now e) t.rows
  nextId := t.nextId + 1
  unique := t.unique.doNothing
  ids := UniqueIndex.nodup_doUpdate t.unique (fun _ => rfl) t.ids fun r hr => Nat.ne_of_lt (t.fresh r hr)
  fresh := by
    intro r hr
    cases (UniqueIndex.mem_doNothing t.unique).mp hr with
    | inl old => exact Nat.lt_succ_of_lt (t.fresh r old)
    | inr new => simp [new.1, row]

/-- The statement for several events. -/
def insert (now : Int) (t : JobLogBufferTable) (events : List LogEventForPersistence) : JobLogBufferTable :=
  events.foldl (insertRow now) t

/-- `DELETE FROM job_log_buffer WHERE id IN (..)` -/
def delete (t : JobLogBufferTable) (ids : List Nat) : JobLogBufferTable where
  rows := t.rows.filter fun r => r.id ∉ ids
  nextId := t.nextId
  unique := t.unique.sublist List.filter_sublist
  ids := t.ids.sublist (List.filter_sublist.map _)
  fresh := fun r hr => t.fresh r (List.mem_filter.mp hr).1

theorem mem_insertRow {now : Int} {t : JobLogBufferTable} {e : LogEventForPersistence} {x : JobLogBufferRow} :
    x ∈ (t.insertRow now e).rows ↔ x ∈ t.rows ∨
      (x = row t.nextId now e ∧ ∀ r ∈ t.rows,
        ¬ UniqueIndex.Clash (fun r : JobLogBufferRow => some r.identity) r (row t.nextId now e)) :=
  UniqueIndex.mem_doNothing t.unique

theorem mem_delete {t : JobLogBufferTable} {ids : List Nat} {x : JobLogBufferRow} :
    x ∈ (t.delete ids).rows ↔ x ∈ t.rows ∧ x.id ∉ ids := by
  simp [delete]

/-- A row stays, and the identity of every inserted event is held afterwards. -/
theorem insert_holds (now : Int) (t : JobLogBufferTable) (events : List LogEventForPersistence) :
    (∀ r ∈ t.rows, r ∈ (t.insert now events).rows) ∧
      ∀ e ∈ events, ∃ r ∈ (t.insert now events).rows, r.identity = e.identity := by
  induction events generalizing t with
  | nil => exact ⟨fun r hr => hr, by simp⟩
  | cons e events ih =>
      obtain ⟨stay, held⟩ := ih (t.insertRow now e)
      refine ⟨fun r hr => stay r (mem_insertRow.mpr (.inl hr)), ?_⟩
      intro new hnew
      cases List.mem_cons.mp hnew with
      | inl same =>
          obtain ⟨r, hr, target⟩ := UniqueIndex.doNothing_holds t.unique (row t.nextId now e)
          exact ⟨r, stay r hr, same ▸ Option.some.inj target⟩
      | inr later => exact held new later

/-- Rows inserted now have new ids and carry an event of the statement. -/
theorem mem_insert {now : Int} {t : JobLogBufferTable} {events : List LogEventForPersistence}
    {x : JobLogBufferRow} (h : x ∈ (t.insert now events).rows) :
    x ∈ t.rows ∨ (t.nextId ≤ x.id ∧ ∃ e ∈ events, x = row x.id now e) := by
  induction events generalizing t with
  | nil => exact .inl h
  | cons e events ih =>
      cases ih h with
      | inl old =>
          cases mem_insertRow.mp old with
          | inl older => exact .inl older
          | inr new =>
              obtain ⟨rfl, -⟩ := new
              exact .inr ⟨Nat.le_refl _, e, by simp, rfl⟩
      | inr later =>
          obtain ⟨bound, e', he', eq⟩ := later
          exact .inr ⟨Nat.le_of_succ_le bound, e', List.mem_cons_of_mem _ he', eq⟩

theorem nextId_insert (now : Int) (t : JobLogBufferTable) (events : List LogEventForPersistence) :
    t.nextId ≤ (t.insert now events).nextId := by
  induction events generalizing t with
  | nil => exact Nat.le_refl _
  | cons e events ih => exact Nat.le_of_succ_le (ih (t.insertRow now e))

end JobLogBufferTable

end BetterBullBoard
