import BetterBullBoard.Job.Schema
import BetterBullBoard.Tables.ColumnTypes

/-! # From a BullMQ snapshot to a row

`formatJobRun` of `sync/job-format.ts`. A snapshot is `job.toJSON()`; its
numbers are whole, as BullMQ writes them. `jobRunsInsertSchema` checks what the
columns can hold: 16 bits for a smallint, 32 for an integer, and a date in the
range of `Date`.
-/

namespace BetterBullBoard

variable {J : Type}

inductive JobSyncPhase where
  | waiting | active | terminal | snapshot
  deriving Repr, DecidableEq

/-- `job.opts`, the fields that are read. -/
structure JobOpts (J : Type) where
  attempts : Option Int := none
  priority : Option Int := none
  delay : Option Int := none
  backoff : Option J := none
  parentId : Option String := none
  deriving Repr, DecidableEq

structure JobSnapshot (J : Type) where
  id : Option String
  name : Option String := none
  data : Option J := none
  opts : JobOpts J := {}
  attemptsMade : Int := 0
  timestamp : Int
  processedOn : Option Int := none
  finishedOn : Option Int := none
  failedReason : Option String := none
  stacktrace : Option (List String) := none
  returnvalue : Option J := none
  repeatJobKey : Option String := none
  deriving Repr, DecidableEq

/-- A number is truthy unless it is missing or zero. -/
def truthyNumber : Option Int → Option Int
  | some 0 => none
  | n => n

/-- A string is truthy unless it is missing or empty. -/
def truthyString : Option String → Option String
  | some "" => none
  | s => s

theorem truthyString_eq_some {text : Option String} {s : String} :
    truthyString text = some s ↔ text = some s ∧ s ≠ "" := by
  unfold truthyString
  split
  · simp only [reduceCtorEq, false_iff, not_and, not_not]
    exact fun same => (Option.some.inj same).symm
  · rename_i nonempty
    refine ⟨fun same => ⟨same, ?_⟩, And.left⟩
    rintro rfl
    exact nonempty same

def bullStateToPersistedStatus : Option String → Option JobStatus
  | some "completed" => some .completed
  | some "failed" => some .failed
  | some "active" => some .active
  | some "waiting" => some .waiting
  | some "delayed" => some .delayed
  | some "prioritized" => some .prioritized
  | some "waiting-children" => some .waitingChildren
  | some "wait" => some .waiting
  | some "paused" => some .waiting
  | _ => none

def getStatusFromSnapshot (job : JobSnapshot J) (phase : Option JobSyncPhase) (state : Option String) :
    JobStatus :=
  match bullStateToPersistedStatus state with
  | some persistedState => persistedState
  | none =>
      match truthyNumber job.finishedOn with
      | some _ => if (truthyString job.failedReason).isSome then .failed else .completed
      | none => if phase = some .waiting then .waiting else .active

/-- The largest distance from the epoch a `Date` can represent. -/
def maxDate : Int := 8640000000000000

def validDate (ms : Int) : Bool := decide (-maxDate ≤ ms ∧ ms ≤ maxDate)

/-- The checks of `jobRunsInsertSchema.parse` that a formatted run can fail. -/
def jobRunsInsertSchema (run : JobRunInsert J) : Bool :=
  run.attempt.all smallint && run.maxAttempts.all smallint && run.priority.all integer &&
    run.delayMs.all integer && run.enqueuedAt.toOption.all validDate && run.createdAt.all validDate &&
    run.startedAt.all validDate && run.finishedAt.all validDate

/-- The row of a snapshot, or none where the source throws. -/
def formatJobRun (job : JobSnapshot J) (queueName : String) (workerId : Option String)
    (tags : Nullish (List String)) (phase : Option JobSyncPhase) (state : Option String) :
    Option (JobRunInsert J) :=
  match truthyString job.id with
  | none => none
  | some jobId =>
      let enqueuedAt := job.timestamp
      let formatted : JobRunInsert J := {
        workerId
        jobId
        queue := queueName
        status := getStatusFromSnapshot job phase state
        attempt := some job.attemptsMade
        maxAttempts := job.opts.attempts
        priority := job.opts.priority
        delayMs := job.opts.delay
        backoff := job.opts.backoff
        data := job.data
        enqueuedAt := .value enqueuedAt
        startedAt := truthyNumber job.processedOn
        finishedAt := truthyNumber job.finishedOn
        errorMessage := job.failedReason
        errorStack := job.stacktrace.map fun lines => String.intercalate "\n" lines
        name := job.name
        parentJobId := job.opts.parentId
        repeatJobKey := job.repeatJobKey
        result := job.returnvalue
        tags
        createdAt := some enqueuedAt }
      if jobRunsInsertSchema formatted then some formatted else none

/-- A formatted run names its queue, carries its snapshot's time twice and has
    the status of its snapshot. -/
theorem formatJobRun_some {job : JobSnapshot J} {queueName workerId tags phase state run}
    (h : formatJobRun job queueName workerId tags phase state = some run) :
    truthyString job.id = some run.jobId ∧ run.queue = queueName ∧
      run.enqueuedAt = .value job.timestamp ∧ run.createdAt = some job.timestamp ∧
      run.status = getStatusFromSnapshot job phase state := by
  unfold formatJobRun at h
  cases hid : truthyString job.id with
  | none => simp [hid] at h
  | some jobId =>
      simp only [hid] at h
      split at h
      · obtain rfl := Option.some.inj h
        exact ⟨rfl, rfl, rfl, rfl, rfl⟩
      · simp at h

/-- Job 1 of queue `mail`, enqueued at 1000. -/
def mailJob (finishedOn : Option Int) : JobSnapshot Unit :=
  { id := some "1", timestamp := 1000, finishedOn }

def mailRun (status : JobStatus) (finishedAt : Option Int) : JobRunInsert Unit :=
  { jobId := "1", queue := "mail", status, attempt := some 0, enqueuedAt := .value 1000,
    createdAt := some 1000, finishedAt }

example : formatJobRun (mailJob (some 2000)) "mail" none .undefined (some .terminal) none =
    some (mailRun .completed (some 2000)) := by decide

example : formatJobRun (mailJob none) "mail" none .undefined (some .waiting) (some "waiting") =
    some (mailRun .waiting none) := by decide

end BetterBullBoard
