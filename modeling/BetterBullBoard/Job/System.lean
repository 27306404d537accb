import BetterBullBoard.Lib.Machine
import BetterBullBoard.Job.Stream
import BetterBullBoard.Job.Writers
import BetterBullBoard.Repeats.BullMq
import BetterBullBoard.Streams.Accounts

/-! # Job ingestion as a step machine

Any number of consumers of the job stream, of reconcilers and of retention tasks
run side by side, and any consumer of the group may be deleted by the cleanup of one
that starts. A step is the next statement of one of them; between any two
statements it may stop for good, by a crash or because the statement failed. A
call of `upsertJobRuns` reads the clock before it sends its statement, and
`clearData` before its `DELETE`, so both may be sent late. Retries after a deadlock
send the same rows again.
-/

namespace BetterBullBoard

variable {J : Type}

/-- `DELETE FROM job_runs WHERE created_at < ..` -/
def JobRunsTable.deleteCreatedBefore (t : JobRunsTable J) (deleteDate : Int) : JobRunsTable J where
  rows := t.rows.filter fun r => !(r.createdAt < deleteDate)
  nextId := t.nextId
  unique := t.unique.sublist List.filter_sublist
  ids := t.ids.sublist (List.filter_sublist.map _)
  fresh r hr := t.fresh r (List.mem_filter.mp hr).1

/-- Where a consumer stands in `processMessages`. -/
inductive JobConsumer (J : Type) where
  | idle
  | ackInvalid (ids : List Nat) (valid : List (Nat × JobRunInsert J))
  | delInvalid (ids : List Nat) (valid : List (Nat × JobRunInsert J))
  | upsert (valid : List (Nat × JobRunInsert J))
  | insert (values : List (JobRunInsert J)) (ids : List Nat)
  | ack (ids : List Nat)
  | del (ids : List Nat)
  deriving DecidableEq

structure JobSystem (J : Type) where
  /-- Every entry ever appended. -/
  history : List StreamMessage := []
  group : Group := {}
  runs : JobRunsTable J
  consumers : Nat → JobConsumer J := fun _ => .idle
  /-- The rows of the statement that a reconciler sends next. -/
  reconcilers : Nat → List (JobRunInsert J) := fun _ => []
  /-- The `deleteDate` of the statement that a retention task sends next. -/
  purges : Nat → Option Int := fun _ => none

inductive JobAction (J : Type) where
  | append (m : StreamMessage)
  | readNew (i : Nat) (count : Nat)
  | claim (i : Nat) (ids : List Nat)
  /-- The consumer's `upsertJobRuns` starts. -/
  | upsert (i : Nat) (dateNow : Int)
  | consumer (i : Nat) (currentTimestamp : Int)
  | consumerStops (i : Nat)
  /-- The cleanup at a start deletes the consumer that holds these entries. -/
  | delConsumer (held : List Nat)
  /-- A reconciler's `upsertJobRuns` starts, for jobs that BullMQ returned. -/
  | reconcile (i : Nat) (dateNow : Int) (queueName : String) (jobs : List (BullJob J))
  | reconciler (i : Nat) (currentTimestamp : Int)
  | reconcilerStops (i : Nat)
  | markUnknown (id : Nat)
  | markCancelled (jobId queue : String)
  /-- A retention task starts. -/
  | clearData (i : Nat) (dateNow : Int)
  | deleteData (i : Nat)
  | clearDataStops (i : Nat)

/-- The reading that a step makes for a retention cutoff. -/
def JobAction.reading : JobAction J → Option Int
  | .upsert _ dateNow | .reconcile _ dateNow _ _ | .clearData _ dateNow => some dateNow
  | _ => none

/-- What a consumer that the step deletes holds. -/
def JobAction.held : JobAction J → List Nat
  | .delConsumer held => held
  | _ => []

namespace JobSystem

def setConsumer (s : JobSystem J) (i : Nat) (c : JobConsumer J) : JobSystem J :=
  { s with consumers := Function.update s.consumers i c }

def setReconciler (s : JobSystem J) (i : Nat) (values : List (JobRunInsert J)) : JobSystem J :=
  { s with reconcilers := Function.update s.reconcilers i values }

def setPurge (s : JobSystem J) (i : Nat) (deleteDate : Option Int) : JobSystem J :=
  { s with purges := Function.update s.purges i deleteDate }

variable (parseJobSyncEvent : String → Option (JobSyncEvent J)) (autoDeletePostgresData : Option Int)
  (localeCompare : String → String → Ordering)

def context (dateNow currentTimestamp : Int) : UpsertContext :=
  { autoDeletePostgresData, dateNow, currentTimestamp, localeCompare }

/-- The branch `processMessages` takes on the messages it was given. -/
def startProcessing (messages : List StreamMessage) : JobConsumer J :=
  let invalidIds := (messages.filter fun m => (validRun parseJobSyncEvent m).isNone).map (·.id)
  let valid := messages.filterMap (validRun parseJobSyncEvent)
  if invalidIds ≠ [] then .ackInvalid invalidIds valid
  else if valid = [] then .idle
  else .upsert valid

variable [DecidableEq J]

/-- The next statement of a consumer. -/
def consumerStep (s : JobSystem J) (i : Nat) (currentTimestamp : Int) : JobConsumer J → Option (JobSystem J)
  | .idle | .upsert _ => none
  | .ackInvalid ids valid => some ({ s with group := s.group.ack ids }.setConsumer i (.delInvalid ids valid))
  | .delInvalid ids valid =>
      some ({ s with group := s.group.delete ids }.setConsumer i (if valid = [] then .idle else .upsert valid))
  | .insert values ids =>
      some ({ s with
        runs := (JobRunsTable.insertOnConflict (context autoDeletePostgresData localeCompare 0 currentTimestamp)
          values s.runs).1 }.setConsumer i (.ack ids))
  | .ack ids => some ({ s with group := s.group.ack ids }.setConsumer i (.del ids))
  | .del ids => some ({ s with group := s.group.delete ids }.setConsumer i .idle)

def step (s : JobSystem J) : JobAction J → Option (JobSystem J)
  | .append m =>
      if 0 < m.id ∧ ∀ m' ∈ s.history, m'.id < m.id then
        some { s with history := s.history ++ [m], group := s.group.add m }
      else none
  | .readNew i count =>
      if s.consumers i = .idle then
        some ({ s with group := s.group.deliver count }.setConsumer i
          (startProcessing parseJobSyncEvent (s.group.newMessages count)))
      else none
  | .claim i ids =>
      if s.consumers i = .idle then
        some (s.setConsumer i (startProcessing parseJobSyncEvent (s.group.claimed ids)))
      else none
  | .upsert i dateNow =>
      match s.consumers i with
      | .upsert valid =>
          let values := insertValues (context autoDeletePostgresData localeCompare dateNow 0) (valid.map (·.2))
          let ids := valid.map (·.1)
          some (s.setConsumer i (if values = [] then .ack ids else .insert values ids))
      | _ => none
  | .consumer i currentTimestamp =>
      consumerStep autoDeletePostgresData localeCompare s i currentTimestamp (s.consumers i)
  | .consumerStops i => some (s.setConsumer i .idle)
  | .delConsumer held => some { s with group := s.group.delConsumer held }
  | .reconcile i dateNow queueName jobs =>
      if s.reconcilers i = [] then
        match jobs.mapM (snapshotRun queueName) with
        | none => some s
        | some runs => some (s.setReconciler i
            (insertValues (context autoDeletePostgresData localeCompare dateNow 0) runs))
      else none
  | .reconciler i currentTimestamp =>
      some ({ s with
        runs := (JobRunsTable.insertOnConflict (context autoDeletePostgresData localeCompare 0 currentTimestamp)
          (s.reconcilers i) s.runs).1 }.setReconciler i [])
  | .reconcilerStops i => some (s.setReconciler i [])
  | .markUnknown id => some { s with runs := s.runs.markUnknown id }
  | .markCancelled jobId queue => some { s with runs := s.runs.markCancelled jobId queue }
  | .clearData i dateNow =>
      match truthyNumber autoDeletePostgresData with
      | none => none
      | some retention => some (s.setPurge i (some (dateNow - retention)))
  | .deleteData i =>
      match s.purges i with
      | none => none
      | some deleteDate => some ({ s with runs := s.runs.deleteCreatedBefore deleteDate }.setPurge i none)
  | .clearDataStops i => some (s.setPurge i none)

end JobSystem

end BetterBullBoard
