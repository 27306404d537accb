import BetterBullBoard.Lib.Limit
import BetterBullBoard.Lib.Machine
import BetterBullBoard.Lib.RoundRobin
import BetterBullBoard.Lib.Utf16
import BetterBullBoard.Job.Writers
import BetterBullBoard.Repeats.BullMq

/-! # Ticks of the job reconciliation

A tick selects the queues whose turn it is and visits them side by side. A visit
upserts the jobs BullMQ retains, selects a page of rows without a terminal
status, and looks up the job of each. Steps of visits interleave in any way; a
visit ends early when a job cannot be formatted. Nothing else writes: BullMQ and
the table of queues are fixed, and the locks are free.
-/

namespace BetterBullBoard

variable {J : Type}

/-- The queues of a tick and the next cursor. -/
def selectQueueBatch (maxQueuesPerTick : Nat) (queueNames : List String) (queueCursor : Nat) : List String × Nat :=
  if queueNames.length ≤ maxQueuesPerTick then (queueNames, queueCursor)
  else
    ((RoundRobin.window maxQueuesPerTick queueNames queueCursor).filter (· ≠ ""),
      RoundRobin.advance maxQueuesPerTick queueNames.length queueCursor)

/-- Where the visit of a queue stands. -/
inductive Visit where
  | idle
  | retained
  | missing
  | rows (staleRows : List StaleRow)
  deriving Repr, DecidableEq

/-- What stays fixed while only the reconciliation runs. -/
structure Reconciled (J : Type) where
  bullMq : String → BullQueue J
  queueNames : List String
  pageSize : Nat
  maxQueuesPerTick : Nat

structure Reconciliation (J : Type) where
  table : JobRunsTable J
  queueCursor : Nat := 0
  batch : List String := []
  visits : String → Visit := fun _ => .idle

inductive ReconcileAction (J : Type) where
  /-- A tick starts, with the order in which its query returns the names. -/
  | tick (names : List String)
  | retained (queueName : String) (ctx : UpsertContext)
  /-- The rows that the unordered limit returns. -/
  | missing (queueName : String) (returned : List (JobRun J))
  | row (queueName : String) (ctx : UpsertContext)
  | close (queueName : String)

namespace Reconciliation

/-- No visit is in progress. -/
def AtRest (s : Reconciliation J) : Prop := ∀ queueName ∈ s.batch, s.visits queueName = .idle

instance (s : Reconciliation J) : Decidable s.AtRest := inferInstanceAs (Decidable (∀ _ ∈ _, _))

def setVisit (s : Reconciliation J) (queueName : String) (v : Visit) : Reconciliation J :=
  { s with visits := Function.update s.visits queueName v }

/-- `mapWithConcurrency` skips an empty name. -/
def startTick (env : Reconciled J) (s : Reconciliation J) (names : List String) : Reconciliation J :=
  let selected := selectQueueBatch env.maxQueuesPerTick (Utf16.sort names) s.queueCursor
  let batch := selected.1.filter (· ≠ "")
  { s with queueCursor := selected.2, batch, visits := fun q => if q ∈ batch then .retained else .idle }

variable [DecidableEq J] (env : Reconciled J)

/-- One row of the loop of `reconcileMissingNonTerminalRows`. -/
def checkRow (s : Reconciliation J) (queueName : String) (ctx : UpsertContext) (row : StaleRow)
    (rest : List StaleRow) : Reconciliation J :=
  match (env.bullMq queueName).getJob row.jobId with
  | none => { s with table := s.table.markUnknown row.id }.setVisit queueName (.rows rest)
  | some job =>
      match snapshotRun queueName job with
      | none => s.setVisit queueName .idle
      | some run => { s with table := (upsertJobRuns ctx [run] s.table).1 }.setVisit queueName (.rows rest)

def step (s : Reconciliation J) : ReconcileAction J → Option (Reconciliation J)
  | .tick names => if names.Perm env.queueNames ∧ s.AtRest then some (s.startTick env names) else none
  | .retained queueName ctx =>
      match s.visits queueName with
      | .retained =>
          match (env.bullMq queueName).retainedRuns queueName env.pageSize with
          | none => some (s.setVisit queueName .idle)
          | some runs => some ({ s with table := (upsertJobRuns ctx runs s.table).1 }.setVisit queueName .missing)
      | _ => none
  | .missing queueName returned =>
      if s.visits queueName = .missing ∧
          Limit.Returns env.pageSize (s.table.rows.filter (isStale queueName)) returned then
        some (s.setVisit queueName (.rows (returned.map fun r => ⟨r.id, r.jobId⟩)))
      else none
  | .row queueName ctx =>
      match s.visits queueName with
      | .rows (row :: rest) => some (s.checkRow env queueName ctx row rest)
      | _ => none
  | .close queueName =>
      match s.visits queueName with
      | .rows [] => some (s.setVisit queueName .idle)
      | _ => none

end Reconciliation

end BetterBullBoard
