import BetterBullBoard.Core.Mutations
import BetterBullBoard.Queues.Scan

/-! # Pausing, resuming and deleting queues

BullMQ keeps in Redis whether a queue is paused, and `queues` keeps it for the pages.
A call changes Redis first and the table after it, a pass of the ingestion copies
Redis to the table, and others change Redis as they like. Each query and each command
is a step, and a call or a pass may end at any of them. The names of a pass are taken
in any order here; its schedulers are left out, as they leave `queues` alone.
-/

namespace BetterBullBoard

/-- What BullMQ keeps of the queues: which of them have an id key, and which are
    paused. -/
structure BullQueues where
  known : List String
  isPaused : String → Bool

namespace BullQueues

/-- `pause()` and `resume()` -/
def setPaused (redis : BullQueues) (queueName : String) (isPaused : Bool) : BullQueues :=
  { redis with isPaused := Function.update redis.isPaused queueName isPaused }

/-- `obliterate({ force: true })`, after it has paused the queue. -/
def obliterate (redis : BullQueues) (queueName : String) : BullQueues where
  known := redis.known.filter (· ≠ queueName)
  isPaused := Function.update redis.isPaused queueName false

end BullQueues

/-! ## Calls -/

inductive QueueMutation where
  | pause
  | resume
  | delete
  deriving Repr, DecidableEq

structure QueueMutationInput where
  queueName : String
  deriving Repr, DecidableEq

/-- `queueMutationInputSchema` -/
def queueMutationInputIssues (input : QueueMutationInput) : List ZodIssue :=
  if input.queueName = "" then [.tooSmall ["queueName"] 1] else []

def QueueMutation.participle : QueueMutation → String
  | pause => "paused"
  | resume => "resumed"
  | delete => "deleted"

def QueueMutation.result (mutation : QueueMutation) (queueName : String) : MutationResult where
  success := true
  message := "Queue " ++ queueName ++ " has been " ++ mutation.participle ++ " successfully"

/-- Where a call of `pauseQueue`, `resumeQueue` or `deleteQueue` is. -/
inductive QueueCall where
  | idle
  | resolved (mutation : QueueMutation) (queueName : String)
  | obliterating (queueName : String)
  /-- Redis is changed, the table not yet. -/
  | changed (mutation : QueueMutation) (queueName : String)
  | settled (result : Except CoreError MutationResult)

/-- A call up to its first query, which reads the tracked names. -/
def withResolvedQueue (names : List String) (mutation : QueueMutation) (input : QueueMutationInput) : QueueCall :=
  match parse queueMutationInputIssues input with
  | .error error => .settled (.error error)
  | .ok input =>
      match resolveTrackedQueueName names input.queueName with
      | .error error => .settled (.error error)
      | .ok resolvedQueueName => .resolved mutation resolvedQueueName

namespace QueuesDb

def setPausedRow (name : String) (isPaused : Bool) (q : QueueRow) : QueueRow :=
  if q.name = name then { q with isPaused } else q

theorem setPausedRow_id (name : String) (isPaused : Bool) (q : QueueRow) :
    (setPausedRow name isPaused q).id = q.id := by
  unfold setPausedRow
  split <;> rfl

theorem setPausedRow_name (name : String) (isPaused : Bool) (q : QueueRow) :
    (setPausedRow name isPaused q).name = q.name := by
  unfold setPausedRow
  split <;> rfl

/-- `UPDATE queues SET is_paused = .. WHERE name = ..` -/
def setPaused (db : QueuesDb) (name : String) (isPaused : Bool) : QueuesDb where
  queues := db.queues.map (setPausedRow name isPaused)
  jobSchedulers := db.jobSchedulers
  nextId := db.nextId
  ids := by simpa only [List.map_map, Function.comp_def, setPausedRow_id] using db.ids
  below q hq := by
    obtain ⟨old, member, rfl⟩ := List.mem_map.mp hq
    exact setPausedRow_id name isPaused old ▸ db.below old member
  names := by simpa only [List.map_map, Function.comp_def, setPausedRow_name] using db.names
  keys := db.keys
  texts := db.texts
  references r hr := by
    obtain ⟨q, hq, id⟩ := db.references r hr
    exact ⟨setPausedRow name isPaused q, List.mem_map_of_mem hq, (setPausedRow_id name isPaused q).trans id⟩

def updateTrackedQueuePausedState (db : QueuesDb) (queueName : String) (isPaused : Bool) : Except CoreError QueuesDb :=
  if db.queues.any (·.name = queueName) then .ok (db.setPaused queueName isPaused)
  else .error (.error ("Queue " ++ queueName ++ " not found"))

/-- The query that follows the change of Redis. -/
def applyMutation (db : QueuesDb) (queueName : String) : QueueMutation → Except CoreError QueuesDb
  | .pause => db.updateTrackedQueuePausedState queueName true
  | .resume => db.updateTrackedQueuePausedState queueName false
  | .delete => .ok (db.deleteQueues fun q => q.name = queueName)

end QueuesDb

/-! ## Passes -/

/-- Where `upsertQueue` is for one name. -/
inductive UpsertTask where
  | starting
  | selecting (isPaused : Bool)
  | writing (isPaused : Bool) (existing : Option QueueRow)
  | done
  | failed

inductive QueuePass where
  | idle
  /-- Redis at every moment since the scan began. -/
  | scanning (moments : List BullQueues)
  | deleting (scan : QueueScan)
  | ingesting (scan : QueueScan) (tasks : String → UpsertTask)

/-- What a scan over these moments may find. -/
def Finds (moments : List BullQueues) (scan : QueueScan) : Prop :=
  (∀ queueName ∈ scan.allQueuesNames, ∃ redis ∈ moments, queueName ∈ redis.known) ∧
    (scan.complete = true → ∀ queueName ∈ (moments.map (·.known)).flatten,
      (∀ redis ∈ moments, queueName ∈ redis.known) → queueName ∈ scan.allQueuesNames)

instance (moments : List BullQueues) (scan : QueueScan) : Decidable (Finds moments scan) :=
  inferInstanceAs (Decidable (_ ∧ _))

/-- A queue created with no options of its own has no default ones. -/
def upsertParams (queueName : String) (isPaused : Bool) : QueueInsert :=
  { name := queueName, defaultJobOptions := .object [], isPaused }

/-- The next step of `upsertQueue`, for a name Postgres can hold. -/
def stepUpsert (redis : BullQueues) (queueName : String) (db : QueuesDb) : UpsertTask → Option (QueuesDb × UpsertTask)
  | .starting => some (db, .selecting (redis.isPaused queueName))
  | .selecting isPaused => some (db, .writing isPaused (db.selectQueue queueName))
  | .writing isPaused existing =>
      match db.upsertQueue .none (upsertParams queueName isPaused) existing with
      | (db', .failed) => some (db', .failed)
      | (db', _) => some (db', .done)
  | .done | .failed => none

/-! ## The system -/

structure QueueControl where
  redis : BullQueues
  /-- Redis before each of its changes, the latest first. -/
  past : List BullQueues := []
  db : QueuesDb
  calls : Nat → QueueCall := fun _ => .idle
  passes : Nat → QueuePass := fun _ => .idle

inductive ControlAction where
  /-- Workers and other tools change Redis. -/
  | redis (redis : BullQueues)
  /-- A call reads the tracked names, in some order. -/
  | request (i : Nat) (mutation : QueueMutation) (input : QueueMutationInput) (names : List String)
  | act (i : Nat)
  /-- A command or query of the call fails. -/
  | fails (i : Nat) (message : String)
  | scan (i : Nat)
  | scanned (i : Nat) (scan : QueueScan)
  | deleteMissing (i : Nat)
  | upsert (i : Nat) (queueName : String)
  | upsertFails (i : Nat) (queueName : String)
  /-- The pass ends, at its end or before it. -/
  | leave (i : Nat)

namespace QueuePass

/-- A scan under way sees Redis change. -/
def see (redis : BullQueues) : QueuePass → QueuePass
  | scanning moments => scanning (redis :: moments)
  | pass => pass

end QueuePass

namespace QueueControl

def change (s : QueueControl) (redis : BullQueues) : QueueControl :=
  { s with redis, past := s.redis :: s.past, passes := fun i => (s.passes i).see redis }

def setCall (s : QueueControl) (i : Nat) (call : QueueCall) : QueueControl :=
  { s with calls := Function.update s.calls i call }

def setPass (s : QueueControl) (i : Nat) (pass : QueuePass) : QueueControl :=
  { s with passes := Function.update s.passes i pass }

/-- The next command or query of a call. -/
def act (s : QueueControl) (i : Nat) : Option QueueControl :=
  match s.calls i with
  | .resolved .pause queueName =>
      some ((s.change (s.redis.setPaused queueName true)).setCall i (.changed .pause queueName))
  | .resolved .resume queueName =>
      some ((s.change (s.redis.setPaused queueName false)).setCall i (.changed .resume queueName))
  | .resolved .delete queueName =>
      some ((s.change (s.redis.setPaused queueName true)).setCall i (.obliterating queueName))
  | .obliterating queueName =>
      some ((s.change (s.redis.obliterate queueName)).setCall i (.changed .delete queueName))
  | .changed mutation queueName =>
      match s.db.applyMutation queueName mutation with
      | .ok db => some ({ s with db }.setCall i (.settled (.ok (mutation.result queueName))))
      | .error error => some (s.setCall i (.settled (.error error)))
  | .idle | .settled _ => none

def step (s : QueueControl) : ControlAction → Option QueueControl
  | .redis redis => some (s.change redis)
  | .request i mutation input names =>
      match s.calls i with
      | .idle =>
          if names.Perm (s.db.queues.map (·.name)) then some (s.setCall i (withResolvedQueue names mutation input))
          else none
      | _ => none
  | .act i => s.act i
  | .fails i message =>
      match s.calls i with
      | .idle | .settled _ => none
      | _ => some (s.setCall i (.settled (.error (.error message))))
  | .scan i =>
      match s.passes i with
      | .idle => some (s.setPass i (.scanning [s.redis]))
      | _ => none
  | .scanned i scan =>
      match s.passes i with
      | .scanning moments => if Finds moments scan then some (s.setPass i (.deleting scan)) else none
      | _ => none
  | .deleteMissing i =>
      match s.passes i with
      | .deleting scan =>
          some ({ s with db := scan.deleteMissing s.db }.setPass i (.ingesting scan fun _ => .starting))
      | _ => none
  | .upsert i queueName =>
      match s.passes i with
      | .ingesting scan tasks =>
          if queueName ∈ scan.allQueuesNames then
            (stepUpsert s.redis queueName s.db (tasks queueName)).map fun r =>
              { s with db := r.1 }.setPass i (.ingesting scan (Function.update tasks queueName r.2))
          else none
      | _ => none
  | .upsertFails i queueName =>
      match s.passes i with
      | .ingesting scan tasks => some (s.setPass i (.ingesting scan (Function.update tasks queueName .failed)))
      | _ => none
  | .leave i => some (s.setPass i .idle)

/-! ## What a step does -/

section

variable {s s' : QueueControl} {i : Nat} {queueName : String}

theorem request_inv {mutation : QueueMutation} {input : QueueMutationInput} {names : List String}
    (enabled : s.step (.request i mutation input names) = some s') :
    s' = s.setCall i (withResolvedQueue names mutation input) := by
  simp only [step] at enabled
  split at enabled
  · exact (Option.some.inj (Option.ite_none_right_eq_some.mp enabled).2).symm
  · cases enabled

theorem fails_inv {message : String} (enabled : s.step (.fails i message) = some s') :
    s' = s.setCall i (.settled (.error (.error message))) := by
  simp only [step] at enabled
  split at enabled
  · cases enabled
  · cases enabled
  · exact (Option.some.inj enabled).symm

theorem scan_inv (enabled : s.step (.scan i) = some s') : s' = s.setPass i (.scanning [s.redis]) := by
  simp only [step] at enabled
  split at enabled
  · exact (Option.some.inj enabled).symm
  · cases enabled

theorem scanned_inv {scan : QueueScan} (enabled : s.step (.scanned i scan) = some s') :
    ∃ moments, s.passes i = .scanning moments ∧ Finds moments scan ∧ s' = s.setPass i (.deleting scan) := by
  simp only [step] at enabled
  split at enabled
  · rename_i moments pass
    obtain ⟨finds, enabled⟩ := Option.ite_none_right_eq_some.mp enabled
    exact ⟨moments, pass, finds, (Option.some.inj enabled).symm⟩
  · cases enabled

theorem deleteMissing_inv (enabled : s.step (.deleteMissing i) = some s') :
    ∃ scan, s.passes i = .deleting scan ∧
      s' = { s with db := scan.deleteMissing s.db }.setPass i (.ingesting scan fun _ => .starting) := by
  simp only [step] at enabled
  split at enabled
  · rename_i scan pass
    exact ⟨scan, pass, (Option.some.inj enabled).symm⟩
  · cases enabled

theorem upsert_inv (enabled : s.step (.upsert i queueName) = some s') :
    ∃ scan tasks db task, s.passes i = .ingesting scan tasks ∧ queueName ∈ scan.allQueuesNames ∧
      stepUpsert s.redis queueName s.db (tasks queueName) = some (db, task) ∧
      s' = { s with db }.setPass i (.ingesting scan (Function.update tasks queueName task)) := by
  simp only [step] at enabled
  split at enabled
  · rename_i scan tasks pass
    obtain ⟨listed, enabled⟩ := Option.ite_none_right_eq_some.mp enabled
    obtain ⟨⟨db, task⟩, stepped, after⟩ := Option.map_eq_some_iff.mp enabled
    exact ⟨scan, tasks, db, task, pass, listed, stepped, after.symm⟩
  · cases enabled

theorem upsertFails_inv (enabled : s.step (.upsertFails i queueName) = some s') :
    ∃ scan tasks, s.passes i = .ingesting scan tasks ∧
      s' = s.setPass i (.ingesting scan (Function.update tasks queueName .failed)) := by
  simp only [step] at enabled
  split at enabled
  · rename_i scan tasks pass
    exact ⟨scan, tasks, pass, (Option.some.inj enabled).symm⟩
  · cases enabled

/-- A request changes nothing yet: it is refused, or has resolved its queue. -/
theorem withResolvedQueue_cases (names : List String) (mutation : QueueMutation) (input : QueueMutationInput) :
    (∃ result, withResolvedQueue names mutation input = .settled result) ∨
      ∃ queueName, withResolvedQueue names mutation input = .resolved mutation queueName := by
  unfold withResolvedQueue
  split
  · exact .inl ⟨_, rfl⟩
  · split
    · exact .inl ⟨_, rfl⟩
    · exact .inr ⟨_, rfl⟩

end

end QueueControl

end BetterBullBoard
