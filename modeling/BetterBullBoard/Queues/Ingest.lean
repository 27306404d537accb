import BetterBullBoard.Lib.Utf16
import BetterBullBoard.Lib.WorkerPool
import BetterBullBoard.Queues.Holders

/-! # Ingesting queues

`ingestQueuesUnsafe` after a complete scan: missing queues are deleted, then five
workers take the queue names in order. The handler of a queue upserts its row,
deletes its old schedulers and starts one task for each scheduler of Redis; each
query is a step, and one that Postgres refuses ends the handler. Redis does not
change meanwhile, so reading it is no step.
-/

namespace BetterBullBoard

structure RedisScheduler where
  key : String
  name : String
  limit : Option Int := none
  endDate : Option Int := none
  tz : Option String := none
  pattern : Option String := none
  every : Option Int := none
  template : Option JsValue := none

structure RedisQueue where
  isPaused : Bool := false
  defaultJobOptions : JsValue := .object []
  /-- What `getJobSchedulers` answers. -/
  jobSchedulers : List RedisScheduler := []
  keys : (jobSchedulers.map (·.key)).Nodup := by simp

/-- The queues of Redis; BullMQ has none with an empty name. -/
structure RedisQueues where
  queueNames : List String
  queue : String → RedisQueue
  distinct : queueNames.Nodup
  named : "" ∉ queueNames

namespace RedisQueues

/-- The names the scan finds, sorted. -/
def allQueuesNames (redis : RedisQueues) : List String := Utf16.sort redis.queueNames

def keys (redis : RedisQueues) (queueName : String) : List String :=
  (redis.queue queueName).jobSchedulers.map (·.key)

def queueParams (redis : RedisQueues) (queueName : String) : QueueInsert where
  name := queueName
  defaultJobOptions := (redis.queue queueName).defaultJobOptions
  isPaused := (redis.queue queueName).isPaused

def schedulerParam (queueId : Nat) (s : RedisScheduler) : JobScheduler where
  queueId
  key := s.key
  name := s.name
  limit := s.limit
  endDate := s.endDate.filter (· ≠ 0)
  tz := s.tz
  pattern := s.pattern
  every := s.every
  template := s.template

def schedulerParams (redis : RedisQueues) (queueName : String) (queueId : Nat) : List JobScheduler :=
  (redis.queue queueName).jobSchedulers.map (schedulerParam queueId)

theorem keys_schedulerParams (redis : RedisQueues) (queueName : String) (queueId : Nat) :
    (redis.schedulerParams queueName queueId).map (·.key) = redis.keys queueName := by
  simp [schedulerParams, keys, schedulerParam]

/-- A parameter is that of one scheduler of the queue. -/
theorem mem_schedulerParams {redis : RedisQueues} {queueName : String} {queueId : Nat} {param : JobScheduler} :
    param ∈ redis.schedulerParams queueName queueId ↔
      ∃ s ∈ (redis.queue queueName).jobSchedulers, schedulerParam queueId s = param := List.mem_map

end RedisQueues

/-- The task of one scheduler in `Promise.all`. -/
inductive SchedulerTask where
  | selecting
  | writing (existing : Option JobScheduler)
  | done
  | failed

namespace SchedulerTask

def isDone : SchedulerTask → Bool
  | done => true
  | _ => false

def isFailed : SchedulerTask → Bool
  | failed => true
  | _ => false

end SchedulerTask

/-- Where the handler of a queue is. -/
inductive QueueHandler where
  /-- `upsertQueue` -/
  | selecting
  | writing (existing : Option QueueRow)
  /-- `upsertJobSchedulers` -/
  | deleting (queueId : Nat)
  | upserting (params : List JobScheduler) (tasks : String → SchedulerTask)
  | failed

inductive QueueQuery where
  | queue
  | scheduler (key : String)

section

variable (unstorable : Unstorable)

namespace QueuesDb

/-- The second query of `upsertQueue`. The options are always `{}`, so a row with the
    name is not refused. -/
def upsertQueue (db : QueuesDb) (params : QueueInsert) (existing : Option QueueRow) : QueuesDb × QueueHandler :=
  match existing with
  | some existingQueue =>
      if (getChangedKeys params.columns existingQueue.columns).isEmpty then (db, .deleting existingQueue.id)
      else
        match (db.updateQueue params).selectQueue params.name with
        | some updatedQueue => (db.updateQueue params, .deleting updatedQueue.id)
        | none => (db.updateQueue params, .failed)
  | none =>
      if unstorable.queueName params.name then (db, .failed)
      else
        match db.insertQueue params with
        | some (db', createdQueue) => (db', .deleting createdQueue.id)
        | none => (db, .failed)

/-- The second query of a scheduler's task. -/
def upsertScheduler (db : QueuesDb) (param : JobScheduler) (existing : Option JobScheduler) :
    QueuesDb × SchedulerTask :=
  match existing with
  | some existingJobScheduler =>
      if (getChangedKeys param.columns existingJobScheduler.columns).isEmpty then (db, .done)
      else
        match db.updateScheduler unstorable param with
        | some db' => (db', .done)
        | none => (db, .failed)
  | none =>
      match db.insertScheduler unstorable param with
      | some db' => (db', .done)
      | none => (db, .failed)

end QueuesDb

namespace QueueHandler

def stepTask (db : QueuesDb) (param : JobScheduler) : SchedulerTask → Option (QueuesDb × SchedulerTask)
  | .selecting => some (db, .writing (db.selectScheduler param.key))
  | .writing existing => some (db.upsertScheduler unstorable param existing)
  | .done | .failed => none

def handle (redis : RedisQueues) (queueName : String) :
    QueuesDb × QueueHandler → QueueQuery → Option (QueuesDb × QueueHandler)
  | (db, selecting), .queue => some (db, writing (db.selectQueue queueName))
  | (db, writing existing), .queue => some (db.upsertQueue unstorable (redis.queueParams queueName) existing)
  | (db, deleting queueId), .queue =>
      let params := redis.schedulerParams queueName queueId
      -- the list of keys is sent with the statement
      if params.all fun param => isText param.key then
        some (db.deleteSchedulers (QueuesDb.oldSchedulers queueId (params.map (·.key))),
          upserting params fun _ => .selecting)
      else some (db, failed)
  | (db, upserting params tasks), .scheduler key =>
      match params.find? fun param => param.key = key with
      | none => none
      | some param => (stepTask unstorable db param (tasks key)).map fun r =>
          (r.1, upserting params (Function.update tasks key r.2))
  | _, _ => none

/-- `Promise.all` settles with the first failure; errors are caught. -/
def ended (_queueName : String) : QueueHandler → Bool
  | upserting params tasks =>
      params.any (fun param => (tasks param.key).isFailed) || params.all fun param => (tasks param.key).isDone
  | failed => true
  | _ => false

end QueueHandler

def QUEUE_INGEST_CONCURRENCY : Nat := 5

abbrev IngestState := WorkerPool.Pool String QueueHandler QueuesDb

abbrev IngestTrace := List (Machine.Transition IngestState (WorkerPool.PoolAction String QueueQuery))

/-- The call of `mapWithConcurrency`. -/
def ingestQueues (redis : RedisQueues) : WorkerPool.Program String QueueHandler QueuesDb QueueQuery where
  items := redis.allQueuesNames
  limit := QUEUE_INGEST_CONCURRENCY
  skips queueName := queueName = ""
  start := .selecting
  ended := QueueHandler.ended
  handle := QueueHandler.handle unstorable redis

end

def QueuesDb.deleteMissing (db : QueuesDb) (redis : RedisQueues) : QueuesDb :=
  if redis.allQueuesNames.length > 0 then db.deleteQueues fun q => !redis.allQueuesNames.contains q.name
  else db.deleteQueues fun _ => true

theorem QueuesDb.deleteMissing_eq (db : QueuesDb) (redis : RedisQueues) :
    db.deleteMissing redis = db.deleteQueues fun q => !redis.allQueuesNames.contains q.name := by
  unfold deleteMissing
  split
  · rfl
  · rename_i empty
    have nil : redis.allQueuesNames = [] := List.length_eq_zero_iff.mp (Nat.eq_zero_of_not_pos empty)
    simp [nil]

theorem QueuesDb.holds_deleteMissing {db : QueuesDb} {redis : RedisQueues} {key queueName : String} :
    (db.deleteMissing redis).Holds key queueName ↔ db.Holds key queueName ∧ queueName ∈ redis.queueNames := by
  rw [deleteMissing_eq, @holds_deleteQueues _ _ _ fun name => !redis.allQueuesNames.contains name]
  simp [RedisQueues.allQueuesNames, Utf16.mem_sort]

/-- A complete pass over these tables. If a queue name is no text, the deletion fails
    and nothing else is done. -/
def IngestPass (unstorable : Unstorable) (redis : RedisQueues) (db db' : QueuesDb) : Prop :=
  (∀ queueName ∈ redis.queueNames, isText queueName) ∧
    ∃ ts s, Machine.Run (ingestQueues unstorable redis).step { shared := db.deleteMissing redis } ts s ∧
      (ingestQueues unstorable redis).Complete s ∧ db' = s.shared

end BetterBullBoard
