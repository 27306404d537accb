import BetterBullBoard.Lib.UniqueIndex
import BetterBullBoard.Queues.ChangedKeys
import BetterBullBoard.Tables.ColumnTypes

/-! # `queues` and `job_schedulers`

The two tables under their constraints: unique ids, unique queue names, unique
scheduler keys (not per queue), and a foreign key that deletes the schedulers of
a deleted queue. A statement that would break a constraint fails, and so does one
with a value its column does not hold. The ids of `job_schedulers` and
`created_at` are left out: nothing modelled reads them.
-/

namespace BetterBullBoard

structure QueueInsert where
  name : String
  defaultJobOptions : JsValue
  isPaused : Bool

structure QueueRow extends QueueInsert where
  id : Nat

/-- A row of `job_schedulers`, as inserted. -/
structure JobScheduler where
  queueId : Nat
  key : String
  name : String
  limit : Option Int
  endDate : Option Int
  tz : Option String
  pattern : Option String
  every : Option Int
  template : Option JsValue

def JsValue.orNull {α : Type} (f : α → JsValue) : Option α → JsValue
  | some a => f a
  | none => .null

def QueueInsert.columns (q : QueueInsert) : List (String × JsValue) :=
  [("name", .string q.name), ("defaultJobOptions", q.defaultJobOptions), ("isPaused", .bool q.isPaused)]

def JobScheduler.columns (r : JobScheduler) : List (String × JsValue) :=
  [("queueId", .string (toString r.queueId)), ("key", .string r.key), ("name", .string r.name),
    ("limit", .orNull (fun n : Int => .number n) r.limit), ("endDate", .orNull .date r.endDate),
    ("tz", .orNull .string r.tz), ("pattern", .orNull .string r.pattern),
    ("every", .orNull (fun n : Int => .number n) r.every), ("template", .orNull id r.template)]

/-- What Postgres refuses for other values than numbers and times: a name too long for
    its index, a text or a template with a zero character. It refuses no queue id. -/
structure Unstorable where
  queueName : String → Bool
  scheduler : JobScheduler → Bool
  queueId : ∀ r id, scheduler { r with queueId := id } = scheduler r

def Unstorable.none : Unstorable where
  queueName _ := false
  scheduler _ := false
  queueId _ _ := rfl

@[simp] theorem Unstorable.none_queueName (name : String) : Unstorable.none.queueName name = false := rfl

/-- The rows of `job_schedulers` Postgres refuses. -/
def JobScheduler.refused (unstorable : Unstorable) (r : JobScheduler) : Bool :=
  unstorable.scheduler r || !(r.limit.all integer && r.every.all integer && r.endDate.all timestamp)

theorem texts_nil : ∀ r ∈ ([] : List JobScheduler), isText r.key := fun _ h => absurd h List.not_mem_nil

structure QueuesDb where
  queues : List QueueRow
  jobSchedulers : List JobScheduler
  /-- The next `uuid_generate_v7()`. -/
  nextId : Nat
  ids : (queues.map (·.id)).Nodup
  below : ∀ q ∈ queues, q.id < nextId
  names : (queues.map (·.name)).Nodup
  keys : (jobSchedulers.map (·.key)).Nodup
  texts : ∀ r ∈ jobSchedulers, isText r.key
  references : ∀ r ∈ jobSchedulers, ∃ q ∈ queues, q.id = r.queueId

namespace QueuesDb

def empty : QueuesDb where
  queues := []
  jobSchedulers := []
  nextId := 0
  ids := List.nodup_nil
  below := by simp
  names := List.nodup_nil
  keys := List.nodup_nil
  texts := texts_nil
  references := by simp

/-! ## Statements -/

def selectQueue (db : QueuesDb) (name : String) : Option QueueRow := db.queues.find? fun q => q.name = name

def selectScheduler (db : QueuesDb) (key : String) : Option JobScheduler :=
  db.jobSchedulers.find? fun r => r.key = key

def deleteQueues (db : QueuesDb) (wher : QueueRow → Bool) : QueuesDb where
  queues := db.queues.filter fun q => !wher q
  -- ON DELETE CASCADE
  jobSchedulers := db.jobSchedulers.filter fun r => db.queues.any fun q => q.id = r.queueId && !wher q
  nextId := db.nextId
  ids := db.ids.sublist (List.filter_sublist.map _)
  below q hq := db.below q (List.mem_filter.mp hq).1
  names := db.names.sublist (List.filter_sublist.map _)
  keys := db.keys.sublist (List.filter_sublist.map _)
  texts r hr := db.texts r (List.mem_filter.mp hr).1
  references r hr := by
    obtain ⟨q, hq, kept⟩ := List.any_eq_true.mp (List.mem_filter.mp hr).2
    obtain ⟨id, stays⟩ := Bool.and_eq_true_iff.mp kept
    exact ⟨q, List.mem_filter.mpr ⟨hq, stays⟩, of_decide_eq_true id⟩

/-- `UPDATE queues SET .. WHERE name = ..` -/
def updateRow (params : QueueInsert) (q : QueueRow) : QueueRow :=
  if q.name = params.name then { q with toQueueInsert := params } else q

theorem updateRow_id (params : QueueInsert) (q : QueueRow) : (updateRow params q).id = q.id := by
  unfold updateRow
  split <;> rfl

theorem updateRow_name (params : QueueInsert) (q : QueueRow) : (updateRow params q).name = q.name := by
  unfold updateRow
  split
  · rename_i same
    exact same.symm
  · rfl

def updateQueue (db : QueuesDb) (params : QueueInsert) : QueuesDb where
  queues := db.queues.map (updateRow params)
  jobSchedulers := db.jobSchedulers
  nextId := db.nextId
  ids := by simpa only [List.map_map, Function.comp_def, updateRow_id] using db.ids
  below q hq := by
    obtain ⟨old, member, rfl⟩ := List.mem_map.mp hq
    exact updateRow_id params old ▸ db.below old member
  names := by simpa only [List.map_map, Function.comp_def, updateRow_name] using db.names
  keys := db.keys
  texts := db.texts
  references r hr := by
    obtain ⟨q, hq, id⟩ := db.references r hr
    exact ⟨updateRow params q, List.mem_map_of_mem hq, (updateRow_id params q).trans id⟩

/-- The row and the tables after it, unless a queue has the name already. -/
def insertQueue (db : QueuesDb) (params : QueueInsert) : Option (QueuesDb × QueueRow) :=
  if fresh : ∀ q ∈ db.queues, q.name ≠ params.name then
    let row : QueueRow := { params with id := db.nextId }
    some ({
      queues := db.queues ++ [row]
      jobSchedulers := db.jobSchedulers
      nextId := db.nextId + 1
      ids := UniqueIndex.nodup_insert db.ids fun q hq => Nat.ne_of_lt (db.below q hq)
      below := by
        intro q hq
        cases List.mem_append.mp hq with
        | inl old => exact Nat.lt_succ_of_lt (db.below q old)
        | inr new => exact List.mem_singleton.mp new ▸ Nat.lt_succ_self _
      names := UniqueIndex.nodup_insert db.names fresh
      keys := db.keys
      texts := db.texts
      references := fun r hr => by
        obtain ⟨q, hq, id⟩ := db.references r hr
        exact ⟨q, List.mem_append_left _ hq, id⟩ }, row)
  else none

def deleteSchedulers (db : QueuesDb) (wher : JobScheduler → Bool) : QueuesDb :=
  { db with
    jobSchedulers := db.jobSchedulers.filter fun r => !wher r
    keys := db.keys.sublist (List.filter_sublist.map _)
    texts := fun r hr => db.texts r (List.mem_filter.mp hr).1
    references := fun r hr => db.references r (List.mem_filter.mp hr).1 }

/-- The schedulers of a queue that are not in the list of new keys. -/
def oldSchedulers (queueId : Nat) (newKeys : List String) (r : JobScheduler) : Bool :=
  r.queueId = queueId && if newKeys.length > 0 then !newKeys.contains r.key else true

/-- The schedulers are replaced by these rows, if the constraints allow it. -/
def withSchedulers (db : QueuesDb) (rows : List JobScheduler) : Option QueuesDb :=
  if allowed : (rows.map (·.key)).Nodup ∧ (∀ r ∈ rows, isText r.key) ∧
      ∀ r ∈ rows, ∃ q ∈ db.queues, q.id = r.queueId then
    some { db with jobSchedulers := rows, keys := allowed.1, texts := allowed.2.1, references := allowed.2.2 }
  else none

/-- `UPDATE job_schedulers SET .. WHERE key = ..` -/
def updateScheduler (unstorable : Unstorable) (db : QueuesDb) (param : JobScheduler) : Option QueuesDb :=
  if param.refused unstorable then none
  else db.withSchedulers (db.jobSchedulers.map fun r => if r.key = param.key then param else r)

def insertScheduler (unstorable : Unstorable) (db : QueuesDb) (param : JobScheduler) : Option QueuesDb :=
  if param.refused unstorable then none else db.withSchedulers (db.jobSchedulers ++ [param])

end QueuesDb

end BetterBullBoard
