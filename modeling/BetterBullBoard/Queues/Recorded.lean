import BetterBullBoard.Queues.Tracked

/-! # Nothing made up

Whatever is in flight and however it interleaves, the table never shows a queue that
Redis never had, nor a flag that Redis never had for it.
-/

namespace BetterBullBoard

/-- One of these moments had the flag. -/
def HadFlag (moments : List BullQueues) (queueName : String) (isPaused : Bool) : Prop :=
  ∃ redis ∈ moments, redis.isPaused queueName = isPaused

def WasKnown (moments : List BullQueues) (queueName : String) : Prop := ∃ redis ∈ moments, queueName ∈ redis.known

/-- Every row is of a queue Redis had, with a flag it had. -/
def RowsRecorded (moments : List BullQueues) (db : QueuesDb) : Prop :=
  ∀ q ∈ db.queues, WasKnown moments q.name ∧ HadFlag moments q.name q.isPaused

def CallRecorded (moments : List BullQueues) : QueueCall → Prop
  | .changed .pause queueName => HadFlag moments queueName true
  | .changed .resume queueName => HadFlag moments queueName false
  | _ => True

def TaskRecorded (moments : List BullQueues) (queueName : String) : UpsertTask → Prop
  | .selecting isPaused | .writing isPaused _ => HadFlag moments queueName isPaused
  | _ => True

def PassRecorded (moments : List BullQueues) : QueuePass → Prop
  | .idle => True
  | .scanning seen => seen ⊆ moments
  | .deleting scan => ∀ queueName ∈ scan.allQueuesNames, WasKnown moments queueName
  | .ingesting scan tasks => (∀ queueName ∈ scan.allQueuesNames, WasKnown moments queueName) ∧
      ∀ queueName, TaskRecorded moments queueName (tasks queueName)

section

variable {before after : List BullQueues} {db db' : QueuesDb} {queueName : String}

theorem HadFlag.mono {isPaused : Bool} (had : HadFlag before queueName isPaused) (more : before ⊆ after) :
    HadFlag after queueName isPaused := by
  obtain ⟨redis, member, flag⟩ := had
  exact ⟨redis, more member, flag⟩

theorem WasKnown.mono (known : WasKnown before queueName) (more : before ⊆ after) : WasKnown after queueName := by
  obtain ⟨redis, member, there⟩ := known
  exact ⟨redis, more member, there⟩

theorem RowsRecorded.mono (recorded : RowsRecorded before db) (more : before ⊆ after) : RowsRecorded after db := by
  intro q hq
  obtain ⟨known, flag⟩ := recorded q hq
  exact ⟨WasKnown.mono known more, HadFlag.mono flag more⟩

theorem CallRecorded.mono {call : QueueCall} (recorded : CallRecorded before call) (more : before ⊆ after) :
    CallRecorded after call := by
  cases call with
  | changed mutation queueName =>
      cases mutation with
      | pause | resume => exact HadFlag.mono recorded more
      | delete => trivial
  | _ => trivial

theorem TaskRecorded.mono {task : UpsertTask} (recorded : TaskRecorded before queueName task) (more : before ⊆ after) :
    TaskRecorded after queueName task := by
  cases task with
  | selecting | writing => exact HadFlag.mono recorded more
  | _ => trivial

theorem PassRecorded.mono {pass : QueuePass} (recorded : PassRecorded before pass) (more : before ⊆ after) :
    PassRecorded after pass := by
  cases pass with
  | idle => trivial
  | scanning seen => exact List.Subset.trans recorded more
  | deleting scan => exact fun queueName listed => WasKnown.mono (recorded queueName listed) more
  | ingesting scan tasks =>
      exact ⟨fun queueName listed => WasKnown.mono (recorded.1 queueName listed) more,
        fun queueName => TaskRecorded.mono (recorded.2 queueName) more⟩

theorem RowsRecorded.written (recorded : RowsRecorded before db)
    (writes : Writes (HadFlag before) (WasKnown before) db db') : RowsRecorded before db' := by
  intro q hq
  constructor
  · cases writes.names q hq with
    | inl known => exact known
    | inr old =>
        obtain ⟨q', hq', name⟩ := old
        exact name ▸ (recorded q' hq').1
  · cases writes.values q hq with
    | inl flag => exact flag
    | inr old => exact (recorded q old).2

/-- One query of a task, with what it has read. -/
theorem stepUpsert_recorded {redis : BullQueues} {task task' : UpsertTask} (present : redis ∈ before)
    (known : WasKnown before queueName) (recorded : TaskRecorded before queueName task)
    (stepped : stepUpsert redis queueName db task = some (db', task')) :
    Writes (HadFlag before) (WasKnown before) db db' ∧ TaskRecorded before queueName task' := by
  cases task with
  | starting =>
      obtain ⟨rfl, rfl⟩ := Prod.mk.inj (Option.some.inj stepped)
      exact ⟨.refl db, redis, present, rfl⟩
  | selecting isPaused =>
      obtain ⟨rfl, rfl⟩ := Prod.mk.inj (Option.some.inj stepped)
      exact ⟨.refl db, recorded⟩
  | writing isPaused existing =>
      have had : HadFlag before queueName isPaused := recorded
      have written : Writes (HadFlag before) (WasKnown before) db _ := (writes_upsertQueue known had existing).1
      revert written stepped
      unfold stepUpsert
      dsimp only
      generalize db.upsertQueue .none (upsertParams queueName isPaused) existing = r
      obtain ⟨db'', handler⟩ := r
      intro stepped written
      cases handler <;> obtain ⟨rfl, rfl⟩ := Prod.mk.inj (Option.some.inj stepped) <;> exact ⟨written, trivial⟩
  | done | failed => cases stepped

end

namespace QueueControl

/-- Redis as it is and as it was. -/
def moments (s : QueueControl) : List BullQueues := s.redis :: s.past

structure Recorded (s : QueueControl) : Prop where
  rows : RowsRecorded s.moments s.db
  calls : ∀ i, CallRecorded s.moments (s.calls i)
  passes : ∀ i, PassRecorded s.moments (s.passes i)

section

variable {s s' : QueueControl} {i : Nat}

theorem Recorded.setCall {call : QueueCall} (recorded : Recorded s) (next : CallRecorded s.moments call) :
    Recorded (s.setCall i call) where
  rows := recorded.rows
  calls j := by
    change CallRecorded s.moments (Function.update s.calls i call j)
    rw [Function.update_apply]
    split
    · exact next
    · exact recorded.calls j
  passes := recorded.passes

theorem Recorded.setPass {pass : QueuePass} (recorded : Recorded s) (next : PassRecorded s.moments pass) :
    Recorded (s.setPass i pass) where
  rows := recorded.rows
  calls := recorded.calls
  passes j := by
    change PassRecorded s.moments (Function.update s.passes i pass j)
    rw [Function.update_apply]
    split
    · exact next
    · exact recorded.passes j

theorem Recorded.written {db : QueuesDb} (recorded : Recorded s)
    (writes : Writes (HadFlag s.moments) (WasKnown s.moments) s.db db) : Recorded { s with db } where
  rows := RowsRecorded.written recorded.rows writes
  calls := recorded.calls
  passes := recorded.passes

theorem Recorded.change (recorded : Recorded s) (redis : BullQueues) : Recorded (s.change redis) where
  rows := RowsRecorded.mono recorded.rows (List.subset_cons_self _ _)
  calls j := CallRecorded.mono (recorded.calls j) (List.subset_cons_self _ _)
  passes j := by
    have here := PassRecorded.mono (recorded.passes j) (List.subset_cons_self redis s.moments)
    change PassRecorded (redis :: s.moments) ((s.passes j).see redis)
    cases pass : s.passes j with
    | scanning seen =>
        rw [pass] at here
        exact List.cons_subset.mpr ⟨List.mem_cons_self, here⟩
    | idle | deleting | ingesting =>
        rw [pass] at here
        exact here

/-- The query of a call that follows its command. -/
theorem writes_applyMutation {moments : List BullQueues} {db db' : QueuesDb} {mutation : QueueMutation}
    {queueName : String} (recorded : CallRecorded moments (.changed mutation queueName))
    (ok : db.applyMutation queueName mutation = .ok db') : Writes (HadFlag moments) (WasKnown moments) db db' := by
  have paused : ∀ isPaused, HadFlag moments queueName isPaused →
      db.updateTrackedQueuePausedState queueName isPaused = .ok db' →
      Writes (HadFlag moments) (WasKnown moments) db db' := by
    intro isPaused had ok
    unfold QueuesDb.updateTrackedQueuePausedState at ok
    split at ok
    · obtain rfl := Except.ok.inj ok
      exact writes_setPaused had
    · cases ok
  cases mutation with
  | pause => exact paused true recorded ok
  | resume => exact paused false recorded ok
  | delete =>
      obtain rfl := Except.ok.inj ok
      exact writes_deleteQueues _

theorem Recorded.act (recorded : Recorded s) (acted : s.act i = some s') : Recorded s' := by
  have here := recorded.calls i
  have command : ∀ redis call, CallRecorded (redis :: s.moments) call → Recorded ((s.change redis).setCall i call) :=
    fun redis call next => (recorded.change redis).setCall next
  have flag : ∀ (redis : BullQueues) queueName isPaused, redis.isPaused queueName = isPaused →
      HadFlag (redis :: s.moments) queueName isPaused := fun redis _ _ set => ⟨redis, List.mem_cons_self, set⟩
  unfold QueueControl.act at acted
  split at acted
  · obtain rfl := Option.some.inj acted
    exact command _ _ (flag _ _ _ (Function.update_self ..))
  · obtain rfl := Option.some.inj acted
    exact command _ _ (flag _ _ _ (Function.update_self ..))
  · obtain rfl := Option.some.inj acted
    exact command _ _ trivial
  · obtain rfl := Option.some.inj acted
    exact command _ _ trivial
  · rename_i mutation queueName call
    rw [call] at here
    split at acted
    · rename_i db ok
      obtain rfl := Option.some.inj acted
      exact (recorded.written (writes_applyMutation here ok)).setCall trivial
    · obtain rfl := Option.some.inj acted
      exact recorded.setCall trivial
  · cases acted
  · cases acted

theorem writes_deleteMissing {moments : List BullQueues} (scan : QueueScan) (db : QueuesDb) :
    Writes (HadFlag moments) (WasKnown moments) db (scan.deleteMissing db) := by
  unfold QueueScan.deleteMissing
  split
  · split <;> exact writes_deleteQueues _
  · exact .refl db

theorem Recorded.request {mutation : QueueMutation} {input : QueueMutationInput} {names : List String}
    (recorded : Recorded s) (enabled : s.step (.request i mutation input names) = some s') : Recorded s' := by
  obtain rfl := request_inv enabled
  apply recorded.setCall
  obtain ⟨result, settled⟩ | ⟨queueName, resolved⟩ := withResolvedQueue_cases names mutation input
  · exact settled ▸ trivial
  · exact resolved ▸ trivial

theorem Recorded.scanned {scan : QueueScan} (recorded : Recorded s)
    (enabled : s.step (.scanned i scan) = some s') : Recorded s' := by
  obtain ⟨seen, pass, finds, rfl⟩ := scanned_inv enabled
  have here := recorded.passes i
  rw [pass] at here
  apply recorded.setPass
  intro queueName listed
  obtain ⟨redis, member, known⟩ := finds.1 queueName listed
  exact ⟨redis, here member, known⟩

theorem Recorded.deleteMissing (recorded : Recorded s) (enabled : s.step (.deleteMissing i) = some s') :
    Recorded s' := by
  obtain ⟨scan, pass, rfl⟩ := deleteMissing_inv enabled
  have here := recorded.passes i
  rw [pass] at here
  exact (recorded.written (writes_deleteMissing scan s.db)).setPass ⟨here, fun _ => trivial⟩

theorem Recorded.upsert {queueName : String} (recorded : Recorded s)
    (enabled : s.step (.upsert i queueName) = some s') : Recorded s' := by
  obtain ⟨scan, tasks, db, task, pass, listed, stepped, rfl⟩ := upsert_inv enabled
  have ⟨known, others⟩ : PassRecorded s.moments (.ingesting scan tasks) := pass ▸ recorded.passes i
  obtain ⟨writes, next⟩ := stepUpsert_recorded List.mem_cons_self (known queueName listed) (others queueName) stepped
  refine (recorded.written writes).setPass ⟨known, ?_⟩
  exact (Function.forall_update_iff tasks (TaskRecorded s.moments)).mpr ⟨next, fun other _ => others other⟩

theorem Recorded.upsertFails {queueName : String} (recorded : Recorded s)
    (enabled : s.step (.upsertFails i queueName) = some s') : Recorded s' := by
  obtain ⟨scan, tasks, pass, rfl⟩ := upsertFails_inv enabled
  have ⟨known, others⟩ : PassRecorded s.moments (.ingesting scan tasks) := pass ▸ recorded.passes i
  refine recorded.setPass ⟨known, ?_⟩
  exact (Function.forall_update_iff tasks (TaskRecorded s.moments)).mpr ⟨trivial, fun other _ => others other⟩

theorem Recorded.step {a : ControlAction} (recorded : Recorded s) (enabled : s.step a = some s') : Recorded s' := by
  cases a with
  | redis redis =>
      obtain rfl := Option.some.inj enabled
      exact recorded.change redis
  | request => exact recorded.request enabled
  | act => exact recorded.act enabled
  | fails =>
      obtain rfl := fails_inv enabled
      exact recorded.setCall trivial
  | scan =>
      obtain rfl := scan_inv enabled
      exact recorded.setPass (List.cons_subset.mpr ⟨List.mem_cons_self, List.nil_subset _⟩)
  | scanned => exact recorded.scanned enabled
  | deleteMissing => exact recorded.deleteMissing enabled
  | upsert => exact recorded.upsert enabled
  | upsertFails => exact recorded.upsertFails enabled
  | leave =>
      obtain rfl := Option.some.inj enabled
      exact recorded.setPass trivial

/-- In every run the rows are of queues Redis had, with flags it had. -/
theorem rows_recorded {ts : List (Machine.Transition QueueControl ControlAction)} {redis : BullQueues} {db : QueuesDb}
    (run : Machine.Run QueueControl.step { redis, db } ts s) (start : RowsRecorded [redis] db) :
    RowsRecorded s.moments s.db := by
  have recorded : Recorded { redis, db } := ⟨start, fun _ => trivial, fun _ => trivial⟩
  exact (run.invariant (fun _ _ _ recorded enabled => Recorded.step recorded enabled) recorded).rows

def unpaused : BullQueues where
  known := ["mail", "gone"]
  isPaused _ := false

/-- A queue is resumed by another tool before its row says that it is paused. -/
theorem rows_recorded_late : ∃ ts s, Machine.Run QueueControl.step { redis := unpaused, db := mailAndGone } ts s ∧
    RowsRecorded s.moments s.db ∧ s.redis.isPaused "mail" = false ∧
    s.db.queues.map (fun q => (q.name, q.isPaused)) = [("mail", true), ("gone", false)] := by
  have request : QueueControl.step { redis := unpaused, db := mailAndGone }
      (.request 0 .pause ⟨"mail"⟩ ["mail", "gone"]) = some _ := rfl
  have run := Machine.Run.next request
    (.next (a := .act 0) rfl (.next (a := .redis unpaused) rfl (.next (a := .act 0) rfl (.done _))))
  refine ⟨_, _, run, rows_recorded run ?_, rfl, by decide⟩
  intro q hq
  refine ⟨⟨unpaused, List.mem_cons_self, ?_⟩, unpaused, List.mem_cons_self, ?_⟩
  · revert q
    decide
  · revert q
    decide

end

end QueueControl

end BetterBullBoard
