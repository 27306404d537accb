import BetterBullBoard.Queues.Control
import BetterBullBoard.Lib.Machine

/-! # What the table says of Redis

While Redis stays as it is and nothing in flight has an outdated view of it, every
query of every call and pass brings the table closer: rows Redis has stay, right rows
stay right, and what is written is right. So a pass that gets through leaves the table
as Redis is.
-/

namespace BetterBullBoard

/-- The table says what Redis says. -/
structure Tracks (redis : BullQueues) (db : QueuesDb) : Prop where
  known : ∀ queueName ∈ redis.known, ∃ q ∈ db.queues, q.name = queueName
  rows : ∀ q ∈ db.queues, q.name ∈ redis.known ∧ q.isPaused = redis.isPaused q.name

/-- A change of the table by one who knows these flags and these names. -/
structure Writes (flag : String → Bool → Prop) (known : String → Prop) (db db' : QueuesDb) : Prop where
  values : ∀ q' ∈ db'.queues, flag q'.name q'.isPaused ∨ q' ∈ db.queues
  names : ∀ q' ∈ db'.queues, known q'.name ∨ ∃ q ∈ db.queues, q.name = q'.name

/-- A change of the table by one who knows Redis as it is. -/
structure Improves (redis : BullQueues) (db db' : QueuesDb) : Prop
    extends Writes (fun queueName isPaused => isPaused = redis.isPaused queueName) (· ∈ redis.known) db db' where
  kept : ∀ q ∈ db.queues, q.name ∈ redis.known → ∃ q' ∈ db'.queues, q'.name = q.name

section

variable {flag : String → Bool → Prop} {known : String → Prop} {redis : BullQueues} {db db' : QueuesDb}
  {queueName : String} {isPaused : Bool}

theorem Writes.refl (db : QueuesDb) : Writes flag known db db where
  values _ hq := .inr hq
  names q hq := .inr ⟨q, hq, rfl⟩

theorem Improves.refl (redis : BullQueues) (db : QueuesDb) : Improves redis db db where
  toWrites := .refl db
  kept q hq _ := ⟨q, hq, rfl⟩

theorem QueuesDb.eq_of_name (db : QueuesDb) {q q' : QueueRow} (hq : q ∈ db.queues) (hq' : q' ∈ db.queues)
    (same : q.name = q'.name) : q = q' := List.inj_on_of_nodup_map db.names hq hq' same

theorem writes_deleteQueues (wher : QueueRow → Bool) : Writes flag known db (db.deleteQueues wher) where
  values _ hq := .inr (List.mem_filter.mp hq).1
  names q hq := .inr ⟨q, (List.mem_filter.mp hq).1, rfl⟩

theorem writes_setPaused (right : flag queueName isPaused) :
    Writes flag known db (db.setPaused queueName isPaused) where
  values q' hq' := by
    obtain ⟨q, hq, rfl⟩ := List.mem_map.mp hq'
    unfold QueuesDb.setPausedRow
    split
    · rename_i same
      exact .inl (same ▸ right)
    · exact .inr hq
  names q' hq' := by
    obtain ⟨q, hq, rfl⟩ := List.mem_map.mp hq'
    exact .inr ⟨q, hq, (QueuesDb.setPausedRow_name ..).symm⟩

theorem writes_updateQueue (right : flag queueName isPaused) :
    Writes flag known db (db.updateQueue (upsertParams queueName isPaused)) where
  values q' hq' := by
    obtain ⟨q, hq, rfl⟩ := List.mem_map.mp hq'
    unfold QueuesDb.updateRow
    split
    · exact .inl right
    · exact .inr hq
  names q' hq' := by
    obtain ⟨q, hq, rfl⟩ := List.mem_map.mp hq'
    exact .inr ⟨q, hq, (QueuesDb.updateRow_name ..).symm⟩

/-- The row after an insertion, and those before it. -/
theorem QueuesDb.insertQueue_queues {params : QueueInsert} {q : QueueRow}
    (inserted : db.insertQueue params = some (db', q)) :
    db'.queues = db.queues ++ [q] ∧ q.toQueueInsert = params := by
  unfold insertQueue at inserted
  split at inserted
  · obtain ⟨rfl, rfl⟩ := Prod.mk.inj (Option.some.inj inserted)
    exact ⟨rfl, rfl⟩
  · cases inserted

theorem writes_insertQueue (found : known queueName) (right : flag queueName isPaused) {q : QueueRow}
    (inserted : db.insertQueue (upsertParams queueName isPaused) = some (db', q)) : Writes flag known db db' := by
  obtain ⟨rows, row⟩ := QueuesDb.insertQueue_queues inserted
  have name : q.name = queueName := congrArg QueueInsert.name row
  have value : q.isPaused = isPaused := congrArg QueueInsert.isPaused row
  constructor <;> rw [rows] <;> intro q' hq'
  · cases List.mem_append.mp hq' with
    | inl old => exact .inr old
    | inr new =>
        obtain rfl := List.mem_singleton.mp new
        exact .inl (by rwa [value, name])
  · cases List.mem_append.mp hq' with
    | inl old => exact .inr ⟨q', old, rfl⟩
    | inr new =>
        obtain rfl := List.mem_singleton.mp new
        exact .inl (name ▸ found)

/-- The last query of a task, whatever it has read of the table. -/
theorem writes_upsertQueue (found : known queueName) (right : flag queueName isPaused) (existing : Option QueueRow) :
    Writes flag known db (db.upsertQueue .none (upsertParams queueName isPaused) existing).1 ∧
      ∀ q ∈ db.queues, ∃ q' ∈ (db.upsertQueue .none (upsertParams queueName isPaused) existing).1.queues,
        q'.name = q.name := by
  cases existing with
  | none =>
      simp only [QueuesDb.upsertQueue, Unstorable.none_queueName, Bool.false_eq_true, if_false]
      cases inserted : db.insertQueue (upsertParams queueName isPaused) with
      | none => exact ⟨.refl db, fun q hq => ⟨q, hq, rfl⟩⟩
      | some r =>
          obtain ⟨rows, -⟩ := QueuesDb.insertQueue_queues inserted
          refine ⟨writes_insertQueue found right inserted, fun q hq => ⟨q, ?_, rfl⟩⟩
          rw [rows]
          exact List.mem_append_left _ hq
  | some old =>
      have updated : Writes flag known db (db.updateQueue (upsertParams queueName isPaused)) ∧
          ∀ q ∈ db.queues, ∃ q' ∈ (db.updateQueue (upsertParams queueName isPaused)).queues, q'.name = q.name :=
        ⟨writes_updateQueue right, fun q hq => ⟨_, List.mem_map_of_mem hq, QueuesDb.updateRow_name ..⟩⟩
      unfold QueuesDb.upsertQueue
      dsimp only
      split
      · exact ⟨.refl db, fun q hq => ⟨q, hq, rfl⟩⟩
      · split
        · exact updated
        · exact updated

theorem improves_deleteQueues {wher : QueueRow → Bool}
    (spares : ∀ q : QueueRow, q.name ∈ redis.known → wher q = false) :
    Improves redis db (db.deleteQueues wher) where
  toWrites := writes_deleteQueues wher
  kept q hq known := ⟨q, List.mem_filter.mpr ⟨hq, by simp [spares q known]⟩, rfl⟩

/-- An update that is left out has seen the right row. -/
theorem isPaused_unchanged {old : QueueRow}
    (unchanged : (getChangedKeys (upsertParams queueName isPaused).columns old.columns).isEmpty = true) :
    old.isPaused = isPaused := by
  have kept : isChanged old.columns ("isPaused", .bool isPaused) = false := by
    rw [Bool.eq_false_iff]
    intro changed
    have listed : "isPaused" ∈ getChangedKeys (upsertParams queueName isPaused).columns old.columns :=
      List.mem_map.mpr ⟨_, List.mem_filter.mpr ⟨by simp [QueueInsert.columns, upsertParams], changed⟩, rfl⟩
    rw [List.isEmpty_iff.mp unchanged] at listed
    cases listed
  have same : isPaused = old.isPaused := by
    simpa [isChanged, JsValue.isObject, QueueInsert.columns, JsMap.get, JsValue.strictEquals] using kept
  exact same.symm

/-! ## What still holds after an improvement -/

/-- The row of the queue is there, and is right. -/
def Right (redis : BullQueues) (db : QueuesDb) (queueName : String) : Prop :=
  ∃ q ∈ db.queues, q.name = queueName ∧ q.isPaused = redis.isPaused queueName

/-- There is no wrong row of the queue. -/
def NotWrong (redis : BullQueues) (db : QueuesDb) (queueName : String) : Prop :=
  ∀ q ∈ db.queues, q.name = queueName → q.isPaused = redis.isPaused queueName

theorem Improves.notWrong (improves : Improves redis db db') (notWrong : NotWrong redis db queueName) :
    NotWrong redis db' queueName := by
  intro q' hq' name
  cases improves.values q' hq' with
  | inl right => rw [right, name]
  | inr old => exact notWrong q' old name

theorem Right.notWrong (right : Right redis db queueName) : NotWrong redis db queueName := by
  obtain ⟨q, hq, name, value⟩ := right
  intro q' hq' name'
  rw [db.eq_of_name hq' hq (name'.trans name.symm), value]

theorem Improves.there (improves : Improves redis db db') (known : queueName ∈ redis.known)
    (there : ∃ q ∈ db.queues, q.name = queueName) : ∃ q ∈ db'.queues, q.name = queueName := by
  obtain ⟨q, hq, rfl⟩ := there
  exact improves.kept q hq known

theorem right_iff : Right redis db queueName ↔ (∃ q ∈ db.queues, q.name = queueName) ∧ NotWrong redis db queueName := by
  constructor
  · intro right
    have ⟨q, hq, name, _⟩ := right
    exact ⟨⟨q, hq, name⟩, right.notWrong⟩
  · rintro ⟨⟨q, hq, name⟩, notWrong⟩
    exact ⟨q, hq, name, notWrong q hq name⟩

theorem Improves.right (improves : Improves redis db db') (known : queueName ∈ redis.known)
    (right : Right redis db queueName) : Right redis db' queueName := by
  rw [right_iff] at right ⊢
  exact ⟨improves.there known right.1, improves.notWrong right.2⟩

theorem Improves.tracks (improves : Improves redis db db') (tracks : Tracks redis db) : Tracks redis db' where
  known queueName known := improves.there known (tracks.known queueName known)
  rows q' hq' := by
    refine ⟨?_, ?_⟩
    · cases improves.names q' hq' with
      | inl known => exact known
      | inr old =>
          obtain ⟨q, hq, name⟩ := old
          exact name ▸ (tracks.rows q hq).1
    · cases improves.values q' hq' with
      | inl right => exact right
      | inr old => exact (tracks.rows q' old).2

/-! ## One query -/

/-- What a task has read of Redis is so, and what it has read of the table still holds. -/
def TaskCurrent (redis : BullQueues) (db : QueuesDb) (queueName : String) : UpsertTask → Prop
  | .starting | .failed => True
  | .selecting isPaused => redis.isPaused queueName = isPaused
  | .writing isPaused none => redis.isPaused queueName = isPaused ∧ NotWrong redis db queueName
  | .writing isPaused (some existing) => redis.isPaused queueName = isPaused ∧
      (∃ q ∈ db.queues, q.name = queueName) ∧ (existing.isPaused = isPaused → NotWrong redis db queueName)
  | .done => Right redis db queueName

theorem TaskCurrent.improved {task : UpsertTask} (current : TaskCurrent redis db queueName task)
    (improves : Improves redis db db') (known : queueName ∈ redis.known) : TaskCurrent redis db' queueName task := by
  cases task with
  | starting | failed => trivial
  | selecting => exact current
  | writing isPaused existing =>
      cases existing with
      | none => exact ⟨current.1, improves.notWrong current.2⟩
      | some existing =>
          exact ⟨current.1, improves.there known current.2.1, fun same => improves.notWrong (current.2.2 same)⟩
  | done => exact improves.right known current

theorem notWrong_updateQueue (right : redis.isPaused queueName = isPaused) :
    NotWrong redis (db.updateQueue (upsertParams queueName isPaused)) queueName := by
  intro q' hq' name
  obtain ⟨q, hq, rfl⟩ := List.mem_map.mp hq'
  have same : q.name = (upsertParams queueName isPaused).name := (QueuesDb.updateRow_name ..).symm.trans name
  rw [QueuesDb.updateRow, if_pos same]
  exact right.symm

/-- The last query of a task: it writes what is right, or fails. -/
theorem upsertQueue_current {existing : Option QueueRow} (found : queueName ∈ redis.known)
    (current : TaskCurrent redis db queueName (.writing isPaused existing)) :
    Improves redis db (db.upsertQueue .none (upsertParams queueName isPaused) existing).1 ∧
      ((db.upsertQueue .none (upsertParams queueName isPaused) existing).2 ≠ .failed →
        Right redis (db.upsertQueue .none (upsertParams queueName isPaused) existing).1 queueName) := by
  have right : redis.isPaused queueName = isPaused := by cases existing <;> exact current.1
  have writes : Writes (fun queueName isPaused => isPaused = redis.isPaused queueName) (· ∈ redis.known) db _ ∧ _ :=
    writes_upsertQueue found right.symm existing
  have improves : Improves redis db (db.upsertQueue .none (upsertParams queueName isPaused) existing).1 :=
    ⟨writes.1, fun q hq _ => writes.2 q hq⟩
  refine ⟨improves, fun ok => ?_⟩
  revert improves ok
  cases existing with
  | none =>
      simp only [QueuesDb.upsertQueue, Unstorable.none_queueName, Bool.false_eq_true, if_false]
      cases inserted : db.insertQueue (upsertParams queueName isPaused) with
      | none => exact fun _ ok => absurd rfl ok
      | some r =>
          obtain ⟨db', q⟩ := r
          obtain ⟨rows, row⟩ := QueuesDb.insertQueue_queues inserted
          refine fun improves _ => right_iff.mpr ⟨⟨q, ?_, congrArg QueueInsert.name row⟩, improves.notWrong current.2⟩
          rw [rows]
          exact List.mem_append_right _ (List.mem_singleton_self q)
  | some old =>
      obtain ⟨-, there, seen⟩ := current
      unfold QueuesDb.upsertQueue
      dsimp only
      split
      · rename_i unchanged
        exact fun _ _ => right_iff.mpr ⟨there, seen (isPaused_unchanged unchanged)⟩
      · split
        · exact fun improves _ => right_iff.mpr ⟨improves.there found there, notWrong_updateQueue right⟩
        · exact fun improves _ => right_iff.mpr ⟨improves.there found there, notWrong_updateQueue right⟩

theorem stepUpsert_current {task task' : UpsertTask} (known : queueName ∈ redis.known)
    (current : TaskCurrent redis db queueName task) (stepped : stepUpsert redis queueName db task = some (db', task')) :
    Improves redis db db' ∧ TaskCurrent redis db' queueName task' := by
  cases task with
  | starting =>
      obtain ⟨rfl, rfl⟩ := Prod.mk.inj (Option.some.inj stepped)
      exact ⟨.refl redis db, rfl⟩
  | selecting isPaused =>
      obtain ⟨rfl, rfl⟩ := Prod.mk.inj (Option.some.inj stepped)
      refine ⟨.refl redis db, ?_⟩
      cases selected : db.selectQueue queueName with
      | none =>
          refine ⟨current, fun q hq name => ?_⟩
          exact absurd ⟨q, hq, rfl, name⟩ (QueuesDb.selectQueue_none.mp selected q.id)
      | some existing =>
          have member := List.mem_of_find?_eq_some selected
          have name : existing.name = queueName := by simpa using List.find?_some selected
          refine ⟨current, ⟨existing, member, name⟩, fun same q hq name' => ?_⟩
          rw [db.eq_of_name hq member (name'.trans name.symm), same, current]
  | writing isPaused existing =>
      obtain ⟨improves, after⟩ := upsertQueue_current known current
      revert improves after stepped
      rw [stepUpsert]
      generalize db.upsertQueue .none (upsertParams queueName isPaused) existing = r
      obtain ⟨db'', handler⟩ := r
      intro stepped improves after
      cases handler <;> obtain ⟨rfl, rfl⟩ := Prod.mk.inj (Option.some.inj stepped)
      all_goals first | exact ⟨improves, after (by simp)⟩ | exact ⟨improves, trivial⟩
  | done | failed => cases stepped

end

/-! ## The system -/

/-- The scan has found what Redis has. -/
structure Found (redis : BullQueues) (scan : QueueScan) : Prop where
  only : ∀ queueName ∈ scan.allQueuesNames, queueName ∈ redis.known
  all : scan.complete = true → ∀ queueName ∈ redis.known, queueName ∈ scan.allQueuesNames

/-- The pass has no outdated view of Redis. -/
def PassCurrent (redis : BullQueues) (db : QueuesDb) : QueuePass → Prop
  | .idle => True
  | .scanning moments => moments ≠ [] ∧ ∀ moment ∈ moments, moment.known = redis.known
  | .deleting scan => Found redis scan
  | .ingesting scan tasks => Found redis scan ∧ (scan.complete = true → ∀ q ∈ db.queues, q.name ∈ redis.known) ∧
      ∀ queueName ∈ scan.allQueuesNames, TaskCurrent redis db queueName (tasks queueName)

/-- What the call has done to Redis is still so. -/
def CallCurrent (redis : BullQueues) : QueueCall → Prop
  | .changed .pause queueName => redis.isPaused queueName = true
  | .changed .resume queueName => redis.isPaused queueName = false
  | .changed .delete queueName => queueName ∉ redis.known
  | _ => True

namespace QueueControl

/-- Nothing in flight has an outdated view of Redis. -/
structure Current (s : QueueControl) : Prop where
  calls : ∀ i, CallCurrent s.redis (s.calls i)
  passes : ∀ i, PassCurrent s.redis s.db (s.passes i)

/-- No call is between Redis and the table, and no pass is under way. -/
theorem current_of_idle {s : QueueControl} (calls : ∀ i mutation queueName, s.calls i ≠ .changed mutation queueName)
    (passes : ∀ i, s.passes i = .idle) : Current s where
  calls i := by
    cases call : s.calls i with
    | changed mutation queueName => exact absurd call (calls i mutation queueName)
    | _ => trivial
  passes i := by
    rw [passes i]
    trivial

section

variable {s s' : QueueControl} {i : Nat}

theorem Current.setCall {call : QueueCall} (current : Current s) (next : CallCurrent s.redis call) :
    Current (s.setCall i call) where
  calls j := by
    change CallCurrent s.redis (Function.update s.calls i call j)
    rw [Function.update_apply]
    split
    · exact next
    · exact current.calls j
  passes := current.passes

theorem Current.setPass {pass : QueuePass} (current : Current s) (next : PassCurrent s.redis s.db pass) :
    Current (s.setPass i pass) where
  calls := current.calls
  passes j := by
    change PassCurrent s.redis s.db (Function.update s.passes i pass j)
    rw [Function.update_apply]
    split
    · exact next
    · exact current.passes j

/-- A command that leaves Redis as it is. -/
theorem Current.change (current : Current s) : Current (s.change s.redis) where
  calls := current.calls
  passes j := by
    have here := current.passes j
    change PassCurrent s.redis s.db ((s.passes j).see s.redis)
    cases pass : s.passes j with
    | scanning moments =>
        rw [pass] at here
        refine ⟨List.cons_ne_nil _ _, fun moment member => ?_⟩
        cases List.mem_cons.mp member with
        | inl added => rw [added]
        | inr seen => exact here.2 moment seen
    | idle | deleting | ingesting =>
        rw [pass] at here
        exact here

theorem PassCurrent.improved {redis : BullQueues} {db db' : QueuesDb} {pass : QueuePass}
    (current : PassCurrent redis db pass) (improves : Improves redis db db') : PassCurrent redis db' pass := by
  cases pass with
  | idle | scanning | deleting => exact current
  | ingesting scan tasks =>
      obtain ⟨found, only, tasks⟩ := current
      refine ⟨found, fun complete q hq => ?_, fun queueName listed => ?_⟩
      · cases improves.names q hq with
        | inl known => exact known
        | inr old =>
            obtain ⟨before, member, name⟩ := old
            exact name ▸ only complete before member
      · exact (tasks queueName listed).improved improves (found.only queueName listed)

theorem Current.improved {db : QueuesDb} (current : Current s) (improves : Improves s.redis s.db db) :
    Current { s with db } where
  calls := current.calls
  passes j := PassCurrent.improved (current.passes j) improves

/-- A scan that ends while Redis is as it was from its start. -/
theorem found_of_finds {redis : BullQueues} {moments : List BullQueues} {scan : QueueScan} (started : moments ≠ [])
    (same : ∀ moment ∈ moments, moment.known = redis.known) (finds : Finds moments scan) : Found redis scan where
  only queueName listed := by
    obtain ⟨moment, member, known⟩ := finds.1 queueName listed
    exact same moment member ▸ known
  all complete queueName known := by
    obtain ⟨moment, member⟩ := List.exists_mem_of_ne_nil moments started
    refine finds.2 complete queueName ?_ fun moment member => same moment member ▸ known
    exact List.mem_flatten.mpr ⟨moment.known, List.mem_map_of_mem member, same moment member ▸ known⟩

theorem improves_deleteMissing {redis : BullQueues} {scan : QueueScan} (found : Found redis scan) (db : QueuesDb) :
    Improves redis db (scan.deleteMissing db) ∧
      (scan.complete = true → ∀ q ∈ (scan.deleteMissing db).queues, q.name ∈ redis.known) := by
  cases complete : scan.complete with
  | false =>
      rw [QueueScan.deleteMissing, complete, if_neg Bool.false_ne_true]
      exact ⟨.refl redis db, fun wrong => absurd wrong Bool.false_ne_true⟩
  | true =>
      rw [deleteMissing_eq complete]
      refine ⟨improves_deleteQueues fun q known => ?_, fun _ q hq => ?_⟩
      · simp [found.all complete q.name known]
      · exact found.only q.name (by simpa using (List.mem_filter.mp hq).2)

/-- The query of a call that follows its command. -/
theorem improves_applyMutation {redis : BullQueues} {db db' : QueuesDb} {mutation : QueueMutation} {queueName : String}
    (current : CallCurrent redis (.changed mutation queueName)) (ok : db.applyMutation queueName mutation = .ok db') :
    Improves redis db db' := by
  have paused : ∀ isPaused, redis.isPaused queueName = isPaused →
      db.updateTrackedQueuePausedState queueName isPaused = .ok db' → Improves redis db db' := by
    intro isPaused right ok
    unfold QueuesDb.updateTrackedQueuePausedState at ok
    split at ok
    · obtain rfl := Except.ok.inj ok
      exact ⟨writes_setPaused right.symm, fun q hq _ => ⟨_, List.mem_map_of_mem hq, QueuesDb.setPausedRow_name ..⟩⟩
    · cases ok
  cases mutation with
  | pause => exact paused true current ok
  | resume => exact paused false current ok
  | delete =>
      obtain rfl := Except.ok.inj ok
      exact improves_deleteQueues fun q known => decide_eq_false fun same => current (same ▸ known)

/-- A call takes a step that leaves Redis as it is. -/
theorem Current.act (current : Current s) (acted : s.act i = some s') (steady : s'.redis = s.redis) :
    Current s' ∧ Improves s.redis s.db s'.db := by
  have here := current.calls i
  have command : ∀ redis call, s' = (s.change redis).setCall i call → CallCurrent redis call →
      Current s' ∧ Improves s.redis s.db s'.db := by
    rintro redis call rfl next
    obtain rfl : redis = s.redis := steady
    exact ⟨current.change.setCall next, .refl ..⟩
  unfold QueueControl.act at acted
  split at acted
  · exact command _ _ (Option.some.inj acted).symm (Function.update_self ..)
  · exact command _ _ (Option.some.inj acted).symm (Function.update_self ..)
  · exact command _ _ (Option.some.inj acted).symm trivial
  · exact command _ _ (Option.some.inj acted).symm (by simp [CallCurrent, BullQueues.obliterate])
  · rename_i mutation queueName call
    rw [call] at here
    split at acted
    · rename_i db ok
      obtain rfl := Option.some.inj acted
      have improves := improves_applyMutation here ok
      exact ⟨(current.improved improves).setCall trivial, improves⟩
    · obtain rfl := Option.some.inj acted
      exact ⟨current.setCall trivial, .refl ..⟩
  · cases acted
  · cases acted

theorem Current.request {mutation : QueueMutation} {input : QueueMutationInput} {names : List String}
    (current : Current s) (enabled : s.step (.request i mutation input names) = some s') :
    Current s' ∧ Improves s.redis s.db s'.db := by
  obtain rfl := request_inv enabled
  refine ⟨current.setCall ?_, .refl ..⟩
  obtain ⟨result, settled⟩ | ⟨queueName, resolved⟩ := withResolvedQueue_cases names mutation input
  · exact settled ▸ trivial
  · exact resolved ▸ trivial

theorem Current.scanned {scan : QueueScan} (current : Current s) (enabled : s.step (.scanned i scan) = some s') :
    Current s' ∧ Improves s.redis s.db s'.db := by
  obtain ⟨moments, pass, finds, rfl⟩ := scanned_inv enabled
  have here := current.passes i
  rw [pass] at here
  exact ⟨current.setPass (found_of_finds here.1 here.2 finds), .refl ..⟩

theorem Current.deleteMissing (current : Current s) (enabled : s.step (.deleteMissing i) = some s') :
    Current s' ∧ Improves s.redis s.db s'.db := by
  obtain ⟨scan, pass, rfl⟩ := deleteMissing_inv enabled
  have found := current.passes i
  rw [pass] at found
  obtain ⟨improves, only⟩ := improves_deleteMissing found s.db
  exact ⟨(current.improved improves).setPass ⟨found, only, fun _ _ => trivial⟩, improves⟩

/-- One query of a task. What the other tasks have read still holds. -/
theorem Current.upsert {queueName : String} (current : Current s)
    (enabled : s.step (.upsert i queueName) = some s') : Current s' ∧ Improves s.redis s.db s'.db := by
  obtain ⟨scan, tasks, db, task, pass, listed, stepped, rfl⟩ := upsert_inv enabled
  have here := current.passes i
  rw [pass] at here
  obtain ⟨improves, next⟩ := stepUpsert_current (here.1.only queueName listed) (here.2.2 queueName listed) stepped
  obtain ⟨found, only, others⟩ := PassCurrent.improved here improves
  refine ⟨(current.improved improves).setPass ⟨found, only, ?_⟩, improves⟩
  exact (Function.forall_update_iff tasks fun other task => other ∈ _ → TaskCurrent s.redis db other task).mpr
    ⟨fun _ => next, fun other _ => others other⟩

theorem Current.upsertFails {queueName : String} (current : Current s)
    (enabled : s.step (.upsertFails i queueName) = some s') : Current s' ∧ Improves s.redis s.db s'.db := by
  obtain ⟨scan, tasks, pass, rfl⟩ := upsertFails_inv enabled
  have ⟨found, only, others⟩ : PassCurrent s.redis s.db (.ingesting scan tasks) := pass ▸ current.passes i
  refine ⟨current.setPass ⟨found, only, ?_⟩, .refl ..⟩
  exact (Function.forall_update_iff tasks fun other task => other ∈ _ → TaskCurrent s.redis s.db other task).mpr
    ⟨fun _ => trivial, fun other _ => others other⟩

/-- Any step that leaves Redis as it is. -/
theorem Current.step {a : ControlAction} (current : Current s) (enabled : s.step a = some s')
    (steady : s'.redis = s.redis) : Current s' ∧ Improves s.redis s.db s'.db := by
  cases a with
  | redis redis =>
      obtain rfl := Option.some.inj enabled
      obtain rfl : redis = s.redis := steady
      exact ⟨current.change, .refl ..⟩
  | request => exact current.request enabled
  | act => exact current.act enabled steady
  | fails =>
      obtain rfl := fails_inv enabled
      exact ⟨current.setCall trivial, .refl ..⟩
  | scan =>
      obtain rfl := scan_inv enabled
      exact ⟨current.setPass ⟨List.cons_ne_nil _ _, by simp⟩, .refl ..⟩
  | scanned => exact current.scanned enabled
  | deleteMissing => exact current.deleteMissing enabled
  | upsert => exact current.upsert enabled
  | upsertFails => exact current.upsertFails enabled
  | leave =>
      obtain rfl := Option.some.inj enabled
      exact ⟨current.setPass trivial, .refl ..⟩

/-- A pass that has got through: its scan was complete, and no task failed. -/
def GotThrough : QueuePass → Prop
  | .ingesting scan tasks => scan.complete = true ∧ ∀ queueName ∈ scan.allQueuesNames, tasks queueName = .done
  | _ => False

theorem Current.tracks (current : Current s) (through : GotThrough (s.passes i)) : Tracks s.redis s.db := by
  have here := current.passes i
  cases pass : s.passes i with
  | ingesting scan tasks =>
      rw [pass] at here through
      obtain ⟨found, only, current⟩ := here
      obtain ⟨complete, done⟩ := through
      have right : ∀ queueName ∈ s.redis.known, Right s.redis s.db queueName := by
        intro queueName known
        have listed := found.all complete queueName known
        have task := current queueName listed
        rwa [done queueName listed] at task
      refine ⟨fun queueName known => (right_iff.mp (right queueName known)).1, fun q hq => ?_⟩
      have known := only complete q hq
      exact ⟨known, (right q.name known).notWrong q hq rfl⟩
  | _ =>
      rw [pass] at through
      exact through.elim

theorem tracks_kept {ts : List (Machine.Transition QueueControl ControlAction)}
    (run : Machine.Run QueueControl.step s ts s') (current : Current s) (steady : ∀ x ∈ ts, x.post.redis = x.pre.redis)
    (tracks : Tracks s.redis s.db) : Tracks s'.redis s'.db := by
  induction run with
  | done => exact tracks
  | next enabled _ ih =>
      simp only [List.forall_mem_cons] at steady
      obtain ⟨next, improves⟩ := current.step enabled steady.1
      exact ih next steady.2 (steady.1 ▸ improves.tracks tracks)

/-- While Redis stays as it is, one pass that gets through leaves the table as Redis is,
    and so it stays. -/
theorem tracks_redis {ts : List (Machine.Transition QueueControl ControlAction)}
    (run : Machine.Run QueueControl.step s ts s') (current : Current s) (steady : ∀ x ∈ ts, x.post.redis = x.pre.redis)
    {u : QueueControl} (passed : u ∈ Machine.states s ts) (through : GotThrough (u.passes i)) :
    Tracks s'.redis s'.db := by
  induction run with
  | done =>
      obtain rfl := List.mem_singleton.mp passed
      exact current.tracks through
  | next enabled run ih =>
      simp only [List.forall_mem_cons] at steady
      obtain ⟨next, improves⟩ := current.step enabled steady.1
      cases List.mem_cons.mp passed with
      | inl first =>
          subst first
          have tracks := improves.tracks (current.tracks through)
          rw [← steady.1] at tracks
          exact tracks_kept run next steady.2 tracks
      | inr later => exact ih next steady.2 later

/-- Queue `mail` was paused by another tool, and `gone` was obliterated. -/
def drifted : QueueControl where
  redis := { known := ["mail"], isPaused := fun queueName => queueName = "mail" }
  db := mailAndGone

theorem tracks_redis_drifted : ∃ ts s', Machine.Run QueueControl.step drifted ts s' ∧ Tracks s'.redis s'.db ∧
    s'.db.queues.map (fun q => (q.name, q.isPaused)) = [("mail", true)] := by
  have names : QueueScan.allQueuesNames ⟨true, ["bull:mail:id"]⟩ = ["mail"] := by decide
  have scan : QueueControl.step drifted (.scan 0) = some _ := rfl
  have run := Machine.Run.next scan
    (.next (a := .scanned 0 ⟨true, ["bull:mail:id"]⟩) rfl (.next (a := .deleteMissing 0) rfl
      (.next (a := .upsert 0 "mail") rfl (.next (a := .upsert 0 "mail") rfl (.next (a := .upsert 0 "mail") rfl
        (.done _))))))
  have current : Current drifted := current_of_idle (fun _ _ _ => nofun) fun _ => rfl
  refine ⟨_, _, run, tracks_redis (i := 0) run current ?_ run.last_mem ⟨rfl, ?_⟩, by decide⟩
  · simp only [List.forall_mem_cons]
    exact ⟨rfl, rfl, rfl, rfl, rfl, rfl, nofun⟩
  · rw [names]
    simp only [List.mem_singleton, forall_eq]
    rfl

end

end QueueControl

end BetterBullBoard
