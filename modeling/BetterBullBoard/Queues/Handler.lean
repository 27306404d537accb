import BetterBullBoard.Queues.Ingest

/-! # The steps of a queue's handler

What one query of a handler does to the holders of keys, whatever the other
handlers did before it, and what of a handler's own knowledge always holds.
-/

namespace BetterBullBoard

namespace QueueHandler

/-- The queue row a handler goes by is its queue's. -/
def Ready (redis : RedisQueues) (queueName : String) (h : Option QueueHandler) (db : QueuesDb) : Prop :=
  match h with
  | some (.writing (some row)) => db.Named row.id queueName
  | some (.writing none) => ∀ id, ¬ db.Named id queueName
  | some (.deleting queueId) => db.Named queueId queueName
  | some (.upserting params _) =>
      (∃ queueId, db.Named queueId queueName ∧ params = redis.schedulerParams queueName queueId) ∧
        ∀ key ∈ redis.keys queueName, isText key
  | some .failed | some .selecting | none => True

/-- The same queues, the same holders of keys, and the same rows. -/
def SameQueues (db db' : QueuesDb) : Prop := ∀ id queueName, db'.Named id queueName ↔ db.Named id queueName

def SameHolders (db db' : QueuesDb) : Prop := ∀ key queueName, db'.Holds key queueName ↔ db.Holds key queueName

def SameRows (db db' : QueuesDb) : Prop := db'.jobSchedulers = db.jobSchedulers

/-- Postgres refuses to write the scheduler of this key over the row its task saw. -/
def CannotWrite (unstorable : Unstorable) (redis : RedisQueues) (queueName key : String) (db : QueuesDb)
    (existing : Option JobScheduler) : Prop :=
  ∃ s ∈ (redis.queue queueName).jobSchedulers, s.key = key ∧ ∃ queueId, db.Named queueId queueName ∧
    (RedisQueues.schedulerParam queueId s).refused unstorable ∧
      ∀ row, existing = some row → getChangedKeys (RedisQueues.schedulerParam queueId s).columns row.columns ≠ []

/-- One step of the handler of a queue, a constructor for each outcome. -/
inductive Moves (unstorable : Unstorable) (redis : RedisQueues) (queueName : String) (db : QueuesDb) :
    QueueHandler → QueuesDb → QueueHandler → Prop where
  | looked : Moves unstorable redis queueName db .selecting db (.writing (db.selectQueue queueName))
  | found {row db'} : SameQueues db db' → SameHolders db db' → SameRows db db' →
      Moves unstorable redis queueName db (.writing (some row)) db' (.deleting row.id)
  | created {newId db'} : unstorable.queueName queueName = false →
      (∀ id other, db'.Named id other ↔ db.Named id other ∨ (id = newId ∧ other = queueName)) → SameHolders db db' →
      SameRows db db' → Moves unstorable redis queueName db (.writing none) db' (.deleting newId)
  | turnedAway : unstorable.queueName queueName = true →
      Moves unstorable redis queueName db (.writing none) db .failed
  | cleared {queueId db'} : (∀ key ∈ redis.keys queueName, isText key) → db.Named queueId queueName →
      SameQueues db db' →
      (∀ key other, db'.Holds key other ↔ db.Holds key other ∧ ¬ (other = queueName ∧ key ∉ redis.keys queueName)) →
      (∀ r ∈ db.jobSchedulers, ¬ (r.queueId = queueId ∧ r.key ∉ redis.keys queueName) → r ∈ db'.jobSchedulers) →
      Moves unstorable redis queueName db (.deleting queueId) db'
        (.upserting (redis.schedulerParams queueName queueId) fun _ => .selecting)
  | unreadable {queueId key} : key ∈ redis.keys queueName → isText key = false →
      Moves unstorable redis queueName db (.deleting queueId) db .failed
  | seen {params tasks key} : key ∈ redis.keys queueName → tasks key = .selecting →
      Moves unstorable redis queueName db (.upserting params tasks) db
        (.upserting params (Function.update tasks key (.writing (db.selectScheduler key))))
  | kept {params tasks key row} : key ∈ redis.keys queueName → tasks key = .writing (some row) →
      Moves unstorable redis queueName db (.upserting params tasks) db
        (.upserting params (Function.update tasks key .done))
  | moved {params tasks key row db'} : key ∈ redis.keys queueName → tasks key = .writing (some row) →
      SameQueues db db' →
      (∀ k other, db'.Holds k other ↔ if k = key then other = queueName ∧ ∃ before, db.Holds key before
        else db.Holds k other) →
      (∀ s ∈ (redis.queue queueName).jobSchedulers, s.key = key →
        (RedisQueues.schedulerParam 0 s).refused unstorable = false) →
      (∀ r ∈ db.jobSchedulers, r.key ≠ key → r ∈ db'.jobSchedulers) →
      Moves unstorable redis queueName db (.upserting params tasks) db'
        (.upserting params (Function.update tasks key .done))
  | inserted {params tasks key db'} : key ∈ redis.keys queueName → tasks key = .writing none →
      (∀ other, ¬ db.Holds key other) → SameQueues db db' →
      (∀ k other, db'.Holds k other ↔ db.Holds k other ∨ (k = key ∧ other = queueName)) →
      (∀ r ∈ db.jobSchedulers, r ∈ db'.jobSchedulers) →
      Moves unstorable redis queueName db (.upserting params tasks) db'
        (.upserting params (Function.update tasks key .done))
  | clashed {params tasks key other} : key ∈ redis.keys queueName → tasks key = .writing none → db.Holds key other →
      Moves unstorable redis queueName db (.upserting params tasks) db
        (.upserting params (Function.update tasks key .failed))
  | refused {params tasks key existing} : key ∈ redis.keys queueName → tasks key = .writing existing →
      CannotWrite unstorable redis queueName key db existing →
      Moves unstorable redis queueName db (.upserting params tasks) db
        (.upserting params (Function.update tasks key .failed))

variable {unstorable : Unstorable} {redis : RedisQueues} {queueName other : String} {db db' : QueuesDb}
  {h h' : QueueHandler} {id : Nat}

theorem moves_upsertQueue {existing : Option QueueRow} (ready : Ready redis queueName (some (.writing existing)) db) :
    Moves unstorable redis queueName db (.writing existing)
      (db.upsertQueue unstorable (redis.queueParams queueName) existing).1
      (db.upsertQueue unstorable (redis.queueParams queueName) existing).2 := by
  cases existing with
  | some row =>
      simp only [QueuesDb.upsertQueue]
      split
      · exact .found (fun _ _ => Iff.rfl) (fun _ _ => Iff.rfl) rfl
      · have named : (db.updateQueue (redis.queueParams queueName)).Named row.id (redis.queueParams queueName).name :=
          QueuesDb.named_updateQueue.mpr ready
        obtain ⟨updated, returned, id⟩ := QueuesDb.selectQueue_isSome named
        rw [returned]
        dsimp only
        rw [id]
        exact .found (fun _ _ => QueuesDb.named_updateQueue) (fun _ _ => QueuesDb.holds_updateQueue) rfl
  | none =>
      have fresh : ∀ id, ¬ db.Named id (redis.queueParams queueName).name := ready
      obtain ⟨db', row, inserted⟩ := QueuesDb.insertQueue_isSome fresh
      obtain ⟨named, holds, rows⟩ := QueuesDb.insertQueue_spec inserted
      simp only [QueuesDb.upsertQueue, inserted]
      cases away : unstorable.queueName (redis.queueParams queueName).name with
      | true => exact .turnedAway away
      | false => exact .created away named holds rows

theorem refused_schedulerParam (unstorable : Unstorable) (id id' : Nat) (s : RedisScheduler) :
    (RedisQueues.schedulerParam id s).refused unstorable = (RedisQueues.schedulerParam id' s).refused unstorable := by
  have same := unstorable.queueId (RedisQueues.schedulerParam id' s) id
  exact congrArg (· || _) same

theorem moves_upsertScheduler {tasks : String → SchedulerTask} {queueId : Nat} {s : RedisScheduler}
    {params : List JobScheduler} {existing : Option JobScheduler} (owner : db.Named queueId queueName)
    (listed : s ∈ (redis.queue queueName).jobSchedulers) (text : isText s.key)
    (task : tasks s.key = .writing existing) :
    Moves unstorable redis queueName db (.upserting params tasks)
      (db.upsertScheduler unstorable (RedisQueues.schedulerParam queueId s) existing).1
      (.upserting params (Function.update tasks s.key
        (db.upsertScheduler unstorable (RedisQueues.schedulerParam queueId s) existing).2)) := by
  have member : s.key ∈ redis.keys queueName := List.mem_map_of_mem listed
  cases existing with
  | some row =>
      simp only [QueuesDb.upsertScheduler]
      split
      · exact .kept member task
      · rename_i changed
        cases refused : (RedisQueues.schedulerParam queueId s).refused unstorable with
        | true =>
            rw [QueuesDb.updateScheduler_refused refused]
            refine .refused member task ⟨s, listed, rfl, queueId, owner, refused, fun row' same absent => changed ?_⟩
            obtain rfl := Option.some.inj same
            rw [absent]
            rfl
        | false =>
            obtain ⟨db', updated⟩ := QueuesDb.updateScheduler_isSome refused text owner
            obtain ⟨named, holds, rows⟩ := QueuesDb.updateScheduler_spec updated owner
            simp only [updated]
            refine .moved member task named (fun k other => ?_) (fun s' listed' same => ?_) rows
            · refine (holds k other).trans ?_
              by_cases same : k = s.key
              · rw [same]
                exact Iff.rfl
              · rw [if_neg same]
                exact Iff.of_eq (if_neg same)
            · obtain rfl := List.inj_on_of_nodup_map (redis.queue queueName).keys listed' listed same
              exact (refused_schedulerParam unstorable 0 queueId s').trans refused
  | none =>
      simp only [QueuesDb.upsertScheduler]
      cases refused : (RedisQueues.schedulerParam queueId s).refused unstorable with
      | true =>
          rw [QueuesDb.insertScheduler_refused refused]
          exact .refused member task ⟨s, listed, rfl, queueId, owner, refused, fun _ same => by cases same⟩
      | false =>
          cases Classical.em (∃ other, db.Holds s.key other) with
          | inl held =>
              obtain ⟨other, held⟩ := held
              have clash : db.insertScheduler unstorable (RedisQueues.schedulerParam queueId s) = none :=
                QueuesDb.insertScheduler_none held
              rw [clash]
              exact .clashed member task held
          | inr free =>
              have free : ∀ other, ¬ db.Holds s.key other := fun other held => free ⟨other, held⟩
              obtain ⟨db', inserted⟩ := QueuesDb.insertScheduler_isSome refused text owner free
              obtain ⟨named, holds, rows⟩ := QueuesDb.insertScheduler_spec inserted owner
              simp only [inserted]
              exact .inserted member task free named holds rows

theorem moves_of_handle {query : QueueQuery} {r : QueuesDb × QueueHandler} (ready : Ready redis queueName (some h) db)
    (enabled : handle unstorable redis queueName (db, h) query = some r) :
    Moves unstorable redis queueName db h r.1 r.2 := by
  cases query with
  | queue =>
      cases h with
      | selecting =>
          obtain rfl := Option.some.inj enabled
          exact .looked
      | writing existing =>
          obtain rfl := Option.some.inj enabled
          exact moves_upsertQueue ready
      | deleting queueId =>
          simp only [handle] at enabled
          split at enabled
          · rename_i texts
            obtain rfl := Option.some.inj enabled
            refine .cleared (fun key wanted => ?_) ready (fun _ _ => Iff.rfl) (fun key other => ?_) fun r hr other => ?_
            · rw [← RedisQueues.keys_schedulerParams redis queueName queueId] at wanted
              obtain ⟨param, listed, rfl⟩ := List.mem_map.mp wanted
              exact List.all_eq_true.mp texts param listed
            · rw [RedisQueues.keys_schedulerParams]
              exact QueuesDb.holds_deleteSchedulers ready
            · rw [RedisQueues.keys_schedulerParams]
              exact QueuesDb.mem_deleteSchedulers hr other
          · rename_i texts
            obtain rfl := Option.some.inj enabled
            simp only [List.all_eq_true, not_forall] at texts
            obtain ⟨param, listed, broken⟩ := texts
            have wanted : param.key ∈ redis.keys queueName := by
              rw [← RedisQueues.keys_schedulerParams redis queueName queueId]
              exact List.mem_map_of_mem listed
            exact .unreadable wanted (Bool.not_eq_true _ ▸ broken)
      | upserting | failed => cases enabled
  | scheduler key =>
      cases h with
      | upserting params tasks =>
          obtain ⟨⟨queueId, named, rfl⟩, texts⟩ := ready
          simp only [handle] at enabled
          split at enabled
          · cases enabled
          · rename_i param found
            obtain rfl : param.key = key := by simpa using List.find?_some found
            obtain ⟨s, listed, rfl⟩ := RedisQueues.mem_schedulerParams.mp (List.mem_of_find?_eq_some found)
            have member : s.key ∈ redis.keys queueName := List.mem_map_of_mem listed
            obtain ⟨u, stepped, rfl⟩ := Option.map_eq_some_iff.mp enabled
            have same : (RedisQueues.schedulerParam queueId s).key = s.key := rfl
            rw [same] at stepped ⊢
            cases task : tasks s.key with
            | selecting =>
                rw [task] at stepped
                obtain rfl := Option.some.inj stepped
                exact .seen member task
            | writing existing =>
                rw [task] at stepped
                obtain rfl := Option.some.inj stepped
                exact moves_upsertScheduler named listed (texts _ member) task
            | done | failed =>
                rw [task] at stepped
                cases stepped
      | selecting | writing | deleting | failed => cases enabled

/-- A handler adds at most its own queue. -/
theorem Moves.named (moves : Moves unstorable redis queueName db h db' h') :
    (∀ id other, db.Named id other → db'.Named id other) ∧
      ∀ id other, other ≠ queueName → db'.Named id other → db.Named id other := by
  cases moves with
  | looked | turnedAway | unreadable | seen | kept | clashed | refused =>
      exact ⟨fun _ _ named => named, fun _ _ _ named => named⟩
  | found same | cleared _ _ same | moved _ _ same | inserted _ _ _ same =>
      exact ⟨fun id other => (same id other).mpr, fun id other _ => (same id other).mp⟩
  | created _ named =>
      exact ⟨fun id other old => (named id other).mpr (.inl old), fun id other apart now =>
        ((named id other).mp now).resolve_right fun new => apart new.2⟩

theorem Ready.own (moves : Moves unstorable redis queueName db h db' h') (ready : Ready redis queueName (some h) db) :
    Ready redis queueName (some h') db' := by
  have grows := moves.named.1
  cases moves with
  | looked =>
      cases selected : db.selectQueue queueName with
      | some row => exact QueuesDb.selectQueue_some selected
      | none => exact QueuesDb.selectQueue_none.mp selected
  | found same => exact (same _ _).mpr ready
  | created _ named => exact (named _ _).mpr (.inr ⟨rfl, rfl⟩)
  | turnedAway | unreadable => trivial
  | cleared texts owner same => exact ⟨⟨_, (same _ _).mpr owner, rfl⟩, texts⟩
  | seen | kept | moved | inserted | clashed | refused =>
      obtain ⟨⟨queueId, named, params⟩, texts⟩ := ready
      exact ⟨⟨queueId, grows _ _ named, params⟩, texts⟩

theorem Ready.frame {h : Option QueueHandler} {g g' : QueueHandler}
    (moves : Moves unstorable redis queueName db g db' g')
    (apart : other ≠ queueName) (ready : Ready redis other h db) : Ready redis other h db' := by
  obtain ⟨grows, new⟩ := moves.named
  unfold Ready at ready ⊢
  split at ready
  · exact grows _ _ ready
  · exact fun id named => ready id (new _ _ apart named)
  · exact grows _ _ ready
  · obtain ⟨⟨queueId, named, params⟩, texts⟩ := ready
    exact ⟨⟨queueId, grows _ _ named, params⟩, texts⟩
  · exact trivial
  · exact trivial
  · exact trivial

end QueueHandler

end BetterBullBoard
