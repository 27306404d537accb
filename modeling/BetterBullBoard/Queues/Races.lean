import BetterBullBoard.Queues.Mirror

/-! # When a pass can lose a scheduler

A handler alone always comes to its end, so a pass can be completed from any
order of steps. When a queue still holds a key that is now another queue's, its
handler can delete the row between the two queries of the other one's task, and
the key is lost. When Postgres refuses one scheduler of a queue, its task can fail
before the others have written theirs.
-/

namespace BetterBullBoard

namespace QueueHandler

variable {unstorable : Unstorable} {redis : RedisQueues} {queueName other key : String} {db : QueuesDb}
  {h : QueueHandler}

/-- The handler can come to its end by its own steps. -/
def CanEnd (unstorable : Unstorable) (redis : RedisQueues) (queueName : String) (db : QueuesDb) (h : QueueHandler) :
    Prop :=
  ∃ us r, Machine.Run (handle unstorable redis queueName) (db, h) us r ∧ ended queueName r.2

theorem CanEnd.before (query : QueueQuery) {r : QueuesDb × QueueHandler}
    (enabled : handle unstorable redis queueName (db, h) query = some r)
    (rest : CanEnd unstorable redis queueName r.1 r.2) :
    CanEnd unstorable redis queueName db h := by
  obtain ⟨us, stopped, run, ends⟩ := rest
  exact ⟨_, stopped, .next enabled run, ends⟩

theorem upsertScheduler_settles (unstorable : Unstorable) (db : QueuesDb) (param : JobScheduler)
    (existing : Option JobScheduler) :
    (db.upsertScheduler unstorable param existing).2.isDone ||
      (db.upsertScheduler unstorable param existing).2.isFailed := by
  cases existing with
  | some row =>
      simp only [QueuesDb.upsertScheduler]
      split
      · rfl
      · split <;> rfl
  | none =>
      simp only [QueuesDb.upsertScheduler]
      split <;> rfl

theorem handle_task {params : List JobScheduler} {tasks : String → SchedulerTask} {param : JobScheduler}
    (found : params.find? (fun param => param.key = key) = some param) :
    handle unstorable redis queueName (db, .upserting params tasks) (.scheduler key) =
      (stepTask unstorable db param (tasks key)).map fun r =>
        (r.1, .upserting params (Function.update tasks key r.2)) := by
  simp only [handle, found]

variable (unstorable redis queueName db) in
/-- One task comes to its end in at most two steps. -/
theorem finish_task {params : List JobScheduler} (tasks : String → SchedulerTask)
    (listed : ∃ param ∈ params, param.key = key) :
    ∃ us db' task, Machine.Run (handle unstorable redis queueName) (db, .upserting params tasks) us
        (db', .upserting params (Function.update tasks key task)) ∧ (task.isDone || task.isFailed) := by
  obtain ⟨p, member, same⟩ := listed
  cases found : params.find? (fun param => param.key = key) with
  | none => exact absurd (decide_eq_true same) (List.find?_eq_none.mp found p member)
  | some param =>
      -- the write, once the task has seen whether there is a row
      have write : ∀ (tasks : String → SchedulerTask) existing, tasks key = .writing existing →
          ∃ us db' task, Machine.Run (handle unstorable redis queueName) (db, .upserting params tasks) us
            (db', .upserting params (Function.update tasks key task)) ∧ (task.isDone || task.isFailed) := by
        intro tasks existing task
        have enabled : handle unstorable redis queueName (db, .upserting params tasks) (.scheduler key) = _ :=
          handle_task found
        rw [task] at enabled
        exact ⟨_, _, _, .next enabled (.done _), upsertScheduler_settles unstorable db param existing⟩
      cases task : tasks key with
      | selecting =>
          have enabled : handle unstorable redis queueName (db, .upserting params tasks) (.scheduler key) = _ :=
            handle_task found
          rw [task] at enabled
          obtain ⟨us, db', t, run, ends⟩ :=
            write (Function.update tasks key (.writing (db.selectScheduler param.key))) _ (Function.update_self ..)
          rw [Function.update_idem] at run
          exact ⟨_, db', t, .next enabled run, ends⟩
      | writing existing => exact write tasks existing task
      | done | failed =>
          refine ⟨[], db, tasks key, ?_, by rw [task]; rfl⟩
          rw [Function.update_eq_self]
          exact .done _

variable (unstorable redis queueName) in
theorem finish_tasks {params : List JobScheduler} (keys : List String)
    (listed : ∀ key ∈ keys, ∃ param ∈ params, param.key = key)
    (db : QueuesDb) (tasks : String → SchedulerTask) :
    ∃ us db' tasks', Machine.Run (handle unstorable redis queueName) (db, .upserting params tasks) us
        (db', .upserting params tasks') ∧
      ∀ key ∈ keys, (tasks' key).isDone || (tasks' key).isFailed := by
  induction keys with
  | nil => exact ⟨_, db, tasks, .done _, by simp⟩
  | cons key keys ih =>
      rw [List.forall_mem_cons] at listed
      obtain ⟨us, db₁, tasks₁, first, finished⟩ := ih listed.2
      obtain ⟨vs, db₂, task, second, ends⟩ := finish_task unstorable redis queueName db₁ tasks₁ listed.1
      refine ⟨_, db₂, _, first.append second, fun k hk => ?_⟩
      cases Decidable.em (k = key) with
      | inl same => rw [same, Function.update_self]; exact ends
      | inr apart =>
          rw [Function.update_of_ne apart]
          exact finished k ((List.mem_cons.mp hk).resolve_left apart)

theorem ended_of_finished {params : List JobScheduler} {tasks : String → SchedulerTask}
    (finished : ∀ key ∈ params.map (·.key), (tasks key).isDone || (tasks key).isFailed) :
    ended queueName (.upserting params tasks) := by
  simp only [ended, Bool.or_eq_true, List.any_eq_true, List.all_eq_true]
  by_cases failed : ∃ param ∈ params, (tasks param.key).isFailed
  · exact .inl failed
  · refine .inr fun param member => ?_
    have ends := finished param.key (List.mem_map_of_mem member)
    exact (Bool.or_eq_true_iff.mp ends).resolve_right fun fail => failed ⟨param, member, fail⟩

theorem canEnd (unstorable : Unstorable) (redis : RedisQueues) (queueName : String) (db : QueuesDb) (h : QueueHandler) :
    CanEnd unstorable redis queueName db h := by
  have upserting : ∀ db params tasks, CanEnd unstorable redis queueName db (.upserting params tasks) := by
    intro db params tasks
    obtain ⟨us, db', tasks', run, finished⟩ := finish_tasks unstorable redis queueName
      (params.map (·.key)) (fun key member => List.mem_map.mp member) db tasks
    exact ⟨us, _, run, ended_of_finished finished⟩
  have failed : ∀ db, CanEnd unstorable redis queueName db .failed := fun db => ⟨_, _, .done _, rfl⟩
  have deleting : ∀ db queueId, CanEnd unstorable redis queueName db (.deleting queueId) := by
    intro db queueId
    by_cases texts : (redis.schedulerParams queueName queueId).all fun param => isText param.key
    · exact CanEnd.before .queue (by rw [handle, if_pos texts]) (upserting _ _ _)
    · exact CanEnd.before .queue (by rw [handle, if_neg texts]) (failed _)
  have writing : ∀ db existing, CanEnd unstorable redis queueName db (.writing existing) := by
    intro db existing
    refine CanEnd.before .queue (r := db.upsertQueue unstorable (redis.queueParams queueName) existing) rfl ?_
    unfold QueuesDb.upsertQueue
    cases existing with
    | some row =>
        dsimp only
        split
        · exact deleting _ _
        · split
          · exact deleting _ _
          · exact failed _
    | none =>
        dsimp only
        split
        · exact failed _
        · split
          · exact deleting _ _
          · exact failed _
  cases h with
  | selecting => exact CanEnd.before .queue rfl (writing _ _)
  | writing existing => exact writing db existing
  | deleting queueId => exact deleting db queueId
  | upserting params tasks => exact upserting db params tasks
  | failed => exact failed db

/-- What holds at the start of steps of one handler and is kept by each holds at
    their end. -/
theorem run_keeps {J : QueuesDb → QueueHandler → Prop}
    (keep : ∀ db h db' h', Ready redis queueName (some h) db →
      Moves unstorable redis queueName db h db' h' → J db h → J db' h')
    {us : List (Machine.Transition (QueuesDb × QueueHandler) QueueQuery)} {r : QueuesDb × QueueHandler}
    (run : Machine.Run (handle unstorable redis queueName) (db, h) us r) (ready : Ready redis queueName (some h) db)
    (start : J db h) :
    Ready redis queueName (some r.2) r.1 ∧ J r.1 r.2 := by
  refine run.invariant (I := fun r => Ready redis queueName (some r.2) r.1 ∧ J r.1 r.2) ?_ ⟨ready, start⟩
  rintro ⟨db, h⟩ query ⟨db', h'⟩ ⟨ready, holds⟩ enabled
  have moves := moves_of_handle ready enabled
  exact ⟨ready.own moves, keep db h db' h' ready moves holds⟩

/-- The row of the key is under a queue that has this id. -/
structure HeldBy (db : QueuesDb) (key : String) (queueId : Nat) (other : String) : Prop where
  named : db.Named queueId other
  holds : db.Holds key other

variable {queueId : Nat}

theorem HeldBy.step {db' : QueuesDb} {h' : QueueHandler} (held : HeldBy db key queueId other)
    (moves : Moves unstorable redis queueName db h db' h') (foreign : key ∉ redis.keys queueName)
    (apart : other ≠ queueName) :
    HeldBy db' key queueId other where
  named := moves.named.1 _ _ held.named
  holds := (moves.same_holders foreign (fun mine => apart (held.holds.queue_eq mine)) other).mpr held.holds

/-- The queue has a row, or can get one. -/
def GetsRow (unstorable : Unstorable) (queueName : String) (db : QueuesDb) : Prop :=
  unstorable.queueName queueName = true → ∃ id, db.Named id queueName

theorem GetsRow.step {db' : QueuesDb} {h' : QueueHandler} (gets : GetsRow unstorable other db)
    (moves : Moves unstorable redis queueName db h db' h') : GetsRow unstorable other db' := by
  intro away
  obtain ⟨id, named⟩ := gets away
  exact ⟨id, moves.named.1 _ _ named⟩

variable (unstorable redis) in
/-- The first steps of a handler upsert its queue. -/
theorem exists_deleting (gets : GetsRow unstorable queueName db) :
    ∃ us db' queueId, Machine.Run (handle unstorable redis queueName) (db, .selecting) us (db', .deleting queueId) ∧
      Ready redis queueName (some (.deleting queueId)) db' ∧ (∀ id other, db.Named id other → db'.Named id other) ∧
      SameHolders db db' ∧ SameRows db db' := by
  have ready : Ready redis queueName (some (.writing (db.selectQueue queueName))) db :=
    Ready.own (Moves.looked : Moves unstorable redis queueName db .selecting db _) trivial
  have moves : Moves unstorable redis queueName db _ _ _ := moves_upsertQueue ready
  have second : handle unstorable redis queueName (db, .writing (db.selectQueue queueName)) .queue =
      some (db.upsertQueue unstorable (redis.queueParams queueName) (db.selectQueue queueName)) := rfl
  generalize db.upsertQueue unstorable (redis.queueParams queueName) (db.selectQueue queueName) = r at moves second
  obtain ⟨db', h'⟩ := r
  have grows := moves.named.1
  have ready' := ready.own moves
  generalize selected : db.selectQueue queueName = existing at moves ready
  cases moves with
  | found _ same rows =>
      exact ⟨_, db', _, .next (a := .queue) rfl (.next second (.done _)), ready', grows, same, rows⟩
  | created _ _ same rows =>
      exact ⟨_, db', _, .next (a := .queue) rfl (.next second (.done _)), ready', grows, same, rows⟩
  | turnedAway away =>
      obtain ⟨id, named⟩ := gets away
      exact absurd named (ready id)

/-- What the steps of a handler before its tasks leave. -/
structure Begun (redis : RedisQueues) (queueName : String) (db db' : QueuesDb) : Prop where
  named : ∀ id other, db.Named id other → db'.Named id other
  fewer : ∀ key other, db'.Holds key other → db.Holds key other
  others : ∀ key other, other ≠ queueName → db.Holds key other → db'.Holds key other
  rows : ∀ r ∈ db.jobSchedulers, r.key ∈ redis.keys queueName → r ∈ db'.jobSchedulers

variable (unstorable db) in
theorem handle_deleting (texts : ∀ key ∈ redis.keys queueName, isText key) (queueId : Nat) :
    handle unstorable redis queueName (db, .deleting queueId) .queue =
      some
        (db.deleteSchedulers (QueuesDb.oldSchedulers queueId ((redis.schedulerParams queueName queueId).map (·.key))),
          .upserting (redis.schedulerParams queueName queueId) fun _ => .selecting) := by
  refine if_pos (List.all_eq_true.mpr fun param listed => texts param.key ?_)
  rw [← RedisQueues.keys_schedulerParams redis queueName queueId]
  exact List.mem_map_of_mem listed

/-- The next one deletes its old schedulers. -/
theorem exists_upserting (texts : ∀ key ∈ redis.keys queueName, isText key) (gets : GetsRow unstorable queueName db) :
    ∃ us db' queueId, Machine.Run (handle unstorable redis queueName) (db, .selecting) us
        (db', .upserting (redis.schedulerParams queueName queueId) fun _ => .selecting) ∧
      db'.Named queueId queueName ∧ Begun redis queueName db db' := by
  obtain ⟨us, db₁, queueId, run, ready, grows, same, rows⟩ := exists_deleting unstorable redis gets
  have enabled := handle_deleting unstorable db₁ texts queueId
  refine ⟨_, _, queueId, run.append (.next enabled (.done _)), ready, ?_⟩
  rw [RedisQueues.keys_schedulerParams]
  refine ⟨grows, fun key other held => ?_, fun key other apart held => ?_, fun r hr wanted => ?_⟩
  · exact (same _ _).mp ((QueuesDb.holds_deleteSchedulers ready).mp held).1
  · exact (QueuesDb.holds_deleteSchedulers ready).mpr ⟨(same _ _).mpr held, fun gone => apart gone.1⟩
  · exact QueuesDb.mem_deleteSchedulers (rows ▸ hr) fun old => old.2 wanted

theorem find_param {s : RedisScheduler} (listed : s ∈ (redis.queue queueName).jobSchedulers) (queueId : Nat) :
    (redis.schedulerParams queueName queueId).find? (fun param => param.key = s.key) =
      some (RedisQueues.schedulerParam queueId s) := by
  cases found : (redis.schedulerParams queueName queueId).find? fun param => param.key = s.key with
  | none =>
      have member : RedisQueues.schedulerParam queueId s ∈ redis.schedulerParams queueName queueId :=
        RedisQueues.mem_schedulerParams.mpr ⟨s, listed, rfl⟩
      exact absurd (decide_eq_true rfl) (List.find?_eq_none.mp found _ member)
  | some param =>
      obtain ⟨s', listed', rfl⟩ := RedisQueues.mem_schedulerParams.mp (List.mem_of_find?_eq_some found)
      have same : s'.key = s.key := by simpa [RedisQueues.schedulerParam] using List.find?_some found
      rw [List.inj_on_of_nodup_map (redis.queue queueName).keys listed' listed same]

/-- A handler that is about to look a key up finds the row another queue holds. -/
theorem exists_seen (texts : ∀ key ∈ redis.keys queueName, isText key) (gets : GetsRow unstorable queueName db)
    (wanted : key ∈ redis.keys queueName) (apart : other ≠ queueName) (held : HeldBy db key queueId other) :
    ∃ us db' params tasks row,
      Machine.Run (handle unstorable redis queueName) (db, .selecting) us (db', .upserting params tasks) ∧
      tasks key = .writing (some row) ∧ HeldBy db' key queueId other ∧ GetsRow unstorable queueName db' := by
  obtain ⟨us, db', mine, run, named, begun⟩ := exists_upserting texts gets
  have still : HeldBy db' key queueId other := ⟨begun.named _ _ held.named, begun.others _ _ apart held.holds⟩
  obtain ⟨s, listed, rfl⟩ := List.mem_map.mp wanted
  have enabled : handle unstorable redis queueName (db', .upserting _ fun _ => .selecting) (.scheduler s.key) = _ :=
    handle_task (find_param listed mine)
  cases selected : db'.selectScheduler s.key with
  | none => exact absurd still.holds (QueuesDb.selectScheduler_none.mp selected _)
  | some row =>
      refine ⟨_, db', _, _, row, run.append (.next enabled (.done _)), ?_, still, fun _ => ⟨mine, named⟩⟩
      rw [Function.update_self]
      exact congrArg SchedulerTask.writing selected

/-! ## The race -/

def Free (db : QueuesDb) (key : String) : Prop := ∀ m, ¬ db.Holds key m

theorem Free.step {db' : QueuesDb} {h' : QueueHandler} (free : Free db key) (foreign : key ∉ redis.keys queueName)
    (moves : Moves unstorable redis queueName db h db' h') : Free db' key :=
  fun m held => free m ((moves.same_holders foreign (free queueName) m).mp held)

/-- The task of the key saw a row that is gone. -/
structure Misled (key : String) (db : QueuesDb) (h : QueueHandler) : Prop where
  free : Free db key
  task : ∃ params tasks, h = .upserting params tasks ∧
    ((∃ row, tasks key = .writing (some row)) ∨ tasks key = .done ∨ tasks key = .failed)

/-- Its update finds no row, and nothing else writes the key. -/
theorem Misled.step {db' : QueuesDb} {h' : QueueHandler} (misled : Misled key db h)
    (moves : Moves unstorable redis queueName db h db' h') : Misled key db' h' := by
  obtain ⟨free, params, tasks, rfl, task⟩ := misled
  have later : ∀ (k : String) (t : SchedulerTask), (k = key → t = .done ∨ t = .failed) →
      (∃ row, Function.update tasks k t key = .writing (some row)) ∨ Function.update tasks k t key = .done ∨
        Function.update tasks k t key = .failed := by
    intro k t finished
    cases Decidable.em (key = k) with
    | inl same =>
        rw [← same, Function.update_self]
        exact .inr (finished same.symm)
    | inr other =>
        rw [Function.update_of_ne other]
        exact task
  -- a task that still has to look, or saw no row, is another key's
  have another : ∀ k, tasks k = .selecting ∨ tasks k = .writing none → k ≠ key := by
    rintro k early rfl
    cases early with
    | inl early => simp [early] at task
    | inr early => simp [early] at task
  cases moves with
  | seen _ early => exact ⟨free, _, _, rfl, later _ _ fun same => absurd same (another _ (.inl early))⟩
  | kept => exact ⟨free, _, _, rfl, later _ _ fun _ => .inl rfl⟩
  | moved _ _ _ holds =>
      refine ⟨fun m held => ?_, _, _, rfl, later _ _ fun _ => .inl rfl⟩
      have now := (holds _ _).mp held
      split at now
      · rename_i same
        obtain ⟨before, row⟩ := now.2
        exact free before (same ▸ row)
      · exact free m now
  | inserted _ early _ _ holds =>
      refine ⟨fun m held => ?_, _, _, rfl, later _ _ fun _ => .inl rfl⟩
      cases (holds _ _).mp held with
      | inl old => exact free m old
      | inr new => exact another _ (.inr early) new.1.symm
  | clashed _ early => exact ⟨free, _, _, rfl, later _ _ fun same => absurd same (another _ (.inr early))⟩
  | refused => exact ⟨free, _, _, rfl, later _ _ fun _ => .inr rfl⟩

/-- The queue of the key has seen the row, its holder is about to delete it, and
    the others are done. -/
structure AtRace (key queueName other : String) (queueId : Nat) (i : String) (h : QueueHandler) : Prop where
  wants : i = queueName → ∃ params tasks row, h = .upserting params tasks ∧ tasks key = .writing (some row)
  holder : i = other → h = .deleting queueId
  rest : i ≠ queueName → i ≠ other → ended i h

theorem reach_race (apart : KeysApart redis) (texts : ∀ n ∈ redis.queueNames, ∀ key ∈ redis.keys n, isText key)
    (listed : queueName ∈ redis.queueNames) (wanted : key ∈ redis.keys queueName) (different : other ≠ queueName)
    (i : String) (item : i ∈ redis.queueNames) (db : QueuesDb)
    (start : HeldBy db key queueId other ∧ GetsRow unstorable queueName db) :
    ∃ us r, Machine.Run (handle unstorable redis i) (db, .selecting) us r ∧ AtRace key queueName other queueId i r.2 ∧
      HeldBy r.1 key queueId other ∧ GetsRow unstorable queueName r.1 := by
  obtain ⟨held, gets⟩ := start
  cases Decidable.em (i = queueName) with
  | inl same =>
      subst same
      obtain ⟨us, db', params, tasks, row, run, seen, still⟩ := exists_seen (texts i listed) gets wanted different held
      exact ⟨us, _, run, ⟨fun _ => ⟨params, tasks, row, rfl, seen⟩, fun this => absurd this.symm different,
        fun this => absurd rfl this⟩, still⟩
  | inr notWanting =>
      cases Decidable.em (i = other) with
      | inl same =>
          subst same
          obtain ⟨us, db', mine, run, ready, grows, kept, -⟩ :=
            exists_deleting unstorable redis fun _ => ⟨queueId, held.named⟩
          obtain rfl := ready.id_eq (grows _ _ held.named)
          refine ⟨us, _, run, ⟨fun this => absurd this notWanting, fun _ => rfl, fun _ this => absurd rfl this⟩,
            ⟨grows _ _ held.named, (kept _ _).mpr held.holds⟩, fun away => ?_⟩
          obtain ⟨id, named⟩ := gets away
          exact ⟨id, grows _ _ named⟩
      | inr notHolding =>
          obtain ⟨us, r, run, ends⟩ := canEnd unstorable redis i db .selecting
          have foreign : key ∉ redis.keys i := fun mine => notWanting (apart i item _ listed key mine wanted)
          have kept := run_keeps (J := fun db _ => HeldBy db key queueId other ∧ GetsRow unstorable queueName db)
            (fun _ _ _ _ _ moves both => ⟨both.1.step moves foreign (Ne.symm notHolding), both.2.step moves⟩)
            run trivial ⟨held, gets⟩
          exact ⟨us, r, run, ⟨fun this => absurd this notWanting, fun this => absurd this notHolding, fun _ _ => ends⟩,
            kept.2⟩

/-! ## A refused scheduler -/

/-- The task of the scheduler, if it is run now, fails. -/
def WillFail (unstorable : Unstorable) (queueName : String) (s : RedisScheduler) (db : QueuesDb) : Prop :=
  (RedisQueues.schedulerParam 0 s).refused unstorable = true ∧
    (Free db s.key ∨ ∃ row ∈ db.jobSchedulers, row.key = s.key ∧ db.Named row.queueId queueName ∧
      getChangedKeys (RedisQueues.schedulerParam row.queueId s).columns row.columns ≠ [])

variable {s : RedisScheduler}

theorem WillFail.congr {db' : QueuesDb} (fails : WillFail unstorable queueName s db)
    (free : Free db s.key → Free db' s.key) (named : ∀ id, db.Named id queueName → db'.Named id queueName)
    (rows : ∀ r ∈ db.jobSchedulers, r.key = s.key → db.Named r.queueId queueName → r ∈ db'.jobSchedulers) :
    WillFail unstorable queueName s db' := by
  refine ⟨fails.1, fails.2.imp free fun held => ?_⟩
  obtain ⟨row, hrow, same, owner, changed⟩ := held
  exact ⟨row, rows row hrow same owner, same, named _ owner, changed⟩

theorem WillFail.step (apart : KeysApart redis) (listed : other ∈ redis.queueNames)
    (tracked : queueName ∈ redis.queueNames) (different : other ≠ queueName) (wanted : s.key ∈ redis.keys other)
    {db' : QueuesDb} {h' : QueueHandler} (fails : WillFail unstorable other s db)
    (moves : Moves unstorable redis queueName db h db' h') : WillFail unstorable other s db' := by
  refine fails.congr (fun free => free.step ?_ moves) (fun id => moves.named.1 id other) fun r hr same named => ?_
  · exact fun mine => different (apart other listed queueName tracked s.key wanted mine)
  · exact moves.apart_rows apart tracked listed different (same ▸ wanted) named hr

/-- The write fails where there is no row, and where the row differs. -/
theorem WillFail.upsert (fails : WillFail unstorable queueName s db) {queueId : Nat}
    (named : db.Named queueId queueName) :
    db.upsertScheduler unstorable (RedisQueues.schedulerParam queueId s) (db.selectScheduler s.key) =
      (db, .failed) := by
  obtain ⟨refused, held⟩ := fails
  rw [refused_schedulerParam unstorable 0 queueId] at refused
  cases held with
  | inl free =>
      rw [QueuesDb.selectScheduler_none.mpr free, QueuesDb.upsertScheduler, QueuesDb.insertScheduler_refused refused]
  | inr row =>
      obtain ⟨row, hrow, same, owner, changed⟩ := row
      have selected : db.selectScheduler s.key = some row := by
        cases found : db.selectScheduler s.key with
        | none => exact absurd (decide_eq_true same) (List.find?_eq_none.mp found row hrow)
        | some row' =>
            have same' : row'.key = s.key := by simpa using List.find?_some found
            rw [List.inj_on_of_nodup_map db.keys (List.mem_of_find?_eq_some found) hrow (same'.trans same.symm)]
      rw [owner.id_eq named] at changed
      rw [selected, QueuesDb.upsertScheduler, if_neg (mt List.isEmpty_iff.mp changed),
        QueuesDb.updateScheduler_refused refused]

/-- The handler fails at this task before another one has written its key. -/
theorem exists_failed (texts : ∀ key ∈ redis.keys queueName, isText key) (gets : GetsRow unstorable queueName db)
    (listed : s ∈ (redis.queue queueName).jobSchedulers) (fails : WillFail unstorable queueName s db) :
    ∃ us db' h', Machine.Run (handle unstorable redis queueName) (db, .selecting) us (db', h') ∧ ended queueName h' ∧
      Begun redis queueName db db' := by
  obtain ⟨us, db', mine, run, named, begun⟩ := exists_upserting texts gets
  have wanted : s.key ∈ redis.keys queueName := List.mem_map_of_mem listed
  have fails' : WillFail unstorable queueName s db' := by
    refine fails.congr (fun free m held => free m (begun.fewer _ _ held)) (fun id => begun.named id queueName) ?_
    exact fun r hr same _ => begun.rows r hr (same ▸ wanted)
  have select : handle unstorable redis queueName (db', .upserting _ fun _ => .selecting) (.scheduler s.key) = _ :=
    handle_task (find_param listed mine)
  have write : handle unstorable redis queueName (db', .upserting (redis.schedulerParams queueName mine)
      (Function.update (fun _ => .selecting) s.key (.writing (db'.selectScheduler s.key)))) (.scheduler s.key) = _ :=
    handle_task (find_param listed mine)
  rw [Function.update_self, stepTask, fails'.upsert named] at write
  refine ⟨_, db', _, run.append (.next select (.next write (.done _))), ?_, begun⟩
  have failed : RedisQueues.schedulerParam mine s ∈ redis.schedulerParams queueName mine :=
    RedisQueues.mem_schedulerParams.mpr ⟨s, listed, rfl⟩
  refine Bool.or_eq_true_iff.mpr (.inl (List.any_eq_true.mpr ⟨_, failed, ?_⟩))
  exact (congrArg SchedulerTask.isFailed (Function.update_self ..)).trans rfl

/-- What holds until a queue with a refused scheduler has ended. -/
structure Losing (unstorable : Unstorable) (queueName : String) (s : RedisScheduler) (key : String) (db : QueuesDb) :
    Prop where
  free : Free db key
  fails : WillFail unstorable queueName s db
  gets : GetsRow unstorable queueName db

theorem reach_losing (apart : KeysApart redis) (texts : ∀ n ∈ redis.queueNames, ∀ key ∈ redis.keys n, isText key)
    (listed : queueName ∈ redis.queueNames) (member : s ∈ (redis.queue queueName).jobSchedulers)
    (wanted : key ∈ redis.keys queueName) (i : String) (item : i ∈ redis.queueNames) (db : QueuesDb)
    (losing : Losing unstorable queueName s key db) :
    ∃ us r, Machine.Run (handle unstorable redis i) (db, .selecting) us r ∧ ended i r.2 ∧
      Losing unstorable queueName s key r.1 := by
  have mine : s.key ∈ redis.keys queueName := List.mem_map_of_mem member
  by_cases same : i = queueName
  · subst same
    obtain ⟨us, db', h', run, ends, begun⟩ := exists_failed (texts i listed) losing.gets member losing.fails
    refine ⟨us, _, run, ends, fun m held => losing.free m (begun.fewer _ _ held), ?_, fun away => ?_⟩
    · exact losing.fails.congr (fun free m held => free m (begun.fewer _ _ held)) (fun id => begun.named id i)
        fun r hr this _ => begun.rows r hr (this ▸ mine)
    · obtain ⟨id, named⟩ := losing.gets away
      exact ⟨id, begun.named _ _ named⟩
  · obtain ⟨us, r, run, ends⟩ := canEnd unstorable redis i db .selecting
    have foreign : key ∉ redis.keys i := fun theirs => same (apart i item queueName listed key theirs wanted)
    refine ⟨us, r, run, ends, ?_⟩
    refine (run_keeps (J := fun db _ => Losing unstorable queueName s key db) ?_ run trivial losing).2
    intro db h db' h' _ moves before
    exact ⟨before.free.step foreign moves, before.fails.step apart listed item (Ne.symm same) mine moves,
      before.gets.step moves⟩

end QueueHandler

open QueueHandler

variable {unstorable : Unstorable} {redis : RedisQueues} {db : QueuesDb}

theorem ready_all {ts : IngestTrace} {s : IngestState}
    (run : Machine.Run (ingestQueues unstorable redis).step { shared := db } ts s) (n : String) :
    Ready redis n (s.handlers n) s.shared :=
  (WorkerPool.invariant (p := ingestQueues unstorable redis) (I := fun _ => True) (L := Ready redis)
    (fun _ _ _ _ _ _ => trivial)
    (fun _ _ _ _ _ _ ready enabled => by
      have moves := moves_of_handle ready enabled
      exact ⟨trivial, ready.own moves, fun _ different _ others => others.frame moves different⟩)
    run ⟨trivial, fun _ => trivial⟩).2 n

theorem nodup_allQueuesNames (redis : RedisQueues) : redis.allQueuesNames.Nodup :=
  (Utf16.sort_perm redis.queueNames).nodup_iff.mpr redis.distinct

theorem getsRow_deleteMissing {queueName : String} (gets : GetsRow unstorable queueName db)
    (listed : queueName ∈ redis.queueNames) : GetsRow unstorable queueName (db.deleteMissing redis) := by
  intro away
  obtain ⟨id, named⟩ := gets away
  exact ⟨id, named_deleteMissing.mpr ⟨named, listed⟩⟩

/-- Where keys are home, a refused scheduler fails from the start. -/
theorem losing_start {queueName key : String} {s : RedisScheduler} (home : KeysHome redis db)
    (listed : queueName ∈ redis.queueNames) (member : s ∈ (redis.queue queueName).jobSchedulers)
    (refused : Refused unstorable db queueName s) (wanted : key ∈ redis.keys queueName)
    (absent : ¬ db.Holds key queueName) (gets : GetsRow unstorable queueName db) :
    Losing unstorable queueName s key (db.deleteMissing redis) := by
  have free : ∀ k ∈ redis.keys queueName, ¬ db.Holds k queueName → Free (db.deleteMissing redis) k := by
    intro k mine absent m held
    obtain ⟨before, hm⟩ := QueuesDb.holds_deleteMissing.mp held
    exact absent (home queueName listed k mine m hm before ▸ before)
  refine ⟨free key wanted absent, ⟨refused.1, ?_⟩, getsRow_deleteMissing gets listed⟩
  by_cases held : db.Holds s.key queueName
  · obtain ⟨row, hrow, same, named⟩ := held
    exact .inr ⟨row, mem_deleteMissing listed hrow named, same, named_deleteMissing.mpr ⟨named, listed⟩,
      refused.2 row hrow same named⟩
  · exact .inl (free s.key (List.mem_map_of_mem member) held)

/-- Some order of steps completes a pass. -/
theorem exists_pass (unstorable : Unstorable) (redis : RedisQueues) (db : QueuesDb)
    (names : ∀ queueName ∈ redis.queueNames, isText queueName) : ∃ db', IngestPass unstorable redis db db' := by
  have reach : ∀ i ∈ (ingestQueues unstorable redis).items, ∀ db, True →
      ∃ us r, Machine.Run (handle unstorable redis i) (db, .selecting) us r ∧ ended i r.2 ∧ True := by
    intro i _ db _
    obtain ⟨us, r, run, ends⟩ := canEnd unstorable redis i db .selecting
    exact ⟨us, r, run, ends, trivial⟩
  obtain ⟨ts, s, run, brought⟩ := WorkerPool.exists_goals (fun i h => ended i h) (fun _ => True) []
    (p := ingestQueues unstorable redis) (nodup_allQueuesNames redis) (Nat.succ_pos 4) reach (fun _ _ _ _ ends => ends)
    (m := db.deleteMissing redis) trivial
  exact ⟨_, names, ts, s, run, brought.complete fun _ _ _ ends => ends, rfl⟩

/-- At the race the row is deleted, and the update of the task is in vain. -/
theorem race_ends {n m key : String} {queueId : Nat} {params : List JobScheduler} {tasks : String → SchedulerTask}
    {row : JobScheduler} {ts : IngestTrace} {t : IngestState}
    (run : Machine.Run (ingestQueues unstorable redis).step { shared := db } ts t)
    (texts : ∀ key ∈ redis.keys m, isText key) (different : n ≠ m)
    (foreign : key ∉ redis.keys m) (held : t.shared.Holds key m) (holder : t.handlers m = some (.deleting queueId))
    (wants : t.handlers n = some (.upserting params tasks)) (seen : tasks key = .writing (some row)) :
    ∃ us hm hn db', Machine.Run (ingestQueues unstorable redis).step t us
        { t with handlers := Function.update (Function.update t.handlers m (some hm)) n (some hn), shared := db' } ∧
      ended m hm ∧ ended n hn ∧ Free db' key := by
  have ready := ready_all run m
  rw [holder] at ready
  have enabled := handle_deleting unstorable t.shared texts queueId
  have moves := moves_of_handle ready enabled
  -- the holder deletes the row, and ends
  have free : Free (t.shared.deleteSchedulers (QueuesDb.oldSchedulers queueId
      ((redis.schedulerParams m queueId).map (·.key)))) key := by
    intro k still
    rw [RedisQueues.keys_schedulerParams] at still
    obtain ⟨before, kept⟩ := (QueuesDb.holds_deleteSchedulers ready).mp still
    exact kept ⟨(held.queue_eq before).symm, foreign⟩
  obtain ⟨us, r, alone, ends⟩ :=
    canEnd unstorable redis m _ (.upserting (redis.schedulerParams m queueId) fun _ => .selecting)
  have free' := (run_keeps (J := fun db _ => Free db key) (fun _ _ _ _ _ moves free => free.step foreign moves)
    alone (ready.own moves) free).2
  have whole : Machine.Run (handle unstorable redis m) (t.shared, .deleting queueId) _ r := .next enabled alone
  obtain ⟨vs, first⟩ := WorkerPool.run_handler (p := ingestQueues unstorable redis) whole holder rfl
  -- the other one goes on with the row it saw
  have ready' := ready_all (run.append first) n
  have wants' : Function.update t.handlers m (some r.2) n = some (.upserting params tasks) :=
    (Function.update_of_ne different _ _).trans wants
  dsimp only at ready'
  rw [wants'] at ready'
  obtain ⟨ws, e, alone', ends'⟩ := canEnd unstorable redis n r.1 (.upserting params tasks)
  have misled := (run_keeps (J := Misled key) (fun _ _ _ _ _ moves misled => misled.step moves) alone' ready'
    ⟨free', params, tasks, rfl, .inl ⟨row, seen⟩⟩).2
  obtain ⟨xs, second⟩ := WorkerPool.run_handler (p := ingestQueues unstorable redis)
    (s := { t with handlers := Function.update t.handlers m (some r.2), shared := r.1 }) alone' wants' rfl
  exact ⟨_, r.2, e.2, e.1, first.append second, ends, ends', misled.free⟩

section

variable (names : ∀ queueName ∈ redis.queueNames, isText queueName) (apart : KeysApart redis)
  (texts : ∀ n ∈ redis.queueNames, ∀ key ∈ redis.keys n, isText key)

include names apart texts

/-- A key that another queue still holds can be lost. -/
theorem key_lost {n m key : String} (hn : n ∈ redis.queueNames) (wanted : key ∈ redis.keys n)
    (gets : GetsRow unstorable n db) (hm : m ∈ redis.queueNames) (held : db.Holds key m) (different : m ≠ n) :
    ∃ db', IngestPass unstorable redis db db' ∧ ¬ db'.Holds key n := by
  obtain ⟨r, hr, same, named⟩ := QueuesDb.holds_deleteMissing.mpr ⟨held, hm⟩
  have start : HeldBy (db.deleteMissing redis) key r.queueId m := ⟨named, r, hr, same, named⟩
  -- bring the two queues to the race, and the others to their ends
  obtain ⟨ts, t, run, brought⟩ := WorkerPool.exists_goals (AtRace key n m r.queueId)
    (fun db => HeldBy db key r.queueId m ∧ GetsRow unstorable n db) [n, m] (p := ingestQueues unstorable redis)
    (nodup_allQueuesNames redis) (show 2 < 5 by decide)
    (fun i item db => reach_race apart texts hn wanted different i (Utf16.mem_sort.mp item) db)
    (fun i _ free h race => by
      simp only [List.mem_cons, List.not_mem_nil, or_false, not_or] at free
      exact race.rest free.1 free.2)
    ⟨start, getsRow_deleteMissing gets hn⟩
  have handler : ∀ i ∈ redis.queueNames, ∃ h, t.handlers i = some h ∧ AtRace key n m r.queueId i h := by
    intro i listed
    have item := Utf16.mem_sort.mpr listed
    have nonempty : i ≠ "" := fun empty => redis.named (empty ▸ listed)
    obtain ⟨h, handler⟩ := WorkerPool.handler_of_taken run brought.index item (decide_eq_false nonempty)
    exact ⟨h, handler, brought.goals i item h handler⟩
  obtain ⟨hm', holder, raceM⟩ := handler m hm
  obtain ⟨hn', wants, raceN⟩ := handler n hn
  obtain rfl := raceM.holder rfl
  obtain ⟨params, tasks, row, rfl, seen⟩ := raceN.wants rfl
  have foreign : key ∉ redis.keys m := fun mine => different (apart m hm n hn key mine wanted)
  obtain ⟨us, em, en, db', more, overM, overN, free⟩ :=
    race_ends run (texts m hm) (Ne.symm different) foreign brought.shared.1.holds holder wants seen
  refine ⟨db', ⟨names, _, _, run.append more, ⟨brought.index, fun i item => ?_⟩, rfl⟩, free n⟩
  obtain ⟨h, handled, race⟩ := handler i (Utf16.mem_sort.mp item)
  simp only [WorkerPool.Program.busy, ingestQueues]
  cases Decidable.em (i = n) with
  | inl same =>
      rw [same, Function.update_self]
      simp [overN]
  | inr notWanting =>
      rw [Function.update_of_ne notWanting]
      cases Decidable.em (i = m) with
      | inl same =>
          rw [same, Function.update_self]
          simp [overM]
      | inr notHolding =>
          rw [Function.update_of_ne notHolding, handled]
          simp [race.rest notWanting notHolding]

/-- A key without a row can be left without one where another scheduler of its queue is refused. -/
theorem key_left_out {n key : String} {s : RedisScheduler} (hn : n ∈ redis.queueNames)
    (member : s ∈ (redis.queue n).jobSchedulers) (wanted : key ∈ redis.keys n)
    (losing : Losing unstorable n s key (db.deleteMissing redis)) :
    ∃ db', IngestPass unstorable redis db db' ∧ ¬ db'.Holds key n := by
  obtain ⟨ts, t, run, brought⟩ := WorkerPool.exists_goals (fun i h => ended i h) (Losing unstorable n s key) []
    (p := ingestQueues unstorable redis) (nodup_allQueuesNames redis) (Nat.succ_pos 4)
    (fun i item db => reach_losing apart texts hn member wanted i (Utf16.mem_sort.mp item) db)
    (fun _ _ _ _ ends => ends) losing
  exact ⟨_, ⟨names, ts, t, run, brought.complete fun _ _ _ ends => ends, rfl⟩, brought.shared.free n⟩

end

/-- A queue that Postgres takes no row of has none after a pass. -/
theorem unnamed_stays {n : String} (away : unstorable.queueName n = true) (absent : ∀ id, ¬ db.Named id n)
    {db' : QueuesDb} (pass : IngestPass unstorable redis db db') (id : Nat) : ¬ db'.Named id n := by
  obtain ⟨-, ts, s, run, -, rfl⟩ := pass
  refine (WorkerPool.invariant (p := ingestQueues unstorable redis) (I := fun db => ∀ id, ¬ db.Named id n)
    (L := Ready redis) (fun _ _ _ _ _ _ => trivial) (fun m db h query r absent ready enabled => ?_) run
    ⟨fun id named => absent id (named_deleteMissing.mp named).1, fun _ => trivial⟩).1 id
  have moves := moves_of_handle ready enabled
  refine ⟨fun id named => ?_, ready.own moves, fun _ different _ others => others.frame moves different⟩
  by_cases same : n = m
  · subst same
    generalize r.1 = db', r.2 = h' at moves named
    cases moves with
    | looked | turnedAway | unreadable | seen | kept | clashed | refused => exact absent id named
    | found same | cleared _ _ same | moved _ _ same | inserted _ _ _ same => exact absent id ((same _ _).mp named)
    | created taken =>
        rw [away] at taken
        cases taken
  · exact absent id (moves.named.2 id n same named)

/-- Two queues, each with a scheduler `daily`. -/
def twoDaily : RedisQueues where
  queueNames := ["mail", "report"]
  queue _ := { jobSchedulers := [{ key := "daily", name := "daily" }] }
  distinct := by decide
  named := by decide

end BetterBullBoard
