import BetterBullBoard.Queues.Handler

/-! # When a pass mirrors Redis

Rows are placed when each is under a queue of Redis and no key of one queue is
held by another. If keys are apart, every step keeps the placement and what each
handler has done so far, and the end of the pass is what Redis has. A task that
Postgres refuses ends its handler, and then the other rows of the queue must have
been there before.
-/

namespace BetterBullBoard

/-- The rows of `job_schedulers`, each with the name of its queue. -/
def QueuesDb.rows (db : QueuesDb) : List (String × String) :=
  db.jobSchedulers.flatMap fun r => (db.queues.filter fun q => q.id = r.queueId).map fun q => (q.name, r.key)

/-- The schedulers of Redis, each with its queue. -/
def RedisQueues.pairs (redis : RedisQueues) : List (String × String) :=
  redis.queueNames.flatMap fun queueName => (redis.keys queueName).map fun key => (queueName, key)

/-- One row for each scheduler of Redis, under its queue, and no other row. -/
def Mirrors (redis : RedisQueues) (db : QueuesDb) : Prop := db.rows.Perm redis.pairs

/-- No two queues have a scheduler key in common. -/
def KeysApart (redis : RedisQueues) : Prop :=
  ∀ n ∈ redis.queueNames, ∀ m ∈ redis.queueNames, ∀ key ∈ redis.keys n, key ∈ redis.keys m → n = m

/-- No queue of Redis holds a key that another one has. -/
def KeysHome (redis : RedisQueues) (db : QueuesDb) : Prop :=
  ∀ n ∈ redis.queueNames, ∀ key ∈ redis.keys n, ∀ m ∈ redis.queueNames, db.Holds key m → m = n

/-- The pass has to write this scheduler, and Postgres refuses it. -/
def Refused (unstorable : Unstorable) (db : QueuesDb) (queueName : String) (s : RedisScheduler) : Prop :=
  (RedisQueues.schedulerParam 0 s).refused unstorable = true ∧
    ∀ row ∈ db.jobSchedulers, row.key = s.key → db.Named row.queueId queueName →
      getChangedKeys (RedisQueues.schedulerParam row.queueId s).columns row.columns ≠ []

/-- What Postgres refuses does not matter: every key is a text, a queue that gets no row
    has no schedulers, and one with a refused scheduler has a row for each already. -/
structure Storable (unstorable : Unstorable) (redis : RedisQueues) (db : QueuesDb) : Prop where
  texts : ∀ n ∈ redis.queueNames, ∀ key ∈ redis.keys n, isText key
  named : ∀ n ∈ redis.queueNames, unstorable.queueName n → (∀ id, ¬ db.Named id n) → redis.keys n = []
  held : ∀ n ∈ redis.queueNames, (∃ s ∈ (redis.queue n).jobSchedulers, Refused unstorable db n s) →
    ∀ key ∈ redis.keys n, db.Holds key n

/-- An interval of 25 days has more milliseconds than the column holds. -/
theorem not_storable_of_every {unstorable : Unstorable} {redis : RedisQueues} {db : QueuesDb} {queueName : String}
    {s : RedisScheduler} {every : Int} (listed : queueName ∈ redis.queueNames)
    (member : s ∈ (redis.queue queueName).jobSchedulers) (interval : s.every = some every) (wide : 2147483647 < every)
    (absent : ¬ db.Holds s.key queueName) : ¬ Storable unstorable redis db := by
  intro storable
  refine absent (storable.held queueName listed ⟨s, member, ?_, ?_⟩ s.key (List.mem_map_of_mem member))
  · have beyond : integer every = false := decide_eq_false fun within => absurd within.2 (by omega)
    simp [JobScheduler.refused, RedisQueues.schedulerParam, interval, beyond]
  · exact fun row hrow same named => absurd ⟨row, hrow, same, named⟩ absent

section

variable {redis : RedisQueues} {db : QueuesDb} {queueName key : String}

theorem QueuesDb.mem_rows : (queueName, key) ∈ db.rows ↔ db.Holds key queueName := by
  simp only [rows, Holds, Named, List.mem_flatMap, List.mem_map, List.mem_filter, decide_eq_true_eq, Prod.mk.injEq]
  constructor
  · rintro ⟨r, hr, q, ⟨hq, id⟩, name, same⟩
    exact ⟨r, hr, same, q, hq, id, name⟩
  · rintro ⟨r, hr, same, q, hq, id, name⟩
    exact ⟨r, hr, q, ⟨hq, id⟩, name, same⟩

theorem QueuesDb.nodup_rows (db : QueuesDb) : db.rows.Nodup := by
  refine List.nodup_flatMap.mpr ⟨fun r _ => ?_, ?_⟩
  · refine List.Nodup.map_on ?_ ((List.Nodup.of_map _ db.ids).filter _)
    intro q hq q' hq' same
    exact List.inj_on_of_nodup_map db.names (List.mem_filter.mp hq).1 (List.mem_filter.mp hq').1 (Prod.mk.inj same).1
  · refine (List.pairwise_map.mp db.keys).imp fun {r r'} apart => ?_
    intro pair hr hr'
    obtain ⟨q, -, rfl⟩ := List.mem_map.mp hr
    obtain ⟨q', -, same⟩ := List.mem_map.mp hr'
    exact apart (Prod.mk.inj same).2.symm

theorem RedisQueues.mem_pairs :
    (queueName, key) ∈ redis.pairs ↔ queueName ∈ redis.queueNames ∧ key ∈ redis.keys queueName := by
  simp [pairs]

theorem RedisQueues.nodup_pairs (redis : RedisQueues) : redis.pairs.Nodup := by
  refine List.nodup_flatMap.mpr ⟨fun n _ => ?_, redis.distinct.imp fun {n m} apart => ?_⟩
  · exact List.Nodup.map (fun _ _ same => (Prod.mk.inj same).2) (redis.queue n).keys
  · intro pair hn hm
    obtain ⟨_, -, rfl⟩ := List.mem_map.mp hn
    obtain ⟨_, -, same⟩ := List.mem_map.mp hm
    exact apart (Prod.mk.inj same).1.symm

theorem mirrors_iff : Mirrors redis db ↔
    ∀ queueName key, db.Holds key queueName ↔ queueName ∈ redis.queueNames ∧ key ∈ redis.keys queueName := by
  rw [Mirrors, List.perm_ext_iff_of_nodup db.nodup_rows redis.nodup_pairs]
  simp only [Prod.forall, QueuesDb.mem_rows, RedisQueues.mem_pairs]

end

namespace QueueHandler

/-- Every row is under a queue of Redis, and wanted by no other. -/
structure Placed (unstorable : Unstorable) (redis : RedisQueues) (db : QueuesDb) : Prop where
  tracked : ∀ key m, db.Holds key m → m ∈ redis.queueNames
  own : KeysHome redis db
  named : ∀ n ∈ redis.queueNames, unstorable.queueName n → (∀ id, ¬ db.Named id n) → redis.keys n = []

def AllHeld (redis : RedisQueues) (db : QueuesDb) (queueName : String) : Prop :=
  ∀ key ∈ redis.keys queueName, db.Holds key queueName

/-- What a task has seen or done is still so, and none has failed. -/
def TaskHolds (db : QueuesDb) (queueName key : String) : SchedulerTask → Prop
  | .selecting => True
  | .writing (some row) => row ∈ db.jobSchedulers ∧ row.key = key ∧ db.Named row.queueId queueName
  | .writing none => ∀ m, ¬ db.Holds key m
  | .done => db.Holds key queueName
  | .failed => False

/-- No scheduler is refused, and what the tasks have done so far holds. -/
structure NoneRefused (unstorable : Unstorable) (redis : RedisQueues) (queueName : String) (h : Option QueueHandler)
    (db : QueuesDb) : Prop where
  taken : ∀ s ∈ (redis.queue queueName).jobSchedulers, ¬ Refused unstorable db queueName s
  tasks : ∀ params tasks, h = some (.upserting params tasks) → ∀ key ∈ redis.keys queueName,
    TaskHolds db queueName key (tasks key)

/-- What the handler of a queue has done so far. -/
structure Tracks (unstorable : Unstorable) (redis : RedisQueues) (queueName : String) (h : Option QueueHandler)
    (db : QueuesDb) : Prop where
  tracked : h.isSome → queueName ∈ redis.queueNames
  ready : Ready redis queueName h db
  unnamed : h = some .failed → redis.keys queueName = [] ∧ ∀ id, ¬ db.Named id queueName
  wanted : ∀ params tasks, h = some (.upserting params tasks) →
    ∀ key, db.Holds key queueName → key ∈ redis.keys queueName
  rows : queueName ∈ redis.queueNames → AllHeld redis db queueName ∨ NoneRefused unstorable redis queueName h db

variable {unstorable : Unstorable} {redis : RedisQueues} {queueName other key : String} {db db' : QueuesDb}
  {h h' : QueueHandler}

theorem TaskHolds.congr {task : SchedulerTask} (same : ∀ m, db'.Holds key m ↔ db.Holds key m)
    (named : ∀ id, db.Named id queueName → db'.Named id queueName)
    (rows : ∀ r ∈ db.jobSchedulers, r.key = key → db.Named r.queueId queueName → r ∈ db'.jobSchedulers)
    (holds : TaskHolds db queueName key task) : TaskHolds db' queueName key task := by
  cases task with
  | selecting => trivial
  | writing existing =>
      cases existing with
      | some row => exact ⟨rows row holds.1 holds.2.1 holds.2.2, holds.2.1, named _ holds.2.2⟩
      | none => exact fun m held => holds m ((same m).mp held)
  | done => exact (same _).mpr holds
  | failed => exact holds

/-- A handler puts rows under its own queue only, and only rows Redis has. -/
theorem Moves.held_before (moves : Moves unstorable redis queueName db h db' h') (held : db'.Holds key other) :
    db.Holds key other ∨ (other = queueName ∧ key ∈ redis.keys queueName) := by
  cases moves with
  | looked | turnedAway | unreadable | seen | kept | clashed | refused => exact .inl held
  | found _ same | created _ _ same => exact .inl ((same _ _).mp held)
  | cleared _ _ _ holds => exact .inl ((holds _ _).mp held).1
  | moved wanted _ _ holds =>
      have now := (holds _ _).mp held
      split at now
      · rename_i same
        exact .inr ⟨now.1, same ▸ wanted⟩
      · exact .inl now
  | inserted wanted _ _ _ holds =>
      cases (holds _ _).mp held with
      | inl old => exact .inl old
      | inr new => exact .inr ⟨new.2, new.1 ▸ wanted⟩

theorem Placed.step (apart : KeysApart redis) (placed : Placed unstorable redis db)
    (tracked : queueName ∈ redis.queueNames) (moves : Moves unstorable redis queueName db h db' h') :
    Placed unstorable redis db' where
  tracked key m held := by
    cases moves.held_before held with
    | inl old => exact placed.tracked key m old
    | inr new => exact new.1 ▸ tracked
  own n hn key wanted m hm held := by
    cases moves.held_before held with
    | inl old => exact placed.own n hn key wanted m hm old
    | inr new => exact new.1 ▸ apart _ tracked n hn key new.2 wanted
  named n hn away absent := placed.named n hn away fun id named => absent id (moves.named.1 _ _ named)

/-- Keys of another queue are left alone. -/
theorem Moves.same_holders (moves : Moves unstorable redis queueName db h db' h')
    (foreign : key ∉ redis.keys queueName) (kept : ¬ db.Holds key queueName) (m : String) :
    db'.Holds key m ↔ db.Holds key m := by
  cases moves with
  | looked | turnedAway | unreadable | seen | kept | clashed | refused => exact Iff.rfl
  | found _ same | created _ _ same => exact same _ _
  | cleared _ _ _ holds =>
      refine (holds _ _).trans (and_iff_left_of_imp fun held gone => ?_)
      exact kept (gone.1 ▸ held)
  | moved wanted _ _ holds =>
      have other : key ≠ _ := fun same => foreign (same ▸ wanted)
      rw [holds, if_neg other]
  | inserted wanted _ _ _ holds =>
      rw [holds]
      exact or_iff_left fun new => foreign (new.1 ▸ wanted)

/-- The handler of a queue keeps the rows of the keys Redis has. -/
theorem Moves.keeps_wanted (moves : Moves unstorable redis queueName db h db' h')
    (wanted : key ∈ redis.keys queueName) (held : db.Holds key queueName) : db'.Holds key queueName := by
  cases moves with
  | looked | turnedAway | unreadable | seen | kept | clashed | refused => exact held
  | found _ same | created _ _ same => exact (same _ _).mpr held
  | cleared _ _ _ holds => exact (holds _ _).mpr ⟨held, fun gone => gone.2 wanted⟩
  | moved _ _ _ holds =>
      refine (holds _ _).mpr ?_
      split
      · rename_i same
        exact ⟨rfl, _, same ▸ held⟩
      · exact held
  | inserted _ _ _ _ holds => exact (holds _ _).mpr (.inl held)

/-- A row stays as it is, unless it is an old one of the queue, or one the handler may
    write. -/
theorem Moves.row_kept (moves : Moves unstorable redis queueName db h db' h') {r : JobScheduler}
    (hr : r ∈ db.jobSchedulers) :
    r ∈ db'.jobSchedulers ∨ (db.Named r.queueId queueName ∧ r.key ∉ redis.keys queueName) ∨
      (r.key ∈ redis.keys queueName ∧ ∀ s ∈ (redis.queue queueName).jobSchedulers, s.key = r.key →
        (RedisQueues.schedulerParam 0 s).refused unstorable = false) := by
  cases moves with
  | looked | turnedAway | unreadable | seen | kept | clashed | refused => exact .inl hr
  | found _ _ rows | created _ _ _ rows => exact .inl (rows ▸ hr)
  | @cleared queueId _ _ owner _ _ rows =>
      by_cases old : r.queueId = queueId ∧ r.key ∉ redis.keys queueName
      · exact .inr (.inl ⟨old.1 ▸ owner, old.2⟩)
      · exact .inl (rows r hr old)
  | @moved _ _ key _ _ wanted _ _ _ taken rows =>
      by_cases same : r.key = key
      · exact .inr (.inr ⟨same ▸ wanted, fun s listed this => taken s listed (this.trans same)⟩)
      · exact .inl (rows r hr same)
  | inserted _ _ _ _ _ rows => exact .inl (rows r hr)

section

variable (apart : KeysApart redis) (placed : Placed unstorable redis db)

include apart placed

/-- A step of one queue leaves the keys of another alone. -/
theorem Moves.apart_holders (tracked : queueName ∈ redis.queueNames) (listed : other ∈ redis.queueNames)
    (different : other ≠ queueName) (moves : Moves unstorable redis queueName db h db' h')
    (wanted : key ∈ redis.keys other) (m : String) : db'.Holds key m ↔ db.Holds key m := by
  refine moves.same_holders ?_ ?_ m
  · exact fun mine => different (apart other listed queueName tracked key wanted mine)
  · exact fun held => different (placed.own other listed key wanted queueName tracked held).symm

omit placed in
theorem Moves.apart_rows (tracked : queueName ∈ redis.queueNames) (listed : other ∈ redis.queueNames)
    (different : other ≠ queueName) (moves : Moves unstorable redis queueName db h db' h') {r : JobScheduler}
    (wanted : r.key ∈ redis.keys other) (named : db.Named r.queueId other) (hr : r ∈ db.jobSchedulers) :
    r ∈ db'.jobSchedulers := by
  refine (moves.row_kept hr).resolve_right fun gone => ?_
  cases gone with
  | inl old => exact different (named.name_eq old.1)
  | inr mine => exact different (apart other listed queueName tracked r.key wanted mine.1)

theorem Moves.allHeld (tracked : queueName ∈ redis.queueNames) (listed : other ∈ redis.queueNames)
    (moves : Moves unstorable redis queueName db h db' h') (held : AllHeld redis db other) :
    AllHeld redis db' other := by
  intro key wanted
  by_cases same : other = queueName
  · subst same
    exact moves.keeps_wanted wanted (held key wanted)
  · exact (moves.apart_holders apart placed tracked listed same wanted _).mpr (held key wanted)

omit placed in
/-- A scheduler that need not be written is not touched. -/
theorem Moves.not_refused (tracked : queueName ∈ redis.queueNames) (listed : other ∈ redis.queueNames)
    (moves : Moves unstorable redis queueName db h db' h') {s : RedisScheduler}
    (member : s ∈ (redis.queue other).jobSchedulers) (taken : ¬ Refused unstorable db other s) :
    ¬ Refused unstorable db' other s := by
  rintro ⟨refused, changed⟩
  refine taken ⟨refused, fun row hrow same named unchanged => ?_⟩
  have wanted : s.key ∈ redis.keys other := List.mem_map_of_mem member
  refine changed row ?_ same (moves.named.1 _ _ named) unchanged
  by_cases own : other = queueName
  · subst own
    refine (moves.row_kept hrow).resolve_right fun gone => ?_
    cases gone with
    | inl old => exact old.2 (same ▸ wanted)
    | inr mine =>
        rw [mine.2 s member same.symm] at refused
        cases refused
  · exact moves.apart_rows apart tracked listed own (same ▸ wanted) named hrow

theorem Tracks.frame {g : Option QueueHandler} (tracked : queueName ∈ redis.queueNames)
    (moves : Moves unstorable redis queueName db h db' h') (different : other ≠ queueName)
    (tracks : Tracks unstorable redis other g db) : Tracks unstorable redis other g db' where
  tracked := tracks.tracked
  ready := tracks.ready.frame moves different
  unnamed failed := by
    obtain ⟨untracked, absent⟩ := tracks.unnamed failed
    exact ⟨untracked, fun id named => absent id (moves.named.2 _ _ different named)⟩
  wanted params tasks handler key held := by
    cases moves.held_before held with
    | inl old => exact tracks.wanted params tasks handler key old
    | inr new => exact absurd new.1 different
  rows listed := by
    refine (tracks.rows listed).imp (moves.allHeld apart placed tracked listed) fun before => ⟨fun s member => ?_, ?_⟩
    · exact moves.not_refused apart tracked listed member (before.taken s member)
    · intro params tasks handler key wanted
      refine (before.tasks params tasks handler key wanted).congr
        (moves.apart_holders apart placed tracked listed different wanted) (fun id => moves.named.1 id other) ?_
      intro r hr same named
      exact moves.apart_rows apart tracked listed different (same ▸ wanted) named hr

end

/-- A task that takes a step leaves the others what they were. -/
theorem tasks_update {tasks : String → SchedulerTask} {task : SchedulerTask}
    (before : ∀ k ∈ redis.keys queueName, TaskHolds db queueName k (tasks k))
    (same : ∀ k, k ≠ key → ∀ m, db'.Holds k m ↔ db.Holds k m)
    (named : ∀ id, db.Named id queueName → db'.Named id queueName)
    (rows : ∀ r ∈ db.jobSchedulers, r.key ≠ key → r ∈ db'.jobSchedulers) (now : TaskHolds db' queueName key task) :
    ∀ k ∈ redis.keys queueName, TaskHolds db' queueName k (Function.update tasks key task k) := by
  intro k wanted
  cases Decidable.em (k = key) with
  | inl this => rw [this, Function.update_self]; exact now
  | inr other =>
      rw [Function.update_of_ne other]
      exact (before k wanted).congr (same k other) named fun r hr this _ =>
        rows r hr fun clash => other (this.symm.trans clash)

theorem Tracks.own_wanted (moves : Moves unstorable redis queueName db h db' h')
    (tracks : Tracks unstorable redis queueName (some h) db)
    (params : List JobScheduler) (tasks : String → SchedulerTask) (handler : some h' = some (.upserting params tasks))
    (key : String) (held : db'.Holds key queueName) : key ∈ redis.keys queueName := by
  cases moves.held_before held with
  | inr new => exact new.2
  | inl old =>
      cases moves with
      | looked | found | created | turnedAway | unreadable => cases handler
      | cleared _ _ _ holds =>
          have now := (holds _ _).mp held
          by_contra unwanted
          exact now.2 ⟨rfl, unwanted⟩
      | seen | kept | moved | inserted | clashed | refused => exact tracks.wanted _ _ rfl key old

/-- Where nothing is refused, no task fails. -/
theorem NoneRefused.own_tasks (placed : Placed unstorable redis db) (tracked : queueName ∈ redis.queueNames)
    (moves : Moves unstorable redis queueName db h db' h')
    (noneRefused : NoneRefused unstorable redis queueName (some h) db) (params : List JobScheduler)
    (tasks : String → SchedulerTask) (handler : some h' = some (.upserting params tasks)) :
    ∀ key ∈ redis.keys queueName, TaskHolds db' queueName key (tasks key) := by
  have before := noneRefused.tasks
  cases moves with
  | looked | found | created | turnedAway | unreadable => cases handler
  | cleared =>
      obtain ⟨rfl, rfl⟩ := QueueHandler.upserting.inj (Option.some.inj handler)
      exact fun _ _ => trivial
  | @seen _ _ key wanted task =>
      obtain ⟨rfl, rfl⟩ := QueueHandler.upserting.inj (Option.some.inj handler)
      refine tasks_update (before _ _ rfl) (fun _ _ _ => Iff.rfl) (fun _ named => named) (fun _ hr _ => hr) ?_
      cases selected : db.selectScheduler key with
      | none => exact QueuesDb.selectScheduler_none.mp selected
      | some row =>
          have hrow : row ∈ db.jobSchedulers := List.mem_of_find?_eq_some selected
          have same : row.key = key := by simpa using List.find?_some selected
          obtain ⟨q, hq, id⟩ := db.references row hrow
          have held : db.Holds key q.name := ⟨row, hrow, same, q, hq, id, rfl⟩
          have mine := placed.own _ tracked key wanted _ (placed.tracked _ _ held) held
          exact ⟨hrow, same, q, hq, id, mine⟩
  | @kept _ _ key row wanted task =>
      obtain ⟨rfl, rfl⟩ := QueueHandler.upserting.inj (Option.some.inj handler)
      have seen := before _ _ rfl key wanted
      rw [task] at seen
      exact tasks_update (before _ _ rfl) (fun _ _ _ => Iff.rfl) (fun _ named => named) (fun _ hr _ => hr) ⟨row, seen⟩
  | @moved _ _ key row _ wanted task named holds _ rows =>
      obtain ⟨rfl, rfl⟩ := QueueHandler.upserting.inj (Option.some.inj handler)
      have seen := before _ _ rfl key wanted
      rw [task] at seen
      refine tasks_update (before _ _ rfl) (fun k apart m => ?_) (fun id => (named id queueName).mpr) rows ?_
      · rw [holds, if_neg apart]
      · refine (holds _ _).mpr ?_
        rw [if_pos rfl]
        exact ⟨rfl, queueName, row, seen⟩
  | @inserted _ _ key _ wanted task free named holds rows =>
      obtain ⟨rfl, rfl⟩ := QueueHandler.upserting.inj (Option.some.inj handler)
      refine tasks_update (before _ _ rfl) (fun k apart m => ?_) (fun id => (named id queueName).mpr)
        (fun r hr _ => rows r hr) ((holds _ _).mpr (.inr ⟨rfl, rfl⟩))
      rw [holds]
      exact or_iff_left fun new => apart new.1
  | @clashed _ _ key _ wanted task held =>
      have seen := before _ _ rfl key wanted
      rw [task] at seen
      exact absurd held (seen _)
  | @refused _ _ key existing wanted task cannot =>
      obtain ⟨s, listed, rfl, queueId, named, refused, changed⟩ := cannot
      refine absurd ⟨(refused_schedulerParam unstorable 0 queueId s).trans refused, fun row hrow same owner => ?_⟩
        (noneRefused.taken s listed)
      have seen := before _ _ rfl s.key wanted
      rw [task] at seen
      cases existing with
      | none => exact absurd ⟨row, hrow, same, owner⟩ (seen queueName)
      | some row' =>
          obtain rfl := List.inj_on_of_nodup_map db.keys hrow seen.1 (same.trans seen.2.1.symm)
          exact owner.id_eq named ▸ changed row rfl

theorem Tracks.own (apart : KeysApart redis) (texts : ∀ n ∈ redis.queueNames, ∀ key ∈ redis.keys n, isText key)
    (placed : Placed unstorable redis db) (moves : Moves unstorable redis queueName db h db' h')
    (tracks : Tracks unstorable redis queueName (some h) db) : Tracks unstorable redis queueName (some h') db' where
  tracked _ := tracks.tracked rfl
  ready := tracks.ready.own moves
  unnamed failed := by
    have listed := tracks.tracked rfl
    cases moves with
    | turnedAway away => exact ⟨placed.named _ listed away tracks.ready, tracks.ready⟩
    | @unreadable _ key wanted broken =>
        rw [texts _ listed key wanted] at broken
        cases broken
    | looked | found | created | cleared | seen | kept | moved | inserted | clashed | refused => cases failed
  wanted := tracks.own_wanted moves
  rows listed := (tracks.rows listed).imp (moves.allHeld apart placed listed listed) fun noneRefused =>
    ⟨fun s member => moves.not_refused apart listed listed member (noneRefused.taken s member),
      noneRefused.own_tasks placed listed moves⟩

theorem Tracks.first {g : Option QueueHandler} (listed : queueName ∈ redis.queueNames)
    (tracks : Tracks unstorable redis queueName g db) : Tracks unstorable redis queueName (some .selecting) db where
  tracked _ := listed
  ready := trivial
  unnamed := by simp
  wanted := by simp
  rows listed := (tracks.rows listed).imp_right fun noneRefused => ⟨noneRefused.taken, by simp⟩

/-- A handler that has ended has upserted every scheduler of its queue. -/
theorem Tracks.all_held (tracks : Tracks unstorable redis queueName (some h) db) (ends : ended queueName h) :
    (∀ key, db.Holds key queueName ↔ key ∈ redis.keys queueName) := by
  cases h with
  | selecting | writing | deleting => cases ends
  | failed =>
      obtain ⟨untracked, absent⟩ := tracks.unnamed rfl
      intro key
      rw [untracked]
      refine iff_of_false (fun held => ?_) List.not_mem_nil
      obtain ⟨r, -, -, named⟩ := held
      exact absent _ named
  | upserting params tasks =>
      obtain ⟨⟨queueId, named, rfl⟩, -⟩ := tracks.ready
      refine fun key => ⟨tracks.wanted _ _ rfl key, fun wanted => ?_⟩
      refine (tracks.rows (tracks.tracked rfl)).elim (fun held => held key wanted) fun noneRefused => ?_
      have param : ∀ param ∈ redis.schedulerParams queueName queueId, param.key ∈ redis.keys queueName := by
        intro param listed
        rw [← RedisQueues.keys_schedulerParams redis queueName queueId]
        exact List.mem_map_of_mem listed
      rw [← RedisQueues.keys_schedulerParams redis queueName queueId] at wanted
      obtain ⟨p, listed, rfl⟩ := List.mem_map.mp wanted
      have task := noneRefused.tasks _ _ rfl p.key (param p listed)
      simp only [ended, Bool.or_eq_true, List.any_eq_true, List.all_eq_true] at ends
      cases ends with
      | inl failure =>
          obtain ⟨p', listed', failed⟩ := failure
          have broken := noneRefused.tasks _ _ rfl p'.key (param p' listed')
          cases phase : tasks p'.key with
          | failed =>
              rw [phase] at broken
              exact broken.elim
          | selecting | writing | done =>
              rw [phase] at failed
              cases failed
      | inr done =>
          have finished := done p listed
          cases phase : tasks p.key with
          | done =>
              rw [phase] at task
              exact task
          | selecting | writing | failed =>
              rw [phase] at finished
              cases finished

end QueueHandler

section

variable {redis : RedisQueues} {db : QueuesDb} {queueName : String}

theorem named_deleteMissing {id : Nat} : (db.deleteMissing redis).Named id queueName ↔
    db.Named id queueName ∧ queueName ∈ redis.queueNames := by
  rw [QueuesDb.deleteMissing_eq, @QueuesDb.named_deleteQueues _ _ _ fun name => !redis.allQueuesNames.contains name]
  simp [RedisQueues.allQueuesNames, Utf16.mem_sort]

/-- Of the queues of Redis the first statement leaves every row as it is. -/
theorem mem_deleteMissing (listed : queueName ∈ redis.queueNames) {r : JobScheduler} (hr : r ∈ db.jobSchedulers)
    (named : db.Named r.queueId queueName) : r ∈ (db.deleteMissing redis).jobSchedulers := by
  obtain ⟨q, hq, id, rfl⟩ := named
  rw [QueuesDb.deleteMissing_eq]
  refine List.mem_filter.mpr ⟨hr, List.any_eq_true.mpr ⟨q, hq, ?_⟩⟩
  simp [id, RedisQueues.allQueuesNames, Utf16.mem_sort, listed]

end

namespace QueueHandler

variable {unstorable : Unstorable} {redis : RedisQueues} {db : QueuesDb}

theorem Placed.start (home : KeysHome redis db) (storable : Storable unstorable redis db) :
    Placed unstorable redis (db.deleteMissing redis) where
  tracked _ _ held := (QueuesDb.holds_deleteMissing.mp held).2
  own n listed key wanted m listed' held := home n listed key wanted m listed' (QueuesDb.holds_deleteMissing.mp held).1
  named n listed away absent :=
    storable.named n listed away fun id named => absent id (named_deleteMissing.mpr ⟨named, listed⟩)

theorem Tracks.start (storable : Storable unstorable redis db) (queueName : String) :
    Tracks unstorable redis queueName none (db.deleteMissing redis) where
  tracked := by simp
  ready := trivial
  unnamed := by simp
  wanted := by simp
  rows listed := by
    by_cases any : ∃ s ∈ (redis.queue queueName).jobSchedulers, Refused unstorable db queueName s
    · exact .inl fun key wanted =>
        QueuesDb.holds_deleteMissing.mpr ⟨storable.held queueName listed any key wanted, listed⟩
    · refine .inr ⟨fun s member refused => any ⟨s, member, refused.1, fun row hrow same named => ?_⟩, by simp⟩
      exact refused.2 row (mem_deleteMissing listed hrow named) same (named_deleteMissing.mpr ⟨named, listed⟩)

end QueueHandler

/-- The handler of every queue has ended after a complete pass. -/
theorem handler_ended {unstorable : Unstorable} {redis : RedisQueues} {db : QueuesDb} {queueName : String}
    {ts : IngestTrace} {s : IngestState}
    (run : Machine.Run (ingestQueues unstorable redis).step { shared := db } ts s)
    (complete : (ingestQueues unstorable redis).Complete s) (listed : queueName ∈ redis.queueNames) :
    ∃ h, s.handlers queueName = some h ∧ QueueHandler.ended queueName h := by
  have nonempty : queueName ≠ "" := fun empty => redis.named (empty ▸ listed)
  exact WorkerPool.ended_of_complete run complete (Utf16.mem_sort.mpr listed) (decide_eq_false nonempty)

/-- Where keys are apart, the tables home and the rows storable, every complete pass mirrors Redis. -/
theorem mirrors_of_home {unstorable : Unstorable} {redis : RedisQueues} {db db' : QueuesDb} (apart : KeysApart redis)
    (home : KeysHome redis db) (storable : Storable unstorable redis db)
    (pass : IngestPass unstorable redis db db') : Mirrors redis db' := by
  obtain ⟨-, ts, s, run, complete, rfl⟩ := pass
  obtain ⟨placed, tracks⟩ := WorkerPool.invariant (p := ingestQueues unstorable redis)
    (I := QueueHandler.Placed unstorable redis) (L := QueueHandler.Tracks unstorable redis)
    (fun n item db h _ tracks => .first (Utf16.mem_sort.mp item) tracks)
    (fun n db h query r placed tracks enabled => by
      have moves := QueueHandler.moves_of_handle tracks.ready enabled
      have listed := tracks.tracked rfl
      exact ⟨placed.step apart listed moves, tracks.own apart storable.texts placed moves,
        fun j different k others => others.frame apart placed listed moves different⟩)
    run ⟨.start home storable, fun n => .start storable n⟩
  refine mirrors_iff.mpr fun queueName key => ?_
  constructor
  · intro held
    have listed := placed.tracked key queueName held
    obtain ⟨h, handler, ends⟩ := handler_ended run complete listed
    exact ⟨listed, ((handler ▸ tracks queueName).all_held ends key).mp held⟩
  · rintro ⟨listed, wanted⟩
    obtain ⟨h, handler, ends⟩ := handler_ended run complete listed
    exact ((handler ▸ tracks queueName).all_held ends key).mpr wanted

end BetterBullBoard
