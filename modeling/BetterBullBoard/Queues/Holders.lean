import BetterBullBoard.Queues.Schema

/-! # Which queue holds a scheduler key

The tables as two relations: which queue has an id, and under which queue a key
has its row. Each statement is a change of these relations.
-/

namespace BetterBullBoard

namespace QueuesDb

def Named (db : QueuesDb) (id : Nat) (queueName : String) : Prop :=
  ∃ q ∈ db.queues, q.id = id ∧ q.name = queueName

def Holds (db : QueuesDb) (key queueName : String) : Prop :=
  ∃ r ∈ db.jobSchedulers, r.key = key ∧ db.Named r.queueId queueName

variable {db db' : QueuesDb} {id id' : Nat} {key queueName other : String}

theorem Named.id_eq (h : db.Named id queueName) (h' : db.Named id' queueName) : id = id' := by
  obtain ⟨q, hq, rfl, name⟩ := h
  obtain ⟨q', hq', rfl, name'⟩ := h'
  rw [List.inj_on_of_nodup_map db.names hq hq' (name.trans name'.symm)]

theorem Named.name_eq (h : db.Named id queueName) (h' : db.Named id other) : queueName = other := by
  obtain ⟨q, hq, same, rfl⟩ := h
  obtain ⟨q', hq', same', rfl⟩ := h'
  rw [List.inj_on_of_nodup_map db.ids hq hq' (same.trans same'.symm)]

theorem Holds.queue_eq (h : db.Holds key queueName) (h' : db.Holds key other) : queueName = other := by
  obtain ⟨r, hr, same, named⟩ := h
  obtain ⟨r', hr', same', named'⟩ := h'
  obtain rfl := List.inj_on_of_nodup_map db.keys hr hr' (same.trans same'.symm)
  exact named.name_eq named'

/-- Every row is under a queue. -/
theorem holds_of_mem {r : JobScheduler} (hr : r ∈ db.jobSchedulers) : ∃ queueName, db.Holds r.key queueName := by
  obtain ⟨q, hq, id⟩ := db.references r hr
  exact ⟨q.name, r, hr, rfl, q, hq, id, rfl⟩

theorem selectQueue_some {q : QueueRow} (h : db.selectQueue queueName = some q) : db.Named q.id queueName :=
  ⟨q, List.mem_of_find?_eq_some h, rfl, by simpa using List.find?_some h⟩

theorem selectQueue_none : db.selectQueue queueName = none ↔ ∀ id, ¬ db.Named id queueName := by
  rw [selectQueue, List.find?_eq_none]
  constructor
  · intro absent id named
    obtain ⟨q, hq, -, name⟩ := named
    exact absent q hq (decide_eq_true name)
  · intro absent q hq found
    exact absent q.id ⟨q, hq, rfl, of_decide_eq_true found⟩

theorem selectQueue_isSome (h : db.Named id queueName) : ∃ q, db.selectQueue queueName = some q ∧ q.id = id := by
  cases found : db.selectQueue queueName with
  | none => exact absurd h (selectQueue_none.mp found id)
  | some q => exact ⟨q, rfl, (selectQueue_some found).id_eq h⟩

theorem selectScheduler_none : db.selectScheduler key = none ↔ ∀ queueName, ¬ db.Holds key queueName := by
  rw [selectScheduler, List.find?_eq_none]
  constructor
  · intro absent queueName held
    obtain ⟨r, hr, same, -⟩ := held
    exact absent r hr (decide_eq_true same)
  · intro absent r hr found
    obtain ⟨queueName, held⟩ := holds_of_mem hr
    exact absent queueName (of_decide_eq_true found ▸ held)

/-! ## Statements on `queues` -/

theorem named_deleteQueues {wher : String → Bool} :
    (db.deleteQueues fun q => wher q.name).Named id queueName ↔ db.Named id queueName ∧ wher queueName = false := by
  constructor
  · rintro ⟨q, hq, same, rfl⟩
    obtain ⟨member, kept⟩ := List.mem_filter.mp hq
    exact ⟨⟨q, member, same, rfl⟩, by simpa using kept⟩
  · rintro ⟨⟨q, hq, same, rfl⟩, kept⟩
    exact ⟨q, List.mem_filter.mpr ⟨hq, by simpa using kept⟩, same, rfl⟩

/-- The schedulers go with their queues. -/
theorem holds_deleteQueues {wher : String → Bool} :
    (db.deleteQueues fun q => wher q.name).Holds key queueName ↔ db.Holds key queueName ∧ wher queueName = false := by
  constructor
  · rintro ⟨r, hr, same, named⟩
    obtain ⟨named, kept⟩ := named_deleteQueues.mp named
    exact ⟨⟨r, (List.mem_filter.mp hr).1, same, named⟩, kept⟩
  · rintro ⟨⟨r, hr, same, named⟩, kept⟩
    have still := named_deleteQueues.mpr ⟨named, kept⟩
    obtain ⟨q, hq, id, rfl⟩ := named
    refine ⟨r, List.mem_filter.mpr ⟨hr, List.any_eq_true.mpr ⟨q, hq, ?_⟩⟩, same, still⟩
    simp [id, kept]

theorem named_updateQueue {params : QueueInsert} :
    (db.updateQueue params).Named id queueName ↔ db.Named id queueName := by
  constructor
  · rintro ⟨q, hq, same, name⟩
    obtain ⟨old, member, rfl⟩ := List.mem_map.mp hq
    rw [updateRow_id] at same
    rw [updateRow_name] at name
    exact ⟨old, member, same, name⟩
  · rintro ⟨q, hq, same, name⟩
    exact ⟨updateRow params q, List.mem_map_of_mem hq, (updateRow_id ..).trans same, (updateRow_name ..).trans name⟩

theorem holds_updateQueue {params : QueueInsert} :
    (db.updateQueue params).Holds key queueName ↔ db.Holds key queueName := by
  simp only [Holds, named_updateQueue]
  rfl

/-- A name that is free is inserted. -/
theorem insertQueue_isSome {params : QueueInsert} (fresh : ∀ id, ¬ db.Named id params.name) :
    ∃ db' q, db.insertQueue params = some (db', q) := by
  have allowed : ∀ q ∈ db.queues, q.name ≠ params.name := fun q hq name => fresh q.id ⟨q, hq, rfl, name⟩
  exact ⟨_, _, dif_pos allowed⟩

theorem insertQueue_spec {params : QueueInsert} {q : QueueRow} (h : db.insertQueue params = some (db', q)) :
    (∀ id queueName, db'.Named id queueName ↔ db.Named id queueName ∨ (id = q.id ∧ queueName = params.name)) ∧
      (∀ key queueName, db'.Holds key queueName ↔ db.Holds key queueName) ∧
      db'.jobSchedulers = db.jobSchedulers := by
  unfold insertQueue at h
  split at h
  · obtain ⟨rfl, rfl⟩ := Prod.mk.inj (Option.some.inj h)
    have named : ∀ id queueName,
        (∃ q ∈ db.queues ++ [{ params with id := db.nextId }], q.id = id ∧ q.name = queueName) ↔
          db.Named id queueName ∨ (id = db.nextId ∧ queueName = params.name) := by
      intro id queueName
      simp only [List.mem_append, List.mem_singleton, or_and_right, exists_or, exists_eq_left, Named]
      exact or_congr_right (and_congr eq_comm eq_comm)
    refine ⟨named, fun key queueName => ?_, rfl⟩
    constructor
    · rintro ⟨r, hr, same, inNew⟩
      cases (named _ _).mp inNew with
      | inl old => exact ⟨r, hr, same, old⟩
      | inr new =>
          obtain ⟨q, hq, id⟩ := db.references r hr
          exact absurd (id.trans new.1) (Nat.ne_of_lt (db.below q hq))
    · rintro ⟨r, hr, same, old⟩
      exact ⟨r, hr, same, (named _ _).mpr (.inl old)⟩
  · cases h

/-! ## Statements on `job_schedulers` -/

theorem oldSchedulers_iff {keys : List String} {r : JobScheduler} :
    oldSchedulers id keys r ↔ r.queueId = id ∧ r.key ∉ keys := by
  cases keys <;> simp [oldSchedulers]

theorem holds_deleteSchedulers {keys : List String} (owner : db.Named id queueName) :
    (db.deleteSchedulers (oldSchedulers id keys)).Holds key other ↔
      db.Holds key other ∧ ¬ (other = queueName ∧ key ∉ keys) := by
  constructor
  · rintro ⟨r, hr, rfl, named⟩
    obtain ⟨member, kept⟩ := List.mem_filter.mp hr
    have named : db.Named r.queueId other := named
    refine ⟨⟨r, member, rfl, named⟩, fun gone => ?_⟩
    obtain ⟨rfl, outside⟩ := gone
    rw [oldSchedulers_iff.mpr ⟨named.id_eq owner, outside⟩] at kept
    cases kept
  · rintro ⟨⟨r, hr, rfl, named⟩, kept⟩
    refine ⟨r, List.mem_filter.mpr ⟨hr, ?_⟩, rfl, named⟩
    rw [Bool.not_eq_true']
    by_contra old
    obtain ⟨same, outside⟩ := oldSchedulers_iff.mp (Bool.not_eq_false _ ▸ old)
    exact kept ⟨(same ▸ named).name_eq owner, outside⟩

/-- Every other row stays. -/
theorem mem_deleteSchedulers {keys : List String} {r : JobScheduler} (hr : r ∈ db.jobSchedulers)
    (other : ¬ (r.queueId = id ∧ r.key ∉ keys)) : r ∈ (db.deleteSchedulers (oldSchedulers id keys)).jobSchedulers := by
  refine List.mem_filter.mpr ⟨hr, ?_⟩
  rw [Bool.not_eq_true']
  by_contra old
  exact other (oldSchedulers_iff.mp (Bool.not_eq_false _ ▸ old))

theorem withSchedulers_spec {rows : List JobScheduler} (h : db.withSchedulers rows = some db') :
    (∀ id queueName, db'.Named id queueName ↔ db.Named id queueName) ∧
      (∀ key queueName, db'.Holds key queueName ↔ ∃ r ∈ rows, r.key = key ∧ db.Named r.queueId queueName) ∧
      db'.jobSchedulers = rows := by
  unfold withSchedulers at h
  split at h
  · obtain rfl := Option.some.inj h
    exact ⟨fun _ _ => Iff.rfl, fun _ _ => Iff.rfl, rfl⟩
  · cases h

variable {unstorable : Unstorable} {param : JobScheduler}

theorem updateScheduler_isSome (taken : param.refused unstorable = false) (text : isText param.key)
    (owner : db.Named param.queueId queueName) : ∃ db', db.updateScheduler unstorable param = some db' := by
  have allowed : ((db.jobSchedulers.map fun r => if r.key = param.key then param else r).map (·.key)).Nodup ∧
      (∀ r ∈ db.jobSchedulers.map (fun r => if r.key = param.key then param else r), isText r.key) ∧
      ∀ r ∈ db.jobSchedulers.map (fun r => if r.key = param.key then param else r),
        ∃ q ∈ db.queues, q.id = r.queueId := by
    refine ⟨?_, fun r hr => ?_, fun r hr => ?_⟩
    · have same : ∀ r : JobScheduler, (if r.key = param.key then param else r).key = r.key := by
        intro r
        split
        · rename_i same
          exact same.symm
        · rfl
      simpa only [List.map_map, Function.comp_def, same] using db.keys
    · obtain ⟨old, member, rfl⟩ := List.mem_map.mp hr
      split
      · exact text
      · exact db.texts old member
    · obtain ⟨old, member, rfl⟩ := List.mem_map.mp hr
      split
      · obtain ⟨q, hq, id, -⟩ := owner
        exact ⟨q, hq, id⟩
      · exact db.references old member
  rw [updateScheduler, taken, if_neg Bool.false_ne_true]
  exact ⟨_, dif_pos allowed⟩

theorem updateScheduler_refused (refused : param.refused unstorable = true) :
    db.updateScheduler unstorable param = none := if_pos refused

/-- The row of the key moves to the queue it is written for. -/
theorem updateScheduler_spec (h : db.updateScheduler unstorable param = some db')
    (owner : db.Named param.queueId queueName) :
    (∀ id queueName, db'.Named id queueName ↔ db.Named id queueName) ∧
      (∀ key other, db'.Holds key other ↔ if key = param.key then other = queueName ∧ ∃ before, db.Holds key before
        else db.Holds key other) ∧
      ∀ r ∈ db.jobSchedulers, r.key ≠ param.key → r ∈ db'.jobSchedulers := by
  obtain ⟨-, h⟩ := Option.ite_none_left_eq_some.mp h
  obtain ⟨named, holds, rows⟩ := withSchedulers_spec h
  refine ⟨named, fun key other => (holds key other).trans ?_, fun r hr apart => ?_⟩
  · constructor
    · rintro ⟨r, hr, rfl, inQueue⟩
      obtain ⟨old, member, rfl⟩ := List.mem_map.mp hr
      split at inQueue
      · rename_i same
        simp only [same, if_true]
        exact ⟨inQueue.name_eq owner, same ▸ holds_of_mem member⟩
      · rename_i apart
        simp only [apart, if_false]
        exact ⟨old, member, rfl, inQueue⟩
    · split
      · rename_i same
        rintro ⟨rfl, before, old, member, rfl, -⟩
        exact ⟨param, List.mem_map.mpr ⟨old, member, if_pos same⟩, same.symm, owner⟩
      · rename_i apart
        rintro ⟨r, hr, rfl, inQueue⟩
        exact ⟨r, List.mem_map.mpr ⟨r, hr, if_neg apart⟩, rfl, inQueue⟩
  · rw [rows]
    exact List.mem_map.mpr ⟨r, hr, if_neg apart⟩

theorem insertScheduler_isSome (taken : param.refused unstorable = false) (text : isText param.key)
    (owner : db.Named param.queueId queueName) (free : ∀ queueName, ¬ db.Holds param.key queueName) :
    ∃ db', db.insertScheduler unstorable param = some db' := by
  have allowed : ((db.jobSchedulers ++ [param]).map (·.key)).Nodup ∧
      (∀ r ∈ db.jobSchedulers ++ [param], isText r.key) ∧
      ∀ r ∈ db.jobSchedulers ++ [param], ∃ q ∈ db.queues, q.id = r.queueId := by
    refine ⟨?_, fun r hr => ?_, fun r hr => ?_⟩
    · refine UniqueIndex.nodup_insert db.keys fun r hr clash => ?_
      obtain ⟨queueName, held⟩ := holds_of_mem hr
      exact free queueName (clash ▸ held)
    · cases List.mem_append.mp hr with
      | inl old => exact db.texts r old
      | inr new => exact List.mem_singleton.mp new ▸ text
    · cases List.mem_append.mp hr with
      | inl old => exact db.references r old
      | inr new =>
          obtain rfl := List.mem_singleton.mp new
          obtain ⟨q, hq, id, -⟩ := owner
          exact ⟨q, hq, id⟩
  rw [insertScheduler, taken, if_neg Bool.false_ne_true]
  exact ⟨_, dif_pos allowed⟩

theorem insertScheduler_spec (h : db.insertScheduler unstorable param = some db')
    (owner : db.Named param.queueId queueName) :
    (∀ id queueName, db'.Named id queueName ↔ db.Named id queueName) ∧
      (∀ key other, db'.Holds key other ↔ db.Holds key other ∨ (key = param.key ∧ other = queueName)) ∧
      ∀ r ∈ db.jobSchedulers, r ∈ db'.jobSchedulers := by
  obtain ⟨-, h⟩ := Option.ite_none_left_eq_some.mp h
  obtain ⟨named, holds, rows⟩ := withSchedulers_spec h
  refine ⟨named, fun key other => (holds key other).trans ?_, fun r hr => rows ▸ List.mem_append_left _ hr⟩
  simp only [List.mem_append, List.mem_singleton, or_and_right, exists_or, exists_eq_left]
  refine or_congr_right (and_congr eq_comm ⟨fun inQueue => inQueue.name_eq owner, fun same => same ▸ owner⟩)

theorem insertScheduler_refused (refused : param.refused unstorable = true) :
    db.insertScheduler unstorable param = none := if_pos refused

/-- A key that has a row already cannot be inserted. -/
theorem insertScheduler_none (held : db.Holds param.key other) : db.insertScheduler unstorable param = none := by
  unfold insertScheduler
  split
  · rfl
  · apply dif_neg
    rintro ⟨distinct, -⟩
    obtain ⟨r, hr, same, -⟩ := held
    rw [List.map_append, List.nodup_append] at distinct
    exact distinct.2.2 r.key (List.mem_map_of_mem hr) param.key (by simp) same

/-- Only texts are keys. -/
theorem Holds.text (held : db.Holds key queueName) : isText key := by
  obtain ⟨r, hr, rfl, -⟩ := held
  exact db.texts r hr

end QueuesDb

end BetterBullBoard
