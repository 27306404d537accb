import BetterBullBoard.Job.ConflictTargets

/-! # What the columns can hold

BullMQ's counts and delays have no bound below the largest safe integer. The
insert schema bounds them by the width of their columns, and a message whose job
it rejects is acknowledged and deleted. The database has two bounds more: the
times whose text it can read, and the generated integer `duration_ms`.
-/

namespace BetterBullBoard

variable {J : Type}

/-- What BullMQ writes: an id, and numbers that are not negative. -/
structure BullMqSnapshot (jobId : String) (job : JobSnapshot J) : Prop where
  id : truthyString job.id = some jobId
  attemptsMade : 0 ≤ job.attemptsMade
  attempts : ∀ n, job.opts.attempts = some n → 0 ≤ n
  priority : ∀ n, job.opts.priority = some n → 0 ≤ n
  delay : ∀ n, job.opts.delay = some n → 0 ≤ n

def durationMs (run : JobRunInsert J) : Option Int :=
  run.finishedAt.bind fun finishedAt => run.startedAt.map (finishedAt - ·)

/-- The rows Postgres refuses: those with a payload it cannot store, such as a
    text with a zero character, and those with a value out of a column's range. -/
def databaseRejects (unstorable : JobRunInsert J → Bool) (run : JobRunInsert J) : Bool :=
  unstorable run || !(run.enqueuedAt.toOption.all timestamp && run.createdAt.all timestamp &&
    run.startedAt.all timestamp && run.finishedAt.all timestamp && (durationMs run).all integer)

/-- A time in the years 1 to 9999. -/
def Representable (ms : Int) : Prop := minTimestamp ≤ ms ∧ ms ≤ maxTimestamp

instance (ms : Int) : Decidable (Representable ms) := inferInstanceAs (Decidable (_ ∧ _))

/-- The numbers of a snapshot are within the widths of their columns. -/
structure Fits (job : JobSnapshot J) : Prop where
  attemptsMade : job.attemptsMade ≤ 32767
  attempts : ∀ n, job.opts.attempts = some n → n ≤ 32767
  priority : ∀ n, job.opts.priority = some n → n ≤ 2147483647
  delay : ∀ n, job.opts.delay = some n → n ≤ 2147483647
  timestamp : Representable job.timestamp
  processedOn : ∀ ms, truthyNumber job.processedOn = some ms → Representable ms
  finishedOn : ∀ ms, truthyNumber job.finishedOn = some ms → Representable ms
  duration : ∀ started finished, truthyNumber job.processedOn = some started →
    truthyNumber job.finishedOn = some finished → integer (finished - started)

theorem formatJobRun_numbers {job : JobSnapshot J} {queueName workerId tags phase state run}
    (h : formatJobRun job queueName workerId tags phase state = some run) : run.attempt = some job.attemptsMade ∧
      run.startedAt = truthyNumber job.processedOn ∧ run.finishedAt = truthyNumber job.finishedOn := by
  unfold formatJobRun at h
  split at h
  · cases h
  · obtain ⟨-, same⟩ := Option.ite_none_right_eq_some.mp h
    obtain rfl := Option.some.inj same
    exact ⟨rfl, rfl, rfl⟩

theorem formatJobRun_isSome {job : JobSnapshot J} {jobId : String} (named : truthyString job.id = some jobId)
    (queueName workerId tags phase state) : (formatJobRun job queueName workerId tags phase state).isSome ↔
      smallint job.attemptsMade ∧ job.opts.attempts.all smallint ∧ job.opts.priority.all integer ∧
        job.opts.delay.all integer ∧ validDate job.timestamp ∧ (truthyNumber job.processedOn).all validDate ∧
          (truthyNumber job.finishedOn).all validDate := by
  simp only [formatJobRun, named, jobRunsInsertSchema, Nullish.toOption, Option.all_some, Bool.and_eq_true,
    Option.isSome_ite]
  tauto

/-- Within widths, a snapshot becomes a row the database takes, and only then. -/
theorem stored_iff_fits {unstorable : JobRunInsert J → Bool} {jobId : String} {job : JobSnapshot J}
    (bull : BullMqSnapshot jobId job) {queueName workerId tags phase state}
    (storable : ∀ run, formatJobRun job queueName workerId tags phase state = some run → unstorable run = false) :
    (∃ run, formatJobRun job queueName workerId tags phase state = some run ∧ databaseRejects unstorable run = false) ↔
      Fits job := by
  have accepted : ∀ run, formatJobRun job queueName workerId tags phase state = some run →
      (databaseRejects unstorable run = false ↔ timestamp job.timestamp ∧
        (truthyNumber job.processedOn).all timestamp ∧ (truthyNumber job.finishedOn).all timestamp ∧
          ∀ started finished, truthyNumber job.processedOn = some started →
            truthyNumber job.finishedOn = some finished → integer (finished - started)) := by
    intro run formatted
    obtain ⟨-, -, enqueued, created, -⟩ := formatJobRun_some formatted
    obtain ⟨-, started, finished⟩ := formatJobRun_numbers formatted
    simp only [databaseRejects, storable run formatted, enqueued, created, started, finished, durationMs]
    cases truthyNumber job.processedOn <;> cases truthyNumber job.finishedOn <;>
      simp [Nullish.toOption, and_assoc]
  have passes := formatJobRun_isSome bull.id queueName workerId tags phase state
  simp only [smallint, integer, validDate, timestamp, Option.all_eq_true, decide_eq_true_eq] at passes accepted
  constructor
  · rintro ⟨run, formatted, taken⟩
    obtain ⟨attemptsMade, attempts, priority, delay, -⟩ := passes.mp (by rw [formatted]; rfl)
    obtain ⟨enqueued', started', finished', duration⟩ := (accepted run formatted).mp taken
    exact {
      attemptsMade := attemptsMade.2
      attempts := fun n h => (attempts n h).2
      priority := fun n h => (priority n h).2
      delay := fun n h => (delay n h).2
      timestamp := enqueued'
      processedOn := started'
      finishedOn := finished'
      duration := fun s f hs hf => decide_eq_true (duration s f hs hf) }
  · intro fits
    have date : ∀ ms, Representable ms → -maxDate ≤ ms ∧ ms ≤ maxDate := by
      intro ms h
      exact ⟨le_trans (by decide) h.1, le_trans h.2 (by decide)⟩
    have count : ∀ {n : Option Int} {most : Int}, (∀ m, n = some m → 0 ≤ m) → (∀ m, n = some m → m ≤ most) →
        ∀ {least : Int}, least ≤ 0 → ∀ m, n = some m → least ≤ m ∧ m ≤ most :=
      fun positive most _ below m h => ⟨le_trans below (positive m h), most m h⟩
    obtain ⟨run, formatted⟩ := Option.isSome_iff_exists.mp (passes.mpr
      ⟨⟨le_trans (by decide) bull.attemptsMade, fits.attemptsMade⟩, count bull.attempts fits.attempts (by decide),
        count bull.priority fits.priority (by decide), count bull.delay fits.delay (by decide),
        date _ fits.timestamp, fun ms h => date ms (fits.processedOn ms h), fun ms h => date ms (fits.finishedOn ms h)⟩)
    exact ⟨run, formatted, (accepted run formatted).mpr ⟨fits.timestamp, fits.processedOn, fits.finishedOn,
      fun s f hs hf => of_decide_eq_true (fits.duration s f hs hf)⟩⟩

section

variable (rejects : JobRunInsert J → Bool) (parseJobSyncEvent : String → Option (JobSyncEvent J))

/-- A batch that does not stand in the way of one of its messages: the database
    takes the runs of the others, and no text is ambiguous with that of its run. -/
structure Companions (m : StreamMessage) (k : String × String × Int) (messages : List StreamMessage) : Prop where
  member : m ∈ messages
  ids : (messages.map (·.id)).Nodup
  taken : ∀ m' ∈ messages, m' ≠ m → ∀ v, validRun parseJobSyncEvent m' = some v → rejects v.2 = false
  clear : ∀ m' ∈ messages, ∀ v l, validRun parseJobSyncEvent m' = some v → v.2.target = some l → ¬ Ambiguous k l

/-- In every such batch the message is not taken for invalid, and its run has a row
    afterwards. -/
def Upserts [DecidableEq J] (ctx : UpsertContext) (m : StreamMessage) (k : String × String × Int) : Prop :=
  ∀ messages, Companions rejects parseJobSyncEvent m k messages → ∀ (g : Group) (t : JobRunsTable J),
    m.id ∉ (messages.filter fun m => (validRun parseJobSyncEvent m).isNone).map (·.id) ∧
      ∃ row ∈ (processMessages (validRun parseJobSyncEvent) (persistJobRuns rejects ctx) messages (g, t)).2.rows,
        row.target = some k

end

section

variable [DecidableEq J] {rejects : JobRunInsert J → Bool} {parseJobSyncEvent : String → Option (JobSyncEvent J)}
  {ctx : UpsertContext} {m : StreamMessage} {k : String × String × Int}

theorem upserts_of_accepted {run : JobRunInsert J} (valid : validRun parseJobSyncEvent m = some (m.id, run))
    (target : run.target = some k) (recent : isWithinRetention run (getRetentionCutoff ctx))
    (accepted : rejects run = false) : Upserts rejects parseJobSyncEvent ctx m k := by
  intro messages batch g t
  have alone : ∀ m' ∈ messages, m'.id = m.id → m' = m :=
    fun m' hm' same => List.inj_on_of_nodup_map batch.ids hm' batch.member same
  constructor
  · intro invalid
    obtain ⟨m', hm', same⟩ := List.mem_map.mp invalid
    obtain ⟨hm', invalid⟩ := List.mem_filter.mp hm'
    simp [alone m' hm' same, valid] at invalid
  · have decoded : (m.id, run) ∈ messages.filterMap (validRun parseJobSyncEvent) :=
      List.mem_filterMap.mpr ⟨m, batch.member, valid⟩
    -- every row of the statement is the run of a message
    have origin : ∀ run' ∈ insertValues ctx ((messages.filterMap (validRun parseJobSyncEvent)).map (·.2)),
        ∃ m' ∈ messages, ∃ v, validRun parseJobSyncEvent m' = some v ∧ v.2 = run' := by
      intro run' member
      obtain ⟨v, hv, rfl⟩ := List.mem_map.mp (mem_insertValues member).1
      obtain ⟨m', hm', valid'⟩ := List.mem_filterMap.mp hv
      exact ⟨m', hm', v, valid', rfl⟩
    have taken : (insertValues ctx ((messages.filterMap (validRun parseJobSyncEvent)).map (·.2))).any rejects =
        false := by
      rw [List.any_eq_false]
      intro run' member
      obtain ⟨m', hm', v, valid', rfl⟩ := origin run' member
      by_cases same : m' = m
      · subst same
        obtain rfl := Option.some.inj (valid.symm.trans valid')
        simp [accepted]
      · simp [batch.taken m' hm' same v valid']
    have given : run ∈ (messages.filterMap (validRun parseJobSyncEvent)).map (·.2) :=
      List.mem_map.mpr ⟨_, decoded, rfl⟩
    obtain ⟨run', member, text⟩ := insertValues_covers ctx given recent
    obtain ⟨m', hm', v, valid', rfl⟩ := origin run' member
    obtain ⟨l, target'⟩ := (validRun_some valid').2
    have same : l = k := by
      rw [dedupeKey_joined target, dedupeKey_joined target'] at text
      cases joined_eq_iff.mp text.symm with
      | inl same => exact same.symm
      | inr ambiguous => exact absurd ambiguous (batch.clear m' hm' v l valid' target')
    have nonempty : (messages.filterMap (validRun parseJobSyncEvent)).length ≠ 0 :=
      List.length_pos_of_mem decoded |>.ne'
    simp only [processMessages, nonempty, if_false, persistJobRuns, taken, Bool.false_eq_true]
    exact JobRunsTable.upsert_holds ctx member (same ▸ target') t

theorem accepted_of_upserts (upserts : Upserts rejects parseJobSyncEvent ctx m k)
    (keyed : ∀ v, validRun parseJobSyncEvent m = some v → v.2.target = some k) :
    ∃ run, validRun parseJobSyncEvent m = some (m.id, run) ∧ rejects run = false := by
  have batch : Companions rejects parseJobSyncEvent m k [m] := {
    member := List.mem_singleton_self m
    ids := by simp
    taken := fun m' hm' other => absurd (List.mem_singleton.mp hm') other
    clear := by
      intro m' hm' v l valid target ambiguous
      obtain rfl := List.mem_singleton.mp hm'
      exact ambiguous.differ (Option.some.inj ((keyed v valid).symm.trans target)) }
  obtain ⟨notInvalid, row, hrow, -⟩ := upserts [m] batch {} .empty
  cases valid : validRun parseJobSyncEvent m with
  | none => simp [valid] at notInvalid
  | some v =>
      obtain ⟨id, run⟩ := v
      obtain rfl : id = m.id := (validRun_some valid).1
      refine ⟨run, rfl, Bool.eq_false_iff.mpr fun rejected => ?_⟩
      have one : ∀ run' ∈ [run], run'.target = some k := by simpa using keyed _ valid
      have refused : (persistJobRuns rejects ctx [(m.id, run)] .empty).1 = .empty := by
        simp only [persistJobRuns, List.map_cons, List.map_nil]
        split
        · rfl
        · rename_i taken
          rw [JobRunsTable.upsert_one_key ctx _ one]
          rw [insertValues_one_key one] at taken
          cases survivor : latest ctx [run] with
          | none => rfl
          | some run' =>
              have : run' = run := by
                simpa using (List.mem_filter.mp (List.mem_of_getLast? survivor)).1
              simp [survivor, this, rejected] at taken
      simp only [processMessages, List.filterMap_cons_some valid, List.filterMap_nil, List.length_singleton,
        Nat.succ_ne_zero, if_false] at hrow
      split at hrow <;> exact List.not_mem_nil (refused ▸ hrow)

/-- A job in retention whose payload the database can store is upserted, and never
    discarded as invalid, exactly when its numbers fit their columns. -/
theorem upserts_iff_fits {unstorable : JobRunInsert J → Bool} {payload jobId : String} {event : JobSyncEvent J}
    (given : truthyString (getField m.fields "payload") = some payload)
    (parsed : parseJobSyncEvent payload = some event) (bull : BullMqSnapshot jobId event.job)
    (storable : ∀ v, validRun parseJobSyncEvent m = some v → unstorable v.2 = false)
    (recent : (truthyNumber (getRetentionCutoff ctx)).all (· ≤ event.job.timestamp)) :
    Upserts (databaseRejects unstorable) parseJobSyncEvent ctx m (event.queueName, jobId, event.job.timestamp) ↔
      Fits event.job := by
  have decoded : ∀ run, validRun parseJobSyncEvent m = some (m.id, run) ↔
      formatJobRun event.job event.queueName event.workerId ((event.tags.map .value).getD .undefined)
        (some event.phase) event.state = some run := by
    intro run
    simp [validRun, given, parsed]
  rw [← stored_iff_fits bull fun run formatted => storable _ ((decoded run).mpr formatted)]
  have facts : ∀ run, validRun parseJobSyncEvent m = some (m.id, run) →
      run.target = some (event.queueName, jobId, event.job.timestamp) ∧ run.createdAt = some event.job.timestamp := by
    intro run valid
    obtain ⟨named, queue, enqueued, created, -⟩ := formatJobRun_some ((decoded run).mp valid)
    refine ⟨?_, created⟩
    rw [target_of_enqueued enqueued, queue, Option.some.inj (named.symm.trans bull.id)]
  constructor
  · intro upserts
    obtain ⟨run, valid, accepted⟩ := accepted_of_upserts upserts fun v valid => by
      obtain ⟨id, run⟩ := v
      obtain rfl : id = m.id := (validRun_some valid).1
      exact (facts run valid).1
    exact ⟨run, (decoded run).mp valid, accepted⟩
  · rintro ⟨run, formatted, accepted⟩
    have valid := (decoded run).mpr formatted
    obtain ⟨target, created⟩ := facts run valid
    refine upserts_of_accepted valid target ?_ accepted
    unfold isWithinRetention
    cases cutoff : truthyNumber (getRetentionCutoff ctx) with
    | none => rfl
    | some cutoff => simpa [getRunTimestamp, created, cutoff] using recent

end

/-- Job 1 of queue `mail`, to be run after so many milliseconds. -/
def delayedEvent (delay : Int) : JobSyncEvent Unit :=
  { queueName := "mail", phase := .waiting
    job := { id := some "1", timestamp := 1000, opts := { delay := some delay } } }

def delayedMessage : StreamMessage := ⟨0, ["payload", "delayed"]⟩

theorem delayed_bullMq {delay : Int} (positive : 0 ≤ delay) : BullMqSnapshot "1" (delayedEvent delay).job where
  id := rfl
  attemptsMade := le_refl 0
  attempts := by simp [delayedEvent]
  priority := by simp [delayedEvent]
  delay := by simp [delayedEvent, positive]

theorem upserts_one_day : Upserts (databaseRejects fun _ => false) (fun _ => some (delayedEvent 86400000)) {}
    delayedMessage ("mail", "1", 1000) := by
  have upsertsIff : Upserts (databaseRejects fun _ => false) (fun _ => some (delayedEvent 86400000)) {} delayedMessage
      ("mail", "1", 1000) ↔ Fits (delayedEvent 86400000).job :=
    upserts_iff_fits rfl rfl (delayed_bullMq (by decide)) (fun _ _ => rfl) rfl
  exact upsertsIff.mpr {
    attemptsMade := by decide
    attempts := by simp [delayedEvent]
    priority := by simp [delayedEvent]
    delay := by simp [delayedEvent]
    timestamp := by decide
    processedOn := by simp [delayedEvent, truthyNumber]
    finishedOn := by simp [delayedEvent, truthyNumber]
    duration := by simp [delayedEvent, truthyNumber] }

/-- A delay of thirty days does not. -/
theorem thirty_days_discarded :
    ¬ ∀ (parseJobSyncEvent : String → Option (JobSyncEvent Unit)) (unstorable : JobRunInsert Unit → Bool)
      (ctx : UpsertContext) (m : StreamMessage) (payload jobId : String) (event : JobSyncEvent Unit),
      truthyString (getField m.fields "payload") = some payload → parseJobSyncEvent payload = some event →
      BullMqSnapshot jobId event.job →
      (∀ v, validRun parseJobSyncEvent m = some v → unstorable v.2 = false) →
      (truthyNumber (getRetentionCutoff ctx)).all (· ≤ event.job.timestamp) →
      Upserts (databaseRejects unstorable) parseJobSyncEvent ctx m (event.queueName, jobId, event.job.timestamp) := by
  intro all
  have upserts := all (fun _ => some (delayedEvent 2592000000)) (fun _ => false) {} delayedMessage "delayed" "1"
    (delayedEvent 2592000000) rfl rfl (delayed_bullMq (by decide)) (fun _ _ => rfl) rfl
  have discarded : validRun (fun _ => some (delayedEvent 2592000000)) delayedMessage = none := by decide
  obtain ⟨run, valid, -⟩ := accepted_of_upserts upserts (by simp [discarded])
  simp [discarded] at valid

end BetterBullBoard
