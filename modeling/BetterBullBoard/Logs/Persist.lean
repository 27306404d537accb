import Mathlib.Data.List.Sort
import BetterBullBoard.Lib.JoinedText
import BetterBullBoard.Lib.JsMap
import BetterBullBoard.Lib.Slices
import BetterBullBoard.Logs.Schema

/-! # Resolving and persisting log events

The pieces of `sync/log-buffer.ts` between its statements: which run an event
belongs to, what is inserted in which chunks, what is buffered. Runs are looked
up by a text key, so the results need queue names without `:`.
-/

namespace BetterBullBoard

variable {J : Type}

def getJobKey (queue jobId : String) (jobTimestamp : Int) : String :=
  queue ++ ":" ++ jobId ++ ":" ++ toString jobTimestamp

def LogEventForPersistence.jobKey (e : LogEventForPersistence) : String :=
  getJobKey e.queue e.jobId e.jobTimestamp

/-- BullMQ refuses queue names that contain `:`. -/
def PlainQueue (e : LogEventForPersistence) : Prop := ':' ∉ e.queue.toList

instance (e : LogEventForPersistence) : Decidable (PlainQueue e) := inferInstanceAs (Decidable (¬ _))

/-- One event for each job key. -/
def uniqueJobs (events : List LogEventForPersistence) : List LogEventForPersistence :=
  (JsMap.ofEntries (events.map fun e => (e.jobKey, e))).map Prod.snd

/-- The predicate of the query, for one job. -/
def matchesRun (r : JobRun J) (e : LogEventForPersistence) : Bool :=
  r.queue = e.queue && r.jobId = e.jobId && r.enqueuedAt = some e.jobTimestamp

/-- The map from job keys to run ids. -/
def resolveJobRunIds (runs : JobRunsTable J) (events : List LogEventForPersistence) : List (String × Nat) :=
  JsMap.ofEntries <| (runs.rows.filter fun r => (uniqueJobs events).any (matchesRun r)).filterMap fun r =>
    r.enqueuedAt.map fun moment => (getJobKey r.queue r.jobId moment, r.id)

theorem matchesRun_iff (r : JobRun J) (e : LogEventForPersistence) :
    matchesRun r e = true ↔ r.target = some e.identity.run := by
  simp only [matchesRun, Bool.and_eq_true, decide_eq_true_eq, JobRun.target, LogIdentity.run,
    LogEventForPersistence.identity]
  cases r.enqueuedAt <;> simp [and_assoc]

theorem jobKey_inj {e e' : LogEventForPersistence} (he : PlainQueue e) (he' : PlainQueue e')
    (h : e.jobKey = e'.jobKey) : e.identity.run = e'.identity.run := by
  obtain ⟨queue, jobId, jobTimestamp⟩ := JoinedText.joined_inj he he' h
  simp only [LogIdentity.run, LogEventForPersistence.identity, queue, jobId, jobTimestamp]

theorem mem_uniqueJobs {events : List LogEventForPersistence} {e : LogEventForPersistence}
    (h : e ∈ uniqueJobs events) : e ∈ events := by
  obtain ⟨entry, he, rfl⟩ := List.mem_map.mp h
  have := JsMap.mem_of_get ((JsMap.mem_iff_get (JsMap.nodup_ofEntries _) entry.1 entry.2).mp he)
  obtain ⟨e, member, same⟩ := List.mem_map.mp this
  obtain ⟨-, rfl⟩ := Prod.mk.inj same
  exact member

theorem uniqueJobs_covers {events : List LogEventForPersistence} {e : LogEventForPersistence}
    (h : e ∈ events) : ∃ e' ∈ uniqueJobs events, e'.jobKey = e.jobKey := by
  have entry : (e.jobKey, e) ∈ events.map fun e => (e.jobKey, e) := List.mem_map.mpr ⟨e, h, rfl⟩
  obtain ⟨e', found⟩ := JsMap.get_isSome entry
  refine ⟨e', List.mem_map.mpr ⟨_, (JsMap.mem_iff_get (JsMap.nodup_ofEntries _) _ _).mpr found, rfl⟩, ?_⟩
  obtain ⟨e'', -, same⟩ := List.mem_map.mp (JsMap.mem_of_get found)
  obtain ⟨key, rfl⟩ := Prod.mk.inj same
  exact key

/-- An event is looked up to exactly the run with its queue, job id and time. -/
theorem resolveJobRunIds_spec {runs : JobRunsTable J} {events : List LogEventForPersistence}
    (plain : ∀ e ∈ events, PlainQueue e) {e : LogEventForPersistence} (he : e ∈ events) (id : Nat) :
    JsMap.get e.jobKey (resolveJobRunIds runs events) = some id ↔
      ∃ run ∈ runs.rows, run.id = id ∧ run.target = some e.identity.run := by
  -- a selected row has the target of an event, so its key text tells its target
  have selected : ∀ r, r ∈ runs.rows.filter (fun r => (uniqueJobs events).any (matchesRun r)) →
      r ∈ runs.rows ∧ ∃ e' ∈ events, r.target = some e'.identity.run := by
    intro r hr
    obtain ⟨member, asked⟩ := List.mem_filter.mp hr
    obtain ⟨e', he', matched⟩ := List.any_eq_true.mp asked
    exact ⟨member, e', mem_uniqueJobs he', (matchesRun_iff r e').mp matched⟩
  have sound : ∀ id, JsMap.get e.jobKey (resolveJobRunIds runs events) = some id →
      ∃ run ∈ runs.rows, run.id = id ∧ run.target = some e.identity.run := by
    intro id found
    obtain ⟨r, hr, entry⟩ := List.mem_filterMap.mp (JsMap.mem_of_get found)
    obtain ⟨member, e', he', target⟩ := selected r hr
    obtain ⟨moment, enqueued, eq⟩ := Option.map_eq_some_iff.mp entry
    obtain ⟨key, rfl⟩ := Prod.mk.inj eq
    refine ⟨r, member, rfl, ?_⟩
    have keyed : r.target = some (r.queue, r.jobId, moment) := by simp [JobRun.target, enqueued]
    have run' := Option.some.inj (keyed.symm.trans target)
    have sameKey : e'.jobKey = e.jobKey := by
      rw [← key]
      simp only [LogIdentity.run, LogEventForPersistence.identity, Prod.mk.injEq] at run'
      simp only [LogEventForPersistence.jobKey, run']
    rw [target, jobKey_inj (plain e' he') (plain e he) sameKey]
  constructor
  · exact sound id
  · rintro ⟨run, member, rfl, target⟩
    obtain ⟨e', he', key⟩ := uniqueJobs_covers he
    have same := jobKey_inj (plain e' (mem_uniqueJobs he')) (plain e he) key
    have hit : matchesRun run e' = true := (matchesRun_iff run e').mpr (by rw [same, target])
    have enqueued : run.enqueuedAt = some e.jobTimestamp ∧ run.queue = e.queue ∧ run.jobId = e.jobId := by
      have := (matchesRun_iff run e).mpr target
      simp only [matchesRun, Bool.and_eq_true, decide_eq_true_eq] at this
      exact ⟨this.2, this.1.1, this.1.2⟩
    have entry : (e.jobKey, run.id) ∈ (runs.rows.filter fun r => (uniqueJobs events).any (matchesRun r)).filterMap
        fun r => r.enqueuedAt.map fun moment => (getJobKey r.queue r.jobId moment, r.id) := by
      refine List.mem_filterMap.mpr ⟨run, List.mem_filter.mpr ⟨member, List.any_eq_true.mpr ⟨e', he', hit⟩⟩, ?_⟩
      simp [enqueued, LogEventForPersistence.jobKey]
    obtain ⟨id', found⟩ := JsMap.get_isSome entry
    obtain ⟨run', member', rfl, target'⟩ := sound id' found
    rw [runs.eq_of_target member' member target' target] at found
    exact found

/-- The events whose run is known, with the id found for them. -/
def resolved (jobRunIds : List (String × Nat)) (events : List LogEventForPersistence) : List ResolvedLogEvent :=
  events.filterMap fun e => (JsMap.get e.jobKey jobRunIds).map fun jobRunId => { e with jobRunId }

def unresolved (jobRunIds : List (String × Nat)) (events : List LogEventForPersistence) :
    List LogEventForPersistence :=
  events.filter fun e => (JsMap.get e.jobKey jobRunIds).isNone

/-- A resolved event carries the id of its own run. -/
def OwnRun (runs : JobRunsTable J) (e : ResolvedLogEvent) : Prop :=
  ∃ run ∈ runs.rows, run.id = e.jobRunId ∧ run.target = some e.identity.run

theorem mem_resolved {runs : JobRunsTable J} {events : List LogEventForPersistence}
    (plain : ∀ e ∈ events, PlainQueue e) {r : ResolvedLogEvent} :
    r ∈ resolved (resolveJobRunIds runs events) events ↔
      r.toLogEventForPersistence ∈ events ∧ OwnRun runs r := by
  simp only [resolved, List.mem_filterMap, Option.map_eq_some_iff, OwnRun]
  constructor
  · rintro ⟨e, he, id, found, rfl⟩
    exact ⟨he, (resolveJobRunIds_spec plain he id).mp found⟩
  · rintro ⟨he, own⟩
    exact ⟨r.toLogEventForPersistence, he, r.jobRunId, (resolveJobRunIds_spec plain he _).mpr own, rfl⟩

/-- Every event goes one way or the other. -/
theorem resolved_or_unresolved (jobRunIds : List (String × Nat)) {events : List LogEventForPersistence}
    {e : LogEventForPersistence} (he : e ∈ events) :
    (∃ r ∈ resolved jobRunIds events, r.toLogEventForPersistence = e) ∨ e ∈ unresolved jobRunIds events := by
  cases found : JsMap.get e.jobKey jobRunIds with
  | none => exact .inr (List.mem_filter.mpr ⟨he, by simp [found]⟩)
  | some id => exact .inl ⟨{ e with jobRunId := id }, List.mem_filterMap.mpr ⟨e, he, by simp [found]⟩, rfl⟩

/-- The order of the insert. -/
def compareLogs (localeCompare : String → String → Ordering) (a b : ResolvedLogEvent) : Ordering :=
  (localeCompare a.queue b.queue).then <| (localeCompare a.jobId b.jobId).then <|
    (compare a.jobTimestamp b.jobTimestamp).then <| (compare a.logTimestamp b.logTimestamp).then <|
      compare a.logSeq b.logSeq

/-- The statements of `insertResolvedLogs`: the sorted events, 500 at a time. -/
def insertChunks (localeCompare : String → String → Ordering) (events : List ResolvedLogEvent) :
    List (List ResolvedLogEvent) :=
  Slices.slices 500 (events.insertionSort fun a b => compareLogs localeCompare a b ≠ .gt)

theorem mem_insertChunks {localeCompare : String → String → Ordering} {events : List ResolvedLogEvent}
    {r : ResolvedLogEvent} : r ∈ (insertChunks localeCompare events).flatten ↔ r ∈ events := by
  rw [insertChunks, Slices.flatten_slices (by decide), List.mem_insertionSort]

/-- The row of a resolved event. -/
def ResolvedLogEvent.row (e : ResolvedLogEvent) : JobLog :=
  { jobRunId := e.jobRunId, level := e.level, message := e.message, ts := e.logTimestamp, logSeq := e.logSeq }

end BetterBullBoard
