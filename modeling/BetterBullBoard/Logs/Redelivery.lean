import BetterBullBoard.Logs.Invariant
import BetterBullBoard.Streams.Handler

/-! # The log stream under a database that rejects some lines

`persistLogEvents` as one call: chunk after chunk into `job_logs`, then the rest
into the buffer. It throws at the first statement that holds a rejected line, so
it throws exactly when the batch holds one, and then acknowledges nothing.
-/

namespace BetterBullBoard

variable {J : Type}

section

variable (rejects : LogEventForPersistence → Bool)

/-- The chunks of one batch; false if a statement threw. -/
def insertResolvedLogs : List (List ResolvedLogEvent) → JobLogsTable → JobLogsTable × Bool
  | [], logs => (logs, true)
  | chunk :: chunks, logs =>
      if chunk.any fun r => rejects r.toLogEventForPersistence then (logs, false)
      else insertResolvedLogs chunks (logs.insert (chunk.map ResolvedLogEvent.row))

def bufferUnresolvedLogs (now : Int) (events : List LogEventForPersistence) (buffer : JobLogBufferTable) :
    JobLogBufferTable × Bool :=
  if events.any rejects then (buffer, false) else (buffer.insert now events, true)

/-- Against a fixed table of runs. -/
def persistLogEvents (localeCompare : String → String → Ordering) (runs : JobRunsTable J) (now : Int)
    (events : List LogEventForPersistence) (t : JobLogsTable × JobLogBufferTable) :
    (JobLogsTable × JobLogBufferTable) × Option (List Nat) :=
  let jobRunIds := resolveJobRunIds runs events
  let inserted := insertResolvedLogs rejects (insertChunks localeCompare (resolved jobRunIds events)) t.1
  if inserted.2 then
    let buffered := bufferUnresolvedLogs rejects now (unresolved jobRunIds events) t.2
    ((inserted.1, buffered.1), if buffered.2 then some (events.filterMap (·.id)) else none)
  else ((inserted.1, t.2), none)

end

namespace LogSystem

/-- The tables between two batches. -/
def atRest (runs : JobRunsTable J) (t : JobLogsTable × JobLogBufferTable) : LogSystem J :=
  { runs, logs := t.1, buffer := t.2 }

end LogSystem

open LogSystem

section

variable {rejects : LogEventForPersistence → Bool} {localeCompare : String → String → Ordering}

variable (rejects) in
/-- What inserting the chunks does: nothing leaves, it throws exactly for a
    rejected line, and otherwise every line is held. -/
theorem insertResolvedLogs_spec (chunks : List (List ResolvedLogEvent)) (logs : JobLogsTable) :
    (insertResolvedLogs rejects chunks logs).2 =
        !(chunks.flatten.any fun r => rejects r.toLogEventForPersistence) ∧
      (∀ row ∈ logs.rows, row ∈ (insertResolvedLogs rejects chunks logs).1.rows) ∧
      ((insertResolvedLogs rejects chunks logs).2 = true → ∀ r ∈ chunks.flatten,
        ∃ row ∈ (insertResolvedLogs rejects chunks logs).1.rows, row.target = r.row.target) := by
  induction chunks generalizing logs with
  | nil => exact ⟨rfl, fun row hrow => hrow, fun _ => by simp⟩
  | cons chunk chunks ih =>
      simp only [insertResolvedLogs, List.flatten_cons, List.any_append]
      cases bad : chunk.any fun r => rejects r.toLogEventForPersistence with
      | true => exact ⟨rfl, fun row hrow => hrow, fun passes => by simp at passes⟩
      | false =>
          simp only [Bool.false_eq_true, if_false, Bool.false_or]
          obtain ⟨flag, stay, held⟩ := ih (logs.insert (chunk.map ResolvedLogEvent.row))
          obtain ⟨stay', held'⟩ := JobLogsTable.insert_holds logs (chunk.map ResolvedLogEvent.row)
          refine ⟨flag, fun row hrow => stay row (stay' row hrow), fun passes r hr => ?_⟩
          cases List.mem_append.mp hr with
          | inl inserted =>
              obtain ⟨row, member, target⟩ := held' r.row (List.mem_map.mpr ⟨r, inserted, rfl⟩)
              exact ⟨row, stay row member, target⟩
          | inr later => exact held passes r later

theorem persistLogEvents_grows (runs : JobRunsTable J) (now : Int) (events : List LogEventForPersistence)
    (t : JobLogsTable × JobLogBufferTable) :
    Grows (atRest runs t) (atRest runs (persistLogEvents rejects localeCompare runs now events t).1) := by
  obtain ⟨-, stay, -⟩ := insertResolvedLogs_spec rejects
    (insertChunks localeCompare (resolved (resolveJobRunIds runs events) events)) t.1
  have same : ∀ run ∈ runs.rows, ∃ run' ∈ runs.rows, run'.id = run.id ∧ run'.target = run.target :=
    fun run hrun => ⟨run, hrun, rfl, rfl⟩
  simp only [persistLogEvents, bufferUnresolvedLogs]
  split
  · split
    · exact ⟨fun _ h => h, same, stay, fun _ h => .inl h, Nat.le_refl _, fun _ h => .inl h⟩
    · exact ⟨fun _ h => h, same, stay, fun row h => .inl ((JobLogBufferTable.insert_holds now t.2 _).1 row h),
        JobLogBufferTable.nextId_insert now t.2 _,
        fun row h => (JobLogBufferTable.mem_insert h).imp id fun new => new.1⟩
  · exact ⟨fun _ h => h, same, stay, fun _ h => .inl h, Nat.le_refl _, fun _ h => .inl h⟩

variable (localeCompare) in
/-- The two parts of a batch hold a rejected line exactly when the batch does. -/
theorem any_parts (jobRunIds : List (String × Nat)) (events : List LogEventForPersistence) :
    events.any rejects =
      ((insertChunks localeCompare (resolved jobRunIds events)).flatten.any
          (fun r => rejects r.toLogEventForPersistence) || (unresolved jobRunIds events).any rejects) := by
  rw [Bool.eq_iff_iff, Bool.or_eq_true, List.any_eq_true, List.any_eq_true, List.any_eq_true]
  constructor
  · intro h
    obtain ⟨e, he, bad⟩ := h
    cases resolved_or_unresolved jobRunIds he with
    | inl found =>
        obtain ⟨r, hr, rfl⟩ := found
        exact .inl ⟨r, mem_insertChunks.mpr hr, bad⟩
    | inr missing => exact .inr ⟨e, missing, bad⟩
  · intro h
    cases h with
    | inl found =>
        obtain ⟨r, hr, bad⟩ := found
        obtain ⟨e, he, h⟩ := List.mem_filterMap.mp (mem_insertChunks.mp hr)
        obtain ⟨id, -, rfl⟩ := Option.map_eq_some_iff.mp h
        exact ⟨e, he, bad⟩
    | inr missing =>
        obtain ⟨e, he, bad⟩ := missing
        exact ⟨e, (List.mem_filter.mp he).1, bad⟩

/-- A batch throws exactly when it holds a rejected line. -/
theorem persistLogEvents_answer (runs : JobRunsTable J) (now : Int) (events : List LogEventForPersistence)
    (t : JobLogsTable × JobLogBufferTable) :
    (persistLogEvents rejects localeCompare runs now events t).2 =
      if events.any rejects then none else some (events.filterMap (·.id)) := by
  obtain ⟨flag, -, -⟩ := insertResolvedLogs_spec rejects
    (insertChunks localeCompare (resolved (resolveJobRunIds runs events) events)) t.1
  rw [any_parts localeCompare (resolveJobRunIds runs events)]
  simp only [persistLogEvents, bufferUnresolvedLogs, flag]
  cases (insertChunks localeCompare (resolved (resolveJobRunIds runs events) events)).flatten.any
      fun r => rejects r.toLogEventForPersistence with
  | true => rfl
  | false =>
      cases Bool.eq_false_or_eq_true ((unresolved (resolveJobRunIds runs events) events).any rejects) with
      | inl bad => simp only [bad, Bool.not_false, if_true, Bool.false_or, Bool.false_eq_true, if_false]
      | inr bad => simp only [bad, Bool.not_false, if_true, Bool.or_self, Bool.false_eq_true, if_false]

/-- A batch that does not throw stores every line of it. -/
theorem persistLogEvents_stores (runs : JobRunsTable J) (now : Int) {events : List LogEventForPersistence}
    (plain : ∀ e ∈ events, PlainQueue e) (fine : events.any rejects = false) (t : JobLogsTable × JobLogBufferTable)
    {e : LogEventForPersistence} (he : e ∈ events) :
    (atRest runs (persistLogEvents rejects localeCompare runs now events t).1).Stored e.identity := by
  obtain ⟨flag, -, held⟩ := insertResolvedLogs_spec rejects
    (insertChunks localeCompare (resolved (resolveJobRunIds runs events) events)) t.1
  rw [any_parts localeCompare (resolveJobRunIds runs events), Bool.or_eq_false_iff] at fine
  rw [fine.1, Bool.not_false] at flag
  simp only [persistLogEvents, bufferUnresolvedLogs, flag, fine.2, if_true, Bool.false_eq_true, if_false]
  cases resolved_or_unresolved (resolveJobRunIds runs events) he with
  | inl found =>
      obtain ⟨r, hr, rfl⟩ := found
      obtain ⟨row, member, target⟩ := held flag r (mem_insertChunks.mpr hr)
      exact .inl (ownRun_inLogs ((mem_resolved plain).mp hr).2 member target)
  | inr missing =>
      obtain ⟨row, member, same⟩ := (JobLogBufferTable.insert_holds now t.2 _).2 e missing
      exact .inr ⟨row, member, same⟩

variable {parse : String → Option LogSyncEvent}

/-- An entry whose line the database rejects. -/
def rejectedLog (parse : String → Option LogSyncEvent) (rejects : LogEventForPersistence → Bool)
    (m : StreamMessage) : Bool := (validEvent parse m).any rejects

def AcceptedLog (parse : String → Option LogSyncEvent) (rejects : LogEventForPersistence → Bool)
    (m : StreamMessage) : Prop := ∃ e, validEvent parse m = some e ∧ rejects e = false

/-- The line of the message is in one of the tables. -/
def LineStored (parse : String → Option LogSyncEvent) (runs : JobRunsTable J)
    (t : JobLogsTable × JobLogBufferTable) (m : StreamMessage) : Prop :=
  ∀ e, validEvent parse m = some e → (atRest runs t).Stored e.identity

theorem any_rejectedLog (messages : List StreamMessage) :
    (messages.filter (decodable (validEvent parse))).any (rejectedLog parse rejects) =
      (messages.filterMap (validEvent parse)).any rejects := by
  induction messages with
  | nil => rfl
  | cons m messages ih =>
      cases valid : validEvent parse m with
      | none => simp only [List.filter_cons, List.filterMap_cons, decodable, valid, Option.isSome_none,
          Bool.false_eq_true, if_false, ih]
      | some e => simp only [List.filter_cons, List.filterMap_cons, decodable, valid, Option.isSome_some, if_true,
          List.any_cons, rejectedLog, Option.any_some, ih]

theorem answers_logs (runs : JobRunsTable J) (now : Int) (among : List StreamMessage) :
    Answers (validEvent parse) (persistLogEvents rejects localeCompare runs now)
      (fun batch => batch.any (rejectedLog parse rejects)) among := by
  intro messages _ t
  simp only [any_rejectedLog]
  rw [persistLogEvents_answer, filterMap_decoded fun m e valid => validEvent_id parse valid]

theorem stores_logs (runs : JobRunsTable J) (now : Int) {among : List StreamMessage}
    (plain : ∀ m ∈ among, ∀ e, validEvent parse m = some e → PlainQueue e) :
    Stores (validEvent parse) (persistLogEvents rejects localeCompare runs now)
      (fun batch => batch.any (rejectedLog parse rejects)) (AcceptedLog parse rejects)
      (LineStored parse runs) among where
  stored messages inside t fine m hm _ := by
    intro e valid
    refine persistLogEvents_stores runs now (fun e' he' => ?_) (by rw [← any_rejectedLog, fine]) t
      (List.mem_filterMap.mpr ⟨m, hm, valid⟩)
    obtain ⟨m', hm', valid'⟩ := List.mem_filterMap.mp he'
    exact plain m' (inside m' hm') e' valid'
  kept batch t m stored e valid := (persistLogEvents_grows runs now batch t).stored (stored e valid)

end

end BetterBullBoard
