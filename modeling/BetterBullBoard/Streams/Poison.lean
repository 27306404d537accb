import BetterBullBoard.Job.ConflictTargets
import BetterBullBoard.Logs.Redelivery

/-! # Entries the database rejects

Unparsable entries are dropped one by one, rejected ones are not: the statement
they are in fails, and with it their whole batch, again and again. What gets
through is what stands before them by whole batches.
-/

namespace BetterBullBoard

variable {J : Type}

/-- The run has a row of its own, from before or by a statement that gets through.
    Of the runs a statement has in retention, the last of each key text is in it,
    so a run of another target with the same text may take its place. -/
def RowLeft (parse : String → Option (JobSyncEvent J)) (rejects : JobRunInsert J → Bool) (ctx : UpsertContext)
    (count : Nat) (s : Group × JobRunsTable J) (run : JobRunInsert J) : Prop :=
  (∃ row ∈ s.2.rows, row.target = run.target) ∨
    ∃ batch, Redelivery.Passes (decodable (validRun parse)) (rejectedBatch rejects parse ctx) count
        s.1.pendingEntries batch ∧
      ∃ last ∈ JsMap.lastOfEach dedupeKey (inRetention ctx (batchRuns parse batch)), last.target = run.target

section

variable [DecidableEq J] {parse : String → Option (JobSyncEvent J)} {rejects : JobRunInsert J → Bool}
  {ctx : UpsertContext} {count : Nat}

omit [DecidableEq J] in
theorem writes_iff {batch : List StreamMessage} {k : String × String × Int} : WritesRun parse ctx batch k ↔
    ∃ last ∈ JsMap.lastOfEach dedupeKey (inRetention ctx (batchRuns parse batch)), last.target = some k :=
  exists_congr fun _ => and_congr_left fun _ => (insertValues_perm ctx _).mem_iff

/-- Which targets have a row after the redeliveries. -/
theorem holds_iff_rowLeft (positive : 0 < count) {s : Group × JobRunsTable J} {ctxs : List UpsertContext}
    (distinct : (s.1.entries.map (·.id)).Nodup)
    (steady : ∀ ctx' ∈ ctxs, Steady parse s.1.pendingEntries ctx ctx')
    (enough : s.1.pendingEntries.length ≤ ctxs.length) {run : JobRunInsert J} {k} (target : run.target = some k) :
    (redeliverAll (validRun parse) (persistJobRuns rejects) count ctxs s).2.Holds k ↔
      RowLeft parse rejects ctx count s run := by
  have idle : ∀ k, ¬ WritesRun parse ctx [] k := by
    intro k written
    obtain ⟨run, member, -⟩ := written
    exact absurd (mem_insertValues member).1 (by simp [batchRuns])
  rw [holds_redeliverAll (fun ctx' member => answers_jobs (steady ctx' member))
    (fun ctx' member => adds_jobs (steady ctx' member)) rfl idle distinct (fun m hm => hm), RowLeft, target]
  refine or_congr_right (exists_congr fun batch => ?_)
  rw [← writes_iff]
  refine and_congr_left fun written => Redelivery.mem_passed_iff positive rfl enough fun empty => ?_
  exact idle k (empty ▸ written)

end

/-- Both streams, batch size `count`, after at least as many redeliveries as
    there are pending entries. A rejected line holds back its block of `count`
    entries and all later ones. A job batch is held back by its statement, and
    what it holds may grow while unparsable entries leave it. -/
theorem poison_isolation_iff [DecidableEq J] {count : Nat} (positive : 0 < count) :
    (∀ (parse : String → Option LogSyncEvent) (rejects : LogEventForPersistence → Bool)
        (localeCompare : String → String → Ordering) (runs : JobRunsTable J)
        (s : Group × JobLogsTable × JobLogBufferTable) (nows : List Int),
        (s.1.entries.map (·.id)).Nodup →
        (∀ m ∈ s.1.pendingEntries, ∀ e, validEvent parse m = some e → PlainQueue e) →
        s.1.pendingEntries.length ≤ nows.length →
        (Isolated (AcceptedLog parse rejects) (LineStored parse runs) s
            (redeliverAll (validEvent parse) (persistLogEvents rejects localeCompare runs) count nows s) ↔
          Redelivery.BlocksClear count (rejectedLog parse rejects) (AcceptedLog parse rejects)
            s.1.pendingEntries)) ∧
      ∀ (parse : String → Option (JobSyncEvent J)) (rejects : JobRunInsert J → Bool)
        (s : Group × JobRunsTable J) (ctx : UpsertContext) (ctxs : List UpsertContext),
        (s.1.entries.map (·.id)).Nodup →
        (∀ ctx' ∈ ctxs, Steady parse s.1.pendingEntries ctx ctx') →
        s.1.pendingEntries.length ≤ ctxs.length →
        (Isolated (AcceptedRun rejects parse) (RunStored parse ctx) s
            (redeliverAll (validRun parse) (persistJobRuns rejects) count ctxs s) ↔
          Redelivery.Clears (decodable (validRun parse)) (rejectedBatch rejects parse ctx) count
            (AcceptedRun rejects parse) s.1.pendingEntries ∧
          ∀ m ∈ s.1.pendingEntries, ∀ v, validRun parse m = some v → rejects v.2 = false →
            isWithinRetention v.2 (getRetentionCutoff ctx) → RowLeft parse rejects ctx count s v.2) := by
  constructor
  · intro parse rejects localeCompare runs s nows distinct plain enough
    have usable : ∀ m, AcceptedLog parse rejects m → decodable (validEvent parse) m := by
      intro m good
      obtain ⟨e, valid, -⟩ := good
      simp [decodable, valid]
    rw [isolated_iff_clears (fun now _ => answers_logs runs now s.1.pendingEntries)
      (fun now _ => stores_logs runs now plain) positive rfl usable distinct (fun m hm => hm) enough]
    refine Redelivery.clears_iff_blocks positive (fun _ => rfl) (fun m bad => ?_) _
    cases valid : validEvent parse m with
    | none => simp [rejectedLog, valid] at bad
    | some e => simp [decodable, valid]
  · intro parse rejects s ctx ctxs distinct steady enough
    have usable : ∀ m, AcceptedRun rejects parse m → decodable (validRun parse) m := by
      intro m good
      obtain ⟨v, valid, -⟩ := good
      simp [decodable, valid]
    rw [← acknowledged_iff_clears (fun ctx' member => answers_jobs (steady ctx' member)) positive rfl usable
      distinct (fun m hm => hm) enough]
    have held : ∀ v : Nat × JobRunInsert J, ∀ k, v.2.target = some k →
        ((∃ row ∈ (redeliverAll (validRun parse) (persistJobRuns rejects) count ctxs s).2.rows,
            row.target = v.2.target) ↔ RowLeft parse rejects ctx count s v.2) := by
      intro v k target
      rw [target]
      exact holds_iff_rowLeft positive distinct steady enough target
    constructor
    · intro isolated
      refine ⟨fun m hm good => (isolated m hm good).1, fun m hm v valid fine inRetention => ?_⟩
      obtain ⟨k, target⟩ := (validRun_some valid).2
      exact (held v k target).mp ((isolated m hm ⟨v, valid, fine⟩).2 v valid inRetention)
    · intro both m hm good
      refine ⟨both.1 m hm good, fun v valid inRetention => ?_⟩
      obtain ⟨k, target⟩ := (validRun_some valid).2
      obtain ⟨v', valid', fine⟩ := good
      obtain rfl := Option.some.inj (valid.symm.trans valid')
      exact (held v k target).mpr (both.2 m hm v valid fine inRetention)

/-- Text as JSON escapes it: a NUL character is six characters. -/
def jsonText (s : String) : String :=
  String.ofList (s.toList.flatMap fun c => if c = '\x00' then "\\u0000".toList else [c])

/-- The payload of a log line of job 1 of `mail`. -/
def linePayload (logSeq : Int) (message : String) : String :=
  "\x7b\"version\":1,\"workerId\":\"w\",\"queueName\":\"mail\",\"jobId\":\"1\",\"jobTimestamp\":1000," ++
    "\"logTimestamp\":1500,\"logSeq\":" ++ toString logSeq ++ ",\"level\":\"info\",\"message\":\"" ++
      jsonText message ++ "\"\x7d"

def line (logSeq : Int) (message : String) : LogSyncEvent :=
  { workerId := "w", queueName := "mail", jobId := "1", jobTimestamp := 1000, logTimestamp := 1500, logSeq,
    level := .info, message }

/-- What `JSON.parse` and the schema make of the payloads used here. -/
def parseLine (payload : String) : Option LogSyncEvent :=
  if payload = linePayload 0 "hello" then some (line 0 "hello")
  else if payload = linePayload 1 "\x00" then some (line 1 "\x00")
  else none

/-- Postgres stores no NUL character in a text column. -/
def holdsNul (e : LogEventForPersistence) : Bool := e.message.toList.contains '\x00'

/-- The line before the rejected one, and the rejected one. -/
def nulBehind : Group where
  entries := [⟨1, ["payload", linePayload 0 "hello"]⟩, ⟨2, ["payload", linePayload 1 "\x00"]⟩]
  lastDelivered := 2
  pending := [1, 2]

/-- The payload of a run with these members of `job` after its id. -/
def jobPayload (queueName phase jobId rest : String) : String :=
  "\x7b\"version\":1,\"queueName\":\"" ++ queueName ++ "\",\"phase\":\"" ++ phase ++
    "\",\"job\":\x7b\"id\":\"" ++ jobId ++ "\",\"opts\":\x7b\x7d,\"attemptsMade\":0,\"timestamp\":1000" ++
      rest ++ "\x7d\x7d"

def failedPayload : String :=
  jobPayload "mail" "terminal" "2" (",\"finishedOn\":2000,\"failedReason\":\"" ++ jsonText "\x00" ++ "\"")

def parseJob (payload : String) : Option (JobSyncEvent Unit) :=
  if payload = jobPayload "mail-eu" "waiting" "7" "" then
    some { queueName := "mail-eu", phase := .waiting, job := { id := some "7", timestamp := 1000 } }
  else if payload = jobPayload "mail" "waiting" "eu-7" "" then
    some { queueName := "mail", phase := .waiting, job := { id := some "eu-7", timestamp := 1000 } }
  else if payload = failedPayload then
    some { queueName := "mail", phase := .terminal,
           job := { id := some "2", timestamp := 1000, finishedOn := some 2000, failedReason := some "\x00" } }
  else none

def failsWithNul (run : JobRunInsert Unit) : Bool := run.errorMessage.any (·.toList.contains '\x00')

/-- Two runs of one key text, and a rejected one. -/
def failedBehind : Group where
  entries := [⟨1, ["payload", jobPayload "mail-eu" "waiting" "7" ""]⟩,
    ⟨2, ["payload", jobPayload "mail" "waiting" "eu-7" ""]⟩, ⟨3, ["payload", failedPayload]⟩]
  lastDelivered := 3
  pending := [1, 2, 3]

theorem not_acceptedLog {parse : String → Option LogSyncEvent} {rejects : LogEventForPersistence → Bool}
    {m : StreamMessage} (bad : rejectedLog parse rejects m) : ¬ AcceptedLog parse rejects m := by
  intro good
  obtain ⟨e, valid, fine⟩ := good
  simp [rejectedLog, valid, fine] at bad

theorem not_acceptedRun {parse : String → Option (JobSyncEvent J)} {rejects : JobRunInsert J → Bool}
    {m : StreamMessage} (bad : (validRun parse m).all (rejects ·.2)) : ¬ AcceptedRun rejects parse m := by
  intro good
  obtain ⟨v, valid, fine⟩ := good
  simp [valid, fine] at bad

set_option maxRecDepth 20000 in
/-- With batches of one, every good entry gets through. -/
theorem poison_isolation_batches_of_one :
    Isolated (AcceptedLog parseLine holdsNul) (LineStored parseLine (JobRunsTable.empty (J := Unit)))
        (nulBehind, .empty, .empty)
        (redeliverAll (validEvent parseLine) (persistLogEvents holdsNul compare (JobRunsTable.empty (J := Unit))) 1
          [0, 0] (nulBehind, .empty, .empty)) ∧
      Isolated (AcceptedRun failsWithNul parseJob) (RunStored parseJob {}) (failedBehind, .empty)
        (redeliverAll (validRun parseJob) (persistJobRuns failsWithNul) 1 [{}, {}, {}] (failedBehind, .empty)) := by
  refine ⟨((poison_isolation_iff Nat.one_pos).1 parseLine holdsNul compare (JobRunsTable.empty (J := Unit))
      (nulBehind, .empty, .empty) [0, 0] (by decide) ?_ (by decide)).mpr ?_,
    ((poison_isolation_iff Nat.one_pos).2 parseJob failsWithNul (failedBehind, .empty) {} [{}, {}, {}] (by decide)
      ?_ (by decide)).mpr ⟨?_, ?_⟩⟩
  · intro m hm e valid
    have plain : ∀ m ∈ nulBehind.pendingEntries, (validEvent parseLine m).all (PlainQueue ·) := by decide
    simpa [valid] using plain m hm
  · intro i x found bad y hy
    cases i with
    | zero =>
        obtain rfl := Option.some.inj found
        exact absurd bad (by decide)
    | succ i =>
        cases i with
        | zero =>
            obtain rfl := List.mem_singleton.mp hy
            exact not_acceptedLog (by decide)
        | succ i => simp [nulBehind, Group.pendingEntries, Group.claimed] at found
  · intro ctx' hctx m _ v _
    have same : ctx' = {} := by simpa using hctx
    rw [same]
  · refine .window 0 (fun j hj => absurd hj (Nat.not_lt_zero j)) (by decide)
      (.window 0 (fun j hj => absurd hj (Nat.not_lt_zero j)) (by decide) (.rest fun m hm => ?_))
    obtain rfl := List.mem_singleton.mp hm
    exact not_acceptedRun (by decide)
  · intro m hm v valid fine retained
    have first : Redelivery.Passes (decodable (validRun parseJob)) (rejectedBatch failsWithNul parseJob {}) 1
        failedBehind.pendingEntries [⟨1, ["payload", jobPayload "mail-eu" "waiting" "7" ""]⟩] :=
      .here 0 (fun j hj => absurd hj (Nat.not_lt_zero j)) (by decide)
    have second : Redelivery.Passes (decodable (validRun parseJob)) (rejectedBatch failsWithNul parseJob {}) 1
        failedBehind.pendingEntries [⟨2, ["payload", jobPayload "mail" "waiting" "eu-7" ""]⟩] :=
      .later 0 (fun j hj => absurd hj (Nat.not_lt_zero j)) (by decide)
        (.here 0 (fun j hj => absurd hj (Nat.not_lt_zero j)) (by decide))
    have alone : ∃ last ∈ JsMap.lastOfEach dedupeKey (inRetention {} (batchRuns parseJob [m])),
        last.target = v.2.target := ⟨v.2, by simp [batchRuns, valid, inRetention, retained, JsMap.lastOfEach], rfl⟩
    have entries : m = ⟨1, ["payload", jobPayload "mail-eu" "waiting" "7" ""]⟩ ∨
        m = ⟨2, ["payload", jobPayload "mail" "waiting" "eu-7" ""]⟩ ∨ m = ⟨3, ["payload", failedPayload]⟩ := by
      simpa [failedBehind, Group.pendingEntries, Group.claimed] using hm
    obtain rfl | rfl | rfl := entries
    · exact .inr ⟨_, first, alone⟩
    · exact .inr ⟨_, second, alone⟩
    · exact absurd ⟨v, valid, fine⟩ (not_acceptedRun (by decide))

set_option maxRecDepth 20000 in
/-- With batches of two the good line before the rejected one stays pending. -/
theorem rejected_line_blocks_batch :
    ¬ ∀ (parse : String → Option LogSyncEvent) (rejects : LogEventForPersistence → Bool)
        (s : Group × JobLogsTable × JobLogBufferTable) (count : Nat) (nows : List Int), 0 < count →
        (s.1.entries.map (·.id)).Nodup →
        (∀ m ∈ s.1.pendingEntries, ∀ e, validEvent parse m = some e → PlainQueue e) →
        s.1.pendingEntries.length = nows.length →
        Isolated (AcceptedLog parse rejects) (LineStored parse (JobRunsTable.empty (J := Unit))) s
          (redeliverAll (validEvent parse) (persistLogEvents rejects compare (JobRunsTable.empty (J := Unit)))
            count nows s) := by
  intro isolated
  have plain : ∀ m ∈ nulBehind.pendingEntries, (validEvent parseLine m).all (PlainQueue ·) := by decide
  have acked := isolated parseLine holdsNul (nulBehind, .empty, .empty) 2 [0, 0] (by decide) (by decide)
    (fun m hm e valid => by simpa [valid] using plain m hm) (by decide)
    ⟨1, ["payload", linePayload 0 "hello"]⟩ (by decide) ⟨_, rfl, rfl⟩
  exact absurd acked.1 (by decide)

end BetterBullBoard
