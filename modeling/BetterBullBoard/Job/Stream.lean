import BetterBullBoard.Job.OneKey
import BetterBullBoard.Streams.Handler

/-! # The job stream under a database that rejects some rows

A batch is one statement. It holds the last in-retention run of each key, and
throws exactly when one of those rows is rejected.
-/

namespace BetterBullBoard

variable {J : Type}

/-- A parsed payload of the job stream. -/
structure JobSyncEvent (J : Type) where
  workerId : Option String := none
  queueName : String
  phase : JobSyncPhase := .snapshot
  state : Option String := none
  tags : Option (List String) := none
  job : JobSnapshot J
  deriving Repr, DecidableEq

/-- The run of a message, with the id of the message. `parseJobSyncEvent` is none
    where it throws. -/
def validRun (parseJobSyncEvent : String → Option (JobSyncEvent J)) (m : StreamMessage) :
    Option (Nat × JobRunInsert J) :=
  match truthyString (getField m.fields "payload") with
  | none => none
  | some payload =>
      (parseJobSyncEvent payload).bind fun event =>
        (formatJobRun event.job event.queueName event.workerId ((event.tags.map .value).getD .undefined)
          (some event.phase) event.state).map fun row => (m.id, row)

theorem validRun_some {parseJobSyncEvent : String → Option (JobSyncEvent J)} {m : StreamMessage}
    {v : Nat × JobRunInsert J} (h : validRun parseJobSyncEvent m = some v) :
    v.1 = m.id ∧ ∃ k, v.2.target = some k := by
  unfold validRun at h
  split at h
  · simp at h
  · obtain ⟨event, -, formatted⟩ := Option.bind_eq_some_iff.mp h
    obtain ⟨row, hrow, rfl⟩ := Option.map_eq_some_iff.mp formatted
    obtain ⟨-, -, enqueuedAt, -⟩ := formatJobRun_some hrow
    exact ⟨rfl, _, by rw [JobRunInsert.target, enqueuedAt]; rfl⟩

theorem insertValues_covers (ctx : UpsertContext) {runs : List (JobRunInsert J)} {run : JobRunInsert J}
    (member : run ∈ runs) (inRetention : isWithinRetention run (getRetentionCutoff ctx)) :
    ∃ run' ∈ insertValues ctx runs, dedupeKey run' = dedupeKey run := by
  have entry : (dedupeKey run, run) ∈
      (runs.filter (isWithinRetention · (getRetentionCutoff ctx))).map fun run => (dedupeKey run, run) :=
    List.mem_map.mpr ⟨run, List.mem_filter.mpr ⟨member, inRetention⟩, rfl⟩
  obtain ⟨run', found⟩ := JsMap.get_isSome entry
  obtain ⟨run'', -, same⟩ := List.mem_map.mp (JsMap.mem_of_get found)
  obtain ⟨key, rfl⟩ := Prod.mk.inj same
  have value := (JsMap.mem_iff_get (JsMap.nodup_ofEntries _) _ _).mpr found
  exact ⟨run'', (List.mem_insertionSort _).mpr (List.mem_map.mpr ⟨_, value, rfl⟩), key⟩

/-- Of the runs of one key in retention the statement has the last. -/
theorem insertValues_latest (ctx : UpsertContext) {R : JobRunInsert J → JobRunInsert J → Prop}
    {runs : List (JobRunInsert J)} (ordered : runs.Pairwise R) {run : JobRunInsert J} (member : run ∈ runs)
    (inRetention : isWithinRetention run (getRetentionCutoff ctx)) :
    ∃ run' ∈ insertValues ctx runs, dedupeKey run' = dedupeKey run ∧ (run = run' ∨ R run run') := by
  have entry : (dedupeKey run, run) ∈
      (runs.filter (isWithinRetention · (getRetentionCutoff ctx))).map fun run => (dedupeKey run, run) :=
    List.mem_map.mpr ⟨run, List.mem_filter.mpr ⟨member, inRetention⟩, rfl⟩
  obtain ⟨run', found⟩ := JsMap.get_isSome entry
  obtain ⟨run'', -, same⟩ := List.mem_map.mp (JsMap.mem_of_get found)
  obtain ⟨key, rfl⟩ := Prod.mk.inj same
  have value := (JsMap.mem_iff_get (JsMap.nodup_ofEntries _) _ _).mpr found
  refine ⟨run'', (List.mem_insertionSort _).mpr (List.mem_map.mpr ⟨_, value, rfl⟩), key, ?_⟩
  have entries : ((runs.filter (isWithinRetention · (getRetentionCutoff ctx))).map fun run =>
      (dedupeKey run, run)).Pairwise fun a b => R a.2 b.2 :=
    List.pairwise_map.mpr (ordered.sublist List.filter_sublist)
  exact JsMap.get_latest entries entry found

theorem mem_insertValues_congr {ctx ctx' : UpsertContext} {runs : List (JobRunInsert J)}
    (steady : ∀ run ∈ runs, isWithinRetention run (getRetentionCutoff ctx) =
      isWithinRetention run (getRetentionCutoff ctx')) (run : JobRunInsert J) :
    run ∈ insertValues ctx runs ↔ run ∈ insertValues ctx' runs := by
  rw [insertValues, insertValues, List.mem_insertionSort, List.mem_insertionSort, dedupe, dedupe,
    List.filter_congr steady]

variable [DecidableEq J]

namespace JobRunsTable

def Holds (t : JobRunsTable J) (k : String × String × Int) : Prop := ∃ row ∈ t.rows, row.target = some k

theorem holds_upsertRow (ctx : UpsertContext) (t : JobRunsTable J) (run : JobRunInsert J)
    {k : String × String × Int} (held : t.Holds k) : (t.upsertRow ctx run).Holds k := by
  obtain ⟨row, hrow, keyed⟩ := held
  obtain ⟨row', hrow', same⟩ := upsertRow_survives (R := fun a b : JobRun J => b.target = a.target)
    (fun _ => rfl) ctx t run (fun old _ same _ => by rw [onConflict_target, same]) row hrow
  exact ⟨row', hrow', same.trans keyed⟩

theorem upsert_holds (ctx : UpsertContext) {runs : List (JobRunInsert J)} {run : JobRunInsert J} {k}
    (member : run ∈ insertValues ctx runs) (target : run.target = some k) (t : JobRunsTable J) :
    (upsertJobRuns ctx runs t).1.Holds k := by
  rw [upsertJobRuns_table]
  generalize insertValues ctx runs = values at member
  have kept : ∀ (values : List (JobRunInsert J)) (t : JobRunsTable J), t.Holds k →
      (values.foldl (·.upsertRow ctx ·) t).Holds k := by
    intro values
    induction values with
    | nil => exact fun t held => held
    | cons run values ih => exact fun t held => ih _ (holds_upsertRow ctx t run held)
  induction values generalizing t with
  | nil => simp at member
  | cons run' values ih =>
      cases List.mem_cons.mp member with
      | inr later => exact ih _ later
      | inl first =>
          subst first
          exact kept values _ ⟨_, rowAt_eq_some.mp (rowAt_upsertRow ctx t target)⟩

theorem upsert_holds_iff (ctx : UpsertContext) {runs : List (JobRunInsert J)} {t : JobRunsTable J}
    {k : String × String × Int} :
    (upsertJobRuns ctx runs t).1.Holds k ↔ t.Holds k ∨ ∃ run ∈ insertValues ctx runs, run.target = some k := by
  constructor
  · intro held
    obtain ⟨row, hrow, keyed⟩ := held
    cases mem_upsert_values hrow with
    | inl old => exact .inl ⟨row, old, keyed⟩
    | inr written =>
        obtain ⟨run, member, same, -⟩ := written
        exact .inr ⟨run, member, same.symm.trans keyed⟩
  · intro held
    cases held with
    | inl before =>
        obtain ⟨row, hrow, keyed⟩ := before
        obtain ⟨row', hrow', same⟩ := upsert_survives (R := fun a b : JobRun J => b.target = a.target)
          (fun _ => rfl) (fun _ _ _ h h' => h'.trans h) ctx runs
          (fun old _ run _ same _ => by rw [onConflict_target, same]) t row hrow
        exact ⟨row', hrow', same.trans keyed⟩
    | inr written =>
        obtain ⟨run, member, keyed⟩ := written
        exact upsert_holds ctx member keyed t

end JobRunsTable

section

variable (rejects : JobRunInsert J → Bool)

/-- `safeUpsertJobRuns` on the rows of a batch. -/
def persistJobRuns (ctx : UpsertContext) (valid : List (Nat × JobRunInsert J)) (t : JobRunsTable J) :
    JobRunsTable J × Option (List Nat) :=
  let rows := valid.map (·.2)
  if (insertValues ctx rows).any rejects then (t, none)
  else ((upsertJobRuns ctx rows t).1, some (valid.map (·.1)))

variable (parseJobSyncEvent : String → Option (JobSyncEvent J))

def batchRuns (messages : List StreamMessage) : List (JobRunInsert J) :=
  (messages.filterMap (validRun parseJobSyncEvent)).map (·.2)

def rejectedBatch (ctx : UpsertContext) (messages : List StreamMessage) : Bool :=
  (insertValues ctx (batchRuns parseJobSyncEvent messages)).any rejects

/-- The statement for these messages has a row of this key. -/
def WritesRun (ctx : UpsertContext) (messages : List StreamMessage) (k : String × String × Int) : Prop :=
  ∃ run ∈ insertValues ctx (batchRuns parseJobSyncEvent messages), run.target = some k

def AcceptedRun (m : StreamMessage) : Prop :=
  ∃ v, validRun parseJobSyncEvent m = some v ∧ rejects v.2 = false

/-- The run of the message, if in retention, has a row. -/
def RunStored (ctx : UpsertContext) (t : JobRunsTable J) (m : StreamMessage) : Prop :=
  ∀ v, validRun parseJobSyncEvent m = some v → isWithinRetention v.2 (getRetentionCutoff ctx) →
    ∃ row ∈ t.rows, row.target = v.2.target

end

section

variable {rejects : JobRunInsert J → Bool} {parseJobSyncEvent : String → Option (JobSyncEvent J)}

omit [DecidableEq J] in
theorem batchRuns_decodable (messages : List StreamMessage) :
    batchRuns parseJobSyncEvent (messages.filter (decodable (validRun parseJobSyncEvent))) =
      batchRuns parseJobSyncEvent messages := by
  rw [batchRuns, batchRuns, List.filterMap_filter]
  refine congrArg _ (List.filterMap_congr fun m _ => ?_)
  cases valid : validRun parseJobSyncEvent m with
  | none => simp [decodable, valid]
  | some v => simp [decodable, valid]

omit [DecidableEq J] in
theorem mem_batchRuns {messages : List StreamMessage} {run : JobRunInsert J} :
    run ∈ batchRuns parseJobSyncEvent messages ↔
      ∃ m ∈ messages, ∃ v, validRun parseJobSyncEvent m = some v ∧ v.2 = run := by
  simp only [batchRuns, List.mem_map, List.mem_filterMap]
  constructor
  · intro h
    obtain ⟨v, h, rfl⟩ := h
    obtain ⟨m, hm, valid⟩ := h
    exact ⟨m, hm, v, valid, rfl⟩
  · intro h
    obtain ⟨m, hm, v, valid, rfl⟩ := h
    exact ⟨v, ⟨m, hm, valid⟩, rfl⟩

/-- The messages at hand keep their place before or after the retention cut-off. -/
def Steady (parseJobSyncEvent : String → Option (JobSyncEvent J)) (among : List StreamMessage)
    (ctx ctx' : UpsertContext) : Prop :=
  ∀ m ∈ among, ∀ v, validRun parseJobSyncEvent m = some v →
    isWithinRetention v.2 (getRetentionCutoff ctx') = isWithinRetention v.2 (getRetentionCutoff ctx)

section

variable {ctx ctx' : UpsertContext} {among : List StreamMessage}

omit [DecidableEq J] in
theorem Steady.values (steady : Steady parseJobSyncEvent among ctx ctx') {messages : List StreamMessage}
    (inside : ∀ m ∈ messages, m ∈ among) (run : JobRunInsert J) :
    run ∈ insertValues ctx' (batchRuns parseJobSyncEvent messages) ↔
      run ∈ insertValues ctx (batchRuns parseJobSyncEvent messages) := by
  refine mem_insertValues_congr (fun run hrun => ?_) run
  obtain ⟨m, hm, v, valid, rfl⟩ := mem_batchRuns.mp hrun
  exact steady m (inside m hm) v valid

omit [DecidableEq J] in
theorem Steady.rejected (steady : Steady parseJobSyncEvent among ctx ctx') {messages : List StreamMessage}
    (inside : ∀ m ∈ messages, m ∈ among) :
    (insertValues ctx' (batchRuns parseJobSyncEvent messages)).any rejects =
      rejectedBatch rejects parseJobSyncEvent ctx (messages.filter (decodable (validRun parseJobSyncEvent))) := by
  rw [rejectedBatch, batchRuns_decodable, Bool.eq_iff_iff, List.any_eq_true, List.any_eq_true]
  exact exists_congr fun run => and_congr_left fun _ => steady.values inside run

theorem answers_jobs (steady : Steady parseJobSyncEvent among ctx ctx') :
    Answers (validRun parseJobSyncEvent) (persistJobRuns rejects ctx') (rejectedBatch rejects parseJobSyncEvent ctx)
      among := by
  intro messages inside t
  have ids : ∀ m v, validRun parseJobSyncEvent m = some v → some v.1 = some m.id :=
    fun m v valid => congrArg some (validRun_some valid).1
  simp only [persistJobRuns]
  rw [← batchRuns, steady.rejected inside]
  split
  · rfl
  · exact congrArg some (List.filterMap_eq_map' ▸ filterMap_decoded ids messages)

theorem adds_jobs (steady : Steady parseJobSyncEvent among ctx ctx') :
    Adds (validRun parseJobSyncEvent) (persistJobRuns rejects ctx') (rejectedBatch rejects parseJobSyncEvent ctx)
      JobRunsTable.Holds (WritesRun parseJobSyncEvent ctx) among := by
  intro messages inside t k
  simp only [persistJobRuns]
  rw [← batchRuns, steady.rejected inside]
  split
  · rename_i failed
    simp [failed]
  · rename_i passes
    rw [JobRunsTable.upsert_holds_iff, WritesRun, batchRuns_decodable]
    simp only [steady.values inside, Bool.not_eq_true _ ▸ passes, true_and]

end

end

end BetterBullBoard
