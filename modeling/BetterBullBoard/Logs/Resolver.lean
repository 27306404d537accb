import BetterBullBoard.Lib.OldestFirst
import BetterBullBoard.Logs.Redelivery

/-! # Passes of the buffer resolver

A pass reads the oldest rows of the buffer and takes away those whose run is
known. Orphans stay in front, so what they leave of each batch is all that
reaches the rows behind them.
-/

namespace BetterBullBoard

variable {J : Type}

/-- `resolveBufferedJobLogs` on the rows its query returned, every statement
    succeeding. -/
def resolveBufferedJobLogs (localeCompare : String → String → Ordering) (runs : JobRunsTable J)
    (bufferedRows : List JobLogBufferRow) (t : JobLogsTable × JobLogBufferTable) :
    JobLogsTable × JobLogBufferTable :=
  if bufferedRows.length = 0 then t
  else
    let events := bufferedRows.map (·.event)
    let found := resolved (resolveJobRunIds runs events) events
    ((insertResolvedLogs (fun _ => false) (insertChunks localeCompare found) t.1).1,
      if 0 < found.length then t.2.delete (found.filterMap (·.id)) else t.2)

/-- So many passes, each over some of the oldest rows. -/
inductive ResolverPasses (localeCompare : String → String → Ordering) (runs : JobRunsTable J) (batchSize : Nat) :
    Nat → JobLogsTable × JobLogBufferTable → JobLogsTable × JobLogBufferTable → Prop where
  | done (t) : ResolverPasses localeCompare runs batchSize 0 t t
  | next {k t bufferedRows t'} : Limit.ReturnsOldest (·.createdAt) batchSize t.2.rows bufferedRows →
      ResolverPasses localeCompare runs batchSize k (resolveBufferedJobLogs localeCompare runs bufferedRows t) t' →
      ResolverPasses localeCompare runs batchSize (k + 1) t t'

/-- The run of a buffered row exists. -/
def hasRun (runs : JobRunsTable J) (row : JobLogBufferRow) : Bool :=
  runs.rows.any fun run => run.target = some row.identity.run

open LogSystem

section

variable {localeCompare : String → String → Ordering} {runs : JobRunsTable J}
  {bufferedRows : List JobLogBufferRow} {t : JobLogsTable × JobLogBufferTable}

theorem hasRun_iff {row : JobLogBufferRow} :
    hasRun runs row ↔ ∃ run ∈ runs.rows, run.target = some row.identity.run := by
  simp [hasRun, List.any_eq_true]

theorem plain_events (plain : ∀ row ∈ bufferedRows, PlainQueue row.event) :
    ∀ e ∈ bufferedRows.map (·.event), PlainQueue e := by
  intro e he
  obtain ⟨row, hrow, rfl⟩ := List.mem_map.mp he
  exact plain row hrow

theorem mem_resolved_rows (plain : ∀ row ∈ bufferedRows, PlainQueue row.event) {row : JobLogBufferRow}
    (hrow : row ∈ bufferedRows) :
    (∃ r ∈ resolved (resolveJobRunIds runs (bufferedRows.map (·.event))) (bufferedRows.map (·.event)),
        r.toLogEventForPersistence = row.event) ↔ hasRun runs row := by
  rw [hasRun_iff]
  constructor
  · intro h
    obtain ⟨r, hr, same⟩ := h
    obtain ⟨run, hrun, -, target⟩ := ((mem_resolved (plain_events plain)).mp hr).2
    rw [same] at target
    exact ⟨run, hrun, target⟩
  · intro h
    obtain ⟨run, hrun, target⟩ := h
    refine ⟨{ row.event with jobRunId := run.id }, (mem_resolved (plain_events plain)).mpr ?_, rfl⟩
    exact ⟨List.mem_map.mpr ⟨row, hrow, rfl⟩, run, hrun, rfl, target⟩

theorem mem_deleted_ids (plain : ∀ row ∈ bufferedRows, PlainQueue row.event)
    (read : ∀ row ∈ bufferedRows, row ∈ t.2.rows) {row : JobLogBufferRow} (hrow : row ∈ t.2.rows) :
    row.id ∈ (resolved (resolveJobRunIds runs (bufferedRows.map (·.event)))
        (bufferedRows.map (·.event))).filterMap (·.id) ↔ hasRun runs row ∧ row ∈ bufferedRows := by
  constructor
  · intro h
    obtain ⟨r, hr, id⟩ := List.mem_filterMap.mp h
    obtain ⟨row', hrow', same⟩ := List.mem_map.mp ((mem_resolved (plain_events plain)).mp hr).1
    have sameId : row'.id = row.id := by
      rw [← same] at id
      exact Option.some.inj id
    obtain rfl := t.2.eq_of_id (read row' hrow') hrow sameId
    exact ⟨(mem_resolved_rows plain hrow').mp ⟨r, hr, same.symm⟩, hrow'⟩
  · intro h
    obtain ⟨r, hr, same⟩ := (mem_resolved_rows plain h.2).mpr h.1
    exact List.mem_filterMap.mpr ⟨r, hr, by rw [same]; rfl⟩

variable (localeCompare runs) in
theorem resolveBufferedJobLogs_rows (plain : ∀ row ∈ bufferedRows, PlainQueue row.event)
    (read : ∀ row ∈ bufferedRows, row ∈ t.2.rows) :
    (resolveBufferedJobLogs localeCompare runs bufferedRows t).2.rows =
      OldestFirst.pass (hasRun runs) bufferedRows t.2.rows := by
  have kept : ∀ row ∈ t.2.rows, decide (row.id ∉ (resolved (resolveJobRunIds runs (bufferedRows.map (·.event)))
      (bufferedRows.map (·.event))).filterMap (·.id)) = !(hasRun runs row && decide (row ∈ bufferedRows)) := by
    intro row hrow
    rw [decide_not, Bool.not_inj_iff, Bool.eq_iff_iff, Bool.and_eq_true, decide_eq_true_eq, decide_eq_true_eq]
    exact mem_deleted_ids plain read hrow
  unfold resolveBufferedJobLogs OldestFirst.pass
  split
  · rename_i nothing
    rw [List.length_eq_zero_iff.mp nothing]
    simp
  · rw [← List.filter_congr kept]
    dsimp only
    split
    · rfl
    · rename_i empty
      rw [List.length_eq_zero_iff.mp (Nat.eq_zero_of_not_pos empty)]
      simp

variable (localeCompare runs) in
/-- What `job_logs` holds it keeps, and it gets the lines that a pass resolves. -/
theorem resolveBufferedJobLogs_logs (plain : ∀ row ∈ bufferedRows, PlainQueue row.event) :
    (∀ l, (atRest runs t).InLogs l →
        (atRest runs (resolveBufferedJobLogs localeCompare runs bufferedRows t)).InLogs l) ∧
      ∀ row ∈ bufferedRows, hasRun runs row →
        (atRest runs (resolveBufferedJobLogs localeCompare runs bufferedRows t)).InLogs row.identity := by
  obtain ⟨flag, stay, held⟩ := insertResolvedLogs_spec (fun _ => false) (insertChunks localeCompare
    (resolved (resolveJobRunIds runs (bufferedRows.map (·.event))) (bufferedRows.map (·.event)))) t.1
  unfold resolveBufferedJobLogs
  split
  · rename_i nothing
    rw [List.length_eq_zero_iff.mp nothing]
    exact ⟨fun l h => h, by simp⟩
  · constructor
    · intro l h
      obtain ⟨row, member, line⟩ := h
      exact ⟨row, stay row member, line⟩
    · intro row hrow known
      obtain ⟨r, hr, same⟩ := (mem_resolved_rows plain hrow).mpr known
      obtain ⟨line, member, target⟩ := held (by rw [flag]; simp) r (mem_insertChunks.mpr hr)
      have identity : row.identity = r.identity := by
        rw [same]
        rfl
      rw [identity]
      exact ownRun_inLogs ((mem_resolved (plain_events plain)).mp hr).2 member target

end

section

variable {localeCompare : String → String → Ordering} {runs : JobRunsTable J} {batchSize k : Nat}
  {t t' : JobLogsTable × JobLogBufferTable}

variable (localeCompare runs) in
theorem resolveBufferedJobLogs_oldest (plain : ∀ row ∈ t.2.rows, PlainQueue row.event)
    {bufferedRows : List JobLogBufferRow}
    (oldest : Limit.ReturnsOldest (·.createdAt) batchSize t.2.rows bufferedRows) :
    (resolveBufferedJobLogs localeCompare runs bufferedRows t).2.rows =
        OldestFirst.pass (hasRun runs) bufferedRows t.2.rows ∧
      ∀ row ∈ (resolveBufferedJobLogs localeCompare runs bufferedRows t).2.rows, PlainQueue row.event := by
  have read := fun row hrow => oldest.1.mem (r := row) hrow
  have after := resolveBufferedJobLogs_rows localeCompare runs (fun row hrow => plain row (read row hrow)) read
  refine ⟨after, fun row hrow => plain row ?_⟩
  rw [after] at hrow
  exact List.mem_of_mem_filter hrow

theorem ResolverPasses.passes (h : ResolverPasses localeCompare runs batchSize k t t')
    (plain : ∀ row ∈ t.2.rows, PlainQueue row.event) :
    OldestFirst.Passes (·.createdAt) (hasRun runs) batchSize k t.2.rows t'.2.rows := by
  induction h with
  | done t => exact .done t.2.rows
  | next oldest _ ih =>
      obtain ⟨after, plain⟩ := resolveBufferedJobLogs_oldest localeCompare runs plain oldest
      exact .next oldest (after ▸ ih plain)

theorem exists_resolverPasses {rows rows' : List JobLogBufferRow}
    (h : OldestFirst.Passes (·.createdAt) (hasRun runs) batchSize k rows rows') (same : t.2.rows = rows)
    (plain : ∀ row ∈ t.2.rows, PlainQueue row.event) :
    ∃ t', ResolverPasses localeCompare runs batchSize k t t' ∧ t'.2.rows = rows' := by
  induction h generalizing t with
  | done rows => exact ⟨t, .done t, same⟩
  | next oldest _ ih =>
      subst same
      obtain ⟨after, plain⟩ := resolveBufferedJobLogs_oldest localeCompare runs plain oldest
      obtain ⟨t', passes, last⟩ := ih after plain
      exact ⟨t', .next oldest passes, last⟩

theorem ResolverPasses.inLogs (h : ResolverPasses localeCompare runs batchSize k t t')
    (plain : ∀ row ∈ t.2.rows, PlainQueue row.event) {l : LogIdentity} (stored : (atRest runs t).InLogs l) :
    (atRest runs t').InLogs l := by
  induction h with
  | done => exact stored
  | next oldest _ ih =>
      have after := (resolveBufferedJobLogs_oldest localeCompare runs plain oldest).2
      exact ih after
        ((resolveBufferedJobLogs_logs localeCompare runs fun row hrow => plain row (oldest.1.mem hrow)).1 l stored)

/-- A row whose run is known stays in the buffer until its line is in
    `job_logs`. -/
theorem ResolverPasses.moved (h : ResolverPasses localeCompare runs batchSize k t t')
    (plain : ∀ row ∈ t.2.rows, PlainQueue row.event) {row : JobLogBufferRow} (member : row ∈ t.2.rows)
    (known : hasRun runs row) : row ∈ t'.2.rows ∨ (atRest runs t').InLogs row.identity := by
  induction h with
  | done => exact .inl member
  | @next _ t bufferedRows _ oldest rest ih =>
      obtain ⟨after, plainAfter⟩ := resolveBufferedJobLogs_oldest localeCompare runs plain oldest
      cases Decidable.em (row ∈ bufferedRows) with
      | inl here =>
          have moved := resolveBufferedJobLogs_logs (t := t) localeCompare runs fun row hrow =>
            plain row (oldest.1.mem hrow)
          exact .inr (rest.inLogs plainAfter (moved.2 row here known))
      | inr out =>
          refine ih plainAfter ?_
          rw [after]
          exact List.mem_filter.mpr ⟨member, by simp [out]⟩

end

/-- The buffer as the query may return it when it serves orphans first. -/
def orphansFirst (runs : JobRunsTable J) (buffer : JobLogBufferTable) : List JobLogBufferRow :=
  OldestFirst.worstOrder (·.createdAt) (hasRun runs) buffer.rows

/-- How many of these rows `k` passes get to see: each reads a batch less the
    orphans before it. -/
def seen (runs : JobRunsTable J) (batchSize : Nat) (buffer : JobLogBufferTable) (k : Nat) : Nat :=
  Redelivery.reach (fun row => !hasRun runs row) batchSize (orphansFirst runs buffer) k

/-- As many passes as the buffer has batches move every row whose run is known,
    whichever of equally old rows they read, exactly when no such row stands
    behind the rows that they see. -/
theorem buffered_logs_resolved_iff (localeCompare : String → String → Ordering) (runs : JobRunsTable J)
    (batchSize : Nat) (t : JobLogsTable × JobLogBufferTable) (plain : ∀ row ∈ t.2.rows, PlainQueue row.event) :
    (∀ t', ResolverPasses localeCompare runs batchSize ((t.2.rows.length + (batchSize - 1)) / batchSize) t t' →
      ∀ row ∈ t.2.rows, hasRun runs row → row ∉ t'.2.rows ∧ (atRest runs t').InLogs row.identity) ↔
    ∀ row ∈ (orphansFirst runs t.2).drop
      (seen runs batchSize t.2 ((t.2.rows.length + (batchSize - 1)) / batchSize)), hasRun runs row = false := by
  rw [orphansFirst, seen, orphansFirst, ← OldestFirst.passes_iff_reach (List.Nodup.of_map _ t.2.ids)]
  constructor
  · intro all rows' passes row hrow
    obtain ⟨t', resolver, rfl⟩ := exists_resolverPasses  passes rfl plain
    cases known : hasRun runs row with
    | false => rfl
    | true => exact absurd hrow (all t' resolver row (passes.mem hrow) known).1
  · intro unlogged t' resolver row member known
    have gone : row ∉ t'.2.rows := by
      intro hrow
      simp [unlogged _ (resolver.passes plain) row hrow] at known
    exact ⟨gone, (resolver.moved plain member known).resolve_left gone⟩

def lineOf (jobId : String) : LogEventForPersistence :=
  { id := none, jobId, jobTimestamp := 1000, level := .info, logSeq := 0, logTimestamp := 1500, message := "hello",
    queue := "mail" }

/-- A line of a missing run, and a younger one of job 1. -/
def orphanAhead : JobLogsTable × JobLogBufferTable :=
  (.empty, (JobLogBufferTable.empty.insert 0 [lineOf "0"]).insert 1 [lineOf "1"])

set_option maxRecDepth 10000 in
theorem buffered_logs_resolved_batch_of_two :
    ∃ t', ResolverPasses compare mailTable 2 ((orphanAhead.2.rows.length + (2 - 1)) / 2) orphanAhead t' ∧
      ∀ row ∈ orphanAhead.2.rows, hasRun mailTable row →
        row ∉ t'.2.rows ∧ (atRest mailTable t').InLogs row.identity := by
  have oldest : Limit.ReturnsOldest (·.createdAt) 2 orphanAhead.2.rows orphanAhead.2.rows := ⟨by decide, by decide⟩
  have passes : ResolverPasses compare mailTable 2 1 orphanAhead _ := .next oldest (.done _)
  exact ⟨_, passes, (buffered_logs_resolved_iff compare mailTable 2 orphanAhead (by decide)).mpr (by decide) _ passes⟩

set_option maxRecDepth 10000 in
/-- A batch of one reads the orphan in every pass. -/
theorem orphan_blocks_buffer :
    ¬ ∀ (localeCompare : String → String → Ordering) (runs : JobRunsTable Unit) (batchSize : Nat)
        (t : JobLogsTable × JobLogBufferTable), 0 < batchSize → (∀ row ∈ t.2.rows, PlainQueue row.event) →
        ∀ t', ResolverPasses localeCompare runs batchSize ((t.2.rows.length + (batchSize - 1)) / batchSize) t t' →
          ∀ row ∈ t.2.rows, hasRun runs row → row ∉ t'.2.rows ∧ (atRest runs t').InLogs row.identity := by
  intro all
  have orphan : ∀ t : JobLogsTable × JobLogBufferTable, t.2.rows = orphanAhead.2.rows →
      Limit.ReturnsOldest (·.createdAt) 1 t.2.rows (orphanAhead.2.rows.take 1) := by
    intro t same
    rw [same]
    exact ⟨by decide, by decide⟩
  have passes : ResolverPasses compare mailTable 1 2 orphanAhead _ :=
    .next (orphan _ rfl) (.next (orphan _ (by decide)) (.done _))
  have moved := all compare mailTable 1 orphanAhead Nat.one_pos (by decide) _ passes
    ⟨1, "mail", "1", 1000, 1500, 0, .info, "hello", 1⟩ (by decide) (by decide)
  exact moved.1 (by decide)

end BetterBullBoard
