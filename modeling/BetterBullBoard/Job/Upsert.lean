import Mathlib.Data.List.Sort
import BetterBullBoard.Lib.JsMap
import BetterBullBoard.Job.Format

/-! # `upsertJobRuns`

One call filters by retention, deduplicates in a `Map` (the last run of a key
wins), sorts, and sends one `INSERT .. ON CONFLICT DO UPDATE`. The statement is
atomic; its rows are merged one after another, each against the row stored under
the same queue, job id and enqueue time.
-/

namespace BetterBullBoard

variable {J : Type}

/-- What a call reads besides its argument and the table. -/
structure UpsertContext where
  autoDeletePostgresData : Option Int := none
  dateNow : Int := 0
  currentTimestamp : Int := 0
  localeCompare : String → String → Ordering := compare

def getRetentionCutoff (ctx : UpsertContext) : Option Int :=
  (truthyNumber ctx.autoDeletePostgresData).map (ctx.dateNow - ·)

def getRunTimestamp (run : JobRunInsert J) : Option Int :=
  run.createdAt.or run.enqueuedAt.toOption

def isWithinRetention (run : JobRunInsert J) (cutoff : Option Int) : Bool :=
  match truthyNumber cutoff with
  | none => true
  | some cutoff => (getRunTimestamp run).all (cutoff ≤ ·)

/-- `run.enqueuedAt?.getTime?.() ?? run.enqueuedAt` inside a template string. -/
def enqueuedAtText : Nullish Int → String
  | .undefined => "undefined"
  | .null => "null"
  | .value moment => toString moment

def dedupeKey (run : JobRunInsert J) : String :=
  run.queue ++ "-" ++ run.jobId ++ "-" ++ enqueuedAtText run.enqueuedAt

/-- The runs in retention, the last one of each key. -/
def dedupe (cutoff : Option Int) (runs : List (JobRunInsert J)) : List (JobRunInsert J) :=
  (JsMap.ofEntries ((runs.filter (isWithinRetention · cutoff)).map fun run => (dedupeKey run, run))).map
    Prod.snd

def compareRuns (localeCompare : String → String → Ordering) (a b : JobRunInsert J) : Ordering :=
  (localeCompare a.queue b.queue).then <| (localeCompare a.jobId b.jobId).then <|
    compare (a.enqueuedAt.toOption.getD 0) (b.enqueuedAt.toOption.getD 0)

/-- The rows handed to the statement, in its order; the sort is stable. -/
def insertValues (ctx : UpsertContext) (runs : List (JobRunInsert J)) : List (JobRunInsert J) :=
  (dedupe (getRetentionCutoff ctx) runs).insertionSort
    fun a b => compareRuns ctx.localeCompare a b ≠ .gt

theorem mem_dedupe {cutoff : Option Int} {runs : List (JobRunInsert J)} {run : JobRunInsert J}
    (h : run ∈ dedupe cutoff runs) : run ∈ runs ∧ isWithinRetention run cutoff := by
  obtain ⟨e, he, rfl⟩ := List.mem_map.mp h
  have := JsMap.mem_of_get ((JsMap.mem_iff_get (JsMap.nodup_ofEntries _) e.1 e.2).mp he)
  obtain ⟨run, hr, same⟩ := List.mem_map.mp this
  obtain ⟨-, rfl⟩ := Prod.mk.inj same
  simpa using List.mem_filter.mp hr

theorem mem_insertValues {ctx : UpsertContext} {runs : List (JobRunInsert J)} {run : JobRunInsert J}
    (h : run ∈ insertValues ctx runs) : run ∈ runs ∧ isWithinRetention run (getRetentionCutoff ctx) :=
  mem_dedupe ((List.mem_insertionSort _).mp h)

/-- The row proposed for insertion, with the column defaults filled in. -/
def excluded (ctx : UpsertContext) (id : Nat) (run : JobRunInsert J) : JobRun J where
  id
  jobId := run.jobId
  queue := run.queue
  name := run.name
  status := run.status
  attempt := run.attempt.getD 0
  maxAttempts := run.maxAttempts.getD 1
  priority := run.priority
  delayMs := run.delayMs.getD 0
  backoff := run.backoff
  repeatJobKey := run.repeatJobKey
  parentJobId := run.parentJobId
  workerId := run.workerId
  tags := match run.tags with
    | .undefined => some []
    | .null => none
    | .value tags => some tags
  data := run.data
  result := run.result
  errorMessage := run.errorMessage
  errorStack := run.errorStack
  createdAt := run.createdAt.getD ctx.currentTimestamp
  enqueuedAt := run.enqueuedAt.toOption
  startedAt := run.startedAt
  finishedAt := run.finishedAt

def statusUpdate (stored ex : JobRun J) : JobStatus :=
  if isTerminalStatus stored.status ∧ ¬ isTerminalStatus ex.status then stored.status else ex.status

def tagsUpdate (stored ex : JobRun J) : Option (List String) :=
  if 0 < (ex.tags.map List.length).getD 0 then ex.tags else stored.tags

/-- The columns assigned from `excluded` as they are. -/
def conflictUpdateSet (stored ex : JobRun J) : JobRun J :=
  { stored with
    attempt := ex.attempt
    startedAt := ex.startedAt
    finishedAt := ex.finishedAt
    errorMessage := ex.errorMessage
    errorStack := ex.errorStack
    result := ex.result
    backoff := ex.backoff
    createdAt := ex.createdAt
    data := ex.data
    priority := ex.priority
    delayMs := ex.delayMs
    repeatJobKey := ex.repeatJobKey
    parentJobId := ex.parentJobId
    workerId := ex.workerId
    enqueuedAt := ex.enqueuedAt
    jobId := ex.jobId
    maxAttempts := ex.maxAttempts
    queue := ex.queue
    name := ex.name }

/-- The `SET` clause. -/
def conflictSet (stored ex : JobRun J) : JobRun J :=
  { conflictUpdateSet stored ex with
    tags := tagsUpdate stored ex
    status := statusUpdate stored ex }

@[simp] theorem excluded_id (ctx : UpsertContext) (id : Nat) (run : JobRunInsert J) :
    (excluded ctx id run).id = id := rfl

variable [DecidableEq J]

/-- The `WHERE` of the conflict clause: some column would change. -/
def setWhere (stored ex : JobRun J) : Bool :=
  stored.attempt ≠ ex.attempt || stored.startedAt ≠ ex.startedAt || stored.finishedAt ≠ ex.finishedAt ||
    stored.errorMessage ≠ ex.errorMessage || stored.errorStack ≠ ex.errorStack || stored.result ≠ ex.result ||
    stored.backoff ≠ ex.backoff || stored.createdAt ≠ ex.createdAt || stored.data ≠ ex.data ||
    stored.priority ≠ ex.priority || stored.delayMs ≠ ex.delayMs || stored.repeatJobKey ≠ ex.repeatJobKey ||
    stored.parentJobId ≠ ex.parentJobId || stored.workerId ≠ ex.workerId ||
    stored.enqueuedAt ≠ ex.enqueuedAt || stored.jobId ≠ ex.jobId || stored.maxAttempts ≠ ex.maxAttempts ||
    stored.queue ≠ ex.queue || stored.name ≠ ex.name || stored.tags ≠ tagsUpdate stored ex ||
    stored.status ≠ statusUpdate stored ex

def onConflict (stored ex : JobRun J) : JobRun J :=
  if setWhere stored ex then conflictSet stored ex else stored

/-- Skipping an update that changes nothing is not observable. -/
theorem onConflict_eq (stored ex : JobRun J) : onConflict stored ex = conflictSet stored ex := by
  unfold onConflict
  split
  · rfl
  · rename_i unchanged
    simp only [setWhere, ne_eq, Bool.or_eq_true, decide_eq_true_eq, not_or, not_not] at unchanged
    cases stored
    simp only [conflictSet, conflictUpdateSet, JobRun.mk.injEq, true_and]
    grind

@[simp] theorem onConflict_id (stored ex : JobRun J) : (onConflict stored ex).id = stored.id := by
  simp [onConflict_eq, conflictSet, conflictUpdateSet]

@[simp] theorem onConflict_target (stored ex : JobRun J) : (onConflict stored ex).target = ex.target := by
  simp [onConflict_eq, conflictSet, conflictUpdateSet, JobRun.target]

/-- A terminal status meets only terminal statuses. -/
theorem onConflict_terminal (stored ex : JobRun J) (h : isTerminalStatus stored.status) :
    isTerminalStatus (onConflict stored ex).status := by
  simp only [onConflict_eq, conflictSet, statusUpdate]
  split
  · exact h
  · rename_i unended
    simpa [h] using unended

/-- A terminal snapshot makes its row terminal. -/
theorem onConflict_of_terminal (stored ex : JobRun J) (h : isTerminalStatus ex.status) :
    isTerminalStatus (onConflict stored ex).status := by
  simp only [onConflict_eq, conflictSet, statusUpdate]
  split
  · rename_i kept
    exact kept.1
  · exact h

namespace JobRunsTable

/-- Merge one proposed row into the table. -/
def upsertRow (ctx : UpsertContext) (t : JobRunsTable J) (run : JobRunInsert J) : JobRunsTable J where
  rows := UniqueIndex.doUpdate JobRun.target onConflict (excluded ctx t.nextId run) t.rows
  nextId := t.nextId + 1
  unique := t.unique.doUpdate fun old clash => by rw [onConflict_target, clash.2]
  ids := UniqueIndex.nodup_doUpdate t.unique (fun old => onConflict_id old _) t.ids fun r hr =>
    Nat.ne_of_lt (t.fresh r hr)
  fresh := by
    intro r hr
    rcases (UniqueIndex.mem_doUpdate t.unique).mp hr with ⟨h, -⟩ | ⟨old, h, -, rfl⟩ | ⟨rfl, -⟩
    · exact Nat.lt_succ_of_lt (t.fresh r h)
    · simpa using Nat.lt_succ_of_lt (t.fresh old h)
    · simp

/-- The row an upsert reports: the inserted one, or the updated one when some
    column changed. -/
def returning (ctx : UpsertContext) (t : JobRunsTable J) (run : JobRunInsert J) :
    Option (Nat × JobStatus) :=
  let ex := excluded ctx t.nextId run
  match t.rows.find? fun stored => UniqueIndex.Clash JobRun.target stored ex with
  | none => some (ex.id, ex.status)
  | some stored => if setWhere stored ex then some (stored.id, statusUpdate stored ex) else none

/-- The statement, with the rows it returns. -/
def insertOnConflict (ctx : UpsertContext) :
    List (JobRunInsert J) → JobRunsTable J → JobRunsTable J × List (Nat × JobStatus)
  | [], t => (t, [])
  | run :: runs, t =>
      let rest := insertOnConflict ctx runs (t.upsertRow ctx run)
      (rest.1, (t.returning ctx run).toList ++ rest.2)

theorem insertOnConflict_table (ctx : UpsertContext) (runs : List (JobRunInsert J)) (t : JobRunsTable J) :
    (insertOnConflict ctx runs t).1 = runs.foldl (·.upsertRow ctx ·) t := by
  induction runs generalizing t with
  | nil => rfl
  | cons run runs ih => exact ih _

end JobRunsTable

open JobRunsTable

/-- The table after the call and the rows it returns. -/
def upsertJobRuns (ctx : UpsertContext) (runs : List (JobRunInsert J)) (t : JobRunsTable J) :
    JobRunsTable J × List (Nat × JobStatus) :=
  if runs = [] then (t, [])
  else
    let values := insertValues ctx runs
    if values = [] then (t, []) else insertOnConflict ctx values t

/-- Without its early returns, the call is its statement. -/
theorem upsertJobRuns_eq (ctx : UpsertContext) (runs : List (JobRunInsert J)) (t : JobRunsTable J) :
    upsertJobRuns ctx runs t = insertOnConflict ctx (insertValues ctx runs) t := by
  unfold upsertJobRuns
  split
  · rename_i h
    subst h
    simp [insertValues, dedupe, JsMap.ofEntries, insertOnConflict]
  · dsimp only
    split
    · rename_i h
      rw [h]
      rfl
    · rfl

/-- And that is a fold of single-row merges. -/
theorem upsertJobRuns_table (ctx : UpsertContext) (runs : List (JobRunInsert J)) (t : JobRunsTable J) :
    (upsertJobRuns ctx runs t).1 = (insertValues ctx runs).foldl (·.upsertRow ctx ·) t := by
  rw [upsertJobRuns_eq, insertOnConflict_table]

namespace JobRunsTable

/-- One merge keeps every row, up to any relation that merging respects. -/
theorem upsertRow_survives {R : JobRun J → JobRun J → Prop} (reflR : ∀ r, R r r)
    (ctx : UpsertContext) (t : JobRunsTable J) (run : JobRunInsert J)
    (merged : ∀ old ∈ t.rows, old.target = (excluded ctx t.nextId run).target → old.target.isSome →
      R old (onConflict old (excluded ctx t.nextId run))) :
    Survives R t (t.upsertRow ctx run) := by
  intro r hr
  by_cases clash : UniqueIndex.Clash JobRun.target r (excluded ctx t.nextId run)
  · exact ⟨_, (UniqueIndex.mem_doUpdate t.unique).mpr (.inr (.inl ⟨r, hr, clash, rfl⟩)),
      merged r hr clash.2 clash.1⟩
  · exact ⟨r, (UniqueIndex.mem_doUpdate t.unique).mpr (.inl ⟨hr, clash⟩), reflR r⟩

/-- The same for a whole call. -/
theorem upsert_survives {R : JobRun J → JobRun J → Prop} (reflR : ∀ r, R r r)
    (transR : ∀ a b c, R a b → R b c → R a c) (ctx : UpsertContext) (runs : List (JobRunInsert J))
    (merged : ∀ old id, ∀ run ∈ runs, old.target = (excluded ctx id run).target → old.target.isSome →
      R old (onConflict old (excluded ctx id run)))
    (t : JobRunsTable J) : Survives R t (upsertJobRuns ctx runs t).1 := by
  rw [upsertJobRuns_table]
  have inputs : ∀ run ∈ insertValues ctx runs, run ∈ runs := fun run h => (mem_insertValues h).1
  generalize insertValues ctx runs = values at inputs
  induction values generalizing t with
  | nil => exact Survives.refl reflR t
  | cons run values ih =>
      have member : run ∈ runs := inputs run List.mem_cons_self
      have first := upsertRow_survives reflR ctx t run fun old _ => merged old _ run member
      exact first.trans transR (ih _ fun r hr => inputs r (List.mem_cons_of_mem _ hr))

end JobRunsTable

/-- Job 1 of queue `mail` is active. -/
def mailTable : JobRunsTable Unit := (upsertJobRuns {} [mailRun .active none] .empty).1

end BetterBullBoard
