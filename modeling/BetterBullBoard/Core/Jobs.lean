import BetterBullBoard.Core.Schemas
import BetterBullBoard.Dashboard.Rollups
import BetterBullBoard.Job.Upsert

/-! # Listing jobs

`listJobs` of the core package over a static `job_runs` table. The concurrency
limit around the query is left out.
-/

namespace BetterBullBoard

inductive JobSortBy where
  | createdAt
  | durationMs
  deriving DecidableEq

structure JobCursor where
  createdAt : Int
  jobId : String
  id : Nat
  durationMs : Option Int
  deriving DecidableEq

/-- `jobTableColumns` -/
structure ListedJob where
  id : Nat
  jobId : String
  queue : String
  name : Option String
  status : JobStatus
  attempt : Int
  maxAttempts : Int
  createdAt : Int
  enqueuedAt : Option Int
  startedAt : Option Int
  finishedAt : Option Int
  durationMs : Option Int
  errorMessage : Option String
  tags : Option (List String)
  deriving DecidableEq

/-- The dates are the boundaries `parseCreatedBoundary` makes of the input. -/
structure ListJobsInput where
  cursor : Option JobCursor := none
  cursorDirection : Option Keyset.Direction := none
  search : Option String := none
  status : Option String := none
  queue : Option String := none
  tags : Option (List String) := none
  createdFrom : Option Int := none
  createdTo : Option Int := none
  sortBy : Option JobSortBy := none
  sortDirection : Option SortDirection := none
  limit : Option Int := none
  deriving DecidableEq

def JobStatus.ofText : String → Option JobStatus
  | "active" => some .active
  | "completed" => some .completed
  | "failed" => some .failed
  | "waiting" => some .waiting
  | "delayed" => some .delayed
  | "prioritized" => some .prioritized
  | "waiting-children" => some .waitingChildren
  | "unknown" => some .unknown
  | _ => none

variable {J κ : Type}

def JobRun.listed (r : JobRun J) : ListedJob where
  id := r.id
  jobId := r.jobId
  queue := r.queue
  name := r.name
  status := r.status
  attempt := r.attempt
  maxAttempts := r.maxAttempts
  createdAt := r.createdAt
  enqueuedAt := r.enqueuedAt
  startedAt := r.startedAt
  finishedAt := r.finishedAt
  durationMs := r.durationMs
  errorMessage := r.errorMessage
  tags := r.tags

def toCursor (job : ListedJob) : JobCursor where
  createdAt := job.createdAt
  jobId := job.jobId
  id := job.id
  durationMs := job.durationMs

/-- `COALESCE(duration_ms, 0)` -/
def durationSortExpression (r : JobRun J) : Int := r.durationMs.getD 0

/-! ## Order and cursor -/

variable [LinearOrder κ] (db : Database κ)

def getSortOrder (cursorDirection : Keyset.Direction) (sortBy : JobSortBy) (sortDirection : SortDirection) :
    List (JobRun J → JobRun J → Ordering) :=
  match sortBy, getOrderDirection cursorDirection sortDirection with
  | .durationMs, .desc => [Keyset.desc durationSortExpression, Keyset.desc (·.createdAt),
      Keyset.desc (db.collate ·.jobId), Keyset.desc (·.id)]
  | .durationMs, .asc => [Keyset.asc durationSortExpression, Keyset.asc (·.createdAt),
      Keyset.asc (db.collate ·.jobId), Keyset.asc (·.id)]
  | .createdAt, .desc => [Keyset.desc (·.createdAt), Keyset.desc (db.collate ·.jobId), Keyset.desc (·.id)]
  | .createdAt, .asc => [Keyset.asc (·.createdAt), Keyset.asc (db.collate ·.jobId), Keyset.asc (·.id)]

def getCreatedAtCursorComparison (cursor : JobCursor) (useLessThan : Bool) (r : JobRun J) : Bool :=
  if useLessThan then
    r.createdAt < cursor.createdAt ||
      (r.createdAt = cursor.createdAt && db.collate r.jobId < db.collate cursor.jobId) ||
      (r.createdAt = cursor.createdAt && r.jobId = cursor.jobId && r.id < cursor.id)
  else
    cursor.createdAt < r.createdAt ||
      (r.createdAt = cursor.createdAt && db.collate cursor.jobId < db.collate r.jobId) ||
      (r.createdAt = cursor.createdAt && r.jobId = cursor.jobId && cursor.id < r.id)

def getCursorComparison (cursorDirection : Keyset.Direction) (sortBy : JobSortBy) (sortDirection : SortDirection)
    (cursor : JobCursor) (r : JobRun J) : Bool :=
  let useLessThan := match cursorDirection with
    | .next => sortDirection = .desc
    | .prev => sortDirection = .asc
  let createdAtComparison := getCreatedAtCursorComparison db cursor useLessThan r
  match sortBy with
  | .createdAt => createdAtComparison
  | .durationMs =>
      let durationMs := cursor.durationMs.getD 0
      (if useLessThan then durationSortExpression r < durationMs else durationMs < durationSortExpression r) ||
        (durationSortExpression r = durationMs && createdAtComparison)

/-! ## The listing -/

/-- The conditions apart from the cursor's. A comparison with NULL is not true. -/
def ListJobsInput.matches (input : ListJobsInput) (r : JobRun J) : Bool :=
  (match input.search.filter (· != "") with
    | none => true
    | some search =>
        let pattern := "%" ++ search ++ "%"
        r.name.any (db.ilike · pattern) || db.ilike r.queue pattern || db.ilike r.jobId pattern ||
          r.errorMessage.any (db.ilike · pattern) || (db.parseUuid search).any (r.id = ·)) &&
  (match input.queue.filter (· != "") with
    | none => true
    | some queue => queue = "all" || r.queue = queue) &&
  (match input.status.filter (· != "") with
    | none => true
    | some status => status = "all" || (JobStatus.ofText status).all (r.status = ·)) &&
  (match input.tags with
    | none | some [] => true
    | some tags => r.tags.any fun own => own.any tags.contains) &&
  input.createdFrom.all (· ≤ r.createdAt) && input.createdTo.all (r.createdAt ≤ ·)

/-- What `listJobsInputSchema` refuses. -/
def ListJobsInput.issues (input : ListJobsInput) : List ZodIssue := limitIssues input.limit

def listJobs (runs : JobRunsTable J) (input : ListJobsInput) :
    Except CoreError (Keyset.Page ListedJob JobCursor) := do
  let parsed ← parse ListJobsInput.issues input
  let cursorDirection := parsed.cursorDirection.getD .next
  let limit := (parsed.limit.getD 20).toNat
  let sortBy := parsed.sortBy.getD .createdAt
  let sortDirection := parsed.sortDirection.getD .desc
  let conditions := fun r : JobRun J => parsed.matches db r &&
    parsed.cursor.all fun cursor => getCursorComparison db cursorDirection sortBy sortDirection cursor r
  let rows := (((runs.rows.filter conditions).insertionSort fun a b =>
    Keyset.orderBy (getSortOrder db cursorDirection sortBy sortDirection) a b = true).take (limit + 1)).map
      JobRun.listed
  let hasExtra : Bool := limit < rows.length
  let rows := if hasExtra then rows.dropLast else rows
  let jobs := if cursorDirection = .prev then rows.reverse else rows
  let firstJob := jobs.head?
  let lastJob := jobs.getLast?
  let hasNewerPage := if cursorDirection = .next then parsed.cursor.isSome else hasExtra
  let hasOlderPage := if cursorDirection = .prev then parsed.cursor.isSome else hasExtra
  return {
    items := jobs
    nextCursor := if hasOlderPage then lastJob.map toCursor else none
    prevCursor := if hasNewerPage then firstJob.map toCursor else none }

/-! ## The key of the listing -/

/-- The columns the listing sorts by, the most significant first. -/
def sortKey (sortBy : JobSortBy) (r : JobRun J) : Int ×ₗ Int ×ₗ κ ×ₗ Nat :=
  toLex (if sortBy = .durationMs then durationSortExpression r else 0,
    toLex (r.createdAt, toLex (db.collate r.jobId, r.id)))

omit [LinearOrder κ] in
theorem sortKey_id {sortBy : JobSortBy} {a b : JobRun J} (same : sortKey db sortBy a = sortKey db sortBy b) :
    a.id = b.id := congrArg (fun k => (ofLex (ofLex (ofLex k).2).2).2) same

theorem orderBy_createdAt (a b : JobRun J) :
    Keyset.orderBy (getSortOrder db .next .createdAt .asc) a b = true ↔
      toLex (a.createdAt, toLex (db.collate a.jobId, a.id)) ≤ toLex (b.createdAt, toLex (db.collate b.jobId, b.id)) :=
  Keyset.orderBy_cons (Keyset.orderBy_cons (Keyset.orderBy_one JobRun.id) fun r => db.collate r.jobId)
    JobRun.createdAt a b

theorem orderBy_asc (sortBy : JobSortBy) (a b : JobRun J) :
    Keyset.orderBy (getSortOrder db .next sortBy .asc) a b = true ↔ sortKey db sortBy a ≤ sortKey db sortBy b := by
  cases sortBy with
  | createdAt =>
      rw [orderBy_createdAt]
      apply Iff.symm
      exact Prod.Lex.toLex_le_toLex.trans (by simp)
  | durationMs => exact Keyset.orderBy_cons (orderBy_createdAt db) durationSortExpression a b

/-- The other direction sorts by the same columns the other way round. -/
theorem orderBy_flip (sortBy : JobSortBy) (a b : JobRun J) :
    Keyset.orderBy (getSortOrder db .prev sortBy .asc) a b =
      Keyset.orderBy (getSortOrder db .next sortBy .asc) b a := by
  cases sortBy <;> rfl

/-- Descending is ascending in the other direction. -/
theorem getSortOrder_flip (cursorDirection : Keyset.Direction) (sortBy : JobSortBy) :
    getSortOrder (J := J) db cursorDirection.flip sortBy .asc = getSortOrder db cursorDirection sortBy .desc := by
  cases cursorDirection <;> rfl

theorem getCursorComparison_flip (cursorDirection : Keyset.Direction) (sortBy : JobSortBy) :
    getCursorComparison (J := J) db cursorDirection.flip sortBy .asc =
      getCursorComparison db cursorDirection sortBy .desc := by
  cases cursorDirection <;> rfl

/-- The first three columns compared with a cursor. -/
theorem createdAtComparison_asc (c : JobCursor) (r : JobRun J) :
    getCreatedAtCursorComparison db c false r = true ↔
      toLex (c.createdAt, toLex (db.collate c.jobId, c.id)) <
        toLex (r.createdAt, toLex (db.collate r.jobId, r.id)) := by
  simp only [Prod.Lex.toLex_lt_toLex, EmbeddingLike.apply_eq_iff_eq]
  simp [getCreatedAtCursorComparison, @eq_comm _ r.createdAt, @eq_comm _ r.jobId, and_or_left, or_assoc, and_assoc]

theorem createdAtComparison_desc (c : JobCursor) (r : JobRun J) :
    getCreatedAtCursorComparison db c true r = true ↔
      toLex (r.createdAt, toLex (db.collate r.jobId, r.id)) <
        toLex (c.createdAt, toLex (db.collate c.jobId, c.id)) := by
  simp only [Prod.Lex.toLex_lt_toLex, EmbeddingLike.apply_eq_iff_eq]
  simp [getCreatedAtCursorComparison, and_or_left, or_assoc, and_assoc]

/-- The cursor of a row compares another row by their keys. -/
theorem comparison_asc (sortBy : JobSortBy) (c r : JobRun J) :
    getCursorComparison db .next sortBy .asc (toCursor c.listed) r = true ↔
      sortKey db sortBy c < sortKey db sortBy r := by
  have compared := createdAtComparison_asc db (toCursor c.listed) r
  apply Iff.trans _ Prod.Lex.toLex_lt_toLex.symm
  cases sortBy with
  | createdAt =>
      simp only [getCursorComparison, reduceCtorEq, decide_false, compared, if_false, lt_self_iff_false, true_and,
        false_or]
      rfl
  | durationMs =>
      simp only [getCursorComparison, reduceCtorEq, decide_false, Bool.or_eq_true, Bool.and_eq_true, compared]
      simp [@eq_comm _ (durationSortExpression r)]
      rfl

theorem comparison_desc (sortBy : JobSortBy) (c r : JobRun J) :
    getCursorComparison db .next sortBy .desc (toCursor c.listed) r = true ↔
      sortKey db sortBy r < sortKey db sortBy c := by
  have compared := createdAtComparison_desc db (toCursor c.listed) r
  apply Iff.trans _ Prod.Lex.toLex_lt_toLex.symm
  cases sortBy with
  | createdAt =>
      simp only [getCursorComparison, decide_true, compared, reduceCtorEq, if_false, lt_self_iff_false, true_and,
        false_or]
      rfl
  | durationMs =>
      simp only [getCursorComparison, decide_true, Bool.or_eq_true, Bool.and_eq_true, compared]
      simp
      rfl

/-! ## Every page -/

/-- The jobs in ascending order. -/
def jobsListing (sortBy : JobSortBy) : Keyset.Listing (JobRun J) JobCursor (Int ×ₗ Int ×ₗ κ ×ₗ Nat) where
  key := sortKey db sortBy
  toCursor r := toCursor r.listed
  order direction := Keyset.orderBy (getSortOrder db direction sortBy .asc)
  comparison direction := getCursorComparison db direction sortBy .asc
  order_next := orderBy_asc db sortBy
  order_prev a b := by rw [orderBy_flip, orderBy_asc]
  after := comparison_asc db sortBy
  before := comparison_desc db sortBy

/-- The strict order of the listing. -/
def JobBefore (sortBy : JobSortBy) (sortDirection : SortDirection) (a b : JobRun J) : Prop :=
  match sortDirection with
  | .asc => sortKey db sortBy a < sortKey db sortBy b
  | .desc => sortKey db sortBy b < sortKey db sortBy a

variable (runs : JobRunsTable J) (input : ListJobsInput)

/-- One call for the page at a cursor. -/
def listJobsAt (cursorDirection : Keyset.Direction) (cursor : Option JobCursor) :
    Option (Keyset.Page ListedJob JobCursor) :=
  (listJobs db runs { input with cursor, cursorDirection := some cursorDirection }).toOption

variable {input}

/-- `listJobs` pages any listing with its order, comparison and cursor. -/
theorem listJobs_page {κ' : Type} [LinearOrder κ'] (L : Keyset.Listing (JobRun J) JobCursor κ')
    (order : ∀ d, L.order d =
      Keyset.orderBy (getSortOrder db d (input.sortBy.getD .createdAt) (input.sortDirection.getD .desc)))
    (comparison : ∀ d, L.comparison d =
      getCursorComparison db d (input.sortBy.getD .createdAt) (input.sortDirection.getD .desc))
    (cursors : ∀ r, toCursor r.listed = L.toCursor r) (accepted : input.issues = []) :
    listJobsAt db runs input = fun cursorDirection cursor =>
      (some (L.page (runs.rows.filter (input.matches db)) (input.limit.getD 20).toNat cursorDirection cursor)).map
        (Keyset.Page.map JobRun.listed) := by
  funext cursorDirection cursor
  have parsed : parse ListJobsInput.issues { input with cursor, cursorDirection := some cursorDirection } = .ok _ :=
    parse_ok accepted
  rw [Option.map_some, Keyset.Listing.page, ← Keyset.pageOf_map cursors, Keyset.Listing.query, List.filter_filter,
    order, comparison, listJobsAt, listJobs, parsed]
  refine congrArg some ?_
  simp only [Option.getD_some, Bool.and_comm]
  cases cursorDirection <;> simp [Keyset.pageOf, ListJobsInput.matches]

omit [LinearOrder κ] in
theorem sortKey_nodup (sortBy : JobSortBy) (shown : JobRun J → Bool) :
    ((runs.rows.filter shown).map (sortKey db sortBy)).Nodup := by
  have ids : ((runs.rows.filter shown).map (·.id)).Nodup := runs.ids.sublist (List.filter_sublist.map _)
  exact List.pairwise_map.mpr ((List.pairwise_map.mp ids).imp fun apart same => apart (sortKey_id db same))

/-- Every matching job is listed once, in the order asked for, and each later page's
    `prevCursor` leads back to the page before it. -/
def JobsComplete (input : ListJobsInput) : Prop :=
  ∃ rows : List (JobRun J), rows.Perm (runs.rows.filter (input.matches db)) ∧
    rows.Pairwise (JobBefore db (input.sortBy.getD .createdAt) (input.sortDirection.getD .desc)) ∧
    Keyset.Enumerates (listJobsAt db runs input) (rows.map JobRun.listed)

/-- `listJobs` is one listing, whichever way it sorts. -/
theorem exists_listing (accepted : input.issues = []) :
    ∃ (κ' : Type) (_ : LinearOrder κ') (L : Keyset.Listing (JobRun J) JobCursor κ'),
      (listJobsAt db runs input = fun cursorDirection cursor =>
        (some (L.page (runs.rows.filter (input.matches db)) (input.limit.getD 20).toNat cursorDirection cursor)).map
          (Keyset.Page.map JobRun.listed)) ∧
      (∀ r, L.toCursor r = toCursor r.listed) ∧ ((runs.rows.filter (input.matches db)).map L.key).Nodup ∧
      ∀ a b, L.key a < L.key b ↔
        JobBefore db (input.sortBy.getD .createdAt) (input.sortDirection.getD .desc) a b := by
  have distinct := sortKey_nodup db runs (input.sortBy.getD .createdAt) (input.matches db)
  cases direction : input.sortDirection.getD .desc with
  | asc =>
      let L := jobsListing (J := J) db (input.sortBy.getD .createdAt)
      refine ⟨_, _, L, ?_, fun _ => rfl, distinct, fun _ _ => Iff.rfl⟩
      exact listJobs_page db runs L (fun _ => by rw [direction]; rfl) (fun _ => by rw [direction]; rfl) (fun _ => rfl)
        accepted
  | desc =>
      let L := (jobsListing (J := J) db (input.sortBy.getD .createdAt)).reverse
      have order : ∀ d, L.order d = Keyset.orderBy
          (getSortOrder db d (input.sortBy.getD .createdAt) (input.sortDirection.getD .desc)) := by
        intro d
        rw [direction, ← getSortOrder_flip]
        rfl
      have comparison : ∀ d, L.comparison d =
          getCursorComparison db d (input.sortBy.getD .createdAt) (input.sortDirection.getD .desc) := by
        intro d
        rw [direction, ← getCursorComparison_flip]
        rfl
      refine ⟨_, _, L, ?_, fun _ => rfl, distinct, fun _ _ => Iff.rfl⟩
      exact listJobs_page db runs L order comparison (fun _ => rfl) accepted

theorem listJobs_complete (atLeast : ∀ n ∈ input.limit, 1 ≤ n) (atMost : ∀ n ∈ input.limit, n ≤ 100) :
    JobsComplete db runs input := by
  have accepted : input.issues = [] := limitIssues_eq_nil.mpr fun n hn => ⟨atLeast n hn, atMost n hn⟩
  have ⟨_, _, L, pages, _, distinct, before⟩ := exists_listing db runs accepted
  refine ⟨L.sorted _, L.sorted_perm _, (L.sorted_strict distinct).imp fun {a b} => (before a b).mp, ?_⟩
  rw [pages]
  exact (L.enumerates (limit_pos accepted) distinct).map _

/-- Three runs created at one moment. -/
def threeRuns : JobRunsTable Unit :=
  (upsertJobRuns {} [mailRun .active none, { mailRun .active none with jobId := "2" },
    { mailRun .completed (some 2000) with jobId := "3" }] .empty).1

theorem threeRuns_complete :
    JobsComplete plainDatabase threeRuns { sortBy := some .durationMs, limit := some 1 } :=
  listJobs_complete plainDatabase threeRuns (by simp) (by simp)

/-- A limit above 100 is refused. -/
theorem listJobs_refuses :
    ¬ ∀ input : ListJobsInput, (∀ n ∈ input.limit, 1 ≤ n) → JobsComplete plainDatabase threeRuns input := by
  intro complete
  obtain ⟨_, _, _, shown⟩ := complete { limit := some 101 } (by simp)
  obtain ⟨p, fetched⟩ := shown.first
  cases fetched

end BetterBullBoard
