import BetterBullBoard.Job.Upsert

/-! # Upserts of a single run

All events of one run carry the same queue, job id and enqueue time. For them a
call of `upsertJobRuns` is one merge, of its last event in retention, and the
stored row is a function of the events alone.
-/

namespace BetterBullBoard

variable {J : Type}

/-- The conflict target of a row to insert. -/
def JobRunInsert.target (run : JobRunInsert J) : Option (String × String × Int) :=
  run.enqueuedAt.toOption.map fun moment => (run.queue, run.jobId, moment)

/-- The event of a call that survives its deduplication, when all its events
    belong to one run. -/
def latest (ctx : UpsertContext) (runs : List (JobRunInsert J)) : Option (JobRunInsert J) :=
  (runs.filter (isWithinRetention · (getRetentionCutoff ctx))).getLast?

theorem dedupeKey_of_target {run : JobRunInsert J} {queue jobId : String} {moment : Int}
    (h : run.target = some (queue, jobId, moment)) :
    dedupeKey run = queue ++ "-" ++ jobId ++ "-" ++ toString moment := by
  unfold JobRunInsert.target at h
  cases henq : run.enqueuedAt <;> simp [henq, Nullish.toOption] at h
  obtain ⟨rfl, rfl, rfl⟩ := h
  simp [dedupeKey, henq, enqueuedAtText]

theorem insertValues_one_key {ctx : UpsertContext} {runs : List (JobRunInsert J)} {k}
    (one : ∀ run ∈ runs, run.target = some k) : insertValues ctx runs = (latest ctx runs).toList := by
  have keys : ∀ e ∈ (runs.filter (isWithinRetention · (getRetentionCutoff ctx))).map
      (fun run => (dedupeKey run, run)), e.1 = k.1 ++ "-" ++ k.2.1 ++ "-" ++ toString k.2.2 := by
    intro e he
    obtain ⟨run, hr, rfl⟩ := List.mem_map.mp he
    exact dedupeKey_of_target (one run (List.mem_filter.mp hr).1)
  simp only [insertValues, dedupe, JsMap.ofEntries_one_key keys, List.getLast?_map, latest]
  cases (runs.filter (isWithinRetention · (getRetentionCutoff ctx))).getLast? <;> rfl

namespace JobRunsTable

variable [DecidableEq J]

/-- The row the unique index holds for a key. -/
def rowAt (t : JobRunsTable J) (k : String × String × Int) : Option (JobRun J) :=
  t.rows.find? fun r => r.target = some k

omit [DecidableEq J] in
theorem rowAt_eq_some {t : JobRunsTable J} {k : String × String × Int} {r : JobRun J} :
    t.rowAt k = some r ↔ r ∈ t.rows ∧ r.target = some k := by
  constructor
  · intro h
    exact ⟨List.mem_of_find?_eq_some h, by simpa using List.find?_some h⟩
  · rintro ⟨member, keyed⟩
    cases found : t.rowAt k with
    | none => simpa [keyed] using List.find?_eq_none.mp found r member
    | some r' =>
        have hr' : r' ∈ t.rows := List.mem_of_find?_eq_some found
        have keyed' : r'.target = some k := by simpa using List.find?_some found
        rw [t.eq_of_target member hr' keyed keyed']

omit [DecidableEq J] in
theorem rowAt_eq_none {t : JobRunsTable J} {k : String × String × Int} :
    t.rowAt k = none ↔ ∀ r ∈ t.rows, r.target ≠ some k := by
  simp [rowAt, List.find?_eq_none]

/-- What one merge leaves under a key: the proposed row, merged into the stored
    one if there is one. -/
def mergeInto (stored : Option (JobRun J)) (ex : JobRun J) : JobRun J :=
  match stored with
  | none => ex
  | some stored => onConflict stored ex

theorem rowAt_upsertRow (ctx : UpsertContext) (t : JobRunsTable J) {run : JobRunInsert J} {k}
    (h : run.target = some k) :
    (t.upsertRow ctx run).rowAt k = some (mergeInto (t.rowAt k) (excluded ctx t.nextId run)) := by
  rw [rowAt_eq_some]
  have keyed : (excluded ctx t.nextId run).target = some k := h
  cases stored : t.rowAt k with
  | none =>
      refine ⟨(UniqueIndex.mem_doUpdate t.unique).mpr (.inr (.inr ⟨rfl, ?_⟩)), keyed⟩
      intro r hr clash
      exact rowAt_eq_none.mp stored r hr (clash.2.trans keyed)
  | some r =>
      obtain ⟨member, target⟩ := rowAt_eq_some.mp stored
      have clash : UniqueIndex.Clash JobRun.target r (excluded ctx t.nextId run) :=
        ⟨by simp [target], target.trans keyed.symm⟩
      exact ⟨(UniqueIndex.mem_doUpdate t.unique).mpr (.inr (.inl ⟨r, member, clash, rfl⟩)),
        by simpa only [mergeInto, onConflict_target] using keyed⟩

/-- A call whose events all belong to one run merges its latest event. -/
theorem upsert_one_key (ctx : UpsertContext) {runs : List (JobRunInsert J)} {k} (t : JobRunsTable J)
    (one : ∀ run ∈ runs, run.target = some k) :
    (upsertJobRuns ctx runs t).1 =
      match latest ctx runs with
      | none => t
      | some run => t.upsertRow ctx run := by
  rw [upsertJobRuns_table, insertValues_one_key one]
  cases latest ctx runs <;> rfl

end JobRunsTable

section

variable [DecidableEq J]

/-- What a statement leaves: old rows, and rows one of its values was written to. -/
theorem mem_upsert_values {ctx : UpsertContext} {runs : List (JobRunInsert J)} {t : JobRunsTable J} {r : JobRun J}
    (hr : r ∈ (upsertJobRuns ctx runs t).1.rows) :
    r ∈ t.rows ∨ ∃ run ∈ insertValues ctx runs,
      r.target = run.target ∧ (isTerminalStatus run.status → isTerminalStatus r.status) := by
  rw [upsertJobRuns_table] at hr
  generalize insertValues ctx runs = values at hr
  induction values generalizing t with
  | nil => exact .inl hr
  | cons run values ih =>
      cases ih hr with
      | inr later =>
          obtain ⟨run', member, written⟩ := later
          exact .inr ⟨run', List.mem_cons_of_mem _ member, written⟩
      | inl now =>
          cases (UniqueIndex.mem_doUpdate t.unique).mp now with
          | inl old => exact .inl old.1
          | inr changed =>
              cases changed with
              | inr new =>
                  obtain ⟨rfl, -⟩ := new
                  exact .inr ⟨run, List.mem_cons_self, rfl, id⟩
              | inl merged =>
                  obtain ⟨stored, -, -, rfl⟩ := merged
                  exact .inr ⟨run, List.mem_cons_self, onConflict_target _ _,
                    fun terminal => onConflict_of_terminal _ _ terminal⟩

theorem mem_upsertJobRuns {ctx : UpsertContext} {runs : List (JobRunInsert J)} {t : JobRunsTable J} {r : JobRun J}
    (hr : r ∈ (upsertJobRuns ctx runs t).1.rows) :
    r ∈ t.rows ∨ ∃ run ∈ runs, r.target = run.target ∧ (isTerminalStatus run.status → isTerminalStatus r.status) := by
  refine (mem_upsert_values hr).imp_right fun written => ?_
  obtain ⟨run, member, same⟩ := written
  exact ⟨run, (mem_insertValues member).1, same⟩

/-- Rows keep their id, queue and job id. -/
theorem upsertJobRuns_keeps (ctx : UpsertContext) (runs : List (JobRunInsert J)) (t : JobRunsTable J) :
    JobRunsTable.Survives (fun a b => b.id = a.id ∧ b.queue = a.queue ∧ b.jobId = a.jobId) t
      (upsertJobRuns ctx runs t).1 := by
  apply JobRunsTable.upsert_survives (fun _ => ⟨rfl, rfl, rfl⟩)
    (fun _ _ _ h h' => ⟨h'.1.trans h.1, h'.2.1.trans h.2.1, h'.2.2.trans h.2.2⟩)
  intro old id run _ same isSome
  refine ⟨onConflict_id _ _, ?_⟩
  have merged : (onConflict old (excluded ctx id run)).target = old.target := (onConflict_target _ _).trans same.symm
  obtain ⟨k, key⟩ := Option.isSome_iff_exists.mp isSome
  rw [key, JobRun.target, Option.map_eq_some_iff] at merged
  rw [JobRun.target, Option.map_eq_some_iff] at key
  obtain ⟨moment, -, rfl⟩ := key
  obtain ⟨at', -, eq⟩ := merged
  simp only [Prod.mk.injEq] at eq
  exact ⟨eq.1, eq.2.1⟩

/-- After the upsert of one finished run in retention, its row is terminal. -/
theorem upsert_finished {ctx : UpsertContext} {run : JobRunInsert J} {k} (target : run.target = some k)
    (inRetention : isWithinRetention run (getRetentionCutoff ctx)) (finished : isTerminalStatus run.status)
    {t : JobRunsTable J} {r : JobRun J} (hr : r ∈ (upsertJobRuns ctx [run] t).1.rows) (same : r.target = some k) :
    isTerminalStatus r.status := by
  have one : ∀ run' ∈ [run], run'.target = some k := by simpa using target
  have survives : latest ctx [run] = some run := by simp [latest, inRetention]
  rw [JobRunsTable.upsert_one_key ctx t one, survives] at hr
  have held := (JobRunsTable.rowAt_eq_some.mpr ⟨hr, same⟩).symm.trans (JobRunsTable.rowAt_upsertRow ctx t target)
  obtain rfl := Option.some.inj held
  unfold JobRunsTable.mergeInto
  split
  · exact finished
  · exact onConflict_of_terminal _ _ finished

end

/-- The columns only a finished run has. -/
structure Outcome (J : Type) where
  startedAt : Option Int
  finishedAt : Option Int
  result : Option J
  errorMessage : Option String
  errorStack : Option String
  deriving Repr, DecidableEq

def JobRun.outcome (r : JobRun J) : Outcome J :=
  ⟨r.startedAt, r.finishedAt, r.result, r.errorMessage, r.errorStack⟩

def JobRunInsert.outcome (run : JobRunInsert J) : Outcome J :=
  ⟨run.startedAt, run.finishedAt, run.result, run.errorMessage, run.errorStack⟩

variable [DecidableEq J]

@[simp] theorem onConflict_outcome (stored : JobRun J) (ctx : UpsertContext) (id : Nat)
    (run : JobRunInsert J) : (onConflict stored (excluded ctx id run)).outcome = run.outcome := by
  simp [onConflict_eq, conflictSet, conflictUpdateSet, JobRun.outcome, JobRunInsert.outcome, excluded]

/-- The status clause holds a terminal row against an open snapshot. -/
theorem onConflict_status_kept {stored ex : JobRun J} (terminal : isTerminalStatus stored.status)
    (unended : isTerminalStatus ex.status = false) : (onConflict stored ex).status = stored.status := by
  simp [onConflict_eq, conflictSet, statusUpdate, terminal, unended]

/-- Calls one after another, each with its own clock and retention. -/
def upsertAll (calls : List (UpsertContext × List (JobRunInsert J))) (t : JobRunsTable J) : JobRunsTable J :=
  calls.foldl (fun t call => (upsertJobRuns call.1 call.2 t).1) t

/-- One late call keeps the id and the status of a terminal row, and replaces its
    outcome by the one its latest event carries. -/
theorem late_call {t : JobRunsTable J} {k} {r : JobRun J} (stored : t.rowAt k = some r)
    (terminal : isTerminalStatus r.status) {call : UpsertContext × List (JobRunInsert J)}
    (late : ∀ run ∈ call.2, run.target = some k ∧ isTerminalStatus run.status = false) :
    ∃ r', (upsertJobRuns call.1 call.2 t).1.rowAt k = some r' ∧ r'.id = r.id ∧ r'.status = r.status ∧
      r'.outcome = ((latest call.1 call.2).map (·.outcome)).getD r.outcome := by
  rw [JobRunsTable.upsert_one_key call.1 t fun run hr => (late run hr).1]
  cases hl : latest call.1 call.2 with
  | none => exact ⟨r, stored, rfl, rfl, rfl⟩
  | some run =>
      have member : run ∈ call.2 := (List.mem_filter.mp (List.mem_of_getLast? hl)).1
      obtain ⟨target, unended⟩ := late run member
      refine ⟨_, JobRunsTable.rowAt_upsertRow call.1 t target, ?_⟩
      simp only [stored, JobRunsTable.mergeInto]
      exact ⟨onConflict_id _ _, onConflict_status_kept terminal unended, onConflict_outcome _ _ _ _⟩

/-- Under late open snapshots a terminal row keeps its id and status; its outcome
    is kept throughout exactly when every snapshot that reaches the statement
    carries that same outcome. -/
theorem outcome_kept_iff {t : JobRunsTable J} {k} {r : JobRun J} (stored : t.rowAt k = some r)
    (terminal : isTerminalStatus r.status) {calls : List (UpsertContext × List (JobRunInsert J))}
    (late : ∀ call ∈ calls, ∀ run ∈ call.2, run.target = some k ∧ isTerminalStatus run.status = false) :
    (∀ before, before <+: calls → ∃ r', (upsertAll before t).rowAt k = some r' ∧ r'.id = r.id ∧
      r'.status = r.status ∧ r'.outcome = r.outcome) ↔
      ∀ call ∈ calls, ∀ run, latest call.1 call.2 = some run → run.outcome = r.outcome := by
  induction calls generalizing t r with
  | nil =>
      simp only [List.prefix_nil, forall_eq, List.not_mem_nil, false_implies, implies_true, iff_true]
      exact ⟨r, stored, rfl, rfl, rfl⟩
  | cons call calls ih =>
      simp only [List.forall_mem_cons] at late ⊢
      obtain ⟨r₁, stored₁, id₁, status₁, outcome₁⟩ := late_call stored terminal late.1
      have next := ih stored₁ (status₁ ▸ terminal) late.2
      have same_iff : r₁.outcome = r.outcome ↔
          ∀ run, latest call.1 call.2 = some run → run.outcome = r.outcome := by
        rw [outcome₁]
        cases latest call.1 call.2 <;> simp
      constructor
      · intro kept
        obtain ⟨r', stored', -, -, outcome'⟩ := kept [call] (by simp)
        have same : r₁.outcome = r.outcome := by
          obtain rfl := Option.some.inj (stored₁.symm.trans stored')
          exact outcome'
        refine ⟨same_iff.mp same, ?_⟩
        rw [← same]
        apply next.mp
        intro before sub
        obtain ⟨r', h, id', status', outcome'⟩ := kept (call :: before) (by simpa using sub)
        exact ⟨r', h, id'.trans id₁.symm, status'.trans status₁.symm, outcome'.trans same.symm⟩
      · rintro ⟨first, rest⟩ before sub
        have same := same_iff.mpr first
        cases before with
        | nil => exact ⟨r, stored, rfl, rfl, rfl⟩
        | cons c before =>
            obtain ⟨rfl, shorter⟩ := List.cons_prefix_cons.mp sub
            rw [← same] at rest
            obtain ⟨r', h, id', status', outcome'⟩ := next.mpr rest before shorter
            exact ⟨r', h, id'.trans id₁, status'.trans status₁, outcome'.trans same⟩

/-- A waiting snapshot that carries the whole outcome keeps it. -/
theorem outcome_kept_same_snapshot :
    ∃ r', (upsertAll [({}, [mailRun .waiting (some 2000)])]
        (upsertAll [({}, [mailRun .completed (some 2000)])] .empty)).rowAt ("mail", "1", 1000) = some r' ∧
      r'.id = 0 ∧ r'.status = .completed ∧ r'.outcome = (mailRun .completed (some 2000)).outcome :=
  (outcome_kept_iff (r := excluded {} 0 (mailRun .completed (some 2000))) rfl rfl (by decide)).mpr
    (by decide) _ (List.prefix_refl _)

/-- A waiting event behind the terminal one keeps the status and erases the
    finish time. -/
theorem late_waiting_erases_outcome :
    ¬ ∀ (t : JobRunsTable Unit) (k : String × String × Int) (r : JobRun Unit), t.rowAt k = some r →
      isTerminalStatus r.status → ∀ calls : List (UpsertContext × List (JobRunInsert Unit)),
      (∀ call ∈ calls, ∀ run ∈ call.2, run.target = some k ∧ isTerminalStatus run.status = false) →
      ∃ r', (upsertAll calls t).rowAt k = some r' ∧ r'.id = r.id ∧ r'.outcome = r.outcome := by
  intro kept
  obtain ⟨r', stored, -, same⟩ := kept (upsertAll [({}, [mailRun .completed (some 2000)])] .empty)
    ("mail", "1", 1000) (excluded {} 0 (mailRun .completed (some 2000))) rfl rfl
    [({}, [mailRun .waiting none])] (by decide)
  obtain rfl := Option.some.inj stored
  revert same
  decide

end BetterBullBoard
