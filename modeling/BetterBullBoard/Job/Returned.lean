import BetterBullBoard.Job.ConflictTargets

/-! # What an upsert returns

The statement updates a row only where its `WHERE` finds a difference, and
returns the rows it inserted or updated. The `WHERE` and the `SET` clause are two
lists of the same columns.
-/

namespace BetterBullBoard

variable {J : Type}

/-- A run `formatJobRun` produces. -/
def IsFormatted (run : JobRunInsert J) : Prop := ∃ job queueName workerId tags phase state,
  formatJobRun job queueName workerId tags phase state = some run

theorem IsFormatted.target {run : JobRunInsert J} (formatted : IsFormatted run) :
    run.createdAt.isSome ∧ ∃ moment, run.enqueuedAt = .value moment := by
  obtain ⟨job, _, _, _, _, _, h⟩ := formatted
  obtain ⟨-, -, enqueued, created, -⟩ := formatJobRun_some h
  exact ⟨by rw [created]; rfl, job.timestamp, enqueued⟩

/-- The row is new, or was not stored like this. -/
def Differs (t : JobRunsTable J) (r : JobRun J) : Prop := ∀ stored ∈ t.rows, stored.id = r.id → stored ≠ r

theorem differs_iff {t : JobRunsTable J} {r : JobRun J} : Differs t r ↔ r ∉ t.rows :=
  ⟨fun differs stored => differs r stored rfl rfl, fun missing _ h _ same => missing (same ▸ h)⟩

variable [DecidableEq J]

/-- The ids published on `bbb:ingest:events:single-job-refresh`. -/
def singleJobRefresh (ctx : UpsertContext) (runs : List (JobRunInsert J)) (t : JobRunsTable J) : List Nat :=
  (upsertJobRuns ctx runs t).2.map Prod.fst

/-! ## The two lists of columns -/

theorem setWhere_iff (stored ex : JobRun J) : setWhere stored ex ↔ onConflict stored ex ≠ stored := by
  constructor
  · intro changed same
    rw [onConflict, if_pos changed] at same
    cases stored
    simp only [conflictSet, conflictUpdateSet, JobRun.mk.injEq] at same
    simp [setWhere, same] at changed
  · intro differs
    by_contra unchanged
    exact differs (if_neg unchanged)

omit [DecidableEq J] in
/-- The proposed row depends on its context in its id and in a missing
    `created_at`. -/
theorem excluded_created {run : JobRunInsert J} (created : run.createdAt.isSome) (ctx ctx' : UpsertContext)
    (id id' : Nat) : excluded ctx' id' run = { excluded ctx id run with id := id' } := by
  obtain ⟨moment, given⟩ := Option.isSome_iff_exists.mp created
  simp [excluded, given]

omit [DecidableEq J] in
theorem conflictSet_again (stored ex : JobRun J) (id : Nat) :
    conflictSet (conflictSet stored ex) { ex with id } = conflictSet stored ex := by
  have status : statusUpdate (conflictSet stored ex) { ex with id } = statusUpdate stored ex := by
    simp only [conflictSet, statusUpdate]
    grind
  have tags : tagsUpdate (conflictSet stored ex) { ex with id } = tagsUpdate stored ex := by
    simp only [conflictSet, tagsUpdate]
    grind
  rw [conflictSet, status, tags]
  rfl

omit [DecidableEq J] in
theorem conflictSet_self (ex : JobRun J) (id : Nat) : conflictSet ex { ex with id } = ex := by
  simp [conflictSet, conflictUpdateSet, statusUpdate, tagsUpdate]

/-- What was written once is not written again, whoever proposes it. -/
theorem onConflict_again {run : JobRunInsert J} (created : run.createdAt.isSome) (stored : Option (JobRun J))
    (ctx ctx' : UpsertContext) (id id' : Nat) :
    onConflict (JobRunsTable.mergeInto stored (excluded ctx id run)) (excluded ctx' id' run) =
      JobRunsTable.mergeInto stored (excluded ctx id run) := by
  rw [excluded_created created ctx ctx' id id', onConflict_eq]
  cases stored with
  | none => exact conflictSet_self _ _
  | some stored =>
      rw [JobRunsTable.mergeInto, onConflict_eq]
      exact conflictSet_again _ _ _

/-! ## One row of the statement -/

namespace JobRunsTable

variable {ctx ctx' : UpsertContext} {t : JobRunsTable J} {run : JobRunInsert J} {k : String × String × Int}
  {r : JobRun J} {values : List (JobRunInsert J)}

/-- The row that the run is written to. -/
def written (ctx : UpsertContext) (t : JobRunsTable J) (run : JobRunInsert J) (k : String × String × Int) : JobRun J :=
  mergeInto (t.rowAt k) (excluded ctx t.nextId run)

omit [DecidableEq J] in
theorem clash_iff (target : run.target = some k) {id : Nat} :
    UniqueIndex.Clash JobRun.target r (excluded ctx id run) ↔ r.target = some k := by
  have keyed : (excluded ctx id run).target = some k := target
  rw [UniqueIndex.Clash, keyed]
  exact ⟨And.right, fun same => ⟨by rw [same]; rfl, same⟩⟩

theorem written_target (target : run.target = some k) : (written ctx t run k).target = some k := by
  have keyed : (excluded ctx t.nextId run).target = some k := target
  rw [written]
  cases t.rowAt k with
  | none => exact keyed
  | some stored => rwa [mergeInto, onConflict_target]

theorem mem_upsertRow (target : run.target = some k) :
    r ∈ (t.upsertRow ctx run).rows ↔ (r ∈ t.rows ∧ r.target ≠ some k) ∨ r = written ctx t run k := by
  have held := rowAt_eq_some.mp (rowAt_upsertRow ctx t target)
  constructor
  · intro member
    by_cases same : r.target = some k
    · exact .inr ((t.upsertRow ctx run).eq_of_target member held.1 same held.2)
    · rcases (UniqueIndex.mem_doUpdate t.unique).mp member with ⟨old, -⟩ | ⟨stored, _, clash, rfl⟩ | ⟨rfl, -⟩
      · exact .inl ⟨old, same⟩
      · rw [onConflict_target] at same
        exact absurd target same
      · exact absurd target same
  · rintro (⟨old, other⟩ | rfl)
    · exact (UniqueIndex.mem_doUpdate t.unique).mpr (.inl ⟨old, fun clash => other ((clash_iff target).mp clash)⟩)
    · exact held.1

/-- A run is reported when the row it was written to was not stored like this. -/
theorem returning_eq (target : run.target = some k) : t.returning ctx run =
    if written ctx t run k ∈ t.rows then none else some ((written ctx t run k).id, (written ctx t run k).status) := by
  have lookup : (t.rows.find? fun stored => UniqueIndex.Clash JobRun.target stored (excluded ctx t.nextId run)) =
      t.rowAt k := by
    simp only [rowAt, clash_iff target]
  cases stored : t.rowAt k with
  | none =>
      have fresh : excluded ctx t.nextId run ∉ t.rows := fun member => Nat.lt_irrefl _ (t.fresh _ member)
      have row : written ctx t run k = excluded ctx t.nextId run := by rw [written, stored, mergeInto]
      rw [row, if_neg fresh]
      simp only [returning, lookup, stored]
  | some old =>
      obtain ⟨member, -⟩ := rowAt_eq_some.mp stored
      have row : written ctx t run k = onConflict old (excluded ctx t.nextId run) := by rw [written, stored, mergeInto]
      rw [row]
      simp only [returning, lookup, stored]
      by_cases changed : setWhere old (excluded ctx t.nextId run)
      · have missing : onConflict old (excluded ctx t.nextId run) ∉ t.rows := by
          intro again
          exact (setWhere_iff _ _).mp changed (t.eq_of_id again member (onConflict_id _ _))
        rw [if_pos changed, if_neg missing, onConflict_id, onConflict, if_pos changed]
        rfl
      · have same : onConflict old (excluded ctx t.nextId run) = old := if_neg changed
        rw [if_neg changed, same, if_pos member]

/-- Rows of other targets outlast the statement. -/
theorem mem_insertOnConflict (member : r ∈ t.rows) (others : ∀ run ∈ values, run.target ≠ r.target)
    (keyed : ∀ run ∈ values, run.target.isSome) : r ∈ (insertOnConflict ctx values t).1.rows := by
  induction values generalizing t with
  | nil => exact member
  | cons run values ih =>
      simp only [List.forall_mem_cons] at others keyed
      obtain ⟨k, target⟩ := Option.isSome_iff_exists.mp keyed.1
      apply ih ?_ others.2 keyed.2
      exact (mem_upsertRow target).mpr (.inl ⟨member, fun same => others.1 (target.trans same.symm)⟩)

theorem written_kept (target : run.target = some k) (keyed : ∀ run ∈ values, run.target.isSome)
    (distinct : run.target ∉ values.map (·.target)) :
    written ctx t run k ∈ (insertOnConflict ctx values (t.upsertRow ctx run)).1.rows := by
  refine mem_insertOnConflict ((mem_upsertRow target).mpr (.inr rfl)) (fun run' later same => ?_) keyed
  rw [written_target target, ← target] at same
  exact distinct (List.mem_map.mpr ⟨run', later, same⟩)

/-- Of the rows of the first run's target only the one it writes can be new. -/
theorem new_iff (target : run.target = some k) (keyed : ∀ run ∈ values, run.target.isSome)
    (distinct : run.target ∉ values.map (·.target))
    (member : r ∈ (insertOnConflict ctx values (t.upsertRow ctx run)).1.rows) :
    r ∉ t.rows ↔ r ∉ (t.upsertRow ctx run).rows ∨ (r = written ctx t run k ∧ written ctx t run k ∉ t.rows) := by
  by_cases same : r.target = some k
  · obtain rfl := eq_of_target _ member (written_kept target keyed distinct) same (written_target target)
    simp [mem_upsertRow target]
  · have other : r ≠ written ctx t run k := fun h => same (h ▸ written_target target)
    simp [mem_upsertRow target, same, other]

/-- The statement reports the rows that are new or differ from what was stored. -/
theorem insertOnConflict_reports (keyed : ∀ run ∈ values, run.target.isSome)
    (distinct : (values.map (·.target)).Nodup) (t : JobRunsTable J) :
    let result := insertOnConflict ctx values t
    (result.2.map Prod.fst).Nodup ∧
      ∀ e, e ∈ result.2 ↔ ∃ r ∈ result.1.rows, r ∉ t.rows ∧ (r.id, r.status) = e := by
  induction values generalizing t with
  | nil =>
      refine ⟨List.nodup_nil, fun e => ⟨nofun, ?_⟩⟩
      rintro ⟨r, member, missing, -⟩
      exact absurd member missing
  | cons run values ih =>
      simp only [List.forall_mem_cons] at keyed
      rw [List.map_cons, List.nodup_cons] at distinct
      obtain ⟨k, target⟩ := Option.isSome_iff_exists.mp keyed.1
      obtain ⟨nodup, reports⟩ := ih keyed.2 distinct.2 (t.upsertRow ctx run)
      have kept : written ctx t run k ∈ (insertOnConflict ctx values (t.upsertRow ctx run)).1.rows :=
        written_kept target keyed.2 distinct.1
      simp only [insertOnConflict, returning_eq target]
      constructor
      · split
        · exact nodup
        · refine List.nodup_cons.mpr ⟨fun again => ?_, nodup⟩
          obtain ⟨e, he, same⟩ := List.mem_map.mp again
          obtain ⟨r, member, fresh, rfl⟩ := (reports e).mp he
          obtain rfl := eq_of_id _ member kept same
          exact fresh ((mem_upsertRow target).mpr (.inr rfl))
      · intro e
        rw [List.mem_append, reports]
        constructor
        · rintro (here | ⟨r, member, fresh, rfl⟩)
          · split at here
            · cases here
            · rename_i missing
              obtain rfl := List.mem_singleton.mp here
              exact ⟨_, kept, missing, rfl⟩
          · exact ⟨r, member, (new_iff target keyed.2 distinct.1 member).mpr (.inl fresh), rfl⟩
        · rintro ⟨r, member, missing, rfl⟩
          rcases (new_iff target keyed.2 distinct.1 member).mp missing with fresh | ⟨rfl, missing⟩
          · exact .inr ⟨r, member, fresh, rfl⟩
          · rw [if_neg missing]
            exact .inl (List.mem_singleton_self _)

/-- The run's row is stored as the run would write it. -/
def Settled (rows : List (JobRun J)) (run : JobRunInsert J) : Prop :=
  ∃ r ∈ rows, r.target.isSome ∧ r.target = run.target ∧ ∀ ctx id, onConflict r (excluded ctx id run) = r

theorem settled_insertOnConflict (ctx : UpsertContext) (keyed : ∀ run ∈ values, run.target.isSome)
    (distinct : (values.map (·.target)).Nodup) (created : ∀ run ∈ values, run.createdAt.isSome)
    (t : JobRunsTable J) : ∀ run ∈ values, Settled (insertOnConflict ctx values t).1.rows run := by
  induction values generalizing t with
  | nil => simp
  | cons run values ih =>
      simp only [List.forall_mem_cons] at keyed created ⊢
      rw [List.map_cons, List.nodup_cons] at distinct
      obtain ⟨k, target⟩ := Option.isSome_iff_exists.mp keyed.1
      have stored : (written ctx t run k).target = some k := written_target target
      refine ⟨⟨_, written_kept target keyed.2 distinct.1, by rw [stored]; rfl, stored.trans target.symm, ?_⟩,
        ih keyed.2 distinct.2 created.2 _⟩
      exact fun ctx' id' => onConflict_again created.1 _ ctx ctx' _ id'

/-- A statement of settled runs writes nothing. -/
theorem insertOnConflict_settled (settled : ∀ run ∈ values, Settled t.rows run) :
    (insertOnConflict ctx values t).1.rows = t.rows ∧ (insertOnConflict ctx values t).2 = [] := by
  induction values generalizing t with
  | nil => exact ⟨rfl, rfl⟩
  | cons run values ih =>
      simp only [List.forall_mem_cons] at settled
      obtain ⟨⟨r, member, keyed, target, same⟩, later⟩ := settled
      obtain ⟨k, keyed⟩ := Option.isSome_iff_exists.mp keyed
      have target' : run.target = some k := target.symm.trans keyed
      have rows : (t.upsertRow ctx run).rows = t.rows :=
        UniqueIndex.doUpdate_merged t.unique member ((clash_iff target').mpr keyed) (same ctx t.nextId)
      have row : written ctx t run k = r := by
        rw [written, rowAt_eq_some.mpr ⟨member, keyed⟩, mergeInto, same]
      obtain ⟨rows', silent⟩ := @ih (t.upsertRow ctx run) (by rwa [rows])
      simp only [insertOnConflict, returning_eq target', row, if_pos member]
      exact ⟨rows'.trans rows, silent⟩

end JobRunsTable

/-! ## The call -/

/-- The second call comes before another run leaves retention. -/
def Immediately (ctx ctx' : UpsertContext) (runs : List (JobRunInsert J)) : Prop :=
  ∀ run ∈ runs, isWithinRetention run (getRetentionCutoff ctx') = isWithinRetention run (getRetentionCutoff ctx)

omit [DecidableEq J] in
theorem mem_insertValues_again {ctx ctx' : UpsertContext} {runs : List (JobRunInsert J)}
    (immediately : Immediately ctx ctx' runs) {run : JobRunInsert J} :
    run ∈ insertValues ctx' runs ↔ run ∈ insertValues ctx runs := by
  rw [(insertValues_perm ctx' runs).mem_iff, (insertValues_perm ctx runs).mem_iff, inRetention, inRetention,
    List.filter_congr immediately]

/-- What a call returns and announces is what it changed, and the same call again
    changes nothing. -/
theorem upsertJobRuns_returns (ctx : UpsertContext) {runs : List (JobRunInsert J)}
    (formatted : ∀ run ∈ runs, IsFormatted run) (t : JobRunsTable J) :
    let result := upsertJobRuns ctx runs t
    (singleJobRefresh ctx runs t).Nodup ∧
      (∀ id status, (id, status) ∈ result.2 ↔
        ∃ r ∈ result.1.rows, Differs t r ∧ r.id = id ∧ r.status = status) ∧
      ∀ ctx', Immediately ctx ctx' runs →
        (upsertJobRuns ctx' runs result.1).1.rows = result.1.rows ∧ (upsertJobRuns ctx' runs result.1).2 = [] := by
  have enqueued : ∀ run ∈ runs, ∃ moment, run.enqueuedAt = .value moment := fun run h => (formatted run h).target.2
  have keyed : ∀ run ∈ insertValues ctx runs, run.target.isSome := by
    intro run member
    obtain ⟨moment, given⟩ := enqueued run (mem_insertValues member).1
    rw [target_of_enqueued given]
    rfl
  have distinct : ((insertValues ctx runs).map (·.target)).Nodup := nodup_targets enqueued
  obtain ⟨nodup, reports⟩ := JobRunsTable.insertOnConflict_reports keyed distinct t
  simp only [singleJobRefresh, upsertJobRuns_eq]
  refine ⟨nodup, fun id status => ?_, fun ctx' immediately => ?_⟩
  · rw [reports]
    simp only [differs_iff, Prod.mk.injEq]
  · have settled := JobRunsTable.settled_insertOnConflict ctx keyed distinct
      (fun run member => (formatted run (mem_insertValues member).1).target.1) t
    exact JobRunsTable.insertOnConflict_settled fun run member =>
      settled run ((mem_insertValues_again immediately).mp member)

/-- Job 1 has finished; the row is updated and announced, once. -/
theorem mail_finished_returns :
    let result := upsertJobRuns {} [mailRun .completed (some 2000)] mailTable
    singleJobRefresh {} [mailRun .completed (some 2000)] mailTable = [0] ∧
      (∃ r ∈ result.1.rows, Differs mailTable r ∧ r.id = 0 ∧ r.status = .completed) ∧
      (upsertJobRuns { dateNow := 10 } [mailRun .completed (some 2000)] result.1).2 = [] := by
  have formatted : ∀ run ∈ [mailRun .completed (some 2000)], IsFormatted run := by
    intro run member
    obtain rfl := List.mem_singleton.mp member
    exact ⟨mailJob (some 2000), "mail", none, .undefined, some .terminal, none, by decide⟩
  obtain ⟨-, reports, again⟩ := upsertJobRuns_returns {} formatted mailTable
  refine ⟨by decide, (reports 0 .completed).mp (by decide), (again { dateNow := 10 } ?_).2⟩
  simp [Immediately, getRetentionCutoff, truthyNumber]

end BetterBullBoard
