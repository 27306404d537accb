import BetterBullBoard.Job.Widths
import BetterBullBoard.Repeats.ReconcileQueue

/-! # The pages of the retained jobs

One range of positions is asked of five lists at once, and the loop ends at the
first answer shorter than a page. The answer has no repetitions, so a short one
is short of every list. A job that cannot be formatted ends the loop early.
-/

namespace BetterBullBoard

variable {J : Type}

/-- How far the paging loop has come. -/
inductive Paging (J : Type) where
  | running
  /-- `formatJobRun` threw. -/
  | threw
  | ended (rows : List (JobRunInsert J))

/-- The snapshot's numbers are within the ranges of `jobRunsInsertSchema`. -/
def withinSchema (job : JobSnapshot J) : Prop :=
  smallint job.attemptsMade ∧ job.opts.attempts.all smallint ∧ job.opts.priority.all integer ∧
    job.opts.delay.all integer ∧ validDate job.timestamp ∧ (truthyNumber job.processedOn).all validDate ∧
      (truthyNumber job.finishedOn).all validDate

instance (job : JobSnapshot J) : Decidable (withinSchema job) := inferInstanceAs (Decidable (_ ∧ _))

namespace BullQueue

variable (queue : BullQueue J) (queueName : String)

/-- The loop of `reconcileRetainedBullMqJobs` with its variables, for so many
    pages at most. -/
def pagingLoop (pageSize : Nat) : Nat → Nat → List (JobRunInsert J) → Paging J
  | 0, _, _ => .running
  | fuel + 1, start, rows =>
      let jobs := queue.getJobs jobTypes start (start + pageSize - 1)
      if jobs.length = 0 then .ended rows
      else
        match (jobs.filterMap fun job => job.filter isBullMqJob).mapM (snapshotRun queueName) with
        | none => .threw
        | some runs =>
            if jobs.length < pageSize then .ended (rows ++ runs)
            else pagingLoop pageSize fuel (start + pageSize) (rows ++ runs)

variable {queue queueName} {pageSize fuel start : Nat} {jobs : List (BullJob J)}

/-- The loop formats what the pages hold. -/
theorem pagingLoop_of_pages (h : queue.pages pageSize fuel start = some jobs) (rows : List (JobRunInsert J)) :
    queue.pagingLoop queueName pageSize fuel start rows =
      match jobs.mapM (snapshotRun queueName) with
      | none => .threw
      | some runs => .ended (rows ++ runs) := by
  induction fuel generalizing start jobs rows with
  | zero => cases h
  | succ fuel ih =>
      simp only [pages] at h
      simp only [pagingLoop]
      split at h
      · rename_i empty
        obtain rfl := Option.some.inj h
        rw [if_pos empty]
        simp
      · rename_i nonempty
        rw [if_neg nonempty]
        split at h
        · rename_i short
          obtain rfl := Option.some.inj h
          simp only [if_pos short]
        · rename_i full
          obtain ⟨later, rest, rfl⟩ := Option.map_eq_some_iff.mp h
          simp only [if_neg full, ih rest, List.mapM_append]
          cases (_ : List (BullJob J)).mapM (snapshotRun queueName) with
          | none => rfl
          | some runs => cases later.mapM (snapshotRun queueName) <;> simp

theorem pages_more (h : queue.pages pageSize fuel start = some jobs) {more : Nat} (le : fuel ≤ more) :
    queue.pages pageSize more start = some jobs := by
  induction fuel generalizing start jobs more with
  | zero => cases h
  | succ fuel ih =>
      obtain ⟨more, rfl⟩ : ∃ n, more = n + 1 := ⟨more - 1, by omega⟩
      simp only [pages] at h ⊢
      split at h
      · rename_i empty
        rwa [if_pos empty]
      · rename_i nonempty
        rw [if_neg nonempty]
        split at h
        · rename_i short
          rwa [if_pos short]
        · rename_i full
          obtain ⟨later, rest, rfl⟩ := Option.map_eq_some_iff.mp h
          rw [if_neg full, ih rest (by omega), Option.map_some]

/-- Whatever the queue holds, the loop ends after at most one page more than ids
    are listed. -/
theorem pagingLoop_ends (queue : BullQueue J) (queueName : String) (positive : 0 < pageSize) :
    ∃ jobs, queue.retainedJobs pageSize = some jobs ∧
    ∀ fuel, queue.listed < fuel → queue.pagingLoop queueName pageSize fuel 0 [] =
      match jobs.mapM (snapshotRun queueName) with
      | none => .threw
      | some runs => .ended runs := by
  obtain ⟨jobs, retained⟩ := queue.exists_retainedJobs positive
  refine ⟨jobs, retained, fun fuel enough => ?_⟩
  exact pagingLoop_of_pages (pages_more retained enough) []

/-! ## A short answer is short of every list -/

variable {types : List JobType} {type : JobType} {jobId : String} {job : BullJob J}

/-- A page answers for each id at its positions. -/
theorem mem_getJobs (asked : type ∈ types) {stop : Nat}
    (listed : jobId ∈ ((queue.lists type).drop start).take (stop + 1 - start)) :
    queue.jobs jobId ∈ queue.getJobs types start stop := by
  have entry : (jobId, ()) ∈ (types.flatMap fun type =>
      ((queue.lists type).drop start).take (stop + 1 - start)).map fun id => (id, ()) :=
    List.mem_map_of_mem (List.mem_flatMap.mpr ⟨type, asked, listed⟩)
  obtain ⟨_, kept⟩ := JsMap.get_isSome entry
  exact List.mem_map.mpr ⟨_, (JsMap.mem_iff_get (JsMap.nodup_ofEntries _) _ _).mpr kept, rfl⟩

/-- A page is as long as its part of each list. -/
theorem length_getJobs (asked : type ∈ types) (distinct : (queue.lists type).Nodup) (start stop : Nat) :
    (((queue.lists type).drop start).take (stop + 1 - start)).length ≤ (queue.getJobs types start stop).length := by
  have part := (distinct.sublist (List.drop_sublist start _)).sublist (List.take_sublist (stop + 1 - start) _)
  rw [getJobs, List.length_map, ← List.length_map Prod.fst]
  apply (part.subperm _).length_le
  intro id listed
  have entry : (id, ()) ∈ (types.flatMap fun type =>
      ((queue.lists type).drop start).take (stop + 1 - start)).map fun id => (id, ()) :=
    List.mem_map_of_mem (List.mem_flatMap.mpr ⟨type, asked, listed⟩)
  obtain ⟨_, kept⟩ := JsMap.get_isSome entry
  exact List.mem_map_of_mem ((JsMap.mem_iff_get (JsMap.nodup_ofEntries _) _ _).mpr kept)

/-- The pages from a position on hold the job of every id listed from there on. -/
theorem mem_pages_of_listed (h : queue.pages pageSize fuel start = some jobs) (asked : type ∈ jobTypes)
    (distinct : (queue.lists type).Nodup) (positive : 0 < pageSize) (found : queue.getJob jobId = some job)
    (listed : jobId ∈ (queue.lists type).drop start) : job ∈ jobs := by
  induction fuel generalizing start jobs with
  | zero => cases h
  | succ fuel ih =>
      have width : start + pageSize - 1 + 1 - start = pageSize := by omega
      have long := length_getJobs asked distinct start (start + pageSize - 1)
      rw [width, List.length_take, List.length_drop] at long
      have remaining : 0 < ((queue.lists type).drop start).length := List.length_pos_of_mem listed
      rw [List.length_drop] at remaining
      have page : jobId ∈ ((queue.lists type).drop start).take pageSize →
          job ∈ (queue.getJobs jobTypes start (start + pageSize - 1)).filterMap (·.filter isBullMqJob) := fun inside =>
        List.mem_filterMap.mpr ⟨_, mem_getJobs asked (by rwa [width]), found⟩
      rw [← List.take_append_drop pageSize ((queue.lists type).drop start), List.drop_drop] at listed
      simp only [pages] at h
      split at h
      · omega
      · split at h
        · -- what lies behind a short page is nothing
          obtain rfl := Option.some.inj h
          have behind : (queue.lists type).drop (start + pageSize) = [] :=
            List.drop_of_length_le (by omega)
          rw [behind, List.append_nil] at listed
          exact page listed
        · obtain ⟨later, rest, rfl⟩ := Option.map_eq_some_iff.mp h
          cases List.mem_append.mp listed with
          | inl inPage => exact List.mem_append_left _ (page inPage)
          | inr behind => exact List.mem_append_right _ (ih rest behind)

/-! ## What the loop formats -/

theorem snapshotRun_isSome (found : queue.getJob jobId = some job) :
    (snapshotRun queueName job).isSome ↔ withinSchema job.snapshot :=
  formatJobRun_isSome (getJob_id found) ..

/-- The loop ends, with the run of every retained job among its rows. -/
def FormatsAll (queue : BullQueue J) (queueName : String) (pageSize : Nat) : Prop :=
  ∃ fuel rows, queue.pagingLoop queueName pageSize fuel 0 [] = .ended rows ∧
    ∀ job, queue.Retained job → ∃ run ∈ rows, snapshotRun queueName job = some run

/-- The loop reaches every retained job unless one of them is outside the ranges
    of the schema. BullMQ keeps an id once in each of its lists. -/
theorem formatsAll_iff (positive : 0 < pageSize) (distinct : ∀ type, (queue.lists type).Nodup) :
    FormatsAll queue queueName pageSize ↔ ∀ job, queue.Retained job → withinSchema job.snapshot := by
  constructor
  · rintro ⟨_, rows, -, formats⟩ job retained
    obtain ⟨run, -, formatted⟩ := formats job retained
    obtain ⟨_, -, jobId, -, found⟩ := retained
    exact (snapshotRun_isSome found).mp (Option.isSome_of_eq_some formatted)
  · intro within
    obtain ⟨jobs, pages, ends⟩ := pagingLoop_ends queue queueName positive
    have formats : ∀ job ∈ jobs, (snapshotRun queueName job).isSome := by
      intro job member
      obtain ⟨_, -, _, -, found⟩ := mem_pages pages member
      exact (snapshotRun_isSome found).mpr (within job (mem_pages pages member))
    obtain ⟨runs, formatted⟩ := snapshotRuns_some formats
    refine ⟨queue.listed + 1, runs, by rw [ends _ (Nat.lt_succ_self _), formatted], ?_⟩
    rintro job ⟨type, asked, jobId, listed, found⟩
    have member : job ∈ jobs := mem_pages_of_listed pages asked (distinct type) positive found listed
    have run : snapshotRun queueName job ∈ runs.map some := by
      rw [← snapshotRuns_eq formatted]
      exact List.mem_map_of_mem member
    obtain ⟨run, kept, same⟩ := List.mem_map.mp run
    exact ⟨run, kept, same.symm⟩

theorem waitingQueue_distinct {ids : List String} (distinct : ids.Nodup) (delay : Option Int) (type : JobType) :
    ((waitingQueue ids delay).lists type).Nodup := by
  cases type with
  | waiting => exact distinct
  | _ => exact List.nodup_nil

theorem formatsAll_two : FormatsAll (waitingQueue ["2", "1"] none) "mail" 1 := by
  refine (formatsAll_iff (by decide) (waitingQueue_distinct (by decide) none)).mpr ?_
  rintro job ⟨type, -, jobId, listed, found⟩
  cases type with
  | waiting =>
      rw [show (waitingQueue ["2", "1"] none).lists .waiting = ["2", "1"] from rfl] at listed
      simp only [List.mem_cons, List.not_mem_nil, or_false] at listed
      cases listed with
      | inl two =>
          subst two
          obtain rfl := Option.some.inj found
          decide
      | inr one =>
          subst one
          obtain rfl := Option.some.inj found
          decide
  | _ => cases listed

/-- Job 2 is due in thirty days; job 1 stands behind it. -/
theorem bad_job_ends_paging :
    ¬ ∀ (queue : BullQueue Unit) (queueName : String) (pageSize : Nat), 0 < pageSize →
      (∀ type, (queue.lists type).Nodup) → FormatsAll queue queueName pageSize := by
  intro all
  obtain ⟨fuel, rows, ended, -⟩ := all (waitingQueue ["2", "1"] (some 2592000000)) "mail" 500 (by decide)
    (waitingQueue_distinct (by decide) _)
  cases fuel with
  | zero => cases ended
  | succ fuel =>
      have threw : (waitingQueue ["2", "1"] (some 2592000000)).pagingLoop "mail" 500 (fuel + 1) 0 [] = .threw := rfl
      cases threw.symm.trans ended

end BullQueue

end BetterBullBoard
