import Mathlib.Algebra.Order.BigOperators.Group.List
import Mathlib.Algebra.Group.Action.Defs
import Mathlib.Algebra.Order.Ring.Nat
import BetterBullBoard.Job.Widths
import BetterBullBoard.Repeats.ReconcileQueue

/-! # The bind parameters of a visit

A statement has one parameter for each defined column of each row, and Postgres
takes at most 65535. The rows of all pages of a queue are one statement.
-/

namespace BetterBullBoard

variable {J : Type}

def Nullish.isDefined {α : Type} : Nullish α → Bool
  | .undefined => false
  | _ => true

/-- The columns of a row that are neither missing nor, where this cannot be told
    apart, null. -/
def definedColumns (run : JobRunInsert J) : Nat :=
  -- `jobId`, `queue` and `status` are always there
  3 + [run.workerId.isSome, run.attempt.isSome, run.maxAttempts.isSome, run.priority.isSome, run.delayMs.isSome,
    run.backoff.isSome, run.data.isSome, run.enqueuedAt.isDefined, run.startedAt.isSome, run.finishedAt.isSome,
    run.errorMessage.isSome, run.errorStack.isSome, run.name.isSome, run.parentJobId.isSome,
    run.repeatJobKey.isSome, run.result.isSome, run.tags.isDefined, run.createdAt.isSome].count true

/-- `nulls` says how many columns of a row are null and not missing. -/
def bindParameters (nulls : JobRunInsert J → Nat) (values : List (JobRunInsert J)) : Nat :=
  (values.map fun run => definedColumns run + nulls run).sum

def maxBindParameters : Nat := 65535

/-- The statements of a visit; a call without rows issues none. -/
def Visited.statements (v : Visited J) : List (List (JobRunInsert J)) :=
  (v.upserts.map fun call => insertValues call.1 call.2).filter (· ≠ [])

/-- No statement of the visit has too many parameters. -/
def Visited.StatementsFit (nulls : JobRunInsert J → Nat) (v : Visited J) : Prop :=
  ∀ values ∈ v.statements, bindParameters nulls values ≤ maxBindParameters

section

variable {nulls : JobRunInsert J → Nat}

/-- No row has more columns than the table. -/
theorem bindParameters_le (columns : ∀ run, definedColumns run + nulls run ≤ 21) (values : List (JobRunInsert J)) :
    bindParameters nulls values ≤ values.length * 21 := by
  have bounded : ∀ n ∈ values.map fun run => definedColumns run + nulls run, n ≤ 21 := by
    intro n hn
    obtain ⟨run, -, rfl⟩ := List.mem_map.mp hn
    exact columns run
  simpa only [bindParameters, List.length_map, smul_eq_mul] using List.sum_le_card_nsmul _ _ bounded

/-- A formatted run has its job id, queue, status, attempt and both times. -/
theorem six_le_definedColumns {queueName : String} {job : BullJob J} {run : JobRunInsert J}
    (formatted : snapshotRun queueName job = some run) : 6 ≤ definedColumns run := by
  obtain ⟨-, -, enqueued, created, -⟩ := formatJobRun_some formatted
  obtain ⟨attempt, -, -⟩ := formatJobRun_numbers formatted
  simp only [definedColumns, attempt, enqueued, created, Nullish.isDefined, Option.isSome_some, List.count_cons,
    beq_self_eq_true, if_true]
  omega

theorem le_bindParameters (nulls : JobRunInsert J → Nat) {values : List (JobRunInsert J)}
    (six : ∀ run ∈ values, 6 ≤ definedColumns run) :
    values.length * 6 ≤ bindParameters nulls values := by
  have bounded : ∀ n ∈ values.map fun run => definedColumns run + nulls run, 6 ≤ n := by
    intro n hn
    obtain ⟨run, member, rfl⟩ := List.mem_map.mp hn
    exact Nat.le_add_right_of_le (six run member)
  simpa only [bindParameters, List.length_map, smul_eq_mul] using List.card_nsmul_le_sum _ _ bounded

end

namespace BullQueue

variable [DecidableEq J] {queue : BullQueue J} {queueName : String} {c : VisitContext J}

/-- The loop over missing rows upserts one run at a time. -/
theorem checkRows_upserts (rejects : JobRunInsert J → Bool) (rows : List StaleRow) (v : Visited J) :
    ∃ more, (queue.checkRows queueName rejects c rows v).upserts = v.upserts ++ more ∧
      ∀ call ∈ more, ∃ run, call.2 = [run] := by
  induction rows generalizing v with
  | nil => exact ⟨[], by simp [checkRows]⟩
  | cons row rest ih =>
      simp only [checkRows]
      split
      · exact ih _
      · split
        · exact ⟨[], by simp⟩
        · rename_i run formatted
          split
          · exact ⟨[(c.missing row, [run])], rfl, by simp⟩
          · obtain ⟨more, same, single⟩ := ih {
              table := (upsertJobRuns (c.missing row) [run] v.table).1
              upserts := v.upserts ++ [(c.missing row, [run])]
              examined := v.examined ++ [row] }
            refine ⟨(c.missing row, [run]) :: more, ?_, ?_⟩
            · rw [same, List.append_assoc, List.singleton_append]
            · exact List.forall_mem_cons.mpr ⟨⟨run, rfl⟩, single⟩

omit [DecidableEq J] in
theorem insertValues_singleton (ctx : UpsertContext) (run : JobRunInsert J) : (insertValues ctx [run]).length ≤ 1 := by
  rw [(insertValues_perm ctx [run]).length_eq]
  exact ((JsMap.lastOfEach_sublist _ _).trans List.filter_sublist).length_le

/-- A visit that formats every retained job hands them over first, then one run at
    a time. -/
theorem reconcileQueue_upserts {runs : List (JobRunInsert J)}
    (retained : queue.retainedRuns queueName c.pageSize = some runs) (t : JobRunsTable J) :
    ∃ more, (queue.reconcileQueue queueName c t).upserts = (c.retained, runs) :: more ∧
      ∀ call ∈ more, ∃ run, call.2 = [run] := by
  simp only [reconcileQueue, reconcileRetainedBullMqJobs, retained, Option.map_some]
  exact checkRows_upserts _ _ _

theorem mem_statements {runs : List (JobRunInsert J)} (retained : queue.retainedRuns queueName c.pageSize = some runs)
    (nonempty : insertValues c.retained runs ≠ []) (t : JobRunsTable J) :
    insertValues c.retained runs ∈ (queue.reconcileQueue queueName c t).statements := by
  obtain ⟨more, upserts, -⟩ := reconcileQueue_upserts retained t
  rw [Visited.statements, upserts]
  exact List.mem_filter.mpr ⟨List.mem_map.mpr ⟨_, List.mem_cons_self, rfl⟩, decide_eq_true nonempty⟩

/-- Every statement of a visit fits exactly when a retained job cannot be
    formatted, or the columns of all retained jobs together fit: those in
    retention, of several runs of one text the last. -/
theorem bindParameters_iff {nulls : JobRunInsert J → Nat}
    (columns : ∀ run, definedColumns run + nulls run ≤ 21) (t : JobRunsTable J) :
    (queue.reconcileQueue queueName c t).StatementsFit nulls ↔
      ∀ runs, queue.retainedRuns queueName c.pageSize = some runs →
        bindParameters nulls (JsMap.lastOfEach dedupeKey (inRetention c.retained runs)) ≤ maxBindParameters := by
  have same : ∀ runs, bindParameters nulls (insertValues c.retained runs) =
      bindParameters nulls (JsMap.lastOfEach dedupeKey (inRetention c.retained runs)) :=
    fun runs => ((insertValues_perm c.retained runs).map _).sum_eq
  constructor
  · intro all runs retained
    rw [← same]
    by_cases empty : insertValues c.retained runs = []
    · rw [empty]
      exact Nat.zero_le _
    · exact all _ (mem_statements retained empty t)
  · intro fits values hv
    cases retained : queue.retainedRuns queueName c.pageSize with
    | none => simp [reconcileQueue, reconcileRetainedBullMqJobs, retained, Visited.statements] at hv
    | some runs =>
        obtain ⟨more, upserts, single⟩ := reconcileQueue_upserts retained t
        rw [Visited.statements, upserts] at hv
        obtain ⟨call, member, rfl⟩ := List.mem_map.mp (List.mem_filter.mp hv).1
        cases List.mem_cons.mp member with
        | inl first =>
            rw [first, same]
            exact fits runs retained
        | inr later =>
            obtain ⟨run, alone⟩ := single call later
            have rows := insertValues_singleton call.1 run
            have params := bindParameters_le columns (insertValues call.1 [run])
            rw [alone]
            unfold maxBindParameters
            omega

omit [DecidableEq J] in
/-- Whatever they hold, 3120 jobs fit. -/
theorem fits_of_few {nulls : JobRunInsert J → Nat} (columns : ∀ run, definedColumns run + nulls run ≤ 21)
    {values : List (JobRunInsert J)} (few : values.length ≤ 3120) :
    bindParameters nulls values ≤ maxBindParameters := by
  have := bindParameters_le columns values
  unfold maxBindParameters
  omega

omit [DecidableEq J] in
/-- And 10923 do not. -/
theorem not_fits_of_many {nulls : JobRunInsert J → Nat} {runs values : List (JobRunInsert J)}
    (retained : queue.retainedRuns queueName c.pageSize = some runs) (among : ∀ run ∈ values, run ∈ runs)
    (many : 10923 ≤ values.length) : ¬ bindParameters nulls values ≤ maxBindParameters := by
  obtain ⟨jobs, -, formatted⟩ := Option.bind_eq_some_iff.mp retained
  have six : ∀ run ∈ values, 6 ≤ definedColumns run := by
    intro run member
    obtain ⟨job, -, same⟩ := mem_snapshotRuns formatted (among run member)
    exact six_le_definedColumns same
  have := le_bindParameters nulls six
  unfold maxBindParameters
  omega

end BullQueue

/-! ## A long queue -/

def longQueue (ids : List String) : BullQueue Unit where
  lists
    | .waiting => ids
    | _ => []
  jobs id := some (waitingJob id none)
  keyed id job found := by
    obtain rfl := Option.some.inj found
    rfl

theorem longQueue_getJobs {ids : List String} (distinct : ids.Nodup) (start stop : Nat) :
    (longQueue ids).getJobs jobTypes start stop =
      ((ids.drop start).take (stop + 1 - start)).map fun id => some (waitingJob id none) := by
  have listed : (jobTypes.flatMap fun type => (((longQueue ids).lists type).drop start).take (stop + 1 - start)) =
      (ids.drop start).take (stop + 1 - start) := by
    simp [jobTypes, longQueue]
  have keys : ((((ids.drop start).take (stop + 1 - start)).map fun id => (id, ())).map Prod.fst).Nodup := by
    rw [List.map_map]
    exact (List.map_id' _).symm ▸ distinct.sublist ((List.take_sublist _ _).trans (List.drop_sublist _ _))
  rw [BullQueue.getJobs, listed, JsMap.ofEntries_of_nodup keys, List.map_map]
  rfl

theorem longQueue_pages {ids : List String} (distinct : ids.Nodup) (named : "" ∉ ids) {pageSize : Nat}
    (positive : 0 < pageSize) {fuel start : Nat} (enough : ids.length ≤ fuel + start) :
    (longQueue ids).pages pageSize (fuel + 1) start = some ((ids.drop start).map fun id => waitingJob id none) := by
  have page : ∀ l : List String, (∀ id ∈ l, id ≠ "") →
      ((l.map fun id => some (waitingJob id none)).filterMap fun job => job.filter isBullMqJob) =
        l.map fun id => waitingJob id none := by
    intro l nonempty
    induction l with
    | nil => rfl
    | cons id l ih =>
        simp only [List.forall_mem_cons] at nonempty
        have job : isBullMqJob (waitingJob id none) :=
          Option.isSome_iff_exists.mpr ⟨id, truthyString_eq_some.mpr ⟨rfl, nonempty.1⟩⟩
        rw [List.map_cons, List.map_cons, List.filterMap_cons_some (Option.filter_some_pos job), ih nonempty.2]
  have listed : ∀ id ∈ ids.drop start, id ≠ "" := fun id h empty => named (empty ▸ List.mem_of_mem_drop h)
  induction fuel generalizing start with
  | zero =>
      have behind : ids.drop start = [] := List.drop_eq_nil_of_le (by omega)
      simp [BullQueue.pages, longQueue_getJobs distinct, behind]
  | succ fuel ih =>
      have width : start + pageSize - 1 + 1 - start = pageSize := by omega
      rw [BullQueue.pages, longQueue_getJobs distinct, width]
      simp only [List.length_map, page _ fun id h => listed id (List.mem_of_mem_take h), List.length_take,
        List.length_drop]
      split
      · have behind : ids.drop start = [] := List.drop_eq_nil_of_le (by omega)
        rw [behind]
        rfl
      · split
        · rw [List.take_of_length_le (by rw [List.length_drop]; omega)]
        · rw [ih (by omega) fun id h => listed id (List.mem_of_mem_drop (List.drop_drop ▸ h)), Option.map_some,
            ← List.map_append, ← List.drop_drop, List.take_append_drop]

/-- The run of a waiting job of queue `mail`. -/
def waitingRun (id : String) : JobRunInsert Unit := { mailRun .waiting none with jobId := id }

theorem waitingJob_run {id : String} (named : id ≠ "") :
    snapshotRun "mail" (waitingJob id none) = some (waitingRun id) := by
  have truthy : truthyString (some id) = some id := truthyString_eq_some.mpr ⟨rfl, named⟩
  simp only [snapshotRun, formatJobRun, waitingJob, truthy]
  rfl

theorem longQueue_retainedRuns {ids : List String} (distinct : ids.Nodup) (named : "" ∉ ids) {pageSize : Nat}
    (positive : 0 < pageSize) : (longQueue ids).retainedRuns "mail" pageSize = some (ids.map waitingRun) := by
  have enough : ids.length ≤ (longQueue ids).listed + 0 := by simp [BullQueue.listed, jobTypes, longQueue]
  rw [BullQueue.retainedRuns, BullQueue.retainedJobs, longQueue_pages distinct named positive enough, List.drop_zero,
    Option.bind_some]
  have nonempty : ∀ id ∈ ids, id ≠ "" := fun id h empty => named (empty ▸ h)
  clear distinct named enough
  induction ids with
  | nil => rfl
  | cons id ids ih =>
      simp only [List.forall_mem_cons] at nonempty
      rw [List.map_cons, List.mapM_cons, waitingJob_run nonempty.1, ih nonempty.2]
      rfl

/-- No two of them have one text. -/
theorem longQueue_texts {ids : List String} (distinct : ids.Nodup) :
    JsMap.lastOfEach dedupeKey (inRetention {} (ids.map waitingRun)) = ids.map waitingRun := by
  have recent : inRetention {} (ids.map waitingRun) = ids.map waitingRun := List.filter_eq_self.mpr fun _ _ => rfl
  rw [recent]
  apply JsMap.lastOfEach_of_nodup
  rw [List.map_map]
  refine List.Nodup.map_on (fun a _ b _ same => ?_) distinct
  have texts : joined ("mail", a, 1000) = joined ("mail", b, 1000) := same
  cases joined_eq_iff.mp texts with
  | inl eq => exact (Prod.mk.inj (Prod.mk.inj eq).2).1
  | inr ambiguous =>
      have plain : '-' ∉ "mail".toList := by decide
      exact absurd ambiguous (not_ambiguous ⟨plain, plain⟩ ⟨Int.natCast_nonneg 1000, Int.natCast_nonneg 1000⟩)

theorem definedColumns_le (run : JobRunInsert J) : definedColumns run ≤ 21 :=
  Nat.add_le_add_left (List.count_le_length (a := true)) 3

theorem fits_one_job :
    ((waitingQueue ["1"] none).reconcileQueue "mail" visitMail .empty).StatementsFit fun _ => 0 := by
  refine (BullQueue.bindParameters_iff definedColumns_le .empty).mpr fun runs retained => ?_
  obtain rfl : [mailRun .waiting none] = runs := Option.some.inj retained
  exact BullQueue.fits_of_few definedColumns_le (by decide)

/-- So many jobs that no statement for all of them fits. -/
def manyIds : List String := (List.range 10923).map Nat.repr

theorem long_queue_overflows :
    ¬ ∀ (queue : BullQueue Unit) (queueName : String) (c : VisitContext Unit) (t : JobRunsTable Unit)
      (nulls : JobRunInsert Unit → Nat), (∀ run, definedColumns run + nulls run ≤ 21) → c.Selects queueName →
      (queue.reconcileQueue queueName c t).StatementsFit nulls := by
  intro all
  have distinct : manyIds.Nodup := List.Nodup.map (fun _ _ => Nat.repr_injective) List.nodup_range
  have named : "" ∉ manyIds := by
    intro h
    obtain ⟨i, -, empty⟩ := List.mem_map.mp h
    exact Nat.repr_ne_empty empty
  have retained : (longQueue manyIds).retainedRuns "mail" visitMail.pageSize = some (manyIds.map waitingRun) :=
    longQueue_retainedRuns distinct named (by decide)
  have rows : (insertValues {} (manyIds.map waitingRun)).length = 10923 := by
    rw [(insertValues_perm {} _).length_eq, longQueue_texts distinct, List.length_map, manyIds, List.length_map,
      List.length_range]
  have statement := BullQueue.mem_statements retained (c := visitMail)
    (List.ne_nil_of_length_pos (rows ▸ Nat.zero_lt_succ _)) .empty
  exact BullQueue.not_fits_of_many retained (fun _ h => (mem_insertValues h).1) (Nat.le_of_eq rows.symm)
    (all _ "mail" visitMail .empty (fun _ => 0) definedColumns_le visitMail_selects _ statement)

end BetterBullBoard
