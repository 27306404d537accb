import BetterBullBoard.Lib.LockOrder
import BetterBullBoard.Job.ConflictTargets
import BetterBullBoard.Logs.Persist

/-! # The row locks of two kinds of statements

An upsert locks each row of `job_runs` it writes or conflicts with, in the order
of its values; it assigns columns of a unique index, so the lock excludes the key
share that an inserted log takes on its parent, in the order of the chunk. A log
whose line is already stored takes none.
-/

namespace BetterBullBoard

variable {J : Type}

inductive RunLock where
  | forUpdate | forKeyShare
  deriving Repr, DecidableEq

/-- Only key shares go together. -/
def RunLock.Conflicts : RunLock → RunLock → Prop
  | .forKeyShare, .forKeyShare => False
  | _, _ => True

/-- The order of runs that both sorts refine. -/
def compareTargets (localeCompare : String → String → Ordering) (a b : String × String × Int) : Ordering :=
  (localeCompare a.1 b.1).then <| (localeCompare a.2.1 b.2.1).then <| compare a.2.2 b.2.2

def JobRunsTable.parent (t : JobRunsTable J) (e : ResolvedLogEvent) : Option (String × String × Int) :=
  (t.rows.find? fun r => r.id = e.jobRunId).bind (·.target)

/-- The locks on `job_runs` of a statement of either function, in order. A row
    keeps its id and its target, so a parent is told by the table that resolved
    it. -/
inductive RunLocks (J : Type) (localeCompare : String → String → Ordering) :
    List ((String × String × Int) × RunLock) → Prop where
  | upsertJobRuns {ctx : UpsertContext} {runs : List (JobRunInsert J)} : ctx.localeCompare = localeCompare →
      (∀ run ∈ runs, ∃ moment, run.enqueuedAt = .value moment) →
      RunLocks J localeCompare ((insertValues ctx runs).filterMap fun run => run.target.map (·, .forUpdate))
  | insertResolvedLogs {t : JobRunsTable J} {events chunk inserted : List ResolvedLogEvent} :
      (∀ e ∈ events, OwnRun t e) → chunk ∈ insertChunks localeCompare events → inserted.Sublist chunk →
      RunLocks J localeCompare (inserted.filterMap fun e => (t.parent e).map (·, .forKeyShare))

/-- What stands before the log's own time and counter is the order of its run. -/
theorem compareLogs_eq (localeCompare : String → String → Ordering) (a b : ResolvedLogEvent) :
    compareLogs localeCompare a b = (compareTargets localeCompare a.identity.run b.identity.run).then
      ((compare a.logTimestamp b.logTimestamp).then (compare a.logSeq b.logSeq)) := by
  simp only [compareLogs, compareTargets, LogIdentity.run, LogEventForPersistence.identity, Ordering.then_assoc]

/-- The columns the upsert sorts by. -/
def runKey (run : JobRunInsert J) : String × String × Int := (run.queue, run.jobId, run.enqueuedAt.toOption.getD 0)

theorem runKey_of_target {run : JobRunInsert J} {k : String × String × Int} (target : run.target = some k) :
    runKey run = k := by
  obtain ⟨moment, given, rfl⟩ := Option.map_eq_some_iff.mp target
  simp only [runKey, given, Option.getD_some]

theorem parent_of_ownRun {t : JobRunsTable J} {e : ResolvedLogEvent} (own : OwnRun t e) :
    t.parent e = some e.identity.run := by
  obtain ⟨run, member, id, target⟩ := own
  cases found : t.rows.find? fun r => r.id = e.jobRunId with
  | none => exact absurd (List.find?_eq_none.mp found run member) (by simp [id])
  | some r =>
      have same : r.id = e.jobRunId := by simpa using List.find?_some found
      rw [JobRunsTable.parent, found, t.eq_of_id (List.mem_of_find?_eq_some found) member (same.trans id.symm)]
      exact target

section

open Std Ordering

variable {localeCompare : String → String → Ordering} [TransCmp localeCompare]

instance : TransCmp (compareTargets localeCompare) :=
  inferInstanceAs (TransCmp (compareLex (byKey Prod.fst localeCompare)
    (compareLex (byKey (fun k : String × String × Int => k.2.1) localeCompare)
      (compareOn fun k : String × String × Int => k.2.2))))

instance : TransCmp (compareRuns localeCompare : JobRunInsert J → JobRunInsert J → Ordering) :=
  inferInstanceAs (TransCmp (byKey runKey (compareTargets localeCompare)))

instance : TransCmp (compareLogs localeCompare) := by
  have same : compareLogs localeCompare = compareLex (byKey (·.identity.run) (compareTargets localeCompare))
      (compareLex (compareOn (·.logTimestamp)) (compareOn (·.logSeq))) := by
    funext a b
    exact compareLogs_eq localeCompare a b
  rw [same]
  infer_instance

instance [LawfulEqCmp localeCompare] : LawfulEqCmp (compareTargets localeCompare) where
  eq_of_compare same := by
    simp only [compareTargets, then_eq_eq, LawfulEqCmp.compare_eq_iff_eq] at same
    exact Prod.ext same.1 (Prod.ext same.2.1 same.2.2)

/-- One run is before another. -/
def Earlier (localeCompare : String → String → Ordering) (a b : String × String × Int) : Prop :=
  compareTargets localeCompare a b = .lt

instance : IsStrictOrder (String × String × Int) (Earlier localeCompare) where
  irrefl a less := by
    have same : compareTargets localeCompare a a = .eq := ReflCmp.compare_self
    cases same.symm.trans less
  trans _ _ _ := TransCmp.lt_trans

/-- A stable sort by a comparison. -/
theorem pairwise_sort {α : Type} (cmp : α → α → Ordering) [TransCmp cmp] (l : List α) :
    (l.insertionSort fun a b => cmp a b ≠ .gt).Pairwise fun a b => (cmp a b).isLE := by
  have total : Std.Total fun a b => cmp a b ≠ .gt := ⟨fun a b => by
    have swapped : cmp b a = (cmp a b).swap := OrientedCmp.eq_swap
    rw [swapped]
    cases cmp a b <;> simp⟩
  have trans : IsTrans α fun a b => cmp a b ≠ .gt := ⟨fun a b c => by
    simp only [ne_eq, ← isLE_iff_ne_gt]
    exact TransCmp.isLE_trans⟩
  exact (List.pairwise_insertionSort _ l).imp isLE_iff_ne_gt.mpr

/-- Both kinds of statements take their locks in the one order of runs. -/
theorem RunLocks.inOrder [LawfulEqCmp localeCompare] {locks : List ((String × String × Int) × RunLock)}
    (statement : RunLocks J localeCompare locks) : LockOrder.InOrder (Earlier localeCompare) locks := by
  cases statement with
  | @upsertJobRuns ctx runs same enqueued =>
      subst same
      have sorted := pairwise_sort (compareRuns ctx.localeCompare) (dedupe (getRetentionCutoff ctx) runs)
      have distinct : (insertValues ctx runs).Pairwise fun a b => a.target ≠ b.target :=
        List.pairwise_map.mp (nodup_targets enqueued)
      apply List.pairwise_filterMap.mpr
      refine (sorted.and distinct).imp ?_
      rintro a b ⟨le, differ⟩ x hx y hy
      obtain ⟨k, hk, rfl⟩ := Option.map_eq_some_iff.mp hx
      obtain ⟨l, hl, rfl⟩ := Option.map_eq_some_iff.mp hy
      have compared : (compareTargets ctx.localeCompare k l).isLE := by
        rwa [← runKey_of_target hk, ← runKey_of_target hl]
      have apart : compareTargets ctx.localeCompare k l ≠ .eq := by
        intro same
        rw [hk, hl, LawfulEqCmp.compare_eq_iff_eq.mp same] at differ
        exact differ rfl
      exact .inl (isLE_iff_eq_lt_or_eq_eq.mp compared |>.resolve_right apart)
  | @insertResolvedLogs t events chunk inserted own slice sub =>
      have sorted : inserted.Pairwise fun a b => (compareLogs localeCompare a b).isLE := by
        refine (pairwise_sort (compareLogs localeCompare) events).sublist (sub.trans ?_)
        have whole := Slices.flatten_slices (show 0 < 500 by decide)
          (events.insertionSort fun a b => compareLogs localeCompare a b ≠ .gt)
        exact whole ▸ List.sublist_flatten_of_mem slice
      have owned : ∀ e ∈ inserted, OwnRun t e := fun e member =>
        own e (mem_insertChunks.mp (List.mem_flatten_of_mem slice (sub.subset member)))
      apply List.pairwise_filterMap.mpr
      refine sorted.imp_of_mem ?_
      intro a b ha hb le x hx y hy
      rw [parent_of_ownRun (owned a ha), Option.map_some, Option.some.injEq] at hx
      rw [parent_of_ownRun (owned b hb), Option.map_some, Option.some.injEq] at hy
      subst hx hy
      rw [compareLogs_eq] at le
      rcases isLE_iff_eq_lt_or_eq_eq.mp (isLE_left_of_isLE_then le) with less | same
      · exact .inl less
      · exact .inr (Prod.ext (LawfulEqCmp.compare_eq_iff_eq.mp same) rfl)

/-- The order is total, every statement keeps to it, and so the statements of any
    number of sessions never wait for each other's rows in a circle. -/
theorem no_run_lock_cycle [LawfulEqCmp localeCompare] :
    IsStrictTotalOrder (String × String × Int) (Earlier localeCompare) ∧
      (∀ locks, RunLocks J localeCompare locks → LockOrder.InOrder (Earlier localeCompare) locks) ∧
      ∀ (ι : Type) [DecidableEq ι] (s : ι → LockOrder.Session (String × String × Int) RunLock),
        LockOrder.Reachable RunLock.Conflicts (RunLocks J localeCompare) s →
          ¬ LockOrder.Deadlock RunLock.Conflicts s := by
  refine ⟨{ trichotomous := fun a b before after => ?_ }, fun locks => RunLocks.inOrder, fun ι _ s reachable => ?_⟩
  · have swapped : compareTargets localeCompare b a = (compareTargets localeCompare a b).swap := OrientedCmp.eq_swap
    cases compared : compareTargets localeCompare a b with
    | lt => exact absurd compared before
    | eq => exact LawfulEqCmp.compare_eq_iff_eq.mp compared
    | gt => exact absurd (by rw [Earlier, swapped, compared]; rfl) after
  · exact LockOrder.no_deadlock (r := Earlier localeCompare) (fun locks => RunLocks.inOrder) reachable

end

/-- The events of `insertResolvedLogs` carry the ids of their own runs. -/
theorem ownRun_of_resolved {t : JobRunsTable J} {events : List LogEventForPersistence}
    (plain : ∀ e ∈ events, PlainQueue e) :
    ∀ e ∈ resolved (resolveJobRunIds t events) events, OwnRun t e :=
  fun _ member => ((mem_resolved plain).mp member).2

/-- A line of job 1 of `mail`. -/
def mailLine : LogEventForPersistence :=
  { id := none, queue := "mail", jobId := "1", jobTimestamp := 1000, logTimestamp := 1500, logSeq := 0, level := .info,
    message := "sent" }

def mailLines : List ResolvedLogEvent := resolved (resolveJobRunIds mailTable [mailLine]) [mailLine]

/-- The upsert of a job has its row, and the line of the job waits for it. -/
theorem line_waits_for_upsert : ∃ s : Bool → LockOrder.Session (String × String × Int) RunLock,
    LockOrder.Waits RunLock.Conflicts s true false ∧ ¬ LockOrder.Deadlock RunLock.Conflicts s := by
  have upsert : RunLocks Unit compare [(("mail", "1", 1000), .forUpdate)] :=
    @RunLocks.upsertJobRuns Unit compare {} [mailRun .completed (some 2000)] rfl (by simp [mailRun])
  have line : RunLocks Unit compare [(("mail", "1", 1000), .forKeyShare)] :=
    @RunLocks.insertResolvedLogs Unit compare mailTable mailLines mailLines mailLines
      (ownRun_of_resolved (by decide)) (by decide) (List.Sublist.refl _)
  have started : LockOrder.Reachable RunLock.Conflicts (RunLocks Unit compare) fun _ : Bool => {} := .refl
  have reachable := started |>.tail (.start false rfl rfl upsert) |>.tail (.take false rfl (.inr (by simp)))
    |>.tail (.start true rfl rfl line)
  refine ⟨_, ?_, no_run_lock_cycle.2.2 Bool _ reachable⟩
  exact ⟨by decide, ("mail", "1", 1000), .forKeyShare, ⟨rfl, List.not_mem_nil⟩,
    .inl ⟨.forUpdate, List.mem_singleton_self _, trivial⟩⟩

end BetterBullBoard
