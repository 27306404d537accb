import BetterBullBoard.Job.NothingLost

/-! # What a purge removes stays away

A call of `upsertJobRuns` leaves out what is expired when it starts. So after a
purge only calls that had started before can bring an expired run back, and such a
row stays until the next purge.
-/

namespace BetterBullBoard

variable {J : Type}

/-- The runs a consumer has read and not written yet. -/
def JobConsumer.read : JobConsumer J → List (JobRunInsert J)
  | .ackInvalid _ valid | .delInvalid _ valid | .upsert valid => valid.map (·.2)
  | _ => []

/-- The rows of the statement that a consumer sends next. -/
def JobConsumer.values : JobConsumer J → List (JobRunInsert J)
  | .insert values _ => values
  | _ => []

namespace JobSystem

/-- A statement for this run is about to be sent. -/
def InFlight (s : JobSystem J) (target : Option (String × String × Int)) : Prop :=
  ∃ i, ∃ run ∈ (s.consumers i).values ++ s.reconcilers i, run.target = target

/-- Rows and runs on their way to the table that are older than a date are among
    these. -/
structure Purged (autoDeletePostgresData : Option Int) (deleteDate : Int)
    (among : Option (String × String × Int) → Prop) (s : JobSystem J) : Prop where
  rows : ∀ row ∈ s.runs.rows, row.createdAt < deleteDate → among row.target
  read : ∀ i, Sent (s.consumers i).read
  consumers : ∀ i, ∀ run ∈ (s.consumers i).values, ∃ time, run.SentAt time ∧ (time < deleteDate → among run.target)
  reconcilers : ∀ i, ∀ run ∈ s.reconcilers i, ∃ time, run.SentAt time ∧ (time < deleteDate → among run.target)
  purges : ∀ i, (s.purges i).isSome → (truthyNumber autoDeletePostgresData).isSome

variable {parseJobSyncEvent : String → Option (JobSyncEvent J)} {autoDeletePostgresData : Option Int}
  {localeCompare : String → String → Ordering} {deleteDate : Int} {among : Option (String × String × Int) → Prop}
  {s s' : JobSystem J}

namespace Purged

theorem setGroup (h : Purged autoDeletePostgresData deleteDate among s) (group : Group) :
    Purged autoDeletePostgresData deleteDate among { s with group } :=
  ⟨h.rows, h.read, h.consumers, h.reconcilers, h.purges⟩

theorem setRuns (h : Purged autoDeletePostgresData deleteDate among s) {runs : JobRunsTable J}
    (rows : ∀ row ∈ runs.rows, row.createdAt < deleteDate → among row.target) :
    Purged autoDeletePostgresData deleteDate among { s with runs } :=
  ⟨rows, h.read, h.consumers, h.reconcilers, h.purges⟩

theorem setConsumer (h : Purged autoDeletePostgresData deleteDate among s) (i : Nat) {c : JobConsumer J}
    (read : Sent c.read)
    (values : ∀ run ∈ c.values, ∃ time, run.SentAt time ∧ (time < deleteDate → among run.target)) :
    Purged autoDeletePostgresData deleteDate among (s.setConsumer i c) where
  rows := h.rows
  read := (Function.forall_update_iff s.consumers fun _ c => Sent c.read).mpr ⟨read, fun j _ => h.read j⟩
  consumers := (Function.forall_update_iff s.consumers fun _ c =>
    ∀ run ∈ c.values, ∃ time, run.SentAt time ∧ (time < deleteDate → among run.target)).mpr
      ⟨values, fun j _ => h.consumers j⟩
  reconcilers := h.reconcilers
  purges := h.purges

/-- A consumer that read nothing and sends nothing. -/
theorem setDone (h : Purged autoDeletePostgresData deleteDate among s) (i : Nat) {c : JobConsumer J}
    (read : c.read = []) (values : c.values = []) :
    Purged autoDeletePostgresData deleteDate among (s.setConsumer i c) :=
  h.setConsumer i (by simp [read, Sent]) (by simp [values])

theorem setReconciler (h : Purged autoDeletePostgresData deleteDate among s) (i : Nat)
    {values : List (JobRunInsert J)}
    (sent : ∀ run ∈ values, ∃ time, run.SentAt time ∧ (time < deleteDate → among run.target)) :
    Purged autoDeletePostgresData deleteDate among (s.setReconciler i values) where
  rows := h.rows
  read := h.read
  consumers := h.consumers
  reconcilers := (Function.forall_update_iff s.reconcilers fun _ values =>
    ∀ run ∈ values, ∃ time, run.SentAt time ∧ (time < deleteDate → among run.target)).mpr
      ⟨sent, fun j _ => h.reconcilers j⟩
  purges := h.purges

theorem setPurge (h : Purged autoDeletePostgresData deleteDate among s) (i : Nat) {d : Option Int}
    (configured : d.isSome → (truthyNumber autoDeletePostgresData).isSome) :
    Purged autoDeletePostgresData deleteDate among (s.setPurge i d) where
  rows := h.rows
  read := h.read
  consumers := h.consumers
  reconcilers := h.reconcilers
  purges := (Function.forall_update_iff s.purges fun _ (d : Option Int) =>
    d.isSome → (truthyNumber autoDeletePostgresData).isSome).mpr ⟨configured, fun j _ => h.purges j⟩

theorem update (h : Purged autoDeletePostgresData deleteDate among s) {wher : JobRun J → Bool}
    {set : JobRun J → JobRun J} {sameId : ∀ r, (set r).id = r.id} {sameTarget : ∀ r, (set r).target = r.target}
    (sameDate : ∀ r, (set r).createdAt = r.createdAt) :
    Purged autoDeletePostgresData deleteDate among { s with runs := s.runs.update wher set sameId sameTarget } := by
  refine h.setRuns fun row hrow old => ?_
  obtain ⟨row, member, rfl⟩ := List.mem_map.mp hrow
  split at old
  · rename_i changed
    rw [if_pos changed, sameTarget]
    exact h.rows row member (sameDate row ▸ old)
  · rename_i same
    rw [if_neg same]
    exact h.rows row member old

theorem startProcessing_sent {messages : List StreamMessage} :
    Sent (startProcessing parseJobSyncEvent messages).read ∧
      (startProcessing parseJobSyncEvent messages).values = [] := by
  have sent : Sent ((messages.filterMap (validRun parseJobSyncEvent)).map (·.2)) := by
    intro run hrun
    obtain ⟨v, hv, rfl⟩ := List.mem_map.mp hrun
    obtain ⟨m, -, decoded⟩ := List.mem_filterMap.mp hv
    exact (validRun_sentAt decoded).2
  unfold startProcessing
  dsimp only
  split
  · exact ⟨sent, rfl⟩
  · split
    · exact ⟨by simp [JobConsumer.read, Sent], rfl⟩
    · exact ⟨sent, rfl⟩

variable [DecidableEq J]

theorem insertRuns (h : Purged autoDeletePostgresData deleteDate among s) {values : List (JobRunInsert J)}
    (sent : ∀ run ∈ values, ∃ time, run.SentAt time ∧ (time < deleteDate → among run.target)) (ctx : UpsertContext) :
    Purged autoDeletePostgresData deleteDate among
      { s with runs := (JobRunsTable.insertOnConflict ctx values s.runs).1 } := by
  refine h.setRuns fun row hrow old => ?_
  cases JobRunsTable.insertOnConflict_rows hrow with
  | inl before => exact h.rows row before old
  | inr written =>
      obtain ⟨run, member, target, createdAt⟩ := written
      obtain ⟨time, timed, listed⟩ := sent run member
      rw [timed.2, Option.getD_some] at createdAt
      exact target ▸ listed (createdAt ▸ old)

/-- A call that starts now leaves out what is older than the date, or it is among these. -/
def Late (localeCompare : String → String → Ordering) (autoDeletePostgresData : Option Int) (deleteDate : Int)
    (among : Option (String × String × Int) → Prop) (dateNow : Int) : Prop :=
  ∀ (run : JobRunInsert J) time, run.SentAt time →
    isWithinRetention run (getRetentionCutoff (context autoDeletePostgresData localeCompare dateNow 0)) →
    time < deleteDate → among run.target

omit [DecidableEq J] in
theorem Late.values {dateNow : Int}
    (late : Late (J := J) localeCompare autoDeletePostgresData deleteDate among dateNow) {runs : List (JobRunInsert J)}
    (sent : Sent runs) : ∀ run ∈ insertValues (context autoDeletePostgresData localeCompare dateNow 0) runs,
      ∃ time, run.SentAt time ∧ (time < deleteDate → among run.target) := by
  intro run hrun
  obtain ⟨member, retained⟩ := mem_insertValues hrun
  obtain ⟨time, timed⟩ := sent run member
  exact ⟨time, timed, late run time timed retained⟩

theorem upsert (h : Purged autoDeletePostgresData deleteDate among s) {i : Nat} {dateNow : Int}
    (late : Late (J := J) localeCompare autoDeletePostgresData deleteDate among dateNow)
    (stepped : JobSystem.step parseJobSyncEvent autoDeletePostgresData localeCompare s (.upsert i dateNow) = some s') :
    Purged autoDeletePostgresData deleteDate among s' := by
  have sent := h.read i
  simp only [JobSystem.step] at stepped
  split at stepped
  · rename_i valid stands
    obtain rfl := Option.some.inj stepped
    rw [stands] at sent
    split
    · exact h.setDone i rfl rfl
    · exact h.setConsumer i (by simp [JobConsumer.read, Sent]) (late.values sent)
  · cases stepped

theorem consumerStep (h : Purged autoDeletePostgresData deleteDate among s) {i : Nat} {currentTimestamp : Int}
    (stepped : consumerStep autoDeletePostgresData localeCompare s i currentTimestamp (s.consumers i) = some s') :
    Purged autoDeletePostgresData deleteDate among s' := by
  have sent := h.read i
  have values := h.consumers i
  generalize s.consumers i = c at stepped sent values
  cases c with
  | idle => cases stepped
  | upsert valid => cases stepped
  | ackInvalid ids valid =>
      obtain rfl := Option.some.inj stepped
      exact (h.setGroup _).setConsumer i sent (by simp [JobConsumer.values])
  | delInvalid ids valid =>
      obtain rfl := Option.some.inj stepped
      split
      · exact (h.setGroup _).setDone i rfl rfl
      · exact (h.setGroup _).setConsumer i sent (by simp [JobConsumer.values])
  | insert rows ids =>
      obtain rfl := Option.some.inj stepped
      exact (h.insertRuns values _).setDone i rfl rfl
  | ack ids =>
      obtain rfl := Option.some.inj stepped
      exact (h.setGroup _).setDone i rfl rfl
  | del ids =>
      obtain rfl := Option.some.inj stepped
      exact (h.setGroup _).setDone i rfl rfl

theorem reconcile (h : Purged autoDeletePostgresData deleteDate among s) {i : Nat} {dateNow : Int} {queueName : String}
    {jobs : List (BullJob J)} (late : Late (J := J) localeCompare autoDeletePostgresData deleteDate among dateNow)
    (stepped : JobSystem.step parseJobSyncEvent autoDeletePostgresData localeCompare s
      (.reconcile i dateNow queueName jobs) = some s') : Purged autoDeletePostgresData deleteDate among s' := by
  obtain ⟨-, stepped⟩ := Option.ite_none_right_eq_some.mp stepped
  split at stepped
  · obtain rfl := Option.some.inj stepped
    exact h
  · rename_i runs formatted
    obtain rfl := Option.some.inj stepped
    exact h.setReconciler i (late.values (snapshotRun_sentAt formatted))

theorem clearData (h : Purged autoDeletePostgresData deleteDate among s) {i : Nat} {dateNow : Int}
    (stepped : JobSystem.step parseJobSyncEvent autoDeletePostgresData localeCompare s (.clearData i dateNow) =
      some s') : Purged autoDeletePostgresData deleteDate among s' := by
  simp only [JobSystem.step] at stepped
  split at stepped
  · cases stepped
  · rename_i retention configured
    obtain rfl := Option.some.inj stepped
    exact h.setPurge i fun _ => by rw [configured]; rfl

theorem deleteData (h : Purged autoDeletePostgresData deleteDate among s) {i : Nat}
    (stepped : JobSystem.step parseJobSyncEvent autoDeletePostgresData localeCompare s (.deleteData i) = some s') :
    Purged autoDeletePostgresData deleteDate among s' := by
  simp only [JobSystem.step] at stepped
  split at stepped
  · cases stepped
  · obtain rfl := Option.some.inj stepped
    exact (h.setRuns fun row hrow => h.rows row (List.mem_filter.mp hrow).1).setPurge i (by simp)

/-- The step keeps it if calls that start leave out what is older. -/
theorem step {a : JobAction J} (h : Purged autoDeletePostgresData deleteDate among s)
    (late : ∀ dateNow ∈ a.reading, Late (J := J) localeCompare autoDeletePostgresData deleteDate among dateNow)
    (stepped : JobSystem.step parseJobSyncEvent autoDeletePostgresData localeCompare s a = some s') :
    Purged autoDeletePostgresData deleteDate among s' := by
  cases a with
  | append m =>
      obtain ⟨-, ⟨⟩⟩ := Option.ite_none_right_eq_some.mp stepped
      exact ⟨h.rows, h.read, h.consumers, h.reconcilers, h.purges⟩
  | readNew i count =>
      obtain ⟨-, ⟨⟩⟩ := Option.ite_none_right_eq_some.mp stepped
      exact (h.setGroup _).setConsumer i startProcessing_sent.1 (by simp [startProcessing_sent.2])
  | claim i ids =>
      obtain ⟨-, ⟨⟩⟩ := Option.ite_none_right_eq_some.mp stepped
      exact h.setConsumer i startProcessing_sent.1 (by simp [startProcessing_sent.2])
  | upsert i dateNow => exact h.upsert (late dateNow rfl) stepped
  | consumer i currentTimestamp => exact h.consumerStep stepped
  | consumerStops i =>
      obtain rfl := Option.some.inj stepped
      exact h.setDone i rfl rfl
  | delConsumer held =>
      obtain rfl := Option.some.inj stepped
      exact h.setGroup _
  | reconcile i dateNow queueName jobs => exact h.reconcile (late dateNow rfl) stepped
  | reconciler i currentTimestamp =>
      obtain rfl := Option.some.inj stepped
      exact (h.insertRuns (h.reconcilers i) _).setReconciler i (by simp)
  | reconcilerStops i =>
      obtain rfl := Option.some.inj stepped
      exact h.setReconciler i (by simp)
  | markUnknown id =>
      obtain rfl := Option.some.inj stepped
      exact h.update fun _ => rfl
  | markCancelled jobId queue =>
      obtain rfl := Option.some.inj stepped
      exact h.update fun _ => rfl
  | clearData i dateNow => exact h.clearData stepped
  | deleteData i => exact h.deleteData stepped
  | clearDataStops i =>
      obtain rfl := Option.some.inj stepped
      exact h.setPurge i (by simp)

end Purged

theorem start_purged (runs : JobRunsTable J) :
    Purged autoDeletePostgresData deleteDate (fun _ => True) (start runs) where
  rows _ _ _ := trivial
  read _ := by simp [start, JobConsumer.read, Sent]
  consumers _ := by simp [start, JobConsumer.values]
  reconcilers _ := by simp [start]
  purges _ := by simp [start]

/-- A call that starts when the cutoff has reached a date leaves out what is older. -/
theorem not_before {retention dateNow time : Int} {run : JobRunInsert J}
    (configured : truthyNumber autoDeletePostgresData = some retention) (since : 0 < deleteDate)
    (reached : deleteDate ≤ dateNow - retention) (sent : run.SentAt time)
    (retained : isWithinRetention run
      (getRetentionCutoff (context autoDeletePostgresData localeCompare dateNow 0))) : deleteDate ≤ time := by
  have cutoff : getRetentionCutoff (context autoDeletePostgresData localeCompare dateNow 0) =
      some (dateNow - retention) := by
    rw [getRetentionCutoff, context, configured]
    rfl
  have truthy : truthyNumber (some (dateNow - retention)) = some (dateNow - retention) := by
    unfold truthyNumber
    split
    · rename_i zero
      have := Option.some.inj zero
      omega
    · rfl
  rw [cutoff, isWithinRetention, truthy] at retained
  simp only [getRunTimestamp, sent.2, Option.some_or, Option.all_some, decide_eq_true_eq] at retained
  omega

variable [DecidableEq J] {t : JobSystem J}

/-- After a purge, with later readings of the clock no earlier than its own, an older
    row is one of a call that had started before. -/
theorem purged_stays_away {runs : JobRunsTable J}
    {before after : List (Machine.Transition (JobSystem J) (JobAction J))}
    {x : Machine.Transition (JobSystem J) (JobAction J)} {i : Nat}
    (run : Machine.Run (step parseJobSyncEvent autoDeletePostgresData localeCompare) (start runs)
      (before ++ x :: after) t)
    (purge : x.act = .deleteData i) (sends : x.pre.purges i = some deleteDate) (since : 0 < deleteDate)
    (later : ∀ y ∈ after, ∀ dateNow ∈ y.act.reading, ∀ retention ∈ truthyNumber autoDeletePostgresData,
      deleteDate ≤ dateNow - retention) :
    ∀ row ∈ t.runs.rows, row.createdAt < deleteDate → x.post.InFlight row.target := by
  obtain ⟨s, first, rest⟩ := run.split
  cases rest with
  | @next _ a s' _ _ stepped rest =>
      subst purge
      have pre : Purged autoDeletePostgresData deleteDate (fun _ => True) s :=
        first.invariant (fun _ _ _ h stepped => h.step (fun _ _ _ _ _ _ _ => trivial) stepped) (start_purged runs)
      obtain ⟨retention, configured⟩ := Option.isSome_iff_exists.mp (pre.purges i (by rw [sends]; rfl))
      have deleted : s' = { s with runs := s.runs.deleteCreatedBefore deleteDate }.setPurge i none := by
        simp only [step] at stepped
        rw [sends] at stepped
        exact (Option.some.inj stepped).symm
      have post : Purged autoDeletePostgresData deleteDate s'.InFlight s' := by
        subst deleted
        refine ⟨fun row hrow old => ?_, pre.read, fun j run hrun => ?_, fun j run hrun => ?_, ?_⟩
        · have young := (List.mem_filter.mp hrow).2
          simp [old] at young
        · obtain ⟨time, sent, -⟩ := pre.consumers j run hrun
          exact ⟨time, sent, fun _ => ⟨j, run, List.mem_append_left _ hrun, rfl⟩⟩
        · obtain ⟨time, sent, -⟩ := pre.reconcilers j run hrun
          exact ⟨time, sent, fun _ => ⟨j, run, List.mem_append_right _ hrun, rfl⟩⟩
        · exact (pre.setPurge i (d := none) (by simp)).purges
      have kept := rest.guarded (I := Purged autoDeletePostgresData deleteDate s'.InFlight)
        (G := fun _ a => ∀ dateNow ∈ a.reading, ∀ retention ∈ truthyNumber autoDeletePostgresData,
          deleteDate ≤ dateNow - retention)
        (fun _ _ _ h guard stepped => h.step (fun dateNow reading run time sent retained old =>
          absurd old (Int.not_lt.mpr
            (not_before configured since (guard dateNow reading retention configured) sent retained)))
          stepped) post later
      exact (kept t rest.last_mem).rows

/-- The consumer's statement is sent after the purge that its call started before. -/
def lateStatement : List (JobAction Unit) :=
  [.append ⟨1, ["payload", sentPayload "1" "1000"]⟩, .readNew 0 10, .upsert 0 1400, .clearData 0 1600, .deleteData 0,
    .consumer 0 0, .clearData 0 1700]

set_option maxRecDepth 10000 in
theorem purged_stays_away_late : ∃ (x : Machine.Transition (JobSystem Unit) (JobAction Unit)) (t : JobSystem Unit),
    x.post.runs.rows = [] ∧ t.runs.rows.map (·.createdAt) = [1000] ∧
      ∀ row ∈ t.runs.rows, row.createdAt < 1100 → x.post.InFlight row.target := by
  have performed : Machine.perform (step parseSent (some 500) compare) (start .empty) lateStatement = some _ := rfl
  have run : Machine.Run (step parseSent (some 500) compare) (start .empty) ([_, _, _, _] ++ _ :: [_, _]) _ :=
    Machine.perform_run performed
  exact ⟨_, _, rfl, rfl, purged_stays_away run rfl rfl (by decide) (by decide)⟩

end JobSystem

end BetterBullBoard
