import BetterBullBoard.Job.ConflictTargets
import BetterBullBoard.Job.System

/-! # No job event is lost

A consumer acknowledges an event only after the statement that holds its run, or
that leaves it out as expired. A row leaves the table only by a purge, and what a
purge removes is expired. What is lost otherwise was held by a consumer that a
cleanup deleted.
-/

namespace BetterBullBoard

variable {J : Type}

/-- The run carries one time, twice, as formatting sets it. -/
def JobRunInsert.SentAt (run : JobRunInsert J) (time : Int) : Prop :=
  run.enqueuedAt = .value time ∧ run.createdAt = some time

theorem validRun_sentAt {parseJobSyncEvent : String → Option (JobSyncEvent J)} {m : StreamMessage}
    {v : Nat × JobRunInsert J} (valid : validRun parseJobSyncEvent m = some v) :
    v.1 = m.id ∧ ∃ time, v.2.SentAt time := by
  refine ⟨(validRun_some valid).1, ?_⟩
  unfold validRun at valid
  split at valid
  · cases valid
  · obtain ⟨event, -, formatted⟩ := Option.bind_eq_some_iff.mp valid
    obtain ⟨row, hrow, rfl⟩ := Option.map_eq_some_iff.mp formatted
    obtain ⟨-, -, enqueuedAt, createdAt, -⟩ := formatJobRun_some hrow
    exact ⟨_, enqueuedAt, createdAt⟩

theorem snapshotRun_sentAt {queueName : String} {jobs : List (BullJob J)} {runs : List (JobRunInsert J)}
    (formatted : jobs.mapM (snapshotRun queueName) = some runs) : ∀ run ∈ runs, ∃ time, run.SentAt time := by
  intro run member
  obtain ⟨job, -, made⟩ := BullQueue.mem_snapshotRuns formatted member
  obtain ⟨-, -, enqueuedAt, createdAt, -⟩ := formatJobRun_some made
  exact ⟨_, enqueuedAt, createdAt⟩

theorem JobRunInsert.SentAt.target {run : JobRunInsert J} {time : Int} (sent : run.SentAt time) :
    run.target = some (run.queue, run.jobId, time) := by
  rw [JobRunInsert.target, sent.1]
  rfl

/-- This is under the target of the run, with a status that lasts if that of the run
    does. -/
def JobRunInsert.StoodFor (lasting : JobStatus → Prop) (run : JobRunInsert J) (target : Option (String × String × Int))
    (status : JobStatus) : Prop :=
  target = run.target ∧ (lasting run.status → lasting status)

/-- Neither an upsert nor a cancellation ends a lasting status. -/
structure Lasts (lasting : JobStatus → Prop) : Prop where
  updated : ∀ stored written, lasting stored ∨ lasting written →
    lasting (if isTerminalStatus stored ∧ ¬ isTerminalStatus written then stored else written)
  cancelled : ∀ status, lasting status → lasting .failed

theorem lasts_none : Lasts fun _ => False where
  updated _ _ wrong := wrong.elim id id
  cancelled _ := id

theorem lasts_terminal : Lasts fun status => isTerminalStatus status = true where
  updated stored written ended := by
    split
    · rename_i kept
      exact kept.1
    · rename_i moved
      cases ended with
      | inr written => exact written
      | inl stored => simpa [stored] using moved
  cancelled _ _ := rfl

def JobRun.Dated (row : JobRun J) : Prop := row.enqueuedAt = some row.createdAt

theorem JobRun.Dated.createdAt {row : JobRun J} (dated : row.Dated) {run : JobRunInsert J} {time : Int}
    (sent : run.SentAt time) (same : row.target = run.target) : row.createdAt = time := by
  rw [sent.target, JobRun.target, dated] at same
  exact congrArg (·.2.2) (Option.some.inj same)

namespace JobRunsTable

variable [DecidableEq J] {ctx : UpsertContext} {values : List (JobRunInsert J)} {t : JobRunsTable J}

/-- What a statement leaves: old rows, and rows one of its runs was written to. -/
theorem insertOnConflict_rows {row : JobRun J} (hr : row ∈ (insertOnConflict ctx values t).1.rows) :
    row ∈ t.rows ∨ ∃ run ∈ values, row.target = run.target ∧
      row.createdAt = run.createdAt.getD ctx.currentTimestamp := by
  rw [insertOnConflict_table] at hr
  induction values generalizing t with
  | nil => exact .inl hr
  | cons run values ih =>
      cases ih hr with
      | inr later =>
          obtain ⟨run', member, written⟩ := later
          exact .inr ⟨run', List.mem_cons_of_mem _ member, written⟩
      | inl here =>
          rcases (UniqueIndex.mem_doUpdate t.unique).mp here with ⟨old, -⟩ | ⟨stored, -, -, rfl⟩ | ⟨rfl, -⟩
          · exact .inl old
          · refine .inr ⟨run, List.mem_cons_self, onConflict_target _ _, ?_⟩
            rw [onConflict_eq]
            rfl
          · exact .inr ⟨run, List.mem_cons_self, rfl, rfl⟩

theorem insertOnConflict_keeps {lasting : JobStatus → Prop} (lasts : Lasts lasting) (ctx : UpsertContext)
    (values : List (JobRunInsert J)) (t : JobRunsTable J) :
    Survives (fun a b => b.target = a.target ∧ (lasting a.status → lasting b.status)) t
      (insertOnConflict ctx values t).1 := by
  rw [insertOnConflict_table]
  induction values generalizing t with
  | nil => exact fun row hrow => ⟨row, hrow, rfl, id⟩
  | cons run values ih =>
      have first : Survives (fun a b : JobRun J => b.target = a.target ∧ (lasting a.status → lasting b.status)) t
          (t.upsertRow ctx run) := by
        refine upsertRow_survives (fun _ => ⟨rfl, id⟩) ctx t run fun old _ same _ => ?_
        refine ⟨by rw [onConflict_target, same], fun last => ?_⟩
        rw [onConflict_eq]
        exact lasts.updated _ _ (.inl last)
      exact first.trans (fun _ _ _ h h' => ⟨h'.1.trans h.1, h'.2 ∘ h.2⟩) (ih _)

theorem insertOnConflict_holds {lasting : JobStatus → Prop} (lasts : Lasts lasting) {run : JobRunInsert J}
    (member : run ∈ values) {time : Int} (sent : run.SentAt time) :
    ∃ row ∈ (insertOnConflict ctx values t).1.rows, run.StoodFor lasting row.target row.status := by
  induction values generalizing t with
  | nil => cases member
  | cons run' values ih =>
      cases List.mem_cons.mp member with
      | inr later => exact ih later
      | inl here =>
          subst here
          have held := rowAt_upsertRow ctx t sent.target
          have written : lasting run.status →
              lasting (mergeInto (t.rowAt (run.queue, run.jobId, time)) (excluded ctx t.nextId run)).status := by
            intro last
            unfold mergeInto
            split
            · exact last
            · rw [onConflict_eq]
              exact lasts.updated _ _ (.inr last)
          obtain ⟨row, hrow, same, kept⟩ := insertOnConflict_keeps lasts ctx values _ _ (rowAt_eq_some.mp held).1
          exact ⟨row, hrow, (same.trans (rowAt_eq_some.mp held).2).trans sent.target.symm, kept ∘ written⟩

end JobRunsTable

namespace JobSystem

section

variable (parseJobSyncEvent : String → Option (JobSyncEvent J)) (lasting : JobStatus → Prop) (expired : Int → Prop)
  (discarded : Nat → Prop)

/-- The run has a row, or is expired. -/
def Kept (s : JobSystem J) (run : JobRunInsert J) : Prop :=
  (∃ row ∈ s.runs.rows, run.StoodFor lasting row.target row.status) ∨ ∃ time, run.SentAt time ∧ expired time

/-- The run of the message, if it has one, is kept or is among those to be written. -/
def Covered (s : JobSystem J) (values : List (JobRunInsert J)) (m : StreamMessage) : Prop :=
  ∀ v, validRun parseJobSyncEvent m = some v → s.Kept lasting expired v.2 ∨
    ∃ run ∈ values, v.2.StoodFor lasting run.target run.status

def Read (s : JobSystem J) (valid : List (Nat × JobRunInsert J)) : Prop :=
  ∀ v ∈ valid, ∃ m ∈ s.history, validRun parseJobSyncEvent m = some v

def Sent (values : List (JobRunInsert J)) : Prop := ∀ run ∈ values, ∃ time, run.SentAt time

def Cleared (s : JobSystem J) (values : List (JobRunInsert J)) (ids : List Nat) : Prop :=
  Group.Cleared s.history (s.Covered parseJobSyncEvent lasting expired values) ids

/-- The message was done with, or a deleted consumer held it. -/
def Settled (s : JobSystem J) (m : StreamMessage) : Prop :=
  s.Covered parseJobSyncEvent lasting expired [] m ∨ discarded m.id

/-- What a consumer knows about the work it still holds. -/
def ConsumerOwes (s : JobSystem J) : JobConsumer J → Prop
  | .idle => True
  | .ackInvalid ids valid | .delInvalid ids valid =>
      s.Cleared parseJobSyncEvent lasting expired [] ids ∧ s.Read parseJobSyncEvent valid
  | .upsert valid => s.Read parseJobSyncEvent valid
  | .insert values ids => Sent values ∧ s.Cleared parseJobSyncEvent lasting expired values ids
  | .ack ids | .del ids => s.Cleared parseJobSyncEvent lasting expired [] ids

structure Inv (s : JobSystem J) : Prop where
  accounts : s.group.Accounts s.history (s.Settled parseJobSyncEvent lasting expired discarded)
  dated : ∀ row ∈ s.runs.rows, row.Dated
  consumers : ∀ i, s.ConsumerOwes parseJobSyncEvent lasting expired (s.consumers i)
  reconcilers : ∀ i, Sent (s.reconcilers i)
  purges : ∀ i, ∀ deleteDate ∈ s.purges i, ∀ time < deleteDate, expired time

end

/-- Nothing leaves the history, and a run stays kept. -/
structure Grows (lasting : JobStatus → Prop) (expired : Int → Prop) (s s' : JobSystem J) : Prop where
  history : ∀ m ∈ s.history, m ∈ s'.history
  kept : ∀ run time, run.SentAt time → s.Kept lasting expired run → s'.Kept lasting expired run

variable {parseJobSyncEvent : String → Option (JobSyncEvent J)} {lasting : JobStatus → Prop} {expired : Int → Prop}
  {discarded : Nat → Prop} {s s' : JobSystem J}

theorem Cleared.settled {ids : List Nat} (c : s.Cleared parseJobSyncEvent lasting expired [] ids) :
    Group.Cleared s.history (s.Settled parseJobSyncEvent lasting expired discarded) ids :=
  Group.Cleared.mono c (fun _ h => h) fun _ _ => .inl

namespace Grows

theorem of_same (history : s'.history = s.history) (runs : s'.runs = s.runs) : Grows lasting expired s s' where
  history := by simp [history]
  kept := by simp [Kept, runs]

/-- Rows that are only updated keep their targets, and statuses that last. -/
theorem of_survives (history : s'.history = s.history)
    (survive : JobRunsTable.Survives (fun a b => b.target = a.target ∧ (lasting a.status → lasting b.status))
      s.runs s'.runs) : Grows lasting expired s s' where
  history := by simp [history]
  kept := by
    intro run time _ kept
    refine kept.imp ?_ id
    rintro ⟨row, hrow, target, status⟩
    obtain ⟨row', hrow', same, kept⟩ := survive row hrow
    exact ⟨row', hrow', same.trans target, kept ∘ status⟩

/-- Runs that the step wrote need not be among those to be written any longer. -/
theorem cleared (g : Grows lasting expired s s') {values values' : List (JobRunInsert J)} {ids : List Nat}
    (paid : ∀ run time, run.SentAt time → (∃ run' ∈ values, run.StoodFor lasting run'.target run'.status) →
      s'.Kept lasting expired run ∨ ∃ run' ∈ values', run.StoodFor lasting run'.target run'.status)
    (c : s.Cleared parseJobSyncEvent lasting expired values ids) :
    s'.Cleared parseJobSyncEvent lasting expired values' ids := by
  refine Group.Cleared.mono c g.history fun m _ covered v valid => ?_
  obtain ⟨-, time, sent⟩ := validRun_sentAt valid
  cases covered v valid with
  | inl kept => exact .inl (g.kept v.2 time sent kept)
  | inr owed => exact paid v.2 time sent owed

theorem still (g : Grows lasting expired s s') {values : List (JobRunInsert J)} {ids : List Nat}
    (c : s.Cleared parseJobSyncEvent lasting expired values ids) :
    s'.Cleared parseJobSyncEvent lasting expired values ids :=
  g.cleared (fun _ _ _ owed => .inr owed) c

theorem read (g : Grows lasting expired s s') {valid : List (Nat × JobRunInsert J)}
    (h : s.Read parseJobSyncEvent valid) :
    s'.Read parseJobSyncEvent valid := by
  intro v hv
  obtain ⟨m, member, decoded⟩ := h v hv
  exact ⟨m, g.history m member, decoded⟩

theorem consumerOwes (g : Grows lasting expired s s') {c : JobConsumer J}
    (h : s.ConsumerOwes parseJobSyncEvent lasting expired c) :
    s'.ConsumerOwes parseJobSyncEvent lasting expired c := by
  cases c with
  | idle => trivial
  | ackInvalid ids valid => exact ⟨g.still h.1, g.read h.2⟩
  | delInvalid ids valid => exact ⟨g.still h.1, g.read h.2⟩
  | upsert valid => exact g.read h
  | insert values ids => exact ⟨h.1, g.still h.2⟩
  | ack ids => exact g.still h
  | del ids => exact g.still h

end Grows

/-- A step of no party keeps the invariant if runs stay kept. -/
theorem Inv.next (inv : s.Inv parseJobSyncEvent lasting expired discarded) (grows : Grows lasting expired s s')
    (accounts : s'.group.Accounts s'.history (s'.Settled parseJobSyncEvent lasting expired discarded))
    (dated : ∀ row ∈ s'.runs.rows, row.Dated) (consumers : s'.consumers = s.consumers)
    (reconcilers : s'.reconcilers = s.reconcilers) (purges : s'.purges = s.purges) :
    s'.Inv parseJobSyncEvent lasting expired discarded where
  accounts := accounts
  dated := dated
  consumers := fun i => consumers ▸ grows.consumerOwes (inv.consumers i)
  reconcilers := reconcilers ▸ inv.reconcilers
  purges := purges ▸ inv.purges

theorem Inv.setRuns (inv : s.Inv parseJobSyncEvent lasting expired discarded) {runs : JobRunsTable J}
    (kept : ∀ run time, run.SentAt time → s.Kept lasting expired run → Kept lasting expired { s with runs } run)
    (dated : ∀ row ∈ runs.rows, row.Dated) : { s with runs }.Inv parseJobSyncEvent lasting expired discarded := by
  refine inv.next ⟨fun _ h => h, kept⟩ (inv.accounts.mono fun m _ settled => ?_) dated rfl rfl rfl
  refine settled.imp (fun covered v valid => ?_) id
  obtain ⟨-, time, sent⟩ := validRun_sentAt valid
  exact (covered v valid).imp (kept v.2 time sent) id

theorem Inv.setGroup (inv : s.Inv parseJobSyncEvent lasting expired discarded) {group : Group}
    (accounts : group.Accounts s.history (s.Settled parseJobSyncEvent lasting expired discarded)) :
    { s with group }.Inv parseJobSyncEvent lasting expired discarded :=
  inv.next (.of_same rfl rfl) accounts inv.dated rfl rfl rfl

/-- A party may move to any point where it knows what it owes. -/
theorem Inv.setConsumer (inv : s.Inv parseJobSyncEvent lasting expired discarded) (i : Nat) {c : JobConsumer J}
    (owes : s.ConsumerOwes parseJobSyncEvent lasting expired c) :
    (s.setConsumer i c).Inv parseJobSyncEvent lasting expired discarded where
  accounts := inv.accounts
  dated := inv.dated
  consumers := by
    have grows : Grows lasting expired s (s.setConsumer i c) := .of_same rfl rfl
    exact (Function.forall_update_iff s.consumers fun _ c' =>
      (s.setConsumer i c).ConsumerOwes parseJobSyncEvent lasting expired c').mpr
        ⟨grows.consumerOwes owes, fun j _ => grows.consumerOwes (inv.consumers j)⟩
  reconcilers := inv.reconcilers
  purges := inv.purges

theorem Inv.setReconciler (inv : s.Inv parseJobSyncEvent lasting expired discarded) (i : Nat)
    {values : List (JobRunInsert J)} (sent : Sent values) :
    (s.setReconciler i values).Inv parseJobSyncEvent lasting expired discarded where
  accounts := inv.accounts
  dated := inv.dated
  consumers := fun j => Grows.consumerOwes (.of_same rfl rfl) (inv.consumers j)
  reconcilers := (Function.forall_update_iff s.reconcilers fun _ values => Sent values).mpr
    ⟨sent, fun j _ => inv.reconcilers j⟩
  purges := inv.purges

theorem Inv.setPurge (inv : s.Inv parseJobSyncEvent lasting expired discarded) (i : Nat)
    {deleteDate : Option Int} (past : ∀ d ∈ deleteDate, ∀ time < d, expired time) :
    (s.setPurge i deleteDate).Inv parseJobSyncEvent lasting expired discarded where
  accounts := inv.accounts
  dated := inv.dated
  consumers := fun j => Grows.consumerOwes (.of_same rfl rfl) (inv.consumers j)
  reconcilers := inv.reconcilers
  purges := (Function.forall_update_iff s.purges fun _ deleteDate => ∀ d ∈ deleteDate, ∀ time < d, expired time).mpr
    ⟨past, fun j _ => inv.purges j⟩

theorem Inv.append (inv : s.Inv parseJobSyncEvent lasting expired discarded) {m : StreamMessage}
    (positive : 0 < m.id) (last : ∀ m' ∈ s.history, m'.id < m.id) :
    { s with history := s.history ++ [m], group := s.group.add m }.Inv parseJobSyncEvent lasting expired discarded :=
  inv.next ⟨fun _ h => List.mem_append_left _ h, fun _ _ _ kept => kept⟩ (inv.accounts.add positive last) inv.dated
    rfl rfl rfl

section

variable [DecidableEq J]

theorem Inv.insertRuns (lasts : Lasts lasting) (inv : s.Inv parseJobSyncEvent lasting expired discarded)
    {values : List (JobRunInsert J)} (sent : Sent values) (ctx : UpsertContext) :
    let next := { s with runs := (JobRunsTable.insertOnConflict ctx values s.runs).1 }
    next.Inv parseJobSyncEvent lasting expired discarded ∧
      ∀ ids, s.Cleared parseJobSyncEvent lasting expired values ids →
        next.Cleared parseJobSyncEvent lasting expired [] ids := by
  have grows : Grows lasting expired s { s with runs := (JobRunsTable.insertOnConflict ctx values s.runs).1 } :=
    .of_survives rfl (JobRunsTable.insertOnConflict_keeps lasts ctx values s.runs)
  refine ⟨inv.setRuns grows.kept fun row hrow => ?_, fun ids c => grows.cleared ?_ c⟩
  · cases JobRunsTable.insertOnConflict_rows hrow with
    | inl old => exact inv.dated row old
    | inr written =>
        obtain ⟨run, member, target, createdAt⟩ := written
        obtain ⟨time, timed⟩ := sent run member
        rw [timed.2, Option.getD_some] at createdAt
        rw [timed.target, JobRun.target, Option.map_eq_some_iff] at target
        obtain ⟨at', enqueued, same⟩ := target
        rw [JobRun.Dated, enqueued, createdAt]
        exact congrArg (fun k => some k.2.2) same
  · rintro run time - ⟨run', member, same⟩
    obtain ⟨at', timed⟩ := sent run' member
    have held : ∃ row ∈ (JobRunsTable.insertOnConflict ctx values s.runs).1.rows,
        run'.StoodFor lasting row.target row.status := JobRunsTable.insertOnConflict_holds lasts member timed
    obtain ⟨row, hrow, target, status⟩ := held
    exact .inl (.inl ⟨row, hrow, target.trans same.1, status ∘ same.2⟩)

omit [DecidableEq J] in
theorem Inv.update (inv : s.Inv parseJobSyncEvent lasting expired discarded) (wher : JobRun J → Bool)
    {set : JobRun J → JobRun J} (sameId : ∀ r, (set r).id = r.id) (sameTarget : ∀ r, (set r).target = r.target)
    (sameDate : ∀ r, r.Dated → (set r).Dated)
    (kept : ∀ r ∈ s.runs.rows, wher r = true → lasting r.status → lasting (set r).status) :
    { s with runs := s.runs.update wher set sameId sameTarget }.Inv parseJobSyncEvent lasting expired discarded := by
  have survive : JobRunsTable.Survives
      (fun a b : JobRun J => b.target = a.target ∧ (lasting a.status → lasting b.status)) s.runs
      (s.runs.update wher set sameId sameTarget) :=
    JobRunsTable.update_survives s.runs (fun _ _ _ => ⟨rfl, id⟩) fun r hr met => ⟨sameTarget r, kept r hr met⟩
  have grows : Grows lasting expired s { s with runs := s.runs.update wher set sameId sameTarget } :=
    .of_survives rfl survive
  refine inv.setRuns grows.kept fun row hrow => ?_
  obtain ⟨old, member, rfl⟩ := List.mem_map.mp hrow
  split
  · exact sameDate old (inv.dated old member)
  · exact inv.dated old member

omit [DecidableEq J] in
theorem Inv.deleteCreatedBefore (inv : s.Inv parseJobSyncEvent lasting expired discarded) {deleteDate : Int}
    (past : ∀ time < deleteDate, expired time) :
    { s with runs := s.runs.deleteCreatedBefore deleteDate }.Inv parseJobSyncEvent lasting expired discarded := by
  refine inv.setRuns ?_ fun row hrow => inv.dated row (List.mem_filter.mp hrow).1
  intro run time sent kept
  cases kept with
  | inr out => exact .inr out
  | inl held =>
      obtain ⟨row, hrow, target, status⟩ := held
      have createdAt := (inv.dated row hrow).createdAt sent target
      cases Decidable.em (row.createdAt < deleteDate) with
      | inl old => exact .inr ⟨time, sent, past time (createdAt ▸ old)⟩
      | inr young => exact .inl ⟨row, List.mem_filter.mpr ⟨hrow, by simpa using young⟩, target, status⟩

omit [DecidableEq J] in
/-- Whatever messages of the stream a consumer was given, it knows what it owes. -/
theorem startProcessing_owes {messages : List StreamMessage} (given : ∀ m ∈ messages, m ∈ s.history) :
    s.ConsumerOwes parseJobSyncEvent lasting expired (startProcessing parseJobSyncEvent messages) := by
  have valid : s.Read parseJobSyncEvent (messages.filterMap (validRun parseJobSyncEvent)) := by
    intro v hv
    obtain ⟨m, member, decoded⟩ := List.mem_filterMap.mp hv
    exact ⟨m, given m member, decoded⟩
  unfold startProcessing
  dsimp only
  split
  · refine ⟨fun id hid => ?_, valid⟩
    obtain ⟨m, member, rfl⟩ := List.mem_map.mp hid
    obtain ⟨member, invalid⟩ := List.mem_filter.mp member
    rw [Option.isNone_iff_eq_none] at invalid
    exact ⟨m, given m member, rfl, fun v decoded => nomatch invalid.symm.trans decoded⟩
  · split
    · trivial
    · exact valid

/-- In the batch, no run of a job follows one with a status that lasts, unless its own
    lasts. -/
def EndsLast (lasting : JobStatus → Prop) (valid : List (Nat × JobRunInsert J)) : Prop :=
  valid.Pairwise fun a b => a.2.target = b.2.target → lasting a.2.status → lasting b.2.status

def Respects (lasting : JobStatus → Prop) (s : JobSystem J) : JobAction J → Prop
  | .upsert i _ => ∀ valid, s.consumers i = .upsert valid → EndsLast lasting valid
  | .markUnknown id => ∀ r ∈ s.runs.rows, r.id = id → ¬ lasting r.status
  | _ => True

/-- Runs with one deduplication key are one run. -/
def Apart (parseJobSyncEvent : String → Option (JobSyncEvent J)) (history : List StreamMessage) : Prop :=
  ∀ m ∈ history, ∀ m' ∈ history, ∀ v v', validRun parseJobSyncEvent m = some v →
    validRun parseJobSyncEvent m' = some v' → dedupeKey v.2 = dedupeKey v'.2 → v.2.target = v'.2.target

variable {autoDeletePostgresData : Option Int} {localeCompare : String → String → Ordering}

/-- What lies before the cutoff of a reading is expired. -/
def Expires (autoDeletePostgresData : Option Int) (expired : Int → Prop) (dateNow : Int) : Prop :=
  ∀ retention ∈ truthyNumber autoDeletePostgresData, ∀ time < dateNow - retention, expired time

omit [DecidableEq J] in
theorem expired_of_not_retained {dateNow : Int} (expires : Expires autoDeletePostgresData expired dateNow)
    {run : JobRunInsert J} {time : Int} (sent : run.SentAt time)
    (out : isWithinRetention run
      (getRetentionCutoff (context autoDeletePostgresData localeCompare dateNow 0)) = false) : expired time := by
  unfold isWithinRetention at out
  split at out
  · cases out
  · rename_i cutoff given
    have cutoffOf : getRetentionCutoff (context autoDeletePostgresData localeCompare dateNow 0) = some cutoff := by
      unfold truthyNumber at given
      split at given
      · cases given
      · exact given
    obtain ⟨retention, configured, rfl⟩ := Option.map_eq_some_iff.mp cutoffOf
    refine expires retention configured time ?_
    simp only [getRunTimestamp, sent.2, context, Option.some_or, Option.all_some] at out
    exact Int.not_le.mp (of_decide_eq_false out)

omit [DecidableEq J] in
/-- The rows of the statement cover what was read, or leave it out as expired. -/
theorem insertValues_owes (apart : Apart parseJobSyncEvent s.history)
    {dateNow : Int} (expires : Expires autoDeletePostgresData expired dateNow)
    {valid : List (Nat × JobRunInsert J)} (read : s.Read parseJobSyncEvent valid) (ends : EndsLast lasting valid) :
    let values := insertValues (context autoDeletePostgresData localeCompare dateNow 0) (valid.map (·.2))
    s.ConsumerOwes parseJobSyncEvent lasting expired (if values = [] then .ack (valid.map (·.1))
      else .insert values (valid.map (·.1))) := by
  intro values
  have origin : ∀ run ∈ values, ∃ m ∈ s.history, ∃ v, validRun parseJobSyncEvent m = some v ∧ v.2 = run := by
    intro run hrun
    obtain ⟨v, hv, rfl⟩ := List.mem_map.mp (mem_insertValues hrun).1
    obtain ⟨m, member, decoded⟩ := read v hv
    exact ⟨m, member, v, decoded, rfl⟩
  have cleared : s.Cleared parseJobSyncEvent lasting expired values (valid.map (·.1)) := by
    intro id hid
    obtain ⟨v, hv, rfl⟩ := List.mem_map.mp hid
    obtain ⟨m, member, decoded⟩ := read v hv
    obtain ⟨same, time, sent⟩ := validRun_sentAt decoded
    refine ⟨m, member, same.symm, fun v' decoded' => ?_⟩
    obtain rfl := Option.some.inj (decoded.symm.trans decoded')
    cases retained : isWithinRetention v.2
        (getRetentionCutoff (context autoDeletePostgresData localeCompare dateNow 0)) with
    | false => exact .inl (.inr ⟨time, sent, expired_of_not_retained expires sent retained⟩)
    | true =>
        have ordered : (valid.map (·.2)).Pairwise fun a b =>
            a.target = b.target → lasting a.status → lasting b.status := List.pairwise_map.mpr ends
        obtain ⟨run, hrun, key, order⟩ := insertValues_latest _ ordered (List.mem_map.mpr ⟨v, hv, rfl⟩) retained
        obtain ⟨m', member', v', decoded', rfl⟩ := origin run hrun
        have target := apart m' member' m member v' v decoded' decoded key
        refine .inr ⟨v'.2, hrun, target, fun last => ?_⟩
        cases order with
        | inl same => exact same ▸ last
        | inr after => exact after target.symm last
  split
  · rename_i nothing
    rw [nothing] at cleared
    exact cleared
  · refine ⟨fun run hrun => ?_, cleared⟩
    obtain ⟨m, -, v, decoded, rfl⟩ := origin run hrun
    exact (validRun_sentAt decoded).2

theorem Inv.consumerStep (lasts : Lasts lasting) (inv : s.Inv parseJobSyncEvent lasting expired discarded) {i : Nat}
    {currentTimestamp : Int}
    (stepped : consumerStep autoDeletePostgresData localeCompare s i currentTimestamp (s.consumers i) = some s') :
    s'.Inv parseJobSyncEvent lasting expired discarded := by
  have owes := inv.consumers i
  generalize s.consumers i = c at stepped owes
  cases c with
  | idle => cases stepped
  | upsert valid => cases stepped
  | ackInvalid ids valid =>
      obtain rfl := Option.some.inj stepped
      exact (inv.setGroup (inv.accounts.ack owes.1.settled)).setConsumer i owes
  | delInvalid ids valid =>
      obtain rfl := Option.some.inj stepped
      refine (inv.setGroup (inv.accounts.delete owes.1.settled)).setConsumer i ?_
      split
      · trivial
      · exact owes.2
  | insert values ids =>
      obtain rfl := Option.some.inj stepped
      obtain ⟨next, paid⟩ := inv.insertRuns lasts owes.1
        (context autoDeletePostgresData localeCompare 0 currentTimestamp)
      exact next.setConsumer i (paid ids owes.2)
  | ack ids =>
      obtain rfl := Option.some.inj stepped
      exact (inv.setGroup (inv.accounts.ack owes.settled)).setConsumer i owes
  | del ids =>
      obtain rfl := Option.some.inj stepped
      exact (inv.setGroup (inv.accounts.delete owes.settled)).setConsumer i trivial

theorem Inv.step {a : JobAction J} (lasts : Lasts lasting) (inv : s.Inv parseJobSyncEvent lasting expired discarded)
    (apart : Apart parseJobSyncEvent s.history) (respects : s.Respects lasting a)
    (expires : ∀ dateNow ∈ a.reading, Expires autoDeletePostgresData expired dateNow)
    (discards : ∀ id ∈ a.held, id ∈ s.group.pending → discarded id)
    (stepped : step parseJobSyncEvent autoDeletePostgresData localeCompare s a = some s') :
    s'.Inv parseJobSyncEvent lasting expired discarded := by
  cases a with
  | append m =>
      obtain ⟨⟨positive, last⟩, ⟨⟩⟩ := Option.ite_none_right_eq_some.mp stepped
      exact inv.append positive last
  | readNew i count =>
      obtain ⟨-, ⟨⟩⟩ := Option.ite_none_right_eq_some.mp stepped
      exact (inv.setGroup (inv.accounts.deliver count)).setConsumer i
        (startProcessing_owes fun m hm => inv.accounts.entries.subset (Group.newMessages_mem hm))
  | claim i ids =>
      obtain ⟨-, ⟨⟩⟩ := Option.ite_none_right_eq_some.mp stepped
      exact inv.setConsumer i (startProcessing_owes fun m hm => inv.accounts.entries.subset (Group.claimed_mem hm))
  | upsert i dateNow =>
      have owes := inv.consumers i
      simp only [JobSystem.step] at stepped
      split at stepped
      · rename_i valid stands
        obtain rfl := Option.some.inj stepped
        rw [stands] at owes
        exact inv.setConsumer i (insertValues_owes apart (expires dateNow rfl) owes (respects valid stands))
      · cases stepped
  | consumer i currentTimestamp => exact inv.consumerStep lasts stepped
  | consumerStops i =>
      obtain rfl := Option.some.inj stepped
      exact inv.setConsumer i trivial
  | delConsumer held =>
      obtain rfl := Option.some.inj stepped
      exact inv.setGroup (inv.accounts.delConsumer fun m _ lost pending => .inr (discards m.id lost pending))
  | reconcile i dateNow queueName jobs =>
      obtain ⟨-, stepped⟩ := Option.ite_none_right_eq_some.mp stepped
      split at stepped
      · obtain rfl := Option.some.inj stepped
        exact inv
      · rename_i runs formatted
        obtain rfl := Option.some.inj stepped
        exact inv.setReconciler i fun run hrun => snapshotRun_sentAt formatted run (mem_insertValues hrun).1
  | reconciler i currentTimestamp =>
      obtain rfl := Option.some.inj stepped
      exact (inv.insertRuns lasts (inv.reconcilers i) _).1.setReconciler i (by simp [Sent])
  | reconcilerStops i =>
      obtain rfl := Option.some.inj stepped
      exact inv.setReconciler i (by simp [Sent])
  | markUnknown id =>
      obtain rfl := Option.some.inj stepped
      exact inv.update _ _ _ (fun _ dated => dated) fun r hr marked last =>
        absurd last (respects r hr (of_decide_eq_true marked))
  | markCancelled jobId queue =>
      obtain rfl := Option.some.inj stepped
      exact inv.update _ _ _ (fun _ dated => dated) fun r _ _ => lasts.cancelled r.status
  | clearData i dateNow =>
      simp only [JobSystem.step] at stepped
      split at stepped
      · cases stepped
      · rename_i retention configured
        obtain rfl := Option.some.inj stepped
        exact inv.setPurge i (by simpa using expires dateNow rfl retention configured)
  | deleteData i =>
      have past := inv.purges i
      simp only [JobSystem.step] at stepped
      split at stepped
      · cases stepped
      · rename_i deleteDate sends
        obtain rfl := Option.some.inj stepped
        exact (inv.deleteCreatedBefore (past deleteDate sends)).setPurge i (by simp)
  | clearDataStops i =>
      obtain rfl := Option.some.inj stepped
      exact inv.setPurge i (by simp)

omit [DecidableEq J] in
/-- Queues without a dash and times since the epoch leave no doubt. -/
theorem apart_of_plain {history : List StreamMessage}
    (plain : ∀ m ∈ history, ∀ v, validRun parseJobSyncEvent m = some v → '-' ∉ v.2.queue.toList ∧
      ∀ time, v.2.enqueuedAt = .value time → 0 ≤ time) : Apart parseJobSyncEvent history := by
  intro m hm m' hm' v v' valid valid' key
  obtain ⟨-, time, sent⟩ := validRun_sentAt valid
  obtain ⟨-, at', sent'⟩ := validRun_sentAt valid'
  obtain ⟨dash, since⟩ := plain m hm v valid
  obtain ⟨dash', since'⟩ := plain m' hm' v' valid'
  rw [dedupeKey_joined sent.target, dedupeKey_joined sent'.target] at key
  rw [sent.target, sent'.target]
  refine congrArg some ((joined_eq_iff.mp key).resolve_right ?_)
  exact not_ambiguous ⟨dash, dash'⟩ ⟨since time sent.1, since' at' sent'.1⟩

omit [DecidableEq J] in
theorem apart_of_events {history : List StreamMessage}
    (plain : ∀ payload, ∀ event ∈ parseJobSyncEvent payload,
      '-' ∉ event.queueName.toList ∧ 0 ≤ event.job.timestamp) : Apart parseJobSyncEvent history := by
  refine apart_of_plain fun m _ v valid => ?_
  unfold validRun at valid
  split at valid
  · cases valid
  · obtain ⟨event, parsed, formatted⟩ := Option.bind_eq_some_iff.mp valid
    obtain ⟨row, hrow, rfl⟩ := Option.map_eq_some_iff.mp formatted
    obtain ⟨-, queue, enqueuedAt, -⟩ := formatJobRun_some hrow
    refine ⟨queue ▸ (plain _ event parsed).1, fun time value => ?_⟩
    obtain rfl := Nullish.value.inj (enqueuedAt.symm.trans value)
    exact (plain _ event parsed).2

theorem history_grows {a : JobAction J} {m : StreamMessage} (member : m ∈ s.history)
    (stepped : step parseJobSyncEvent autoDeletePostgresData localeCompare s a = some s') : m ∈ s'.history := by
  cases a with
  | append new =>
      obtain ⟨-, ⟨⟩⟩ := Option.ite_none_right_eq_some.mp stepped
      exact List.mem_append_left _ member
  | readNew i count =>
      obtain ⟨-, ⟨⟩⟩ := Option.ite_none_right_eq_some.mp stepped
      exact member
  | claim i ids =>
      obtain ⟨-, ⟨⟩⟩ := Option.ite_none_right_eq_some.mp stepped
      exact member
  | upsert i dateNow =>
      simp only [JobSystem.step] at stepped
      split at stepped <;> cases stepped
      exact member
  | consumer i currentTimestamp =>
      simp only [JobSystem.step] at stepped
      cases stands : s.consumers i <;> rw [stands] at stepped <;> cases stepped <;> exact member
  | reconcile i dateNow queueName jobs =>
      obtain ⟨-, stepped⟩ := Option.ite_none_right_eq_some.mp stepped
      split at stepped <;> cases stepped <;> exact member
  | clearData i dateNow =>
      simp only [JobSystem.step] at stepped
      split at stepped <;> cases stepped
      exact member
  | deleteData i =>
      simp only [JobSystem.step] at stepped
      split at stepped <;> cases stepped
      exact member
  | consumerStops | delConsumer | reconciler | reconcilerStops | markUnknown | markCancelled | clearDataStops =>
      obtain rfl := Option.some.inj stepped
      exact member

omit [DecidableEq J] in
theorem respects_none (a : JobAction J) : s.Respects (fun _ => False) a := by
  cases a with
  | upsert => exact fun valid _ => List.pairwise_of_forall fun _ _ _ => id
  | markUnknown => exact fun _ _ _ => id
  | _ => trivial

/-- Some reading of the run put this time out of retention. -/
def ExpiredIn (autoDeletePostgresData : Option Int) (ts : List (Machine.Transition (JobSystem J) (JobAction J)))
    (time : Int) : Prop :=
  ∃ x ∈ ts, ∃ dateNow ∈ x.act.reading, ∃ retention ∈ truthyNumber autoDeletePostgresData, time < dateNow - retention

/-- A cleanup of the run deleted the consumer that held this entry. -/
def DiscardedIn (ts : List (Machine.Transition (JobSystem J) (JobAction J))) (id : Nat) : Prop :=
  ∃ x ∈ ts, id ∈ x.act.held ∧ id ∈ x.pre.group.pending

theorem inv_run {ts : List (Machine.Transition (JobSystem J) (JobAction J))}
    (run : Machine.Run (JobSystem.step parseJobSyncEvent autoDeletePostgresData localeCompare) s ts s')
    (lasts : Lasts lasting) (inv : s.Inv parseJobSyncEvent lasting expired discarded)
    (apart : Apart parseJobSyncEvent s'.history)
    (respect : ∀ x ∈ ts, x.pre.Respects lasting x.act)
    (expires : ∀ x ∈ ts, ∀ dateNow ∈ x.act.reading, Expires autoDeletePostgresData expired dateNow)
    (discards : ∀ x ∈ ts, ∀ id ∈ x.act.held, id ∈ x.pre.group.pending → discarded id) :
    s'.Inv parseJobSyncEvent lasting expired discarded := by
  induction run with
  | done => exact inv
  | @next s a middle ts s' stepped rest ih =>
      simp only [List.forall_mem_cons] at expires respect discards
      have grown : ∀ m ∈ s.history, m ∈ s'.history := fun m hm =>
        rest.invariant (I := fun s => m ∈ s.history) (fun _ _ _ h again => history_grows h again)
          (history_grows hm stepped)
      have before : Apart parseJobSyncEvent s.history := fun m hm m' hm' => apart m (grown m hm) m' (grown m' hm')
      exact ih (inv.step lasts before respect.1 expires.1 discards.1 stepped) apart respect.2 expires.2 discards.2

/-- Before the first entry, over any table of runs. -/
def start (runs : JobRunsTable J) : JobSystem J := { runs }

omit [DecidableEq J] in
theorem start_inv {runs : JobRunsTable J} (dated : ∀ row ∈ runs.rows, row.Dated) :
    (start runs).Inv parseJobSyncEvent lasting expired discarded where
  accounts := .empty
  dated := dated
  consumers _ := trivial
  reconcilers _ := by simp [start, Sent]
  purges _ := by simp [start]

/-- The invariant, with what the run itself says of expired times and discarded entries. -/
theorem inv_of_run {runs : JobRunsTable J} {ts : List (Machine.Transition (JobSystem J) (JobAction J))}
    (run : Machine.Run (step parseJobSyncEvent autoDeletePostgresData localeCompare) (start runs) ts s)
    (lasts : Lasts lasting) (dated : ∀ row ∈ runs.rows, row.Dated) (apart : Apart parseJobSyncEvent s.history)
    (respect : ∀ x ∈ ts, x.pre.Respects lasting x.act) :
    s.Inv parseJobSyncEvent lasting (ExpiredIn autoDeletePostgresData ts) (DiscardedIn ts) :=
  inv_run run lasts (start_inv dated) apart respect
    (fun x hx dateNow reading retention configured _ before => ⟨x, hx, dateNow, reading, retention, configured, before⟩)
    fun x hx _ held pending => ⟨x, hx, held, pending⟩

omit [DecidableEq J] in
theorem Inv.fate (inv : s.Inv parseJobSyncEvent lasting expired discarded) {m : StreamMessage} (hm : m ∈ s.history)
    {v : Nat × JobRunInsert J} (valid : validRun parseJobSyncEvent m = some v) :
    s.group.Unacknowledged m ∨ (∃ row ∈ s.runs.rows, v.2.StoodFor lasting row.target row.status) ∨
      (∃ time, v.2.enqueuedAt = .value time ∧ expired time) ∨ discarded m.id := by
  refine (inv.accounts.kept m hm).imp id fun settled => ?_
  cases settled with
  | inr lost => exact .inr (.inr lost)
  | inl covered =>
      cases covered v valid with
      | inr owed => simp at owed
      | inl kept => exact kept.imp id fun ⟨time, sent, out⟩ => .inl ⟨time, sent.1, out⟩

variable (parseJobSyncEvent autoDeletePostgresData) in
/-- Every event that decodes is still to be acknowledged, or has its one row, or was
    enqueued longer ago than the retention at some reading of the clock, or a deleted
    consumer held it. -/
def NothingLost (s : JobSystem J) (ts : List (Machine.Transition (JobSystem J) (JobAction J))) : Prop :=
  ∀ m ∈ s.history, ∀ v, validRun parseJobSyncEvent m = some v →
    s.group.Unacknowledged m ∨ (∃! row, row ∈ s.runs.rows ∧ row.target = v.2.target) ∨
      (∃ time, v.2.enqueuedAt = .value time ∧ ExpiredIn autoDeletePostgresData ts time) ∨ DiscardedIn ts m.id

theorem no_event_lost {runs : JobRunsTable J} (dated : ∀ row ∈ runs.rows, row.Dated)
    {ts : List (Machine.Transition (JobSystem J) (JobAction J))}
    (run : Machine.Run (step parseJobSyncEvent autoDeletePostgresData localeCompare) (start runs) ts s)
    (apart : Apart parseJobSyncEvent s.history) : s.NothingLost parseJobSyncEvent autoDeletePostgresData ts := by
  have inv := inv_of_run run lasts_none dated apart fun x _ => respects_none x.act
  intro m hm v valid
  refine (inv.fate hm valid).imp id (Or.imp (fun held => ?_) id)
  obtain ⟨row, hrow, target, -⟩ := held
  obtain ⟨-, time, sent⟩ := validRun_sentAt valid
  refine ⟨row, ⟨hrow, target⟩, fun row' ⟨hrow', target'⟩ => ?_⟩
  exact s.runs.eq_of_target hrow' hrow (target'.trans sent.target) (target.trans sent.target)

end

/-- A payload as a worker writes it. -/
def sentPayload (id timestamp : String) : String :=
  "\x7b\"version\":1,\"workerId\":\"w\",\"queueName\":\"mail\",\"phase\":\"waiting\",\"job\":" ++
    "\x7b\"id\":\"" ++ id ++ "\",\"opts\":\x7b\x7d,\"attemptsMade\":0,\"timestamp\":" ++ timestamp ++ "\x7d\x7d"

def sentJobs : List (String × String × Int) := [("1", "1000", 1000), ("2", "1100", 1100), ("3", "1500", 1500)]

def parseSent (payload : String) : Option (JobSyncEvent Unit) :=
  (sentJobs.find? fun job => payload = sentPayload job.1 job.2.1).map fun job =>
    { workerId := some "w", queueName := "mail", phase := .waiting, job := { id := some job.1, timestamp := job.2.2 } }

theorem parseSent_plain (payload : String) : ∀ event ∈ parseSent payload,
    '-' ∉ event.queueName.toList ∧ 0 ≤ event.job.timestamp := by
  intro event parsed
  obtain ⟨job, found, rfl⟩ := Option.map_eq_some_iff.mp parsed
  have since : ∀ job ∈ sentJobs, 0 ≤ job.2.2 := by decide
  exact ⟨(by decide : '-' ∉ "mail".toList), since job (List.mem_of_find?_eq_some found)⟩

/-- Two consumers crash. The event of the first is claimed by a third, and a purge whose
    clock reads later than the third's removes its row; the event of the second is held
    by a consumer that a cleanup deletes. The last event is stored. -/
def crashAndPurge : List (JobAction Unit) :=
  [.append ⟨1, ["payload", sentPayload "1" "1000"]⟩, .readNew 0 10, .upsert 0 1200, .consumerStops 0,
    .append ⟨2, ["payload", sentPayload "2" "1100"]⟩, .readNew 1 10, .consumerStops 1, .delConsumer [2], .claim 2 [1],
    .upsert 2 1400, .clearData 0 1600, .consumer 2 0, .deleteData 0, .consumer 2 0, .consumer 2 0,
    .append ⟨3, ["payload", sentPayload "3" "1500"]⟩, .readNew 2 10, .upsert 2 1600, .consumer 2 0, .consumer 2 0,
    .consumer 2 0]

set_option maxRecDepth 10000 in
theorem no_event_lost_crash : ∃ (s : JobSystem Unit) (ts : List (Machine.Transition (JobSystem Unit) (JobAction Unit))),
    s.group.entries.map (·.id) = [2] ∧ s.group.pending = [] ∧ s.runs.rows.map (·.jobId) = ["3"] ∧
      s.history.length = 3 ∧ s.NothingLost parseSent (some 500) ts := by
  have performed : Machine.perform (step parseSent (some 500) compare) (start .empty) crashAndPurge = some _ := rfl
  exact ⟨_, _, rfl, rfl, rfl, rfl, no_event_lost (by simp [JobRunsTable.empty]) (Machine.perform_run performed)
    (apart_of_events parseSent_plain)⟩

end JobSystem

end BetterBullBoard
