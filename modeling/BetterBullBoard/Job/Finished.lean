import BetterBullBoard.Job.NothingLost

/-! # A finished job is shown as finished

Events of a job may be processed in any order and by several consumers. Where no step
undoes a finished status, the event that says that the job finished decides.
-/

namespace BetterBullBoard

namespace JobSystem

section

variable {J : Type} [DecidableEq J] {parseJobSyncEvent : String → Option (JobSyncEvent J)}
  {autoDeletePostgresData : Option Int} {localeCompare : String → String → Ordering} {s : JobSystem J}

variable (parseJobSyncEvent autoDeletePostgresData) in
/-- Every event of a finished run is still to be acknowledged, or its one row is
    finished, or it was enqueued longer ago than the retention at some reading of the
    clock, or a deleted consumer held it. -/
def FinishedShown (s : JobSystem J) (ts : List (Machine.Transition (JobSystem J) (JobAction J))) : Prop :=
  ∀ m ∈ s.history, ∀ v, validRun parseJobSyncEvent m = some v → isTerminalStatus v.2.status = true →
    s.group.Unacknowledged m ∨
      (∃ row ∈ s.runs.rows, row.target = v.2.target ∧ isTerminalStatus row.status = true ∧
        ∀ other ∈ s.runs.rows, other.target = v.2.target → other = row) ∨
      (∃ time, v.2.enqueuedAt = .value time ∧ ExpiredIn autoDeletePostgresData ts time) ∨ DiscardedIn ts m.id

/-- No batch has an unfinished run of a job after a finished one, and no marking as
    unknown meets a finished row. -/
theorem finished_shown {runs : JobRunsTable J} (dated : ∀ row ∈ runs.rows, row.Dated)
    {ts : List (Machine.Transition (JobSystem J) (JobAction J))}
    (run : Machine.Run (step parseJobSyncEvent autoDeletePostgresData localeCompare) (start runs) ts s)
    (apart : Apart parseJobSyncEvent s.history)
    (respect : ∀ x ∈ ts, x.pre.Respects (fun status => isTerminalStatus status = true) x.act) :
    s.FinishedShown parseJobSyncEvent autoDeletePostgresData ts := by
  have inv := inv_of_run run lasts_terminal dated apart respect
  intro m hm v valid finished
  refine (inv.fate hm valid).imp id (Or.imp (fun held => ?_) id)
  obtain ⟨row, hrow, target, status⟩ := held
  obtain ⟨-, time, sent⟩ := validRun_sentAt valid
  refine ⟨row, hrow, target, status finished, fun other hother same => ?_⟩
  exact s.runs.eq_of_target hother hrow (same.trans sent.target) (target.trans sent.target)

instance (lasting : JobStatus → Prop) [DecidablePred lasting] (valid : List (Nat × JobRunInsert J)) :
    Decidable (EndsLast lasting valid) := inferInstanceAs (Decidable (List.Pairwise _ _))

omit [DecidableEq J] in
theorem respects_upsert {lasting : JobStatus → Prop} {i : Nat} {dateNow : Int} {valid : List (Nat × JobRunInsert J)}
    (stands : s.consumers i = .upsert valid) (ends : EndsLast lasting valid) :
    s.Respects lasting (.upsert i dateNow) := by
  intro valid' same
  obtain rfl := JobConsumer.upsert.inj (stands.symm.trans same)
  exact ends

end

/-- The payload of a job that finished. -/
def finishedPayload (id timestamp : String) : String :=
  "\x7b\"version\":1,\"workerId\":\"w\",\"queueName\":\"mail\",\"phase\":\"terminal\",\"job\":" ++
    "\x7b\"id\":\"" ++ id ++ "\",\"opts\":\x7b\x7d,\"attemptsMade\":1,\"timestamp\":" ++ timestamp ++
      ",\"finishedOn\":2000\x7d\x7d"

def parseFinished (payload : String) : Option (JobSyncEvent Unit) :=
  ((sentJobs.find? fun job => payload = finishedPayload job.1 job.2.1).map fun job =>
    { workerId := some "w"
      queueName := "mail"
      phase := .terminal
      job := { id := some job.1, timestamp := job.2.2, attemptsMade := 1, finishedOn := some 2000 } }).or
    (parseSent payload)

theorem parseFinished_plain (payload : String) : ∀ event ∈ parseFinished payload,
    '-' ∉ event.queueName.toList ∧ 0 ≤ event.job.timestamp := by
  intro event parsed
  cases Option.or_eq_some_iff.mp parsed with
  | inr sent => exact parseSent_plain payload event sent.2
  | inl finished =>
      obtain ⟨job, found, rfl⟩ := Option.map_eq_some_iff.mp finished
      have since : ∀ job ∈ sentJobs, 0 ≤ job.2.2 := by decide
      exact ⟨(by decide : '-' ∉ "mail".toList), since job (List.mem_of_find?_eq_some found)⟩

set_option maxRecDepth 10000 in
/-- The first job's waiting event comes late and to another consumer, with both events of
    the second job. A cleanup deletes the consumer that holds the third job's event. -/
theorem finished_shown_late : ∃ (s : JobSystem Unit) (ts : List (Machine.Transition (JobSystem Unit) (JobAction Unit))),
    s.group.entries.map (·.id) = [5] ∧ s.group.pending = [] ∧
      s.runs.rows.map (fun row => (row.jobId, row.status)) = [("1", .completed), ("2", .completed)] ∧
      s.FinishedShown parseFinished none ts := by
  have first : step parseFinished none compare (start .empty)
      (.append ⟨1, ["payload", finishedPayload "1" "1000"]⟩) = some _ := rfl
  have run := Machine.Run.next first (.next (a := .readNew 0 10) rfl
    (.next (a := .append ⟨2, ["payload", sentPayload "1" "1000"]⟩) rfl
      (.next (a := .append ⟨3, ["payload", sentPayload "2" "1100"]⟩) rfl
        (.next (a := .append ⟨4, ["payload", finishedPayload "2" "1100"]⟩) rfl (.next (a := .readNew 1 10) rfl
          (.next (a := .append ⟨5, ["payload", finishedPayload "3" "1500"]⟩) rfl (.next (a := .readNew 2 10) rfl
            (.next (a := .consumerStops 2) rfl (.next (a := .delConsumer [5]) rfl (.next (a := .upsert 0 2100) rfl
              (.next (a := .upsert 1 2100) rfl (.next (a := .consumer 0 2100) rfl (.next (a := .consumer 1 2100) rfl
                (.next (a := .consumer 0 0) rfl (.next (a := .consumer 1 0) rfl (.next (a := .consumer 0 0) rfl
                  (.next (a := .consumer 1 0) rfl (.done _))))))))))))))))))
  refine ⟨_, _, rfl, rfl, rfl, finished_shown (by simp [JobRunsTable.empty]) run
    (apart_of_events parseFinished_plain) ?_⟩
  simp only [List.forall_mem_cons]
  exact ⟨trivial, trivial, trivial, trivial, trivial, trivial, trivial, trivial, trivial, trivial,
    respects_upsert rfl (by decide +kernel), respects_upsert rfl (by decide +kernel), trivial, trivial, trivial,
    trivial, trivial, trivial, fun _ outside => absurd outside List.not_mem_nil⟩

end JobSystem

end BetterBullBoard
