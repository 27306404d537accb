import BetterBullBoard.Client.Logger
import BetterBullBoard.Lib.Machine

/-! # Patched processors

The promise of a patched processor settles only after the lines it has collected are
published. The console is patched once, with the callbacks of the call that came
first, so this call collects the lines of every job of the process.
-/

namespace BetterBullBoard

/-- The promise of a line that a console call emitted in the context of a call of the
    processor. -/
structure Publish where
  call : Nat
  event : LogSyncEvent
  settled : Bool := false
  deriving Repr, DecidableEq

inductive ProcessorPhase where
  /-- `cancelable(run, redis)(job)` is pending. -/
  | running
  /-- It has resolved or rejected. -/
  | returned (resolved : Bool)
  /-- Waiting for all of these. -/
  | flushing (publishes : List Nat)
  | settled
  deriving Repr, DecidableEq

/-- It looks at its set no more, and has not settled yet. -/
def ProcessorPhase.leaving : ProcessorPhase → Bool
  | .returned resolved => !resolved
  | .flushing _ => true
  | _ => false

/-- One call of a patched processor. -/
structure PatchedCall where
  job : SandboxedJob
  pendingPublishes : List Nat := []
  phase : ProcessorPhase := .running
  deriving Repr, DecidableEq

namespace PatchedCall

def start (job : SandboxedJob) : PatchedCall := { job }

def addPendingPublish (publish : Nat) (c : PatchedCall) : PatchedCall :=
  { c with pendingPublishes := c.pendingPublishes ++ [publish] }

def removePendingPublish (publish : Nat) (c : PatchedCall) : PatchedCall :=
  { c with pendingPublishes := c.pendingPublishes.filter (· ≠ publish) }

def setPhase (phase : ProcessorPhase) (c : PatchedCall) : PatchedCall := { c with phase }

/-- A job without an id emits no line. -/
def consoleCtx (c : PatchedCall) : ConsoleCtx :=
  { job := c.job, workerId := c.job.id.getD "", autoEmitBBBLogs := true }

/-- It will not settle before this publish, which is one of its own. -/
def Awaits (c : PatchedCall) (collects : Prop) (publish : Nat) : Prop :=
  match c.phase with
  | .running => collects → publish ∈ c.pendingPublishes
  | .returned resolved => resolved = true ∧ (collects → publish ∈ c.pendingPublishes)
  | .flushing publishes => publish ∈ publishes
  | .settled => True

variable {c : PatchedCall} {collects : Prop} {publish : Nat}

/-- What stays in the set stays awaited. -/
theorem Awaits.mono {c' : PatchedCall} {collects' : Prop} (awaits : c.Awaits collects publish)
    (phase : c'.phase = c.phase) (still : collects' → collects)
    (kept : publish ∈ c.pendingPublishes → publish ∈ c'.pendingPublishes) : c'.Awaits collects' publish := by
  unfold Awaits at awaits ⊢
  rw [phase]
  revert awaits
  cases c.phase with
  | running => exact fun awaits collects => kept (awaits (still collects))
  | returned resolved => exact fun awaits => ⟨awaits.1, fun collects => kept (awaits.2 (still collects))⟩
  | flushing publishes => exact id
  | settled => exact id

/-- Until it leaves, a call awaits what it collects. -/
theorem awaits_of_collected (stays : c.phase.leaving = false) (collected : collects → publish ∈ c.pendingPublishes) :
    c.Awaits collects publish := by
  unfold Awaits
  cases phase : c.phase with
  | running => exact collected
  | returned resolved =>
      simp only [phase, ProcessorPhase.leaving, Bool.not_eq_false'] at stays
      exact ⟨stays, collected⟩
  | flushing publishes => simp [phase, ProcessorPhase.leaving] at stays
  | settled => trivial

end PatchedCall

structure WorkerProcess where
  clock : LogClock := {}
  /-- Whether the console is `patched`, and with the callbacks of which call. -/
  relay : Option Nat := none
  calls : List PatchedCall := []
  publishes : List Publish := []
  deriving Repr, DecidableEq

inductive RelayAction where
  | call (job : SandboxedJob)
  /-- In the context of this call; outside every call the console only prints. -/
  | console (call : Nat) (level : LogLevel) (message : String) (now : Int)
  | publishSettles (publish : Nat)
  | removePendingPublish (publish : Nat)
  | returns (call : Nat) (resolved : Bool)
  | flushConsoleRelay (call : Nat)
  | settles (call : Nat)
  deriving Repr, DecidableEq

namespace WorkerProcess

def modifyCall (s : WorkerProcess) (call : Nat) (f : PatchedCall → PatchedCall) : WorkerProcess :=
  { s with calls := s.calls.modify call f }

def installConsoleRelay (s : WorkerProcess) (call : Nat) : WorkerProcess :=
  match s.relay with
  | some _ => s
  | none => { s with relay := some call }

def emitBBBLog (s : WorkerProcess) (call : Nat) (event : LogSyncEvent) : WorkerProcess :=
  { s with publishes := s.publishes ++ [{ call, event }] }

def settlePublish (s : WorkerProcess) (publish : Nat) : WorkerProcess :=
  { s with publishes := s.publishes.modify publish fun p => { p with settled := true } }

def isSettled (s : WorkerProcess) (publish : Nat) : Bool := s.publishes[publish]?.any (·.settled)

def step (s : WorkerProcess) : RelayAction → Option WorkerProcess
  | .call job => some ({ s with calls := s.calls ++ [PatchedCall.start job] }.installConsoleRelay s.calls.length)
  | .console call level message now =>
      match s.relay, s.calls[call]? with
      | some first, some c =>
          match forward s.clock ⟨some c.consoleCtx, level, message, now⟩ with
          | (none, clock) => some { s with clock }
          | (some event, clock) =>
              some (({ s with clock }.emitBBBLog call event).modifyCall first (·.addPendingPublish s.publishes.length))
      | _, _ => none
  | .publishSettles publish => some (s.settlePublish publish)
  | .removePendingPublish publish =>
      match s.relay with
      | none => none
      | some first =>
          if s.isSettled publish then some (s.modifyCall first (·.removePendingPublish publish)) else none
  | .returns call resolved =>
      match s.calls[call]? with
      | some ⟨_, _, .running⟩ => some (s.modifyCall call (·.setPhase (.returned resolved)))
      | _ => none
  | .flushConsoleRelay call =>
      match s.calls[call]? with
      | some ⟨_, pendingPublishes, .returned true⟩ =>
          some (s.modifyCall call (·.setPhase (.flushing pendingPublishes)))
      | _ => none
  | .settles call =>
      match s.calls[call]? with
      | some ⟨_, _, .returned false⟩ => some (s.modifyCall call (·.setPhase .settled))
      | some ⟨_, _, .flushing publishes⟩ =>
          if publishes.all s.isSettled then some (s.modifyCall call (·.setPhase .settled)) else none
      | _ => none

/-- A call settles when it has rejected, or when all it waits for has settled. -/
theorem settles_cases {s s' : WorkerProcess} {call : Nat} (enabled : s.step (.settles call) = some s') :
    s' = s.modifyCall call (·.setPhase .settled) ∧ ∃ c, s.calls[call]? = some c ∧
      (c.phase = .returned false ∨ ∃ publishes, c.phase = .flushing publishes ∧ publishes.all s.isSettled = true) := by
  simp only [step] at enabled
  split at enabled
  · rename_i returned
    obtain rfl := Option.some.inj enabled
    exact ⟨rfl, _, returned, .inl rfl⟩
  · rename_i publishes flushing
    split at enabled
    · rename_i all
      obtain rfl := Option.some.inj enabled
      exact ⟨rfl, _, flushing, .inr ⟨publishes, rfl, all⟩⟩
    · cases enabled
  · cases enabled

/-- The call has issued this publish, which is in flight. -/
def InFlight (s : WorkerProcess) (call publish : Nat) : Prop :=
  ∃ p, s.publishes[publish]? = some p ∧ p.call = call ∧ p.settled = false

/-- None of the publishes of the call is in flight. -/
def Published (s : WorkerProcess) (call : Nat) : Prop := ∀ p ∈ s.publishes, p.call = call → p.settled = true

instance (s : WorkerProcess) (call : Nat) : Decidable (s.Published call) :=
  inferInstanceAs (Decidable (∀ p ∈ s.publishes, p.call = call → p.settled = true))

/-- A job that rejects, or begins to wait while the console has the callbacks of
    another call, has no publish in flight then; and it emits no line between that
    moment and the settling of the promise. -/
def Covered (call : Nat) (s : WorkerProcess) : RelayAction → Prop
  | .returns call' resolved => call' = call → resolved = false → s.Published call
  | .flushConsoleRelay call' => call' = call → s.relay ≠ some call → s.Published call
  | .console call' _ _ _ => call' = call →
      ∀ c ∈ s.calls[call]?, c.phase.leaving = true → truthyString c.job.id = none
  | _ => True

instance (call : Nat) (s : WorkerProcess) : (a : RelayAction) → Decidable (Covered call s a)
  | .returns _ _ => inferInstanceAs (Decidable (_ → _ → _))
  | .flushConsoleRelay _ => inferInstanceAs (Decidable (_ → _ → _))
  | .console _ _ _ _ => inferInstanceAs (Decidable (_ → ∀ c ∈ s.calls[call]?, _))
  | .call _ | .publishSettles _ | .removePendingPublish _ | .settles _ => inferInstanceAs (Decidable True)

/-- What is in flight of a call is awaited by it. -/
structure Tracked (call : Nat) (s : WorkerProcess) : Prop where
  issued : ∀ p ∈ s.publishes, p.call < s.calls.length
  awaited : ∀ c, s.calls[call]? = some c → ∀ publish, s.InFlight call publish →
    c.Awaits (s.relay = some call) publish

theorem published_iff {s : WorkerProcess} {call : Nat} : s.Published call ↔ ∀ publish, ¬ s.InFlight call publish := by
  simp only [Published, InFlight, List.mem_iff_getElem?]
  constructor
  · rintro published publish ⟨p, found, own, pending⟩
    simp [published p ⟨publish, found⟩ own] at pending
  · rintro settled p ⟨publish, found⟩ own
    exact Bool.eq_true_of_not_eq_false fun pending => settled publish ⟨p, found, own, pending⟩

theorem getElem?_modify_eq_some {α : Type} {f : α → α} {l : List α} {i j : Nat} {b : α} :
    (l.modify i f)[j]? = some b ↔ ∃ a, l[j]? = some a ∧ (if i = j then f a else a) = b := by
  rw [List.getElem?_modify, Option.map_eq_map, Option.map_eq_some_iff]

theorem Tracked.modifyCall {s : WorkerProcess} {call other : Nat} {f : PatchedCall → PatchedCall}
    (tracked : s.Tracked call)
    (keep : ∀ c publish, s.calls[call]? = some c → other = call → s.InFlight call publish →
      c.Awaits (s.relay = some call) publish → (f c).Awaits (s.relay = some call) publish) :
    (s.modifyCall other f).Tracked call where
  issued p hp := by
    rw [WorkerProcess.modifyCall, List.length_modify]
    exact tracked.issued p hp
  awaited c modified publish inFlight := by
    obtain ⟨c, found, rfl⟩ := getElem?_modify_eq_some.mp modified
    have before := tracked.awaited c found publish inFlight
    split
    · exact keep c publish found ‹_› inFlight before
    · exact before

theorem inFlight_emitBBBLog {s : WorkerProcess} {call other publish : Nat} {event : LogSyncEvent} :
    (s.emitBBBLog other event).InFlight call publish ↔
      s.InFlight call publish ∨ (publish = s.publishes.length ∧ other = call) := by
  simp only [InFlight, WorkerProcess.emitBBBLog, List.getElem?_append, List.getElem?_singleton]
  by_cases old : publish < s.publishes.length
  · have before : publish ≠ s.publishes.length := by omega
    simp [old, before]
  · have new : publish - s.publishes.length = 0 ↔ publish = s.publishes.length := by omega
    simp [old, new]

theorem inFlight_settlePublish {s : WorkerProcess} {call publish settled : Nat}
    (inFlight : (s.settlePublish settled).InFlight call publish) : s.InFlight call publish := by
  obtain ⟨p, modified, own, pending⟩ := inFlight
  obtain ⟨p, found, rfl⟩ := getElem?_modify_eq_some.mp modified
  split at pending
  · cases pending
  · exact ⟨p, found, by simpa [‹¬ settled = publish›] using own, pending⟩

/-- The first call collects the line; another one, until it leaves, has not begun to
    wait. -/
theorem Tracked.emit {s : WorkerProcess} {call first other : Nat} {event : LogSyncEvent}
    (tracked : s.Tracked call) (called : other < s.calls.length) (holds : s.relay = some first)
    (stays : other = call → ∀ c, s.calls[call]? = some c → c.phase.leaving = false) :
    ((s.emitBBBLog other event).modifyCall first (·.addPendingPublish s.publishes.length)).Tracked call where
  issued p hp := by
    rw [WorkerProcess.modifyCall, List.length_modify]
    rcases List.mem_append.mp hp with old | new
    · exact tracked.issued p old
    · obtain rfl := List.mem_singleton.mp new
      exact called
  awaited c modified publish inFlight := by
    obtain ⟨c, found, rfl⟩ := getElem?_modify_eq_some.mp modified
    rcases inFlight_emitBBBLog.mp inFlight with old | ⟨rfl, own⟩
    · refine (tracked.awaited c found publish old).mono ?_ id ?_
      · split <;> rfl
      · intro member
        split
        · exact List.mem_append_left _ member
        · exact member
    · have phase := stays own c found
      refine PatchedCall.awaits_of_collected ?_ ?_
      · split <;> exact phase
      · intro (collects : s.relay = some call)
        obtain rfl := Option.some.inj (holds.symm.trans collects)
        rw [if_pos rfl]
        exact List.mem_append_right _ (List.mem_singleton_self _)

/-- A new call has issued nothing. -/
theorem Tracked.call {s : WorkerProcess} {call : Nat} {c : PatchedCall} {relay : Option Nat} (tracked : s.Tracked call)
    (still : call < s.calls.length → relay = some call → s.relay = some call) :
    ({ s with calls := s.calls ++ [c], relay } : WorkerProcess).Tracked call where
  issued p hp := by
    rw [List.length_append]
    exact Nat.lt_add_right _ (tracked.issued p hp)
  awaited c' found publish inFlight := by
    obtain ⟨p, issued, own, pending⟩ := inFlight
    have old : call < s.calls.length := own ▸ tracked.issued p (List.mem_of_getElem? issued)
    rw [List.getElem?_append_left old] at found
    exact (tracked.awaited c' found publish ⟨p, issued, own, pending⟩).mono rfl (still old) id

theorem Tracked.settlePublish {s : WorkerProcess} {call settled : Nat} (tracked : s.Tracked call) :
    (s.settlePublish settled).Tracked call where
  issued p hp := by
    obtain ⟨publish, modified⟩ := List.mem_iff_getElem?.mp hp
    obtain ⟨p, found, rfl⟩ := getElem?_modify_eq_some.mp modified
    have before := tracked.issued p (List.mem_of_getElem? found)
    split <;> exact before
  awaited c found publish inFlight := tracked.awaited c found publish (inFlight_settlePublish inFlight)

theorem isSettled_of_inFlight {s : WorkerProcess} {call publish : Nat} (inFlight : s.InFlight call publish) :
    s.isSettled publish = false := by
  obtain ⟨p, found, -, pending⟩ := inFlight
  rw [isSettled, found]
  exact pending

/-- Only a job with an id emits a line. -/
theorem jobId_of_emitted {clock clock' : LogClock} {ctx : ConsoleCtx} {level : LogLevel} {message : String} {now : Int}
    {event : LogSyncEvent} (emits : forward clock ⟨some ctx, level, message, now⟩ = (some event, clock')) :
    truthyString ctx.job.id ≠ none := by
  intro without
  simp [forward, without] at emits

theorem tracked_step {s s' : WorkerProcess} {call : Nat} {a : RelayAction} (tracked : s.Tracked call)
    (covered : Covered call s a) (enabled : s.step a = some s') : s'.Tracked call := by
  cases a with
  | call job =>
      obtain rfl := Option.some.inj enabled
      rw [installConsoleRelay]
      split
      · exact tracked.call fun _ => id
      · exact tracked.call fun old holds => absurd (Option.some.inj holds) (by omega)
  | console other level message now =>
      simp only [step] at enabled
      split at enabled
      · rename_i first c holds found
        split at enabled
        · obtain rfl := Option.some.inj enabled
          exact ⟨tracked.issued, tracked.awaited⟩
        · rename_i event clock emits
          obtain rfl := Option.some.inj enabled
          have ticked : ({ s with clock } : WorkerProcess).Tracked call := ⟨tracked.issued, tracked.awaited⟩
          refine ticked.emit (List.getElem?_eq_some_iff.mp found).1 holds fun same c' found' => ?_
          subst same
          obtain rfl := Option.some.inj (found.symm.trans found')
          by_contra leaving
          exact jobId_of_emitted emits (covered rfl c found (Bool.eq_true_of_not_eq_false leaving))
      · cases enabled
  | publishSettles publish =>
      obtain rfl := Option.some.inj enabled
      exact tracked.settlePublish
  | removePendingPublish publish =>
      simp only [step] at enabled
      split at enabled
      · cases enabled
      · split at enabled
        · rename_i settled
          obtain rfl := Option.some.inj enabled
          refine tracked.modifyCall fun c other _ _ inFlight awaits => awaits.mono rfl id fun member => ?_
          refine List.mem_filter.mpr ⟨member, decide_eq_true ?_⟩
          rintro rfl
          rw [isSettled_of_inFlight inFlight] at settled
          cases settled
        · cases enabled
  | returns other resolved =>
      simp only [step] at enabled
      split at enabled
      · rename_i running
        obtain rfl := Option.some.inj enabled
        refine tracked.modifyCall fun c publish found same inFlight awaits => ?_
        obtain rfl := same
        obtain rfl := Option.some.inj (running.symm.trans found)
        cases resolved with
        | true => exact ⟨rfl, awaits⟩
        | false => exact absurd inFlight (published_iff.mp (covered rfl rfl) publish)
      · cases enabled
  | flushConsoleRelay other =>
      simp only [step] at enabled
      split at enabled
      · rename_i returned
        obtain rfl := Option.some.inj enabled
        refine tracked.modifyCall fun c publish found same inFlight awaits => ?_
        obtain rfl := same
        obtain rfl := Option.some.inj (returned.symm.trans found)
        by_cases collects : s.relay = some other
        · exact awaits.2 collects
        · exact absurd inFlight (published_iff.mp (covered rfl collects) publish)
      · cases enabled
  | settles other =>
      obtain ⟨rfl, -⟩ := settles_cases enabled
      exact tracked.modifyCall fun _ _ _ _ _ _ => trivial

/-- Where a call settles, what it awaited has settled. -/
theorem published_of_settles {s s' : WorkerProcess} {call : Nat} (tracked : s.Tracked call)
    (enabled : s.step (.settles call) = some s') : s'.Published call := by
  obtain ⟨rfl, c, found, settles⟩ := settles_cases enabled
  show s.Published call
  rw [published_iff]
  intro publish inFlight
  have awaits := tracked.awaited c found publish inFlight
  unfold PatchedCall.Awaits at awaits
  rcases settles with rejected | ⟨publishes, flushing, all⟩
  · simp only [rejected] at awaits
    exact absurd awaits.1 (by decide)
  · simp only [flushing] at awaits
    have settled := List.all_eq_true.mp all publish awaits
    rw [isSettled_of_inFlight inFlight] at settled
    cases settled

theorem tracked_start (call : Nat) : ({} : WorkerProcess).Tracked call where
  issued p hp := by cases hp
  awaited c found := by cases found

/-- However the calls of a process interleave, a call whose steps are covered has
    published every line of its job when its promise settles. -/
theorem published_when_settled {ts : List (Machine.Transition WorkerProcess RelayAction)} {s : WorkerProcess}
    (run : Machine.Run step {} ts s) (call : Nat) (covered : ∀ x ∈ ts, Covered call x.pre x.act) :
    ∀ x ∈ ts, x.act = .settles call → x.post.Published call := by
  intro x hx settles
  obtain ⟨tracked, enabled⟩ := run.guarded_pre (I := Tracked call) (G := Covered call)
    (fun _ _ _ tracked covered enabled => tracked_step tracked covered enabled) (tracked_start call) covered x hx
  rw [settles] at enabled
  exact published_of_settles tracked enabled

/-! ## Some jobs -/

def mailJob (id : String) : SandboxedJob := ⟨some id, "mail", 1000⟩

/-- The first job of the process waits for both of its lines. The others publish theirs
    in time; the last one rejects. -/
def threeJobs : List RelayAction :=
  [.call (mailJob "1"), .call (mailJob "2"), .call (mailJob "3"), .console 0 .log "sending" 1500,
    .console 1 .warn "slow" 1500, .console 2 .error "failed" 1501, .publishSettles 1, .console 0 .log "sent" 1501,
    .returns 0 true, .flushConsoleRelay 0, .returns 1 true, .flushConsoleRelay 1, .publishSettles 2, .returns 2 false,
    .settles 1, .publishSettles 3, .publishSettles 0, .removePendingPublish 0, .settles 2, .settles 0]

theorem first_job_published : ∃ ts s, Machine.Run step {} ts s ∧ ts.map (·.act) = threeJobs ∧
    ∀ call < 3, ∀ x ∈ ts, x.act = .settles call → x.post.Published call := by
  have performed : (Machine.perform step {} threeJobs).any (fun r =>
      decide (r.1.map (·.act) = threeJobs ∧ ∀ call < 3, ∀ x ∈ r.1, Covered call x.pre x.act)) = true := by
    decide +kernel
  obtain ⟨ts, s, run, found⟩ := Machine.run_of_perform performed
  obtain ⟨acts, covered⟩ := of_decide_eq_true found
  exact ⟨ts, s, run, acts, fun call few => published_when_settled run call (covered call few)⟩

/-- Alone, it waits for its line. -/
def firstJob : List RelayAction :=
  [.call (mailJob "1"), .console 0 .log "sent" 1500, .returns 0 true, .flushConsoleRelay 0, .publishSettles 0,
    .removePendingPublish 0, .settles 0]

/-- The second job after it does not. -/
def secondJob : List RelayAction :=
  [.call (mailJob "2"), .console 1 .log "sent" 1600, .returns 1 true, .flushConsoleRelay 1, .settles 1]

/-- Nor does a first one that rejects. -/
def rejectedJob : List RelayAction :=
  [.call (mailJob "1"), .console 0 .error "failed" 1500, .returns 0 false, .settles 0]

/-- Of these actions, the call settles with a line in flight. -/
def settlesEarly (call : Nat) (acts : List RelayAction) : Bool :=
  (Machine.perform step {} acts).any fun r =>
    decide (r.1.map (·.act) = acts ∧ ∃ x ∈ r.1, x.act = .settles call ∧ ¬ x.post.Published call)

theorem run_of_settlesEarly {call : Nat} {acts : List RelayAction} (early : settlesEarly call acts = true) :
    ∃ ts s, Machine.Run step {} ts s ∧ ts.map (·.act) = acts ∧
      ∃ x ∈ ts, x.act = .settles call ∧ ¬ x.post.Published call := by
  obtain ⟨ts, s, run, found⟩ := Machine.run_of_perform early
  exact ⟨ts, s, run, of_decide_eq_true found⟩

theorem jobs_not_published :
    (∃ ts s, Machine.Run step {} ts s ∧ ts.map (·.act) = firstJob ++ secondJob ∧
      ∃ x ∈ ts, x.act = .settles 1 ∧ ¬ x.post.Published 1) ∧
    (∃ ts s, Machine.Run step {} ts s ∧ ts.map (·.act) = rejectedJob ∧
      ∃ x ∈ ts, x.act = .settles 0 ∧ ¬ x.post.Published 0) :=
  ⟨run_of_settlesEarly (by decide +kernel), run_of_settlesEarly (by decide +kernel)⟩

end WorkerProcess

end BetterBullBoard
