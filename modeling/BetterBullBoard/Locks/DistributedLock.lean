import Mathlib.Logic.Function.Basic
import BetterBullBoard.Lib.ExpiringKey
import BetterBullBoard.Lib.Machine

/-! # `withLock`

Calls of `withLock` on one key, by any number of ingest instances. Each command
takes effect in Redis at a moment of its own, and a run starts when the answer of
its `SET` has come back. Every call passes its process's `instanceId` as the
owner.
-/

namespace BetterBullBoard

open ExpiringKey (Entry live)

structure WithLockCall (ι : Type) where
  instanceId : ι
  ttlMs : Nat

/-- The value of the key. Redis stores the owner; which call set it is kept for the
    statements. -/
structure LockValue (ι : Type) where
  owner : ι
  call : Nat
  deriving DecidableEq

inductive CallPhase where
  | called
  /-- `SET` wrote at this time and its answer is on the way. -/
  | acquired (acquiredAt : Nat)
  | running (acquiredAt : Nat)
  /-- The run is over and the lock is to be released. -/
  | finished
  | ended
  deriving DecidableEq

structure LockState (ι : Type) where
  now : Nat := 0
  lock : Option (Entry (LockValue ι)) := none
  phase : Nat → CallPhase := fun _ => .called

inductive LockAction where
  | acquire (call : Nat)
  | start (call : Nat)
  /-- `run` resolves or throws. -/
  | finish (call : Nat)
  /-- The script of `releaseLock`, sent again after a lost connection. -/
  | release (call : Nat)
  /-- The call's process or connection dies. -/
  | fail (call : Nat)
  | pass (ms : Nat)
  deriving DecidableEq

namespace WithLock

variable {ι : Type} [DecidableEq ι] (calls : Nat → WithLockCall ι)

def acquireLock (s : LockState ι) (call : Nat) : LockState ι :=
  let written := ExpiringKey.setNx s.now s.lock ⟨(calls call).instanceId, call⟩ (calls call).ttlMs
  { s with
    lock := written.1
    phase := Function.update s.phase call (if written.2 then .acquired s.now else .ended) }

/-- The comparison of `RELEASE_LOCK_SCRIPT`. -/
def owns (call : Nat) (value : LockValue ι) : Bool := value.owner = (calls call).instanceId

def releaseLock (s : LockState ι) (call : Nat) : LockState ι :=
  { s with lock := ExpiringKey.deleteIf s.now s.lock (owns calls call) }

def step (s : LockState ι) : LockAction → Option (LockState ι)
  | .acquire call => if s.phase call = .called then some (acquireLock calls s call) else none
  | .start call =>
      match s.phase call with
      | .acquired acquiredAt => some { s with phase := Function.update s.phase call (.running acquiredAt) }
      | _ => none
  | .finish call =>
      match s.phase call with
      | .running _ => some { s with phase := Function.update s.phase call .finished }
      | _ => none
  | .release call => if s.phase call = .finished then some (releaseLock calls s call) else none
  | .fail call => some { s with phase := Function.update s.phase call .ended }
  | .pass ms => some { s with now := s.now + ms }

/-! ## What the lock should give -/

/-- The call acquired the lock at this time and its TTL has not elapsed. -/
def Within (s : LockState ι) (call acquiredAt : Nat) : Prop := s.now ≤ acquiredAt + (calls call).ttlMs

/-- No run starts while another is in progress within its TTL. -/
def Exclusive (s : LockState ι) (a : LockAction) : Prop :=
  ∀ call other acquiredAt, a = .start call → other ≠ call → s.phase other = .running acquiredAt →
    ¬ Within calls s other acquiredAt

/-- A run starts before its own TTL has elapsed, and a release leaves alone a lock
    that another call of the process has set. -/
structure Undisturbed (s : LockState ι) (a : LockAction) : Prop where
  startsWithin : ∀ call acquiredAt, a = .start call → s.phase call = .acquired acquiredAt →
    Within calls s call acquiredAt
  releasesOwn : ∀ call e, a = .release call → live s.now s.lock = some e →
    e.value.owner = (calls call).instanceId → e.value.call = call

/-! ## A call holds the lock until its TTL has elapsed -/

/-- The entry a call has set. -/
def entryOf (call acquiredAt : Nat) : Entry (LockValue ι) :=
  ⟨⟨(calls call).instanceId, call⟩, acquiredAt + (calls call).ttlMs⟩

/-- The call has acquired the lock and is not over. -/
def Holding (s : LockState ι) (call acquiredAt : Nat) : Prop :=
  s.phase call = .acquired acquiredAt ∨ s.phase call = .running acquiredAt

def Held (s : LockState ι) : Prop :=
  ∀ call acquiredAt, Holding s call acquiredAt → Within calls s call acquiredAt →
    live s.now s.lock = some (entryOf calls call acquiredAt)

variable {calls} {s t : LockState ι}

omit [DecidableEq ι] in
/-- Phases of other calls are not touched, and the call itself holds nothing new. -/
theorem Held.of_phase {call : Nat} {phase : CallPhase} (held : Held calls s)
    (keeps : ∀ acquiredAt, phase = .acquired acquiredAt ∨ phase = .running acquiredAt → Holding s call acquiredAt) :
    Held calls { s with phase := Function.update s.phase call phase } := by
  refine (Function.forall_update_iff s.phase fun other p =>
    ∀ acquiredAt, p = .acquired acquiredAt ∨ p = .running acquiredAt → Within calls s other acquiredAt →
      live s.now s.lock = some (entryOf calls other acquiredAt)).mpr ⟨?_, fun other _ => held other⟩
  intro acquiredAt holding within
  exact held call acquiredAt (keeps acquiredAt holding) within

omit [DecidableEq ι] in
/-- The lock is taken only when no call holds it. -/
theorem held_acquire {call : Nat} (held : Held calls s) : Held calls (acquireLock calls s call) := by
  cases lock : live s.now s.lock with
  | some e =>
      have kept : Held calls { s with lock := some e } := by
        intro other acquiredAt holding within
        have same := held other acquiredAt holding within
        rw [lock] at same
        exact ExpiringKey.live_eq_some.mpr ⟨same, within⟩
      simp only [acquireLock, ExpiringKey.setNx_held lock]
      exact kept.of_phase (by simp)
  | none =>
      intro other acquiredAt holding within
      simp only [acquireLock, ExpiringKey.setNx_free lock, Holding] at holding ⊢
      cases Decidable.em (other = call) with
      | inl same =>
          subst same
          simp at holding
          subst holding
          exact ExpiringKey.live_eq_some.mpr ⟨rfl, within⟩
      | inr apart =>
          simp only [Function.update_of_ne apart] at holding
          have old := held other acquiredAt holding within
          rw [lock] at old
          cases old

/-- A release removes no lock that another call has set. -/
theorem held_release {call : Nat} (held : Held calls s) (ended : s.phase call = .finished)
    (own : ∀ e, live s.now s.lock = some e → e.value.owner = (calls call).instanceId → e.value.call = call) :
    Held calls (releaseLock calls s call) := by
  intro other acquiredAt holding within
  have old := held other acquiredAt holding within
  have apart : other ≠ call := by
    intro same
    simp [same, Holding, releaseLock, ended] at holding
  have others : owns calls call (entryOf calls other acquiredAt).value = false :=
    decide_eq_false fun same => apart (own _ old same)
  rw [releaseLock, ExpiringKey.deleteIf_keeps old others, ← old]
  exact ExpiringKey.live_live

theorem held_step {a : LockAction} (held : Held calls s) (undisturbed : Undisturbed calls s a)
    (enabled : step calls s a = some t) : Held calls t := by
  cases a with
  | acquire call =>
      simp only [step] at enabled
      split at enabled
      · obtain rfl := Option.some.inj enabled
        exact held_acquire held
      · cases enabled
  | start call =>
      simp only [step] at enabled
      split at enabled
      · rename_i acquiredAt acquired
        obtain rfl := Option.some.inj enabled
        apply held.of_phase
        intro acquiredAt' holding
        simp at holding
        exact .inl (holding ▸ acquired)
      · cases enabled
  | finish call =>
      simp only [step] at enabled
      split at enabled
      · obtain rfl := Option.some.inj enabled
        exact held.of_phase (by simp)
      · cases enabled
  | release call =>
      simp only [step] at enabled
      split at enabled
      · rename_i ended
        obtain rfl := Option.some.inj enabled
        exact held_release held ended fun e => undisturbed.releasesOwn call e rfl
      · cases enabled
  | fail call =>
      obtain rfl := Option.some.inj enabled
      exact held.of_phase (by simp)
  | pass ms =>
      obtain rfl := Option.some.inj enabled
      intro call acquiredAt holding within
      have old := held call acquiredAt holding (Nat.le_trans (Nat.le_add_right _ _) within)
      exact ExpiringKey.live_eq_some.mpr ⟨(ExpiringKey.live_eq_some.mp old).1, within⟩

theorem started {call : Nat} (enabled : step calls s (.start call) = some t) :
    ∃ acquiredAt, s.phase call = .acquired acquiredAt := by
  simp only [step] at enabled
  split at enabled
  · exact ⟨_, ‹_›⟩
  · cases enabled

/-- In a run whose steps are undisturbed, no run of a call starts while another is in
    progress within its TTL. -/
theorem exclusive {ts : List (Machine.Transition (LockState ι) LockAction)}
    (run : Machine.Run (step calls) {} ts s) (undisturbed : ∀ x ∈ ts, Undisturbed calls x.pre x.act) :
    ∀ x ∈ ts, Exclusive calls x.pre x.act := by
  have start : Held calls ({} : LockState ι) := by
    intro call acquiredAt holding
    simp [Holding] at holding
  intro x hx call other acquiredAt act apart running within
  obtain ⟨held, enabled⟩ := run.guarded_pre (fun _ _ _ => held_step) start undisturbed x hx
  rw [act] at enabled
  obtain ⟨since, acquired⟩ := started enabled
  have own := held call since (.inl acquired) ((undisturbed x hx).startsWithin call since act acquired)
  have others := held other acquiredAt (.inr running) within
  rw [own] at others
  have same : call = other := congrArg (fun e => e.value.call) (Option.some.inj others)
  exact apart same.symm

/-- The hourly calls of `clearData`: two of one instance and one of another. -/
def retentionCalls (call : Nat) : WithLockCall Nat := ⟨if call < 2 then 1 else 2, 1800000⟩

/-- The acquisitions, runs and releases of two calls of one instance, and a third call
    that finds the key taken. -/
def inTurn : List LockAction :=
  [.acquire 0, .start 0, .acquire 2, .finish 0, .release 0, .acquire 1, .start 1, .finish 1, .release 1]

theorem two_calls_exclusive :
    ∃ ts s, Machine.Run (step retentionCalls) {} ts s ∧ ts.map (·.act) = inTurn ∧
      ∀ x ∈ ts, Exclusive retentionCalls x.pre x.act := by
  have performed : Machine.perform (step retentionCalls) {} inTurn = some (_, _) := rfl
  refine ⟨_, _, Machine.perform_run performed, rfl, exclusive (Machine.perform_run performed) ?_⟩
  simp only [List.forall_mem_cons]
  refine ⟨?_, ?_, ?_, ?_, ?_, ?_, ?_, ?_, ?_, by simp⟩
  all_goals
    constructor
    · intro call since act acquired
      cases act <;> exact Nat.zero_le _
    · intro call e act held own
      cases act <;> exact congrArg (fun e => e.value.call) (Option.some.inj held).symm

/-- The second call of the instance runs for ten minutes when the other instance starts. -/
theorem overrun_performed :
    (Machine.perform (step retentionCalls) {} [.acquire 0, .start 0, .pass 3600000, .acquire 1, .start 1, .pass 300000,
      .finish 0, .release 0, .pass 300000, .acquire 2, .start 2]).any (fun r => r.1.any fun x =>
        x.act = .start 2 && x.pre.phase 1 = .running 3600000 && x.pre.now = 4200000) = true := by
  decide +kernel

/-- A call that overran its TTL deletes the lock that the next call of its instance
    holds, and another instance starts. -/
theorem overrun_not_exclusive :
    ¬ ∀ (calls : Nat → WithLockCall Nat) (ts : List (Machine.Transition (LockState Nat) LockAction))
        (s : LockState Nat), Machine.Run (step calls) {} ts s → ∀ x ∈ ts, Exclusive calls x.pre x.act := by
  intro always
  obtain ⟨ts, s, run, broken⟩ := Machine.run_of_perform overrun_performed
  obtain ⟨x, hx, found⟩ := List.any_eq_true.mp broken
  simp only [Bool.and_eq_true, decide_eq_true_eq] at found
  apply always _ ts s run x hx 2 1 3600000 found.1.1 (by decide) found.1.2
  rw [Within, found.2]
  decide

end WithLock

end BetterBullBoard
