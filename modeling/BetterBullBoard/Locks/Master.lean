import Mathlib.Logic.Function.Basic
import BetterBullBoard.Lib.ExpiringKey
import BetterBullBoard.Lib.Machine

/-! # Electing a master

`acquireLock` and `renewLock` of the client on the key of one queue, by any number
of workers. A renewal is a `GET` and then, at a later moment, a second command.
Renewals of one worker may overlap, as `setInterval` does not wait for them.
-/

namespace BetterBullBoard

open ExpiringKey (Entry live)

structure ElectionCall (ι : Type) where
  id : ι
  lockTtlMs : Nat

inductive RenewPhase where
  | called
  /-- `owner === id`, `PEXPIRE` comes next. -/
  | owned
  /-- `owner === null`, `SET` comes next. -/
  | absent
  | returned (result : Bool)
  | failed
  deriving DecidableEq

structure ElectionState (ι : Type) where
  now : Nat := 0
  lock : Option (Entry ι) := none
  phase : Nat → RenewPhase := fun _ => .called

inductive ElectionAction where
  /-- The one command of `acquireLock`, called by `onlyMaster`. -/
  | acquire (call : Nat)
  | get (call : Nat)
  | pexpire (call : Nat)
  /-- `acquireLock`, called by `renewLock`. -/
  | set (call : Nat)
  /-- The connection of the call fails. -/
  | fail (call : Nat)
  | pass (ms : Nat)
  deriving DecidableEq

namespace Master

variable {ι : Type} [DecidableEq ι] (calls : Nat → ElectionCall ι)

def acquireLock (s : ElectionState ι) (call : Nat) : ElectionState ι :=
  let written := ExpiringKey.setNx s.now s.lock (calls call).id (calls call).lockTtlMs
  { s with lock := written.1, phase := Function.update s.phase call (.returned written.2) }

/-- What `renewLock` does once it knows the owner. -/
def afterGet (owner : Option ι) (id : ι) : RenewPhase :=
  match owner with
  | none => .absent
  | some owner => if owner = id then .owned else .returned false

def step (s : ElectionState ι) : ElectionAction → Option (ElectionState ι)
  | .acquire call => if s.phase call = .called then some (acquireLock calls s call) else none
  | .get call =>
      if s.phase call = .called then
        some { s with
          phase := Function.update s.phase call (afterGet (ExpiringKey.get s.now s.lock) (calls call).id) }
      else none
  | .pexpire call =>
      -- The answer of PEXPIRE is not looked at.
      if s.phase call = .owned then
        some { s with
          lock := ExpiringKey.pexpire s.now s.lock (calls call).lockTtlMs
          phase := Function.update s.phase call (.returned true) }
      else none
  | .set call => if s.phase call = .absent then some (acquireLock calls s call) else none
  | .fail call => some { s with phase := Function.update s.phase call .failed }
  | .pass ms => some { s with now := s.now + ms }

/-! ## What a renewal should give -/

/-- The call whose command takes effect. -/
def commandBy : ElectionAction → Option Nat
  | .acquire call | .get call | .pexpire call | .set call => some call
  | .fail _ | .pass _ => none

/-- A call whose last command is this one returns `true` only with its id in the lock,
    and the command leaves alone a lock of another id. -/
structure Lawful (x : Machine.Transition (ElectionState ι) ElectionAction) : Prop where
  holds : ∀ call, commandBy x.act = some call → x.post.phase call = .returned true →
    ExpiringKey.get x.post.now x.post.lock = some (calls call).id
  spares : ∀ call e, commandBy x.act = some call → live x.pre.now x.pre.lock = some e → e.value ≠ (calls call).id →
    live x.post.now x.post.lock = some e

/-- The lock does not expire between the `GET` of a renewal that read its own id and
    its `PEXPIRE`. -/
def Unexpired (s : ElectionState ι) (a : ElectionAction) : Prop :=
  ∀ ms call e, a = .pass ms → s.phase call = .owned → live s.now s.lock = some e → s.now + ms ≤ e.expireAt

/-! ## A renewal that read its id still owns the lock -/

def Owned (s : ElectionState ι) : Prop :=
  ∀ call, s.phase call = .owned → ExpiringKey.get s.now s.lock = some (calls call).id

variable {calls} {s t : ElectionState ι}

omit [DecidableEq ι] in
/-- A command that keeps the lock's owner, where it makes the call the owner only if
    the call read so. -/
theorem Owned.of_phase {call : Nat} {phase : RenewPhase} {lock : Option (Entry ι)} (owned : Owned calls s)
    (kept : ∀ id, ExpiringKey.get s.now s.lock = some id → ExpiringKey.get s.now lock = some id)
    (read : phase = .owned → ExpiringKey.get s.now s.lock = some (calls call).id) :
    Owned calls { s with lock, phase := Function.update s.phase call phase } := by
  refine (Function.forall_update_iff s.phase fun other p => p = .owned →
    ExpiringKey.get s.now lock = some (calls other).id).mpr ⟨fun isOwned => ?_, fun other _ isOwned => ?_⟩
  · exact kept _ (read isOwned)
  · exact kept _ (owned other isOwned)

omit [DecidableEq ι] in
theorem owned_acquireLock (owned : Owned calls s) (call : Nat) : Owned calls (acquireLock calls s call) := by
  apply owned.of_phase
  · intro id got
    obtain ⟨e, held, value⟩ := ExpiringKey.get_eq_some.mp got
    exact ExpiringKey.get_eq_some.mpr ⟨e, ExpiringKey.live_setNx_held held _ _, value⟩
  · intro returned
    cases returned

theorem owned_step {a : ElectionAction} (owned : Owned calls s) (unexpired : Unexpired s a)
    (enabled : step calls s a = some t) : Owned calls t := by
  cases a with
  | acquire call =>
      obtain ⟨-, ⟨⟩⟩ := Option.ite_none_right_eq_some.mp enabled
      exact owned_acquireLock owned call
  | get call =>
      obtain ⟨-, ⟨⟩⟩ := Option.ite_none_right_eq_some.mp enabled
      apply owned.of_phase (fun _ got => got)
      intro read
      unfold afterGet at read
      split at read
      · cases read
      · rename_i owner got
        split at read
        · rename_i same
          exact same ▸ got
        · cases read
  | pexpire call =>
      obtain ⟨-, ⟨⟩⟩ := Option.ite_none_right_eq_some.mp enabled
      apply owned.of_phase
      · intro id got
        rw [ExpiringKey.get_pexpire, got]
      · intro returned
        cases returned
  | set call =>
      obtain ⟨-, ⟨⟩⟩ := Option.ite_none_right_eq_some.mp enabled
      exact owned_acquireLock owned call
  | fail call =>
      obtain rfl := Option.some.inj enabled
      exact owned.of_phase (fun _ got => got) (by simp)
  | pass ms =>
      obtain rfl := Option.some.inj enabled
      intro call isOwned
      obtain ⟨e, held, value⟩ := ExpiringKey.get_eq_some.mp (owned call isOwned)
      have still := unexpired ms call e rfl isOwned held
      exact ExpiringKey.get_eq_some.mpr
        ⟨e, ExpiringKey.live_eq_some.mpr ⟨(ExpiringKey.live_eq_some.mp held).1, still⟩, value⟩

omit [DecidableEq ι] in
theorem lawful_acquireLock (s : ElectionState ι) {call : Nat} {a : ElectionAction}
    (commands : commandBy a = some call) :
    Lawful calls ⟨s, a, acquireLock calls s call⟩ where
  holds other same returned := by
    obtain rfl := Option.some.inj (commands.symm.trans same)
    apply ExpiringKey.get_setNx_ok
    simpa [acquireLock] using returned
  spares _ _ _ held _ := ExpiringKey.live_setNx_held held _ _

/-- Where a renewal that read its id still owns the lock, every command is lawful. -/
theorem lawful_step {a : ElectionAction} (owned : Owned calls s) (enabled : step calls s a = some t) :
    Lawful calls ⟨s, a, t⟩ := by
  cases a with
  | acquire call =>
      obtain ⟨-, ⟨⟩⟩ := Option.ite_none_right_eq_some.mp enabled
      exact lawful_acquireLock s rfl
  | get call =>
      obtain ⟨-, ⟨⟩⟩ := Option.ite_none_right_eq_some.mp enabled
      refine ⟨fun other same returned => ?_, fun _ e _ held _ => held⟩
      obtain rfl := Option.some.inj same
      simp only [Function.update_self, afterGet] at returned
      split at returned
      · cases returned
      · split at returned <;> cases returned
  | pexpire call =>
      obtain ⟨isOwned, ⟨⟩⟩ := Option.ite_none_right_eq_some.mp enabled
      have got := owned call isOwned
      refine ⟨fun other same _ => ?_, fun other e same held foreign => ?_⟩
      · obtain rfl := Option.some.inj same
        dsimp only
        rw [ExpiringKey.get_pexpire, got]
      · obtain rfl := Option.some.inj same
        obtain ⟨e', held', value⟩ := ExpiringKey.get_eq_some.mp got
        rw [held] at held'
        obtain rfl := Option.some.inj held'
        exact absurd value foreign
  | set call =>
      obtain ⟨-, ⟨⟩⟩ := Option.ite_none_right_eq_some.mp enabled
      exact lawful_acquireLock s rfl
  | fail call => exact ⟨fun _ same => (nomatch same), fun _ _ same => (nomatch same)⟩
  | pass ms => exact ⟨fun _ same => (nomatch same), fun _ _ same => (nomatch same)⟩

/-- In a run where the lock never expires between a renewal's `GET` and its `PEXPIRE`,
    a call returns `true` only with its id in the lock, and prolongs no other lock. -/
theorem lawful {ts : List (Machine.Transition (ElectionState ι) ElectionAction)}
    (run : Machine.Run (step calls) {} ts s) (unexpired : ∀ x ∈ ts, Unexpired x.pre x.act) :
    ∀ x ∈ ts, Lawful calls x := by
  intro x hx
  have start : Owned calls ({} : ElectionState ι) := by
    intro call isOwned
    cases isOwned
  obtain ⟨owned, enabled⟩ := run.guarded_pre (fun _ _ _ => owned_step) start unexpired x hx
  exact lawful_step owned enabled

/-- Two workers; the first one renews. -/
def twoWorkers (call : Nat) : ElectionCall Nat := ⟨if call < 2 then 1 else 2, 5000⟩

theorem renewal_lawful :
    ∃ ts s, Machine.Run (step twoWorkers) {} ts s ∧
      ts.map (·.act) = [.acquire 0, .pass 3000, .get 1, .pass 1, .pexpire 1] ∧ ∀ x ∈ ts, Lawful twoWorkers x := by
  have run : Machine.Run (step twoWorkers) {} [⟨_, .acquire 0, _⟩, ⟨_, .pass 3000, _⟩, ⟨_, .get 1, _⟩, ⟨_, .pass 1, _⟩,
      ⟨_, .pexpire 1, _⟩] _ := .next rfl (.next rfl (.next rfl (.next rfl (.next rfl (.done _)))))
  refine ⟨_, _, run, rfl, lawful run ?_⟩
  intro x hx ms call e act _ held
  simp only [List.mem_cons, List.not_mem_nil, or_false] at hx
  rcases hx with rfl | rfl | rfl | rfl | rfl <;> cases act
  · obtain ⟨lock, -⟩ := ExpiringKey.live_eq_some.mp held
    cases lock
    decide
  · obtain ⟨lock, -⟩ := ExpiringKey.live_eq_some.mp held
    cases lock
    decide

/-- The lock expires after the `GET` of the first worker, and the second worker
    acquires it before the `PEXPIRE`. -/
theorem late_renewal_performed :
    (Machine.perform (step twoWorkers) {} [.acquire 0, .pass 5000, .get 1, .pass 1, .acquire 2, .pexpire 1]).any
      (fun r => r.1.any fun x => x.act = .pexpire 1 && x.post.phase 1 = .returned true &&
        ExpiringKey.get x.post.now x.post.lock = some 2) = true := by
  decide +kernel

theorem late_renewal_not_lawful :
    ¬ ∀ (calls : Nat → ElectionCall Nat) (ts : List (Machine.Transition (ElectionState Nat) ElectionAction))
        (s : ElectionState Nat), Machine.Run (step calls) {} ts s → ∀ x ∈ ts, Lawful calls x := by
  intro always
  obtain ⟨ts, s, run, broken⟩ := Machine.run_of_perform late_renewal_performed
  obtain ⟨x, hx, found⟩ := List.any_eq_true.mp broken
  simp only [Bool.and_eq_true, decide_eq_true_eq] at found
  have held := (always _ ts s run x hx).holds 1 (by rw [found.1.1]; rfl) found.1.2
  rw [found.2] at held
  cases held

end Master

end BetterBullBoard
