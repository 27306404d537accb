import Mathlib.Logic.Function.Basic
import BetterBullBoard.Lib.Machine

/-! # Cancelling a job over pub/sub

Every running job listens on the channel of its id. `cancelJob` publishes on
that channel until a pong arrives on the channel's pong channel. A message also
carries the party that sent it, which no party reads.
-/

namespace BetterBullBoard

/-- `bbb:cancellation:${jobId}` -/
def cancellationKey (jobId : String) : String := "bbb:cancellation:" ++ jobId

def pongKey (jobId : String) : String := cancellationKey jobId ++ ":pong"

inductive Party where
  | listener (j : Nat)
  | call (i : Nat)
  deriving Repr, DecidableEq

/-- `id` is all a payload holds. -/
structure CancelMessage where
  channel : String
  id : String
  sender : Party
  deriving Repr, DecidableEq

/-- The two checks of both message handlers. -/
def CancelMessage.isFor (m : CancelMessage) (channel jobId : String) : Bool :=
  m.channel = channel && m.id = jobId

/-- A run wrapped by `cancelable`. `answered` are the senders of the messages it
    answered, `thrown` those for which it has thrown `CancellationError` since. -/
structure Listener where
  queue : String
  jobId : String
  subscribed : Bool := true
  inbox : List CancelMessage := []
  answered : List Party := []
  thrown : List Party := []
  deriving Repr, DecidableEq

/-- Where a call of `cancelJob` stands. Redis may hold its subscription before
    the callback has set `subscribed`. -/
inductive CancelPhase where
  | getJob
  | getState
  | remove
  | waiting (listening subscribed : Bool)
  | returned
  | resolved (answerer : Party)
  | rejected
  deriving Repr, DecidableEq

structure CancelCall where
  queue : String
  jobId : String
  phase : CancelPhase := .getJob
  inbox : List CancelMessage := []
  deriving Repr, DecidableEq

def CancelCall.listening (k : CancelCall) : Bool :=
  match k.phase with
  | .waiting listening _ => listening
  | _ => false

/-- A message arrives at a connection subscribed to its channel. -/
def Listener.deliver (l : Listener) (m : CancelMessage) : Listener :=
  if l.subscribed && cancellationKey l.jobId = m.channel then { l with inbox := l.inbox ++ [m] } else l

def CancelCall.deliver (k : CancelCall) (m : CancelMessage) : CancelCall :=
  if k.listening && pongKey k.jobId = m.channel then { k with inbox := k.inbox ++ [m] } else k

structure Cancellation where
  listeners : Nat → Option Listener := fun _ => none
  calls : Nat → Option CancelCall := fun _ => none

/-- What one call of `cancelJob` goes through on its own, with the answers it is
    given. -/
inductive CancelStep where
  | gotJob (found : Bool)
  | gotState (state : String)
  | removed (done : Bool)
  | listen
  | subscribed
  | receive
  | timeout
  deriving Repr, DecidableEq

inductive CancelAction where
  | register (j : Nat) (queue jobId : String)
  | handle (j : Nat)
  | throw (j : Nat) (p : Party)
  | stop (j : Nat)
  | cancelJob (i : Nat) (queue jobId : String)
  | cancel (i : Nat) (step : CancelStep)
  | publish (i : Nat)
  deriving Repr, DecidableEq

namespace Cancellation

def setListener (s : Cancellation) (j : Nat) (l : Listener) : Cancellation :=
  { s with listeners := Function.update s.listeners j (some l) }

def setCall (s : Cancellation) (i : Nat) (k : CancelCall) : Cancellation :=
  { s with calls := Function.update s.calls i (some k) }

/-- `PUBLISH`: every connection subscribed to the channel gets the message. -/
def publish (s : Cancellation) (m : CancelMessage) : Cancellation where
  listeners j := (s.listeners j).map (·.deliver m)
  calls i := (s.calls i).map (·.deliver m)

/-- What a running job sends and what `cancelJob` sends. -/
def pong (l : Listener) (j : Nat) : CancelMessage := ⟨pongKey l.jobId, l.jobId, .listener j⟩

def ping (k : CancelCall) (i : Nat) : CancelMessage := ⟨cancellationKey k.jobId, k.jobId, .call i⟩

/-- A listener takes the next message. After `stop` it still handles what it has
    received. -/
def handle (s : Cancellation) (j : Nat) (l : Listener) : Option Cancellation :=
  match l.inbox with
  | [] => none
  | m :: inbox =>
      if m.isFor (cancellationKey l.jobId) l.jobId then
        some ((s.setListener j { l with inbox, answered := m.sender :: l.answered }).publish (pong l j))
      else some (s.setListener j { l with inbox })

def cancelStep (k : CancelCall) : CancelStep → Option CancelCall
  | .gotJob found =>
      if k.phase = .getJob then some { k with phase := if found then .getState else .returned } else none
  | .gotState state =>
      if k.phase = .getState then
        some { k with phase := if state = "completed" || state = "failed" then .returned else .remove }
      else none
  | .removed done =>
      if k.phase = .remove then some { k with phase := if done then .returned else .waiting false false } else none
  | .listen => if k.phase = .waiting false false then some { k with phase := .waiting true false } else none
  | .subscribed => if k.phase = .waiting true false then some { k with phase := .waiting true true } else none
  | .receive =>
      match k.phase, k.inbox with
      | .waiting .., m :: inbox =>
          some (if m.isFor (pongKey k.jobId) k.jobId then { k with inbox, phase := .resolved m.sender }
            else { k with inbox })
      | _, _ => none
  | .timeout =>
      match k.phase with
      | .waiting .. => some { k with phase := .rejected }
      | _ => none

def step (s : Cancellation) : CancelAction → Option Cancellation
  | .register j queue jobId => if s.listeners j = none then some (s.setListener j { queue, jobId }) else none
  | .handle j => (s.listeners j).bind (s.handle j)
  | .throw j p =>
      (s.listeners j).bind fun l =>
        if p ∈ l.answered then some (s.setListener j { l with thrown := p :: l.thrown }) else none
  | .stop j => (s.listeners j).map fun l => s.setListener j { l with subscribed := false }
  | .cancelJob i queue jobId => if s.calls i = none then some (s.setCall i { queue, jobId }) else none
  | .cancel i step => (s.calls i).bind fun k => (cancelStep k step).map (s.setCall i)
  | .publish i =>
      (s.calls i).bind fun k => if k.phase = .waiting true true then some (s.publish (ping k i)) else none

/-- Whom a message came from: a call of `cancelJob` for this job of this queue. -/
def FromCall (s : Cancellation) (queue jobId : String) (p : Party) : Prop :=
  ∃ i k, p = .call i ∧ s.calls i = some k ∧ k.queue = queue ∧ k.jobId = jobId

/-- A run of this job of this queue, which answered. -/
def FromListener (s : Cancellation) (queue jobId : String) (p : Party) : Prop :=
  ∃ j l, p = .listener j ∧ s.listeners j = some l ∧ l.queue = queue ∧ l.jobId = jobId ∧ l.answered ≠ []

/-- A run throws only for calls that name it, and a call is resolved only by a
    run it names. -/
structure Targeted (s : Cancellation) : Prop where
  thrown : ∀ j l, s.listeners j = some l → ∀ p ∈ l.thrown, s.FromCall l.queue l.jobId p
  resolved : ∀ i k p, s.calls i = some k → k.phase = .resolved p → s.FromListener k.queue k.jobId p

/-- A message that is published reaches only parties of its own queue: no other
    queue has a job of that id running, or being cancelled, at that time. -/
def Apart (s : Cancellation) : CancelAction → Prop
  | .publish i => ∀ k, s.calls i = some k →
      ∀ j l, s.listeners j = some l → l.subscribed → l.jobId = k.jobId → l.queue = k.queue
  | .handle j => ∀ l m, s.listeners j = some l → l.inbox.head? = some m →
      m.isFor (cancellationKey l.jobId) l.jobId →
        ∀ i k, s.calls i = some k → k.listening → k.jobId = l.jobId → k.queue = l.queue
  | _ => True

/-! ## Channels -/

/-- The pong channel of a job may be the channel of another job, never its own. -/
theorem pongKey_ne (jobId : String) : pongKey jobId ≠ cancellationKey jobId := by
  intro h
  have longer := congrArg String.length h
  have suffixLength : ":pong".length = 5 := rfl
  simp only [pongKey, String.length_append, suffixLength] at longer
  omega

theorem isFor_iff {m : CancelMessage} {channel jobId : String} :
    m.isFor channel jobId ↔ m.channel = channel ∧ m.id = jobId := by
  simp [CancelMessage.isFor]

theorem ping_isFor {k : CancelCall} {i : Nat} {jobId : String}
    (h : (ping k i).isFor (cancellationKey jobId) jobId) : k.jobId = jobId := (isFor_iff.mp h).2

theorem pong_isFor {l : Listener} {j : Nat} {jobId : String}
    (h : (pong l j).isFor (pongKey jobId) jobId) : l.jobId = jobId := (isFor_iff.mp h).2

/-- A pong never passes the checks of a listener. -/
theorem pong_not_isFor (l : Listener) (j : Nat) (jobId : String) :
    ¬ (pong l j).isFor (cancellationKey jobId) jobId := by
  intro h
  obtain ⟨channel, id⟩ := isFor_iff.mp h
  obtain rfl : l.jobId = jobId := id
  exact pongKey_ne l.jobId channel

/-- A ping never passes the checks of `cancelJob`. -/
theorem ping_not_isFor (k : CancelCall) (i : Nat) (jobId : String) :
    ¬ (ping k i).isFor (pongKey jobId) jobId := by
  intro h
  obtain ⟨channel, id⟩ := isFor_iff.mp h
  obtain rfl : k.jobId = jobId := id
  exact pongKey_ne k.jobId channel.symm

/-! ## The invariant -/

structure ListenerOk (s : Cancellation) (l : Listener) : Prop where
  inbox : ∀ m ∈ l.inbox, m.isFor (cancellationKey l.jobId) l.jobId → s.FromCall l.queue l.jobId m.sender
  answered : ∀ p ∈ l.answered, s.FromCall l.queue l.jobId p
  thrown : ∀ p ∈ l.thrown, s.FromCall l.queue l.jobId p

structure CallOk (s : Cancellation) (k : CancelCall) : Prop where
  inbox : ∀ m ∈ k.inbox, m.isFor (pongKey k.jobId) k.jobId → s.FromListener k.queue k.jobId m.sender
  resolved : ∀ p, k.phase = .resolved p → s.FromListener k.queue k.jobId p

structure Inv (s : Cancellation) : Prop where
  listeners : ∀ j l, s.listeners j = some l → s.ListenerOk l
  calls : ∀ i k, s.calls i = some k → s.CallOk k

theorem Inv.targeted {s : Cancellation} (inv : s.Inv) : s.Targeted where
  thrown := fun j l hl => (inv.listeners j l hl).thrown
  resolved := fun i k p hk => (inv.calls i k hk).resolved p

/-- Parties keep their queue and job, and what they answered. -/
structure Keeps (s s' : Cancellation) : Prop where
  listeners : ∀ j l, s.listeners j = some l → ∃ l', s'.listeners j = some l' ∧
    l'.queue = l.queue ∧ l'.jobId = l.jobId ∧ (l.answered ≠ [] → l'.answered ≠ [])
  calls : ∀ i k, s.calls i = some k → ∃ k', s'.calls i = some k' ∧
    k'.queue = k.queue ∧ k'.jobId = k.jobId

section

variable {s s' : Cancellation} {queue jobId : String} {p : Party}

theorem Keeps.fromCall (keeps : Keeps s s') (h : s.FromCall queue jobId p) :
    s'.FromCall queue jobId p := by
  obtain ⟨i, k, rfl, found, rfl, rfl⟩ := h
  obtain ⟨k', found', sameQueue, sameJob⟩ := keeps.calls i k found
  exact ⟨i, k', rfl, found', sameQueue, sameJob⟩

theorem Keeps.fromListener (keeps : Keeps s s') (h : s.FromListener queue jobId p) :
    s'.FromListener queue jobId p := by
  obtain ⟨j, l, rfl, found, rfl, rfl, answered⟩ := h
  obtain ⟨l', found', sameQueue, sameJob, still⟩ := keeps.listeners j l found
  exact ⟨j, l', rfl, found', sameQueue, sameJob, still answered⟩

theorem Keeps.listenerOk (keeps : Keeps s s') {l : Listener} (h : s.ListenerOk l) : s'.ListenerOk l :=
  ⟨fun m hm passes => keeps.fromCall (h.inbox m hm passes),
    fun p hp => keeps.fromCall (h.answered p hp), fun p hp => keeps.fromCall (h.thrown p hp)⟩

theorem Keeps.callOk (keeps : Keeps s s') {k : CancelCall} (h : s.CallOk k) : s'.CallOk k :=
  ⟨fun m hm passes => keeps.fromListener (h.inbox m hm passes), fun p hp => keeps.fromListener (h.resolved p hp)⟩

theorem setListener_self (s : Cancellation) (j : Nat) (l : Listener) : (s.setListener j l).listeners j = some l :=
  Function.update_self ..

theorem setListener_keeps {j : Nat} {l : Listener}
    (old : ∀ l₀, s.listeners j = some l₀ →
      l.queue = l₀.queue ∧ l.jobId = l₀.jobId ∧ (l₀.answered ≠ [] → l.answered ≠ [])) :
    Keeps s (s.setListener j l) := by
  refine ⟨fun j' l' found => ?_, fun i k found => ⟨k, found, rfl, rfl⟩⟩
  cases Decidable.em (j' = j) with
  | inl same =>
      subst same
      exact ⟨l, setListener_self s j' l, old l' found⟩
  | inr other => exact ⟨l', by simpa only [setListener, Function.update_of_ne other] using found, rfl, rfl, id⟩

/-- One listener changes, keeping its queue, its job and its answers. -/
theorem Inv.setListener (inv : s.Inv) {j : Nat} {l : Listener}
    (old : ∀ l₀, s.listeners j = some l₀ →
      l.queue = l₀.queue ∧ l.jobId = l₀.jobId ∧ (l₀.answered ≠ [] → l.answered ≠ []))
    (ok : s.ListenerOk l) : (s.setListener j l).Inv := by
  have keeps := setListener_keeps old
  refine ⟨?_, fun i k found => keeps.callOk (inv.calls i k found)⟩
  refine (Function.forall_update_iff s.listeners fun _ o =>
    ∀ l', o = some l' → (s.setListener j l).ListenerOk l').mpr ⟨?_, fun j' _ l' found => ?_⟩
  · rintro _ ⟨⟩
    exact keeps.listenerOk ok
  · exact keeps.listenerOk (inv.listeners j' l' found)

/-- One call of `cancelJob` changes, keeping its queue and its job. -/
theorem Inv.setCall (inv : s.Inv) {i : Nat} {k : CancelCall}
    (old : ∀ k₀, s.calls i = some k₀ → k.queue = k₀.queue ∧ k.jobId = k₀.jobId)
    (ok : s.CallOk k) : (s.setCall i k).Inv := by
  have self : (s.setCall i k).calls i = some k := Function.update_self ..
  have keeps : Keeps s (s.setCall i k) := by
    refine ⟨fun j l found => ⟨l, found, rfl, rfl, id⟩, fun i' k' found => ?_⟩
    cases Decidable.em (i' = i) with
    | inl same =>
        subst same
        exact ⟨k, self, old k' found⟩
    | inr other =>
        exact ⟨k', by simpa only [Cancellation.setCall, Function.update_of_ne other] using found, rfl, rfl⟩
  refine ⟨fun j l found => keeps.listenerOk (inv.listeners j l found), ?_⟩
  refine (Function.forall_update_iff s.calls fun _ o =>
    ∀ k', o = some k' → (s.setCall i k).CallOk k').mpr ⟨?_, fun i' _ k' found => ?_⟩
  · rintro _ ⟨⟩
    exact keeps.callOk ok
  · exact keeps.callOk (inv.calls i' k' found)

/-- What a published message leaves alone. -/
theorem Listener.deliver_keeps (l : Listener) (m : CancelMessage) :
    (l.deliver m).queue = l.queue ∧ (l.deliver m).jobId = l.jobId ∧ (l.deliver m).answered = l.answered ∧
      (l.deliver m).thrown = l.thrown := by
  unfold Listener.deliver
  split <;> exact ⟨rfl, rfl, rfl, rfl⟩

theorem CancelCall.deliver_keeps (k : CancelCall) (m : CancelMessage) :
    (k.deliver m).queue = k.queue ∧ (k.deliver m).jobId = k.jobId ∧ (k.deliver m).phase = k.phase := by
  unfold CancelCall.deliver
  split <;> exact ⟨rfl, rfl, rfl⟩

theorem publish_keeps (s : Cancellation) (m : CancelMessage) : Keeps s (s.publish m) where
  listeners j l found := by
    obtain ⟨queue, jobId, answered, -⟩ := Listener.deliver_keeps l m
    exact ⟨l.deliver m, by simp only [publish, found, Option.map_some], queue, jobId, fun h => answered ▸ h⟩
  calls i k found := by
    obtain ⟨queue, jobId, -⟩ := CancelCall.deliver_keeps k m
    exact ⟨k.deliver m, by simp only [publish, found, Option.map_some], queue, jobId⟩

/-- Publishing a message that every party it reaches may take at face value. -/
theorem Inv.publish (inv : s.Inv) {m : CancelMessage}
    (listeners : ∀ j l, s.listeners j = some l → l.subscribed → m.isFor (cancellationKey l.jobId) l.jobId →
      s.FromCall l.queue l.jobId m.sender)
    (calls : ∀ i k, s.calls i = some k → k.listening → m.isFor (pongKey k.jobId) k.jobId →
      s.FromListener k.queue k.jobId m.sender) : (s.publish m).Inv := by
  have keeps := publish_keeps s m
  constructor
  · intro j l' found
    obtain ⟨l, before, rfl⟩ := Option.map_eq_some_iff.mp found
    have ok := keeps.listenerOk (inv.listeners j l before)
    unfold Listener.deliver
    split
    · rename_i reached
      rw [Bool.and_eq_true] at reached
      refine ⟨fun m' hm passes => ?_, ok.answered, ok.thrown⟩
      cases List.mem_append.mp hm with
      | inl earlier => exact ok.inbox m' earlier passes
      | inr new =>
          obtain rfl := List.mem_singleton.mp new
          exact keeps.fromCall (listeners j l before reached.1 passes)
    · exact ok
  · intro i k' found
    obtain ⟨k, before, rfl⟩ := Option.map_eq_some_iff.mp found
    have ok := keeps.callOk (inv.calls i k before)
    unfold CancelCall.deliver
    split
    · rename_i reached
      rw [Bool.and_eq_true] at reached
      refine ⟨fun m' hm passes => ?_, ok.resolved⟩
      cases List.mem_append.mp hm with
      | inl earlier => exact ok.inbox m' earlier passes
      | inr new =>
          obtain rfl := List.mem_singleton.mp new
          exact keeps.fromListener (calls i k before reached.1 passes)
    · exact ok

/-! ## The steps -/

theorem Inv.handle (inv : s.Inv) {j : Nat} {l : Listener} (found : s.listeners j = some l)
    (apart : s.Apart (.handle j)) (h : s.handle j l = some s') : s'.Inv := by
  have ok := inv.listeners j l found
  have sameParty : ∀ {l' : Listener}, l'.queue = l.queue → l'.jobId = l.jobId →
      (l.answered ≠ [] → l'.answered ≠ []) → ∀ l₀, s.listeners j = some l₀ →
        l'.queue = l₀.queue ∧ l'.jobId = l₀.jobId ∧ (l₀.answered ≠ [] → l'.answered ≠ []) := by
    intro l' queue jobId answered l₀ found₀
    obtain rfl := Option.some.inj (found.symm.trans found₀)
    exact ⟨queue, jobId, answered⟩
  unfold Cancellation.handle at h
  cases waiting : l.inbox with
  | nil => simp [waiting] at h
  | cons m inbox =>
      have rest : ∀ m' ∈ inbox, m' ∈ l.inbox := fun m' hm => waiting ▸ List.mem_cons_of_mem _ hm
      simp only [waiting] at h
      split at h
      · rename_i passes
        obtain rfl := Option.some.inj h
        have asked := ok.inbox m (waiting ▸ List.mem_cons_self) passes
        have inv' := inv.setListener (j := j) (l := { l with inbox, answered := m.sender :: l.answered })
          (sameParty rfl rfl fun _ => List.cons_ne_nil _ _)
          ⟨fun m' hm => ok.inbox m' (rest m' hm), List.forall_mem_cons.mpr ⟨asked, ok.answered⟩, ok.thrown⟩
        apply inv'.publish
        · intro _ l' _ _ pass
          exact absurd pass (pong_not_isFor l j l'.jobId)
        · intro i k hk listening pass
          have same := pong_isFor pass
          have queue := apart l m found (by rw [waiting]; rfl) passes i k hk listening same.symm
          exact ⟨j, _, rfl, setListener_self .., queue.symm, same, List.cons_ne_nil _ _⟩
      · obtain rfl := Option.some.inj h
        exact inv.setListener (sameParty rfl rfl id) ⟨fun m' hm => ok.inbox m' (rest m' hm), ok.answered, ok.thrown⟩

/-- A call moves on its own and keeps its queue and job. -/
theorem cancelStep_same {k k' : CancelCall} {a : CancelStep} (h : cancelStep k a = some k') :
    k'.queue = k.queue ∧ k'.jobId = k.jobId := by
  cases a with
  | gotJob | gotState | removed | listen | subscribed =>
      obtain ⟨-, ⟨⟩⟩ := Option.ite_none_right_eq_some.mp h
      exact ⟨rfl, rfl⟩
  | timeout =>
      simp only [cancelStep] at h
      split at h
      · obtain rfl := Option.some.inj h
        exact ⟨rfl, rfl⟩
      · cases h
  | receive =>
      simp only [cancelStep] at h
      split at h
      · obtain rfl := Option.some.inj h
        split <;> exact ⟨rfl, rfl⟩
      · cases h

/-- It resolves only by a message that passed its checks. -/
theorem cancelStep_ok {k k' : CancelCall} {a : CancelStep} (ok : s.CallOk k) (h : cancelStep k a = some k') :
    s.CallOk k' := by
  have moved : ∀ {phase : CancelPhase}, (∀ p, phase ≠ .resolved p) →
      s.CallOk { k with phase } := fun plain => ⟨ok.inbox, fun p eq => absurd eq (plain p)⟩
  cases a with
  | gotJob found =>
      obtain ⟨-, eq⟩ := Option.ite_none_right_eq_some.mp h
      obtain rfl := Option.some.inj eq
      exact moved fun p => by split <;> nofun
  | gotState state =>
      obtain ⟨-, eq⟩ := Option.ite_none_right_eq_some.mp h
      obtain rfl := Option.some.inj eq
      exact moved fun p => by split <;> nofun
  | removed done =>
      obtain ⟨-, eq⟩ := Option.ite_none_right_eq_some.mp h
      obtain rfl := Option.some.inj eq
      exact moved fun p => by split <;> nofun
  | listen =>
      obtain ⟨-, eq⟩ := Option.ite_none_right_eq_some.mp h
      obtain rfl := Option.some.inj eq
      exact moved nofun
  | subscribed =>
      obtain ⟨-, eq⟩ := Option.ite_none_right_eq_some.mp h
      obtain rfl := Option.some.inj eq
      exact moved nofun
  | timeout =>
      simp only [cancelStep] at h
      split at h
      · obtain rfl := Option.some.inj h
        exact moved nofun
      · simp at h
  | receive =>
      simp only [cancelStep] at h
      split at h
      · rename_i m inbox _ waiting
        obtain rfl := Option.some.inj h
        have rest : ∀ m' ∈ inbox, m' ∈ k.inbox := fun m' hm => waiting ▸ List.mem_cons_of_mem _ hm
        split
        · rename_i passes
          refine ⟨fun m' hm => ok.inbox m' (rest m' hm), fun p eq => ?_⟩
          obtain rfl := CancelPhase.resolved.inj eq
          exact ok.inbox m (waiting ▸ List.mem_cons_self) passes
        · exact ⟨fun m' hm => ok.inbox m' (rest m' hm), ok.resolved⟩
      · simp at h

/-- A step keeps the invariant if what it publishes stays in its queue. -/
theorem Inv.step {a : CancelAction} (inv : s.Inv) (apart : s.Apart a) (h : step s a = some s') : s'.Inv := by
  cases a with
  | register j queue jobId =>
      obtain ⟨free, eq⟩ := Option.ite_none_right_eq_some.mp h
      obtain rfl := Option.some.inj eq
      exact inv.setListener (fun l₀ found => by simp [free] at found) ⟨by simp, by simp, by simp⟩
  | handle j =>
      obtain ⟨l, found, h⟩ := Option.bind_eq_some_iff.mp h
      exact inv.handle found apart h
  | throw j p =>
      obtain ⟨l, found, h⟩ := Option.bind_eq_some_iff.mp h
      obtain ⟨answered, eq⟩ := Option.ite_none_right_eq_some.mp h
      obtain rfl := Option.some.inj eq
      have ok := inv.listeners j l found
      refine inv.setListener (fun l₀ found₀ => ?_)
        ⟨ok.inbox, ok.answered, List.forall_mem_cons.mpr ⟨ok.answered p answered, ok.thrown⟩⟩
      obtain rfl := Option.some.inj (found.symm.trans found₀)
      exact ⟨rfl, rfl, id⟩
  | stop j =>
      obtain ⟨l, found, rfl⟩ := Option.map_eq_some_iff.mp h
      have ok := inv.listeners j l found
      refine inv.setListener (fun l₀ found₀ => ?_) ⟨ok.inbox, ok.answered, ok.thrown⟩
      obtain rfl := Option.some.inj (found.symm.trans found₀)
      exact ⟨rfl, rfl, id⟩
  | cancelJob i queue jobId =>
      obtain ⟨free, eq⟩ := Option.ite_none_right_eq_some.mp h
      obtain rfl := Option.some.inj eq
      exact inv.setCall (fun k₀ found => by simp [free] at found) ⟨by simp, nofun⟩
  | cancel i step =>
      obtain ⟨k, found, h⟩ := Option.bind_eq_some_iff.mp h
      obtain ⟨k', moved, rfl⟩ := Option.map_eq_some_iff.mp h
      obtain ⟨queue, jobId⟩ := cancelStep_same moved
      refine inv.setCall (fun k₀ found₀ => ?_) (cancelStep_ok (inv.calls i k found) moved)
      obtain rfl := Option.some.inj (found.symm.trans found₀)
      exact ⟨queue, jobId⟩
  | publish i =>
      obtain ⟨k, found, h⟩ := Option.bind_eq_some_iff.mp h
      obtain ⟨-, eq⟩ := Option.ite_none_right_eq_some.mp h
      obtain rfl := Option.some.inj eq
      apply inv.publish
      · intro j l hl subscribed pass
        have same := ping_isFor pass
        exact ⟨i, k, rfl, found, (apart k found j l hl subscribed same.symm).symm, same⟩
      · intro _ k' _ _ pass
        exact absurd pass (ping_not_isFor k i k'.jobId)

end

/-- In any interleaving whose messages stay in their queues, every run that is
    told to stop and every call that is told it succeeded was told by a party of
    its own queue and job. -/
theorem cancellation_targets_one_job {s : Cancellation} {ts : List (Machine.Transition Cancellation CancelAction)}
    (run : Machine.Run step {} ts s) (apart : ∀ x ∈ ts, x.pre.Apart x.act) :
    ∀ x ∈ Machine.states {} ts, x.Targeted := by
  have start : Inv {} := ⟨by simp, by simp⟩
  have inv := run.guarded (I := Inv) (G := Apart) (fun _ _ _ inv apart h => inv.step apart h) start apart
  exact fun x hx => (inv x hx).targeted

/-! ## Ids of one queue each -/

/-- Runs and calls name jobs of the queue that their id is of. -/
def Names (queueOf : String → String) : CancelAction → Prop
  | .register _ queue jobId | .cancelJob _ queue jobId => queue = queueOf jobId
  | _ => True

instance (queueOf : String → String) (a : CancelAction) : Decidable (Names queueOf a) := by
  cases a with
  | register j queue jobId => exact inferInstanceAs (Decidable (queue = queueOf jobId))
  | cancelJob i queue jobId => exact inferInstanceAs (Decidable (queue = queueOf jobId))
  | _ => exact inferInstanceAs (Decidable True)

structure OfQueue (queueOf : String → String) (s : Cancellation) : Prop where
  listeners : ∀ j l, s.listeners j = some l → l.queue = queueOf l.jobId
  calls : ∀ i k, s.calls i = some k → k.queue = queueOf k.jobId

section

variable {queueOf : String → String} {s s' : Cancellation}

theorem OfQueue.apart (own : OfQueue queueOf s) (a : CancelAction) : s.Apart a := by
  cases a with
  | publish i =>
      intro k hk j l hl _ same
      rw [own.listeners j l hl, own.calls i k hk, same]
  | handle j =>
      intro l m hl _ _ i k hk _ same
      rw [own.listeners j l hl, own.calls i k hk, same]
  | _ => trivial

theorem OfQueue.setListener (own : OfQueue queueOf s) (j : Nat) {l : Listener} (same : l.queue = queueOf l.jobId) :
    OfQueue queueOf (s.setListener j l) where
  listeners := by
    refine (Function.forall_update_iff s.listeners fun _ o => ∀ l', o = some l' → l'.queue = queueOf l'.jobId).mpr
      ⟨?_, fun j' _ => own.listeners j'⟩
    rintro _ ⟨⟩
    exact same
  calls := own.calls

theorem OfQueue.setCall (own : OfQueue queueOf s) (i : Nat) {k : CancelCall} (same : k.queue = queueOf k.jobId) :
    OfQueue queueOf (s.setCall i k) where
  listeners := own.listeners
  calls := by
    refine (Function.forall_update_iff s.calls fun _ o => ∀ k', o = some k' → k'.queue = queueOf k'.jobId).mpr
      ⟨?_, fun i' _ => own.calls i'⟩
    rintro _ ⟨⟩
    exact same

theorem OfQueue.publish (own : OfQueue queueOf s) (m : CancelMessage) : OfQueue queueOf (s.publish m) where
  listeners j l' found := by
    obtain ⟨l, before, rfl⟩ := Option.map_eq_some_iff.mp found
    rw [(Listener.deliver_keeps l m).1, (Listener.deliver_keeps l m).2.1]
    exact own.listeners j l before
  calls i k' found := by
    obtain ⟨k, before, rfl⟩ := Option.map_eq_some_iff.mp found
    rw [(CancelCall.deliver_keeps k m).1, (CancelCall.deliver_keeps k m).2.1]
    exact own.calls i k before

theorem OfQueue.handle (own : OfQueue queueOf s) {j : Nat} {l : Listener} (found : s.listeners j = some l)
    (h : s.handle j l = some s') : OfQueue queueOf s' := by
  have same := own.listeners j l found
  unfold Cancellation.handle at h
  split at h
  · cases h
  · split at h
    · obtain rfl := Option.some.inj h
      refine (own.setListener j ?_).publish _
      exact same
    · obtain rfl := Option.some.inj h
      exact own.setListener j same

theorem OfQueue.step {a : CancelAction} (own : OfQueue queueOf s) (names : Names queueOf a)
    (h : step s a = some s') : OfQueue queueOf s' := by
  cases a with
  | register j queue jobId =>
      obtain ⟨-, ⟨⟩⟩ := Option.ite_none_right_eq_some.mp h
      exact own.setListener j names
  | handle j =>
      obtain ⟨l, found, h⟩ := Option.bind_eq_some_iff.mp h
      exact own.handle found h
  | throw j p =>
      obtain ⟨l, found, h⟩ := Option.bind_eq_some_iff.mp h
      obtain ⟨-, ⟨⟩⟩ := Option.ite_none_right_eq_some.mp h
      exact own.setListener j (own.listeners j l found)
  | stop j =>
      obtain ⟨l, found, rfl⟩ := Option.map_eq_some_iff.mp h
      exact own.setListener j (own.listeners j l found)
  | cancelJob i queue jobId =>
      obtain ⟨-, ⟨⟩⟩ := Option.ite_none_right_eq_some.mp h
      exact own.setCall i names
  | cancel i step =>
      obtain ⟨k, found, h⟩ := Option.bind_eq_some_iff.mp h
      obtain ⟨k', moved, rfl⟩ := Option.map_eq_some_iff.mp h
      obtain ⟨queue, jobId⟩ := cancelStep_same moved
      exact own.setCall i (by rw [queue, jobId, own.calls i k found])
  | publish i =>
      obtain ⟨k, -, h⟩ := Option.bind_eq_some_iff.mp h
      obtain ⟨-, ⟨⟩⟩ := Option.ite_none_right_eq_some.mp h
      exact own.publish _

/-- So where no id is of two queues, messages stay in their queues. -/
theorem apart_of_names {ts : List (Machine.Transition Cancellation CancelAction)} (run : Machine.Run step {} ts s)
    (names : ∀ x ∈ ts, Names queueOf x.act) : ∀ x ∈ ts, x.pre.Apart x.act := by
  have start : OfQueue queueOf {} := ⟨nofun, nofun⟩
  intro x hx
  have own := run.guarded_pre (I := OfQueue queueOf) (G := fun _ => Names queueOf)
    (fun _ _ _ own names h => own.step names h) start names
  exact (own x hx).1.apart x.act

end

/-- Job 1 of `mail` and job 2 of `invoices` are running and being cancelled. Each answers
    its own call. -/
def twoJobs : List CancelAction :=
  [.register 0 "mail" "1", .register 1 "invoices" "2", .cancelJob 0 "mail" "1", .cancelJob 1 "invoices" "2",
    .cancel 0 (.gotJob true), .cancel 0 (.gotState "active"), .cancel 0 (.removed false), .cancel 1 (.gotJob true),
    .cancel 1 (.gotState "active"), .cancel 1 (.removed false), .cancel 0 .listen, .cancel 1 .listen,
    .cancel 0 .subscribed, .publish 0, .cancel 1 .subscribed, .handle 0, .publish 1, .throw 0 (.call 0),
    .cancel 0 .receive, .handle 1, .throw 1 (.call 1), .cancel 1 .receive]

def queueOfTwo (jobId : String) : String := if jobId = "1" then "mail" else "invoices"

theorem cancellation_targets_one_job_each :
    ∃ ts s, Machine.Run step {} ts s ∧ (s.listeners 0).map (·.thrown) = some [.call 0] ∧
      (s.listeners 1).map (·.thrown) = some [.call 1] ∧
      (s.calls 0).map (·.phase) = some (.resolved (.listener 0)) ∧
      (s.calls 1).map (·.phase) = some (.resolved (.listener 1)) ∧ ∀ x ∈ Machine.states {} ts, x.Targeted := by
  have performed : Machine.perform step {} twoJobs = some _ := rfl
  have run := Machine.perform_run performed
  have names : ∀ a ∈ twoJobs, Names queueOfTwo a := by decide
  rw [← Machine.perform_acts performed, List.forall_mem_map] at names
  exact ⟨_, _, run, rfl, rfl, rfl, rfl, cancellation_targets_one_job run (apart_of_names run names)⟩

/-- Job 1 of `invoices` is running as well, and answers first. -/
def twoQueues : List CancelAction :=
  [.register 0 "mail" "1", .register 1 "invoices" "1", .cancelJob 0 "mail" "1", .cancel 0 (.gotJob true),
    .cancel 0 (.gotState "active"), .cancel 0 (.removed false), .cancel 0 .listen, .cancel 0 .subscribed,
    .publish 0, .handle 1, .throw 1 (.call 0), .cancel 0 .receive]

/-- The run of `invoices` throws, and the call for `mail` resolves. -/
theorem cancellation_reaches_other_queue :
    ¬ ∀ (ts : List (Machine.Transition Cancellation CancelAction)) (s : Cancellation),
      Machine.Run step {} ts s → ∀ x ∈ Machine.states {} ts, x.Targeted := by
  intro always
  have performed : Machine.perform step {} twoQueues = some _ := rfl
  have run := Machine.perform_run performed
  have targeted := always _ _ run _ (List.mem_cons_of_mem _ (List.getLast_mem (by simp)))
  obtain ⟨i, k, same, found, queue, -⟩ := targeted.thrown 1 _ rfl (.call 0) List.mem_cons_self
  obtain rfl := Party.call.inj same
  obtain rfl := Option.some.inj found
  exact absurd queue (by decide)

end Cancellation

end BetterBullBoard
