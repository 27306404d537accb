import Mathlib.Logic.Function.Basic
import BetterBullBoard.Lib.Machine

/-! # Subscribing to waiting jobs

`ensureSubscription` of a worker, called by an interval that does not wait for the
calls before. What a call does between two awaits is one step. Every call that
subscribes makes a handler of its own, named by the call.
-/

namespace BetterBullBoard

/-- A `QueueEvents` object: its `waiting` handlers, and whether it is connected. -/
structure QueueEvents where
  handlers : List Nat := []
  live : Bool := false
  deriving DecidableEq

inductive EnsurePhase where
  | called
  /-- At `await listener.waitUntilReady()`. -/
  | waitingReady
  /-- At `await listener.disconnect()` of this object. -/
  | disconnecting (object : Nat)
  | returned
  | threw
  deriving DecidableEq

def EnsurePhase.inFlight : EnsurePhase → Bool
  | .waitingReady | .disconnecting _ => true
  | _ => false

structure Subscription where
  isMaster : Bool := false
  listener : Option Nat := none
  subscribed : Bool := false
  messageHandler : Option Nat := none
  hasWaitingJobsEventsInitialized : Bool := false
  /-- Objects are numbered as they are created. -/
  objects : Nat → QueueEvents := fun _ => {}
  created : Nat := 0
  phase : Nat → EnsurePhase := fun _ => .called

inductive SubscriptionAction where
  | mastership (isMaster : Bool)
  | ensure (call : Nat)
  /-- `waitUntilReady` resolves or rejects. -/
  | ready (call : Nat) (ok : Bool)
  | disconnected (call : Nat) (ok : Bool)
  deriving DecidableEq

namespace Subscription

def setPhase (s : Subscription) (call : Nat) (phase : EnsurePhase) : Subscription :=
  { s with phase := Function.update s.phase call phase }

def setObject (s : Subscription) (object : Nat) (events : QueueEvents) : Subscription :=
  { s with objects := Function.update s.objects object events }

def returns (s : Subscription) (call : Nat) : Subscription :=
  { s.setPhase call .returned with hasWaitingJobsEventsInitialized := true }

/-- `listener ??= new QueueEvents(..)` -/
def withListener (s : Subscription) : Subscription :=
  match s.listener with
  | some _ => s
  | none => { s.setObject s.created { live := true } with listener := some s.created, created := s.created + 1 }

def subscribe (s : Subscription) (call : Nat) : Subscription :=
  { { s with subscribed := true }.withListener with messageHandler := some call }.setPhase call .waitingReady

/-- `if (messageHandler) listener.off("waiting", messageHandler)` -/
def listenerOff (s : Subscription) (object : Nat) : Subscription :=
  match s.messageHandler with
  | some handler =>
      s.setObject object { s.objects object with handlers := (s.objects object).handlers.erase handler }
  | none => s

def unsubscribes (s : Subscription) : Bool := !s.isMaster && s.subscribed && s.listener.isSome

/-- A call up to its await, or to its end. -/
def ensureSubscription (s : Subscription) (call : Nat) : Subscription :=
  if s.isMaster && !s.subscribed then s.subscribe call
  else
    match s.listener with
    | some object =>
        if s.unsubscribes then (s.listenerOff object).setPhase call (.disconnecting object) else s.returns call
    | none => s.returns call

/-- `listener.on("waiting", messageHandler)`, with the variables as they are by then. -/
def resumeReady (s : Subscription) (call : Nat) : Subscription :=
  match s.listener, s.messageHandler with
  | some object, some handler =>
      (s.setObject object { s.objects object with handlers := (s.objects object).handlers ++ [handler] }).returns call
  | _, _ => s.setPhase call .threw

def resumeDisconnected (s : Subscription) (call object : Nat) : Subscription :=
  { s.setObject object { s.objects object with live := false } with
    listener := none, messageHandler := none, subscribed := false }.returns call

def step (s : Subscription) : SubscriptionAction → Option Subscription
  | .mastership isMaster => some { s with isMaster }
  | .ensure call => if s.phase call = .called then some (s.ensureSubscription call) else none
  | .ready call ok =>
      if s.phase call = .waitingReady then some (if ok then s.resumeReady call else s.setPhase call .threw) else none
  | .disconnected call ok =>
      match s.phase call with
      | .disconnecting object => some (if ok then s.resumeDisconnected call object else s.setPhase call .threw)
      | _ => none

/-! ## What the four variables should say -/

/-- No call is in flight. -/
def Quiet (s : Subscription) : Prop := ∀ call, (s.phase call).inFlight = false

/-- `subscribed` is true exactly when a handler is attached to a live listener. -/
def Consistent (s : Subscription) : Prop :=
  s.subscribed = true ↔ ∃ object, (s.objects object).live = true ∧ (s.objects object).handlers ≠ []

/-- Nothing fails, and no call unsubscribes while another is in flight. -/
structure Orderly (s : Subscription) (a : SubscriptionAction) : Prop where
  ready : ∀ call, a ≠ .ready call false
  disconnected : ∀ call, a ≠ .disconnected call false
  alone : ∀ call, a = .ensure call → s.unsubscribes = true → Quiet s

/-! ## The stages of a worker -/

/-- Only this call is in flight, at this await. -/
def Alone (s : Subscription) (call : Nat) (phase : EnsurePhase) : Prop :=
  s.phase call = phase ∧ ∀ other, other ≠ call → (s.phase other).inFlight = false

/-- No live object but perhaps this one has a handler. -/
def OnlyOn (s : Subscription) (here : Nat → Prop) : Prop :=
  ∀ object, ¬ here object → (s.objects object).live = true → (s.objects object).handlers = []

inductive Stage (s : Subscription) : Prop where
  | unsubscribed : Quiet s → s.subscribed = false → s.listener = none → s.OnlyOn (fun _ => False) → Stage s
  | subscribing (call object handler) : Alone s call .waitingReady → s.subscribed = true → s.listener = some object →
      s.messageHandler = some handler → (s.objects object).live = true → s.OnlyOn (fun _ => False) → Stage s
  | subscribed (object) : Quiet s → s.subscribed = true → s.listener = some object → (s.objects object).live = true →
      (s.objects object).handlers ≠ [] → s.OnlyOn (· = object) → Stage s
  | unsubscribing (call object) : Alone s call (.disconnecting object) → s.subscribed = true →
      s.listener = some object → s.OnlyOn (· = object) → Stage s

variable {s t : Subscription}

theorem idle_update {call other : Nat} {phase : EnsurePhase} (this : other = call → phase.inFlight = false)
    (others : other ≠ call → (s.phase other).inFlight = false) :
    (Function.update s.phase call phase other).inFlight = false := by
  cases Decidable.em (other = call) with
  | inl same =>
      rw [same, Function.update_self]
      exact this same
  | inr apart =>
      rw [Function.update_of_ne apart]
      exact others apart

theorem Alone.eq {call other : Nat} {phase : EnsurePhase} (alone : Alone s call phase)
    (inFlight : (s.phase other).inFlight = true) : other = call := by
  by_contra apart
  rw [alone.2 other apart] at inFlight
  cases inFlight

theorem Alone.not_quiet {call : Nat} {phase : EnsurePhase} (alone : Alone s call phase)
    (inFlight : phase.inFlight = true) : ¬ Quiet s := by
  intro quiet
  have idle := quiet call
  rw [alone.1, inFlight] at idle
  cases idle

/-- Only one object changes: whether the others may have handlers stays as it was. -/
theorem OnlyOn.setObject {here there : Nat → Prop} (only : s.OnlyOn here) {object : Nat} {events : QueueEvents}
    (others : ∀ other, other ≠ object → ¬ there other → ¬ here other)
    (itself : ¬ there object → events.live = true → events.handlers = []) :
    (s.setObject object events).OnlyOn there := by
  intro other apart live
  simp only [Subscription.setObject] at live ⊢
  cases Decidable.em (other = object) with
  | inl same =>
      obtain rfl := same
      rw [Function.update_self] at live ⊢
      exact itself apart live
  | inr different =>
      rw [Function.update_of_ne different] at live ⊢
      exact only other (others other different apart) live

/-- A call that does nothing changes no stage. -/
theorem Stage.returns {call : Nat} (stage : Stage s) (idle : (s.phase call).inFlight = false) :
    Stage (s.returns call) := by
  have quiet : Quiet s → Quiet (s.returns call) := fun quiet other =>
    idle_update (fun _ => rfl) fun _ => quiet other
  have alone : ∀ {other phase}, Alone s other phase → phase.inFlight = true → Alone (s.returns call) other phase := by
    intro other phase alone inFlight
    have apart : other ≠ call := by
      intro same
      rw [← same, alone.1, inFlight] at idle
      cases idle
    exact ⟨(Function.update_of_ne apart ..).trans alone.1, fun third others =>
      idle_update (fun _ => rfl) fun _ => alone.2 third others⟩
  cases stage with
  | unsubscribed idle off null detached => exact .unsubscribed (quiet idle) off null detached
  | subscribing other object handler only on listener made live detached =>
      exact .subscribing other object handler (alone only rfl) on listener made live detached
  | subscribed object idle on listener live attached only =>
      exact .subscribed object (quiet idle) on listener live attached only
  | unsubscribing other object only on listener rest =>
      exact .unsubscribing other object (alone only rfl) on listener rest

/-- Subscribing starts where nothing is subscribed. -/
theorem Stage.subscribe (stage : Stage s) (off : s.subscribed = false) (call : Nat) : Stage (s.subscribe call) := by
  cases stage with
  | subscribing _ _ _ _ on => simp [on] at off
  | subscribed _ _ on => simp [on] at off
  | unsubscribing _ _ _ on => simp [on] at off
  | unsubscribed quiet _ null detached =>
      have made : s.subscribe call = { { { s.setObject s.created { live := true } with
          listener := some s.created, created := s.created + 1 } with
          subscribed := true } with messageHandler := some call }.setPhase call .waitingReady := by
        simp [Subscription.subscribe, withListener, null, setObject]
      rw [made]
      refine .subscribing call s.created call ⟨Function.update_self .., fun other apart => ?_⟩ rfl rfl rfl ?_ ?_
      · exact idle_update (fun same => absurd same apart) fun _ => quiet other
      · simp [setPhase, setObject]
      · exact detached.setObject (fun _ _ _ => id) fun _ _ => rfl

theorem listenerOff_eq (s : Subscription) (object : Nat) :
    ∃ events : QueueEvents, s.listenerOff object = s.setObject object events := by
  unfold listenerOff
  split
  · exact ⟨_, rfl⟩
  · exact ⟨s.objects object, by simp [setObject]⟩

/-- Unsubscribing starts where no other call is in flight. -/
theorem Stage.unsubscribe {call object : Nat} (stage : Stage s) (quiet : Quiet s) (on : s.subscribed = true)
    (listener : s.listener = some object) : Stage ((s.listenerOff object).setPhase call (.disconnecting object)) := by
  have rest : s.OnlyOn (· = object) := by
    cases stage with
    | unsubscribed _ off => simp [on] at off
    | subscribing _ _ _ alone => exact absurd quiet (alone.not_quiet rfl)
    | subscribed other _ _ listener' _ _ only =>
        rw [listener] at listener'
        cases listener'
        exact only
    | unsubscribing _ _ alone => exact absurd quiet (alone.not_quiet rfl)
  obtain ⟨events, off⟩ := listenerOff_eq s object
  rw [off]
  refine .unsubscribing call object ⟨Function.update_self .., fun other apart => ?_⟩ on listener ?_
  · exact idle_update (fun same => absurd same apart) fun _ => quiet other
  · exact rest.setObject (fun _ _ => id) fun elsewhere => absurd rfl elsewhere

theorem Stage.ensure {call : Nat} (stage : Stage s) (called : s.phase call = .called)
    (alone : s.unsubscribes = true → Quiet s) : Stage (s.ensureSubscription call) := by
  have idle : (s.phase call).inFlight = false := by rw [called]; rfl
  unfold ensureSubscription
  split
  · rename_i subscribes
    simp only [Bool.and_eq_true, Bool.not_eq_true'] at subscribes
    exact stage.subscribe subscribes.2 call
  · split
    · rename_i object listener
      split
      · rename_i unsubscribes
        have on : s.subscribed = true := by
          simp only [Subscription.unsubscribes, Bool.and_eq_true] at unsubscribes
          exact unsubscribes.1.2
        exact stage.unsubscribe (alone unsubscribes) on listener
      · exact stage.returns idle
    · exact stage.returns idle

/-- The listener is there when `waitUntilReady` resolves. -/
theorem Stage.listener {call : Nat} (stage : Stage s) (waiting : s.phase call = .waitingReady) :
    ∃ object handler, Alone s call .waitingReady ∧ s.subscribed = true ∧ s.listener = some object ∧
      s.messageHandler = some handler ∧ (s.objects object).live = true ∧ s.OnlyOn (fun _ => False) := by
  have inFlight : (s.phase call).inFlight = true := by rw [waiting]; rfl
  cases stage with
  | unsubscribed quiet => simp [quiet call] at inFlight
  | subscribing other object handler alone on listener made live detached =>
      obtain rfl := alone.eq inFlight
      exact ⟨object, handler, alone, on, listener, made, live, detached⟩
  | subscribed _ quiet => simp [quiet call] at inFlight
  | unsubscribing other object alone =>
      obtain rfl := alone.eq inFlight
      rw [alone.1] at waiting
      cases waiting

theorem Stage.resumeReady {call : Nat} (stage : Stage s) (waiting : s.phase call = .waitingReady) :
    Stage (s.resumeReady call) := by
  obtain ⟨object, handler, alone, on, listener, made, live, detached⟩ := stage.listener waiting
  have resumed : s.resumeReady call = (s.setObject object { s.objects object with
      handlers := (s.objects object).handlers ++ [handler] }).returns call := by
    simp [Subscription.resumeReady, listener, made]
  rw [resumed]
  refine .subscribed object (fun other => ?_) on listener ?_ ?_ ?_
  · exact idle_update (fun _ => rfl) (alone.2 other)
  · simpa [Subscription.returns, setPhase, setObject] using live
  · simp [Subscription.returns, setPhase, setObject]
  · exact detached.setObject (fun _ _ _ => id) fun elsewhere => absurd rfl elsewhere

theorem Stage.resumeDisconnected {call object : Nat} (stage : Stage s)
    (disconnecting : s.phase call = .disconnecting object) : Stage (s.resumeDisconnected call object) := by
  have inFlight : (s.phase call).inFlight = true := by rw [disconnecting]; rfl
  cases stage with
  | unsubscribed quiet => simp [quiet call] at inFlight
  | subscribed _ quiet => simp [quiet call] at inFlight
  | subscribing other _ _ alone =>
      obtain rfl := alone.eq inFlight
      rw [alone.1] at disconnecting
      cases disconnecting
  | unsubscribing other object' alone on listener rest =>
      obtain rfl := alone.eq inFlight
      rw [alone.1] at disconnecting
      cases disconnecting
      refine .unsubscribed (fun third => ?_) rfl rfl ?_
      · exact idle_update (fun _ => rfl) (alone.2 third)
      · exact rest.setObject (fun _ apart _ => apart) fun _ live => by cases live

theorem Stage.step {a : SubscriptionAction} (stage : Stage s) (orderly : Orderly s a)
    (enabled : Subscription.step s a = some t) : Stage t := by
  cases a with
  | mastership isMaster =>
      obtain rfl := Option.some.inj enabled
      cases stage with
      | unsubscribed quiet off null detached => exact .unsubscribed quiet off null detached
      | subscribing call object handler alone on listener made live detached =>
          exact .subscribing call object handler alone on listener made live detached
      | subscribed object quiet on listener live attached only =>
          exact .subscribed object quiet on listener live attached only
      | unsubscribing call object alone on listener rest => exact .unsubscribing call object alone on listener rest
  | ensure call =>
      obtain ⟨called, ⟨⟩⟩ := Option.ite_none_right_eq_some.mp enabled
      exact stage.ensure called (orderly.alone call rfl)
  | ready call ok =>
      obtain ⟨waiting, same⟩ := Option.ite_none_right_eq_some.mp enabled
      obtain rfl := Option.some.inj same
      cases ok with
      | false => exact absurd rfl (orderly.ready call)
      | true => exact stage.resumeReady waiting
  | disconnected call ok =>
      simp only [Subscription.step] at enabled
      split at enabled
      · rename_i object disconnecting
        obtain rfl := Option.some.inj enabled
        cases ok with
        | false => exact absurd rfl (orderly.disconnected call)
        | true => exact stage.resumeDisconnected disconnecting
      · cases enabled

theorem Stage.consistent (stage : Stage s) (quiet : Quiet s) : Consistent s := by
  cases stage with
  | unsubscribed _ off _ detached =>
      refine ⟨fun on => by simp [off] at on, fun ⟨object, live, attached⟩ => ?_⟩
      exact absurd (detached object id live) attached
  | subscribing _ _ _ alone => exact absurd quiet (alone.not_quiet rfl)
  | subscribed object _ on _ live attached => exact ⟨fun _ => ⟨object, live, attached⟩, fun _ => on⟩
  | unsubscribing _ _ alone => exact absurd quiet (alone.not_quiet rfl)

theorem stage_init : Stage {} := .unsubscribed (fun _ => rfl) rfl rfl fun _ _ _ => rfl

/-- What should hold of every run. -/
structure Steady (s : Subscription) (ts : List (Machine.Transition Subscription SubscriptionAction)) : Prop where
  consistent : ∀ u ∈ Machine.states s ts, Quiet u → Consistent u
  /-- No call uses a listener that another has set to null. -/
  notNull : ∀ x ∈ ts, ∀ call, x.act = .ready call true → x.pre.listener ≠ none

/-- An orderly run is steady. -/
theorem steady {ts : List (Machine.Transition Subscription SubscriptionAction)}
    (run : Machine.Run Subscription.step {} ts s) (orderly : ∀ x ∈ ts, Orderly x.pre x.act) : Steady {} ts where
  consistent u hu quiet := by
    have stages := run.guarded (fun _ _ _ => Stage.step) stage_init orderly
    exact (stages u hu).consistent quiet
  notNull x hx call act null := by
    obtain ⟨stage, enabled⟩ := run.guarded_pre (fun _ _ _ => Stage.step) stage_init orderly x hx
    rw [act] at enabled
    obtain ⟨waiting, -⟩ := Option.ite_none_right_eq_some.mp enabled
    obtain ⟨_, _, _, _, listener, _⟩ := stage.listener waiting
    rw [null] at listener
    cases listener

/-- A worker becomes master, subscribes, loses mastership and unsubscribes. -/
theorem elected_steady : ∃ ts s, Machine.Run Subscription.step {} ts s ∧
    ts.map (·.act) = [.mastership true, .ensure 0, .ready 0 true, .mastership false, .ensure 1, .disconnected 1 true] ∧
    Steady {} ts := by
  have run : Machine.Run Subscription.step {} [⟨_, .mastership true, _⟩, ⟨_, .ensure 0, _⟩, ⟨_, .ready 0 true, _⟩,
      ⟨_, .mastership false, _⟩, ⟨_, .ensure 1, _⟩, ⟨_, .disconnected 1 true, _⟩] _ :=
    .next rfl (.next rfl (.next rfl (.next rfl (.next rfl (.next rfl (.done _))))))
  refine ⟨_, _, run, rfl, steady run fun x hx => ?_⟩
  simp only [List.mem_cons, List.not_mem_nil, or_false] at hx
  constructor
  · rcases hx with rfl | rfl | rfl | rfl | rfl | rfl <;> simp
  · rcases hx with rfl | rfl | rfl | rfl | rfl | rfl <;> simp
  · intro call act unsubscribes
    rcases hx with rfl | rfl | rfl | rfl | rfl | rfl <;> cases act
    · cases unsubscribes
    · intro other
      cases other <;> rfl

/-- A second call unsubscribes while the first one waits for its listener. -/
theorem overtaken_performed :
    (Machine.perform Subscription.step {} [.mastership true, .ensure 0, .mastership false, .ensure 1,
      .disconnected 1 true, .ready 0 true]).any (fun r =>
        r.1.any fun x => x.act = .ready 0 true && x.pre.listener = none) = true := by
  decide +kernel

/-- A rejected wait leaves `subscribed` set without a handler, and an overtaken call
    finds no listener although nothing fails. -/
theorem not_steady :
    (¬ ∀ (ts : List (Machine.Transition Subscription SubscriptionAction)) (s : Subscription),
        Machine.Run Subscription.step {} ts s → ∀ u ∈ Machine.states {} ts, Quiet u → Consistent u) ∧
    ¬ ∀ (ts : List (Machine.Transition Subscription SubscriptionAction)) (s : Subscription),
        Machine.Run Subscription.step {} ts s →
        ∀ x ∈ ts, ∀ call, x.act = .ready call true → x.pre.listener ≠ none := by
  constructor
  · intro always
    have run : Machine.Run Subscription.step {}
        [⟨_, .mastership true, _⟩, ⟨_, .ensure 0, _⟩, ⟨_, .ready 0 false, _⟩] _ :=
      .next rfl (.next rfl (.next rfl (.done _)))
    let rejected := (({ isMaster := true } : Subscription).ensureSubscription 0).setPhase 0 .threw
    have quiet : Quiet rejected := fun call => by cases call <;> rfl
    have consistent := always _ _ run rejected run.last_mem quiet
    obtain ⟨object, _, attached⟩ := consistent.mp rfl
    apply attached
    cases object <;> rfl
  · intro always
    obtain ⟨ts, s, run, broken⟩ := Machine.run_of_perform overtaken_performed
    obtain ⟨x, hx, found⟩ := List.any_eq_true.mp broken
    simp only [Bool.and_eq_true, decide_eq_true_eq] at found
    exact always ts s run x hx 0 found.1 found.2

end Subscription

end BetterBullBoard
