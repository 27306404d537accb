import BetterBullBoard.Lib.JoinedText
import BetterBullBoard.Lib.JsText
import BetterBullBoard.Lib.Machine
import BetterBullBoard.Lib.Timeouts

/-! # The WebSocket server

Refresh messages go to all clients, those of one key at most once a second: a
message that comes earlier waits for a timer.
-/

namespace BetterBullBoard

inductive WebSocketMessageType where
  | singleJobRefresh | singleQueueRefresh | singleJobSchedulerRefresh | jobLogRefresh | jobRefresh | queueRefresh
  | jobSchedulerRefresh
  deriving Repr, DecidableEq

def WebSocketMessageType.text : WebSocketMessageType → String
  | .singleJobRefresh => "single-job-refresh"
  | .singleQueueRefresh => "single-queue-refresh"
  | .singleJobSchedulerRefresh => "single-job-scheduler-refresh"
  | .jobLogRefresh => "job-log-refresh"
  | .jobRefresh => "job-refresh"
  | .queueRefresh => "queue-refresh"
  | .jobSchedulerRefresh => "job-scheduler-refresh"

inductive WebSocketDataField where
  | id | queueName | jobId | schedulerKey
  deriving Repr, DecidableEq

def WebSocketDataField.text : WebSocketDataField → String
  | .id => "id"
  | .queueName => "queueName"
  | .jobId => "jobId"
  | .schedulerKey => "schedulerKey"

structure WebSocketMessage where
  type : WebSocketMessageType
  /-- The properties that are defined, in order. -/
  data : List (WebSocketDataField × String)
  deriving Repr, DecidableEq

namespace WebSocketMessage

def dataText (m : WebSocketMessage) : String :=
  JsText.object (m.data.map fun p => (p.1.text, JsText.quote p.2))

/-- What the clients get. -/
def messageStr (m : WebSocketMessage) : String :=
  JsText.object [("type", JsText.quote m.type.text), ("data", m.dataText)]

def key (m : WebSocketMessage) : String := m.type.text ++ ":" ++ m.dataText

/-- Messages of one key are one text. -/
theorem messageStr_of_key {m m' : WebSocketMessage} (same : m.key = m'.key) : m.messageStr = m'.messageStr := by
  have plain : ∀ (t : WebSocketMessageType) (a b : String), t.text ≠ a ++ ":" ++ b := by
    intro t a b split
    have noColon : ':' ∉ t.text.toList := by cases t <;> decide
    exact noColon (by simp [split])
  rcases (JoinedText.append_eq_iff rfl).mp same with ⟨type, data⟩ | ⟨a, split, -⟩ | ⟨a, split, -⟩
  · rw [messageStr, messageStr, type, data]
  · exact absurd split (plain _ _ _)
  · exact absurd split (plain _ _ _)

end WebSocketMessage

/-- A call of `sendToAll`: the text, and the clients it was sent to. -/
structure Sending where
  text : String
  clients : List Nat
  deriving Repr, DecidableEq

structure WebSocketServer where
  clients : List Nat := []
  lastSent : List (String × Int) := []
  pending : List (String × WebSocketMessage) := []
  timers : List (String × Nat) := []
  /-- A timer's callback is closed over its key. -/
  eventLoop : Timeouts String := .start
  sent : List Sending := []

/-- `reached` says which clients are open and take the text, `now` what the clock
    answers. -/
inductive WebSocketAction where
  | connection (client : Nat)
  | close (client : Nat)
  | broadcast (message : WebSocketMessage) (now : Int) (reached : Nat → Bool)
  | pass (ms : Nat)
  | timeout (timer : Nat) (now : Int) (reached : Nat → Bool)

namespace WebSocketServer

def throttleMs : Int := 1000

/-- A client that is not open or does not take the text is dropped. -/
def sendToAll (message : WebSocketMessage) (reached : Nat → Bool) (s : WebSocketServer) : WebSocketServer :=
  { s with
    clients := s.clients.filter reached
    sent := s.sent ++ [⟨message.messageStr, s.clients.filter reached⟩] }

def broadcast (message : WebSocketMessage) (now : Int) (reached : Nat → Bool) (s : WebSocketServer) : WebSocketServer :=
  let last := (JsMap.get message.key s.lastSent).getD 0
  if throttleMs ≤ now - last then
    { s.sendToAll message reached with lastSent := JsMap.set message.key now s.lastSent }
  else
    let s := { s with pending := JsMap.set message.key message s.pending }
    if (JsMap.get message.key s.timers).isSome then s
    else
      let (timer, eventLoop) := s.eventLoop.setTimeout message.key (throttleMs - (now - last))
      { s with timers := JsMap.set message.key timer s.timers, eventLoop }

/-- The callback. -/
def onTimeout (key : String) (now : Int) (reached : Nat → Bool) (s : WebSocketServer) : WebSocketServer :=
  let s : WebSocketServer :=
    match JsMap.get key s.pending with
    | none => s
    | some pendingMsg =>
        { s.sendToAll pendingMsg reached with
          lastSent := JsMap.set key now s.lastSent
          pending := JsMap.delete key s.pending }
  { s with timers := JsMap.delete key s.timers }

def step (s : WebSocketServer) : WebSocketAction → Option WebSocketServer
  | .connection client => some { s with clients := if client ∈ s.clients then s.clients else s.clients ++ [client] }
  | .close client => some { s with clients := s.clients.filter (· ≠ client) }
  | .broadcast message now reached => some (s.broadcast message now reached)
  | .pass ms => some { s with eventLoop := s.eventLoop.pass ms }
  | .timeout timer now reached =>
      (s.eventLoop.fire timer).map fun r => { s with eventLoop := r.2 }.onTimeout r.1 now reached

/-- The key has a timer that will fire. -/
def HasTimer (s : WebSocketServer) (key : String) : Prop :=
  ∃ timer, JsMap.get key s.timers = some timer ∧ s.eventLoop.Armed timer key

/-- `timers` holds the armed timers, and a key with a message pending has one. -/
structure Inv (s : WebSocketServer) : Prop where
  armed_iff : ∀ key timer, JsMap.get key s.timers = some timer ↔ s.eventLoop.Armed timer key
  pending : ∀ key message, JsMap.get key s.pending = some message →
    message.key = key ∧ (JsMap.get key s.timers).isSome

theorem Inv.hasTimer {s : WebSocketServer} {key : String} (inv : s.Inv) (pending : (JsMap.get key s.pending).isSome) :
    s.HasTimer key := by
  obtain ⟨message, waiting⟩ := Option.isSome_iff_exists.mp pending
  obtain ⟨timer, found⟩ := Option.isSome_iff_exists.mp (inv.pending key message waiting).2
  exact ⟨timer, found, (inv.armed_iff key timer).mp found⟩

/-- A broadcast sends, or puts the message in the place of what was pending. -/
theorem broadcast_cases (message : WebSocketMessage) (now : Int) (reached : Nat → Bool) (s : WebSocketServer) :
    (s.broadcast message now reached =
      { s.sendToAll message reached with lastSent := JsMap.set message.key now s.lastSent }) ∨
    ((s.broadcast message now reached).pending = JsMap.set message.key message s.pending ∧
      (s.broadcast message now reached).sent = s.sent ∧
      (((JsMap.get message.key s.timers).isSome ∧ (s.broadcast message now reached).timers = s.timers ∧
          (s.broadcast message now reached).eventLoop = s.eventLoop) ∨
        ∃ wait, JsMap.get message.key s.timers = none ∧
          (s.broadcast message now reached).timers = JsMap.set message.key s.eventLoop.next s.timers ∧
          (s.broadcast message now reached).eventLoop = (s.eventLoop.setTimeout message.key wait).2)) := by
  unfold broadcast
  dsimp only
  split
  · exact .inl rfl
  · split
    · rename_i timed
      exact .inr ⟨rfl, rfl, .inl ⟨timed, rfl, rfl⟩⟩
    · rename_i untimed
      exact .inr ⟨rfl, rfl, .inr ⟨_, Option.not_isSome_iff_eq_none.mp untimed, rfl, rfl⟩⟩

theorem Inv.broadcast {s : WebSocketServer} (inv : s.Inv) (message : WebSocketMessage) (now : Int)
    (reached : Nat → Bool) : (s.broadcast message now reached).Inv := by
  rcases broadcast_cases message now reached s with
    sends | ⟨pending, -, ⟨timed, timers, eventLoop⟩ | ⟨wait, untimed, timers, eventLoop⟩⟩
  · rw [sends]
    exact ⟨inv.armed_iff, inv.pending⟩
  · constructor
    · rw [timers, eventLoop]
      exact inv.armed_iff
    · intro key m found
      rw [pending, JsMap.get_set] at found
      rw [timers]
      split at found
      · rename_i same
        obtain rfl := Option.some.inj found
        exact ⟨same, same ▸ timed⟩
      · exact inv.pending key m found
  · constructor
    · intro key timer
      rw [timers, eventLoop, JsMap.get_set, Timeouts.armed_setTimeout, ← inv.armed_iff]
      by_cases same : message.key = key
      · subst same
        simp [untimed, eq_comm]
      · simp [same, Ne.symm same]
    · intro key m found
      rw [pending, JsMap.get_set] at found
      rw [timers, JsMap.get_set]
      split at found
      · rename_i same
        obtain rfl := Option.some.inj found
        simp [same]
      · rename_i other
        rw [if_neg other]
        exact inv.pending key m found

/-- The callback sends what is pending and leaves nothing. -/
theorem onTimeout_cases (key : String) (now : Int) (reached : Nat → Bool) (s : WebSocketServer) :
    (s.onTimeout key now reached).timers = JsMap.delete key s.timers ∧
    (s.onTimeout key now reached).eventLoop = s.eventLoop ∧
    (∀ key', JsMap.get key' (s.onTimeout key now reached).pending =
      if key = key' then none else JsMap.get key' s.pending) ∧
    ∀ message, JsMap.get key s.pending = some message →
      (s.onTimeout key now reached).sent = s.sent ++ [⟨message.messageStr, s.clients.filter reached⟩] := by
  unfold onTimeout
  cases found : JsMap.get key s.pending with
  | none =>
      refine ⟨rfl, rfl, fun key' => ?_, fun _ h => by cases h⟩
      by_cases same : key = key'
      · rw [if_pos same]
        exact same ▸ found
      · rw [if_neg same]
  | some message =>
      refine ⟨rfl, rfl, fun key' => JsMap.get_delete key key' s.pending, fun message' h => ?_⟩
      obtain rfl := Option.some.inj h
      rfl

theorem Inv.onTimeout {s : WebSocketServer} {timer : Nat} {key : String} {eventLoop : Timeouts String} (inv : s.Inv)
    (fired : s.eventLoop.fire timer = some (key, eventLoop)) (now : Int) (reached : Nat → Bool) :
    ({ s with eventLoop }.onTimeout key now reached).Inv := by
  obtain ⟨armed, others⟩ := Timeouts.armed_of_fire fired
  obtain ⟨timers, eventLoop', pending, -⟩ := onTimeout_cases key now reached { s with eventLoop }
  constructor
  · intro key' timer'
    rw [timers, eventLoop', JsMap.get_delete, others]
    split
    · rename_i same
      subst same
      have only : s.eventLoop.Armed timer' key → timer' = timer := by
        rw [← inv.armed_iff] at armed ⊢
        exact fun found => Option.some.inj (found.symm.trans armed)
      simpa using fun other armed' => other (only armed')
    · rename_i other
      rw [inv.armed_iff]
      have apart : s.eventLoop.Armed timer' key' → timer' ≠ timer := by
        rintro armed' rfl
        exact other (armed.unique armed')
      exact ⟨fun armed' => ⟨apart armed', armed'⟩, And.right⟩
  · intro key' message found
    rw [pending] at found
    rw [timers, JsMap.get_delete]
    split at found
    · cases found
    · rename_i other
      rw [if_neg other]
      exact inv.pending key' message found

theorem inv_step {s s' : WebSocketServer} {a : WebSocketAction} (inv : s.Inv) (enabled : s.step a = some s') :
    s'.Inv := by
  cases a with
  | connection client | close client =>
      obtain rfl := Option.some.inj enabled
      exact ⟨inv.armed_iff, inv.pending⟩
  | broadcast message now reached =>
      obtain rfl := Option.some.inj enabled
      exact inv.broadcast message now reached
  | pass ms =>
      obtain rfl := Option.some.inj enabled
      exact ⟨inv.armed_iff, inv.pending⟩
  | timeout timer now reached =>
      obtain ⟨⟨key, eventLoop⟩, fired, rfl⟩ := Option.map_eq_some_iff.mp enabled
      exact inv.onTimeout fired now reached

theorem inv_start : ({} : WebSocketServer).Inv where
  armed_iff key timer := by simp [JsMap.get, Timeouts.Armed, Timeouts.start]
  pending key message found := by cases found

/-! ## No lost refresh -/

/-- The step calls `sendToAll` with this text. -/
def Sends (text : String) (x : Machine.Transition WebSocketServer WebSocketAction) : Prop :=
  ∃ clients, x.post.sent = x.pre.sent ++ [⟨text, clients⟩]

/-- The step is the firing of the key's timer. -/
def Fires (key : String) (x : Machine.Transition WebSocketServer WebSocketAction) : Prop :=
  ∃ timer now reached, x.act = .timeout timer now reached ∧ x.pre.eventLoop.Armed timer key

/-- After these steps the message has been sent, or the key's timer has not fired
    and is armed. -/
def SentOrArmed (message : WebSocketMessage) (steps : List (Machine.Transition WebSocketServer WebSocketAction))
    (s : WebSocketServer) : Prop :=
  (∃ x ∈ steps, Sends message.messageStr x) ∨ ((∀ x ∈ steps, ¬ Fires message.key x) ∧ s.HasTimer message.key)

/-- A message that is pending stays so until it is sent, by the firing of its timer
    at the latest. -/
theorem pending_step {s s' : WebSocketServer} {a : WebSocketAction} {message : WebSocketMessage} (inv : s.Inv)
    (pending : (JsMap.get message.key s.pending).isSome) (enabled : s.step a = some s') :
    Sends message.messageStr ⟨s, a, s'⟩ ∨
      (¬ Fires message.key ⟨s, a, s'⟩ ∧ (JsMap.get message.key s'.pending).isSome) := by
  cases a with
  | connection client | close client | pass ms =>
      obtain rfl := Option.some.inj enabled
      exact .inr ⟨fun ⟨_, _, _, act, _⟩ => (nomatch act), pending⟩
  | broadcast message' now reached =>
      obtain rfl := Option.some.inj enabled
      rcases broadcast_cases message' now reached s with sends | ⟨stored, -, -⟩
      · rw [sends]
        by_cases same : message'.key = message.key
        · rw [← WebSocketMessage.messageStr_of_key same]
          exact .inl ⟨_, rfl⟩
        · exact .inr ⟨fun ⟨_, _, _, act, _⟩ => (nomatch act), pending⟩
      · refine .inr ⟨fun ⟨_, _, _, act, _⟩ => (nomatch act), ?_⟩
        rw [stored, JsMap.get_set]
        split
        · rfl
        · exact pending
  | timeout timer now reached =>
      obtain ⟨⟨key, eventLoop⟩, fired, rfl⟩ := Option.map_eq_some_iff.mp enabled
      obtain ⟨armed, -⟩ := Timeouts.armed_of_fire fired
      obtain ⟨-, -, rest, sends⟩ := onTimeout_cases key now reached { s with eventLoop }
      by_cases same : key = message.key
      · subst same
        obtain ⟨message', found⟩ := Option.isSome_iff_exists.mp pending
        rw [← WebSocketMessage.messageStr_of_key (inv.pending _ _ found).1]
        exact .inl ⟨_, sends message' found⟩
      · refine .inr ⟨?_, ?_⟩
        · rintro ⟨timer', now', reached', act, armed'⟩
          cases act
          exact same (armed.unique armed')
        · rw [rest, if_neg same]
          exact pending

/-- A pending message, over any further steps. -/
theorem pending_run {s s' : WebSocketServer} {ts : List (Machine.Transition WebSocketServer WebSocketAction)}
    {message : WebSocketMessage} (inv : s.Inv) (pending : (JsMap.get message.key s.pending).isSome)
    (run : Machine.Run step s ts s') : SentOrArmed message ts s' := by
  induction run with
  | done s => exact .inr ⟨by simp, inv.hasTimer pending⟩
  | next enabled rest ih =>
      rcases pending_step inv pending enabled with sends | ⟨waits, pending⟩
      · exact .inl ⟨_, List.mem_cons_self, sends⟩
      · rcases ih (inv_step inv enabled) pending with ⟨x, hx, sends⟩ | ⟨unsent, timer⟩
        · exact .inl ⟨x, List.mem_cons_of_mem _ hx, sends⟩
        · exact .inr ⟨List.forall_mem_cons.mpr ⟨waits, unsent⟩, timer⟩

/-- The broadcast is followed, in its own step or at the latest when the timer its
    key then has fires, by a `sendToAll` of the same text. -/
def Followed (message : WebSocketMessage) (x : Machine.Transition WebSocketServer WebSocketAction)
    (after : List (Machine.Transition WebSocketServer WebSocketAction)) : Prop :=
  Sends message.messageStr x ∨ (x.post.HasTimer message.key ∧
    ∀ steps y rest, after = steps ++ y :: rest → SentOrArmed message (steps ++ [y]) y.post)

theorem no_lost_refresh {ts : List (Machine.Transition WebSocketServer WebSocketAction)} {s : WebSocketServer}
    (run : Machine.Run step {} ts s) :
    (∀ before x after, ts = before ++ x :: after → ∀ message now reached, x.act = .broadcast message now reached →
      Followed message x after) ∧
    ∀ t ∈ Machine.states {} ts, ∀ key, (JsMap.get key t.pending).isSome → t.HasTimer key := by
  constructor
  · rintro before x after rfl message now reached broadcast
    obtain ⟨u, first, rest⟩ := run.split
    have inv := first.invariant (fun _ _ _ => inv_step) inv_start
    cases rest with
    | next enabled rest =>
        rename_i a s'
        obtain rfl : a = .broadcast message now reached := broadcast
        have inv' := inv_step inv enabled
        obtain rfl := Option.some.inj enabled
        rcases broadcast_cases message now reached u with sends | ⟨stored, -, -⟩
        · exact .inl ⟨_, congrArg WebSocketServer.sent sends⟩
        · have pending : (JsMap.get message.key (u.broadcast message now reached).pending).isSome := by
            rw [stored, JsMap.get_set, if_pos rfl]
            rfl
          refine .inr ⟨inv'.hasTimer pending, ?_⟩
          rintro steps y later rfl
          obtain ⟨v, waiting, last⟩ := rest.split
          cases last with
          | next enabled' _ => exact pending_run inv' pending (waiting.append (.next enabled' (.done _)))
  · intro t ht key pending
    have inv : t.Inv := run.guarded (G := fun _ _ => True) (fun _ _ _ inv _ => inv_step inv) inv_start (by simp) t ht
    exact inv.hasTimer pending

def mailRefreshed : WebSocketMessage := ⟨.queueRefresh, [(.queueName, "mail")]⟩

/-- The second broadcast, 300 ms after the first, is sent when its timer fires. -/
def mailBroadcasts : List WebSocketAction :=
  [.connection 7, .broadcast mailRefreshed 5000 fun _ => true, .broadcast mailRefreshed 5300 fun _ => true, .pass 700,
    .timeout 0 6000 fun _ => true]

theorem mail_refresh_followed : ∃ ts s, Machine.Run step {} ts s ∧
    s.sent = List.replicate 2 ⟨mailRefreshed.messageStr, [7]⟩ ∧ ∃ before x after, ts = before ++ x :: after ∧
      x.act = .broadcast mailRefreshed 5300 (fun _ => true) ∧ Followed mailRefreshed x after := by
  have performed : Machine.perform step {} mailBroadcasts = some _ := rfl
  have run := Machine.perform_run performed
  exact ⟨_, _, run, rfl, [_, _], _, _, rfl, rfl, (no_lost_refresh run).1 [_, _] _ _ rfl _ _ _ rfl⟩

end WebSocketServer

end BetterBullBoard
