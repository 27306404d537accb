import BetterBullBoard.WebSocket.Server

/-! # The throttle of the WebSocket server

A key is sent by a broadcast outside its window or by its timer. The timer is
due when the window ends, but it may be late; a broadcast that comes first sends
at once and leaves the pending message to the timer.
-/

namespace BetterBullBoard

namespace WebSocketAction

/-- What the clock answers in the step. -/
def clock : WebSocketAction → Option Int
  | .broadcast _ now _ | .timeout _ now _ => some now
  | _ => none

end WebSocketAction

namespace WebSocketServer

/-- The key the step may send. -/
def keyOf (s : WebSocketServer) : WebSocketAction → Option String
  | .broadcast message .. => some message.key
  | .timeout timer .. => (JsMap.get timer s.eventLoop.armed).map (·.callback)
  | _ => none

/-- When the step sends the key, if it does. -/
def sendTime (key : String) (x : Machine.Transition WebSocketServer WebSocketAction) : Option Int :=
  if x.pre.keyOf x.act = some key ∧ x.post.sent ≠ x.pre.sent then x.act.clock else none

/-- The times at which these steps send the key, in order. -/
def sendTimes (key : String) (ts : List (Machine.Transition WebSocketServer WebSocketAction)) : List Int :=
  ts.filterMap (sendTime key)

/-- Consecutive sends are a window apart. -/
def Apart (times : List Int) : Prop := times.IsChain fun a b => throttleMs ≤ b - a

instance (times : List Int) : Decidable (Apart times) := inferInstanceAs (Decidable (List.IsChain _ _))

/-- The clock and the timers measure the same time. -/
def Clocked (origin : Int) (x : Machine.Transition WebSocketServer WebSocketAction) : Prop :=
  ∀ now ∈ x.act.clock, now = origin + x.pre.eventLoop.elapsed

instance (origin : Int) (x : Machine.Transition WebSocketServer WebSocketAction) : Decidable (Clocked origin x) :=
  match h : x.act.clock with
  | none => .isTrue fun now found => by rw [h] at found; cases found
  | some now => decidable_of_iff (now = origin + x.pre.eventLoop.elapsed) (by simp [Clocked, h])

/-- A broadcast outside its window, of a key with a message still pending. -/
def Overtakes (s : WebSocketServer) : WebSocketAction → Prop
  | .broadcast message now _ => (JsMap.get message.key s.pending).isSome ∧
      throttleMs ≤ now - (JsMap.get message.key s.lastSent).getD 0
  | _ => False

instance (s : WebSocketServer) : (a : WebSocketAction) → Decidable (s.Overtakes a)
  | .broadcast .. => inferInstanceAs (Decidable (_ ∧ _))
  | .connection _ | .close _ | .pass _ | .timeout .. => inferInstanceAs (Decidable False)

/-- The timer of a pending message is due a window after the last send. -/
structure Throttled (origin : Int) (s : WebSocketServer) : Prop extends Inv s where
  waits : ∀ key, (JsMap.get key s.timers).isSome → (JsMap.get key s.pending).isSome
  past : ∀ key last, JsMap.get key s.lastSent = some last → last ≤ origin + s.eventLoop.elapsed
  due : ∀ key last timer due, JsMap.get key s.lastSent = some last →
    JsMap.get timer s.eventLoop.armed = some ⟨key, due⟩ → last + throttleMs ≤ origin + due

variable {s s' : WebSocketServer} {a : WebSocketAction} {message : WebSocketMessage} {now origin : Int}
  {reached : Nat → Bool} {key : String}

theorem broadcast_late (late : throttleMs ≤ now - (JsMap.get message.key s.lastSent).getD 0) :
    s.broadcast message now reached =
      { s.sendToAll message reached with lastSent := JsMap.set message.key now s.lastSent } := if_pos late

theorem broadcast_timed (early : now - (JsMap.get message.key s.lastSent).getD 0 < throttleMs)
    (timed : (JsMap.get message.key s.timers).isSome) :
    s.broadcast message now reached = { s with pending := JsMap.set message.key message s.pending } := by
  rw [broadcast, if_neg (by omega)]
  exact if_pos timed

theorem broadcast_untimed (early : now - (JsMap.get message.key s.lastSent).getD 0 < throttleMs)
    (untimed : JsMap.get message.key s.timers = none) :
    let (timer, eventLoop) := s.eventLoop.setTimeout message.key
      (throttleMs - (now - (JsMap.get message.key s.lastSent).getD 0))
    s.broadcast message now reached = { s with
      pending := JsMap.set message.key message s.pending
      timers := JsMap.set message.key timer s.timers
      eventLoop } := by
  rw [broadcast, if_neg (by omega)]
  exact if_neg (by simp [untimed])

theorem onTimeout_due {eventLoop : Timeouts String} (message : WebSocketMessage)
    (pending : JsMap.get key s.pending = some message) :
    { s with eventLoop }.onTimeout key now reached = { s.sendToAll message reached with
      lastSent := JsMap.set key now s.lastSent
      pending := JsMap.delete key s.pending
      timers := JsMap.delete key s.timers
      eventLoop } := by
  simp only [onTimeout, pending]
  rfl

/-- A send is longer than what was sent before. -/
theorem sendToAll_sent (message : WebSocketMessage) (reached : Nat → Bool) (s : WebSocketServer) :
    (s.sendToAll message reached).sent ≠ s.sent := by
  intro same
  simpa [sendToAll] using congrArg List.length same

theorem Throttled.exists_pending (h : s.Throttled origin) {timer due : Nat}
    (armed : JsMap.get timer s.eventLoop.armed = some ⟨key, due⟩) :
    JsMap.get key s.timers = some timer ∧ ∃ message, JsMap.get key s.pending = some message := by
  have timed := (h.armed_iff key timer).mpr ⟨due, armed⟩
  exact ⟨timed, Option.isSome_iff_exists.mp (h.waits key (by rw [timed]; rfl))⟩

/-- A key sent out of its window has no timer, unless it overtakes. -/
theorem Throttled.late (h : s.Throttled origin) (inv : (s.broadcast message now reached).Inv)
    (clock : now = origin + s.eventLoop.elapsed) (calm : ¬ s.Overtakes (.broadcast message now reached))
    (late : throttleMs ≤ now - (JsMap.get message.key s.lastSent).getD 0) :
    (s.broadcast message now reached).Throttled origin := by
  rw [broadcast_late late] at inv ⊢
  refine ⟨inv, h.waits, fun key last found => ?_, fun key last timer due found armed => ?_⟩
  · rw [JsMap.get_set] at found
    split at found
    · obtain rfl := Option.some.inj found
      exact Int.le_of_eq clock
    · exact h.past key last found
  · rw [JsMap.get_set] at found
    split at found
    · rename_i same
      obtain ⟨-, pending, waiting⟩ := h.exists_pending armed
      exact absurd ⟨by rw [same, waiting]; rfl, late⟩ calm
    · exact h.due key last timer due found armed

/-- A timer set for the rest of the window. -/
theorem Throttled.untimed (h : s.Throttled origin) (inv : (s.broadcast message now reached).Inv)
    (clock : now = origin + s.eventLoop.elapsed)
    (early : now - (JsMap.get message.key s.lastSent).getD 0 < throttleMs)
    (untimed : JsMap.get message.key s.timers = none) : (s.broadcast message now reached).Throttled origin := by
  rw [broadcast_untimed early untimed] at inv ⊢
  refine ⟨inv, fun key waiting => ?_, h.past, fun key last timer due found armed => ?_⟩
  · rw [JsMap.get_set] at waiting ⊢
    split at waiting
    · rename_i same
      rw [if_pos same]
      rfl
    · rename_i other
      rw [if_neg other]
      exact h.waits key waiting
  · simp only [JsMap.get_set] at armed
    split at armed
    · obtain ⟨rfl, rfl⟩ := Timeout.mk.inj (Option.some.inj armed)
      -- the window of the last send is still open
      have past := h.past message.key last found
      simp only [found, Option.getD_some, throttleMs] at early ⊢
      rw [Int.natCast_add, Timeouts.cast_delay (by omega) (by omega)]
      omega
    · exact h.due key last timer due found armed

theorem Throttled.broadcast (h : s.Throttled origin) (clock : now = origin + s.eventLoop.elapsed)
    (calm : ¬ s.Overtakes (.broadcast message now reached)) : (s.broadcast message now reached).Throttled origin := by
  have inv := h.toInv.broadcast message now reached
  cases Int.lt_or_le (now - (JsMap.get message.key s.lastSent).getD 0) throttleMs with
  | inr late => exact h.late inv clock calm late
  | inl early =>
      cases timed : JsMap.get message.key s.timers with
      | none => exact h.untimed inv clock early timed
      | some timer =>
          rw [broadcast_timed early (by rw [timed]; rfl)] at inv ⊢
          refine ⟨inv, fun key waiting => ?_, h.past, h.due⟩
          rw [JsMap.get_set]
          split
          · rfl
          · exact h.waits key waiting

theorem Throttled.onTimeout (h : s.Throttled origin) {timer : Nat} {eventLoop : Timeouts String}
    (fired : s.eventLoop.fire timer = some (key, eventLoop)) (clock : now = origin + s.eventLoop.elapsed) :
    ({ s with eventLoop }.onTimeout key now reached).Throttled origin := by
  have inv := h.toInv.onTimeout fired now reached
  obtain ⟨due, found, -, rfl⟩ := Timeouts.fire_eq_some fired
  obtain ⟨timed, message, pending⟩ := h.exists_pending found
  rw [onTimeout_due message pending] at inv ⊢
  refine ⟨inv, fun key' waiting => ?_, fun key' last sent => ?_, fun key' last timer' due' sent armed => ?_⟩
  · rw [JsMap.get_delete] at waiting ⊢
    split at waiting
    · cases waiting
    · rename_i other
      rw [if_neg other]
      exact h.waits key' waiting
  · rw [JsMap.get_set] at sent
    split at sent
    · obtain rfl := Option.some.inj sent
      exact Int.le_of_eq clock
    · exact h.past key' last sent
  · simp only [Timeouts.disarm, JsMap.get_delete] at armed
    split at armed
    · cases armed
    · rename_i apart
      rw [JsMap.get_set] at sent
      split at sent
      · rename_i same
        subst same
        exact absurd (Option.some.inj (timed.symm.trans (h.exists_pending armed).1)) apart
      · exact h.due key' last timer' due' sent armed

theorem Throttled.step (h : s.Throttled origin) (clock : Clocked origin ⟨s, a, s'⟩) (calm : ¬ s.Overtakes a)
    (enabled : s.step a = some s') : s'.Throttled origin := by
  cases a with
  | connection client | close client =>
      have inv := inv_step h.toInv enabled
      obtain rfl := Option.some.inj enabled
      exact ⟨inv, h.waits, h.past, h.due⟩
  | pass ms =>
      have inv := inv_step h.toInv enabled
      obtain rfl := Option.some.inj enabled
      refine ⟨inv, h.waits, fun key last found => ?_, h.due⟩
      have past := h.past key last found
      simp only [Timeouts.pass]
      omega
  | broadcast message now reached =>
      obtain rfl := Option.some.inj enabled
      exact h.broadcast (clock now rfl) calm
  | timeout timer now reached =>
      obtain ⟨⟨key, eventLoop⟩, fired, rfl⟩ := Option.map_eq_some_iff.mp enabled
      exact h.onTimeout fired (clock now rfl)

theorem throttled_start (origin : Int) : ({} : WebSocketServer).Throttled origin :=
  ⟨inv_start, nofun, nofun, nofun⟩

/-! ## What a step sends -/

/-- The step leaves the key alone, or sends it a window after it was last sent. -/
def Spaced (key : String) (x : Machine.Transition WebSocketServer WebSocketAction) : Prop :=
  (sendTime key x = none ∧ JsMap.get key x.post.lastSent = JsMap.get key x.pre.lastSent) ∨
    ∃ now, sendTime key x = some now ∧ JsMap.get key x.post.lastSent = some now ∧
      ∀ last, JsMap.get key x.pre.lastSent = some last → throttleMs ≤ now - last

theorem spaced_silent (silent : s'.sent = s.sent) (kept : s'.lastSent = s.lastSent) : Spaced key ⟨s, a, s'⟩ :=
  .inl ⟨if_neg fun sends => sends.2 silent, congrArg (JsMap.get key) kept⟩

/-- A step that sends one key. -/
theorem spaced_sends {key' : String} (keyed : s.keyOf a = some key') (clock : a.clock = some now)
    (sent : s'.sent ≠ s.sent) (stored : s'.lastSent = JsMap.set key' now s.lastSent)
    (late : ∀ last, JsMap.get key' s.lastSent = some last → throttleMs ≤ now - last) :
    Spaced key ⟨s, a, s'⟩ := by
  simp only [Spaced, sendTime, keyed, clock, stored, JsMap.get_set, Option.some.injEq]
  by_cases same : key' = key
  · subst same
    exact .inr ⟨now, if_pos ⟨rfl, sent⟩, if_pos rfl, late⟩
  · exact .inl ⟨if_neg fun sends => same sends.1, if_neg same⟩

theorem Throttled.spaced (h : s.Throttled origin) (clock : Clocked origin ⟨s, a, s'⟩)
    (enabled : s.step a = some s') : Spaced key ⟨s, a, s'⟩ := by
  cases a with
  | connection client | close client | pass ms =>
      obtain rfl := Option.some.inj enabled
      exact spaced_silent rfl rfl
  | broadcast message now reached =>
      obtain rfl := Option.some.inj enabled
      cases Int.lt_or_le (now - (JsMap.get message.key s.lastSent).getD 0) throttleMs with
      | inr late =>
          rw [broadcast_late late]
          refine spaced_sends rfl rfl (sendToAll_sent message reached s) rfl fun last found => ?_
          rwa [found] at late
      | inl early =>
          cases timed : JsMap.get message.key s.timers with
          | some timer =>
              rw [broadcast_timed early (by rw [timed]; rfl)]
              exact spaced_silent rfl rfl
          | none =>
              rw [broadcast_untimed early timed]
              exact spaced_silent rfl rfl
  | timeout timer now reached =>
      obtain ⟨⟨key', eventLoop⟩, fired, rfl⟩ := Option.map_eq_some_iff.mp enabled
      obtain ⟨due, found, reachedDue, rfl⟩ := Timeouts.fire_eq_some fired
      obtain ⟨-, message, pending⟩ := h.exists_pending found
      dsimp only
      rw [onTimeout_due message pending]
      have keyed : s.keyOf (.timeout timer now reached) = some key' := by rw [keyOf, found]; rfl
      refine spaced_sends keyed rfl (sendToAll_sent message reached s) rfl fun last sent => ?_
      have window := h.due key' last timer due sent found
      have time := clock now rfl
      simp only at time
      omega

/-! ## Runs -/

/-- The last send before a run and those of the run. -/
theorem apart_run (key : String) {ts : List (Machine.Transition WebSocketServer WebSocketAction)}
    (run : Machine.Run step s ts s')
    (h : s.Throttled origin) (clock : ∀ x ∈ ts, Clocked origin x) (calm : ∀ x ∈ ts, ¬ x.pre.Overtakes x.act) :
    Apart ((JsMap.get key s.lastSent).toList ++ sendTimes key ts) := by
  induction run with
  | done s => cases JsMap.get key s.lastSent <;> simp [sendTimes, Apart]
  | @next s a s₁ ts t enabled rest ih =>
      simp only [List.forall_mem_cons] at clock calm
      have later := ih (h.step clock.1 calm.1 enabled) clock.2 calm.2
      have spaced : Spaced key ⟨s, a, s₁⟩ := h.spaced clock.1 enabled
      rcases spaced with ⟨silent, kept⟩ | ⟨now, sends, stored, late⟩
      · rw [sendTimes, List.filterMap_cons_none silent]
        rwa [kept] at later
      · rw [sendTimes, List.filterMap_cons_some sends]
        rw [stored] at later
        cases last : JsMap.get key s.lastSent with
        | none => exact later
        | some next => exact List.isChain_cons_cons.mpr ⟨late next last, later⟩

/-- As long as no broadcast overtakes the pending message of its key, sends of one
    key are at least `throttleMs` apart. -/
theorem throttled_run {ts : List (Machine.Transition WebSocketServer WebSocketAction)}
    (run : Machine.Run step {} ts s) (clock : ∀ x ∈ ts, Clocked origin x)
    (calm : ∀ x ∈ ts, ¬ x.pre.Overtakes x.act) (key : String) : Apart (sendTimes key ts) :=
  apart_run key run (throttled_start origin) clock calm

/-- What a run shows of a throttled key. -/
def observed (origin : Int) (times : List Int) (ts : List (Machine.Transition WebSocketServer WebSocketAction)) :
    Bool := (∀ x ∈ ts, Clocked origin x) ∧ sendTimes mailRefreshed.key ts = times

/-- The timer is on time. -/
def timelyBroadcasts : List WebSocketAction :=
  [.broadcast mailRefreshed 5000 fun _ => true, .pass 300, .broadcast mailRefreshed 5300 fun _ => true, .pass 700,
    .timeout 0 6000 fun _ => true]

theorem timely_performed : (Machine.perform step {} timelyBroadcasts).any (fun r =>
    observed 5000 [5000, 6000] r.1 && decide (∀ x ∈ r.1, ¬ x.pre.Overtakes x.act)) = true := by decide +kernel

theorem timely_throttled : ∃ ts s, Machine.Run step {} ts s ∧ sendTimes mailRefreshed.key ts = [5000, 6000] ∧
    Apart (sendTimes mailRefreshed.key ts) := by
  obtain ⟨ts, s, run, shown⟩ := Machine.run_of_perform timely_performed
  simp only [observed, Bool.and_eq_true, decide_eq_true_eq] at shown
  exact ⟨ts, s, run, shown.1.2, throttled_run run shown.1.1 shown.2 _⟩

/-- A broadcast comes just when the timer is due, which then fires a millisecond
    later. -/
def overtakingBroadcasts : List WebSocketAction :=
  [.broadcast mailRefreshed 5000 fun _ => true, .pass 300, .broadcast mailRefreshed 5300 fun _ => true, .pass 700,
    .broadcast mailRefreshed 6000 fun _ => true, .pass 1, .timeout 0 6001 fun _ => true]

theorem overtaking_performed : (Machine.perform step {} overtakingBroadcasts).any (fun r =>
    observed 5000 [5000, 6000, 6001] r.1) = true := by decide +kernel

theorem sent_twice_at_once :
    ¬ ∀ (origin : Int) (ts : List (Machine.Transition WebSocketServer WebSocketAction)) (s : WebSocketServer),
      Machine.Run step {} ts s → (∀ x ∈ ts, Clocked origin x) → ∀ key, Apart (sendTimes key ts) := by
  intro all
  obtain ⟨ts, s, run, shown⟩ := Machine.run_of_perform overtaking_performed
  simp only [observed, Bool.decide_and, Bool.and_eq_true, decide_eq_true_eq] at shown
  have apart := all 5000 ts s run shown.1 mailRefreshed.key
  rw [shown.2] at apart
  exact absurd apart (by decide)

end WebSocketServer

end BetterBullBoard
