import BetterBullBoard.Lib.Redelivery
import BetterBullBoard.Streams.Group

/-! # The message handler of both streams

Messages that do not decode are acknowledged at once. The others are persisted
together, and acknowledged together if that did not throw. What is pending after
a redelivery depends on the rest of the state only through whether it threw.
-/

namespace BetterBullBoard

variable {σ ε γ : Type}

/-- `processMessages`. Persisting returns the ids to acknowledge, none if it
    throws; what it stored before stays. -/
def processMessages (decode : StreamMessage → Option ε)
    (persist : List ε → σ → σ × Option (List Nat)) (messages : List StreamMessage) (s : Group × σ) : Group × σ :=
  let invalidIds := (messages.filter fun m => (decode m).isNone).map (·.id)
  let group := s.1.ackAndDelete invalidIds
  let valid := messages.filterMap decode
  if valid.length = 0 then (group, s.2)
  else
    let result := persist valid s.2
    match result.2 with
    | none => (group, result.1)
    | some ids => (group.ackAndDelete ids, result.1)

/-- `readPendingMessages`, then the handler. -/
def redeliver (decode : StreamMessage → Option ε)
    (persist : List ε → σ → σ × Option (List Nat)) (count : Nat) (s : Group × σ) : Group × σ :=
  processMessages decode persist (s.1.pendingEntries.take count) s

/-- One redelivery after another, each under its own circumstances. -/
def redeliverAll (decode : StreamMessage → Option ε)
    (persist : γ → List ε → σ → σ × Option (List Nat)) (count : Nat) (cs : List γ) (s : Group × σ) : Group × σ :=
  cs.foldl (fun s c => redeliver decode (persist c) count s) s

/-- Every accepted message that was pending is acknowledged and stored. -/
def Isolated (accepted : StreamMessage → Prop) (Stored : σ → StreamMessage → Prop) (s s' : Group × σ) : Prop :=
  ∀ m ∈ s.1.pendingEntries, accepted m → m.id ∉ s'.1.pending ∧ Stored s'.2 m

namespace Group

theorem acked (g : Group) {ids : List Nat} {id : Nat} (h : id ∈ ids) : id ∉ (g.ackAndDelete ids).pending := by
  simp [ackAndDelete, ack, delete, h]

theorem pending_ackAndDelete {g : Group} {ids : List Nat} {id : Nat} (h : id ∉ g.pending) :
    id ∉ (g.ackAndDelete ids).pending := by
  intro still
  exact h (List.mem_filter.mp still).1

theorem distinct_ackAndDelete {g : Group} (distinct : (g.entries.map (·.id)).Nodup) (ids : List Nat) :
    ((g.ackAndDelete ids).entries.map (·.id)).Nodup :=
  distinct.sublist (List.filter_sublist.map _)

end Group

section

variable {decode : StreamMessage → Option ε}
  {persist : γ → List ε → σ → σ × Option (List Nat)} {count : Nat}

def decodable (decode : StreamMessage → Option ε) (m : StreamMessage) : Bool := (decode m).isSome

/-- What persisting answers to messages among these: it throws exactly when the batch
    fails, else it answers their ids. -/
def Answers (decode : StreamMessage → Option ε) (persist : List ε → σ → σ × Option (List Nat))
    (fails : List StreamMessage → Bool) (among : List StreamMessage) : Prop :=
  ∀ messages : List StreamMessage, (∀ m ∈ messages, m ∈ among) → ∀ s,
    (persist (messages.filterMap decode) s).2 =
      if fails (messages.filter (decodable decode)) then none
      else some ((messages.filter (decodable decode)).map (·.id))

/-- A batch that does not fail stores the accepted messages, and nothing stored is
    taken back. -/
structure Stores (decode : StreamMessage → Option ε) (persist : List ε → σ → σ × Option (List Nat))
    (fails : List StreamMessage → Bool) (accepted : StreamMessage → Prop) (Stored : σ → StreamMessage → Prop)
    (among : List StreamMessage) : Prop where
  stored : ∀ messages : List StreamMessage, (∀ m ∈ messages, m ∈ among) → ∀ s,
    fails (messages.filter (decodable decode)) = false → ∀ m ∈ messages, accepted m →
      Stored (persist (messages.filterMap decode) s).1 m
  kept : ∀ batch s m, Stored s m → Stored (persist batch s).1 m

/-- A batch that does not fail adds the keys it writes, and nothing else. -/
def Adds {κ : Type} (decode : StreamMessage → Option ε) (persist : List ε → σ → σ × Option (List Nat))
    (fails : List StreamMessage → Bool) (Holds : σ → κ → Prop) (writes : List StreamMessage → κ → Prop)
    (among : List StreamMessage) : Prop :=
  ∀ messages : List StreamMessage, (∀ m ∈ messages, m ∈ among) → ∀ s k,
    Holds (persist (messages.filterMap decode) s).1 k ↔
      Holds s k ∨ fails (messages.filter (decodable decode)) = false ∧ writes (messages.filter (decodable decode)) k

variable {fails : List StreamMessage → Bool} {accepted : StreamMessage → Prop}
  {Stored : σ → StreamMessage → Prop} {among : List StreamMessage}

theorem filterMap_eq_nil {messages : List StreamMessage} :
    messages.filterMap decode = [] ↔ messages.filter (decodable decode) = [] := by
  rw [List.filterMap_eq_nil_iff, List.filter_eq_nil_iff]
  exact forall₂_congr fun m _ => by simp [decodable]

/-- Values read off decoded messages are values of the messages. -/
theorem filterMap_decoded {β : Type} {f : ε → Option β} {g : StreamMessage → β}
    (same : ∀ m v, decode m = some v → f v = some (g m)) (messages : List StreamMessage) :
    (messages.filterMap decode).filterMap f = (messages.filter (decodable decode)).map g := by
  induction messages with
  | nil => rfl
  | cons m messages ih =>
      cases valid : decode m with
      | none => simp only [List.filter_cons, List.filterMap_cons, decodable, valid, Option.isSome_none,
          Bool.false_eq_true, if_false, ih]
      | some v => simp only [List.filter_cons, List.filterMap_cons, decodable, valid, Option.isSome_some, if_true,
          List.map_cons, same m v valid, ih]

theorem processMessages_spec {c : γ} (answers : Answers decode (persist c) fails among)
    (nothing : fails [] = false) (messages : List StreamMessage) (inside : ∀ m ∈ messages, m ∈ among)
    (s : Group × σ) :
    processMessages decode (persist c) messages s =
      (let group := s.1.ackAndDelete ((messages.filter fun m => !decodable decode m).map (·.id))
       if fails (messages.filter (decodable decode)) then group
       else group.ackAndDelete ((messages.filter (decodable decode)).map (·.id)),
       if messages.filter (decodable decode) = [] then s.2 else (persist c (messages.filterMap decode) s.2).1) := by
  have invalid : (messages.filter fun m => (decode m).isNone) = messages.filter fun m => !decodable decode m :=
    List.filter_congr fun m _ => by simp [decodable]
  simp only [processMessages, invalid, List.length_eq_zero_iff, filterMap_eq_nil]
  split
  · rename_i empty
    rw [empty, nothing]
    simp [Group.ackAndDelete, Group.ack, Group.delete]
  · rw [answers messages inside s.2]
    split
    · rename_i h
      split at h
      · rename_i failed
        rw [failed]
        rfl
      · simp at h
    · rename_i ids h
      split at h
      · simp at h
      · rename_i passed
        obtain rfl := Option.some.inj h
        simp only [passed, Bool.false_eq_true, if_false]

structure Redelivered (decode : StreamMessage → Option ε) (fails : List StreamMessage → Bool) (count : Nat)
    (s s' : Group × σ) : Prop where
  pending : s'.1.pendingEntries = Redelivery.redeliver (decodable decode) fails count s.1.pendingEntries
  left : ∀ m ∈ s.1.pendingEntries, m ∈ s'.1.pendingEntries ∨ m.id ∉ s'.1.pending
  distinct : (s'.1.entries.map (·.id)).Nodup
  away : ∀ id, id ∉ s.1.pending → id ∉ s'.1.pending

theorem redeliver_spec (count : Nat) {c : γ} (answers : Answers decode (persist c) fails among)
    (nothing : fails [] = false) {s : Group × σ} (distinct : (s.1.entries.map (·.id)).Nodup)
    (inside : ∀ m ∈ s.1.pendingEntries, m ∈ among) :
    Redelivered decode fails count s (redeliver decode (persist c) count s) := by
  have taken : ∀ m ∈ s.1.pendingEntries.take count, m ∈ among := fun m hm => inside m (List.mem_of_mem_take hm)
  rw [redeliver, processMessages_spec answers nothing _ taken]
  have invalidGone := Group.pendingEntries_batch distinct count fun m => !decodable decode m
  simp only [Bool.not_not] at invalidGone
  have distinct' := Group.distinct_ackAndDelete distinct
    (((s.1.pendingEntries.take count).filter fun m => !decodable decode m).map (·.id))
  cases failed : fails ((s.1.pendingEntries.take count).filter (decodable decode)) with
  | true =>
      simp only [if_true]
      refine ⟨by rw [invalidGone, Redelivery.redeliver, failed, if_pos rfl], fun m hm => ?_, distinct',
        fun id => Group.pending_ackAndDelete⟩
      rw [invalidGone]
      rw [← List.take_append_drop count s.1.pendingEntries] at hm
      cases List.mem_append.mp hm with
      | inr behind => exact .inl (List.mem_append_right _ behind)
      | inl taken =>
          cases valid : decodable decode m with
          | true => exact .inl (List.mem_append_left _ (List.mem_filter.mpr ⟨taken, valid⟩))
          | false =>
              refine .inr (Group.acked _ ?_)
              exact List.mem_map.mpr ⟨m, List.mem_filter.mpr ⟨taken, by rw [valid]; rfl⟩, rfl⟩
  | false =>
      simp only [Bool.false_eq_true, if_false]
      have gone := Group.pendingEntries_whole_batch distinct count fun m => !decodable decode m
      simp only [Bool.not_not] at gone
      refine ⟨by rw [gone, Redelivery.redeliver, failed]; rfl, fun m hm => ?_,
        Group.distinct_ackAndDelete distinct' _,
        fun id away => Group.pending_ackAndDelete (Group.pending_ackAndDelete away)⟩
      rw [gone]
      rw [← List.take_append_drop count s.1.pendingEntries] at hm
      cases List.mem_append.mp hm with
      | inr behind => exact .inl behind
      | inl inBatch =>
          cases valid : decodable decode m with
          | true => exact .inr (Group.acked _ (List.mem_map.mpr ⟨m, List.mem_filter.mpr ⟨inBatch, valid⟩, rfl⟩))
          | false =>
              refine .inr (Group.pending_ackAndDelete (Group.acked _ ?_))
              exact List.mem_map.mpr ⟨m, List.mem_filter.mpr ⟨inBatch, by rw [valid]; rfl⟩, rfl⟩

theorem redeliver_state (count : Nat) {c : γ} (answers : Answers decode (persist c) fails among)
    (nothing : fails [] = false) {s : Group × σ} (inside : ∀ m ∈ s.1.pendingEntries, m ∈ among) :
    (redeliver decode (persist c) count s).2 =
      if (s.1.pendingEntries.take count).filter (decodable decode) = [] then s.2
      else (persist c ((s.1.pendingEntries.take count).filterMap decode) s.2).1 := by
  rw [redeliver, processMessages_spec answers nothing _ fun m hm => inside m (List.mem_of_mem_take hm)]

theorem Redelivered.inside {s s' : Group × σ} (redelivered : Redelivered decode fails count s s')
    (inside : ∀ m ∈ s.1.pendingEntries, m ∈ among) : ∀ m ∈ s'.1.pendingEntries, m ∈ among := by
  intro m hm
  rw [redelivered.pending] at hm
  exact inside m ((Redelivery.redeliver_sublist _).subset hm)

/-! ## Any number of redeliveries -/

theorem redeliverAll_spec (count : Nat) {cs : List γ} (answers : ∀ c ∈ cs, Answers decode (persist c) fails among)
    (nothing : fails [] = false) {s : Group × σ} (distinct : (s.1.entries.map (·.id)).Nodup)
    (inside : ∀ m ∈ s.1.pendingEntries, m ∈ among) :
    (redeliverAll decode persist count cs s).1.pendingEntries =
        (Redelivery.redeliver (decodable decode) fails count)^[cs.length] s.1.pendingEntries ∧
      (∀ m ∈ s.1.pendingEntries, m ∈ (redeliverAll decode persist count cs s).1.pendingEntries ∨
        m.id ∉ (redeliverAll decode persist count cs s).1.pending) ∧
      ∀ id, id ∉ s.1.pending → id ∉ (redeliverAll decode persist count cs s).1.pending := by
  induction cs generalizing s with
  | nil => exact ⟨rfl, fun m hm => .inl hm, fun _ away => away⟩
  | cons c cs ih =>
      have first := redeliver_spec count (answers c List.mem_cons_self) nothing distinct inside
      obtain ⟨pending, left, away⟩ :=
        ih (fun c' hc => answers c' (List.mem_cons_of_mem _ hc)) first.distinct (first.inside inside)
      refine ⟨?_, fun m hm => ?_, fun id gone => away id (first.away id gone)⟩
      · rw [List.length_cons, Function.iterate_succ_apply, ← first.pending]
        exact pending
      · cases first.left m hm with
        | inl still => exact left m still
        | inr gone => exact .inr (away m.id gone)

/-- After as many redeliveries as there are pending messages, every accepted one
    has been acknowledged exactly when the messages clear. -/
theorem acknowledged_iff_clears {cs : List γ} (answers : ∀ c ∈ cs, Answers decode (persist c) fails among)
    (positive : 0 < count) (nothing : fails [] = false) (usable : ∀ m, accepted m → decodable decode m)
    {s : Group × σ} (distinct : (s.1.entries.map (·.id)).Nodup) (inside : ∀ m ∈ s.1.pendingEntries, m ∈ among)
    (enough : s.1.pendingEntries.length ≤ cs.length) :
    (∀ m ∈ s.1.pendingEntries, accepted m → m.id ∉ (redeliverAll decode persist count cs s).1.pending) ↔
      Redelivery.Clears (decodable decode) fails count accepted s.1.pendingEntries := by
  obtain ⟨pending, left, -⟩ := redeliverAll_spec count answers nothing distinct inside
  rw [← Redelivery.iterate_iff_clears positive nothing usable enough, ← pending]
  constructor
  · intro acknowledged m still good
    have before : m ∈ s.1.pendingEntries := (Redelivery.iterate_sublist _ _).subset (pending ▸ still)
    exact acknowledged m before good (Group.mem_pendingEntries.mp still).2
  · intro cleared m hm good
    exact (left m hm).resolve_left fun still => cleared m still good

theorem Stores.redeliverAll {cs : List γ} (answers : ∀ c ∈ cs, Answers decode (persist c) fails among)
    (stores : ∀ c ∈ cs, Stores decode (persist c) fails accepted Stored among) (nothing : fails [] = false)
    (usable : ∀ m, accepted m → decodable decode m) {s : Group × σ} (distinct : (s.1.entries.map (·.id)).Nodup)
    (inside : ∀ m ∈ s.1.pendingEntries, m ∈ among) :
    (∀ m, Stored s.2 m → Stored (redeliverAll decode persist count cs s).2 m) ∧
      ∀ m ∈ s.1.pendingEntries, accepted m → m ∈ (redeliverAll decode persist count cs s).1.pendingEntries ∨
        Stored (redeliverAll decode persist count cs s).2 m := by
  induction cs generalizing s with
  | nil => exact ⟨fun _ stored => stored, fun m hm _ => .inl hm⟩
  | cons c cs ih =>
      have answer := answers c List.mem_cons_self
      have first := redeliver_spec count answer nothing distinct inside
      have state := redeliver_state count answer nothing inside
      have store := stores c List.mem_cons_self
      obtain ⟨kept, later⟩ := ih (fun c' hc => answers c' (List.mem_cons_of_mem _ hc))
        (fun c' hc => stores c' (List.mem_cons_of_mem _ hc)) first.distinct (first.inside inside)
      have kept' : ∀ m, Stored s.2 m → Stored (redeliver decode (persist c) count s).2 m := by
        intro m stored
        rw [state]
        split
        · exact stored
        · exact store.kept _ _ m stored
      refine ⟨fun m stored => kept m (kept' m stored), fun m hm good => ?_⟩
      by_cases still : m ∈ (redeliver decode (persist c) count s).1.pendingEntries
      · exact later m still good
      · refine .inr (kept m ?_)
        rw [first.pending, Redelivery.redeliver] at still
        rw [← List.take_append_drop count s.1.pendingEntries] at hm
        have inBatch := (List.mem_append.mp hm).resolve_right fun behind => still (List.mem_append_right _ behind)
        have member := List.mem_filter.mpr ⟨inBatch, usable m good⟩
        have fine : fails ((s.1.pendingEntries.take count).filter (decodable decode)) = false := by
          by_contra failed
          rw [if_pos (Bool.not_eq_false _ ▸ failed)] at still
          exact still (List.mem_append_left _ member)
        rw [state, if_neg (List.ne_nil_of_mem member)]
        exact store.stored _ (fun m' hm' => inside m' (List.mem_of_mem_take hm')) _ fine m inBatch good

theorem isolated_iff_clears {cs : List γ} (answers : ∀ c ∈ cs, Answers decode (persist c) fails among)
    (stores : ∀ c ∈ cs, Stores decode (persist c) fails accepted Stored among) (positive : 0 < count)
    (nothing : fails [] = false) (usable : ∀ m, accepted m → decodable decode m) {s : Group × σ}
    (distinct : (s.1.entries.map (·.id)).Nodup) (inside : ∀ m ∈ s.1.pendingEntries, m ∈ among)
    (enough : s.1.pendingEntries.length ≤ cs.length) :
    Isolated accepted Stored s (redeliverAll decode persist count cs s) ↔
      Redelivery.Clears (decodable decode) fails count accepted s.1.pendingEntries := by
  rw [← acknowledged_iff_clears answers positive nothing usable distinct inside enough]
  constructor
  · exact fun isolated m hm good => (isolated m hm good).1
  · intro acknowledged m hm good
    refine ⟨acknowledged m hm good, ?_⟩
    refine ((Stores.redeliverAll answers stores nothing usable distinct inside).2 m hm good).resolve_left
      fun still => ?_
    exact acknowledged m hm good (Group.mem_pendingEntries.mp still).2

/-- The keys held after some redeliveries: those held before, and those that the
    statements which passed have written. -/
theorem holds_redeliverAll {κ : Type} {Holds : σ → κ → Prop} {writes : List StreamMessage → κ → Prop} {cs : List γ}
    (answers : ∀ c ∈ cs, Answers decode (persist c) fails among)
    (adds : ∀ c ∈ cs, Adds decode (persist c) fails Holds writes among) (nothing : fails [] = false)
    (idle : ∀ k, ¬ writes [] k) {s : Group × σ} (distinct : (s.1.entries.map (·.id)).Nodup)
    (inside : ∀ m ∈ s.1.pendingEntries, m ∈ among) (k : κ) :
    Holds (redeliverAll decode persist count cs s).2 k ↔ Holds s.2 k ∨
      ∃ batch ∈ Redelivery.passed (decodable decode) fails count cs.length s.1.pendingEntries, writes batch k := by
  induction cs generalizing s with
  | nil => simp [redeliverAll, Redelivery.passed]
  | cons c cs ih =>
      have answer := answers c List.mem_cons_self
      have first := redeliver_spec count answer nothing distinct inside
      have later := ih (fun c' hc => answers c' (List.mem_cons_of_mem _ hc))
        (fun c' hc => adds c' (List.mem_cons_of_mem _ hc)) first.distinct (first.inside inside)
      rw [first.pending] at later
      refine later.trans ?_
      rw [redeliver_state count answer nothing inside, List.length_cons, Redelivery.passed]
      simp only [List.mem_append, or_and_right, exists_or]
      rw [← or_assoc]
      refine or_congr_left ?_
      split
      · rename_i empty
        rw [empty, nothing]
        simp [idle]
      · rw [adds c List.mem_cons_self _ (fun m hm => inside m (List.mem_of_mem_take hm))]
        refine or_congr_right ?_
        split
        · rename_i failed
          simp [failed]
        · rename_i passes
          simp [passes]

end

end BetterBullBoard
