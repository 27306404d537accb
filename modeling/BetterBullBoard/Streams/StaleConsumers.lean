import Mathlib.Logic.Function.Basic
import BetterBullBoard.Lib.JsMap
import BetterBullBoard.Lib.Machine
import BetterBullBoard.Lib.UniqueIndex
import BetterBullBoard.Streams.Group

/-! # Removing stale consumers

The consumers of a group, each with the entries it holds, and `cleanupStaleConsumers`:
an `XINFO CONSUMERS` and then, one after the other, an `XGROUP DELCONSUMER` for each
consumer that it showed as stale. Any number of cleanups and consumers interleave;
a consumer that crashes sends no further command.
-/

namespace BetterBullBoard

/-! ## The answer of `XINFO CONSUMERS` -/

/-- An element of a row as the client returns it. -/
inductive RedisValue where
  | text (s : String)
  | integer (n : Int)
  | null
  deriving DecidableEq

def RedisValue.asText : RedisValue → String
  | .text s => s
  | .integer n => toString n
  | .null => "null"

/-- `Number(..)`; none is NaN. Redis sends these fields as integers, so the number a
    text denotes is left open. -/
def RedisValue.asNumber (numberOfText : String → Option Int) : Option RedisValue → Option Int
  | none => none
  | some (.integer n) => some n
  | some .null => some 0
  | some (.text s) => numberOfText s

structure StreamConsumer where
  idle : Int
  name : String
  pending : Int
  deriving DecidableEq

/-- The entries of the `Map` built from a row. -/
def rowEntries : List RedisValue → List (String × Option RedisValue)
  | [] => []
  | [field] => [(field.asText, none)]
  | field :: value :: rest => (field.asText, some value) :: rowEntries rest

/-- One row; none is `undefined`. -/
def parseConsumer (numberOfText : String → Option Int) (row : Option (List RedisValue)) : Option StreamConsumer := do
  let record := JsMap.ofEntries (rowEntries (← row))
  let name ← (JsMap.get "name" record).join
  let idle ← RedisValue.asNumber numberOfText (JsMap.get "idle" record).join
  let pending ← RedisValue.asNumber numberOfText (JsMap.get "pending" record).join
  match name with
  | .text name => some { idle, name, pending }
  | _ => none

/-- The response is none, or a row is, where it is not an array. -/
def parseConsumerInfo (numberOfText : String → Option Int) (response : Option (List (Option (List RedisValue)))) :
    List StreamConsumer :=
  (response.getD []).filterMap (parseConsumer numberOfText)

def STALE_CONSUMER_IDLE_MS : Int := 60 * 60 * 1000

def StreamConsumer.isStale (consumer : StreamConsumer) : Bool :=
  consumer.pending = 0 && STALE_CONSUMER_IDLE_MS ≤ consumer.idle

/-! ## Consumers of a group -/

structure Consumer where
  name : String
  pending : List Nat
  seenAt : Nat
  deriving DecidableEq

structure ConsumerGroup where
  entries : List StreamMessage := []
  lastDelivered : Nat := 0
  consumers : List Consumer := []
  names : (consumers.map (·.name)).Nodup := by simp

/-- The group, whoever holds its entries. -/
def ConsumerGroup.group (g : ConsumerGroup) : Group where
  entries := g.entries
  lastDelivered := g.lastDelivered
  pending := g.consumers.flatMap (·.pending)

/-- The consumer gets these entries; it is created by its first command. -/
def hand (now : Nat) (name : String) (ids : List Nat) (consumers : List Consumer) : List Consumer :=
  if consumers.any (·.name = name) then
    consumers.map fun c => if c.name = name then { c with pending := c.pending ++ ids, seenAt := now } else c
  else consumers ++ [⟨name, ids, now⟩]

def drop (ids : List Nat) (consumers : List Consumer) : List Consumer :=
  consumers.map fun c => { c with pending := c.pending.filter (· ∉ ids) }

theorem names_drop (ids : List Nat) (consumers : List Consumer) :
    (drop ids consumers).map (·.name) = consumers.map (·.name) := List.map_map ..

theorem names_hand (now : Nat) (name : String) (ids : List Nat) {consumers : List Consumer}
    (names : (consumers.map (·.name)).Nodup) : ((hand now name ids consumers).map (·.name)).Nodup := by
  unfold hand
  split
  · have same : (consumers.map fun c =>
        if c.name = name then { c with pending := c.pending ++ ids, seenAt := now } else c).map (·.name) =
        consumers.map (·.name) := by
      rw [List.map_map]
      apply List.map_congr_left
      intro c _
      simp only [Function.comp_apply]
      split <;> rfl
    rw [same]
    exact names
  · rename_i unknown
    refine UniqueIndex.nodup_insert names fun c hc same => ?_
    exact unknown (List.any_eq_true.mpr ⟨c, hc, decide_eq_true same⟩)

namespace ConsumerGroup

/-- `XREADGROUP .. COUNT n .. >` -/
def read (g : ConsumerGroup) (now : Nat) (name : String) (n : Nat) : ConsumerGroup where
  entries := g.entries
  lastDelivered := (g.group.deliver n).lastDelivered
  consumers := hand now name ((g.group.newMessages n).map (·.id)) g.consumers
  names := names_hand _ _ _ g.names

/-- `XAUTOCLAIM` of these entries. Of those that are no longer in the stream nothing
    is claimed, and they are no longer pending. -/
def autoclaim (g : ConsumerGroup) (now : Nat) (name : String) (ids : List Nat) : ConsumerGroup :=
  { g with
    consumers := hand now name ((g.group.claimed ids).map (·.id)) (drop ids g.consumers)
    names := names_hand _ _ _ (names_drop ids g.consumers ▸ g.names) }

def ack (g : ConsumerGroup) (ids : List Nat) : ConsumerGroup :=
  { g with consumers := drop ids g.consumers, names := names_drop ids g.consumers ▸ g.names }

def delete (g : ConsumerGroup) (ids : List Nat) : ConsumerGroup :=
  { g with entries := g.entries.filter (·.id ∉ ids) }

/-- `XGROUP DELCONSUMER` discards what the consumer holds. -/
def delConsumer (g : ConsumerGroup) (name : String) : ConsumerGroup :=
  { g with
    consumers := g.consumers.filter (·.name ≠ name)
    names := g.names.sublist (List.filter_sublist.map _) }

/-- `XINFO CONSUMERS` -/
def xinfo (g : ConsumerGroup) (now : Nat) : Option (List (Option (List RedisValue))) :=
  some (g.consumers.map fun c => some [.text "name", .text c.name, .text "pending", .integer c.pending.length,
    .text "idle", .integer (now - c.seenAt : Nat), .text "inactive", .integer (now - c.seenAt : Nat)])

end ConsumerGroup

theorem parse_xinfo (numberOfText : String → Option Int) (g : ConsumerGroup) (now : Nat) :
    parseConsumerInfo numberOfText (g.xinfo now) =
      g.consumers.map fun c => ⟨(now - c.seenAt : Nat), c.name, c.pending.length⟩ := by
  rw [parseConsumerInfo, ConsumerGroup.xinfo, Option.getD_some, List.filterMap_map, ← List.filterMap_eq_map]
  congr 1

/-! ## The system -/

inductive CleanupPhase where
  | called
  /-- Consumers still to be deleted. -/
  | deleting (names : List String)
  | over
  deriving DecidableEq

/-- `acked` are the ids ever acknowledged. -/
structure StreamState where
  now : Nat := 0
  stream : ConsumerGroup := {}
  acked : List Nat := []
  cleanups : Nat → CleanupPhase := fun _ => .called

inductive StreamAction where
  | add (m : StreamMessage)
  | read (name : String) (count : Nat)
  | autoclaim (name : String) (ids : List Nat)
  | ack (ids : List Nat)
  | delete (ids : List Nat)
  | xinfo (cleanup : Nat)
  | delConsumer (cleanup : Nat)
  /-- A command of the cleanup fails, or its process dies. -/
  | fail (cleanup : Nat)
  | pass (ms : Nat)
  deriving DecidableEq

namespace StaleConsumers

variable (numberOfText : String → Option Int)

def staleConsumers (s : StreamState) : List String :=
  ((parseConsumerInfo numberOfText (s.stream.xinfo s.now)).filter StreamConsumer.isStale).map (·.name)

def step (s : StreamState) : StreamAction → Option StreamState
  | .add m =>
      if (∀ e ∈ s.stream.entries, e.id < m.id) ∧ s.stream.lastDelivered < m.id then
        some { s with stream := { s.stream with entries := s.stream.entries ++ [m] } }
      else none
  | .read name count => some { s with stream := s.stream.read s.now name count }
  | .autoclaim name ids => some { s with stream := s.stream.autoclaim s.now name ids }
  | .ack ids => some { s with stream := s.stream.ack ids, acked := s.acked ++ ids }
  | .delete ids => some { s with stream := s.stream.delete ids }
  | .xinfo cleanup =>
      if s.cleanups cleanup = .called then
        some { s with cleanups := Function.update s.cleanups cleanup (.deleting (staleConsumers numberOfText s)) }
      else none
  | .delConsumer cleanup =>
      match s.cleanups cleanup with
      | .deleting (name :: names) =>
          some { s with
            stream := s.stream.delConsumer name
            cleanups := Function.update s.cleanups cleanup (.deleting names) }
      | _ => none
  | .fail cleanup => some { s with cleanups := Function.update s.cleanups cleanup .over }
  | .pass ms => some { s with now := s.now + ms }

/-! ## What the cleanups should leave alone -/

/-- Every entry in the stream is acknowledged, not delivered yet, or held by a
    consumer, from which it can be claimed. -/
def Claimable (s : StreamState) : Prop :=
  ∀ m ∈ s.stream.entries, m.id ∉ s.acked → s.stream.lastDelivered < m.id ∨ ∃ c ∈ s.stream.consumers, m.id ∈ c.pending

/-- A consumer that is deleted holds nothing. -/
def DeletesEmpty (s : StreamState) (a : StreamAction) : Prop :=
  ∀ cleanup name names, a = .delConsumer cleanup → s.cleanups cleanup = .deleting (name :: names) →
    ∀ c ∈ s.stream.consumers, c.name = name → c.pending = []

/-- The consumer that a command hands entries to, and their ids. -/
def handed (s : StreamState) : StreamAction → Option (String × List Nat)
  | .read name count => some (name, (s.stream.group.newMessages count).map (·.id))
  | .autoclaim name ids => some (name, (s.stream.group.claimed ids).map (·.id))
  | _ => none

/-- No entry is handed to a consumer that a cleanup under way has seen as stale and
    has not deleted yet. -/
def Unhanded (s : StreamState) (a : StreamAction) : Prop :=
  ∀ name ids, handed s a = some (name, ids) → ids ≠ [] →
    ∀ cleanup names, s.cleanups cleanup = .deleting names → name ∉ names

end StaleConsumers

/-! ## Who holds what after a command -/

section Holders

variable {now : Nat} {name : String} {ids : List Nat} {consumers : List Consumer} {id : Nat}

def Held (id : Nat) (consumers : List Consumer) : Prop := ∃ c ∈ consumers, id ∈ c.pending

def Empty (names : List String) (consumers : List Consumer) : Prop :=
  ∀ c ∈ consumers, c.name ∈ names → c.pending = []

theorem Held.hand (held : Held id consumers) : Held id (hand now name ids consumers) := by
  obtain ⟨c, hc, holds⟩ := held
  unfold BetterBullBoard.hand
  split
  · refine ⟨_, List.mem_map_of_mem hc, ?_⟩
    split
    · exact List.mem_append_left _ holds
    · exact holds
  · exact ⟨c, List.mem_append_left _ hc, holds⟩

theorem held_handed (given : id ∈ ids) : Held id (hand now name ids consumers) := by
  unfold hand
  split
  · rename_i known
    obtain ⟨c, hc, named⟩ := List.any_eq_true.mp known
    refine ⟨_, List.mem_map_of_mem hc, ?_⟩
    rw [if_pos (of_decide_eq_true named)]
    exact List.mem_append_right _ given
  · exact ⟨_, List.mem_append_right _ List.mem_cons_self, given⟩

theorem Held.drop (held : Held id consumers) (out : id ∉ ids) : Held id (drop ids consumers) := by
  obtain ⟨c, hc, holds⟩ := held
  exact ⟨_, List.mem_map_of_mem hc, List.mem_filter.mpr ⟨holds, by simpa using out⟩⟩

theorem Empty.hand {names : List String} (empty : Empty names consumers) (apart : ids ≠ [] → name ∉ names) :
    Empty names (hand now name ids consumers) := by
  have same : ∀ {c : Consumer}, c.name = name → c.name ∈ names → ids = [] := fun named listed =>
    Decidable.not_not.mp fun handed => apart handed (named ▸ listed)
  intro c hc listed
  unfold BetterBullBoard.hand at hc
  split at hc
  · obtain ⟨old, hold, rfl⟩ := List.mem_map.mp hc
    split at listed
    · rename_i named
      rw [if_pos named]
      simp only [same named listed, List.append_nil]
      exact empty old hold listed
    · rename_i other
      rw [if_neg other]
      exact empty old hold listed
  · cases List.mem_append.mp hc with
    | inl old => exact empty c old listed
    | inr new =>
        obtain rfl := List.mem_singleton.mp new
        exact same rfl listed

theorem Empty.drop {names : List String} (empty : Empty names consumers) : Empty names (drop ids consumers) := by
  intro c hc listed
  obtain ⟨old, hold, rfl⟩ := List.mem_map.mp hc
  simp [empty old hold listed]

theorem held_iff {g : ConsumerGroup} : id ∈ g.group.pending ↔ Held id g.consumers := List.mem_flatMap

end Holders

namespace StaleConsumers

/-! ## The invariant -/

structure Sound (s : StreamState) : Prop where
  sorted : s.stream.entries.Pairwise fun a b => a.id < b.id
  claimable : Claimable s
  listed : ∀ cleanup names, s.cleanups cleanup = .deleting names → Empty names s.stream.consumers

variable {s t : StreamState}

theorem claimable_iff : Claimable s ↔ ∀ m ∈ s.stream.entries, m.id ∉ s.acked → s.stream.group.Unacknowledged m := by
  have each : ∀ m ∈ s.stream.entries, s.stream.group.Unacknowledged m ↔
      s.stream.lastDelivered < m.id ∨ Held m.id s.stream.consumers := fun m hm => by
    rw [Group.Unacknowledged, held_iff]
    exact and_iff_right hm
  exact forall₂_congr fun m hm => imp_congr_right fun _ => (each m hm).symm

theorem listed_update {cleanup : Nat} {phase : CleanupPhase} {consumers : List Consumer}
    (others : ∀ other names, s.cleanups other = .deleting names → Empty names consumers)
    (own : ∀ names, phase = .deleting names → Empty names consumers) :
    ∀ other names, Function.update s.cleanups cleanup phase other = .deleting names → Empty names consumers :=
  (Function.forall_update_iff s.cleanups fun _ p => ∀ names, p = .deleting names → Empty names consumers).mpr
    ⟨own, fun other _ => others other⟩

theorem sound_read {name : String} {count : Nat} (sound : Sound s)
    (unhanded : Unhanded s (.read name count)) :
    Sound { s with stream := s.stream.read s.now name count } where
  sorted := sound.sorted
  claimable m hm unacked := by
    have delivered := Group.Unacknowledged.deliver (claimable_iff.mp sound.claimable m hm unacked) count sound.sorted
    refine delivered.2.imp id fun pending => ?_
    cases List.mem_append.mp pending with
    | inl before => exact (held_iff.mp before).hand
    | inr new => exact held_handed new
  listed cleanup names deleting :=
    (sound.listed cleanup names deleting).hand fun handed => unhanded name _ rfl handed cleanup names deleting

theorem sound_autoclaim {name : String} {ids : List Nat} (sound : Sound s)
    (unhanded : Unhanded s (.autoclaim name ids)) :
    Sound { s with stream := s.stream.autoclaim s.now name ids } where
  sorted := sound.sorted
  claimable m hm unacked := by
    refine (sound.claimable m hm unacked).imp id fun held => ?_
    cases Decidable.em (m.id ∈ ids) with
    | inl taken =>
        apply held_handed
        apply List.mem_map_of_mem
        refine List.mem_filter.mpr ⟨hm, ?_⟩
        simpa [taken] using held_iff.mpr held
    | inr left => exact (Held.drop held left).hand
  listed cleanup names deleting :=
    (sound.listed cleanup names deleting).drop.hand fun handed => unhanded name _ rfl handed cleanup names deleting

theorem sound_delConsumer {cleanup : Nat} {name : String} {names : List String} (sound : Sound s)
    (deleting : s.cleanups cleanup = .deleting (name :: names)) :
    Sound { s with
      stream := s.stream.delConsumer name
      cleanups := Function.update s.cleanups cleanup (.deleting names) } where
  sorted := sound.sorted
  claimable m hm unacked := by
    refine (sound.claimable m hm unacked).imp id fun held => ?_
    obtain ⟨c, hc, holds⟩ := held
    refine ⟨c, List.mem_filter.mpr ⟨hc, decide_eq_true fun named => ?_⟩, holds⟩
    rw [sound.listed cleanup _ deleting c hc (named ▸ List.mem_cons_self)] at holds
    cases holds
  listed := by
    have fewer {names' : List String} (empty : Empty names' s.stream.consumers) :
        Empty names' (s.stream.delConsumer name).consumers := fun c hc => empty c (List.mem_filter.mp hc).1
    refine listed_update (fun other names' deleting' => fewer (sound.listed other names' deleting')) ?_
    rintro _ ⟨⟩
    exact fewer fun c hc listed => sound.listed cleanup _ deleting c hc (List.mem_cons_of_mem _ listed)

theorem empty_stale (numberOfText : String → Option Int) (s : StreamState) :
    Empty (staleConsumers numberOfText s) s.stream.consumers := by
  intro c hc listed
  rw [staleConsumers, parse_xinfo] at listed
  obtain ⟨shown, hshown, named⟩ := List.mem_map.mp listed
  obtain ⟨member, stale⟩ := List.mem_filter.mp hshown
  obtain ⟨c', hc', rfl⟩ := List.mem_map.mp member
  have same : c' = c := List.inj_on_of_nodup_map s.stream.names hc' hc named
  subst same
  simp only [StreamConsumer.isStale, Bool.and_eq_true, decide_eq_true_eq] at stale
  exact List.length_eq_zero_iff.mp (by omega)

variable {numberOfText : String → Option Int}

theorem sound_step {a : StreamAction} (sound : Sound s) (unhanded : Unhanded s a)
    (enabled : step numberOfText s a = some t) : Sound t := by
  cases a with
  | add m =>
      obtain ⟨later, ⟨⟩⟩ := Option.ite_none_right_eq_some.mp enabled
      refine ⟨List.pairwise_append.mpr ⟨sound.sorted, List.pairwise_singleton .., ?_⟩, ?_, sound.listed⟩
      · intro e he m' hm
        rw [List.mem_singleton.mp hm]
        exact later.1 e he
      · intro e he unacked
        cases List.mem_append.mp he with
        | inl old => exact sound.claimable e old unacked
        | inr new => exact .inl (List.mem_singleton.mp new ▸ later.2)
  | read name count =>
      obtain rfl := Option.some.inj enabled
      exact sound_read sound unhanded
  | autoclaim name ids =>
      obtain rfl := Option.some.inj enabled
      exact sound_autoclaim sound unhanded
  | ack ids =>
      obtain rfl := Option.some.inj enabled
      refine ⟨sound.sorted, fun m hm unacked => ?_, fun cleanup names deleting =>
        (sound.listed cleanup names deleting).drop⟩
      obtain ⟨before, now⟩ := not_or.mp fun acked => unacked (List.mem_append.mpr acked)
      exact (sound.claimable m hm before).imp id fun held => Held.drop held now
  | delete ids =>
      obtain rfl := Option.some.inj enabled
      exact ⟨sound.sorted.sublist List.filter_sublist, fun m hm => sound.claimable m (List.mem_filter.mp hm).1,
        sound.listed⟩
  | xinfo cleanup =>
      obtain ⟨-, ⟨⟩⟩ := Option.ite_none_right_eq_some.mp enabled
      refine ⟨sound.sorted, sound.claimable, listed_update sound.listed ?_⟩
      rintro _ ⟨⟩
      exact empty_stale numberOfText s
  | delConsumer cleanup =>
      simp only [step] at enabled
      split at enabled
      · rename_i name names deleting
        obtain rfl := Option.some.inj enabled
        exact sound_delConsumer sound deleting
      · cases enabled
  | fail cleanup =>
      obtain rfl := Option.some.inj enabled
      exact ⟨sound.sorted, sound.claimable, listed_update sound.listed fun _ idle => by cases idle⟩
  | pass ms =>
      obtain rfl := Option.some.inj enabled
      exact ⟨sound.sorted, sound.claimable, sound.listed⟩

theorem sound_init : Sound {} where
  sorted := .nil
  claimable := by simp [Claimable]
  listed := by simp

/-- Every deletion finds its consumer empty, and no entry is ever lost. -/
structure Lossless (s : StreamState) (ts : List (Machine.Transition StreamState StreamAction)) : Prop where
  deletesEmpty : ∀ x ∈ ts, DeletesEmpty x.pre x.act
  claimable : ∀ u ∈ Machine.states s ts, Claimable u

/-- A run is lossless when nothing is handed to a consumer between a cleanup's look at
    it and its deletion. -/
theorem lossless {ts : List (Machine.Transition StreamState StreamAction)}
    (run : Machine.Run (step numberOfText) {} ts s) (unhanded : ∀ x ∈ ts, Unhanded x.pre x.act) : Lossless {} ts where
  deletesEmpty x hx cleanup name names _ deleting c hc named := by
    have sound := (run.guarded_pre (fun _ _ _ => sound_step) sound_init unhanded x hx).1
    exact sound.listed cleanup _ deleting c hc (named ▸ List.mem_cons_self)
  claimable u hu := (run.guarded (fun _ _ _ => sound_step) sound_init unhanded u hu).claimable

/-- Consumer `a` falls silent, and `b` reads entry 2 while a cleanup deletes `a`. -/
def cleanedUp : List StreamAction :=
  [.add ⟨1, []⟩, .read "a" 10, .ack [1], .delete [1], .pass 3600000, .xinfo 0, .add ⟨2, []⟩, .read "b" 10,
    .delConsumer 0]

theorem stale_consumer_lossless : ∃ ts s, Machine.Run (step fun _ => none) {} ts s ∧ ts.map (·.act) = cleanedUp ∧
    Lossless {} ts ∧ s.stream.consumers.map (·.name) = ["b"] := by
  have performed : Machine.perform (step fun _ => none) {} cleanedUp = some (_, _) := rfl
  refine ⟨_, _, Machine.perform_run performed, rfl, lossless (Machine.perform_run performed) ?_, rfl⟩
  simp only [List.forall_mem_cons]
  refine ⟨?_, ?_, ?_, ?_, ?_, ?_, ?_, ?_, ?_, by simp⟩
  all_goals
    intro name ids given filled cleanup names deleting
    cases given
  · cases deleting
  · -- the cleanup has seen `a` only
    obtain rfl : cleanup = 0 := by
      by_contra other
      simp [Function.update_of_ne other] at deleting
    cases deleting
    decide

/-- Consumer `a` reads entry 2 after the cleanup has looked and before it deletes. -/
theorem late_read_performed :
    (Machine.perform (step fun _ => none) {} [.add ⟨1, []⟩, .read "a" 10, .ack [1], .delete [1], .pass 3600000,
      .xinfo 0, .add ⟨2, []⟩, .read "a" 10, .delConsumer 0]).any (fun r =>
        r.2.stream.entries = [⟨2, []⟩] && r.2.stream.lastDelivered = 2 && r.2.acked = [1] &&
          r.2.stream.consumers = []) = true := by
  decide +kernel

/-- The entry is in the stream, delivered and not acknowledged, and nobody can claim it. -/
theorem late_read_lost :
    ¬ ∀ (ts : List (Machine.Transition StreamState StreamAction)) (s : StreamState),
        Machine.Run (step fun _ => none) {} ts s → Lossless {} ts := by
  intro always
  obtain ⟨ts, s, run, ended⟩ := Machine.run_of_perform late_read_performed
  simp only [Bool.and_eq_true, decide_eq_true_eq] at ended
  obtain ⟨⟨⟨entries, lastDelivered⟩, acked⟩, consumers⟩ := ended
  have claimable := (always ts s run).claimable s run.last_mem ⟨2, []⟩ (by simp [entries]) (by simp [acked])
  rw [lastDelivered, consumers] at claimable
  simp at claimable

end StaleConsumers

end BetterBullBoard
