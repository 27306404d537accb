import Mathlib.Data.List.Nodup

/-! # A stream and its consumer group

The stream keeps entries in the order of their ids. The group remembers the last
id it delivered and the ids it delivered that are not acknowledged. Which
consumer holds an entry, and for how long it has been idle, only decides which
pending entries may be claimed; claims of any pending entries are allowed here.
-/

namespace BetterBullBoard

structure StreamMessage where
  id : Nat
  fields : List String
  deriving Repr, DecidableEq

/-- `fields.indexOf(key)`, then the next element. -/
def getField (fields : List String) (key : String) : Option String :=
  match fields.idxOf? key with
  | none => none
  | some index => fields[index + 1]?

structure Group where
  entries : List StreamMessage := []
  lastDelivered : Nat := 0
  pending : List Nat := []
  deriving Repr, DecidableEq

namespace Group

/-- `XADD` -/
def add (g : Group) (m : StreamMessage) : Group := { g with entries := g.entries ++ [m] }

/-- The entries no consumer has been given yet. -/
def undelivered (g : Group) : List StreamMessage := g.entries.filter fun m => g.lastDelivered < m.id

/-- What `XREADGROUP .. COUNT n .. >` returns. -/
def newMessages (g : Group) (n : Nat) : List StreamMessage := g.undelivered.take n

/-- The group after that read. -/
def deliver (g : Group) (n : Nat) : Group :=
  { g with
    lastDelivered := ((g.newMessages n).getLast?.map (·.id)).getD g.lastDelivered
    pending := g.pending ++ (g.newMessages n).map (·.id) }

/-- What `XAUTOCLAIM` returns when it claims these pending entries. -/
def claimed (g : Group) (ids : List Nat) : List StreamMessage :=
  g.entries.filter fun m => m.id ∈ ids && m.id ∈ g.pending

/-- `XACK` -/
def ack (g : Group) (ids : List Nat) : Group := { g with pending := g.pending.filter (· ∉ ids) }

/-- `XGROUP DELCONSUMER` of a consumer that holds these entries. -/
def delConsumer (g : Group) (held : List Nat) : Group := { g with pending := g.pending.filter (· ∉ held) }

/-- `XDEL` -/
def delete (g : Group) (ids : List Nat) : Group := { g with entries := g.entries.filter (·.id ∉ ids) }

/-- The handlers' `ackAndDelete`. -/
def ackAndDelete (g : Group) (ids : List Nat) : Group := (g.ack ids).delete ids

/-- The entries `XAUTOCLAIM` walks, in the order of their ids. -/
def pendingEntries (g : Group) : List StreamMessage := g.claimed g.pending

/-- In the stream and not acknowledged: not delivered yet, or pending. -/
def Unacknowledged (g : Group) (m : StreamMessage) : Prop :=
  m ∈ g.entries ∧ (g.lastDelivered < m.id ∨ m.id ∈ g.pending)

theorem Unacknowledged.add {g : Group} {m : StreamMessage} (h : g.Unacknowledged m) (new : StreamMessage) :
    (g.add new).Unacknowledged m := ⟨List.mem_append_left _ h.1, h.2⟩

theorem Unacknowledged.ack {g : Group} {m : StreamMessage} (h : g.Unacknowledged m) {ids : List Nat}
    (out : m.id ∉ ids) : (g.ack ids).Unacknowledged m :=
  ⟨h.1, h.2.imp id fun pending => List.mem_filter.mpr ⟨pending, by simpa using out⟩⟩

theorem Unacknowledged.delete {g : Group} {m : StreamMessage} (h : g.Unacknowledged m) {ids : List Nat}
    (out : m.id ∉ ids) : (g.delete ids).Unacknowledged m :=
  ⟨List.mem_filter.mpr ⟨h.1, by simpa using out⟩, h.2⟩

theorem newMessages_mem {g : Group} {n : Nat} {m : StreamMessage} (h : m ∈ g.newMessages n) : m ∈ g.entries :=
  (List.mem_filter.mp (List.mem_of_mem_take h)).1

theorem claimed_mem {g : Group} {ids : List Nat} {m : StreamMessage} (h : m ∈ g.claimed ids) : m ∈ g.entries :=
  (List.mem_filter.mp h).1

/-- Reading new entries delivers a prefix of the undelivered ones, so none is
    skipped. -/
theorem Unacknowledged.deliver {g : Group} {m : StreamMessage} (h : g.Unacknowledged m) (n : Nat)
    (sorted : g.entries.Pairwise fun a b => a.id < b.id) : (g.deliver n).Unacknowledged m := by
  refine ⟨h.1, ?_⟩
  cases h.2 with
  | inr pending => exact .inr (List.mem_append_left _ pending)
  | inl undelivered =>
      have waiting : m ∈ g.undelivered := List.mem_filter.mpr ⟨h.1, by simpa using undelivered⟩
      have ordered := sorted.sublist (List.filter_sublist (p := fun m => g.lastDelivered < m.id))
      change g.undelivered.Pairwise _ at ordered
      rw [← List.take_append_drop n g.undelivered] at waiting ordered
      cases List.mem_append.mp waiting with
      | inl taken => exact .inr (List.mem_append_right _ (List.mem_map.mpr ⟨m, taken, rfl⟩))
      | inr left =>
          refine .inl ?_
          simp only [Group.deliver]
          cases last : (g.newMessages n).getLast? with
          | none => simpa using undelivered
          | some final =>
              simp only [Option.map_some, Option.getD_some]
              exact (List.pairwise_append.mp ordered).2.2 final (List.mem_of_getLast? last) m left

/-- The group's position is the start of the stream or an entry it delivered. -/
theorem lastDelivered_deliver (g : Group) (n : Nat) :
    (g.deliver n).lastDelivered = g.lastDelivered ∨
      ∃ m ∈ g.entries, (g.deliver n).lastDelivered = m.id := by
  simp only [Group.deliver]
  cases last : (g.newMessages n).getLast? with
  | none => exact .inl rfl
  | some final => exact .inr ⟨final, newMessages_mem (List.mem_of_getLast? last), rfl⟩

theorem mem_pendingEntries {g : Group} {m : StreamMessage} :
    m ∈ g.pendingEntries ↔ m ∈ g.entries ∧ m.id ∈ g.pending := by
  simp [pendingEntries, claimed]

theorem pendingEntries_ackAndDelete (g : Group) (ids : List Nat) :
    (g.ackAndDelete ids).pendingEntries = g.pendingEntries.filter (·.id ∉ ids) := by
  simp only [pendingEntries, claimed, ackAndDelete, ack, delete, List.filter_filter, List.mem_filter]
  apply List.filter_congr
  intro m _
  rw [Bool.eq_iff_iff]
  simp only [Bool.and_eq_true, decide_eq_true_eq]
  tauto

theorem nodup_pendingEntries {g : Group} (distinct : (g.entries.map (·.id)).Nodup) :
    (g.pendingEntries.map (·.id)).Nodup :=
  distinct.sublist (List.filter_sublist.map _)

/-- A batch of pending entries of which some are done with. -/
theorem pendingEntries_batch {g : Group} (distinct : (g.entries.map (·.id)).Nodup) (n : Nat)
    (done : StreamMessage → Bool) :
    (g.ackAndDelete (((g.pendingEntries.take n).filter done).map (·.id))).pendingEntries =
      ((g.pendingEntries.take n).filter fun m => !done m) ++ g.pendingEntries.drop n := by
  have distinct' := nodup_pendingEntries distinct
  rw [pendingEntries_ackAndDelete]
  generalize g.pendingEntries = pending at distinct'
  have inj : ∀ m ∈ pending, ∀ m' ∈ pending, m.id = m'.id → m = m' :=
    fun m hm m' hm' same => List.inj_on_of_nodup_map distinct' hm hm' same
  rw [← List.take_append_drop n pending, List.map_append] at distinct'
  have apart := (List.nodup_append.mp distinct').2.2
  conv_lhs => rw [← List.take_append_drop n pending, List.filter_append]
  congr 1
  · rw [List.take_append_drop]
    apply List.filter_congr
    intro m hm
    have gone : m.id ∈ ((pending.take n).filter done).map (·.id) ↔ done m = true := by
      constructor
      · intro h
        obtain ⟨m', hm', same⟩ := List.mem_map.mp h
        obtain ⟨member, isDone⟩ := List.mem_filter.mp hm'
        exact inj m' (List.mem_of_mem_take member) m (List.mem_of_mem_take hm) same ▸ isDone
      · intro isDone
        exact List.mem_map.mpr ⟨m, List.mem_filter.mpr ⟨hm, isDone⟩, rfl⟩
    simp [gone]
  · rw [List.take_append_drop]
    apply List.filter_eq_self.mpr
    intro m hm
    rw [decide_eq_true_eq]
    intro h
    obtain ⟨m', hm', same⟩ := List.mem_map.mp h
    exact apart m'.id (List.mem_map.mpr ⟨m', (List.mem_filter.mp hm').1, rfl⟩) m.id
      (List.mem_map.mpr ⟨m, hm, rfl⟩) same

/-- The same in two commands, one for the entries that are `done` and one for
    the others. -/
theorem pendingEntries_whole_batch {g : Group} (distinct : (g.entries.map (·.id)).Nodup) (n : Nat)
    (done : StreamMessage → Bool) :
    ((g.ackAndDelete (((g.pendingEntries.take n).filter done).map (·.id))).ackAndDelete
      (((g.pendingEntries.take n).filter fun m => !done m).map (·.id))).pendingEntries = g.pendingEntries.drop n := by
  have whole := pendingEntries_batch distinct n fun _ => true
  rw [List.filter_true, List.filter_eq_nil_iff.mpr (by simp), List.nil_append] at whole
  rw [← whole, pendingEntries_ackAndDelete, pendingEntries_ackAndDelete, pendingEntries_ackAndDelete,
    List.filter_filter]
  apply List.filter_congr
  intro m _
  have parts : m.id ∈ (g.pendingEntries.take n).map (·.id) ↔
      m.id ∈ ((g.pendingEntries.take n).filter fun m => !done m).map (·.id) ∨
        m.id ∈ ((g.pendingEntries.take n).filter done).map (·.id) := by
    simp only [List.mem_map, List.mem_filter]
    constructor
    · intro h
      obtain ⟨m', member, same⟩ := h
      cases isDone : done m' with
      | true => exact .inr ⟨m', ⟨member, isDone⟩, same⟩
      | false => exact .inl ⟨m', ⟨member, by rw [isDone]; rfl⟩, same⟩
    · intro h
      cases h with
      | inl h => exact h.imp fun _ h => ⟨h.1.1, h.2⟩
      | inr h => exact h.imp fun _ h => ⟨h.1.1, h.2⟩
  rw [Bool.eq_iff_iff, Bool.and_eq_true, decide_eq_true_eq, decide_eq_true_eq, decide_eq_true_eq, parts, not_or]

end Group

end BetterBullBoard
