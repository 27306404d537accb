import BetterBullBoard.Streams.Group

/-! # What a group still owes

Whoever reads a stream settles its entries before acknowledging them. If it keeps
to that, an entry is unacknowledged or settled at every moment, whatever is read,
claimed, acknowledged and deleted in whatever order. Only the entries that a deleted
consumer holds have to be counted as settled.
-/

namespace BetterBullBoard

namespace Group

/-- `history` is every entry ever appended, `settled` what may be acknowledged. -/
structure Accounts (history : List StreamMessage) (settled : StreamMessage → Prop) (g : Group) : Prop where
  sorted : history.Pairwise fun a b => a.id < b.id
  entries : g.entries.Sublist history
  position : g.lastDelivered = 0 ∨ ∃ m ∈ history, g.lastDelivered = m.id
  kept : ∀ m ∈ history, g.Unacknowledged m ∨ settled m

/-- The entries of these ids are settled. -/
def Cleared (history : List StreamMessage) (settled : StreamMessage → Prop) (ids : List Nat) : Prop :=
  ∀ id ∈ ids, ∃ m ∈ history, m.id = id ∧ settled m

theorem Cleared.mono {history history' : List StreamMessage} {settled settled' : StreamMessage → Prop} {ids : List Nat}
    (c : Cleared history settled ids) (longer : ∀ m ∈ history, m ∈ history')
    (more : ∀ m ∈ history, settled m → settled' m) : Cleared history' settled' ids := by
  intro id hid
  obtain ⟨m, member, same, done⟩ := c id hid
  exact ⟨m, longer m member, same, more m member done⟩

namespace Accounts

variable {history : List StreamMessage} {settled settled' : StreamMessage → Prop} {g : Group}

theorem empty : Accounts [] settled {} where
  sorted := .nil
  entries := .slnil
  position := .inl rfl
  kept := by simp

theorem mono (a : Accounts history settled g) (more : ∀ m ∈ history, settled m → settled' m) :
    Accounts history settled' g where
  sorted := a.sorted
  entries := a.entries
  position := a.position
  kept m hm := (a.kept m hm).imp id (more m hm)

/-- A new entry has not been delivered. -/
theorem add (a : Accounts history settled g) {m : StreamMessage} (positive : 0 < m.id)
    (last : ∀ m' ∈ history, m'.id < m.id) : Accounts (history ++ [m]) settled (g.add m) where
  sorted := List.pairwise_append.mpr ⟨a.sorted, by simp, by simpa using last⟩
  entries := a.entries.append (List.Sublist.refl _)
  position := a.position.imp id fun ⟨m', hm', waiting⟩ => ⟨m', List.mem_append_left _ hm', waiting⟩
  kept := by
    intro m' hm'
    cases List.mem_append.mp hm' with
    | inl old => exact (a.kept m' old).imp (fun waiting => waiting.add m) id
    | inr new =>
        obtain rfl := List.mem_singleton.mp new
        refine .inl ⟨List.mem_append_right _ (by simp), .inl ?_⟩
        cases a.position with
        | inl start => exact lt_of_eq_of_lt start positive
        | inr waiting =>
            obtain ⟨m'', hm'', position⟩ := waiting
            exact lt_of_eq_of_lt position (last m'' hm'')

theorem deliver (a : Accounts history settled g) (count : Nat) : Accounts history settled (g.deliver count) where
  sorted := a.sorted
  entries := a.entries
  position := by
    cases g.lastDelivered_deliver count with
    | inl same => exact same ▸ a.position
    | inr moved =>
        obtain ⟨m, member, position⟩ := moved
        exact .inr ⟨m, a.entries.subset member, position⟩
  kept m hm := (a.kept m hm).imp (fun waiting => waiting.deliver count (a.sorted.sublist a.entries)) id

/-- Ids tell the entries apart. -/
theorem eq_of_id (a : Accounts history settled g) {m m' : StreamMessage} (hm : m ∈ history) (hm' : m' ∈ history)
    (same : m.id = m'.id) : m = m' :=
  List.inj_on_of_nodup_map (List.pairwise_map.mpr (a.sorted.imp fun less => Nat.ne_of_lt less)) hm hm' same

theorem cleared (a : Accounts history settled g) {ids : List Nat} (c : Cleared history settled ids)
    {m : StreamMessage} (hm : m ∈ history) (listed : m.id ∈ ids) : settled m := by
  obtain ⟨m', hm', same, done⟩ := c m.id listed
  exact a.eq_of_id hm' hm same ▸ done

theorem ack (a : Accounts history settled g) {ids : List Nat} (c : Cleared history settled ids) :
    Accounts history settled (g.ack ids) where
  sorted := a.sorted
  entries := a.entries
  position := a.position
  kept := by
    intro m hm
    cases a.kept m hm with
    | inr settled => exact .inr settled
    | inl waiting =>
        cases Decidable.em (m.id ∈ ids) with
        | inl acked => exact .inr (a.cleared c hm acked)
        | inr other => exact .inl (waiting.ack other)

/-- What a deleted consumer held is nobody's any more. -/
theorem delConsumer (a : Accounts history settled g) {held : List Nat}
    (discarded : ∀ m ∈ history, m.id ∈ held → m.id ∈ g.pending → settled m) :
    Accounts history settled (g.delConsumer held) where
  sorted := a.sorted
  entries := a.entries
  position := a.position
  kept := by
    intro m hm
    cases a.kept m hm with
    | inr settled => exact .inr settled
    | inl waiting =>
        cases waiting.2 with
        | inl undelivered => exact .inl ⟨waiting.1, .inl undelivered⟩
        | inr pending =>
            cases Decidable.em (m.id ∈ held) with
            | inl lost => exact .inr (discarded m hm lost pending)
            | inr other => exact .inl ⟨waiting.1, .inr (List.mem_filter.mpr ⟨pending, by simpa using other⟩)⟩

theorem delete (a : Accounts history settled g) {ids : List Nat} (c : Cleared history settled ids) :
    Accounts history settled (g.delete ids) where
  sorted := a.sorted
  entries := List.filter_sublist.trans a.entries
  position := a.position
  kept := by
    intro m hm
    cases a.kept m hm with
    | inr settled => exact .inr settled
    | inl waiting =>
        cases Decidable.em (m.id ∈ ids) with
        | inl deleted => exact .inr (a.cleared c hm deleted)
        | inr other => exact .inl (waiting.delete other)

end Accounts

end Group

end BetterBullBoard
