import Mathlib.Data.List.Nodup

/-! # Tables under a unique index

Rows are kept in a list; the index reads a key off each row, or none when a key
column is NULL, and rows without a key never conflict. `doUpdate` is
`INSERT .. ON CONFLICT (key) DO UPDATE` for one proposed row, and `doNothing` is
`INSERT .. ON CONFLICT (key) DO NOTHING`. Both keep the index.
-/

namespace UniqueIndex

variable {ρ κ : Type} (key : ρ → Option κ)

/-- Two rows the index does not allow side by side. -/
def Clash (a b : ρ) : Prop := (key a).isSome ∧ key a = key b

def Unique (rows : List ρ) : Prop := rows.Pairwise fun a b => ¬ Clash key a b

instance [DecidableEq κ] (a b : ρ) : Decidable (Clash key a b) := inferInstanceAs (Decidable (_ ∧ _))

variable {key}

theorem Clash.symm {a b : ρ} (h : Clash key a b) : Clash key b a := ⟨h.2 ▸ h.1, h.2.symm⟩

theorem Unique.eq_of_clash {rows : List ρ} (h : Unique key rows) {a b : ρ}
    (ha : a ∈ rows) (hb : b ∈ rows) (clash : Clash key a b) : a = b := by
  induction rows with
  | nil => simp at ha
  | cons row rest ih =>
      obtain ⟨head, tail⟩ := List.pairwise_cons.mp h
      rcases List.mem_cons.mp ha with rfl | later <;> rcases List.mem_cons.mp hb with same | after
      · exact same.symm
      · exact absurd clash (head b after)
      · exact absurd (same ▸ clash.symm) (head a later)
      · exact ih tail later after

theorem Unique.sublist {rows rows' : List ρ} (h : Unique key rows) (sub : rows'.Sublist rows) :
    Unique key rows' := List.Pairwise.sublist sub h

/-- A key is looked up to all the rows that have it. -/
theorem Unique.filter_key [DecidableEq κ] {rows : List ρ} (h : Unique key rows) (k : κ) :
    rows.filter (fun r => key r = some k) = (rows.find? fun r => key r = some k).toList := by
  induction rows with
  | nil => rfl
  | cons row rest ih =>
      obtain ⟨head, tail⟩ := List.pairwise_cons.mp h
      by_cases keyed : key row = some k
      · have unkeyed : rest.filter (fun r => key r = some k) = [] := by
          apply List.filter_eq_nil_iff.mpr
          intro r hr same
          exact head r hr ⟨by simp [keyed], keyed.trans (of_decide_eq_true same).symm⟩
        simp [keyed, unkeyed]
      · simpa [keyed] using ih tail

/-- Updates that leave every key alone leave the index alone. -/
theorem Unique.map {rows : List ρ} (h : Unique key rows) {f : ρ → ρ} (same : ∀ r, key (f r) = key r) :
    Unique key (rows.map f) := by
  refine List.pairwise_map.mpr (h.imp fun {a b} free clash => free ?_)
  simpa only [Clash, same] using clash

/-- Rows that keep their key or lose it, under any index that reads them so. -/
theorem Unique.map_of {ρ' : Type} {rows : List ρ} (h : Unique key rows) {key' : ρ' → Option κ} {f : ρ → ρ'}
    (keeps : ∀ r ∈ rows, key' (f r) = none ∨ key' (f r) = key r) : Unique key' (rows.map f) := by
  have keyed {r : ρ} (hr : r ∈ rows) (isKeyed : (key' (f r)).isSome) : key' (f r) = key r :=
    (keeps r hr).resolve_left (Option.isSome_iff_ne_none.mp isKeyed)
  refine List.pairwise_map.mpr (List.Pairwise.imp_of_mem ?_ h)
  intro a b ha hb free clash
  have first := keyed ha clash.1
  have second := keyed hb clash.symm.1
  exact free ⟨first ▸ clash.1, first.symm.trans (clash.2.trans second)⟩

theorem Unique.append_one {rows : List ρ} (h : Unique key rows) {new : ρ} (fresh : ∀ r ∈ rows, ¬ Clash key r new) :
    Unique key (rows ++ [new]) :=
  List.pairwise_append.mpr ⟨h, List.pairwise_singleton _ _, by simpa using fresh⟩

/-- A column that every row has to itself, as a new row has. -/
theorem nodup_insert {β : Type} {col : ρ → β} {rows : List ρ} {row : ρ} (distinct : (rows.map col).Nodup)
    (fresh : ∀ r ∈ rows, col r ≠ col row) : ((rows ++ [row]).map col).Nodup := by
  rw [List.map_append, List.nodup_append]
  refine ⟨distinct, List.nodup_singleton _, fun a ha b hb => ?_⟩
  obtain ⟨r, hr, rfl⟩ := List.mem_map.mp ha
  obtain rfl := List.mem_singleton.mp hb
  exact fresh r hr

variable [DecidableEq κ]

variable (key) in
/-- Merge the proposed row into the row it conflicts with, or append it. -/
def doUpdate (merge : ρ → ρ → ρ) (new : ρ) : List ρ → List ρ
  | [] => [new]
  | row :: rest => if Clash key row new then merge row new :: rest else row :: doUpdate merge new rest

variable (key) in
/-- Keep the row the proposed one conflicts with, or append the proposed one. -/
def doNothing (new : ρ) (rows : List ρ) : List ρ := doUpdate key (fun old _ => old) new rows

variable {merge : ρ → ρ → ρ} {new : ρ}

theorem doUpdate_fresh {rows : List ρ} (fresh : ∀ r ∈ rows, ¬ Clash key r new) :
    doUpdate key merge new rows = rows ++ [new] := by
  induction rows with
  | nil => rfl
  | cons row rest ih =>
      simp only [List.forall_mem_cons] at fresh
      simp only [doUpdate, fresh.1, if_false, ih fresh.2, List.cons_append]

theorem doUpdate_conflict {pre post : List ρ} {row : ρ} (clash : Clash key row new)
    (first : ∀ r ∈ pre, ¬ Clash key r new) :
    doUpdate key merge new (pre ++ row :: post) = pre ++ merge row new :: post := by
  induction pre with
  | nil => simp only [List.nil_append, doUpdate, clash, if_true]
  | cons r pre ih =>
      simp only [List.forall_mem_cons] at first
      simp only [List.cons_append, doUpdate, first.1, if_false, ih first.2]

/-- The two outcomes of one upsert: the proposed row is appended, or exactly one
    row is merged in place. -/
theorem doUpdate_cases (merge : ρ → ρ → ρ) (new : ρ) {rows : List ρ} (unique : Unique key rows) :
    ((∀ r ∈ rows, ¬ Clash key r new) ∧ doUpdate key merge new rows = rows ++ [new]) ∨
    (∃ pre row post, rows = pre ++ row :: post ∧ Clash key row new ∧
      (∀ r ∈ pre ++ post, ¬ Clash key r new) ∧
      doUpdate key merge new rows = pre ++ merge row new :: post) := by
  by_cases fresh : ∀ r ∈ rows, ¬ Clash key r new
  · exact .inl ⟨fresh, doUpdate_fresh fresh⟩
  · simp only [not_forall, not_not] at fresh
    obtain ⟨row, member, clash⟩ := fresh
    obtain ⟨pre, post, rfl⟩ := List.append_of_mem member
    have apart := List.pairwise_append.mp unique
    have others : ∀ r ∈ pre ++ post, ¬ Clash key r new := by
      intro r hr hc
      have same : Clash key r row := ⟨hc.1, hc.2.trans clash.2.symm⟩
      rcases List.mem_append.mp hr with h | h
      · exact apart.2.2 r h row (by simp) same
      · exact (List.pairwise_cons.mp apart.2.1).1 r h same.symm
    exact .inr ⟨pre, row, post, rfl, clash, others,
      doUpdate_conflict clash fun r hr => others r (List.mem_append_left _ hr)⟩

theorem mem_doUpdate {rows : List ρ} (unique : Unique key rows) {x : ρ} :
    x ∈ doUpdate key merge new rows ↔
      (x ∈ rows ∧ ¬ Clash key x new) ∨ (∃ row ∈ rows, Clash key row new ∧ x = merge row new) ∨
      (x = new ∧ ∀ r ∈ rows, ¬ Clash key r new) := by
  rcases doUpdate_cases merge new unique with
    ⟨fresh, eq⟩ | ⟨pre, row, post, rfl, clash, others, eq⟩
  · rw [eq]
    constructor
    · intro h
      rcases List.mem_append.mp h with h | h
      · exact .inl ⟨h, fresh x h⟩
      · exact .inr (.inr ⟨List.mem_singleton.mp h, fresh⟩)
    · rintro (⟨h, -⟩ | ⟨r, hr, hc, -⟩ | ⟨rfl, -⟩)
      · exact List.mem_append_left _ h
      · exact absurd hc (fresh r hr)
      · simp
  · rw [eq]
    have member : ∀ y, y ∈ pre ++ row :: post ↔ y ∈ pre ++ post ∨ y = row := by
      intro y; simp only [List.mem_append, List.mem_cons]; tauto
    constructor
    · intro h
      have h' : x ∈ pre ++ post ∨ x = merge row new := by
        simp only [List.mem_append, List.mem_cons] at h ⊢; tauto
      rcases h' with h' | rfl
      · exact .inl ⟨(member x).mpr (.inl h'), others x h'⟩
      · exact .inr (.inl ⟨row, (member row).mpr (.inr rfl), clash, rfl⟩)
    · rintro (⟨h, apart⟩ | ⟨r, hr, hc, rfl⟩ | ⟨rfl, fresh⟩)
      · rcases (member x).mp h with h | rfl
        · simp only [List.mem_append, List.mem_cons] at h ⊢; tauto
        · exact absurd clash apart
      · rcases (member r).mp hr with h | rfl
        · exact absurd hc (others r h)
        · simp
      · exact absurd clash (fresh row ((member row).mpr (.inr rfl)))

/-- A merge that leaves the stored row as it is leaves the table as it is. -/
theorem doUpdate_merged {rows : List ρ} (unique : Unique key rows) {row : ρ} (member : row ∈ rows)
    (clash : Clash key row new) (merged : merge row new = row) : doUpdate key merge new rows = rows := by
  rcases doUpdate_cases merge new unique with
    ⟨fresh, -⟩ | ⟨pre, row', post, rfl, clash', -, eq⟩
  · exact absurd clash (fresh row member)
  · have same : row' = row := unique.eq_of_clash (by simp) member ⟨clash'.1, clash'.2.trans clash.2.symm⟩
    rw [eq, same, merged]

/-- A merge that keeps the key of the stored row keeps the index. -/
theorem Unique.doUpdate {rows : List ρ} (unique : Unique key rows)
    (keeps : ∀ old, Clash key old new → key (merge old new) = key old) :
    Unique key (UniqueIndex.doUpdate key merge new rows) := by
  rcases doUpdate_cases merge new unique with
    ⟨fresh, eq⟩ | ⟨pre, row, post, rfl, clash, others, eq⟩
  · rw [eq]
    exact unique.append_one fresh
  · rw [eq]
    have same := keeps row clash
    obtain ⟨hpre, hrest, cross⟩ := List.pairwise_append.mp unique
    obtain ⟨hrow, hpost⟩ := List.pairwise_cons.mp hrest
    refine List.pairwise_append.mpr ⟨hpre, List.pairwise_cons.mpr ⟨?_, hpost⟩, ?_⟩
    · intro r hr hc
      exact hrow r hr ⟨same ▸ hc.1, same ▸ hc.2⟩
    · intro a ha b hb
      rcases List.mem_cons.mp hb with rfl | hb
      · exact fun hc => cross a ha row (by simp) ⟨hc.1, hc.2.trans same⟩
      · exact cross a ha b (by simp [hb])

/-- Reading a column that merging keeps: the column of the old rows, with at
    most the new row's value added. -/
theorem map_doUpdate {β : Type} {rows : List ρ} (col : ρ → β) (unique : Unique key rows)
    (keeps : ∀ old, col (merge old new) = col old) :
    (doUpdate key merge new rows).map col =
      if ∀ r ∈ rows, ¬ Clash key r new then rows.map col ++ [col new] else rows.map col := by
  rcases doUpdate_cases merge new unique with
    ⟨fresh, eq⟩ | ⟨pre, row, post, rfl, clash, others, eq⟩
  · rw [if_pos fresh, eq, List.map_append, List.map_singleton]
  · have : ¬ ∀ r ∈ pre ++ row :: post, ¬ Clash key r new := fun h => h row (by simp) clash
    rw [if_neg this, eq]
    simp only [List.map_append, List.map_cons, keeps]

/-- Merging keeps such a column. -/
theorem nodup_doUpdate {β : Type} {rows : List ρ} {col : ρ → β} (unique : Unique key rows)
    (keeps : ∀ old, col (merge old new) = col old) (distinct : (rows.map col).Nodup)
    (fresh : ∀ r ∈ rows, col r ≠ col new) : ((doUpdate key merge new rows).map col).Nodup := by
  rw [map_doUpdate col unique keeps]
  split
  · have appended := nodup_insert distinct fresh
    rwa [List.map_append, List.map_singleton] at appended
  · exact distinct

theorem Unique.doNothing {rows : List ρ} (unique : Unique key rows) :
    Unique key (UniqueIndex.doNothing key new rows) := unique.doUpdate fun _ _ => rfl

theorem mem_doNothing {rows : List ρ} (unique : Unique key rows) {x : ρ} :
    x ∈ doNothing key new rows ↔ x ∈ rows ∨ (x = new ∧ ∀ r ∈ rows, ¬ Clash key r new) := by
  rw [doNothing, mem_doUpdate unique]
  constructor
  · rintro (⟨h, -⟩ | ⟨row, h, -, rfl⟩ | h)
    · exact .inl h
    · exact .inl h
    · exact .inr h
  · rintro (h | h)
    · by_cases hc : Clash key x new
      · exact .inr (.inl ⟨x, h, hc, rfl⟩)
      · exact .inl ⟨h, hc⟩
    · exact .inr (.inr h)

/-- After `doNothing` the index holds the proposed key. -/
theorem doNothing_holds {rows : List ρ} (unique : Unique key rows) (new : ρ) :
    ∃ r ∈ doNothing key new rows, key r = key new := by
  by_cases fresh : ∀ r ∈ rows, ¬ Clash key r new
  · exact ⟨new, (mem_doNothing unique).mpr (.inr ⟨rfl, fresh⟩), rfl⟩
  · simp only [not_forall, not_not] at fresh
    obtain ⟨r, hr, clash⟩ := fresh
    exact ⟨r, (mem_doNothing unique).mpr (.inl hr), clash.2⟩

end UniqueIndex
