import BetterBullBoard.Lib.Keyset

/-! # A view of one page at a time

The view keeps a cursor and the direction it was reached in, and nothing else: no
number of the page and no history. Turned only at the cursors of the pages it
shows, it stays on the pages that following `nextCursor` from the start would meet.
-/

namespace Keyset

structure View (γ : Type) where
  direction : Direction := .next
  cursor : Option γ := none

namespace Listing

variable {ρ γ κ : Type} [LinearOrder κ] (L : Listing ρ γ κ) (rows : List ρ) (limit : Nat)

/-- The page with this number, counted from 0. -/
def numbered (k : Nat) : Page ρ γ :=
  L.between limit ((L.sorted rows).take (k * limit)) ((L.sorted rows).drop (k * limit))

/-- The view shows that page, and unless it is the first, the page has a row. -/
structure AtPage (k : Nat) (v : View γ) : Prop where
  page : L.page rows limit v.direction v.cursor = L.numbered rows limit k
  exists_row : k = 0 ∨ k * limit < rows.length

variable {L rows limit} {k : Nat} {v : View γ} {c : γ}

theorem length_sorted : (L.sorted rows).length = rows.length := (L.sorted_perm rows).length_eq

/-- Before and from a place in the sorted rows. -/
theorem cut_at (n : Nat) : rows.Perm ((L.sorted rows).take n ++ (L.sorted rows).drop n) := by
  rw [List.take_append_drop]
  exact (L.sorted_perm rows).symm

theorem cut_strict (distinct : (rows.map L.key).Nodup) (n : Nat) :
    ((L.sorted rows).take n ++ (L.sorted rows).drop n).Pairwise (L.key · < L.key ·) := by
  rw [List.take_append_drop]
  exact L.sorted_strict distinct

/-- The rows of a page are those between two multiples of the limit. -/
theorem numbered_items : (L.numbered rows limit k).items = ((L.sorted rows).drop (k * limit)).take limit := rfl

theorem numbered_next (positive : 0 < limit) :
    (L.numbered rows limit k).nextCursor.isSome ↔ (k + 1) * limit < rows.length := by
  have more : limit < ((L.sorted rows).drop (k * limit)).length ↔ (k + 1) * limit < rows.length := by
    rw [List.length_drop, length_sorted, Nat.add_one_mul]
    omega
  simp only [numbered, between, ← more]
  split
  · rename_i longer
    have shown : ((L.sorted rows).drop (k * limit)).take limit ≠ [] := by
      rw [← List.length_pos_iff, List.length_take]
      omega
    rw [List.getLast?_eq_some_getLast shown]
    exact iff_of_true rfl longer
  · rename_i shorter
    exact iff_of_false Bool.false_ne_true shorter

theorem AtPage.prev_iff (positive : 0 < limit) (here : L.AtPage rows limit k v) :
    (L.page rows limit v.direction v.cursor).prevCursor.isSome ↔ 0 < k := by
  rw [here.page, numbered, between]
  cases here.exists_row with
  | inl first =>
      subst first
      simp
  | inr row =>
      have sorted : k * limit < (L.sorted rows).length := by rwa [length_sorted]
      have rest : (L.sorted rows).drop (k * limit) ≠ [] := by
        rw [← List.length_pos_iff, List.length_drop]
        omega
      have front : (L.sorted rows).take (k * limit) = [] ↔ k = 0 := by
        rw [List.take_eq_nil_iff, Nat.mul_eq_zero, or_iff_left (Nat.ne_of_gt positive),
          or_iff_left (List.ne_nil_of_length_pos (Nat.zero_lt_of_lt sorted))]
      simp [front, List.head?_eq_some_head rest, Nat.pos_iff_ne_zero]

theorem AtPage.start (positive : 0 < limit) (distinct : (rows.map L.key).Nodup) : L.AtPage rows limit 0 {} where
  page := by
    have cut : rows.Perm ((L.sorted rows).take (0 * limit) ++ (L.sorted rows).drop (0 * limit)) := cut_at _
    have first := L.page_next positive cut (cut_strict distinct _)
    rw [numbered, ← first]
    simp [cursorOf]
  exists_row := .inl rfl

/-- The cursor of the last row shown leads to the next page. -/
theorem AtPage.next (positive : 0 < limit) (distinct : (rows.map L.key).Nodup) (here : L.AtPage rows limit k v)
    (onward : (L.page rows limit v.direction v.cursor).nextCursor = some c) :
    L.AtPage rows limit (k + 1) ⟨.next, some c⟩ := by
  rw [here.page] at onward
  have more := (numbered_next positive).mp (Option.isSome_iff_exists.mpr ⟨c, onward⟩)
  refine ⟨?_, .inr more⟩
  have longer : limit < ((L.sorted rows).drop (k * limit)).length := by
    rw [List.length_drop, length_sorted]
    rw [Nat.add_one_mul] at more
    omega
  simp only [numbered, between, longer, if_true] at onward
  have cursor : L.cursorOf ((L.sorted rows).take ((k + 1) * limit)) = some c := by
    rw [← onward, cursorOf, Nat.add_one_mul, List.take_add, List.getLast?_append]
    have shown : ((L.sorted rows).drop (k * limit)).take limit ≠ [] := by
      rw [← List.length_pos_iff, List.length_take]
      omega
    rw [List.getLast?_eq_some_getLast shown]
    rfl
  have cut : rows.Perm ((L.sorted rows).take ((k + 1) * limit) ++ (L.sorted rows).drop ((k + 1) * limit)) := cut_at _
  have page := L.page_next positive cut (cut_strict distinct _)
  rwa [cursor] at page

/-- The cursor of the first row shown leads to the page before. -/
theorem AtPage.prev (positive : 0 < limit) (distinct : (rows.map L.key).Nodup) (here : L.AtPage rows limit (k + 1) v)
    (back : (L.page rows limit v.direction v.cursor).prevCursor = some c) : L.AtPage rows limit k ⟨.prev, some c⟩ := by
  have row : (k + 1) * limit < rows.length := here.exists_row.resolve_left (Nat.succ_ne_zero k)
  refine ⟨?_, ?_⟩
  · rw [here.page] at back
    simp only [numbered, between] at back
    split at back
    · cases back
    · obtain ⟨b, first, rfl⟩ := Option.map_eq_some_iff.mp back
      obtain ⟨later, rest⟩ := List.head?_eq_some_iff.mp first
      have split : L.sorted rows = (L.sorted rows).take (k * limit) ++
          ((L.sorted rows).drop (k * limit)).take limit ++ b :: later := by
        rw [← rest, Nat.add_one_mul, ← List.take_add, List.take_append_drop]
      have full : (((L.sorted rows).drop (k * limit)).take limit).length = limit := by
        rw [List.length_take, List.length_drop, length_sorted]
        rw [Nat.add_one_mul] at row
        omega
      have all := (L.sorted_perm rows).symm
      have strict := L.sorted_strict distinct
      rw [split] at all strict
      rw [L.page_prev full all strict positive, numbered, ← rest, Nat.add_one_mul, ← List.drop_drop,
        List.take_append_drop]
  · cases k with
    | zero => exact .inl rfl
    | succ k =>
        refine .inr (Nat.lt_of_le_of_lt ?_ row)
        exact Nat.mul_le_mul_right _ (Nat.le_succ _)

end Listing

end Keyset
