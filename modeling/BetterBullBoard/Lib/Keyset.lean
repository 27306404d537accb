import Mathlib.Data.List.Chain
import Mathlib.Data.List.Induction
import Mathlib.Data.List.Sort
import Mathlib.Data.Prod.Lex
import Mathlib.Order.Compare

/-! # Keyset pagination

A listing orders rows by a key and asks for one page at a time: the rows after
or before the row a cursor was made from, one more than fit on the page. When
the order and the comparisons follow the key both ways, pages partition the
sorted rows and can be turned back and forth.
-/

namespace Keyset

/-! ## Sorting by several columns -/

section OrderBy

variable {ρ α : Type} [LinearOrder α]

def asc (col : ρ → α) (a b : ρ) : Ordering := compare (col a) (col b)

def desc (col : ρ → α) (a b : ρ) : Ordering := compare (col b) (col a)

/-- `ORDER BY` -/
def orderBy (cols : List (ρ → ρ → Ordering)) (a b : ρ) : Bool :=
  match cols with
  | [] => true
  | col :: rest =>
      match col a b with
      | .lt => true
      | .eq => orderBy rest a b
      | .gt => false

/-- Sorting by one column compares it. -/
theorem orderBy_one (col : ρ → α) (a b : ρ) : orderBy [asc col] a b = true ↔ col a ≤ col b := by
  rw [orderBy, asc, ← not_lt]
  cases compared : compare (col a) (col b) with
  | lt => simpa using (compare_lt_iff_lt.mp compared).le
  | eq => simpa [orderBy] using (compare_eq_iff_eq.mp compared).le
  | gt => simpa using compare_gt_iff_gt.mp compared

/-- A further column before the others is the more significant part of the key. -/
theorem orderBy_cons {β : Type} [LinearOrder β] {rest : List (ρ → ρ → Ordering)} {key : ρ → β}
    (follows : ∀ a b, orderBy rest a b = true ↔ key a ≤ key b) (col : ρ → α) (a b : ρ) :
    orderBy (asc col :: rest) a b = true ↔ toLex (col a, key a) ≤ toLex (col b, key b) := by
  rw [orderBy, asc, Prod.Lex.toLex_le_toLex]
  cases compared : compare (col a) (col b) with
  | lt => simpa using .inl (compare_lt_iff_lt.mp compared)
  | eq => simp [compare_eq_iff_eq.mp compared, follows]
  | gt =>
      have greater := compare_gt_iff_gt.mp compared
      simp [greater.not_gt, greater.ne']

end OrderBy

/-! ## Pages -/

inductive Direction where
  | next
  | prev
  deriving DecidableEq

structure Page (ρ γ : Type) where
  items : List ρ
  nextCursor : Option γ
  prevCursor : Option γ

/-- Following `nextCursor` from a cursor, or from the start, to the last page. -/
inductive Follows {ρ γ : Type} (fetch : Option γ → Option (Page ρ γ)) : Option γ → List (Page ρ γ) → Prop where
  | last (c p) : fetch c = some p → p.nextCursor = none → Follows fetch c [p]
  | more (c p c' pages) : fetch c = some p → p.nextCursor = some c' → Follows fetch (some c') pages →
      Follows fetch c (p :: pages)

/-- The pages met are determined by where one starts. -/
theorem Follows.unique {ρ γ : Type} {fetch : Option γ → Option (Page ρ γ)} {c : Option γ}
    {pages pages' : List (Page ρ γ)} (h : Follows fetch c pages) (h' : Follows fetch c pages') : pages = pages' := by
  induction h generalizing pages' with
  | last c p fetched ends =>
      cases h' with
      | last _ p' fetched' => rw [Option.some.inj (fetched.symm.trans fetched')]
      | more _ p' _ _ fetched' goes =>
          rw [← Option.some.inj (fetched.symm.trans fetched'), ends] at goes
          cases goes
  | more c p c' pages fetched goes _ ih =>
      cases h' with
      | last _ p' fetched' ends =>
          rw [← Option.some.inj (fetched.symm.trans fetched'), goes] at ends
          cases ends
      | more _ p' _ _ fetched' goes' rest =>
          have same := Option.some.inj (fetched.symm.trans fetched')
          rw [← same, goes] at goes'
          cases goes'
          rw [same, ih rest]

/-- The second page's `prevCursor` leads to the first page, and the first page's
    `nextCursor` leads back. -/
def Turns {ρ γ : Type} (fetch : Direction → Option γ → Option (Page ρ γ)) (p q : Page ρ γ) : Prop :=
  (∃ c, q.prevCursor = some c ∧ fetch .prev (some c) = some p) ∧
    ∃ c, p.nextCursor = some c ∧ fetch .next (some c) = some q

/-- Following `nextCursor` from the first page ends, shows the items, and pages can be
    turned back and forth. -/
structure Enumerates {ρ γ : Type} (fetch : Direction → Option γ → Option (Page ρ γ)) (items : List ρ) : Prop where
  ends : ∃ pages, Follows (fetch .next) none pages
  shows : ∀ pages, Follows (fetch .next) none pages → pages.flatMap (·.items) = items
  turns : ∀ pages, Follows (fetch .next) none pages → pages.IsChain (Turns fetch)

theorem Enumerates.of_pages {ρ γ : Type} {fetch : Direction → Option γ → Option (Page ρ γ)} {pages : List (Page ρ γ)}
    (follows : Follows (fetch .next) none pages) (turns : pages.IsChain (Turns fetch)) :
    Enumerates fetch (pages.flatMap (·.items)) where
  ends := ⟨pages, follows⟩
  shows _ h := by rw [h.unique follows]
  turns _ h := by
    rw [h.unique follows]
    exact turns

theorem Enumerates.first {ρ γ : Type} {fetch : Direction → Option γ → Option (Page ρ γ)} {items : List ρ}
    (h : Enumerates fetch items) : ∃ p, fetch .next none = some p := by
  obtain ⟨pages, follows⟩ := h.ends
  cases follows with
  | last _ p fetched => exact ⟨p, fetched⟩
  | more _ p _ _ fetched => exact ⟨p, fetched⟩

/-- Only the cursors that pages carry matter. -/
theorem Enumerates.congr {ρ γ : Type} {fetch fetch' : Direction → Option γ → Option (Page ρ γ)} {items : List ρ}
    (Made : γ → Prop) (agree : ∀ d c, (∀ x ∈ c, Made x) → fetch' d c = fetch d c)
    (made : ∀ d c p, fetch d c = some p → (∀ x ∈ p.nextCursor, Made x) ∧ ∀ x ∈ p.prevCursor, Made x)
    (h : Enumerates fetch items) : Enumerates fetch' items := by
  obtain ⟨pages, follows⟩ := h.ends
  have follows' : ∀ {c pages}, (∀ x ∈ c, Made x) → Follows (fetch .next) c pages → Follows (fetch' .next) c pages := by
    intro c pages start steps
    induction steps with
    | last c p fetched ends => exact .last c p ((agree .next c start).trans fetched) ends
    | more c p c' pages fetched goes _ ih =>
        have next := (made _ _ _ fetched).1
        exact .more c p c' pages ((agree .next c start).trans fetched) goes (ih (goes ▸ next))
  have turns' : ∀ p q, Turns fetch p q → Turns fetch' p q := by
    intro p q turned
    obtain ⟨⟨c, back, fetched⟩, c', onward, fetched'⟩ := turned
    have backMade := (made _ _ _ fetched').2
    have onwardMade := (made _ _ _ fetched).1
    rw [back] at backMade
    rw [onward] at onwardMade
    exact ⟨⟨c, back, (agree _ _ backMade).trans fetched⟩, c', onward, (agree _ _ onwardMade).trans fetched'⟩
  rw [← h.shows pages follows]
  exact .of_pages (follows' (by simp) follows) ((h.turns pages follows).imp turns')

def Page.map {ρ τ γ : Type} (f : ρ → τ) (p : Page ρ γ) : Page τ γ where
  items := p.items.map f
  nextCursor := p.nextCursor
  prevCursor := p.prevCursor

theorem Enumerates.map {ρ τ γ : Type} {fetch : Direction → Option γ → Option (Page ρ γ)} {items : List ρ} (f : ρ → τ)
    (h : Enumerates fetch items) : Enumerates (fun d c => (fetch d c).map (Page.map f)) (items.map f) := by
  obtain ⟨pages, follows⟩ := h.ends
  have mapped : ∀ {c pages}, Follows (fetch .next) c pages →
      Follows (fun c => (fetch .next c).map (Page.map f)) c (pages.map (Page.map f)) := by
    intro c pages steps
    induction steps with
    | last c p fetched ends => exact .last c _ (congrArg (Option.map _) fetched) ends
    | more c p c' pages fetched goes _ ih => exact .more c _ c' _ (congrArg (Option.map _) fetched) goes ih
  have turned : ∀ p q, Turns fetch p q → Turns (fun d c => (fetch d c).map (Page.map f)) (p.map f) (q.map f) := by
    rintro p q ⟨⟨c, back, fetched⟩, c', onward, fetched'⟩
    exact ⟨⟨c, back, congrArg (Option.map _) fetched⟩, c', onward, congrArg (Option.map _) fetched'⟩
  have all : (pages.map (Page.map f)).flatMap (·.items) = items.map f := by
    rw [← h.shows pages follows]
    simp [List.flatMap_map, List.map_flatMap, Page.map]
  rw [← all]
  exact .of_pages (mapped follows) (List.isChain_map_of_isChain _ turned (h.turns pages follows))

/-- A page of the rows found, one more than the limit when there are others. -/
def pageOf {ρ γ : Type} (toCursor : ρ → γ) (limit : Nat) (direction : Direction) (hasCursor : Bool) (found : List ρ) :
    Page ρ γ :=
  let hasExtra := limit < found.length
  let kept := if hasExtra then found.dropLast else found
  match direction with
  | .next => {
      items := kept
      nextCursor := if hasExtra then kept.getLast?.map toCursor else none
      prevCursor := if hasCursor then kept.head?.map toCursor else none }
  | .prev => {
      items := kept.reverse
      nextCursor := if hasCursor then kept.reverse.getLast?.map toCursor else none
      prevCursor := if hasExtra then kept.reverse.head?.map toCursor else none }

/-- Paging what a row is shown as, where the cursor is made from that. -/
theorem pageOf_map {ρ τ γ : Type} {toCursor : ρ → γ} {toCursor' : τ → γ} {f : ρ → τ}
    (same : ∀ r, toCursor' (f r) = toCursor r) (limit : Nat) (direction : Direction) (hasCursor : Bool)
    (found : List ρ) : pageOf toCursor' limit direction hasCursor (found.map f) =
      (pageOf toCursor limit direction hasCursor found).map f := by
  have cursors : toCursor' ∘ f = toCursor := funext same
  have kept : (if limit < found.length then (found.map f).dropLast else found.map f) =
      (if limit < found.length then found.dropLast else found).map f := by
    split <;> simp
  cases direction <;> simp [pageOf, Page.map, kept, ← List.map_reverse, cursors]

/-- Cursors are made from rows of the page. -/
theorem pageOf_made {ρ γ : Type} (toCursor : ρ → γ) (limit : Nat) (direction : Direction) (hasCursor : Bool)
    (found : List ρ) :
    (∀ x ∈ (pageOf toCursor limit direction hasCursor found).nextCursor,
        ∃ r ∈ (pageOf toCursor limit direction hasCursor found).items, toCursor r = x) ∧
      ∀ x ∈ (pageOf toCursor limit direction hasCursor found).prevCursor,
        ∃ r ∈ (pageOf toCursor limit direction hasCursor found).items, toCursor r = x := by
  have made : ∀ (p : Prop) [Decidable p] (items : List ρ) (row : Option ρ), (∀ r ∈ row, r ∈ items) →
      ∀ x ∈ (if p then row.map toCursor else none), ∃ r ∈ items, toCursor r = x := by
    intro p _ items row shown x hx
    split at hx
    · obtain ⟨r, found, same⟩ := Option.map_eq_some_iff.mp hx
      exact ⟨r, shown r found, same⟩
    · cases hx
  cases direction <;>
    exact ⟨made _ _ _ fun _ last => List.mem_of_getLast? last, made _ _ _ fun _ first => List.mem_of_head? first⟩

/-- An order and comparisons with a cursor that follow one key. -/
structure Listing (ρ γ κ : Type) [LinearOrder κ] where
  key : ρ → κ
  toCursor : ρ → γ
  order : Direction → ρ → ρ → Bool
  comparison : Direction → γ → ρ → Bool
  order_next : ∀ a b, order .next a b = true ↔ key a ≤ key b
  order_prev : ∀ a b, order .prev a b = true ↔ key b ≤ key a
  after : ∀ c r, comparison .next (toCursor c) r = true ↔ key c < key r
  before : ∀ c r, comparison .prev (toCursor c) r = true ↔ key r < key c

def Direction.flip : Direction → Direction
  | .next => .prev
  | .prev => .next

namespace Listing

variable {ρ γ κ : Type} [LinearOrder κ] (L : Listing ρ γ κ)

/-- The listing sorted the other way round. -/
def reverse : Listing ρ γ κᵒᵈ where
  key r := OrderDual.toDual (L.key r)
  toCursor := L.toCursor
  order direction := L.order direction.flip
  comparison direction := L.comparison direction.flip
  order_next := L.order_prev
  order_prev := L.order_next
  after := L.before
  before := L.after

/-- The rows of one query: filtered by the cursor, sorted and cut. -/
def query (rows : List ρ) (direction : Direction) (cursor : Option γ) (count : Nat) : List ρ :=
  ((rows.filter fun r => cursor.all fun c => L.comparison direction c r).insertionSort
    fun a b => L.order direction a b = true).take count

/-- One page of a listing. -/
def page (rows : List ρ) (limit : Nat) (direction : Direction) (cursor : Option γ) : Page ρ γ :=
  pageOf L.toCursor limit direction cursor.isSome (L.query rows direction cursor (limit + 1))

/-! ## Sorted rows -/

/-- The rows in the order of the listing. -/
def sorted (rows : List ρ) : List ρ := rows.insertionSort fun a b => L.order .next a b = true

instance (direction : Direction) : Std.Total fun a b => L.order direction a b = true where
  total a b := by
    cases direction with
    | next => simpa only [L.order_next] using le_total _ _
    | prev => simpa only [L.order_prev] using le_total _ _

instance (direction : Direction) : IsTrans ρ fun a b => L.order direction a b = true where
  trans a b c := by
    cases direction with
    | next => simpa only [L.order_next] using le_trans
    | prev => simpa only [L.order_prev] using fun ab bc => le_trans bc ab

/-- The strict order of a direction. -/
def Before (direction : Direction) (a b : ρ) : Prop :=
  match direction with
  | .next => L.key a < L.key b
  | .prev => L.key b < L.key a

theorem order_iff (direction : Direction) (a b : ρ) : L.order direction a b = true ↔ ¬ L.Before direction b a := by
  cases direction with
  | next => exact (L.order_next a b).trans not_lt.symm
  | prev => exact (L.order_prev a b).trans not_lt.symm

theorem key_of_before {direction : Direction} {a b : ρ} (ab : ¬ L.Before direction a b)
    (ba : ¬ L.Before direction b a) : L.key a = L.key b := by
  cases direction with
  | next => exact le_antisymm (not_lt.mp ba) (not_lt.mp ab)
  | prev => exact le_antisymm (not_lt.mp ab) (not_lt.mp ba)

theorem Before.asymm {direction : Direction} {a b : ρ} (ab : L.Before direction a b) : ¬ L.Before direction b a := by
  cases direction with
  | next => exact lt_asymm ab
  | prev => exact lt_asymm ab

theorem Before.ne {direction : Direction} {a b : ρ} (ab : L.Before direction a b) : L.key a ≠ L.key b := by
  cases direction with
  | next => exact ne_of_lt ab
  | prev => exact (ne_of_lt ab).symm

/-- Rows in strict order are what sorting them gives. -/
theorem sort_eq {direction : Direction} {rows xs : List ρ} (perm : rows.Perm xs)
    (strict : xs.Pairwise (L.Before direction)) :
    rows.insertionSort (fun a b => L.order direction a b = true) = xs := by
  have all := (List.perm_insertionSort (fun a b => L.order direction a b = true) rows).trans perm
  have distinct : (xs.map L.key).Nodup := List.pairwise_map.mpr (strict.imp (Before.ne L))
  refine all.eq_of_pairwise ?_ (List.pairwise_insertionSort _ _)
    (strict.imp fun ab => (L.order_iff direction _ _).mpr (Before.asymm L ab))
  intro a b ha hb ab ba
  have equal := L.key_of_before ((L.order_iff direction b a).mp ba) ((L.order_iff direction a b).mp ab)
  exact List.inj_on_of_nodup_map distinct (all.mem_iff.mp ha) hb equal

theorem sorted_perm (rows : List ρ) : (L.sorted rows).Perm rows := List.perm_insertionSort ..

theorem sorted_strict {rows : List ρ} (distinct : (rows.map L.key).Nodup) :
    (L.sorted rows).Pairwise (L.key · < L.key ·) := by
  have apart : ((L.sorted rows).map L.key).Nodup := ((L.sorted_perm rows).map L.key).nodup_iff.mpr distinct
  have ordered : (L.sorted rows).Pairwise fun a b => L.order .next a b = true := List.pairwise_insertionSort _ _
  exact ordered.imp₂ (fun a b le ne => lt_of_le_of_ne ((L.order_next a b).mp le) ne) (List.pairwise_map.mp apart)

/-! ## One page -/

/-- The cursor of the rows that came before. -/
def cursorOf (earlier : List ρ) : Option γ := earlier.getLast?.map L.toCursor

/-- What the page between the rows before and the rows from there on should be. -/
def between (limit : Nat) (earlier later : List ρ) : Page ρ γ where
  items := later.take limit
  nextCursor := if limit < later.length then (later.take limit).getLast?.map L.toCursor else none
  prevCursor := if earlier = [] then none else later.head?.map L.toCursor

variable {rows earlier later : List ρ} {limit : Nat}

theorem query_next (all : rows.Perm (earlier ++ later)) (strict : (earlier ++ later).Pairwise (L.key · < L.key ·))
    (count : Nat) : L.query rows .next (L.cursorOf earlier) count = later.take count := by
  obtain ⟨first, ordered, cross⟩ := List.pairwise_append.mp strict
  refine congrArg (List.take count) (L.sort_eq ?_ ordered)
  cases earlier using List.reverseRecOn with
  | nil => simpa [cursorOf] using all
  | append_singleton earlier c =>
      have cursor : L.cursorOf (earlier ++ [c]) = some (L.toCursor c) := by simp [cursorOf]
      have kept : (earlier ++ [c] ++ later).filter (fun r => L.comparison .next (L.toCursor c) r) = later := by
        rw [List.filter_append, List.filter_eq_nil_iff.mpr, List.filter_eq_self.mpr, List.nil_append]
        · intro r hr
          exact (L.after c r).mpr (cross c (by simp) r hr)
        · intro r hr shown
          have lt := (L.after c r).mp shown
          cases List.mem_append.mp hr with
          | inl old => exact lt_asymm lt ((List.pairwise_append.mp first).2.2 r old c (by simp))
          | inr same =>
              rw [List.mem_singleton.mp same] at lt
              exact lt_irrefl _ lt
      simp only [cursor, Option.all_some]
      exact (all.filter _).trans (.of_eq kept)

theorem query_prev {b : ρ} (all : rows.Perm (earlier ++ b :: later))
    (strict : (earlier ++ b :: later).Pairwise (L.key · < L.key ·)) (count : Nat) :
    L.query rows .prev (some (L.toCursor b)) count = earlier.reverse.take count := by
  obtain ⟨first, ordered, cross⟩ := List.pairwise_append.mp strict
  have backward : earlier.reverse.Pairwise (L.Before .prev) := List.pairwise_reverse.mpr first
  refine congrArg (List.take count) (L.sort_eq ?_ backward)
  have kept : (earlier ++ b :: later).filter (fun r => L.comparison .prev (L.toCursor b) r) = earlier := by
    rw [List.filter_append, List.filter_eq_self.mpr, List.filter_eq_nil_iff.mpr, List.append_nil]
    · intro r hr shown
      have lt := (L.before b r).mp shown
      cases List.mem_cons.mp hr with
      | inl same =>
          rw [same] at lt
          exact lt_irrefl _ lt
      | inr later => exact lt_asymm lt ((List.pairwise_cons.mp ordered).1 r later)
    · intro r hr
      exact (L.before b r).mpr (cross r hr b (by simp))
  simp only [Option.all_some]
  exact ((all.filter _).trans (.of_eq kept)).trans (List.reverse_perm earlier).symm

theorem extra_iff (xs : List ρ) (limit : Nat) : limit < (xs.take (limit + 1)).length ↔ limit < xs.length := by
  rw [List.length_take]
  omega

/-- A row more than the limit is asked for and dropped again. -/
theorem dropExtra (xs : List ρ) (limit : Nat) :
    (if limit < xs.length then (xs.take (limit + 1)).dropLast else xs.take (limit + 1)) = xs.take limit := by
  split
  · rw [List.dropLast_eq_take, List.length_take, List.take_take]
    congr 1
    omega
  · rw [List.take_of_length_le (by omega), List.take_of_length_le (by omega)]

theorem page_next (positive : 0 < limit) (all : rows.Perm (earlier ++ later))
    (strict : (earlier ++ later).Pairwise (L.key · < L.key ·)) :
    L.page rows limit .next (L.cursorOf earlier) = L.between limit earlier later := by
  have first : (later.take limit).head? = later.head? := by
    obtain ⟨n, rfl⟩ := Nat.exists_eq_succ_of_ne_zero (Nat.ne_of_gt positive)
    cases later <;> rfl
  simp only [page, pageOf, L.query_next all strict, extra_iff, dropExtra, between, first]
  cases earlier using List.reverseRecOn <;> simp [cursorOf]

/-- Turning back from the row after a full page gives that page. -/
theorem page_prev {b : ρ} {shown : List ρ} (full : shown.length = limit)
    (all : rows.Perm (earlier ++ shown ++ b :: later))
    (strict : (earlier ++ shown ++ b :: later).Pairwise (L.key · < L.key ·)) (positive : 0 < limit) :
    L.page rows limit .prev (some (L.toCursor b)) = L.between limit earlier (shown ++ b :: later) := by
  have kept : ((earlier ++ shown).reverse.take limit).reverse = shown := by
    rw [List.reverse_append, ← full, ← List.length_reverse, List.take_left, List.reverse_reverse]
  have more : limit < (earlier ++ shown).reverse.length ↔ earlier ≠ [] := by
    rw [List.length_reverse, List.length_append, full, ← List.length_pos_iff]
    omega
  have first : shown.head? = (shown ++ b :: later).head? := by
    cases shown with
    | nil => simp at full; omega
    | cons => rfl
  have fits : (shown ++ b :: later).take limit = shown := by rw [← full, List.take_left]
  have longer : limit < (shown ++ b :: later).length := by
    rw [List.length_append, full, List.length_cons]
    omega
  simp only [page, pageOf, L.query_prev all strict, extra_iff, dropExtra, kept]
  simp only [between, more, first, fits, longer]
  cases earlier <;> simp

/-! ## Pages at the cursor of a row -/

/-- No cursor, or one made from a row. -/
def RowCursor (rows : List ρ) (cursor : Option γ) : Prop := ∀ x ∈ cursor, ∃ r ∈ rows, L.toCursor r = x

theorem mem_page {direction : Direction} {cursor : Option γ} {r : ρ}
    (mem : r ∈ (L.page rows limit direction cursor).items) :
    r ∈ rows ∧ ∀ x ∈ cursor, L.comparison direction x r = true := by
  have found : r ∈ L.query rows direction cursor (limit + 1) := by
    have kept : ∀ xs : List ρ, r ∈ (if limit < xs.length then xs.dropLast else xs) → r ∈ xs := by
      intro xs mem
      split at mem
      · exact List.dropLast_subset xs mem
      · exact mem
    cases direction with
    | next => exact kept _ mem
    | prev => exact kept _ (List.mem_reverse.mp mem)
  have listed := (List.mem_insertionSort _).mp (List.mem_of_mem_take found)
  obtain ⟨inRows, compared⟩ := List.mem_filter.mp listed
  refine ⟨inRows, ?_⟩
  intro x some
  rw [Option.mem_def.mp some] at compared
  exact compared

/-- What lies before a row and what lies after it share no row. -/
theorem pages_apart {c r : ρ} (before : r ∈ (L.page rows limit .prev (some (L.toCursor c))).items)
    (after : r ∈ (L.page rows limit .next (some (L.toCursor c))).items) : False := by
  have below := (L.before c r).mp ((L.mem_page before).2 _ rfl)
  have above := (L.after c r).mp ((L.mem_page after).2 _ rfl)
  exact lt_asymm below above

theorem exists_earlier {cursor : Option γ} (made : L.RowCursor rows cursor) :
    ∃ earlier later, L.sorted rows = earlier ++ later ∧ L.cursorOf earlier = cursor := by
  cases cursor with
  | none => exact ⟨[], _, rfl, rfl⟩
  | some x =>
      obtain ⟨r, mem, same⟩ := made x rfl
      obtain ⟨earlier, later, split⟩ := List.append_of_mem ((L.sorted_perm rows).mem_iff.mpr mem)
      refine ⟨earlier ++ [r], later, by simp [split], ?_⟩
      simp [cursorOf, same]

/-- Onwards there is a row after the cursor. -/
theorem onward_next {cursor : Option γ} {x : γ} (positive : 0 < limit) (distinct : (rows.map L.key).Nodup)
    (made : L.RowCursor rows cursor) (onward : (L.page rows limit .next cursor).nextCursor = some x) :
    ∃ earlier b later, L.sorted rows = earlier ++ b :: later ∧ L.cursorOf earlier = some x := by
  have all := (L.sorted_perm rows).symm
  have strict := L.sorted_strict distinct
  obtain ⟨earlier, later, split, here⟩ := L.exists_earlier made
  rw [split] at all strict
  rw [← here, L.page_next positive all strict, between] at onward
  cases Nat.lt_or_ge limit later.length with
  | inr last =>
      rw [if_neg (by omega)] at onward
      cases onward
  | inl more =>
      rw [if_pos more] at onward
      obtain ⟨b, rest, dropped⟩ := List.exists_cons_of_length_pos (l := later.drop limit) (by simp; omega)
      refine ⟨earlier ++ later.take limit, b, rest, ?_, ?_⟩
      · rw [split, List.append_assoc, ← dropped, List.take_append_drop]
      · obtain ⟨last, shown, same⟩ := Option.map_eq_some_iff.mp onward
        simp [cursorOf, List.getLast?_append, shown, same]

/-- Turned back, it is the row the page was asked for at. -/
theorem onward_prev {cursor : Option γ} {x : γ} (positive : 0 < limit) (distinct : (rows.map L.key).Nodup)
    (made : L.RowCursor rows cursor) (onward : (L.page rows limit .prev cursor).nextCursor = some x) :
    ∃ earlier b later, L.sorted rows = earlier ++ b :: later ∧ L.cursorOf earlier = some x := by
  have all := (L.sorted_perm rows).symm
  have strict := L.sorted_strict distinct
  cases cursor with
  | none => simp [page, pageOf] at onward
  | some c =>
      obtain ⟨b, mem, same⟩ := made c rfl
      obtain ⟨earlier, later, split⟩ := List.append_of_mem ((L.sorted_perm rows).mem_iff.mpr mem)
      refine ⟨earlier, b, later, split, ?_⟩
      rw [split] at all strict
      simp only [page, pageOf, ← same, L.query_prev all strict, extra_iff, dropExtra, Option.isSome_some, if_true]
        at onward
      have cut : ((earlier.reverse.take limit).reverse).getLast? = earlier.getLast? := by
        obtain ⟨n, rfl⟩ := Nat.exists_eq_succ_of_ne_zero (Nat.ne_of_gt positive)
        rw [List.getLast?_reverse, ← List.head?_reverse]
        cases earlier.reverse <;> rfl
      rwa [cut] at onward

/-- The page a `nextCursor` leads to has a row, and a page before it. -/
theorem next_turns {direction : Direction} {cursor : Option γ} {x : γ} (positive : 0 < limit)
    (distinct : (rows.map L.key).Nodup) (made : L.RowCursor rows cursor)
    (onward : (L.page rows limit direction cursor).nextCursor = some x) :
    ((L.page rows limit .next (some x)).prevCursor).isSome = true := by
  have all := (L.sorted_perm rows).symm
  have strict := L.sorted_strict distinct
  obtain ⟨earlier, b, later, split, here⟩ : ∃ earlier b later,
      L.sorted rows = earlier ++ b :: later ∧ L.cursorOf earlier = some x := by
    cases direction with
    | next => exact L.onward_next positive distinct made onward
    | prev => exact L.onward_prev positive distinct made onward
  rw [split] at all strict
  rw [← here, L.page_next positive all strict, between]
  have notFirst : earlier ≠ [] := by
    rintro rfl
    cases here
  simp [notFirst]

/-! ## All pages -/

theorem pages_from (positive : 0 < limit) (later earlier : List ρ) (all : rows.Perm (earlier ++ later))
    (strict : (earlier ++ later).Pairwise (L.key · < L.key ·)) :
    ∃ pages, Follows (fun c => some (L.page rows limit .next c)) (L.cursorOf earlier)
        (L.between limit earlier later :: pages) ∧
      (L.between limit earlier later :: pages).flatMap (·.items) = later ∧
      (L.between limit earlier later :: pages).IsChain (Turns fun d c => some (L.page rows limit d c)) := by
  have fetched := L.page_next positive all strict
  cases Nat.lt_or_ge limit later.length with
  | inr last =>
      refine ⟨[], .last _ _ (congrArg some fetched) ?_, ?_, .singleton _⟩
      · rw [between, if_neg (by omega)]
      · simp [between, List.take_of_length_le last]
  | inl more =>
      have split : earlier ++ later = earlier ++ later.take limit ++ later.drop limit := by
        rw [List.append_assoc, List.take_append_drop]
      have full : (later.take limit).length = limit := by
        rw [List.length_take]
        omega
      obtain ⟨c, lastShown⟩ : ∃ c, (later.take limit).getLast? = some c := by
        cases shown : (later.take limit).getLast? with
        | none =>
            rw [List.getLast?_eq_none_iff.mp shown] at full
            simp at full
            omega
        | some c => exact ⟨c, rfl⟩
      obtain ⟨b, rest, dropped⟩ := List.exists_cons_of_length_pos (l := later.drop limit) (by simp; omega)
      have onward : (L.between limit earlier later).nextCursor = some (L.toCursor c) := by
        simp [between, more, lastShown]
      have cursor : L.cursorOf (earlier ++ later.take limit) = some (L.toCursor c) := by
        simp [cursorOf, List.getLast?_append, lastShown]
      have next := L.page_next positive (split ▸ all) (split ▸ strict)
      rw [cursor] at next
      obtain ⟨pages, follows, items, turns⟩ :=
        pages_from positive (later.drop limit) (earlier ++ later.take limit) (split ▸ all) (split ▸ strict)
      rw [cursor] at follows
      refine ⟨L.between limit (earlier ++ later.take limit) (later.drop limit) :: pages, ?_, ?_, ?_⟩
      · exact .more _ _ _ _ (congrArg some fetched) onward follows
      · rw [List.flatMap_cons, items]
        exact List.take_append_drop limit later
      · refine .cons_cons ⟨⟨L.toCursor b, ?_, congrArg some ?_⟩, _, onward, congrArg some next⟩ turns
        · simp [between, dropped, List.ne_nil_of_length_pos (full ▸ positive)]
        · rw [split, dropped] at all strict
          rw [L.page_prev full all strict positive, ← dropped, List.take_append_drop]
termination_by later.length

/-- Every page is shown, and once. -/
theorem enumerates (positive : 0 < limit) (distinct : (rows.map L.key).Nodup) :
    Enumerates (fun d c => some (L.page rows limit d c)) (L.sorted rows) := by
  obtain ⟨pages, follows, items, turns⟩ :=
    L.pages_from positive (L.sorted rows) [] (L.sorted_perm rows).symm (L.sorted_strict distinct)
  rw [← items]
  exact .of_pages follows turns

end Listing

end Keyset
