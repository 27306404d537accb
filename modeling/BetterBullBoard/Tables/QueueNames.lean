import BetterBullBoard.Core.Schemas
import BetterBullBoard.Job.Format
import BetterBullBoard.Lib.JsText
import BetterBullBoard.Lib.Slices
import BetterBullBoard.Lib.SortedRows
import BetterBullBoard.Queues.Schema

/-! # The queue selector

`api/queues/name/route.ts` and `queue-selector.tsx`. A cursor is the name of the
first queue of a page: the extra row of the page before it is not shown there. The
selector only follows `nextCursor`. `prevCursor` reaches back to the second page.
-/

namespace BetterBullBoard

open JsText (trim)

structure QueueName where
  id : Nat
  name : String
  deriving DecidableEq

structure QueueNamesInput where
  cursor : Option String := none
  search : Option String := none
  limit : Option Int := none

structure QueueNamesOutput extends Keyset.Page QueueName String where
  total : Nat

variable {κ : Type} [LinearOrder κ] (db : Database κ) (tables : QueuesDb)

/-- The condition on a queue's name. -/
def QueueNamesInput.searched (input : QueueNamesInput) (name : String) : Bool :=
  (truthyString input.search).all fun search => db.ilike name ("%" ++ search ++ "%")

/-- `getRows`, with the limit of the call. -/
def getQueueNameRows (input : QueueNamesInput) (limit : Nat) (direction : Keyset.Direction) : List QueueName :=
  let wher (q : QueueRow) : Bool :=
    ((truthyString input.cursor).all fun cursor =>
      match direction with
      | .prev => db.collate q.name < db.collate cursor
      | .next => db.collate cursor ≤ db.collate q.name) && input.searched db q.name
  let ordered (a b : QueueName) : Bool :=
    match direction with
    | .prev => db.collate b.name ≤ db.collate a.name
    | .next => db.collate a.name ≤ db.collate b.name
  (((tables.queues.filter wher).map fun q => { id := q.id, name := q.name : QueueName }).insertionSort
    fun a b => ordered a b).take (limit + 1)

def getQueuesName (input : QueueNamesInput) : Except CoreError QueueNamesOutput := do
  let input ← parse (fun input : QueueNamesInput => limitIssues input.limit) input
  let limit := (input.limit.getD 20).toNat
  let rows := getQueueNameRows db tables input limit .next
  let previousRows := if (truthyString input.cursor).isSome then getQueueNameRows db tables input limit .prev else []
  let total := tables.queues.countP fun q => input.searched db q.name
  let hasExtra : Bool := limit < rows.length
  return {
    items := if hasExtra then rows.dropLast else rows
    nextCursor := if hasExtra then rows.getLast?.map (·.name) else none
    prevCursor := if limit < previousRows.length then (previousRows[previousRows.length - 2]?).map (·.name) else none
    total }

/-! ## The pages -/

/-- The queues the search finds. -/
def foundNames (input : QueueNamesInput) : List QueueName :=
  (tables.queues.filter fun q => input.searched db q.name).map fun q => { id := q.id, name := q.name }

/-- One call for the page at a cursor. -/
def queueNamesAt (input : QueueNamesInput) (cursor : Option String) : Option (Keyset.Page QueueName String) :=
  (getQueuesName db tables { input with cursor }).toOption.map (·.toPage)

/-- Page `k` of rows in order. -/
def namesPage (rows : List QueueName) (limit k : Nat) : Keyset.Page QueueName String where
  items := (rows.drop (k * limit)).take limit
  nextCursor := (rows[(k + 1) * limit]?).map (·.name)
  prevCursor := if 2 ≤ k then (rows[(k - 1) * limit]?).map (·.name) else none

/-- How many pages the rows take; without rows there is one, empty page. -/
def pageCount (n limit : Nat) : Nat := max 1 ((n + (limit - 1)) / limit)

/-- The order of the names. -/
def namesListing : Keyset.Listing QueueName String κ where
  key q := db.collate q.name
  toCursor q := q.name
  order direction a b :=
    match direction with
    | .prev => db.collate b.name ≤ db.collate a.name
    | .next => db.collate a.name ≤ db.collate b.name
  comparison direction cursor q :=
    match direction with
    | .prev => db.collate q.name < db.collate cursor
    | .next => db.collate cursor < db.collate q.name
  order_next _ _ := decide_eq_true_iff
  order_prev _ _ := decide_eq_true_iff
  after _ _ := decide_eq_true_iff
  before _ _ := decide_eq_true_iff

variable {db tables} {input : QueueNamesInput} {rows : List QueueName} {limit k : Nat}

omit [LinearOrder κ] in
theorem foundNames_nodup : ((foundNames db tables input).map (db.collate ·.name)).Nodup := by
  have names : ((tables.queues.filter fun q => input.searched db q.name).map (·.name)).Nodup :=
    tables.names.sublist (List.filter_sublist.map _)
  have collated := names.map db.collate.injective
  rw [List.map_map] at collated
  rw [foundNames, List.map_map]
  exact collated

/-- The rows of one query are the rows the search finds, cut by the cursor. -/
theorem getQueueNameRows_eq (perm : rows.Perm (foundNames db tables input))
    (strict : rows.Pairwise fun a b => db.collate a.name < db.collate b.name) (cursor : Option String) (limit : Nat) :
    getQueueNameRows db tables { input with cursor } limit .next =
        (rows.filter fun q => (truthyString cursor).all fun c => db.collate c ≤ db.collate q.name).take (limit + 1) ∧
      getQueueNameRows db tables { input with cursor } limit .prev =
        (rows.filter fun q => (truthyString cursor).all fun c => db.collate q.name < db.collate c).reverse.take
          (limit + 1) := by
  have kept : ∀ p : String → Bool,
      ((tables.queues.filter fun q => p q.name && input.searched db q.name).map fun q =>
        { id := q.id, name := q.name : QueueName }).Perm (rows.filter fun q => p q.name) := by
    intro p
    refine .trans (.of_eq ?_) (perm.symm.filter _)
    rw [foundNames, List.filter_map, List.filter_filter]
    rfl
  constructor
  · have found := kept fun name => (truthyString cursor).all fun c => db.collate c ≤ db.collate name
    have ordered : (rows.filter fun q => (truthyString cursor).all fun c => db.collate c ≤ db.collate q.name).Pairwise
        ((namesListing db).Before .next) := strict.filter _
    exact congrArg (List.take (limit + 1)) ((namesListing db).sort_eq found ordered)
  · have found := kept fun name => (truthyString cursor).all fun c => db.collate name < db.collate c
    have ordered :
        (rows.filter fun q => (truthyString cursor).all fun c => db.collate q.name < db.collate c).reverse.Pairwise
        ((namesListing db).Before .prev) := List.pairwise_reverse.mpr (strict.filter _)
    exact congrArg (List.take (limit + 1)) ((namesListing db).sort_eq (found.trans (List.reverse_perm _).symm) ordered)

/-- The row that does not fit is the first of the page after it. -/
theorem getLast?_extra (xs : List QueueName) (limit : Nat) :
    (if limit < xs.length then (xs.take (limit + 1)).getLast? else none) = xs[limit]? := by
  split
  · rename_i more
    rw [List.getLast?_eq_getElem?, List.length_take, List.getElem?_take]
    simp [Nat.min_eq_left more]
  · rename_i whole
    exact (List.getElem?_eq_none_iff.mpr (Nat.not_lt.mp whole)).symm

/-- What the route answers, read off the rows in order. -/
theorem queueNamesAt_eq (perm : rows.Perm (foundNames db tables input))
    (strict : rows.Pairwise fun a b => db.collate a.name < db.collate b.name) (accepted : limitIssues input.limit = [])
    (limited : (input.limit.getD 20).toNat = limit) (cursor : Option String) {rest before : List QueueName}
    (onwards : (rows.filter fun q => (truthyString cursor).all fun c => db.collate c ≤ db.collate q.name) = rest)
    (below : (rows.filter fun q => (truthyString cursor).all fun c => db.collate q.name < db.collate c) = before) :
    queueNamesAt db tables input cursor = some {
      items := rest.take limit
      nextCursor := rest[limit]?.map (·.name)
      prevCursor :=
        if (truthyString cursor).isSome ∧ limit < before.length then before.reverse[limit - 1]?.map (·.name)
        else none } := by
  obtain ⟨next, prev⟩ := getQueueNameRows_eq perm strict cursor limit
  have parsed : parse (fun input : QueueNamesInput => limitIssues input.limit) { input with cursor } =
      .ok { input with cursor } := parse_ok accepted
  have hasExtra : ∀ xs : List QueueName, (limit < (xs.take (limit + 1)).length) = (limit < xs.length) := fun xs =>
    propext (Keyset.Listing.extra_iff xs limit)
  simp only [queueNamesAt, getQueuesName, parsed, bind, Except.bind, limited, next, prev, onwards, below, pure,
    Except.pure,
    Except.toOption, Option.map_some, hasExtra, decide_eq_true_eq, Keyset.Listing.dropExtra]
  congr 2
  · rw [← getLast?_extra]
    split <;> rfl
  · cases given : (truthyString cursor).isSome with
    | false => simp
    | true =>
        have last : (before.reverse.take (limit + 1)).length - 2 = limit - 1 ∨ before.length ≤ limit := by
          rw [List.length_take, List.length_reverse]
          omega
        simp only [if_true, true_and, hasExtra, List.length_reverse]
        split
        · rename_i longer
          rw [last.resolve_right (Nat.not_le.mpr longer), List.getElem?_take, if_pos (by omega)]
        · rfl

/-- The cursor of page `k`. -/
def namesCursor (rows : List QueueName) (limit k : Nat) : Option String :=
  if k = 0 then none else (rows[k * limit]?).map (·.name)

/-- Only the first row can have the empty name, so the cursor of a later page is not empty. -/
theorem truthyString_namesCursor (strict : rows.Pairwise fun a b => db.collate a.name < db.collate b.name)
    (emptyFirst : ∀ name, db.collate "" ≤ db.collate name) {b : QueueName} {i : Nat} (here : rows[i]? = some b)
    (later : 0 < i) : truthyString (some b.name) = some b.name := by
  refine truthyString_eq_some.mpr ⟨rfl, ?_⟩
  intro empty
  obtain ⟨inside, rfl⟩ := List.getElem?_eq_some_iff.mp here
  have after := List.pairwise_iff_getElem.mp strict 0 i (by omega) inside later
  rw [empty] at after
  exact absurd (emptyFirst _) (not_le.mpr after)

/-- The cursor of page `k` leads to page `k`. -/
theorem queueNamesAt_page (perm : rows.Perm (foundNames db tables input))
    (strict : rows.Pairwise fun a b => db.collate a.name < db.collate b.name)
    (emptyFirst : ∀ name, db.collate "" ≤ db.collate name) (accepted : limitIssues input.limit = [])
    (limited : (input.limit.getD 20).toNat = limit) (row : k = 0 ∨ k * limit < rows.length) :
    queueNamesAt db tables input (namesCursor rows limit k) = some (namesPage rows limit k) := by
  cases k with
  | zero =>
      have all : ∀ p : String → QueueName → Bool, (rows.filter fun q => (truthyString none).all (p · q)) = rows :=
        fun p => List.filter_eq_self.mpr fun q _ => rfl
      have first := queueNamesAt_eq perm strict accepted limited none (all fun c q => db.collate c ≤ db.collate q.name)
        (all fun c q => db.collate q.name < db.collate c)
      simpa [namesPage, namesCursor, truthyString] using first
  | succ j =>
      have inside := row.resolve_left (Nat.succ_ne_zero j)
      have positive : 0 < limit := limited ▸ limit_pos accepted
      have here : rows[(j + 1) * limit]? = some rows[(j + 1) * limit] := List.getElem?_eq_getElem inside
      have given := truthyString_namesCursor strict emptyFirst here (Nat.mul_pos (Nat.succ_pos j) positive)
      have cursor : namesCursor rows limit (j + 1) = some rows[(j + 1) * limit].name := by simp [namesCursor, here]
      have fromHere : (rows.filter fun q => (truthyString (some rows[(j + 1) * limit].name)).all fun c =>
          db.collate c ≤ db.collate q.name) = rows.drop ((j + 1) * limit) := by
        rw [given]
        exact SortedRows.filter_from strict here
      have before : (rows.filter fun q => (truthyString (some rows[(j + 1) * limit].name)).all fun c =>
          db.collate q.name < db.collate c) = rows.take ((j + 1) * limit) := by
        rw [given]
        exact SortedRows.filter_before strict here
      rw [cursor, queueNamesAt_eq perm strict accepted limited _ fromHere before]
      congr 2
      · rw [List.getElem?_drop, ← Nat.add_one_mul]
      · have length : (rows.take ((j + 1) * limit)).length = (j + 1) * limit := by
          rw [List.length_take]
          omega
        rw [given, length]
        cases j with
        | zero => simp
        | succ i =>
            have longer : limit < (i + 1 + 1) * limit := by
              rw [Nat.add_one_mul, Nat.add_one_mul]
              omega
            rw [if_pos ⟨rfl, longer⟩, if_pos (by omega), List.getElem?_reverse (by omega), List.getElem?_take, length]
            rw [if_pos (by omega)]
            congr 2
            rw [Nat.add_one_sub_one, Nat.add_one_mul (i + 1)]
            omega

theorem lt_pageCount (positive : 0 < limit) {n : Nat} : k < pageCount n limit ↔ k = 0 ∨ k * limit < n := by
  rw [pageCount, lt_max_iff, Nat.lt_one_iff, Nat.lt_div_iff_mul_lt positive]
  omega

/-- From the cursor of page `k`, the pages from it on. -/
theorem follows_from (perm : rows.Perm (foundNames db tables input))
    (strict : rows.Pairwise fun a b => db.collate a.name < db.collate b.name)
    (emptyFirst : ∀ name, db.collate "" ≤ db.collate name) (accepted : limitIssues input.limit = [])
    (limited : (input.limit.getD 20).toNat = limit) (n k : Nat) (rest : k + n + 1 = pageCount rows.length limit) :
    Keyset.Follows (queueNamesAt db tables input) (namesCursor rows limit k)
      ((List.range' k (n + 1)).map (namesPage rows limit)) := by
  have positive : 0 < limit := limited ▸ limit_pos accepted
  have row := (lt_pageCount (k := k) (n := rows.length) positive).mp (by omega)
  have fetched := queueNamesAt_page perm strict emptyFirst accepted limited row
  induction n generalizing k with
  | zero =>
      refine .last _ _ fetched ?_
      have last := mt (lt_pageCount positive).mpr (show ¬ k + 1 < pageCount rows.length limit by omega)
      rw [not_or, Nat.not_lt] at last
      simp [namesPage, last.2]
  | succ n ih =>
      have more := ((lt_pageCount (k := k + 1) (n := rows.length) positive).mp (by omega)).resolve_left (by omega)
      have onward : (namesPage rows limit k).nextCursor = some rows[(k + 1) * limit].name := by simp [namesPage, more]
      have cursor : namesCursor rows limit (k + 1) = some rows[(k + 1) * limit].name := by simp [namesCursor, more]
      have fetchedNext := queueNamesAt_page perm strict emptyFirst accepted limited (k := k + 1) (.inr more)
      refine .more _ _ _ _ fetched onward ?_
      rw [← cursor]
      exact ih (k + 1) (by omega) (.inr more) fetchedNext

/-- The pages put together are the rows. -/
theorem pages_items (positive : 0 < limit) (rows : List QueueName) :
    (((List.range (pageCount rows.length limit)).map (namesPage rows limit)).map (·.items)).flatten = rows := by
  have items : (fun k => (namesPage rows limit k).items) = fun k => (rows.drop (limit * k)).take limit := by
    funext k
    rw [namesPage, Nat.mul_comm]
  rw [List.map_map]
  refine .trans ?_ (Slices.flatten_slices positive rows)
  rw [Slices.slices, ← items, pageCount]
  cases rows with
  | nil => simp [namesPage, Nat.div_eq_of_lt (Nat.sub_lt positive Nat.one_pos)]
  | cons a rows =>
      have one : 1 ≤ ((a :: rows).length + (limit - 1)) / limit := by
        rw [Nat.one_le_div_iff positive, List.length_cons]
        omega
      rw [Nat.max_eq_right one]
      rfl

/-! ## The options -/

structure ComboboxOption where
  value : String
  label : String
  deriving DecidableEq

/-- What a `QueueSelector` is given, and what stands in its search box. -/
structure QueueSelector where
  search : String
  includeAllOption : Bool := false
  allOptionLabel : String := "All Queues"
  allowCustomValue : Bool := false

namespace QueueSelector

def getCustomQueueOptionLabel (queueName : String) : String := "Use custom queue \"" ++ queueName ++ "\""

variable (toLowerCase : String → String) (s : QueueSelector)

/-- `normalizedSearch && !queue.name.toLowerCase().includes(normalizedSearch)` -/
def hides (queue : QueueName) : Bool :=
  toLowerCase (trim s.search) != "" && !JsText.includes (toLowerCase (trim s.search)) (toLowerCase queue.name)

def queueOptions (pages : List (List QueueName)) : List ComboboxOption :=
  let options := if s.includeAllOption then [{ value := "all", label := s.allOptionLabel : ComboboxOption }] else []
  let options := pages.foldl (fun options queues =>
    queues.foldl (fun options queue =>
      if s.hides toLowerCase queue then options else options ++ [{ value := queue.name, label := queue.name }])
      options) options
  let customQueueName := trim s.search
  let hasCustomQueueName := options.any (·.value = customQueueName)
  if s.allowCustomValue && customQueueName != "" && !hasCustomQueueName then
    options ++ [{ value := customQueueName, label := getCustomQueueOptionLabel customQueueName }]
  else options

/-- The names listed before the custom one. -/
def listed (queues : List QueueName) : List String :=
  (if s.includeAllOption then ["all"] else []) ++ (queues.filter fun q => !s.hides toLowerCase q).map (·.name)

variable {toLowerCase s}

theorem options_eq (options : List ComboboxOption) (pages : List (List QueueName)) :
    pages.foldl (fun options queues => queues.foldl (fun options queue =>
      if s.hides toLowerCase queue then options else options ++ [{ value := queue.name, label := queue.name }])
      options) options =
      options ++ (pages.flatten.filter fun q => !s.hides toLowerCase q).map fun q => ⟨q.name, q.name⟩ := by
  rw [← List.foldl_flatten]
  induction pages.flatten generalizing options with
  | nil => simp
  | cons queue queues ih =>
      rw [List.foldl_cons, ih]
      cases hidden : s.hides toLowerCase queue <;> simp [hidden]

theorem values_eq (pages : List (List QueueName)) :
    (s.queueOptions toLowerCase pages).map (·.value) =
      s.listed toLowerCase pages.flatten ++
        if s.allowCustomValue ∧ trim s.search ≠ "" ∧ trim s.search ∉ s.listed toLowerCase pages.flatten then
          [trim s.search] else [] := by
  have values : ∀ options : List ComboboxOption, options.any (·.value = trim s.search) =
      decide (trim s.search ∈ options.map (·.value)) := by
    intro options
    rw [Bool.eq_iff_iff, List.any_eq_true, decide_eq_true_iff, List.mem_map]
    simp
  have listed :
      ((if s.includeAllOption then [{ value := "all", label := s.allOptionLabel : ComboboxOption }] else []) ++
      (pages.flatten.filter fun q => !s.hides toLowerCase q).map fun q => ComboboxOption.mk q.name q.name).map
        ComboboxOption.value = s.listed toLowerCase pages.flatten := by
    rw [QueueSelector.listed, List.map_append, List.map_map]
    cases s.includeAllOption <;> rfl
  rw [queueOptions]
  simp only [options_eq, values, listed]
  simp only [Bool.and_eq_true, bne_iff_ne, Bool.not_eq_true', decide_eq_false_iff_not, and_assoc]
  split
  · rw [List.map_append, listed]
    rfl
  · rw [listed, List.append_nil]

/-- A name is listed twice only where a queue has the value of the first option. -/
theorem listed_nodup {rows : List QueueName} (distinct : (rows.map (·.name)).Nodup) :
    (s.listed toLowerCase rows).Nodup ↔
      ¬ (s.includeAllOption ∧ ∃ q ∈ rows, q.name = "all" ∧ s.hides toLowerCase q = false) := by
  have names := distinct.sublist ((List.filter_sublist (p := fun q => !s.hides toLowerCase q) (l := rows)).map _)
  rw [listed, List.nodup_append', and_iff_right, and_iff_right names]
  · cases s.includeAllOption with
    | false => simp
    | true =>
        simp only [if_true, List.singleton_disjoint, List.mem_map, List.mem_filter, true_and, not_exists, not_and]
        refine forall_congr' fun q => ?_
        cases s.hides toLowerCase q <;> simp
  · cases s.includeAllOption <;> simp

variable (db tables toLowerCase) in
/-- Scrolled to the end, the selector has met the queues that the search finds in the
    order of their names. It offers each that the text in its box does not hide once,
    and the text itself unless that is offered already. -/
def Offers (input : QueueNamesInput) (limit : Nat) (s : QueueSelector) : Prop :=
  ∃ rows pages, rows.Perm (foundNames db tables input) ∧
    rows.Pairwise (fun a b => db.collate a.name < db.collate b.name) ∧
    pages = (List.range (pageCount rows.length limit)).map (namesPage rows limit) ∧
    Keyset.Follows (queueNamesAt db tables input) none pages ∧
    (s.queueOptions toLowerCase (pages.map (·.items))).map (·.value) = s.listed toLowerCase rows ++
      (if s.allowCustomValue ∧ trim s.search ≠ "" ∧ trim s.search ∉ s.listed toLowerCase rows then [trim s.search]
      else []) ∧
    (((s.queueOptions toLowerCase (pages.map (·.items))).map (·.value)).Nodup ↔
      ¬ (s.includeAllOption ∧ ∃ q ∈ rows, q.name = "all" ∧ s.hides toLowerCase q = false))

theorem offers_found (emptyFirst : ∀ name, db.collate "" ≤ db.collate name) (accepted : limitIssues input.limit = [])
    (limited : (input.limit.getD 20).toNat = limit) (s : QueueSelector) :
    Offers db tables toLowerCase input limit s := by
  have distinct : ((foundNames db tables input).map (namesListing db).key).Nodup := foundNames_nodup
  have perm := (namesListing db).sorted_perm (foundNames db tables input)
  have strict : ((namesListing db).sorted (foundNames db tables input)).Pairwise fun a b =>
      db.collate a.name < db.collate b.name := (namesListing db).sorted_strict distinct
  have positive : 0 < limit := limited ▸ limit_pos accepted
  generalize (namesListing db).sorted (foundNames db tables input) = rows at perm strict
  have values : (s.queueOptions toLowerCase _).map (·.value) = _ := values_eq
    (((List.range (pageCount rows.length limit)).map (namesPage rows limit)).map (·.items))
  rw [pages_items positive] at values
  refine ⟨rows, _, perm, strict, rfl, ?_, values, ?_⟩
  · obtain ⟨n, counted⟩ := Nat.exists_eq_succ_of_ne_zero (n := pageCount rows.length limit) (by simp [pageCount])
    rw [List.range_eq_range', counted]
    exact follows_from perm strict emptyFirst accepted limited n 0 (by omega)
  · have names : (rows.map (·.name)).Nodup :=
      List.pairwise_map.mpr (strict.imp fun before same => absurd (congrArg db.collate same) (ne_of_lt before))
    rw [values, ← listed_nodup names, List.nodup_append', and_iff_left_iff_imp]
    intro _
    split
    · rename_i custom
      exact ⟨List.nodup_singleton _, by simpa using custom.2.2⟩
    · simp

/-- Four queues, one of them named as the value of the first option. -/
def fourNames : QueuesDb where
  queues := ["mails", "all", "reports", "imports"].zipIdx.map fun q =>
    { name := q.1, id := q.2, defaultJobOptions := .null, isPaused := false }
  jobSchedulers := []
  nextId := 4
  ids := by decide
  below := by decide
  names := by decide
  keys := List.nodup_nil
  texts := texts_nil
  references := by simp

theorem four_offered : Offers plainDatabase fourNames id { limit := some 2 } 2
    { search := " port ", includeAllOption := true, allowCustomValue := true } :=
  offers_found (fun name => not_lt.mp (mt String.lt_iff_toList_lt.mp (List.not_lt_nil _)))
    (by decide) rfl _

end QueueSelector

end BetterBullBoard
