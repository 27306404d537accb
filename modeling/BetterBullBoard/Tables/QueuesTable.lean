import BetterBullBoard.Core.Queues
import BetterBullBoard.Lib.KeysetView

/-! # Turning the pages of the queues table

`queues-table.tsx` and the listing of `api/queues/table/route.ts`. The position is
a cursor and a direction in the URL and nothing else, so a reload keeps it. A
button is disabled while its page is fetched. Each request reads the clock twice,
for the range of the pressures; the charts of a row are left out here.
-/

namespace BetterBullBoard

/-- The URL; a text that names no option counts as the default. -/
structure QueuesView where
  search : String := ""
  timePeriod : String := "1"
  cursor : Option QueueCursor := none
  cursorDirection : String := "next"
  sortBy : String := "waitingJobs"
  sortDirection : String := "desc"

/-- The two readings of a request: `Date.now()` for `dateFrom`, then `new Date()`. -/
structure RequestClock where
  dateNow : Int
  newDate : Int
  deriving DecidableEq

/-- Both readings are in the hour that starts at `h`. -/
def RequestClock.InHour (clock : RequestClock) (h : Int) : Prop :=
  hourStart clock.dateNow = h ∧ hourStart clock.newDate = h

inductive QueuesPress where
  | next
  | prev
  | search (search : String)
  | timePeriod (timePeriod : String)
  | sort (sortBy : QueueSortBy)
  deriving DecidableEq

/-- A press on a page that was fetched at these readings. -/
structure QueuesAction where
  press : QueuesPress
  clock : RequestClock
  deriving DecidableEq

/-- `Number(timePeriod)` of a period that the route accepts. -/
def timePeriodDays : String → Option Int
  | "1" => some 1
  | "3" => some 3
  | "7" => some 7
  | "30" => some 30
  | _ => none

def QueueSortBy.text : QueueSortBy → String
  | .waitingJobs => "waitingJobs"
  | .activeJobs => "activeJobs"
  | .pressure => "pressure"

variable {J κ : Type} [LinearOrder κ] (db : Database κ) (t : QueueTables J)

namespace QueuesView

def direction (v : QueuesView) : Keyset.Direction := if v.cursorDirection = "prev" then .prev else .next

def sorting (v : QueuesView) : QueueSortBy :=
  if v.sortBy = "activeJobs" then .activeJobs else if v.sortBy = "pressure" then .pressure else .waitingJobs

def ordering (v : QueuesView) : SortDirection := if v.sortDirection = "asc" then .asc else .desc

def pressureDateFrom (v : QueuesView) (clock : RequestClock) : Int :=
  hourStart (clock.dateNow - (timePeriodDays v.timePeriod).getD 1 * (24 * hour))

def pressureDateTo (clock : RequestClock) : Int := hourStart clock.newDate

/-- What the route asks `listQueues` for, but for the cursor. -/
def query (v : QueuesView) (clock : RequestClock) : ListQueuesInput where
  search := some v.search
  sortBy := some v.sorting
  sortDirection := some v.ordering
  pressureDateFrom := some (v.pressureDateFrom clock)
  pressureDateTo := some (pressureDateTo clock)
  limit := some 20

/-- A row of the answer. Its pressure comes from a query of the route's own. -/
def row (v : QueuesView) (clock : RequestClock) (q : ListedQueue) : ListedQueue :=
  { q with
    patterns := q.patterns.filter (· != "")
    everys := q.everys.filter (· != 0)
    pressure := JsNumber.number
      (((t.buildPressureStats (some (v.pressureDateFrom clock)) (some (pressureDateTo clock)) q.name).map
        (·.val)).getD 0) }

/-- The answer of the route, unless its schema refuses. -/
def data (v : QueuesView) (clock : RequestClock) : Option (Keyset.Page ListedQueue QueueCursor) :=
  if (timePeriodDays v.timePeriod).isNone || v.sorting = .pressure && v.cursor.any (·.pressure.isNone) then none
  else (listQueuesAt db t (v.query clock) v.direction v.cursor).map (Keyset.Page.map (v.row t clock))

def handleNextPage (v : QueuesView) (clock : RequestClock) : QueuesView :=
  match (v.data db t clock).bind (·.nextCursor) with
  | some nextCursor => { v with cursor := some nextCursor, cursorDirection := "next" }
  | none => v

def handlePrevPage (v : QueuesView) (clock : RequestClock) : QueuesView :=
  match (v.data db t clock).bind (·.prevCursor) with
  | some prevCursor => { v with cursor := some prevCursor, cursorDirection := "prev" }
  | none => { v with cursor := none, cursorDirection := "next" }

def handleSort (v : QueuesView) (nextSortBy : QueueSortBy) : QueuesView :=
  { v with
    cursor := none
    cursorDirection := "next"
    sortBy := nextSortBy.text
    sortDirection := if v.sorting = nextSortBy ∧ v.ordering = .desc then "asc" else "desc" }

def nextDisabled (v : QueuesView) (clock : RequestClock) : Bool := ((v.data db t clock).bind (·.nextCursor)).isNone

def prevDisabled (v : QueuesView) (clock : RequestClock) : Bool := ((v.data db t clock).bind (·.prevCursor)).isNone

def step (v : QueuesView) (a : QueuesAction) : Option QueuesView :=
  match a.press with
  | .next => if v.nextDisabled db t a.clock then none else some (v.handleNextPage db t a.clock)
  | .prev => if v.prevDisabled db t a.clock then none else some (v.handlePrevPage db t a.clock)
  | .search search => some { v with cursor := none, cursorDirection := "next", search }
  | .timePeriod timePeriod => some { v with cursor := none, cursorDirection := "next", timePeriod }
  | .sort nextSortBy => some (v.handleSort nextSortBy)

/-- The number of the page after these presses: Next adds one, Previous takes one
    off, anything else starts over. -/
def position (presses : List QueuesPress) : Nat :=
  presses.foldl (fun k press =>
    match press with
    | .next => k + 1
    | .prev => k - 1
    | _ => 0) 0

/-- A URL without a cursor, as a link to the page has. -/
structure Fresh (v : QueuesView) : Prop where
  cursor : v.cursor = none
  direction : v.cursorDirection ≠ "prev"

/-- While the table is sorted by pressure, requests are made within one hour. -/
def Steady (h : Int) (v : QueuesView) (clock : RequestClock) : Prop := v.sorting = .pressure → clock.InHour h

/-- The queues the search finds, with what they are sorted by. -/
def rows (v : QueuesView) (clock : RequestClock) : List QueueSelect := matchingQueues db t (v.query clock)

/-- A listing that is what the code asks for, and whose key tells the name. -/
structure Orders {κ' : Type} [LinearOrder κ'] (L : Keyset.Listing QueueSelect QueueCursor κ') (sortBy : QueueSortBy)
    (sortDirection : SortDirection) : Prop where
  order : ∀ d, L.order d = Keyset.orderBy (getQueueSortOrder db d sortBy sortDirection)
  comparison : ∀ d c, L.comparison d c =
    compareCursor db d sortBy sortDirection c.name (cursorValue sortBy c)
  cursors : L.toCursor = QueueSelect.toCursor
  named : ∀ a b, L.key a = L.key b → a.name = b.name
  before : ∀ a b, L.key a < L.key b → QueueBefore db sortBy sortDirection a b

theorem exists_orders (sortBy : QueueSortBy) (sortDirection : SortDirection) :
    ∃ (κ' : Type) (_ : LinearOrder κ') (L : Keyset.Listing QueueSelect QueueCursor κ'),
      Orders db L sortBy sortDirection := by
  cases sortDirection with
  | asc => exact ⟨_, _, queuesAscending db sortBy, fun _ => rfl, fun _ _ => rfl, rfl,
      fun a b same => db.collate.injective (congrArg (fun k => (ofLex k).2) same),
      fun a b before => Prod.Lex.toLex_lt_toLex.mp before⟩
  | desc => exact ⟨_, _, queuesDescending db sortBy, fun _ => rfl, fun _ _ => rfl, rfl,
      fun a b same => db.collate.injective (congrArg (fun k => (ofLex k).2) same),
      fun a b before => Prod.Lex.toLex_lt_toLex.mp before⟩

/-- The listing `L` is at page `k`. -/
structure At (h : Int) (k : Nat) (v : QueuesView) {κ' : Type} [LinearOrder κ']
    (L : Keyset.Listing QueueSelect QueueCursor κ') : Prop where
  orders : Orders db L v.sorting v.ordering
  made : ∀ c ∈ v.cursor, c.pressure.isSome
  page : L.AtPage (v.rows db t ⟨h, h⟩) 20 k ⟨v.direction, v.cursor⟩

/-- The view is at page `k`. -/
def Shows (h : Int) (k : Nat) (v : QueuesView) : Prop :=
  ∃ (κ' : Type) (_ : LinearOrder κ') (L : Keyset.Listing QueueSelect QueueCursor κ'), At db t h k v L

/-- What is on the screen is page `k`: its rows, and which buttons are enabled. -/
def OnScreen (k : Nat) (v : QueuesView) (clock : RequestClock) : Prop :=
  ∃ rows : List QueueSelect, rows.Perm (v.rows db t clock) ∧ rows.Pairwise (QueueBefore db v.sorting v.ordering) ∧
    (∃ page, v.data db t clock = some page ∧
      page.items = ((rows.drop (k * 20)).take 20).map (v.row t clock ∘ QueueSelect.listed)) ∧
    (v.nextDisabled db t clock = false ↔ (k + 1) * 20 < rows.length) ∧
    (v.prevDisabled db t clock = false ↔ 0 < k)

variable {db t} {h : Int} {k : Nat} {v v' : QueuesView} {clock : RequestClock}

theorem hourStart_days (now days : Int) :
    hourStart (now - days * (24 * hour)) = hourStart now - days * (24 * hour) := by
  unfold hourStart hour
  omega

omit [LinearOrder κ] in
/-- Only the hour of a request matters, and only to a table sorted by pressure. -/
theorem rows_steady (steady : Steady h v clock) : v.rows db t clock = v.rows db t ⟨h, h⟩ := by
  rw [rows, rows, matchingQueues, matchingQueues]
  have pressures : selectedPressure t (v.query clock) = selectedPressure t (v.query ⟨h, h⟩) := by
    rw [selectedPressure, selectedPressure]
    cases Decidable.em (v.sorting = .pressure) with
    | inl sorted =>
        obtain ⟨now, new⟩ := steady sorted
        have aligned : hourStart h = h := now ▸ hourStart_aligned clock.dateNow
        simp only [query, pressureDateFrom, pressureDateTo, hourStart_days, now, new, aligned]
    | inr other => simp [query, other]
  rw [pressures]
  rfl

theorem dated (steady : Steady h v clock) : (v.query clock).Dated := by
  intro sorted
  obtain ⟨now, new⟩ := steady (Option.some.inj sorted)
  refine ⟨_, _, rfl, rfl, ?_⟩
  rw [pressureDateFrom, pressureDateTo, hourStart_days, now, new]
  have positive : 1 ≤ (timePeriodDays v.timePeriod).getD 1 := by
    unfold timePeriodDays
    split <;> decide
  unfold hour
  omega

/-- What the route answers is the page of the listing. -/
theorem At.data_eq {κ' : Type} [LinearOrder κ'] {L : Keyset.Listing QueueSelect QueueCursor κ'} (here : At db t h k v L)
    (steady : Steady h v clock) (accepted : (timePeriodDays v.timePeriod).isSome) :
    v.data db t clock = some (((L.page (v.rows db t ⟨h, h⟩) 20 v.direction v.cursor).map QueueSelect.listed).map
      (v.row t clock)) := by
  have refused : ((timePeriodDays v.timePeriod).isNone || v.sorting = .pressure && v.cursor.any (·.pressure.isNone)) =
      false := by
    have cursor : v.cursor.any (·.pressure.isNone) = false := by
      cases given : v.cursor with
      | none => rfl
      | some c => simpa using here.made c given
    obtain ⟨days, given⟩ := Option.isSome_iff_exists.mp accepted
    simp [cursor, given]
  have limited : limitIssues (v.query clock).limit = [] := limitIssues_eq_nil.mpr (by simp [query])
  have order : ∀ d, L.order d = Keyset.orderBy (getQueueSortOrder db d ((v.query clock).sortBy.getD .waitingJobs)
      ((v.query clock).sortDirection.getD .desc)) := here.orders.order
  have fetched := listQueues_page db t L order here.orders.comparison here.orders.cursors limited (dated steady)
    v.direction v.cursor here.made
  rw [data, refused, fetched, ← rows_steady steady]
  rfl

theorem data_accepted {page : Keyset.Page ListedQueue QueueCursor} (fetched : v.data db t clock = some page) :
    (timePeriodDays v.timePeriod).isSome := by
  rw [data] at fetched
  split at fetched
  · cases fetched
  · rename_i accepted
    simp only [Bool.or_eq_true, not_or, Option.isNone_iff_eq_none] at accepted
    exact Option.isSome_iff_ne_none.mpr accepted.1

theorem At.next_eq {κ' : Type} [LinearOrder κ'] {L : Keyset.Listing QueueSelect QueueCursor κ'} (here : At db t h k v L)
    (steady : Steady h v clock) {c : QueueCursor} (onward : (v.data db t clock).bind (·.nextCursor) = some c) :
    (L.page (v.rows db t ⟨h, h⟩) 20 v.direction v.cursor).nextCursor = some c := by
  obtain ⟨page, fetched, cursor⟩ := Option.bind_eq_some_iff.mp onward
  obtain rfl := Option.some.inj (fetched.symm.trans (here.data_eq steady (data_accepted fetched)))
  exact cursor

theorem At.prev_eq {κ' : Type} [LinearOrder κ'] {L : Keyset.Listing QueueSelect QueueCursor κ'} (here : At db t h k v L)
    (steady : Steady h v clock) {c : QueueCursor} (back : (v.data db t clock).bind (·.prevCursor) = some c) :
    (L.page (v.rows db t ⟨h, h⟩) 20 v.direction v.cursor).prevCursor = some c := by
  obtain ⟨page, fetched, cursor⟩ := Option.bind_eq_some_iff.mp back
  obtain rfl := Option.some.inj (fetched.symm.trans (here.data_eq steady (data_accepted fetched)))
  exact cursor

/-- A URL without a cursor shows the first page. -/
theorem Fresh.shows (fresh : Fresh v) (h : Int) : Shows db t h 0 v := by
  obtain ⟨κ', order, L, orders⟩ := exists_orders db v.sorting v.ordering
  refine ⟨κ', order, L, orders, by simp [fresh.cursor], ?_⟩
  have direction : v.direction = .next := if_neg fresh.direction
  rw [direction, fresh.cursor]
  exact .start (by decide) (keys_nodup db t orders.named)

/-- A press moves the view by one page, or starts over. -/
theorem shows_step {a : QueuesAction} (shown : Shows db t h k v) (steady : Steady h v a.clock)
    (pressed : step db t v a = some v') :
    Shows db t h (match a.press with | .next => k + 1 | .prev => k - 1 | _ => 0) v' := by
  obtain ⟨κ', order, L, here⟩ := shown
  have distinct : ((v.rows db t ⟨h, h⟩).map L.key).Nodup := keys_nodup db t here.orders.named
  have made : ∀ (items : List QueueSelect) c, (∃ r ∈ items, L.toCursor r = c) → ∀ x ∈ some c, x.pressure.isSome := by
    rintro items _ ⟨r, -, rfl⟩ x ⟨⟩
    rw [here.orders.cursors]
    rfl
  have cursors := Keyset.pageOf_made L.toCursor 20 v.direction v.cursor.isSome
    (L.query (v.rows db t ⟨h, h⟩) v.direction v.cursor (20 + 1))
  obtain ⟨press, clock⟩ := a
  cases press with
  | next =>
      obtain ⟨enabled, ⟨⟩⟩ := Option.ite_none_left_eq_some.mp pressed
      rw [nextDisabled, Option.isNone_iff_eq_none] at enabled
      obtain ⟨c, onward⟩ := Option.ne_none_iff_exists'.mp enabled
      have cursor := here.next_eq steady onward
      have moved : v.handleNextPage db t clock = { v with cursor := some c, cursorDirection := "next" } := by
        simp only [handleNextPage, onward]
      rw [moved]
      exact ⟨κ', order, L, here.orders, made _ c (cursors.1 c cursor), here.page.next (by decide) distinct cursor⟩
  | prev =>
      obtain ⟨enabled, ⟨⟩⟩ := Option.ite_none_left_eq_some.mp pressed
      rw [prevDisabled, Option.isNone_iff_eq_none] at enabled
      obtain ⟨c, back⟩ := Option.ne_none_iff_exists'.mp enabled
      have cursor := here.prev_eq steady back
      have moved : v.handlePrevPage db t clock = { v with cursor := some c, cursorDirection := "prev" } := by
        simp only [handlePrevPage, back]
      have later := (here.page.prev_iff (by decide)).mp (Option.isSome_iff_exists.mpr ⟨c, cursor⟩)
      obtain ⟨j, rfl⟩ := Nat.exists_eq_succ_of_ne_zero (Nat.ne_of_gt later)
      rw [moved]
      exact ⟨κ', order, L, here.orders, made _ c (cursors.2 c cursor), here.page.prev (by decide) distinct cursor⟩
  | search search =>
      obtain rfl := Option.some.inj pressed
      exact Fresh.shows ⟨rfl, by simp⟩ h
  | timePeriod timePeriod =>
      obtain rfl := Option.some.inj pressed
      exact Fresh.shows ⟨rfl, by simp⟩ h
  | sort nextSortBy =>
      obtain rfl := Option.some.inj pressed
      exact Fresh.shows ⟨rfl, by simp [handleSort]⟩ h

theorem position_append (presses : List QueuesPress) (press : QueuesPress) :
    position (presses ++ [press]) =
      (match press with | .next => position presses + 1 | .prev => position presses - 1 | _ => 0) := by
  simp [position]

theorem Shows.onScreen (shown : Shows db t h k v) (steady : Steady h v clock)
    (accepted : (timePeriodDays v.timePeriod).isSome) : OnScreen db t k v clock := by
  obtain ⟨κ', order, L, here⟩ := shown
  have distinct : ((v.rows db t ⟨h, h⟩).map L.key).Nodup := keys_nodup db t here.orders.named
  have fetched := here.data_eq steady accepted
  refine ⟨L.sorted (v.rows db t ⟨h, h⟩), ?_, ?_, ⟨_, fetched, ?_⟩, ?_, ?_⟩
  · rw [rows_steady steady]
    exact L.sorted_perm _
  · exact (L.sorted_strict distinct).imp fun {a b} => here.orders.before a b
  · have items : (L.page (v.rows db t ⟨h, h⟩) 20 v.direction v.cursor).items = _ := congrArg (·.items) here.page.page
    simp only [Keyset.Page.map, items, Keyset.Listing.numbered_items, List.map_map]
  · rw [nextDisabled, fetched, Option.bind_some, Option.isNone_eq_false_iff, Keyset.Listing.length_sorted]
    have next : (L.page (v.rows db t ⟨h, h⟩) 20 v.direction v.cursor).nextCursor = _ :=
      congrArg (·.nextCursor) here.page.page
    simp only [Keyset.Page.map, next]
    exact Keyset.Listing.numbered_next (by decide)
  · rw [prevDisabled, fetched, Option.bind_some, Option.isNone_eq_false_iff]
    exact here.page.prev_iff (by decide)

end QueuesView

end BetterBullBoard
