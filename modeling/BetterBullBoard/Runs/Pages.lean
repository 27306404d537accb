import BetterBullBoard.Core.Jobs
import BetterBullBoard.Lib.Machine

/-! # Turning the pages of the runs table

`runs-table.tsx` and `runs-filters.tsx`: the position is a cursor and a direction
in the URL, and a stack of the cursors that Next was pressed at. The stack does
not keep the direction, and is empty after a reload. The first page is fetched
with the filters of 300 ms ago, so for so long it shows a page left before. A
button is disabled while its page is fetched, so every press acts on the page
shown.
-/

namespace BetterBullBoard

/-- The filters with the cursor and its direction. -/
structure RunFilters where
  input : ListJobsInput
  cursor : Option JobCursor := none
  cursorDirection : Keyset.Direction := .next
  deriving DecidableEq

/-- The URL, the debounced filters, and the stack with its top first. -/
structure RunsView where
  urlFilters : RunFilters
  debouncedFilters : RunFilters
  cursorHistory : List (Option JobCursor) := []

/-- What `handleFiltersChange` is called with: a page alone, or anything else. -/
inductive RunsUpdate where
  | page (cursor : Option JobCursor) (cursorDirection : Keyset.Direction)
  | other (input : ListJobsInput)

inductive RunsAction where
  | next
  | prev
  | filter (input : ListJobsInput)
  /-- The filters have been what they are for 300 ms. -/
  | debounce

variable {J κ : Type} [LinearOrder κ] (db : Database κ) (table : JobRunsTable J)

/-- The request for a page. -/
def RunFilters.query (f : RunFilters) : ListJobsInput := { f.input with limit := some 15 }

def RunFilters.runs (f : RunFilters) : Option (Keyset.Page ListedJob JobCursor) :=
  listJobsAt db table f.query f.cursorDirection f.cursor

/-- The rows the table is about. -/
def RunFilters.shown (f : RunFilters) : List (JobRun J) := table.rows.filter (f.query.matches db)

namespace RunsView

/-- The URL's filters; a cursor with a zero time or an empty job id counts as none. -/
def filters (s : RunsView) : RunFilters :=
  { s.urlFilters with cursor := s.urlFilters.cursor.filter fun c => c.createdAt ≠ 0 && c.jobId ≠ "" }

def queryFilters (s : RunsView) : RunFilters :=
  if s.filters.cursor.isSome || s.filters.cursorDirection = .prev then s.filters else s.debouncedFilters

def runs (s : RunsView) : Option (Keyset.Page ListedJob JobCursor) := s.queryFilters.runs db table

def jobs (s : RunsView) : List ListedJob := (s.runs db table).elim [] (·.items)

def handleFiltersChange (s : RunsView) : RunsUpdate → RunsView
  | .page cursor .next =>
      { s with
        urlFilters := { s.urlFilters with cursor, cursorDirection := .next }
        cursorHistory := s.filters.cursor :: s.cursorHistory }
  | .page cursor .prev =>
      match s.cursorHistory with
      | [] => { s with urlFilters := { s.urlFilters with cursor, cursorDirection := .prev } }
      | previousCursor :: cursorHistory =>
          { s with
            urlFilters := { s.urlFilters with cursor := previousCursor, cursorDirection := .next }
            cursorHistory }
  | .other input => { s with urlFilters := { input }, cursorHistory := [] }

def handleNextPage (s : RunsView) : RunsView :=
  match (s.runs db table).bind (·.nextCursor) with
  | some nextCursor => s.handleFiltersChange (.page (some nextCursor) .next)
  | none => s

def handlePrevPage (s : RunsView) : RunsView :=
  match (s.runs db table).bind (·.prevCursor) with
  | some prevCursor => s.handleFiltersChange (.page (some prevCursor) .prev)
  | none => s.handleFiltersChange (.page none .next)

def nextDisabled (s : RunsView) : Bool := ((s.runs db table).bind (·.nextCursor)).isNone

def prevDisabled (s : RunsView) : Bool :=
  ((s.runs db table).bind (·.prevCursor)).isNone && s.filters.cursor.isNone

/-- The timer of `useDebounce` fires. -/
def debounce (s : RunsView) : RunsView := { s with debouncedFilters := s.filters }

def press (s : RunsView) : RunsAction → Option RunsView
  | .next => if s.nextDisabled db table then none else some (s.handleNextPage db table)
  | .prev => if s.prevDisabled db table then none else some (s.handlePrevPage db table)
  | .filter input => some (s.handleFiltersChange (.other input))
  | .debounce => some s.debounce

/-- The page shown is the one the URL asks for. -/
def UpToDate (s : RunsView) : Prop := s.queryFilters = s.filters

instance (s : RunsView) : Decidable s.UpToDate := inferInstanceAs (Decidable (_ = _))

/-- A button is pressed on the page the URL asks for. -/
def Waits (s : RunsView) : RunsAction → Prop
  | .next | .prev => s.UpToDate
  | .filter _ | .debounce => True

instance (s : RunsView) (a : RunsAction) : Decidable (s.Waits a) := by
  cases a with
  | next | prev => exact inferInstanceAs (Decidable s.UpToDate)
  | filter | debounce => exact inferInstanceAs (Decidable True)

/-! ## Cursors -/

def OfRow (f : RunFilters) (cursor : Option JobCursor) : Prop :=
  ∀ x ∈ cursor, ∃ r ∈ f.shown db table, toCursor r.listed = x

/-- Every cursor is one of a row. -/
def Sound (s : RunsView) : Prop :=
  OfRow db table s.filters s.urlFilters.cursor ∧ ∀ c ∈ s.cursorHistory, OfRow db table s.filters c

/-- After a mount: no history, and no cursor or one that `listJobs` returned. -/
structure Opened (s : RunsView) : Prop where
  cursorHistory : s.cursorHistory = []
  debounced : s.debouncedFilters = s.filters
  returned : ∀ x ∈ s.urlFilters.cursor, ∃ cursorDirection cursor page,
    listJobsAt db table s.filters.query cursorDirection cursor = some page ∧
      (page.nextCursor = some x ∨ page.prevCursor = some x)

variable {db table} {s : RunsView} {f : RunFilters}

theorem query_accepted : f.query.issues = [] := limitIssues_eq_nil.mpr (by simp [RunFilters.query])

theorem filtersCursor_sub {x : JobCursor} (h : x ∈ s.filters.cursor) : x ∈ s.urlFilters.cursor :=
  (Option.filter_eq_some_iff.mp h).1

omit [LinearOrder κ] in
theorem OfRow.filters (h : OfRow db table f s.urlFilters.cursor) : OfRow db table f s.filters.cursor :=
  fun x mem => h x (filtersCursor_sub mem)

variable (db table) in
/-- The pages of the table. -/
theorem exists_pages (f : RunFilters) :
    ∃ (κ' : Type) (_ : LinearOrder κ') (L : Keyset.Listing (JobRun J) JobCursor κ'),
      (∀ cursorDirection cursor, listJobsAt db table f.query cursorDirection cursor =
        some ((L.page (f.shown db table) 15 cursorDirection cursor).map JobRun.listed)) ∧
      (∀ r, L.toCursor r = toCursor r.listed) ∧ ((f.shown db table).map L.key).Nodup := by
  have ⟨κ', order, L, pages, cursors, distinct, _⟩ := exists_listing db table (query_accepted (f := f))
  exact ⟨κ', order, L, fun cursorDirection cursor => by rw [pages]; rfl, cursors, distinct⟩

/-- A page has the cursors of rows. -/
theorem page_ofRow {cursorDirection : Keyset.Direction} {cursor : Option JobCursor}
    {page : Keyset.Page ListedJob JobCursor}
    (fetched : listJobsAt db table f.query cursorDirection cursor = some page) :
    OfRow db table f page.nextCursor ∧ OfRow db table f page.prevCursor := by
  have ⟨_, _, L, pages, cursors, _⟩ := exists_pages db table f
  obtain rfl := Option.some.inj ((pages cursorDirection cursor).symm.trans fetched)
  have ⟨next, prev⟩ := Keyset.pageOf_made L.toCursor 15 cursorDirection cursor.isSome
    (L.query (f.shown db table) cursorDirection cursor 16)
  constructor
  · intro x mem
    have ⟨r, item, same⟩ := next x mem
    exact ⟨r, (L.mem_page item).1, (cursors r).symm.trans same⟩
  · intro x mem
    have ⟨r, item, same⟩ := prev x mem
    exact ⟨r, (L.mem_page item).1, (cursors r).symm.trans same⟩

theorem Opened.sound (h : Opened db table s) : Sound db table s := by
  refine ⟨?_, by simp [h.cursorHistory]⟩
  intro x mem
  have ⟨_, _, page, fetched, made⟩ := h.returned x mem
  cases made with
  | inl next => exact (page_ofRow fetched).1 x next
  | inr prev => exact (page_ofRow fetched).2 x prev

/-- Without a cursor there is no way back. -/
theorem first_page {page : Keyset.Page ListedJob JobCursor} {cursorDirection : Keyset.Direction}
    (fetched : listJobsAt db table f.query cursorDirection none = some page) :
    match cursorDirection with
    | .next => page.prevCursor = none
    | .prev => page.nextCursor = none := by
  have ⟨_, _, L, pages, _⟩ := exists_pages db table f
  obtain rfl := Option.some.inj ((pages cursorDirection none).symm.trans fetched)
  cases cursorDirection <;> rfl

/-- The page that Next leads to has a way back. -/
theorem next_turns {cursorDirection : Keyset.Direction} {cursor : Option JobCursor} {x : JobCursor}
    (made : OfRow db table f cursor)
    (onward : (listJobsAt db table f.query cursorDirection cursor).bind (·.nextCursor) = some x) :
    ((listJobsAt db table f.query .next (some x)).bind (·.prevCursor)).isSome = true := by
  have ⟨_, _, L, pages, cursors, distinct⟩ := exists_pages db table f
  rw [pages] at onward ⊢
  refine L.next_turns (by decide) distinct ?_ onward
  intro x mem
  have ⟨r, inTable, same⟩ := made x mem
  exact ⟨r, inTable, (cursors r).trans same⟩

/-- Before and after one cursor there are different pages, where the first has a row. -/
theorem pages_differ {x y : JobCursor} {before after : Keyset.Page ListedJob JobCursor}
    (made : OfRow db table f (some x))
    (fetched : listJobsAt db table f.query .prev (some x) = some before) (onward : before.nextCursor = some y)
    (fetched' : listJobsAt db table f.query .next (some x) = some after) : after.items ≠ before.items := by
  have ⟨_, _, L, pages, cursors, _⟩ := exists_pages db table f
  have ⟨c, _, same⟩ := made x rfl
  rw [← same, ← cursors c] at fetched fetched'
  obtain rfl := Option.some.inj ((pages _ _).symm.trans fetched)
  obtain rfl := Option.some.inj ((pages _ _).symm.trans fetched')
  have ⟨r, item, _⟩ := (Keyset.pageOf_made L.toCursor 15 .prev true
    (L.query (f.shown db table) .prev (some (L.toCursor c)) 16)).1 y onward
  intro equal
  have same : (L.page (f.shown db table) 15 .next (some (L.toCursor c))).items.map JobRun.listed =
      (L.page (f.shown db table) 15 .prev (some (L.toCursor c))).items.map JobRun.listed := equal
  have again : r.listed ∈ (L.page (f.shown db table) 15 .next (some (L.toCursor c))).items.map JobRun.listed := by
    rw [same]
    exact List.mem_map_of_mem item
  have ⟨r', item', listed⟩ := List.mem_map.mp again
  have inTable : ∀ {direction x}, x ∈ (L.page (f.shown db table) 15 direction (some (L.toCursor c))).items →
      x ∈ table.rows := fun mem => (List.mem_filter.mp (L.mem_page mem).1).1
  have one : r' = r := List.inj_on_of_nodup_map table.ids (inTable item') (inTable item) (congrArg ListedJob.id listed)
  exact L.pages_apart item (one ▸ item')

/-! ## Presses -/

/-- Where the page is up to date, its request is the URL's. -/
theorem UpToDate.runs (h : s.UpToDate) : s.runs db table = s.filters.runs db table := by
  rw [RunsView.runs, h]

/-- After the debounce it is. -/
theorem upToDate_debounce (s : RunsView) : s.debounce.UpToDate := by
  unfold UpToDate queryFilters
  split
  · rfl
  · rfl

theorem jobs_debounce (s : RunsView) : s.debounce.jobs db table = (s.filters.runs db table).elim [] (·.items) := by
  rw [jobs, (upToDate_debounce s).runs]
  rfl

/-- What a press makes of the view. -/
theorem press_cases {a : RunsAction} {s' : RunsView} (waits : s.Waits a) (pressed : press db table s a = some s') :
    match a with
    | .next => ∃ page x, s.filters.runs db table = some page ∧ page.nextCursor = some x ∧
        s' = s.handleFiltersChange (.page (some x) .next)
    | .prev => (∃ page x, s.filters.runs db table = some page ∧ page.prevCursor = some x ∧
        s' = s.handleFiltersChange (.page (some x) .prev)) ∨
      (((s.filters.runs db table).bind (·.prevCursor)) = none ∧ s.filters.cursor.isSome = true ∧
        s' = s.handleFiltersChange (.page none .next))
    | .filter input => s' = s.handleFiltersChange (.other input)
    | .debounce => s' = s.debounce := by
  cases a with
  | next =>
      simp only [press, nextDisabled, handleNextPage, UpToDate.runs waits] at pressed
      cases onward : (s.filters.runs db table).bind (·.nextCursor) with
      | none => simp [onward] at pressed
      | some x =>
          have ⟨page, fetched, next⟩ := Option.bind_eq_some_iff.mp onward
          simp only [onward, Option.isNone_some, Bool.false_eq_true, if_false, Option.some.injEq] at pressed
          exact ⟨page, x, fetched, next, pressed.symm⟩
  | prev =>
      simp only [press, prevDisabled, handlePrevPage, UpToDate.runs waits] at pressed
      cases back : (s.filters.runs db table).bind (·.prevCursor) with
      | none =>
          cases cursor : s.filters.cursor with
          | none => simp [back, cursor] at pressed
          | some c =>
              simp only [back, cursor, Option.isNone_some, Bool.and_false, Bool.false_eq_true, if_false,
                Option.some.injEq] at pressed
              exact .inr ⟨rfl, rfl, pressed.symm⟩
      | some x =>
          have ⟨page, fetched, prev⟩ := Option.bind_eq_some_iff.mp back
          simp only [back, Option.isNone_some, Bool.false_and, Bool.false_eq_true, if_false, Option.some.injEq]
            at pressed
          exact .inl ⟨page, x, fetched, prev, pressed.symm⟩
  | filter input => exact (Option.some.inj pressed).symm
  | debounce => exact (Option.some.inj pressed).symm

theorem Sound.press {a : RunsAction} {s' : RunsView} (h : Sound db table s) (waits : s.Waits a)
    (pressed : RunsView.press db table s a = some s') : Sound db table s' := by
  have here : OfRow db table s.filters s.filters.cursor := OfRow.filters h.1
  have changed := press_cases waits pressed
  cases a with
  | next =>
      obtain ⟨page, x, fetched, next, rfl⟩ := changed
      refine ⟨next ▸ (page_ofRow fetched).1, ?_⟩
      intro c mem
      cases List.mem_cons.mp mem with
      | inl same => exact same ▸ here
      | inr older => exact h.2 c older
  | prev =>
      cases changed with
      | inl back =>
          obtain ⟨page, x, fetched, prev, rfl⟩ := back
          rw [handleFiltersChange]
          split
          · exact ⟨prev ▸ (page_ofRow fetched).2, h.2⟩
          · rename_i previousCursor rest history
            have all := h.2
            rw [history] at all
            exact ⟨all _ List.mem_cons_self, fun c mem => all c (List.mem_cons_of_mem _ mem)⟩
      | inr first =>
          obtain ⟨_, _, rfl⟩ := first
          refine ⟨nofun, ?_⟩
          intro c mem
          cases List.mem_cons.mp mem with
          | inl same => exact same ▸ here
          | inr older => exact h.2 c older
  | filter input =>
      rw [show s' = s.handleFiltersChange (.other input) from changed]
      exact ⟨nofun, nofun⟩
  | debounce =>
      rw [show s' = s.debounce from changed]
      exact h

/-- Next and then Previous: the cursor of before, always forwards. -/
theorem back_to {n n' p : RunsView} (h : Sound db table s) (upToDate : s.UpToDate)
    (next : press db table s .next = some n) (waited : n' = n ∨ n' = n.debounce) (upToDate' : n'.UpToDate)
    (prev : press db table n' .prev = some p) : p.urlFilters = { s.filters with cursorDirection := .next } := by
  obtain ⟨page, x, fetched, onward, rfl⟩ := press_cases (a := .next) upToDate next
  have turns : ((listJobsAt db table s.filters.query .next (some x)).bind (·.prevCursor)).isSome = true :=
    next_turns (OfRow.filters h.1) (Option.bind_eq_some_iff.mpr ⟨page, fetched, onward⟩)
  have turned : n'.urlFilters = { s.urlFilters with cursor := some x, cursorDirection := .next } ∧
      n'.cursorHistory = s.filters.cursor :: s.cursorHistory := by
    cases waited with
    | inl same => exact same ▸ ⟨rfl, rfl⟩
    | inr later => exact later ▸ ⟨rfl, rfl⟩
  cases press_cases (a := .prev) upToDate' prev with
  | inl back =>
      obtain ⟨_, _, _, _, rfl⟩ := back
      rw [handleFiltersChange, turned.2, turned.1]
      rfl
  | inr first =>
      -- With the cursor gone the first page is shown, and its Previous is disabled.
      have ⟨noWay, cursor, _⟩ := first
      have kept : n'.filters.cursor = some x := by
        have ⟨y, there⟩ := Option.isSome_iff_exists.mp cursor
        have url := filtersCursor_sub there
        rw [turned.1] at url
        rw [there]
        exact url.symm
      have request : n'.filters.runs db table = listJobsAt db table s.filters.query .next (some x) := by
        rw [RunFilters.runs, kept]
        simp only [RunFilters.query, filters, turned.1]
      rw [request] at noWay
      rw [noWay] at turns
      cases turns

/-- The page comes back exactly when it was shown forwards. -/
theorem jobs_back {n n' p : RunsView} (h : Sound db table s) (upToDate : s.UpToDate)
    (next : press db table s .next = some n) (waited : n' = n ∨ n' = n.debounce) (upToDate' : n'.UpToDate)
    (prev : press db table n' .prev = some p) :
    p.debounce.jobs db table = s.jobs db table ↔ s.urlFilters.cursorDirection = .next := by
  have forwards : p.filters.runs db table = listJobsAt db table s.filters.query .next s.filters.cursor := by
    rw [RunFilters.runs, filters, back_to h upToDate next waited upToDate' prev]
    simp only [RunFilters.query, filters, Option.filter_filter, Bool.and_self]
  have now : s.jobs db table = (listJobsAt db table s.filters.query s.urlFilters.cursorDirection
      s.filters.cursor).elim [] (·.items) := by
    rw [jobs, upToDate.runs]
    rfl
  obtain ⟨page, x, fetched, onward, _⟩ := press_cases (a := .next) upToDate next
  rw [jobs_debounce, forwards, now]
  constructor
  · intro same
    cases direction : s.urlFilters.cursorDirection with
    | next => rfl
    | prev =>
        have fetched : listJobsAt db table s.filters.query .prev s.filters.cursor = some page := direction ▸ fetched
        rw [direction] at same
        cases cursor : s.filters.cursor with
        | none =>
            rw [cursor] at fetched
            rw [first_page fetched] at onward
            cases onward
        | some c =>
            have made := OfRow.filters h.1
            rw [cursor] at fetched made same
            have ⟨after, fetched'⟩ : ∃ after, listJobsAt db table s.filters.query .next (some c) = some after := by
              have ⟨_, _, _, pages, _⟩ := exists_pages db table s.filters
              exact ⟨_, pages .next (some c)⟩
            refine (pages_differ made fetched onward fetched' ?_).elim
            rw [fetched', fetched] at same
            exact same
  · intro direction
    rw [direction]

/-! ## Every run -/

variable (db table) in
/-- Any presses from a fresh mount, none on a page the URL no longer asks for. -/
def Reached (start : RunsView) (ts : List (Machine.Transition RunsView RunsAction)) (s : RunsView) : Prop :=
  Machine.Run (press db table) start ts s ∧ ∀ t ∈ ts, t.pre.Waits t.act

theorem Reached.sound {start : RunsView} {ts : List (Machine.Transition RunsView RunsAction)}
    (reached : Reached db table start ts s) (opened : Opened db table start) : Sound db table s :=
  reached.1.guarded (G := Waits) (fun _ _ _ h waits pressed => h.press waits pressed) opened.sound reached.2 s
    reached.1.last_mem

/-- In whatever state any presses lead to from a fresh mount, where every button is pressed on the page the URL asks
    for, Next and then Previous come back to the same rows exactly when the page was shown forwards. -/
theorem next_prev_iff {start s n n' p : RunsView} {ts : List (Machine.Transition RunsView RunsAction)}
    (opened : Opened db table start) (reached : Reached db table start ts s) (upToDate : s.UpToDate)
    (next : press db table s .next = some n) (waited : n' = n ∨ n' = n.debounce) (upToDate' : n'.UpToDate)
    (prev : press db table n' .prev = some p) :
    p.debounce.jobs db table = s.jobs db table ↔ s.urlFilters.cursorDirection = .next :=
  jobs_back (reached.sound opened) upToDate next waited upToDate' prev

/-- Seventeen runs: a full page and two more. -/
def seventeenRuns : JobRunsTable Unit :=
  (upsertJobRuns {} ((List.range 17).map fun i : Nat =>
    { mailRun .completed (some 2000) with jobId := toString i, createdAt := some (1000 + (i : Int)) }) .empty).1

/-- The table opened with these filters and no cursor. -/
def opened (input : ListJobsInput) : RunsView := { urlFilters := { input }, debouncedFilters := { input } }

/-- The second page, after a reload. -/
def secondPage : RunsView where
  urlFilters := { input := {}, cursor := (runs plainDatabase seventeenRuns (opened {})).bind (·.nextCursor) }
  debouncedFilters := { input := {}, cursor := (runs plainDatabase seventeenRuns (opened {})).bind (·.nextCursor) }

theorem opened_opened (db : Database κ) (table : JobRunsTable J) (input : ListJobsInput) :
    Opened db table (opened input) where
  cursorHistory := rfl
  debounced := rfl
  returned := nofun

theorem secondPage_opened : Opened plainDatabase seventeenRuns secondPage where
  cursorHistory := rfl
  debounced := by decide +kernel
  returned x mem := by
    have made : (runs plainDatabase seventeenRuns (opened {})).bind (·.nextCursor) = some x := mem
    have ⟨page, fetched, next⟩ := Option.bind_eq_some_iff.mp made
    exact ⟨.next, none, page, fetched, .inl next⟩

/-- Presses, then Next, 300 ms and Previous: whether every button was pressed on the page of the URL, and whether the
    rows come back. -/
def backAgain (start : RunsView) (actions : List RunsAction) : Option (Bool × Bool) := do
  let (ts, s) ← Machine.perform (press plainDatabase seventeenRuns) start actions
  let n ← press plainDatabase seventeenRuns s .next
  let p ← press plainDatabase seventeenRuns n.debounce .prev
  return (ts.all (fun t => t.pre.Waits t.act) && s.UpToDate,
    p.debounce.jobs plainDatabase seventeenRuns = s.jobs plainDatabase seventeenRuns)

theorem backAgain_spec {start : RunsView} {actions : List RunsAction} {waits same : Bool}
    (h : backAgain start actions = some (waits, same)) :
    ∃ ts s n p, Machine.Run (press plainDatabase seventeenRuns) start ts s ∧
      press plainDatabase seventeenRuns s .next = some n ∧ press plainDatabase seventeenRuns n.debounce .prev = some p ∧
      (ts.all (fun t => t.pre.Waits t.act) && s.UpToDate) = waits ∧
      decide (p.debounce.jobs plainDatabase seventeenRuns = s.jobs plainDatabase seventeenRuns) = same := by
  simp only [backAgain, Option.bind_eq_bind, Option.bind_eq_some_iff] at h
  have ⟨⟨ts, s⟩, performed, n, next, p, prev, equal⟩ := h
  obtain ⟨rfl, rfl⟩ := Prod.mk.inj (Option.some.inj equal)
  exact ⟨ts, s, n, p, Machine.perform_run performed, next, prev, rfl, rfl⟩

theorem forwards_performed :
    backAgain (opened { queue := some "all" }) [.filter {}, .debounce, .next, .prev, .debounce] =
      some (true, true) := by
  decide +kernel

theorem forwards_back : ∃ ts s n p,
    Reached plainDatabase seventeenRuns (opened { queue := some "all" }) ts s ∧
    press plainDatabase seventeenRuns s .next = some n ∧ press plainDatabase seventeenRuns n.debounce .prev = some p ∧
    (p.debounce.jobs plainDatabase seventeenRuns = s.jobs plainDatabase seventeenRuns ↔
      s.urlFilters.cursorDirection = .next) := by
  have ⟨ts, s, n, p, run, next, prev, waits, _⟩ := backAgain_spec forwards_performed
  simp only [Bool.and_eq_true, List.all_eq_true, decide_eq_true_eq] at waits
  have reached : Reached plainDatabase seventeenRuns (opened { queue := some "all" }) ts s := ⟨run, waits.1⟩
  exact ⟨ts, s, n, p, reached, next, prev, next_prev_iff (opened_opened _ _ _) reached waits.2 next (.inr rfl)
    (upToDate_debounce n) prev⟩

theorem backwards_performed : backAgain secondPage [.prev] = some (true, false) := by decide +kernel

/-- A reload of the second page, Previous, and the first page is there; Next and Previous, and it is not. -/
theorem reloaded_page_lost : ∃ start ts s n p, Opened plainDatabase seventeenRuns start ∧
    Reached plainDatabase seventeenRuns start ts s ∧ press plainDatabase seventeenRuns s .next = some n ∧
    press plainDatabase seventeenRuns n.debounce .prev = some p ∧
    p.debounce.jobs plainDatabase seventeenRuns ≠ s.jobs plainDatabase seventeenRuns := by
  have ⟨ts, s, n, p, run, next, prev, waits, other⟩ := backAgain_spec backwards_performed
  simp only [Bool.and_eq_true, List.all_eq_true, decide_eq_true_eq] at waits
  exact ⟨secondPage, ts, s, n, p, secondPage_opened, ⟨run, waits.1⟩, next, prev, of_decide_eq_false other⟩

/-- Below a cursor there is always one more entry to go back to. -/
def Grounded : Option JobCursor → List (Option JobCursor) → Prop
  | none, _ => True
  | some _, [] => False
  | some _, previousCursor :: cursorHistory => Grounded previousCursor cursorHistory

theorem Grounded.filter {c : Option JobCursor} {cursorHistory : List (Option JobCursor)} (p : JobCursor → Bool)
    (h : Grounded c cursorHistory) : Grounded (c.filter p) cursorHistory := by
  cases kept : c.filter p with
  | none => simp only [Grounded]
  | some x => exact (Option.filter_eq_some_iff.mp kept).1 ▸ h

theorem grounded_press {s' : RunsView} {a : RunsAction}
    (h : s.urlFilters.cursorDirection = .next ∧ Grounded s.urlFilters.cursor s.cursorHistory) (waits : s.Waits a)
    (pressed : press db table s a = some s') :
    s'.urlFilters.cursorDirection = .next ∧ Grounded s'.urlFilters.cursor s'.cursorHistory := by
  have ⟨direction, grounded⟩ := h
  have changed := press_cases waits pressed
  cases a with
  | next =>
      obtain ⟨_, x, _, _, rfl⟩ := changed
      exact ⟨rfl, grounded.filter _⟩
  | prev =>
      cases changed with
      | inr first =>
          obtain ⟨_, _, rfl⟩ := first
          exact ⟨rfl, trivial⟩
      | inl back =>
          obtain ⟨page, x, fetched, way, rfl⟩ := back
          -- A first page has no way back, so there is a cursor, and an entry below it.
          cases cursor : s.urlFilters.cursor with
          | none =>
              have fetched : listJobsAt db table s.filters.query .next none = some page := by
                have same : s.filters = { s.urlFilters with cursor := none } := by rw [filters, cursor]; rfl
                rw [← fetched, RunFilters.runs, same, ← direction]
              rw [first_page fetched] at way
              cases way
          | some c =>
              rw [cursor] at grounded
              rw [handleFiltersChange]
              split
              · rename_i empty
                rw [empty] at grounded
                exact grounded.elim
              · rename_i previousCursor rest history
                rw [history] at grounded
                exact ⟨rfl, grounded⟩
  | filter input =>
      rw [show s' = s.handleFiltersChange (.other input) from changed]
      exact ⟨rfl, trivial⟩
  | debounce =>
      rw [show s' = s.debounce from changed]
      exact h

/-- From a URL without a cursor no page is ever shown backwards, and the rows always come back. -/
theorem fresh_turns_back {s n n' p : RunsView} {input : ListJobsInput}
    {ts : List (Machine.Transition RunsView RunsAction)} (reached : Reached db table (opened input) ts s)
    (upToDate : s.UpToDate) (next : press db table s .next = some n) (waited : n' = n ∨ n' = n.debounce)
    (upToDate' : n'.UpToDate) (prev : press db table n' .prev = some p) :
    p.debounce.jobs db table = s.jobs db table := by
  have grounded : s.urlFilters.cursorDirection = .next ∧ Grounded s.urlFilters.cursor s.cursorHistory :=
    reached.1.guarded (G := Waits)
      (I := fun s => s.urlFilters.cursorDirection = .next ∧ Grounded s.urlFilters.cursor s.cursorHistory)
      (fun _ _ _ h waits pressed => grounded_press h waits pressed) ⟨rfl, by simp only [opened, Grounded]⟩ reached.2 s
      reached.1.last_mem
  exact (jobs_back (reached.sound (opened_opened db table input)) upToDate next waited upToDate' prev).mpr grounded.1

theorem early_performed : backAgain (opened {}) [.filter { queue := some "invoices" }] = some (false, false) := by
  decide +kernel

/-- Within 300 ms of a change of the filters the old page is still there. Next leaves it, and Previous does not come
    back to it, although it was shown forwards. -/
theorem early_press_lost : ∃ ts s n p, Machine.Run (press plainDatabase seventeenRuns) (opened {}) ts s ∧
    press plainDatabase seventeenRuns s .next = some n ∧ press plainDatabase seventeenRuns n.debounce .prev = some p ∧
    p.debounce.jobs plainDatabase seventeenRuns ≠ s.jobs plainDatabase seventeenRuns := by
  have ⟨ts, s, n, p, run, next, prev, _, other⟩ := backAgain_spec early_performed
  exact ⟨ts, s, n, p, run, next, prev, of_decide_eq_false other⟩

end RunsView

end BetterBullBoard
