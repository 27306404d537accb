import BetterBullBoard.Core.JobLogs
import BetterBullBoard.Lib.Machine

/-! # The logs of a run on its page

The page keeps its logs in an infinite query: pages by offset, and a fetch that adds
the next one or goes through all of them again, one request after the other. A
request is two statements, and anything may be written between any two. Another
fetch cancels the one in flight, unless there are no pages yet.
-/

namespace BetterBullBoard

/-- A fetch: the pages it has, how many requests it has left, and the table as each
    statement of the current one found it. -/
structure LogsFetch where
  pages : List ListJobLogsOutput
  remaining : Nat
  logsTable : Option JobLogsTable := none
  countTable : Option JobLogsTable := none

structure LogsView where
  /-- `job_logs` -/
  table : JobLogsTable
  pages : List ListJobLogsOutput := []
  fetch : Option LogsFetch := none

inductive LogsViewAction where
  /-- Any statement that writes `job_logs`. -/
  | write (table : JobLogsTable)
  /-- The page opens, gets the focus or a `job-log-refresh`. -/
  | refresh
  /-- The end of the list comes into view. -/
  | fetchNextPage
  | selectLogs
  | selectCount
  | respond
  | fail

namespace LogsView

def getNextPageParam (lastPage : ListJobLogsOutput) (lastPageParam : Nat) : Option Nat :=
  if lastPageParam + 100 < lastPage.total then some (lastPageParam + 100) else none

/-- The `pageParam` of the page at this place. -/
def pageParam (k : Nat) : Nat := 100 * k

def hasNextPage (pages : List ListJobLogsOutput) : Bool :=
  pages.getLast?.any fun lastPage => (getNextPageParam lastPage (pageParam (pages.length - 1))).isSome

/-- The logs on screen, sorted once more by their times. -/
def logs (s : LogsView) : List JobLog := (s.pages.flatMap (·.logs)).insertionSort fun a b => a.ts ≤ b.ts

variable {κ : Type} (db : Database κ) (runId : Nat)

def request (k : Nat) : ListJobLogsInput := { id := runId, limit := some 100, offset := some (pageParam k) }

def respond (s : LogsView) (f : LogsFetch) (page : ListJobLogsOutput) : LogsView :=
  let pages := f.pages ++ [page]
  if f.remaining ≤ 1 ∨ getNextPageParam page (pageParam f.pages.length) = none then { s with pages, fetch := none }
  else { s with fetch := some { pages, remaining := f.remaining - 1 } }

def step (s : LogsView) : LogsViewAction → Option LogsView
  | .write table => some { s with table }
  | .refresh =>
      if s.pages = [] ∧ s.fetch.isSome then some s
      else some { s with fetch := some { pages := [], remaining := max 1 s.pages.length } }
  | .fetchNextPage =>
      if hasNextPage s.pages then some { s with fetch := some { pages := s.pages, remaining := 1 } } else none
  | .selectLogs =>
      s.fetch.bind fun f =>
        if f.logsTable.isNone then some { s with fetch := some { f with logsTable := some s.table } } else none
  | .selectCount =>
      s.fetch.bind fun f =>
        if f.countTable.isNone then some { s with fetch := some { f with countTable := some s.table } } else none
  | .respond =>
      s.fetch.bind fun f => f.logsTable.bind fun logsTable => f.countTable.map fun countTable =>
        match listJobLogs db (request runId f.pages.length) logsTable countTable with
        | .ok page => s.respond f page
        | .error _ => { s with fetch := none }
  | .fail => s.fetch.map fun _ => { s with fetch := none }

/-! ## Pages of one table -/

def rows (t : JobLogsTable) : List JobLog := sortedLogs db { id := runId } t

/-- The first pages of these logs, none of them beyond the end. -/
def FirstPages (rows : List JobLog) (pages : List ListJobLogsOutput) : Prop :=
  pages = (List.range pages.length).map (logsPage rows 100) ∧
    (pages.length ≤ 1 ∨ 100 * (pages.length - 1) < rows.length)

/-- A fetch that has read nothing but these logs of the run. -/
structure Steady (ls : List JobLog) (f : LogsFetch) : Prop where
  pages : FirstPages ls f.pages
  /-- The page it asks for is there. -/
  onward : f.pages = [] ∨ 100 * f.pages.length < ls.length
  logsTable : ∀ read ∈ f.logsTable, rows db runId read = ls
  countTable : ∀ read ∈ f.countTable, rows db runId read = ls

/-- The pages on screen are the first pages of the run's logs. -/
structure Exact (s : LogsView) : Prop where
  loaded : s.pages ≠ []
  pages : FirstPages (rows db runId s.table) s.pages

/-- The step leaves these to be the logs of the run. -/
def Keeps (ls : List JobLog) (a : LogsViewAction) : Prop := ∀ table, a = .write table → rows db runId table = ls

/-- The steps that carry a fetch on, or begin it anew, and writes for other runs. -/
def Carries (ls : List JobLog) (a : LogsViewAction) : Prop :=
  Keeps db runId ls a ∧ a ≠ .fetchNextPage ∧ a ≠ .fail

section

variable {db runId} {s s' : LogsView} {ls : List JobLog} {f : LogsFetch} {pages : List ListJobLogsOutput}

theorem getNextPageParam_logsPage (rows : List JobLog) (k : Nat) :
    getNextPageParam (logsPage rows 100 k) (pageParam k) =
      if 100 * (k + 1) < rows.length then some (100 * (k + 1)) else none := rfl

theorem FirstPages.snoc (first : FirstPages ls pages) (onward : pages = [] ∨ 100 * pages.length < ls.length) :
    FirstPages ls (pages ++ [logsPage ls 100 pages.length]) := by
  constructor
  · rw [List.length_append, List.length_singleton, List.range_succ, List.map_append, ← first.1]
    rfl
  · rw [List.length_append, List.length_singleton, Nat.add_sub_cancel]
    exact onward.imp (fun empty => by simp [empty]) id

theorem FirstPages.hasNextPage_iff (first : FirstPages ls pages) (loaded : pages ≠ []) :
    hasNextPage pages = true ↔ 100 * pages.length < ls.length := by
  have nonempty := List.length_pos_iff.mpr loaded
  have last : pages.getLast? = some (logsPage ls 100 (pages.length - 1)) := by
    have lastPage := congrArg (·[pages.length - 1]?) first.1
    simp only [List.getElem?_map, List.getElem?_range (Nat.sub_lt nonempty Nat.one_pos), Option.map_some] at lastPage
    rw [List.getLast?_eq_getElem?, lastPage]
  rw [hasNextPage, last, Option.any_some, getNextPageParam_logsPage, Nat.sub_add_cancel nonempty]
  split <;> simp_all

theorem request_answered {read read' : JobLogsTable} (found : rows db runId read = ls)
    (counted : rows db runId read' = ls) (k : Nat) :
    listJobLogs db (request runId k) read read' = .ok (logsPage ls 100 k) :=
  listJobLogs_page db { id := runId } (by decide : 1 ≤ 100 ∧ 100 ≤ 1000) k found counted

/-! ## A fetch over the same logs -/

variable (db runId) in
/-- What holds from a refresh on, while the logs of the run stay. -/
structure Fetching (s : LogsView) (ls : List JobLog) : Prop where
  table : rows db runId s.table = ls
  fetch : ∀ f ∈ s.fetch, Steady db runId ls f

theorem steady_start (ls : List JobLog) (remaining : Nat) :
    Steady db runId ls { pages := [], remaining } where
  pages := ⟨rfl, .inl (Nat.zero_le 1)⟩
  onward := .inl rfl
  logsTable := by simp
  countTable := by simp

/-- A fetch answered: it goes on to a page that is there, or ends with the first pages. -/
theorem Steady.respond (steady : Steady db runId ls f) (same : rows db runId s.table = ls) :
    Fetching db runId (s.respond f (logsPage ls 100 f.pages.length)) ls ∧
      ((s.respond f (logsPage ls 100 f.pages.length)).fetch = none →
        Exact db runId (s.respond f (logsPage ls 100 f.pages.length))) := by
  subst same
  have more := steady.pages.snoc steady.onward
  unfold LogsView.respond
  dsimp only
  split
  · exact ⟨⟨rfl, by simp⟩, fun _ => ⟨by simp, more⟩⟩
  · rename_i goes
    rw [not_or, getNextPageParam_logsPage] at goes
    refine ⟨⟨rfl, ?_⟩, by simp⟩
    simp only [Option.mem_some_iff, forall_eq']
    refine ⟨more, .inr ?_, by simp, by simp⟩
    rw [List.length_append, List.length_singleton]
    by_contra beyond
    exact goes.2 (if_neg beyond)

variable (db runId) in
/-- From a refresh on, while the logs of the run stay: once no fetch is in flight, the
    pages are exact. -/
structure Settles (s : LogsView) (ls : List JobLog) : Prop where
  fetching : Fetching db runId s ls
  exact : s.fetch = none → Exact db runId s

theorem Steady.fetched (steady : Steady db runId ls f) (same : rows db runId s.table = ls) :
    Settles db runId { s with fetch := some f } ls where
  fetching := ⟨same, fun f' flight => Option.some.inj flight ▸ steady⟩
  exact ended := by cases ended

/-- What is in flight does not change what is shown. -/
theorem Exact.setFetch (shown : Exact db runId s) (fetch : Option LogsFetch) : Exact db runId { s with fetch } :=
  ⟨shown.loaded, shown.pages⟩

theorem Settles.refresh (settles : Settles db runId s ls) (enabled : step db runId s .refresh = some s') :
    Settles db runId s' ls ∧ (Exact db runId s → Exact db runId s') := by
  rw [LogsView.step] at enabled
  split at enabled
  · obtain rfl := Option.some.inj enabled
    exact ⟨settles, id⟩
  · obtain rfl := Option.some.inj enabled
    exact ⟨(steady_start ls _).fetched settles.fetching.table, fun shown => shown.setFetch _⟩

theorem Settles.fetchNextPage (settles : Settles db runId s ls) (shown : Exact db runId s)
    (enabled : step db runId s .fetchNextPage = some s') :
    Settles db runId s' ls ∧ Exact db runId s' := by
  obtain ⟨next, enabled⟩ := Option.ite_none_right_eq_some.mp enabled
  obtain rfl := Option.some.inj enabled
  have first : FirstPages ls s.pages := settles.fetching.table ▸ shown.pages
  have steady : Steady db runId ls { pages := s.pages, remaining := 1 } :=
    ⟨first, .inr ((first.hasNextPage_iff shown.loaded).mp next), by simp, by simp⟩
  exact ⟨steady.fetched settles.fetching.table, shown.setFetch _⟩

theorem Settles.selectLogs (settles : Settles db runId s ls) (enabled : step db runId s .selectLogs = some s') :
    Settles db runId s' ls ∧ (Exact db runId s → Exact db runId s') := by
  obtain ⟨f, flight, enabled⟩ := Option.bind_eq_some_iff.mp enabled
  obtain ⟨-, enabled⟩ := Option.ite_none_right_eq_some.mp enabled
  obtain rfl := Option.some.inj enabled
  have same := settles.fetching.table
  have steady : Steady db runId ls { f with logsTable := some s.table } :=
    { settles.fetching.fetch f flight with logsTable := by simpa using same }
  exact ⟨steady.fetched same, fun shown => shown.setFetch _⟩

theorem Settles.selectCount (settles : Settles db runId s ls) (enabled : step db runId s .selectCount = some s') :
    Settles db runId s' ls ∧ (Exact db runId s → Exact db runId s') := by
  obtain ⟨f, flight, enabled⟩ := Option.bind_eq_some_iff.mp enabled
  obtain ⟨-, enabled⟩ := Option.ite_none_right_eq_some.mp enabled
  obtain rfl := Option.some.inj enabled
  have same := settles.fetching.table
  have steady : Steady db runId ls { f with countTable := some s.table } :=
    { settles.fetching.fetch f flight with countTable := by simpa using same }
  exact ⟨steady.fetched same, fun shown => shown.setFetch _⟩

/-- A fetch that goes on leaves the pages on screen alone. -/
theorem respond_goesOn {page : ListJobLogsOutput} {f' : LogsFetch} (flight : (s.respond f page).fetch = some f') :
    s.respond f page = { s with fetch := some f' } := by
  unfold LogsView.respond at flight ⊢
  dsimp only at flight ⊢
  split at flight
  · cases flight
  · rename_i goes
    rw [if_neg goes, ← flight]

theorem Settles.respond (settles : Settles db runId s ls) (enabled : step db runId s .respond = some s') :
    Settles db runId s' ls ∧ (Exact db runId s → Exact db runId s') := by
  obtain ⟨f, flight, enabled⟩ := Option.bind_eq_some_iff.mp enabled
  obtain ⟨logsTable, readLogs, enabled⟩ := Option.bind_eq_some_iff.mp enabled
  obtain ⟨countTable, readCount, enabled⟩ := Option.map_eq_some_iff.mp enabled
  have steady := settles.fetching.fetch f flight
  rw [request_answered (steady.logsTable _ readLogs) (steady.countTable _ readCount)] at enabled
  obtain rfl : s.respond f (logsPage ls 100 f.pages.length) = s' := enabled
  obtain ⟨fetching, ends⟩ := steady.respond settles.fetching.table
  refine ⟨⟨fetching, ends⟩, fun shown => ?_⟩
  cases onward : (s.respond f (logsPage ls 100 f.pages.length)).fetch with
  | none => exact ends onward
  | some f' => exact respond_goesOn onward ▸ shown.setFetch _

/-- One step while the logs of the run stay. Only exact pages are gone on from or left
    as they are after a failure. -/
theorem Settles.step {a : LogsViewAction} (settles : Settles db runId s ls) (keeps : Keeps db runId ls a)
    (calm : a = .fetchNextPage ∨ a = .fail → Exact db runId s) (enabled : step db runId s a = some s') :
    Settles db runId s' ls ∧ (Exact db runId s → Exact db runId s') := by
  cases a with
  | write table =>
      obtain ⟨⟨same, steady⟩, exactly⟩ := settles
      obtain rfl := Option.some.inj enabled
      have kept := keeps table rfl
      have shown : Exact db runId s → Exact db runId { s with table } :=
        fun shown => ⟨shown.loaded, kept ▸ same ▸ shown.pages⟩
      exact ⟨⟨⟨kept, steady⟩, fun ended => shown (exactly ended)⟩, shown⟩
  | refresh => exact settles.refresh enabled
  | fetchNextPage => exact (settles.fetchNextPage (calm (.inl rfl)) enabled).imp_right fun shown _ => shown
  | selectLogs => exact settles.selectLogs enabled
  | selectCount => exact settles.selectCount enabled
  | respond => exact settles.respond enabled
  | fail =>
      have shown := calm (.inr rfl)
      obtain ⟨f, -, rfl⟩ := Option.map_eq_some_iff.mp enabled
      exact ⟨⟨⟨settles.fetching.table, by simp⟩, fun _ => shown.setFetch _⟩, fun _ => shown.setFetch _⟩

/-! ## Whole runs -/

theorem Settles.carried {ts : List (Machine.Transition LogsView LogsViewAction)} (settles : Settles db runId s ls)
    (run : Machine.Run (LogsView.step db runId) s ts s') (carry : ∀ x ∈ ts, Carries db runId ls x.act) :
    Settles db runId s' ls := by
  refine run.guarded (I := fun s => Settles db runId s ls) (G := fun _ a => Carries db runId ls a) ?_ settles carry s'
    run.last_mem
  intro s a s' settles ⟨keeps, scrolls, fails⟩ enabled
  refine (settles.step keeps ?_ enabled).1
  rintro (next | fails')
  · exact absurd next scrolls
  · exact absurd fails' fails

/-- Exact pages stay exact while the logs of the run stay, whatever is fetched or fails. -/
theorem Settles.stays {ts : List (Machine.Transition LogsView LogsViewAction)} (settles : Settles db runId s ls)
    (exactly : Exact db runId s) (run : Machine.Run (LogsView.step db runId) s ts s')
    (keeps : ∀ x ∈ ts, Keeps db runId ls x.act) : Settles db runId s' ls ∧ Exact db runId s' := by
  refine run.guarded (I := fun s => Settles db runId s ls ∧ Exact db runId s)
    (G := fun _ a => Keeps db runId ls a) ?_ ⟨settles, exactly⟩ keeps s' run.last_mem
  intro s a s' ⟨settles, shown⟩ keeps enabled
  obtain ⟨settles', kept⟩ := settles.step keeps (fun _ => shown) enabled
  exact ⟨settles', kept shown⟩

/-! ### A fetch carried to its end -/

def Requests (a : LogsViewAction) : Prop := a = .selectLogs ∨ a = .selectCount ∨ a = .respond

theorem Requests.carries {a : LogsViewAction} (requests : Requests a) : Carries db runId ls a := by
  rcases requests with rfl | rfl | rfl <;> simp [Carries, Keeps]

/-- The first statement of a request, unless it has been made. -/
theorem selectLogs_made (flight : s.fetch = some f) (same : rows db runId s.table = ls)
    (made : ∀ read ∈ f.logsTable, rows db runId read = ls) :
    ∃ ts read, rows db runId read = ls ∧
      Machine.Run (LogsView.step db runId) s ts { s with fetch := some { f with logsTable := some read } } ∧
      ∀ x ∈ ts, Requests x.act := by
  cases found : f.logsTable with
  | none =>
      refine ⟨_, s.table, same, .next (a := .selectLogs) ?_ (.done _), by simp [Requests]⟩
      simp [LogsView.step, flight, found]
  | some read =>
      refine ⟨[], read, made read found, ?_, by simp⟩
      rw [← found, ← flight]
      exact .done s

theorem selectCount_made (flight : s.fetch = some f) (same : rows db runId s.table = ls)
    (made : ∀ read ∈ f.countTable, rows db runId read = ls) :
    ∃ ts read, rows db runId read = ls ∧
      Machine.Run (LogsView.step db runId) s ts { s with fetch := some { f with countTable := some read } } ∧
      ∀ x ∈ ts, Requests x.act := by
  cases found : f.countTable with
  | none =>
      refine ⟨_, s.table, same, .next (a := .selectCount) ?_ (.done _), by simp [Requests]⟩
      simp [LogsView.step, flight, found]
  | some read =>
      refine ⟨[], read, made read found, ?_, by simp⟩
      rw [← found, ← flight]
      exact .done s

theorem Settles.request (settles : Settles db runId s ls) (flight : s.fetch = some f) :
    ∃ ts, Machine.Run (LogsView.step db runId) s ts (s.respond f (logsPage ls 100 f.pages.length)) ∧
      ∀ x ∈ ts, Requests x.act := by
  have steady := settles.fetching.fetch f flight
  obtain ⟨ts, logsTable, foundLogs, first, requests⟩ := selectLogs_made flight settles.fetching.table steady.logsTable
  obtain ⟨us, countTable, foundCount, second, requests'⟩ := selectCount_made
    (s := { s with fetch := some { f with logsTable := some logsTable } }) rfl settles.fetching.table steady.countTable
  have answered : LogsView.step db runId
      { s with fetch := some { f with logsTable := some logsTable, countTable := some countTable } } .respond =
      some (s.respond f (logsPage ls 100 f.pages.length)) := by
    simp only [LogsView.step, Option.bind_some, Option.map_some, request_answered foundLogs foundCount]
    rfl
  refine ⟨ts ++ us ++ [⟨_, .respond, _⟩], (first.append second).append (.next answered (.done _)), ?_⟩
  simp only [List.mem_append, List.mem_singleton]
  rintro x ((early | later) | rfl)
  · exact requests x early
  · exact requests' x later
  · exact .inr (.inr rfl)

/-- A fetch over the same logs can be carried to its end: each request but the last
    leaves fewer. -/
theorem Settles.finishes (settles : Settles db runId s ls) :
    ∃ ts u, Machine.Run (LogsView.step db runId) s ts u ∧ (∀ x ∈ ts, Requests x.act) ∧ u.fetch = none := by
  cases flight : s.fetch with
  | none => exact ⟨[], s, .done s, by simp, flight⟩
  | some f =>
      obtain ⟨n, few⟩ : ∃ n, f.remaining ≤ n := ⟨f.remaining, le_rfl⟩
      induction n generalizing s f with
      | zero =>
          obtain ⟨ts, run, requests⟩ := settles.request flight
          refine ⟨ts, _, run, requests, ?_⟩
          rw [LogsView.respond, if_pos (.inl (few.trans (Nat.zero_le 1)))]
      | succ n ih =>
          obtain ⟨ts, run, requests⟩ := settles.request flight
          cases goes : (s.respond f (logsPage ls 100 f.pages.length)).fetch with
          | none => exact ⟨ts, _, run, requests, goes⟩
          | some f' =>
              have less : f'.remaining ≤ n := by
                unfold LogsView.respond at goes
                dsimp only at goes
                split at goes
                · cases goes
                · obtain rfl := Option.some.inj goes
                  exact Nat.sub_le_of_le_add few
              have settles' := settles.carried run fun x hx => (requests x hx).carries
              obtain ⟨us, u, run', requests', done⟩ := ih settles' f' goes less
              refine ⟨ts ++ us, u, run.append run', ?_, done⟩
              exact fun x hx => (List.mem_append.mp hx).elim (requests x) (requests' x)

/-! ### After a refresh -/

theorem settles_refreshed (anew : s.pages ≠ [] ∨ s.fetch = none)
    (refreshed : LogsView.step db runId s .refresh = some s') : Settles db runId s' (rows db runId s.table) := by
  have restarts : ¬(s.pages = [] ∧ s.fetch.isSome) := by
    rintro ⟨empty, flight⟩
    cases anew with
    | inl loaded => exact loaded empty
    | inr idle => simp [idle] at flight
  rw [LogsView.step, if_neg restarts] at refreshed
  obtain rfl := Option.some.inj refreshed
  exact (steady_start _ _).fetched rfl

theorem Exact.logs_eq (shown : Exact db runId s) : s.logs = (rows db runId s.table).take (100 * s.pages.length) := by
  have pages := congrArg (fun pages => pages.flatMap (·.logs)) shown.pages.1
  rw [pages_flatten] at pages
  rw [LogsView.logs, pages]
  apply List.Pairwise.insertionSort_eq
  refine List.Pairwise.sublist (List.take_sublist _ _) (sortedLogs_strict.imp fun {a b} before => ?_)
  exact (Prod.Lex.le_iff.mp before.le).elim le_of_lt (fun tie => le_of_eq tie.1)

/-- A page opened before its run logged anything. -/
def opened : LogsView where
  table := JobLogsTable.empty.insert
    [{ jobRunId := 7, level := .info, message := "done", ts := 20, logSeq := 1 },
      { jobRunId := 8, level := .info, message := "other", ts := 15, logSeq := 0 },
      { jobRunId := 7, level := .info, message := "begun", ts := 10, logSeq := 0 }]
  pages := [{ logs := [], total := 0 }]

def otherRun : JobLogsTable := opened.table.insert
  [{ jobRunId := 8, level := .info, message := "later", ts := 30, logSeq := 1 }]

end

end LogsView

end BetterBullBoard
