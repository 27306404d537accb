import Std.Data.String.ToNat
import BetterBullBoard.Core.Jobs
import BetterBullBoard.Lib.Base64
import BetterBullBoard.Lib.Json
import BetterBullBoard.Lib.Machine
import BetterBullBoard.Tables.QueuesTable

/-! # Positions in the URL

Both tables keep a cursor in the query string as the Base64 of its JSON text. Here
the queues table has nothing but that text: each press reads it, acts and writes
it. The query string is its decoded parameters, and a parameter that has its
default is left out of it.
-/

namespace BetterBullBoard

/-- `parseAsCursor`, the same in both tables. A text it cannot read, and the text of
    `null`, count as no cursor. -/
def parseAsCursor.parse (value : String) : Option Json :=
  ((Base64.toText value).bind Json.parse).bind fun v =>
    match v with
    | .null => none
    | v => some v

def parseAsCursor.serialize (value : Json) : String := Base64.ofText value.stringify

theorem parseAsCursor.parse_serialize {value : Json} (distinct : value.Distinct) (notNull : value ≠ .null) :
    parse (serialize value) = some value := by
  rw [parse, serialize, Base64.toText_ofText, Option.bind_some, Json.parse_stringify distinct, Option.bind_some]
  cases value <;> simp_all

/-! ## The cursors -/

/-- The text that `listQueues` returns of a cursor has its keys in this order; an
    absent one is left out. -/
def QueueCursor.toJson (c : QueueCursor) : Json :=
  .object ([("waitingJobs", .number c.waitingJobs)] ++ (c.activeJobs.map fun n => ("activeJobs", .number n)).toList ++
    (c.pressure.map fun n => ("pressure", .number n)).toList ++ [("name", .string c.name)])

/-- The cursor of the schema of the route, none where it refuses. -/
def QueueCursor.ofJson (v : Json) : Option QueueCursor := do
  let waitingJobs ← (v.property "waitingJobs").bind Json.asNumber
  let activeJobs ← v.optionalProperty "activeJobs" Json.asNumber
  let pressure ← v.optionalProperty "pressure" Json.asNumber
  let name ← (v.property "name").bind Json.asString
  some { waitingJobs, activeJobs, pressure, name }

theorem QueueCursor.ofJson_toJson (c : QueueCursor) : ofJson c.toJson = some c := by
  obtain ⟨waitingJobs, activeJobs, pressure, name⟩ := c
  cases activeJobs <;> cases pressure <;>
    simp [toJson, ofJson, Json.property, Json.optionalProperty, JsMap.get, Json.asNumber, Json.asString]

theorem QueueCursor.toJson_distinct (c : QueueCursor) : c.toJson.Distinct := by
  obtain ⟨waitingJobs, activeJobs, pressure, name⟩ := c
  cases activeJobs <;> cases pressure <;> simp [toJson, Json.Distinct, Json.PropertiesDistinct]

section

variable (uuid : Nat → String) (ofUuid : String → Option Nat)

/-- `uuid` is the text of an id. -/
def JobCursor.toJson (c : JobCursor) : Json :=
  .object [("createdAt", .number c.createdAt), ("jobId", .string c.jobId), ("id", .string (uuid c.id)),
    ("durationMs", .ofOption .number c.durationMs)]

def JobCursor.ofJson (v : Json) : Option JobCursor := do
  let createdAt ← (v.property "createdAt").bind Json.asNumber
  let jobId ← (v.property "jobId").bind Json.asString
  let id ← ((v.property "id").bind Json.asString).bind ofUuid
  let durationMs ← v.optionalProperty "durationMs" (Json.nullable Json.asNumber)
  some { createdAt, jobId, id, durationMs := durationMs.join }

variable {uuid ofUuid}

/-- Whatever text a job id or a queue name is, the cursor in the URL is read back. -/
theorem cursors_read_back (texts : ∀ id, ofUuid (uuid id) = some id) :
    (∀ c : JobCursor, (parseAsCursor.parse (parseAsCursor.serialize (c.toJson uuid))).bind (JobCursor.ofJson ofUuid) =
      some c) ∧
    ∀ c : QueueCursor, (parseAsCursor.parse (parseAsCursor.serialize c.toJson)).bind QueueCursor.ofJson = some c := by
  constructor
  · intro c
    have distinct : (c.toJson uuid).Distinct := by
      cases given : c.durationMs <;>
        simp [JobCursor.toJson, Json.ofOption, given, Json.Distinct, Json.PropertiesDistinct]
    rw [parseAsCursor.parse_serialize distinct (by simp [JobCursor.toJson]), Option.bind_some]
    obtain ⟨createdAt, jobId, id, durationMs⟩ := c
    cases durationMs <;>
      simp [JobCursor.toJson, JobCursor.ofJson, Json.property, Json.optionalProperty, Json.nullable, Json.ofOption,
        JsMap.get, Json.asNumber, Json.asString, texts]
  · intro c
    rw [parseAsCursor.parse_serialize c.toJson_distinct (by simp [QueueCursor.toJson]), Option.bind_some,
      QueueCursor.ofJson_toJson]

theorem cursors_read_back_quoted :
    (parseAsCursor.parse (parseAsCursor.serialize (JobCursor.toJson Nat.repr ⟨-1, "\"é\n", 7, none⟩))).bind
      (JobCursor.ofJson String.toNat?) = some ⟨-1, "\"é\n", 7, none⟩ :=
  (cursors_read_back Nat.toNat?_repr).1 _

end

namespace QueuesView

/-! ## The query string -/

/-- nuqs leaves out a parameter that has its default. -/
def unlessDefault (value withDefault : String) : Option String := if value = withDefault then none else some value

def given (v : QueuesView) : List (String × Option String) :=
  [("search", unlessDefault v.search ""), ("timePeriod", unlessDefault v.timePeriod "1"),
    ("cursor", v.cursor.map fun c => parseAsCursor.serialize c.toJson),
    ("cursorDirection", unlessDefault v.cursorDirection "next"), ("sortBy", unlessDefault v.sortBy "waitingJobs"),
    ("sortDirection", unlessDefault v.sortDirection "desc")]

def toSearchParams (v : QueuesView) : List (String × String) := v.given.filterMap fun p => p.2.map (p.1, ·)

/-- The cursor of a text, none where the schema of the route refuses it. -/
def readCursor (text : Option String) : Option (Option QueueCursor) :=
  match text.bind parseAsCursor.parse with
  | none => some none
  | some v => (QueueCursor.ofJson v).map some

/-- None where a request with the cursor is refused. -/
def ofSearchParams (params : List (String × String)) : Option QueuesView :=
  let text (key withDefault : String) : String := (JsMap.get key params).getD withDefault
  (readCursor (JsMap.get "cursor" params)).map fun cursor => {
    search := text "search" ""
    timePeriod := text "timePeriod" "1"
    cursor
    cursorDirection := text "cursorDirection" "next"
    sortBy := text "sortBy" "waitingJobs"
    sortDirection := text "sortDirection" "desc" }

theorem readCursor_serialize (cursor : Option QueueCursor) :
    readCursor (cursor.map fun c => parseAsCursor.serialize c.toJson) = some cursor := by
  cases cursor with
  | none => rfl
  | some c =>
      have read := parseAsCursor.parse_serialize c.toJson_distinct (by simp [QueueCursor.toJson])
      rw [readCursor, Option.map_some, Option.bind_some, read]
      simp only [QueueCursor.ofJson_toJson, Option.map_some]

@[simp] theorem getD_unlessDefault (value withDefault : String) :
    (unlessDefault value withDefault).getD withDefault = value := by
  rw [unlessDefault]
  split <;> simp_all

/-- What a view writes, a reload reads. -/
theorem ofSearchParams_toSearchParams (v : QueuesView) : ofSearchParams v.toSearchParams = some v := by
  have distinct : (v.given.map Prod.fst).Nodup := by simp [given]
  have texts (key : String) := JsMap.get_given distinct key
  simp only [ofSearchParams, toSearchParams, texts]
  simp [given, JsMap.get, readCursor_serialize]

/-! ## The table on its URL alone -/

variable {J κ : Type} [LinearOrder κ] (db : Database κ) (t : QueueTables J)

/-- A press on the page that this URL opens. -/
def urlStep (params : List (String × String)) (a : QueuesAction) : Option (List (String × String)) :=
  (ofSearchParams params).bind fun v => (step db t v a).map toSearchParams

variable {db t} {h : Int}

/-- A press leads from the view that is read to the view that will be read. -/
theorem urlStep_some {params params' : List (String × String)} {a : QueuesAction}
    (pressed : urlStep db t params a = some params') :
    ∃ v v', ofSearchParams params = some v ∧ step db t v a = some v' ∧ ofSearchParams params' = some v' := by
  obtain ⟨v, read, moved⟩ := Option.bind_eq_some_iff.mp pressed
  obtain ⟨v', stepped, rfl⟩ := Option.map_eq_some_iff.mp moved
  exact ⟨v, v', read, stepped, ofSearchParams_toSearchParams v'⟩

/-- A run of the view is a run on its URLs. -/
theorem run_urls {v v' : QueuesView} {ts : List (Machine.Transition QueuesView QueuesAction)}
    (run : Machine.Run (step db t) v ts v') :
    Machine.Run (urlStep db t) v.toSearchParams
      (ts.map fun x => ⟨x.pre.toSearchParams, x.act, x.post.toSearchParams⟩) v'.toSearchParams := by
  induction run with
  | done v => exact .done _
  | next pressed _ ih =>
      refine .next ?_ ih
      rw [urlStep, ofSearchParams_toSearchParams, Option.bind_some, pressed, Option.map_some]

theorem urls_show {params params' : List (String × String)} {presses : List QueuesPress} {v : QueuesView}
    {ts : List (Machine.Transition (List (String × String)) QueuesAction)}
    (run : Machine.Run (urlStep db t) params ts params') (opened : ofSearchParams params = some v)
    (shown : Shows db t h (position presses) v)
    (steady : ∀ x ∈ ts, ∀ v ∈ ofSearchParams x.pre, Steady h v x.act.clock) :
    ∃ v', ofSearchParams params' = some v' ∧ Shows db t h (position (presses ++ ts.map (·.act.press))) v' := by
  induction run generalizing presses v with
  | done => exact ⟨v, opened, by simpa using shown⟩
  | @next s a s' ts s'' pressed rest ih =>
      simp only [List.forall_mem_cons] at steady
      obtain ⟨v₁, v₂, read, stepped, read'⟩ := urlStep_some pressed
      obtain rfl := Option.some.inj (read.symm.trans opened)
      have first := shows_step shown (steady.1 v₁ read) stepped
      rw [← position_append] at first
      simpa using ih read' first steady.2

/-- From a URL without a cursor, whatever enabled buttons are pressed and however
    often the page is opened again, the URL opens the page that the presses count. -/
theorem urls_turn_pages {params params' : List (String × String)} {v : QueuesView} {clock : RequestClock}
    {ts : List (Machine.Transition (List (String × String)) QueuesAction)}
    (run : Machine.Run (urlStep db t) params ts params') (opened : ofSearchParams params = some v) (fresh : Fresh v)
    (steady : ∀ x ∈ ts, ∀ v ∈ ofSearchParams x.pre, Steady h v x.act.clock) :
    ∃ v', ofSearchParams params' = some v' ∧ (Steady h v' clock → (timePeriodDays v'.timePeriod).isSome →
      OnScreen db t (position (ts.map (·.act.press))) v' clock) := by
  have started : Shows db t h (position []) v := fresh.shows h
  obtain ⟨v', read, shown⟩ := urls_show run opened started steady
  exact ⟨v', read, fun now accepted => shown.onScreen now accepted⟩

/-- Twenty-two queues without runs. -/
def twentyTwoQueues : QueueTables Unit where
  db := {
    queues := (List.range 22).map fun id => { name := toString id, id, defaultJobOptions := .null, isPaused := false }
    jobSchedulers := []
    nextId := 22
    ids := by decide +kernel
    below := by decide +kernel
    names := by decide +kernel
    keys := List.nodup_nil
    texts := texts_nil
    references := by simp }
  runs := .empty
  stats := .empty
  countable := Nat.two_pow_pos 31
  safe := fun _ h => absurd h List.not_mem_nil

/-- Next, Previous, another order, Next; the last request is in the hour of the first. -/
def turnedPages : List QueuesAction :=
  [⟨.next, ⟨0, 1⟩⟩, ⟨.prev, ⟨2, 3⟩⟩, ⟨.sort .pressure, ⟨4, 4⟩⟩, ⟨.next, ⟨5, 7⟩⟩]

theorem turned_performed : (Machine.perform (step plainDatabase twentyTwoQueues) {} turnedPages).any
    (fun r => r.1.map (·.act) = turnedPages && (timePeriodDays r.2.timePeriod).isSome) = true := by
  decide +kernel

theorem turned_shown : ∃ ts params v, Machine.Run (urlStep plainDatabase twentyTwoQueues) [] ts params ∧
    ts.map (·.act) = turnedPages ∧ ofSearchParams params = some v ∧
      OnScreen plainDatabase twentyTwoQueues 1 v ⟨8, 9⟩ := by
  obtain ⟨ts, v, run, read⟩ := Machine.run_of_perform turned_performed
  simp only [Bool.and_eq_true, decide_eq_true_eq] at read
  have opened : ofSearchParams [] = some {} := rfl
  have urls := run_urls run
  have acts : (ts.map fun x => (⟨x.pre.toSearchParams, x.act, x.post.toSearchParams⟩ :
      Machine.Transition (List (String × String)) QueuesAction)).map (·.act) = turnedPages := by
    rw [← read.1, List.map_map]
    rfl
  generalize ts.map (fun x => (⟨x.pre.toSearchParams, x.act, x.post.toSearchParams⟩ :
    Machine.Transition (List (String × String)) QueuesAction)) = us at urls acts
  have presses : position (us.map (·.act.press)) = 1 := by
    have pressed := congrArg (List.map QueuesAction.press) acts
    rw [List.map_map] at pressed
    exact (congrArg position pressed).trans (by decide)
  have clocks : ∀ a ∈ turnedPages, a.clock.InHour 0 := by simp [turnedPages, RequestClock.InHour, hourStart, hour]
  have reloaded : ∃ v', ofSearchParams v.toSearchParams = some v' ∧ (Steady 0 v' ⟨8, 9⟩ →
      (timePeriodDays v'.timePeriod).isSome →
      OnScreen plainDatabase twentyTwoQueues (position (us.map (·.act.press))) v' ⟨8, 9⟩) :=
    urls_turn_pages urls opened ⟨rfl, by decide⟩ fun x hx _ _ _ => clocks _ (acts ▸ List.mem_map_of_mem hx)
  obtain ⟨v', opens, shown⟩ := reloaded
  obtain rfl := Option.some.inj ((ofSearchParams_toSearchParams v).symm.trans opens)
  exact ⟨us, _, v, urls, acts, opens, presses ▸ shown (fun _ => ⟨rfl, rfl⟩) read.2⟩

end QueuesView

end BetterBullBoard
