import BetterBullBoard.Lib.DateText

/-! # The bounds of a created-at filter

`packages/core/src/jobs.ts`: the filters on the creation time of a run are
texts. A text without a time gets a fallback time, a text without a zone is
completed with `Z`, and an upper bound is moved to the end of its minute when
the text ends with hours and minutes.
-/

namespace CreatedBoundary

open DateText

/-! ## The two regular expressions -/

def isDigit (c : Char) : Bool := (digitValue c).isSome
def isSign (c : Char) : Bool := c = '+' || c = '-'

def startsWith : List (Char → Bool) → List Char → Bool
  | [], _ => true
  | _ :: _, [] => false
  | test :: tests, c :: text => test c && startsWith tests text

/-- A regular expression for single characters, before `$`. -/
def endsWith (tests : List (Char → Bool)) (text : List Char) : Bool := startsWith tests.reverse text.reverse

/-- `/(?:Z|[+-]\d{2}:?\d{2})$/i` -/
def hasTimezone (text : List Char) : Bool :=
  endsWith [fun c => c = 'Z' || c = 'z'] text ||
    endsWith [isSign, isDigit, isDigit, (· = ':'), isDigit, isDigit] text ||
      endsWith [isSign, isDigit, isDigit, isDigit, isDigit] text

/-- `/T\d{2}:\d{2}$/` -/
def endsWithMinutes (text : List Char) : Bool :=
  endsWith [(· = 'T'), isDigit, isDigit, (· = ':'), isDigit, isDigit] text

/-- `setSeconds` of a date; zones differ from UTC by whole minutes. -/
def setSeconds (time seconds ms : Int) : Int := time / 60000 * 60000 + seconds * 1000 + ms

/-- `none` stands for an invalid date. -/
def parseCreatedBoundary (fallbackTime : String) (isUpperBoundary : Bool) (value : String) : Option Int :=
  let text := value.toList
  let valueWithTime := if text.contains 'T' then text else text ++ 'T' :: fallbackTime.toList
  let date := parse (if hasTimezone valueWithTime then valueWithTime else valueWithTime ++ ['Z'])
  if isUpperBoundary && endsWithMinutes text then date.map (setSeconds · 59 999) else date

/-- The bound `listJobs` takes from `createdTo`. -/
def createdToBoundary (createdTo : String) : Option Int := parseCreatedBoundary "23:59:59.999" true createdTo

def createdFromBoundary (createdFrom : String) : Option Int := parseCreatedBoundary "00:00" false createdFrom

/-! ## The texts the filter takes -/

/-- A date, perhaps with a time in minutes or in seconds, perhaps with a zone. -/
structure CreatedText where
  day : CalendarDay
  time : Option Time
  zone : Option Zone
  no_ms : ∀ t ∈ time, ∀ seconds ms, t.seconds ≠ .exact seconds ms

namespace CreatedText

variable (v : CreatedText)

def text : List Char :=
  v.day.text ++ (v.time.elim [] ('T' :: ·.text) ++ v.zone.elim [] Zone.text)

def value : String := String.ofList v.text

/-- The first millisecond a text names. -/
def start : Int := v.day.start + v.time.elim 0 Time.ms - v.zone.elim 0 Zone.minutes * 60000

/-- How long the day, the minute or the second is. -/
def span : Int :=
  match v.time with
  | none => 86400000
  | some t => if t.seconds = .left_out then 60000 else 1000

def last : Int := v.start + v.span - 1

/-- The forms an upper bound reaches the end of: a date, and hours and minutes, without a zone. -/
def extended : Bool := v.zone.isNone && v.time.all (·.seconds = .left_out)

end CreatedText

/-! ## What the expressions see -/

@[simp] theorem isDigit_digit (n : Nat) : isDigit (digit n) = true := by rw [isDigit, digitValue_digit]; rfl

@[simp] theorem startsWith_cons (test : Char → Bool) (tests c text) :
    startsWith (test :: tests) (c :: text) = (test c && startsWith tests text) := rfl

@[simp] theorem startsWith_nil (text : List Char) : startsWith [] text = true := by cases text <;> rfl

theorem hasTimezone_zone (before : List Char) (z : Zone) : hasTimezone (before ++ z.text) = true := by
  cases z with
  | utc small => cases small <;> simp [hasTimezone, endsWith, Zone.text]
  | offset negative colon hours minutes =>
      cases negative <;> cases colon <;> simp [hasTimezone, endsWith, Zone.text, two, isSign]

theorem no_minutes_zone (before : List Char) (z : Zone) : endsWithMinutes (before ++ z.text) = false := by
  cases z with
  | utc small => cases small <;> simp [endsWithMinutes, endsWith, Zone.text, isDigit, digitValue]
  | offset negative colon hours minutes =>
      have noColon := fun n => digit_ne (c := ':') (by decide) n
      cases negative <;> cases colon <;> simp [endsWithMinutes, endsWith, Zone.text, two, noColon]

theorem no_zone_time {t : Time} (no_ms : ∀ seconds ms, t.seconds ≠ .exact seconds ms) (before : List Char) :
    hasTimezone (before ++ 'T' :: t.text) = false := by
  have noZ := fun n => digit_ne (c := 'Z') (by decide) n
  have noz := fun n => digit_ne (c := 'z') (by decide) n
  cases seconds : t.seconds with
  | left_out =>
      simp [hasTimezone, endsWith, Time.text, seconds, Seconds.text, two, noZ, noz, isSign, isDigit, digitValue]
  | whole s =>
      simp [hasTimezone, endsWith, Time.text, seconds, Seconds.text, two, noZ, noz, isSign, isDigit, digitValue]
  | exact s ms => exact (no_ms s ms seconds).elim

theorem endsWithMinutes_time {t : Time} (no_ms : ∀ seconds ms, t.seconds ≠ .exact seconds ms) (before : List Char) :
    endsWithMinutes (before ++ 'T' :: t.text) = decide (t.seconds = .left_out) := by
  have noT := fun n => digit_ne (c := 'T') (by decide) n
  cases seconds : t.seconds with
  | left_out => simp [endsWithMinutes, endsWith, Time.text, seconds, Seconds.text, two]
  | whole s => simp [endsWithMinutes, endsWith, Time.text, seconds, Seconds.text, two]
  | exact s ms => exact (no_ms s ms seconds).elim

theorem no_T_day (d : CalendarDay) : 'T' ∉ d.text := by
  have noT := fun n => (digit_ne (c := 'T') (by decide) n).symm
  simp [CalendarDay.text, four, two, noT]

theorem no_T_zone (z : Zone) : 'T' ∉ z.text := by
  have noT := fun n => (digit_ne (c := 'T') (by decide) n).symm
  cases z with
  | utc small => cases small <;> simp [Zone.text]
  | offset negative colon hours minutes => cases negative <;> cases colon <;> simp [Zone.text, two, noT]

/-! ## The dates -/

/-- The fallback time of an upper bound. -/
def endOfDay : Time := ⟨23, 59, .exact 59 999, by decide, by decide⟩

theorem fallback_text : "23:59:59.999".toList = endOfDay.text := by decide

theorem no_zone_fallback (before : List Char) : hasTimezone (before ++ 'T' :: endOfDay.text) = false := by
  simp [hasTimezone, endsWith, Time.text, endOfDay, Seconds.text, two, three, digit, isSign, isDigit, digitValue]

/-- After the day the parser wants a time. -/
theorem parse_day {d : CalendarDay} {text : List Char} (h : text.head? ≠ some 'T') : parse (d.text ++ text) = none := by
  have noT : expect 'T' text = none := by
    cases text with
    | nil => rfl
    | cons c text => exact if_neg (by simpa using h)
  simp only [parse, CalendarDay.text, List.append_assoc, List.cons_append, digits_four d.four_digits,
    digits_two d.month_lt, digits_two d.day_lt, expect_cons, noT, Option.bind_eq_bind, Option.bind_some,
    Option.bind_none]

variable {v : CreatedText}

theorem toList_value : v.value.toList = v.text := String.toList_ofList

theorem text_day (time : v.time = none) : v.text = v.day.text ++ v.zone.elim [] Zone.text := by
  simp [CreatedText.text, time]

section Fallback

variable {fallbackTime : String} {fallback : Time}

/-- The fallback time comes behind the whole text. -/
theorem without_time (isTime : fallbackTime.toList = fallback.text) (upper : Bool) (time : v.time = none) :
    parseCreatedBoundary fallbackTime upper v.value =
      parse (if hasTimezone (v.text ++ 'T' :: fallback.text) then v.text ++ 'T' :: fallback.text
        else (v.text ++ 'T' :: fallback.text) ++ ['Z']) := by
  have text := text_day time
  have noT : v.text.contains 'T' = false := by
    cases zone : v.zone <;> simp [text, zone, no_T_day, no_T_zone]
  have noMinutes : endsWithMinutes v.text = false := by
    rw [text]
    cases v.zone with
    | none => simp [endsWithMinutes, endsWith, CalendarDay.text, two, four, isDigit, digitValue]
    | some z => exact no_minutes_zone _ _
  simp only [parseCreatedBoundary, toList_value, noT, noMinutes, isTime, Bool.and_false, Bool.false_eq_true, if_false]

/-- A date with a zone is no date for the parser. -/
theorem day_with_zone (isTime : fallbackTime.toList = fallback.text) (upper : Bool) (time : v.time = none) {z : Zone}
    (zone : v.zone = some z) : parseCreatedBoundary fallbackTime upper v.value = none := by
  have unread : ∀ behind, parse (v.day.text ++ (z.text ++ behind)) = none := by
    intro behind
    refine parse_day ?_
    cases z with
    | utc small => cases small <;> simp [Zone.text]
    | offset negative => cases negative <;> simp [Zone.text]
  rw [without_time isTime upper time, text_day time, zone]
  simp only [Option.elim_some, List.append_assoc]
  split <;> exact unread _

theorem day_without_zone (isTime : fallbackTime.toList = fallback.text) (upper : Bool)
    (noZone : ∀ before, hasTimezone (before ++ 'T' :: fallback.text) = false) (time : v.time = none)
    (zone : v.zone = none) : parseCreatedBoundary fallbackTime upper v.value = some (v.start + fallback.ms) := by
  have text : v.text = v.day.text := by simp [text_day time, zone]
  have date := parse_text v.day fallback (.utc false)
  have sum : v.day.start + fallback.ms - (Zone.utc false).minutes * 60000 = v.start + fallback.ms := by
    simp only [CreatedText.start, time, zone, Option.elim_none, Zone.minutes]
    omega
  rw [without_time isTime upper time, text, noZone, ← sum, ← date]
  simp [Zone.text]

end Fallback

/-- A text with a time is completed with `Z`, unless it has a zone. -/
theorem completed {t : Time} (time : v.time = some t) :
    v.text.contains 'T' = true ∧
      parse (if hasTimezone v.text then v.text else v.text ++ ['Z']) = some v.start := by
  have no_ms := v.no_ms t time
  cases zone : v.zone with
  | none =>
      have text : v.text = v.day.text ++ 'T' :: t.text := by simp [CreatedText.text, time, zone]
      have date := parse_text v.day t (.utc false)
      have noZone : hasTimezone v.text = false := by rw [text]; exact no_zone_time no_ms _
      refine ⟨by simp [text], ?_⟩
      rw [noZone, text]
      simpa [Zone.text, CreatedText.start, time, zone, Zone.minutes] using date
  | some z =>
      have text : v.text = v.day.text ++ 'T' :: (t.text ++ z.text) := by simp [CreatedText.text, time, zone]
      have withZone : hasTimezone v.text = true := by
        have whole := hasTimezone_zone (v.day.text ++ 'T' :: t.text) z
        rwa [text, ← List.cons_append, ← List.append_assoc]
      refine ⟨by simp [text], ?_⟩
      rw [withZone, if_pos rfl, text, parse_text]
      simp [CreatedText.start, time, zone]

theorem endsWithMinutes_text {t : Time} (time : v.time = some t) : endsWithMinutes v.text = v.extended := by
  cases zone : v.zone with
  | none =>
      have text : v.text = v.day.text ++ 'T' :: t.text := by simp [CreatedText.text, time, zone]
      rw [text, endsWithMinutes_time (v.no_ms t time)]
      simp [CreatedText.extended, time, zone]
  | some z =>
      have text : v.text = (v.day.text ++ 'T' :: t.text) ++ z.text := by simp [CreatedText.text, time, zone]
      rw [text, no_minutes_zone]
      simp [CreatedText.extended, zone]

theorem createdTo_time {t : Time} (time : v.time = some t) :
    createdToBoundary v.value = some (if v.extended then v.last else v.start) := by
  have ⟨hasT, date⟩ := completed time
  simp only [createdToBoundary, parseCreatedBoundary, toList_value, hasT, endsWithMinutes_text time, if_true, date,
    Bool.true_and, Option.map_some]
  cases extended : v.extended with
  | false => rfl
  | true =>
      have ⟨zone, minutes⟩ : v.zone = none ∧ t.seconds = .left_out := by
        simpa [CreatedText.extended, time] using extended
      simp [setSeconds, CreatedText.last, CreatedText.span, CreatedText.start, CalendarDay.start, Time.ms, timeMs, time,
        zone, minutes, Seconds.value, Seconds.ms]
      omega

/-! ## Upper bounds -/

/-- Upper bounds reach the end of what a text names exactly for dates and minutes without a zone. -/
theorem createdTo_last : createdToBoundary v.value = some v.last ↔ v.extended = true := by
  cases time : v.time with
  | none =>
      cases zone : v.zone with
      | some z =>
          have invalid : createdToBoundary v.value = none := day_with_zone fallback_text true time zone
          simp [invalid, CreatedText.extended, zone]
      | none =>
          have date : createdToBoundary v.value = some (v.start + endOfDay.ms) :=
            day_without_zone fallback_text true no_zone_fallback time zone
          have last : v.start + endOfDay.ms = v.last := by
            simp only [CreatedText.last, CreatedText.span, time, show endOfDay.ms = 86399999 by rfl]
            omega
          simp [date, last, CreatedText.extended, time, zone]
  | some t =>
      rw [createdTo_time time]
      cases extended : v.extended with
      | true => simp
      | false =>
          have short : v.start ≠ v.last := by
            simp only [CreatedText.last, CreatedText.span, time]
            split <;> omega
          simpa using short

/-- What one text names is over no later than what another names, and begins no later. -/
def CreatedText.NotAfter (a b : CreatedText) : Prop := a.start ≤ b.start ∧ a.last ≤ b.last

/-- The upper bounds of two texts stand in the order of what they name, and each is the last millisecond of it. -/
def LastInOrder (a b : CreatedText) : Prop :=
  (a.NotAfter b → ∃ x y, createdToBoundary a.value = some x ∧ createdToBoundary b.value = some y ∧ x ≤ y) ∧
    createdToBoundary a.value = some a.last ∧ createdToBoundary b.value = some b.last

theorem last_in_order (a b : CreatedText) : LastInOrder a b ↔ a.extended = true ∧ b.extended = true := by
  simp only [LastInOrder, createdTo_last]
  constructor
  · rintro ⟨_, both⟩
    exact both
  · rintro ⟨ha, hb⟩
    refine ⟨?_, ha, hb⟩
    intro notAfter
    exact ⟨a.last, b.last, createdTo_last.mpr ha, createdTo_last.mpr hb, notAfter.2⟩

/-! ## One minute, written twice -/

def fifth : CalendarDay := ⟨2024, 1, 5, by decide, by decide⟩

def halfPastTen (seconds : Seconds) (valid : validTime 10 30 seconds.value seconds.ms = true)
    (in_second : seconds.ms < 1000) : Time := ⟨10, 30, seconds, valid, in_second⟩

def inUtc (zone : Option Zone) : CreatedText :=
  ⟨fifth, some (halfPastTen .left_out (by decide) (by decide)), zone, by simp [halfPastTen]⟩

def toTheSecond : CreatedText :=
  ⟨fifth, some (halfPastTen (.whole 15) (by decide) (by decide)), none, by simp [halfPastTen]⟩

/-- `2024-01-05T10:30` reaches a minute further than `2024-01-05T10:30Z`; `2024-01-05T10:30:15` ends as it begins. -/
theorem same_minute_out_of_order :
    (inUtc none).value = "2024-01-05T10:30" ∧ (inUtc (some (.utc false))).value = "2024-01-05T10:30Z" ∧
      (inUtc none).start = (inUtc (some (.utc false))).start ∧ (inUtc none).last = (inUtc (some (.utc false))).last ∧
      createdToBoundary "2024-01-05T10:30" = some 1704450659999 ∧
      createdToBoundary "2024-01-05T10:30Z" = some 1704450600000 ∧
      toTheSecond.value = "2024-01-05T10:30:15" ∧ toTheSecond.last = 1704450615999 ∧
      createdToBoundary "2024-01-05T10:30:15" = some 1704450615000 ∧
      ¬ LastInOrder (inUtc none) (inUtc (some (.utc false))) ∧ ¬ LastInOrder toTheSecond toTheSecond := by
  refine ⟨by decide +kernel, by decide +kernel, by decide +kernel, by decide +kernel, by decide +kernel,
    by decide +kernel, by decide +kernel, by decide +kernel, by decide +kernel, ?_, ?_⟩
  · rintro ⟨_, _, bound⟩
    exact absurd bound (by decide +kernel)
  · rintro ⟨_, bound, _⟩
    exact absurd bound (by decide +kernel)

end CreatedBoundary
