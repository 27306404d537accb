import Mathlib.Algebra.Order.Ring.Int

/-! # Dates as text

`Date.parse` for the date time string format of the language, as far as it has
a time and a zone: `YYYY-MM-DDTHH:mm`, with seconds and milliseconds or without,
and `Z` or an offset behind it. Times are milliseconds since the epoch.
-/

namespace DateText

/-! ## Digits -/

def digit (n : Nat) : Char := Char.ofNat (48 + n % 10)

def digitValue (c : Char) : Option Nat := if 48 ≤ c.toNat ∧ c.toNat ≤ 57 then some (c.toNat - 48) else none

def two (n : Nat) : List Char := [digit (n / 10), digit n]
def three (n : Nat) : List Char := [digit (n / 100), digit (n / 10), digit n]
def four (n : Nat) : List Char := [digit (n / 1000), digit (n / 100), digit (n / 10), digit n]

/-- Reads so many digits, after a number read already. -/
def digits : Nat → Nat → List Char → Option (Nat × List Char)
  | 0, read, text => some (read, text)
  | _ + 1, _, [] => none
  | count + 1, read, c :: text => (digitValue c).bind fun d => digits count (10 * read + d) text

def expect (c : Char) : List Char → Option (List Char)
  | [] => none
  | d :: text => if d = c then some text else none

theorem digitValue_digit (n : Nat) : digitValue (digit n) = some (n % 10) := by
  have each : ∀ d < 10, digitValue (Char.ofNat (48 + d)) = some d := by decide
  exact each _ (Nat.mod_lt n (by decide))

/-- A character that is no digit. -/
theorem digit_ne {c : Char} (other : digitValue c = none) (n : Nat) : digit n ≠ c := by
  rintro rfl
  rw [digitValue_digit] at other
  cases other

theorem digits_two {n : Nat} (h : n < 100) (rest : List Char) : digits 2 0 (two n ++ rest) = some (n, rest) := by
  simp only [two, List.cons_append, List.nil_append, digits, digitValue_digit, Option.bind_some]
  congr 2
  omega

theorem digits_three {n : Nat} (h : n < 1000) (rest : List Char) :
    digits 3 0 (three n ++ rest) = some (n, rest) := by
  simp only [three, List.cons_append, List.nil_append, digits, digitValue_digit, Option.bind_some]
  congr 2
  omega

theorem digits_four {n : Nat} (h : n < 10000) (rest : List Char) : digits 4 0 (four n ++ rest) = some (n, rest) := by
  simp only [four, List.cons_append, List.nil_append, digits, digitValue_digit, Option.bind_some]
  congr 2
  omega

@[simp] theorem expect_cons (c : Char) (text : List Char) : expect c (c :: text) = some text := if_pos rfl

/-! ## Days -/

def leap (year : Nat) : Bool := year % 4 = 0 && (year % 100 ≠ 0 || year % 400 = 0)

def monthLengths (year : Nat) : List Nat :=
  [31, if leap year then 29 else 28, 31, 30, 31, 30, 31, 31, 30, 31, 30, 31]

def daysIn (year month : Nat) : Nat := (monthLengths year).getD (month - 1) 0

/-- The first day of a year, counted from the epoch. -/
def dayFromYear (year : Int) : Int :=
  365 * (year - 1970) + (year - 1969) / 4 - (year - 1901) / 100 + (year - 1601) / 400

def dayNumber (year month day : Nat) : Int :=
  dayFromYear year + ((monthLengths year).take (month - 1)).sum + day - 1

def validDay (year month day : Nat) : Bool := 1 ≤ month && month ≤ 12 && 1 ≤ day && day ≤ daysIn year month

def validTime (hours minutes seconds ms : Nat) : Bool :=
  (hours < 24 && minutes < 60 && seconds < 60) || (hours = 24 && minutes = 0 && seconds = 0 && ms = 0)

def timeMs (hours minutes seconds ms : Nat) : Int := hours * 3600000 + minutes * 60000 + seconds * 1000 + ms

example : dayNumber 2024 3 1 = 19783 := by decide

/-! ## Parsing -/

/-- Seconds and milliseconds, if there are any. -/
def parseSeconds : List Char → Option (Nat × Nat × List Char)
  | ':' :: text => do
      let (seconds, text) ← digits 2 0 text
      match text with
      | '.' :: text =>
          let (ms, text) ← digits 3 0 text
          return (seconds, ms, text)
      | _ => return (seconds, 0, text)
  | text => some (0, 0, text)

/-- The minutes of an offset; the colon may be left out. -/
def parseOffset (text : List Char) : Option Int := do
  let (hours, text) ← digits 2 0 text
  let (minutes, text) ← digits 2 0 (if text.head? = some ':' then text.tail else text)
  if text = [] ∧ hours < 24 ∧ minutes < 60 then return hours * 60 + minutes else none

def parseZone : List Char → Option Int
  | [] => none
  | c :: text =>
      if c = 'Z' ∨ c = 'z' then (if text = [] then some 0 else none)
      else if c = '+' then parseOffset text
      else if c = '-' then (parseOffset text).map (- ·)
      else none

/-- `Date.parse`; `none` stands for `NaN`, and for a time without a zone, which is local. -/
def parse (text : List Char) : Option Int := do
  let (year, text) ← digits 4 0 text
  let text ← expect '-' text
  let (month, text) ← digits 2 0 text
  let text ← expect '-' text
  let (day, text) ← digits 2 0 text
  let text ← expect 'T' text
  let (hours, text) ← digits 2 0 text
  let text ← expect ':' text
  let (minutes, text) ← digits 2 0 text
  let (seconds, ms, text) ← parseSeconds text
  let offset ← parseZone text
  if validDay year month day && validTime hours minutes seconds ms then
    return dayNumber year month day * 86400000 + timeMs hours minutes seconds ms - offset * 60000
  else none

example : parse "2024-01-05T10:30:15+02:00".toList = some 1704443415000 := by decide +kernel

/-! ## What a text names -/

structure CalendarDay where
  year : Nat
  month : Nat
  day : Nat
  four_digits : year < 10000
  valid : validDay year month day = true

inductive Seconds where
  | left_out
  | whole (seconds : Nat)
  | exact (seconds ms : Nat)
deriving DecidableEq

def Seconds.value : Seconds → Nat
  | .left_out => 0
  | .whole seconds | .exact seconds _ => seconds

def Seconds.ms : Seconds → Nat
  | .left_out | .whole _ => 0
  | .exact _ ms => ms

structure Time where
  hours : Nat
  minutes : Nat
  seconds : Seconds
  valid : validTime hours minutes seconds.value seconds.ms = true
  in_second : seconds.ms < 1000

inductive Zone where
  | utc (small : Bool)
  | offset (negative colon : Bool) (hours : Fin 24) (minutes : Fin 60)

namespace CalendarDay

def text (d : CalendarDay) : List Char := four d.year ++ '-' :: (two d.month ++ '-' :: two d.day)

def start (d : CalendarDay) : Int := dayNumber d.year d.month d.day * 86400000

theorem month_lt (d : CalendarDay) : d.month < 100 := by
  have valid := d.valid
  simp only [validDay, Bool.and_eq_true, decide_eq_true_eq] at valid
  omega

theorem daysIn_le (year month : Nat) : daysIn year month ≤ 31 := by
  have each : ∀ length ∈ monthLengths year, length ≤ 31 := by
    intro length mem
    simp only [monthLengths, List.mem_cons, List.not_mem_nil, or_false] at mem
    split at mem <;> omega
  rw [daysIn, List.getD_eq_getElem?_getD]
  cases h : (monthLengths year)[month - 1]? with
  | none => exact Nat.zero_le _
  | some length => exact each length (List.mem_of_getElem? h)

theorem day_lt (d : CalendarDay) : d.day < 100 := by
  have valid := d.valid
  have := daysIn_le d.year d.month
  simp only [validDay, Bool.and_eq_true, decide_eq_true_eq] at valid
  omega

end CalendarDay

namespace Seconds

def text : Seconds → List Char
  | .left_out => []
  | .whole seconds => ':' :: two seconds
  | .exact seconds ms => ':' :: (two seconds ++ '.' :: three ms)

end Seconds

namespace Time

def text (t : Time) : List Char := two t.hours ++ ':' :: (two t.minutes ++ t.seconds.text)

def ms (t : Time) : Int := timeMs t.hours t.minutes t.seconds.value t.seconds.ms

theorem bounds (t : Time) : t.hours < 100 ∧ t.minutes < 100 ∧ t.seconds.value < 100 := by
  have valid := t.valid
  simp only [validTime, Bool.or_eq_true, Bool.and_eq_true, decide_eq_true_eq] at valid
  omega

end Time

namespace Zone

def text : Zone → List Char
  | .utc small => [if small then 'z' else 'Z']
  | .offset negative colon hours minutes =>
      (if negative then '-' else '+') :: (two hours ++ ((if colon then [':'] else []) ++ two minutes))

/-- Minutes east. -/
def minutes : Zone → Int
  | .utc _ => 0
  | .offset negative _ hours minutes =>
      if negative then -((hours : Nat) * 60 + (minutes : Nat)) else (hours : Nat) * 60 + (minutes : Nat)

end Zone

/-! ## Reading back -/

theorem parseOffset_text (colon : Bool) (hours : Fin 24) (minutes : Fin 60) :
    parseOffset (two hours ++ ((if colon then [':'] else []) ++ two minutes)) =
      some (((hours : Nat) : Int) * 60 + ((minutes : Nat) : Int)) := by
  have inDay := hours.isLt
  have inHour := minutes.isLt
  have other : digit (minutes / 10) ≠ ':' := digit_ne (by decide) _
  have rest : ∀ n : Nat, n < 60 → digits 2 0 (two n) = some (n, []) := by
    intro n small
    simpa using digits_two (show n < 100 by omega) []
  rw [parseOffset, digits_two (by omega)]
  cases colon with
  | true => simp [rest, inDay, inHour]
  | false =>
      have plain : (two minutes).head? ≠ some ':' := by simpa [two] using other
      simp [plain, rest, inDay, inHour]

theorem parseZone_text (z : Zone) : parseZone z.text = some z.minutes := by
  cases z with
  | utc small => cases small <;> rfl
  | offset negative colon hours minutes =>
      cases negative <;> simp [Zone.text, parseZone, parseOffset_text, Zone.minutes]

/-- No zone is taken for seconds. -/
theorem parseSeconds_text (s : Seconds) (z : Zone) (h : s.value < 100) (inSecond : s.ms < 1000) :
    parseSeconds (s.text ++ z.text) = some (s.value, s.ms, z.text) := by
  have noColon : ∀ text, z.text ≠ ':' :: text := by
    cases z with
    | utc small => cases small <;> simp [Zone.text]
    | offset negative => cases negative <;> simp [Zone.text]
  have noPoint : ∀ text, z.text ≠ '.' :: text := by
    cases z with
    | utc small => cases small <;> simp [Zone.text]
    | offset negative => cases negative <;> simp [Zone.text]
  cases s with
  | left_out =>
      rw [Seconds.text, List.nil_append, parseSeconds]
      · rfl
      · exact noColon
  | whole seconds =>
      have two_read := digits_two (show seconds < 100 from h) z.text
      simp only [Seconds.text, List.cons_append, parseSeconds, two_read, Option.bind_eq_bind, Option.bind_some]
      rfl
  | exact seconds ms =>
      simp only [Seconds.text, List.cons_append, List.append_assoc, parseSeconds, Seconds.value, Seconds.ms]
        at h inSecond ⊢
      simp [digits_two h, digits_three inSecond]

/-- What `Date.parse` makes of a day, a time and a zone. -/
theorem parse_text (d : CalendarDay) (t : Time) (z : Zone) :
    parse (d.text ++ 'T' :: (t.text ++ z.text)) = some (d.start + t.ms - z.minutes * 60000) := by
  have ⟨hours, minutes, seconds⟩ := t.bounds
  simp only [parse, CalendarDay.text, Time.text, List.append_assoc, List.cons_append, digits_four d.four_digits,
    digits_two d.month_lt, digits_two d.day_lt, digits_two hours, digits_two minutes, expect_cons,
    parseSeconds_text t.seconds z seconds t.in_second, parseZone_text, d.valid, t.valid, Option.bind_eq_bind,
    Option.bind_some, Bool.and_self, if_true]
  rfl

end DateText
