import Mathlib.Data.List.Basic

/-! # What the column types hold

The types of `schemas/*/schema.ts` that refuse some of the values the code hands
them. A statement with such a value fails, also where it only compares.
-/

namespace BetterBullBoard

def smallint (n : Int) : Bool := decide (-32768 ≤ n ∧ n ≤ 32767)
def integer (n : Int) : Bool := decide (-2147483648 ≤ n ∧ n ≤ 2147483647)

/-- 0001-01-01T00:00:00.000Z -/
def minTimestamp : Int := -62135596800000

/-- 9999-12-31T23:59:59.999Z -/
def maxTimestamp : Int := 253402300799999

/-- A time is sent as its `toISOString` text. Outside these years it has a sign or the
    year 0000, and Postgres reads neither as a `timestamp`. -/
def timestamp (ms : Int) : Bool := decide (minTimestamp ≤ ms ∧ ms ≤ maxTimestamp)

/-- A text has no zero character. -/
def isText (s : String) : Bool := !s.toList.contains '\x00'

end BetterBullBoard
