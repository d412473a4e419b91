/-!
# CacheNode — calendar dates and instants

Dates follow the Gregorian calendar, extended to all years; the year zero precedes the year
one. An instant is a date and a time of day in UTC, to the nanosecond. A leap second is a last
second of a minute that has run for a thousand million nanoseconds or more.

* `Date.next`, `Date.previous` — the neighbouring days;
* `Instant.addMinutes` — moves an instant by less than a day, as an offset from UTC does.
-/

namespace CacheNode

/-- Whether a year has 366 days: every fourth, of the centuries only every fourth. -/
def isLeapYear (year : Int) : Bool :=
  year % 4 = 0 && (year % 100 ≠ 0 || year % 400 = 0)

/-- The number of days in a month. -/
def daysIn (year : Int) (month : Nat) : Nat :=
  match month with
  | 2 => if isLeapYear year then 29 else 28
  | 4 | 6 | 9 | 11 => 30
  | _ => 31

/-- A calendar date. -/
structure Date where
  year : Int
  month : Nat
  day : Nat
  inCalendar : (1 ≤ month ∧ month ≤ 12) ∧ 1 ≤ day ∧ day ≤ daysIn year month
deriving DecidableEq, Repr

theorem daysIn_pos (year : Int) (month : Nat) : 1 ≤ daysIn year month := by
  unfold daysIn
  split <;> (try split) <;> omega

theorem daysIn_le (year : Int) (month : Nat) : daysIn year month ≤ 31 := by
  unfold daysIn
  split <;> (try split) <;> omega

namespace Date

/-- The date with the given numbers, if there is one. -/
def of? (year : Int) (month day : Nat) : Option Date :=
  if h : (1 ≤ month ∧ month ≤ 12) ∧ 1 ≤ day ∧ day ≤ daysIn year month then
    some ⟨year, month, day, h⟩
  else none

/-- The day after. -/
def next (d : Date) : Date :=
  if h : d.day < daysIn d.year d.month then
    { d with day := d.day + 1, inCalendar := ⟨d.inCalendar.1, by omega, h⟩ }
  else if hm : d.month < 12 then
    ⟨d.year, d.month + 1, 1, ⟨by omega, by omega⟩, by omega, daysIn_pos _ _⟩
  else ⟨d.year + 1, 1, 1, ⟨by omega, by omega⟩, by omega, daysIn_pos _ _⟩

/-- The day before. -/
def previous (d : Date) : Date :=
  if h : 1 < d.day then
    { d with
      day := d.day - 1
      inCalendar := ⟨d.inCalendar.1, by omega, by have := d.inCalendar.2; omega⟩ }
  else if hm : 1 < d.month then
    ⟨d.year, d.month - 1, daysIn d.year (d.month - 1),
      ⟨by omega, by have := d.inCalendar.1; omega⟩, daysIn_pos _ _, Nat.le_refl _⟩
  else ⟨d.year - 1, 12, 31, ⟨by omega, by omega⟩, by omega, Nat.le_refl _⟩

end Date

/-- A date and a time of day in UTC. -/
structure Instant where
  date : Date
  hour : Nat
  minute : Nat
  second : Nat
  nanosecond : Nat
  inDay : (hour < 24 ∧ minute < 60 ∧ second < 60) ∧
    nanosecond < 2000000000 ∧ (1000000000 ≤ nanosecond → second = 59)
deriving DecidableEq, Repr

namespace Instant

/-- The years that an instant can lie in. -/
def inRange (d : Date) : Bool := -262143 ≤ d.year && d.year ≤ 262142

/-- Moves an instant by a number of minutes, less than a day in either direction. -/
def addMinutes (t : Instant) (minutes : Int) : Instant :=
  let total := (t.hour * 60 + t.minute : Int) + minutes
  -- the minute of the day that is reached, and the day it lies in
  let ofDay := (total % 1440).toNat
  let date := if total < 0 then t.date.previous else if 1440 ≤ total then t.date.next else t.date
  { t with
    date := date
    hour := ofDay / 60
    minute := ofDay % 60
    inDay := by
      have h : total % 1440 < 1440 := Int.emod_lt_of_pos _ (by decide)
      have h0 : 0 ≤ total % 1440 := Int.emod_nonneg _ (by decide)
      exact ⟨⟨by omega, by omega, t.inDay.1.2.2⟩, t.inDay.2⟩ }

end Instant

end CacheNode
