import CacheNode.Calendar.Date
import CacheNode.Decimal
import CacheNode.Text.Blank

/-!
# CacheNode — written instants

Instants are written as `YYYY-MM-DDTHH:MM:SSZ`, with a fraction of three, six or nine digits
where the second is not a whole one, and with a signed year of at least four digits outside the
years 0 to 9999.

Reading is more generous: numbers may be shorter, blanks may stand before numbers and
separators, a small letter or a space may stand for the `T`, and any offset from UTC may follow.
What is read is always moved to UTC.

* `Instant.write` — the written form;
* `Instant.read?` — the instant that a text denotes.
-/

namespace CacheNode

namespace Instant

-- ---------------------------------------------------------------------------
-- Writing
-- ---------------------------------------------------------------------------

/-- The fraction of a second in the fewest of three, six or nine digits; nothing for a whole
second. -/
def writeFraction (nanosecond : Nat) : List Char :=
  if nanosecond = 0 then []
  else if nanosecond % 1000000 = 0 then '.' :: Decimal.padded 3 (nanosecond / 1000000)
  else if nanosecond % 1000 = 0 then '.' :: Decimal.padded 6 (nanosecond / 1000)
  else '.' :: Decimal.padded 9 nanosecond

/-- A year in four digits, or with a sign where these do not suffice. -/
def writeYear (year : Int) : List Char :=
  if 0 ≤ year ∧ year ≤ 9999 then Decimal.padded 4 year.toNat
  else (if year < 0 then '-' else '+') :: Decimal.padded 4 year.natAbs

/-- The written form of an instant. A leap second is written as second 60. -/
def write (t : Instant) : List Char :=
  let leap := if 1000000000 ≤ t.nanosecond then 1 else 0
  writeYear t.date.year ++ '-' :: Decimal.padded 2 t.date.month ++ '-' ::
    Decimal.padded 2 t.date.day ++ 'T' :: Decimal.padded 2 t.hour ++ ':' ::
    Decimal.padded 2 t.minute ++ ':' :: Decimal.padded 2 (t.second + leap) ++
    writeFraction (t.nanosecond % 1000000000) ++ ['Z']

-- ---------------------------------------------------------------------------
-- Reading
-- ---------------------------------------------------------------------------

/-- Passes over blanks. -/
def skipBlank (cs : List Char) : List Char := cs.dropWhile Text.isBlank

/-- Reads at least one and at most `most` digits. Returns their number, too. -/
def readDigits (most : Nat) (cs : List Char) : Option (List Char × List Char) :=
  let digits := (cs.take most).takeWhile Char.isDigit
  if digits = [] then none else some (digits, cs.drop digits.length)

/-- Reads a number of at most two digits. -/
def readPair (cs : List Char) : Option (Nat × List Char) :=
  (readDigits 2 (skipBlank cs)).map fun (digits, rest) => (Decimal.value digits, rest)

/-- Years are read below this bound, which lies beyond the years of all instants. -/
def yearBound : Nat := 1000000

/-- Reads a year: at most four digits, or any number of digits after a sign. -/
def readYear (cs : List Char) : Option (Int × List Char) :=
  match skipBlank cs with
  | '-' :: rest => do
    let (digits, rest) ← readDigits rest.length rest
    let year ← Decimal.below? yearBound digits
    some (-(year : Int), rest)
  | '+' :: rest => do
    let (digits, rest) ← readDigits rest.length rest
    let year ← Decimal.below? yearBound digits
    some ((year : Int), rest)
  | rest => (readDigits 4 rest).map fun (digits, rest) => ((Decimal.value digits : Int), rest)

/-- Reads a separator, after blanks. -/
def readMark (mark : Char) (cs : List Char) : Option (List Char) :=
  match skipBlank cs with
  | c :: rest => if c = mark then some rest else none
  | [] => none

/-- Reads what may follow a whole second: a point and digits, of which nine count. -/
def readFraction (cs : List Char) : Option (Nat × List Char) :=
  match cs with
  | '.' :: rest =>
    (readDigits 9 rest).map fun (digits, rest) =>
      (Decimal.value (digits ++ List.replicate (9 - digits.length) '0'),
        rest.dropWhile Char.isDigit)
  | _ => some (0, cs)

/-- Reads a signed offset after its sign: two digits for the hours, two for the minutes, and
colons or blanks between them. -/
def readOffset (cs : List Char) : Option (Nat × List Char) :=
  match cs with
  | h₁ :: h₂ :: rest =>
    match rest.dropWhile fun c => c = ':' || Text.isBlank c with
    | m₁ :: m₂ :: rest =>
      if h₁.isDigit ∧ h₂.isDigit ∧ m₁.isDigit ∧ m₂.isDigit ∧ Decimal.value [m₁, m₂] < 60 then
        some (Decimal.value [h₁, h₂] * 60 + Decimal.value [m₁, m₂], rest)
      else none
    | _ => none
  | _ => none

/-- Reads the distance from UTC in minutes: `UTC` or `Z` in letters of either case, or a signed
offset. -/
def readZone (cs : List Char) : Option (Int × List Char) :=
  match cs with
  | 'Z' :: rest | 'z' :: rest => some (0, rest)
  | '+' :: rest => (readOffset rest).map fun (m, rest) => ((m : Int), rest)
  | '-' :: rest | '\u2212' :: rest => (readOffset rest).map fun (m, rest) => (-(m : Int), rest)
  | u :: t :: c :: rest =>
    if [u, t, c].map Char.toUpper = ['U', 'T', 'C'] then some (0, rest) else none
  | _ => none

/-- Reads a date. -/
def readDate (cs : List Char) : Option (Date × List Char) := do
  let (year, cs) ← readYear cs
  let cs ← readMark '-' cs
  let (month, cs) ← readPair cs
  let cs ← readMark '-' cs
  let (day, cs) ← readPair cs
  let date ← Date.of? year month day
  if inRange date then some (date, cs) else none

/-- An instant, if the numbers lie in their ranges; second 60 is a leap second. -/
def of? (date : Date) (hour minute second nanosecond : Nat) : Option Instant :=
  if h : (hour < 24 ∧ minute < 60 ∧ second < 60) ∧ nanosecond < 1000000000 then
    some ⟨date, hour, minute, second, nanosecond, h.1, by omega, by omega⟩
  else if h : (hour < 24 ∧ minute < 60 ∧ second = 60) ∧ nanosecond < 1000000000 then
    some ⟨date, hour, minute, 59, nanosecond + 1000000000,
      ⟨h.1.1, h.1.2.1, by omega⟩, by omega, fun _ => rfl⟩
  else none

/-- The instant that a text denotes. -/
def read? (cs : List Char) : Option Instant := do
  let (date, cs) ← readDate cs
  let cs ← match cs with
    | 't' :: rest | 'T' :: rest | ' ' :: rest => some rest
    | _ => none
  let (hour, cs) ← readPair cs
  let cs ← readMark ':' cs
  let (minute, cs) ← readPair cs
  let cs ← readMark ':' cs
  let (second, cs) ← readPair cs
  let (nanosecond, cs) ← readFraction cs
  let (offset, cs) ← readZone (skipBlank cs)
  let local? ← of? date hour minute second nanosecond
  let utc := local?.addMinutes (-offset)
  -- an offset of a day or more, text after the zone, or a year out of range is refused
  if offset.natAbs < 1440 ∧ skipBlank cs = [] ∧ inRange utc.date then some utc else none

end Instant

end CacheNode
