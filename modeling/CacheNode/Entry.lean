import CacheNode.Bytes
import CacheNode.Error

/-!
# CacheNode — entries

An entry is a payload and the time of its last access. Whether it has expired depends on the
partition's interval alone: with an interval of zero never, else as soon as strictly more than
the interval has passed since the last access.

Payloads of eight bytes also spell signed integers in two's complement, least significant byte
first; these can be incremented.

* `Entry.isExpired_iff` — expiry over the natural numbers;
* `Entry.integer_ofInteger` — a spelled integer reads back.
-/

namespace CacheNode

/-- The clock and the partition's interval, against which an entry is judged. -/
structure Expiry where
  now : Millis
  interval : Millis
deriving DecidableEq, Repr

/-- A stored payload with its access time. -/
structure Entry where
  payload : Bytes
  lastAccess : Millis
deriving DecidableEq, Repr

namespace Entry

/-- Whether an entry has expired. -/
def isExpired (e : Entry) (x : Expiry) : Bool :=
  0 < x.interval && x.interval < satSub x.now e.lastAccess

/-- The time that is left to an entry, none if it never expires. -/
def timeLeft (e : Entry) (x : Expiry) : Option Millis :=
  if x.interval = 0 then none else some (satSub (satAdd e.lastAccess x.interval) x.now)

/-- Renews the access time; the clock of an entry never goes back. -/
def touch (e : Entry) (now : Millis) : Entry := { e with lastAccess := max e.lastAccess now }

/-- The bytes that an entry counts against its budget. -/
def weight (key : Bytes) (payload : Bytes) : Nat := key.length + payload.length

/-- The integer that a payload spells. -/
def integer (payload : Bytes) : Except CacheError Int64 :=
  match Bytes.word? payload with
  | some w => .ok w.toInt64
  | none => .error (.invalidTypeOperation payload.length)

/-- The payload that spells an integer. -/
def ofInteger (value : Int64) : Bytes := Bytes.ofWord value.toUInt64

/-- Adds to the integer that an entry's payload spells; the sum wraps. -/
def increment (e : Entry) (delta : Int64) : Except CacheError (Int64 × Entry) :=
  match integer e.payload with
  | .ok value => .ok (value + delta, { e with payload := ofInteger (value + delta) })
  | .error err => .error err

theorem isExpired_iff {e : Entry} {x : Expiry} :
    e.isExpired x = true ↔
      0 < x.interval.toNat ∧ x.interval.toNat < x.now.toNat - e.lastAccess.toNat := by
  simp [isExpired, UInt64.lt_iff_toNat_lt]

theorem isExpired_of_never (e : Entry) {x : Expiry} (h : x.interval = 0) :
    e.isExpired x = false := by
  simp [isExpired, h]

theorem integer_ofInteger (value : Int64) : integer (ofInteger value) = .ok value := by
  simp [integer, ofInteger, Bytes.word?_ofWord]

@[simp] theorem length_ofInteger (value : Int64) : (ofInteger value).length = 8 := by
  simp [ofInteger]

end Entry

end CacheNode
