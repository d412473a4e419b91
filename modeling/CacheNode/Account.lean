import CacheNode.Quantity

/-!
# CacheNode — counters and budgets

Each partition keeps a tally of what it holds and of what happened to it, and the node keeps
totals over all partitions. The totals also divide the byte budget: bounded partitions reserve
their bound, and unbounded partitions share what the reservations leave over.

An `Account` is the tally of one partition together with the totals; its operations change both
sides at once, so that the totals stay the sums of the tallies.

* `Totals.tryReserve`, `Totals.tryGrowUnreserved` — the two tests against the node's budget;
* `Account.tryGrow`, `Account.shrink` — bytes gained and given back by one partition;
* `Account.convert` — a partition that becomes bounded leaves the shared part, and the reverse.
-/

namespace CacheNode

/-- Why an entry left a partition. -/
inductive Removal where
  | deleted
  | evicted
  | expired
deriving DecidableEq, Repr

/-- The counters of the whole node and the division of its byte budget. -/
structure Totals where
  maxCacheSize : ByteCount
  itemCount : UInt64 := 0
  totalSize : ByteCount := 0
  /-- bytes held by unbounded partitions -/
  unreservedSize : ByteCount := 0
  /-- the sum of the bounds of bounded partitions -/
  reservedSize : ByteCount := 0
  hits : UInt64 := 0
  misses : UInt64 := 0
  evictions : UInt64 := 0
  expirations : UInt64 := 0
deriving DecidableEq, Repr

/-- The counters of one partition. -/
structure Tally where
  hits : UInt64 := 0
  misses : UInt64 := 0
  itemCount : UInt64 := 0
  totalSize : ByteCount := 0
  evictions : UInt64 := 0
  expirations : UInt64 := 0
  deletions : UInt64 := 0
  /-- the latest hit, zero before the first -/
  lastHit : Millis := 0
deriving DecidableEq, Repr

/-- The share of requests that were hits, zero before the first request. -/
def hitRate (hits misses : UInt64) : Float :=
  if hits + misses = 0 then 0.0 else hits.toFloat / (hits + misses).toFloat

namespace Totals

/-- The part of the budget that reservations leave to unbounded partitions. -/
def unreservedBudget (t : Totals) : ByteCount := satSub t.maxCacheSize t.reservedSize

/-- The budget less the larger of the bytes in use and the bytes reserved. -/
def availableCapacity (t : Totals) : ByteCount :=
  satSub t.maxCacheSize (max t.totalSize t.reservedSize)

/-- Admits more bytes of unbounded partitions if the shared part has room for them. -/
def tryGrowUnreserved (t : Totals) (delta : ByteCount) : Option Totals :=
  if t.unreservedSize.toNat + delta.toNat ≤ t.unreservedBudget.toNat then
    some { t with unreservedSize := t.unreservedSize + delta }
  else none

/-- Reserves bytes for a bounded partition if the budget has room for them beside the bytes in
shared use. The `credit` is shared use that ends with the same change: a partition that becomes
bounded takes its bytes along. -/
def tryReserve (t : Totals) (amount credit : ByteCount) : Option Totals :=
  let next := t.reservedSize + amount
  if t.reservedSize.toNat + amount.toNat < UInt64.size ∧
      satAdd next (satSub t.unreservedSize credit) ≤ t.maxCacheSize then
    some { t with reservedSize := next }
  else none

/-- Gives a reservation back. -/
def releaseReserved (t : Totals) (amount : ByteCount) : Totals :=
  { t with reservedSize := satSub t.reservedSize amount }

theorem tryGrowUnreserved_eq_some_iff {t grown : Totals} {delta : ByteCount} :
    t.tryGrowUnreserved delta = some grown ↔
      t.unreservedSize.toNat + delta.toNat ≤ t.unreservedBudget.toNat ∧
        grown = { t with unreservedSize := t.unreservedSize + delta } := by
  unfold tryGrowUnreserved
  split
  · next hfits => simp [hfits, eq_comm]
  · next hfull => simp [hfull]

theorem tryReserve_eq_some_iff {t granted : Totals} {amount credit : ByteCount} :
    t.tryReserve amount credit = some granted ↔
      (t.reservedSize.toNat + amount.toNat < UInt64.size ∧
        satAdd (t.reservedSize + amount) (satSub t.unreservedSize credit) ≤ t.maxCacheSize) ∧
      granted = { t with reservedSize := t.reservedSize + amount } := by
  unfold tryReserve
  simp only
  split
  · next hfits => simp [hfits, eq_comm]
  · next hfull => simp [hfull]

/-- A reservation is granted only where the sum fits a word, so giving it back restores the sum. -/
theorem releaseReserved_of_tryReserve {t granted : Totals} {amount credit : ByteCount}
    (h : t.tryReserve amount credit = some granted) : granted.releaseReserved amount = t := by
  obtain ⟨⟨hword, -⟩, rfl⟩ := tryReserve_eq_some_iff.1 h
  have hsum : (t.reservedSize + amount).toNat = t.reservedSize.toNat + amount.toNat := by
    rw [UInt64.toNat_add, Nat.mod_eq_of_lt hword]
  have hback : satSub (t.reservedSize + amount) amount = t.reservedSize := by
    apply UInt64.toNat.inj
    rw [toNat_satSub, hsum]
    omega
  rw [releaseReserved, hback]

/-- The hit rate over all partitions. -/
def rate (t : Totals) : Float := hitRate t.hits t.misses

end Totals

/-- The hit rate of a partition. -/
def Tally.rate (t : Tally) : Float := hitRate t.hits t.misses

/-- The counters of one partition beside those of its node. -/
structure Account where
  tally : Tally
  totals : Totals
deriving DecidableEq, Repr

namespace Account

/-- Counts a request that found a live entry. -/
def hit (a : Account) (now : Millis) : Account where
  tally := { a.tally with hits := a.tally.hits + 1, lastHit := max a.tally.lastHit now }
  totals := { a.totals with hits := a.totals.hits + 1 }

/-- Counts a request that found none. -/
def miss (a : Account) : Account where
  tally := { a.tally with misses := a.tally.misses + 1 }
  totals := { a.totals with misses := a.totals.misses + 1 }

/-- Counts a new entry. -/
def insert (a : Account) : Account where
  tally := { a.tally with itemCount := a.tally.itemCount + 1 }
  totals := { a.totals with itemCount := a.totals.itemCount + 1 }

/-- Counts an entry that left, by cause. Deletions are counted by the partition alone. -/
def remove (a : Account) (cause : Removal) : Account :=
  let tally := { a.tally with itemCount := satSub a.tally.itemCount 1 }
  let totals := { a.totals with itemCount := satSub a.totals.itemCount 1 }
  match cause with
  | .deleted => ⟨{ tally with deletions := tally.deletions + 1 }, totals⟩
  | .evicted =>
    ⟨{ tally with evictions := tally.evictions + 1 },
      { totals with evictions := totals.evictions + 1 }⟩
  | .expired =>
    ⟨{ tally with expirations := tally.expirations + 1 },
      { totals with expirations := totals.expirations + 1 }⟩

/-- Adds bytes on both sides. -/
def enlarge (a : Account) (delta : ByteCount) : Account where
  tally := { a.tally with totalSize := a.tally.totalSize + delta }
  totals := { a.totals with totalSize := a.totals.totalSize + delta }

/-- Admits more bytes of a partition with the given bound, zero for none. A bounded partition
is held to its own bound, an unbounded one to the shared part of the budget. -/
def tryGrow (a : Account) (delta bound : ByteCount) : Option Account :=
  if delta = 0 then some a
  else if 0 < bound then
    if satAdd a.tally.totalSize delta ≤ bound then some (a.enlarge delta) else none
  else
    (a.totals.tryGrowUnreserved delta).map fun totals =>
      ({ a with totals } : Account).enlarge delta

/-- Gives back bytes of a partition with the given bound, zero for none. -/
def shrink (a : Account) (bytes bound : ByteCount) : Account where
  tally := { a.tally with totalSize := satSub a.tally.totalSize bytes }
  totals :=
    { a.totals with
      totalSize := satSub a.totals.totalSize bytes
      unreservedSize :=
        if bound = 0 then satSub a.totals.unreservedSize bytes else a.totals.unreservedSize }

/-- Moves the partition's bytes out of the shared part when it becomes bounded, and back into
it when it becomes unbounded. -/
def convert (a : Account) (oldBound newBound : ByteCount) : Account :=
  if oldBound = 0 ∧ newBound ≠ 0 then
    { a with
      totals :=
        { a.totals with unreservedSize := satSub a.totals.unreservedSize a.tally.totalSize } }
  else if oldBound ≠ 0 ∧ newBound = 0 then
    { a with
      totals := { a.totals with unreservedSize := a.totals.unreservedSize + a.tally.totalSize } }
  else a

/-- Clears the partition's activity counters; what it holds and its latest hit stay. -/
def reset (a : Account) : Account :=
  { a with
    tally :=
      { a.tally with hits := 0, misses := 0, evictions := 0, expirations := 0, deletions := 0 } }

/-- Moving bytes between the parts of the budget leaves the partition's own counters alone. -/
@[simp] theorem tally_convert (a : Account) (oldBound newBound : ByteCount) :
    (a.convert oldBound newBound).tally = a.tally := by
  unfold convert
  split
  · rfl
  · split <;> rfl

@[simp] theorem reservedSize_convert (a : Account) (oldBound newBound : ByteCount) :
    (a.convert oldBound newBound).totals.reservedSize = a.totals.reservedSize := by
  unfold convert
  split
  · rfl
  · split <;> rfl

@[simp] theorem evictions_convert (a : Account) (oldBound newBound : ByteCount) :
    (a.convert oldBound newBound).totals.evictions = a.totals.evictions := by
  unfold convert
  split
  · rfl
  · split <;> rfl

@[simp] theorem expirations_convert (a : Account) (oldBound newBound : ByteCount) :
    (a.convert oldBound newBound).totals.expirations = a.totals.expirations := by
  unfold convert
  split
  · rfl
  · split <;> rfl

@[simp] theorem maxCacheSize_convert (a : Account) (oldBound newBound : ByteCount) :
    (a.convert oldBound newBound).totals.maxCacheSize = a.totals.maxCacheSize := by
  unfold convert
  split
  · rfl
  · split <;> rfl

end Account

end CacheNode
