/-!
# CacheNode — reports

What the two maintenance runs of a node say about themselves when they end: the compaction of
one partition, and the scan for expired entries over all of them.
-/

namespace CacheNode

/-- The outcome of a compaction. -/
structure CompactionReport where
  itemsBefore : Nat
  itemsAfter : Nat
  evicted : Nat
  cancelled : Bool
deriving DecidableEq, Repr

/-- Why a scan ended before it had visited every partition. -/
inductive ScanStop where
  | budget
  | cancelled
deriving DecidableEq, Repr

/-- The outcome of a scan for expired entries. -/
structure ScanReport where
  partitionsVisited : Nat := 0
  keysSampled : Nat := 0
  keysExpired : Nat := 0
  stopped : Option ScanStop := none
deriving DecidableEq, Repr

end CacheNode
