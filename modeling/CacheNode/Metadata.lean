import CacheNode.Calendar.Date
import CacheNode.Quantity

/-!
# CacheNode — partition metadata

A partition's metadata says when its entries expire, whether it may evict, how many bytes it
may hold, and whether this configuration survives a restart. The create date is fixed for the
partition's lifetime.

* `Metadata.apply` — takes over everything but the create date.
-/

namespace CacheNode

/-- How the expiration interval is counted. -/
inductive ExpirationMode where
  /-- every access restarts the interval -/
  | sliding
  /-- the interval runs from the entry's creation, whatever happens to it later -/
  | absolute
deriving DecidableEq, Repr

/-- How a partition makes room. -/
inductive EvictionPolicy where
  /-- writes over budget fail -/
  | noEviction
  /-- the least recently used of a sample of entries is evicted -/
  | approximateLru
deriving DecidableEq, Repr

/-- The configuration of a partition. -/
structure Metadata where
  createDate : Instant
  /-- the expiration interval, zero for never -/
  interval : Millis := 0
  mode : ExpirationMode := .sliding
  policy : EvictionPolicy := .approximateLru
  /-- the reserved byte budget, zero for a share of the node's budget -/
  maxCacheSize : ByteCount := 0
  persisted : Bool := false
deriving DecidableEq, Repr

namespace Metadata

/-- Whether the partition has a budget of its own. -/
def isBounded (m : Metadata) : Bool := 0 < m.maxCacheSize

/-- Whether entries expire at all. -/
def expires (m : Metadata) : Bool := 0 < m.interval

/-- Whether entries expire at a time fixed when they are created. -/
def isAbsolute (m : Metadata) : Bool := m.mode = .absolute

/-- Whether the policy can free space. -/
def evicts (m : Metadata) : Bool := m.policy ≠ .noEviction

/-- Takes over every setting of another configuration; the create date stays. -/
def apply (m other : Metadata) : Metadata := { other with createDate := m.createDate }

@[simp] theorem createDate_apply (m other : Metadata) :
    (m.apply other).createDate = m.createDate := rfl

@[simp] theorem apply_apply (m other third : Metadata) :
    (m.apply other).apply third = m.apply third := rfl

end Metadata

end CacheNode
