import CacheNode.Account
import CacheNode.Config
import CacheNode.Eviction.Policy
import CacheNode.Watch.List

/-!
# CacheNode — partitions

A partition is a named table of entries with its configuration, its counters and the predicates
that watch it. The operations of a partition also touch what it shares with others: the totals
of the node, the hub that takes the events, and the supply of draws. A `Site` is a partition
together with these; every operation of a partition is a function on sites.

* `Site.book`, `Site.announce` — counters and events;
* `Site.takeOut` — one entry leaves: its bytes are given back, its removal is counted by cause
  and announced. Deletion, expiry, eviction and flushing all remove entries this way.
* `Site.overTarget` — whether usage exceeds what an eviction run is to reach.
-/

namespace CacheNode

/-- The size limits of a partition and the size of its eviction samples. -/
structure Limits where
  maxKeySize : Nat := 65536
  maxValueSize : Nat := 16777216
  keyEvictionSamples : Nat := 5
deriving DecidableEq, Repr

/-- The limits that a configuration sets for all partitions. -/
def Config.limits (c : Config) : Limits := ⟨c.maxKeySize, c.maxValueSize, c.keyEvictionSamples⟩

/-- A named table of entries. -/
structure Partition where
  name : Bytes
  metadata : Metadata
  limits : Limits
  entries : Table Entry := .empty
  tally : Tally := {}
  watches : WatchList := {}
  /-- the bound that admission reads, zero for none; it is posted whenever metadata changes -/
  bound : ByteCount
  /-- whether the policy can free space, posted likewise -/
  evicts : Bool
  /-- whether the partition was deleted while somebody still holds it -/
  retired : Bool := false

namespace Partition

/-- A new partition without entries. -/
def create (name : Bytes) (metadata : Metadata) (limits : Limits) : Partition where
  name
  metadata
  limits
  bound := metadata.maxCacheSize
  evicts := metadata.evicts

/-- Whether the partition has a budget of its own. -/
def isBounded (p : Partition) : Bool := 0 < p.bound

/-- The clock against which the partition's entries are judged at an instant. -/
def expiry (p : Partition) (now : Millis) : Expiry := ⟨now, p.metadata.interval⟩

/-- Whether a key has an entry that has not expired. -/
def isLive (p : Partition) (key : Bytes) (x : Expiry) : Bool :=
  match p.entries.get? key with
  | some e => !e.isExpired x
  | none => false

/-- Refuses keys that are empty or too long. -/
def checkKey (p : Partition) (key : Bytes) : Except CacheError Unit :=
  if key = [] then .error .missingKey
  else if p.limits.maxKeySize < key.length then
    .error (.keyTooLarge key.length p.limits.maxKeySize)
  else .ok ()

/-- Refuses payloads that are empty or too long. -/
def checkValue (p : Partition) (payload : Bytes) : Except CacheError Unit :=
  if payload = [] then .error .missingValue
  else if p.limits.maxValueSize < payload.length then
    .error (.valueTooLarge payload.length p.limits.maxValueSize)
  else .ok ()

/-- Refuses operations on a partition that was deleted. -/
def checkInUse (p : Partition) : Except CacheError Unit :=
  if p.retired then .error .partitionDoesNotExist else .ok ()

end Partition

/-- The event that announces a removal. -/
def Removal.kind : Removal → EventKind
  | deleted => .delete
  | evicted => .evict
  | expired => .expire

/-- What an eviction run is to reach. -/
inductive EvictionGoal where
  /-- usage strictly below the budget -/
  | belowLimit
  /-- room for this many more bytes -/
  | room (bytes : ByteCount)
deriving DecidableEq, Repr

/-- A partition and what its operations share with others. -/
structure Site where
  part : Partition
  totals : Totals
  hub : Hub
  draws : Draws

namespace Site

/-- The partition's counters beside the node's. -/
def account (s : Site) : Account := ⟨s.part.tally, s.totals⟩

/-- Replaces the counters on both sides. -/
def settle (s : Site) (a : Account) : Site :=
  { s with part := { s.part with tally := a.tally }, totals := a.totals }

/-- Changes the counters on both sides. -/
def book (s : Site) (change : Account → Account) : Site := s.settle (change s.account)

/-- Replaces the entries. -/
def hold (s : Site) (entries : Table Entry) : Site :=
  { s with part := { s.part with entries } }

/-- Queues an event for every subscriber with a matching predicate. -/
def announce (s : Site) (key : Bytes) (value : Option Bytes) (kind : EventKind) : Site :=
  let published := s.part.watches.publish s.part.name key value kind s.hub
  { s with part := { s.part with watches := published.1 }, hub := published.2 }

/-- Removes an entry: gives its bytes back, counts the removal and announces it. -/
def takeOut (s : Site) (key : Bytes) (e : Entry) (cause : Removal) : Site :=
  let bytes := UInt64.ofNat (Entry.weight key e.payload)
  ((s.hold (s.part.entries.erase key)).book fun a =>
    (a.shrink bytes s.part.metadata.maxCacheSize).remove cause).announce key none cause.kind

/-- The bytes in use and the budget they are drawn from: the partition's own if it has a bound,
else the shared part of the node's. -/
def usage (s : Site) (bound : ByteCount) : ByteCount × ByteCount :=
  if 0 < bound then (s.part.tally.totalSize, bound)
  else (s.totals.unreservedSize, s.totals.unreservedBudget)

/-- Whether usage against a bound exceeds what an eviction run is to reach. -/
def overTarget (s : Site) (bound : ByteCount) (goal : EvictionGoal) : Bool :=
  let (used, limit) := s.usage bound
  match goal with
  | .belowLimit => 0 < used && limit ≤ used
  | .room bytes => limit < satAdd used bytes

/-- Whether usage is at or over the budget that the partition draws from. -/
def isOverBudget (s : Site) : Bool := s.overTarget s.part.bound .belowLimit

/-- Why a write was refused that needed more bytes. -/
def insufficient (s : Site) (bytes : ByteCount) : CacheError :=
  .insufficientCapacity (.write s.part.name bytes)

-- ---------------------------------------------------------------------------
-- What the building blocks leave alone
-- ---------------------------------------------------------------------------

@[simp] theorem entries_settle (s : Site) (a : Account) :
    (s.settle a).part.entries = s.part.entries := rfl

@[simp] theorem entries_book (s : Site) (change : Account → Account) :
    (s.book change).part.entries = s.part.entries := rfl

@[simp] theorem entries_announce (s : Site) (key : Bytes) (value : Option Bytes)
    (kind : EventKind) : (s.announce key value kind).part.entries = s.part.entries := rfl

@[simp] theorem entries_hold (s : Site) (entries : Table Entry) :
    (s.hold entries).part.entries = entries := rfl

@[simp] theorem entries_takeOut (s : Site) (key : Bytes) (e : Entry) (cause : Removal) :
    (s.takeOut key e cause).part.entries = s.part.entries.erase key := rfl

@[simp] theorem metadata_takeOut (s : Site) (key : Bytes) (e : Entry) (cause : Removal) :
    (s.takeOut key e cause).part.metadata = s.part.metadata := rfl

end Site

/-- The result of a write that may have been refused for lack of space. -/
inductive Admission (α : Type) where
  | done (result : α)
  | needsRoom (bytes : ByteCount)
deriving DecidableEq, Repr

/-- Applies a check to each member of a list; the first failure counts. -/
def checkEach {α : Type} (check : α → Except CacheError Unit) : List α → Except CacheError Unit
  | [] => .ok ()
  | x :: rest =>
    match check x with
    | .ok () => checkEach check rest
    | .error e => .error e

theorem checkEach_eq_ok_iff {α : Type} {check : α → Except CacheError Unit} {xs : List α} :
    checkEach check xs = .ok () ↔ ∀ x ∈ xs, check x = .ok () := by
  induction xs with
  | nil => simp [checkEach]
  | cons x rest ih =>
    rw [checkEach]
    split
    · next h => simp [ih, h]
    · next e h => simp [h]

end CacheNode
