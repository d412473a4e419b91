import CacheNode.HostMemory
import CacheNode.Partition.Compact
import CacheNode.Partition.Configure
import CacheNode.Partition.Read
import CacheNode.Partition.Write
import CacheNode.PartitionName
import CacheNode.Storage.World

/-!
# CacheNode — nodes

A node is a table of partitions with one byte budget. This module holds the node itself and the
operations that concern one existing partition; admission of writes, configuration and the
expiration scan have modules of their own.

* `Node.visit` — lets a function on sites act on one partition of the table;
* `Node.existing` — the partition with a valid name, or why there is none.
-/

namespace CacheNode

/-- A table of partitions that share a budget. -/
structure Node where
  config : Config
  host : HostMemory
  storage : Storage
  world : World
  totals : Totals
  partitions : Table Partition := .empty
  /-- whether the node sends its compaction requests to the collector -/
  collects : Bool := false
  nextWatcher : UInt64 := 1
  /-- the date that partitions get which are created without one -/
  today : Instant

namespace Node

/-- What a partition's operations on this node act on. -/
def site (n : Node) (p : Partition) : Site where
  part := p
  totals := n.totals
  hub := n.world.hub
  draws := n.world.draws

/-- Takes over what an operation on a partition changed outside of the table. -/
def share (n : Node) (s : Site) : Node :=
  { n with totals := s.totals, world := { n.world with hub := s.hub, draws := s.draws } }

/-- Takes over everything that an operation on a partition changed. -/
def settle (n : Node) (s : Site) : Node :=
  { n.share s with partitions := n.partitions.insert s.part.name s.part }

/-- The partition with a name. -/
def find? (n : Node) (name : Bytes) : Option Partition := n.partitions.get? name

/-- The partition with a name, or why there is none. -/
def existing (n : Node) (name : Bytes) : Except CacheError Partition :=
  match PartitionName.check name with
  | .error e => .error e
  | .ok () =>
    match n.find? name with
    | some p => .ok p
    | none => .error .partitionDoesNotExist

/-- Lets a function act on a partition. -/
def act {α : Type} (n : Node) (p : Partition) (f : Site → α × Site) : α × Node :=
  let acted := f (n.site p)
  (acted.1, n.settle acted.2)

/-- Lets a function act on the partition with a name, if there is one. -/
def visit {α : Type} (n : Node) (name : Bytes) (f : Site → α × Site) : Option (α × Node) :=
  (n.find? name).map fun p => n.act p f

/-- Lets a function that may fail act on the existing partition with a name. -/
def onExisting {α : Type} (n : Node) (name : Bytes)
    (f : Site → Except CacheError α × Site) : Except CacheError α × Node :=
  match n.existing name with
  | .error e => (.error e, n)
  | .ok p => n.act p f

/-- Lets a function that counts act on the partitions with the given names, one after the
other. Returns the sum. -/
def forEach (f : Site → Nat × Site) : List Bytes → Node → Nat × Node
  | [], n => (0, n)
  | name :: rest, n =>
    match n.visit name f with
    | none => forEach f rest n
    | some acted =>
      let later := forEach f rest acted.2
      (acted.1 + later.1, later.2)

-- ---------------------------------------------------------------------------
-- Operations on one partition
-- ---------------------------------------------------------------------------

/-- Reads a live value. A missing partition reads as empty. -/
def get (n : Node) (name key : Bytes) (now : Millis) :
    Except CacheError (Option Bytes) × Node :=
  match PartitionName.check name with
  | .error e => (.error e, n)
  | .ok () =>
    if key = [] then (.error .missingKey, n)
    else
      match n.visit name (·.get key now true true) with
      | none => (.ok none, n)
      | some acted => (.ok acted.1, acted.2)

/-- Reads the live values among keys. A missing partition reads as empty. -/
def getMany (n : Node) (name : Bytes) (keys : List Bytes) (now : Millis) :
    Except CacheError (List (Bytes × Bytes)) × Node :=
  match PartitionName.check name with
  | .error e => (.error e, n)
  | .ok () =>
    match n.visit name (·.getMany keys now) with
    | none => (.ok [], n)
    | some acted => (.ok acted.1, acted.2)

/-- Deletes a key. -/
def delete (n : Node) (name key : Bytes) (now : Millis) : Except CacheError Unit × Node :=
  n.onExisting name (·.delete key now)

/-- Deletes keys. Returns how many were live. -/
def deleteMany (n : Node) (name : Bytes) (keys : List Bytes) (now : Millis) :
    Except CacheError Nat × Node :=
  n.onExisting name (·.deleteMany keys now)

/-- Renews the access time of a live key. -/
def touch (n : Node) (name key : Bytes) (now : Millis) : Except CacheError Unit × Node :=
  n.onExisting name (·.touch key now)

/-- The time left to a live key, none if it never expires. -/
def ttl (n : Node) (name key : Bytes) (now : Millis) :
    Except CacheError (Option Millis) × Node :=
  n.onExisting name (·.ttl key now)

/-- Deletes every entry of a partition. Returns how many there were. -/
def flushPartition (n : Node) (name : Bytes) : Except CacheError Nat × Node :=
  n.onExisting name fun s => let flushed := s.flush; (.ok flushed.1, flushed.2)

/-- Deletes every entry of every partition. -/
def flushAll (n : Node) : Nat × Node := forEach Site.flush n.partitions.keys n

/-- The names that match a pattern, ascending, `count` of them at most. -/
def scanPartitions (n : Node) (pattern : Glob) (count : Nat) : List Bytes :=
  (n.partitions.keys.filter pattern.isMatch).take count

/-- One page of the live keys of a partition that match a pattern. -/
def scanKeys (n : Node) (name : Bytes) (pattern : Glob) (count offset : Nat) (now : Millis) :
    Except CacheError KeyPage :=
  match n.existing name with
  | .error e => .error e
  | .ok p => .ok (p.scanKeys pattern count offset now)

/-- Evicts from a partition until it fits its budget. -/
def compactPartition (n : Node) (name : Bytes) (now : Millis) (cancel : Fuse) :
    Except CacheError CompactionReport × Node :=
  n.onExisting name fun s => let run := s.compact now cancel; (.ok run.1, run.2)

-- ---------------------------------------------------------------------------
-- Watching
-- ---------------------------------------------------------------------------

/-- Opens a channel whose id no other channel of this node has. -/
def openWatcher (n : Node) : Subscriber × Node :=
  let opened := n.world.hub.subscribe n.nextWatcher
  (opened.1,
    { n with world := { n.world with hub := opened.2 }, nextWatcher := n.nextWatcher + 1 })

/-- Detaches every predicate that leads to a channel. Returns how many. -/
def closeWatcher (n : Node) (ownerId : UInt64) : Nat × Node :=
  forEach (·.removeWatchesOf ownerId) n.partitions.keys n

/-- Attaches a predicate to an existing partition, in place of the one with the same name. -/
def watch (n : Node) (owner : Subscriber) (watchId : UInt64) (name : Bytes)
    (key : Option Bytes) (filter : EventFilter) : Except CacheError Unit × Node :=
  n.onExisting name fun s =>
    let added := s.addWatch ⟨owner, watchId, name, key, filter⟩
    (added.1.map fun _ => (), added.2)

/-- Removes a predicate. Returns whether it was attached. -/
def unwatch (n : Node) (ownerId watchId : UInt64) (name : Bytes) :
    Except CacheError Bool × Node :=
  n.onExisting name fun s =>
    let removed := s.removeWatch ownerId watchId
    (.ok removed.1, removed.2)

end Node

end CacheNode
