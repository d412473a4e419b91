import CacheNode.Node.Basic

/-!
# CacheNode — configuring partitions

A bounded partition reserves its bound, which the host and the node's budget must cover. The
order of steps is the same for a new partition and a changed one: reserve, then store the
metadata, then apply it. Where the metadata cannot be stored the reservation is given back, which
leaves the totals as they were (`Node.releaseReserved_of_reserve`).

* `Node.build` — a node over its surroundings;
* `Node.putPartition` — creates or reconfigures a partition;
* `Node.deletion`, `Node.deletePartition` — deletes one that nobody watches;
* `Node.recover` — restores the partitions that were stored.
-/

namespace CacheNode.Node

/-- A node without partitions, if the host can back its budget and there is a place where
configurations can be kept. -/
def build (config : Config) (host : HostMemory) (storage : Except CacheError Storage)
    (collects : Bool) (today : Instant) (world : World) : Except CacheError Node :=
  if host.canCommit config.maxCacheSize = false then
    .error (.insufficientCapacity (.budget config.maxCacheSize (host.available.getD 0)))
  else
    match storage with
    | .error e => .error e
    | .ok storage =>
      .ok
        { config, host, storage, world, collects, today
          totals := { maxCacheSize := config.maxCacheSize } }

/-- Reserves bytes for a partition, or says who cannot provide them. Nothing is asked of anyone
for zero bytes. -/
def reserve (n : Node) (name : Bytes) (amount credit : ByteCount) : Except CacheError Totals :=
  if amount = 0 then .ok n.totals
  else if n.host.canCommit amount = false then
    .error (.insufficientCapacity (.hostMemory amount name))
  else
    match n.totals.tryReserve amount credit with
    | some totals => .ok totals
    | none =>
      .error (.insufficientCapacity (.reservation amount name n.totals.availableCapacity))

/-- Giving back what was just reserved undoes the reservation. -/
theorem releaseReserved_of_reserve {n : Node} {name : Bytes} {amount credit : ByteCount}
    {totals : Totals} (h : n.reserve name amount credit = .ok totals) :
    totals.releaseReserved amount = n.totals := by
  unfold reserve at h
  split at h
  · next hzero =>
    -- nothing was reserved
    cases h
    rw [hzero, Totals.releaseReserved, satSub_zero]
  · split at h
    · cases h
    · split at h
      · next granted hgranted =>
        cases h
        exact Totals.releaseReserved_of_tryReserve hgranted
      · cases h

/-- Creates a partition. Its metadata is stored first if that is asked for. -/
def createPartition (n : Node) (name : Bytes) (metadata : Metadata) (store : Bool) :
    Except CacheError Unit × Node :=
  match n.reserve name metadata.maxCacheSize 0 with
  | .error e => (.error e, n)
  | .ok totals =>
    let reserved : Node := { n with totals }
    let stored :=
      if store && metadata.persisted then reserved.world.persist reserved.storage name metadata
      else (.ok (), reserved.world)
    match stored.1 with
    | .error e =>
      (.error e,
        { reserved with
          world := stored.2
          totals := reserved.totals.releaseReserved metadata.maxCacheSize })
    | .ok () =>
      let p := Partition.create name metadata reserved.config.limits
      (.ok (),
        { reserved with
          world := stored.2
          partitions := reserved.partitions.insert name p })

/-- Asks the collector to compact a partition, if the node's requests are collected. -/
def requestCompaction (n : Node) (name : Bytes) : Node :=
  if n.collects then { n with world := n.world.request name } else n

/-- Gives a partition new metadata. A larger bound is reserved first; a smaller one is given back
last, and the partition's compaction is requested if it is over its budget then. -/
def reconfigure (n : Node) (p : Partition) (metadata : Metadata) :
    Except CacheError Unit × Node :=
  if p.retired then (.error .partitionDoesNotExist, n)
  else
    let growth := satSub metadata.maxCacheSize p.bound
    -- the bytes of a partition that was unbounded leave the shared part of the budget
    let credit := if p.bound = 0 then p.tally.totalSize else 0
    match n.reserve p.name growth credit with
    | .error e => (.error e, n)
    | .ok totals =>
      let reserved : Node := { n with totals }
      let next := p.metadata.apply metadata
      let stored :=
        if next.persisted then reserved.world.persist reserved.storage p.name next
        else if p.metadata.persisted then reserved.world.delete reserved.storage p.name
        else (.ok (), reserved.world)
      match stored.1 with
      | .error e =>
        (.error e,
          { reserved with
            world := stored.2
            totals := reserved.totals.releaseReserved growth })
      | .ok () =>
        let reserved : Node := { reserved with world := stored.2 }
        let applied := (reserved.site p).applyMetadata next
        let released :=
          { applied with
            totals := applied.totals.releaseReserved (satSub p.bound metadata.maxCacheSize) }
        let settled := reserved.settle released
        (.ok (),
          if released.part.evicts && released.isOverBudget then settled.requestCompaction p.name
          else settled)

/-- Creates a partition, or reconfigures the one with the name. -/
def putPartition (n : Node) (name : Bytes) (metadata : Metadata) :
    Except CacheError Unit × Node :=
  match PartitionName.check name with
  | .error e => (.error e, n)
  | .ok () =>
    match n.find? name with
    | some p => n.reconfigure p metadata
    | none => n.createPartition name metadata true

-- ---------------------------------------------------------------------------
-- Deletion
-- ---------------------------------------------------------------------------

/-- How a deletion ended, and the partition that left the table, if one did. -/
structure Deletion where
  outcome : Except CacheError Unit
  removed : Option Partition
  node : Node

/-- Deletes a partition and its entries, unless open predicates watch it. Its stored metadata is
dropped last; if that fails the partition is gone all the same. -/
def deletion (n : Node) (name : Bytes) : Deletion :=
  match n.existing name with
  | .error e => ⟨.error e, none, n⟩
  | .ok p =>
    let pruned := (n.site p).pruneWatches
    if 0 < pruned.1 then ⟨.error (.partitionInUse pruned.1), none, n.settle pruned.2⟩
    else
      let retired := pruned.2.retire.2
      let shared := n.share retired
      let gone : Node :=
        { shared with
          partitions := n.partitions.erase name
          totals := shared.totals.releaseReserved retired.part.bound }
      if retired.part.metadata.persisted then
        let dropped := gone.world.delete gone.storage name
        ⟨dropped.1, some retired.part, { gone with world := dropped.2 }⟩
      else ⟨.ok (), some retired.part, gone⟩

/-- Deletes a partition and its entries, unless open predicates watch it. -/
def deletePartition (n : Node) (name : Bytes) : Except CacheError Unit × Node :=
  let d := n.deletion name
  (d.outcome, d.node)

-- ---------------------------------------------------------------------------
-- Recovery
-- ---------------------------------------------------------------------------

/-- Restores records one after the other and counts the successes. Records with invalid names,
and those that cannot be admitted, are passed over. -/
def recoverEach : List (Bytes × Metadata) → Node → Nat × Node
  | [], n => (0, n)
  | (name, metadata) :: rest, n =>
    match PartitionName.check name with
    | .error _ => recoverEach rest n
    | .ok () =>
      let restored :=
        match n.find? name with
        | some p => n.reconfigure p metadata
        | none => n.createPartition name metadata false
      let later := recoverEach rest restored.2
      match restored.1 with
      | .ok () => (later.1 + 1, later.2)
      | .error _ => later

/-- Restores the partitions that were stored. Returns how many. -/
def recover (n : Node) : Except CacheError Nat × Node :=
  let kept := n.world.recover n.storage
  let n := { n with world := kept.2 }
  match kept.1 with
  | .error e => (.error e, n)
  | .ok records =>
    let restored := recoverEach records n
    (.ok restored.1, restored.2)

end CacheNode.Node
