import CacheNode.Node.Basic

/-!
# CacheNode — admission of writes

A write that does not fit the budget is tried again after entries were evicted, up to sixteen
times. A bounded partition makes room within itself. For an unbounded one the victim is the
partition with the earliest latest hit among a random choice of those that share the budget and
may evict; if nothing can be evicted there, the partition that is written to is tried itself.

* `Node.victimFor` — the partition that makes room;
* `Node.makeRoom` — one round of eviction;
* `Node.accept` — the write with its rounds;
* `Node.putMany`, `Node.put`, `Node.increment`, `Node.decrement` — the writes of a node.
-/

namespace CacheNode.Node

/-- How often a write is tried before it is refused. -/
def attempts : Nat := 16

/-- The most entries that one round evicts. -/
def evictionsPerRound : Nat := 1024

/-- The number of entries to evict from a partition to free roughly that many bytes. -/
def evictionCount (t : Tally) (bytes : ByteCount) : Nat :=
  let average := max 1 (t.totalSize.toNat / max 1 t.itemCount.toNat)
  min (bytes.toNat / average + 1) evictionsPerRound

/-- Whether entries of a partition may be evicted in favour of other partitions. -/
def isEligible (p : Partition) : Bool :=
  !p.isBounded && p.evicts && !p.retired && 0 < p.tally.itemCount

/-- Of partitions, the first of those that were hit least recently. -/
def coldest : List Partition → Option Partition
  | [] => none
  | p :: rest =>
    match coldest rest with
    | none => some p
    | some q => if q.tally.lastHit < p.tally.lastHit then some q else some p

/-- The name of the partition that makes room for a write to `p`. -/
def victimFor (n : Node) (p : Partition) : Bytes × Node :=
  if p.isBounded then (p.name, n)
  else
    let eligible := (n.partitions.rows.map Prod.snd).filter isEligible
    let chosen := n.world.draws.choose (max 1 n.config.partitionEvictionSamples) eligible
    (((coldest chosen.1).map Partition.name).getD p.name,
      { n with world := { n.world with draws := chosen.2 } })

/-- Evicts entries of one partition to free roughly that many bytes. Returns how many. -/
def evictFrom (n : Node) (name : Bytes) (bytes : ByteCount) (now : Millis) : Nat × Node :=
  match n.visit name fun s => s.evict (evictionCount s.part.tally bytes) now (.room bytes) with
  | none => (0, n)
  | some acted => acted

/-- Evicts entries so that more bytes can be admitted into a partition. Returns whether anything
was freed. -/
def makeRoom (n : Node) (name : Bytes) (bytes : ByteCount) (now : Millis) : Bool × Node :=
  match n.find? name with
  | none => (false, n)
  | some p =>
    let limit := if p.isBounded then p.bound else n.totals.unreservedBudget
    if p.evicts = false ∨ limit < bytes then (false, n)
    else
      let victim := n.victimFor p
      let freed := victim.2.evictFrom victim.1 bytes now
      if 0 < freed.1 then (true, freed.2)
      else if victim.1 = name then (false, freed.2)
      else
        let own := freed.2.evictFrom name bytes now
        (0 < own.1, own.2)

/-- Tries a write up to `tries` times, with a round of eviction after each refusal. `needed` is
what the last refusal asked for. -/
def tryWrite {α : Type} (name : Bytes) (now : Millis)
    (write : Site → Except CacheError (Admission α) × Site) :
    Nat → ByteCount → Node → Except CacheError α × Node
  | 0, needed, n => (.error (.insufficientCapacity (.write name needed)), n)
  | tries + 1, _, n =>
    match n.visit name write with
    | none => (.error .partitionDoesNotExist, n)
    | some (.error e, n) => (.error e, n)
    | some (.ok (.done a), n) => (.ok a, n)
    | some (.ok (.needsRoom bytes), n) =>
      let room := n.makeRoom name bytes now
      if room.1 then tryWrite name now write tries bytes room.2
      else (.error (.insufficientCapacity (.write name bytes)), room.2)

/-- A write to a partition of the table, with its rounds of eviction. -/
def accept {α : Type} (n : Node) (name : Bytes) (now : Millis)
    (write : Site → Except CacheError (Admission α) × Site) : Except CacheError α × Node :=
  tryWrite name now write attempts 0 n

/-- Makes sure that a partition exists; a new one has default metadata. -/
def ensure (n : Node) (name : Bytes) : Except CacheError Node :=
  match PartitionName.check name with
  | .error e => .error e
  | .ok () =>
    match n.find? name with
    | some _ => .ok n
    | none =>
      let p := Partition.create name { createDate := n.today } n.config.limits
      .ok { n with partitions := n.partitions.insert name p }

/-- Writes a batch as a whole. The first write to a name creates the partition, except under the
condition that the keys exist, which cannot hold without one. Returns the number of keys. -/
def putMany (n : Node) (name : Bytes) (items : List (Bytes × Bytes)) (mode : PutMode)
    (now : Millis) : Except CacheError Nat × Node :=
  match mode with
  | .ifExists =>
    match n.existing name with
    | .error .partitionDoesNotExist => (.error .keyDoesNotExist, n)
    | .error e => (.error e, n)
    | .ok _ => n.accept name now fun s => s.writeMany items mode now
  | _ =>
    match n.ensure name with
    | .error e => (.error e, n)
    | .ok n => n.accept name now fun s => s.writeMany items mode now

/-- Writes one key. -/
def put (n : Node) (name key value : Bytes) (mode : PutMode) (now : Millis) :
    Except CacheError Unit × Node :=
  let written := n.putMany name [(key, value)] mode now
  (written.1.map fun _ => (), written.2)

/-- Adds to the integer under a key, which is created if it is absent. -/
def increment (n : Node) (name key : Bytes) (delta : Int64) (now : Millis) :
    Except CacheError Int64 × Node :=
  match n.ensure name with
  | .error e => (.error e, n)
  | .ok n => n.accept name now fun s => s.increment key delta now

/-- Subtracts from the integer under a key. -/
def decrement (n : Node) (name key : Bytes) (delta : Int64) (now : Millis) :
    Except CacheError Int64 × Node :=
  n.increment name key (-delta) now

end CacheNode.Node
