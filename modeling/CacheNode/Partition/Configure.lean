import CacheNode.Partition.Basic

/-!
# CacheNode — configuring and watching a partition

* `Site.applyMetadata` — takes over new metadata and moves the partition's bytes between the
  reserved and the shared part of the budget when it becomes bounded or unbounded;
* `Site.addWatch`, `Site.removeWatch`, `Site.removeWatchesOf`, `Site.pruneWatches` — the
  predicates that watch the partition.
-/

namespace CacheNode.Site

/-- Takes over new metadata, but for the create date. -/
def applyMetadata (s : Site) (metadata : Metadata) : Site :=
  let old := s.part.metadata
  let s := s.book (·.convert old.maxCacheSize metadata.maxCacheSize)
  { s with
    part :=
      { s.part with
        metadata := old.apply metadata
        bound := metadata.maxCacheSize
        evicts := metadata.evicts } }

/-- Replaces the predicates and the hub that counts them. -/
def watchedBy {α : Type} (s : Site) (change : α × WatchList × Hub) : α × Site :=
  (change.1, { s with part := { s.part with watches := change.2.1 }, hub := change.2.2 })

/-- Attaches a predicate. Returns whether it was new rather than a replacement. -/
def addWatch (s : Site) (predicate : Predicate) : Except CacheError Bool × Site :=
  match s.part.checkInUse with
  | .error e => (.error e, s)
  | .ok () =>
    let added := s.watchedBy (s.part.watches.add predicate s.hub)
    (.ok added.1, added.2)

/-- Removes one predicate. Returns whether it was there. -/
def removeWatch (s : Site) (ownerId watchId : UInt64) : Bool × Site :=
  s.watchedBy (s.part.watches.remove ownerId watchId s.hub)

/-- Removes all predicates of a channel. Returns how many. -/
def removeWatchesOf (s : Site) (ownerId : UInt64) : Nat × Site :=
  s.watchedBy (s.part.watches.removeOwner ownerId s.hub)

/-- Drops predicates whose subscriber has gone. Returns how many predicates remain. -/
def pruneWatches (s : Site) : Nat × Site :=
  let pruned := (s.watchedBy (s.part.watches.prune s.hub)).2
  (pruned.part.watches.length, pruned)

end CacheNode.Site
