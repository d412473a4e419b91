import CacheNode.Watch.Hub

/-!
# CacheNode — the predicates of a partition

A predicate leads events of one partition to a subscriber: of all keys or of one, and of the
kinds that its filter accepts. A partition keeps its predicates in the order in which they were
added; a predicate is known by its subscriber's id and the id that the subscriber chose, and
adding one that is known replaces the old one in place.

Predicates that lead to closed channels are dropped when an event meets them, or when the list
is pruned. The hub counts for each channel the predicates that lead to it.

* `WatchList.publish` — queues one event for every subscriber with a matching predicate;
* `WatchList.predicates_publish` — the predicates that a publication keeps.
-/

namespace CacheNode

/-- One subscription to the events of a partition. -/
structure Predicate where
  owner : Subscriber
  /-- the subscriber's own name for this predicate, repeated in every event -/
  watchId : UInt64
  partition : Bytes
  /-- the only key to watch, or all keys -/
  key : Option Bytes
  filter : EventFilter
deriving DecidableEq, Repr

namespace Predicate

/-- Whether a predicate wants an event. -/
def wants (p : Predicate) (key : Bytes) (kind : EventKind) : Bool :=
  p.filter.accepts kind && (match p.key with | none => true | some k => k = key)

/-- Whether a predicate is the one known by a channel id and a watch id. -/
def isNamed (p : Predicate) (ownerId watchId : UInt64) : Bool :=
  p.owner.id = ownerId && p.watchId = watchId

end Predicate

/-- The predicates of a partition, oldest first. -/
structure WatchList where
  predicates : List Predicate := []
deriving DecidableEq, Repr

namespace WatchList

/-- How many predicates there are. -/
def length (w : WatchList) : Nat := w.predicates.length

/-- Drops the predicates that a test selects and lets the hub count them out. Returns how many
were dropped. -/
def discard (w : WatchList) (selected : Predicate → Bool) (hub : Hub) :
    Nat × WatchList × Hub :=
  let dropped := w.predicates.filter selected
  (dropped.length, ⟨w.predicates.filter fun p => !selected p⟩,
    hub.detachAll (dropped.map Predicate.owner))

/-- Puts a predicate in the place of the first one with its name. -/
def exchange (new : Predicate) : List Predicate → List Predicate
  | [] => []
  | p :: rest =>
    if p.isNamed new.owner.id new.watchId then new :: rest else p :: exchange new rest

/-- Adds a predicate, or replaces the one with the same name. Returns whether it was new. -/
def add (w : WatchList) (new : Predicate) (hub : Hub) : Bool × WatchList × Hub :=
  if w.predicates.any (·.isNamed new.owner.id new.watchId) then
    (false, ⟨exchange new w.predicates⟩, hub)
  else (true, ⟨w.predicates ++ [new]⟩, hub.attach new.owner)

/-- Removes the predicate with a name. Returns whether there was one. -/
def remove (w : WatchList) (ownerId watchId : UInt64) (hub : Hub) : Bool × WatchList × Hub :=
  let left := w.discard (·.isNamed ownerId watchId) hub
  (0 < left.1, left.2)

/-- Removes all predicates that lead to the channel with an id. Returns how many. -/
def removeOwner (w : WatchList) (ownerId : UInt64) (hub : Hub) : Nat × WatchList × Hub :=
  w.discard (·.owner.id = ownerId) hub

/-- Removes all predicates that lead to closed channels. Returns how many. -/
def prune (w : WatchList) (hub : Hub) : Nat × WatchList × Hub :=
  w.discard (fun p => !hub.isOpen p.owner) hub

/-- Announces a change to every predicate that wants it, oldest predicate first. Predicates
whose channel refuses the event are dropped. -/
def publish (w : WatchList) (partition key : Bytes) (value : Option Bytes) (kind : EventKind)
    (hub : Hub) : WatchList × Hub :=
  let posted := (w.predicates.filter (·.wants key kind)).foldl
    (fun h p => h.post p.owner ⟨p.watchId, partition, key, value, kind⟩) hub
  (w.discard (fun p => p.wants key kind && !hub.isOpen p.owner) posted).2

/-- A publication keeps the predicates that did not want the event or lead to open channels. -/
@[simp] theorem predicates_publish (w : WatchList) (partition key : Bytes)
    (value : Option Bytes) (kind : EventKind) (hub : Hub) :
    (w.publish partition key value kind hub).1.predicates =
      w.predicates.filter fun p => !(p.wants key kind && !hub.isOpen p.owner) := rfl

end WatchList

end CacheNode
