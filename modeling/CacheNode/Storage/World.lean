import CacheNode.Draws
import CacheNode.Storage.FileStore
import CacheNode.Storage.Recorder
import CacheNode.Watch.Hub

/-!
# CacheNode — the surroundings of a node

A node works with things that outlive it: the hub of its subscribers, the supply of draws, the
compaction requests that wait for a collector, and a place where configurations are kept. It uses
one of three places: none, the files of a directory, or a recording store in memory.

* `World.persist`, `World.delete`, `World.recover` — the calls to the place in use;
* `World.appointCollector`, `World.dismissCollector` — whether compaction requests are kept;
* `World.request`, `World.collectRequests` — their two sides.
-/

namespace CacheNode

/-- What outlives a node. -/
structure World where
  draws : Draws
  hub : Hub := {}
  directory : Directory := {}
  recorder : Recorder := {}
  /-- the compaction requests that wait for the collector, if there is one -/
  requests : Option (List Bytes) := none

/-- Where a node keeps configurations. -/
inductive Storage where
  | nowhere
  | files
  | recorder
deriving DecidableEq, Repr

namespace World

instance : Inhabited World := ⟨{ draws := default }⟩

-- ---------------------------------------------------------------------------
-- Compaction requests
-- ---------------------------------------------------------------------------

/-- Appoints a new collector. The requests for the one before are lost. -/
def appointCollector (w : World) : World := { w with requests := some [] }

/-- Lets the collector go: later requests are lost. -/
def dismissCollector (w : World) : World := { w with requests := none }

/-- Asks the collector to compact a partition. -/
def request (w : World) (partition : Bytes) : World :=
  { w with requests := w.requests.map (· ++ [partition]) }

/-- The compaction requests that wait, oldest first. They are handed out once. -/
def collectRequests (w : World) : List Bytes × World :=
  (w.requests.getD [], { w with requests := w.requests.map fun _ => [] })

-- ---------------------------------------------------------------------------
-- Kept configurations
-- ---------------------------------------------------------------------------

/-- Keeps the metadata of a partition. -/
def persist (w : World) (storage : Storage) (partition : Bytes) (metadata : Metadata) :
    Except CacheError Unit × World :=
  match storage with
  | .nowhere => (.ok (), w)
  | .files =>
    let stored := FileStore.persist w.directory partition metadata
    (stored.1, { w with directory := stored.2 })
  | .recorder =>
    let stored := w.recorder.persist partition metadata
    (stored.1, { w with recorder := stored.2 })

/-- Drops the metadata of a partition. -/
def delete (w : World) (storage : Storage) (partition : Bytes) :
    Except CacheError Unit × World :=
  match storage with
  | .nowhere => (.ok (), w)
  | .files =>
    let stored := FileStore.delete w.directory partition
    (stored.1, { w with directory := stored.2 })
  | .recorder =>
    let stored := w.recorder.delete partition
    (stored.1, { w with recorder := stored.2 })

/-- All that is kept, in ascending order of partition names. -/
def recover (w : World) (storage : Storage) :
    Except CacheError (List (Bytes × Metadata)) × World :=
  match storage with
  | .nowhere => (.ok [], w)
  | .files => (.ok (FileStore.recover w.directory), w)
  | .recorder =>
    let kept := w.recorder.recover
    (kept.1, { w with recorder := kept.2 })

end World

end CacheNode
