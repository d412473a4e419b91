import CacheNode.Node.Admission
import CacheNode.Node.Configure
import CacheNode.Node.Maintenance
import CacheNode.Outcome

/-!
# CacheNode — operations on a node

Everything that clients of a node can ask of it, and what its subscribers do on their side of
the channels, as a type. What a client can observe of a node is the results of a sequence of
operations.

* `Node.perform` — one operation and its result;
* `Node.performAll` — a sequence of operations, one after the other.
-/

namespace CacheNode

/-- An operation on a node. -/
inductive Node.Operation where
  | get (name key : Bytes) (now : Millis)
  | getMany (name : Bytes) (keys : List Bytes) (now : Millis)
  | put (mode : PutMode) (name key value : Bytes) (now : Millis)
  | putMany (name : Bytes) (items : List (Bytes × Bytes)) (mode : PutMode) (now : Millis)
  | delete (name key : Bytes) (now : Millis)
  | deleteMany (name : Bytes) (keys : List Bytes) (now : Millis)
  | touch (name key : Bytes) (now : Millis)
  | ttl (name key : Bytes) (now : Millis)
  | increment (name key : Bytes) (delta : Int64) (now : Millis)
  | decrement (name key : Bytes) (delta : Int64) (now : Millis)
  | putPartition (name : Bytes) (metadata : Metadata)
  | deletePartition (name : Bytes)
  | flushPartition (name : Bytes)
  | flushAll
  | scanPartitions (pattern : Glob) (count : Nat)
  | scanKeys (name : Bytes) (pattern : Glob) (count offset : Nat) (now : Millis)
  | openWatcher
  | closeWatcher (ownerId : UInt64)
  | watch (owner : Subscriber) (watchId : UInt64) (name : Bytes) (key : Option Bytes)
      (filter : EventFilter)
  | unwatch (ownerId watchId : UInt64) (name : Bytes)
  /-- a subscriber takes the events that wait for it -/
  | drain (who : Subscriber)
  /-- a subscriber refuses later events -/
  | stopListening (who : Subscriber)
  /-- a subscriber goes, and the events that wait for it are lost -/
  | leave (who : Subscriber)
  | compact (name : Bytes) (now : Millis) (cancel : Fuse)
  | recover
  | scan (scanner : Scanner) (now : Millis) (deadline cancel : Fuse)
  | collectRequests

namespace Node

/-- Turns the value of a step that may fail into an answer. -/
def answer {α : Type} (shape : α → Outcome) (step : Except CacheError α × Node) :
    Result × Node := (step.1.map shape, step.2)

/-- Turns the value of a step that cannot fail into an answer. -/
def yields {α : Type} (shape : α → Outcome) (step : α × Node) : Result × Node :=
  (.ok (shape step.1), step.2)

/-- Replaces the hub. -/
def withHub (n : Node) (hub : Hub) : Node := { n with world := { n.world with hub } }

/-- Performs one operation. -/
def perform (n : Node) : Operation → Result × Node
  | .get name key now => answer .payload (n.get name key now)
  | .getMany name keys now => answer .pairs (n.getMany name keys now)
  | .put mode name key value now => answer (fun _ => .done) (n.put name key value mode now)
  | .putMany name items mode now => answer .count (n.putMany name items mode now)
  | .delete name key now => answer (fun _ => .done) (n.delete name key now)
  | .deleteMany name keys now => answer .count (n.deleteMany name keys now)
  | .touch name key now => answer (fun _ => .done) (n.touch name key now)
  | .ttl name key now => answer .lifetime (n.ttl name key now)
  | .increment name key delta now => answer .integer (n.increment name key delta now)
  | .decrement name key delta now => answer .integer (n.decrement name key delta now)
  | .putPartition name metadata => answer (fun _ => .done) (n.putPartition name metadata)
  | .deletePartition name => answer (fun _ => .done) (n.deletePartition name)
  | .flushPartition name => answer .count (n.flushPartition name)
  | .flushAll => yields .count n.flushAll
  | .scanPartitions pattern count => (.ok (.keys (n.scanPartitions pattern count)), n)
  | .scanKeys name pattern count offset now =>
    ((n.scanKeys name pattern count offset now).map .page, n)
  | .openWatcher => yields .channel n.openWatcher
  | .closeWatcher ownerId => yields .count (n.closeWatcher ownerId)
  | .watch owner watchId name key filter =>
    answer (fun _ => .done) (n.watch owner watchId name key filter)
  | .unwatch ownerId watchId name => answer .flag (n.unwatch ownerId watchId name)
  | .drain who =>
    let drained := n.world.hub.drain who
    (.ok (.events drained.1), n.withHub drained.2)
  | .stopListening who => (.ok .done, n.withHub (n.world.hub.close who))
  | .leave who => (.ok .done, n.withHub (n.world.hub.abandon who))
  | .compact name now cancel => answer .compacted (n.compactPartition name now cancel)
  | .recover => answer .count n.recover
  | .scan scanner now deadline cancel =>
    let ran := scanner.run n now deadline cancel
    (.ok (.scanned ran.1 ran.2.1.cursor), ran.2.2)
  | .collectRequests =>
    let collected := n.world.collectRequests
    (.ok (.keys collected.1), { n with world := collected.2 })

/-- Performs operations one after the other and collects their results. -/
def performAll : List Operation → Node → List Result × Node
  | [], n => ([], n)
  | op :: rest, n =>
    let first := n.perform op
    let later := performAll rest first.2
    (first.1 :: later.1, later.2)

/-- A sequence in two parts is the first part and then the second. -/
theorem performAll_append (ops more : List Operation) (n : Node) :
    performAll (ops ++ more) n =
      ((performAll ops n).1 ++ (performAll more (performAll ops n).2).1,
        (performAll more (performAll ops n).2).2) := by
  induction ops generalizing n with
  | nil => rfl
  | cons op rest ih => simp [performAll, ih]

end Node

end CacheNode
