import CacheNode.Outcome
import CacheNode.Partition.Compact
import CacheNode.Partition.Configure
import CacheNode.Partition.Write

/-!
# CacheNode — operations on a partition

The operations that whoever holds a partition can perform on it, as a type, so that sequences of
them can be spoken about.

* `Site.perform` — one operation and its result;
* `Site.performAll` — a sequence of operations, one after the other.
-/

namespace CacheNode

/-- An operation on one partition. -/
inductive Partition.Operation where
  | get (key : Bytes) (now : Millis) (touch count : Bool)
  | getMany (keys : List Bytes) (now : Millis)
  | touch (key : Bytes) (now : Millis)
  | ttl (key : Bytes) (now : Millis)
  | putMany (items : List (Bytes × Bytes)) (mode : PutMode) (now : Millis)
  | increment (key : Bytes) (delta : Int64) (now : Millis)
  | delete (key : Bytes) (now : Millis)
  | deleteMany (keys : List Bytes) (now : Millis)
  | expire (keys : List Bytes) (now : Millis)
  | evict (count : Nat) (now : Millis) (goal : EvictionGoal)
  | compact (now : Millis) (cancel : Fuse)
  | flush
  | sampleExpired (samples : Nat) (now : Millis)
  | scanKeys (pattern : Glob) (count offset : Nat) (now : Millis)
  | addWatch (owner : Subscriber) (watchId : UInt64) (key : Option Bytes) (filter : EventFilter)
  | removeWatch (ownerId watchId : UInt64)
  | removeWatchesOf (ownerId : UInt64)
  | pruneWatches

namespace Site

/-- Turns the value of a step that may fail into an answer. -/
def answer {α : Type} (shape : α → Outcome) (step : Except CacheError α × Site) :
    Result × Site := (step.1.map shape, step.2)

/-- Turns the value of a step that cannot fail into an answer. -/
def yields {α : Type} (shape : α → Outcome) (step : α × Site) : Result × Site :=
  (.ok (shape step.1), step.2)

/-- Performs one operation. -/
def perform (s : Site) : Partition.Operation → Result × Site
  | .get key now touch count => yields .payload (s.get key now touch count)
  | .getMany keys now => yields .pairs (s.getMany keys now)
  | .touch key now => answer (fun _ => .done) (s.touch key now)
  | .ttl key now => answer .lifetime (s.ttl key now)
  | .putMany items mode now => answer .count (s.putMany items mode now)
  | .increment key delta now => answer .integer (s.tryIncrement key delta now)
  | .delete key now => answer (fun _ => .done) (s.delete key now)
  | .deleteMany keys now => answer .count (s.deleteMany keys now)
  | .expire keys now => yields .count (s.expire keys now)
  | .evict count now goal => yields .count (s.evict count now goal)
  | .compact now cancel => yields .compacted (s.compact now cancel)
  | .flush => yields .count s.flush
  | .sampleExpired samples now => yields .keys (s.sampleExpired samples now)
  | .scanKeys pattern count offset now =>
    (.ok (.page (s.part.scanKeys pattern count offset now)), s)
  | .addWatch owner watchId key filter =>
    answer .flag (s.addWatch ⟨owner, watchId, s.part.name, key, filter⟩)
  | .removeWatch ownerId watchId => yields .flag (s.removeWatch ownerId watchId)
  | .removeWatchesOf ownerId => yields .count (s.removeWatchesOf ownerId)
  | .pruneWatches => yields .count s.pruneWatches

/-- Performs operations one after the other and collects their results. -/
def performAll : List Partition.Operation → Site → List Result × Site
  | [], s => ([], s)
  | op :: rest, s =>
    let first := s.perform op
    let later := performAll rest first.2
    (first.1 :: later.1, later.2)

/-- A sequence in two parts is the first part and then the second. -/
theorem performAll_append (ops more : List Partition.Operation) (s : Site) :
    performAll (ops ++ more) s =
      ((performAll ops s).1 ++ (performAll more (performAll ops s).2).1,
        (performAll more (performAll ops s).2).2) := by
  induction ops generalizing s with
  | nil => rfl
  | cons op rest ih => simp [performAll, ih]

end Site

end CacheNode
