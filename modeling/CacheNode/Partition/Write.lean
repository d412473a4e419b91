import CacheNode.Partition.Remove

/-!
# CacheNode — writing to a partition

A batch is written as a whole or not at all. First every item is checked, then of items with
the same key the last one is kept, then the condition of the write is checked for each key, and
then the bytes that the batch adds are admitted against the budget. Only after that are the
entries written, one after the other, each with its event.

Incrementing adds to the integer that a live entry spells, or creates an entry.

* `Partition.plan` — everything that is decided before a batch is written;
* `Site.writeMany`, `Site.increment` — the writes, which may need room first;
* `Site.putMany`, `Site.tryIncrement` — the same, where lack of room is a failure.
-/

namespace CacheNode

/-- The condition under which keys are written. -/
inductive PutMode where
  /-- insert or overwrite -/
  | upsert
  /-- overwrite live keys only -/
  | ifExists
  /-- insert keys that are absent or expired only -/
  | ifNotExists
deriving DecidableEq, Repr

/-- The items whose key does not occur again later. -/
def lastOccurrences : List (Bytes × Bytes) → List (Bytes × Bytes)
  | [] => []
  | item :: rest =>
    if rest.any (·.1 = item.1) then lastOccurrences rest else item :: lastOccurrences rest

/-- A batch that has passed every check: the items to write, the bytes they take, and the bytes
that the entries in their places give back. -/
structure WritePlan where
  batch : List (Bytes × Bytes)
  newBytes : Nat
  oldBytes : Nat
deriving DecidableEq, Repr

namespace Partition

/-- Checks the key and the payload of an item. -/
def checkItem (p : Partition) (item : Bytes × Bytes) : Except CacheError Unit :=
  match p.checkKey item.1 with
  | .ok () => p.checkValue item.2
  | .error e => .error e

/-- Checks the condition of a write for a key. -/
def checkCondition (p : Partition) (mode : PutMode) (x : Expiry) (key : Bytes) :
    Except CacheError Unit :=
  match mode with
  | .upsert => .ok ()
  | .ifExists => if p.isLive key x then .ok () else .error .keyDoesNotExist
  | .ifNotExists => if p.isLive key x then .error .keyAlreadyExists else .ok ()

/-- The bytes that the entry under a key counts, zero without one. -/
def bytesAt (p : Partition) (key : Bytes) : Nat :=
  match p.entries.get? key with
  | some e => Entry.weight key e.payload
  | none => 0

/-- Decides a batch write: the first refused item, else deletion of the partition, else the
first key that fails the condition; else the plan. -/
def plan (p : Partition) (items : List (Bytes × Bytes)) (mode : PutMode) (now : Millis) :
    Except CacheError WritePlan :=
  match checkEach p.checkItem items with
  | .error e => .error e
  | .ok () =>
    match p.checkInUse with
    | .error e => .error e
    | .ok () =>
      let batch := lastOccurrences items
      match checkEach (fun item => p.checkCondition mode (p.expiry now) item.1) batch with
      | .error e => .error e
      | .ok () =>
        .ok
          { batch
            newBytes := sumOf (fun item => Entry.weight item.1 item.2) batch
            oldBytes := sumOf (fun item => p.bytesAt item.1) batch }

end Partition

namespace Site

/-- Admits more bytes against the partition's budget. -/
def grow (s : Site) (bytes : ByteCount) : Option Site :=
  (s.account.tryGrow bytes s.part.metadata.maxCacheSize).map s.settle

/-- Writes one item whose bytes are accounted for. Overwriting a live entry keeps its access
time where expiry is fixed at creation; an expired one counts as removed first. -/
def writeOne (now : Millis) (s : Site) (item : Bytes × Bytes) : Site :=
  let key := item.1
  let fresh : Entry := ⟨item.2, now⟩
  let written :=
    match s.part.entries.get? key with
    | none => (s.hold (s.part.entries.insert key fresh)).book Account.insert
    | some old =>
      if old.isExpired (s.part.expiry now) then
        ((s.hold (s.part.entries.insert key fresh)).book fun a =>
          (a.remove .expired).insert).announce key none .expire
      else if s.part.metadata.isAbsolute then
        s.hold (s.part.entries.insert key { fresh with lastAccess := old.lastAccess })
      else s.hold (s.part.entries.insert key fresh)
  written.announce key (some item.2) .write

/-- Writes a batch as a whole, or reports why not or how much room it needs. Returns the number
of keys written. -/
def writeMany (s : Site) (items : List (Bytes × Bytes)) (mode : PutMode) (now : Millis) :
    Except CacheError (Admission Nat) × Site :=
  match s.part.plan items mode now with
  | .error e => (.error e, s)
  | .ok plan =>
    let growth := UInt64.ofNat (plan.newBytes - plan.oldBytes)
    match s.grow growth with
    | none => (.ok (.needsRoom growth), s)
    | some s =>
      let written := plan.batch.foldl (writeOne now) s
      let surplus := UInt64.ofNat (plan.oldBytes - plan.newBytes)
      (.ok (.done plan.batch.length),
        written.book (·.shrink surplus s.part.metadata.maxCacheSize))

/-- Turns a need for room into a failure. -/
def orInsufficient {α : Type} (outcome : Except CacheError (Admission α) × Site) :
    Except CacheError α × Site :=
  match outcome.1 with
  | .error e => (.error e, outcome.2)
  | .ok (.done a) => (.ok a, outcome.2)
  | .ok (.needsRoom bytes) => (.error (outcome.2.insufficient bytes), outcome.2)

/-- Writes a batch as a whole, without making room for it. -/
def putMany (s : Site) (items : List (Bytes × Bytes)) (mode : PutMode) (now : Millis) :
    Except CacheError Nat × Site :=
  orInsufficient (s.writeMany items mode now)

/-- Creates an entry that spells an integer; it counts as a miss. -/
def createInteger (s : Site) (key : Bytes) (value : Int64) (now : Millis) :
    Except CacheError (Admission Int64) × Site :=
  let payload := Entry.ofInteger value
  let size := UInt64.ofNat (Entry.weight key payload)
  match s.grow size with
  | none => (.ok (.needsRoom size), s)
  | some s =>
    (.ok (.done value),
      ((s.hold (s.part.entries.insert key ⟨payload, now⟩)).book fun a =>
        a.miss.insert).announce key (some payload) .write)

/-- Adds to the integer under a key. A live entry is updated in place and counts as a hit; an
absent key gets the summand as its value, and an expired entry is removed first. -/
def increment (s : Site) (key : Bytes) (delta : Int64) (now : Millis) :
    Except CacheError (Admission Int64) × Site :=
  match s.part.checkKey key with
  | .error e => (.error e, s)
  | .ok () =>
    match s.part.checkInUse with
    | .error e => (.error e, s)
    | .ok () =>
      match s.part.entries.get? key with
      | none => s.createInteger key delta now
      | some e =>
        if e.isExpired (s.part.expiry now) then
          (s.takeOut key e .expired).createInteger key delta now
        else
          match e.increment delta with
          | .error err => (.error err, s)
          | .ok (value, e) =>
            let e := if s.part.metadata.isAbsolute then e else e.touch now
            (.ok (.done value),
              ((s.hold (s.part.entries.insert key e)).book (·.hit now)).announce key
                (some e.payload) .write)

/-- Adds to the integer under a key, without making room for a new entry. -/
def tryIncrement (s : Site) (key : Bytes) (delta : Int64) (now : Millis) :
    Except CacheError Int64 × Site :=
  orInsufficient (s.increment key delta now)

end Site

end CacheNode
