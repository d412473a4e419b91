import CacheNode.Error
import CacheNode.Metadata
import CacheNode.Table

/-!
# CacheNode — a recording store

A metadata store in memory that notes every call it receives and can be told to fail. A failing
call is noted but changes nothing.

* `Recorder.persist`, `Recorder.delete`, `Recorder.recover` — the calls.
-/

namespace CacheNode

/-- A call that a metadata store received. -/
inductive StoreCall where
  | persist (partition : Bytes) (metadata : Metadata)
  | delete (partition : Bytes)
  | recover
deriving DecidableEq, Repr

/-- Which calls fail. -/
structure Failing where
  persist : Bool := false
  delete : Bool := false
  recover : Bool := false
deriving DecidableEq, Repr

/-- A metadata store in memory with the calls it received, oldest first. -/
structure Recorder where
  records : Table Metadata := .empty
  failing : Failing := {}
  calls : List StoreCall := []

namespace Recorder

instance : Inhabited Recorder := ⟨{}⟩

/-- How a call ends that was told to fail. -/
def refused : CacheError := .persistence "told to fail"

/-- Notes a call. -/
def note (r : Recorder) (call : StoreCall) : Recorder := { r with calls := r.calls ++ [call] }

/-- Keeps the metadata of a partition. -/
def persist (r : Recorder) (partition : Bytes) (metadata : Metadata) :
    Except CacheError Unit × Recorder :=
  let r := r.note (.persist partition metadata)
  if r.failing.persist then (.error refused, r)
  else (.ok (), { r with records := r.records.insert partition metadata })

/-- Drops the metadata of a partition. -/
def delete (r : Recorder) (partition : Bytes) : Except CacheError Unit × Recorder :=
  let r := r.note (.delete partition)
  if r.failing.delete then (.error refused, r)
  else (.ok (), { r with records := r.records.erase partition })

/-- All that is kept, in ascending order of partition names. -/
def recover (r : Recorder) : Except CacheError (List (Bytes × Metadata)) × Recorder :=
  let r := r.note .recover
  if r.failing.recover then (.error refused, r) else (.ok r.records.rows, r)

end Recorder

end CacheNode
