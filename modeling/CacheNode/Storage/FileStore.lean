import CacheNode.Metadata.Record
import CacheNode.PartitionName
import CacheNode.Storage.Directory

/-!
# CacheNode — configurations in files

The metadata of a partition is kept in one file, named after the partition. It is written under
a temporary name first and then moved to its place, so that a record is replaced as a whole.

Recovery reads every file that has the record extension. What cannot be read as a record is
passed over; the partition's name is the one that the record states.

* `FileStore.persist`, `FileStore.delete` — the changes, which may fail;
* `FileStore.recover` — all records, in ascending order of partition names.
-/

namespace CacheNode.FileStore

/-- The extension of a record's file. -/
def extension : Bytes := Bytes.ofText ".json"

/-- The name of the file that holds a partition's record. -/
def fileName (partition : Bytes) : Bytes := partition ++ extension

/-- The name under which the record is written first. -/
def temporaryName (partition : Bytes) : Bytes := partition ++ Bytes.ofText ".tmp"

/-- Whether a file has the record extension. A name that consists of the extension alone is a
hidden file without one. -/
def isRecordName (name : Bytes) : Bool := extension.length < name.length && extension <:+ name

/-- A failed change of the directory, as a failure of the operation. -/
def failed (e : DirectoryError) : CacheError := .persistence e.reason

/-- Writes the record of a partition, in place of the one before. When the final step fails, the
temporary file stays. -/
def persist (d : Directory) (partition : Bytes) (metadata : Metadata) :
    Except CacheError Unit × Directory :=
  match PartitionName.check partition with
  | .error e => (.error e, d)
  | .ok () =>
    let record : Record := ⟨Text.lossy partition, metadata⟩
    match d.write (temporaryName partition) record.document with
    | .error e => (.error (failed e), d)
    | .ok d =>
      match d.move (temporaryName partition) (fileName partition) with
      | .error e => (.error (failed e), d)
      | .ok d => (.ok (), d)

/-- Removes the record of a partition. It is no failure if there is none. -/
def delete (d : Directory) (partition : Bytes) : Except CacheError Unit × Directory :=
  match PartitionName.check partition with
  | .error e => (.error e, d)
  | .ok () =>
    match d.remove (fileName partition) with
    | .error .notFound => (.ok (), d)
    | .error e => (.error (failed e), d)
    | .ok d => (.ok (), d)

/-- The record in one row of a directory, if it is a record's file and can be read. -/
def recordOf? (row : Bytes × Inode) : Option (Bytes × Metadata) :=
  match row.2 with
  | .file content =>
    if isRecordName row.1 then
      (Record.read? content).map fun r => (Bytes.ofText r.partition, r.metadata)
    else none
  | .folder => none

/-- All records, in ascending order of partition names. Of records that state the same name the
one in the latest file comes first. -/
def recover (d : Directory) : List (Bytes × Metadata) :=
  (d.listing.filterMap recordOf?).mergeSort fun a b => Bytes.order a.1 b.1 ≠ .gt

end CacheNode.FileStore
