import CacheNode.Quantity
import CacheNode.Text.Utf8

/-!
# CacheNode — causes of failure

Every operation that can fail fails with one of the causes below. A cause has one wording and
one result code; two causes of the surroundings, storage and decoding, share the code for
faults that are not the caller's.

* `CacheError.message` — the wording;
* `CacheError.code`, `CacheError.isExpected` — the code, and whether the caller is to blame.
-/

namespace CacheNode

/-- What could not be provided, and for whom. -/
inductive Shortage where
  /-- a write needs this many more bytes than the partition can make room for -/
  | write (partition : Bytes) (bytes : ByteCount)
  /-- the budget has no room left for a partition's reservation -/
  | reservation (bytes : ByteCount) (partition : Bytes) (available : ByteCount)
  /-- the host cannot back a partition's reservation -/
  | hostMemory (bytes : ByteCount) (partition : Bytes)
  /-- the host cannot back the whole budget -/
  | budget (bytes : ByteCount) (available : ByteCount)
  /-- any other shortage, described by whoever met it -/
  | described (text : String)
deriving DecidableEq, Repr

/-- Why an operation failed. -/
inductive CacheError where
  | missingKey
  | missingValue
  | missingPartitionKey
  | invalidPartitionKey (name : String)
  | keyTooLarge (size max : Nat)
  | valueTooLarge (size max : Nat)
  | keyAlreadyExists
  | keyDoesNotExist
  | partitionDoesNotExist
  | partitionInUse (predicates : Nat)
  | insufficientCapacity (shortage : Shortage)
  | invalidTypeOperation (length : Nat)
  | persistence (reason : String)
  | serialization (reason : String)
deriving DecidableEq, Repr

/-- The flat outcome reported to a caller who only needs the kind. -/
inductive ResultCode where
  | success
  | missingKey
  | missingValue
  | missingPartitionKey
  | invalidPartitionKey
  | keyTooLarge
  | valueTooLarge
  | keyAlreadyExists
  | keyDoesNotExist
  | partitionDoesNotExist
  | partitionInUse
  | insufficientCapacity
  | invalidTypeOperation
  | internalError
deriving DecidableEq, Repr

/-- The wording of a shortage. -/
def Shortage.message : Shortage → String
  | .write partition bytes =>
    s!"partition {Text.lossy partition} cannot admit {bytes} more bytes"
  | .reservation bytes partition available =>
    s!"cannot reserve {bytes} bytes for partition {Text.lossy partition}, {available} available"
  | .hostMemory bytes partition =>
    s!"host memory cannot back {bytes} bytes for partition {Text.lossy partition}"
  | .budget bytes available =>
    s!"cache budget of {bytes} bytes exceeds Some({available}) bytes of available host memory"
  | .described text => text

namespace CacheError

/-- The wording of a failure. -/
def message : CacheError → String
  | missingKey => "Key is missing"
  | missingValue => "Value is missing"
  | missingPartitionKey => "Partition key is missing"
  | invalidPartitionKey name => s!"Invalid partition key: {name}"
  | keyTooLarge size max => s!"Key of {size} bytes exceeds maximum of {max} bytes"
  | valueTooLarge size max => s!"Value of {size} bytes exceeds maximum of {max} bytes"
  | keyAlreadyExists => "Key already exists"
  | keyDoesNotExist => "Key does not exist"
  | partitionDoesNotExist => "Partition does not exist"
  | partitionInUse predicates => s!"Partition is in use by {predicates} watch predicate(s)"
  | insufficientCapacity shortage => s!"Insufficient capacity: {shortage.message}"
  | invalidTypeOperation length => s!"Value of {length} bytes is not an integer"
  | persistence reason => s!"Persistence error: {reason}"
  | serialization reason => s!"Serialization error: {reason}"

/-- The result code of a failure. -/
def code : CacheError → ResultCode
  | missingKey => .missingKey
  | missingValue => .missingValue
  | missingPartitionKey => .missingPartitionKey
  | invalidPartitionKey _ => .invalidPartitionKey
  | keyTooLarge .. => .keyTooLarge
  | valueTooLarge .. => .valueTooLarge
  | keyAlreadyExists => .keyAlreadyExists
  | keyDoesNotExist => .keyDoesNotExist
  | partitionDoesNotExist => .partitionDoesNotExist
  | partitionInUse _ => .partitionInUse
  | insufficientCapacity _ => .insufficientCapacity
  | invalidTypeOperation _ => .invalidTypeOperation
  | persistence _ | serialization _ => .internalError

/-- Whether the caller caused the failure, rather than a fault of the storage behind the node. -/
def isExpected (e : CacheError) : Bool := e.code ≠ .internalError

end CacheError

namespace ResultCode

/-- The name under which a code is reported. -/
def name : ResultCode → String
  | success => "Success"
  | missingKey => "MissingKey"
  | missingValue => "MissingValue"
  | missingPartitionKey => "MissingPartitionKey"
  | invalidPartitionKey => "InvalidPartitionKey"
  | keyTooLarge => "KeyTooLarge"
  | valueTooLarge => "ValueTooLarge"
  | keyAlreadyExists => "KeyAlreadyExists"
  | keyDoesNotExist => "KeyDoesNotExist"
  | partitionDoesNotExist => "PartitionDoesNotExist"
  | partitionInUse => "PartitionInUse"
  | insufficientCapacity => "InsufficientCapacity"
  | invalidTypeOperation => "InvalidTypeOperation"
  | internalError => "InternalError"

end ResultCode

end CacheNode
