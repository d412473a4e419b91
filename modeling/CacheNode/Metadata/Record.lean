import CacheNode.Calendar.Notation
import CacheNode.Error
import CacheNode.Json.Reader
import CacheNode.Json.Writer
import CacheNode.Metadata

/-!
# CacheNode — written metadata

A partition's metadata is written as a JSON object of six members in a fixed order. It is read
from an object with these members in any order, where members with other names are passed over
and repeated ones are refused, or from an array of the six values in order. An enumerated value
is written as its name, and read also from an object whose only member has that name and the
value null.

A stored record holds a partition's name beside its metadata.

* `Metadata.toJson`, `Metadata.ofJson?` — writing and reading the six settings;
* `Record.toJson`, `Record.ofJson?` — writing and reading a stored record.
-/

namespace CacheNode

namespace Json

/-- The values of the named members, in the order of the names: from an object in which every
name can be read and each wanted one occurs once, or from an array with one item for each. -/
def fields? (names : List String) : Json → Option (List Json)
  | .object all =>
    if all.all (·.1.isSome) = true then names.mapM fun name => member? name all else none
  | .array items => if items.length = names.length then some items else none
  | _ => none

/-- A 64-bit number in plain digits. -/
def word? : Json → Option UInt64
  | .number spelling => Decimal.word? spelling
  | _ => none

/-- A truth value. -/
def bool? : Json → Option Bool
  | .bool b => some b
  | _ => none

/-- A text that can be read. -/
def text? : Json → Option String
  | .text t => t
  | _ => none

/-- The name of an enumerated value, alone or as the only member of an object, with null. -/
def variant? : Json → Option String
  | .text t => t
  | .object [(name, .null)] => name
  | _ => none

/-- A number. -/
def ofWord (w : UInt64) : Json := .number (Nat.toDigits 10 w.toNat)

/-- A text. -/
def ofString (s : String) : Json := .text (some s)

end Json

namespace ExpirationMode

/-- The name of a mode. -/
def name : ExpirationMode → String
  | sliding => "Sliding"
  | absolute => "Absolute"

/-- The mode with a name. -/
def ofName? (name : String) : Option ExpirationMode :=
  if name = "Sliding" then some sliding
  else if name = "Absolute" then some absolute
  else none

theorem ofName?_name (m : ExpirationMode) : ofName? m.name = some m := by
  cases m <;> decide

end ExpirationMode

namespace EvictionPolicy

/-- The name of a policy. -/
def name : EvictionPolicy → String
  | noEviction => "NoEviction"
  | approximateLru => "ApproximateLru"

/-- The policy with a name. -/
def ofName? (name : String) : Option EvictionPolicy :=
  if name = "NoEviction" then some noEviction
  else if name = "ApproximateLru" then some approximateLru
  else none

theorem ofName?_name (p : EvictionPolicy) : ofName? p.name = some p := by
  cases p <;> decide

end EvictionPolicy

namespace Metadata

/-- The names of the six members, in writing order. -/
def fieldNames : List String :=
  ["create_date", "expiration_interval_ms", "expiration_mode", "eviction_policy",
    "max_cache_size", "persisted"]

/-- The written form of metadata. -/
def toJson (m : Metadata) : Json :=
  .object
    [(some "create_date", .ofString (String.ofList m.createDate.write)),
      (some "expiration_interval_ms", .ofWord m.interval),
      (some "expiration_mode", .ofString m.mode.name),
      (some "eviction_policy", .ofString m.policy.name),
      (some "max_cache_size", .ofWord m.maxCacheSize),
      (some "persisted", .bool m.persisted)]

/-- The metadata that a value denotes. -/
def ofJson? (v : Json) : Option Metadata :=
  match Json.fields? fieldNames v with
  | some [createDate, interval, mode, policy, maxCacheSize, persisted] => do
    let createDate ← createDate.text?
    let createDate ← Instant.read? createDate.toList
    let interval ← interval.word?
    let mode ← mode.variant?
    let mode ← ExpirationMode.ofName? mode
    let policy ← policy.variant?
    let policy ← EvictionPolicy.ofName? policy
    let maxCacheSize ← maxCacheSize.word?
    let persisted ← persisted.bool?
    some { createDate, interval, mode, policy, maxCacheSize, persisted }
  | _ => none

/-- Reads metadata from a document. -/
def read (document : Bytes) : Except CacheError Metadata :=
  match (Json.read? document).bind ofJson? with
  | some m => .ok m
  | none => .error (.serialization "the document holds no partition metadata")

end Metadata

/-- A stored configuration: a partition's name and its metadata. -/
structure Record where
  partition : String
  metadata : Metadata
deriving DecidableEq, Repr

namespace Record

/-- The written form of a record. -/
def toJson (r : Record) : Json :=
  .object [(some "partition", .ofString r.partition), (some "metadata", r.metadata.toJson)]

/-- The record that a value denotes. -/
def ofJson? (v : Json) : Option Record :=
  match Json.fields? ["partition", "metadata"] v with
  | some [partition, metadata] => do
    let partition ← partition.text?
    let metadata ← Metadata.ofJson? metadata
    some { partition, metadata }
  | _ => none

/-- The content of the file that holds a record. -/
def document (r : Record) : Bytes := Bytes.ofText (String.ofList r.toJson.pretty)

/-- The record in a file's content. -/
def read? (document : Bytes) : Option Record := (Json.read? document).bind ofJson?

end Record

end CacheNode
