import CacheNode.Decimal
import CacheNode.Quantity
import CacheNode.Text.Utf8

/-!
# CacheNode — configuration

A node is configured by named settings whose values are byte strings. A number is written in
decimal digits with an optional plus sign; a setting that is absent, or does not spell a 64-bit
number, has its default.

* `Config` — the settings with their defaults;
* `Config.ofSettings` — reads them from a look-up of names.
-/

namespace CacheNode

/-- The settings of a node. -/
structure Config where
  /-- the byte budget shared by all partitions -/
  maxCacheSize : ByteCount := 1073741824
  /-- the largest accepted key -/
  maxKeySize : Nat := 65536
  /-- the largest accepted value -/
  maxValueSize : Nat := 16777216
  /-- entries sampled for each entry to evict -/
  keyEvictionSamples : Nat := 5
  /-- entries sampled in one round of an expiration scan -/
  keyExpirationSamples : Nat := 20
  /-- partitions compared when an eviction victim is chosen -/
  partitionEvictionSamples : Nat := 5
  /-- the pause between expiration scans -/
  scanInterval : Millis := 1000
  /-- the time that one expiration scan may take -/
  scanBudget : Millis := 25
  /-- the directory for partition configurations, if they are kept -/
  metadataDirectory : Option String := none
deriving DecidableEq, Repr

namespace Config

/-- A 64-bit number in decimal digits after an optional plus sign. -/
def word? (text : String) : Option UInt64 :=
  match text.toList with
  | '+' :: digits => Decimal.word? digits
  | digits => Decimal.word? digits

/-- The number in a setting, or the default. -/
def number (settings : String → Option Bytes) (name : String) (default : UInt64) : UInt64 :=
  (((settings name).bind Text.utf8?).bind word?).getD default

/-- Reads the configuration from a look-up of settings by name. -/
def ofSettings (settings : String → Option Bytes) : Config where
  maxCacheSize := number settings "MAX_CACHE_SIZE" 1073741824
  maxKeySize := (number settings "MAX_KEY_SIZE" 65536).toNat
  maxValueSize := (number settings "MAX_VALUE_SIZE" 16777216).toNat
  keyEvictionSamples := (number settings "KEY_EVICTION_SAMPLES" 5).toNat
  keyExpirationSamples := (number settings "KEY_EXPIRATION_SAMPLES" 20).toNat
  partitionEvictionSamples := (number settings "PARTITION_EVICTION_SAMPLES" 5).toNat
  scanInterval := number settings "EXPIRATION_SCAN_INTERVAL_MS" 1000
  scanBudget := number settings "EXPIRATION_SCAN_BUDGET_MS" 25
  metadataDirectory := ((settings "METADATA_DIR").bind Text.utf8?).filter (· ≠ "")

/-- Without settings every value is the default. -/
theorem ofSettings_none : ofSettings (fun _ => none) = {} := rfl

end Config

end CacheNode
