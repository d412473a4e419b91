import CacheNode.Partition.Read
import CacheNode.Report
import CacheNode.Watch.Hub

/-!
# CacheNode — outcomes

What an operation answers when it succeeds. All operations share one type of answers, so that
a run of operations has a list of them.
-/

namespace CacheNode

/-- The answer of an operation that succeeded. -/
inductive Outcome where
  | done
  | flag (holds : Bool)
  | count (n : Nat)
  | integer (value : Int64)
  | payload (value : Option Bytes)
  | pairs (found : List (Bytes × Bytes))
  | lifetime (left : Option Millis)
  | keys (found : List Bytes)
  | page (page : KeyPage)
  | compacted (report : CompactionReport)
  | scanned (report : ScanReport) (cursor : Nat)
  | channel (who : Subscriber)
  | events (queued : List ChangeEvent)
deriving DecidableEq, Repr

/-- The result of an operation: its answer, or why it failed. -/
abbrev Result := Except CacheError Outcome

end CacheNode
