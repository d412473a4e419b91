import CacheNode.Node.Scanner

/-!
# CacheNode — maintenance

The work that is done for a node in the background: partitions whose compaction was requested
are compacted one after the other, and the expiration scanner is run.

* `Node.compactAll` — compacts the requested partitions;
* `Node.expireAll` — one scan over every partition.
-/

namespace CacheNode.Node

/-- Compacts partitions one after the other. Those that are gone by their turn are skipped. -/
def compactAll (now : Millis) : List Bytes → Node → Node
  | [], n => n
  | name :: rest, n => compactAll now rest (n.compactPartition name now .never).2

/-- Removes expired entries from all partitions in one undisturbed scan. -/
def expireAll (n : Node) (samples : Nat) (now : Millis) : Node :=
  ((Scanner.create samples).run n now .never .never).2.2

end CacheNode.Node
