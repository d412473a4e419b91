import CacheNode.Quantity

/-!
# CacheNode — memory of the host

Budgets and reservations are refused when the host cannot back them. A host whose free memory
is unknown refuses nothing.
-/

namespace CacheNode

/-- What the host can still hand out, if it is known. -/
structure HostMemory where
  available : Option ByteCount
deriving DecidableEq, Repr

/-- Whether the host can back that many more bytes. -/
def HostMemory.canCommit (host : HostMemory) (bytes : ByteCount) : Bool :=
  match host.available with
  | none => true
  | some available => bytes ≤ available

end CacheNode
